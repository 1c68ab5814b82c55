import Retrace.Channel.Terminal
import Retrace.Channel.Transcript
import Retrace.Proofs.Routines

/-!
# A step happens whole or not at all

A step can fail in five places: the guard may refuse the fetch, the guard may refuse the cell that
an instruction reads or writes, the grid may become too large, a divisor may be zero, and the
channel may fail, also in the middle of a text. Wherever it fails, the program's state, the dice and
the history are as they were. A step that does not fail adds one group to the history, and in that
group there are the changes of this step and no others.

All this is said of `Routine.step`, where every effect stays that was had before a failure. An
instruction that took its operand or noted its change before the last thing that can fail would
leave it behind; none does (`Routine.run_dispatch`). That a group has no changes of an earlier step
in it needs that none is pending when a step begins. Nothing but a step notes changes, and it
commits all that it notes, so this is an invariant of runs (`Machine.pending_calls`).
-/

namespace Retrace.Machine

variable {π η ρ : Type} [Channel π] [EdgeGuard η] [DirectionSource ρ]

/-! ### Whole steps -/

/-- Nothing is pending, and the next step, had effect by effect, happens whole or not at all. -/
structure AllOrNothing (m : Machine π η ρ) : Prop where
  settled : m.history.pending = []
  /-- A step that fails, or finds the machine stopped, or finds no cell, has not happened. -/
  nothing : (Routine.step.run m).result ≠ .ok .executed → m.Untouched (Routine.step.run m).state
  /-- A step that happens is one deed, and its changes are one more group. -/
  all : (Routine.step.run m).result = .ok .executed →
    ∃ deed, (Routine.step.run m).state.state = (m.state.perform deed).1 ∧
      (m.state.perform deed).2 ≠ [] ∧
      (Routine.step.run m).state.history = m.history.add (m.state.perform deed).2.reverse ∧
      (Routine.step.run m).state.history.pending = []

/-- **Steps are all or nothing**, at any channel and under any guard, in every state that a machine
with a settled history can be brought into. -/
theorem allOrNothing_calls (m : Machine π η ρ) (hm : m.history.pending = []) (cs : List Call) :
    (Routine.calls m cs).AllOrNothing := by
  have hsettled : (Routine.calls m cs).history.pending = [] := by
    rw [Routine.calls_eq]
    exact pending_calls hm cs
  refine ⟨hsettled, ?_, ?_⟩
  · intro hne
    rw [Routine.run_step] at hne ⊢
    exact untouched_of_not_executed hne
  · intro hok
    rw [Routine.run_step] at hok ⊢
    obtain ⟨c, deed, hexec⟩ := result_step_eq_executed_iff.1 hok
    refine ⟨deed, ?_, State.perform_changes_ne_nil _ _, ?_, pending_step hsettled⟩
    · rw [hexec.step_eq.2]
    · rw [hexec.step_eq.2]
      exact History.extend_eq_add hsettled _

/-- A program that prints a number, at a terminal with room for half of it. -/
def curtailed : Machine Terminal EdgePolicy Xoshiro :=
  start ⟨#[#['7', '.']], 2, 1, 16⟩ ⟨{ sink := { capacity := some 2 } }⟩ .standard default
    (.kept (.bounded 2))

/-- The number is printed in part, and then the terminal is full: the number is still on the stack
and the history is that of the step before. -/
theorem allOrNothing_calls_curtailed :
    let m := Routine.calls curtailed [.step]
    let after := Routine.step.run m
    curtailed.history.pending = [] ∧ m.AllOrNothing ∧
      after.result = .error (.stream .full) ∧
      after.state.surroundings.channel.console.sink.written.data = #[32, 55] ∧
      after.state.state.stack.toList = [7] ∧
      after.state.history = .kept { groups := [[.moved ⟨0, 0⟩, .pushed]], limit := some 2 } := by
  intro m after
  refine ⟨rfl, allOrNothing_calls curtailed rfl [.step], ?_⟩
  exact ⟨by decide +kernel, by decide +kernel, by decide +kernel, by decide +kernel⟩

end Retrace.Machine
