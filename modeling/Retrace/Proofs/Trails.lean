import Mathlib.Data.List.Induction
import Retrace.Proofs.Calls

/-!
# What undoing keeps

An invariant of steps is not yet an invariant of runs, because a run may go back. What an unstep
leads to is told by the history, so the history has to be part of the invariant: it must lead back
over states that had the property when they were left. This is a `Trail`.

A state that was left comes back on a larger grid, and a machine that stopped stays stopped. A
property that neither of this can break is `Lasting`. For such a property it is enough to look at
steps that execute (`Upholds.calls`): failed steps, undone steps, stopping and restarting follow, in
any order, and with any part of the history forgotten.
-/

namespace Retrace

/-- Nothing has been noted in the history, or none is kept. -/
structure History.Fresh (h : History) : Prop where
  groups : h.groups = []
  pending : h.pending = []

/-- A property that a state shares with its paddings. -/
def State.Lasting (P : State → Prop) : Prop := ∀ s t : State, s.PaddedTo t → P s → P t

/-- The groups lead back from `now` over states with `P`, each of them up to padding. -/
inductive Trail (P : State → Prop) : State → List (List Change) → Prop where
  | nil {now : State} : Trail P now []
  | cons {now s : State} {deed : Deed} {groups : List (List Change)}
      (rectangular : s.grid.Rectangular) (holds : P s)
      (state : (s.perform deed).1.PaddedTo now) (rest : Trail P s groups) :
      Trail P now ((s.perform deed).2.reverse :: groups)

namespace Trail

variable {P : State → Prop} {now now' : State} {groups : List (List Change)}

theorem padded (h : Trail P now groups) (hpad : now.PaddedTo now') : Trail P now' groups := by
  cases h with
  | nil => exact .nil
  | cons rectangular holds state rest => exact .cons rectangular holds (state.trans hpad) rest

theorem take (h : Trail P now groups) (n : Nat) : Trail P now (groups.take n) := by
  induction h generalizing n with
  | nil =>
    rw [List.take_nil]
    exact .nil
  | cons rectangular holds state _ ih =>
    cases n with
    | zero => exact .nil
    | succ n => exact .cons rectangular holds state (ih n)

/-- A history that takes one more group may forget others. -/
theorem add {group : List Change} {history : History}
    (h : Trail P now (group :: history.groups)) : Trail P now (history.add group).groups := by
  cases history with
  | off => exact .nil
  | kept j =>
    show Trail P now (newest j.limit (group :: j.groups))
    cases j.limit with
    | none => exact h
    | some n => exact h.take n

/-- Reverting the newest group leads to a padding of the state that was left. -/
theorem revertAll {group : List Change} (h : Trail P now (group :: groups)) :
    ∃ s, P s ∧ s.PaddedTo (now.revertAll group) ∧ Trail P s groups := by
  cases h with
  | @cons _ s _ _ rectangular holds state rest =>
    exact ⟨s, holds, state.revertAll_perform rectangular, rest⟩

end Trail

namespace Machine

variable {π η ρ : Type}

/-- The state has `P`, and the history leads back over states that had it. -/
structure Upholds (P : State → Prop) (m : Machine π η ρ) : Prop where
  rectangular : m.state.grid.Rectangular
  pending : m.history.pending = []
  holds : P m.state
  trail : Trail P m.state m.history.groups

/-- A machine at the start of a program has nothing to go back to. -/
theorem upholds_start {P : State → Prop} {grid : Grid} (hgrid : grid.Rectangular) (channel : π)
    (guard : η) (dice : ρ) {history : History} (hfresh : history.Fresh)
    (division : DivisionPolicy) (hP : P { grid }) :
    ((start grid channel guard dice history).withDivision division).Upholds P := by
  refine ⟨hgrid, hfresh.pending, hP, ?_⟩
  show Trail P { grid } history.groups
  rw [hfresh.groups]
  exact .nil

namespace Upholds

variable {P : State → Prop} {m : Machine π η ρ}

theorem withRunning (h : m.Upholds P) (hP : State.Lasting P) (b : Bool) :
    Upholds P { m with state := { m.state with running := b } } := by
  have hpad : m.state.PaddedTo { m.state with running := b } :=
    ⟨.refl h.rectangular, rfl, rfl, rfl, rfl⟩
  exact ⟨h.rectangular, h.pending, hP _ _ hpad h.holds, h.trail.padded hpad⟩

variable [Channel π]

theorem unstep (h : m.Upholds P) (hP : State.Lasting P) : m.unstep.state.Upholds P := by
  cases hg : m.history.groups with
  | nil =>
    rw [(unstep_of_no_groups hg).2]
    exact h
  | cons group groups =>
    have htrail := h.trail
    rw [hg] at htrail
    obtain ⟨s, hs, hpad, hrest⟩ := htrail.revertAll
    rw [(unstep_of_groups hg).2]
    refine ⟨hpad.grid.outer, ?_, hP _ _ hpad hs, ?_⟩
    · rw [History.pending_dropNewest]
      exact h.pending
    · rw [History.groups_dropNewest, hg]
      exact hrest.padded hpad

variable [EdgeGuard η] [DirectionSource ρ]

theorem step (h : m.Upholds P)
    (hstep : ∀ c deed, m.Executes c deed → P (m.state.perform deed).1) :
    m.step.state.Upholds P := by
  rcases m.step_cases with ⟨c, deed, hexec⟩ | ⟨_, huntouched⟩
  · have hrect := State.rectangular_perform h.rectangular deed
    rw [hexec.step_eq.2, History.extend_eq_add h.pending]
    refine ⟨hrect, ?_, hstep c deed hexec, ?_⟩
    · rw [History.pending_add]
      exact h.pending
    · exact Trail.add (.cons h.rectangular h.holds (.refl hrect) h.trail)
  · refine ⟨?_, ?_, ?_, ?_⟩
    · rw [huntouched.state]
      exact h.rectangular
    · rw [huntouched.history]
      exact h.pending
    · rw [huntouched.state]
      exact h.holds
    · rw [huntouched.state, huntouched.history]
      exact h.trail

/-- **What executed steps keep, every run keeps.** The steps to look at are those that execute in a
state that a run leads to. -/
theorem calls (h : m.Upholds P) (hP : State.Lasting P)
    (hstep : ∀ cs c deed, (m.calls cs).Upholds P → (m.calls cs).Executes c deed →
      P ((m.calls cs).state.perform deed).1)
    (cs : List Call) : (m.calls cs).Upholds P := by
  induction cs using List.reverseRecOn with
  | nil => exact h
  | append_singleton cs c ih =>
    have hsnoc : m.calls (cs ++ [c]) = (m.calls cs).call c := by
      rw [Machine.calls, List.foldl_append]
      rfl
    rw [hsnoc]
    cases c with
    | step => exact ih.step fun c deed => hstep cs c deed ih
    | unstep => exact ih.unstep hP
    | stop => exact ih.withRunning hP false
    | restart => exact ih.withRunning hP true

end Upholds

end Machine

end Retrace
