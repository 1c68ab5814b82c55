import Retrace.Channel.Transcript
import Retrace.Proofs.Trails

/-!
# Machines rest only to halt

The pointer travels in one of four directions, or it rests, and it comes to rest by halting only.
But halting and resting are not undone together: undoing a halt restores the velocity and leaves the
machine stopped, and restarting makes it run with the velocity it has. So a machine may run at rest,
and it must not stay there for ever.

It does not. Whenever the pointer rests, there is an `@` under it and the mode is normal
(`State.Rests`), so that the next step halts again. Steps keep this because a machine at rest does
nothing but halt, and undoing keeps it because it held in the state that comes back.
-/

namespace Retrace

namespace State

def Travels (s : State) : Prop := ∃ d : Direction, s.velocity = d.velocity

/-- The pointer rests on a cell that halts. -/
structure Rests (s : State) : Prop where
  velocity : s.velocity = .origin
  mode : s.mode = .normal
  cell : s.cell? = some '@'

theorem Rests.padded {s t : State} (h : s.Rests) (hst : s.PaddedTo t) : t.Rests := by
  refine ⟨hst.velocity.trans h.velocity, hst.mode.trans h.mode, ?_⟩
  have hcell := hst.grid.get?_some h.cell
  rw [← hst.position] at hcell
  exact hcell

theorem lasting_travels_or_rests : Lasting fun s => s.Travels ∨ s.Rests := by
  intro s t hst hs
  rcases hs with ⟨d, hd⟩ | hrests
  · exact .inl ⟨d, hst.velocity.trans hd⟩
  · exact .inr (hrests.padded hst)

/-- Only halting stops a pointer that travels. -/
theorem travels_perform {s : State} {d : Deed} (hd : d ≠ .halt) (hs : s.Travels) :
    (s.perform d).1.Travels := by
  cases d with
  | halt => exact absurd rfl hd
  | turn d => exact ⟨d, rfl⟩
  | branch nonzero zero => exact ⟨if s.stack.pop?.1.getD 0 = 0 then zero else nonzero, rfl⟩
  | place target c => cases target <;> exact hs
  | _ => exact hs

end State

namespace Machine

variable {π η ρ : Type} [Channel π] [EdgeGuard η] [DirectionSource ρ]

/-! ### Halting -/

theorem Executes.rests_of_halt {m : Machine π η ρ} {c : Char} (h : m.Executes c .halt) :
    (m.state.perform .halt).1.Rests := by
  obtain ⟨hmode, hcell, _⟩ := h.cell?_eq (i := .halt) rfl (by simp)
  exact ⟨rfl, hmode, hcell⟩

theorem Executes.deed_eq_halt {m : Machine π η ρ} {c : Char} {deed : Deed} (h : m.Executes c deed)
    (hm : m.state.grid.Rectangular) (hmode : m.state.mode = .normal)
    (hcell : m.state.cell? = some '@') : deed = .halt := by
  have hc := h.eq_of_cell? hm hcell
  subst hc
  have hdeed := (h.resolved hmode).1
  cases hdeed
  rfl

/-- A machine that runs at rest halts, for which nobody is asked. -/
theorem executes_of_rests {m : Machine π η ρ} (hm : m.state.grid.Rectangular)
    (hrun : m.state.running = true) (h : m.state.Rests) :
    m.Executes '@' .halt ∧ m.consulted '@' = m.surroundings := by
  have hread := hm.read_of_get? h.cell m.surroundings.guard
  have hfetch : fetch m.state m.surroundings = .done (some '@') m.surroundings := by
    simp only [fetch, hread]
    rfl
  refine ⟨⟨hrun, ?_, ?_⟩, ?_⟩
  · rw [hfetch]
    rfl
  · rw [interpret, h.mode]
    rfl
  · rw [consulted, interpret, h.mode, hfetch]
    rfl

/-! ### Every run -/

theorem travels_or_rests_step {m : Machine π η ρ} {c : Char} {deed : Deed}
    (hm : m.Upholds fun s => s.Travels ∨ s.Rests) (h : m.Executes c deed) :
    (m.state.perform deed).1.Travels ∨ (m.state.perform deed).1.Rests := by
  by_cases hd : deed = .halt
  · subst hd
    exact .inr h.rests_of_halt
  · rcases hm.holds with htravels | hrests
    · exact .inl (State.travels_perform hd htravels)
    · exact absurd (h.deed_eq_halt hm.rectangular hrests.mode hrests.cell) hd

theorem travels_or_rests_calls {grid : Grid} (hgrid : grid.Rectangular) (channel : π) (guard : η)
    (dice : ρ) {history : History} (hfresh : history.Fresh) (division : DivisionPolicy)
    (cs : List Call) :
    (((start grid channel guard dice history).withDivision division).calls cs).Upholds
      fun s => s.Travels ∨ s.Rests := by
  refine (upholds_start hgrid channel guard dice hfresh division (.inl ⟨.right, rfl⟩)).calls
    State.lasting_travels_or_rests ?_ cs
  intro cs c deed hm hexec
  exact travels_or_rests_step hm hexec

/-- How the pointer moves, and when the machine is turned off and on. -/
structure Motion (m : Machine π η ρ) : Prop where
  course : m.state.Travels ∨ m.state.Rests
  /-- A machine at rest that is restarted halts in place, and has one more step to undo. -/
  restarted : m.state.velocity = .origin → m.restart.step.result = .ok .executed ∧
    m.restart.step.state = { m.stop with history := m.history.add [.turned .origin] }
  /-- No machine runs on at rest. -/
  ends : m.state.running = true → m.state.velocity = .origin →
    m.step.result = .ok .executed ∧
      m.step.state = { m.stop with history := m.history.add [.turned .origin] }
  /-- A machine is turned off by being stopped, or by an `@` that it executes. -/
  turnedOff (c : Call) : m.state.running = true → ((m.call c).state.running = false ↔
    c = .stop ∨ c = .step ∧ m.step.result = .ok .executed ∧ m.state.mode = .normal ∧
      m.state.cell? = some '@')
  /-- It is turned on by being restarted. -/
  turnedOn (c : Call) : m.state.running = false →
    ((m.call c).state.running = true ↔ c = .restart)
  undone : m.unstep.state.state.running = m.state.running

omit [EdgeGuard η] [DirectionSource ρ] in
/-- An unstep neither starts a machine nor stops it. -/
theorem running_unstep (m : Machine π η ρ) : m.unstep.state.state.running = m.state.running := by
  cases hg : m.history.groups with
  | nil => rw [(unstep_of_no_groups hg).2]
  | cons group rest =>
    rw [(unstep_of_groups hg).2]
    exact State.running_revertAll group m.state

/-- A step turns the machine off iff it executes an `@`. -/
theorem running_step_iff {m : Machine π η ρ} (hm : m.state.grid.Rectangular)
    (hrun : m.state.running = true) :
    m.step.state.state.running = false ↔ m.step.result = .ok .executed ∧
      m.state.mode = .normal ∧ m.state.cell? = some '@' := by
  rcases m.step_cases with ⟨c, deed, hexec⟩ | ⟨hne, huntouched⟩
  · rw [hexec.step_eq.1, hexec.step_eq.2]
    constructor
    · intro hoff
      by_cases hd : deed = .halt
      · subst hd
        obtain ⟨hmode, hcell, _⟩ := hexec.cell?_eq (i := .halt) rfl (by simp)
        exact ⟨rfl, hmode, hcell⟩
      · rw [State.running_perform hd, hrun] at hoff
        cases hoff
    · rintro ⟨_, hmode, hcell⟩
      rw [hexec.deed_eq_halt hm hmode hcell]
      rfl
  · rw [huntouched.state, hrun]
    simp [hne]

/-- A machine that runs at rest halts in place. -/
theorem step_of_rests {m : Machine π η ρ} (hm : m.state.grid.Rectangular)
    (hpending : m.history.pending = []) (hrun : m.state.running = true) (h : m.state.Rests) :
    m.step.result = .ok .executed ∧
      m.step.state = { m.stop with history := m.history.add [.turned .origin] } := by
  obtain ⟨hexec, hconsulted⟩ := executes_of_rests hm hrun h
  have hvelocity := h.velocity
  refine ⟨hexec.step_eq.1, ?_⟩
  rw [hexec.step_eq.2, hconsulted, History.extend_eq_add hpending]
  obtain ⟨⟨grid, position, velocity, stack, mode, running⟩, around, division, history⟩ := m
  simp only at hvelocity
  subst hvelocity
  rfl

theorem Upholds.motion {m : Machine π η ρ} (hm : m.Upholds fun s => s.Travels ∨ s.Rests) :
    m.Motion := by
  have hrests : m.state.velocity = .origin → m.state.Rests := by
    intro hvelocity
    rcases hm.holds with ⟨d, hd⟩ | hrests
    · exact absurd (hd.symm.trans hvelocity) d.velocity_ne_origin
    · exact hrests
  refine ⟨hm.holds, ?_, ?_, ?_, ?_, running_unstep m⟩
  · intro hvelocity
    obtain ⟨hv, hmode, hcell⟩ := hrests hvelocity
    exact step_of_rests (m := m.restart) hm.rectangular hm.pending rfl ⟨hv, hmode, hcell⟩
  · intro hrun hvelocity
    exact step_of_rests hm.rectangular hm.pending hrun (hrests hvelocity)
  · intro c hrun
    cases c with
    | step =>
      show m.step.state.state.running = false ↔ _
      simpa using running_step_iff hm.rectangular hrun
    | unstep =>
      show m.unstep.state.state.running = false ↔ _
      simp [running_unstep, hrun]
    | stop => simp [call, stop]
    | restart => simp [call, restart]
  · intro c hrun
    cases c with
    | step =>
      have hne : m.step.state.state.running = false := by
        rcases m.step_cases with ⟨_, _, hexec⟩ | ⟨_, huntouched⟩
        · cases hrun.symm.trans hexec.running
        · rw [huntouched.state, hrun]
      show m.step.state.state.running = true ↔ _
      simp [hne]
    | unstep =>
      show m.unstep.state.state.running = true ↔ _
      simp [running_unstep, hrun]
    | stop => simp [call, stop]
    | restart => simp [call, restart]

/-- **A machine rests only to halt**, whatever calls it has seen, at any channel and under any
guard, with a history of any limit or without one. -/
theorem motion_calls (grid : Grid) (hgrid : grid.Rectangular) (channel : π) (guard : η) (dice : ρ)
    (history : History) (hfresh : history.Fresh) (division : DivisionPolicy) (cs : List Call) :
    (((start grid channel guard dice history).withDivision division).calls cs).Motion :=
  (travels_or_rests_calls hgrid channel guard dice hfresh division cs).motion

/-- A program that halts at its second cell. -/
def brief : Machine Transcript EdgePolicy Xoshiro :=
  start ⟨#[#['1', '@']], 2, 1, 16⟩ (.scripted "") .standard default (.kept (.bounded 1))

/-- Halted twice, and undone once: the machine rests, and the velocity from before the first halt
has been forgotten. -/
theorem motion_calls_brief :
    brief.state.grid.Rectangular ∧ brief.history.Fresh ∧
      (brief.calls [.step, .step, .restart, .step, .unstep]).Motion ∧
      (brief.calls [.step, .step, .restart, .step, .unstep]).state.velocity = .origin ∧
      (brief.calls [.step, .step, .restart, .step, .unstep]).restart.step.result =
        .ok .executed := by
  have hgrid : brief.state.grid.Rectangular := by decide
  have hfresh : brief.history.Fresh := ⟨rfl, rfl⟩
  have hmotion : (brief.calls [.step, .step, .restart, .step, .unstep]).Motion :=
    motion_calls _ hgrid _ _ _ _ hfresh .fatal _
  have hrest : (brief.calls [.step, .step, .restart, .step, .unstep]).state.velocity = .origin := by
    rfl
  exact ⟨hgrid, hfresh, hmotion, hrest, (hmotion.restarted hrest).1⟩

end Machine

end Retrace
