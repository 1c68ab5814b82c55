import Retrace.Proofs.Margins

/-!
# A pointer that leaves to the left or upward

Past the right and the bottom edge there is no cell, and a machine stalls there. Past the other two
there are spaces without end. A pointer that gets there was in the grid before, so it came straight
out of a row or a column, and a space does not turn it: it travels on in the same direction and does
not come back (`LeavesStraight`). This is the one way in which a program can run for ever without
being in the grid.

There is no wrapping around to be seen either. It would take the pointer to the far right, where
there is no cell.

The invariant needs no guard that consents, because where a guard refuses there is no step. It needs
one only to go on (`DriftsFor`).
-/

namespace Retrace

namespace Deed

def moves : Deed → Nat
  | .halt => 0
  | .skip => 2
  | _ => 1

theorem moves_eq_one {d : Deed} (hhalt : d ≠ .halt) (hskip : d ≠ .skip) : d.moves = 1 := by
  cases d with
  | halt => exact absurd rfl hhalt
  | skip => exact absurd rfl hskip
  | _ => rfl

/-- What a space amounts to. -/
def blank : Mode → Deed
  | .normal => .idle
  | .text => .push 32

end Deed

namespace State

variable {s t : State}

/-- Left of the grid the pointer travels left, beside a row. Above the grid it travels up, over a
column. -/
structure LeavesStraight (s : State) : Prop where
  left : s.position.x.toInt < 0 → s.velocity = Direction.left.velocity ∧
    0 ≤ s.position.y.toInt ∧ s.position.y.toInt < s.grid.height
  up : s.position.y.toInt < 0 → s.velocity = Direction.up.velocity ∧
    0 ≤ s.position.x.toInt ∧ s.position.x.toInt < s.grid.width

def HasLeft (s : State) : Prop := s.position.x.toInt < 0 ∨ s.position.y.toInt < 0

theorem Within.leavesStraight (h : s.Within 0) : s.LeavesStraight := by
  obtain ⟨hleft, _, htop, _⟩ := h
  constructor
  · intro hx
    omega
  · intro hy
    omega

theorem LeavesStraight.padded (h : s.LeavesStraight) (hst : s.PaddedTo t) : t.LeavesStraight := by
  have hw := hst.grid.width_le
  have hht := hst.grid.height_le
  constructor
  · intro hx
    rw [hst.position] at hx
    obtain ⟨hv, hlow, hhigh⟩ := h.left hx
    rw [hst.velocity, hst.position]
    exact ⟨hv, hlow, by omega⟩
  · intro hy
    rw [hst.position] at hy
    obtain ⟨hv, hlow, hhigh⟩ := h.up hy
    rw [hst.velocity, hst.position]
    exact ⟨hv, hlow, by omega⟩

theorem lasting_leavesStraight : Lasting fun s => s.grid.Moderate → s.LeavesStraight :=
  Lasting.whileModerate fun _ _ hst hs => hs.padded hst

theorem leavesStraight_start (grid : Grid) : State.LeavesStraight { grid } := by
  have hx : Point.origin.x.toInt = 0 := rfl
  have hy : Point.origin.y.toInt = 0 := rfl
  constructor
  · intro hneg
    change Point.origin.x.toInt < 0 at hneg
    omega
  · intro hneg
    change Point.origin.y.toInt < 0 at hneg
    omega

/-! ### Out of the grid -/

/-- From inside the grid a deed leads away along the velocity that it leaves behind. -/
theorem Within.position_perform (h : s.Within 0) (hg : s.grid.Moderate) (hv : s.velocity.IsShort)
    (d : Deed) :
    (s.perform d).1.position.x.toInt =
        s.position.x.toInt + d.moves * (s.perform d).1.velocity.x.toInt ∧
      (s.perform d).1.position.y.toInt =
        s.position.y.toInt + d.moves * (s.perform d).1.velocity.y.toInt := by
  obtain ⟨⟨hskip, hlast⟩, _⟩ := h.perform hg hv d
  by_cases hdhalt : d = .halt
  · subst hdhalt
    simp [Deed.moves, State.perform, State.enact]
  obtain ⟨hx, hy⟩ := hlast hdhalt
  rw [perform_eq hdhalt]
  by_cases hdskip : d = .skip
  · subst hdskip
    obtain ⟨hx', hy'⟩ := hskip rfl
    -- The second move starts where the first one has ended, with the same velocity.
    have hx₂ : s.advance.1.advance.1.position.x.toInt =
        s.advance.1.position.x.toInt + s.velocity.x.toInt := hx
    have hy₂ : s.advance.1.advance.1.position.y.toInt =
        s.advance.1.position.y.toInt + s.velocity.y.toInt := hy
    show s.advance.1.advance.1.position.x.toInt = s.position.x.toInt + 2 * s.velocity.x.toInt ∧
      s.advance.1.advance.1.position.y.toInt = s.position.y.toInt + 2 * s.velocity.y.toInt
    omega
  · rw [position_enact hdskip] at hx hy
    rw [Deed.moves_eq_one hdhalt hdskip, Int.natCast_one, Int.one_mul, Int.one_mul]
    exact ⟨hx, hy⟩

/-- Along a direction one can leave only straight. -/
theorem Within.leavesStraight_of_moved (h : s.Within 0) {d : Direction} {k : Nat}
    (hv : t.velocity = d.velocity)
    (hx : t.position.x.toInt = s.position.x.toInt + k * t.velocity.x.toInt)
    (hy : t.position.y.toInt = s.position.y.toInt + k * t.velocity.y.toInt)
    (hw : s.grid.width ≤ t.grid.width) (hht : s.grid.height ≤ t.grid.height) :
    t.LeavesStraight := by
  obtain ⟨hleft, hright, htop, hbottom⟩ := h
  rw [hv] at hx hy
  constructor
  · intro hneg
    cases d with
    | left =>
      change _ = _ + (k : Int) * 0 at hy
      exact ⟨hv, by omega, by omega⟩
    | up | down =>
      change _ = _ + (k : Int) * 0 at hx
      omega
    | right =>
      change _ = _ + (k : Int) * 1 at hx
      omega
  · intro hneg
    cases d with
    | up =>
      change _ = _ + (k : Int) * 0 at hx
      exact ⟨hv, by omega, by omega⟩
    | left | right =>
      change _ = _ + (k : Int) * 0 at hy
      omega
    | down =>
      change _ = _ + (k : Int) * 1 at hy
      omega

/-! ### Outside -/

theorem LeavesStraight.found_eq (h : s.LeavesStraight) (hout : s.HasLeft) :
    s.grid.found s.position = some ' ' := by
  rw [Grid.found, Grid.missed?]
  rcases hout with hx | hy
  · obtain ⟨_, _, hhigh⟩ := h.left hx
    rw [if_neg (by omega), if_neg (by omega), if_pos hx]
    rfl
  · obtain ⟨_, hlow, hhigh⟩ := h.up hy
    rw [if_neg (by omega), if_neg (by omega), if_neg (by omega), if_pos hy]
    rfl

/-- Outside, the coordinate along the edge does not change, and the other one does not matter. -/
theorem LeavesStraight.advance (h : s.LeavesStraight) (hout : s.HasLeft) :
    s.advance.1.LeavesStraight := by
  rcases hout with hx | hy
  · obtain ⟨hv, hlow, hhigh⟩ := h.left hx
    have hsame : s.advance.1.position.y = s.position.y := by
      rw [State.advance, hv]
      exact Int64.add_zero _
    constructor
    · intro _
      rw [hsame]
      exact ⟨hv, hlow, hhigh⟩
    · intro hy
      rw [hsame] at hy
      omega
  · obtain ⟨hv, hlow, hhigh⟩ := h.up hy
    have hsame : s.advance.1.position.x = s.position.x := by
      rw [State.advance, hv]
      exact Int64.add_zero _
    constructor
    · intro hx
      rw [hsame] at hx
      omega
    · intro _
      rw [hsame]
      exact ⟨hv, hlow, hhigh⟩

/-- A space moves the pointer on, and only the stack may change besides. -/
theorem perform_blank (s : State) (mode : Mode) :
    (s.perform (.blank mode)).1 =
      { s.advance.1 with stack := (s.perform (.blank mode)).1.stack } := by
  cases mode with
  | normal => rfl
  | text => rfl

theorem LeavesStraight.perform_blank (h : s.LeavesStraight) (hout : s.HasLeft) (mode : Mode) :
    (s.perform (.blank mode)).1.LeavesStraight := by
  obtain ⟨hleft, hup⟩ := h.advance hout
  rw [State.perform_blank]
  exact ⟨hleft, hup⟩

theorem LeavesStraight.velocity_cases (h : s.LeavesStraight) (hout : s.HasLeft) :
    s.velocity.x.toInt = -1 ∧ s.velocity.y.toInt = 0 ∨
      s.velocity.x.toInt = 0 ∧ s.velocity.y.toInt = -1 := by
  rcases hout with hx | hy
  · left
    rw [(h.left hx).1]
    decide
  · right
    rw [(h.up hy).1]
    decide

/-- Outside, the pointer moves further away from the grid, as long as there are coordinates. -/
theorem LeavesStraight.movesStraight (h : s.LeavesStraight) (hout : s.HasLeft)
    (hx : Int64.minValue.toInt ≤ s.position.x.toInt + s.velocity.x.toInt)
    (hy : Int64.minValue.toInt ≤ s.position.y.toInt + s.velocity.y.toInt) :
    s.MovesStraight ∧ s.advance.1.HasLeft := by
  have hv := h.velocity_cases hout
  have hxmax := s.position.x.toInt_le
  have hymax := s.position.y.toInt_le
  have hstraight : s.MovesStraight :=
    ⟨toInt_add_of_fits hx (by omega), toInt_add_of_fits hy (by omega)⟩
  refine ⟨hstraight, ?_⟩
  rcases hout with hneg | hneg
  · left
    rw [hstraight.x]
    omega
  · right
    rw [hstraight.y]
    omega

end State

namespace Machine

variable {π η ρ : Type} [Channel π] [EdgeGuard η] [DirectionSource ρ]

/-! ### Steps -/

/-- Outside, a step that executes passes over a space. -/
theorem Executes.deed_eq_blank {m : Machine π η ρ} {c : Char} {deed : Deed}
    (h : m.Executes c deed) (hs : m.state.LeavesStraight) (hout : m.state.HasLeft) :
    deed = .blank m.state.mode := by
  have hc := h.found
  rw [hs.found_eq hout] at hc
  injection hc with hc
  subst hc
  cases hmode : m.state.mode with
  | text => exact (h.literal hmode).1
  | normal =>
    have hdeed := (h.resolved hmode).1
    cases hdeed
    rfl

/-- The next step passes over a space, for which only the guard is asked. -/
structure PassesSpace (m : Machine π η ρ) : Prop where
  executed : m.step.result = .ok .executed
  state : m.step.state.state = (m.state.perform (.blank m.state.mode)).1
  channel : m.step.state.surroundings.channel = m.surroundings.channel
  dice : m.step.state.surroundings.dice = m.surroundings.dice

theorem passesSpace_of_hasLeft {m : Machine π η ρ} (hrun : m.state.running = true)
    (hfree : ReadsFreely m.surroundings.guard) (hs : m.state.LeavesStraight)
    (hout : m.state.HasLeft) : m.PassesSpace := by
  have hfetch : (fetch m.state m.surroundings).result = .ok (some ' ') := by
    have hread := Grid.read_eq_found hfree m.state.grid m.state.position
    rw [hs.found_eq hout] at hread
    exact hread
  have hint : interpret m.division m.state ' ' (fetch m.state m.surroundings).state =
      .done (.blank m.state.mode) (fetch m.state m.surroundings).state := by
    unfold interpret
    cases m.state.mode with
    | text => rfl
    | normal => rfl
  have hexec : m.Executes ' ' (.blank m.state.mode) := ⟨hrun, hfetch, by rw [hint]; rfl⟩
  have hconsulted : m.consulted ' ' = (fetch m.state m.surroundings).state := by
    rw [consulted, hint]
    rfl
  obtain ⟨hok, hstep⟩ := hexec.step_eq
  rw [hconsulted] at hstep
  exact ⟨hok, by rw [hstep], by rw [hstep]; rfl, by rw [hstep]; rfl⟩

/-- For `k` steps the machine passes over spaces, and nothing else happens. -/
structure DriftsFor (m : Machine π η ρ) (k : Nat) : Prop where
  executed (j : Nat) : j < k → (m.stepped j).step.result = .ok .executed
  x : (m.stepped k).state.position.x.toInt =
    m.state.position.x.toInt + k * m.state.velocity.x.toInt
  y : (m.stepped k).state.position.y.toInt =
    m.state.position.y.toInt + k * m.state.velocity.y.toInt
  velocity : (m.stepped k).state.velocity = m.state.velocity
  mode : (m.stepped k).state.mode = m.state.mode
  running : (m.stepped k).state.running = true
  grid : (m.stepped k).state.grid = m.state.grid
  channel : (m.stepped k).surroundings.channel = m.surroundings.channel
  dice : (m.stepped k).surroundings.dice = m.surroundings.dice
  stack : m.state.mode = .normal → (m.stepped k).state.stack = m.state.stack
  /-- In text mode every space is pushed. -/
  pushed : m.state.mode = .text →
    (m.stepped k).state.stack.toList = m.state.stack.toList ++ List.replicate k 32

theorem DriftsFor.zero {m : Machine π η ρ} (hrun : m.state.running = true) : m.DriftsFor 0 := by
  refine ⟨?_, by simp [stepped], by simp [stepped], rfl, rfl, hrun, rfl, rfl, rfl, fun _ => rfl, ?_⟩
  · intro j hj
    exact absurd hj (Nat.not_lt_zero j)
  · intro _
    exact (List.append_nil _).symm

/-- One step more is made first. -/
theorem DriftsFor.succ {m : Machine π η ρ} {k : Nat} (hfirst : m.PassesSpace)
    (hstraight : m.state.MovesStraight) (h : m.step.state.DriftsFor k) : m.DriftsFor (k + 1) := by
  have hstate := hfirst.state
  rw [State.perform_blank] at hstate
  have hposition : m.step.state.state.position = m.state.advance.1.position := by rw [hstate]
  have hvelocity : m.step.state.state.velocity = m.state.velocity := by
    rw [hstate]
    rfl
  have hmode : m.step.state.state.mode = m.state.mode := by
    rw [hstate]
    rfl
  constructor
  case executed =>
    intro j hj
    cases j with
    | zero => exact hfirst.executed
    | succ j =>
      rw [stepped_succ]
      exact h.executed j (by omega)
  case x =>
    rw [stepped_succ, h.x, hposition, hvelocity, hstraight.x]
    simp only [Int.natCast_add, Int.natCast_one, Int.add_mul, Int.one_mul]
    omega
  case y =>
    rw [stepped_succ, h.y, hposition, hvelocity, hstraight.y]
    simp only [Int.natCast_add, Int.natCast_one, Int.add_mul, Int.one_mul]
    omega
  case velocity => rw [stepped_succ, h.velocity, hvelocity]
  case mode => rw [stepped_succ, h.mode, hmode]
  case running =>
    rw [stepped_succ]
    exact h.running
  case grid =>
    rw [stepped_succ, h.grid, hstate]
    rfl
  case channel => rw [stepped_succ, h.channel, hfirst.channel]
  case dice => rw [stepped_succ, h.dice, hfirst.dice]
  case stack =>
    intro hnormal
    rw [stepped_succ, h.stack (hmode.trans hnormal), hfirst.state, hnormal]
    rfl
  case pushed =>
    intro htext
    rw [stepped_succ, h.pushed (hmode.trans htext), hfirst.state, htext, List.replicate_succ,
      List.append_cons]
    exact congrArg (· ++ List.replicate k 32) (Stack.toList_push 32 m.state.stack)

theorem driftsFor_of_hasLeft {m : Machine π η ρ} (hrun : m.state.running = true)
    (hfree : LetsRead m.surroundings.guard) (hs : m.state.LeavesStraight)
    (hout : m.state.HasLeft) {k : Nat}
    (hx : Int64.minValue.toInt ≤ m.state.position.x.toInt + k * m.state.velocity.x.toInt)
    (hy : Int64.minValue.toInt ≤ m.state.position.y.toInt + k * m.state.velocity.y.toInt) :
    m.DriftsFor k := by
  induction k generalizing m with
  | zero => exact .zero hrun
  | succ k ih =>
    have hfirst := passesSpace_of_hasLeft hrun (hfree _ .refl) hs hout
    simp only [Int.natCast_add, Int.natCast_one, Int.add_mul, Int.one_mul] at hx hy
    have hone : Int64.minValue.toInt ≤ m.state.position.x.toInt + m.state.velocity.x.toInt ∧
        Int64.minValue.toInt ≤ m.state.position.y.toInt + m.state.velocity.y.toInt := by
      rcases hs.velocity_cases hout with ⟨hvx, hvy⟩ | ⟨hvx, hvy⟩
      all_goals
        rw [hvx] at hx
        rw [hvy] at hy
        rw [hvx, hvy]
        omega
    obtain ⟨hstraight, hstill⟩ := hs.movesStraight hout hone.1 hone.2
    have hstate := hfirst.state
    rw [State.perform_blank] at hstate
    refine .succ hfirst hstraight (ih ?_ (hfree.asked (asked_step m)) ?_ ?_ ?_ ?_)
    · rw [hstate]
      exact hrun
    · rw [hfirst.state]
      exact hs.perform_blank hout _
    · rw [hstate]
      exact hstill
    · rw [hstate]
      show _ ≤ m.state.advance.1.position.x.toInt + k * m.state.velocity.x.toInt
      rw [hstraight.x]
      omega
    · rw [hstate]
      show _ ≤ m.state.advance.1.position.y.toInt + k * m.state.velocity.y.toInt
      rw [hstraight.y]
      omega

/-! ### Every run -/

/-- A step that executes leaves the grid straight, or goes on outside. -/
theorem leavesStraight_step {m : Machine π η ρ} {c : Char} {deed : Deed}
    (hm : m.Upholds fun s => s.Travels ∨ s.Rests) (hs : m.state.LeavesStraight)
    (hg : m.state.grid.Moderate) (h : m.Executes c deed) :
    (m.state.perform deed).1.LeavesStraight := by
  by_cases hout : m.state.HasLeft
  · rw [h.deed_eq_blank hs hout]
    exact hs.perform_blank hout _
  -- The pointer has not left, and there is something under it.
  have hinside : m.state.Within 0 := by
    have hfound := h.found
    rw [hm.rectangular.found_eq] at hfound
    split at hfound
    · next hbefore =>
      simp only [State.HasLeft] at hout
      exact ⟨by omega, by omega, by omega, by omega⟩
    · cases hfound
  by_cases hhalt : deed = .halt
  · subst hhalt
    exact (hinside.enact (by simp)).leavesStraight
  · have htravels : (m.state.perform deed).1.Travels := by
      rcases hm.holds with htravels | hrests
      · exact State.travels_perform hhalt htravels
      · exact absurd (h.deed_eq_halt hm.rectangular hrests.mode hrests.cell) hhalt
    obtain ⟨d, hd⟩ := htravels
    obtain ⟨hx, hy⟩ :=
      hinside.position_perform hg (State.isShort_of_travels_or_rests hm.holds) deed
    obtain ⟨hw, hht⟩ : m.state.grid.width ≤ (m.state.perform deed).1.grid.width ∧
        m.state.grid.height ≤ (m.state.perform deed).1.grid.height := by
      rw [State.perform_eq hhalt]
      exact State.extent_le_enact deed m.state
    exact hinside.leavesStraight_of_moved hd hx hy hw hht

/-- The pointer is not left of the grid and above it at once, it goes straight away where it is one
of the two, and it goes on like that. -/
structure NeverReturns (m : Machine π η ρ) : Prop where
  oneSide : ¬ (m.state.position.x.toInt < 0 ∧ m.state.position.y.toInt < 0)
  straight : m.state.LeavesStraight
  /-- A machine that runs out there runs on for as long as there are coordinates. -/
  drifts (k : Nat) : m.state.running = true → m.state.HasLeft →
    Int64.minValue.toInt ≤ m.state.position.x.toInt + k * m.state.velocity.x.toInt →
    Int64.minValue.toInt ≤ m.state.position.y.toInt + k * m.state.velocity.y.toInt →
    m.DriftsFor k

/-- **A pointer that leaves to the left or upward never comes back**, whatever calls there were, if
the guard refuses no read and there is some room beside the grid. -/
theorem neverReturns_calls (grid : Grid) (hgrid : grid.Rectangular) (channel : π) (guard : η)
    (hfree : LetsRead guard) (dice : ρ) (history : History) (hfresh : history.Fresh)
    (division : DivisionPolicy) (cs : List Call)
    (hroom : (((start grid channel guard dice history).withDivision
      division).calls cs).state.grid.Moderate) :
    (((start grid channel guard dice history).withDivision division).calls cs).NeverReturns := by
  have hcourse (cs : List Call) :=
    travels_or_rests_calls hgrid channel guard dice hfresh division cs
  have hguard : LetsRead ((start grid channel guard dice history).withDivision
      division).surroundings.guard := hfree
  have hstart := upholds_start (P := fun s => s.grid.Moderate → s.LeavesStraight) hgrid channel
    guard dice hfresh division fun _ => State.leavesStraight_start grid
  generalize (start grid channel guard dice history).withDivision division = m at *
  have hstraight : (m.calls cs).Upholds fun s => s.grid.Moderate → s.LeavesStraight := by
    refine hstart.calls State.lasting_leavesStraight ?_ cs
    intro cs c deed hm hexec hmoderate
    have hbefore := State.moderate_of_perform hmoderate
    exact leavesStraight_step (hcourse cs) (hm.holds hbefore) hbefore hexec
  have hleaves := hstraight.holds hroom
  refine ⟨?_, hleaves, ?_⟩
  · rintro ⟨hx, hy⟩
    have hrow := (hleaves.left hx).2.1
    omega
  · intro k hrun hout hx hy
    exact driftsFor_of_hasLeft hrun (hguard.asked (asked_calls m cs)) hleaves hout hx hy

/-- A program that enters text mode on its way to the left. -/
def quotingLeft (guard : η) : Machine Transcript η Xoshiro :=
  start ⟨#[#['#', '"', '<']], 3, 1, 16⟩ (.scripted "") guard default (.kept (.bounded 2))

/-- After a detour back, the pointer is left of the grid and in text mode. A thousand steps later it
has pushed a thousand spaces, under a guard that notes every one of them and under one that does
not. -/
theorem neverReturns_calls_quotingLeft :
    let cs : List Call := [.step, .step, .step, .unstep, .step, .step]
    let noted := (quotingLeft (⟨#[]⟩ : EdgeRecorder)).calls cs
    let warned := (quotingLeft EdgePolicy.permissive).calls cs
    (quotingLeft EdgePolicy.permissive).state.grid.Rectangular ∧
      (quotingLeft EdgePolicy.permissive).history.Fresh ∧
      LetsRead (⟨#[]⟩ : EdgeRecorder) ∧ LetsRead EdgePolicy.permissive ∧
      noted.state.grid.Moderate ∧ warned.state.grid.Moderate ∧
      noted.NeverReturns ∧ warned.NeverReturns ∧ noted.state.HasLeft ∧ warned.state.HasLeft ∧
      (noted.stepped 1000).state.stack.toList = [35] ++ List.replicate 1000 32 ∧
      (warned.stepped 1000).state.stack.toList = [35] ++ List.replicate 1000 32 := by
  intro cs noted warned
  have hgrid : (quotingLeft EdgePolicy.permissive).state.grid.Rectangular := by decide
  have hfresh : (quotingLeft EdgePolicy.permissive).history.Fresh := ⟨rfl, rfl⟩
  have hnoting : LetsRead (⟨#[]⟩ : EdgeRecorder) := (EdgeRecorder.readsFreely _).letsRead
  have hwarning : LetsRead EdgePolicy.permissive :=
    (EdgePolicy.readsFreely (by intro edge; cases edge <;> decide)).letsRead
  have hnotedRoom : noted.state.grid.Moderate := ⟨by decide, by decide⟩
  have hwarnedRoom : warned.state.grid.Moderate := ⟨by decide, by decide⟩
  have hnoted : noted.NeverReturns :=
    neverReturns_calls _ hgrid _ _ hnoting _ _ hfresh .fatal cs hnotedRoom
  have hwarned : warned.NeverReturns :=
    neverReturns_calls _ hgrid _ _ hwarning _ _ hfresh .fatal cs hwarnedRoom
  have hnotedOut : noted.state.HasLeft := .inl (by decide)
  have hwarnedOut : warned.state.HasLeft := .inl (by decide)
  refine ⟨hgrid, hfresh, hnoting, hwarning, hnotedRoom, hwarnedRoom, hnoted, hwarned, hnotedOut,
    hwarnedOut, ?_, ?_⟩
  · exact (hnoted.drifts 1000 rfl hnotedOut (by decide) (by decide)).pushed rfl
  · exact (hwarned.drifts 1000 rfl hwarnedOut (by decide) (by decide)).pushed rfl

end Machine

end Retrace
