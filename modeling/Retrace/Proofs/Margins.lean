import Retrace.Proofs.Resting
import Retrace.Proofs.Verdicts

/-!
# The pointer stays next to the grid

Coordinates wrap around at 64 bits, so a pointer that travels for long enough would come back on the
other side of the plane. Under the standard policy it never gets that far. Past the right and the
bottom edge there is no cell to execute and past the other two every read is refused, so a step that
executes starts inside the grid. It moves at most twice, and in this way the pointer is at most two
cells away from the grid (`State.Within`).

The grid grows and does not shrink, so the margin is kept while the pointer stands still, and it
is there again when an old position is restored.
-/

namespace Retrace

/-! ### Exact moves -/

/-- Both coordinates are at most one away from zero. -/
structure Point.IsShort (v : Point) : Prop where
  left : -1 ≤ v.x.toInt
  right : v.x.toInt ≤ 1
  up : -1 ≤ v.y.toInt
  down : v.y.toInt ≤ 1

theorem Point.isShort_origin : Point.origin.IsShort :=
  ⟨by decide, by decide, by decide, by decide⟩

theorem Direction.isShort_velocity (d : Direction) : d.velocity.IsShort := by
  cases d with
  | left | up | right | down => exact ⟨by decide, by decide, by decide, by decide⟩

/-- Half as many as there are coordinates that are not negative, `2 ^ 62`. -/
def halfway : Nat := 4611686018427387904

/-- A sum that is a coordinate is the sum of coordinates. -/
theorem toInt_add_of_fits {a b : Int64} (hmin : Int64.minValue.toInt ≤ a.toInt + b.toInt)
    (hmax : a.toInt + b.toInt ≤ Int64.maxValue.toInt) : (a + b).toInt = a.toInt + b.toInt := by
  have hminValue : Int64.minValue.toInt = -9223372036854775808 := rfl
  have hmaxValue : Int64.maxValue.toInt = 9223372036854775807 := rfl
  rw [Int64.toInt_add]
  apply Int.bmod_eq_of_le
  · omega
  · omega

/-- A unit step from a moderate place does not wrap around. -/
theorem toInt_add_of_short {a b : Int64} (ha : -halfway ≤ a.toInt ∧ a.toInt ≤ halfway)
    (hb : -1 ≤ b.toInt ∧ b.toInt ≤ 1) : (a + b).toInt = a.toInt + b.toInt := by
  have hminValue : Int64.minValue.toInt = -9223372036854775808 := rfl
  have hmaxValue : Int64.maxValue.toInt = 9223372036854775807 := rfl
  simp only [halfway] at ha
  apply toInt_add_of_fits
  · omega
  · omega

/-- The grid is wide and high, but there is still as much room beside it. -/
structure Grid.Moderate (g : Grid) : Prop where
  width : g.width < halfway
  height : g.height < halfway

namespace State

/-- Moving once does not wrap around. -/
structure MovesStraight (s : State) : Prop where
  x : s.advance.1.position.x.toInt = s.position.x.toInt + s.velocity.x.toInt
  y : s.advance.1.position.y.toInt = s.position.y.toInt + s.velocity.y.toInt

/-- The pointer is in the grid, or at most `k` cells away from it. -/
structure Within (k : Nat) (s : State) : Prop where
  left : -k ≤ s.position.x.toInt
  right : s.position.x.toInt < s.grid.width + k
  top : -k ≤ s.position.y.toInt
  bottom : s.position.y.toInt < s.grid.height + k

variable {s t : State} {k : Nat}

theorem Within.padded (h : s.Within k) (hst : s.PaddedTo t) : t.Within k := by
  have hw := hst.grid.width_le
  have hht := hst.grid.height_le
  obtain ⟨hleft, hright, htop, hbottom⟩ := h
  rw [← hst.position] at hleft hright htop hbottom
  exact ⟨hleft, by omega, htop, by omega⟩

theorem Within.mono (h : s.Within k) {l : Nat} (hkl : k ≤ l) : s.Within l := by
  obtain ⟨hleft, hright, htop, hbottom⟩ := h
  exact ⟨by omega, by omega, by omega, by omega⟩

/-- A pointer that is close to a grid of moderate extent moves by its velocity, without wrapping
around. -/
theorem Within.movesStraight (h : s.Within k) (hk : k ≤ 1) (hg : s.grid.Moderate)
    (hv : s.velocity.IsShort) : s.MovesStraight := by
  obtain ⟨hleft, hright, htop, hbottom⟩ := h
  obtain ⟨hwidth, hheight⟩ := hg
  constructor
  · exact toInt_add_of_short (by omega) ⟨hv.left, hv.right⟩
  · exact toInt_add_of_short (by omega) ⟨hv.up, hv.down⟩

/-- A move leads at most one cell further away. -/
theorem Within.advance (h : s.Within k) (hstraight : s.MovesStraight) (hv : s.velocity.IsShort) :
    s.advance.1.Within (k + 1) := by
  obtain ⟨hx, hy⟩ := hstraight
  obtain ⟨hvleft, hvright, hvup, hvdown⟩ := hv
  obtain ⟨hleft, hright, htop, hbottom⟩ := h
  refine ⟨?_, ?_, ?_, ?_⟩
  · rw [hx]
    omega
  · show s.advance.1.position.x.toInt < s.grid.width + (k + 1 : Nat)
    rw [hx]
    omega
  · rw [hy]
    omega
  · show s.advance.1.position.y.toInt < s.grid.height + (k + 1 : Nat)
    rw [hy]
    omega

/-! ### Deeds -/

/-- No deed makes the pointer move by more than one cell at a time. -/
theorem isShort_enact (d : Deed) (hv : s.velocity.IsShort) : (s.enact d).1.velocity.IsShort := by
  cases d with
  | halt => exact Point.isShort_origin
  | turn d => exact d.isShort_velocity
  | branch nonzero zero => exact Direction.isShort_velocity _
  | place target c => cases target <;> exact hv
  | _ => exact hv

/-- No deed makes the grid smaller. -/
theorem extent_le_enact (d : Deed) (s : State) :
    s.grid.width ≤ (s.enact d).1.grid.width ∧ s.grid.height ≤ (s.enact d).1.grid.height := by
  cases d with
  | place target c =>
    cases target with
    | none => exact ⟨Nat.le_refl _, Nat.le_refl _⟩
    | some spot =>
      obtain ⟨hw, hht⟩ := Grid.extent_put spot c s.grid
      show s.grid.width ≤ (s.grid.put spot c).width ∧ s.grid.height ≤ (s.grid.put spot c).height
      omega
  | _ => exact ⟨Nat.le_refl _, Nat.le_refl _⟩

theorem position_enact {d : Deed} (hd : d ≠ .skip) (s : State) :
    (s.enact d).1.position = s.position := by
  cases d with
  | skip => exact absurd rfl hd
  | place target c => cases target <;> rfl
  | _ => rfl

theorem Within.enact (h : s.Within k) {d : Deed} (hd : d ≠ .skip) : (s.enact d).1.Within k := by
  obtain ⟨hw, hht⟩ := extent_le_enact d s
  obtain ⟨hleft, hright, htop, hbottom⟩ := h
  have hposition := position_enact hd s
  refine ⟨?_, ?_, ?_, ?_⟩
  all_goals
    rw [hposition]
    omega

/-- No move of a deed wraps around. There is one move at the end of every deed but halting, and one
in the course of a skip. -/
structure Straight (d : Deed) (s : State) : Prop where
  skip : d = .skip → s.MovesStraight
  last : d ≠ .halt → (s.enact d).1.MovesStraight

theorem moderate_of_enact {d : Deed} (h : (s.enact d).1.grid.Moderate) : s.grid.Moderate := by
  obtain ⟨hw, hht⟩ := extent_le_enact d s
  obtain ⟨hwidth, hheight⟩ := h
  exact ⟨by omega, by omega⟩

theorem moderate_of_perform {d : Deed} (h : (s.perform d).1.grid.Moderate) : s.grid.Moderate := by
  by_cases hd : d = .halt
  · subst hd
    exact h
  · rw [perform_eq hd] at h
    exact moderate_of_enact h

/-- A deed that is done inside the grid leads at most two cells out of it, and straight there. -/
theorem Within.perform (h : s.Within 0) (hg : s.grid.Moderate) (hv : s.velocity.IsShort)
    (d : Deed) : s.Straight d ∧ (s.perform d).1.Within 2 := by
  have hstraight := h.movesStraight (by omega) hg hv
  by_cases hhalt : d = .halt
  · subst hhalt
    exact ⟨⟨by simp, by simp⟩, (h.enact (by simp)).mono (by omega)⟩
  have hv' := isShort_enact d hv
  rw [perform_eq hhalt]
  by_cases hskip : d = .skip
  · subst hskip
    have hone := h.advance hstraight hv
    have hstraight' := hone.movesStraight (by omega) hg hv
    exact ⟨⟨fun _ => hstraight, fun _ => hstraight'⟩, hone.advance hstraight' hv'⟩
  · -- The position is the old one and the velocity may be new. The grid may have grown, but for the
    -- move only the old one counts.
    have hlast : (s.enact d).1.MovesStraight := by
      have hturned : MovesStraight { s with velocity := (s.enact d).1.velocity } :=
        Within.movesStraight (k := 0) ⟨h.left, h.right, h.top, h.bottom⟩ (by omega) hg hv'
      obtain ⟨hx, hy⟩ := hturned
      have hposition := position_enact hskip s
      constructor
      · simp only [State.advance, hposition]
        exact hx
      · simp only [State.advance, hposition]
        exact hy
    have hone := (h.enact hskip).advance hlast hv'
    exact ⟨⟨fun hd => absurd hd hskip, fun _ => hlast⟩, hone.mono (by omega)⟩

/-- What lasts, lasts as long as there is room: a grid was not larger before. -/
theorem Lasting.whileModerate {P : State → Prop} (hP : Lasting P) :
    Lasting fun s => s.grid.Moderate → P s := by
  intro s t hst hs hmoderate
  have hw := hst.grid.width_le
  have hht := hst.grid.height_le
  obtain ⟨hwidth, hheight⟩ := hmoderate
  exact hP s t hst (hs ⟨by omega, by omega⟩)

/-- A larger grid only widens the margin. -/
theorem lasting_within : Lasting fun s => s.grid.Moderate → s.Within 2 :=
  Lasting.whileModerate fun _ _ hst hs => hs.padded hst

theorem within_start (grid : Grid) : State.Within 2 { grid } := by
  have hx : Point.origin.x.toInt = 0 := rfl
  have hy : Point.origin.y.toInt = 0 := rfl
  refine ⟨?_, ?_, ?_, ?_⟩
  all_goals
    simp only
    omega

theorem isShort_of_travels_or_rests (h : s.Travels ∨ s.Rests) : s.velocity.IsShort := by
  rcases h with ⟨d, hd⟩ | hrests
  · rw [hd]
    exact d.isShort_velocity
  · rw [hrests.velocity]
    exact Point.isShort_origin

end State

/-- Under the standard policy a read finds something only inside the grid. -/
theorem Grid.missed?_of_standard {g : Grid} {p : Point} {guard : EdgePolicy} {c : Char}
    (hguard : verdict guard = verdict EdgePolicy.standard)
    (h : (g.read p guard).result = .ok (some c)) : g.missed? p = none := by
  unfold read at h
  cases hmissed : g.missed? p with
  | none => rfl
  | some edge =>
    rw [hmissed] at h
    obtain ⟨_, hok, hfound⟩ := Reply.result_map_eq_ok.1 h
    have hverdict : verdict EdgePolicy.standard .read edge p = .ok () := by
      rw [← hguard]
      exact hok
    cases edge with
    | top | left => cases hverdict
    | bottom | right => cases hfound

namespace Machine

variable {π ρ : Type} [Channel π] [DirectionSource ρ]

/-- Under the standard policy a step outside the grid is a fault or a stall, so one that executes
has its pointer inside. -/
theorem Executes.within {m : Machine π EdgePolicy ρ} {c : Char} {deed : Deed}
    (h : m.Executes c deed)
    (hguard : verdict m.surroundings.guard = verdict EdgePolicy.standard) : m.state.Within 0 := by
  have hread : (m.state.grid.read m.state.position m.surroundings.guard).result = .ok (some c) :=
    h.fetched
  obtain ⟨hleft, hright, htop, hbottom⟩ :=
    Grid.missed?_eq_none_iff.1 (Grid.missed?_of_standard hguard hread)
  exact ⟨by omega, by omega, by omega, by omega⟩

/-- The pointer is next to the grid, and where a step executes it is inside, and moves straight. -/
structure StaysClose (m : Machine π EdgePolicy ρ) : Prop where
  near : m.state.Within 2
  inside : m.step.result = .ok .executed → m.state.Within 0
  straight (c : Char) (deed : Deed) : m.Executes c deed →
    m.step.state.state = (m.state.perform deed).1 ∧ m.state.Straight deed

/-- **The pointer stays next to the grid** under the standard policy, whatever calls there were, as
long as there is some room beside the grid. -/
theorem staysClose_calls (grid : Grid) (hgrid : grid.Rectangular) (channel : π) (dice : ρ)
    (history : History) (hfresh : history.Fresh) (division : DivisionPolicy) (cs : List Call)
    (hroom : (((start grid channel EdgePolicy.standard dice history).withDivision
      division).calls cs).state.grid.Moderate) :
    (((start grid channel EdgePolicy.standard dice history).withDivision
      division).calls cs).StaysClose := by
  have hshort (cs : List Call) := State.isShort_of_travels_or_rests
    (travels_or_rests_calls hgrid channel EdgePolicy.standard dice hfresh division cs).holds
  have hguard (cs : List Call) : verdict (((start grid channel EdgePolicy.standard dice
      history).withDivision division).calls cs).surroundings.guard = verdict EdgePolicy.standard :=
    verdict_calls _ cs
  have hstart := upholds_start (P := fun s => s.grid.Moderate → s.Within 2) hgrid channel
    EdgePolicy.standard dice hfresh division fun _ => State.within_start grid
  generalize (start grid channel EdgePolicy.standard dice history).withDivision division = m at *
  have hnear : (m.calls cs).Upholds fun s => s.grid.Moderate → s.Within 2 := by
    refine hstart.calls State.lasting_within ?_ cs
    intro cs c deed _ hexec hmoderate
    have hinside := hexec.within (hguard cs)
    exact (hinside.perform (State.moderate_of_perform hmoderate) (hshort cs) deed).2
  refine ⟨hnear.holds hroom, ?_, ?_⟩
  · intro hok
    obtain ⟨c, deed, hexec⟩ := result_step_eq_executed_iff.1 hok
    exact hexec.within (hguard cs)
  · intro c deed hexec
    refine ⟨congrArg Machine.state hexec.step_eq.2, ?_⟩
    exact ((hexec.within (hguard cs)).perform hroom (hshort cs) deed).1

/-- A program that goes round a corner and leaves the grid upward, by a skip. -/
def leaping : Machine Transcript EdgePolicy Xoshiro :=
  start ⟨#[#['v', '#'], #['>', '^']], 2, 2, 16⟩ (.scripted "") .standard default (.kept .unbounded)

/-- The margin of two cells is needed. -/
theorem staysClose_calls_leaping :
    leaping.state.grid.Rectangular ∧ leaping.history.Fresh ∧
      (leaping.calls [.step, .step, .step, .step]).state.grid.Moderate ∧
      (leaping.calls [.step, .step, .step, .step]).StaysClose ∧
      (leaping.calls [.step, .step, .step, .step]).state.position = ⟨1, -2⟩ := by
  have hgrid : leaping.state.grid.Rectangular := by decide
  have hfresh : leaping.history.Fresh := ⟨rfl, rfl⟩
  have hroom : (leaping.calls [.step, .step, .step, .step]).state.grid.Moderate :=
    ⟨by decide, by decide⟩
  exact ⟨hgrid, hfresh, hroom, staysClose_calls _ hgrid _ _ _ hfresh .fatal _ hroom, by rfl⟩

end Machine

end Retrace
