import Retrace.Channel.Transcript
import Retrace.Proofs.Memory

/-!
# Grids stay whole

The rows of a grid and its extent are stored apart, and they have to agree: a row too few, or one
that is too short, would be noticed only when a later access misses it. This file follows a grid
through all that can happen to it, from the text on. It may be written to under any guard, whether
the guard consents or not, and machines may work on it, forward and back. The machines need not have
anything in common, and their histories may hold anything (`Becomes`).

What one of these things can do to a grid is `Develops`: it keeps its form, it does not shrink, and
it does not become larger than its limit allows. This is a preorder, so whatever happens one after
the other does the same.
-/

namespace Retrace.Grid

/-! ### What can happen to a grid -/

/-- What can become of a grid by writes, and by steps and unsteps of machines that have it. -/
inductive Becomes (g : Grid) : Grid → Prop where
  | refl : Becomes g g
  | write {h : Grid} {η : Type} [EdgeGuard η] (before : Becomes g h) (p : Point) (c : Char)
      (guard : η) : Becomes g (h.write p c guard).state.1
  | step {π η ρ : Type} [Channel π] [EdgeGuard η] [DirectionSource ρ] (m : Machine π η ρ)
      (before : Becomes g m.state.grid) : Becomes g m.step.state.state.grid
  | unstep {π η ρ : Type} [Channel π] [EdgeGuard η] [DirectionSource ρ] (m : Machine π η ρ)
      (before : Becomes g m.state.grid) : Becomes g m.unstep.state.state.grid

/-- Any run of a machine is such a sequence of steps and unsteps. -/
theorem Becomes.calls {π η ρ : Type} [Channel π] [EdgeGuard η] [DirectionSource ρ] {g : Grid}
    {m : Machine π η ρ} (h : g.Becomes m.state.grid) (cs : List Machine.Call) :
    g.Becomes (m.calls cs).state.grid := by
  refine Machine.calls_induction (P := fun m => g.Becomes m.state.grid) h ?_ cs
  intro m c hm
  cases c with
  | step => exact .step m hm
  | unstep => exact .unstep m hm
  | stop => exact hm
  | restart => exact hm

/-- `h` came from `g`: it has kept its form, it has not shrunk, and it has grown only as far as the
limit allows. -/
structure Develops (g h : Grid) : Prop where
  rectangular : g.Rectangular → h.Rectangular
  width_le : g.width ≤ h.width
  height_le : g.height ≤ h.height
  cellLimit_eq : h.cellLimit = g.cellLimit
  area_le : g.cellLimit < greatestWord →
    h.width * h.height ≤ max g.cellLimit (g.width * g.height)

namespace Develops

theorem refl (g : Grid) : g.Develops g :=
  ⟨id, Nat.le_refl _, Nat.le_refl _, rfl, fun _ => Nat.le_max_right _ _⟩

theorem trans {g h k : Grid} (hgh : g.Develops h) (hhk : h.Develops k) : g.Develops k where
  rectangular hg := hhk.rectangular (hgh.rectangular hg)
  width_le := Nat.le_trans hgh.width_le hhk.width_le
  height_le := Nat.le_trans hgh.height_le hhk.height_le
  cellLimit_eq := hhk.cellLimit_eq.trans hgh.cellLimit_eq
  area_le hlimit := by
    have hfirst := hgh.area_le hlimit
    have hsecond := hhk.area_le (by rwa [hgh.cellLimit_eq])
    rw [hgh.cellLimit_eq] at hsecond
    omega

/-- Overwriting a cell changes no extent. -/
theorem set (g : Grid) (s : Spot) (c : Char) : g.Develops (g.set s c) :=
  ⟨fun hg => hg.set s c, Nat.le_refl _, Nat.le_refl _, rfl, fun _ => Nat.le_max_right _ _⟩

/-- A character is put inside the grid, or the grid grows within its limit. -/
theorem put {g : Grid} {s : Spot} (hs : g.overgrows s = false) (c : Char) :
    g.Develops (g.put s c) := by
  obtain ⟨hwidth, hheight⟩ := extent_put s c g
  refine ⟨fun hg => hg.put s c, by omega, by omega, cellLimit_put s c g, ?_⟩
  intro hlimit
  rw [hwidth, hheight]
  by_cases hin : g.Contains s
  · obtain ⟨hx, hy⟩ := hin
    rw [Nat.max_eq_left hx, Nat.max_eq_left hy]
    exact Nat.le_max_right _ _
  · apply Nat.le_trans _ (Nat.le_max_left _ _)
    exact area_le_of_not_overgrows hlimit hs hin

/-! ### Writes -/

/-- A write that is refused or skipped leaves the grid alone, and any other pads it and sets one
cell. -/
theorem write {η : Type} [EdgeGuard η] (g : Grid) (p : Point) (c : Char) (guard : η) :
    g.Develops (g.write p c guard).state.1 := by
  unfold Grid.write
  have hfits := @eq_spot?_of_landing η _ g p guard
  generalize g.landing p guard = r at *
  obtain ⟨fault | s?, guard', events⟩ := r
  · exact .refl g
  · cases s? with
    | none => exact .refl g
    | some s =>
      obtain ⟨hspot, hroom⟩ := hfits rfl
      exact .put (hroom s hspot.symm) c

/-! ### Machines -/

/-- Taking back overwrites cells that may be anywhere. -/
theorem revertAll (changes : List Change) (s : State) :
    s.grid.Develops (s.revertAll changes).grid := by
  induction changes generalizing s with
  | nil => exact .refl _
  | cons c rest ih =>
    have hfirst : s.grid.Develops (s.revert c).grid := by
      cases c with
      | placed y x v replaced =>
        cases replaced with
        | none => exact .refl _
        | some written => exact .set _ _ _
      | _ => exact .refl _
    exact hfirst.trans (ih (s.revert c))

variable {π η ρ : Type} [Channel π] [EdgeGuard η] [DirectionSource ρ]

theorem step (m : Machine π η ρ) : m.state.grid.Develops m.step.state.state.grid := by
  rcases m.step_cases with ⟨c, deed, hexec⟩ | ⟨_, huntouched⟩
  · rw [hexec.step_eq.2]
    by_cases hplace : ∃ target ch, deed = .place target ch
    · obtain ⟨target, ch, rfl⟩ := hplace
      obtain ⟨hmode, -, rfl⟩ := hexec.cell?_eq (i := .place) rfl (by decide)
      obtain ⟨hdeed, hroom⟩ := Machine.resolve_place (hexec.resolved hmode).1
      injection hdeed with htarget hch
      cases target with
      | none => exact .refl _
      | some s => exact .put (hroom s htarget.symm) ch
    · have hsame := State.grid_perform (fun target ch h => hplace ⟨target, ch, h⟩) m.state
      rw [hsame]
      exact .refl _
  · rw [huntouched.state]
    exact .refl _

omit [EdgeGuard η] [DirectionSource ρ] in
theorem unstep (m : Machine π η ρ) : m.state.grid.Develops m.unstep.state.state.grid := by
  cases hg : m.history.groups with
  | nil =>
    rw [(Machine.unstep_of_no_groups hg).2]
    exact .refl _
  | cons group rest =>
    rw [(Machine.unstep_of_groups hg).2]
    exact .revertAll group m.state

end Develops

theorem Becomes.develops {g h : Grid} (hgh : g.Becomes h) : g.Develops h := by
  induction hgh with
  | refl => exact .refl g
  | write _ p c guard ih => exact ih.trans (.write _ p c guard)
  | step m _ ih => exact ih.trans (.step m)
  | unstep m _ ih => exact ih.trans (.unstep m)

/-! ### Accesses in range -/

/-- The row is there and long enough. -/
def InRange (g : Grid) (s : Spot) : Prop := ∃ row, g.rows[s.y]? = some row ∧ s.x < row.size

theorem Rectangular.inRange {g : Grid} (hg : g.Rectangular) {s : Spot} (hs : g.Contains s) :
    g.InRange s := by
  obtain ⟨hx, hy⟩ := hs
  rw [← hg.1] at hy
  refine ⟨g.rows[s.y], Array.getElem?_eq_getElem hy, ?_⟩
  rw [hg.2 _ (Array.getElem_mem hy)]
  exact hx

/-- A rectangular grid answers at every point of its extent, and nowhere else. -/
theorem Rectangular.isSome_get? {g : Grid} (hg : g.Rectangular) (p : Point) :
    (g.get? p).isSome ↔
      0 ≤ p.x.toInt ∧ p.x.toInt < g.width ∧ 0 ≤ p.y.toInt ∧ p.y.toInt < g.height := by
  rw [get?, spot?]
  by_cases hneg : p.x.toInt < 0 ∨ p.y.toInt < 0
  · rw [if_pos hneg, Option.bind_none]
    simp only [Option.isSome_none, Bool.false_eq_true, false_iff]
    omega
  · rw [if_neg hneg, Option.bind_some, hg.isSome_cell?]
    simp only [Contains]
    omega

/-- A grid that came from the text with a limit: its rows agree with its extent, its area is
bounded, and no access misses a row. -/
structure Whole (text : String) (limit : Nat) (g : Grid) : Prop where
  rowCount : g.rows.size = g.height
  rowSize : ∀ row ∈ g.rows, row.size = g.width
  /-- The extent never decreases, whatever happens next. -/
  extent_le (h : Grid) : g.Becomes h → g.width ≤ h.width ∧ g.height ≤ h.height
  area_le : g.width * g.height ≤ max limit ((parse text).width * (parse text).height)
  get? (p : Point) : (g.get? p).isSome ↔
    0 ≤ p.x.toInt ∧ p.x.toInt < g.width ∧ 0 ≤ p.y.toInt ∧ p.y.toInt < g.height
  /-- A read that crosses no edge finds its cell. -/
  read (p : Point) : g.missed? p = none → g.InRange ⟨p.x.toInt.toNat, p.y.toInt.toNat⟩
  /-- A write finds its cell once the grid has grown. -/
  write (s : Spot) : (g.growTo s).InRange s

/-- **Grids stay whole**, whatever is written and whatever machines do and undo. -/
theorem whole_of_becomes (text : String) (limit : Nat) (hlimit : limit < greatestWord) (g : Grid)
    (hg : Becomes { parse text with cellLimit := limit } g) : g.Whole text limit := by
  have hdevelops := hg.develops
  have hrectangular := hdevelops.rectangular (rectangular_ofLines _)
  refine ⟨hrectangular.1, hrectangular.2, ?_, hdevelops.area_le hlimit, hrectangular.isSome_get?,
    ?_, ?_⟩
  · intro h hgh
    exact ⟨hgh.develops.width_le, hgh.develops.height_le⟩
  · intro p hinside
    apply hrectangular.inRange
    rw [missed?_eq_none_iff] at hinside
    simp only [Contains]
    omega
  · intro s
    exact (hrectangular.growTo s).inRange (contains_growTo s g)

/-- A program of one line of four cells that stores a character in the tenth, with room for
twelve. -/
def stretching : Grid := { parse "090p" with cellLimit := 12 }

/-- The first write would need fifteen cells and is refused. Then the program runs to its end, and
its last step is undone: the stored character is gone, and the cells stay. -/
theorem whole_of_becomes_stretching :
    let g := (stretching.write ⟨4, 2⟩ 'x' EdgePolicy.standard).state.1
    let m := Machine.start g (Transcript.scripted "") EdgePolicy.standard (default : Xoshiro)
      (.kept .unbounded)
    let after := (m.calls [.step, .step, .step, .step, .unstep]).state.grid
    12 < greatestWord ∧ stretching.Becomes after ∧ after.Whole "090p" 12 ∧
      g.width = 4 ∧ after.width = 10 ∧ after.cell? ⟨9, 0⟩ = some ' ' := by
  intro g m after
  have hfirst : stretching.Becomes m.state.grid := .write .refl ⟨4, 2⟩ 'x' EdgePolicy.standard
  have hafter : stretching.Becomes after := hfirst.calls _
  exact ⟨by decide, hafter, whole_of_becomes "090p" 12 (by decide) after hafter,
    by decide +kernel, by decide +kernel, by decide +kernel⟩

end Retrace.Grid
