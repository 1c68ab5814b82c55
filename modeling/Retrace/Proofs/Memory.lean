import Retrace.Channel.Transcript
import Retrace.Proofs.Calls

/-!
# The grid as a memory

A program uses its grid as a memory: `p` stores a character at a place and `g` looks it up again.
The places are pairs of unbounded integers, while the grid has 64-bit coordinates, an extent, and
padding. None of this can be noticed. What `g` finds is told by the run alone (`recalled`): the
character that was last placed there, or else the character of the program's text, or else a space.

The invariant is `Remembers`: the plane that the grid shows is the recalled one. It is kept because
a place whose coordinates have to be cut to 64 bits is out of reach of every grid that the limit
allows, so a write there is refused and a read there finds a space.
-/

namespace Retrace

/-! ### Cutting coordinates -/

def coordinates : Nat := 9223372036854775808

/-- Operands that are too large for a coordinate are cut off at the ends of its range. -/
theorem toInt_saturate (v : Int) :
    (saturate v).toInt = max (-9223372036854775808) (min v 9223372036854775807) := by
  have hmin : Int64.minValue.toInt = -9223372036854775808 := rfl
  have hmax : Int64.maxValue.toInt = 9223372036854775807 := rfl
  unfold saturate
  split
  · omega
  · split
    · omega
    · rw [Int64.toInt_ofInt_of_le (by omega) (by omega)]
      omega

theorem spot?_saturate (x y : Int) :
    Grid.spot? ⟨saturate x, saturate y⟩ =
      if x < 0 ∨ y < 0 then none
      else some ⟨min x.toNat (coordinates - 1), min y.toNat (coordinates - 1)⟩ := by
  have hx := toInt_saturate x
  have hy := toInt_saturate y
  simp only [Grid.spot?, coordinates]
  by_cases hneg : x < 0 ∨ y < 0
  · rw [if_pos hneg, if_pos (by omega)]
  · rw [if_neg hneg, if_neg (by omega)]
    congr 2 <;> omega

/-! ### What a run recalls -/

/-- Whether a value is the code point of a character: surrogates are not. -/
def IsScalar (v : Int) : Prop := 0 ≤ v ∧ v < 0xD800 ∨ 0xDFFF < v ∧ v < 0x110000

instance (v : Int) : Decidable (IsScalar v) := inferInstanceAs (Decidable (_ ∨ _))

/-- A character stored by a program: the operands that say where, and its code. -/
structure Placement where
  x : Int
  y : Int
  code : Int
  deriving DecidableEq, Repr

/-- What a value is stored as: itself, or the replacement character where it is no code point. -/
def storedCode (v : Int) : Int := if IsScalar v then v else 0xFFFD

def textAt (text : String) (x y : Nat) : Option Char :=
  (Text.programLines text.toList)[y]?.bind fun row => row[x]?

/-- What is found at a place after some placements, the newest given first. -/
def recalled (text : String) (made : List Placement) (x y : Int) : Int :=
  if x < 0 ∨ y < 0 then 32
  else
    match made.find? fun p => p.x = x ∧ p.y = y with
    | some p => p.code
    | none =>
      match textAt text x.toNat y.toNat with
      | some c => codeOf c
      | none => 32

namespace Machine

variable {π η ρ : Type} [Channel π] [EdgeGuard η] [DirectionSource ρ]

/-- The placement that the next step makes, if it executes a `p`. -/
def placement? (m : Machine π η ρ) : Option Placement :=
  match m.step.result, m.state.mode, m.state.cell? with
  | .ok .executed, .normal, some 'p' =>
    some ⟨m.state.stack.peek 1, m.state.stack.peek 0, storedCode (m.state.stack.peek 2)⟩
  | _, _, _ => none

/-- The placements that the first `n` steps make, the newest first. -/
def placements (m : Machine π η ρ) : Nat → List Placement
  | 0 => []
  | n + 1 => (m.stepped n).placement?.toList ++ m.placements n

end Machine

/-! ### Codes -/

theorem toNat_ofNat_of_isValidChar {n : Nat} (hn : n.isValidChar) : (Char.ofNat n).toNat = n := by
  rw [Char.ofNat, dif_pos hn]
  rfl

theorem isScalar_iff (v : Int) : IsScalar v ↔ 0 ≤ v ∧ v.toNat.isValidChar := by
  simp only [IsScalar, Nat.isValidChar]
  omega

/-- A value that is no code point is stored as the replacement character, and read back as its
code. -/
theorem codeOf_charOfCode (v : Int) : codeOf (charOfCode v) = storedCode v := by
  by_cases hv : 0 ≤ v ∧ v.toNat.isValidChar
  · rw [charOfCode, if_pos hv, storedCode, if_pos ((isScalar_iff v).2 hv), codeOf,
      toNat_ofNat_of_isValidChar hv.2]
    omega
  · rw [charOfCode, if_neg hv, storedCode, if_neg (fun h => hv ((isScalar_iff v).1 h))]
    rfl

/-! ### The text as a plane -/

namespace Grid

/-- The text of a program is its memory at the start, and beyond the text there are spaces. -/
theorem replaced_ofLines (lines : List (List Char)) (s : Spot) :
    (ofLines lines).replaced s = (lines[s.y]?.bind fun row => row[s.x]?).getD ' ' := by
  simp only [replaced, cell?, ofLines, List.getElem?_toArray, List.getElem?_map]
  cases lines[s.y]? with
  | none => rfl
  | some line =>
    simp only [Option.map_some, Option.bind_some, Array.rightpad, Array.getElem?_append,
      List.size_toArray, List.getElem?_toArray, Array.getElem?_replicate]
    by_cases hx : s.x < line.length
    · rw [if_pos hx]
    · rw [if_neg hx, List.getElem?_eq_none (by omega)]
      split <;> rfl

end Grid

/-! ### The invariant -/

/-- The grid shows what is recalled, at every spot of the plane, and it has not outgrown the
coordinates. -/
structure Remembers (text : String) (made : List Placement) (g : Grid) : Prop where
  rectangular : g.Rectangular
  width_lt : g.width < coordinates
  height_lt : g.height < coordinates
  cellLimit_lt : g.cellLimit < coordinates
  recalls : ∀ s : Spot, codeOf (g.replaced s) = recalled text made s.x s.y

namespace Remembers

variable {text : String} {made : List Placement} {g : Grid}

theorem parse {limit : Nat} (hlimit : limit < coordinates)
    (hw : (Grid.parse text).width < coordinates) (hht : (Grid.parse text).height < coordinates) :
    Remembers text [] { Grid.parse text with cellLimit := limit } := by
  refine ⟨Grid.rectangular_ofLines _, hw, hht, hlimit, ?_⟩
  intro s
  have hshown : ({ Grid.parse text with cellLimit := limit } : Grid).replaced s =
      (textAt text s.x s.y).getD ' ' := Grid.replaced_ofLines _ s
  rw [hshown, recalled, if_neg (by omega)]
  simp only [List.find?_nil, Int.toNat_natCast]
  cases textAt text s.x s.y <;> rfl

/-- Cutting a coordinate to 64 bits leads from outside the grid to outside the grid. -/
theorem replaced_cut (hg : Remembers text made g) (x y : Nat) :
    g.replaced ⟨min x (coordinates - 1), min y (coordinates - 1)⟩ = g.replaced ⟨x, y⟩ := by
  have hw := hg.width_lt
  have hht := hg.height_lt
  by_cases hx : x < coordinates
  · by_cases hy : y < coordinates
    · rw [Nat.min_eq_left (by omega), Nat.min_eq_left (by omega)]
    · -- A coordinate that is cut is past the extent, and it stays there.
      rw [hg.rectangular.replaced_outside, hg.rectangular.replaced_outside]
      · simp only [Grid.Contains]
        omega
      · simp only [Grid.Contains]
        omega
  · rw [hg.rectangular.replaced_outside, hg.rectangular.replaced_outside]
    · simp only [Grid.Contains]
      omega
    · simp only [Grid.Contains]
      omega

/-- **Looking up.** The place that is looked at shows what is recalled there. -/
theorem shows_saturate (hg : Remembers text made g) (x y : Int) :
    codeOf (g.shows ⟨saturate x, saturate y⟩) = recalled text made x y := by
  rw [Grid.shows, spot?_saturate]
  by_cases hneg : x < 0 ∨ y < 0
  · rw [if_pos hneg, recalled, if_pos hneg]
    rfl
  · rw [if_neg hneg]
    simp only
    rw [hg.replaced_cut, hg.recalls]
    have hx : (x.toNat : Int) = x := by omega
    have hy : (y.toNat : Int) = y := by omega
    simp only [hx, hy]

/-- A spot that the limit allows to be written is not a cut one. -/
theorem lt_of_not_overgrows (hg : Remembers text made g) {s : Spot} (hs : g.overgrows s = false) :
    max g.width (s.x + 1) < coordinates ∧ max g.height (s.y + 1) < coordinates := by
  have hw := hg.width_lt
  have hht := hg.height_lt
  by_cases hin : g.Contains s
  · simp only [Grid.Contains] at hin
    omega
  · -- Neither side of the grown grid is longer than its area, which is within the limit.
    have hlimit := hg.cellLimit_lt
    have harea : max g.width (s.x + 1) * max g.height (s.y + 1) ≤ g.cellLimit :=
      Grid.area_le_of_not_overgrows (Nat.lt_trans hlimit (by decide)) hs hin
    have hleft := Nat.le_mul_of_pos_right (max g.width (s.x + 1))
      (show 0 < max g.height (s.y + 1) by omega)
    have hright := Nat.le_mul_of_pos_left (max g.height (s.y + 1))
      (show 0 < max g.width (s.x + 1) by omega)
    omega

/-- **Storing.** A write that is not refused stores at the place that was asked for. -/
theorem put (hg : Remembers text made g) {x y : Int} {s : Spot} (v : Int)
    (hspot : Grid.spot? ⟨saturate x, saturate y⟩ = some s) (hs : g.overgrows s = false) :
    Remembers text (⟨x, y, storedCode v⟩ :: made) (g.put s (charOfCode v)) := by
  obtain ⟨hw, hht⟩ := hg.lt_of_not_overgrows hs
  obtain ⟨hputw, hputht⟩ := Grid.extent_put s (charOfCode v) g
  rw [spot?_saturate] at hspot
  split at hspot
  · cases hspot
  next hneg =>
  injection hspot with hspot
  -- The spot is less than the greatest coordinate, so neither operand was cut.
  have hsx : (s.x : Int) = x := by
    have := congrArg Spot.x hspot
    simp only at this
    omega
  have hsy : (s.y : Int) = y := by
    have := congrArg Spot.y hspot
    simp only at this
    omega
  refine ⟨hg.rectangular.put s _, by omega, by omega, ?_, ?_⟩
  · rw [Grid.cellLimit_put]
    exact hg.cellLimit_lt
  · intro t
    rw [hg.rectangular.replaced_put]
    by_cases hst : s = t
    · subst hst
      rw [if_pos rfl, codeOf_charOfCode, recalled, if_neg (by omega)]
      simp [hsx, hsy]
    · have hother : ¬ (x = t.x ∧ y = t.y) := by
        intro h
        apply hst
        ext <;> omega
      rw [if_neg hst, hg.recalls]
      simp [recalled, hother]

/-- A placement left of the grid or above it is skipped, and it is not recalled. -/
theorem skip (hg : Remembers text made g) {x y : Int} (code : Int) (hneg : x < 0 ∨ y < 0) :
    Remembers text (⟨x, y, code⟩ :: made) g := by
  refine ⟨hg.rectangular, hg.width_lt, hg.height_lt, hg.cellLimit_lt, ?_⟩
  intro s
  have hother : ¬ (x = s.x ∧ y = s.y) := by omega
  rw [hg.recalls]
  simp [recalled, hother]

end Remembers

/-! ### Steps -/

namespace Machine

variable {π η ρ : Type} [Channel π] [EdgeGuard η] [DirectionSource ρ]

theorem resolve_place {division : DivisionPolicy} {s : State} {around : Surroundings π η ρ}
    {deed : Deed} (h : (resolve division s .place around).result = .ok deed) :
    deed = .place (Grid.spot? s.target) (charOfCode (s.stack.peek 2)) ∧
      ∀ spot, Grid.spot? s.target = some spot → s.grid.overgrows spot = false := by
  obtain ⟨s?, hlanding, rfl⟩ := Reply.result_map_eq_ok.1 h
  obtain ⟨rfl, hfits⟩ := Grid.eq_spot?_of_landing hlanding
  exact ⟨rfl, hfits⟩

/-- Grabbing sees the whole plane, cells and blanks alike. -/
theorem resolve_grab {division : DivisionPolicy} {s : State} {around : Surroundings π η ρ}
    {deed : Deed} (hs : s.grid.Rectangular)
    (h : (resolve division s .grab around).result = .ok deed) :
    deed = .grab (s.grid.shows s.target) := by
  obtain ⟨c?, hread, rfl⟩ := Reply.result_map_eq_ok.1 h
  rw [Grid.eq_found_of_read hread, hs.found_getD]

theorem placement?_eq_some {m : Machine π η ρ} (hexec : m.step.result = .ok .executed)
    (hmode : m.state.mode = .normal) (hcell : m.state.cell? = some 'p') :
    m.placement? = some ⟨m.state.stack.peek 1, m.state.stack.peek 0,
      storedCode (m.state.stack.peek 2)⟩ := by
  simp only [placement?, hexec, hmode, hcell]

theorem placement?_eq_none {m : Machine π η ρ}
    (h : ¬ (m.step.result = .ok .executed ∧ m.state.mode = .normal ∧ m.state.cell? = some 'p')) :
    m.placement? = none := by
  unfold placement?
  split
  · next hexec hmode hcell => exact absurd ⟨hexec, hmode, hcell⟩ h
  · rfl

end Machine

/-- A step that places is recalled, and every other step leaves the memory alone. -/
theorem Remembers.step {π η ρ : Type} [Channel π] [EdgeGuard η] [DirectionSource ρ]
    {text : String} {made : List Placement} {m : Machine π η ρ}
    (hm : Remembers text made m.state.grid) :
    Remembers text (m.placement?.toList ++ made) m.step.state.state.grid := by
  rcases m.step_cases with ⟨c, deed, hexec⟩ | ⟨hne, huntouched⟩
  · rw [hexec.step_eq.2]
    by_cases hplace : ∃ target ch, deed = .place target ch
    · obtain ⟨target, ch, rfl⟩ := hplace
      obtain ⟨hmode, hcell, rfl⟩ := hexec.cell?_eq (i := .place) rfl (by decide)
      rw [Machine.placement?_eq_some hexec.step_eq.1 hmode hcell]
      obtain ⟨hdeed, hfits⟩ := Machine.resolve_place (hexec.resolved hmode).1
      injection hdeed with htarget hch
      subst hch
      cases hspot : Grid.spot? m.state.target with
      | none =>
        rw [htarget, hspot]
        apply hm.skip
        rw [State.target, spot?_saturate] at hspot
        split at hspot
        · assumption
        · cases hspot
      | some spot =>
        rw [htarget, hspot]
        exact hm.put _ hspot (hfits spot hspot)
    · have hnone : m.placement? = none := by
        apply Machine.placement?_eq_none
        rintro ⟨-, hmode, hcell⟩
        obtain rfl := hexec.eq_of_cell? hm.rectangular hcell
        obtain ⟨hdeed, -⟩ := Machine.resolve_place (hexec.resolved hmode).1
        exact hplace ⟨_, _, hdeed⟩
      have hsame := State.grid_perform (fun target ch h => hplace ⟨target, ch, h⟩) m.state
      rw [hnone, hsame]
      exact hm
  · have hnone : m.placement? = none := by
      apply Machine.placement?_eq_none
      rintro ⟨hexec, -, -⟩
      exact hne hexec
    rw [hnone, huntouched.state]
    exact hm

/-! ### Runs -/

namespace Machine

variable {π η ρ : Type} [Channel π] [EdgeGuard η] [DirectionSource ρ]

/-- The run lemma: the newest placement of a cell is what is found there, and before any placement
it is the text. -/
theorem remembers_stepped {text : String} {m : Machine π η ρ}
    (hm : Remembers text [] m.state.grid) (n : Nat) :
    Remembers text (m.placements n) (m.stepped n).state.grid := by
  induction n with
  | zero => exact hm
  | succ n ih => exact ih.step

/-- **The grid is a faithful memory.** In any run from a program's text, the step that executes a
`g` takes two operands and pushes what is recalled at the place that they name, which may lie
anywhere among the integers. -/
theorem grab_recalls (text : String) (limit : Nat) (channel : π) (guard : η) (dice : ρ)
    (history : History) (division : DivisionPolicy) (hlimit : limit < coordinates)
    (hwidth : (Grid.parse text).width < coordinates)
    (hheight : (Grid.parse text).height < coordinates) (m : Machine π η ρ)
    (hm : m = (start { Grid.parse text with cellLimit := limit } channel guard dice
      history).withDivision division)
    (n : Nat) (hmode : (m.stepped n).state.mode = .normal)
    (hcell : (m.stepped n).state.cell? = some 'g')
    (hok : (m.stepped n).step.result = .ok .executed) :
    (m.stepped n).step.state.state.stack =
      (m.stepped n).state.stack.dropTop.dropTop.push
        (recalled text (m.placements n) ((m.stepped n).state.stack.peek 1)
          ((m.stepped n).state.stack.peek 0)) := by
  have hfirst : Remembers text [] m.state.grid := by
    rw [hm]
    exact Remembers.parse hlimit hwidth hheight
  have hlast := remembers_stepped hfirst n
  obtain ⟨c, deed, hexec⟩ := result_step_eq_executed_iff.1 hok
  obtain rfl := hexec.eq_of_cell? hlast.rectangular hcell
  have hdeed := resolve_grab hlast.rectangular (hexec.resolved hmode).1
  rw [hexec.step_eq.2, hdeed]
  show (m.stepped n).state.stack.dropTop.dropTop.push
    (codeOf ((m.stepped n).state.grid.shows (m.stepped n).state.target)) = _
  rw [State.target, hlast.shows_saturate]

/-- A program of nine columns that stores an `A` in the tenth and grabs it. -/
def tenthColumn : Machine Transcript EdgePolicy Xoshiro :=
  (start { Grid.parse "\"A\"90p90g" with cellLimit := 100 } (.scripted "") .standard default
    .off).withDivision .fatal

theorem grab_recalls_tenthColumn :
    (tenthColumn.stepped 8).state.cell? = some 'g' ∧
      (tenthColumn.stepped 8).step.result = .ok .executed ∧
      (tenthColumn.stepped 8).step.state.state.stack =
        (tenthColumn.stepped 8).state.stack.dropTop.dropTop.push 65 := by
  have hcell : (tenthColumn.stepped 8).state.cell? = some 'g' := by decide +kernel
  have hok : (tenthColumn.stepped 8).step.result = .ok .executed := by decide +kernel
  have hrecalled : recalled "\"A\"90p90g" (tenthColumn.placements 8)
      ((tenthColumn.stepped 8).state.stack.peek 1) ((tenthColumn.stepped 8).state.stack.peek 0) =
        65 := by decide +kernel
  refine ⟨hcell, hok, ?_⟩
  rw [← hrecalled]
  exact grab_recalls "\"A\"90p90g" 100 (.scripted "") .standard default .off .fatal
    (by decide +kernel) (by decide +kernel) (by decide +kernel) tenthColumn rfl 8
    (by decide +kernel) hcell hok

end Machine

end Retrace
