import Retrace.Grid.Access
import Retrace.Grid.Lemmas

/-!
# Grids as planes

A grid has cells only inside its extent, but the machine can address the whole plane, and wherever
it does so without being refused it gets to see a character: the cell if there is one, and a space
otherwise. `Grid.replaced` is that character at a spot and `Grid.shows` is that character at a
point.

Seen in this way, growing does nothing at all (`replaced_growTo`) and a write changes one spot
(`replaced_put`). So two grids of which one is the other filled up with spaces show the same plane.
This is the relation `PaddedTo`, and it is what connects a grid from the past with the grid on which
the past was restored: extents are never taken back.
-/

namespace Retrace.Grid

instance (g : Grid) : Decidable g.Rectangular := inferInstanceAs (Decidable (_ ∧ _))

/-! ### The character at a spot -/

/-- The cells of a rectangular grid are the plane cut off at its extent. -/
theorem Rectangular.cell?_eq {g : Grid} (hg : g.Rectangular) (s : Spot) :
    g.cell? s = if g.Contains s then some (g.replaced s) else none := by
  split
  · next hin =>
    obtain ⟨c, hc⟩ := Option.isSome_iff_exists.1 ((hg.isSome_cell? s).2 hin)
    rw [replaced, hc]
    rfl
  · next hout => exact hg.cell?_eq_none hout

theorem Rectangular.replaced_outside {g : Grid} (hg : g.Rectangular) {s : Spot}
    (hout : ¬ g.Contains s) : g.replaced s = ' ' := by
  rw [replaced, hg.cell?_eq_none hout]
  rfl

/-- Growing cannot be seen. -/
theorem replaced_growTo (g : Grid) (s t : Spot) : (g.growTo s).replaced t = g.replaced t := by
  unfold growTo
  split
  · rfl
  · simp only [replaced, cell?, Array.rightpad, Array.getElem?_append, Array.size_map,
      Array.getElem?_map, Array.getElem?_replicate]
    by_cases hy : t.y < g.rows.size
    · rw [if_pos hy]
      cases g.rows[t.y]? with
      | none => rfl
      | some row =>
        by_cases hx : t.x < row.size
        · simp [Array.getElem?_append, hx]
        · -- The row has ended here, and what it was padded with is a space.
          simp only [Option.map_some, Option.bind_some, Array.getElem?_append,
            Array.getElem?_replicate, if_neg hx, Array.getElem?_eq_none (Nat.not_lt.1 hx)]
          split <;> rfl
    · have hrow : g.rows[t.y]? = none := Array.getElem?_eq_none (Nat.not_lt.1 hy)
      rw [if_neg hy, hrow]
      split
      · simp only [Option.bind_some, Array.getElem?_replicate]
        split <;> rfl
      · rfl

/-- A write is seen at its spot and nowhere else. -/
theorem Rectangular.replaced_put {g : Grid} (hg : g.Rectangular) (s t : Spot) (c : Char) :
    (g.put s c).replaced t = if s = t then c else g.replaced t := by
  by_cases hst : s = t
  · rw [replaced, hg.cell?_put, if_pos hst, if_pos hst]
    rfl
  · rw [if_neg hst, ← replaced_growTo g s t, replaced, replaced, hg.cell?_put, if_neg hst,
      hg.cell?_growTo]

theorem Rectangular.replaced_set {g : Grid} (hg : g.Rectangular) {s : Spot} (hs : g.Contains s)
    (t : Spot) (c : Char) : (g.set s c).replaced t = if s = t then c else g.replaced t := by
  rw [replaced, cell?_set]
  split
  · next hst =>
    subst hst
    rw [hg.cell?_eq, if_pos hs]
    rfl
  · rfl

theorem extent_put (s : Spot) (c : Char) (g : Grid) :
    (g.put s c).width = max g.width (s.x + 1) ∧ (g.put s c).height = max g.height (s.y + 1) := by
  have hext := extent_growTo s g
  simp only [extentFor, Prod.mk.injEq] at hext
  simpa only [put, width_set, height_set] using hext

@[simp] theorem cellLimit_put (s : Spot) (c : Char) (g : Grid) :
    (g.put s c).cellLimit = g.cellLimit := by
  rw [put, cellLimit_set, cellLimit_growTo]

/-- A grid is what it shows, together with its extent and its limit. -/
theorem Rectangular.eq_of_replaced {g h : Grid} (hg : g.Rectangular) (hh : h.Rectangular)
    (hw : g.width = h.width) (hht : g.height = h.height) (hl : g.cellLimit = h.cellLimit)
    (hr : ∀ s, g.replaced s = h.replaced s) : g = h := by
  have hcell : ∀ s, g.cell? s = h.cell? s := by
    intro s
    have hin : g.Contains s ↔ h.Contains s := by rw [Contains, Contains, hw, hht]
    rw [hg.cell?_eq, hh.cell?_eq, hr s]
    simp only [hin]
  -- The rows are as many and as long, and no cell of them differs.
  have hrows : g.rows = h.rows := by
    apply Array.ext
    · rw [hg.1, hh.1, hht]
    · intro y hgy hhy
      have hgw := hg.2 _ (Array.getElem_mem hgy)
      have hhw := hh.2 _ (Array.getElem_mem hhy)
      apply Array.ext
      · rw [hgw, hhw, hw]
      · intro x hgx hhx
        have hxy := hcell ⟨x, y⟩
        simpa [cell?, hgy, hhy, hgx, hhx] using hxy
  cases g
  cases h
  simp_all

/-! ### Padding -/

/-- `h` is `g`, filled up with spaces. -/
structure PaddedTo (g h : Grid) : Prop where
  inner : g.Rectangular
  outer : h.Rectangular
  width_le : g.width ≤ h.width
  height_le : g.height ≤ h.height
  cellLimit_eq : h.cellLimit = g.cellLimit
  replaced_eq : ∀ s, h.replaced s = g.replaced s

namespace PaddedTo

variable {g h k : Grid}

theorem refl (hg : g.Rectangular) : g.PaddedTo g :=
  ⟨hg, hg, Nat.le_refl _, Nat.le_refl _, rfl, fun _ => rfl⟩

theorem trans (hgh : g.PaddedTo h) (hhk : h.PaddedTo k) : g.PaddedTo k where
  inner := hgh.inner
  outer := hhk.outer
  width_le := Nat.le_trans hgh.width_le hhk.width_le
  height_le := Nat.le_trans hgh.height_le hhk.height_le
  cellLimit_eq := hhk.cellLimit_eq.trans hgh.cellLimit_eq
  replaced_eq s := (hhk.replaced_eq s).trans (hgh.replaced_eq s)

theorem contains (hgh : g.PaddedTo h) {s : Spot} (hs : g.Contains s) : h.Contains s :=
  ⟨Nat.lt_of_lt_of_le hs.1 hgh.width_le, Nat.lt_of_lt_of_le hs.2 hgh.height_le⟩

theorem cell?_inside (hgh : g.PaddedTo h) {s : Spot} (hs : g.Contains s) :
    h.cell? s = g.cell? s := by
  rw [hgh.outer.cell?_eq, hgh.inner.cell?_eq, if_pos hs, if_pos (hgh.contains hs),
    hgh.replaced_eq]

theorem cell?_outside (hgh : g.PaddedTo h) {s : Spot} (hout : ¬ g.Contains s)
    (hs : h.Contains s) : h.cell? s = some ' ' := by
  rw [hgh.outer.cell?_eq, if_pos hs, hgh.replaced_eq, hgh.inner.replaced_outside hout]

/-- A padding is determined by its extent. -/
theorem eq_of_extent (hgh : g.PaddedTo h) (hgk : g.PaddedTo k) (hw : h.width = k.width)
    (hht : h.height = k.height) : h = k := by
  apply hgh.outer.eq_of_replaced hgk.outer hw hht
  · rw [hgh.cellLimit_eq, hgk.cellLimit_eq]
  · intro s
    rw [hgh.replaced_eq, hgk.replaced_eq]

/-- Writing to a grid and to the padded grid leaves them related, though the first one may have had
to grow. -/
theorem put (hgh : g.PaddedTo h) (s : Spot) (c : Char) : (g.put s c).PaddedTo (h.put s c) := by
  obtain ⟨hgw, hght⟩ := extent_put s c g
  obtain ⟨hhw, hhht⟩ := extent_put s c h
  have hw := hgh.width_le
  have hht := hgh.height_le
  refine ⟨hgh.inner.put s c, hgh.outer.put s c, ?_, ?_, ?_, ?_⟩
  · omega
  · omega
  · rw [cellLimit_put, cellLimit_put, hgh.cellLimit_eq]
  · intro t
    rw [hgh.inner.replaced_put, hgh.outer.replaced_put, hgh.replaced_eq]

theorem contains_put {s : Spot} {c : Char} (hgh : (g.put s c).PaddedTo h) : h.Contains s := by
  apply hgh.contains
  have hext := extent_put s c g
  simp only [Contains]
  omega

/-- **A write is taken back** on any padding of its result by overwriting its spot with what was
replaced there. The extent stays, so what comes back is a padding too. -/
theorem set_replaced (hg : g.Rectangular) {s : Spot} {c : Char}
    (hgh : (g.put s c).PaddedTo h) : g.PaddedTo (h.set s (g.replaced s)) := by
  obtain ⟨hw, hht⟩ := extent_put s c g
  have hw' := hgh.width_le
  have hht' := hgh.height_le
  refine ⟨hg, hgh.outer.set s _, ?_, ?_, ?_, ?_⟩
  · rw [width_set]
    omega
  · rw [height_set]
    omega
  · rw [cellLimit_set, hgh.cellLimit_eq, cellLimit_put]
  · intro t
    rw [hgh.outer.replaced_set hgh.contains_put]
    split
    · next hst => rw [hst]
    · next hst => rw [hgh.replaced_eq, hg.replaced_put, if_neg hst]

end PaddedTo

/-! ### The character at a point -/

/-- The character that a grid shows at a point of the plane. -/
def shows (g : Grid) (p : Point) : Char :=
  match spot? p with
  | none => ' '
  | some s => g.replaced s

/-- What a read at a point finds if it is not refused. -/
def found (g : Grid) (p : Point) : Option Char :=
  match g.missed? p with
  | none => g.get? p
  | some edge => beyond edge

/-- A read that is not refused finds something exactly before the right and the bottom edge, and
then it is what the grid shows there. -/
theorem Rectangular.found_eq {g : Grid} (hg : g.Rectangular) (p : Point) :
    g.found p =
      if p.x.toInt < g.width ∧ p.y.toInt < g.height then some (g.shows p) else none := by
  by_cases hx : (g.width : Int) ≤ p.x.toInt
  · rw [found, missed?, if_pos hx, if_neg (by omega)]
    rfl
  by_cases hy : (g.height : Int) ≤ p.y.toInt
  · rw [found, missed?, if_neg hx, if_pos hy, if_neg (by omega)]
    rfl
  -- Left of the grid and above it a read finds the space that the plane shows there.
  rw [if_pos (by omega)]
  by_cases hleft : p.x.toInt < 0
  · simp [found, missed?, hx, hy, hleft, beyond, shows, spot?]
  by_cases htop : p.y.toInt < 0
  · simp [found, missed?, hx, hy, hleft, htop, beyond, shows, spot?]
  have hin : g.Contains ⟨p.x.toInt.toNat, p.y.toInt.toNat⟩ := by
    simp only [Contains]
    omega
  have hspot : spot? p = some ⟨p.x.toInt.toNat, p.y.toInt.toNat⟩ := by
    rw [spot?, if_neg (by omega)]
  rw [found, missed?, if_neg hx, if_neg hy, if_neg hleft, if_neg htop]
  simp only [get?, shows, hspot, Option.bind_some, hg.cell?_eq, if_pos hin]

/-- Where a read finds no cell the grid shows a space. -/
theorem Rectangular.found_getD {g : Grid} (hg : g.Rectangular) (p : Point) :
    (g.found p).getD ' ' = g.shows p := by
  rw [hg.found_eq]
  split
  · rfl
  · next hout =>
    simp only [shows, spot?]
    split
    · rfl
    · next s hs =>
      split at hs
      · cases hs
      · injection hs with hs
        subst hs
        rw [hg.replaced_outside (by simp only [Contains]; omega)]
        rfl

/-- A point misses the grid unless both its coordinates are in range, as integers and not as
words. -/
theorem missed?_eq_none_iff {g : Grid} {p : Point} :
    g.missed? p = none ↔
      0 ≤ p.x.toInt ∧ p.x.toInt < g.width ∧ 0 ≤ p.y.toInt ∧ p.y.toInt < g.height := by
  unfold missed?
  grind

/-- A point that has a cell misses no edge. -/
theorem Rectangular.missed?_of_get? {g : Grid} (hg : g.Rectangular) {p : Point} {c : Char}
    (hc : g.get? p = some c) : g.missed? p = none := by
  obtain ⟨s, hs, hcell⟩ := Option.bind_eq_some_iff.1 hc
  have hin : g.Contains s := (hg.isSome_cell? s).1 (by rw [hcell]; rfl)
  rw [spot?] at hs
  split at hs
  · cases hs
  · injection hs with hs
    subst hs
    simp only [Contains] at hin
    rw [missed?_eq_none_iff]
    omega

theorem Rectangular.found_of_get? {g : Grid} (hg : g.Rectangular) {p : Point} {c : Char}
    (hc : g.get? p = some c) : g.found p = some c := by
  rw [found, hg.missed?_of_get? hc]
  exact hc

/-- What is found and is no space is a cell. -/
theorem get?_of_found {g : Grid} {p : Point} {c : Char} (hc : g.found p = some c)
    (hne : c ≠ ' ') : g.get? p = some c := by
  rw [found] at hc
  split at hc
  · exact hc
  · next edge _ =>
    -- Past an edge there are only spaces to be found.
    cases edge with
    | top | left =>
      injection hc with hc
      exact absurd hc.symm hne
    | bottom | right => cases hc

/-- Padding cannot be seen from the plane. -/
theorem PaddedTo.shows_eq {g h : Grid} (hgh : g.PaddedTo h) (p : Point) :
    h.shows p = g.shows p := by
  simp only [shows, hgh.replaced_eq]

theorem PaddedTo.found_some {g h : Grid} (hgh : g.PaddedTo h) {p : Point} {c : Char}
    (hc : g.found p = some c) : h.found p = some c := by
  have hw := hgh.width_le
  have hht := hgh.height_le
  rw [hgh.inner.found_eq] at hc
  split at hc
  · rw [hgh.outer.found_eq, hgh.shows_eq, if_pos (by omega)]
    exact hc
  · cases hc

theorem PaddedTo.get?_some {g h : Grid} (hgh : g.PaddedTo h) {p : Point} {c : Char}
    (hc : g.get? p = some c) : h.get? p = some c := by
  obtain ⟨s, hs, hcell⟩ := Option.bind_eq_some_iff.1 hc
  have hin : g.Contains s := (hgh.inner.isSome_cell? s).1 (by rw [hcell]; rfl)
  apply Option.bind_eq_some_iff.2
  refine ⟨s, hs, ?_⟩
  rw [hgh.cell?_inside hin]
  exact hcell

/-! ### Accesses that are not refused -/

variable {η : Type u} [EdgeGuard η]

/-- Nobody is asked about a cell of the grid. -/
theorem Rectangular.read_of_get? {g : Grid} (hg : g.Rectangular) {p : Point} {c : Char}
    (hc : g.get? p = some c) (guard : η) : g.read p guard = .done (some c) guard := by
  simp only [read, hg.missed?_of_get? hc, hc]

/-- A guard may refuse a read, but it cannot forge one. -/
theorem eq_found_of_read {g : Grid} {p : Point} {guard : η} {c? : Option Char}
    (hr : (g.read p guard).result = .ok c?) : c? = g.found p := by
  rw [read] at hr
  rw [found]
  cases hmissed : g.missed? p with
  | none =>
    rw [hmissed] at hr
    injection hr with hr
    exact hr.symm
  | some edge =>
    rw [hmissed] at hr
    obtain ⟨_, _, hbeyond⟩ := Reply.result_map_eq_ok.1 hr
    exact hbeyond.symm

theorem consultAll_singleton (access : Access) (p : Point) (edge : Edge) (guard : η) :
    consultAll access p [edge] guard = EdgeGuard.consult access edge p guard := by
  rw [consultAll]
  generalize EdgeGuard.consult access edge p guard = r
  obtain ⟨_ | ⟨⟩, guard', events⟩ := r
  · rfl
  · simp [Reply.andThen, consultAll, Reply.done]

/-- What landing answers, if it answers: the spot of the point, which the grid can reach. -/
theorem eq_spot?_of_landing {g : Grid} {p : Point} {guard : η} {s? : Option Spot}
    (hr : (g.landing p guard).result = .ok s?) :
    s? = spot? p ∧ ∀ s, spot? p = some s → g.overgrows s = false := by
  unfold landing at hr
  obtain ⟨_, _, hr⟩ := Reply.result_andThen_eq_ok.1 hr
  cases hspot : spot? p with
  | none =>
    simp only [hspot, Reply.result_done, Except.ok.injEq] at hr
    exact ⟨hr.symm, fun s hs => by cases hs⟩
  | some s =>
    simp only [hspot] at hr
    cases hover : g.overgrows s with
    | true => simp [hover] at hr
    | false =>
      simp only [hover, Bool.false_eq_true, if_false, Reply.result_done, Except.ok.injEq] at hr
      refine ⟨hr.symm, fun t ht => ?_⟩
      injection ht with ht
      rw [← ht, hover]

end Retrace.Grid
