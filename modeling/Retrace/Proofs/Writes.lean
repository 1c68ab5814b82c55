import Retrace.Proofs.Plane

/-!
# What a write does

This file says of every write, at any point of the plane and under any guard, what it answers, what
it makes of the grid, and whom it asks. There are five regions and three ways to be refused:

* left of the grid or above it one edge is asked about, and the write is skipped;
* right of the grid or below it, or both, one edge is asked about or two, and then the grid grows;
* inside the grid nobody is asked, and the grid does not grow.

Sizes are compared as 64-bit words. For a limit below the greatest word this is no different from
comparing the exact number of cells (`overgrows_iff`), so the statements here are about exact
numbers.

The guard is not known, so that only some edges are asked about cannot be read off its notes. It is
stated by equations between replies: guard and events afterwards are those of the questions that
were asked, and of no others.
-/

namespace Retrace.Grid

variable {η : Type} [EdgeGuard η]

/-! ### Questions -/

/-- What is asked about a write that is neither left of the grid nor above it: about the right edge,
if the point is past it, and then about the bottom edge, if the point is past that. -/
def permission (g : Grid) (p : Point) (guard : η) : Reply η Unit :=
  (if g.width ≤ p.x.toInt then EdgeGuard.consult .write .right p guard
    else .done () guard).andThen fun () guard =>
  if g.height ≤ p.y.toInt then EdgeGuard.consult .write .bottom p guard else .done () guard

theorem consultAll_crossed {g : Grid} {p : Point} (hx : 0 ≤ p.x.toInt) (hy : 0 ≤ p.y.toInt)
    (guard : η) : consultAll .write p (g.crossed p) guard = g.permission p guard := by
  rw [crossed, if_neg (by omega), if_neg (by omega), permission]
  by_cases hright : g.width ≤ p.x.toInt
  · by_cases hbottom : g.height ≤ p.y.toInt
    · rw [if_pos hright, if_pos hbottom, if_pos hright, List.cons_append, List.nil_append,
        consultAll]
      simp only [consultAll_singleton, hbottom, if_true]
    · rw [if_pos hright, if_neg hbottom, if_pos hright, List.append_nil, consultAll]
      simp only [consultAll, hbottom, if_false]
  · by_cases hbottom : g.height ≤ p.y.toInt
    · simp only [hright, hbottom, if_true, if_false, List.nil_append, consultAll_singleton,
        Reply.done_andThen]
    · simp only [hright, hbottom, if_false, List.append_nil, consultAll, Reply.done_andThen]

/-- Nobody is asked about a write inside the grid. -/
theorem permission_of_contains {g : Grid} {p : Point} {s : Spot} (hx : p.x.toInt = s.x)
    (hy : p.y.toInt = s.y) (hs : g.Contains s) (guard : η) :
    g.permission p guard = .done () guard := by
  obtain ⟨hright, hbottom⟩ := hs
  rw [permission, if_neg (by omega), Reply.done_andThen, if_neg (by omega)]

/-! ### Where a write lands -/

theorem spot?_eq_some {p : Point} {s : Spot} (hx : p.x.toInt = s.x) (hy : p.y.toInt = s.y) :
    spot? p = some s := by
  rw [spot?, if_neg (by omega), hx, hy]
  rfl

/-- Left of the grid and above it nothing follows from the guard's consent. -/
theorem write_of_skipped {g : Grid} {p : Point} {edge : Edge} (hspot : spot? p = none)
    (hcrossed : g.crossed p = [edge]) (c : Char) (guard : η) :
    g.write p c guard = ((EdgeGuard.consult .write edge p guard).map fun () => none).within
      fun guard => (g, guard) := by
  unfold write landing
  rw [hcrossed, consultAll_singleton, hspot]
  generalize EdgeGuard.consult .write edge p guard = r
  obtain ⟨_ | ⟨⟩, guard', events⟩ := r
  · rfl
  · simp [Reply.andThen, Reply.done, Reply.map, Reply.within, Except.map]

/-- Elsewhere it depends on the limit whether a permitted write is done. -/
theorem landing_of_spot {g : Grid} {p : Point} {s : Spot} (hx : p.x.toInt = s.x)
    (hy : p.y.toInt = s.y) (guard : η) :
    g.landing p guard = (g.permission p guard).andThen fun () guard =>
      if g.overgrows s then
        .fail (.gridTooLarge (max g.width (s.x + 1)) (max g.height (s.y + 1)) g.cellLimit) guard
      else .done (some s) guard := by
  unfold landing
  rw [consultAll_crossed (by omega) (by omega), spot?_eq_some hx hy]
  rfl

theorem write_of_refused {g : Grid} {p : Point} {s : Spot} {fault : Fault} {guard : η}
    (hx : p.x.toInt = s.x) (hy : p.y.toInt = s.y)
    (hrefused : (g.permission p guard).result = .error fault) (c : Char) :
    g.write p c guard =
      ⟨.error fault, (g, (g.permission p guard).state), (g.permission p guard).events⟩ := by
  unfold write
  rw [landing_of_spot hx hy]
  generalize g.permission p guard = r at *
  obtain ⟨result, guard', events⟩ := r
  subst hrefused
  rfl

theorem write_of_permitted {g : Grid} {p : Point} {s : Spot} {guard : η}
    (hx : p.x.toInt = s.x) (hy : p.y.toInt = s.y)
    (hpermitted : (g.permission p guard).result = .ok ()) (c : Char) :
    g.write p c guard =
      if g.overgrows s then
        ⟨.error (.gridTooLarge (max g.width (s.x + 1)) (max g.height (s.y + 1)) g.cellLimit),
          (g, (g.permission p guard).state), (g.permission p guard).events⟩
      else
        ⟨.ok (some (g.replaced s)), (g.put s c, (g.permission p guard).state),
          (g.permission p guard).events⟩ := by
  unfold write
  rw [landing_of_spot hx hy]
  generalize g.permission p guard = r at *
  obtain ⟨result, guard', events⟩ := r
  subst hpermitted
  cases g.overgrows s with
  | true => simp [Reply.andThen, Reply.fail]
  | false => simp [Reply.andThen, Reply.done]

/-! ### The grid after a write -/

/-- `h` is `g` after `c` was written at `s`: it is as large as need be, and `s` is the only spot at
which it shows something else. -/
structure Written (g h : Grid) (s : Spot) (c : Char) : Prop where
  rectangular : h.Rectangular
  width : h.width = max g.width (s.x + 1)
  height : h.height = max g.height (s.y + 1)
  cellLimit : h.cellLimit = g.cellLimit
  cell : h.cell? s = some c
  kept (t : Spot) : t ≠ s → g.Contains t → h.cell? t = g.cell? t
  blank (t : Spot) : t ≠ s → ¬ g.Contains t → h.Contains t → h.cell? t = some ' '

theorem Rectangular.written_put {g : Grid} (hg : g.Rectangular) (s : Spot) (c : Char) :
    g.Written (g.put s c) s c := by
  obtain ⟨hwidth, hheight⟩ := extent_put s c g
  have hput := hg.put s c
  have hother (t : Spot) (hne : t ≠ s) : (g.put s c).replaced t = g.replaced t := by
    rw [hg.replaced_put, if_neg (Ne.symm hne)]
  refine ⟨hput, hwidth, hheight, cellLimit_put s c g, ?_, ?_, ?_⟩
  · rw [hg.cell?_put, if_pos rfl]
  · intro t hne hin
    have hin' : (g.put s c).Contains t := by
      simp only [Contains] at hin ⊢
      omega
    rw [hput.cell?_eq, hg.cell?_eq, if_pos hin', if_pos hin, hother t hne]
  · intro t hne hout hin
    rw [hput.cell?_eq, if_pos hin, hother t hne, hg.replaced_outside hout]

/-! ### Every write -/

/-- What a write of `c` at `p` answers, what it leaves behind, and what was asked. -/
structure WritesExactly (g : Grid) (p : Point) (c : Char) (guard : η) : Prop where
  /-- Left of the grid the left edge is asked about, and the write is skipped. -/
  left : p.x.toInt < 0 →
    g.write p c guard = ((EdgeGuard.consult .write .left p guard).map fun () => none).within
      fun guard => (g, guard)
  /-- Above the grid it is the top edge. -/
  top : 0 ≤ p.x.toInt → p.y.toInt < 0 →
    g.write p c guard = ((EdgeGuard.consult .write .top p guard).map fun () => none).within
      fun guard => (g, guard)
  /-- What the guard refuses is not done. -/
  refused (s : Spot) (fault : Fault) : p.x.toInt = s.x → p.y.toInt = s.y →
    (g.permission p guard).result = .error fault →
    g.write p c guard =
      ⟨.error fault, (g, (g.permission p guard).state), (g.permission p guard).events⟩
  /-- What would make the grid too large is not done either. -/
  tooLarge (s : Spot) : p.x.toInt = s.x → p.y.toInt = s.y →
    (g.permission p guard).result = .ok () → ¬ g.Contains s →
    g.cellLimit < max g.width (s.x + 1) * max g.height (s.y + 1) →
    g.write p c guard =
      ⟨.error (.gridTooLarge (max g.width (s.x + 1)) (max g.height (s.y + 1)) g.cellLimit),
        (g, (g.permission p guard).state), (g.permission p guard).events⟩
  /-- Everything else is done, and answered by the old character. -/
  done (s : Spot) : p.x.toInt = s.x → p.y.toInt = s.y →
    (g.permission p guard).result = .ok () →
    (¬ g.Contains s → max g.width (s.x + 1) * max g.height (s.y + 1) ≤ g.cellLimit) →
    ∃ h, g.Written h s c ∧ g.write p c guard =
      ⟨.ok (some ((g.cell? s).getD ' ')), (h, (g.permission p guard).state),
        (g.permission p guard).events⟩
  /-- A write inside the grid is always done, and nobody is asked. -/
  inside (s : Spot) : p.x.toInt = s.x → p.y.toInt = s.y → g.Contains s →
    ∃ h old, g.cell? s = some old ∧ g.Written h s c ∧
      g.write p c guard = .done (some old) (h, guard)

/-- **Every write is one of these**, at any point and under any guard, on any grid whose limit is
below the greatest word. -/
theorem writesExactly_of_rectangular (g : Grid) (hg : g.Rectangular)
    (hlimit : g.cellLimit < greatestWord) (p : Point) (c : Char) (guard : η) :
    g.WritesExactly p c guard := by
  have hdone (s : Spot) (hx : p.x.toInt = s.x) (hy : p.y.toInt = s.y)
      (hpermitted : (g.permission p guard).result = .ok ())
      (hroom : ¬ g.Contains s → max g.width (s.x + 1) * max g.height (s.y + 1) ≤ g.cellLimit) :
      g.write p c guard = ⟨.ok (some (g.replaced s)), (g.put s c, (g.permission p guard).state),
        (g.permission p guard).events⟩ := by
    rw [write_of_permitted hx hy hpermitted, if_neg]
    intro hover
    obtain ⟨hout, hlarge⟩ := (overgrows_iff hlimit).1 hover
    exact Nat.not_lt.2 (hroom hout) hlarge
  constructor
  case left =>
    intro hx
    exact write_of_skipped (by rw [spot?, if_pos (.inl hx)]) (by rw [crossed, if_pos hx]) c guard
  case top =>
    intro hx hy
    exact write_of_skipped (by rw [spot?, if_pos (.inr hy)])
      (by rw [crossed, if_neg (by omega), if_pos hy]) c guard
  case refused =>
    intro s fault hx hy hrefused
    exact write_of_refused hx hy hrefused c
  case tooLarge =>
    intro s hx hy hpermitted hout hlarge
    rw [write_of_permitted hx hy hpermitted, if_pos ((overgrows_iff hlimit).2 ⟨hout, hlarge⟩)]
  case done =>
    intro s hx hy hpermitted hroom
    exact ⟨g.put s c, hg.written_put s c, hdone s hx hy hpermitted hroom⟩
  case inside =>
    intro s hx hy hs
    have hpermission := permission_of_contains hx hy hs guard
    have hwrite := hdone s hx hy (by rw [hpermission]; rfl) (fun hout => absurd hs hout)
    rw [hpermission] at hwrite
    refine ⟨g.put s c, g.replaced s, ?_, hg.written_put s c, hwrite⟩
    rw [hg.cell?_eq, if_pos hs]

/-- A grid that may grow as far as words can tell. -/
def vast : Grid := ⟨#[#['a', 'b']], 2, 1, greatestWord - 1⟩

/-- At the far corner of the plane the number of cells is no word, and still it exceeds the
limit. -/
theorem writesExactly_of_rectangular_vast :
    vast.Rectangular ∧ vast.cellLimit < greatestWord ∧
      vast.WritesExactly ⟨Int64.maxValue, Int64.maxValue⟩ 'x' EdgePolicy.standard ∧
      vast.write ⟨Int64.maxValue, Int64.maxValue⟩ 'x' EdgePolicy.standard =
        .fail (.gridTooLarge 9223372036854775808 9223372036854775808 18446744073709551614)
          (vast, .standard) := by
  have hrectangular : vast.Rectangular := by decide
  have hlimit : vast.cellLimit < greatestWord := by decide
  have hwrites := writesExactly_of_rectangular vast hrectangular hlimit
    ⟨Int64.maxValue, Int64.maxValue⟩ 'x' EdgePolicy.standard
  refine ⟨hrectangular, hlimit, hwrites, ?_⟩
  exact hwrites.tooLarge ⟨9223372036854775807, 9223372036854775807⟩ rfl rfl rfl (by decide)
    (by decide)

end Retrace.Grid
