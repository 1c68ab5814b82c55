import Retrace.Grid.Parse

/-!
# Grids by their cells

`Grid.cell?` is the view through which grids are reasoned about, and there is one equation for it
per operation. They need grids to be `Rectangular`, which parsing establishes and every operation
keeps.
-/

namespace Retrace.Grid

/-! ### Rectangular grids -/

/-- A grid is rectangular iff its rows, addressed by number, are. -/
theorem rectangular_iff {g : Grid} :
    g.Rectangular ↔ g.rows.size = g.height ∧
      ∀ (y : Nat) (row : Array Char), g.rows[y]? = some row → row.size = g.width := by
  refine and_congr_right fun _ => ⟨fun h y row hy => h row (Array.mem_of_getElem? hy), ?_⟩
  intro h row hrow
  obtain ⟨y, hy⟩ := Array.mem_iff_getElem?.1 hrow
  exact h y row hy

/-- In a rectangular grid the cells are those of its extent. -/
theorem Rectangular.isSome_cell? {g : Grid} (h : g.Rectangular) (s : Spot) :
    (g.cell? s).isSome ↔ g.Contains s := by
  obtain ⟨rowCount, rowSize⟩ := rectangular_iff.1 h
  unfold cell? Contains
  cases hy : g.rows[s.y]? with
  | none =>
    have : g.height ≤ s.y := by simpa [rowCount] using hy
    simp
    omega
  | some row =>
    have inside : s.y < g.height := by
      rw [← rowCount]
      exact (Array.getElem?_eq_some_iff.1 hy).1
    simp [rowSize s.y row hy, inside]

/-- Outside the extent of a rectangular grid there are no cells. -/
theorem Rectangular.cell?_eq_none {g : Grid} (h : g.Rectangular) {s : Spot}
    (outside : ¬ g.Contains s) : g.cell? s = none := by
  rw [← h.isSome_cell? s] at outside
  simpa using outside

/-- The longest line is at least as long as each. -/
theorem length_le_longest {lines : List (List Char)} {line : List Char} (h : line ∈ lines) :
    line.length ≤ longest lines := by
  have grows : ∀ (ls : List (List Char)) (n : Nat),
      n ≤ ls.foldl (fun n line => max n line.length) n ∧
        ∀ l ∈ ls, l.length ≤ ls.foldl (fun n line => max n line.length) n := by
    intro ls
    induction ls with
    | nil => simp
    | cons l ls ih =>
      intro n
      obtain ⟨low, high⟩ := ih (max n l.length)
      simp only [List.foldl_cons, List.mem_cons, forall_eq_or_imp]
      exact ⟨by omega, by omega, high⟩
  exact (grows lines 0).2 line h

/-- Parsed grids are rectangular. -/
theorem rectangular_ofLines (lines : List (List Char)) : (ofLines lines).Rectangular := by
  refine ⟨by simp [ofLines], ?_⟩
  intro row hrow
  simp only [ofLines, List.mem_toArray, List.mem_map] at hrow ⊢
  obtain ⟨line, hline, rfl⟩ := hrow
  have := length_le_longest hline
  simp
  omega

/-! ### Overwriting -/

/-- Overwriting keeps grids rectangular. -/
theorem Rectangular.set {g : Grid} (h : g.Rectangular) (s : Spot) (c : Char) :
    (g.set s c).Rectangular := by
  obtain ⟨rowCount, rowSize⟩ := rectangular_iff.1 h
  refine rectangular_iff.2 ⟨by simpa [Grid.set] using rowCount, ?_⟩
  intro y row hy
  simp only [Grid.set, Array.getElem?_modify] at hy
  split at hy
  · obtain ⟨old, hold, rfl⟩ := Option.map_eq_some_iff.1 hy
    simpa using rowSize y old hold
  · exact rowSize y row hy

/-- Overwriting changes one cell, if it is there. -/
theorem cell?_set (g : Grid) (s t : Spot) (c : Char) :
    (g.set s c).cell? t = if s = t then (g.cell? t).map fun _ => c else g.cell? t := by
  unfold Grid.set cell?
  simp only [Array.getElem?_modify]
  by_cases hy : s.y = t.y
  · cases row : g.rows[t.y]? with
    | none => simp [hy]
    | some cells =>
      by_cases hx : s.x = t.x
      · have : s = t := Spot.ext hx hy
        subst this
        cases cell : cells[s.x]? with
        | none =>
          have := Array.getElem?_eq_none_iff.1 cell
          simp [Array.getElem?_setIfInBounds, cell]
          omega
        | some old =>
          obtain ⟨inside, _⟩ := Array.getElem?_eq_some_iff.1 cell
          simp [inside]
      · have : s ≠ t := fun e => hx (congrArg Spot.x e)
        simp [hy, this, hx]
  · have : s ≠ t := fun e => hy (congrArg Spot.y e)
    simp [hy, this]

/-! ### Growing -/

/-- A grid reaches the spots that it was made to reach. -/
theorem contains_growTo (s : Spot) (g : Grid) : (g.growTo s).Contains s := by
  unfold growTo
  split
  · assumption
  · simp only [Contains, extentFor]
    omega

/-- The extent of a grid that was made to reach a spot. -/
theorem extent_growTo (s : Spot) (g : Grid) :
    ((g.growTo s).width, (g.growTo s).height) = g.extentFor s := by
  unfold growTo
  split
  · next inside =>
    simp only [Contains] at inside
    simp only [extentFor, Prod.mk.injEq]
    omega
  · rfl

/-- Growing keeps grids rectangular. -/
theorem Rectangular.growTo {g : Grid} (h : g.Rectangular) (s : Spot) :
    (g.growTo s).Rectangular := by
  obtain ⟨rowCount, rowSize⟩ := h
  unfold Grid.growTo
  split
  · exact ⟨rowCount, rowSize⟩
  · refine ⟨by simp only [Array.size_rightpad, Array.size_map, extentFor]; omega, ?_⟩
    intro row hrow
    simp only [Array.rightpad, Array.mem_append, Array.mem_map, Array.mem_replicate] at hrow
    rcases hrow with ⟨old, hold, rfl⟩ | ⟨_, rfl⟩
    · have := rowSize old hold
      simp only [Array.size_append, Array.size_replicate, extentFor]
      omega
    · simp

/-- Growing keeps the cells and adds spaces. -/
theorem Rectangular.cell?_growTo {g : Grid} (h : g.Rectangular) (s t : Spot) :
    (g.growTo s).cell? t =
      if (g.growTo s).Contains t then some (g.replaced t) else none := by
  split
  · next inside =>
    by_cases reached : g.Contains s
    · have same : g.growTo s = g := by simp [Grid.growTo, reached]
      rw [same] at inside ⊢
      obtain ⟨c, hc⟩ := Option.isSome_iff_exists.1 ((h.isSome_cell? t).2 inside)
      simp [replaced, hc]
    · obtain ⟨rowCount, rowSize⟩ := rectangular_iff.1 h
      simp only [Grid.growTo, if_neg reached] at inside ⊢
      simp only [Contains, cell?, replaced] at inside ⊢
      simp only [Array.rightpad, Array.getElem?_append, Array.size_map, Array.getElem?_map,
        Array.getElem?_replicate]
      by_cases hy : t.y < g.rows.size
      · have row := Array.getElem?_eq_getElem hy
        have wide := rowSize t.y _ row
        simp only [hy, if_true, row, Option.map_some, Option.bind_some, Array.getElem?_append,
          Array.getElem?_replicate]
        by_cases hx : t.x < g.rows[t.y].size
        · simp [hx]
        · have : t.x - g.rows[t.y].size < (g.extentFor s).1 - g.rows[t.y].size := by omega
          simp [hx, this]
      · have : t.y - g.rows.size < (g.extentFor s).2 - g.rows.size := by omega
        simp [hy, this, inside.1]
  · next outside => exact (h.growTo s).cell?_eq_none outside

/-! ### Writing -/

/-- Writing keeps grids rectangular. -/
theorem Rectangular.put {g : Grid} (h : g.Rectangular) (s : Spot) (c : Char) :
    (g.put s c).Rectangular := (h.growTo s).set s c

/-- After a write there is the new character at its spot, and every other cell is what it was, or a
space where there was none. -/
theorem Rectangular.cell?_put {g : Grid} (h : g.Rectangular) (s t : Spot) (c : Char) :
    (g.put s c).cell? t =
      if s = t then some c
      else if (g.growTo s).Contains t then some (g.replaced t) else none := by
  simp only [Grid.put, cell?_set, h.cell?_growTo]
  split
  · next same =>
    subst same
    simp [contains_growTo]
  · rfl

end Retrace.Grid
