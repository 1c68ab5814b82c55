import Retrace.Grid.Render
import Retrace.Proofs.LineEndings
import Retrace.Proofs.Wholeness

/-!
# Rendered grids

The text of a grid has its rows with line feeds between them and none at the end. Two things are
shown about it.

* Parsing undoes rendering (`parse_render_of_becomes`). The text is a manuscript of the rows, in
  which the last line has no ending, so it is enough that no cell is taken for part of an ending and
  that the last row is not empty (`Legible`).
* The marker is drawn by a renderer of its own, and it agrees with rendering the grid after the cell
  has been overwritten (`marks_of_rectangular`). It changes one character of the text, whose index
  follows from the rows being equally long.

Both start from the text cut in front of a row and behind it (`intercalate_append_cons`).
-/

namespace Retrace

/-! ### Joined rows -/

namespace Text

variable {α : Type u}

/-- Joined pieces, seen from one of them: the separators before it stand behind their pieces, and
those after it in front. -/
theorem intercalate_append_cons (sep : α) (before : List (List α)) (piece : List α)
    (after : List (List α)) :
    [sep].intercalate (before ++ piece :: after) =
      before.flatMap (· ++ [sep]) ++ (piece ++ after.flatMap (sep :: ·)) := by
  induction before with
  | nil =>
    induction after generalizing piece with
    | nil => simp
    | cons next after ih =>
      have hlater := ih next
      simp only [List.nil_append] at hlater ⊢
      rw [List.intercalate_cons_cons, hlater]
      simp
  | cons first before ih =>
    obtain ⟨second, rest, hrest⟩ : ∃ second rest, before ++ piece :: after = second :: rest :=
      List.exists_cons_of_ne_nil (by simp)
    rw [List.cons_append, hrest, List.intercalate_cons_cons, ← hrest, ih]
    simp

/-- Pieces of equal length with a separator behind each. -/
theorem length_flatMap_append (sep : α) {width : Nat} {pieces : List (List α)}
    (h : ∀ piece ∈ pieces, piece.length = width) :
    (pieces.flatMap (· ++ [sep])).length = pieces.length * (width + 1) := by
  induction pieces with
  | nil => simp
  | cons piece pieces ih =>
    have hfirst := h piece (by simp)
    have hrest := ih fun p hp => h p (by simp [hp])
    simp only [List.flatMap_cons, List.length_append, hrest, hfirst, List.length_cons,
      List.length_nil, Nat.add_mul, Nat.one_mul]
    omega

/-- Lines with line feeds between them are a manuscript whose last line has no ending, so they can
be split again. -/
theorem programLines_intercalate {before : List (List Char)} {last : List Char}
    (hbefore : ∀ line ∈ before, Plain line) (hlast : '\n' ∉ last) (hne : last ≠ []) :
    programLines (['\n'].intercalate (before ++ [last])) = before ++ [last] := by
  let m : Manuscript := ⟨before.map fun line => (line, .feed), last⟩
  have htext : m.text = ['\n'].intercalate (before ++ [last]) := by
    simp [m, Manuscript.text, intercalate_append_cons, List.flatMap_map, Ending.chars]
  have hlines : m.lines = before ++ [last] := by
    simp [m, Manuscript.lines, hne, Function.comp_def]
  have hended : ∀ written ∈ m.ended, Plain written.1 := by
    intro written hwritten
    obtain ⟨line, hline, rfl⟩ := List.mem_map.1 hwritten
    exact hbefore line hline
  rw [← htext, m.programLines_text hended hlast, hlines]

end Text

namespace Grid

/-! ### The rows of a grid -/

def texts (g : Grid) : List (List Char) := g.rows.toList.map Array.toList

theorem toList_render (g : Grid) : g.render.toList = ['\n'].intercalate g.texts := by
  have hlines : g.lines.map String.toList = g.texts := by
    simp [lines, texts, Function.comp_def]
  rw [render, String.toList_intercalate, hlines]
  rfl

theorem Rectangular.length_texts {g : Grid} (hg : g.Rectangular) : g.texts.length = g.height := by
  rw [texts, List.length_map, Array.length_toList, hg.1]

theorem Rectangular.texts_ne_nil {g : Grid} (hg : g.Rectangular) (hheight : 0 < g.height) :
    g.texts ≠ [] := by
  rw [← List.length_pos_iff, hg.length_texts]
  exact hheight

theorem Rectangular.length_of_mem_texts {g : Grid} (hg : g.Rectangular) {row : List Char}
    (h : row ∈ g.texts) : row.length = g.width := by
  obtain ⟨cells, hcells, rfl⟩ := List.mem_map.1 h
  rw [Array.length_toList]
  exact hg.2 cells (Array.mem_toList_iff.1 hcells)

theorem cell?_eq_texts (g : Grid) (s : Spot) :
    g.cell? s = g.texts[s.y]?.bind fun row => row[s.x]? := by
  simp only [cell?, texts, List.getElem?_map, Array.getElem?_toList]
  cases g.rows[s.y]? with
  | none => rfl
  | some row => simp

/-- A table of the rows is the grid, except for its limit. -/
theorem Rectangular.ofLines_texts {g : Grid} (hg : g.Rectangular) (hheight : 0 < g.height) :
    ofLines g.texts = { g with cellLimit := defaultCellLimit } := by
  have hwidth : (ofLines g.texts).width = g.width := by
    obtain ⟨row, hrow, hlength⟩ := (tabulates_ofLines (hg.texts_ne_nil hheight)).width
    rw [← hlength, hg.length_of_mem_texts hrow]
  apply (rectangular_ofLines g.texts).eq_of_replaced
  · exact hg
  · exact hwidth
  · exact hg.length_texts
  · rfl
  · intro s
    rw [replaced_ofLines, ← cell?_eq_texts]
    rfl

/-! ### Reading a text back -/

/-- There is something in the grid, and no cell is taken for a line ending in its text. A carriage
return at the end of the last row is not, because no line feed follows. -/
structure Legible (g : Grid) : Prop where
  width : 1 ≤ g.width
  height : 1 ≤ g.height
  noFeed : ∀ row ∈ g.rows, '\n' ∉ row
  noReturn : ∀ y < g.height - 1, g.cell? ⟨g.width - 1, y⟩ ≠ some '\r'

theorem Legible.noFeed_of_mem {g : Grid} (h : g.Legible) {row : List Char} (hrow : row ∈ g.texts) :
    '\n' ∉ row := by
  obtain ⟨cells, hcells, rfl⟩ := List.mem_map.1 hrow
  rw [Array.mem_toList_iff] at hcells ⊢
  exact h.noFeed cells hcells

/-- Above the last row of a legible grid there are only plain lines. -/
theorem Legible.plain {g : Grid} (h : g.Legible) (hg : g.Rectangular) {before : List (List Char)}
    {last : List Char} (htexts : g.texts = before ++ [last]) {row : List Char}
    (hrow : row ∈ before) : Text.Plain row := by
  have hmem : row ∈ g.texts := by
    rw [htexts]
    exact List.mem_append_left _ hrow
  refine ⟨h.noFeed_of_mem hmem, ?_⟩
  intro hreturn
  obtain ⟨y, hy⟩ := List.mem_iff_getElem?.1 hrow
  have hbelow : y < g.height - 1 := by
    rw [← hg.length_texts, htexts, List.length_append, List.length_singleton, Nat.add_sub_cancel]
    exact (List.getElem?_eq_some_iff.1 hy).1
  have hcell : g.cell? ⟨g.width - 1, y⟩ = some '\r' := by
    have hfound : g.texts[y]? = some row := by
      rw [htexts, List.getElem?_append_left (List.getElem?_eq_some_iff.1 hy).1, hy]
    rw [cell?_eq_texts, hfound, Option.bind_some, ← hg.length_of_mem_texts hmem,
      ← List.getLast?_eq_getElem?, hreturn]
  exact h.noReturn y hbelow hcell

/-- **Parsing undoes rendering**, except for the limit, which is not part of the text. This is so
for every legible grid that is rectangular, and whatever writes, steps and unsteps have made of
it. -/
theorem parse_render_of_becomes (origin g : Grid) (horigin : origin.Rectangular)
    (hbecomes : origin.Becomes g) (hlegible : g.Legible) :
    parse g.render = { g with cellLimit := defaultCellLimit } := by
  have hg := hbecomes.develops.rectangular horigin
  have hne := hg.texts_ne_nil hlegible.height
  have htexts := (List.dropLast_concat_getLast hne).symm
  have hlast := List.getLast_mem hne
  have hlastNe : g.texts.getLast hne ≠ [] := by
    rw [← List.length_pos_iff, hg.length_of_mem_texts hlast]
    exact hlegible.width
  have hlines : Text.programLines g.render.toList = g.texts := by
    rw [toList_render, htexts]
    apply Text.programLines_intercalate
    · intro row hrow
      exact hlegible.plain hg htexts hrow
    · exact hlegible.noFeed_of_mem hlast
    · exact hlastNe
  rw [parse, hlines, hg.ofLines_texts hlegible.height]

/-- A program of one line to which a carriage return is added, two rows further down. The row
between is blank, and the carriage return is the last character of the text. -/
def outgrown : Grid := ((parse "ab\n").write ⟨1, 2⟩ '\r' EdgePolicy.standard).state.1

theorem parse_render_of_becomes_outgrown :
    (parse "ab\n").Rectangular ∧ (parse "ab\n").Becomes outgrown ∧ outgrown.Legible ∧
      outgrown.render = "ab\n  \n \r" ∧
      parse "ab\n  \n \r" = { outgrown with cellLimit := defaultCellLimit } := by
  have hrectangular := rectangular_ofLines (Text.programLines "ab\n".toList)
  have hbecomes : (parse "ab\n").Becomes outgrown := .write .refl ⟨1, 2⟩ '\r' EdgePolicy.standard
  have hlegible : outgrown.Legible :=
    ⟨by decide +kernel, by decide +kernel, by decide +kernel, by decide +kernel⟩
  have hrender : outgrown.render = "ab\n  \n \r" := by decide +kernel
  have hparse := parse_render_of_becomes _ outgrown hrectangular hbecomes hlegible
  rw [hrender] at hparse
  exact ⟨hrectangular, hbecomes, hlegible, hrender, hparse⟩

/-! ### Drawing a marker -/

/-- The character index of a spot in the text: every row above it has its cells and a line feed. -/
def indexOf (g : Grid) (s : Spot) : Nat := s.y * (g.width + 1) + s.x

theorem texts_set (g : Grid) (s : Spot) (c : Char) :
    (g.set s c).texts = g.texts.modify s.y fun row => row.set s.x c := by
  apply List.ext_getElem?
  intro y
  simp only [texts, Grid.set, Array.toList_modify, List.getElem?_map, List.getElem?_modify]
  by_cases hy : s.y = y
  · cases g.rows.toList[y]? with
    | none => simp [hy]
    | some row => simp [hy]
  · simp [hy]

/-- Overwriting a cell changes one character of the text. -/
theorem Rectangular.toList_render_set {g : Grid} (hg : g.Rectangular) {s : Spot}
    (hs : g.Contains s) (c : Char) :
    g.indexOf s < g.render.toList.length ∧
      (g.set s c).render.toList = g.render.toList.set (g.indexOf s) c := by
  obtain ⟨hx, hy⟩ := hs
  rw [← hg.length_texts] at hy
  have hrow := hg.length_of_mem_texts (List.getElem_mem hy)
  have hbefore :
      ((g.texts.take s.y).flatMap (· ++ ['\n'])).length = s.y * (g.width + 1) := by
    rw [Text.length_flatMap_append '\n' fun _ hmem =>
      hg.length_of_mem_texts (List.mem_of_mem_take hmem)]
    rw [List.length_take, Nat.min_eq_left (Nat.le_of_lt hy)]
  -- The two texts differ in the row of the spot.
  have hold : g.render.toList = (g.texts.take s.y).flatMap (· ++ ['\n']) ++
      (g.texts[s.y] ++ (g.texts.drop (s.y + 1)).flatMap ('\n' :: ·)) := by
    rw [← Text.intercalate_append_cons, List.getElem_cons_drop, List.take_append_drop,
      toList_render]
  have hnew : (g.set s c).render.toList = (g.texts.take s.y).flatMap (· ++ ['\n']) ++
      (g.texts[s.y].set s.x c ++ (g.texts.drop (s.y + 1)).flatMap ('\n' :: ·)) := by
    rw [← Text.intercalate_append_cons, toList_render, texts_set,
      List.modify_eq_take_cons_drop hy]
  constructor
  · rw [hold, List.length_append, List.length_append, hbefore, hrow, indexOf]
    omega
  · rw [hold, hnew, indexOf, List.set_append_right _ _ (by omega), hbefore,
      Nat.add_sub_cancel_left, List.set_append_left _ _ (by omega)]

theorem toList_renderMarked (g : Grid) (p : Point) (marker : Char) :
    (g.renderMarked p marker).toList =
      ['\n'].intercalate (g.rows.toList.mapIdx (markRow p marker)) := by
  have hrows : (g.rows.toList.mapIdx fun y row => String.ofList (markRow p marker y row)).map
      String.toList = g.rows.toList.mapIdx (markRow p marker) := by
    apply List.ext_getElem?
    intro y
    simp [Function.comp_def]
  rw [renderMarked, String.toList_intercalate, hrows]
  rfl

theorem getElem?_markRow (p : Point) (marker : Char) (y : Nat) (row : Array Char) (x : Nat) :
    (markRow p marker y row)[x]? =
      if p.x.toInt = x ∧ p.y.toInt = y then row[x]?.map fun _ => marker else row[x]? := by
  rw [markRow, List.getElem?_mapIdx, Array.getElem?_toList]
  cases row[x]? with
  | none => simp
  | some c =>
    simp only [Option.map_some]
    split
    · rfl
    · rfl

/-- The rows with a marker at a spot are those of the grid in which it is overwritten. -/
theorem mapIdx_markRow_of_spot {p : Point} {s : Spot} (hx : p.x.toInt = s.x) (hy : p.y.toInt = s.y)
    (g : Grid) (marker : Char) :
    g.rows.toList.mapIdx (markRow p marker) = (g.set s marker).texts := by
  apply List.ext_getElem?
  intro y
  rw [texts_set, texts, List.getElem?_mapIdx, List.getElem?_modify, List.getElem?_map]
  cases g.rows.toList[y]? with
  | none => rfl
  | some row =>
    show some (markRow p marker y row) =
      some (if s.y = y then row.toList.set s.x marker else row.toList)
    congr 1
    apply List.ext_getElem?
    intro x
    rw [getElem?_markRow, hx, hy]
    by_cases hrow : s.y = y
    · rw [if_pos hrow, List.getElem?_set', Array.getElem?_toList]
      by_cases hcell : s.x = x
      · rw [if_pos (by omega), if_pos hcell]
        rfl
      · rw [if_neg (by omega), if_neg hcell]
    · rw [if_neg (by omega), if_neg hrow, Array.getElem?_toList]

/-- No row has a cell for a marker outside the grid. -/
theorem Rectangular.mapIdx_markRow_of_outside {g : Grid} (hg : g.Rectangular) {p : Point}
    (hout : ¬ (0 ≤ p.x.toInt ∧ p.x.toInt < g.width ∧ 0 ≤ p.y.toInt ∧ p.y.toInt < g.height))
    (marker : Char) : g.rows.toList.mapIdx (markRow p marker) = g.texts := by
  apply List.ext_getElem?
  intro y
  rw [texts, List.getElem?_mapIdx, List.getElem?_map]
  cases hrow : g.rows.toList[y]? with
  | none => rfl
  | some row =>
    show some (markRow p marker y row) = some row.toList
    congr 1
    apply List.ext_getElem?
    intro x
    rw [getElem?_markRow, Array.getElem?_toList]
    split
    · next hmeant =>
      -- The row is one of the grid, so the cell would be past its end.
      rw [Array.getElem?_toList] at hrow
      obtain ⟨hrows, -⟩ := Array.getElem?_eq_some_iff.1 hrow
      have hsize := hg.2 row (Array.mem_of_getElem? hrow)
      have hheight := hg.1
      rw [Array.getElem?_eq_none (by omega)]
      rfl
    · rfl

/-- The text with the marker agrees with the text of the grid, and with that of the grid in which
the marker is really there. -/
structure Marks (g : Grid) (p : Point) (marker : Char) : Prop where
  inside (s : Spot) : p.x.toInt = s.x → p.y.toInt = s.y → g.Contains s →
    g.renderMarked p marker = (g.set s marker).render
  /-- The marker stands at the index of its spot. -/
  there (s : Spot) : p.x.toInt = s.x → p.y.toInt = s.y → g.Contains s →
    (g.renderMarked p marker).toList[g.indexOf s]? = some marker
  /-- No other character differs. -/
  elsewhere (s : Spot) : p.x.toInt = s.x → p.y.toInt = s.y → g.Contains s →
    ∀ i ≠ g.indexOf s, (g.renderMarked p marker).toList[i]? = g.render.toList[i]?
  outside : ¬ (0 ≤ p.x.toInt ∧ p.x.toInt < g.width ∧ 0 ≤ p.y.toInt ∧ p.y.toInt < g.height) →
    g.renderMarked p marker = g.render

/-- **The two renderers agree**, wherever the marker is. -/
theorem marks_of_rectangular (g : Grid) (hg : g.Rectangular) (p : Point) (marker : Char) :
    g.Marks p marker := by
  have hinside (s : Spot) (hx : p.x.toInt = s.x) (hy : p.y.toInt = s.y) :
      g.renderMarked p marker = (g.set s marker).render := by
    apply String.ext
    rw [toList_renderMarked, mapIdx_markRow_of_spot hx hy, toList_render]
  refine ⟨fun s hx hy _ => hinside s hx hy, ?_, ?_, ?_⟩
  · intro s hx hy hs
    obtain ⟨hlength, hset⟩ := hg.toList_render_set hs marker
    rw [hinside s hx hy, hset]
    exact List.getElem?_set_self hlength
  · intro s hx hy hs i hi
    obtain ⟨-, hset⟩ := hg.toList_render_set hs marker
    rw [hinside s hx hy, hset]
    exact List.getElem?_set_ne (Ne.symm hi)
  · intro hout
    apply String.ext
    rw [toList_renderMarked, hg.mapIdx_markRow_of_outside hout, toList_render]

/-- A grid in which a line feed has been stored, so that its text has more lines than it has
rows. -/
def ragged : Grid := ⟨#[#['a', '\n'], #['c', 'd']], 2, 2, 16⟩

theorem marks_of_rectangular_ragged :
    ragged.Rectangular ∧ ragged.Marks ⟨0, 1⟩ '☺' ∧ ragged.Marks ⟨-1, 1⟩ '☺' ∧
      ragged.render = "a\n\ncd" ∧ ragged.renderMarked ⟨0, 1⟩ '☺' = "a\n\n☺d" ∧
      ragged.renderMarked ⟨-1, 1⟩ '☺' = "a\n\ncd" := by
  have hrectangular : ragged.Rectangular := by decide
  have hrender : ragged.render = "a\n\ncd" := by decide +kernel
  have hin := marks_of_rectangular ragged hrectangular ⟨0, 1⟩ '☺'
  have hout := marks_of_rectangular ragged hrectangular ⟨-1, 1⟩ '☺'
  refine ⟨hrectangular, hin, hout, hrender, ?_, ?_⟩
  · rw [hin.inside ⟨0, 1⟩ rfl rfl (by decide)]
    decide +kernel
  · rw [hout.outside (by decide), hrender]

end Grid

end Retrace
