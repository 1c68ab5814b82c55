import Retrace.Proofs.Memory
import Retrace.Proofs.Searches

/-!
# Line endings do not matter

A line of a program ends with a line feed, in front of which there may be a carriage return, and the
last line may end with the text instead. A `Manuscript` is a text of which it is known how each of
its lines ends. Splitting its text gives the lines back (`programLines_text`), so the grid of the
text is the table of its lines (`Grid.Tabulates`), however they end.

Two kinds of lines have to be kept out, for which the ending would be ambiguous: those that contain
a line feed, and those that end with a carriage return of their own. The second matters only where a
line feed follows, so the laws ask less of what stands after the last ending.
-/

namespace Retrace

/-! ### Manuscripts -/

namespace Text

/-- What a line of a program can end with. -/
inductive Ending where
  | feed
  | returnFeed
  deriving DecidableEq, Repr

def Ending.chars : Ending → List Char
  | feed => ['\n']
  | returnFeed => ['\r', '\n']

/-- A line that can be told from its ending. -/
structure Plain (line : List Char) : Prop where
  noFeed : '\n' ∉ line
  noReturn : line.getLast? ≠ some '\r'

/-- A text by its lines: those that have an ending, each with its own, and what stands after the
last ending. -/
structure Manuscript where
  ended : List (List Char × Ending)
  rest : List Char
  deriving DecidableEq, Repr

namespace Manuscript

/-- What stands after the last ending is a line only if it is not empty. -/
def lines (m : Manuscript) : List (List Char) :=
  m.ended.map Prod.fst ++ if m.rest = [] then [] else [m.rest]

def text (m : Manuscript) : List Char :=
  m.ended.flatMap (fun written => written.1 ++ written.2.chars) ++ m.rest

def finish (ending : Ending) (m : Manuscript) : Manuscript := ⟨m.ended ++ [(m.rest, ending)], []⟩

theorem text_finish (ending : Ending) (m : Manuscript) :
    (m.finish ending).text = m.text ++ ending.chars := by
  simp [finish, text]

theorem lines_finish (ending : Ending) {m : Manuscript} (hrest : m.rest ≠ []) :
    (m.finish ending).lines = m.lines := by
  simp [finish, lines, hrest]

end Manuscript

/-! ### Splitting a manuscript -/

theorem beq_feed_of_noFeed {line : List Char} (h : '\n' ∉ line) :
    ∀ c ∈ line, (c == '\n') = false := by
  intro c hc
  rw [beq_eq_false_iff_ne]
  rintro rfl
  exact h hc

theorem splitAfter_feed {line : List Char} (h : '\n' ∉ line) (rest : List Char) :
    splitAfter (· == '\n') (line ++ '\n' :: rest) =
      (line ++ ['\n']) :: splitAfter (· == '\n') rest := by
  have hbreak : breakAfter (· == '\n') (line ++ '\n' :: rest) = (line ++ ['\n'], rest) :=
    breakAfter_append_of_none (beq_feed_of_noFeed h) _
  rw [splitAfter_eq_cons _ (by simp), hbreak]

theorem splitAfter_of_noFeed {line : List Char} (h : '\n' ∉ line) (hne : line ≠ []) :
    splitAfter (· == '\n') line = [line] := by
  have hbreak := breakAfter_append_of_none (beq_feed_of_noFeed h) []
  rw [List.append_nil] at hbreak
  rw [splitAfter_eq_cons _ hne, hbreak]
  simp [breakAfter, splitAfter]

/-- A plain line is what is left when its ending is taken off. -/
theorem Plain.programLine_append {line : List Char} (h : Plain line) (ending : Ending) :
    programLine (line ++ ending.chars) = line := by
  cases ending with
  | feed =>
    rw [Ending.chars, programLine, if_pos (by simp), List.dropLast_concat, dropFinal,
      if_neg h.noReturn]
  | returnFeed =>
    rw [Ending.chars, List.append_cons, programLine, if_pos (by simp), List.dropLast_concat,
      dropFinal, if_pos (by simp), List.dropLast_concat]

/-- What has no line feed stays as it is, also with a carriage return at its end. -/
theorem programLine_of_noFeed {line : List Char} (h : '\n' ∉ line) : programLine line = line := by
  rw [programLine, if_neg]
  intro hlast
  exact h (List.mem_of_getLast? hlast)

/-- The first line of a text is cut off behind its ending. -/
theorem Plain.programLines_append {line : List Char} (h : Plain line) (ending : Ending)
    (rest : List Char) :
    programLines (line ++ ending.chars ++ rest) = line :: programLines rest := by
  -- A carriage return in front of the line feed is part of the piece that is cut off.
  obtain ⟨front, hfront, hends⟩ :
      ∃ front, '\n' ∉ front ∧ line ++ ending.chars = front ++ ['\n'] := by
    cases ending with
    | feed => exact ⟨line, h.noFeed, rfl⟩
    | returnFeed => exact ⟨line ++ ['\r'], by simp [h.noFeed], by simp [Ending.chars]⟩
  have hline := h.programLine_append ending
  rw [hends] at hline ⊢
  rw [List.append_assoc, List.singleton_append, programLines, splitAfter_feed hfront,
    List.map_cons, hline, programLines]

/-- **Splitting the text of a manuscript gives its lines back.** -/
theorem Manuscript.programLines_text {m : Manuscript}
    (hended : ∀ written ∈ m.ended, Plain written.1) (hrest : '\n' ∉ m.rest) :
    programLines m.text = m.lines := by
  obtain ⟨ended, rest⟩ := m
  induction ended with
  | nil =>
    show programLines rest = if rest = [] then [] else [rest]
    split
    · next hnil =>
      rw [hnil]
      rfl
    · next hne =>
      rw [programLines, splitAfter_of_noFeed hrest hne, List.map_singleton,
        programLine_of_noFeed hrest]
  | cons written ended ih =>
    obtain ⟨line, ending⟩ := written
    have hline : Plain line := hended (line, ending) (by simp)
    have hlater : ∀ written ∈ ended, Plain written.1 := by
      intro written hmem
      exact hended written (by simp [hmem])
    have htext : text ⟨(line, ending) :: ended, rest⟩ =
        line ++ ending.chars ++ text ⟨ended, rest⟩ := by
      simp [text]
    rw [htext, hline.programLines_append, ih hlater hrest]
    simp [lines]

theorem Manuscript.programLines_of_plain {m : Manuscript} (h : ∀ line ∈ m.lines, Plain line) :
    programLines m.text = m.lines := by
  apply programLines_text
  · intro written hmem
    exact h _ (List.mem_append_left _ (List.mem_map_of_mem hmem))
  · by_cases hrest : m.rest = []
    · rw [hrest]
      exact List.not_mem_nil
    · apply (h m.rest _).noFeed
      rw [lines, if_neg hrest]
      exact List.mem_concat_self

end Text

/-! ### The grid of a manuscript -/

namespace Grid

open Text (Ending Manuscript Plain)

/-- The longest line so far is the one that the search began with, or a line that it came across. -/
theorem foldl_max_length_cases (lines : List (List Char)) (n : Nat) :
    lines.foldl (fun n line => max n line.length) n = n ∨
      ∃ line ∈ lines, line.length = lines.foldl (fun n line => max n line.length) n := by
  induction lines generalizing n with
  | nil => exact .inl rfl
  | cons line lines ih =>
    rw [List.foldl_cons]
    rcases ih (max n line.length) with hsame | ⟨later, hmem, hlength⟩
    · by_cases hle : line.length ≤ n
      · left
        omega
      · right
        exact ⟨line, List.mem_cons_self, by omega⟩
    · exact .inr ⟨later, List.mem_cons_of_mem _ hmem, hlength⟩

/-- Some line is as long as the longest. -/
theorem exists_length_eq_longest {lines : List (List Char)} (hne : lines ≠ []) :
    ∃ line ∈ lines, line.length = longest lines := by
  rcases foldl_max_length_cases lines 0 with hzero | hsome
  · -- All lines are empty, and there is one.
    obtain ⟨line, hline⟩ := List.exists_mem_of_ne_nil lines hne
    have hle := length_le_longest hline
    have hlongest : longest lines = 0 := hzero
    exact ⟨line, hline, by omega⟩
  · exact hsome

/-- The grid is the table of the lines: it has a row for each and is as wide as the longest, and
shorter lines are filled up with spaces. -/
structure Tabulates (g : Grid) (lines : List (List Char)) : Prop where
  height : g.height = lines.length
  width : ∃ line ∈ lines, line.length = g.width
  length_le : ∀ line ∈ lines, line.length ≤ g.width
  rectangular : g.Rectangular
  cell (y : Nat) (line : List Char) : lines[y]? = some line →
    ∀ x < g.width, g.cell? ⟨x, y⟩ = some (line.getD x ' ')

theorem tabulates_ofLines {lines : List (List Char)} (hne : lines ≠ []) :
    (ofLines lines).Tabulates lines := by
  refine ⟨rfl, exists_length_eq_longest hne, fun _ => length_le_longest, rectangular_ofLines lines,
    ?_⟩
  intro y line hline x hx
  have hin : (ofLines lines).Contains ⟨x, y⟩ :=
    ⟨hx, (List.getElem?_eq_some_iff.1 hline).1⟩
  rw [(rectangular_ofLines lines).cell?_eq, if_pos hin, replaced_ofLines, hline, Option.bind_some,
    List.getD_eq_getElem?_getD]

/-- The grid of the text is the table of its lines, and that is all that the text contributes to
it. -/
structure IgnoresEndings (m : Manuscript) : Prop where
  tabulates : (parse (.ofList m.text)).Tabulates m.lines
  /-- The same lines with other endings give the same grid. -/
  same (m' : Manuscript) : m'.lines = m.lines →
    parse (.ofList m'.text) = parse (.ofList m.text)
  /-- So does an ending for a last line that has none. -/
  finished (ending : Ending) : m.rest ≠ [] →
    parse (.ofList (m.text ++ ending.chars)) = parse (.ofList m.text)

/-- **Line endings do not matter**, and neither does whether the last line has one. -/
theorem ignoresEndings_of_plain (m : Manuscript) (hne : m.lines ≠ [])
    (hplain : ∀ line ∈ m.lines, Plain line) : IgnoresEndings m := by
  have hparse (m' : Manuscript) (hlines : m'.lines = m.lines) :
      parse (.ofList m'.text) = ofLines m.lines := by
    rw [parse, String.toList_ofList, m'.programLines_of_plain (by rwa [hlines]), hlines]
  refine ⟨?_, ?_, ?_⟩
  · rw [hparse m rfl]
    exact tabulates_ofLines hne
  · intro m' hlines
    rw [hparse m' hlines, hparse m rfl]
  · intro ending hrest
    rw [← Manuscript.text_finish, hparse _ (Manuscript.lines_finish ending hrest), hparse m rfl]

/-- Three lines, of which the second is empty and the third is neither ended nor free of carriage
returns. -/
def mixed : Manuscript := ⟨[(['a', 'b'], .returnFeed), ([], .feed)], ['é', '\r', 'x']⟩

/-- With line feeds throughout, and with one more at the end, the text gives the same grid. -/
theorem ignoresEndings_of_plain_mixed :
    mixed.lines ≠ [] ∧ (∀ line ∈ mixed.lines, Plain line) ∧ IgnoresEndings mixed ∧
      parse "ab\r\n\né\rx" =
        ⟨#[#['a', 'b', ' '], #[' ', ' ', ' '], #['é', '\r', 'x']], 3, 3, defaultCellLimit⟩ ∧
      parse "ab\n\né\rx\n" = parse "ab\r\n\né\rx" := by
  have hplain : ∀ line ∈ mixed.lines, Plain line := by
    intro line hline
    have hcases : line = ['a', 'b'] ∨ line = [] ∨ line = ['é', '\r', 'x'] := by
      simpa [mixed, Manuscript.lines] using hline
    rcases hcases with rfl | rfl | rfl
    · exact ⟨by decide, by decide⟩
    · exact ⟨by decide, by decide⟩
    · exact ⟨by decide, by decide⟩
  have hignores := ignoresEndings_of_plain mixed (by decide) hplain
  have hfed := hignores.same ⟨[(['a', 'b'], .feed), ([], .feed), (['é', '\r', 'x'], .feed)], []⟩ rfl
  exact ⟨by decide, hplain, hignores, by decide +kernel, hfed⟩

end Grid

end Retrace
