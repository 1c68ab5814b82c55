import Mathlib.Data.List.TakeWhile
import Retrace.Proofs.Remaining

/-!
# Input with lines that are no text

Unread bytes need not be text. They come in lines, and as long as these are text, the characters
in them are as good as read: `Input.ahead` has them all, up to the first line that is not UTF-8.
From there on the lines are `Input.blocked`. Taking a character takes the head of `ahead`; without
one the source has ended, or the first blocked line is read and lost (`next_cases`).

A search for a digit is a sequence of such takings, and `Input.Search` tells which characters it
takes and how it ends. This does not depend on the prompts between the attempts, of which there may
be many or few, provided that they can be written (`Console.seekDigit_of_search`).
-/

namespace Retrace

/-! ### Lines of bytes -/

namespace Text

def isText (bytes : List UInt8) : Bool := (decode? bytes).isSome

theorem splitAfter_eq_cons {α : Type u} (ends : α → Bool) :
    ∀ {l : List α}, l ≠ [] →
      splitAfter ends l = (breakAfter ends l).1 :: splitAfter ends (breakAfter ends l).2
  | [a], _ => by
    rw [splitAfter, breakAfter]
    split <;> rfl
  | a :: b :: rest, _ => by
    have ih := splitAfter_eq_cons ends (List.cons_ne_nil b rest)
    rw [splitAfter, breakAfter]
    split
    · rfl
    · rw [ih]

theorem fst_breakAfter_ne_nil {α : Type u} (ends : α → Bool) {l : List α} (hl : l ≠ []) :
    (breakAfter ends l).1 ≠ [] := by
  cases l with
  | nil => exact absurd rfl hl
  | cons a rest =>
    rw [breakAfter]
    split <;> exact List.cons_ne_nil _ _

/-- The lines of a text, each with its line feed, which the last one may lack. -/
def lines (text : List Char) : List (List Char) := splitAfter (· == '\n') text

theorem lines_eq_nil_iff {text : List Char} : lines text = [] ↔ text = [] := by
  constructor
  · intro h
    rw [← flatten_splitAfter (· == '\n') text, show splitAfter (· == '\n') text = [] from h]
    rfl
  · rintro rfl
    rfl

theorem decode?_ne_nil {bytes : List UInt8} (h : bytes ≠ []) : decode? bytes ≠ some [] := by
  intro hdecode
  exact h (decode?_eq_some_iff.1 hdecode)

theorem encode_append (first second : List Char) :
    encode (String.ofList (first ++ second)) =
      encode (String.ofList first) ++ encode (String.ofList second) := by
  rw [encode_ofList, encode_ofList, encode_ofList, List.flatMap_append]

theorem isText_encode (text : List Char) : isText (encode (String.ofList text)) = true := by
  rw [isText, decode?_encode]
  rfl

/-- The lines of encoded text are text, each for itself. -/
theorem isText_of_mem_splitAfter (text : List Char) {line : List UInt8}
    (h : line ∈ splitAfter Input.isLineFeed (encode (String.ofList text))) :
    isText line = true := by
  induction hlength : text.length using Nat.strongRecOn generalizing text with
  | ind n ih =>
    cases text with
    | nil => cases h
    | cons c rest =>
      have hne := encode_ne_nil (List.cons_ne_nil c rest)
      have hshorter := length_breakAfter_snd_lt (· == '\n') (List.cons_ne_nil c rest)
      rw [splitAfter_eq_cons _ hne, breakAfter_encode, List.mem_cons] at h
      rcases h with rfl | h
      · exact isText_encode _
      · exact ih _ (hlength ▸ hshorter) _ h rfl

/-- Lines that are text make up text. -/
theorem flatten_eq_encode {lines : List (List UInt8)} (h : ∀ line ∈ lines, isText line = true) :
    lines.flatten = encode (String.ofList (lines.flatMap fun line => (decode? line).getD [])) := by
  induction lines with
  | nil => rfl
  | cons line rest ih =>
    have hline := h line List.mem_cons_self
    have hrest := ih fun l hl => h l (List.mem_cons_of_mem line hl)
    obtain ⟨text, htext⟩ := Option.isSome_iff_exists.1 hline
    rw [List.flatten_cons, List.flatMap_cons, htext, encode_append, ← hrest,
      decode?_eq_some_iff.1 htext]
    rfl

end Text

namespace Input

def lines (i : Input) : List (List UInt8) := Text.splitAfter isLineFeed i.unread

/-- The characters that were read and not taken, and those of the lines after them, up to the first
line that is no text. -/
def ahead (i : Input) : List Char :=
  i.pending ++ (i.lines.takeWhile Text.isText).flatMap fun line => (Text.decode? line).getD []

/-- The lines from the first one that is no text. -/
def blocked (i : Input) : List (List UInt8) := i.lines.dropWhile Text.isText

theorem decode?_of_blocked {i : Input} {line : List UInt8} {lines : List (List UInt8)}
    (h : i.blocked = line :: lines) : Text.decode? line = none := by
  have hhead := List.head?_dropWhile_not Text.isText i.lines
  rw [show i.lines.dropWhile Text.isText = line :: lines from h] at hhead
  simpa [Text.isText] using hhead

theorem unread_of_blocked_eq_nil {i : Input} (h : i.blocked = []) :
    i.unread = Text.encode (String.ofList
      ((i.lines.takeWhile Text.isText).flatMap fun line => (Text.decode? line).getD [])) := by
  have htext : ∀ line ∈ i.lines, Text.isText line = true := List.dropWhile_eq_nil_iff.1 h
  rw [List.takeWhile_eq_self_iff.2 htext, ← Text.flatten_eq_encode htext]
  exact (Text.flatten_splitAfter isLineFeed i.unread).symm

/-- Nothing is blocked iff the unread bytes are text as a whole. -/
theorem blocked_eq_nil_iff {i : Input} : i.blocked = [] ↔ i.Readable := by
  constructor
  · intro h
    exact readable_iff.2 ⟨_, unread_of_blocked_eq_nil h⟩
  · intro h
    obtain ⟨text, htext⟩ := readable_iff.1 h
    apply List.dropWhile_eq_nil_iff.2
    intro line hline
    rw [lines, htext] at hline
    exact Text.isText_of_mem_splitAfter text hline

/-- Then all that remains is ahead. -/
theorem Readable.ahead_eq {i : Input} (h : i.Readable) : i.ahead = i.remaining :=
  (remaining_of_unread (unread_of_blocked_eq_nil (blocked_eq_nil_iff.2 h))).symm

/-! ### Taking a line -/

/-- A line of text is read whole, unless there is none. -/
theorem readLine_cases {i : Input} {text : List Char}
    (h : i.unread = Text.encode (String.ofList text)) :
    (text = [] ∧ i.readLine = .done none i) ∨
      ∃ line rest, line ≠ [] ∧ Text.lines text = line :: Text.lines rest ∧
        i.readLine = .done (some line) { i with unread := Text.encode (String.ofList rest) } := by
  by_cases hne : text = []
  · subst hne
    have hempty : i.unread = [] := h
    refine .inl ⟨rfl, ?_⟩
    rw [readLine, hempty]
    rfl
  · exact .inr ⟨_, _, Text.fst_breakAfter_ne_nil _ hne, Text.splitAfter_eq_cons _ hne,
      readLine_of_unread hne h⟩

/-! ### Taking a character -/

/-- **Taking a character** takes the first that is ahead. Where there is none, the source has ended
or a line is lost. -/
theorem next_cases (i : Input) :
    (∃ c i', i.next = .done c i' ∧ i.ahead = c :: i'.ahead ∧ i'.blocked = i.blocked) ∨
      (i.next = .fail .inputExhausted i ∧ i.ahead = [] ∧ i.blocked = [] ∧ i = ⟨[], []⟩) ∨
      ∃ line lines, i.next = .fail (.stream .invalidText) ⟨[], lines.flatten⟩ ∧ i.ahead = [] ∧
        i.blocked = line :: lines := by
  obtain ⟨pending, unread⟩ := i
  cases pending with
  | cons c rest => exact .inl ⟨c, ⟨rest, unread⟩, rfl, rfl, rfl⟩
  | nil =>
    cases unread with
    | nil => exact .inr (.inl ⟨rfl, rfl, rfl, rfl⟩)
    | cons b bytes =>
      -- The queue is dry, so the first line is read.
      have hne : b :: bytes ≠ [] := List.cons_ne_nil b bytes
      have hline := Text.fst_breakAfter_ne_nil isLineFeed hne
      have hlines : lines ⟨[], b :: bytes⟩ = _ := Text.splitAfter_eq_cons isLineFeed hne
      simp only [next, readLine, List.isEmpty_cons, Bool.false_eq_true, if_false, ahead, blocked,
        hlines]
      generalize Text.breakAfter isLineFeed (b :: bytes) = broken at hline
      obtain ⟨line, rest⟩ := broken
      cases hdecode : Text.decode? line with
      | none =>
        have hstop : Text.isText line = false := by rw [Text.isText, hdecode]; rfl
        refine .inr (.inr ⟨line, Text.splitAfter isLineFeed rest, ?_, ?_, ?_⟩)
        · rw [Text.flatten_splitAfter]
          rfl
        · simp [hstop]
        · simp [hstop]
      | some text =>
        have hpass : Text.isText line = true := by rw [Text.isText, hdecode]; rfl
        cases text with
        | nil => exact absurd hdecode (Text.decode?_ne_nil hline)
        | cons c text =>
          refine .inl ⟨c, ⟨text, rest⟩, rfl, ?_, ?_⟩
          · simp [hpass, hdecode, lines]
          · simp [hpass, lines]

/-! ### Searching for a digit -/

/-- A search for a digit takes the characters `taken`, one after another, ends with `result`, and
leaves the last input behind. What it has taken is not given back here. -/
inductive Search : Input → List Char → Except Fault Nat → Input → Prop where
  /-- A digit ends the search. -/
  | found {i i' : Input} {c : Char} {d : Nat} (next : i.next = .done c i')
      (digit : Text.digit? c = some d) : Search i [c] (.ok d) i'
  /-- Any other character is taken too. -/
  | passed {i i' i'' : Input} {c : Char} {taken : List Char} {result : Except Fault Nat}
      (next : i.next = .done c i') (other : Text.digit? c = none)
      (rest : Search i' taken result i'') : Search i (c :: taken) result i''
  /-- An attempt that fails ends the search. -/
  | failed {i i' : Input} {fault : Fault} (next : i.next = .fail fault i') :
      Search i [] (.error fault) i'

/-- **A search** takes what is ahead up to the first digit. If there is no digit, it takes all that
is ahead, and then it finds the end of the source, or a line that is lost. -/
theorem search_cases (i : Input) :
    (∃ front c d i', i.Search (front ++ [c]) (.ok d) i' ∧ (∀ x ∈ front, Text.digit? x = none) ∧
        Text.digit? c = some d ∧ i.ahead = front ++ c :: i'.ahead ∧ i'.blocked = i.blocked) ∨
      (i.Search i.ahead (.error .inputExhausted) ⟨[], []⟩ ∧
        (∀ x ∈ i.ahead, Text.digit? x = none) ∧ i.blocked = []) ∨
      ∃ line lines, i.Search i.ahead (.error (.stream .invalidText)) ⟨[], lines.flatten⟩ ∧
        (∀ x ∈ i.ahead, Text.digit? x = none) ∧ i.blocked = line :: lines := by
  generalize htext : i.ahead = text
  -- Each attempt takes one character, so the induction is on what is ahead.
  induction text generalizing i with
  | nil =>
    right
    rcases i.next_cases with ⟨c, i', _, hcons, _⟩ | ⟨hnext, _, hblocked, hend⟩ |
      ⟨line, lines, hnext, _, hblocked⟩
    · rw [htext] at hcons
      cases hcons
    · left
      refine ⟨.failed ?_, by simp, hblocked⟩
      rw [hnext, hend]
    · exact .inr ⟨line, lines, .failed hnext, by simp, hblocked⟩
  | cons c text ih =>
    rcases i.next_cases with ⟨c', i', hnext, hcons, hblocked⟩ | ⟨_, hnil, _⟩ | ⟨_, _, _, hnil, _⟩
    · rw [htext] at hcons
      injection hcons with hc hrest
      subst hc
      cases hd : Text.digit? c with
      | some d =>
        refine .inl ⟨[], c, d, i', .found hnext hd, by simp, hd, ?_, hblocked⟩
        rw [hrest]
        rfl
      | none =>
        rcases ih i' hrest.symm with ⟨front, c', d, i'', hsearch, hfront, hd', hahead, hblocked'⟩ |
          ⟨hsearch, hall, hblocked'⟩ | ⟨line, lines, hsearch, hall, hblocked'⟩
        · refine .inl ⟨c :: front, c', d, i'', .passed hnext hd hsearch, ?_, hd', ?_, ?_⟩
          · simpa [hd] using hfront
          · rw [hahead]
            rfl
          · exact hblocked'.trans hblocked
        · refine .inr (.inl ⟨.passed hnext hd hsearch, ?_, ?_⟩)
          · simpa [hd] using hall
          · rw [← hblocked, hblocked']
        · refine .inr (.inr ⟨line, lines, .passed hnext hd hsearch, ?_, ?_⟩)
          · simpa [hd] using hall
          · rw [← hblocked, hblocked']
    · rw [htext] at hnil
      cases hnil
    · rw [htext] at hnil
      cases hnil

/-- A search always comes to an end, in one of the three ways that `search_cases` tells apart. -/
theorem exists_search (i : Input) : ∃ taken result i', i.Search taken result i' := by
  rcases i.search_cases with ⟨_, _, _, _, hsearch, _⟩ | ⟨hsearch, _⟩ | ⟨_, _, hsearch, _⟩
  all_goals exact ⟨_, _, _, hsearch⟩

/-- A search has one course. -/
theorem Search.unique {i i' i'' : Input} {taken taken' : List Char}
    {result result' : Except Fault Nat} (h : i.Search taken result i')
    (h' : i.Search taken' result' i'') : taken = taken' ∧ result = result' ∧ i' = i'' := by
  induction h generalizing taken' with
  | found hnext hd =>
    cases h' with
    | found hnext' hd' =>
      cases hnext.symm.trans hnext'
      cases hd.symm.trans hd'
      exact ⟨rfl, rfl, rfl⟩
    | passed hnext' hd' _ =>
      cases hnext.symm.trans hnext'
      cases hd.symm.trans hd'
    | failed hnext' => cases hnext.symm.trans hnext'
  | passed hnext hd _ ih =>
    cases h' with
    | found hnext' hd' =>
      cases hnext.symm.trans hnext'
      cases hd.symm.trans hd'
    | passed hnext' _ hrest =>
      cases hnext.symm.trans hnext'
      obtain ⟨htaken, hresult, hleft⟩ := ih hrest
      exact ⟨congrArg _ htaken, hresult, hleft⟩
    | failed hnext' => cases hnext.symm.trans hnext'
  | failed hnext =>
    cases h' with
    | found hnext' _ | passed hnext' _ _ => cases hnext.symm.trans hnext'
    | failed hnext' =>
      cases hnext.symm.trans hnext'
      exact ⟨rfl, rfl, rfl⟩

/-- What a search leaves when it is over: a search that fails gives back what it has taken. -/
def restored (taken : List Char) (i : Input) : Except Fault Nat → Input
  | .ok _ => i
  | .error _ => i.giveBackAll taken.reverse

end Input

/-! ### First digits -/

namespace Console

theorem takeWhile_passedOver {front rest : List Char} {c : Char} {d : Nat}
    (hfront : ∀ x ∈ front, Text.digit? x = none) (hc : Text.digit? c = some d) :
    (front ++ c :: rest).takeWhile passedOver = front := by
  have hpass : ∀ x ∈ front, passedOver x = true := by
    intro x hx
    rw [passedOver, hfront x hx]
    rfl
  have hstop : ¬ passedOver c = true := by simp [passedOver, hc]
  rw [List.takeWhile_append_of_pos hpass, List.takeWhile_cons_of_neg hstop, List.append_nil]

/-- There is only one first digit. -/
theorem first_digit_unique {front front' rest rest' : List Char} {c c' : Char} {d d' : Nat}
    (h : front ++ c :: rest = front' ++ c' :: rest') (hfront : ∀ x ∈ front, Text.digit? x = none)
    (hfront' : ∀ x ∈ front', Text.digit? x = none) (hc : Text.digit? c = some d)
    (hc' : Text.digit? c' = some d') : c = c' ∧ rest = rest' := by
  have hfronts : front = front' := by
    rw [← takeWhile_passedOver hfront hc, h, takeWhile_passedOver hfront' hc']
  subst hfronts
  injection List.append_cancel_left h with hchar hrest
  exact ⟨hchar, hrest⟩

end Console

/-! ### Prompts -/

namespace Sink

def append (text : String) (s : Sink) : Sink := { s with written := s.written ++ text.toUTF8 }

theorem write_of_unlimited {s : Sink} (hs : s.capacity = none) (text : String) :
    s.write text = .done () (s.append text) := by
  simp only [write, hs, append]

theorem append_append (first second : String) (s : Sink) :
    (s.append first).append second = s.append (first ++ second) := by
  simp only [append, String.toUTF8, String.toByteArray_append, ByteArray.append_assoc]

end Sink

namespace Console

/-- The number of attempts that a search makes: one for each character that it takes, and one that
fails if it does. -/
def attempts (taken : List Char) : Except Fault Nat → Nat
  | .ok _ => taken.length
  | .error _ => taken.length + 1

def prompts (n : Nat) : String := String.join (List.replicate n digitPrompt)

theorem prompts_succ (n : Nat) : prompts (n + 1) = digitPrompt ++ prompts n := by
  rw [prompts, List.replicate_succ, String.join_cons]
  rfl

/-- Where there is always room, a prompt is written or is not, and never fails. -/
theorem exists_prompt (rule : Prompting) (text : String) (input : Input) {sink : Sink}
    (hs : sink.capacity = none) :
    ∃ sink', prompt rule text input sink = .done () sink' ∧ sink'.capacity = none ∧
      (rule = .always → sink' = sink.append text) := by
  have hwrite := Sink.write_of_unlimited hs text
  cases rule with
  | always => exact ⟨_, hwrite, hs, fun _ => rfl⟩
  | whenDry =>
    simp only [prompt]
    split
    · exact ⟨_, hwrite, hs, by simp⟩
    · exact ⟨sink, rfl, hs, by simp⟩

/-- **Prompts do not matter for a search.** It has one result and leaves one input behind, whatever
the rule for prompts is. A console that always prompts does so for each attempt. -/
theorem seekDigit_of_search (rule : Prompting) {i i' : Input} {taken : List Char}
    {result : Except Fault Nat} (h : i.Search taken result i') {sink : Sink}
    (hs : sink.capacity = none) (skipped : List Char) :
    ∃ sink', seekDigit rule i sink skipped =
        ⟨result, ⟨i'.restored (skipped.reverse ++ taken) result, sink'⟩, []⟩ ∧
      sink'.capacity = none ∧
      (rule = .always → sink' = sink.append (prompts (attempts taken result))) := by
  induction h generalizing sink skipped with
  | @found i i' c d hnext hd =>
    obtain ⟨sink', hprompt, hs', halways⟩ := exists_prompt rule digitPrompt i hs
    exact ⟨sink', seekDigit_done hprompt hnext hd, hs', halways⟩
  | @failed i i' fault hnext =>
    obtain ⟨sink', hprompt, hs', halways⟩ := exists_prompt rule digitPrompt i hs
    refine ⟨sink', ?_, hs', halways⟩
    rw [seekDigit_fail hprompt hnext, Input.restored, List.append_nil, List.reverse_reverse]
    rfl
  | @passed i i' i'' c taken result hnext hd _ ih =>
    obtain ⟨sink', hprompt, hs', halways⟩ := exists_prompt rule digitPrompt i hs
    obtain ⟨sink'', hseek, hs'', halways'⟩ := ih hs' (c :: skipped)
    refine ⟨sink'', ?_, hs'', ?_⟩
    · rw [seekDigit_skip hprompt hnext hd, hseek, List.reverse_cons, List.append_assoc]
      rfl
    · intro hrule
      have hattempts : attempts (c :: taken) result = attempts taken result + 1 := by
        cases result <;> rfl
      rw [halways' hrule, halways hrule, hattempts, prompts_succ, Sink.append_append]

/-- Looking for a digit at a console is the search of its input. Where every attempt is prompted
for, there is one prompt for each. -/
theorem takeDigit_of_search (rule : Prompting) {console : Console} {i' : Input} {taken : List Char}
    {result : Except Fault Nat} (h : console.input.Search taken result i')
    (hs : console.sink.capacity = none) :
    ∃ sink', console.takeDigit rule = ⟨result, ⟨i'.restored taken result, sink'⟩, []⟩ ∧
      sink'.capacity = none ∧
      (rule = .always → sink' = console.sink.append (prompts (attempts taken result))) :=
  seekDigit_of_search rule h hs []

theorem takeChar_of_next (rule : Prompting) {console : Console}
    (hs : console.sink.capacity = none) :
    ∃ sink', console.takeChar rule = console.input.next.within (⟨·, sink'⟩) ∧
      sink'.capacity = none ∧ (rule = .always → sink' = console.sink.append charPrompt) := by
  obtain ⟨input, sink⟩ := console
  obtain ⟨sink', hprompt, hs', halways⟩ := exists_prompt rule charPrompt input hs
  refine ⟨sink', ?_, hs', halways⟩
  simp only [takeChar, hprompt]
  rfl

end Console

end Retrace
