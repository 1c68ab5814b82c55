import Retrace.Channel.Console

/-!
# What remains to be read

Input is a queue of characters in front of a source of bytes, and it moves from one to the other
line by line. For a program only the two together matter: `Input.remaining` is the queue followed by
the text of the unread bytes. As long as these bytes are UTF-8 (`Input.Readable`), reading is an
operation on this one list. Taking a character takes its head (`next_of_remaining`), and looking for
a digit drops the characters in front of the first one, or fails and gives them all back
(`seekDigit_of_remaining`).

That lines do not show rests on an encoding in which a line feed is a byte of its own: the bytes of
a line are the line of the bytes (`breakAfter_encode`).
-/

namespace Retrace

/-! ### Lines of encoded text -/

namespace Text

theorem encode_ofList (text : List Char) :
    encode (String.ofList text) = text.flatMap String.utf8EncodeChar := by
  simp [encode, List.utf8Encode]

/-- Decoding is the inverse of encoding, and nothing else decodes. -/
theorem decode?_eq_some_iff {bytes : List UInt8} {text : List Char} :
    decode? bytes = some text ↔ bytes = encode (String.ofList text) := by
  constructor
  · intro h
    simp only [decode?, String.fromUTF8?] at h
    split at h
    · next hvalid =>
      simp only [Option.map_some, Option.some.injEq] at h
      subst h
      rw [String.ofList_toList]
      simp [encode, String.fromUTF8]
    · cases h
  · intro h
    rw [h, decode?_encode, String.toList_ofList]

theorem encode_ne_nil {text : List Char} (h : text ≠ []) : encode (String.ofList text) ≠ [] := by
  obtain ⟨c, rest, rfl⟩ := List.exists_cons_of_ne_nil h
  rw [encode_ofList, List.flatMap_cons]
  exact List.append_ne_nil_of_left_ne_nil String.utf8EncodeChar_ne_nil _

/-- Only a line feed has the byte of a line feed in its encoding. -/
theorem isLineFeed_of_mem_utf8EncodeChar {c : Char} (hc : c ≠ '\n') {b : UInt8}
    (hb : b ∈ String.utf8EncodeChar c) : Input.isLineFeed b = false := by
  have hval : c.val.toNat ≠ 10 := by
    intro h
    apply hc
    apply Char.ext
    exact UInt32.toNat_inj.1 h
  have hne : b.toNat ≠ 10 := by
    unfold String.utf8EncodeChar at hb
    simp only at hb
    split at hb
    · simp only [List.mem_singleton] at hb
      rw [hb, UInt8.toNat_ofNat']
      omega
    · split at hb
      · simp only [List.mem_cons, List.not_mem_nil, or_false] at hb
        rcases hb with hb | hb
        all_goals rw [hb, UInt8.toNat_ofNat']; omega
      · split at hb
        · simp only [List.mem_cons, List.not_mem_nil, or_false] at hb
          rcases hb with hb | hb | hb
          all_goals rw [hb, UInt8.toNat_ofNat']; omega
        · simp only [List.mem_cons, List.not_mem_nil, or_false] at hb
          rcases hb with hb | hb | hb | hb
          all_goals rw [hb, UInt8.toNat_ofNat']; omega
  rw [Input.isLineFeed, beq_eq_false_iff_ne]
  intro h
  apply hne
  rw [h]
  rfl

/-- A stretch without an end of line belongs to the line that follows it. -/
theorem breakAfter_append_of_none {α : Type u} {ends : α → Bool} {l : List α}
    (hl : ∀ a ∈ l, ends a = false) (rest : List α) :
    breakAfter ends (l ++ rest) =
      (l ++ (breakAfter ends rest).1, (breakAfter ends rest).2) := by
  induction l with
  | nil => rfl
  | cons a l ih =>
    have ha : ends a = false := hl a (by simp)
    have ih := ih (fun b hb => hl b (by simp [hb]))
    rw [List.cons_append, breakAfter, ha, ih]
    rfl

/-- **Lines of bytes are lines of text.** Breaking encoded text after the first line feed gives the
encodings of what breaking the text gives. -/
theorem breakAfter_encode (text : List Char) :
    breakAfter Input.isLineFeed (encode (String.ofList text)) =
      (encode (String.ofList (breakAfter (· == '\n') text).1),
        encode (String.ofList (breakAfter (· == '\n') text).2)) := by
  simp only [encode_ofList]
  induction text with
  | nil => rfl
  | cons c rest ih =>
    by_cases hc : c = '\n'
    · subst hc
      rfl
    · have hbytes : ∀ b ∈ String.utf8EncodeChar c, Input.isLineFeed b = false :=
        fun b hb => isLineFeed_of_mem_utf8EncodeChar hc hb
      have hne : (c == '\n') = false := by simpa using hc
      rw [List.flatMap_cons, breakAfter_append_of_none hbytes, ih, breakAfter, hne]
      rfl

end Text

/-! ### Input as one list -/

namespace Input

def Readable (i : Input) : Prop := (Text.decode? i.unread).isSome

/-- The characters that were read and not taken, and then the text of the unread bytes. -/
def remaining (i : Input) : List Char := i.pending ++ (Text.decode? i.unread).getD []

theorem readable_iff {i : Input} :
    i.Readable ↔ ∃ text, i.unread = Text.encode (String.ofList text) := by
  rw [Readable, Option.isSome_iff_exists]
  simp only [Text.decode?_eq_some_iff]

theorem remaining_of_unread {i : Input} {text : List Char}
    (h : i.unread = Text.encode (String.ofList text)) : i.remaining = i.pending ++ text := by
  rw [remaining, Text.decode?_eq_some_iff.2 h]
  rfl

/-- A line of text is read as the first line of the text, and the other lines stay unread. -/
theorem readLine_of_unread {i : Input} {text : List Char} (hne : text ≠ [])
    (h : i.unread = Text.encode (String.ofList text)) :
    i.readLine = .done (some (Text.breakAfter (· == '\n') text).1)
      { i with unread := Text.encode (String.ofList (Text.breakAfter (· == '\n') text).2) } := by
  have hunread : ¬ i.unread.isEmpty = true := by
    rw [h, List.isEmpty_iff]
    exact Text.encode_ne_nil hne
  rw [readLine, if_neg hunread, h, Text.breakAfter_encode]
  simp only [Text.decode?_eq_some_iff.2 rfl]

/-- **Taking a character** takes the first that remains, and fails without one. -/
theorem next_of_remaining {i : Input} (hi : i.Readable) :
    (i.remaining = [] ∧ i.next = .fail .inputExhausted i) ∨
      ∃ c i', i.next = .done c i' ∧ i'.Readable ∧ i.remaining = c :: i'.remaining := by
  obtain ⟨pending, unread⟩ := i
  cases pending with
  | cons c rest => exact .inr ⟨c, ⟨rest, unread⟩, rfl, hi, rfl⟩
  | nil =>
    obtain ⟨text, htext⟩ := readable_iff.1 hi
    simp only at htext
    cases text with
    | nil =>
      have hempty : unread = [] := htext
      subst hempty
      exact .inl ⟨rfl, rfl⟩
    | cons c rest =>
      right
      -- The line that is read is the first line of the text, and it is not empty.
      have hread := readLine_of_unread (i := ⟨[], unread⟩) (List.cons_ne_nil c rest) htext
      have happend := Text.breakAfter_append (· == '\n') (c :: rest)
      generalize hline : Text.breakAfter (· == '\n') (c :: rest) = broken at hread happend
      obtain ⟨line, others⟩ := broken
      obtain ⟨tail, rfl⟩ : ∃ tail, line = c :: tail := by
        rw [Text.breakAfter] at hline
        split at hline
        · exact ⟨[], (congrArg Prod.fst hline).symm⟩
        · exact ⟨_, (congrArg Prod.fst hline).symm⟩
      simp only [List.cons_append, List.cons.injEq, true_and] at happend
      refine ⟨c, ⟨tail, Text.encode (String.ofList others)⟩, ?_, ?_, ?_⟩
      · simp only [next, hread]
        rfl
      · exact readable_iff.2 ⟨others, rfl⟩
      · have hothers :
            Input.remaining ⟨tail, Text.encode (String.ofList others)⟩ = tail ++ others :=
          remaining_of_unread rfl
        rw [remaining_of_unread htext, hothers, ← happend]
        rfl

/-- What is given back is read again in its old order. -/
theorem remaining_giveBackAll (taken : List Char) (i : Input) :
    (i.giveBackAll taken).remaining = taken.reverse ++ i.remaining := by
  simp [giveBackAll, remaining, List.reverseAux_eq]

end Input

/-! ### Looking for a digit -/

namespace Console

def passedOver (c : Char) : Bool := (Text.digit? c).isNone

/-- A prompt only fails for want of room. -/
theorem prompt_of_unlimited (rule : Prompting) (text : String) (input : Input) {sink : Sink}
    (hs : sink.capacity = none) :
    ∃ sink', prompt rule text input sink = .done () sink' ∧ sink'.capacity = none := by
  have hwrite : ∃ sink', sink.write text = .done () sink' ∧ sink'.capacity = none := by
    refine ⟨{ sink with written := sink.written ++ text.toUTF8 }, ?_, hs⟩
    simp only [Sink.write, hs]
  cases rule with
  | always => exact hwrite
  | whenDry =>
    simp only [prompt]
    split
    · exact hwrite
    · exact ⟨sink, rfl, hs⟩

section Attempts

variable {rule : Prompting} {input rest : Input} {sink sink' : Sink} {skipped : List Char}

theorem seekDigit_fail {fault : Fault}
    (hprompt : prompt rule digitPrompt input sink = .done () sink')
    (hnext : input.next = .fail fault rest) :
    seekDigit rule input sink skipped = .fail fault ⟨rest.giveBackAll skipped, sink'⟩ := by
  rw [seekDigit, hprompt]
  simp only [Reply.done]
  split
  · next h =>
    rw [hnext] at h
    cases h
    rfl
  · next h =>
    rw [hnext] at h
    cases h

theorem seekDigit_done {c : Char} {d : Nat}
    (hprompt : prompt rule digitPrompt input sink = .done () sink')
    (hnext : input.next = .done c rest) (hd : Text.digit? c = some d) :
    seekDigit rule input sink skipped = .done d ⟨rest, sink'⟩ := by
  rw [seekDigit, hprompt]
  simp only [Reply.done]
  split
  · next h =>
    rw [hnext] at h
    cases h
  · next h =>
    rw [hnext] at h
    cases h
    rw [hd]

/-- A search goes on behind a character that is no digit, which is put aside to be given back. -/
theorem seekDigit_skip {c : Char}
    (hprompt : prompt rule digitPrompt input sink = .done () sink')
    (hnext : input.next = .done c rest) (hd : Text.digit? c = none) :
    seekDigit rule input sink skipped = seekDigit rule rest sink' (c :: skipped) := by
  rw [seekDigit, hprompt]
  simp only [Reply.done]
  split
  · next h =>
    rw [hnext] at h
    cases h
  · next h =>
    rw [hnext] at h
    cases h
    rw [hd]

/-- What a search comes back with is the value of a character. -/
theorem digit?_of_seekDigit {d : Nat} (h : (seekDigit rule input sink skipped).result = .ok d) :
    ∃ c, Text.digit? c = some d := by
  fun_induction seekDigit rule input sink skipped with
  | case1 => cases h
  | case2 => cases h
  | case3 =>
    next c _ _ _ _ _ _ hd =>
    cases h
    exact ⟨_, hd⟩
  | case4 =>
    next ih =>
    exact ih h

end Attempts

/-- **Looking for a digit** takes what is passed over and then the digit; if there is none, all that
was taken goes back, `skipped` included. -/
theorem seekDigit_of_remaining (rule : Prompting) {input : Input} {sink : Sink}
    (hi : input.Readable) (hs : sink.capacity = none) (skipped : List Char) :
    (∃ d c console, seekDigit rule input sink skipped = .done d console ∧
        Text.digit? c = some d ∧ console.input.Readable ∧ console.sink.capacity = none ∧
        input.remaining =
          input.remaining.takeWhile passedOver ++ c :: console.input.remaining) ∨
      ∃ console, seekDigit rule input sink skipped = .fail .inputExhausted console ∧
        console.input.Readable ∧ console.sink.capacity = none ∧
        console.input.remaining = skipped.reverse ++ input.remaining := by
  -- Each attempt takes one character, so the induction is on what remains.
  generalize htext : input.remaining = text
  induction text generalizing input sink skipped with
  | nil =>
    right
    obtain ⟨sink', hprompt, hs'⟩ := prompt_of_unlimited rule digitPrompt input hs
    rcases input.next_of_remaining hi with ⟨_, hnext⟩ | ⟨c, i', _, _, hcons⟩
    · refine ⟨⟨input.giveBackAll skipped, sink'⟩, seekDigit_fail hprompt hnext, hi, hs', ?_⟩
      rw [Input.remaining_giveBackAll, htext]
    · rw [htext] at hcons
      cases hcons
  | cons c text ih =>
    obtain ⟨sink', hprompt, hs'⟩ := prompt_of_unlimited rule digitPrompt input hs
    rcases input.next_of_remaining hi with ⟨hnil, _⟩ | ⟨c', rest, hnext, hrest, hcons⟩
    · rw [htext] at hnil
      cases hnil
    · rw [htext] at hcons
      injection hcons with hc hremaining
      subst hc
      cases hd : Text.digit? c with
      | some d =>
        left
        have hstop : passedOver c = false := by rw [passedOver, hd]; rfl
        refine ⟨d, c, ⟨rest, sink'⟩, seekDigit_done hprompt hnext hd, hd, hrest, hs', ?_⟩
        rw [List.takeWhile_cons_of_neg (by simp [hstop]), hremaining]
        rfl
      | none =>
        have hpass : passedOver c = true := by rw [passedOver, hd]; rfl
        rw [seekDigit_skip hprompt hnext hd, List.takeWhile_cons_of_pos hpass]
        rcases ih hrest hs' (c :: skipped) hremaining.symm with
          ⟨d, c', console, hseek, hd', hread, hcap, htail⟩ | ⟨console, hseek, hread, hcap, hback⟩
        · exact .inl ⟨d, c', console, hseek, hd', hread, hcap, congrArg (c :: ·) htail⟩
        · refine .inr ⟨console, hseek, hread, hcap, ?_⟩
          rw [hback, List.reverse_cons, List.append_assoc]
          rfl

end Console

end Retrace
