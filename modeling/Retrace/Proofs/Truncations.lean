import Retrace.Proofs.LineBuffering
import Retrace.Proofs.Transcripts

/-!
# Cutting output off

A transcript retracts a text in one of two ways. If the text stands at the end of the output, its
bytes are cut off; otherwise as many characters are dropped as the text has. The first way counts
bytes and the second counts characters, and characters differ in their number of bytes. Still, the
two leave the same (`strip_eq_keepChars`), and the first always cuts between two characters.

That the text stands at the end may be found out by comparing bytes. This is no weaker than
comparing characters (`encode_suffix_iff`), because in UTF-8 a byte in the middle of a character is
never the first byte of another.
-/

namespace Retrace

/-! ### Texts that end alike -/

namespace Text

/-- A byte of a character looks like a first byte iff it is the first. -/
theorem isUTF8FirstByte_iff {c : Char} {before after : List UInt8} {b : UInt8}
    (h : String.utf8EncodeChar c = before ++ b :: after) : b.IsUTF8FirstByte ↔ before = [] := by
  have hlt : before.length < (String.utf8EncodeChar c).length := by
    rw [h, List.length_append, List.length_cons]
    omega
  have hb : (String.utf8EncodeChar c)[before.length] = b := by
    simp only [h, List.getElem_append_right (Nat.le_refl _), Nat.sub_self, List.getElem_cons_zero]
  rw [← hb, UInt8.isUTF8FirstByte_getElem_utf8EncodeChar, List.length_eq_zero_iff]

/-- An encoding begins with the first byte of a character. -/
theorem isUTF8FirstByte_of_encode {text : List Char} {b : UInt8} {rest : List UInt8}
    (h : encode (String.ofList text) = b :: rest) : b.IsUTF8FirstByte := by
  rw [encode_ofList] at h
  cases text with
  | nil => cases h
  | cons c text =>
    obtain ⟨b', more, hc⟩ := List.exists_cons_of_ne_nil (@String.utf8EncodeChar_ne_nil c)
    have hfirst : b'.IsUTF8FirstByte := (isUTF8FirstByte_iff (hc : _ = [] ++ _)).2 rfl
    rw [List.flatMap_cons, hc] at h
    injection h with hb
    rwa [← hb]

theorem encode_inj {text text' : List Char}
    (h : encode (String.ofList text) = encode (String.ofList text')) : text = text' := by
  have hdecoded := congrArg decode? h
  rw [decode?_encode, decode?_encode, String.toList_ofList, String.toList_ofList] at hdecoded
  exact Option.some.inj hdecoded

/-- One encoding is the end of another only if the texts are: the cut falls in front of the first
byte of a character. -/
theorem suffix_of_encode {text output : List Char} {before : List UInt8}
    (h : encode (String.ofList output) = before ++ encode (String.ofList text)) :
    text <:+ output := by
  -- The induction goes over the output from its front; `before` loses a character each time.
  induction output generalizing before with
  | nil =>
    have hnone : encode (String.ofList text) = encode (String.ofList []) :=
      (List.append_eq_nil_iff.1 h.symm).2
    obtain rfl := encode_inj hnone
    exact List.suffix_refl []
  | cons c output ih =>
    have hcons : encode (String.ofList (c :: output)) =
        String.utf8EncodeChar c ++ encode (String.ofList output) := by
      rw [encode_ofList, encode_ofList, List.flatMap_cons]
    have hjoined := h
    rw [hcons] at hjoined
    rcases List.append_eq_append_iff.1 hjoined with ⟨more, _, hmore⟩ | ⟨inside, hc, htext⟩
    · -- The text begins after this character.
      exact (ih hmore).trans (List.suffix_cons c output)
    · -- The text begins in this character, and a text can only begin where a character does.
      cases inside with
      | nil => exact (@ih [] htext.symm).trans (List.suffix_cons c output)
      | cons b inside =>
        have hfirst : before = [] := (isUTF8FirstByte_iff hc).1 (isUTF8FirstByte_of_encode htext)
        rw [hfirst, List.nil_append] at h
        obtain rfl := encode_inj h
        exact List.suffix_refl (c :: output)

/-- **Bytes end like characters.** A text stands at the end of another one iff its bytes do. -/
theorem encode_suffix_iff (text output : String) :
    encode text <:+ encode output ↔ text.toList <:+ output.toList := by
  constructor
  · rintro ⟨before, h⟩
    apply suffix_of_encode
    rw [String.ofList_toList, String.ofList_toList]
    exact h.symm
  · rintro ⟨before, h⟩
    have hbytes := encode_append before text.toList
    rw [h, String.ofList_toList, String.ofList_toList] at hbytes
    exact ⟨_, hbytes.symm⟩

end Text

namespace Transcript

/-! ### Two ways to cut -/

theorem exists_append_of_suffix {text output : String} (h : text.toList <:+ output.toList) :
    ∃ before, output = before ++ text := by
  obtain ⟨before, h⟩ := h
  refine ⟨String.ofList before, ?_⟩
  rw [← String.toList_inj, String.toList_append, String.toList_ofList]
  exact h.symm

/-- Counting characters and cutting a text off its end come to the same. -/
theorem keepChars_append (before text : String) :
    keepChars ((before ++ text).length - text.length) (before ++ text) = before := by
  have hlength : (before ++ text).length - text.length = before.toList.length := by
    rw [String.length_append, Nat.add_sub_cancel, String.length_toList]
  rw [keepChars, hlength, String.toList_append, List.take_left, String.ofList_toList]

/-- Either way leaves the first characters, as many as the output has more than the text. -/
theorem strip_eq_keepChars (text output : String) :
    strip text output = keepChars (output.length - text.length) output := by
  by_cases h : text.toList <:+ output.toList
  · obtain ⟨before, rfl⟩ := exists_append_of_suffix h
    rw [strip_append, keepChars_append]
  · rw [strip, if_neg (by rwa [List.isSuffixOf_iff_suffix])]

/-- What retracting a text does to a transcript. -/
structure Retracts (text : String) (t : Transcript) : Prop where
  /-- It does not fail, and leaves the first characters of the output, as many as there are more of
  them than in the text, and none if there are not more. -/
  answer : Channel.retract text t = .done ()
    { t with output := String.ofList (t.output.toList.take (t.output.length - text.length)) }
  /-- The way to go can be told by the bytes. -/
  told : text.toList.isSuffixOf t.output.toList = true ↔ Text.encode text <:+ Text.encode t.output
  /-- Where the bytes of the text are cut off, the cut is between two characters. -/
  between : Text.encode text <:+ Text.encode t.output →
    String.Pos.Raw.IsValid t.output ⟨t.output.utf8ByteSize - text.utf8ByteSize⟩
  /-- What stands before this cut is what counting characters leaves. -/
  agrees : Text.encode text <:+ Text.encode t.output →
    keepBytes (t.output.utf8ByteSize - text.utf8ByteSize) t.output =
      keepChars (t.output.length - text.length) t.output

theorem retracts (text : String) (t : Transcript) : t.Retracts text where
  answer := congrArg (fun output => Reply.done () { t with output })
    (strip_eq_keepChars text t.output)
  told := by rw [List.isSuffixOf_iff_suffix, Text.encode_suffix_iff]
  between := by
    intro h
    obtain ⟨before, hbefore⟩ := exists_append_of_suffix ((Text.encode_suffix_iff _ _).1 h)
    rw [String.Pos.Raw.isValid_iff_exists_append]
    refine ⟨before, text, hbefore, ?_⟩
    rw [hbefore, String.utf8ByteSize_append, Nat.add_sub_cancel]
    rfl
  agrees := by
    intro h
    have hsuffix := (Text.encode_suffix_iff _ _).1 h
    rw [← strip_eq_keepChars, strip, if_pos (List.isSuffixOf_iff_suffix.2 hsuffix)]

/-! ### What was sent last is retracted first -/

/-- Texts that are retracted in the opposite order leave no trace, as on a stack. -/
theorem afterAll_emit_retract (texts : List String) (t : Transcript) :
    Channel.afterAll t (texts.map .emit ++ texts.reverse.map .retract) = t := by
  induction texts generalizing t with
  | nil => rfl
  | cons text texts ih =>
    have hsplit : (text :: texts).map Channel.Request.emit ++
        (text :: texts).reverse.map Channel.Request.retract =
        .emit text :: (texts.map .emit ++ texts.reverse.map .retract) ++ [.retract text] := by
      simp
    -- What came after this text is retracted before it, and then it stands at the end again.
    rw [hsplit, Channel.afterAll, List.cons_append, List.foldl_cons, List.foldl_append]
    calc
      _ = Channel.after { t with output := t.output ++ text } (.retract text) :=
        congrArg (Channel.after · (.retract text)) (ih { t with output := t.output ++ text })
      _ = { t with output := strip text (t.output ++ text) } := rfl
      _ = t := by rw [strip_append]

/-- **Retracting is exact.** A text of any characters is retracted by counting characters, whichever
way is taken, and texts that were sent and are retracted in the opposite order leave no trace. -/
theorem retracts_afterAll (t : Transcript) :
    (∀ text, t.Retracts text) ∧
      ∀ texts : List String,
        Channel.afterAll t (texts.map .emit ++ texts.reverse.map .retract) = t :=
  ⟨fun text => retracts text t, fun texts => afterAll_emit_retract texts t⟩

end Transcript

end Retrace
