import Retrace.Channel.Transcript
import Retrace.Proofs.Calls
import Retrace.Proofs.Remaining

/-!
# Steps at a transcript

A deed has at most two effects on a transcript. It has printed a text (`Deed.printed`), which then
stands at the end of the output, or it has read some characters (`Deed.given`), which were taken
from the front of the input. Undoing it cuts the text off again and puts the characters back
(`Transcript.undo`).

Cutting off is exact (`strip_append`). Putting back is exact too, except that a search for a digit
passes over other characters, and these are not put back: they are `Deed.skipped`. The whole account
of a step at the transcript is `Transcript.Passes`.
-/

namespace Retrace

namespace Deed

def printed : Deed → String
  | .printInt text => text
  | .printChar text => text
  | _ => ""

/-- The characters that were read for a deed and that come back when it is undone. -/
def given : Deed → List Char
  | .readDigit d => [Text.digitChar d]
  | .readChar c => [c]
  | _ => []

/-- The characters in front of `text` that were passed over for a deed. -/
def skipped (text : List Char) : Deed → List Char
  | .readDigit _ => text.takeWhile Console.passedOver
  | _ => []

end Deed

namespace Transcript

/-! ### Cutting off what was printed -/

theorem fromUTF8?_toByteArray (text : String) : String.fromUTF8? text.toByteArray = some text := by
  rw [String.fromUTF8?, dif_pos text.isValidUTF8]
  rfl

/-- The bytes that are left when those of the second text are cut off are those of the first. -/
theorem fromUTF8?_extract_append (text output : String) :
    String.fromUTF8? ((output ++ text).toUTF8.extract 0
      ((output ++ text).utf8ByteSize - text.utf8ByteSize)) = some output := by
  have hbytes : (output ++ text).toUTF8.extract 0
      ((output ++ text).utf8ByteSize - text.utf8ByteSize) = output.toByteArray := by
    rw [String.utf8ByteSize_append, Nat.add_sub_cancel]
    exact ByteArray.extract_append_eq_left rfl
  rw [hbytes]
  exact fromUTF8?_toByteArray output

/-- **Retracting is exact** for a text that stands at the end. -/
theorem strip_append (text output : String) : strip text (output ++ text) = output := by
  have hsuffix : text.toList.isSuffixOf (output ++ text).toList = true := by
    rw [List.isSuffixOf_iff_suffix, String.toList_append]
    exact List.suffix_append _ _
  rw [strip, if_pos hsuffix, keepBytes, fromUTF8?_extract_append]
  rfl

theorem strip_empty (output : String) : strip "" output = output := by
  have happend := strip_append "" output
  rwa [String.append_empty] at happend

/-! ### Undoing -/

def undo (d : Deed) (t : Transcript) : Transcript :=
  { console :=
      { t.console with
        input := { t.console.input with pending := d.given ++ t.console.input.pending } }
    output := strip d.printed t.output }

/-- Reverting the changes of a deed at a transcript never fails. -/
theorem revertAll_perform (s : State) (d : Deed) (t : Transcript) :
    Channel.revertAll (s.perform d).2.reverse t = .done () (t.undo d) := by
  have hstrip := strip_empty t.output
  -- A group has at most one change that concerns the channel.
  cases d with
  | place target c =>
    cases target <;> simp only [undo, Deed.printed, Deed.given, hstrip] <;> rfl
  | printInt | printChar => rfl
  | _ =>
    simp only [undo, Deed.printed, Deed.given, hstrip]
    rfl

/-- A text that was cut off can be printed again. -/
theorem emit_undo {d : Deed} {t : Transcript} {before : String} (hd : d.given = [])
    (ht : t.output = before ++ d.printed) : (Channel.emit d.printed (t.undo d)).state = t := by
  obtain ⟨console, output⟩ := t
  simp only at ht
  subst ht
  simp only [Channel.emit, undo, hd, strip_append]
  rfl

/-- A character that came back is the next to be taken, and nobody is asked for it. -/
theorem takeChar_undo (c : Char) (t : Transcript) :
    Channel.takeChar (t.undo (.readChar c)) = .done c t := by
  have hstrip := strip_empty t.output
  simp only [undo, Deed.printed, Deed.given, hstrip]
  rfl

theorem takeDigit_undo {d : Nat} (hd : Text.digit? (Text.digitChar d) = some d) (t : Transcript) :
    Channel.takeDigit (t.undo (.readDigit d)) = .done d t := by
  have hstrip := strip_empty t.output
  have hseek : Console.seekDigit .whenDry
      { t.console.input with pending := Text.digitChar d :: t.console.input.pending }
      t.console.sink [] = .done d t.console := Console.seekDigit_done rfl rfl hd
  simp only [undo, Deed.printed, Deed.given, hstrip, Channel.takeDigit, Console.takeDigit]
  exact congrArg (Reply.within · fun console => (⟨console, t.output⟩ : Transcript)) hseek

/-- A digit that was taken is less than ten, so it can be given back as one character. -/
theorem digit?_of_takeDigit {t : Transcript} {d : Nat} (h : (Channel.takeDigit t).result = .ok d) :
    Text.digit? (Text.digitChar d) = some d := by
  obtain ⟨⟨input, sink⟩, output⟩ := t
  have hseek : (Console.seekDigit .whenDry input sink []).result = .ok d := h
  obtain ⟨c, hc⟩ := Console.digit?_of_seekDigit hseek
  rw [Text.digitChar_of_digit? hc]
  exact hc

/-! ### Steps -/

/-- Input and prompts never fail: the unread bytes are text and the sink takes everything. -/
structure Unfailing (t : Transcript) : Prop where
  readable : t.console.input.Readable
  unlimited : t.console.sink.capacity = none

def remaining (t : Transcript) : List Char := t.console.input.remaining

theorem Unfailing.undo {t : Transcript} (ht : t.Unfailing) (d : Deed) : (t.undo d).Unfailing :=
  ⟨ht.readable, ht.unlimited⟩

/-- What a deed was given comes first again once it is undone. -/
theorem remaining_undo (d : Deed) (t : Transcript) :
    (t.undo d).remaining = d.given ++ t.remaining :=
  List.append_assoc _ _ _

/-- From `t` to `t'` a text was printed, and characters were taken from the input, some of which
were passed over. -/
structure Passes (t t' : Transcript) (printed : String) (skipped given : List Char) : Prop where
  unfailing : t'.Unfailing
  output : t'.output = t.output ++ printed
  remaining : t.remaining = skipped ++ given ++ t'.remaining

theorem Passes.refl {t : Transcript} (ht : t.Unfailing) : t.Passes t "" [] [] :=
  ⟨ht, String.append_empty.symm, rfl⟩

theorem emit_passes {t : Transcript} (ht : t.Unfailing) (text : String) :
    Channel.emit text t = .done () { t with output := t.output ++ text } ∧
      t.Passes { t with output := t.output ++ text } text [] [] :=
  ⟨rfl, ⟨ht.readable, ht.unlimited⟩, rfl, rfl⟩

/-- Reading takes one character, or it fails and takes none. -/
theorem takeChar_passes {t : Transcript} (ht : t.Unfailing) :
    (∃ c t', Channel.takeChar t = .done c t' ∧ t.Passes t' "" [] [c]) ∨
      ∃ fault t', Channel.takeChar t = .fail fault t' ∧ t.Passes t' "" [] [] := by
  obtain ⟨⟨input, sink⟩, output⟩ := t
  obtain ⟨sink', hprompt, hs'⟩ :=
    Console.prompt_of_unlimited .whenDry Console.charPrompt input ht.unlimited
  rcases input.next_of_remaining ht.readable with ⟨_, hnext⟩ | ⟨c, rest, hnext, hrest, hcons⟩
  · refine .inr ⟨.inputExhausted, ⟨⟨input, sink'⟩, output⟩, ?_, ⟨ht.readable, hs'⟩,
      String.append_empty.symm, rfl⟩
    simp only [Channel.takeChar, Console.takeChar, hprompt, hnext]
    rfl
  · refine .inl ⟨c, ⟨⟨rest, sink'⟩, output⟩, ?_, ⟨hrest, hs'⟩, String.append_empty.symm, hcons⟩
    simp only [Channel.takeChar, Console.takeChar, hprompt, hnext]
    rfl

/-- A search takes the digit and what stands in front of it, or it fails and takes nothing. -/
theorem takeDigit_passes {t : Transcript} (ht : t.Unfailing) :
    (∃ d t', Channel.takeDigit t = .done d t' ∧
        t.Passes t' "" (t.remaining.takeWhile Console.passedOver) [Text.digitChar d]) ∨
      ∃ fault t', Channel.takeDigit t = .fail fault t' ∧ t.Passes t' "" [] [] := by
  obtain ⟨⟨input, sink⟩, output⟩ := t
  rcases Console.seekDigit_of_remaining .whenDry ht.readable ht.unlimited [] with
    ⟨d, c, console, hseek, hd, hread, hcap, htail⟩ | ⟨console, hseek, hread, hcap, hback⟩
  · refine .inl ⟨d, ⟨console, output⟩, ?_, ⟨hread, hcap⟩, String.append_empty.symm, ?_⟩
    · simp only [Channel.takeDigit, Console.takeDigit, hseek]
      rfl
    · -- The digit that comes back is the character that was read.
      rw [Text.digitChar_of_digit? hd, List.append_assoc]
      exact htail
  · refine .inr ⟨.inputExhausted, ⟨console, output⟩, ?_, ⟨hread, hcap⟩,
      String.append_empty.symm, hback.symm⟩
    simp only [Channel.takeDigit, Console.takeDigit, hseek]
    rfl

end Transcript

namespace Machine

variable {η ρ : Type}

/-- The unstep that undoes a deed. -/
theorem unstep_of_deed {m : Machine Transcript η ρ} {s : State} {deed : Deed}
    {rest : List (List Change)} (hgroups : m.history.groups = (s.perform deed).2.reverse :: rest) :
    m.unstep.result = .ok true ∧
      m.unstep.state = ⟨m.state.revertAll (s.perform deed).2.reverse,
        { m.surroundings with channel := m.surroundings.channel.undo deed },
        m.division, m.history.dropNewest⟩ := by
  obtain ⟨hresult, hstate⟩ := unstep_of_groups hgroups
  rw [Transcript.revertAll_perform] at hresult hstate
  exact ⟨hresult, hstate⟩

variable [EdgeGuard η] [DirectionSource ρ]

/-- What finding out about an instruction does at a transcript. -/
theorem resolve_passes (division : DivisionPolicy) (s : State) (i : Instruction)
    {around : Surroundings Transcript η ρ} (ht : around.channel.Unfailing) :
    (∃ deed, (resolve division s i around).result = .ok deed ∧
        around.channel.Passes (resolve division s i around).state.channel deed.printed
          (deed.skipped around.channel.remaining) deed.given) ∨
      ∃ fault, (resolve division s i around).result = .error fault ∧
        around.channel.Passes (resolve division s i around).state.channel "" [] [] := by
  obtain ⟨channel, guard, dice⟩ := around
  -- All but the four instructions for input and output leave the transcript alone.
  have hsame := Transcript.Passes.refl ht
  cases i with
  | arith op =>
    simp only [resolve]
    split
    · exact .inr ⟨_, rfl, hsame⟩
    · exact .inl ⟨_, rfl, hsame⟩
  | printInt =>
    obtain ⟨hemit, hpasses⟩ := Transcript.emit_passes ht (" " ++ (s.stack.peek 0).repr ++ " ")
    exact .inl ⟨_, rfl, hpasses⟩
  | printChar =>
    obtain ⟨hemit, hpasses⟩ :=
      Transcript.emit_passes ht (charOfCode (s.stack.peek 0)).toString
    exact .inl ⟨_, rfl, hpasses⟩
  | readChar =>
    rcases Transcript.takeChar_passes ht with
      ⟨c, channel', htake, hpasses⟩ | ⟨fault, channel', htake, hpasses⟩
    · refine .inl ⟨.readChar c, ?_, ?_⟩
      · simp only [resolve, htake]
        rfl
      · simp only [resolve, htake]
        exact hpasses
    · refine .inr ⟨fault, ?_, ?_⟩
      · simp only [resolve, htake]
        rfl
      · simp only [resolve, htake]
        exact hpasses
  | readInt =>
    rcases Transcript.takeDigit_passes ht with
      ⟨d, channel', htake, hpasses⟩ | ⟨fault, channel', htake, hpasses⟩
    · refine .inl ⟨.readDigit d, ?_, ?_⟩
      · simp only [resolve, htake]
        rfl
      · simp only [resolve, htake]
        exact hpasses
    · refine .inr ⟨fault, ?_, ?_⟩
      · simp only [resolve, htake]
        rfl
      · simp only [resolve, htake]
        exact hpasses
  | place =>
    cases hlanding : (s.grid.landing s.target guard).result with
    | ok spot? =>
      exact .inl ⟨_, Reply.result_map_eq_ok.2 ⟨spot?, hlanding, rfl⟩, hsame⟩
    | error fault =>
      refine .inr ⟨fault, ?_, hsame⟩
      simp only [resolve, Reply.result_within, Reply.result_map, hlanding]
      rfl
  | grab =>
    cases hread : (s.grid.read s.target guard).result with
    | ok c? => exact .inl ⟨_, Reply.result_map_eq_ok.2 ⟨c?, hread, rfl⟩, hsame⟩
    | error fault =>
      refine .inr ⟨fault, ?_, hsame⟩
      simp only [resolve, Reply.result_within, Reply.result_map, hread]
      rfl
  | _ => exact .inl ⟨_, rfl, hsame⟩

/-- The effects of an executed step on its transcript are those of its deed. -/
theorem Executes.passes {m : Machine Transcript η ρ} {c : Char} {deed : Deed}
    (h : m.Executes c deed) (ht : m.surroundings.channel.Unfailing) :
    m.surroundings.channel.Passes (m.consulted c).channel deed.printed
      (deed.skipped m.surroundings.channel.remaining) deed.given := by
  cases hm : m.state.mode with
  | normal =>
    obtain ⟨hok, haround⟩ := h.resolved hm
    rw [haround]
    -- A fetch asks the guard only, so the channel is the one that the instruction meets.
    have hfetch : (fetch m.state m.surroundings).state.channel.Unfailing := ht
    rcases resolve_passes m.division m.state (.decode c) hfetch with
      ⟨deed', hdeed', hpasses⟩ | ⟨fault, hfault, _⟩
    · rw [hok] at hdeed'
      injection hdeed' with heq
      subst heq
      exact hpasses
    · rw [hok] at hfault
      cases hfault
  | text =>
    obtain ⟨hdeed, haround⟩ := h.literal hm
    rw [haround, hdeed, Machine.literal]
    split <;> exact .refl ht

/-- A step that is given up has no effect on its transcript. -/
theorem Abandons.passes {m : Machine Transcript η ρ} {around : Surroundings Transcript η ρ}
    (h : m.Abandons around) (ht : m.surroundings.channel.Unfailing) :
    m.surroundings.channel.Passes around.channel "" [] [] := by
  cases h with
  | stopped => exact .refl ht
  | unfetched => exact .refl ht
  | @refused c fault h =>
    have hfetch : (fetch m.state m.surroundings).state.channel.Unfailing := ht
    rw [consulted]
    unfold interpret at h ⊢
    cases hm : m.state.mode with
    | text => exact .refl ht
    | normal =>
      rw [hm] at h
      rcases resolve_passes m.division m.state (.decode c) hfetch with
        ⟨deed, hdeed, _⟩ | ⟨_, _, hpasses⟩
      · rw [h] at hdeed
        cases hdeed
      · exact hpasses

end Machine

end Retrace
