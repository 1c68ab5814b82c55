import Retrace.Channel.Terminal
import Retrace.Channel.Transcript
import Retrace.Proofs.LineBuffering
import Retrace.Proofs.Searches

/-!
# What is typed later

Whoever reads line by line can do so while the lines are being typed. As long as the input does not
run out, an operation cannot tell whether more of it will follow, and what was written before is no
concern of it either. An operation is `Timely` if that is so: put into the middle of a longer
exchange (`AtConsole.amid`) it answers in the same way, unless it has run out of input. Then it
would go on with more, but it would begin by writing the same.

Timely operations in sequence are timely, and so are timely operations on a part that has the
console of the whole. That leaves the single operations of a console and of the channels, among
which the search for a digit is the one with something to prove (`Console.foreseen_seekDigit`).
-/

namespace Retrace

/-! ### Whole lines -/

namespace Text

variable {α : Type u} {ends : α → Bool}

/-- The list does not end in the middle of a piece. -/
def Whole (ends : α → Bool) (l : List α) : Prop := ∀ a ∈ l.getLast?, ends a = true

theorem Whole.of_suffix {l l' : List α} (h : Whole ends l) (hl : l' <:+ l) : Whole ends l' := by
  obtain ⟨front, rfl⟩ := hl
  intro a ha
  apply h
  rw [List.getLast?_append, Option.mem_def.1 ha]
  rfl

/-- What follows a list of whole pieces is left over with the rest. -/
theorem breakAfter_append_of_whole {l : List α} (hl : Whole ends l) (hne : l ≠ []) (more : List α) :
    breakAfter ends (l ++ more) = ((breakAfter ends l).1, (breakAfter ends l).2 ++ more) := by
  induction l with
  | nil => contradiction
  | cons a rest ih =>
    rw [List.cons_append, breakAfter, breakAfter]
    by_cases ha : ends a = true
    · simp only [if_pos ha]
    · simp only [if_neg ha]
      cases rest with
      | nil => exact absurd (hl a (by simp)) ha
      | cons b rest =>
        rw [ih (hl.of_suffix (List.suffix_cons a _)) (List.cons_ne_nil b rest)]

/-- A piece behind which something is left is whole. -/
theorem whole_breakAfter {l : List α} (h : (breakAfter ends l).2 ≠ []) :
    Whole ends (breakAfter ends l).1 := by
  induction l with
  | nil => exact absurd rfl h
  | cons a rest ih =>
    rw [breakAfter] at h ⊢
    by_cases ha : ends a = true
    · simp [Whole, ha]
    · simp only [if_neg ha] at h ⊢
      have hne : rest ≠ [] := by
        intro hnil
        rw [hnil] at h
        exact h rfl
      intro b hb
      rw [List.getLast?_cons_of_ne_nil (fst_breakAfter_ne_nil ends hne)] at hb
      exact ih h b hb

/-- Putting anything in front of a list does not change how it ends. -/
theorem Whole.append {l : List α} (h : Whole ends l) (hne : l ≠ []) (front : List α) :
    Whole ends (front ++ l) := by
  intro a ha
  have hlast := List.getLast?_eq_some_getLast hne
  rw [List.getLast?_append, hlast] at ha
  cases ha
  exact h _ hlast

theorem suffix_breakAfter (ends : α → Bool) (l : List α) : (breakAfter ends l).2 <:+ l :=
  ⟨(breakAfter ends l).1, breakAfter_append ends l⟩

end Text

/-! ### Input that goes on -/

namespace Input

def followed (more : List UInt8) (i : Input) : Input := { i with unread := i.unread ++ more }

/-- Nothing ends in the middle of a line, if there is more. -/
def Joins (more : List UInt8) (i : Input) : Prop := more ≠ [] → Text.Whole isLineFeed i.unread

theorem followed_nil (i : Input) : i.followed [] = i := by
  rw [followed, List.append_nil]

/-- A line that has been received up to its end is read in the same way whatever follows it. If
nothing at all has been received, the reader would see the end of the input instead, hence `hne`. -/
theorem readLine_followed {more : List UInt8} {i : Input} (hi : i.Joins more)
    (hne : i.unread ≠ []) : (i.followed more).readLine = i.readLine.within (followed more) := by
  have hbreak : Text.breakAfter isLineFeed (i.unread ++ more) =
      ((Text.breakAfter isLineFeed i.unread).1,
        (Text.breakAfter isLineFeed i.unread).2 ++ more) := by
    by_cases hmore : more = []
    · simp [hmore]
    · exact Text.breakAfter_append_of_whole (hi hmore) hne more
  have hne' : i.unread ++ more ≠ [] := by simp [hne]
  simp only [readLine, followed, List.isEmpty_eq_false_iff.2 hne, List.isEmpty_eq_false_iff.2 hne',
    hbreak]
  cases Text.decode? (Text.breakAfter isLineFeed i.unread).1 with
  | none => rfl
  | some text => rfl

theorem suffix_readLine (i : Input) : i.readLine.state.unread <:+ i.unread := by
  simp only [readLine]
  split
  · exact List.suffix_rfl
  · split
    · exact Text.suffix_breakAfter _ _
    · exact Text.suffix_breakAfter _ _

theorem suffix_next (i : Input) : i.next.state.unread <:+ i.unread := by
  have hread := suffix_readLine i
  simp only [next]
  split
  · exact List.suffix_rfl
  · split
    all_goals
      next h =>
      rw [h] at hread
      exact hread

/-- A character that is there is taken in the same way, whatever follows. -/
theorem next_followed {more : List UInt8} {i : Input} (hi : i.Joins more)
    (h : more = [] ∨ i.next.result ≠ .error .inputExhausted) :
    (i.followed more).next = i.next.within (followed more) := by
  rcases h with rfl | h
  · simp only [Reply.within, followed_nil]
  obtain ⟨pending, unread⟩ := i
  cases pending with
  | cons c pending => rfl
  | nil =>
    cases unread with
    | nil => exact absurd rfl h
    | cons b rest =>
      have hread := readLine_followed hi (List.cons_ne_nil b rest)
      simp only [next]
      rw [hread]
      obtain ⟨_ | _ | _ | _, i', events⟩ := (⟨[], b :: rest⟩ : Input).readLine
      all_goals rfl

end Input

namespace Sink

def preceded (shown : ByteArray) (s : Sink) : Sink := { s with written := shown ++ s.written }

/-- A sink without a limit appends; it does not look at what was written before. -/
theorem write_preceded {s : Sink} (hs : s.capacity = none) (shown : ByteArray) (text : String) :
    (s.preceded shown).write text = (s.write text).within (preceded shown) := by
  rw [write_of_unlimited hs, write_of_unlimited (s := s.preceded shown) hs]
  simp only [append, preceded, Reply.within, Reply.done, ByteArray.append_assoc]

/-- Nothing that was written is ever taken back from a sink, even if writing fails halfway. -/
theorem written_write (s : Sink) (text : String) :
    ∃ more, (s.write text).state.written = s.written ++ more := by
  simp only [write]
  cases s.capacity with
  | none => exact ⟨_, rfl⟩
  | some room =>
    simp only
    split
    · exact ⟨_, rfl⟩
    · exact ⟨_, rfl⟩

end Sink

namespace Console

/-- What becomes of a console: something is written behind, something is read from the front. -/
structure Proceeds (before after : Console) : Prop where
  capacity : after.sink.capacity = before.sink.capacity
  written : ∃ more, after.sink.written = before.sink.written ++ more
  unread : after.input.unread <:+ before.input.unread

namespace Proceeds

theorem of_read {a b : Console} (hsink : b.sink = a.sink)
    (hunread : b.input.unread <:+ a.input.unread) : a.Proceeds b := by
  refine ⟨congrArg Sink.capacity hsink, ⟨.empty, ?_⟩, hunread⟩
  rw [hsink, ByteArray.append_empty]

theorem refl (c : Console) : c.Proceeds c := .of_read rfl List.suffix_rfl

theorem trans {a b c : Console} (h : a.Proceeds b) (h' : b.Proceeds c) : a.Proceeds c := by
  obtain ⟨more, hmore⟩ := h.written
  obtain ⟨more', hmore'⟩ := h'.written
  refine ⟨h'.capacity.trans h.capacity, ⟨more ++ more', ?_⟩, h'.unread.trans h.unread⟩
  rw [hmore', hmore, ByteArray.append_assoc]

end Proceeds

/-- The console can be put into a longer exchange, in which `more` will be typed. -/
structure Ready (more : List UInt8) (c : Console) : Prop where
  unlimited : c.sink.capacity = none
  joins : c.input.Joins more

/-- A console that is ready for more input stays ready for it while it is being used. -/
theorem Ready.of_proceeds {more : List UInt8} {c c' : Console} (h : c.Ready more)
    (hc : c.Proceeds c') : c'.Ready more :=
  ⟨hc.capacity.trans h.unlimited, fun hmore => (h.joins hmore).of_suffix hc.unread⟩

/-- The console in the middle of an exchange, before which `shown` was written and after which
`more` will be typed. -/
def amid (shown : ByteArray) (more : List UInt8) (c : Console) : Console :=
  ⟨c.input.followed more, c.sink.preceded shown⟩

end Console

/-! ### Timely operations -/

/-- Something that works at a console, which can be exchanged. -/
class AtConsole (σ : Type) where
  console : σ → Console
  withConsole : Console → σ → σ
  console_withConsole (c : Console) (s : σ) : console (withConsole c s) = c

namespace AtConsole

variable {σ τ α β : Type} [AtConsole σ] [AtConsole τ] {shown : ByteArray} {more : List UInt8}

def amid (shown : ByteArray) (more : List UInt8) (s : σ) : σ :=
  withConsole ((console s).amid shown more) s

def written (s : σ) : ByteArray := (console s).sink.written

@[simp] theorem console_amid (s : σ) :
    console (amid shown more s) = (console s).amid shown more :=
  console_withConsole _ s

theorem written_amid (s : σ) : written (amid shown more s) = shown ++ written s :=
  congrArg (fun c : Console => c.sink.written) (console_amid s)

/-- An answer `r`, and the answer `r'` in the middle of an exchange: they are the same unless there
was more input and it was missing, and in any case `r'` begins by writing the same as `r`. -/
structure Foreseen (shown : ByteArray) (more : List UInt8) (r r' : Reply σ α) : Prop where
  same : more = [] ∨ r.result ≠ .error .inputExhausted → r' = r.within (amid shown more)
  begins : ∃ rest, written r'.state = shown ++ written r.state ++ rest

/-- An operation for which not everything has to be typed yet. -/
structure Timely (op : σ → Reply σ α) : Prop where
  proceeds (s : σ) : (console s).Proceeds (console (op s).state)
  foreseen {s : σ} {more : List UInt8} (h : (console s).Ready more) (shown : ByteArray) :
    Foreseen shown more (op s) (op (amid shown more s))

theorem Foreseen.of_eq {r r' : Reply σ α} (h : r' = r.within (amid shown more)) :
    Foreseen shown more r r' := by
  refine ⟨fun _ => h, .empty, ?_⟩
  rw [h, Reply.state_within, written_amid, ByteArray.append_empty]

theorem proceeds_andThen {s : σ} {r : Reply σ α} (h : (console s).Proceeds (console r.state))
    {next : α → σ → Reply σ β}
    (hnext : ∀ a s, (console s).Proceeds (console (next a s).state)) :
    (console s).Proceeds (console (r.andThen next).state) := by
  obtain ⟨_ | a, s', events⟩ := r
  · exact h
  · exact h.trans (hnext a s')

/-- Where the first operation ran out of input, the second one writes only behind what the first
one has written. -/
theorem Foreseen.andThen {r r' : Reply σ α} (h : Foreseen shown more r r')
    {next : α → σ → Reply σ β}
    (hproceeds : ∀ a s, (console s).Proceeds (console (next a s).state))
    (hnext : ∀ a, r.result = .ok a →
      Foreseen shown more (next a r.state) (next a (amid shown more r.state))) :
    Foreseen shown more (r.andThen next) (r'.andThen next) := by
  by_cases hend : more = [] ∨ r.result ≠ .error .inputExhausted
  · rw [h.same hend]
    obtain ⟨_ | a, s, events⟩ := r
    · exact .of_eq rfl
    · obtain ⟨hsame, hbegins⟩ := hnext a rfl
      refine ⟨?_, hbegins⟩
      intro hresult
      simp only [Reply.within, Reply.andThen]
      rw [hsame hresult]
      rfl
  · simp only [not_or, ne_eq, not_not] at hend
    obtain ⟨hmore, hend⟩ := hend
    obtain ⟨rest, hrest⟩ := h.begins
    obtain ⟨rest', hrest'⟩ := (proceeds_andThen (.refl _) (r := r') hproceeds).written
    rw [Reply.andThen_of_error hend]
    refine ⟨?_, rest ++ rest', ?_⟩
    · simp [hmore]
    · rw [written] at hrest
      rw [written, hrest', hrest, ByteArray.append_assoc]

theorem Foreseen.map {r r' : Reply σ α} (h : Foreseen shown more r r') (f : α → β) :
    Foreseen shown more (r.map f) (r'.map f) := by
  refine ⟨?_, h.begins⟩
  intro hresult
  rw [h.same (hresult.imp_right (mt Reply.result_map_eq_error.2))]
  rfl

namespace Timely

theorem done (a : α) : Timely (Reply.done a : σ → Reply σ α) where
  proceeds s := .refl (console s)
  foreseen _ _ := .of_eq rfl

theorem fail (fault : Fault) : Timely (Reply.fail fault : σ → Reply σ α) where
  proceeds s := .refl (console s)
  foreseen _ _ := .of_eq rfl

theorem map {op : σ → Reply σ α} (h : Timely op) (f : α → β) : Timely fun s => (op s).map f where
  proceeds := h.proceeds
  foreseen hready shown := (h.foreseen hready shown).map f

/-- By `Foreseen.andThen`: the console is as ready after the first operation as it was before. -/
theorem andThen {op : σ → Reply σ α} (h : Timely op) {next : α → σ → Reply σ β}
    (hnext : ∀ a, Timely (next a)) : Timely fun s => (op s).andThen next where
  proceeds s := proceeds_andThen (h.proceeds s) fun a => (hnext a).proceeds
  foreseen {s} _ hready shown :=
    (h.foreseen hready shown).andThen (fun a => (hnext a).proceeds) fun a _ =>
      (hnext a).foreseen (hready.of_proceeds (h.proceeds s)) shown

/-- A timely operation on a part that has the console of the whole. Which operation it is may
depend on the whole, but not on the console. -/
theorem lift {op : τ → σ → Reply σ α} (h : ∀ t, Timely (op t)) (get : τ → σ) (put : σ → τ → τ)
    (hop : ∀ shown more t, op (amid shown more t) = op t)
    (hget : ∀ t, console t = console (get t))
    (hput : ∀ s t, console (put s t) = console s)
    (hget_amid : ∀ shown more t, get (amid shown more t) = amid shown more (get t))
    (hput_get : ∀ shown more s t, put s (amid shown more t) = put s t)
    (hput_amid : ∀ shown more s t, put (amid shown more s) t = amid shown more (put s t)) :
    Timely fun t => (op t (get t)).within (put · t) where
  proceeds t := by
    rw [hget, Reply.state_within, hput]
    exact (h t).proceeds (get t)
  foreseen {t} more hready shown := by
    rw [hget] at hready
    obtain ⟨hsame, rest, hrest⟩ := (h t).foreseen hready shown
    rw [← hget_amid] at hsame hrest
    refine ⟨?_, rest, ?_⟩
    · intro hresult
      rw [hop, hsame hresult]
      simp only [Reply.within, hput_get, hput_amid]
    · simp only [written, Reply.state_within, hput, hop]
      exact hrest

/-- What is neither asked nor told does not depend on the console. -/
theorem of_quiet {op : σ → Reply σ α} (hconsole : ∀ s, console (op s).state = console s)
    (hamid : ∀ shown more s, op (amid shown more s) = (op s).within (amid shown more)) :
    Timely op where
  proceeds s := by
    rw [hconsole]
    exact .refl _
  foreseen _ _ := .of_eq (hamid _ _ _)

end Timely

end AtConsole

open AtConsole

/-! ### Consoles -/

instance : AtConsole Console where
  console := id
  withConsole c _ := c
  console_withConsole _ _ := rfl

namespace Console

theorem proceeds_write (text : String) (c : Console) : c.Proceeds (c.write text).state :=
  ⟨c.sink.capacity_write text, c.sink.written_write text, List.suffix_rfl⟩

/-- Writing is not even aware of the input, so more of it makes no difference. -/
theorem timely_write (text : String) : Timely (write text) where
  proceeds := proceeds_write text
  foreseen {c} more hready shown := by
    have hwrite : (c.sink.preceded shown).write text = _ :=
      Sink.write_preceded hready.unlimited shown text
    refine .of_eq ?_
    show Reply.within ((c.sink.preceded shown).write text) _ = _
    rw [hwrite]
    rfl

/-- Whether the user is asked depends on the queue only. -/
theorem prompt_amid (rule : Prompting) (text : String) (input : Input) {sink : Sink}
    (hs : sink.capacity = none) (shown : ByteArray) (more : List UInt8) :
    prompt rule text (input.followed more) (sink.preceded shown) =
      (prompt rule text input sink).within (Sink.preceded shown) := by
  have hwrite := Sink.write_preceded hs shown text
  cases rule with
  | always => exact hwrite
  | whenDry =>
    obtain ⟨pending, unread⟩ := input
    cases pending with
    | nil => exact hwrite
    | cons c rest => rfl

theorem proceeds_prompt (rule : Prompting) (text : String) (input : Input) (sink : Sink) :
    Proceeds ⟨input, sink⟩ ⟨input, (prompt rule text input sink).state⟩ := by
  have hwrite := proceeds_write text ⟨input, sink⟩
  cases rule with
  | always => exact hwrite
  | whenDry =>
    simp only [prompt]
    split
    · exact hwrite
    · exact .refl _

theorem proceeds_next (input : Input) (sink : Sink) :
    Proceeds ⟨input, sink⟩ ⟨input.next.state, sink⟩ :=
  .of_read rfl input.suffix_next

/-- Once its prompt is shown, taking a character is a matter of the input alone. -/
theorem takeChar_eq (rule : Prompting) {input : Input} {sink sink' : Sink}
    (hprompt : prompt rule charPrompt input sink = .done () sink') :
    takeChar rule ⟨input, sink⟩ = input.next.within (⟨·, sink'⟩) := by
  simp only [takeChar, hprompt]
  rfl

theorem proceeds_takeChar (rule : Prompting) (c : Console) :
    c.Proceeds (c.takeChar rule).state := by
  obtain ⟨input, sink⟩ := c
  have hprompt := proceeds_prompt rule charPrompt input sink
  simp only [takeChar]
  split
  · next h =>
    rw [h] at hprompt
    exact hprompt
  · next h =>
    rw [h] at hprompt
    exact hprompt.trans (proceeds_next input _)

/-- A character is taken from what is pending, or from the next line. Where there was a line to
read, it is the same line with more input behind it. -/
theorem timely_takeChar (rule : Prompting) : Timely (takeChar rule) where
  proceeds := proceeds_takeChar rule
  foreseen {c} more hready shown := by
    obtain ⟨input, sink⟩ := c
    have hs : sink.capacity = none := hready.unlimited
    have hi : input.Joins more := hready.joins
    obtain ⟨sink', hprompt, -, -⟩ := exists_prompt rule charPrompt input hs
    have hprompt' := prompt_amid rule charPrompt input hs shown more
    rw [hprompt] at hprompt'
    rw [takeChar_eq rule hprompt]
    show Foreseen shown more _ (takeChar rule ⟨input.followed more, sink.preceded shown⟩)
    rw [takeChar_eq rule hprompt']
    refine ⟨?_, .empty, ByteArray.append_empty.symm⟩
    intro hresult
    rw [Input.next_followed hi hresult]
    rfl

/-- A search writes behind its first prompt. -/
theorem proceeds_seekDigit_prompt (rule : Prompting) (input : Input) (sink : Sink)
    (skipped : List Char) :
    Proceeds ⟨input, (prompt rule digitPrompt input sink).state⟩
      (seekDigit rule input sink skipped).state := by
  fun_induction seekDigit rule input sink skipped with
  | case1 input sink skipped fault sink' events hprompt =>
    rw [hprompt]
    exact .of_read rfl List.suffix_rfl
  | case2 input sink skipped sink' events hprompt fault rest more hnext =>
    have htaken := input.suffix_next
    rw [hnext] at htaken
    rw [hprompt]
    exact .of_read rfl htaken
  | case3 input sink skipped sink' events hprompt c rest more hnext d hd =>
    have htaken := proceeds_next input sink'
    rw [hnext] at htaken
    rw [hprompt]
    exact htaken
  | case4 input sink skipped sink' events hprompt c rest more hnext hd ih =>
    have htaken := proceeds_next input sink'
    rw [hnext] at htaken
    rw [hprompt]
    exact (htaken.trans (proceeds_prompt rule digitPrompt rest sink')).trans ih

/-- By induction on the course of the search. A search that finds the input at its end would have
gone on, but it has begun by writing the same prompts. -/
theorem foreseen_seekDigit (rule : Prompting) {i i' : Input} {taken : List Char}
    {result : Except Fault Nat} (h : i.Search taken result i') {sink : Sink} {more : List UInt8}
    (hready : Ready more ⟨i, sink⟩) (shown : ByteArray) (skipped : List Char) :
    Foreseen shown more (seekDigit rule i sink skipped)
      (seekDigit rule (i.followed more) (sink.preceded shown) skipped) := by
  have hprompts : ∀ {i : Input} {sink : Sink}, Ready more ⟨i, sink⟩ →
      ∃ sink', prompt rule digitPrompt i sink = .done () sink' ∧
        prompt rule digitPrompt (i.followed more) (sink.preceded shown) =
          .done () (sink'.preceded shown) := by
    intro i sink hready
    obtain ⟨sink', hprompt, -, -⟩ := exists_prompt rule digitPrompt i hready.unlimited
    refine ⟨sink', hprompt, ?_⟩
    rw [prompt_amid rule digitPrompt i hready.unlimited, hprompt]
    rfl
  induction h generalizing sink skipped with
  | @found i i' c d hnext hd =>
    obtain ⟨sink', hprompt, hprompt'⟩ := hprompts hready
    have hnext' := Input.next_followed hready.joins (.inr (by simp [hnext]))
    rw [hnext] at hnext'
    rw [seekDigit_done hprompt hnext hd, seekDigit_done hprompt' hnext' hd]
    exact .of_eq rfl
  | @failed i i' fault hnext =>
    obtain ⟨sink', hprompt, hprompt'⟩ := hprompts hready
    rw [seekDigit_fail hprompt hnext]
    by_cases hend : more = [] ∨ fault ≠ .inputExhausted
    · have hnext' := Input.next_followed hready.joins (hend.imp_right (by simp [hnext]))
      rw [hnext] at hnext'
      rw [seekDigit_fail hprompt' hnext']
      exact .of_eq rfl
    · have hbegins := proceeds_seekDigit_prompt rule (i.followed more) (sink.preceded shown) skipped
      rw [hprompt'] at hbegins
      refine ⟨?_, hbegins.written⟩
      intro hresult
      exact absurd (hresult.imp_right (by simp)) hend
  | @passed i i' i'' c taken result hnext hd _ ih =>
    obtain ⟨sink', hprompt, hprompt'⟩ := hprompts hready
    have hnext' := Input.next_followed hready.joins (.inr (by simp [hnext]))
    rw [hnext] at hnext'
    rw [seekDigit_skip hprompt hnext hd, seekDigit_skip hprompt' hnext' hd]
    have hproceeds := (proceeds_prompt rule digitPrompt i sink).trans (proceeds_next i _)
    rw [hprompt, hnext] at hproceeds
    exact ih (hready.of_proceeds hproceeds) (c :: skipped)

theorem timely_takeDigit (rule : Prompting) : Timely (takeDigit rule) where
  proceeds c := (proceeds_prompt rule digitPrompt c.input c.sink).trans
    (proceeds_seekDigit_prompt rule c.input c.sink [])
  foreseen {c} more hready shown := by
    obtain ⟨taken, result, i', hsearch⟩ := c.input.exists_search
    exact foreseen_seekDigit rule hsearch hready shown []

end Console

/-! ### Channels -/

/-- A channel whose operations are timely. -/
class TimelyChannel (π : Type) [Channel π] extends AtConsole π where
  emit (text : String) : Timely (Channel.emit text : π → Reply π Unit)
  takeChar : Timely (Channel.takeChar : π → Reply π Char)
  takeDigit : Timely (Channel.takeDigit : π → Reply π Nat)

instance : AtConsole Terminal where
  console := Terminal.console
  withConsole console _ := ⟨console⟩
  console_withConsole _ _ := rfl

theorem Terminal.timely {α : Type} {op : Console → Reply Console α} (h : Timely op) :
    Timely fun t : Terminal => (op t.console).within Terminal.mk :=
  .lift (fun _ => h) Terminal.console (fun console _ => ⟨console⟩) (fun _ _ _ => rfl)
    (fun _ => rfl) (fun _ _ => rfl) (fun _ _ _ => rfl) (fun _ _ _ _ => rfl) (fun _ _ _ _ => rfl)

instance : TimelyChannel Terminal where
  emit text := Terminal.timely (Console.timely_write text)
  takeChar := Terminal.timely (Console.timely_takeChar .always)
  takeDigit := Terminal.timely (Console.timely_takeDigit .always)

instance : AtConsole Transcript where
  console := Transcript.console
  withConsole console t := { t with console }
  console_withConsole _ _ := rfl

theorem Transcript.timely {α : Type} {op : Console → Reply Console α} (h : Timely op) :
    Timely fun t : Transcript => (op t.console).within fun console => { t with console } :=
  .lift (fun _ => h) Transcript.console (fun console t => { t with console }) (fun _ _ _ => rfl)
    (fun _ => rfl) (fun _ _ => rfl) (fun _ _ _ => rfl) (fun _ _ _ _ => rfl) (fun _ _ _ _ => rfl)

instance : TimelyChannel Transcript where
  emit _ := .of_quiet (fun _ => rfl) (fun _ _ _ => rfl)
  takeChar := Transcript.timely (Console.timely_takeChar .whenDry)
  takeDigit := Transcript.timely (Console.timely_takeDigit .whenDry)

end Retrace
