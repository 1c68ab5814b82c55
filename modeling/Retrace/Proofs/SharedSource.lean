import Retrace.Proofs.LineBuffering

/-!
# One source for commands and input

The one who watches a program types commands and the input of the program into the same source. They
are told apart by who reads: each line is read as a whole, either as a command or for the program,
and what the program has not used of its lines waits in the queue. A search for a digit that fails
has read lines for the program as well, and puts what it has taken into the queue again.

So the lines that were read can be told off to two readers (`Input.Divided`), in the order in which
they came, and nothing of a line ever gets to the other reader. A conversation is a sequence of
queries with their answers, and `Separated` is the account of it.
-/

namespace Retrace

/-! ### Lines and their readers -/

inductive Reader where
  | program
  | user
  deriving DecidableEq, Repr

def Reader.marks (reader : Reader) (lines : List (List Char)) : List (Reader × List Char) :=
  lines.map fun line => (reader, line)

/-- The lines that were read for one reader, in their order. -/
def Reader.share (reader : Reader) (read : List (Reader × List Char)) : List (List Char) :=
  (read.filter fun entry => entry.1 = reader).map Prod.snd

namespace Reader

@[simp] theorem map_snd_marks (reader : Reader) (lines : List (List Char)) :
    (reader.marks lines).map Prod.snd = lines := by
  simp [marks, Function.comp_def]

@[simp] theorem share_append (reader : Reader) (first second : List (Reader × List Char)) :
    reader.share (first ++ second) = reader.share first ++ reader.share second := by
  simp [share]

@[simp] theorem share_marks (reader reader' : Reader) (lines : List (List Char)) :
    reader.share (reader'.marks lines) = if reader' = reader then lines else [] := by
  by_cases h : reader' = reader
  · simp [share, marks, h, List.filter_map, Function.comp_def]
  · simp [share, marks, h]

end Reader

namespace Input

/-- The first lines of `text` were `read` by their readers, the other ones are unread, and of its
lines the program has `used` some characters and the others are pending. -/
structure Divided (text : List Char) (read : List (Reader × List Char)) (used : List Char)
    (i : Input) : Prop where
  lines : ∃ rest, Text.lines text = read.map Prod.snd ++ Text.lines rest ∧
    i.unread = Text.encode (String.ofList rest)
  program : used ++ i.pending = (Reader.program.share read).flatten

namespace Divided

variable {text : List Char} {read : List (Reader × List Char)} {used : List Char} {i i' : Input}

/-- Nothing has been read yet. -/
theorem ofBytes (text : List Char) :
    Divided text [] [] (.ofBytes (Text.encode (String.ofList text))) :=
  ⟨⟨text, rfl, rfl⟩, rfl⟩

/-- A source that has ended has ended for good. -/
theorem unread_eq_nil {more : List (Reader × List Char)} {used' : List Char}
    (h : i.Divided text read used) (h' : i'.Divided text (read ++ more) used')
    (hi : i.unread = []) : i'.unread = [] := by
  obtain ⟨rest, hlines, hunread⟩ := h.lines
  obtain ⟨rest', hlines', hunread'⟩ := h'.lines
  have hrest : rest = [] := by
    by_contra hne
    exact Text.encode_ne_nil hne (hunread.symm.trans hi)
  rw [hrest, hlines', List.map_append, List.append_assoc] at hlines
  have hnil : more.map Prod.snd ++ Text.lines rest' = [] := List.append_cancel_left hlines
  have hrest' : rest' = [] := Text.lines_eq_nil_iff.1 (List.append_eq_nil_iff.1 hnil).2
  rw [hunread', hrest']
  rfl

/-- **Taking a character** uses it. A line is read for the program if the queue was dry. -/
theorem next (h : i.Divided text read used) :
    (∃ c more, i.next.result = .ok c ∧
        i.next.state.Divided text (read ++ Reader.program.marks more) (used ++ [c])) ∨
      i.next.result = .error .inputExhausted ∧ i.next.state = i ∧ i.unread = [] := by
  obtain ⟨⟨rest, hlines, hunread⟩, hprogram⟩ := h
  obtain ⟨pending, unread⟩ := i
  cases pending with
  | cons c pending =>
    refine .inl ⟨c, [], rfl, ⟨rest, ?_, hunread⟩, ?_⟩
    · simpa using hlines
    · simpa [Input.next] using hprogram
  | nil =>
    rcases readLine_cases hunread with ⟨rfl, hread⟩ | ⟨line, others, hne, hfirst, hread⟩
    · right
      simp only [Input.next, hread]
      exact ⟨rfl, rfl, hunread⟩
    · left
      obtain ⟨c, line, rfl⟩ := List.exists_cons_of_ne_nil hne
      have hnext : Input.next ⟨[], unread⟩ =
          .done c ⟨line, Text.encode (String.ofList others)⟩ := by
        simp only [Input.next, hread]
        rfl
      rw [hnext]
      refine ⟨c, [c :: line], rfl, ⟨others, ?_, rfl⟩, ?_⟩
      · simp [hlines, hfirst]
      · simp only [List.append_nil] at hprogram
        simp [hprogram]

/-- What a search takes is used. It fails only where the source has ended. -/
theorem search {taken : List Char} {result : Except Fault Nat}
    (hsearch : i.Search taken result i') (h : i.Divided text read used) :
    (∃ more, i'.Divided text (read ++ Reader.program.marks more) (used ++ taken)) ∧
      ∀ fault, result = .error fault → fault = .inputExhausted := by
  induction hsearch generalizing read used with
  | @found i i' c d hnext _ =>
    rcases h.next with ⟨c', more, hresult, hdivided⟩ | ⟨hresult, _⟩
    · rw [hnext] at hresult hdivided
      cases hresult
      exact ⟨⟨more, hdivided⟩, by simp⟩
    · rw [hnext] at hresult
      cases hresult
  | @passed i i' i'' c taken result hnext _ _ ih =>
    rcases h.next with ⟨c', more, hresult, hdivided⟩ | ⟨hresult, _⟩
    · rw [hnext] at hresult hdivided
      cases hresult
      obtain ⟨⟨more', hrest⟩, hfault⟩ := ih hdivided
      refine ⟨⟨more ++ more', ?_⟩, hfault⟩
      simpa [Reader.marks] using hrest
    · rw [hnext] at hresult
      cases hresult
  | @failed i i' fault hnext =>
    rcases h.next with ⟨c', more, hresult, _⟩ | ⟨hresult, hstate, _⟩
    · rw [hnext] at hresult
      cases hresult
    · rw [hnext] at hresult hstate
      cases hresult
      cases hstate
      exact ⟨⟨[], by simpa [Reader.marks] using h⟩, by simp⟩

/-- Characters that are given back are not used. -/
theorem giveBackAll {taken : List Char} (h : i.Divided text read (used ++ taken)) :
    (i.giveBackAll taken.reverse).Divided text read used := by
  refine ⟨h.lines, ?_⟩
  rw [← h.program]
  simp [Input.giveBackAll, List.reverseAux_eq]

/-- A command is a line of its own. -/
theorem command (h : i.Divided text read used) :
    (i.unread = [] ∧ i.command = .done none i) ∨
      ∃ line i', i.command = .done (some (String.ofList (Text.commandLine line))) i' ∧
        i.unread ≠ [] ∧ i'.Divided text (read ++ Reader.user.marks [line]) used := by
  obtain ⟨⟨rest, hlines, hunread⟩, hprogram⟩ := h
  rcases readLine_cases hunread with ⟨rfl, hread⟩ | ⟨line, others, hne, hfirst, hread⟩
  · refine .inl ⟨hunread, ?_⟩
    rw [Input.command, hread]
    rfl
  · have hrest : rest ≠ [] := by
      rintro rfl
      cases hfirst
    refine .inr ⟨line, { i with unread := Text.encode (String.ofList others) }, ?_, ?_, ?_, ?_⟩
    · rw [Input.command, hread]
      rfl
    · rw [hunread]
      exact Text.encode_ne_nil hrest
    · exact ⟨others, by simp [hlines, hfirst], rfl⟩
    · simpa using hprogram

end Divided

end Input

/-! ### Conversations -/

namespace Transcript

/-- What a transcript is asked for: a character or a digit for the program, or a command. -/
inductive Query where
  | char
  | digit
  | command
  deriving DecidableEq, Repr

inductive Answer where
  | char (c : Char)
  /-- The digit was `c`, and the characters before it were dropped. -/
  | digit (dropped : List Char) (c : Char)
  /-- The program got nothing. -/
  | failed (fault : Fault)
  /-- A command, or none because the source has ended. -/
  | line (line? : Option String)
  deriving DecidableEq, Repr

namespace Answer

def used : Answer → List Char
  | char c => [c]
  | digit dropped c => dropped ++ [c]
  | _ => []

def command? : Answer → Option (Option String)
  | line line? => some line?
  | _ => none

end Answer

/-- A query to the transcript `t` gets an answer and leaves another transcript behind. -/
inductive Answers (t : Transcript) : Query → Answer → Transcript → Prop where
  | char {c : Char} (taken : (Channel.takeChar t).result = .ok c) :
      Answers t .char (.char c) (Channel.takeChar t).state
  | noChar {fault : Fault} (failed : (Channel.takeChar t).result = .error fault) :
      Answers t .char (.failed fault) (Channel.takeChar t).state
  /-- The characters are those that the search took one by one. -/
  | digit {dropped : List Char} {c : Char} {i : Input}
      (taken : (Channel.takeDigit t).result = .ok (c.toNat - '0'.toNat))
      (search : t.console.input.Search (dropped ++ [c]) (.ok (c.toNat - '0'.toNat)) i)
      (others : ∀ x ∈ dropped, x.isDigit = false) (digit : c.isDigit = true) :
      Answers t .digit (.digit dropped c) (Channel.takeDigit t).state
  | noDigit {fault : Fault} (failed : (Channel.takeDigit t).result = .error fault) :
      Answers t .digit (.failed fault) (Channel.takeDigit t).state
  | command {line? : Option String} (read : t.command.result = .ok line?) :
      Answers t .command (.line line?) t.command.state

/-- Queries are answered one after the other. -/
inductive Converses : Transcript → List Query → List Answer → Transcript → Prop where
  | nil {t : Transcript} : Converses t [] [] t
  | cons {t t' t'' : Transcript} {query : Query} {answer : Answer} {queries : List Query}
      {answers : List Answer} (first : t.Answers query answer t')
      (rest : Converses t' queries answers t'') :
      Converses t (query :: queries) (answer :: answers) t''

/-- Of the lines of `text` those for the user were answered as commands, without their line breaks,
and those for the program were used or are pending. -/
structure Separated (text : List Char) (answers : List Answer) (read : List (Reader × List Char))
    (t : Transcript) : Prop where
  divided : t.console.input.Divided text read (answers.flatMap Answer.used)
  /-- Only when the source has ended there is no command. -/
  commands : ∃ k, answers.filterMap Answer.command? =
      ((Reader.user.share read).map fun line =>
          some (String.ofList (Text.dropFinal '\r' (Text.dropFinal '\n' line)))) ++
        List.replicate k none ∧
    (k ≠ 0 → t.console.input.unread = [])
  faults : ∀ fault, .failed fault ∈ answers → fault = .inputExhausted

namespace Separated

variable {text : List Char} {answers : List Answer} {read : List (Reader × List Char)}
  {t t' : Transcript}

/-- An answer to the program leaves the commands alone. -/
theorem served (h : Separated text answers read t) {answer : Answer} {more : List (List Char)}
    (hcommand : answer.command? = none)
    (hdivided : t'.console.input.Divided text (read ++ Reader.program.marks more)
      (answers.flatMap Answer.used ++ answer.used))
    (hfault : ∀ fault, answer = .failed fault → fault = .inputExhausted) :
    Separated text (answers ++ [answer]) (read ++ Reader.program.marks more) t' := by
  obtain ⟨k, hcommands, hend⟩ := h.commands
  refine ⟨by simpa using hdivided, ⟨k, ?_, ?_⟩, ?_⟩
  · simpa [hcommand] using hcommands
  · intro hk
    exact h.divided.unread_eq_nil hdivided (hend hk)
  · intro fault hmem
    rcases List.mem_append.1 hmem with hmem | hmem
    · exact h.faults fault hmem
    · exact hfault fault (List.mem_singleton.1 hmem).symm

theorem takeChar (h : Separated text answers read t) (hs : OnConsole.Unlimited t) :
    ∃ answer, t.Answers .char answer (Channel.takeChar t).state ∧
      ∃ more, Separated text (answers ++ [answer]) (read ++ Reader.program.marks more)
        (Channel.takeChar t).state := by
  obtain ⟨hresult, hinput, _⟩ := OnConsole.takeChar_eq hs
  have hinput' : (Channel.takeChar t).state.console.input = t.console.input.next.state := hinput
  rcases h.divided.next with ⟨c, more, hok, hdivided⟩ | ⟨hfail, hsame, _⟩
  · refine ⟨.char c, .char (hresult.trans hok), more, h.served rfl ?_ (by simp)⟩
    rw [hinput']
    exact hdivided
  · refine ⟨.failed .inputExhausted, .noChar (hresult.trans hfail), [], h.served rfl ?_ (by simp)⟩
    rw [hinput', hsame]
    simpa [Answer.used, Reader.marks] using h.divided

theorem takeDigit (h : Separated text answers read t) (hs : OnConsole.Unlimited t) :
    ∃ answer, t.Answers .digit answer (Channel.takeDigit t).state ∧
      ∃ more, Separated text (answers ++ [answer]) (read ++ Reader.program.marks more)
        (Channel.takeDigit t).state := by
  rcases t.console.input.search_cases with ⟨dropped, c, d, i, hsearch, hothers, hdigit, _⟩ |
    ⟨hsearch, _⟩ | ⟨_, _, hsearch, _⟩
  · obtain ⟨hc, rfl⟩ := Text.isDigit_of_digit? hdigit
    simp only [Text.digit?_eq_none_iff] at hothers
    obtain ⟨hresult, hinput, _⟩ := OnConsole.takeDigit_eq hs hsearch
    obtain ⟨⟨more, hdivided⟩, _⟩ := h.divided.search hsearch
    have hinput' : (Channel.takeDigit t).state.console.input = i := hinput
    refine ⟨.digit dropped c, .digit hresult hsearch hothers hc, more,
      h.served rfl ?_ (by simp)⟩
    rw [hinput']
    exact hdivided
  all_goals
    obtain ⟨hresult, hinput, _⟩ := OnConsole.takeDigit_eq hs hsearch
    obtain ⟨⟨more, hdivided⟩, hfault⟩ := h.divided.search hsearch
    refine ⟨.failed _, .noDigit hresult, more, h.served rfl ?_ ?_⟩
    · -- All that was taken goes back to the queue, so nothing was used.
      have hback := hdivided.giveBackAll
      rw [show (Channel.takeDigit t).state.console.input = _ from hinput]
      simpa [Answer.used, Input.restored] using hback
    · rintro fault hfailed
      injection hfailed with hfailed
      exact hfailed ▸ hfault _ rfl

theorem command (h : Separated text answers read t) :
    ∃ answer, t.Answers .command answer t.command.state ∧
      ∃ read', Separated text (answers ++ [answer]) read' t.command.state := by
  have hfaults (line? : Option String) :
      ∀ fault, .failed fault ∈ answers ++ [.line line?] → fault = .inputExhausted := by
    simpa using h.faults
  obtain ⟨k, hcommands, hend⟩ := h.commands
  have hresult : t.command.result = t.console.input.command.result := rfl
  have hinput : t.command.state.console.input = t.console.input.command.state := rfl
  rcases h.divided.command with ⟨hnil, hcommand⟩ | ⟨line, i, hcommand, hunread, hdivided⟩
  · rw [hcommand] at hresult hinput
    refine ⟨.line none, .command hresult, read, ?_, ⟨k + 1, ?_, ?_⟩, hfaults none⟩
    · rw [hinput]
      simpa [Answer.used] using h.divided
    · simp [hcommands, Answer.command?, List.replicate_succ']
    · intro _
      rw [hinput]
      exact hnil
  · rw [hcommand] at hresult hinput
    have hk : k = 0 := by
      by_contra hk
      exact hunread (hend hk)
    subst hk
    refine ⟨.line (some (String.ofList (Text.commandLine line))), .command hresult,
      read ++ Reader.user.marks [line], ?_, ⟨0, ?_, by simp⟩, hfaults _⟩
    · rw [hinput]
      simpa [Answer.used] using hdivided
    · simpa [Answer.command?, Text.commandLine] using hcommands

/-- Every query is answered, and the account goes on. -/
theorem exists_answer (h : Separated text answers read t) (hs : OnConsole.Unlimited t)
    (query : Query) :
    ∃ answer t', t.Answers query answer t' ∧ OnConsole.Unlimited t' ∧
      ∃ read', Separated text (answers ++ [answer]) read' t' := by
  cases query with
  | char =>
    obtain ⟨answer, hanswer, more, hafter⟩ := h.takeChar hs
    exact ⟨answer, _, hanswer, hs.after .takeChar, _, hafter⟩
  | digit =>
    obtain ⟨answer, hanswer, more, hafter⟩ := h.takeDigit hs
    exact ⟨answer, _, hanswer, hs.after .takeDigit, _, hafter⟩
  | command =>
    obtain ⟨answer, hanswer, read', hafter⟩ := h.command
    exact ⟨answer, _, hanswer, hs, read', hafter⟩

end Separated

/-- A query has one answer. -/
theorem Answers.unique {t t' t'' : Transcript} {query : Query} {answer answer' : Answer}
    (h : t.Answers query answer t') (h' : t.Answers query answer' t'') :
    answer = answer' ∧ t' = t'' := by
  cases h with
  | char taken =>
    cases h' with
    | char taken' =>
      cases taken.symm.trans taken'
      exact ⟨rfl, rfl⟩
    | noChar failed => cases taken.symm.trans failed
  | noChar failed =>
    cases h' with
    | char taken => cases failed.symm.trans taken
    | noChar failed' =>
      cases failed.symm.trans failed'
      exact ⟨rfl, rfl⟩
  | digit taken search _ _ =>
    cases h' with
    | digit taken' search' _ _ =>
      obtain ⟨hdropped, hlast⟩ := List.append_inj' (search.unique search').1 rfl
      cases hdropped
      cases hlast
      exact ⟨rfl, rfl⟩
    | noDigit failed => cases taken.symm.trans failed
  | noDigit failed =>
    cases h' with
    | digit taken _ _ _ => cases failed.symm.trans taken
    | noDigit failed' =>
      cases failed.symm.trans failed'
      exact ⟨rfl, rfl⟩
  | command read =>
    cases h' with
    | command read' =>
      cases read.symm.trans read'
      exact ⟨rfl, rfl⟩

theorem exists_converses {text : List Char} {before : List Answer}
    {read : List (Reader × List Char)} {t : Transcript} (h : Separated text before read t)
    (hs : OnConsole.Unlimited t) (queries : List Query) :
    ∃ answers t', t.Converses queries answers t' := by
  induction queries generalizing before read t with
  | nil => exact ⟨[], t, .nil⟩
  | cons query queries ih =>
    obtain ⟨answer, t', hanswer, hs', read', hafter⟩ := h.exists_answer hs query
    obtain ⟨answers, t'', hrest⟩ := ih hafter hs'
    exact ⟨answer :: answers, t'', .cons hanswer hrest⟩

theorem Converses.separated {text : List Char} {before answers : List Answer}
    {read : List (Reader × List Char)} {t t' : Transcript} {queries : List Query}
    (hc : t.Converses queries answers t') (h : Separated text before read t)
    (hs : OnConsole.Unlimited t) : ∃ read', Separated text (before ++ answers) read' t' := by
  induction hc generalizing before read with
  | nil => exact ⟨read, by simpa using h⟩
  | @cons t t' t'' query answer queries answers first _ ih =>
    obtain ⟨answer', u, hanswer, hs', read', hafter⟩ := h.exists_answer hs query
    obtain ⟨rfl, rfl⟩ := hanswer.unique first
    obtain ⟨read'', hall⟩ := ih hafter hs'
    exact ⟨read'', by simpa using hall⟩

theorem separated_ofBytes {text : List Char} {t : Transcript}
    (hinput : t.console.input = .ofBytes (Text.encode (String.ofList text))) :
    Separated text [] [] t := by
  refine ⟨?_, ⟨0, rfl, by simp⟩, by simp⟩
  rw [hinput]
  exact .ofBytes text

/-- **Commands and input do not mix.** Whatever is asked of a transcript over a source of text, and
in whatever order, it is answered, and each line goes whole to the reader that had it read. -/
theorem converses_separated (text : List Char) (t : Transcript)
    (hinput : t.console.input = .ofBytes (Text.encode (String.ofList text)))
    (hs : t.console.sink.capacity = none) (queries : List Query) :
    (∃ answers t', t.Converses queries answers t') ∧
      ∀ answers t', t.Converses queries answers t' → ∃ read, Separated text answers read t' := by
  have hstart := separated_ofBytes hinput
  refine ⟨exists_converses hstart hs queries, ?_⟩
  intro answers t' hc
  exact hc.separated hstart hs

/-- A command, a line for the program, and another command. -/
def mixed : List Char := "next\r\nxz5y\nquit\n".toList

/-- A transcript over a source with these lines. -/
def interrupted : Transcript :=
  { console := { input := .ofBytes (Text.encode (String.ofList mixed)) } }

/-- The second command comes in between two characters of the program's line. Then the program takes
the digit of its line, and another one is not there: the characters behind the first stay. -/
theorem converses_separated_interrupted :
    let queries : List Query := [.command, .char, .command, .digit, .digit, .command]
    let answers : List Answer := [.line (some "next"), .char 'x', .line (some "quit"),
      .digit ['z'] '5', .failed .inputExhausted, .line none]
    interrupted.console.input = .ofBytes (Text.encode (String.ofList mixed)) ∧
      interrupted.console.sink.capacity = none ∧
      ∃ t, interrupted.Converses queries answers t ∧ t.console.input = ⟨['y', '\n'], []⟩ ∧
        ∃ read, Separated mixed answers read t := by
  intro queries answers
  have hs : interrupted.console.sink.capacity = none := rfl
  have htalk := (converses_separated mixed interrupted rfl hs queries).2
  let u := (Channel.takeChar interrupted.command.state).state.command.state
  have hdigit : Input.Search u.console.input ['z', '5'] (.ok 5) ⟨['y', '\n'], []⟩ :=
    .passed rfl rfl (.found rfl rfl)
  obtain ⟨hfive, hleft, hs'⟩ := OnConsole.takeDigit_eq (p := u) rfl hdigit
  let v := (Channel.takeDigit u).state
  -- The next search finds the queue and then the end of the source.
  have hnone : Input.Search v.console.input ['y', '\n'] (.error .inputExhausted) ⟨[], []⟩ := by
    rw [show v.console.input = ⟨['y', '\n'], []⟩ from hleft]
    exact .passed rfl rfl (.passed rfl rfl (.failed rfl))
  obtain ⟨hfail, hback, -⟩ := OnConsole.takeDigit_eq (p := v) hs' hnone
  have hqueue : (Channel.takeDigit v).state.console.input = ⟨['y', '\n'], []⟩ := hback
  have hlast : (Channel.takeDigit v).state.command.result = .ok none := by
    show (Channel.takeDigit v).state.console.input.command.result = _
    rw [hqueue]
    rfl
  have hc : interrupted.Converses queries answers (Channel.takeDigit v).state.command.state :=
    .cons (.command rfl) (.cons (.char rfl) (.cons (.command rfl)
      (.cons (.digit hfive hdigit (by simp) rfl) (.cons (.noDigit hfail)
        (.cons (.command hlast) .nil)))))
  refine ⟨rfl, hs, _, hc, ?_, htalk _ _ hc⟩
  show (Channel.takeDigit v).state.console.input.command.state = _
  rw [hqueue]
  rfl

end Transcript

end Retrace
