import Retrace.CommandLine.Launch
import Retrace.Proofs.Inputless

/-!
# Sessions that only step

A session whose user only steps comes to the same end as a plain run, if the program does not read:
one step for each line, as far as the limit allows. The two loops ask in different places whether
there is more to do. A session looks at the machine and at the limit before each line, and it ends
with the lines; a run looks at its limit alone and finds out by a step that the machine has stopped.

A session in the middle of its lines is described by what is left (`Session.Fits`): the plain
machine that it is akin to, the number of steps up to the limit, and the text of the lines that were
not yet read. A turn takes one line from the text and one step (`Fits.turn`), and the rest is
induction.
-/

namespace Retrace

open Event (warnings warnings_append warnings_nil warnings_finished)

/-! ### Command lines -/

namespace Text

/-- A blank at the end does not matter for a trimmed text. -/
theorem trim_append_blank {c : Char} (hc : isBlank c = true) (text : List Char) :
    trim (text ++ [c]) = trim text := by
  rw [trim, trim, List.dropWhile_append]
  split
  · next hempty =>
    rw [List.isEmpty_iff.1 hempty, List.dropWhile_cons_of_pos hc]
    rfl
  · rw [List.reverse_append, List.reverse_singleton, List.singleton_append,
      List.dropWhile_cons_of_pos hc]

/-- Line endings are blank, so a command that is trimmed anyway does not depend on them. -/
theorem trim_dropFinal {c : Char} (hc : isBlank c = true) (text : List Char) :
    trim (dropFinal c text) = trim text := by
  rw [dropFinal]
  split
  · next hlast =>
    obtain ⟨front, rfl⟩ := List.getLast?_eq_some_iff.1 hlast
    rw [List.dropLast_concat, trim_append_blank hc]
  · rfl

@[simp] theorem trim_commandLine (line : List Char) : trim (commandLine line) = trim line := by
  have hreturn : isBlank '\r' = true := by decide
  have hfeed : isBlank '\n' = true := by decide
  rw [commandLine, trim_dropFinal hreturn, trim_dropFinal hfeed]

theorem length_splitAfter_le {α : Type} (ends : α → Bool) (l : List α) :
    (splitAfter ends l).length ≤ l.length := by
  induction l with
  | nil => exact Nat.le_refl 0
  | cons a rest ih =>
    rw [splitAfter]
    split
    · simpa using ih
    · split
      · simp
      · next h =>
        rw [h] at ih
        simpa using Nat.le_succ_of_le ih

/-- There are no more lines than bytes. -/
theorem length_lines_le (text : List Char) :
    (lines text).length ≤ (encode (String.ofList text)).length := by
  refine Nat.le_trans (length_splitAfter_le _ text) ?_
  rw [encode_ofList]
  induction text with
  | nil => exact Nat.le_refl 0
  | cons c rest ih =>
    have hc := List.length_pos_iff.2 (String.utf8EncodeChar_ne_nil (c := c))
    rw [List.flatMap_cons, List.length_append, List.length_cons]
    omega

end Text

/-- The user only steps: no line quits, and none steps back. -/
def Session.OnlySteps (text : List Char) : Prop :=
  ∀ line ∈ Text.lines text, Text.trim line ≠ ['q'] ∧ Text.trim line ≠ ['b']

instance (text : List Char) : Decidable (Session.OnlySteps text) :=
  List.decidableBAll (fun line => Text.trim line ≠ ['q'] ∧ Text.trim line ≠ ['b']) (Text.lines text)

/-- Any line that does not quit and does not go back asks for a step. -/
theorem Command.ofLine_commandLine {line : List Char} (hquit : Text.trim line ≠ ['q'])
    (hback : Text.trim line ≠ ['b']) :
    Command.ofLine (some (String.ofList (Text.commandLine line))) = .forward := by
  simp only [ofLine, String.toList_ofList, Text.trim_commandLine]

/-! ### Runs, step by step -/

namespace Machine

variable {π η ρ : Type} [Channel π] [EdgeGuard η] [DirectionSource ρ]

theorem stepsFrom_succ (n : Nat) (m : Machine π η ρ) :
    stepsFrom 0 [] (n + 1) m = m.step.andThen fun outcome m =>
      if outcome = .executed then (stepsFrom 0 [] n m).map fun (k, last) => (1 + k, last)
      else .done (0, outcome) m := by
  rw [stepsFrom]
  obtain ⟨result, m', events⟩ := m.step
  rcases result with fault | outcome
  · simp [Reply.andThen, List.reverseAux_eq]
  · cases outcome with
    | executed =>
      simp only [stepsFrom_eq (0 + 1), Reply.andThen, Reply.map, if_true]
      simp [List.reverseAux_eq]
    | halted | stalled => simp [Reply.andThen, Reply.done, List.reverseAux_eq]

/-- Nothing comes of running a machine that has stopped. -/
theorem stepsFrom_of_stopped {m : Machine π η ρ} (h : m.state.running = false) (n : Nat) :
    ∃ outcome, stepsFrom 0 [] n m = .done (0, outcome) m := by
  cases n with
  | zero => exact ⟨.executed, rfl⟩
  | succ n =>
    refine ⟨.halted, ?_⟩
    have hstep : m.step = .done .halted m := by simp [step, h]
    rw [stepsFrom_succ, hstep]
    rfl

end Machine

/-! ### Steps within the limit -/

namespace Session

/-- The number of steps that `k` lines make at most, if there are `room` more up to the limit. -/
def reach (room : Option Nat) (k : Nat) : Nat := room.elim k (min k)

@[simp] theorem reach_zero (room : Option Nat) : reach room 0 = 0 := by
  cases room with
  | none => rfl
  | some n => exact Nat.zero_min n

@[simp] theorem reach_no_room (k : Nat) : reach (some 0) k = 0 := Nat.min_zero k

theorem reach_succ {room : Option Nat} (h : room ≠ some 0) (k : Nat) :
    reach room (k + 1) = reach (room.map (· - 1)) k + 1 := by
  cases room with
  | none => rfl
  | some n =>
    have hn : n ≠ 0 := fun h0 => h (congrArg some h0)
    simp only [reach, Option.elim_some, Option.map_some]
    omega

variable {ρ : Type}

/-- The session is akin to a plain machine, with `room` more steps up to the limit and the lines of
`text` to come. It can always write. -/
structure Fits (s : Session ρ) (plain : Machine Terminal EdgePolicy ρ) (room : Option Nat)
    (text : List Char) : Prop where
  akin : plain.Akin s.machine
  room : s.limit.map (· - s.steps) = room
  unlimited : s.machine.surroundings.channel.console.sink.capacity = none
  unread : s.machine.surroundings.channel.console.input.unread =
    Text.encode (String.ofList text)

namespace Fits

variable {s : Session ρ} {plain : Machine Terminal EdgePolicy ρ} {room : Option Nat}
  {text : List Char}

theorem active_iff (h : s.Fits plain room text) :
    s.active = true ↔ plain.state.running = true ∧ room ≠ some 0 := by
  obtain ⟨machine, steps, limit⟩ := s
  obtain ⟨hakin, rfl, -, -⟩ := h
  have hrunning : machine.state.running = plain.state.running :=
    congrArg State.running hakin.state
  cases limit with
  | none => simp [active, hrunning]
  | some n => simp [active, hrunning, Nat.sub_eq_zero_iff_le]

theorem tell (h : s.Fits plain room text) (shown : String) :
    ∃ s', s.tell shown = .done () s' ∧ s'.Fits plain room text := by
  obtain ⟨⟨state, ⟨⟨⟨input, sink⟩, output⟩, guard, dice⟩, division, history⟩, steps, limit⟩ := s
  obtain ⟨hakin, hroom, hunlimited, hunread⟩ := h
  refine ⟨⟨⟨state, ⟨⟨⟨input, sink.append shown⟩, output⟩, guard, dice⟩, division, history⟩, steps,
    limit⟩, ?_, ⟨⟨hakin.state, hakin.division, ?_⟩, hroom, hunlimited, hunread⟩⟩
  · simp only [Session.tell, atChannel, Transcript.display, Console.write,
      Sink.write_of_unlimited hunlimited]
    rfl
  · exact ⟨hakin.surroundings.guard, hakin.surroundings.dice, hakin.surroundings.unlimited⟩

theorem readCommand (h : s.Fits plain room text) :
    (text = [] ∧ s.readCommand = .done .quit s) ∨
      ∃ line rest s', Text.lines text = line :: Text.lines rest ∧
        s.readCommand = .done (.ofLine (some (String.ofList (Text.commandLine line)))) s' ∧
        s'.Fits plain room rest := by
  obtain ⟨⟨state, ⟨⟨⟨input, sink⟩, output⟩, guard, dice⟩, division, history⟩, steps, limit⟩ := s
  obtain ⟨hakin, hroom, hunlimited, hunread⟩ := h
  simp only [Session.readCommand, atChannel, Transcript.command, Input.command]
  rcases Input.readLine_cases hunread with ⟨hnil, hline⟩ | ⟨line, rest, -, hlines, hline⟩
  · rw [hline]
    exact .inl ⟨hnil, rfl⟩
  · rw [hline]
    refine .inr ⟨line, rest, _, hlines, rfl, ⟨hakin.state, hakin.division, ?_⟩, hroom, hunlimited,
      rfl⟩
    exact ⟨hakin.surroundings.guard, hakin.surroundings.dice, hakin.surroundings.unlimited⟩

end Fits

/-! ### One line, one step -/

/-- A line is answered as a plain step is: the session goes on iff a cell was executed, and then
with less room and the lines of `rest`. -/
structure Follows (r : Reply (Machine Terminal EdgePolicy ρ) Outcome) (r' : Reply (Session ρ) Bool)
    (room : Option Nat) (rest : List Char) : Prop where
  result : r'.result = r.result.map (· == .executed)
  akin : r.state.Akin r'.state.machine
  warnings : warnings r'.events = warnings r.events
  fits : r.result = .ok .executed → r'.state.Fits r.state (room.map (· - 1)) rest

variable [DirectionSource ρ] {s : Session ρ} {plain : Machine Terminal EdgePolicy ρ}
  {room : Option Nat} {text : List Char}

theorem Fits.goForward (h : s.Fits plain room text) (hasks : ¬ plain.Asks) :
    Follows plain.step s.goForward room text := by
  obtain ⟨machine, steps, limit⟩ := s
  obtain ⟨hakin, hroom, hunlimited, hunread⟩ := h
  obtain ⟨hresult, hakin', hwarnings, hconsole⟩ := hakin.step hasks
  simp only at hroom hunlimited hunread hresult hakin' hwarnings hconsole
  rw [← hconsole] at hunlimited hunread
  simp only [Session.goForward]
  generalize machine.step = r' at *
  generalize plain.step = r at *
  obtain ⟨result', machine', events'⟩ := r'
  obtain ⟨result, plain', events⟩ := r
  subst hresult
  rcases result' with fault | outcome
  · refine ⟨rfl, hakin', hwarnings, ?_⟩
    intro hexecuted
    cases hexecuted
  · cases outcome with
    | executed =>
      refine ⟨rfl, hakin', ?_, ?_⟩
      · simpa [Reply.andThen, Reply.within] using hwarnings
      · intro _
        refine ⟨hakin', ?_, hunlimited, hunread⟩
        show limit.map (· - (steps + 1)) = room.map (· - 1)
        rw [← hroom, Option.map_map]
        rfl
    | halted | stalled =>
      refine ⟨rfl, hakin', ?_, ?_⟩
      · simpa [Reply.andThen, Reply.within] using hwarnings
      · intro hexecuted
        cases hexecuted

omit [DirectionSource ρ] in
/-- After a step a line feed is shown. -/
theorem Follows.spaced {r : Reply (Machine Terminal EdgePolicy ρ) Outcome}
    {r' : Reply (Session ρ) Bool} (h : Follows r r' room text) :
    Follows r (r'.andThen fun goesOn s =>
      if goesOn then (s.tell "\n").map fun () => true else .done false s) room text := by
  obtain ⟨result', s', events'⟩ := r'
  obtain ⟨hresult, hakin, hwarnings, hfits⟩ := h
  simp only at hresult hakin hwarnings hfits
  rcases result' with fault | _ | _
  · exact ⟨hresult, hakin, hwarnings, hfits⟩
  · refine ⟨hresult, hakin, ?_, hfits⟩
    simpa [Reply.andThen] using hwarnings
  · have hexecuted : r.result = .ok .executed := by
      rcases hr : r.result with fault | outcome
      · rw [hr] at hresult
        cases hresult
      · rw [hr] at hresult
        simpa [Except.map] using hresult.symm
    obtain ⟨s'', htell, hfits'⟩ := (hfits hexecuted).tell "\n"
    simp only [Reply.andThen, if_true, htell]
    refine ⟨hresult, hfits'.akin, ?_, fun _ => hfits'⟩
    simpa [Reply.map, Reply.done] using hwarnings

/-- **A turn** takes the next line and makes a step, or ends the session with its lines. -/
theorem Fits.turn (h : s.Fits plain room text) (honly : OnlySteps text) :
    (text = [] ∧ ∃ s', s.turn = .done false s' ∧ s'.Fits plain room []) ∨
      ∃ line rest, Text.lines text = line :: Text.lines rest ∧
        (¬ plain.Asks → Follows plain.step s.turn room rest) := by
  obtain ⟨s₁, htell, h₁⟩ := h.tell s.invitation
  rw [Session.turn, htell, Reply.done_andThen]
  rcases h₁.readCommand with ⟨rfl, hread⟩ | ⟨line, rest, s₂, hlines, hread, h₂⟩
  · refine .inl ⟨rfl, s₁, ?_, h₁⟩
    rw [hread]
    rfl
  · have hline : line ∈ Text.lines text := by
      rw [hlines]
      exact List.mem_cons_self
    have hforward := Command.ofLine_commandLine (honly line hline).1 (honly line hline).2
    refine .inr ⟨line, rest, hlines, ?_⟩
    intro hasks
    rw [hread, hforward, Reply.done_andThen]
    exact (h₂.goForward hasks).spaced

/-! ### All lines -/

/-- A session ends like a plain run; `f` gives its result for the one of the run. -/
structure EndsLike {α β : Type} (f : α → β) (r : Reply (Machine Terminal EdgePolicy ρ) α)
    (r' : Reply (Session ρ) β) : Prop where
  result : r'.result = r.result.map f
  akin : r.state.Akin r'.state.machine
  warnings : warnings r'.events = warnings r.events

omit [DirectionSource ρ] in
/-- What comes after a step comes to the same end if the session goes on like the run. -/
theorem Follows.andThen {r : Reply (Machine Terminal EdgePolicy ρ) Outcome}
    {r' : Reply (Session ρ) Bool} (h : Follows r r' room text)
    {run : Machine Terminal EdgePolicy ρ → Reply (Machine Terminal EdgePolicy ρ) (Nat × Outcome)}
    {turns : Session ρ → Reply (Session ρ) Unit}
    (hnext : r.result = .ok .executed → EndsLike (fun _ => ()) (run r.state) (turns r'.state)) :
    EndsLike (fun _ => ())
      (r.andThen fun outcome m =>
        if outcome = .executed then (run m).map fun (k, last) => (1 + k, last)
        else .done (0, outcome) m)
      (r'.andThen fun goesOn s => if goesOn then turns s else .done () s) := by
  obtain ⟨result, m, events⟩ := r
  obtain ⟨result', s', events'⟩ := r'
  obtain ⟨hresult, hakin, hwarnings, -⟩ := h
  simp only at hresult hakin hwarnings hnext
  subst hresult
  rcases result with fault | outcome
  · exact ⟨rfl, hakin, hwarnings⟩
  · cases outcome with
    | executed =>
      obtain ⟨hresult, hakin, hmore⟩ := hnext rfl
      refine ⟨?_, hakin, ?_⟩
      · show (turns s').result = ((run m).result.map fun (k, last) => (1 + k, last)).map fun _ => ()
        rw [hresult]
        cases (run m).result with
        | error fault => rfl
        | ok ended => rfl
      · show Event.warnings (events' ++ (turns s').events) =
          Event.warnings (events ++ (run m).events)
        rw [warnings_append, warnings_append, hwarnings, hmore]
    | halted | stalled =>
      refine ⟨rfl, hakin, ?_⟩
      simpa [Reply.andThen, Except.map] using hwarnings

/-- **Turns** come to the end of a run that makes as many steps as there are lines and room. -/
theorem Fits.turns {n : Nat} (h : s.Fits plain room text) (honly : OnlySteps text)
    (hn : (Text.lines text).length < n)
    (hasks : ∀ i < reach room (Text.lines text).length, ¬ (plain.stepped i).Asks) :
    EndsLike (fun _ => ())
      (Machine.stepsFrom 0 [] (reach room (Text.lines text).length) plain) (s.turns n) := by
  induction n generalizing s plain room text with
  | zero => exact absurd hn (Nat.not_lt_zero _)
  | succ n ih =>
    rw [Session.turns]
    by_cases hactive : s.active = true
    · obtain ⟨hrunning, hroom⟩ := h.active_iff.1 hactive
      rw [if_pos hactive]
      rcases h.turn honly with ⟨rfl, s', hturn, h'⟩ | ⟨line, rest, hlines, hturn⟩
      · rw [hturn, show Text.lines [] = [] from rfl, List.length_nil, reach_zero]
        exact ⟨rfl, h'.akin, rfl⟩
      · -- The line is used up and there is room for its step, so the run makes one too.
        rw [hlines, List.length_cons, reach_succ hroom] at hasks
        rw [hlines, List.length_cons] at hn
        rw [hlines, List.length_cons, reach_succ hroom, Machine.stepsFrom_succ]
        have hfollows := hturn (hasks 0 (Nat.succ_pos _))
        refine hfollows.andThen ?_
        intro hexecuted
        refine ih (hfollows.fits hexecuted) ?_ (Nat.lt_of_succ_lt_succ hn) ?_
        · intro l hl
          exact honly l (hlines ▸ List.mem_cons_of_mem line hl)
        · intro i hi
          rw [← Machine.stepped_succ]
          exact hasks (i + 1) (Nat.succ_lt_succ hi)
    · -- The machine has stopped, which a run finds out by its next step, or the run has no steps.
      rw [if_neg hactive]
      cases hrunning : plain.state.running with
      | false =>
        obtain ⟨outcome, hsteps⟩ := Machine.stepsFrom_of_stopped hrunning
          (reach room (Text.lines text).length)
        rw [hsteps]
        exact ⟨rfl, h.akin, rfl⟩
      | true =>
        have hroom : room = some 0 := by
          by_contra hne
          exact hactive (h.active_iff.2 ⟨hrunning, hne⟩)
        rw [hroom, reach_no_room]
        exact ⟨rfl, h.akin, rfl⟩

/-- **A session** comes to the end of a run, with its exit code. -/
theorem Fits.run (h : s.Fits plain room text) (honly : OnlySteps text)
    (hasks : ∀ i < reach room (Text.lines text).length, ¬ (plain.stepped i).Asks) :
    EndsLike Summary.exitCode (plain.runFor (reach room (Text.lines text).length)) s.run := by
  have hbound : (Text.lines text).length <
      s.machine.surroundings.channel.console.input.unread.length + 1 := by
    rw [h.unread]
    exact Nat.lt_succ_of_le (Text.length_lines_le text)
  obtain ⟨hresult, hakin, hwarnings⟩ := h.turns honly hbound hasks
  rw [Session.run, Machine.runFor]
  generalize s.turns _ = r' at *
  generalize Machine.stepsFrom 0 [] _ plain = r at *
  obtain ⟨result, m, events⟩ := r
  obtain ⟨result', s', events'⟩ := r'
  simp only at hresult hakin hwarnings
  subst hresult
  rcases result with fault | ended
  · exact ⟨rfl, hakin, hwarnings⟩
  · refine ⟨?_, hakin, ?_⟩
    · show Except.ok s'.machine.state.stack.exitCode = Except.ok m.state.stack.exitCode
      rw [hakin.state]
    · show Event.warnings (events' ++ []) = Event.warnings (events ++ [.finished ended.1 ended.2])
      rw [warnings_append, warnings_append, hwarnings, warnings_nil, warnings_finished]

end Session

/-! ### Launches -/

namespace Launch

variable {ρ : Type}

theorem fits_watched (options : Options) (grid : Grid) (dice : ρ) (text : List Char)
    (input : List UInt8) :
    (watched options grid dice (Text.encode (String.ofList text))).Fits (plain grid dice input)
      options.stepLimit text := by
  refine ⟨⟨rfl, rfl, rfl, rfl, rfl⟩, ?_, rfl, rfl⟩
  show options.stepLimit.map (· - 0) = options.stepLimit
  simp

theorem report_congr {result : Except Fault Int32} {events events' : List Event}
    (h : warnings events' = warnings events) (output output' : ByteArray) :
    (report output' events' result).status = (report output events result).status ∧
      warnings (report output' events' result).events =
        warnings (report output events result).events := by
  cases result with
  | ok code => exact ⟨rfl, h⟩
  | error fault =>
    refine ⟨rfl, ?_⟩
    show warnings (events' ++ [.failed fault]) = warnings (events ++ [.failed fault])
    rw [warnings_append, warnings_append, h]

variable [DirectionSource ρ]

/-- **A session that only steps** ends as a plain run does that makes a step for each line, within
the limit, if none of these steps reads. The states and the dice are the same, and so is what
becomes of the launch: the exit code or the fault, the status, the warnings and the errors. Neither
the history of the session nor the input of the plain run matters. -/
theorem watched_endsLike_plain (fuel : Nat) (options : Options) (grid : Grid) (dice : ρ)
    (text : List Char) (input : List UInt8) (honly : Session.OnlySteps text)
    (hasks : ∀ i < Session.reach options.stepLimit (Text.lines text).length,
      ¬ ((plain grid dice input).stepped i).Asks) :
    let limit := Session.reach options.stepLimit (Text.lines text).length
    let bytes := Text.encode (String.ofList text)
    let ended := (plain grid dice input).runFor limit
    let session := (watched options grid dice bytes).run
    session.state.machine.state = ended.state.state ∧
      session.state.machine.surroundings.dice = ended.state.surroundings.dice ∧
      session.result = ended.result.map Summary.exitCode ∧
      warnings session.events = warnings ended.events ∧
      ∃ left, runPlain fuel { options with stepLimit := some limit } grid dice input = some left ∧
        (runWatched options grid dice bytes).status = left.status ∧
        warnings (runWatched options grid dice bytes).events = warnings left.events := by
  intro limit bytes ended session
  obtain ⟨hresult, hakin, hwarnings⟩ :=
    (fits_watched options grid dice text input).run honly hasks
  refine ⟨hakin.state, hakin.surroundings.dice, hresult, hwarnings, _, rfl, ?_⟩
  rw [runWatched, hresult]
  exact report_congr hwarnings _ _

/-- A program with an ampersand that is only text. It runs past the right edge. -/
def quoting : Grid := ⟨#[#['"', '&', '"', '.', '3']], 5, 1, 16⟩

/-- Seven lines, of which the last has no line feed. -/
def nudges : List Char := "\nn\n b q\r\n\n\t\nQ\nback".toList

/-- The sixth step stalls with a warning, so that neither the seventh line nor the limit counts. -/
theorem watched_endsLike_plain_quoting :
    Session.OnlySteps nudges ∧
      Session.reach (some 9) (Text.lines nudges).length = 7 ∧
      (∀ i < 7, ¬ ((plain quoting (default : Xoshiro) []).stepped i).Asks) ∧
      (watched { file := "", history := 1, stepLimit := some 9 } quoting (default : Xoshiro)
        (Text.encode (String.ofList nudges))).run.result = .ok 3 ∧
      warnings (runWatched { file := "", history := 1, stepLimit := some 9 } quoting
        (default : Xoshiro) (Text.encode (String.ofList nudges))).events =
          [.crossed .read .right ⟨5, 0⟩] := by
  have honly : Session.OnlySteps nudges := by decide
  have hreach : Session.reach (some 9) (Text.lines nudges).length = 7 := by decide
  have hasks : ∀ i < 7, ¬ ((plain quoting (default : Xoshiro) []).stepped i).Asks := by decide
  obtain ⟨-, -, hresult, -, left, hleft, -, hwarnings⟩ := watched_endsLike_plain 0
    { file := "", history := 1, stepLimit := some 9 } quoting (default : Xoshiro) nudges []
    honly (hreach ▸ hasks)
  refine ⟨honly, hreach, hasks, ?_, ?_⟩
  · rw [hresult, hreach]
    rfl
  · cases hleft
    rw [hwarnings, hreach]
    rfl

end Launch

end Retrace
