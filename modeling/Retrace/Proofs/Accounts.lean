import Retrace.CommandLine.Launch
import Retrace.Proofs.Evictions
import Retrace.Proofs.LineBuffering

/-!
# The accounts of a session

A session counts its steps, and its history keeps the groups of those that can be undone. Nothing
ties the two together but the turns themselves: a step adds to both, going back takes from both, and
a history that is full forgets. The books are balanced nevertheless, whenever the session asks
whether another command is wanted (`Launch.accounted_of_reaches`): the count is the number of steps
that were executed and not undone, and it is made up of the steps that can still be undone and the
steps that were forgotten. So a user who wants to go back is told that there is no history exactly
when nothing counts, or when all that counts was forgotten.

What has happened up to a turn is written down in a `Tally`, from the answers of the machine and
from the events of the turn, without looking at the count or at the history.
-/

namespace Retrace

open Event (forgotten)

/-! ### What a step asks of the channel -/

namespace Machine

variable {π η ρ : Type} [Channel π] [EdgeGuard η] [DirectionSource ρ]

theorem channel_resolve (division : DivisionPolicy) (s : State) (i : Instruction)
    (around : Surroundings π η ρ) :
    ∃ requests, (resolve division s i around).state.channel =
      Channel.afterAll around.channel requests := by
  cases i with
  | arith op =>
    refine ⟨[], ?_⟩
    simp only [resolve]
    split <;> rfl
  | printInt => exact ⟨[.emit (" " ++ (s.stack.peek 0).repr ++ " ")], rfl⟩
  | printChar => exact ⟨[.emit (charOfCode (s.stack.peek 0)).toString], rfl⟩
  | readInt => exact ⟨[.takeDigit], rfl⟩
  | readChar => exact ⟨[.takeChar], rfl⟩
  | _ => exact ⟨[], rfl⟩

theorem channel_consulted (m : Machine π η ρ) (c : Char) :
    ∃ requests, (m.consulted c).channel = Channel.afterAll m.surroundings.channel requests := by
  unfold consulted interpret
  cases m.state.mode with
  | text => exact ⟨[], rfl⟩
  | normal => exact channel_resolve _ _ _ _

/-- A step does nothing to the channel but ask it something. -/
theorem channel_step (m : Machine π η ρ) :
    ∃ requests, m.step.state.surroundings.channel =
      Channel.afterAll m.surroundings.channel requests := by
  rcases m.step_inversion with ⟨c, deed, hexec⟩ | ⟨-, around, hleft, hstep⟩
  · rw [hexec.step_eq.2]
    exact m.channel_consulted c
  · rw [hstep]
    cases hleft with
    | stopped => exact ⟨[], rfl⟩
    | unfetched => exact ⟨[], rfl⟩
    | refused => exact m.channel_consulted _

end Machine

theorem Sink.append_empty (s : Sink) : s.append "" = s := by
  show { s with written := s.written ++ ByteArray.empty } = s
  rw [ByteArray.append_empty]

theorem Sink.append_ne_self {text : String} (h : text.toUTF8.size ≠ 0) (s : Sink) :
    s.append text ≠ s := by
  intro heq
  have hsize := congrArg (fun s : Sink => s.written.size) heq
  simp only [append, ByteArray.size_append] at hsize
  omega

/-! ### Turns -/

namespace Session

variable {ρ : Type}

def display (s : Session ρ) : Sink := s.machine.surroundings.channel.console.sink

/-- There is room for whatever is to be shown. -/
def Unlimited (s : Session ρ) : Prop := s.display.capacity = none

def withChannel (channel : Transcript) (s : Session ρ) : Session ρ :=
  { s with machine :=
    { s.machine with surroundings := { s.machine.surroundings with channel } } }

/-- Shows the machine and reads a command, which is the first half of a turn. -/
def asked (s : Session ρ) : Reply (Session ρ) Command :=
  (s.tell s.invitation).andThen fun () s => s.readCommand

/-- Whatever is told is shown, and nothing else happens. -/
theorem tell_spec {s : Session ρ} (hs : s.Unlimited) (text : String) :
    ∃ channel, s.tell text = .done () (s.withChannel channel) ∧
      channel.console.sink = s.display.append text := by
  obtain ⟨⟨state, ⟨⟨⟨input, sink⟩, output⟩, guard, dice⟩, division, history⟩, steps, limit⟩ := s
  have hroom : sink.capacity = none := hs
  refine ⟨⟨⟨input, sink.append text⟩, output⟩, ?_, rfl⟩
  simp only [tell, atChannel, Transcript.display, Console.write, Sink.write_of_unlimited hroom]
  rfl

theorem readCommand_spec (s : Session ρ) :
    s.readCommand.Lossless ∧ ∃ channel, s.readCommand.state = s.withChannel channel ∧
      channel.console.sink = s.display := by
  obtain ⟨⟨state, ⟨⟨⟨input, sink⟩, output⟩, guard, dice⟩, division, history⟩, steps, limit⟩ := s
  exact ⟨Input.lossless_readLine input, _, rfl, rfl⟩

/-- Asking shows the status and the prompt, and reads the answer. -/
theorem asked_spec {s : Session ρ} (hs : s.Unlimited) :
    s.asked.Lossless ∧ ∃ channel, s.asked.state = s.withChannel channel ∧
      channel.console.sink = s.display.append s.invitation := by
  obtain ⟨channel, htell, hsink⟩ := tell_spec hs s.invitation
  rw [asked, htell, Reply.done_andThen]
  obtain ⟨hquiet, channel', hread, hsink'⟩ := (s.withChannel channel).readCommand_spec
  exact ⟨hquiet, channel', hread, hsink'.trans hsink⟩

theorem steps_asked {s : Session ρ} (hs : s.Unlimited) : s.asked.state.steps = s.steps := by
  obtain ⟨-, channel, hchannel, -⟩ := asked_spec hs
  rw [hchannel]
  rfl

theorem display_asked {s : Session ρ} (hs : s.Unlimited) :
    s.asked.state.display = s.display.append s.invitation := by
  obtain ⟨-, channel, hchannel, hsink⟩ := asked_spec hs
  rw [hchannel]
  exact hsink

theorem Unlimited.asked {s : Session ρ} (hs : s.Unlimited) : s.asked.state.Unlimited := by
  rw [Unlimited, display_asked hs]
  exact hs

theorem lt_of_active {s : Session ρ} (h : s.active = true) {n : Nat} (hn : s.limit = some n) :
    s.steps < n := by
  simp only [active, hn, Bool.and_eq_true, Option.all_some, decide_eq_true_eq] at h
  exact h.2

variable [DirectionSource ρ]

/-- Going forward adds a step to the count and to the history, which may have to make room. -/
theorem goForward_spec {s : Session ρ} {n : Nat} (hlimit : s.machine.history.limit? = some n)
    (h : s.goForward.result = .ok true) :
    s.machine.step.result = .ok .executed ∧
      s.goForward.state.limit = s.limit ∧ s.goForward.state.steps = s.steps + 1 ∧
      s.goForward.state.machine.history.limit? = some n ∧
      s.goForward.state.machine.history.depth + forgotten s.goForward.events =
        s.machine.history.depth + 1 ∧
      s.goForward.state.machine.history.depth ≤ n := by
  obtain ⟨machine, steps, limit⟩ := s
  simp only [goForward] at h ⊢
  obtain ⟨outcome, hstep, h⟩ := Reply.result_andThen_eq_ok.1 h
  cases outcome with
  | halted | stalled => cases h
  | executed =>
    have hstep : machine.step.result = .ok .executed := hstep
    obtain ⟨c, deed, hexec⟩ := Machine.result_step_eq_executed_iff.1 hstep
    have hhistory : machine.step.state.history =
        (machine.history.extend (machine.state.perform deed).2).1 := by
      rw [hexec.step_eq.2]
    have hadd := History.depth_extend hlimit (machine.state.perform deed).2
    rw [← hexec.forgotten_step, ← hhistory] at hadd
    have hwithin : (machine.step.within fun m => (⟨m, steps, limit⟩ : Session ρ)).result =
        .ok .executed := hstep
    rw [Reply.andThen_of_ok hwithin]
    refine ⟨hstep, rfl, rfl, ?_, ?_, hadd.2⟩
    · show machine.step.state.history.limit? = some n
      rw [hhistory, History.limit?_extend]
      exact hlimit
    · show machine.step.state.history.depth + forgotten (machine.step.events ++ []) = _
      rw [List.append_nil]
      exact hadd.1

omit [DirectionSource ρ] in
/-- Going back takes the newest step from the count and from the history, and shows nothing. -/
theorem goBack_of_groups {s : Session ρ} {group : List Change} {rest : List (List Change)}
    (hg : s.machine.history.groups = group :: rest) :
    s.machine.unstep.result = .ok true ∧ s.goBack.result = .ok () ∧ s.goBack.Lossless ∧
      s.goBack.state.limit = s.limit ∧ s.goBack.state.steps = s.steps - 1 ∧
      s.goBack.state.machine.history = s.machine.history.dropNewest ∧
      s.goBack.state.display = s.display := by
  obtain ⟨machine, steps, limit⟩ := s
  obtain ⟨hresult, hhistory, hquiet, hsink⟩ := Machine.unstep_of_transcript hg
  have hback : (machine.unstep.within fun m => (⟨m, steps, limit⟩ : Session ρ)).result = .ok true :=
    hresult
  simp only [goBack]
  rw [Reply.andThen_of_ok hback]
  refine ⟨hresult, rfl, ?_, rfl, rfl, hhistory, hsink⟩
  simpa [Reply.Lossless] using hquiet

omit [DirectionSource ρ] in
/-- Where no step can be undone, the user is told so. -/
theorem goBack_of_empty {s : Session ρ} (hg : s.machine.history.groups = []) :
    s.machine.unstep.result = .ok false ∧ s.goBack = s.tell "(no history)\n" := by
  obtain ⟨machine, steps, limit⟩ := s
  have hunstep : machine.unstep = .done false machine := Machine.unstep_of_empty hg
  simp only [goBack, hunstep]
  exact ⟨rfl, rfl⟩

/-- Carries out a command and, if the session goes on, shows a line feed: the second half of a
turn. -/
def obeyed (command : Command) (s : Session ρ) : Reply (Session ρ) Bool :=
  (s.obey command).andThen fun goesOn s =>
    if goesOn then (s.tell "\n").map fun () => true else .done false s

theorem turn_eq (s : Session ρ) : s.turn = s.asked.andThen obeyed := by
  rw [asked, Reply.andThen_assoc]
  rfl

/-- A step shows something only where there is room. -/
theorem Unlimited.goForward {s : Session ρ} (hs : s.Unlimited) : s.goForward.state.Unlimited := by
  obtain ⟨machine, steps, limit⟩ := s
  obtain ⟨requests, hrequests⟩ := machine.channel_step
  have hstep : machine.step.state.surroundings.channel.console.sink.capacity = none := by
    rw [hrequests]
    exact OnConsole.Unlimited.afterAll (p := machine.surroundings.channel) hs requests
  simp only [Session.goForward]
  generalize machine.step = r at hstep
  obtain ⟨_ | _ | _ | _, machine', events⟩ := r
  all_goals exact hstep

omit [DirectionSource ρ] in
theorem Unlimited.goBack {s : Session ρ} (hs : s.Unlimited) : s.goBack.state.Unlimited := by
  cases hg : s.machine.history.groups with
  | nil =>
    obtain ⟨channel, htell, hsink⟩ := tell_spec hs "(no history)\n"
    rw [(goBack_of_empty hg).2, htell]
    exact (congrArg Sink.capacity hsink).trans hs
  | cons group rest =>
    obtain ⟨-, -, -, -, -, -, hsink⟩ := goBack_of_groups hg
    rw [Unlimited, hsink]
    exact hs

theorem Unlimited.obey {s : Session ρ} (hs : s.Unlimited) (command : Command) :
    (s.obey command).state.Unlimited := by
  cases command with
  | quit => exact hs
  | forward => exact hs.goForward
  | back => exact hs.goBack

/-- A turn that goes on has carried out a command, and has shown a line feed after it. -/
theorem turn_inversion {s : Session ρ} (hs : s.Unlimited) (h : s.turn.result = .ok true) :
    ∃ command channel, s.asked.result = .ok command ∧
      (s.asked.state.obey command).result = .ok true ∧
      s.turn.state = (s.asked.state.obey command).state.withChannel channel ∧
      channel.console.sink = (s.asked.state.obey command).state.display.append "\n" ∧
      forgotten s.turn.events = forgotten (s.asked.state.obey command).events := by
  have hquiet := (asked_spec hs).1
  rw [turn_eq] at h ⊢
  obtain ⟨command, hcommand, h⟩ := Reply.result_andThen_eq_ok.1 h
  obtain ⟨goesOn, hobey, h⟩ := Reply.result_andThen_eq_ok.1 h
  cases goesOn with
  | false => cases h
  | true =>
    obtain ⟨channel, htell, hsink⟩ := tell_spec (hs.asked.obey command) "\n"
    refine ⟨command, channel, hcommand, hobey, ?_⟩
    rw [Reply.andThen_of_ok hcommand, obeyed, Reply.andThen_of_ok hobey]
    simp only [if_true, htell]
    refine ⟨rfl, hsink, ?_⟩
    simp only [Reply.Lossless] at hquiet
    simp only [Event.forgotten_append, Reply.map, Reply.done, hquiet, Event.forgotten_nil]
    omega

/-! ### Tallies -/

/-- The turn takes a step that is executed. -/
def Advances (s : Session ρ) : Prop :=
  s.asked.result = .ok .forward ∧ s.asked.state.machine.step.result = .ok .executed

/-- The turn undoes a step. -/
def Retreats (s : Session ρ) : Prop :=
  s.asked.result = .ok .back ∧ s.asked.state.machine.unstep.result = .ok true

instance (s : Session ρ) : Decidable s.Advances := inferInstanceAs (Decidable (_ ∧ _))

omit [DirectionSource ρ] in
instance (s : Session ρ) : Decidable s.Retreats := inferInstanceAs (Decidable (_ ∧ _))

end Session

/-- What has happened in some turns of a session. -/
structure Tally where
  turns : Nat := 0
  /-- Steps that were executed. -/
  executed : Nat := 0
  /-- Steps that were undone. -/
  undone : Nat := 0
  /-- Steps that were forgotten. -/
  forgotten : Nat := 0
  deriving DecidableEq, Repr

/-- The tally after one more turn, the one of `s`. -/
def Tally.next {ρ : Type} [DirectionSource ρ] (s : Session ρ) (t : Tally) : Tally where
  turns := t.turns + 1
  executed := t.executed + if s.Advances then 1 else 0
  undone := t.undone + if s.Retreats then 1 else 0
  forgotten := t.forgotten + Event.forgotten s.turn.events

namespace Tally

variable {ρ : Type} [DirectionSource ρ] {s : Session ρ}

theorem next_of_forward (hasked : s.asked.result = .ok .forward)
    (hstep : s.asked.state.machine.step.result = .ok .executed) (t : Tally) :
    t.next s = ⟨t.turns + 1, t.executed + 1, t.undone,
      t.forgotten + Event.forgotten s.turn.events⟩ := by
  have hadvances : s.Advances := ⟨hasked, hstep⟩
  have hretreats : ¬ s.Retreats := by
    intro hretreats
    cases hasked.symm.trans hretreats.1
  rw [next, if_pos hadvances, if_neg hretreats]
  rfl

theorem next_of_back (hasked : s.asked.result = .ok .back) {undone : Bool}
    (hunstep : s.asked.state.machine.unstep.result = .ok undone) (t : Tally) :
    t.next s = ⟨t.turns + 1, t.executed, t.undone + undone.toNat,
      t.forgotten + Event.forgotten s.turn.events⟩ := by
  have hadvances : ¬ s.Advances := by
    intro hadvances
    cases hasked.symm.trans hadvances.1
  cases undone with
  | true =>
    have hretreats : s.Retreats := ⟨hasked, hunstep⟩
    rw [next, if_neg hadvances, if_pos hretreats]
    rfl
  | false =>
    have hretreats : ¬ s.Retreats := by
      intro hretreats
      cases hunstep.symm.trans hretreats.2
    rw [next, if_neg hadvances, if_neg hretreats]
    rfl

end Tally

namespace Session

variable {ρ : Type} [DirectionSource ρ]

/-- A session that began as `start` asks whether another command is wanted, when it is at `s` and
this has happened. -/
inductive Reaches (start : Session ρ) : Tally → Session ρ → Prop where
  | start : Reaches start {} start
  | turn {t : Tally} {s : Session ρ} (reached : Reaches start t s) (active : s.active = true)
      (goesOn : s.turn.result = .ok true) : Reaches start (t.next s) s.turn.state

/-- A session is reached in its turns, and they have made the events that were counted. -/
theorem Reaches.turns {start s : Session ρ} {t : Tally} (h : start.Reaches t s) (n : Nat) :
    (start.turns (t.turns + n)).result = (s.turns n).result ∧
      (start.turns (t.turns + n)).state = (s.turns n).state ∧
      forgotten (start.turns (t.turns + n)).events =
        t.forgotten + forgotten (s.turns n).events := by
  induction h generalizing n with
  | start => simp
  | @turn t s _ active goesOn ih =>
    have hnext : s.turns (n + 1) = ⟨(s.turn.state.turns n).result, (s.turn.state.turns n).state,
        s.turn.events ++ (s.turn.state.turns n).events⟩ := by
      rw [Session.turns, if_pos active, Reply.andThen_of_ok goesOn]
      rfl
    have hturns := ih (n + 1)
    rw [hnext, ← Nat.add_assoc, Nat.add_right_comm] at hturns
    rw [Event.forgotten_append, ← Nat.add_assoc] at hturns
    exact hturns

/-! ### Balances -/

/-- The books of a session with these options are balanced. -/
structure Balanced (options : Options) (t : Tally) (s : Session ρ) : Prop where
  unlimited : s.Unlimited
  limit : s.limit = options.stepLimit
  bounded : s.machine.history.limit? = some options.history
  net : s.steps + t.undone = t.executed
  depth_add : s.machine.history.depth + t.forgotten = s.steps
  depth_le : s.machine.history.depth ≤ options.history
  steps_le : ∀ n, options.stepLimit = some n → s.steps ≤ n

namespace Balanced

variable {options : Options} {t : Tally} {s : Session ρ}

omit [DirectionSource ρ] in
theorem withChannel (h : s.Balanced options t) {channel : Transcript} {text : String}
    (hsink : channel.console.sink = s.display.append text) :
    (s.withChannel channel).Balanced options t :=
  ⟨(congrArg Sink.capacity hsink).trans h.unlimited, h.limit, h.bounded, h.net, h.depth_add,
    h.depth_le, h.steps_le⟩

omit [DirectionSource ρ] in
theorem asked (h : s.Balanced options t) : s.asked.state.Balanced options t := by
  obtain ⟨-, channel, hchannel, hsink⟩ := asked_spec h.unlimited
  rw [hchannel]
  exact h.withChannel hsink

/-- An executed step is counted once, on both sides of the balance. -/
theorem goForward (h : s.Balanced options t)
    (hroom : ∀ n, options.stepLimit = some n → s.steps < n)
    (hgo : s.goForward.result = .ok true) (k : Nat) :
    s.goForward.state.Balanced options
      ⟨k, t.executed + 1, t.undone, t.forgotten + forgotten s.goForward.events⟩ := by
  obtain ⟨-, hlimit, hsteps, hbounded, hadd, hle⟩ := goForward_spec h.bounded hgo
  have hnet := h.net
  have hdepth := h.depth_add
  refine ⟨h.unlimited.goForward, hlimit.trans h.limit, hbounded, ?_, ?_, hle, ?_⟩
  · show s.goForward.state.steps + t.undone = t.executed + 1
    omega
  · show s.goForward.state.machine.history.depth + (t.forgotten + forgotten s.goForward.events) = _
    omega
  · intro n hn
    have hlt := hroom n hn
    omega

omit [DirectionSource ρ] in
/-- A step that is undone is one that has been counted. -/
theorem steps_goBack (h : s.Balanced options t) {group : List Change} {rest : List (List Change)}
    (hg : s.machine.history.groups = group :: rest) : s.goBack.state.steps + 1 = s.steps := by
  obtain ⟨-, -, -, -, hsteps, -, -⟩ := goBack_of_groups hg
  have hdrop := History.depth_dropNewest hg
  have hdepth := h.depth_add
  omega

omit [DirectionSource ρ] in
/-- Going back takes from the steps what it adds to the undone ones. With nothing left to undo it
takes nothing, and the balance is the same. -/
theorem goBack (h : s.Balanced options t) (k : Nat) :
    ∃ undone, s.machine.unstep.result = .ok undone ∧ s.goBack.Lossless ∧
      s.goBack.state.Balanced options
        ⟨k, t.executed, t.undone + undone.toNat, t.forgotten⟩ := by
  cases hg : s.machine.history.groups with
  | nil =>
    obtain ⟨hunstep, hback⟩ := goBack_of_empty hg
    obtain ⟨channel, htell, hsink⟩ := tell_spec h.unlimited "(no history)\n"
    rw [hback, htell]
    refine ⟨false, hunstep, .done _ _, ?_⟩
    obtain ⟨hunlimited, hlimit, hbounded, hnet, hadd, hle, hsteps⟩ := h.withChannel hsink
    exact ⟨hunlimited, hlimit, hbounded, hnet, hadd, hle, hsteps⟩
  | cons group rest =>
    obtain ⟨hunstep, -, hquiet, hlimit, -, hhistory, -⟩ := goBack_of_groups hg
    have hdrop := History.depth_dropNewest hg
    have hsteps := h.steps_goBack hg
    have hnet := h.net
    have hdepth := h.depth_add
    have hle := h.depth_le
    rw [← hhistory] at hdrop
    refine ⟨true, hunstep, hquiet, h.unlimited.goBack, hlimit.trans h.limit, ?_, ?_, ?_,
      by omega, ?_⟩
    · rw [hhistory, History.limit?_dropNewest]
      exact h.bounded
    · show s.goBack.state.steps + (t.undone + 1) = t.executed
      omega
    · show s.goBack.state.machine.history.depth + t.forgotten = _
      omega
    · intro n hn
      have hsteps := h.steps_le n hn
      omega

omit [DirectionSource ρ] in
/-- There is nothing to go back to if nothing was counted, or if all of it has been forgotten. -/
theorem unstep_eq_false_iff (h : s.Balanced options t) :
    s.machine.unstep.result = .ok false ↔ s.steps = 0 ∨ t.forgotten = s.steps := by
  have hdepth := h.depth_add
  rw [History.depth_eq] at hdepth
  cases hg : s.machine.history.groups with
  | nil =>
    rw [hg, List.length_nil] at hdepth
    exact iff_of_true (goBack_of_empty hg).1 (by omega)
  | cons group rest =>
    rw [hg, List.length_cons] at hdepth
    have hunstep := (goBack_of_groups hg).1
    apply iff_of_false
    · rw [hunstep]
      simp
    · omega

omit [DirectionSource ρ] in
/-- Going back does not fail, and it is said that there is no history where that is so. -/
theorem display_goBack (h : s.Balanced options t) :
    s.goBack.result = .ok () ∧ s.goBack.state.display =
      s.display.append (if s.steps = 0 ∨ t.forgotten = s.steps then "(no history)\n" else "") := by
  have hiff := h.unstep_eq_false_iff
  cases hg : s.machine.history.groups with
  | nil =>
    obtain ⟨hunstep, hback⟩ := goBack_of_empty hg
    obtain ⟨channel, htell, hsink⟩ := tell_spec h.unlimited "(no history)\n"
    rw [hback, htell, if_pos (hiff.1 hunstep)]
    exact ⟨rfl, hsink⟩
  | cons group rest =>
    obtain ⟨hunstep, hback, -, -, -, -, hsink⟩ := goBack_of_groups hg
    have hsome : ¬ (s.steps = 0 ∨ t.forgotten = s.steps) := by
      intro hnone
      cases hunstep.symm.trans (hiff.2 hnone)
    rw [hsink, if_neg hsome, Sink.append_empty]
    exact ⟨hback, rfl⟩

/-- A turn that goes back shows the machine, then whether there was nothing to go back to, and then
an empty line. -/
theorem display_turn (h : s.Balanced options t) (hasked : s.asked.result = .ok .back) :
    s.turn.result = .ok true ∧ s.turn.state.display =
      ((s.display.append s.invitation).append
        (if s.steps = 0 ∨ t.forgotten = s.steps then "(no history)\n" else "")).append "\n" := by
  obtain ⟨hresult, hdisplay⟩ := h.asked.display_goBack
  obtain ⟨channel, htell, hsink⟩ := tell_spec (h.unlimited.asked.obey .back) "\n"
  have hobey : (s.asked.state.obey .back).result = .ok true :=
    Reply.result_map_eq_ok.2 ⟨(), hresult, rfl⟩
  rw [turn_eq, Reply.andThen_of_ok hasked, obeyed, Reply.andThen_of_ok hobey]
  simp only [if_true, htell]
  refine ⟨rfl, hsink.trans ?_⟩
  rw [← display_asked h.unlimited, ← steps_asked h.unlimited]
  exact congrArg (Sink.append "\n") hdisplay

/-- **Each turn keeps the books balanced.** -/
theorem turn (h : s.Balanced options t) (hactive : s.active = true)
    (hgo : s.turn.result = .ok true) : s.turn.state.Balanced options (t.next s) := by
  obtain ⟨command, channel, hasked, hobey, hstate, hsink, hevents⟩ :=
    turn_inversion h.unlimited hgo
  rw [hstate]
  refine Balanced.withChannel ?_ hsink
  cases command with
  | quit => cases hobey
  | forward =>
    have hroom : ∀ n, options.stepLimit = some n → s.asked.state.steps < n := by
      intro n hn
      rw [steps_asked h.unlimited]
      exact lt_of_active hactive (h.limit.trans hn)
    obtain ⟨hstep, -⟩ := goForward_spec h.asked.bounded hobey
    rw [Tally.next_of_forward hasked hstep, hevents]
    exact h.asked.goForward hroom hobey _
  | back =>
    obtain ⟨undone, hunstep, hquiet, hback⟩ := h.asked.goBack (t.turns + 1)
    have hevents : forgotten s.turn.events = 0 := hevents.trans hquiet
    rw [Tally.next_of_back hasked hunstep, hevents]
    exact hback

end Balanced

/-- The books are balanced whenever a command is wanted. -/
theorem Reaches.balanced {options : Options} {start s : Session ρ} {t : Tally}
    (h : start.Reaches t s) (hstart : start.Balanced options {}) : s.Balanced options t := by
  induction h with
  | start => exact hstart
  | turn _ active goesOn ih => exact ih.turn active goesOn

end Session

/-! ### Launches -/

namespace Launch

variable {ρ : Type} [DirectionSource ρ]

/-- What the books of a session say at the time when it asks whether another command is wanted. -/
structure Accounted (options : Options) (start : Session ρ) (t : Tally) (s : Session ρ) : Prop where
  net : s.steps + t.undone = t.executed
  depth_add : s.machine.history.depth + t.forgotten = s.steps
  depth_le : s.machine.history.depth ≤ options.history
  steps_le : ∀ n, options.stepLimit = some n → s.steps ≤ n
  /-- There is nothing to go back to iff no step counts, or all that count have been forgotten. -/
  unavailable_iff : s.asked.state.machine.unstep.result = .ok false ↔
    s.steps = 0 ∨ t.forgotten = s.steps
  /-- Then the user is told so. -/
  unavailable : s.asked.state.machine.unstep.result = .ok false →
    s.asked.state.goBack = s.asked.state.tell "(no history)\n"
  /-- Otherwise a step is undone, there is one to be taken from the count, and nothing is told. -/
  available : s.asked.state.machine.unstep.result ≠ .ok false →
    s.asked.state.goBack.result = .ok () ∧ s.asked.state.goBack.state.steps + 1 = s.steps ∧
      s.asked.state.goBack.state.display = s.asked.state.display
  /-- So the user is told iff no step counts, or all that count have been forgotten. -/
  told_iff :
    s.asked.state.goBack.state.display = s.asked.state.display.append "(no history)\n" ↔
      s.steps = 0 ∨ t.forgotten = s.steps
  /-- All that a turn shows that goes back. -/
  shown : s.asked.result = .ok .back →
    s.turn.result = .ok true ∧ s.turn.state.display =
      ((s.display.append s.invitation).append
        (if s.steps = 0 ∨ t.forgotten = s.steps then "(no history)\n" else "")).append "\n"
  /-- The session goes on from here when it has taken as many turns. -/
  turns : ∀ n, (start.turns (t.turns + n)).result = (s.turns n).result ∧
    (start.turns (t.turns + n)).state = (s.turns n).state ∧
    forgotten (start.turns (t.turns + n)).events = t.forgotten + forgotten (s.turns n).events

omit [DirectionSource ρ] in
/-- A session starts with nothing done, nothing undone and nothing forgotten. -/
theorem balanced_watched (options : Options) (grid : Grid) (dice : ρ) (input : List UInt8) :
    (watched options grid dice input).Balanced options {} := by
  refine ⟨rfl, rfl, rfl, rfl, rfl, ?_, ?_⟩
  · exact Nat.zero_le _
  · exact fun n _ => Nat.zero_le n

/-- **The books of a session are balanced** whenever it asks whether another command is wanted,
whatever the program, the options and the lines that were typed. The count of steps is what was
executed and not undone, and it is what can be undone and what was forgotten. So the count never has
to go below zero, and it is the count that the limit applies to. -/
theorem accounted_of_reaches (options : Options) (grid : Grid) (dice : ρ) (input : List UInt8)
    (t : Tally) (s : Session ρ) (h : (watched options grid dice input).Reaches t s) :
    Accounted options (watched options grid dice input) t s := by
  have hbalanced := h.balanced (balanced_watched options grid dice input)
  have hasked := hbalanced.asked
  have hsteps := Session.steps_asked hbalanced.unlimited
  have hiff := hasked.unstep_eq_false_iff
  rw [hsteps] at hiff
  refine ⟨hbalanced.net, hbalanced.depth_add, hbalanced.depth_le, hbalanced.steps_le, hiff, ?_, ?_,
    ?_, hbalanced.display_turn, h.turns⟩
  · intro hunstep
    cases hg : s.asked.state.machine.history.groups with
    | nil => exact (Session.goBack_of_empty hg).2
    | cons group rest => cases hunstep.symm.trans (Session.goBack_of_groups hg).1
  · intro hunstep
    cases hg : s.asked.state.machine.history.groups with
    | nil => exact absurd (Session.goBack_of_empty hg).1 hunstep
    | cons group rest =>
      obtain ⟨-, hresult, -, -, -, -, hdisplay⟩ := Session.goBack_of_groups hg
      rw [← hsteps]
      exact ⟨hresult, hasked.steps_goBack hg, hdisplay⟩
  · obtain ⟨-, hdisplay⟩ := hasked.display_goBack
    rw [hsteps] at hdisplay
    rw [hdisplay]
    split
    · next hnone => exact iff_of_true rfl hnone
    · next hsome =>
      rw [Sink.append_empty]
      exact iff_of_false (Sink.append_ne_self (by decide) _).symm hsome

/-- A session that remembers one step. Its user types two empty lines, and then goes back twice. -/
def hesitant : Session Xoshiro :=
  watched { file := "", history := 1, stepLimit := some 3 } ⟨#[#['1', '2', '3']], 3, 1, 16⟩ default
    (Text.encode "\n\nb\nb\n")

/-- After three of the lines one step counts, the one that was forgotten when the second was made.
So the fourth line cannot be followed, and the user is told. -/
theorem accounted_of_reaches_hesitant :
    let s := hesitant.turn.state.turn.state.turn.state
    hesitant.Reaches ⟨3, 2, 1, 1⟩ s ∧
      Accounted { file := "", history := 1, stepLimit := some 3 } hesitant ⟨3, 2, 1, 1⟩ s ∧
      s.steps = 1 ∧ s.asked.result = .ok .back ∧
      s.asked.state.goBack.state.display = s.asked.state.display.append "(no history)\n" := by
  intro s
  have hreaches : hesitant.Reaches ⟨3, 2, 1, 1⟩ s := by
    have hfirst : hesitant.Reaches _ hesitant.turn.state :=
      .turn .start (by decide) (by decide +kernel)
    have hsecond : hesitant.Reaches _ hesitant.turn.state.turn.state :=
      hfirst.turn (by decide +kernel) (by decide +kernel)
    have hthird : hesitant.Reaches _ s := hsecond.turn (by decide +kernel) (by decide +kernel)
    have htally : Tally.next hesitant.turn.state.turn.state
        (Tally.next hesitant.turn.state (Tally.next hesitant {})) = ⟨3, 2, 1, 1⟩ := by
      decide +kernel
    rw [htally] at hthird
    exact hthird
  have haccounted := accounted_of_reaches { file := "", history := 1, stepLimit := some 3 } _ _ _ _
    _ hreaches
  have hsteps : s.steps = 1 := haccounted.depth_add.symm.trans (by decide +kernel)
  exact ⟨hreaches, haccounted, hsteps, by decide +kernel,
    haccounted.told_iff.2 (.inr hsteps.symm)⟩

end Launch

end Retrace
