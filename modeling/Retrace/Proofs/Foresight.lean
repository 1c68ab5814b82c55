import Retrace.Proofs.Accounts
import Retrace.Proofs.Routines
import Retrace.Proofs.Sessions
import Retrace.Proofs.Timeliness

/-!
# Running ahead of the input

A machine can step before its input has been typed, as long as it does not ask for it: steps are
timely, and so are any number of them (`Machine.timely_runFor`). A step is taken apart into its
effects for that, since only those at the channel have anything to do with the console.

The turn of a session is another matter. Where no command has been typed the session ends, and does
not report that it has run out of input. So a turn is foreseen only if a command is there
(`Session.foreseen_turn`), and a turn without one has written no more than its beginning
(`Session.turn_of_starved`).
-/

namespace Retrace

open AtConsole

/-! ### Machines -/

section Machines

variable {π η ρ α β : Type}

instance [AtConsole π] : AtConsole (Surroundings π η ρ) where
  console around := console around.channel
  withConsole c around := { around with channel := withConsole c around.channel }
  console_withConsole c around := console_withConsole c around.channel

instance [AtConsole π] : AtConsole (Machine π η ρ) where
  console m := console m.surroundings
  withConsole c m := { m with surroundings := withConsole c m.surroundings }
  console_withConsole c m := console_withConsole c m.surroundings

section

variable [AtConsole π]

/-- What is timely for a channel is timely for the machine around it. -/
theorem Surroundings.timely_channel {op : π → Reply π α} (h : Timely op) :
    Timely fun around : Surroundings π η ρ =>
      (op around.channel).within fun channel => { around with channel } :=
  .lift (fun _ => h) Surroundings.channel (fun channel around => { around with channel })
    (fun _ _ _ => rfl) (fun _ => rfl) (fun _ _ => rfl) (fun _ _ _ => rfl) (fun _ _ _ _ => rfl)
    (fun _ _ _ _ => rfl)

/-- Whatever is asked of the guard has nothing to do with the console. -/
theorem Surroundings.timely_guard (op : η → Reply η α) :
    Timely fun around : Surroundings π η ρ =>
      (op around.guard).within fun guard => { around with guard } :=
  .of_quiet (fun _ => rfl) (fun _ _ _ => rfl)

namespace Routine

/-- A routine is timely if its parts are. -/
theorem timely_bind {r : Routine π η ρ α} (h : Timely r.run) {next : α → Routine π η ρ β}
    (hnext : ∀ a, Timely (next a).run) : Timely (r >>= next).run :=
  h.andThen hnext

/-- Looking at the machine is harmless as long as what is looked at does not depend on the
console. -/
theorem timely_look_bind {f : Machine π η ρ → α} {next : α → Routine π η ρ β}
    (hf : ∀ shown more m, f (amid shown more m) = f m) (hnext : ∀ a, Timely (next a).run) :
    Timely (look f >>= next).run where
  proceeds m := (hnext (f m)).proceeds m
  foreseen {m} more hready shown := by
    rw [run_look_bind, run_look_bind, hf]
    exact (hnext (f m)).foreseen hready shown

theorem timely_ask {op : Machine π η ρ → Surroundings π η ρ → Reply (Surroundings π η ρ) α}
    (h : ∀ m, Timely (op m)) (hop : ∀ shown more m, op (amid shown more m) = op m) :
    Timely fun m => (ask (op m)).run m :=
  .lift h Machine.surroundings (fun surroundings m => { m with surroundings }) hop
    (fun _ => rfl) (fun _ _ => rfl) (fun _ _ _ => rfl) (fun _ _ _ _ => rfl) (fun _ _ _ _ => rfl)

/-- Deeds are done to the state and the history, and the console is not part of either. -/
theorem timely_perform (deed : Deed) : Timely (perform deed : Routine π η ρ Unit).run :=
  .of_quiet (fun _ => rfl) (fun _ _ _ => rfl)

theorem timely_read [EdgeGuard η] (p : Point) :
    Timely (read p : Routine π η ρ (Option Char)).run :=
  timely_look_bind (fun _ _ _ => rfl) fun _ => .of_quiet (fun _ => rfl) (fun _ _ _ => rfl)

end Routine

end

variable [Channel π] [TimelyChannel π] [EdgeGuard η] [DirectionSource ρ]

/-- One case for each instruction; only printing and reading use the console, and they are
timely. -/
theorem Machine.timely_resolve (division : DivisionPolicy) (s : State) (i : Instruction) :
    Timely (resolve division s i : Surroundings π η ρ → Reply (Surroundings π η ρ) Deed) := by
  cases i with
  | printInt | printChar =>
    exact Surroundings.timely_channel ((TimelyChannel.emit _).map _)
  | readInt => exact Surroundings.timely_channel (TimelyChannel.takeDigit.map _)
  | readChar => exact Surroundings.timely_channel (TimelyChannel.takeChar.map _)
  | place => exact Surroundings.timely_guard fun guard => (s.grid.landing s.target guard).map _
  | grab => exact Surroundings.timely_guard fun guard => (s.grid.read s.target guard).map _
  | arith op =>
    show Timely fun around : Surroundings π η ρ =>
      if op.divides ∧ s.stack.peek 0 = 0 ∧ division = .fatal then
        Reply.fail (.divisionByZero op.symbol s.position) around
      else .done (Deed.compute op) around
    split
    · exact .fail _
    · exact .done _
  | random => exact .of_quiet (fun _ => rfl) (fun _ _ _ => rfl)
  | _ => exact .done _

namespace Routine

theorem timely_execute (c : Char) (mode : Mode) :
    Timely (execute c mode : Routine π η ρ Unit).run := by
  cases mode with
  | text =>
    show Timely (quoted c).run
    rw [quoted_eq]
    exact timely_perform _
  | normal =>
    have hdispatch : (dispatch (.decode c)).run = fun m : Machine π η ρ =>
        ((ask (Machine.resolve m.division m.state (.decode c))).run m).andThen fun deed =>
          (perform deed).run :=
      funext (run_dispatch _)
    show Timely (dispatch (.decode c)).run
    rw [hdispatch]
    refine .andThen ?_ timely_perform
    exact timely_ask (fun m => Machine.timely_resolve m.division m.state _) (fun _ _ _ => rfl)

theorem timely_step : Timely (step : Routine π η ρ Outcome).run := by
  apply timely_look_bind
  · exact fun _ _ _ => rfl
  intro running
  split
  · exact .done _
  apply timely_look_bind
  · exact fun _ _ _ => rfl
  intro position
  apply timely_bind (timely_read position)
  rintro (_ | c)
  · exact .done _
  apply timely_look_bind
  · exact fun _ _ _ => rfl
  intro mode
  apply timely_bind (.of_quiet (fun _ => rfl) (fun _ _ _ => rfl))
  intro _
  apply timely_bind (timely_execute c mode)
  intro _
  exact timely_bind (.of_quiet (fun _ => rfl) (fun _ _ _ => rfl)) fun _ => .done _

end Routine

namespace Machine

theorem timely_step : Timely (step : Machine π η ρ → Reply (Machine π η ρ) Outcome) := by
  have hstep : (step : Machine π η ρ → _) = Routine.step.run := (funext Routine.run_step).symm
  rw [hstep]
  exact Routine.timely_step

/-- By induction on the number of steps that are allowed. -/
theorem timely_stepsFrom (n : Nat) :
    Timely (stepsFrom 0 [] n : Machine π η ρ → Reply (Machine π η ρ) (Nat × Outcome)) := by
  induction n with
  | zero => exact .done (0, Outcome.executed)
  | succ n ih =>
    rw [funext (stepsFrom_succ n)]
    apply timely_step.andThen
    intro outcome
    split
    · exact ih.map _
    · exact .done _

/-- **Steps do not wait for input that is not asked for.** -/
theorem timely_runFor (n : Nat) :
    Timely (runFor n : Machine π η ρ → Reply (Machine π η ρ) Summary) :=
  (timely_stepsFrom n).andThen fun _ => .of_quiet (fun _ => rfl) (fun _ _ _ => rfl)

end Machine

end Machines

/-! ### Sessions -/

namespace Transcript

/-- Undoing at a transcript changes what is pending and what was printed, not what is unread or
shown. -/
theorem timely_revert (c : Change) :
    Timely (Channel.revert c : Transcript → Reply Transcript Unit) := by
  cases c with
  | readDigit _ | readChar _ =>
    exact ⟨fun _ => .of_read rfl List.suffix_rfl, fun _ _ => .of_eq rfl⟩
  | _ => exact .of_quiet (fun _ => rfl) (fun _ _ _ => rfl)

/-- What a transcript takes back has nothing to do with what will be typed. -/
theorem timely_revertAll (changes : List Change) :
    Timely (Channel.revertAll changes : Transcript → Reply Transcript Unit) := by
  induction changes with
  | nil => exact .done ()
  | cons c rest ih =>
    have hcons : (Channel.revertAll (c :: rest) : Transcript → Reply Transcript Unit) =
        fun t => (Channel.revert c t).andThen fun () => Channel.revertAll rest := by
      funext t
      have hrevert : ∃ t', Channel.revert c t = .done () t' := by
        cases c <;> exact ⟨_, rfl⟩
      obtain ⟨t', ht'⟩ := hrevert
      simp only [Channel.revertAll, ht']
      rfl
    rw [hcons]
    exact (timely_revert c).andThen fun () => ih

end Transcript

theorem Machine.timely_unstep {η ρ : Type} :
    Timely (unstep : Machine Transcript η ρ → Reply (Machine Transcript η ρ) Bool) where
  proceeds m := by
    obtain ⟨state, ⟨channel, guard, dice⟩, division, history⟩ := m
    simp only [unstep]
    cases history.pop? with
    | none => exact .refl _
    | some popped => exact (Transcript.timely_revertAll popped.1).proceeds channel
  foreseen {m} more hready shown := by
    obtain ⟨state, ⟨channel, guard, dice⟩, division, history⟩ := m
    refine .of_eq ?_
    show unstep ⟨state, ⟨amid shown more channel, guard, dice⟩, division, history⟩ = _
    simp only [unstep]
    cases history.pop? with
    | none => rfl
    | some popped =>
      obtain ⟨t, ht, -⟩ := Transcript.revertAll_eq_done popped.1 channel
      have hsame := ((Transcript.timely_revertAll popped.1).foreseen hready shown).same
      simp only at hsame ⊢
      rw [hsame (.inr (by simp [ht]))]
      rfl

namespace Session

variable {ρ : Type}

instance : AtConsole (Session ρ) where
  console s := console s.machine
  withConsole c s := { s with machine := withConsole c s.machine }
  console_withConsole c s := console_withConsole c s.machine

theorem timely_machine {α : Type} {op : Machine Transcript EdgePolicy ρ → Reply _ α}
    (h : Timely op) :
    Timely fun s : Session ρ => (op s.machine).within fun machine => { s with machine } :=
  .lift (fun _ => h) Session.machine (fun machine s => { s with machine }) (fun _ _ _ => rfl)
    (fun _ => rfl) (fun _ _ => rfl) (fun _ _ _ => rfl) (fun _ _ _ _ => rfl) (fun _ _ _ _ => rfl)

theorem timely_tell {text : Session ρ → String}
    (htext : ∀ shown more s, text (amid shown more s) = text s) :
    Timely fun s : Session ρ => s.tell (text s) := by
  refine .lift (fun s => Transcript.timely (Console.timely_write (text s)))
    (fun s : Session ρ => s.machine.surroundings.channel) (fun channel s => s.withChannel channel)
    ?_ (fun _ => rfl) (fun _ _ => rfl) (fun _ _ _ => rfl) (fun _ _ _ _ => rfl)
    (fun _ _ _ _ => rfl)
  intro shown more s
  simp only [htext]

/-- What is shown before a command does not depend on what was shown before that, or on what is
still to be typed. -/
theorem timely_invite : Timely fun s : Session ρ => s.tell s.invitation :=
  timely_tell fun _ _ _ => rfl

/-- Going back shows a message at most, and whether it does depends on the history, not on the
input. -/
theorem timely_goBack : Timely (goBack : Session ρ → Reply (Session ρ) Unit) := by
  refine .andThen (timely_machine Machine.timely_unstep) fun undone => ?_
  cases undone with
  | true => exact .of_quiet (fun _ => rfl) (fun _ _ _ => rfl)
  | false => exact timely_tell fun _ _ _ => rfl

theorem proceeds_readCommand (s : Session ρ) :
    (console s).Proceeds (console s.readCommand.state) :=
  .of_read rfl (Input.suffix_readLine _)

/-- A command that is there is read in the same way, whatever follows. -/
theorem foreseen_readCommand {s : Session ρ} {more : List UInt8} (hready : (console s).Ready more)
    (hcommand : more = [] ∨ (console s).input.unread ≠ []) (shown : ByteArray) :
    Foreseen shown more s.readCommand (amid shown more s).readCommand := by
  obtain ⟨⟨state, ⟨⟨⟨input, sink⟩, output⟩, guard, dice⟩, division, history⟩, steps, limit⟩ := s
  have hread : (input.followed more).readLine = input.readLine.within (Input.followed more) := by
    rcases hcommand with rfl | hcommand
    · simp only [Reply.within, Input.followed_nil]
    · exact Input.readLine_followed hready.joins hcommand
  refine .of_eq ?_
  simp only [readCommand, atChannel, Transcript.command, Input.command]
  show Reply.map _ (Reply.within (Reply.within (Reply.map _ (input.followed more).readLine) _) _) =
    _
  rw [hread]
  rfl

/-- Where there is no command, the session is to be quit. -/
theorem readCommand_of_starved {s : Session ρ} (h : (console s).input.unread = []) :
    s.readCommand = .done .quit s := by
  obtain ⟨⟨_, ⟨⟨⟨⟨pending, unread⟩, sink⟩, output⟩, guard, dice⟩, division, history⟩, n, k⟩ := s
  have hunread : unread = [] := h
  subst hunread
  rfl

/-- While there is input a command takes some of it, so sessions come to an end. -/
theorem unread_readCommand_lt {s : Session ρ} (h : (console s).input.unread ≠ []) :
    (console s.readCommand.state).input.unread.length < (console s).input.unread.length := by
  have hshorter := Text.length_breakAfter_snd_lt Input.isLineFeed h
  show (console s).input.readLine.state.unread.length < _
  simp only [Input.readLine, List.isEmpty_eq_false_iff.2 h, Bool.false_eq_true, if_false]
  split
  · exact hshorter
  · exact hshorter

variable [DirectionSource ρ]

theorem timely_goForward : Timely (goForward : Session ρ → Reply (Session ρ) Bool) := by
  refine .andThen (timely_machine Machine.timely_step) fun outcome => ?_
  cases outcome with
  | executed => exact .of_quiet (fun _ => rfl) (fun _ _ _ => rfl)
  | halted | stalled => exact .done _

theorem timely_obey (command : Command) :
    Timely (obey command : Session ρ → Reply (Session ρ) Bool) := by
  cases command with
  | quit => exact .done false
  | back => exact timely_goBack.map _
  | forward => exact timely_goForward

theorem timely_obeyed (command : Command) :
    Timely (obeyed command : Session ρ → Reply (Session ρ) Bool) := by
  refine (timely_obey command).andThen fun goesOn => ?_
  cases goesOn with
  | true => exact (timely_tell fun _ _ _ => rfl).map _
  | false => exact .done false

/-! ### Turns -/

theorem proceeds_commanded (s : Session ρ) :
    (console s).Proceeds (console (s.readCommand.andThen obeyed).state) :=
  proceeds_andThen s.proceeds_readCommand fun command => (timely_obeyed command).proceeds

/-- A turn begins with the invitation. -/
theorem proceeds_turn (s : Session ρ) :
    (console (s.tell s.invitation).state).Proceeds (console s.turn.state) :=
  proceeds_andThen (.refl _) fun () => proceeds_commanded

/-- **A turn for which a command is there** cannot tell what will be typed later. -/
theorem foreseen_turn {s : Session ρ} {more : List UInt8} (hready : (console s).Ready more)
    (hcommand : more = [] ∨ (console s).input.unread ≠ []) (shown : ByteArray) :
    Foreseen shown more s.turn (amid shown more s).turn := by
  have hready' := hready.of_proceeds (timely_invite.proceeds s)
  refine (timely_invite.foreseen hready shown).andThen (fun () => proceeds_commanded) fun () _ => ?_
  refine (foreseen_readCommand hready' hcommand shown).andThen
    (fun command => (timely_obeyed command).proceeds) fun command _ => ?_
  exact (timely_obeyed command).foreseen (hready'.of_proceeds (proceeds_readCommand _)) shown

/-- Where there is no command, a turn is over after the invitation. -/
theorem turn_of_starved {s : Session ρ} (hs : s.Unlimited) (h : (console s).input.unread = []) :
    s.turn = .done false (s.tell s.invitation).state := by
  obtain ⟨channel, htell, -⟩ := tell_spec hs s.invitation
  have hread : (s.tell s.invitation).state.readCommand = _ := readCommand_of_starved h
  rw [htell, Reply.state_done] at hread
  rw [turn, htell, Reply.done_andThen, hread]
  rfl

/-- A turn that goes on has read a command. -/
theorem unread_turn_lt {s : Session ρ} (h : s.turn.result = .ok true) :
    (console s.turn.state).input.unread.length < (console s).input.unread.length := by
  rw [turn] at h ⊢
  obtain ⟨⟨⟩, htell, h⟩ := Reply.result_andThen_eq_ok.1 h
  rw [Reply.andThen_of_ok htell]
  obtain ⟨command, hread, h⟩ := Reply.result_andThen_eq_ok.1 h
  rw [Reply.andThen_of_ok hread]
  have hcommand : (console (s.tell s.invitation).state).input.unread ≠ [] := by
    intro hnone
    rw [readCommand_of_starved hnone] at hread
    cases hread
    cases h
  have hrest := (timely_obeyed command).proceeds (s.tell s.invitation).state.readCommand.state
  exact Nat.lt_of_le_of_lt hrest.unread.length_le (unread_readCommand_lt hcommand)

end Session

end Retrace
