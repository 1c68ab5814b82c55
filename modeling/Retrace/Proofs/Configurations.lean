import Retrace.Channel.Terminal
import Retrace.Channel.Transcript
import Retrace.Proofs.Attempts
import Retrace.Proofs.Searches

/-!
# The plain and the watched machine

A machine is run at a terminal without a history, or it is watched at a transcript with one. The
program must not notice. This file compares the two step by step: they are `Alike` in everything
that a program can see, the input included, and stay so, even where lines of it are no text.

What they show differs, and the difference is accounted for (`Follows`). The terminal shows what the
transcript collects, and besides that a prompt for each attempt to read.
-/

namespace Retrace

variable {η ρ : Type}

/-! ### Channels -/

/-- The terminal and the transcript have the same input, and both can always write. -/
structure Terminal.Matches (t : Terminal) (x : Transcript) : Prop where
  input : x.console.input = t.console.input
  unlimited : t.console.sink.capacity = none
  unlimited' : x.console.sink.capacity = none

/-- An instruction led from the terminal `t` to `t'` and from the transcript `x` to `x'`. What it
added to the screen follows from what it added to the output, and from how it ended. -/
def Follows (i? : Option Instruction) (ended : Except Fault Unit) (t t' : Terminal)
    (x x' : Transcript) : Prop :=
  match i? with
  | some .printInt | some .printChar =>
    ∃ text, x'.output = x.output ++ text ∧ t'.console.sink = t.console.sink.append text
  | some .readChar =>
    x'.output = x.output ∧ t'.console.sink = t.console.sink.append Console.charPrompt
  | some .readInt =>
    -- One prompt for each character that is taken, and one more for the attempt that fails.
    x'.output = x.output ∧ ∃ taken result i, t.console.input.Search taken result i ∧
      ended = result.map (fun _ => ()) ∧
      t'.console.sink = t.console.sink.append (Console.prompts (Console.attempts taken result))
  | _ => x'.output = x.output ∧ t'.console.sink = t.console.sink

namespace Terminal.Matches

variable {t : Terminal} {x : Transcript}

/-- Printing is not prompting: the terminal shows the text itself, and the transcript collects
it. -/
theorem emit (h : t.Matches x) (text : String) :
    ∃ t' x', Channel.emit text t = .done () t' ∧ Channel.emit text x = .done () x' ∧
      t'.Matches x' ∧ x'.output = x.output ++ text ∧
      t'.console.sink = t.console.sink.append text := by
  obtain ⟨input, sink⟩ := t
  refine ⟨⟨⟨input, sink.append text⟩⟩, _, ?_, rfl, ⟨h.input, h.unlimited, h.unlimited'⟩, rfl, rfl⟩
  simp only [Channel.emit, Console.write, Sink.write_of_unlimited h.unlimited]
  rfl

/-- Both read the same character, and the terminal has prompted for it first. -/
theorem takeChar (h : t.Matches x) :
    ∃ result t' x' events, Channel.takeChar t = ⟨result, t', events⟩ ∧
      Channel.takeChar x = ⟨result, x', events⟩ ∧ t'.Matches x' ∧ x'.output = x.output ∧
      t'.console.sink = t.console.sink.append Console.charPrompt := by
  obtain ⟨sink, htake, hsink, hprompt⟩ := Console.takeChar_of_next .always h.unlimited
  obtain ⟨sink', htake', hsink', _⟩ := Console.takeChar_of_next .whenDry h.unlimited'
  rw [h.input] at htake'
  refine ⟨t.console.input.next.result, ⟨⟨t.console.input.next.state, sink⟩⟩,
    ⟨⟨t.console.input.next.state, sink'⟩, x.output⟩, t.console.input.next.events, ?_, ?_,
    ⟨rfl, hsink, hsink'⟩, rfl, hprompt rfl⟩
  · simp only [Channel.takeChar, htake]
    rfl
  · simp only [Channel.takeChar, htake']
    rfl

/-- Both search the same input; the terminal prompts once for every attempt of the search. -/
theorem takeDigit (h : t.Matches x) :
    ∃ taken result i t' x', t.console.input.Search taken result i ∧
      Channel.takeDigit t = ⟨result, t', []⟩ ∧ Channel.takeDigit x = ⟨result, x', []⟩ ∧
      t'.Matches x' ∧ x'.output = x.output ∧
      t'.console.sink =
        t.console.sink.append (Console.prompts (Console.attempts taken result)) := by
  obtain ⟨taken, result, i, hsearch⟩ := t.console.input.exists_search
  have hsearch' : x.console.input.Search taken result i := by
    rw [h.input]
    exact hsearch
  obtain ⟨sink, htake, hsink, hprompts⟩ :=
    Console.takeDigit_of_search .always hsearch h.unlimited
  obtain ⟨sink', htake', hsink', _⟩ :=
    Console.takeDigit_of_search .whenDry hsearch' h.unlimited'
  refine ⟨taken, result, i, ⟨⟨i.restored taken result, sink⟩⟩,
    ⟨⟨i.restored taken result, sink'⟩, x.output⟩, hsearch, ?_, ?_, ⟨rfl, hsink, hsink'⟩, rfl,
    hprompts rfl⟩
  · simp only [Channel.takeDigit, htake]
    rfl
  · simp only [Channel.takeDigit, htake']
    rfl

end Terminal.Matches

/-! ### Instructions -/

/-- The surroundings are the same but for the channels, and these match. -/
structure Surroundings.Alike (plain : Surroundings Terminal η ρ)
    (watched : Surroundings Transcript η ρ) : Prop where
  guard : watched.guard = plain.guard
  dice : watched.dice = plain.dice
  channel : plain.channel.Matches watched.channel

/-- Two answers to the same instruction, in surroundings that were alike: the results are the same,
the surroundings are alike again, and the screen follows. -/
structure Accord (i? : Option Instruction) (a : Surroundings Terminal η ρ)
    (b : Surroundings Transcript η ρ) {α : Type} (r : Reply (Surroundings Terminal η ρ) α)
    (r' : Reply (Surroundings Transcript η ρ) α) : Prop where
  result : r'.result = r.result
  alike : r.state.Alike r'.state
  follows : Follows i? (r.result.map fun _ => ()) a.channel r.state.channel b.channel
    r'.state.channel

namespace Accord

variable {a : Surroundings Terminal η ρ} {b : Surroundings Transcript η ρ}

/-- Where no instruction was fetched, the channels have to be left alone. -/
theorem quiet {α : Type} {r : Reply (Surroundings Terminal η ρ) α}
    {r' : Reply (Surroundings Transcript η ρ) α} (hresult : r'.result = r.result)
    (halike : r.state.Alike r'.state) (ha : r.state.channel = a.channel)
    (hb : r'.state.channel = b.channel) : Accord none a b r r' := by
  refine ⟨hresult, halike, ?_⟩
  rw [ha, hb]
  exact ⟨rfl, rfl⟩

theorem map {i? : Option Instruction} {α β : Type} {r : Reply (Surroundings Terminal η ρ) α}
    {r' : Reply (Surroundings Transcript η ρ) α} (h : Accord i? a b r r') (f : α → β) :
    Accord i? a b (r.map f) (r'.map f) := by
  refine ⟨congrArg (Except.map f) h.result, h.alike, ?_⟩
  have hended : (r.map f).result.map (fun _ => ()) = r.result.map fun _ => () := by
    rw [Reply.result_map]
    cases r.result <;> rfl
  rw [hended]
  exact h.follows

end Accord

namespace Machine

variable [EdgeGuard η] [DirectionSource ρ]

/-- One case for each instruction. Only printing and reading involve the channel, and there the two
channels match. -/
theorem resolve_accord (division : DivisionPolicy) (s : State) (i : Instruction)
    {a : Surroundings Terminal η ρ} {b : Surroundings Transcript η ρ} (h : a.Alike b) :
    Accord (some i) a b (resolve division s i a) (resolve division s i b) := by
  obtain ⟨t, guard, dice⟩ := a
  obtain ⟨x, guard', dice'⟩ := b
  obtain ⟨rfl, rfl, h⟩ := h
  cases i with
  | printInt =>
    obtain ⟨t', x', ht, hx, hmatches, houtput, hscreen⟩ :=
      h.emit (" " ++ (s.stack.peek 0).repr ++ " ")
    simp only [resolve, ht, hx]
    exact ⟨rfl, ⟨rfl, rfl, hmatches⟩, _, houtput, hscreen⟩
  | printChar =>
    obtain ⟨t', x', ht, hx, hmatches, houtput, hscreen⟩ :=
      h.emit (charOfCode (s.stack.peek 0)).toString
    simp only [resolve, ht, hx]
    exact ⟨rfl, ⟨rfl, rfl, hmatches⟩, _, houtput, hscreen⟩
  | readChar =>
    obtain ⟨result, t', x', events, ht, hx, hmatches, houtput, hscreen⟩ := h.takeChar
    simp only [resolve, ht, hx]
    exact ⟨rfl, ⟨rfl, rfl, hmatches⟩, houtput, hscreen⟩
  | readInt =>
    obtain ⟨taken, result, i, t', x', hsearch, ht, hx, hmatches, houtput, hscreen⟩ := h.takeDigit
    simp only [resolve, ht, hx]
    refine ⟨rfl, ⟨rfl, rfl, hmatches⟩, houtput, taken, result, i, hsearch, ?_, hscreen⟩
    cases result <;> rfl
  | arith op =>
    simp only [resolve]
    split
    · exact ⟨rfl, ⟨rfl, rfl, h⟩, rfl, rfl⟩
    · exact ⟨rfl, ⟨rfl, rfl, h⟩, rfl, rfl⟩
  | _ => exact ⟨rfl, ⟨rfl, rfl, h⟩, rfl, rfl⟩

theorem interpret_accord (division : DivisionPolicy) (s : State) (c : Char)
    {a : Surroundings Terminal η ρ} {b : Surroundings Transcript η ρ} (h : a.Alike b) :
    Accord (if s.mode = .normal then some (.decode c) else none) a b (interpret division s c a)
      (interpret division s c b) := by
  cases hmode : s.mode with
  | text =>
    simp only [interpret, hmode]
    exact .quiet rfl h rfl rfl
  | normal =>
    simp only [interpret, hmode]
    exact resolve_accord division s (.decode c) h

/-! ### Steps -/

/-- The machines are the same in everything that a program can see. Their histories may differ. -/
structure Alike (plain : Machine Terminal η ρ) (watched : Machine Transcript η ρ) : Prop where
  state : watched.state = plain.state
  division : watched.division = plain.division
  surroundings : plain.surroundings.Alike watched.surroundings

omit [DirectionSource ρ] in
theorem fetch_alike (s : State) {a : Surroundings Terminal η ρ} {b : Surroundings Transcript η ρ}
    (h : a.Alike b) :
    ∃ result a' b' events, fetch s a = ⟨result, a', events⟩ ∧ fetch s b = ⟨result, b', events⟩ ∧
      a'.Alike b' ∧ a'.channel = a.channel ∧ b'.channel = b.channel := by
  obtain ⟨t, guard, dice⟩ := a
  obtain ⟨x, guard', dice'⟩ := b
  obtain ⟨rfl, rfl, h⟩ := h
  exact ⟨_, _, _, _, rfl, rfl, ⟨rfl, rfl, h⟩, rfl, rfl⟩

namespace Alike

variable {plain : Machine Terminal η ρ} {watched : Machine Transcript η ρ}

theorem attempt (h : plain.Alike watched) :
    Accord plain.instruction? plain.surroundings watched.surroundings plain.attempt
      watched.attempt := by
  obtain ⟨hstate, hdivision, haround⟩ := h
  simp only [Machine.attempt, instruction?, hstate, hdivision]
  cases hrun : plain.state.running with
  | false => exact .quiet rfl haround rfl rfl
  | true =>
    obtain ⟨result, a, b, events, hplain, hwatched, halike, ha, hb⟩ :=
      fetch_alike plain.state haround
    simp only [hplain, hwatched, Bool.not_true, Bool.false_eq_true, if_false, true_and]
    rcases result with fault | _ | c
    · simp only [ite_self]
      exact .quiet rfl halike ha hb
    · simp only [ite_self]
      exact .quiet rfl halike ha hb
    · obtain ⟨hresult, halike', hfollows⟩ :=
        (interpret_accord plain.division plain.state c halike).map Sum.inr
      rw [ha, hb] at hfollows
      exact ⟨hresult, halike', hfollows⟩

omit [EdgeGuard η] [DirectionSource ρ] in
/-- From the same decision in matching surroundings the two machines proceed alike. -/
theorem concluded (h : plain.Alike watched) {a : Surroundings Terminal η ρ}
    {b : Surroundings Transcript η ρ} (hab : a.Alike b) (result : Except Fault (Outcome ⊕ Deed)) :
    (plain.concluded a result).Alike (watched.concluded b result) := by
  match result with
  | .error _ | .ok (.inl _) => exact ⟨h.state, h.division, hab⟩
  | .ok (.inr deed) =>
    refine ⟨?_, h.division, hab⟩
    simp only [Machine.concluded, h.state]

/-- A step keeps the machines alike, and shows what it should. -/
theorem step (h : plain.Alike watched) :
    watched.step.result = plain.step.result ∧ plain.step.state.Alike watched.step.state ∧
      Follows plain.instruction? (plain.step.result.map fun _ => ()) plain.surroundings.channel
        plain.step.state.surroundings.channel watched.surroundings.channel
        watched.step.state.surroundings.channel := by
  obtain ⟨hresult, halike, hfollows⟩ := h.attempt
  have hended : plain.step.result.map (fun _ => ()) = plain.attempt.result.map fun _ => () := by
    rw [result_step]
    cases plain.attempt.result <;> rfl
  rw [hended, result_step, result_step, state_step, state_step, surroundings_concluded,
    surroundings_concluded, hresult]
  exact ⟨rfl, h.concluded halike _, hfollows⟩

/-- The run lemma, by induction on the number of steps. -/
theorem stepped (h : plain.Alike watched) (n : Nat) :
    (plain.stepped n).Alike (watched.stepped n) := by
  induction n with
  | zero => exact h
  | succ n ih => exact ih.step.2.1

end Alike

/-- **Watching changes nothing.** A machine at a terminal and one at a transcript that are alike,
the first as a rule without a history and the second with one of any limit, answer every step alike
and stay alike, and what the terminal shows follows from what the transcript collects. -/
theorem alike_stepped (plain : Machine Terminal η ρ) (watched : Machine Transcript η ρ)
    (h : plain.Alike watched) (n : Nat) :
    (watched.stepped n).step.result = (plain.stepped n).step.result ∧
      (plain.stepped (n + 1)).Alike (watched.stepped (n + 1)) ∧
      Follows (plain.stepped n).instruction? ((plain.stepped n).step.result.map fun _ => ())
        (plain.stepped n).surroundings.channel (plain.stepped (n + 1)).surroundings.channel
        (watched.stepped n).surroundings.channel (watched.stepped (n + 1)).surroundings.channel :=
  (h.stepped n).step

/-- Input with a line that is no text, and no digit before it. -/
def mumbled : Input := { pending := ['a'], unread := [98, 10, 255, 10, 55, 10] }

/-- A program that prints a number, reads a character and then looks for a digit. -/
def asking : Grid := ⟨#[#['7', '.', '~', '&']], 4, 1, 16⟩

def unwatched : Machine Terminal EdgePolicy Xoshiro :=
  start asking { console := { input := mumbled } } .standard default .off

def overheard : Machine Transcript EdgePolicy Xoshiro :=
  start asking { console := { input := mumbled } } .standard default (.kept (.bounded 1))

theorem alike_stepped_asking :
    unwatched.Alike overheard ∧
      (unwatched.stepped 3).step.result = .error (.stream .invalidText) ∧
      (overheard.stepped 3).step.result = .error (.stream .invalidText) ∧
      (unwatched.stepped 4).Alike (overheard.stepped 4) ∧
      (unwatched.stepped 4).surroundings.channel.console.sink =
        ({} : Sink).append " 7 : (0-9): (0-9): (0-9): " := by
  have halike : unwatched.Alike overheard := ⟨rfl, rfl, rfl, rfl, rfl, rfl, rfl⟩
  obtain ⟨hresult, hafter, _, taken, result, i, hsearch, hended, hsink⟩ :=
    alike_stepped unwatched overheard halike 3
  -- The search of the last step passes over two characters, and at the third attempt it fails.
  have hcourse : Input.Search ⟨[], [98, 10, 255, 10, 55, 10]⟩ ['b', '\n']
      (.error (.stream .invalidText)) ⟨[], [55, 10]⟩ :=
    .passed rfl rfl (.passed rfl rfl (.failed rfl))
  obtain ⟨rfl, rfl, _⟩ := hcourse.unique hsearch
  have hfault : (unwatched.stepped 3).step.result = .error (.stream .invalidText) := by
    match h : (unwatched.stepped 3).step.result with
    | .ok outcome =>
      rw [h] at hended
      cases hended
    | .error fault =>
      rw [h] at hended
      cases hended
      rfl
  refine ⟨halike, hfault, hresult.trans hfault, hafter, ?_⟩
  rw [hsink]
  rfl

end Machine

end Retrace
