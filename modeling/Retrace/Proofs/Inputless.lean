import Retrace.Channel.Terminal
import Retrace.Channel.Transcript
import Retrace.Proofs.Attempts
import Retrace.Proofs.Searches

/-!
# Steps that do not read

Where a program does not ask for input, it does not matter which input there is. Two machines, one
at a terminal and one at a transcript, that are the same but for their channels and histories
(`Akin`) answer such a step in the same way and stay akin, and the transcript's console is left
alone.

They also warn about the same things. A step makes events besides those of the guard, but these are
for an observer who wants to know more than warnings and errors (`warnings_step`).
-/

namespace Retrace

/-! ### Warnings -/

namespace Event

/-- What an observer of warnings and errors sees. -/
def warnings (events : List Event) : List Event := events.filter (·.visibleAt .warn)

@[simp] theorem warnings_nil : warnings [] = [] := rfl

@[simp] theorem warnings_append (first second : List Event) :
    warnings (first ++ second) = warnings first ++ warnings second :=
  List.filter_append first second

@[simp] theorem warnings_stepping (position : Point) (cell : Char) (mode : Mode)
    (events : List Event) : warnings (.stepping position cell mode :: events) = warnings events :=
  rfl

@[simp] theorem warnings_finished (steps : Nat) (outcome : Outcome) :
    warnings [.finished steps outcome] = [] := rfl

end Event

open Event (warnings)

/-- Nobody is warned of a step that is forgotten. -/
@[simp] theorem History.warnings_extend (changes : List Change) (h : History) :
    warnings (h.extend changes).2 = [] := by
  rw [extend]
  generalize changes.foldl (fun h c => h.record c) h = noted
  cases noted with
  | off => rfl
  | kept j =>
    show warnings (Journal.trim j.limit (j.pending :: j.groups)).2 = []
    cases j.limit with
    | none => rfl
    | some n =>
      apply List.filter_eq_nil_iff.2
      intro event hevent
      rw [List.eq_of_mem_replicate hevent]
      exact Bool.false_ne_true

namespace Machine

section Events

variable {π η ρ : Type} [Channel π] [EdgeGuard η] [DirectionSource ρ]

/-- The warnings of a step are those of its first half. -/
theorem warnings_step (m : Machine π η ρ) :
    warnings m.step.events = warnings m.attempt.events := by
  obtain ⟨state, around, division, history⟩ := m
  cases hrun : state.running with
  | false =>
    simp only [step, attempt, hrun, Bool.not_false, if_true]
    rfl
  | true =>
    simp only [step, attempt, hrun, Bool.not_true, Bool.false_eq_true, if_false]
    generalize fetch state around = r
    obtain ⟨result, around', events⟩ := r
    rcases result with fault | _ | c
    · rfl
    · simp [Reply.andThen, Reply.done]
    · simp only [Reply.andThen, Reply.map]
      generalize interpret division state c around' = r
      obtain ⟨result, around'', more⟩ := r
      cases result with
      | error fault => simp
      | ok deed => simp

omit [Channel π] [DirectionSource ρ] in
def Asks (m : Machine π η ρ) : Prop :=
  m.instruction? = some .readInt ∨ m.instruction? = some .readChar

instance (m : Machine π η ρ) : Decidable m.Asks := inferInstanceAs (Decidable (_ ∨ _))

end Events

end Machine

/-! ### Machines that differ in their channels -/

variable {η ρ : Type}

/-- The surroundings are the same but for the channels, and the terminal can always write. -/
structure Surroundings.Akin (plain : Surroundings Terminal η ρ)
    (watched : Surroundings Transcript η ρ) : Prop where
  guard : watched.guard = plain.guard
  dice : watched.dice = plain.dice
  unlimited : plain.channel.console.sink.capacity = none

/-- Two answers that are the same, in surroundings that stay akin. The transcript's console is still
`console`. -/
structure Unison (console : Console) {α : Type} (r : Reply (Surroundings Terminal η ρ) α)
    (r' : Reply (Surroundings Transcript η ρ) α) : Prop where
  result : r'.result = r.result
  events : r'.events = r.events
  akin : r.state.Akin r'.state
  console : r'.state.channel.console = console

theorem Unison.map {console : Console} {α β : Type} {r : Reply (Surroundings Terminal η ρ) α}
    {r' : Reply (Surroundings Transcript η ρ) α} (h : Unison console r r') (f : α → β) :
    Unison console (r.map f) (r'.map f) :=
  ⟨congrArg (Except.map f) h.result, h.events, h.akin, h.console⟩

theorem Unison.andThen {console : Console} {α β : Type} {r : Reply (Surroundings Terminal η ρ) α}
    {r' : Reply (Surroundings Transcript η ρ) α} (h : Unison console r r')
    {next : α → Surroundings Terminal η ρ → Reply (Surroundings Terminal η ρ) β}
    {next' : α → Surroundings Transcript η ρ → Reply (Surroundings Transcript η ρ) β}
    (hnext : ∀ a, r.result = .ok a → Unison console (next a r.state) (next' a r'.state)) :
    Unison console (r.andThen next) (r'.andThen next') := by
  obtain ⟨result, state, events⟩ := r
  obtain ⟨result', state', events'⟩ := r'
  obtain ⟨hresult, hevents, hakin, hconsole⟩ := h
  simp only at hresult hevents hakin hconsole hnext
  subst hresult hevents
  cases result' with
  | error fault => exact ⟨rfl, rfl, hakin, hconsole⟩
  | ok a =>
    obtain ⟨hresult, hevents, hakin', hconsole'⟩ := hnext a rfl
    exact ⟨hresult, congrArg (events' ++ ·) hevents, hakin', hconsole'⟩

namespace Machine

variable [EdgeGuard η] [DirectionSource ρ]

/-- One case for each instruction that does not read. Printing goes to the console of the one and to
the output of the other. -/
theorem resolve_unison (division : DivisionPolicy) (s : State) {i : Instruction}
    (hint : i ≠ .readInt) (hchar : i ≠ .readChar) {a : Surroundings Terminal η ρ}
    {b : Surroundings Transcript η ρ} (h : a.Akin b) :
    Unison b.channel.console (resolve division s i a) (resolve division s i b) := by
  obtain ⟨t, guard, dice⟩ := a
  obtain ⟨x, guard', dice'⟩ := b
  obtain ⟨rfl, rfl, h⟩ := h
  have hemit (text : String) : (Channel.emit text t).result = .ok () ∧
      (Channel.emit text t).events = [] ∧
      (Channel.emit text t).state.console.sink.capacity = none := by
    simp only [Channel.emit, Console.write, Sink.write_of_unlimited h]
    exact ⟨rfl, rfl, h⟩
  cases i with
  | readInt => exact absurd rfl hint
  | readChar => exact absurd rfl hchar
  | printInt | printChar =>
    obtain ⟨hresult, hevents, hunlimited⟩ := hemit _
    refine ⟨?_, hevents.symm, ⟨rfl, rfl, hunlimited⟩, rfl⟩
    simp only [resolve, Reply.result_within, Reply.result_map, hresult]
    rfl
  | arith op =>
    simp only [resolve]
    split
    · exact ⟨rfl, rfl, ⟨rfl, rfl, h⟩, rfl⟩
    · exact ⟨rfl, rfl, ⟨rfl, rfl, h⟩, rfl⟩
  | _ => exact ⟨rfl, rfl, ⟨rfl, rfl, h⟩, rfl⟩

omit [DirectionSource ρ] in
theorem fetch_unison (s : State) {a : Surroundings Terminal η ρ} {b : Surroundings Transcript η ρ}
    (h : a.Akin b) : Unison b.channel.console (fetch s a) (fetch s b) := by
  obtain ⟨t, guard, dice⟩ := a
  obtain ⟨x, guard', dice'⟩ := b
  obtain ⟨rfl, rfl, h⟩ := h
  exact ⟨rfl, rfl, ⟨rfl, rfl, h⟩, rfl⟩

/-- The machines are the same in all that a program sees that does not read. -/
structure Akin (plain : Machine Terminal η ρ) (watched : Machine Transcript η ρ) : Prop where
  state : watched.state = plain.state
  division : watched.division = plain.division
  surroundings : plain.surroundings.Akin watched.surroundings

namespace Akin

variable {plain : Machine Terminal η ρ} {watched : Machine Transcript η ρ}

theorem attempt (h : plain.Akin watched) (hasks : ¬ plain.Asks) :
    Unison watched.surroundings.channel.console plain.attempt watched.attempt := by
  obtain ⟨hstate, hdivision, haround⟩ := h
  rw [Machine.attempt, Machine.attempt, hstate, hdivision]
  cases hrun : plain.state.running with
  | false => exact ⟨rfl, rfl, haround, rfl⟩
  | true =>
    have hfetch := fetch_unison plain.state haround
    refine hfetch.andThen ?_
    intro c? hresult
    cases c? with
    | none => exact ⟨rfl, rfl, hfetch.akin, hfetch.console⟩
    | some c =>
      refine Unison.map ?_ Sum.inr
      rw [interpret, interpret, ← hfetch.console]
      cases hmode : plain.state.mode with
      | text => exact ⟨rfl, rfl, hfetch.akin, rfl⟩
      | normal =>
        -- Only here an instruction is carried out, and it is none that reads.
        have hinstruction := instruction?_of_fetch hrun hmode hresult
        refine resolve_unison plain.division plain.state ?_ ?_ hfetch.akin
        · intro hint
          exact hasks (.inl (hinstruction.trans (congrArg some hint)))
        · intro hchar
          exact hasks (.inr (hinstruction.trans (congrArg some hchar)))

omit [EdgeGuard η] [DirectionSource ρ] in
/-- Histories may differ: the watched machine keeps one, and the plain machine need not. -/
theorem concluded (h : plain.Akin watched) {a : Surroundings Terminal η ρ}
    {b : Surroundings Transcript η ρ} (hab : a.Akin b) (result : Except Fault (Outcome ⊕ Deed)) :
    (plain.concluded a result).Akin (watched.concluded b result) := by
  rcases result with _ | _ | deed
  · exact ⟨h.state, h.division, hab⟩
  · exact ⟨h.state, h.division, hab⟩
  · refine ⟨?_, h.division, hab⟩
    simp only [Machine.concluded, h.state]

/-- **A step that does not read** is answered alike, with the same warnings. -/
theorem step (h : plain.Akin watched) (hasks : ¬ plain.Asks) :
    watched.step.result = plain.step.result ∧ plain.step.state.Akin watched.step.state ∧
      warnings watched.step.events = warnings plain.step.events ∧
      watched.step.state.surroundings.channel.console =
        watched.surroundings.channel.console := by
  obtain ⟨hresult, hevents, hakin, hconsole⟩ := h.attempt hasks
  rw [result_step, result_step, state_step, state_step, warnings_step, warnings_step, hresult,
    hevents, surroundings_concluded, hconsole]
  exact ⟨rfl, h.concluded hakin _, rfl, rfl⟩

end Akin

end Machine

end Retrace
