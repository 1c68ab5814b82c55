import Retrace.Channel.Transcript
import Retrace.Proofs.Attempts

/-!
# What the dice are thrown for

Of all that a machine does, one thing needs its source of directions: a `?` that is executed outside
text mode. Such a step is a *throw* (`Machine.Throws`), and it draws once. No other step draws, and
no unstep puts a draw back, so the dice after a run are those of the start after as many draws as
there were throws (`dice_calls`), whatever else was tried, failed or undone in between.

As long as there was no throw, other dice would have made no difference (`calls_withDice`). These
may be of any kind: the machines that are compared may differ in the type of their source, too.
-/

namespace Retrace

/-- The source after `n` draws. -/
def DirectionSource.drawn {ρ : Type} [DirectionSource ρ] : Nat → ρ → ρ
  | 0, dice => dice
  | n + 1, dice => drawn n (draw dice).2

/-- Draws add up: drawing from dice that were drawn from is drawing more often. -/
theorem DirectionSource.drawn_add {ρ : Type} [DirectionSource ρ] (n k : Nat) (dice : ρ) :
    drawn (n + k) dice = drawn k (drawn n dice) := by
  induction n generalizing dice with
  | zero => rw [Nat.zero_add]; rfl
  | succ n ih => rw [Nat.succ_add]; exact ih (draw dice).2

/-- An operation on a part, and then another one: if the second is lifted from the part, then so are
the two in sequence. -/
theorem Reply.within_andThen {σ τ : Type u} {α β : Type v} {r : Reply σ α} {put : σ → τ}
    {next : α → σ → Reply σ β} {next' : α → τ → Reply τ β}
    (h : ∀ a, r.result = .ok a → next' a (put r.state) = (next a r.state).within put) :
    (r.within put).andThen next' = (r.andThen next).within put := by
  obtain ⟨_ | a, s, events⟩ := r
  · rfl
  · rw [within, andThen, h a rfl]
    rfl

variable {π η ρ ρ' : Type}

def Surroundings.withDice (dice : ρ') (around : Surroundings π η ρ) : Surroundings π η ρ' :=
  { around with dice }

namespace Machine

def withDice (dice : ρ') (m : Machine π η ρ) : Machine π η ρ' :=
  { m with surroundings := m.surroundings.withDice dice }

variable [Channel π] [EdgeGuard η] [DirectionSource ρ] [DirectionSource ρ']

/-! ### Throws -/

/-- The next step executes a `?`, and not as text. -/
structure Throws (m : Machine π η ρ) : Prop where
  normal : m.state.mode = .normal
  fetched : (fetch m.state m.surroundings).result = .ok (some '?')
  executed : m.step.result = .ok .executed

omit [Channel π] [DirectionSource ρ] in
theorem fetch_of_instruction? {m : Machine π η ρ} {i : Instruction}
    (h : m.instruction? = some i) :
    m.state.running = true ∧ m.state.mode = .normal ∧
      ∃ c, (fetch m.state m.surroundings).result = .ok (some c) ∧ Instruction.decode c = i := by
  rw [instruction?] at h
  split at h
  · next hactive =>
    split at h
    · next c hfetch => exact ⟨hactive.1, hactive.2, c, hfetch, Option.some.inj h⟩
    · cases h
  · cases h

/-- A `?` that is fetched in normal mode is executed, since nothing about it can fail. -/
theorem throws_iff {m : Machine π η ρ} : m.Throws ↔ m.instruction? = some .random := by
  constructor
  · rintro ⟨hnormal, hfetch, hexecuted⟩
    obtain ⟨c, deed, hexec⟩ := result_step_eq_executed_iff.1 hexecuted
    exact instruction?_of_fetch hexec.running hnormal hfetch
  · intro h
    obtain ⟨hrunning, hnormal, c, hfetch, hdecode⟩ := fetch_of_instruction? h
    have hc : '?' = c := by
      have hsymbol := Instruction.symbol_decode (c := c) (by rw [hdecode]; decide)
      rwa [hdecode] at hsymbol
    subst hc
    have hexec : m.Executes '?' (.turn (DirectionSource.draw m.surroundings.dice).1) := by
      refine ⟨hrunning, hfetch, ?_⟩
      rw [interpret, hnormal]
      rfl
    exact ⟨hnormal, hfetch, hexec.step_eq.1⟩

instance (m : Machine π η ρ) : Decidable m.Throws := decidable_of_iff _ throws_iff.symm

/-- The number of throws in a call. -/
def throwsIn (m : Machine π η ρ) (c : Call) : Nat := if c = .step ∧ m.Throws then 1 else 0

def throws (m : Machine π η ρ) : List Call → Nat
  | [] => 0
  | c :: rest => m.throwsIn c + (m.call c).throws rest

theorem throwsIn_step_of_throws {m : Machine π η ρ} (h : m.Throws) : m.throwsIn .step = 1 :=
  if_pos ⟨rfl, h⟩

theorem throwsIn_eq_zero_iff {m : Machine π η ρ} {c : Call} :
    m.throwsIn c = 0 ↔ (c = .step → ¬ m.Throws) := by
  rw [throwsIn]
  split
  · next h => simp [h]
  · next h => simpa using h

/-! ### Draws -/

/-- Of all the instructions the random turn draws, and it draws once. -/
theorem dice_resolve (division : DivisionPolicy) (s : State) (i : Instruction)
    (around : Surroundings π η ρ) :
    (resolve division s i around).state.dice =
      if i = .random then (DirectionSource.draw around.dice).2 else around.dice := by
  cases i with
  | arith op =>
    simp only [resolve]
    split <;> rfl
  | _ => rfl

/-- A random turn cannot fail, so a throw draws exactly once. -/
theorem dice_step_of_throws {m : Machine π η ρ} (h : m.Throws) :
    m.step.state.surroundings.dice = (DirectionSource.draw m.surroundings.dice).2 := by
  obtain ⟨c, deed, hexec⟩ := result_step_eq_executed_iff.1 h.executed
  have hc : '?' = c := by
    have hfetched := h.fetched
    rw [hexec.fetched] at hfetched
    simpa using hfetched.symm
  subst hc
  rw [hexec.step_eq.2, (hexec.resolved h.normal).2, dice_resolve]
  rfl

theorem dice_step_of_not_throws {m : Machine π η ρ} (h : ¬ m.Throws) :
    m.step.state.surroundings.dice = m.surroundings.dice := by
  rcases m.step_cases with ⟨c, deed, hexec⟩ | ⟨_, huntouched⟩
  · rw [hexec.step_eq.2]
    cases hmode : m.state.mode with
    | text =>
      rw [(hexec.literal hmode).2]
      rfl
    | normal =>
      have hother : Instruction.decode c ≠ .random := by
        intro hrandom
        apply h
        rw [throws_iff, instruction?_of_fetch hexec.running hmode hexec.fetched, hrandom]
      rw [(hexec.resolved hmode).2, dice_resolve, if_neg hother]
      rfl
  · exact huntouched.dice

omit [EdgeGuard η] [DirectionSource ρ] in
/-- Undoing does not wind the dice back. -/
theorem dice_unstep (m : Machine π η ρ) :
    m.unstep.state.surroundings.dice = m.surroundings.dice := by
  cases hgroups : m.history.groups with
  | nil => rw [(unstep_of_no_groups hgroups).2]
  | cons group rest => rw [(unstep_of_groups hgroups).2]

/-- The step lemma for the number of draws; calls other than steps draw nothing. -/
theorem dice_call (m : Machine π η ρ) (c : Call) :
    (m.call c).surroundings.dice =
      DirectionSource.drawn (m.throwsIn c) m.surroundings.dice := by
  cases c with
  | step =>
    by_cases h : m.Throws
    · rw [throwsIn_step_of_throws h]
      exact dice_step_of_throws h
    · rw [throwsIn_eq_zero_iff.2 fun _ => h]
      exact dice_step_of_not_throws h
  | unstep => exact m.dice_unstep
  | stop => rfl
  | restart => rfl

/-- **Each throw draws once**, and nothing else draws. -/
theorem dice_calls (m : Machine π η ρ) (cs : List Call) :
    (m.calls cs).surroundings.dice =
      DirectionSource.drawn (m.throws cs) m.surroundings.dice := by
  induction cs generalizing m with
  | nil => rfl
  | cons c rest ih =>
    calc
      _ = DirectionSource.drawn ((m.call c).throws rest) (m.call c).surroundings.dice :=
        ih (m.call c)
      _ = DirectionSource.drawn (m.throws (c :: rest)) m.surroundings.dice := by
        rw [dice_call, ← DirectionSource.drawn_add]
        rfl

/-! ### Other dice -/

/-- An instruction other than the random turn does not look at the dice. -/
theorem resolve_withDice {i : Instruction} (hi : i ≠ .random) (division : DivisionPolicy)
    (s : State) (dice : ρ') (around : Surroundings π η ρ) :
    resolve division s i (around.withDice dice) =
      (resolve division s i around).within (·.withDice dice) := by
  cases i with
  | random => exact absurd rfl hi
  | arith op =>
    simp only [resolve, Surroundings.withDice]
    split <;> rfl
  | _ => rfl

/-- Whether a step throws is decided before it does. -/
theorem throws_withDice_iff {m : Machine π η ρ} {dice : ρ'} :
    (m.withDice dice).Throws ↔ m.Throws := by
  -- What is fetched does not depend on the dice.
  rw [throws_iff, throws_iff]
  exact Iff.rfl

theorem interpret_withDice {m : Machine π η ρ} (hm : ¬ m.Throws) (hrun : m.state.running = true)
    {c : Char} (hfetch : (fetch m.state m.surroundings).result = .ok (some c)) (dice : ρ')
    (around : Surroundings π η ρ) :
    interpret m.division m.state c (around.withDice dice) =
      (interpret m.division m.state c around).within (·.withDice dice) := by
  rw [interpret, interpret]
  cases hmode : m.state.mode with
  | text => rfl
  | normal =>
    apply resolve_withDice
    intro hrandom
    apply hm
    rw [throws_iff, instruction?_of_fetch hrun hmode hfetch, hrandom]

theorem attempt_withDice {m : Machine π η ρ} (hm : ¬ m.Throws) (dice : ρ') :
    (m.withDice dice).attempt = m.attempt.within (·.withDice dice) := by
  have hrunning : (m.withDice dice).state.running = m.state.running := rfl
  have hfetch : fetch (m.withDice dice).state (m.withDice dice).surroundings =
      (fetch m.state m.surroundings).within (·.withDice dice) := rfl
  rw [attempt, attempt, hrunning, hfetch]
  cases hrun : m.state.running with
  | false => rfl
  | true =>
    simp only [Bool.not_true, Bool.false_eq_true, if_false]
    apply Reply.within_andThen
    intro c? hresult
    cases c? with
    | none => rfl
    | some c =>
      have hinterpret := interpret_withDice hm hrun hresult dice
        (fetch m.state m.surroundings).state
      exact congrArg (Reply.map Sum.inr) hinterpret

omit [Channel π] [EdgeGuard η] [DirectionSource ρ] [DirectionSource ρ'] in
theorem concluded_withDice (m : Machine π η ρ) (dice : ρ') (around : Surroundings π η ρ)
    (result : Except Fault (Outcome ⊕ Deed)) :
    (m.withDice dice).concluded (around.withDice dice) result =
      (m.concluded around result).withDice dice := by
  rcases result with fault | outcome | deed
  · rfl
  · rfl
  · rfl

/-- A step that does not throw is the same for all dice, and hands on the ones it was given. -/
theorem step_withDice {m : Machine π η ρ} (hm : ¬ m.Throws) (dice : ρ') :
    (m.withDice dice).step.result = m.step.result ∧
      (m.withDice dice).step.state = m.step.state.withDice dice := by
  rw [result_step, result_step, state_step, state_step, attempt_withDice hm]
  exact ⟨rfl, concluded_withDice m dice _ _⟩

omit [EdgeGuard η] [DirectionSource ρ] [DirectionSource ρ'] in
/-- Undoing has no use for dice at all. -/
theorem unstep_withDice (m : Machine π η ρ) (dice : ρ') :
    (m.withDice dice).unstep.result = m.unstep.result ∧
      (m.withDice dice).unstep.state = m.unstep.state.withDice dice := by
  cases hgroups : m.history.groups with
  | nil =>
    have hgroups' : (m.withDice dice).history.groups = [] := hgroups
    obtain ⟨hresult, hstate⟩ := unstep_of_no_groups hgroups
    obtain ⟨hresult', hstate'⟩ := unstep_of_no_groups hgroups'
    rw [hresult, hresult', hstate, hstate']
    exact ⟨rfl, rfl⟩
  | cons group rest =>
    have hgroups' : (m.withDice dice).history.groups = group :: rest := hgroups
    obtain ⟨hresult, hstate⟩ := unstep_of_groups hgroups
    obtain ⟨hresult', hstate'⟩ := unstep_of_groups hgroups'
    rw [hresult, hresult', hstate, hstate']
    exact ⟨rfl, rfl⟩

/-- A step has the same answer with other dice even where it throws them. -/
theorem result_step_withDice (m : Machine π η ρ) (dice : ρ') :
    (m.withDice dice).step.result = m.step.result := by
  by_cases h : m.Throws
  · have h' : (m.withDice dice).Throws := throws_withDice_iff.2 h
    rw [h.executed, h'.executed]
  · exact (step_withDice h dice).1

/-- The step lemma for the comparison of two runs, as long as no throw occurs. -/
theorem call_withDice {m : Machine π η ρ} {c : Call} (h : m.throwsIn c = 0) (dice : ρ') :
    (m.withDice dice).call c = (m.call c).withDice dice := by
  cases c with
  | step => exact (step_withDice (throwsIn_eq_zero_iff.1 h rfl) dice).2
  | unstep => exact (unstep_withDice m dice).2
  | stop => rfl
  | restart => rfl

/-- **Before the first throw other dice make no difference**, and no throw comes about by them. -/
theorem calls_withDice {m : Machine π η ρ} {cs : List Call} (h : m.throws cs = 0) (dice : ρ') :
    (m.withDice dice).calls cs = (m.calls cs).withDice dice ∧
      (m.withDice dice).throws cs = 0 := by
  induction cs generalizing m with
  | nil => exact ⟨rfl, rfl⟩
  | cons c rest ih =>
    obtain ⟨hfirst, hrest⟩ := Nat.add_eq_zero_iff.1 h
    have hfirst' : (m.withDice dice).throwsIn c = 0 := by
      rw [throwsIn_eq_zero_iff, throws_withDice_iff]
      exact throwsIn_eq_zero_iff.1 hfirst
    have hcall := call_withDice hfirst dice
    obtain ⟨hcalls, hthrows⟩ := ih hrest
    constructor
    · show ((m.withDice dice).call c).calls rest = _
      rw [hcall]
      exact hcalls
    · rw [throws, hfirst', hcall, hthrows]

/-! ### What the dice can be seen in -/

/-- The next call of either kind has the same answer, and the machines are alike in everything but
the dice. -/
structure SameButDice (m : Machine π η ρ) (m' : Machine π η ρ') : Prop where
  step : m'.step.result = m.step.result
  unstep : m'.unstep.result = m.unstep.result
  state : m'.state = m.state
  channel : m'.surroundings.channel = m.surroundings.channel
  guard : m'.surroundings.guard = m.surroundings.guard
  division : m'.division = m.division
  history : m'.history = m.history

theorem sameButDice_withDice (m : Machine π η ρ) (dice : ρ') :
    m.SameButDice (m.withDice dice) where
  step := result_step_withDice m dice
  unstep := (unstep_withDice m dice).1
  state := rfl
  channel := rfl
  guard := rfl
  division := rfl
  history := rfl

/-- In a run of the machines `m` and `m'` their dice are used for throws and for nothing else. -/
structure UsesDiceForThrows (m : Machine π η ρ) (m' : Machine π η ρ') (cs : List Call) : Prop where
  /-- The dice are what as many draws make of them as there were throws. -/
  drawn : (m.calls cs).surroundings.dice =
    DirectionSource.drawn (m.throws cs) m.surroundings.dice
  drawn' : (m'.calls cs).surroundings.dice =
    DirectionSource.drawn (m'.throws cs) m'.surroundings.dice
  /-- As long as there was no throw, the machines are alike and answer alike. -/
  alike : m.throws cs = 0 → (m.calls cs).SameButDice (m'.calls cs)
  /-- As long as there was no throw, each machine has the dice that it had. -/
  untouched : m.throws cs = 0 →
    (m.calls cs).surroundings.dice = m.surroundings.dice ∧
      (m'.calls cs).surroundings.dice = m'.surroundings.dice

/-- **Dice are for throws only.** Machines that differ in their dice, and only in these, cannot be
told apart before the first throw; and how often the dice were used can be told from the throws,
those included that were undone. -/
theorem usesDiceForThrows_calls (m : Machine π η ρ) (dice : ρ') (cs : List Call) :
    m.UsesDiceForThrows (m.withDice dice) cs where
  drawn := m.dice_calls cs
  drawn' := (m.withDice dice).dice_calls cs
  alike := by
    intro h
    rw [(calls_withDice h dice).1]
    exact sameButDice_withDice (m.calls cs) dice
  untouched := by
    intro h
    rw [dice_calls, dice_calls, h, (calls_withDice h dice).2]
    exact ⟨rfl, rfl⟩

/-- A program with a `?` in a text and another one behind it. -/
def wavering : Machine Transcript EdgePolicy Xoshiro :=
  start ⟨#[#['"', '?', '"', '?']], 4, 1, 16⟩ (.scripted "") .standard default (.kept .unbounded)

theorem usesDiceForThrows_calls_wavering :
    let quoted : List Call := [.step, .step, .step]
    let thrown := quoted ++ [.step, .unstep, .step]
    wavering.throws quoted = 0 ∧
      (wavering.calls quoted).state.stack.toList = [63] ∧
      (wavering.calls quoted).SameButDice ((wavering.withDice (Xoshiro.ofSeed 7)).calls quoted) ∧
      wavering.throws thrown = 2 ∧
      (wavering.calls thrown).surroundings.dice =
        DirectionSource.drawn 2 wavering.surroundings.dice := by
  intro quoted thrown
  have hquoted : wavering.throws quoted = 0 := by decide
  have hthrown : wavering.throws thrown = 2 := by decide
  refine ⟨hquoted, rfl, ?_, hthrown, ?_⟩
  · exact (usesDiceForThrows_calls wavering (Xoshiro.ofSeed 7) quoted).alike hquoted
  · have hdrawn := (usesDiceForThrows_calls wavering (Xoshiro.ofSeed 7) thrown).drawn
    rwa [hthrown] at hdrawn

end Machine

end Retrace
