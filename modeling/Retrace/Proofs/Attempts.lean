import Retrace.Proofs.Calls

/-!
# The first half of a step

A step first finds out what is to be done and then does it. Everything that can differ from one
machine to another is in the first half, the *attempt*: it comes to a deed, or to an outcome without
one, or to a fault. The second half follows from it (`result_step`, `state_step`), so two machines
are compared by comparing their attempts.

Of the stack an attempt sees only the operands of the instruction under the pointer
(`attempt_congr`), and the deed that it comes to takes as many (`operands_of_attempt`).
-/

namespace Retrace

/-- The number of values that an instruction takes from the stack. -/
def Instruction.arity : Instruction → Nat
  | .branch _ _ | .negate | .printInt | .printChar | .duplicate | .discard => 1
  | .arith _ | .greater | .swap | .grab => 2
  | .place => 3
  | _ => 0

def Deed.operands : Deed → Nat
  | .branch _ _ | .negate | .printInt _ | .printChar _ | .duplicate | .discard => 1
  | .compute _ | .compare | .swap | .grab _ => 2
  | .place _ _ => 3
  | _ => 0

def State.withStack (stack : Stack) (s : State) : State := { s with stack }

@[simp] theorem State.mode_withStack (stack : Stack) (s : State) :
    (s.withStack stack).mode = s.mode := rfl

namespace Machine

variable {π η ρ : Type} [Channel π] [EdgeGuard η] [DirectionSource ρ]

/-- Finds out what the next step is to do, if it is to do anything. -/
def attempt (m : Machine π η ρ) : Reply (Surroundings π η ρ) (Outcome ⊕ Deed) :=
  if !m.state.running then .done (.inl .halted) m.surroundings
  else
    (fetch m.state m.surroundings).andThen fun c? around =>
      match c? with
      | none => .done (.inl .stalled) around
      | some c => (interpret m.division m.state c around).map .inr

/-- The instruction that the next step fetches. There is none in text mode. -/
def instruction? (m : Machine π η ρ) : Option Instruction :=
  if m.state.running ∧ m.state.mode = .normal then
    match (fetch m.state m.surroundings).result with
    | .ok (some c) => some (.decode c)
    | _ => none
  else none

/-- The machine after an attempt that left `around` behind. -/
def concluded (m : Machine π η ρ) (around : Surroundings π η ρ) :
    Except Fault (Outcome ⊕ Deed) → Machine π η ρ
  | .ok (.inr deed) =>
    ⟨(m.state.perform deed).1, around, m.division, (m.history.extend (m.state.perform deed).2).1⟩
  | _ => { m with surroundings := around }

omit [Channel π] [EdgeGuard η] [DirectionSource ρ] in
@[simp] theorem surroundings_concluded (m : Machine π η ρ) (around : Surroundings π η ρ)
    (result : Except Fault (Outcome ⊕ Deed)) :
    (m.concluded around result).surroundings = around := by
  match result with
  | .error _ | .ok (.inl _) | .ok (.inr _) => rfl

/-! ### The second half -/

/-- A step decides what to do, and then it does it. Deciding may change the surroundings but not the
state, and doing it cannot fail. -/
theorem step_eq_concluded (m : Machine π η ρ) :
    m.step.result = m.attempt.result.map (Sum.elim id fun _ => .executed) ∧
      m.step.state = m.concluded m.attempt.state m.attempt.result := by
  obtain ⟨state, around, division, history⟩ := m
  cases hrun : state.running with
  | false =>
    simp only [step, attempt, hrun, Bool.not_false, if_true]
    exact ⟨rfl, rfl⟩
  | true =>
    simp only [step, attempt, hrun, Bool.not_true, Bool.false_eq_true, if_false]
    generalize fetch state around = r
    obtain ⟨result, around', events⟩ := r
    rcases result with fault | _ | c
    · exact ⟨rfl, rfl⟩
    · exact ⟨rfl, rfl⟩
    · simp only [Reply.andThen, Reply.map]
      generalize interpret division state c around' = r
      obtain ⟨result, around'', more⟩ := r
      cases result with
      | error fault => exact ⟨rfl, rfl⟩
      | ok deed => exact ⟨rfl, rfl⟩

theorem result_step (m : Machine π η ρ) :
    m.step.result = m.attempt.result.map (Sum.elim id fun _ => .executed) :=
  m.step_eq_concluded.1

theorem state_step (m : Machine π η ρ) :
    m.step.state = m.concluded m.attempt.state m.attempt.result :=
  m.step_eq_concluded.2

/-! ### Operands -/

/-- An instruction sees the grid, the position and its operands, and nothing else of a state. -/
theorem resolve_congr {division : DivisionPolicy} {s t : State} {i : Instruction}
    (hgrid : t.grid = s.grid) (hposition : t.position = s.position)
    (hpeek : ∀ k < i.arity, t.stack.peek k = s.stack.peek k) (around : Surroundings π η ρ) :
    resolve division t i around = resolve division s i around := by
  obtain ⟨channel, guard, dice⟩ := around
  cases i with
  | arith op =>
    have hdivisor : t.stack.peek 0 = s.stack.peek 0 := hpeek 0 Nat.zero_lt_two
    simp only [resolve, hdivisor, hposition]
  | printInt | printChar => simp only [resolve, hpeek 0 (by decide)]
  | place =>
    simp only [resolve, State.target, hgrid, hpeek 0 (by decide), hpeek 1 (by decide),
      hpeek 2 (by decide)]
  | grab =>
    simp only [resolve, State.target, hgrid, hpeek 0 (by decide), hpeek 1 (by decide)]
  | _ => rfl

/-- A deed takes as many operands off the stack as its instruction has. -/
theorem operands_of_resolve {division : DivisionPolicy} {s : State} {i : Instruction}
    {around : Surroundings π η ρ} {deed : Deed}
    (h : (resolve division s i around).result = .ok deed) : deed.operands = i.arity := by
  cases i with
  | arith op =>
    simp only [resolve] at h
    split at h
    · cases h
    · cases h
      rfl
  | printInt | printChar | readInt | readChar | place | grab =>
    obtain ⟨_, _, rfl⟩ := Reply.result_map_eq_ok.1 h
    rfl
  | _ =>
    cases h
    rfl

/-- Inside a string nothing is taken off the stack. -/
theorem operands_literal (c : Char) : (literal c).operands = 0 := by
  rw [literal]
  split <;> rfl

omit [Channel π] [DirectionSource ρ] in
theorem instruction?_of_fetch {m : Machine π η ρ} {c : Char} (hrun : m.state.running = true)
    (hmode : m.state.mode = .normal)
    (hfetch : (fetch m.state m.surroundings).result = .ok (some c)) :
    m.instruction? = some (.decode c) := by
  rw [instruction?, if_pos ⟨hrun, hmode⟩, hfetch]

/-- The deed of an attempt takes the operands of the instruction, and in text mode it takes none. -/
theorem operands_of_attempt {m : Machine π η ρ} {deed : Deed}
    (h : m.attempt.result = .ok (.inr deed)) :
    deed.operands = 0 ∨ ∃ i, m.instruction? = some i ∧ deed.operands = i.arity := by
  cases hrun : m.state.running with
  | false =>
    simp only [attempt, hrun, Bool.not_false, if_true] at h
    cases h
  | true =>
    simp only [attempt, hrun, Bool.not_true, Bool.false_eq_true, if_false] at h
    obtain ⟨c?, hfetch, h⟩ := Reply.result_andThen_eq_ok.1 h
    cases c? with
    | none => cases h
    | some c =>
      obtain ⟨deed', hint, hdeed⟩ := Reply.result_map_eq_ok.1 h
      cases hdeed
      rw [interpret] at hint
      cases hmode : m.state.mode with
      | text =>
        rw [hmode] at hint
        cases hint
        exact .inl (operands_literal c)
      | normal =>
        rw [hmode] at hint
        exact .inr ⟨_, instruction?_of_fetch hrun hmode hfetch, operands_of_resolve hint⟩

/-- **Attempts see only operands.** Where the stack is another one, but shows the same operands to
the instruction under the pointer, the attempt is the same. -/
theorem attempt_congr {m m' : Machine π η ρ} {stack : Stack}
    (hstate : m'.state = m.state.withStack stack) (hsurroundings : m'.surroundings = m.surroundings)
    (hdivision : m'.division = m.division)
    (hpeek : ∀ i, m.instruction? = some i → ∀ k < i.arity, stack.peek k = m.state.stack.peek k) :
    m'.attempt = m.attempt := by
  have hrunning : m'.state.running = m.state.running := by
    rw [hstate]
    rfl
  have hfetch : fetch m'.state m'.surroundings = fetch m.state m.surroundings := by
    rw [hstate, hsurroundings]
    rfl
  rw [attempt, attempt, hrunning, hfetch, hsurroundings]
  cases hrun : m.state.running with
  | false => rfl
  | true =>
    apply Reply.andThen_congr
    intro c? hresult
    cases c? with
    | none => rfl
    | some c =>
      apply congrArg (Reply.map Sum.inr)
      rw [hstate, hdivision, interpret, interpret, State.mode_withStack]
      cases hmode : m.state.mode with
      | text => rfl
      | normal =>
        apply resolve_congr
        · rfl
        · rfl
        · exact hpeek _ (instruction?_of_fetch hrun hmode hresult)

end Machine

end Retrace
