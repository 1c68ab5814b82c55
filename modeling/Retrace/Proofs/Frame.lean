import Retrace.Channel.Transcript
import Retrace.Proofs.Attempts

/-!
# What lies below the operands

An instruction takes its operands from the top of the stack. What lies below them is not looked at
and not moved, so a machine that always finds its operands runs the same with anything put
underneath its stack (`Machine.atop`). This is shown for the deeds first (`State.perform_atop`),
which is where values are taken and pushed; that the deeds are the same is `Machine.attempt_congr`.
-/

namespace Retrace

/-! ### Stacks on top of others -/

namespace Stack

/-- The stack with the values `below` underneath, listed with the bottom first. -/
def atop (below : List Int) (s : Stack) : Stack := ofList (below ++ s.toList)

variable {below : List Int} {s : Stack}

theorem values_atop (below : List Int) (s : Stack) :
    (s.atop below).values = s.values ++ below.reverse := by
  simp [atop, ofList, toList]

theorem push_atop (v : Int) : (s.atop below).push v = (s.push v).atop below := by
  simp [atop, push, ofList, toList]

/-- Popping a stack that is not empty does not reach what lies below it. An empty one it would pop
from below, hence the hypothesis. -/
theorem pop?_atop (below : List Int) (h : 0 < s.length) :
    (s.atop below).pop? = (s.pop?.1, s.pop?.2.atop below) := by
  obtain ⟨_ | ⟨v, rest⟩⟩ := s
  · cases h
  · rw [pop?, values_atop]
    simp [pop?, atop, ofList, toList]

theorem length_pop? (s : Stack) : s.pop?.2.length = s.length - 1 := by
  obtain ⟨_ | ⟨v, rest⟩⟩ := s <;> rfl

/-- A value within the stack does not depend on what lies below it. -/
theorem peek_atop {k : Nat} (h : k < s.length) : (s.atop below).peek k = s.peek k := by
  have hget : (s.values ++ below.reverse)[k]? = s.values[k]? := List.getElem?_append_left h
  rw [peek, peek, values_atop, List.getD_eq_getElem?_getD, List.getD_eq_getElem?_getD, hget]

end Stack

/-! ### Deeds -/

namespace State

def atop (below : List Int) (s : State) : State := s.withStack (s.stack.atop below)

variable {below : List Int} {s : State} {d : Deed}

/-- A deed that finds its operands leaves what lies below them alone, and notes the same changes. -/
theorem enact_atop (h : d.operands ≤ s.stack.length) :
    (s.atop below).enact d = ((s.enact d).1.atop below, (s.enact d).2) := by
  -- The cases go by the number of operands, and there is one fact for each value that is taken.
  have hsecond := Stack.length_pop? s.stack
  have hthird := Stack.length_pop? s.stack.pop?.2
  cases d with
  | branch | negate | printInt | printChar | duplicate | discard =>
    have h1 : 0 < s.stack.length := h
    simp only [enact, atop, withStack, Stack.pop?_atop below h1, Stack.push_atop]
  | compute | compare | swap | grab =>
    have h1 : 0 < s.stack.length := Nat.lt_of_lt_of_le Nat.zero_lt_two h
    have h2 : 0 < s.stack.pop?.2.length := by
      rw [hsecond]
      exact Nat.sub_pos_of_lt h
    simp only [enact, atop, withStack, Stack.pop?_atop below h1, Stack.pop?_atop below h2,
      Stack.push_atop]
  | place target c =>
    have hthree : 3 ≤ s.stack.length := h
    have h1 : 0 < s.stack.length := by omega
    have h2 : 0 < s.stack.pop?.2.length := by omega
    have h3 : 0 < s.stack.pop?.2.pop?.2.length := by omega
    cases target with
    | none =>
      simp only [enact, atop, withStack, Stack.pop?_atop below h1, Stack.pop?_atop below h2,
        Stack.pop?_atop below h3]
    | some spot =>
      simp only [enact, atop, withStack, Stack.pop?_atop below h1, Stack.pop?_atop below h2,
        Stack.pop?_atop below h3]
  | push | readDigit | readChar => simp only [enact, atop, withStack, Stack.push_atop]
  | halt | turn | skip | setMode | idle => rfl

/-- **Deeds keep what lies below.** A deed that finds its operands does the same with anything
underneath, and leaves it there. -/
theorem perform_atop (h : d.operands ≤ s.stack.length) :
    (s.atop below).perform d = ((s.perform d).1.atop below, (s.perform d).2) := by
  by_cases hd : d = .halt
  · subst hd
    rfl
  · rw [perform_eq hd, perform_eq hd, enact_atop h]
    rfl

end State

/-! ### Steps -/

namespace Machine

variable {π η ρ : Type}

def atop (below : List Int) (m : Machine π η ρ) : Machine π η ρ :=
  { m with state := m.state.atop below }

variable [Channel π] [EdgeGuard η] [DirectionSource ρ]

/-- The stack has all operands of the instruction that the next step fetches. -/
def Supplied (m : Machine π η ρ) : Prop :=
  ∀ i, m.instruction? = some i → i.arity ≤ m.state.stack.length

instance (m : Machine π η ρ) : Decidable m.Supplied :=
  match h : m.instruction? with
  | none => isTrue (by simp [Supplied, h])
  | some i => decidable_of_iff (i.arity ≤ m.state.stack.length) (by simp [Supplied, h])

/-- What a step decides to do depends on the operands of its instruction only, so a supplied machine
decides the same above any other stack. -/
theorem attempt_atop {m : Machine π η ρ} (hm : m.Supplied) (below : List Int) :
    (m.atop below).attempt = m.attempt := by
  have hstate : (m.atop below).state = m.state.withStack (m.state.stack.atop below) := rfl
  apply attempt_congr hstate rfl rfl
  intro i hi k hk
  exact Stack.peek_atop (Nat.lt_of_lt_of_le hk (hm i hi))

/-- The frame rule for one step, whether it succeeds or fails. -/
theorem step_atop {m : Machine π η ρ} (hm : m.Supplied) (below : List Int) :
    (m.atop below).step.result = m.step.result ∧
      (m.atop below).step.state = m.step.state.atop below := by
  rw [result_step, result_step, state_step, state_step, attempt_atop hm]
  refine ⟨rfl, ?_⟩
  match hresult : m.attempt.result with
  | .error fault => rfl
  | .ok (.inl outcome) => rfl
  | .ok (.inr deed) =>
    have hoperands : deed.operands ≤ m.state.stack.length := by
      rcases operands_of_attempt hresult with hnone | ⟨i, hi, harity⟩
      · rw [hnone]
        exact Nat.zero_le _
      · rw [harity]
        exact hm i hi
    simp only [concluded, atop, State.perform_atop hoperands]

/-- By induction on the steps: each of them is supplied, so each of them is framed. -/
theorem stepped_atop {m : Machine π η ρ} (below : List Int) {n : Nat}
    (h : ∀ i < n, (m.stepped i).Supplied) :
    (m.atop below).stepped n = (m.stepped n).atop below := by
  induction n with
  | zero => rfl
  | succ n ih =>
    have hbefore := ih fun i hi => h i (Nat.lt_succ_of_lt hi)
    show ((m.atop below).stepped n).step.state = _
    rw [hbefore]
    exact (step_atop (h n (Nat.lt_succ_self n)) below).2

/-- **The frame rule.** As long as every instruction finds its operands, a machine and the one with
more values underneath answer every step alike, and they stay alike in everything but the values
underneath. -/
theorem framed (m : Machine π η ρ) (below : List Int) (n : Nat)
    (h : ∀ i < n, (m.stepped i).Supplied) :
    (∀ i < n, ((m.atop below).stepped i).step.result = (m.stepped i).step.result) ∧
      ∀ i ≤ n, (m.atop below).stepped i = (m.stepped i).atop below := by
  have hstepped : ∀ i ≤ n, (m.atop below).stepped i = (m.stepped i).atop below := by
    intro i hi
    apply stepped_atop
    intro j hj
    exact h j (Nat.lt_of_lt_of_le hj hi)
  refine ⟨?_, hstepped⟩
  intro i hi
  rw [hstepped i (Nat.le_of_lt hi)]
  exact (step_atop (h i hi) below).1

/-- A program that divides by zero as soon as it has doubled a value. -/
def dividing : Machine Transcript EdgePolicy Xoshiro :=
  start ⟨#[#['6', ':', '+', '0', '/']], 5, 1, 16⟩ (.scripted "") .standard default
    (.kept .unbounded)

theorem framed_dividing :
    (∀ i < 6, (dividing.stepped i).Supplied) ∧
      (dividing.stepped 5).step.result = .error (.divisionByZero '/' ⟨4, 0⟩) ∧
      ((dividing.atop [7, -1]).stepped 5).step.result = .error (.divisionByZero '/' ⟨4, 0⟩) ∧
      ((dividing.atop [7, -1]).stepped 6).state.stack.toList = [7, -1, 12, 0] := by
  have hsupplied : ∀ i < 6, (dividing.stepped i).Supplied := by decide
  obtain ⟨hresults, hstepped⟩ := framed dividing [7, -1] 6 hsupplied
  have hfault : (dividing.stepped 5).step.result = .error (.divisionByZero '/' ⟨4, 0⟩) := by decide
  refine ⟨hsupplied, hfault, ?_, ?_⟩
  · rw [hresults 5 (by decide)]
    exact hfault
  · rw [hstepped 6 (by decide)]
    rfl

end Machine

end Retrace
