import Retrace.Stack

/-!
# Looking, taking and putting back

A stack is used in three ways that have to agree. An instruction that may fail looks at its operands
(`peek`) before anything is done, one that goes through takes them (`pop` and `pop?`), and undoing
puts back what was taken (`restore`). If the first disagreed with the second, an instruction would
decide by values that it does not take; if the second disagreed with the third, undoing would leave
another stack.

Several takings are described by their results, place by place (`getElem?_takeMany_pop?`): the
`i`-th finds what lies `i` places below the top, and nothing if the stack has ended there.
-/

namespace Retrace.Stack

/-! ### Several takings -/

/-- What `n` takings in a row give, the first one first, and the stack that they leave. -/
def takeMany (take : Stack → α × Stack) : Nat → Stack → List α × Stack
  | 0, s => ([], s)
  | n + 1, s =>
    let (v, rest) := take s
    let (taken, left) := takeMany take n rest
    (v :: taken, left)

/-- Puts back what was taken, the last value first. -/
def restoreAll (taken : List (Option Int)) (s : Stack) : Stack := taken.foldr restore s

theorem length_takeMany (take : Stack → α × Stack) (n : Nat) (s : Stack) :
    (takeMany take n s).1.length = n := by
  induction n generalizing s with
  | zero => rfl
  | succ n ih => exact congrArg (· + 1) (ih (take s).2)

/-- Taking with zeros for nothing is the same as taking, but for these zeros. -/
theorem takeMany_pop (n : Nat) (s : Stack) :
    takeMany pop n s = ((takeMany pop? n s).1.map (·.getD 0), (takeMany pop? n s).2) := by
  induction n generalizing s with
  | zero => rfl
  | succ n ih =>
    have hrest := ih s.pop?.2
    simp only [takeMany, pop, hrest, List.map_cons]

theorem getElem?_values_pop? (s : Stack) (i : Nat) : s.pop?.2.values[i]? = s.values[i + 1]? := by
  obtain ⟨_ | ⟨v, rest⟩⟩ := s
  · rfl
  · rfl

theorem getElem?_takeMany_pop? {n i : Nat} (hi : i < n) (s : Stack) :
    (takeMany pop? n s).1[i]? = some s.values[i]? := by
  induction n generalizing i s with
  | zero => cases hi
  | succ n ih =>
    cases i with
    | zero => obtain ⟨_ | ⟨v, rest⟩⟩ := s <;> rfl
    | succ i =>
      have hrest := ih (Nat.lt_of_succ_lt_succ hi) s.pop?.2
      rw [getElem?_values_pop?] at hrest
      exact hrest

/-! ### Looking -/

theorem getElem?_values_eq (s : Stack) (i : Nat) :
    s.values[i]? = if i < s.length then some (s.peek i) else none := by
  split
  · next hi => rw [peek, List.getD_eq_getElem?_getD, List.getElem?_eq_getElem hi, Option.getD_some]
  · next hi => exact List.getElem?_eq_none (Nat.le_of_not_lt hi)

/-- The last of `k + 1` values taken is the one that lies `k` places below the top. -/
theorem getLast?_takeMany_pop (k : Nat) (s : Stack) :
    (takeMany pop (k + 1) s).1.getLast? = some (s.peek k) := by
  have hlength := length_takeMany pop (k + 1) s
  rw [List.getLast?_eq_getElem?, hlength, Nat.add_sub_cancel, takeMany_pop, List.getElem?_map,
    getElem?_takeMany_pop? (Nat.lt_succ_self k)]
  rw [peek, List.getD_eq_getElem?_getD]
  rfl

/-- Places are counted from the top, and values are listed from the bottom. -/
theorem peek_eq_toList (s : Stack) (k : Nat) :
    s.peek k = if k < s.length then s.toList.getD (s.length - (k + 1)) 0 else 0 := by
  rw [peek, List.getD_eq_getElem?_getD]
  split
  · next hk =>
    have hk' : k < s.values.length := hk
    have hindex : s.values.length - 1 - (s.length - (k + 1)) = k := by
      rw [length]
      omega
    rw [toList, List.getD_eq_getElem?_getD, List.getElem?_reverse (by rw [length]; omega), hindex]
  · next hk =>
    rw [List.getElem?_eq_none (Nat.le_of_not_lt hk)]
    rfl

/-! ### Putting back -/

theorem restoreAll_of_none {taken : List (Option Int)} (h : ∀ v ∈ taken, v = none) (s : Stack) :
    s.restoreAll taken = s := by
  induction taken with
  | nil => rfl
  | cons v rest ih =>
    have hv : v = none := h v List.mem_cons_self
    have hrest := ih fun w hw => h w (List.mem_cons_of_mem v hw)
    rw [restoreAll, List.foldr_cons, hv, restore_none]
    exact hrest

theorem restoreAll_takeMany (n : Nat) (s : Stack) :
    (takeMany pop? n s).2.restoreAll (takeMany pop? n s).1 = s := by
  induction n generalizing s with
  | zero => rfl
  | succ n ih =>
    -- What was taken first is put back last, on the stack that it was taken from.
    have hrest := ih s.pop?.2
    rw [restoreAll] at hrest
    rw [restoreAll, takeMany, List.foldr_cons, hrest]
    exact restore_pop? s

/-- From the taking on that empties the stack, nothing is found. -/
theorem eq_none_of_mem_drop {n : Nat} {s : Stack} {v : Option Int}
    (hv : v ∈ (takeMany pop? n s).1.drop s.length) : v = none := by
  obtain ⟨i, hi⟩ := List.mem_iff_getElem?.1 hv
  rw [List.getElem?_drop] at hi
  have hlt : s.length + i < n := by
    have hbound := (List.getElem?_eq_some_iff.1 hi).1
    rwa [length_takeMany] at hbound
  rw [getElem?_takeMany_pop? hlt, getElem?_values_eq, if_neg (by omega)] at hi
  exact (Option.some.inj hi).symm

/-! ### The three together -/

/-- On this stack looking, taking and putting back agree down to the `k`-th place. -/
structure Coherent (s : Stack) (k : Nat) : Prop where
  /-- The value `k` places below the top is what the last of `k + 1` takings gives. -/
  looked : (takeMany pop (k + 1) s).1.getLast? = some (s.peek k)
  /-- It is the `k + 1`-st value from the end of the list, and zero if there are not so many. -/
  listed : s.peek k = if k < s.length then s.toList.getD (s.length - (k + 1)) 0 else 0
  /-- Each taking finds the value that could be seen in its place, as long as there was one. -/
  found : ∀ i < k,
    (takeMany pop? k s).1[i]? = some (if i < s.length then some (s.peek i) else none)
  /-- What was taken can be put back, and then the stack is what it was. -/
  restored : (takeMany pop? k s).2.restoreAll (takeMany pop? k s).1 = s
  /-- Those takings that found nothing put nothing back. -/
  spared : (takeMany pop? k s).2.restoreAll ((takeMany pop? k s).1.drop s.length) =
    (takeMany pop? k s).2

/-- **Looking, taking and putting back agree** on every stack and down to any place, whether the
stack reaches so far or not. -/
theorem coherent_peek_pop_restore (s : Stack) (k : Nat) : s.Coherent k where
  looked := getLast?_takeMany_pop k s
  listed := peek_eq_toList s k
  found := by
    intro i hi
    rw [getElem?_takeMany_pop? hi, getElem?_values_eq]
  restored := restoreAll_takeMany k s
  spared := restoreAll_of_none (fun _ hv => eq_none_of_mem_drop hv) _

/-- Two values and four takings, of which two find nothing. -/
example : takeMany pop? 4 (ofList [5, 0]) = ([some 0, some 5, none, none], empty) := by decide

end Retrace.Stack
