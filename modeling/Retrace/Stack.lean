/-!
# The operand stack

A stack of unbounded integers that never runs dry: taking from the empty stack gives zero. The
machine needs to know whether a value was really there, because undoing must put back exactly what
was taken, so the primitive is `pop?`, which tells the two cases apart, and `restore` is its
inverse: `restore_pop?` says that popping and restoring leaves every stack as it was, the empty one
included.

Values are kept with the top first; `ofList` and `toList` show them with the bottom first.
-/

namespace Retrace

/-- A stack of integers, `values` listing them from the top down. -/
structure Stack where
  values : List Int
  deriving DecidableEq, Repr

namespace Stack

def empty : Stack := ⟨[]⟩

instance : Inhabited Stack := ⟨empty⟩

/-- The stack whose values are listed with the bottom first. -/
def ofList (values : List Int) : Stack := ⟨values.reverse⟩

def toList (s : Stack) : List Int := s.values.reverse

def length (s : Stack) : Nat := s.values.length

def isEmpty (s : Stack) : Bool := s.values.isEmpty

def push (v : Int) (s : Stack) : Stack := ⟨v :: s.values⟩

def pop? (s : Stack) : Option Int × Stack :=
  match s.values with
  | [] => (none, s)
  | v :: rest => (some v, ⟨rest⟩)

/-- Takes the top value, zero if there is none. -/
def pop (s : Stack) : Int × Stack := (s.pop?.1.getD 0, s.pop?.2)

/-- Puts back what `pop?` took: nothing if it found the stack empty. -/
def restore (v : Option Int) (s : Stack) : Stack :=
  match v with
  | none => s
  | some v => s.push v

def dropTop (s : Stack) : Stack := s.pop?.2

def top? (s : Stack) : Option Int := s.values.head?

/-- The value `depth` places below the top, zero where the stack has ended. -/
def peek (s : Stack) (depth : Nat) : Int := s.values.getD depth 0

/-- The written form of a stack, the bottom first: `[1, -2, 3]`. -/
def render (s : Stack) : String :=
  "[" ++ String.intercalate ", " (s.toList.map Int.repr) ++ "]"

/-! ### How the operations fit together -/

@[simp] theorem toList_ofList (values : List Int) : (ofList values).toList = values := by
  simp [ofList, toList]

@[simp] theorem ofList_toList (s : Stack) : ofList s.toList = s := by
  cases s; simp [ofList, toList]

@[simp] theorem toList_push (v : Int) (s : Stack) : (s.push v).toList = s.toList ++ [v] := by
  simp [push, toList]

@[simp] theorem pop?_push (v : Int) (s : Stack) : (s.push v).pop? = (some v, s) := rfl

@[simp] theorem pop?_empty : empty.pop? = (none, empty) := rfl

@[simp] theorem restore_none (s : Stack) : s.restore none = s := rfl

@[simp] theorem restore_some (v : Int) (s : Stack) : s.restore (some v) = s.push v := rfl

/-- Restoring undoes popping, also where there was nothing to pop. -/
@[simp] theorem restore_pop? (s : Stack) : s.pop?.2.restore s.pop?.1 = s := by
  rcases s with ⟨_ | ⟨v, rest⟩⟩ <;> rfl

/-- Popping and peeking agree on the top of a stack, and on what stands in for it when there is
none. -/
theorem pop_fst (s : Stack) : s.pop.1 = s.peek 0 := by
  rcases s with ⟨_ | ⟨v, rest⟩⟩ <;> rfl

/-- One place below is the top of what `pop` leaves. -/
theorem peek_succ (s : Stack) (k : Nat) : s.peek (k + 1) = s.pop.2.peek k := by
  rcases s with ⟨_ | ⟨v, rest⟩⟩ <;> simp [peek, pop, pop?]

/-! ### The exit code -/

/-- The exit code of a program that ends with this stack: zero if it is empty, and otherwise the
low 32 bits of the top value in two's complement, where those of a negative value are the negated
bits of its magnitude. -/
def exitCode (s : Stack) : Int32 :=
  match s.top? with
  | none => 0
  | some v =>
    let low := UInt32.ofNat v.natAbs
    (if v < 0 then -low else low).toInt32

end Stack

end Retrace
