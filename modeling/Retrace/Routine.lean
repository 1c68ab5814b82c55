import Retrace.Machine

/-!
# Steps as sequences of effects

`Machine.step` finds out first what is to be done and does it afterwards. Below that there is a
machine that works by single effects: it looks at an operand, asks the guard, sends a text, takes
the operand, notes a change. Each of them has happened as soon as it is done. A `Routine` is a
sequence of such effects, and when it fails in the middle, everything that it did before stays done.

`Routine.step` and `Routine.unstep` are step and unstep in this form. Whether a step that fails
leaves something half done behind is a matter of the order in which an instruction has its effects,
and that order is written down here, instruction by instruction.
-/

namespace Retrace

/-- Something done to a machine by effects, each of which stays when a later one fails. -/
@[ext] structure Routine (π η ρ α : Type) where
  run : Machine π η ρ → Reply (Machine π η ρ) α

namespace Routine

variable {π η ρ α : Type}

instance : Monad (Routine π η ρ) where
  pure a := ⟨fun m => .done a m⟩
  bind first next := ⟨fun m => (first.run m).andThen fun a => (next a).run⟩

/-! ### Effects on the machine itself -/

def look (f : Machine π η ρ → α) : Routine π η ρ α := ⟨fun m => .done (f m) m⟩

def fail (fault : Fault) : Routine π η ρ α := ⟨fun m => .fail fault m⟩

def tell (event : Event) : Routine π η ρ Unit := ⟨fun m => ⟨.ok (), m, [event]⟩⟩

/-- Changes the state of the program, without a note. -/
def alter (f : State → State) : Routine π η ρ Unit :=
  ⟨fun m => .done () { m with state := f m.state }⟩

def peek (depth : Nat) : Routine π η ρ Int := look fun m => m.state.stack.peek depth

def pop : Routine π η ρ (Option Int) := do
  let popped ← look fun m => m.state.stack.pop?.1
  alter fun s => { s with stack := s.stack.dropTop }
  return popped

def push (v : Int) : Routine π η ρ Unit := alter fun s => { s with stack := s.stack.push v }

def restore (v : Option Int) : Routine π η ρ Unit :=
  alter fun s => { s with stack := s.stack.restore v }

def record (c : Change) : Routine π η ρ Unit :=
  ⟨fun m => .done () { m with history := m.history.record c }⟩

def commit : Routine π η ρ Unit where
  run m :=
    match m.history.commit with
    | (history, events) => ⟨.ok (), { m with history }, events⟩

def popGroup : Routine π η ρ (Option (List Change)) where
  run m :=
    match m.history.pop? with
    | none => .done none m
    | some (group, history) => .done (some group) { m with history }

/-- Does something and gives its result, a fault as well, to whoever wants to go on. -/
def attempt (r : Routine π η ρ α) : Routine π η ρ (Except Fault α) where
  run m :=
    match r.run m with
    | ⟨result, m, events⟩ => ⟨.ok result, m, events⟩

def answer : Except Fault α → Routine π η ρ α
  | .ok a => pure a
  | .error fault => fail fault

/-! ### Effects on the surroundings -/

def atChannel (operation : π → Reply π α) : Routine π η ρ α where
  run m :=
    (operation m.surroundings.channel).within fun channel =>
      { m with surroundings := { m.surroundings with channel } }

def atGuard (operation : η → Reply η α) : Routine π η ρ α where
  run m :=
    (operation m.surroundings.guard).within fun guard =>
      { m with surroundings := { m.surroundings with guard } }

def draw [DirectionSource ρ] : Routine π η ρ Direction where
  run m :=
    match DirectionSource.draw m.surroundings.dice with
    | (d, dice) => .done d { m with surroundings := { m.surroundings with dice } }

/-- Reads the cell at a point; the result is `none` if there is no cell. -/
def read [EdgeGuard η] (p : Point) : Routine π η ρ (Option Char) := do
  let grid ← look (·.state.grid)
  atGuard (grid.read p)

/-- Asks the guard about one edge after the other. -/
def consult [EdgeGuard η] (access : Access) (p : Point) : List Edge → Routine π η ρ Unit
  | [] => pure ()
  | edge :: rest => do
    atGuard (EdgeGuard.consult access edge p)
    consult access p rest

/-- Writes the cell at a point. The guard is asked about one edge after the other, then the size is
looked at, and only then the grid grows and the character is replaced. The result is the old
character, `none` if the write was skipped. -/
def write [EdgeGuard η] (p : Point) (c : Char) : Routine π η ρ (Option Char) := do
  let grid ← look (·.state.grid)
  consult .write p (grid.crossed p)
  match Grid.spot? p with
  | none => return none
  | some spot =>
    if grid.overgrows spot then
      fail (.gridTooLarge (grid.extentFor spot).1 (grid.extentFor spot).2 grid.cellLimit)
    alter fun s => { s with grid := s.grid.growTo spot }
    let old ← look fun m => m.state.grid.replaced spot
    alter fun s => { s with grid := s.grid.set spot c }
    return some old

/-! ### Noted effects -/

def advance : Routine π η ρ Unit := do
  record (.moved (← look (·.state.position)))
  alter fun s => { s with position := s.position + s.velocity }

def accelerate (velocity : Point) : Routine π η ρ Unit := do
  record (.turned (← look (·.state.velocity)))
  alter fun s => { s with velocity }

def setMode (mode : Mode) : Routine π η ρ Unit := do
  record (.modeSet (← look (·.state.mode)))
  alter fun s => { s with mode }

def pushLiteral (v : Int) : Routine π η ρ Unit := do
  push v
  record .pushed

variable [Channel π] [EdgeGuard η] [DirectionSource ρ]

/-! ### Instructions -/

/-- Calculates with the two top values. A divisor of zero is looked at, not taken. -/
def calculate (op : Operator) : Routine π η ρ Unit := do
  let byZero := op.divides && (← peek 0) == 0
  if byZero && (← look (·.division)) == .fatal then
    fail (.divisionByZero op.symbol (← look (·.state.position)))
  let a ← pop
  let b ← pop
  push (if byZero then 0 else op.apply (b.getD 0) (a.getD 0))
  record (.computed a b)

/-- Looks at a place and a code and writes the character there, and then takes all three. -/
def place : Routine π η ρ Unit := do
  let y := saturate (← peek 0)
  let x := saturate (← peek 1)
  let c := charOfCode (← peek 2)
  let previous ← write ⟨x, y⟩ c
  let replaced := previous.map fun old => ((⟨x.toInt.toNat, y.toInt.toNat⟩ : Spot), old)
  let y ← pop
  let x ← pop
  let v ← pop
  record (.placed y x v replaced)

/-- Looks at a place and reads there, and then takes the place and pushes what was found. -/
def grab : Routine π η ρ Unit := do
  let y := saturate (← peek 0)
  let x := saturate (← peek 1)
  let c := (← read ⟨x, y⟩).getD ' '
  let y ← pop
  let x ← pop
  push (codeOf c)
  record (.grabbed y x)

/-- Prints a text that stands for the top value, and then drops the value. -/
def print (text : Int → String) (change : Option Int → String → Change) : Routine π η ρ Unit := do
  let text := text (← peek 0)
  atChannel (Channel.emit text)
  record (change (← pop) text)

def dispatch (i : Instruction) : Routine π η ρ Unit := do
  match i with
  | .halt =>
    accelerate .origin
    alter fun s => { s with running := false }
    return
  | .go d => accelerate d.velocity
  | .branch nonzero zero =>
    let popped ← pop
    let d := if popped.getD 0 = 0 then zero else nonzero
    record (.branched popped (← look (·.state.velocity)))
    alter fun s => { s with velocity := d.velocity }
  | .random =>
    let d ← draw
    accelerate d.velocity
  | .skip => advance
  | .arith op => calculate op
  | .negate =>
    let popped ← pop
    push (State.truth (popped.getD 0 = 0))
    record (.negated popped)
  | .greater =>
    let a ← pop
    let b ← pop
    push (State.truth (a.getD 0 < b.getD 0))
    record (.compared a b)
  | .quote => setMode .text
  | .printInt => print (fun v => " " ++ v.repr ++ " ") .printedInt
  | .printChar => print (fun v => (charOfCode v).toString) .printedChar
  | .readInt =>
    let d ← atChannel Channel.takeDigit
    push d
    record (.readDigit d)
  | .readChar =>
    let c ← atChannel Channel.takeChar
    push (codeOf c)
    record (.readChar c)
  | .duplicate =>
    let popped ← pop
    push (popped.getD 0)
    push (popped.getD 0)
    record (.duplicated popped)
  | .swap =>
    let a ← pop
    let b ← pop
    push (a.getD 0)
    push (b.getD 0)
    record (.swapped a b)
  | .discard => record (.discarded (← pop))
  | .place => place
  | .grab => grab
  | .digit d => pushLiteral d
  | .nop => pure ()
  advance

/-- Takes a cell as text: a double quote ends the mode, anything else is pushed. -/
def quoted (c : Char) : Routine π η ρ Unit := do
  if c = '"' then setMode .normal else pushLiteral (codeOf c)
  advance

/-! ### Forward -/

def execute (c : Char) : Mode → Routine π η ρ Unit
  | .text => quoted c
  | .normal => dispatch (.decode c)

def step : Routine π η ρ Outcome := do
  if !(← look (·.state.running)) then
    return .halted
  let position ← look (·.state.position)
  match ← read position with
  | none => return .stalled
  | some c =>
    let mode ← look (·.state.mode)
    tell (.stepping position c mode)
    execute c mode
    commit
    return .executed

/-! ### Back -/

/-- Takes back a change. Where output is retracted in vain the value is put back all the same. -/
def undo : Change → Routine π η ρ Unit
  | .moved old => alter fun s => { s with position := old }
  | .turned old => alter fun s => { s with velocity := old }
  | .branched popped old => do
    alter fun s => { s with velocity := old }
    restore popped
  | .computed a b | .compared a b => do
    discard pop
    restore b
    restore a
  | .negated popped => do
    discard pop
    restore popped
  | .modeSet old => alter fun s => { s with mode := old }
  | .duplicated popped => do
    discard pop
    discard pop
    restore popped
  | .swapped a b => do
    discard pop
    discard pop
    restore b
    restore a
  | .discarded popped => restore popped
  | .placed y x v replaced => do
    if let some (spot, old) := replaced then
      alter fun s => { s with grid := s.grid.set spot old }
    restore v
    restore x
    restore y
  | .grabbed y x => do
    discard pop
    restore x
    restore y
  | .pushed => discard pop
  | .printedInt popped text | .printedChar popped text => do
    let retracted ← attempt (atChannel (Channel.retract text))
    restore popped
    answer retracted
  | .readDigit d => do
    discard pop
    atChannel fun channel => .done () (Channel.returnDigit d channel)
  | .readChar c => do
    discard pop
    atChannel fun channel => .done () (Channel.returnChar c channel)

/-- Takes back some changes one by one, whatever becomes of each; the result is the first failure,
`failure` being one from before. -/
def undoEach (failure : Option Fault) : List Change → Routine π η ρ (Option Fault)
  | [] => pure failure
  | c :: rest => do
    match ← attempt (undo c) with
    | .ok () => undoEach failure rest
    | .error fault => undoEach (failure <|> some fault) rest

/-- Undoes the newest step of the history; the result is `false` if there is none. -/
def unstep : Routine π η ρ Bool := do
  match ← popGroup with
  | none => return false
  | some group =>
    tell (.undoing group.length (← look (·.history.depth)))
    match ← undoEach none group with
    | none => return true
    | some fault => fail fault

end Routine

end Retrace
