import Retrace.Channel.Transcript
import Retrace.Proofs.Margins

/-!
# Quotations

Between two double quotes the cells of a program are not instructions, and a step pushes the code of
the character that it finds. This file follows the pointer over a whole quotation in whatever
direction it travels. The machine asks nobody: not the guard, because the cells are in the grid, and
neither the channel nor the dice, because nothing is interpreted. So nothing changes but the
position and the stack (`quotes_of_spells`).

What stands on the way of the pointer is said by `Grid.Spells`, and the induction is over that text:
its first character is what the next step does (`Does`), and the others are what the steps after it
do (`DoesAll`).
-/

namespace Retrace

/-! ### Along a line -/

namespace Point

/-- The point that `k` moves with velocity `v` lead to. -/
def ahead (p v : Point) (k : Nat) : Point :=
  ⟨p.x + Int64.ofNat k * v.x, p.y + Int64.ofNat k * v.y⟩

@[simp] theorem ahead_zero (p v : Point) : p.ahead v 0 = p := by
  apply Point.ext
  · simp [ahead]
  · simp [ahead]

/-- One move more is made first. -/
theorem ahead_succ (p v : Point) (k : Nat) : p.ahead v (k + 1) = (p + v).ahead v k := by
  have hcoordinate (a b : Int64) :
      a + Int64.ofNat (k + 1) * b = a + b + Int64.ofNat k * b := by
    rw [Int64.ofNat_add, Int64.add_mul]
    rw [show Int64.ofNat 1 = 1 from rfl, Int64.one_mul, Int64.add_comm (Int64.ofNat k * b),
      Int64.add_assoc]
  apply Point.ext
  · exact hcoordinate p.x v.x
  · exact hcoordinate p.y v.y

end Point

namespace Grid

structure Holds (g : Grid) (p : Point) (c : Char) : Prop where
  left : 0 ≤ p.x.toInt
  right : p.x.toInt < g.width
  top : 0 ≤ p.y.toInt
  bottom : p.y.toInt < g.height
  cell : g.get? p = some c

instance (g : Grid) (p : Point) (c : Char) : Decidable (g.Holds p c) :=
  decidable_of_iff
    (0 ≤ p.x.toInt ∧ p.x.toInt < g.width ∧ 0 ≤ p.y.toInt ∧ p.y.toInt < g.height ∧
      g.get? p = some c)
    ⟨fun ⟨hl, hr, ht, hb, hc⟩ => ⟨hl, hr, ht, hb, hc⟩,
      fun ⟨hl, hr, ht, hb, hc⟩ => ⟨hl, hr, ht, hb, hc⟩⟩

/-- Nobody is asked about a cell of the grid. -/
theorem Holds.read_eq {η : Type} [EdgeGuard η] {g : Grid} {p : Point} {c : Char}
    (h : g.Holds p c) (guard : η) : g.read p guard = .done (some c) guard := by
  have hinside : g.missed? p = none :=
    missed?_eq_none_iff.2 ⟨h.left, h.right, h.top, h.bottom⟩
  simp only [read, hinside, h.cell]

/-- The characters of the text stand in the grid one after the other, from `p` on in the direction
of `v`. -/
def Spells (g : Grid) (p v : Point) (text : List Char) : Prop :=
  ∀ k c, text[k]? = some c → g.Holds (p.ahead v k) c

theorem spells_cons {g : Grid} {p v : Point} {c : Char} {text : List Char} :
    g.Spells p v (c :: text) ↔ g.Holds p c ∧ g.Spells (p + v) v text := by
  constructor
  · intro h
    refine ⟨?_, ?_⟩
    · have hfirst := h 0 c rfl
      rwa [Point.ahead_zero] at hfirst
    · intro k d hd
      rw [← Point.ahead_succ]
      exact h (k + 1) d hd
  · rintro ⟨hfirst, hrest⟩ k d hd
    cases k with
    | zero =>
      cases hd
      rwa [Point.ahead_zero]
    | succ k =>
      rw [Point.ahead_succ]
      exact hrest k d hd

instance decidableSpells (g : Grid) (p v : Point) :
    (text : List Char) → Decidable (g.Spells p v text)
  | [] => isTrue fun _ _ h => by simp at h
  | _ :: text =>
    have := decidableSpells g (p + v) v text
    decidable_of_iff _ spells_cons.symm

/-- Along a text in the grid no coordinate wraps around, as long as there are coordinates for the
cells. -/
theorem Spells.toInt_ahead {g : Grid} {p v : Point} {text : List Char} (h : g.Spells p v text)
    (hv : v.IsShort) (hwidth : g.width ≤ Int64.maxValue.toInt)
    (hheight : g.height ≤ Int64.maxValue.toInt) :
    (p.ahead v text.length).x.toInt = p.x.toInt + text.length * v.x.toInt ∧
      (p.ahead v text.length).y.toInt = p.y.toInt + text.length * v.y.toInt := by
  induction text generalizing p with
  | nil => simp
  | cons c text ih =>
    obtain ⟨hfirst, hrest⟩ := spells_cons.1 h
    obtain ⟨hleft, hright, htop, hbottom, -⟩ := hfirst
    obtain ⟨hvleft, hvright, hvup, hvdown⟩ := hv
    have hmin : Int64.minValue.toInt = -9223372036854775808 := rfl
    have hx : (p + v).x.toInt = p.x.toInt + v.x.toInt :=
      toInt_add_of_fits (by omega) (by omega)
    have hy : (p + v).y.toInt = p.y.toInt + v.y.toInt :=
      toInt_add_of_fits (by omega) (by omega)
    obtain ⟨ihx, ihy⟩ := ih hrest
    rw [List.length_cons, Point.ahead_succ, ihx, ihy, hx, hy]
    simp only [Int.natCast_add, Int.natCast_one, Int.add_mul, Int.one_mul]
    omega

end Grid

namespace State

/-- The state after the rest of a quotation: the text is pushed, and the double quote behind it has
ended the mode. -/
def quoted (s : State) (text : List Char) : State :=
  { s with
    position := s.position.ahead s.velocity (text.length + 1)
    stack := .ofList (s.stack.toList ++ text.map codeOf)
    mode := .normal }

theorem quoted_nil (s : State) : s.quoted [] = (s.perform (.setMode .normal)).1 := by
  simp only [quoted, List.length_nil, List.map_nil, List.append_nil, Stack.ofList_toList,
    Point.ahead_succ, Point.ahead_zero]
  rfl

theorem quoted_cons (s : State) (c : Char) (text : List Char) :
    s.quoted (c :: text) = (s.perform (.push (codeOf c))).1.quoted text := by
  have hstack : s.stack.toList ++ (c :: text).map codeOf =
      (s.stack.push (codeOf c)).toList ++ text.map codeOf := by
    rw [Stack.toList_push, List.map_cons, List.append_cons]
  rw [quoted, hstack, List.length_cons, Point.ahead_succ]
  rfl

end State

namespace Machine

variable {π η ρ : Type} [Channel π] [EdgeGuard η] [DirectionSource ρ]

/-! ### Steps for which nobody is asked -/

/-- The next step does `deed` and nothing around the machine changes. -/
structure Does (m : Machine π η ρ) (deed : Deed) : Prop where
  executed : m.step.result = .ok .executed
  state : m.step.state.state = (m.state.perform deed).1
  surroundings : m.step.state.surroundings = m.surroundings

theorem does_of_holds {m : Machine π η ρ} {c : Char} {deed : Deed}
    (hrun : m.state.running = true) (hc : m.state.grid.Holds m.state.position c)
    (hdeed : interpret m.division m.state c m.surroundings = .done deed m.surroundings) :
    m.Does deed := by
  have hfetch : fetch m.state m.surroundings = .done (some c) m.surroundings := by
    simp only [fetch, hc.read_eq]
    rfl
  have hexec : m.Executes c deed := by
    refine ⟨hrun, ?_, ?_⟩
    · rw [hfetch]
      rfl
    · rw [hfetch, Reply.state_done, hdeed]
      rfl
  have hconsulted : m.consulted c = m.surroundings := by
    rw [consulted, hfetch, Reply.state_done, hdeed]
    rfl
  obtain ⟨hok, hstep⟩ := hexec.step_eq
  rw [hconsulted] at hstep
  exact ⟨hok, by rw [hstep], by rw [hstep]⟩

/-- A double quote begins a quotation. -/
theorem does_open {m : Machine π η ρ} (hrun : m.state.running = true)
    (hmode : m.state.mode = .normal) (hc : m.state.grid.Holds m.state.position '"') :
    m.Does (.setMode .text) := by
  apply does_of_holds hrun hc
  rw [interpret, hmode]
  rfl

/-- In a quotation a character stands for itself. -/
theorem does_literal {m : Machine π η ρ} {c : Char} (hrun : m.state.running = true)
    (hmode : m.state.mode = .text) (hc : m.state.grid.Holds m.state.position c) :
    m.Does (literal c) := by
  apply does_of_holds hrun hc
  rw [interpret, hmode]

/-! ### Runs for which nobody is asked -/

/-- The next `k` steps execute and lead to the state `s`, and nothing around the machine changes. -/
structure DoesAll (m : Machine π η ρ) (k : Nat) (s : State) : Prop where
  executed (j : Nat) : j < k → (m.stepped j).step.result = .ok .executed
  state : (m.stepped k).state = s
  surroundings : (m.stepped k).surroundings = m.surroundings

theorem DoesAll.zero (m : Machine π η ρ) : m.DoesAll 0 m.state := by
  refine ⟨?_, rfl, rfl⟩
  intro j hj
  exact absurd hj (Nat.not_lt_zero j)

/-- One step more is made first. -/
theorem DoesAll.succ {m : Machine π η ρ} {deed : Deed} {k : Nat} {s : State}
    (hfirst : m.Does deed) (h : m.step.state.DoesAll k s) : m.DoesAll (k + 1) s := by
  refine ⟨?_, ?_, ?_⟩
  · intro j hj
    cases j with
    | zero => exact hfirst.executed
    | succ j =>
      rw [stepped_succ]
      exact h.executed j (by omega)
  · rw [stepped_succ, h.state]
  · rw [stepped_succ, h.surroundings, hfirst.surroundings]

/-- The rest of a quotation is pushed, and its double quote ends it. -/
theorem doesAll_of_spells {m : Machine π η ρ} (hrun : m.state.running = true)
    (hmode : m.state.mode = .text) {text : List Char} (hquote : '"' ∉ text)
    (h : m.state.grid.Spells m.state.position m.state.velocity (text ++ ['"'])) :
    m.DoesAll (text.length + 1) (m.state.quoted text) := by
  induction text generalizing m with
  | nil =>
    obtain ⟨hc, -⟩ := Grid.spells_cons.1 h
    have hclose : m.Does (.setMode .normal) := does_literal hrun hmode hc
    rw [State.quoted_nil, ← hclose.state]
    exact .succ hclose (.zero _)
  | cons c text ih =>
    -- Only the double quote is anything but itself here, and `c` is none.
    obtain ⟨hc, hrest⟩ := Grid.spells_cons.1 h
    rw [List.mem_cons, not_or] at hquote
    have hpush : m.Does (.push (codeOf c)) := by
      have hliteral := does_literal hrun hmode hc
      rwa [literal, if_neg (Ne.symm hquote.1)] at hliteral
    rw [State.quoted_cons, ← hpush.state]
    apply DoesAll.succ hpush
    apply ih
    · rw [hpush.state]
      exact hrun
    · rw [hpush.state]
      exact hmode
    · exact hquote.2
    · rw [hpush.state]
      exact hrest

/-! ### Whole quotations -/

/-- The next steps pass over the quotation of `text` and push the codes of its characters. Nothing
else changes but the position. -/
structure Quotes (m : Machine π η ρ) (text : String) : Prop where
  executed (j : Nat) : j < text.length + 2 → (m.stepped j).step.result = .ok .executed
  mode : (m.stepped (text.length + 2)).state.mode = .normal
  stack : (m.stepped (text.length + 2)).state.stack.toList =
    m.state.stack.toList ++ text.toList.map codeOf
  position : (m.stepped (text.length + 2)).state.position =
    m.state.position.ahead m.state.velocity (text.length + 2)
  /-- No coordinate wraps around, as long as there are coordinates for the cells of the grid. -/
  unwrapped : m.state.grid.width ≤ Int64.maxValue.toInt →
    m.state.grid.height ≤ Int64.maxValue.toInt →
    (m.stepped (text.length + 2)).state.position.x.toInt =
        m.state.position.x.toInt + (text.length + 2 : Nat) * m.state.velocity.x.toInt ∧
      (m.stepped (text.length + 2)).state.position.y.toInt =
        m.state.position.y.toInt + (text.length + 2 : Nat) * m.state.velocity.y.toInt
  velocity : (m.stepped (text.length + 2)).state.velocity = m.state.velocity
  grid : (m.stepped (text.length + 2)).state.grid = m.state.grid
  running : (m.stepped (text.length + 2)).state.running = true
  /-- Channel, guard and dice are what they were. -/
  surroundings : (m.stepped (text.length + 2)).surroundings = m.surroundings

/-- **A quotation pushes its text**, whatever the characters would be as instructions. -/
theorem quotes_of_spells (m : Machine π η ρ) (hrun : m.state.running = true)
    (hmode : m.state.mode = .normal) (d : Direction) (hd : m.state.velocity = d.velocity)
    (text : String) (hquote : '"' ∉ text.toList)
    (hspells : m.state.grid.Spells m.state.position m.state.velocity
      ('"' :: (text.toList ++ ['"']))) : m.Quotes text := by
  obtain ⟨hc, hrest⟩ := Grid.spells_cons.1 hspells
  have hopen := does_open hrun hmode hc
  have hall : m.DoesAll (text.length + 2)
      ((m.state.perform (.setMode .text)).1.quoted text.toList) := by
    rw [← String.length_toList, ← hopen.state]
    apply DoesAll.succ hopen
    apply doesAll_of_spells
    · rw [hopen.state]
      exact hrun
    · rw [hopen.state]
      rfl
    · exact hquote
    · rw [hopen.state]
      exact hrest
  have hposition : (m.stepped (text.length + 2)).state.position =
      m.state.position.ahead m.state.velocity (text.length + 2) := by
    rw [hall.state, State.quoted, String.length_toList, Point.ahead_succ m.state.position]
    rfl
  refine ⟨hall.executed, ?_, ?_, hposition, ?_, ?_, ?_, ?_, hall.surroundings⟩
  · rw [hall.state]
    rfl
  · rw [hall.state]
    exact Stack.toList_ofList _
  · have hexact := hspells.toInt_ahead (by rw [hd]; exact d.isShort_velocity)
    rw [List.length_cons, List.length_append, String.length_toList] at hexact
    rw [hposition]
    exact hexact
  · rw [hall.state]
    rfl
  · rw [hall.state]
    rfl
  · rw [hall.state]
    exact hrun

/-- A column with a text of instructions in quotes, and a machine at its foot that is about to
travel upward. Its guard refuses everything, and it keeps no history. -/
def quotingUp : Machine Transcript EdgePolicy Xoshiro :=
  { state :=
      { grid := ⟨#[#['"'], #['é'], #['?'], #['@'], #['"']], 1, 5, 5⟩
        position := ⟨0, 4⟩
        velocity := Direction.up.velocity
        stack := .ofList [7] }
    surroundings := ⟨.scripted "", ⟨.closed, .closed, .closed, .closed⟩, default⟩ }

/-- The machine neither stops at `@` nor turns at `?`, and the pointer ends above the grid. -/
theorem quotes_of_spells_quotingUp :
    quotingUp.state.running = true ∧ quotingUp.state.mode = .normal ∧
      quotingUp.state.velocity = Direction.up.velocity ∧ '"' ∉ "@?é".toList ∧
      quotingUp.state.grid.Spells quotingUp.state.position quotingUp.state.velocity
        ('"' :: ("@?é".toList ++ ['"'])) ∧
      quotingUp.Quotes "@?é" ∧
      (quotingUp.stepped 5).state.stack.toList = [7, 64, 63, 233] ∧
      (quotingUp.stepped 5).state.position = ⟨0, -1⟩ := by
  have hspells : quotingUp.state.grid.Spells quotingUp.state.position quotingUp.state.velocity
      ('"' :: ("@?é".toList ++ ['"'])) := by decide
  have hquotes := quotes_of_spells quotingUp rfl rfl .up rfl "@?é" (by decide) hspells
  exact ⟨rfl, rfl, rfl, by decide, hspells, hquotes, hquotes.stack, hquotes.position⟩

end Machine

end Retrace
