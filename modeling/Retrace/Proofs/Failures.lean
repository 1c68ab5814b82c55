import Retrace.Proofs.Attempts
import Retrace.Proofs.LineBuffering
import Retrace.Proofs.Writes

/-!
# When a step fails

Under a policy, and with input that is given in full, nothing about a step is left to others:
whether it fails, and with which fault, is told by the machine. This file lists the conditions, in
terms of coordinates, operands and pending characters (`Machine.Fails`), and shows that they are
neither too few nor too many (`step_fails_iff`).

There are two orders in which edges are looked at. A read looks right, down, left and up, and is
refused at the first edge that the point is past (`Grid.FirstPast`). A write looks left and up
first, because there it would be skipped, and to the right and down it needs the consent of both
edges (`Grid.Rejects`).
-/

namespace Retrace

/-! ### Policies -/

namespace EdgePolicy

/-- A policy does not change. -/
@[simp] theorem state_consult (policy : EdgePolicy) (access : Access) (edge : Edge) (p : Point) :
    (EdgeGuard.consult access edge p policy).state = policy := by
  simp only [EdgeGuard.consult]
  split <;> rfl

/-- A policy refuses an access just when it calls that access fatal at that edge. -/
theorem result_consult (policy : EdgePolicy) (access : Access) (edge : Edge) (p : Point) :
    (EdgeGuard.consult access edge p policy).result =
      if policy.action access edge = .fatal then .error (.boundary access edge p) else .ok () := by
  simp only [EdgeGuard.consult]
  cases policy.action access edge with
  | fatal => rfl
  | warn => rfl
  | permit => rfl

end EdgePolicy

/-! ### Reads -/

namespace Grid

/-- The first edge that a point is past, in the order right, bottom, left, top. -/
inductive FirstPast (g : Grid) (p : Point) : Edge → Prop where
  | right (hx : g.width ≤ p.x.toInt) : FirstPast g p .right
  | bottom (hx : p.x.toInt < g.width) (hy : g.height ≤ p.y.toInt) : FirstPast g p .bottom
  | left (hx : p.x.toInt < 0) (hy : p.y.toInt < g.height) : FirstPast g p .left
  | top (hx : 0 ≤ p.x.toInt) (hx' : p.x.toInt < g.width) (hy : p.y.toInt < 0) : FirstPast g p .top

/-- The edges are checked in a fixed order, and the first one that is passed is the one that
counts. -/
theorem missed?_eq_some_iff {g : Grid} {p : Point} {edge : Edge} :
    g.missed? p = some edge ↔ g.FirstPast p edge := by
  constructor
  · intro h
    unfold missed? at h
    split at h
    · next hx =>
      cases h
      exact .right hx
    split at h
    · next hx hy =>
      cases h
      exact .bottom (by omega) hy
    split at h
    · next hx =>
      cases h
      exact .left hx (by omega)
    split at h
    · next hy =>
      cases h
      exact .top (by omega) (by omega) hy
    · cases h
  · intro h
    unfold missed?
    cases h with
    | right hx => rw [if_pos hx]
    | bottom hx hy => rw [if_neg (by omega), if_pos hy]
    | left hx hy => rw [if_neg (by omega), if_neg (by omega), if_pos hx]
    | top hx hx' hy => rw [if_neg (by omega), if_neg (by omega), if_neg (by omega), if_pos hy]

/-- A read is refused at the first edge, if at all. -/
theorem read_eq_error_iff {g : Grid} {p : Point} {policy : EdgePolicy} {fault : Fault} :
    (g.read p policy).result = .error fault ↔
      ∃ edge, g.FirstPast p edge ∧ policy.action .read edge = .fatal ∧
        fault = .boundary .read edge p := by
  simp only [← missed?_eq_some_iff]
  unfold read
  cases g.missed? p with
  | none => simp
  | some edge =>
    simp only [Reply.result_map_eq_error, EdgePolicy.result_consult, Option.some.injEq]
    grind

theorem state_read (g : Grid) (p : Point) (policy : EdgePolicy) :
    (g.read p policy).state = policy := by
  unfold read
  split
  · rfl
  · exact policy.state_consult _ _ _

/-! ### Writes -/

/-- A write at `p` is rejected: by the policy at an edge, or because the grid would be too large. -/
inductive Rejects (policy : EdgePolicy) (g : Grid) (p : Point) : Fault → Prop where
  | left (hx : p.x.toInt < 0) (fatal : policy.left.write = .fatal) :
      Rejects policy g p (.boundary .write .left p)
  | top (hx : 0 ≤ p.x.toInt) (hy : p.y.toInt < 0) (fatal : policy.top.write = .fatal) :
      Rejects policy g p (.boundary .write .top p)
  | right (hy : 0 ≤ p.y.toInt) (hx : g.width ≤ p.x.toInt) (fatal : policy.right.write = .fatal) :
      Rejects policy g p (.boundary .write .right p)
  /-- The right edge comes first, so it has not rejected the write. -/
  | bottom (hx : 0 ≤ p.x.toInt) (hy : g.height ≤ p.y.toInt)
      (consent : g.width ≤ p.x.toInt → policy.right.write ≠ .fatal)
      (fatal : policy.bottom.write = .fatal) :
      Rejects policy g p (.boundary .write .bottom p)
  /-- The grid would grow beyond its limit, unless the limit is a word that cannot be exceeded. -/
  | tooLarge {x y : Nat} (hx : p.x.toInt = x) (hy : p.y.toInt = y)
      (consent : g.width ≤ x → policy.right.write ≠ .fatal)
      (consent' : g.height ≤ y → policy.bottom.write ≠ .fatal)
      (grows : g.width ≤ x ∨ g.height ≤ y)
      (exceeds : g.cellLimit < max g.width (x + 1) * max g.height (y + 1))
      (bounded : g.cellLimit < greatestWord) :
      Rejects policy g p
        (.gridTooLarge (max g.width (x + 1)) (max g.height (y + 1)) g.cellLimit)

/-- Several edges are asked about one after the other, and the first fatal one refuses. -/
theorem result_consultAll (policy : EdgePolicy) (access : Access) (p : Point)
    (edges : List Edge) :
    (consultAll access p edges policy).result =
      match edges.find? fun edge => policy.action access edge = .fatal with
      | none => .ok ()
      | some edge => .error (.boundary access edge p) := by
  induction edges with
  | nil => rfl
  | cons edge rest ih =>
    have hconsult := policy.result_consult access edge p
    have hsame := policy.state_consult access edge p
    rw [consultAll]
    generalize EdgeGuard.consult access edge p policy = r at *
    obtain ⟨result, state, events⟩ := r
    simp only at hsame hconsult
    subst hsame hconsult
    by_cases hfatal : state.action access edge = .fatal
    · simp [Reply.andThen, hfatal]
    · simp only [hfatal, if_false, Reply.andThen, List.find?_cons, decide_false]
      exact ih

/-- A limit of the greatest word is no limit: an area is cut off there before it is compared. -/
theorem overgrows_eq_true_iff {g : Grid} {s : Spot} :
    g.overgrows s = true ↔ (g.width ≤ s.x ∨ g.height ≤ s.y) ∧
      g.cellLimit < max g.width (s.x + 1) * max g.height (s.y + 1) ∧
      g.cellLimit < greatestWord := by
  simp only [overgrows, area, extentFor, Contains, Bool.and_eq_true, Bool.not_eq_true',
    decide_eq_true_eq, Nat.lt_min]
  grind

/-- The first edge that is crossed by a write and is fatal. -/
theorem find?_crossed (g : Grid) (p : Point) (fatal : Edge → Bool) :
    (g.crossed p).find? fatal =
      if p.x.toInt < 0 then if fatal .left then some .left else none
      else if p.y.toInt < 0 then if fatal .top then some .top else none
      else if g.width ≤ p.x.toInt ∧ fatal .right then some .right
      else if g.height ≤ p.y.toInt ∧ fatal .bottom then some .bottom
      else none := by
  unfold crossed
  grind

/-- What becomes of a write under a policy, told by the first fatal edge. -/
theorem result_landing (g : Grid) (p : Point) (policy : EdgePolicy) :
    (g.landing p policy).result =
      match (g.crossed p).find? fun edge => policy.action .write edge = .fatal with
      | some edge => .error (.boundary .write edge p)
      | none =>
        match spot? p with
        | none => .ok none
        | some s =>
          if g.overgrows s then
            .error (.gridTooLarge (g.extentFor s).1 (g.extentFor s).2 g.cellLimit)
          else .ok (some s) := by
  have hresult := result_consultAll policy .write p (g.crossed p)
  unfold landing
  generalize consultAll .write p (g.crossed p) policy = r at *
  obtain ⟨result, policy', events⟩ := r
  simp only at hresult
  subst hresult
  cases (g.crossed p).find? fun edge => policy.action .write edge = .fatal with
  | some edge => rfl
  | none =>
    simp only [Reply.andThen]
    cases spot? p with
    | none => rfl
    | some s =>
      simp only
      split <;> rfl

theorem rejects_of_landing {g : Grid} {p : Point} {policy : EdgePolicy} {fault : Fault}
    (h : (g.landing p policy).result = .error fault) : Rejects policy g p fault := by
  rw [result_landing, find?_crossed] at h
  simp only [decide_eq_true_eq] at h
  by_cases hx : p.x.toInt < 0
  · by_cases hfatal : policy.action .write .left = .fatal
    · simp only [hx, hfatal, if_true] at h
      cases h
      exact .left hx hfatal
    · simp [hx, hfatal, spot?] at h
  by_cases hy : p.y.toInt < 0
  · by_cases hfatal : policy.action .write .top = .fatal
    · simp only [hx, hy, hfatal, if_true, if_false] at h
      cases h
      exact .top (by omega) hy hfatal
    · simp [hx, hy, hfatal, spot?] at h
  by_cases hright : g.width ≤ p.x.toInt ∧ policy.action .write .right = .fatal
  · simp only [hx, hy, hright, if_false] at h
    cases h
    exact .right (by omega) hright.1 hright.2
  by_cases hbottom : g.height ≤ p.y.toInt ∧ policy.action .write .bottom = .fatal
  · simp only [hx, hy, hright, hbottom, if_false] at h
    cases h
    exact .bottom (by omega) hbottom.1 (fun hpast hfatal => hright ⟨hpast, hfatal⟩) hbottom.2
  -- Both edges have consented, so it is the size that counts.
  obtain ⟨x, hpx⟩ := Int.eq_ofNat_of_zero_le (Int.not_lt.1 hx)
  obtain ⟨y, hpy⟩ := Int.eq_ofNat_of_zero_le (Int.not_lt.1 hy)
  simp only [hx, hy, hright, hbottom, if_false, spot?_eq_some (s := ⟨x, y⟩) hpx hpy] at h
  split at h
  · next hover =>
    cases h
    obtain ⟨hgrows, hexceeds, hbounded⟩ := overgrows_eq_true_iff.1 hover
    refine .tooLarge (x := x) (y := y) hpx hpy ?_ ?_ hgrows hexceeds hbounded
    · intro hpast hfatal
      exact hright ⟨by omega, hfatal⟩
    · intro hpast hfatal
      exact hbottom ⟨by omega, hfatal⟩
  · cases h

theorem Rejects.result_landing_eq {g : Grid} {p : Point} {policy : EdgePolicy} {fault : Fault}
    (h : Rejects policy g p fault) : (g.landing p policy).result = .error fault := by
  rw [result_landing, find?_crossed]
  simp only [decide_eq_true_eq]
  cases h with
  | left hx fatal =>
    have hfatal : policy.action .write .left = .fatal := fatal
    simp only [hx, hfatal, if_true]
  | top hx hy fatal =>
    have hfatal : policy.action .write .top = .fatal := fatal
    simp only [Int.not_lt.2 hx, hy, hfatal, if_true, if_false]
  | right hy hx fatal =>
    have hfatal : policy.action .write .right = .fatal := fatal
    have hx' : ¬ p.x.toInt < 0 := by omega
    simp only [hx', Int.not_lt.2 hy, hx, hfatal, if_true, if_false, and_self]
  | bottom hx hy consent fatal =>
    have hfatal : policy.action .write .bottom = .fatal := fatal
    have hright : ¬ (g.width ≤ p.x.toInt ∧ policy.action .write .right = .fatal) :=
      fun hright => consent hright.1 hright.2
    have hy' : ¬ p.y.toInt < 0 := by omega
    simp only [Int.not_lt.2 hx, hy', hright, hy, hfatal, if_true, if_false, and_self]
  | @tooLarge x y hx hy consent consent' grows exceeds bounded =>
    have hright : ¬ (g.width ≤ p.x.toInt ∧ policy.action .write .right = .fatal) :=
      fun hright => consent (by omega) hright.2
    have hbottom : ¬ (g.height ≤ p.y.toInt ∧ policy.action .write .bottom = .fatal) :=
      fun hbottom => consent' (by omega) hbottom.2
    have hover : g.overgrows ⟨x, y⟩ = true := overgrows_eq_true_iff.2 ⟨grows, exceeds, bounded⟩
    have hx' : ¬ p.x.toInt < 0 := by omega
    have hy' : ¬ p.y.toInt < 0 := by omega
    simp only [hx', hy', hright, hbottom, if_false, spot?_eq_some (s := ⟨x, y⟩) hx hy, hover,
      if_true, extentFor]

/-- The conditions under which a write is rejected are exactly those under which it has nowhere to
land. -/
theorem landing_eq_error_iff {g : Grid} {p : Point} {policy : EdgePolicy} {fault : Fault} :
    (g.landing p policy).result = .error fault ↔ Rejects policy g p fault :=
  ⟨rejects_of_landing, Rejects.result_landing_eq⟩

end Grid

/-! ### Input that is given in full -/

namespace Transcript

/-- All input has been read, and prompts can always be written. -/
structure Scripted (t : Transcript) : Prop where
  unread : t.console.input.unread = []
  unlimited : t.console.sink.capacity = none

theorem scripted_scripted (input : String) : (scripted input).Scripted := ⟨rfl, rfl⟩

/-- Scripted input is pending from the start; there is no source behind it. -/
theorem Scripted.ahead_eq {t : Transcript} (ht : t.Scripted) :
    t.console.input.ahead = t.console.input.pending ∧ t.console.input.blocked = [] := by
  obtain ⟨⟨⟨pending, unread⟩, sink⟩, output⟩ := t
  obtain rfl : unread = [] := ht.unread
  exact ⟨List.append_nil pending, rfl⟩

theorem Scripted.takeChar_eq_error_iff {t : Transcript} (ht : t.Scripted) {fault : Fault} :
    (Channel.takeChar t).result = .error fault ↔
      t.console.input.pending = [] ∧ fault = .inputExhausted := by
  obtain ⟨hahead, hblocked⟩ := ht.ahead_eq
  cases hpending : t.console.input.pending with
  | cons c rest =>
    have htaken := (OnConsole.takeChar_of_cons (p := t) ht.unlimited (hahead.trans hpending)).1
    simp [htaken]
  | nil =>
    have hfailed := (OnConsole.takeChar_of_exhausted (p := t) ht.unlimited
      (hahead.trans hpending) hblocked).1
    rw [hfailed]
    grind

/-- A search of scripted input fails for want of a digit, and in no other way. -/
theorem Scripted.takeDigit_eq_error_iff {t : Transcript} (ht : t.Scripted) {fault : Fault} :
    (Channel.takeDigit t).result = .error fault ↔
      (∀ c ∈ t.console.input.pending, c.isDigit = false) ∧ fault = .inputExhausted := by
  obtain ⟨hahead, hblocked⟩ := ht.ahead_eq
  simp only [← Text.digit?_eq_none_iff, ← hahead]
  rcases t.console.input.search_cases with ⟨front, c, d, i, hsearch, -, hc, hfirst, -⟩ |
    ⟨hsearch, hnone, -⟩ | ⟨line, lines, -, -, hcons⟩
  · -- There is a digit to be found.
    have htaken := (OnConsole.takeDigit_eq (p := t) ht.unlimited hsearch).1
    rw [htaken]
    constructor
    · intro h
      cases h
    · rintro ⟨hnone, -⟩
      have := hnone c (by simp [hfirst])
      cases hc.symm.trans this
  · have hfailed := (OnConsole.takeDigit_eq (p := t) ht.unlimited hsearch).1
    rw [hfailed]
    grind
  · cases hblocked.symm.trans hcons

end Transcript

/-! ### Cells that are refused -/

namespace Machine

variable {ρ : Type} [DirectionSource ρ]

/-- The cell `c`, taken as an instruction, is refused. -/
inductive Refuses (m : Machine Transcript EdgePolicy ρ) : Char → Fault → Prop where
  /-- A divisor of zero. -/
  | divided {op : Operator} (divides : op = .div ∨ op = .rem)
      (zero : m.state.stack.peek 0 = 0) (fatal : m.division = .fatal) :
      Refuses m op.symbol (.divisionByZero op.symbol m.state.position)
  /-- No character to be read. -/
  | unread (none : m.surroundings.channel.console.input.pending = []) :
      Refuses m '~' .inputExhausted
  /-- No digit to be read. -/
  | digitless (none : ∀ c ∈ m.surroundings.channel.console.input.pending, c.isDigit = false) :
      Refuses m '&' .inputExhausted
  /-- A place that must not be read. -/
  | grabbed {edge : Edge} (past : m.state.grid.FirstPast m.state.target edge)
      (fatal : m.surroundings.guard.action .read edge = .fatal) :
      Refuses m 'g' (.boundary .read edge m.state.target)
  /-- A place that must not be written, or is too far away. -/
  | placed {fault : Fault}
      (rejects : m.state.grid.Rejects m.surroundings.guard m.state.target fault) :
      Refuses m 'p' fault

/-- The next step of a machine that runs fails: the pointer is past an edge beyond which nothing is
to be read, or the cell under it is an instruction that is refused. -/
inductive Fails (m : Machine Transcript EdgePolicy ρ) : Fault → Prop where
  | unfetched {edge : Edge} (past : m.state.grid.FirstPast m.state.position edge)
      (fatal : m.surroundings.guard.action .read edge = .fatal) :
      Fails m (.boundary .read edge m.state.position)
  | refused {c : Char} {fault : Fault} (normal : m.state.mode = .normal)
      (cell : m.state.cell? = some c) (refuses : m.Refuses c fault) : Fails m fault

/-- One case for each instruction: the fault tells which condition it was. -/
theorem refuses_of_resolve {m : Machine Transcript EdgePolicy ρ}
    (hscripted : m.surroundings.channel.Scripted) {c : Char} {fault : Fault}
    (h : (resolve m.division m.state (.decode c) m.surroundings).result = .error fault) :
    m.Refuses c fault := by
  obtain ⟨state, ⟨channel, policy, dice⟩, division, history⟩ := m
  have hsymbol : Instruction.decode c ≠ .nop → (Instruction.decode c).symbol = c :=
    Instruction.symbol_decode
  -- Only five kinds of instructions can fail, and each kind is known by its character.
  cases hi : Instruction.decode c with
  | arith op =>
    rw [hi] at h hsymbol
    obtain rfl : op.symbol = c := hsymbol (by simp)
    simp only [resolve] at h
    split at h
    · next hzero =>
      obtain ⟨hdivides, hzero, hfatal⟩ := hzero
      cases h
      refine .divided ?_ hzero hfatal
      cases op <;> simp [Operator.divides] at hdivides ⊢
    · cases h
  | readChar =>
    rw [hi] at h hsymbol
    obtain rfl : '~' = c := hsymbol (by simp)
    obtain ⟨hnone, rfl⟩ := hscripted.takeChar_eq_error_iff.1 (Reply.result_map_eq_error.1 h)
    exact .unread hnone
  | readInt =>
    rw [hi] at h hsymbol
    obtain rfl : '&' = c := hsymbol (by simp)
    obtain ⟨hnone, rfl⟩ := hscripted.takeDigit_eq_error_iff.1 (Reply.result_map_eq_error.1 h)
    exact .digitless hnone
  | grab =>
    rw [hi] at h hsymbol
    obtain rfl : 'g' = c := hsymbol (by simp)
    obtain ⟨edge, hpast, hfatal, rfl⟩ := Grid.read_eq_error_iff.1 (Reply.result_map_eq_error.1 h)
    exact .grabbed hpast hfatal
  | place =>
    rw [hi] at h hsymbol
    obtain rfl : 'p' = c := hsymbol (by simp)
    exact .placed (Grid.landing_eq_error_iff.1 (Reply.result_map_eq_error.1 h))
  | _ =>
    rw [hi] at h
    cases h

/-- The converse, by the conditions: each of them makes its instruction fail in the way it says. -/
theorem Refuses.result_resolve {m : Machine Transcript EdgePolicy ρ}
    (hscripted : m.surroundings.channel.Scripted) {c : Char} {fault : Fault}
    (h : m.Refuses c fault) :
    (resolve m.division m.state (.decode c) m.surroundings).result = .error fault := by
  obtain ⟨state, ⟨channel, policy, dice⟩, division, history⟩ := m
  cases h with
  | @divided op divides zero fatal =>
    have hdivides : op.divides = true := by
      rcases divides with rfl | rfl
      · rfl
      · rfl
    rw [Instruction.decode_symbol, resolve, if_pos ⟨hdivides, zero, fatal⟩]
    rfl
  | unread none =>
    exact Reply.result_map_eq_error.2 (hscripted.takeChar_eq_error_iff.2 ⟨none, rfl⟩)
  | digitless none =>
    exact Reply.result_map_eq_error.2 (hscripted.takeDigit_eq_error_iff.2 ⟨none, rfl⟩)
  | grabbed past fatal =>
    exact Reply.result_map_eq_error.2 (Grid.read_eq_error_iff.2 ⟨_, past, fatal, rfl⟩)
  | placed rejects =>
    exact Reply.result_map_eq_error.2 (Grid.landing_eq_error_iff.2 rejects)

/-! ### Steps that fail -/

omit [DirectionSource ρ] in
/-- A policy has no memory, so asking it leaves the surroundings as they were. -/
theorem state_fetch {π : Type} (s : State) (around : Surroundings π EdgePolicy ρ) :
    (fetch s around).state = around := by
  obtain ⟨channel, policy, dice⟩ := around
  show (⟨channel, (s.grid.read s.position policy).state, dice⟩ : Surroundings π EdgePolicy ρ) = _
  rw [Grid.state_read]

/-- A running machine fails to fetch, or it fails to interpret what it has fetched. -/
theorem attempt_eq_error_iff {m : Machine Transcript EdgePolicy ρ} {fault : Fault}
    (hrun : m.state.running = true) :
    m.attempt.result = .error fault ↔
      (fetch m.state m.surroundings).result = .error fault ∨
      ∃ c, (fetch m.state m.surroundings).result = .ok (some c) ∧
        (interpret m.division m.state c m.surroundings).result = .error fault := by
  simp only [attempt, hrun, Bool.not_true, Bool.false_eq_true, if_false]
  rw [Reply.result_andThen_eq_error, state_fetch]
  apply or_congr_right
  constructor
  · rintro ⟨_ | c, hfetch, h⟩
    · cases h
    · exact ⟨c, hfetch, Reply.result_map_eq_error.1 h⟩
  · rintro ⟨c, hfetch, h⟩
    exact ⟨some c, hfetch, Reply.result_map_eq_error.2 h⟩

omit [DirectionSource ρ] in
/-- A space is never refused, so what is refused is a cell of the grid. -/
theorem Refuses.ne_space {m : Machine Transcript EdgePolicy ρ} {c : Char} {fault : Fault}
    (h : m.Refuses c fault) : c ≠ ' ' := by
  cases h with
  | @divided op => cases op <;> decide
  | _ => decide

theorem fails_of_interpret {m : Machine Transcript EdgePolicy ρ}
    (hscripted : m.surroundings.channel.Scripted) {c : Char} {fault : Fault}
    (hfetch : (fetch m.state m.surroundings).result = .ok (some c))
    (h : (interpret m.division m.state c m.surroundings).result = .error fault) :
    m.Fails fault := by
  cases hmode : m.state.mode with
  | text =>
    rw [interpret, hmode] at h
    cases h
  | normal =>
    rw [interpret, hmode] at h
    have hrefuses := refuses_of_resolve hscripted h
    have hread : (m.state.grid.read m.state.position m.surroundings.guard).result = .ok (some c) :=
      hfetch
    have hfound := (Grid.eq_found_of_read hread).symm
    exact .refused hmode (Grid.get?_of_found hfound hrefuses.ne_space) hrefuses

/-- **A step fails exactly where it should**, with exactly the fault that belongs there, under every
policy at the edges and for a division by zero, in every state whose input is given in full. -/
theorem step_fails_iff (m : Machine Transcript EdgePolicy ρ) (hgrid : m.state.grid.Rectangular)
    (hscripted : m.surroundings.channel.Scripted) (fault : Fault) :
    m.step.result = .error fault ↔ m.state.running = true ∧ m.Fails fault := by
  have hattempt : m.step.result = .error fault ↔ m.attempt.result = .error fault := by
    rw [result_step]
    cases m.attempt.result with
    | error fault => simp [Except.map]
    | ok outcome => simp [Except.map]
  rw [hattempt]
  cases hrun : m.state.running with
  | false => simp [attempt, hrun]
  | true =>
    rw [attempt_eq_error_iff hrun]
    constructor
    · rintro (hrefused | ⟨c, hfetch, hinterpret⟩)
      · obtain ⟨edge, hpast, hfatal, rfl⟩ := Grid.read_eq_error_iff.1 hrefused
        exact ⟨rfl, .unfetched hpast hfatal⟩
      · exact ⟨rfl, fails_of_interpret hscripted hfetch hinterpret⟩
    · rintro ⟨-, h⟩
      cases h with
      | unfetched past fatal =>
        exact .inl (Grid.read_eq_error_iff.2 ⟨_, past, fatal, rfl⟩)
      | refused normal cell refuses =>
        have hread := hgrid.read_of_get? cell m.surroundings.guard
        refine .inr ⟨_, congrArg Reply.result hread, ?_⟩
        rw [interpret, normal]
        exact refuses.result_resolve hscripted

/-- A program about to write far to the right, where the grid may grow, and below, where it may
not. -/
def overreaching : Machine Transcript EdgePolicy Xoshiro where
  state := { grid := ⟨#[#['p']], 1, 1, 16⟩, stack := .ofList [65, 18446744073709551616, 5] }
  surroundings := ⟨.scripted "", ⟨.closed, .closed, .closed, .elastic⟩, default⟩

/-- The column does not fit into a word and is saturated. The right edge consents, and it is the
bottom edge that rejects the write, before the size of the grid is looked at. -/
theorem step_fails_iff_overreaching :
    overreaching.state.grid.Rectangular ∧ overreaching.surroundings.channel.Scripted ∧
      overreaching.step.result = .error (.boundary .write .bottom ⟨Int64.maxValue, 5⟩) := by
  have hgrid : overreaching.state.grid.Rectangular := by decide
  have hscripted : overreaching.surroundings.channel.Scripted := Transcript.scripted_scripted ""
  refine ⟨hgrid, hscripted, (step_fails_iff _ hgrid hscripted _).2 ⟨rfl, ?_⟩⟩
  have htarget : overreaching.state.target = ⟨Int64.maxValue, 5⟩ := by decide
  rw [← htarget]
  refine .refused rfl rfl (.placed (.bottom ?_ ?_ ?_ rfl))
  · decide
  · decide
  · intro _
    decide

end Machine

end Retrace
