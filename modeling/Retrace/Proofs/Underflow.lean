import Retrace.Proofs.Frame

/-!
# Zeros at the bottom

Taking from the empty stack gives zero, so a stack goes on forever with zeros below its bottom, and
it should not matter how many of them are really there. Two stacks that differ only in this show the
same value at every depth (`Stack.sameButZeros_iff`), and this is all that an instruction can see of
them.

Undoing is less obvious. A history tells a zero that was taken from no value that was taken, and it
puts the one back and not the other, so the histories of the two machines are not the same. What
ties them together is that each leads back over its own machine's stacks: the deeds are the same,
and the stacks in which they were done are alike (`PairedGroups`).
-/

namespace Retrace

/-! ### Stacks -/

namespace Stack

/-- One of the stacks is the other with zeros underneath. -/
def SameButZeros (s t : Stack) : Prop :=
  ∃ n, t = s.atop (List.replicate n 0) ∨ s = t.atop (List.replicate n 0)

/-- A missing value reads as zero, so zeros below a stack cannot be seen. -/
theorem peek_atop_zeros (s : Stack) (n k : Nat) :
    (s.atop (List.replicate n 0)).peek k = s.peek k := by
  by_cases hk : k < s.length
  · exact peek_atop hk
  · have hvalues : s.values.length ≤ k := Nat.le_of_not_lt hk
    rw [peek, peek, values_atop, List.reverse_replicate, List.getD_eq_getElem?_getD,
      List.getD_eq_getElem?_getD, List.getElem?_append_right hvalues,
      List.getElem?_eq_none hvalues, List.getElem?_replicate]
    split <;> rfl

/-- Conversely, a deeper stack that shows the same values has only zeros to add. -/
theorem eq_atop_of_peek {s t : Stack} (hlength : s.length ≤ t.length)
    (h : ∀ k, t.peek k = s.peek k) : t = s.atop (List.replicate (t.length - s.length) 0) := by
  have hvalues : t.values = (s.atop (List.replicate (t.length - s.length) 0)).values := by
    apply List.ext_getElem
    · rw [values_atop, List.length_append, List.length_reverse, List.length_replicate]
      exact (Nat.add_sub_cancel' hlength).symm
    · intro k hk hk'
      have hpeek := (h k).trans (peek_atop_zeros s (t.length - s.length) k).symm
      rw [peek, peek, List.getD_eq_getElem?_getD, List.getD_eq_getElem?_getD,
        List.getElem?_eq_getElem hk, List.getElem?_eq_getElem hk'] at hpeek
      exact hpeek
  cases t
  exact congrArg Stack.mk hvalues

/-- Stacks are the same but for zeros at the bottom just when no peek tells them apart. -/
theorem sameButZeros_iff {s t : Stack} : s.SameButZeros t ↔ ∀ k, t.peek k = s.peek k := by
  constructor
  · rintro ⟨n, rfl | rfl⟩ k
    · exact peek_atop_zeros s n k
    · exact (peek_atop_zeros t n k).symm
  · intro h
    rcases Nat.le_total s.length t.length with hle | hle
    · exact ⟨_, .inl (eq_atop_of_peek hle h)⟩
    · exact ⟨_, .inr (eq_atop_of_peek hle fun k => (h k).symm)⟩

namespace SameButZeros

variable {s t : Stack}

theorem peek_eq (h : s.SameButZeros t) (k : Nat) : t.peek k = s.peek k := sameButZeros_iff.1 h k

theorem push (h : s.SameButZeros t) {v w : Int} (hv : w = v) :
    (s.push v).SameButZeros (t.push w) := by
  subst hv
  apply sameButZeros_iff.2
  intro k
  cases k with
  | zero => rfl
  | succ k => exact h.peek_eq k

theorem popped (h : s.SameButZeros t) : t.pop?.1.getD 0 = s.pop?.1.getD 0 :=
  calc t.pop?.1.getD 0 = t.peek 0 := pop_fst t
    _ = s.peek 0 := h.peek_eq 0
    _ = s.pop?.1.getD 0 := (pop_fst s).symm

/-- Popping keeps the difference at the bottom, unless it pops a zero there and the difference
shrinks. -/
theorem pop (h : s.SameButZeros t) : s.pop?.2.SameButZeros t.pop?.2 := by
  apply sameButZeros_iff.2
  intro k
  calc t.pop?.2.peek k = t.peek (k + 1) := (peek_succ t k).symm
    _ = s.peek (k + 1) := h.peek_eq (k + 1)
    _ = s.pop?.2.peek k := peek_succ s k

/-- An empty stack exits with zero, as does one with a zero on top. -/
theorem exitCode_eq (h : s.SameButZeros t) : t.exitCode = s.exitCode := by
  have htop := h.peek_eq 0
  -- The exit code of no value is that of a zero.
  obtain ⟨_ | ⟨v, rest⟩⟩ := s <;> obtain ⟨_ | ⟨w, rest'⟩⟩ := t
  · rfl
  · have hzero : w = 0 := htop
    subst hzero
    rfl
  · have hzero : 0 = v := htop
    subst hzero
    rfl
  · have hsame : w = v := htop
    subst hsame
    rfl

end SameButZeros

end Stack

/-! ### Deeds -/

namespace State

/-- The states are alike but for zeros at the bottom of the stack. -/
structure SameButZeros (s t : State) : Prop where
  eq : t = s.withStack t.stack
  stack : s.stack.SameButZeros t.stack

/-- One case for each deed: what it puts on the stack was computed from peeks, and these agree. -/
theorem SameButZeros.enact {s t : State} (h : s.SameButZeros t) (d : Deed) :
    (s.enact d).1.SameButZeros (t.enact d).1 := by
  obtain ⟨heq, hstack⟩ := h
  generalize t.stack = stack at heq hstack
  subst heq
  have hfirst := hstack.popped
  have hsecond := hstack.pop.popped
  cases d with
  | branch nonzero zero =>
    refine ⟨?_, hstack.pop⟩
    simp only [State.enact, withStack, hfirst]
  | compute op => exact ⟨rfl, hstack.pop.pop.push (congr (congrArg op.apply hsecond) hfirst)⟩
  | negate => exact ⟨rfl, hstack.pop.push (congrArg (fun v => truth (v = 0)) hfirst)⟩
  | compare =>
    have hverdict : truth (stack.pop?.1.getD 0 < stack.pop?.2.pop?.1.getD 0) =
        truth (s.stack.pop?.1.getD 0 < s.stack.pop?.2.pop?.1.getD 0) := by
      rw [hfirst, hsecond]
    exact ⟨rfl, hstack.pop.pop.push hverdict⟩
  | duplicate => exact ⟨rfl, (hstack.pop.push hfirst).push hfirst⟩
  | swap => exact ⟨rfl, (hstack.pop.pop.push hfirst).push hsecond⟩
  | grab c => exact ⟨rfl, hstack.pop.pop.push rfl⟩
  | place target c =>
    cases target with
    | none => exact ⟨rfl, hstack.pop.pop.pop⟩
    | some spot => exact ⟨rfl, hstack.pop.pop.pop⟩
  | printInt | printChar | discard => exact ⟨rfl, hstack.pop⟩
  | push | readDigit | readChar => exact ⟨rfl, hstack.push rfl⟩
  | halt | turn | skip | setMode | idle => exact ⟨rfl, hstack⟩

theorem SameButZeros.perform {s t : State} (h : s.SameButZeros t) (d : Deed) :
    (s.perform d).1.SameButZeros (t.perform d).1 := by
  by_cases hd : d = .halt
  · subst hd
    exact h.enact .halt
  · obtain ⟨heq, hstack⟩ := h.enact d
    rw [perform_eq hd, perform_eq hd]
    refine ⟨?_, hstack⟩
    rw [heq]
    rfl

/-- Taking a deed back restores the stack in which it was done, exactly. -/
theorem stack_revertAll_perform {s now : State} {d : Deed}
    (h : now.stack = (s.perform d).1.stack) :
    (now.revertAll (s.perform d).2.reverse).stack = s.stack := by
  obtain ⟨grid, position, velocity, stack, mode, running⟩ := now
  simp only at h
  subst h
  cases d with
  | place target c =>
    cases target <;> simp [State.perform, State.enact, State.advance, revertAll, revert]
  | _ => simp [State.perform, State.enact, State.advance, revertAll, revert]

/-- On everything but the stack, a deed is taken back alike whatever the stacks were. -/
theorem revertAll_perform_withStack (s now : State) (stack stack' : Stack) (d : Deed) :
    (now.withStack stack').revertAll ((s.withStack stack).perform d).2.reverse =
      (now.revertAll (s.perform d).2.reverse).withStack
        ((now.withStack stack').revertAll ((s.withStack stack).perform d).2.reverse).stack := by
  cases d with
  | place target c => cases target <;> rfl
  | _ => rfl

/-- The two groups may differ in what they restore, since one machine popped a zero where the other
found nothing. Undoing each on its own stack leads back to stacks that are again the same but for
zeros. -/
theorem SameButZeros.revertAll_perform {s t now now' : State} {d : Deed} (hst : s.SameButZeros t)
    (hnow : now.SameButZeros now') (hs : now.stack = (s.perform d).1.stack)
    (ht : now'.stack = (t.perform d).1.stack) :
    (now.revertAll (s.perform d).2.reverse).SameButZeros
      (now'.revertAll (t.perform d).2.reverse) := by
  constructor
  · have hback := revertAll_perform_withStack s now t.stack now'.stack d
    rwa [← hst.eq, ← hnow.eq] at hback
  · rw [stack_revertAll_perform hs, stack_revertAll_perform ht]
    exact hst.stack

theorem SameButZeros.withRunning {s t : State} (h : s.SameButZeros t) (running : Bool) :
    State.SameButZeros { s with running } { t with running } :=
  ⟨congrArg (fun s : State => { s with running }) h.eq, h.stack⟩

end State

/-- A channel takes a deed back alike whatever the stack was. -/
theorem Channel.revertAll_perform {π : Type} [Channel π] {s t : State} (h : s.SameButZeros t)
    (d : Deed) (channel : π) :
    Channel.revertAll (t.perform d).2.reverse channel =
      Channel.revertAll (s.perform d).2.reverse channel := by
  rw [h.eq]
  cases d with
  | place target c => cases target <;> rfl
  | _ => rfl

/-! ### Histories -/

/-- The groups were made by the same deeds, in states that are alike, and lead back from `now` and
`now'` over the stacks of these states. -/
inductive PairedGroups : Stack → Stack → List (List Change) → List (List Change) → Prop where
  | nil {now now' : Stack} : PairedGroups now now' [] []
  | cons {now now' : Stack} {s t : State} {deed : Deed} {groups groups' : List (List Change)}
      (alike : s.SameButZeros t)
      (now_eq : now = (s.perform deed).1.stack)
      (now_eq' : now' = (t.perform deed).1.stack)
      (rest : PairedGroups s.stack t.stack groups groups') :
      PairedGroups now now' ((s.perform deed).2.reverse :: groups)
        ((t.perform deed).2.reverse :: groups')

theorem PairedGroups.newest {now now' : Stack} {groups groups' : List (List Change)}
    (h : PairedGroups now now' groups groups') (limit : Option Nat) :
    PairedGroups now now' (newest limit groups) (newest limit groups') := by
  cases limit with
  | none => exact h
  | some n =>
    show PairedGroups now now' (groups.take n) (groups'.take n)
    induction h generalizing n with
    | nil => simpa using PairedGroups.nil
    | cons alike now_eq now_eq' _ ih =>
      cases n with
      | zero => exact .nil
      | succ n => exact .cons alike now_eq now_eq' (ih n)

/-- The histories have one limit, nothing is pending in them, and their groups are paired. -/
inductive History.Paired (now now' : Stack) : History → History → Prop where
  | off : Paired now now' .off .off
  | kept {groups groups' : List (List Change)} {limit : Option Nat}
      (groups_paired : PairedGroups now now' groups groups') :
      Paired now now' (.kept { groups, limit }) (.kept { groups := groups', limit })

/-- The groups of one deed on either stack are a pair, and a limit forgets such pairs together. -/
theorem History.Paired.extend {s t : State} {h h' : History} (hst : s.SameButZeros t)
    (hh : History.Paired s.stack t.stack h h') (deed : Deed) :
    History.Paired (s.perform deed).1.stack (t.perform deed).1.stack
      (h.extend (s.perform deed).2).1 (h'.extend (t.perform deed).2).1 := by
  cases hh with
  | off =>
    rw [extend_eq_add rfl, extend_eq_add rfl]
    exact .off
  | kept hgroups =>
    rw [extend_eq_add rfl, extend_eq_add rfl]
    exact .kept ((PairedGroups.cons hst rfl rfl hgroups).newest _)

/-- Paired histories have nothing to undo, or else their newest groups are those of one deed and the
others are paired. -/
theorem History.Paired.groups_cases {now now' : Stack} {h h' : History}
    (hh : History.Paired now now' h h') :
    (h.groups = [] ∧ h'.groups = []) ∨
      ∃ (s t : State) (deed : Deed) (rest rest' : List (List Change)), s.SameButZeros t ∧
        now = (s.perform deed).1.stack ∧ now' = (t.perform deed).1.stack ∧
        h.groups = (s.perform deed).2.reverse :: rest ∧
        h'.groups = (t.perform deed).2.reverse :: rest' ∧
        History.Paired s.stack t.stack h.dropNewest h'.dropNewest := by
  cases hh with
  | off => exact .inl ⟨rfl, rfl⟩
  | kept hgroups =>
    cases hgroups with
    | nil => exact .inl ⟨rfl, rfl⟩
    | cons alike now_eq now_eq' rest =>
      exact .inr ⟨_, _, _, _, _, alike, now_eq, now_eq', rfl, rfl, .kept rest⟩

/-! ### Machines -/

namespace Machine

variable {π η ρ : Type}

/-- The machines are alike but for zeros at the bottom of the stack, and for what their histories
have of these. -/
structure SameButZeros (m m' : Machine π η ρ) : Prop where
  state : m.state.SameButZeros m'.state
  surroundings : m'.surroundings = m.surroundings
  division : m'.division = m.division
  history : History.Paired m.state.stack m'.state.stack m.history m'.history

variable [Channel π] [EdgeGuard η] [DirectionSource ρ]

/-- Deciding what to do only peeks, so the two machines decide the same. -/
theorem SameButZeros.attempt {m m' : Machine π η ρ} (h : m.SameButZeros m') :
    m'.attempt = m.attempt := by
  apply attempt_congr h.state.eq h.surroundings h.division
  intro i _ k _
  exact h.state.stack.peek_eq k

theorem SameButZeros.step {m m' : Machine π η ρ} (h : m.SameButZeros m') :
    m'.step.result = m.step.result ∧ m.step.state.SameButZeros m'.step.state := by
  rw [result_step, result_step, state_step, state_step, h.attempt]
  refine ⟨rfl, ?_⟩
  match m.attempt.result with
  | .error fault => exact ⟨h.state, rfl, h.division, h.history⟩
  | .ok (.inl outcome) => exact ⟨h.state, rfl, h.division, h.history⟩
  | .ok (.inr deed) =>
    exact ⟨h.state.perform deed, rfl, h.division, h.history.extend h.state deed⟩

omit [EdgeGuard η] [DirectionSource ρ] in
/-- Each machine goes back to its own stack, and the two stacks were alike when they were left. -/
theorem SameButZeros.unstep {m m' : Machine π η ρ} (h : m.SameButZeros m') :
    m'.unstep.result = m.unstep.result ∧ m.unstep.state.SameButZeros m'.unstep.state := by
  rcases h.history.groups_cases with
    ⟨hnone, hnone'⟩ | ⟨s, t, deed, rest, rest', alike, hnow, hnow', hgroups, hgroups', hpaired⟩
  · obtain ⟨hresult, hstate⟩ := unstep_of_no_groups hnone
    obtain ⟨hresult', hstate'⟩ := unstep_of_no_groups hnone'
    rw [hresult, hresult', hstate, hstate']
    exact ⟨rfl, h⟩
  · obtain ⟨hresult, hstate⟩ := unstep_of_groups hgroups
    obtain ⟨hresult', hstate'⟩ := unstep_of_groups hgroups'
    rw [hresult, hresult', hstate, hstate', h.surroundings, h.division,
      Channel.revertAll_perform alike]
    refine ⟨rfl, alike.revertAll_perform h.state hnow hnow', rfl, rfl, ?_⟩
    simp only [State.stack_revertAll_perform hnow, State.stack_revertAll_perform hnow']
    exact hpaired

/-- The run lemma, over steps, unsteps and restarts in any order. -/
theorem SameButZeros.calls {m m' : Machine π η ρ} (h : m.SameButZeros m') (cs : List Call) :
    (m.calls cs).SameButZeros (m'.calls cs) := by
  induction cs generalizing m m' with
  | nil => exact h
  | cons c rest ih =>
    apply ih
    cases c with
    | step => exact h.step.2
    | unstep => exact h.unstep.2
    | stop => exact ⟨h.state.withRunning false, h.surroundings, h.division, h.history⟩
    | restart => exact ⟨h.state.withRunning true, h.surroundings, h.division, h.history⟩

/-! ### What can be told apart -/

def withStack (stack : Stack) (m : Machine π η ρ) : Machine π η ρ :=
  { m with state := m.state.withStack stack }

/-- The next call of either kind has the same answer, the machines are alike in everything but the
stack and the history, and only zeros at the bottom tell their stacks apart. -/
structure Indistinct (m m' : Machine π η ρ) : Prop where
  step : m'.step.result = m.step.result
  unstep : m'.unstep.result = m.unstep.result
  position : m'.state.position = m.state.position
  velocity : m'.state.velocity = m.state.velocity
  mode : m'.state.mode = m.state.mode
  running : m'.state.running = m.state.running
  grid : m'.state.grid = m.state.grid
  channel : m'.surroundings.channel = m.surroundings.channel
  guard : m'.surroundings.guard = m.surroundings.guard
  dice : m'.surroundings.dice = m.surroundings.dice
  stack : m.state.stack.SameButZeros m'.state.stack
  exitCode : m'.state.stack.exitCode = m.state.stack.exitCode

theorem SameButZeros.indistinct {m m' : Machine π η ρ} (h : m.SameButZeros m') :
    m.Indistinct m' where
  step := h.step.1
  unstep := h.unstep.1
  position := (congrArg State.position h.state.eq).trans rfl
  velocity := (congrArg State.velocity h.state.eq).trans rfl
  mode := (congrArg State.mode h.state.eq).trans rfl
  running := (congrArg State.running h.state.eq).trans rfl
  grid := (congrArg State.grid h.state.eq).trans rfl
  channel := congrArg Surroundings.channel h.surroundings
  guard := congrArg Surroundings.guard h.surroundings
  dice := congrArg Surroundings.dice h.surroundings
  stack := h.state.stack
  exitCode := h.state.stack.exitCode_eq

omit [Channel π] [EdgeGuard η] [DirectionSource ρ] in
theorem sameButZeros_withStack {m : Machine π η ρ} {stack : Stack}
    (hgroups : m.history.groups = []) (hpending : m.history.pending = [])
    (hstack : m.state.stack.SameButZeros stack) : m.SameButZeros (m.withStack stack) := by
  refine ⟨⟨rfl, hstack⟩, rfl, rfl, ?_⟩
  obtain ⟨state, around, division, _ | ⟨groups, pending, limit⟩⟩ := m
  · exact .off
  · simp only [History.groups, History.pending] at hgroups hpending
    subst hgroups hpending
    exact .kept .nil

/-- **Underflow cannot be seen.** Whether zeros at the bottom are there or only taken to be there,
no call can tell, and undoing keeps the secret too. -/
theorem indistinct_calls (m : Machine π η ρ) (stack : Stack) (hgroups : m.history.groups = [])
    (hpending : m.history.pending = []) (hstack : m.state.stack.SameButZeros stack)
    (cs : List Call) : (m.calls cs).Indistinct ((m.withStack stack).calls cs) :=
  ((sameButZeros_withStack hgroups hpending hstack).calls cs).indistinct

/-- A program that takes three values from the stack. -/
def taking : Machine Transcript EdgePolicy Xoshiro :=
  start ⟨#[#['$', '+']], 2, 1, 16⟩ (.scripted "") .standard default (.kept .unbounded)

theorem indistinct_calls_taking :
    taking.history.groups = [] ∧ taking.history.pending = [] ∧
      taking.state.stack.SameButZeros (.ofList [0, 0, 0, 0]) ∧
      (taking.calls [.step, .step, .unstep, .unstep]).Indistinct
        ((taking.withStack (.ofList [0, 0, 0, 0])).calls [.step, .step, .unstep, .unstep]) ∧
      (taking.calls [.step, .step]).state.stack.toList = [0] ∧
      ((taking.withStack (.ofList [0, 0, 0, 0])).calls [.step, .step]).state.stack.toList = [0, 0] ∧
      (taking.calls [.step, .step, .unstep, .unstep]).state.stack.toList = [] := by
  have hstack : taking.state.stack.SameButZeros (.ofList [0, 0, 0, 0]) := ⟨4, .inl rfl⟩
  exact ⟨rfl, rfl, hstack, indistinct_calls taking _ rfl rfl hstack _, rfl, rfl, rfl⟩

end Machine

end Retrace
