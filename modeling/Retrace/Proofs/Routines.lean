import Retrace.Proofs.Calls
import Retrace.Routine

/-!
# Routines do what steps do

A routine has its effects one after the other, and a step of the machine has them all at once, when
nothing can fail any more. The two agree in everything: result, machine and events (`run_step`,
`run_unstep`). Forward this says that no instruction has an effect on the machine before the last
thing that can fail. In each it is the same argument: what the routine asks of the surroundings
comes first (`ask`), and the rest of its effects is a deed with its changes noted (`perform`).

Back it says that reverting change by change, and going on after a failure, is reverting the state
and reverting the channel.
-/

namespace Retrace

namespace Routine

variable {π η ρ α β : Type}

instance : LawfulMonad (Routine π η ρ) :=
  LawfulMonad.mk' _ (fun r => Routine.ext (funext fun m => (r.run m).andThen_done))
    (fun _ _ => rfl)
    (fun r _ _ => Routine.ext (funext fun m => (r.run m).andThen_assoc _ _))

theorem run_bind (r : Routine π η ρ α) (next : α → Routine π η ρ β) (m : Machine π η ρ) :
    (r >>= next).run m = (r.run m).andThen fun a => (next a).run := rfl

theorem run_look_bind (f : Machine π η ρ → α) (next : α → Routine π η ρ β) (m : Machine π η ρ) :
    (look f >>= next).run m = (next (f m)).run m := rfl

theorem run_pop_bind (next : Option Int → Routine π η ρ α) (m : Machine π η ρ) :
    (pop >>= next).run m =
      (next m.state.stack.pop?.1).run
        { m with state := { m.state with stack := m.state.stack.dropTop } } := rfl

/-! ### Asking and doing -/

/-- Uses the surroundings. -/
def ask (operation : Surroundings π η ρ → Reply (Surroundings π η ρ) α) : Routine π η ρ α where
  run m := (operation m.surroundings).within fun surroundings => { m with surroundings }

/-- Does a deed and notes its changes. -/
def perform (deed : Deed) : Routine π η ρ Unit where
  run m := .done () { m with
    state := (m.state.perform deed).1
    history := (m.state.perform deed).2.foldl (fun h c => h.record c) m.history }

/-- A deed that depends on an answer of the channel only. -/
theorem ask_channel_perform (operation : π → Reply π α) (deed : α → Deed) :
    (ask (fun ⟨channel, guard, dice⟩ =>
        ((operation channel).map deed).within (⟨·, guard, dice⟩)) >>= perform :
          Routine π η ρ Unit) =
      atChannel operation >>= fun a => perform (deed a) := by
  ext1
  funext m
  obtain ⟨state, ⟨channel, guard, dice⟩, division, history⟩ := m
  simp only [run_bind, ask, atChannel]
  generalize operation channel = r
  obtain ⟨_ | a, channel', events⟩ := r
  · rfl
  · rfl

/-- A deed that depends on an answer of the guard only. -/
theorem ask_guard_perform (operation : η → Reply η α) (deed : α → Deed) :
    (ask (fun ⟨channel, guard, dice⟩ =>
        ((operation guard).map deed).within (⟨channel, ·, dice⟩)) >>= perform :
          Routine π η ρ Unit) =
      atGuard operation >>= fun a => perform (deed a) := by
  ext1
  funext m
  obtain ⟨state, ⟨channel, guard, dice⟩, division, history⟩ := m
  simp only [run_bind, ask, atGuard]
  generalize operation guard = r
  obtain ⟨_ | a, guard', events⟩ := r
  · rfl
  · rfl

/-! ### Writing a cell -/

theorem atGuard_andThen (operation : η → Reply η α) (next : α → η → Reply η β) :
    (atGuard fun guard => (operation guard).andThen next : Routine π η ρ β) =
      atGuard operation >>= fun a => atGuard (next a) := by
  ext1
  funext m
  simp only [run_bind, atGuard]
  generalize operation m.surroundings.guard = r
  obtain ⟨_ | a, guard, events⟩ := r
  · rfl
  · rfl

theorem atGuard_consultAll [EdgeGuard η] (access : Access) (p : Point) (edges : List Edge) :
    (atGuard (Grid.consultAll access p edges) : Routine π η ρ Unit) = consult access p edges := by
  induction edges with
  | nil => rfl
  | cons edge rest ih =>
    rw [consult, ← ih]
    exact atGuard_andThen _ _

/-- Puts a character where it was decided to; the result is the old one. -/
def put (c : Char) : Option Spot → Routine π η ρ (Option Char)
  | none => pure none
  | some spot => ⟨fun m =>
    .done (some (m.state.grid.replaced spot))
      { m with state := { m.state with grid := m.state.grid.put spot c } }⟩

/-- The guard and the size are asked before the grid is touched. -/
theorem run_write [EdgeGuard η] (p : Point) (c : Char) (m : Machine π η ρ) :
    (write p c).run m = (atGuard (m.state.grid.landing p) >>= put c).run m := by
  have hlanding : (atGuard (m.state.grid.landing p) : Routine π η ρ _) = _ := atGuard_andThen _ _
  rw [hlanding, atGuard_consultAll, bind_assoc, write, run_look_bind, run_bind, run_bind]
  apply Reply.andThen_congr
  intro _ _
  cases Grid.spot? p with
  | none => rfl
  | some spot =>
    by_cases hsize : m.state.grid.overgrows spot = true
    · simp only [if_pos hsize]
      rfl
    · simp only [if_neg hsize]
      -- The old character is looked at after the grid has grown, and growing cannot be seen.
      exact congrArg (fun old => Reply.done (some old) _) (Grid.replaced_growTo _ spot spot)

/-! ### Instructions -/

/-- Where the divisor is zero, zero is what the operator gives anyway. -/
theorem ite_apply_top (op : Operator) (left : Int) (s : Stack) :
    (if op.divides && s.peek 0 == 0 then 0 else op.apply left (s.pop?.1.getD 0)) =
      op.apply left (s.pop?.1.getD 0) := by
  have htop : s.pop?.1.getD 0 = s.peek 0 := s.pop_fst
  rw [htop]
  split
  · next hzero =>
    simp only [Bool.and_eq_true, beq_iff_eq] at hzero
    cases op with
    | div | rem => simp only [Operator.apply, hzero.2, if_true]
    | _ => cases hzero.1
  · rfl

theorem quoted_eq (c : Char) : (quoted c : Routine π η ρ Unit) = perform (Machine.literal c) := by
  unfold quoted Machine.literal
  split
  · rfl
  · rfl

section Forward

variable [Channel π] [EdgeGuard η] [DirectionSource ρ]

theorem run_calculate (op : Operator) (m : Machine π η ρ) :
    (calculate op >>= fun _ => advance).run m =
      (ask (Machine.resolve m.division m.state (.arith op)) >>= perform).run m := by
  have hask : (ask (Machine.resolve m.division m.state (.arith op))).run m =
      if op.divides && m.state.stack.peek 0 == 0 && m.division == .fatal then
        .fail (.divisionByZero op.symbol m.state.position) m
      else .done (.compute op) m := by
    simp only [ask, Machine.resolve, Bool.and_eq_true, beq_iff_eq, and_assoc]
    split <;> rfl
  simp only [run_bind (ask _), hask, calculate, peek, bind_assoc, run_look_bind]
  split
  · rfl
  · simp only [bind_assoc, run_pop_bind, ite_apply_top]
    rfl

theorem run_place (m : Machine π η ρ) :
    (place >>= fun _ => advance).run m =
      (ask (Machine.resolve m.division m.state .place) >>= perform).run m := by
  refine Eq.trans ?_ (congrArg (·.run m) (ask_guard_perform _ _).symm)
  simp only [place, peek, bind_assoc, run_look_bind]
  rw [run_bind, run_write, run_bind, run_bind, Reply.andThen_assoc]
  apply Reply.andThen_congr
  intro spot? hask
  have hlanding :
      (m.state.grid.landing m.state.target m.surroundings.guard).result = .ok spot? := hask
  -- The spot that is noted is that of the place on the stack, and the write landed there.
  obtain ⟨rfl, -⟩ := Grid.eq_spot?_of_landing hlanding
  unfold Grid.spot?
  split
  · rfl
  · rfl

/-- **Every instruction asks first.** Its effects, in the order that it has them, are those of
asking the surroundings all that it depends on, and then of one deed. -/
theorem run_dispatch (i : Instruction) (m : Machine π η ρ) :
    (dispatch i).run m = (ask (Machine.resolve m.division m.state i) >>= perform).run m := by
  cases i with
  | arith op => exact run_calculate op m
  | place => exact run_place m
  | grab =>
    refine Eq.trans ?_ (congrArg (·.run m) (ask_guard_perform _ _).symm)
    simp only [dispatch, grab, bind_assoc]
    rfl
  | printInt | printChar =>
    refine Eq.trans ?_ (congrArg (·.run m) (ask_channel_perform _ _).symm)
    simp only [dispatch, print, bind_assoc]
    rfl
  | readInt | readChar =>
    refine Eq.trans ?_ (congrArg (·.run m) (ask_channel_perform _ _).symm)
    simp only [dispatch]
    rfl
  | _ => rfl

theorem run_execute (c : Char) (m : Machine π η ρ) :
    (execute c m.state.mode).run m =
      (ask (Machine.interpret m.division m.state c) >>= perform).run m := by
  unfold Machine.interpret
  cases m.state.mode with
  | text => exact congrArg (·.run m) (quoted_eq c)
  | normal => exact run_dispatch _ m

/-! ### Steps -/

/-- The last part of a step, from the cell that was fetched to the commit. -/
theorem run_execute_commit (c : Char) (m : Machine π η ρ) :
    (do execute c m.state.mode; commit; return Outcome.executed : Routine π η ρ Outcome).run m =
      match Machine.interpret m.division m.state c m.surroundings with
      | ⟨.error fault, around, events⟩ => ⟨.error fault, { m with surroundings := around }, events⟩
      | ⟨.ok deed, around, events⟩ =>
        ⟨.ok .executed, ⟨(m.state.perform deed).1, around, m.division,
          (m.history.extend (m.state.perform deed).2).1⟩,
          events ++ (m.history.extend (m.state.perform deed).2).2⟩ := by
  have hask : (ask (Machine.interpret m.division m.state c)).run m =
      (Machine.interpret m.division m.state c m.surroundings).within
        ({ m with surroundings := · }) :=
    rfl
  rw [run_bind, run_execute, run_bind, hask, Reply.andThen_assoc]
  generalize Machine.interpret m.division m.state c m.surroundings = r
  obtain ⟨_ | deed, around, events⟩ := r
  · rfl
  · exact congrArg (fun evictions => Reply.mk _ _ (events ++ evictions)) (List.append_nil _)

/-- **A step by effects is a step.** The results agree, the machines and the events. -/
theorem run_step (m : Machine π η ρ) : step.run m = m.step := by
  obtain ⟨state, around, division, history⟩ := m
  cases hrun : state.running with
  | false =>
    simp only [step, Machine.step, hrun, run_look_bind, Bool.not_false, if_true]
    rfl
  | true =>
    have hread : (read state.position).run ⟨state, around, division, history⟩ =
        (Machine.fetch state around).within (⟨state, ·, division, history⟩) := rfl
    simp only [step, Machine.step, hrun, run_look_bind, Bool.not_true, Bool.false_eq_true, if_false]
    rw [run_bind, hread]
    generalize Machine.fetch state around = r
    obtain ⟨_ | _ | c, around, events⟩ := r
    · rfl
    · exact congrArg (Reply.mk _ _) (List.append_nil events)
    · have hcommit := run_execute_commit c (⟨state, around, division, history⟩ : Machine π η ρ)
      simp only at hcommit
      simp only [Reply.andThen, Reply.within, run_look_bind]
      rw [run_bind]
      simp only [hcommit, tell, Reply.andThen]
      generalize Machine.interpret division state c around = r
      obtain ⟨_ | deed, around, more⟩ := r
      · rfl
      · rfl

end Forward

/-! ### Unsteps -/

variable [Channel π]

/-- The machine with changes taken back from its state, and with another channel. -/
def reverted (m : Machine π η ρ) (changes : List Change) (channel : π) : Machine π η ρ :=
  { m with
    state := m.state.revertAll changes
    surroundings := { m.surroundings with channel } }

theorem run_undo (c : Change) (m : Machine π η ρ) :
    (undo c).run m = (Channel.revert c m.surroundings.channel).within (reverted m [c]) := by
  obtain ⟨state, ⟨channel, guard, dice⟩, division, history⟩ := m
  cases c with
  | placed y x v replaced => cases replaced <;> rfl
  | printedInt popped text | printedChar popped text =>
    simp only [undo, run_bind, attempt, atChannel, Channel.revert]
    generalize Channel.retract text channel = r
    obtain ⟨_ | _, channel', events⟩ := r
    · exact congrArg (Reply.mk _ _) (List.append_nil events)
    · exact congrArg (Reply.mk _ _) (List.append_nil events)
  | _ => rfl

def fault? : Except Fault α → Option Fault
  | .ok _ => none
  | .error fault => some fault

/-- Reverting change by change is reverting the state and reverting the channel, and of all failures
the first is kept. -/
theorem run_undoEach (failure : Option Fault) (group : List Change) (m : Machine π η ρ) :
    (undoEach failure group).run m =
      ⟨.ok (failure <|> fault? (Channel.revertAll group m.surroundings.channel).result),
        reverted m group (Channel.revertAll group m.surroundings.channel).state,
        (Channel.revertAll group m.surroundings.channel).events⟩ := by
  induction group generalizing failure m with
  | nil => cases failure <;> rfl
  | cons c rest ih =>
    simp only [undoEach, run_bind, attempt, run_undo, Channel.revertAll]
    generalize Channel.revert c m.surroundings.channel = r
    obtain ⟨fault | _, channel, events⟩ := r
    · simp only [Reply.within, Reply.andThen, ih]
      cases failure <;> rfl
    · simp only [Reply.within, Reply.andThen, ih]
      rfl

/-- **An unstep by effects is an unstep.** -/
theorem run_unstep (m : Machine π η ρ) : unstep.run m = m.unstep := by
  obtain ⟨state, ⟨channel, guard, dice⟩, division, history⟩ := m
  simp only [unstep, Machine.unstep, run_bind, popGroup]
  cases history.pop? with
  | none => rfl
  | some popped =>
    obtain ⟨group, history⟩ := popped
    simp only [Reply.done_andThen, run_look_bind]
    simp only [run_bind, tell, Reply.andThen, run_undoEach]
    generalize Channel.revertAll group channel = r
    obtain ⟨fault | _, channel, events⟩ := r
    · exact congrArg (fun more => Reply.mk _ _ (_ :: more)) (List.append_nil events)
    · exact congrArg (fun more => Reply.mk _ _ (_ :: more)) (List.append_nil events)

/-! ### Runs of calls -/

variable [EdgeGuard η] [DirectionSource ρ]

def call (m : Machine π η ρ) : Machine.Call → Machine π η ρ
  | .step => (step.run m).state
  | .unstep => (unstep.run m).state
  | .stop => m.stop
  | .restart => m.restart

def calls (m : Machine π η ρ) (cs : List Machine.Call) : Machine π η ρ := cs.foldl call m

theorem calls_eq (m : Machine π η ρ) (cs : List Machine.Call) : calls m cs = m.calls cs := by
  have hcall : (call : Machine π η ρ → Machine.Call → Machine π η ρ) = Machine.call := by
    funext m c
    cases c with
    | step => exact congrArg Reply.state (run_step m)
    | unstep => exact congrArg Reply.state (run_unstep m)
    | stop => rfl
    | restart => rfl
  rw [calls, hcall, Machine.calls]

end Routine

end Retrace
