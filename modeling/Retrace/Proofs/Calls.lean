import Retrace.Machine
import Retrace.Proofs.Deeds
import Retrace.Proofs.Histories

/-!
# What the calls of a machine do

A machine is used through four calls: `step`, `unstep`, `stop` and `restart`. This file says what
each of them can do, once, so that no later proof has to take `step` apart again:

* a step either *executes* (`Machine.Executes`), and then it performs a deed and adds the group of
  its changes to the history (`Executes.step_eq`);
* or nothing has changed but what surrounds the machine (`step_inversion`);
* an unstep takes the newest group away and reverts it (`unstep_of_groups`).

A run is a sequence of calls, and what every call keeps is kept by every run (`calls_induction`).
In particular the machine stays `Settled`.
-/

namespace Retrace

/-! ### How instructions are written -/

namespace Instruction

def symbol : Instruction → Char
  | go .left => '<'
  | go .up => '^'
  | go .right => '>'
  | go .down => 'v'
  | branch .left _ => '←'
  | branch .up _ => '↑'
  | branch .right _ => '→'
  | branch .down _ => '↓'
  | random => '?'
  | skip => '#'
  | arith op => op.symbol
  | negate => '!'
  | greater => '\x60'
  | quote => '"'
  | printInt => '.'
  | printChar => ','
  | readInt => '&'
  | readChar => '~'
  | duplicate => ':'
  | swap => '\\'
  | discard => '$'
  | place => 'p'
  | grab => 'g'
  | halt => '@'
  | digit d => Text.digitChar d
  | nop => ' '

theorem symbol_decode {c : Char} (h : decode c ≠ nop) : (decode c).symbol = c := by
  unfold decode at h ⊢
  split
  all_goals try rfl
  -- What is left are the digits, and the characters without a meaning.
  cases hd : Text.digit? c with
  | none => simp [hd] at h
  | some d => exact Text.digitChar_of_digit? hd

end Instruction

namespace Machine

variable {π η ρ : Type}

def withDivision (division : DivisionPolicy) (m : Machine π η ρ) : Machine π η ρ :=
  { m with division }

variable [Channel π] [EdgeGuard η] [DirectionSource ρ]

/-! ### Steps that execute -/

/-- The machine runs, its step fetches `c`, and `c` amounts to `deed`. -/
structure Executes (m : Machine π η ρ) (c : Char) (deed : Deed) : Prop where
  running : m.state.running = true
  fetched : (fetch m.state m.surroundings).result = .ok (some c)
  interpreted :
    (interpret m.division m.state c (fetch m.state m.surroundings).state).result = .ok deed

/-- The surroundings after `c` was fetched and interpreted. -/
def consulted (m : Machine π η ρ) (c : Char) : Surroundings π η ρ :=
  (interpret m.division m.state c (fetch m.state m.surroundings).state).state

/-- All that an executed step does: it performs its deed and commits the changes, in the
surroundings that deciding on the deed has left behind. -/
theorem Executes.step_eq {m : Machine π η ρ} {c : Char} {deed : Deed} (h : m.Executes c deed) :
    m.step.result = .ok .executed ∧
      m.step.state = ⟨(m.state.perform deed).1, m.consulted c, m.division,
        (m.history.extend (m.state.perform deed).2).1⟩ := by
  obtain ⟨state, around, division, history⟩ := m
  obtain ⟨hrun, hfetch, hinterpret⟩ := h
  simp only at hrun hfetch hinterpret
  simp only [step, consulted, hrun, Bool.not_true, Bool.false_eq_true, if_false]
  generalize fetch state around = r at *
  obtain ⟨result, around', events⟩ := r
  subst hfetch
  simp only at hinterpret ⊢
  generalize interpret division state c around' = r at *
  obtain ⟨result, around'', more⟩ := r
  subst hinterpret
  exact ⟨rfl, rfl⟩

theorem Executes.found {m : Machine π η ρ} {c : Char} {deed : Deed} (h : m.Executes c deed) :
    m.state.grid.found m.state.position = some c := by
  have hread : (m.state.grid.read m.state.position m.surroundings.guard).result = .ok (some c) :=
    h.fetched
  exact (Grid.eq_found_of_read hread).symm

/-- A step executes the character of the cell under the pointer, if there is such a cell. -/
theorem Executes.eq_of_cell? {m : Machine π η ρ} {c c' : Char} {deed : Deed}
    (h : m.Executes c deed) (hm : m.state.grid.Rectangular) (hc : m.state.cell? = some c') :
    c' = c := by
  have hfound := hm.found_of_get? hc
  rw [h.found] at hfound
  injection hfound with hfound
  exact hfound.symm

/-- Outside text mode the deed is that of the instruction under the pointer. -/
theorem Executes.resolved {m : Machine π η ρ} {c : Char} {deed : Deed} (h : m.Executes c deed)
    (hm : m.state.mode = .normal) :
    (resolve m.division m.state (.decode c) (fetch m.state m.surroundings).state).result =
        .ok deed ∧
      m.consulted c =
        (resolve m.division m.state (.decode c) (fetch m.state m.surroundings).state).state := by
  have hint := h.interpreted
  rw [interpret, hm] at hint
  rw [consulted, interpret, hm]
  exact ⟨hint, rfl⟩

/-- In text mode the deed is that of a literal, for which nobody is asked. -/
theorem Executes.literal {m : Machine π η ρ} {c : Char} {deed : Deed} (h : m.Executes c deed)
    (hm : m.state.mode = .text) :
    deed = Machine.literal c ∧ m.consulted c = (fetch m.state m.surroundings).state := by
  have hint := h.interpreted
  rw [interpret, hm] at hint
  injection hint with hint
  rw [consulted, interpret, hm]
  exact ⟨hint.symm, rfl⟩

/-- The instruction that a deed belongs to, where there is just one. -/
def origin? : Deed → Option Instruction
  | .halt => some .halt
  | .branch nonzero zero => some (.branch nonzero zero)
  | .skip => some .skip
  | .compute op => some (.arith op)
  | .negate => some .negate
  | .compare => some .greater
  | .printInt _ => some .printInt
  | .printChar _ => some .printChar
  | .readDigit _ => some .readInt
  | .readChar _ => some .readChar
  | .duplicate => some .duplicate
  | .swap => some .swap
  | .discard => some .discard
  | .place _ _ => some .place
  | .grab _ => some .grab
  | .idle => some .nop
  | .turn _ => none
  | .setMode _ => none
  | .push _ => none

/-- Most deeds can be done by one instruction only, so the deed tells which one it was. -/
theorem eq_origin_of_resolve {division : DivisionPolicy} {s : State} {i j : Instruction}
    {around : Surroundings π η ρ} {deed : Deed}
    (h : (resolve division s i around).result = .ok deed) (hj : origin? deed = some j) : i = j := by
  cases i with
  | arith op =>
    simp only [resolve] at h
    split at h
    · cases h
    · cases h
      exact Option.some.inj hj
  | printInt | printChar | readInt | readChar | place | grab =>
    obtain ⟨_, _, rfl⟩ := Reply.result_map_eq_ok.1 h
    exact Option.some.inj hj
  | go | random | quote | digit =>
    cases h
    cases hj
  | branch | skip | negate | greater | duplicate | swap | discard | halt | nop =>
    cases h
    exact Option.some.inj hj

theorem Executes.decode_eq {m : Machine π η ρ} {c : Char} {deed : Deed} {i : Instruction}
    (h : m.Executes c deed) (hi : origin? deed = some i) :
    m.state.mode = .normal ∧ Instruction.decode c = i := by
  cases hm : m.state.mode with
  | normal => exact ⟨rfl, eq_origin_of_resolve (h.resolved hm).1 hi⟩
  | text =>
    rw [(h.literal hm).1, Machine.literal] at hi
    split at hi <;> cases hi

/-- A deed of a particular instruction was read off a cell: an instruction that is not a blank is
not found outside the grid. -/
theorem Executes.cell?_eq {m : Machine π η ρ} {c : Char} {deed : Deed} {i : Instruction}
    (h : m.Executes c deed) (hi : origin? deed = some i) (hnop : i ≠ .nop) :
    m.state.mode = .normal ∧ m.state.cell? = some i.symbol ∧ c = i.symbol := by
  obtain ⟨hm, hdecode⟩ := h.decode_eq hi
  have hc : i.symbol = c := by
    rw [← hdecode]
    exact Instruction.symbol_decode (by rw [hdecode]; exact hnop)
  -- A space is also found where there is no cell, but a space is no instruction.
  have hne : c ≠ ' ' := by
    intro hblank
    rw [hblank] at hdecode
    exact hnop hdecode.symm
  exact ⟨hm, by rw [hc]; exact Grid.get?_of_found h.found hne, hc.symm⟩

/-- The state of the program, the history and the dice are what they were. -/
structure Untouched (m m' : Machine π η ρ) : Prop where
  state : m'.state = m.state
  division : m'.division = m.division
  history : m'.history = m.history
  dice : m'.surroundings.dice = m.surroundings.dice

/-- Throwing the dice cannot fail, and no other instruction throws them. -/
theorem dice_resolve_of_error {division : DivisionPolicy} {s : State} {i : Instruction}
    {around : Surroundings π η ρ} {fault : Fault}
    (h : (resolve division s i around).result = .error fault) :
    (resolve division s i around).state.dice = around.dice := by
  cases i with
  -- The dice are thrown by one instruction only, and it does not fail.
  | random => cases h
  | arith op =>
    simp only [resolve] at h ⊢
    split <;> rfl
  | _ => rfl

theorem dice_interpret_of_error {division : DivisionPolicy} {s : State} {c : Char}
    {around : Surroundings π η ρ} {fault : Fault}
    (h : (interpret division s c around).result = .error fault) :
    (interpret division s c around).state.dice = around.dice := by
  unfold interpret at h ⊢
  cases hm : s.mode with
  | text => rfl
  | normal =>
    rw [hm] at h
    exact dice_resolve_of_error h

/-- What a step that does not execute can have made of the surroundings: the machine was stopped, or
there was nothing to fetch, or the instruction failed. -/
inductive Abandons (m : Machine π η ρ) : Surroundings π η ρ → Prop where
  | stopped : Abandons m m.surroundings
  | unfetched : Abandons m (fetch m.state m.surroundings).state
  | refused {c : Char} {fault : Fault}
      (h : (interpret m.division m.state c (fetch m.state m.surroundings).state).result =
        .error fault) : Abandons m (m.consulted c)

theorem Abandons.dice {m : Machine π η ρ} {around : Surroundings π η ρ} (h : m.Abandons around) :
    around.dice = m.surroundings.dice := by
  cases h with
  | stopped => rfl
  | unfetched => rfl
  | refused h => exact dice_interpret_of_error h

/-- **A step executes, or only the surroundings have changed.** The error may come out of the fetch,
of the guard, of a division or of the channel: by then nothing has been done to the state. -/
theorem step_inversion (m : Machine π η ρ) :
    (∃ c deed, m.Executes c deed) ∨
      m.step.result ≠ .ok .executed ∧
        ∃ around, m.Abandons around ∧ m.step.state = { m with surroundings := around } := by
  obtain ⟨state, around, division, history⟩ := m
  cases hrun : state.running with
  | false =>
    right
    simp only [step, hrun, Bool.not_false, if_true]
    exact ⟨by simp, around, .stopped, rfl⟩
  | true =>
    -- `step` matches on whole replies, so each reply is generalized once its result is known.
    cases hfetch : (fetch state around).result with
    | error fault =>
      right
      have hleft : Abandons ⟨state, around, division, history⟩ (fetch state around).state :=
        .unfetched
      simp only [step, hrun, Bool.not_true, Bool.false_eq_true, if_false]
      generalize fetch state around = r at *
      obtain ⟨result, around', events⟩ := r
      subst hfetch
      exact ⟨by simp, around', hleft, rfl⟩
    | ok c? =>
      cases c? with
      | none =>
        right
        have hleft : Abandons ⟨state, around, division, history⟩ (fetch state around).state :=
          .unfetched
        simp only [step, hrun, Bool.not_true, Bool.false_eq_true, if_false]
        generalize fetch state around = r at *
        obtain ⟨result, around', events⟩ := r
        subst hfetch
        exact ⟨by simp, around', hleft, rfl⟩
      | some c =>
        cases hint : (interpret division state c (fetch state around).state).result with
        | ok deed => exact .inl ⟨c, deed, hrun, hfetch, hint⟩
        | error fault =>
          right
          have hleft : Abandons ⟨state, around, division, history⟩
              (interpret division state c (fetch state around).state).state := .refused hint
          simp only [step, hrun, Bool.not_true, Bool.false_eq_true, if_false]
          generalize fetch state around = r at *
          obtain ⟨result, around', events⟩ := r
          subst hfetch
          simp only at hint hleft ⊢
          generalize interpret division state c around' = r at *
          obtain ⟨result, around'', more⟩ := r
          subst hint
          exact ⟨by simp, around'', hleft, rfl⟩

/-- A step executes a deed, or it changes neither state nor history. Every invariant of steps is
proved by these two cases. -/
theorem step_cases (m : Machine π η ρ) :
    (∃ c deed, m.Executes c deed) ∨ m.step.result ≠ .ok .executed ∧ m.Untouched m.step.state := by
  rcases m.step_inversion with hexec | ⟨hne, around, hleft, hstep⟩
  · exact .inl hexec
  · refine .inr ⟨hne, ?_⟩
    rw [hstep]
    exact ⟨rfl, rfl, rfl, hleft.dice⟩

theorem result_step_eq_executed_iff {m : Machine π η ρ} :
    m.step.result = .ok .executed ↔ ∃ c deed, m.Executes c deed := by
  constructor
  · intro h
    rcases m.step_cases with hexec | ⟨hne, _⟩
    · exact hexec
    · exact absurd h hne
  · rintro ⟨c, deed, h⟩
    exact h.step_eq.1

theorem untouched_of_not_executed {m : Machine π η ρ} (h : m.step.result ≠ .ok .executed) :
    m.Untouched m.step.state := by
  rcases m.step_cases with hexec | ⟨_, huntouched⟩
  · exact absurd (result_step_eq_executed_iff.2 hexec) h
  · exact huntouched

/-! ### Undoing -/

omit [EdgeGuard η] [DirectionSource ρ] in
/-- An unstep with nothing to undo is no failure; it answers no and does nothing. -/
theorem unstep_of_no_groups {m : Machine π η ρ} (h : m.history.groups = []) :
    m.unstep.result = .ok false ∧ m.unstep.state = m := by
  obtain ⟨state, ⟨channel, guard, dice⟩, division, history⟩ := m
  simp only [unstep, History.pop?_eq_none h]
  exact ⟨rfl, rfl⟩

omit [EdgeGuard η] [DirectionSource ρ] in
/-- An unstep reverts the newest group in the state and at the channel, and answers as the channel
does. -/
theorem unstep_of_groups {m : Machine π η ρ} {group : List Change} {rest : List (List Change)}
    (h : m.history.groups = group :: rest) :
    m.unstep.result = (Channel.revertAll group m.surroundings.channel).result.map (fun () => true) ∧
      m.unstep.state = ⟨m.state.revertAll group,
        { m.surroundings with
          channel := (Channel.revertAll group m.surroundings.channel).state },
        m.division, m.history.dropNewest⟩ := by
  obtain ⟨state, ⟨channel, guard, dice⟩, division, history⟩ := m
  simp only [unstep, History.pop?_eq_some h, and_self]

/-! ### Runs of calls -/

inductive Call where
  | step
  | unstep
  | stop
  | restart
  deriving DecidableEq, Repr

/-- The machine after a call, whatever the call answered. -/
def call (m : Machine π η ρ) : Call → Machine π η ρ
  | .step => m.step.state
  | .unstep => m.unstep.state
  | .stop => m.stop
  | .restart => m.restart

def calls (m : Machine π η ρ) (cs : List Call) : Machine π η ρ := cs.foldl call m

/-- What holds at the start and is kept by every call holds after every run. -/
theorem calls_induction {P : Machine π η ρ → Prop} {m : Machine π η ρ} (hm : P m)
    (hkeep : ∀ m c, P m → P (m.call c)) (cs : List Call) : P (m.calls cs) := by
  induction cs generalizing m with
  | nil => exact hm
  | cons c rest ih => exact ih (hkeep m c hm)

/-! ### Nothing is pending between calls -/

theorem pending_step {m : Machine π η ρ} (hm : m.history.pending = []) :
    m.step.state.history.pending = [] := by
  rcases m.step_cases with ⟨c, deed, hexec⟩ | ⟨_, huntouched⟩
  · rw [hexec.step_eq.2]
    rw [History.extend_eq_add hm, History.pending_add]
    exact hm
  · rw [huntouched.history]
    exact hm

omit [EdgeGuard η] [DirectionSource ρ] in
theorem pending_unstep {m : Machine π η ρ} (hm : m.history.pending = []) :
    m.unstep.state.history.pending = [] := by
  cases hg : m.history.groups with
  | nil =>
    rw [(unstep_of_no_groups hg).2]
    exact hm
  | cons group rest =>
    rw [(unstep_of_groups hg).2]
    rw [History.pending_dropNewest]
    exact hm

/-- Nothing is pending between calls, since every step that notes a change commits it. -/
theorem pending_calls {m : Machine π η ρ} (hm : m.history.pending = []) (cs : List Call) :
    (m.calls cs).history.pending = [] := by
  refine calls_induction (P := fun m => m.history.pending = []) hm ?_ cs
  intro m c hm
  cases c with
  | step => exact pending_step hm
  | unstep => exact pending_unstep hm
  | stop => exact hm
  | restart => exact hm

/-- What holds between calls: the grid is whole, and the history is closed and within its limit. -/
structure Settled (m : Machine π η ρ) : Prop where
  rectangular : m.state.grid.Rectangular
  pending : m.history.pending = []
  fits : m.history.Fits

theorem Settled.step {m : Machine π η ρ} (hm : m.Settled) : m.step.state.Settled := by
  refine ⟨?_, pending_step hm.pending, ?_⟩
  · rcases m.step_cases with ⟨c, deed, hexec⟩ | ⟨_, huntouched⟩
    · rw [hexec.step_eq.2]
      exact State.rectangular_perform hm.rectangular deed
    · rw [huntouched.state]
      exact hm.rectangular
  · rcases m.step_cases with ⟨c, deed, hexec⟩ | ⟨_, huntouched⟩
    · rw [hexec.step_eq.2, History.extend_eq_add hm.pending]
      exact History.fits_add _ _
    · rw [huntouched.history]
      exact hm.fits

omit [EdgeGuard η] [DirectionSource ρ] in
theorem Settled.unstep {m : Machine π η ρ} (hm : m.Settled) : m.unstep.state.Settled := by
  refine ⟨?_, pending_unstep hm.pending, ?_⟩
  · cases hg : m.history.groups with
    | nil =>
      rw [(unstep_of_no_groups hg).2]
      exact hm.rectangular
    | cons group rest =>
      rw [(unstep_of_groups hg).2]
      exact State.rectangular_revertAll hm.rectangular group
  · cases hg : m.history.groups with
    | nil =>
      rw [(unstep_of_no_groups hg).2]
      exact hm.fits
    | cons group rest =>
      rw [(unstep_of_groups hg).2]
      exact hm.fits.dropNewest

/-- A machine with a rectangular grid, nothing pending and a history within its limit remains one,
however it is called. -/
theorem Settled.calls {m : Machine π η ρ} (hm : m.Settled) (cs : List Call) :
    (m.calls cs).Settled := by
  refine calls_induction (P := Settled) hm ?_ cs
  intro m c hm
  cases c with
  | step => exact hm.step
  | unstep => exact hm.unstep
  | stop => exact ⟨hm.rectangular, hm.pending, hm.fits⟩
  | restart => exact ⟨hm.rectangular, hm.pending, hm.fits⟩

/-! ### Several steps -/

/-- The machine after `n` steps, whatever they answered. -/
def stepped (m : Machine π η ρ) : Nat → Machine π η ρ
  | 0 => m
  | n + 1 => (m.stepped n).step.state

theorem Settled.stepped {m : Machine π η ρ} (hm : m.Settled) (n : Nat) :
    (m.stepped n).Settled := by
  induction n with
  | zero => exact hm
  | succ n ih => exact ih.step

theorem stepped_succ (m : Machine π η ρ) (n : Nat) :
    m.stepped (n + 1) = m.step.state.stepped n := by
  induction n with
  | zero => rfl
  | succ n ih => exact congrArg (fun m => m.step.state) ih

def unstepped (m : Machine π η ρ) : Nat → Machine π η ρ
  | 0 => m
  | n + 1 => (m.unstepped n).unstep.state

omit [EdgeGuard η] [DirectionSource ρ] in
theorem unstepped_succ (m : Machine π η ρ) (n : Nat) :
    m.unstepped (n + 1) = m.unstep.state.unstepped n := by
  induction n with
  | zero => rfl
  | succ n ih => exact congrArg (fun m => m.unstep.state) ih

end Machine

end Retrace
