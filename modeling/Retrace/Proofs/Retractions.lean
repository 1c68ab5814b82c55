import Retrace.Channel.Terminal
import Retrace.Proofs.Calls

/-!
# Undoing where retracting fails

A channel may be unable to take a text back. The fault comes up in the middle of a group, when some
changes have been taken back and some have not, and an unstep that stopped there would leave a step
half undone. It does not stop: the state goes back whole, one group leaves the history, and only
then the fault is reported (`Undoes`). What an unstep answers is told by the state in which the step
was made: if the cell under the pointer printed nothing, the answer is `true`, and if it printed a
text (`State.utterance?`), it is what the channel answers about that text.

Nothing is known about the channel here, so nothing can be said about what it makes of a fault. For
the state and the history it makes no difference. The states that a run can go back to are therefore
known from the steps that were executed (`pasts`), and the history leads back over them whatever the
unsteps have answered (`LeadsBack`).
-/

namespace Retrace

/-! ### What a step prints -/

/-- The text that was printed for a deed, if it is one that prints. -/
def Deed.utterance? : Deed → Option String
  | .printInt text => some text
  | .printChar text => some text
  | _ => none

/-- The text that the cell under the pointer prints, if it is one that prints. -/
def State.utterance? (s : State) : Option String :=
  match s.mode, s.cell? with
  | .normal, some '.' => some (" " ++ (s.stack.peek 0).repr ++ " ")
  | .normal, some ',' => some (charOfCode (s.stack.peek 0)).toString
  | _, _ => none

theorem State.utterance?_eq_none {s : State}
    (h : s.mode = .normal → s.cell? ≠ some '.' ∧ s.cell? ≠ some ',') : s.utterance? = none := by
  unfold utterance?
  split
  · next hmode hcell => exact absurd hcell (h hmode).1
  · next hmode hcell => exact absurd hcell (h hmode).2
  · rfl

theorem Channel.result_revertAll_singleton {π : Type} [Channel π] (c : Change) (channel : π) :
    (Channel.revertAll [c] channel).result = (Channel.revert c channel).result := by
  simp only [Channel.revertAll]
  obtain ⟨_ | ⟨⟩, channel', events⟩ := Channel.revert c channel
  · rfl
  · rfl

/-- A group has at most one change that the channel can fail to take back. -/
theorem Channel.result_revertAll_perform {π : Type} [Channel π] (s : State) (d : Deed)
    (channel : π) :
    (Channel.revertAll (s.perform d).2.reverse channel).result =
      d.utterance?.elim (.ok ()) fun text => (Channel.retract text channel).result := by
  cases d with
  | printInt text => exact Channel.result_revertAll_singleton (.printedInt _ text) channel
  | printChar text => exact Channel.result_revertAll_singleton (.printedChar _ text) channel
  | place target c => cases target <;> rfl
  | _ => rfl

/-! ### Histories that lead back -/

/-- The newest groups lead back from `now` over the states `pasts`, each of them up to padding, and
each is the group of a deed that printed what the cell under the pointer prints. Of older groups
nothing is said. -/
inductive LeadsBack : State → List (List Change) → List State → Prop where
  | nil {now : State} {groups : List (List Change)} : LeadsBack now groups []
  | cons {now s : State} {deed : Deed} {groups : List (List Change)} {pasts : List State}
      (rectangular : s.grid.Rectangular)
      (state : (s.perform deed).1.PaddedTo now)
      (utterance : deed.utterance? = s.utterance?)
      (rest : LeadsBack s groups pasts) :
      LeadsBack now ((s.perform deed).2.reverse :: groups) (s :: pasts)

namespace LeadsBack

variable {now now' : State} {groups : List (List Change)} {pasts : List State}

/-- A grid that has been padded shows the same, so the groups lead back from it as well. -/
theorem padded (h : LeadsBack now groups pasts) (hpad : now.PaddedTo now') :
    LeadsBack now' groups pasts := by
  cases h with
  | nil => exact .nil
  | cons rectangular state utterance rest =>
    exact .cons rectangular (state.trans hpad) utterance rest

/-- Forgetting old groups shortens the way back but does not change it. -/
theorem newest (h : LeadsBack now groups pasts) (limit : Option Nat) :
    LeadsBack now (newest limit groups) (newest limit pasts) := by
  cases limit with
  | none => exact h
  | some n =>
    show LeadsBack now (groups.take n) (pasts.take n)
    induction h generalizing n with
    | nil =>
      rw [List.take_nil]
      exact .nil
    | cons rectangular state utterance _ ih =>
      cases n with
      | zero => exact .nil
      | succ n => exact .cons rectangular state utterance (ih n)

theorem length_le (h : LeadsBack now groups pasts) : pasts.length ≤ groups.length := by
  induction h with
  | nil => exact Nat.zero_le _
  | cons _ _ _ _ ih => exact Nat.succ_le_succ ih

/-- Without the newest group the history leads back from where that group led. -/
theorem tail {group : List Change} (h : LeadsBack now (group :: groups) pasts) :
    LeadsBack (now.revertAll group) groups pasts.tail := by
  cases h with
  | nil => exact .nil
  | cons rectangular state _ rest => exact rest.padded (state.revertAll_perform rectangular)

end LeadsBack

namespace Machine

variable {π η ρ : Type} [Channel π] [EdgeGuard η] [DirectionSource ρ]

/-! ### Undoing one step -/

/-- An unstep of `m` takes back the step that was made in `s`, and takes it back whole. -/
structure Undoes (m : Machine π η ρ) (s : State) : Prop where
  /-- One group is gone, the newest. -/
  history : m.history.groups ≠ [] ∧ m.unstep.state.history = m.history.dropNewest
  /-- The program is back where it was, on a grid that may have been padded. -/
  state : s.PaddedTo m.unstep.state.state
  /-- If the step printed nothing, the unstep succeeds. -/
  silent : s.utterance? = none → m.unstep.result = .ok true
  /-- If it printed a text, the unstep fails iff the channel cannot retract that text. -/
  printed (text : String) : s.utterance? = some text →
    m.unstep.result = (Channel.retract text m.surroundings.channel).result.map fun () => true

omit [EdgeGuard η] [DirectionSource ρ] in
/-- The newest group leads back to the newest past. -/
theorem undoes_of_leadsBack {m : Machine π η ρ} {s : State} {pasts : List State}
    (h : LeadsBack m.state m.history.groups (s :: pasts)) : m.Undoes s := by
  generalize hgroups : m.history.groups = groups at h
  cases h with
  | @cons _ _ deed groups _ rectangular state utterance rest =>
    obtain ⟨hresult, hstate⟩ := unstep_of_groups hgroups
    rw [Channel.result_revertAll_perform, utterance] at hresult
    refine ⟨⟨?_, ?_⟩, ?_, ?_, ?_⟩
    · rw [hgroups]
      exact List.cons_ne_nil _ _
    · rw [hstate]
    · rw [hstate]
      exact state.revertAll_perform rectangular
    · intro hsilent
      rw [hresult, hsilent]
      rfl
    · intro text hprinted
      rw [hresult, hprinted]
      rfl

/-- What a step prints can be read off the cell under the pointer. -/
theorem Executes.utterance?_eq {m : Machine π η ρ} {c : Char} {deed : Deed}
    (h : m.Executes c deed) (hm : m.state.grid.Rectangular) :
    deed.utterance? = m.state.utterance? := by
  by_cases hint : m.state.mode = .normal ∧ m.state.cell? = some '.'
  · obtain ⟨hmode, hcell⟩ := hint
    obtain rfl := h.eq_of_cell? hm hcell
    obtain ⟨_, _, rfl⟩ := Reply.result_map_eq_ok.1 (h.resolved hmode).1
    rw [State.utterance?, hmode, hcell]
    rfl
  by_cases hchar : m.state.mode = .normal ∧ m.state.cell? = some ','
  · obtain ⟨hmode, hcell⟩ := hchar
    obtain rfl := h.eq_of_cell? hm hcell
    obtain ⟨_, _, rfl⟩ := Reply.result_map_eq_ok.1 (h.resolved hmode).1
    rw [State.utterance?, hmode, hcell]
    rfl
  -- The cell does not print, and a deed that prints has a cell that does.
  rw [State.utterance?_eq_none fun hmode =>
    ⟨fun hc => hint ⟨hmode, hc⟩, fun hc => hchar ⟨hmode, hc⟩⟩]
  cases deed with
  | printInt text =>
    obtain ⟨hmode, hcell, _⟩ := h.cell?_eq (i := .printInt) rfl (by simp)
    exact absurd ⟨hmode, hcell⟩ hint
  | printChar text =>
    obtain ⟨hmode, hcell, _⟩ := h.cell?_eq (i := .printChar) rfl (by simp)
    exact absurd ⟨hmode, hcell⟩ hchar
  | _ => rfl

/-! ### Undoing after any calls -/

/-- The states that the history leads back to after a call, the newest first, given those before it.
An executed step adds its own state, and those that the limit does not allow are forgotten. -/
def recalled (m : Machine π η ρ) (pasts : List State) : Call → List State
  | .step =>
    if m.step.result = .ok .executed then newest m.history.limit? (m.state :: pasts) else pasts
  | .unstep => pasts.tail
  | .stop => pasts
  | .restart => pasts

def pasts (m : Machine π η ρ) (known : List State) : List Call → List State
  | [] => known
  | c :: cs => (m.call c).pasts (m.recalled known c) cs

/-- The history is kept within the limit, nothing is pending in it, and it leads back over `pasts`.
All groups but at most `older` of them lead there. -/
structure Recalls (m : Machine π η ρ) (limit : Option Nat) (older : Nat) (pasts : List State) :
    Prop where
  rectangular : m.state.grid.Rectangular
  leads : ∃ groups, m.history = .kept { groups, limit } ∧ LeadsBack m.state groups pasts ∧
    groups.length ≤ pasts.length + older

namespace Recalls

variable {m : Machine π η ρ} {limit : Option Nat} {older : Nat} {pasts : List State}

omit [Channel π] [EdgeGuard η] [DirectionSource ρ] in
theorem leadsBack (h : m.Recalls limit older pasts) :
    LeadsBack m.state m.history.groups pasts := by
  obtain ⟨groups, hhistory, hleads, _⟩ := h.leads
  rw [hhistory]
  exact hleads

omit [Channel π] [EdgeGuard η] [DirectionSource ρ] in
theorem length_le_depth (h : m.Recalls limit older pasts) : pasts.length ≤ m.history.depth := by
  rw [History.depth_eq]
  exact h.leadsBack.length_le

omit [Channel π] [EdgeGuard η] [DirectionSource ρ] in
theorem depth_le (h : m.Recalls limit older pasts) : m.history.depth ≤ pasts.length + older := by
  obtain ⟨groups, hhistory, _, hall⟩ := h.leads
  rw [hhistory]
  exact hall

/-- An executed step lengthens the way back by the state it started from. -/
theorem step (h : m.Recalls limit older pasts) :
    m.step.state.Recalls limit older (m.recalled pasts .step) := by
  obtain ⟨hrect, groups, hhistory, hleads, hall⟩ := h
  rcases m.step_cases with ⟨c, deed, hexec⟩ | ⟨hne, huntouched⟩
  · obtain ⟨hresult, hstate⟩ := hexec.step_eq
    have hrect' := State.rectangular_perform hrect deed
    rw [recalled, if_pos hresult, hstate, hhistory, History.extend_eq_add rfl]
    refine ⟨hrect', newest limit ((m.state.perform deed).2.reverse :: groups), rfl, ?_, ?_⟩
    · apply LeadsBack.newest
      exact .cons hrect (.refl hrect') (hexec.utterance?_eq hrect) hleads
    · apply length_newest_le
      rw [List.length_cons, List.length_cons]
      omega
  · rw [recalled, if_neg hne]
    refine ⟨?_, groups, huntouched.history.trans hhistory, ?_, hall⟩
    · rw [huntouched.state]
      exact hrect
    · rw [huntouched.state]
      exact hleads

omit [EdgeGuard η] [DirectionSource ρ] in
/-- An unstep goes one past back, whether or not the channel could take back what was printed. -/
theorem unstep (h : m.Recalls limit older pasts) :
    m.unstep.state.Recalls limit older pasts.tail := by
  obtain ⟨hrect, groups, hhistory, hleads, hall⟩ := h
  have hgroups : m.history.groups = groups := by rw [hhistory]; rfl
  cases groups with
  | nil =>
    -- With nothing to undo there is no state to go back to, so none is dropped.
    have hnone : pasts = [] := List.eq_nil_of_length_eq_zero (Nat.le_zero.1 hleads.length_le)
    rw [(unstep_of_no_groups hgroups).2, hnone]
    exact ⟨hrect, [], hhistory, .nil, Nat.zero_le _⟩
  | cons group groups =>
    rw [(unstep_of_groups hgroups).2, hhistory]
    refine ⟨State.rectangular_revertAll hrect group, groups, rfl, hleads.tail, ?_⟩
    rw [List.length_cons] at hall
    rw [List.length_tail]
    omega

omit [Channel π] [EdgeGuard η] [DirectionSource ρ] in
theorem withRunning (h : m.Recalls limit older pasts) (b : Bool) :
    Recalls { m with state := { m.state with running := b } } limit older pasts := by
  obtain ⟨hrect, groups, hhistory, hleads, hall⟩ := h
  exact ⟨hrect, groups, hhistory, hleads.padded ⟨.refl hrect, rfl, rfl, rfl, rfl⟩, hall⟩

/-- The run lemma, over any mixture of steps and unsteps that fail or succeed. -/
theorem calls (h : m.Recalls limit older pasts) (cs : List Call) :
    (m.calls cs).Recalls limit older (m.pasts pasts cs) := by
  induction cs generalizing m pasts with
  | nil => exact h
  | cons c cs ih =>
    apply ih
    cases c with
    | step => exact h.step
    | unstep => exact h.unstep
    | stop => exact h.withRunning false
    | restart => exact h.withRunning true

omit [EdgeGuard η] [DirectionSource ρ] in
/-- Unsteps go back over one state after the other. -/
theorem undoes (h : m.Recalls limit older pasts) {i : Nat} {s : State} (hs : pasts[i]? = some s) :
    (m.unstepped i).Undoes s := by
  induction i generalizing m pasts with
  | zero =>
    cases pasts with
    | nil => cases hs
    | cons s' rest =>
      injection hs with hs
      subst hs
      exact undoes_of_leadsBack h.leadsBack
  | succ i ih =>
    rw [unstepped_succ]
    apply ih h.unstep
    rw [List.getElem?_tail]
    exact hs

end Recalls

/-- However often retracting fails, steps are undone whole, and one by one. -/
structure UndoesWhole (m : Machine π η ρ) (pasts : List State) : Prop where
  /-- The unstep after an executed step removes the group of that step and takes it back. -/
  step : m.step.result = .ok .executed → m.step.state.Undoes m.state ∧
    ∃ group, m.step.state.history = m.history.add group ∧
      m.step.state.history.groups = group :: m.step.state.unstep.state.history.groups
  /-- Unsteps take back the steps before it, whatever they answer. -/
  steps (i : Nat) (s : State) : pasts[i]? = some s → (m.unstepped i).Undoes s

/-- What a machine recalls, one unstep restores as a whole. -/
theorem Recalls.undoesWhole {m : Machine π η ρ} {limit : Option Nat} {older : Nat}
    {pasts : List State} (h : m.Recalls limit older pasts) (hlimit : limit ≠ some 0) :
    m.UndoesWhole pasts := by
  refine ⟨?_, fun i s hs => h.undoes hs⟩
  intro hexecuted
  have hafter := h.step
  obtain ⟨_, groups, hhistory, _, _⟩ := h
  obtain ⟨c, deed, hexec⟩ := result_step_eq_executed_iff.1 hexecuted
  have hadd : m.step.state.history = m.history.add (m.state.perform deed).2.reverse := by
    rw [hexec.step_eq.2, hhistory]
    exact History.extend_eq_add rfl _
  -- There is room for one group at least, so the newest is not forgotten at once.
  obtain ⟨rest, hrest⟩ := newest_cons hlimit m.state pasts
  obtain ⟨others, hothers⟩ := newest_cons hlimit (m.state.perform deed).2.reverse groups
  have hundoes : m.step.state.Undoes m.state := by
    rw [recalled, if_pos hexecuted, hhistory] at hafter
    have hleads : LeadsBack m.step.state.state m.step.state.history.groups (m.state :: rest) := by
      rw [← hrest]
      exact hafter.leadsBack
    exact undoes_of_leadsBack hleads
  refine ⟨hundoes, (m.state.perform deed).2.reverse, hadd, ?_⟩
  rw [hundoes.history.2, History.groups_dropNewest, hadd, hhistory]
  show newest limit (_ :: groups) = _ :: (newest limit (_ :: groups)).tail
  rw [hothers]
  rfl

/-- **A failing retraction leaves no step half undone**, at any channel, after any calls, however
many of them were unsteps that failed. The states in which the remembered steps were made are known,
but for the groups that were there at the start. -/
theorem undoesWhole_calls (m : Machine π η ρ) (hgrid : m.state.grid.Rectangular)
    (groups : List (List Change)) (limit : Option Nat)
    (hkept : m.history = .kept { groups, limit }) (hlimit : limit ≠ some 0) (cs : List Call) :
    (m.calls cs).UndoesWhole (m.pasts [] cs) ∧
      (m.pasts [] cs).length ≤ (m.calls cs).history.depth ∧
      (m.calls cs).history.depth ≤ (m.pasts [] cs).length + groups.length := by
  have hstart : m.Recalls limit groups.length [] :=
    ⟨hgrid, groups, hkept, .nil, Nat.le_add_left _ _⟩
  have hrecalls := hstart.calls cs
  exact ⟨hrecalls.undoesWhole hlimit, hrecalls.length_le_depth, hrecalls.depth_le⟩

/-- A program that prints two numbers, at a terminal with room for them and for one byte more. -/
def cramped : Machine Terminal EdgePolicy Xoshiro :=
  start ⟨#[#['7', '.', '8', '.']], 4, 1, 16⟩ ⟨{ sink := { capacity := some 7 } }⟩ .standard default
    (.kept (.bounded 3))

/-- Neither number can be blanked, and still both are back on the stack in turn. The first of the
four steps has been forgotten. -/
theorem undoesWhole_calls_cramped :
    let cs : List Call := [.step, .step, .step, .step]
    let back (i : Nat) := (cramped.calls cs).unstepped i
    cramped.state.grid.Rectangular ∧ cramped.history = .kept { groups := [], limit := some 3 } ∧
      (cramped.calls cs).UndoesWhole (cramped.pasts [] cs) ∧
      (cramped.pasts [] cs).map (·.stack.toList) = [[8], [], [7]] ∧
      [0, 1, 2, 3].map (fun i => (back i).unstep.result) =
        [.error (.stream .full), .ok true, .error (.stream .full), .ok false] ∧
      [1, 2, 3, 4].map (fun i => (back i).state.stack.toList) = [[8], [], [7], [7]] := by
  intro cs back
  have hgrid : cramped.state.grid.Rectangular := by decide
  refine ⟨hgrid, rfl, (undoesWhole_calls cramped hgrid [] (some 3) rfl (by decide) cs).1, ?_⟩
  exact ⟨by decide +kernel, by decide +kernel, by decide +kernel⟩

end Machine

end Retrace
