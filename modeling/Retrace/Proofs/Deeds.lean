import Retrace.Proofs.Plane
import Retrace.State

/-!
# Deeds and their reversal

A deed is done by `State.perform`, which lists its changes, and the changes are taken back by
`State.revertAll`. What comes back is the old state up to padding: the grid keeps its extent
(`State.PaddedTo`). The laws are therefore stated for any padding of the state that a deed left
behind:

* `State.PaddedTo.revertAll_perform`: taking the changes of a deed back leads to a padding of the
  state in which it was done;
* `State.PaddedTo.perform`: a deed done on a state and on its padding makes the same changes and
  leaves a state and its padding.

The first is what undoing rests on and the second is what doing it again rests on.
-/

namespace Retrace

@[simp] theorem Stack.dropTop_push (v : Int) (s : Stack) : (s.push v).dropTop = s := rfl

namespace State

/-- `t` is `s` on a padded grid. Whether the machine runs is left open. -/
structure PaddedTo (s t : State) : Prop where
  grid : s.grid.PaddedTo t.grid
  position : t.position = s.position
  velocity : t.velocity = s.velocity
  stack : t.stack = s.stack
  mode : t.mode = s.mode

namespace PaddedTo

variable {s t u : State}

theorem refl (hs : s.grid.Rectangular) : s.PaddedTo s :=
  ⟨.refl hs, rfl, rfl, rfl, rfl⟩

theorem trans (hst : s.PaddedTo t) (htu : t.PaddedTo u) : s.PaddedTo u where
  grid := hst.grid.trans htu.grid
  position := htu.position.trans hst.position
  velocity := htu.velocity.trans hst.velocity
  stack := htu.stack.trans hst.stack
  mode := htu.mode.trans hst.mode

/-- A padding is determined by its extent and by whether it runs. -/
theorem eq_of_extent (hst : s.PaddedTo t) (hsu : s.PaddedTo u)
    (hw : t.grid.width = u.grid.width) (hht : t.grid.height = u.grid.height)
    (hr : t.running = u.running) : t = u := by
  have hgrid := hst.grid.eq_of_extent hsu.grid hw hht
  have hpos := hst.position.trans hsu.position.symm
  have hvel := hst.velocity.trans hsu.velocity.symm
  have hstack := hst.stack.trans hsu.stack.symm
  have hmode := hst.mode.trans hsu.mode.symm
  cases t
  cases u
  simp_all

/-- Only the grid and the running can differ. -/
theorem exists_eq (hst : s.PaddedTo t) :
    ∃ grid running, s.grid.PaddedTo grid ∧ t = { s with grid, running } := by
  obtain ⟨hg, hp, hv, hs, hm⟩ := hst
  refine ⟨t.grid, t.running, hg, ?_⟩
  cases t
  simp only at hp hv hs hm
  rw [hp, hv, hs, hm]

theorem target_eq (hst : s.PaddedTo t) : t.target = s.target := by
  rw [target, target, hst.stack]

/-! ### Doing on a padding -/

theorem advance (hst : s.PaddedTo t) :
    s.advance.1.PaddedTo t.advance.1 ∧ t.advance.2 = s.advance.2 := by
  obtain ⟨grid, running, hg, rfl⟩ := hst.exists_eq
  exact ⟨⟨hg, rfl, rfl, rfl, rfl⟩, rfl⟩

theorem enact (hst : s.PaddedTo t) (d : Deed) :
    (s.enact d).1.PaddedTo (t.enact d).1 ∧ (t.enact d).2 = (s.enact d).2 := by
  obtain ⟨grid, running, hg, rfl⟩ := hst.exists_eq
  cases d with
  | place target c =>
    cases target with
    | none => exact ⟨⟨hg, rfl, rfl, rfl, rfl⟩, rfl⟩
    | some spot =>
      refine ⟨⟨hg.put spot c, rfl, rfl, rfl, rfl⟩, ?_⟩
      -- The change tells the replaced character, and that is the same on both grids.
      simp only [State.enact, hg.replaced_eq]
  | _ => exact ⟨⟨hg, rfl, rfl, rfl, rfl⟩, rfl⟩

end PaddedTo

/-- Every deed but halting is enacted and then moved on from. -/
theorem perform_eq {d : Deed} (hd : d ≠ .halt) (s : State) :
    s.perform d = ((s.enact d).1.advance.1, (s.enact d).2 ++ (s.enact d).1.advance.2) := by
  cases d with
  | halt => exact absurd rfl hd
  | _ => rfl

/-- No deed is without a change. -/
theorem perform_changes_ne_nil (s : State) (d : Deed) : (s.perform d).2 ≠ [] := by
  by_cases hd : d = .halt
  · subst hd
    exact List.cons_ne_nil _ _
  · rw [perform_eq hd]
    exact List.append_ne_nil_of_right_ne_nil _ (List.cons_ne_nil _ _)

/-- **Doing on a padding.** A deed makes the same changes on a padding, and leaves a padding. -/
theorem PaddedTo.perform {s t : State} (hst : s.PaddedTo t) (d : Deed) :
    (s.perform d).1.PaddedTo (t.perform d).1 ∧ (t.perform d).2 = (s.perform d).2 := by
  by_cases hd : d = .halt
  · subst hd
    exact hst.enact .halt
  · obtain ⟨henact, hchanges⟩ := hst.enact d
    obtain ⟨hadvance, hmoves⟩ := henact.advance
    rw [perform_eq hd, perform_eq hd]
    exact ⟨hadvance, by rw [hchanges, hmoves]⟩

/-! ### Taking back -/

theorem PaddedTo.revertAll_enact {s t : State} (hs : s.grid.Rectangular) {d : Deed}
    (hst : (s.enact d).1.PaddedTo t) : s.PaddedTo (t.revertAll (s.enact d).2.reverse) := by
  obtain ⟨grid, running, hg, rfl⟩ := hst.exists_eq
  cases d with
  | place target c =>
    cases target with
    | none => exact ⟨hg, rfl, rfl, by simp [State.enact, revertAll, revert], rfl⟩
    | some spot =>
      refine ⟨?_, rfl, rfl, by simp [State.enact, revertAll, revert], rfl⟩
      exact Grid.PaddedTo.set_replaced hs hg
  | _ => exact ⟨hg, rfl, rfl, by simp [State.enact, State.advance, revertAll, revert], rfl⟩

/-- **Taking back on a padding.** Whatever a deed left behind may have been padded since; taking
its changes back leads to a padding of the state in which it was done. -/
theorem PaddedTo.revertAll_perform {s t : State} (hs : s.grid.Rectangular) {d : Deed}
    (hst : (s.perform d).1.PaddedTo t) : s.PaddedTo (t.revertAll (s.perform d).2.reverse) := by
  by_cases hd : d = .halt
  · subst hd
    exact PaddedTo.revertAll_enact hs hst
  · rw [perform_eq hd] at hst ⊢
    -- The move comes last and so it is taken back first.
    have hback : (s.enact d).1.PaddedTo (t.revert (.moved (s.enact d).1.position)) :=
      ⟨hst.grid, rfl, hst.velocity, hst.stack, hst.mode⟩
    rw [List.reverse_append]
    exact PaddedTo.revertAll_enact hs hback

theorem running_revertAll (changes : List Change) (s : State) :
    (s.revertAll changes).running = s.running := by
  induction changes generalizing s with
  | nil => rfl
  | cons c rest ih => exact (ih (s.revert c)).trans (running_revert s c)

/-- Taking back keeps the extent. -/
theorem extent_revertAll (changes : List Change) (s : State) :
    (s.revertAll changes).grid.width = s.grid.width ∧
      (s.revertAll changes).grid.height = s.grid.height := by
  induction changes generalizing s with
  | nil => exact ⟨rfl, rfl⟩
  | cons c rest ih =>
    have hc : (s.revert c).grid.width = s.grid.width ∧
        (s.revert c).grid.height = s.grid.height := by
      cases c with
      | placed y x v replaced => cases replaced <;> exact ⟨rfl, rfl⟩
      | _ => exact ⟨rfl, rfl⟩
    obtain ⟨hw, hht⟩ := ih (s.revert c)
    exact ⟨hw.trans hc.1, hht.trans hc.2⟩

/-! ### Grids under deeds -/

theorem rectangular_perform {s : State} (hs : s.grid.Rectangular) (d : Deed) :
    (s.perform d).1.grid.Rectangular :=
  ((PaddedTo.refl hs).perform d).1.grid.inner

theorem grid_perform {d : Deed} (hd : ∀ target c, d ≠ .place target c) (s : State) :
    (s.perform d).1.grid = s.grid := by
  cases d with
  | place target c => exact absurd rfl (hd target c)
  | _ => rfl

theorem rectangular_revertAll {s : State} (hs : s.grid.Rectangular) (changes : List Change) :
    (s.revertAll changes).grid.Rectangular := by
  induction changes generalizing s with
  | nil => exact hs
  | cons c rest ih =>
    apply ih
    cases c with
    | placed y x v replaced =>
      cases replaced with
      | none => exact hs
      | some written => exact hs.set _ _
    | _ => exact hs

/-- A grid grows only to have room for a character. -/
theorem extent_perform {s : State} {d : Deed}
    (hroom : ∀ spot c, d = .place (some spot) c → s.grid.Contains spot) :
    (s.perform d).1.grid.width = s.grid.width ∧ (s.perform d).1.grid.height = s.grid.height := by
  cases d with
  | place target c =>
    cases target with
    | none => exact ⟨rfl, rfl⟩
    | some spot =>
      obtain ⟨hw, hht⟩ := Grid.extent_put spot c s.grid
      obtain ⟨hx, hy⟩ := hroom spot c rfl
      show (s.grid.put spot c).width = _ ∧ (s.grid.put spot c).height = _
      omega
  | _ => exact ⟨rfl, rfl⟩

theorem running_perform {d : Deed} (hd : d ≠ .halt) (s : State) :
    (s.perform d).1.running = s.running := by
  cases d with
  | halt => exact absurd rfl hd
  | place target c => cases target <;> rfl
  | _ => rfl

/-! ### Doing again -/

/-- Where a character was put there is still room for it after it was taken back. -/
theorem PaddedTo.contains_revertAll {s t : State} {d : Deed} (hst : (s.perform d).1.PaddedTo t)
    (changes : List Change) (spot : Spot) (c : Char) (hd : d = .place (some spot) c) :
    (t.revertAll changes).grid.Contains spot := by
  subst hd
  obtain ⟨hx, hy⟩ : t.grid.Contains spot := hst.grid.contains_put
  obtain ⟨hw, hht⟩ := extent_revertAll changes t
  constructor
  · rw [hw]
    exact hx
  · rw [hht]
    exact hy

/-- **Doing again.** A deed that was taken back and is done again leads exactly to where it was
taken back, because the grid has kept its extent. -/
theorem PaddedTo.perform_revertAll {s t : State} (hs : s.grid.Rectangular) {d : Deed}
    (hd : d ≠ .halt) (hst : (s.perform d).1.PaddedTo t) :
    ((t.revertAll (s.perform d).2.reverse).perform d).1 = t := by
  have hback := hst.revertAll_perform hs
  obtain ⟨hw, hht⟩ := extent_revertAll (s.perform d).2.reverse t
  -- This time the grid does not grow, so both states are paddings of one extent.
  obtain ⟨hw', hht'⟩ := extent_perform (hst.contains_revertAll (s.perform d).2.reverse)
  refine (hback.perform d).1.eq_of_extent hst (hw'.trans hw) (hht'.trans hht) ?_
  rw [running_perform hd, running_revertAll]

end State

end Retrace
