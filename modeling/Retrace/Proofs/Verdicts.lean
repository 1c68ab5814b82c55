import Retrace.Proofs.Calls

/-!
# Guards that do not change their mind

A guard may keep notes, and so it may answer differently when it is asked again. What a machine
makes of its guard is told by the questions that it asks (`Asked`, `asked_calls`), so what no
question changes, no call of a machine changes.

The guards of this library do not change their mind: a policy is a table, and a recorder lets
everything pass. For such a `SteadyGuard` all answers are known beforehand (`verdict`).

On a padded grid an access may miss another edge than before, or none. Where no read is refused this
does not matter (`read_eq_found`), and a write that has landed once lands again
(`landing_of_contains`).
-/

namespace Retrace

/-- What a guard answers about an access. -/
def verdict [EdgeGuard η] (guard : η) (access : Access) (edge : Edge) (p : Point) :
    Except Fault Unit :=
  (EdgeGuard.consult access edge p guard).result

/-- A guard whose answers do not depend on what it was asked before. -/
class SteadyGuard (η : Type) [EdgeGuard η] : Prop where
  verdict_consult (access : Access) (edge : Edge) (p : Point) (guard : η) :
    verdict (EdgeGuard.consult access edge p guard).state = verdict guard

instance : SteadyGuard EdgeRecorder where
  verdict_consult _ _ _ _ := rfl

instance : SteadyGuard EdgePolicy where
  verdict_consult access edge p policy := by
    have hsame : (EdgeGuard.consult access edge p policy).state = policy := by
      simp only [EdgeGuard.consult]
      split <;> rfl
    rw [hsame]

def ReadsFreely [EdgeGuard η] (guard : η) : Prop :=
  ∀ edge p, verdict guard .read edge p = .ok ()

theorem ReadsFreely.of_verdict [EdgeGuard η] {guard guard' : η} (h : ReadsFreely guard)
    (hsame : verdict guard' = verdict guard) : ReadsFreely guard' := by
  intro edge p
  rw [hsame]
  exact h edge p

/-- What can become of a guard by being asked, whatever it answers. -/
inductive Asked [EdgeGuard η] (guard : η) : η → Prop where
  | refl : Asked guard guard
  | consult {guard' : η} (before : Asked guard guard') (access : Access) (edge : Edge)
      (p : Point) : Asked guard (EdgeGuard.consult access edge p guard').state

theorem Asked.trans [EdgeGuard η] {guard guard' guard'' : η} (h : Asked guard guard')
    (h' : Asked guard' guard'') : Asked guard guard'' := by
  induction h' with
  | refl => exact h
  | consult _ access edge p ih => exact .consult ih access edge p

/-- Asking a steady guard does not change its mind, however often it is asked. -/
theorem Asked.verdict_eq {η : Type} [EdgeGuard η] [SteadyGuard η] {guard guard' : η}
    (h : Asked guard guard') : verdict guard' = verdict guard := by
  induction h with
  | refl => rfl
  | consult _ access edge p ih => exact (SteadyGuard.verdict_consult access edge p _).trans ih

/-- The guard refuses no read, and goes on so whatever it is asked. -/
def LetsRead [EdgeGuard η] (guard : η) : Prop := ∀ guard', Asked guard guard' → ReadsFreely guard'

theorem LetsRead.asked [EdgeGuard η] {guard guard' : η} (h : LetsRead guard)
    (hasked : Asked guard guard') : LetsRead guard' :=
  fun _ hlater => h _ (hasked.trans hlater)

/-- A steady guard that refuses no read lets everything be read. -/
theorem ReadsFreely.letsRead {η : Type} [EdgeGuard η] [SteadyGuard η] {guard : η}
    (h : ReadsFreely guard) : LetsRead guard :=
  fun _ hasked => h.of_verdict hasked.verdict_eq

theorem EdgeRecorder.readsFreely (recorder : EdgeRecorder) : ReadsFreely recorder :=
  fun _ _ => rfl

/-- A policy lets every read pass unless reading is fatal at some edge. -/
theorem EdgePolicy.readsFreely {policy : EdgePolicy}
    (h : ∀ edge, policy.action .read edge ≠ .fatal) : ReadsFreely policy := by
  intro edge p
  have hedge := h edge
  simp only [verdict, EdgeGuard.consult]
  split
  · contradiction
  · rfl
  · rfl

/-! ### Accesses -/

namespace Grid

variable {η : Type} [EdgeGuard η]

theorem read_eq_found {guard : η} (hfree : ReadsFreely guard) (g : Grid) (p : Point) :
    (g.read p guard).result = .ok (g.found p) := by
  unfold read found
  cases g.missed? p with
  | none => rfl
  | some edge =>
    have hok := hfree edge p
    rw [verdict] at hok
    simp only [Reply.result_map, hok]
    rfl

/-- A write that was let through is let through again on a grid that has the spot, because there is
nothing left to grow. -/
theorem landing_of_contains {g h : Grid} {p : Point} {guard guard' : η} {s? : Option Spot}
    (hr : (g.landing p guard).result = .ok s?) (hguard : verdict guard' = verdict guard)
    (hroom : ∀ s, s? = some s → h.Contains s) : (h.landing p guard').result = .ok s? := by
  obtain ⟨hspot, -⟩ := eq_spot?_of_landing hr
  unfold landing at hr
  obtain ⟨⟨⟩, hcross, -⟩ := Reply.result_andThen_eq_ok.1 hr
  apply Reply.result_andThen_eq_ok.2
  refine ⟨(), ?_, ?_⟩
  · -- Left and above it is the same question; right and below there is none.
    by_cases hx : p.x.toInt < 0
    · rw [crossed, if_pos hx, consultAll_singleton] at hcross ⊢
      rw [← verdict, hguard, verdict, hcross]
    by_cases hy : p.y.toInt < 0
    · rw [crossed, if_neg hx, if_pos hy, consultAll_singleton] at hcross ⊢
      rw [← verdict, hguard, verdict, hcross]
    rw [spot?, if_neg (by omega)] at hspot
    have hin := hroom _ hspot
    simp only [Contains] at hin
    rw [crossed, if_neg hx, if_neg hy, if_neg (by omega), if_neg (by omega)]
    rfl
  · subst hspot
    cases hs : spot? p with
    | none => rfl
    | some s =>
      have hover : h.overgrows s = false := by
        simp [overgrows, hroom s hs]
      simp only [hover, Bool.false_eq_true, if_false, Reply.result_done]

theorem asked_read (g : Grid) (p : Point) (guard : η) : Asked guard (g.read p guard).state := by
  unfold read
  split
  · exact .refl
  · exact .consult .refl _ _ _

theorem asked_consultAll (access : Access) (p : Point) (edges : List Edge) (guard : η) :
    Asked guard (consultAll access p edges guard).state := by
  induction edges generalizing guard with
  | nil => exact .refl
  | cons edge rest ih =>
    have hfirst : Asked guard (EdgeGuard.consult access edge p guard).state :=
      .consult .refl access edge p
    rw [consultAll]
    generalize EdgeGuard.consult access edge p guard = r at hfirst
    obtain ⟨_ | ⟨⟩, s, events⟩ := r
    · exact hfirst
    · exact hfirst.trans (ih s)

theorem asked_landing (g : Grid) (p : Point) (guard : η) :
    Asked guard (g.landing p guard).state := by
  have hall := asked_consultAll .write p (g.crossed p) guard
  unfold landing
  generalize consultAll .write p (g.crossed p) guard = r at hall
  obtain ⟨_ | ⟨⟩, s, events⟩ := r
  · exact hall
  · simp only [Reply.andThen]
    cases spot? p with
    | none => exact hall
    | some s =>
      simp only
      split
      · exact hall
      · exact hall

end Grid

/-! ### Calls -/

namespace Machine

variable {π η ρ : Type} [Channel π] [EdgeGuard η] [DirectionSource ρ]

omit [Channel π] [DirectionSource ρ] in
theorem asked_fetch (s : State) (around : Surroundings π η ρ) :
    Asked around.guard (fetch s around).state.guard :=
  Grid.asked_read _ _ _

/-- Only placing and grabbing ask the guard: a placement about each edge that it crosses, a grab
about one edge at most. -/
theorem asked_resolve (division : DivisionPolicy) (s : State) (i : Instruction)
    (around : Surroundings π η ρ) :
    Asked around.guard (resolve division s i around).state.guard := by
  obtain ⟨channel, guard, dice⟩ := around
  cases i with
  | place => exact Grid.asked_landing _ _ _
  | grab => exact Grid.asked_read _ _ _
  | arith op =>
    simp only [resolve]
    split
    · exact .refl
    · exact .refl
  | _ => exact .refl

theorem asked_interpret (division : DivisionPolicy) (s : State) (c : Char)
    (around : Surroundings π η ρ) :
    Asked around.guard (interpret division s c around).state.guard := by
  unfold interpret
  split
  · exact .refl
  · exact asked_resolve division s _ around

theorem asked_consulted (m : Machine π η ρ) (c : Char) :
    Asked m.surroundings.guard (m.consulted c).guard :=
  (asked_fetch _ _).trans (asked_interpret _ _ _ _)

/-- All that a step does to its guard is to ask it. -/
theorem asked_step (m : Machine π η ρ) :
    Asked m.surroundings.guard m.step.state.surroundings.guard := by
  rcases m.step_inversion with ⟨c, deed, hexec⟩ | ⟨_, around, habandons, hstep⟩
  · rw [hexec.step_eq.2]
    exact asked_consulted m c
  · rw [hstep]
    cases habandons with
    | stopped => exact .refl
    | unfetched => exact asked_fetch _ _
    | refused => exact asked_consulted m _

omit [EdgeGuard η] [DirectionSource ρ] in
/-- Undoing asks nobody: what it restores was allowed before. -/
theorem guard_unstep (m : Machine π η ρ) :
    m.unstep.state.surroundings.guard = m.surroundings.guard := by
  cases hg : m.history.groups with
  | nil => rw [(unstep_of_no_groups hg).2]
  | cons group rest => rw [(unstep_of_groups hg).2]

/-- **A run does nothing to the guard but ask it.** -/
theorem asked_calls (m : Machine π η ρ) (cs : List Call) :
    Asked m.surroundings.guard (m.calls cs).surroundings.guard := by
  refine calls_induction
    (P := fun m' => Asked m.surroundings.guard m'.surroundings.guard) .refl ?_ cs
  intro m' c hm
  cases c with
  | step => exact hm.trans (asked_step m')
  | unstep =>
    show Asked m.surroundings.guard m'.unstep.state.surroundings.guard
    rw [guard_unstep]
    exact hm
  | stop => exact hm
  | restart => exact hm

variable [SteadyGuard η]

omit [Channel π] [DirectionSource ρ] in
theorem verdict_fetch (s : State) (around : Surroundings π η ρ) :
    verdict (fetch s around).state.guard = verdict around.guard :=
  (asked_fetch s around).verdict_eq

theorem verdict_consulted (m : Machine π η ρ) (c : Char) :
    verdict (m.consulted c).guard = verdict m.surroundings.guard :=
  (asked_consulted m c).verdict_eq

theorem verdict_step (m : Machine π η ρ) :
    verdict m.step.state.surroundings.guard = verdict m.surroundings.guard :=
  (asked_step m).verdict_eq

/-- What a steady guard allows, it allows for the whole run. -/
theorem verdict_calls (m : Machine π η ρ) (cs : List Call) :
    verdict (m.calls cs).surroundings.guard = verdict m.surroundings.guard :=
  (asked_calls m cs).verdict_eq

end Machine

end Retrace
