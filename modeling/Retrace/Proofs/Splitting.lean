import Retrace.Proofs.Attempts
import Retrace.Proofs.Sessions
import Retrace.Proofs.Verdicts

/-!
# Runs in two parts

A run can be interrupted anywhere and taken up again: a run up to one limit and then a run up to
another come to the same end as a single run up to the sum of the two (`splits_of_yields`). Where
the first run has used up its limit, the second goes on as the single run does. Where it has ended
before that, the single run has ended there too, and the second run finds a machine that idles
(`Machine.Idles`).

Idling is the delicate case. A machine that has stopped does nothing at all. A machine that has
nothing to fetch finds this out each time by trying to read, so each run asks the guard once more.
Since a guard of this library does not change its mind, the answer is the same (`Idles.again`).
-/

namespace Retrace

theorem Grid.result_read_congr [EdgeGuard η] {guard guard' : η}
    (h : verdict guard' = verdict guard) (g : Grid) (p : Point) :
    (g.read p guard').result = (g.read p guard).result := by
  unfold read
  cases g.missed? p with
  | none => rfl
  | some edge =>
    have hedge : verdict guard' .read edge p = verdict guard .read edge p := by rw [h]
    exact congrArg (Except.map fun () => beyond edge) hedge

/-- The summary of a run of which the first `k` steps have been left out. -/
def Summary.after (k : Nat) (s : Summary) : Summary := { s with steps := k + s.steps }

namespace Machine

variable {π η ρ : Type} [Channel π] [EdgeGuard η] [DirectionSource ρ]

/-! ### Machines that idle -/

/-- The machine after one more attempt to read the cell under its pointer. -/
def reread (m : Machine π η ρ) : Machine π η ρ :=
  { m with surroundings := { m.surroundings with
      guard := (m.state.grid.read m.state.position m.surroundings.guard).state } }

/-- What a step without a deed makes of a machine. -/
def idled (outcome : Outcome) (m : Machine π η ρ) : Machine π η ρ :=
  if outcome = .stalled then m.reread else m

/-- A step does nothing, and is not refused either. -/
structure Idles (outcome : Outcome) (m : Machine π η ρ) : Prop where
  idle : outcome ≠ .executed
  result : m.step.result = .ok outcome
  state : m.step.state = m.idled outcome

theorem idles_of_stopped {m : Machine π η ρ} (hrun : m.state.running = false) :
    m.Idles .halted := by
  have hstep : m.step = .done .halted m := by simp [step, hrun]
  constructor
  · simp
  · rw [hstep, Reply.result_done]
  · rw [hstep]
    rfl

theorem idles_of_unfetched {m : Machine π η ρ} (hrun : m.state.running = true)
    (hfetch : (fetch m.state m.surroundings).result = .ok none) : m.Idles .stalled := by
  have hattempt : m.attempt = .andThen (fetch m.state m.surroundings) fun _ around =>
      .done (.inl .stalled) around := by
    simp only [attempt, hrun, Bool.not_true, Bool.false_eq_true, if_false]
    apply Reply.andThen_congr
    intro c? hc
    cases hfetch.symm.trans hc
    rfl
  have hidle : m.attempt.result = .ok (.inl .stalled) ∧
      m.attempt.state = (fetch m.state m.surroundings).state := by
    rw [hattempt]
    generalize fetch m.state m.surroundings = r at *
    obtain ⟨result, around, events⟩ := r
    cases hfetch
    exact ⟨rfl, rfl⟩
  constructor
  · simp
  · rw [result_step, hidle.1]
    rfl
  · rw [state_step, hidle.1, hidle.2]
    rfl

/-- A step that neither executes nor fails finds the machine stopped, or nothing to fetch. -/
theorem step_inversion_of_idle {m : Machine π η ρ} {outcome : Outcome}
    (hidle : outcome ≠ .executed) (h : m.step.result = .ok outcome) :
    m.state.running = false ∨
      m.state.running = true ∧ (fetch m.state m.surroundings).result = .ok none := by
  cases hrun : m.state.running with
  | false => exact .inl rfl
  | true =>
    refine .inr ⟨rfl, ?_⟩
    rw [result_step] at h
    cases hattempt : m.attempt.result with
    | error fault =>
      rw [hattempt] at h
      cases h
    | ok tried =>
      rw [hattempt] at h
      cases tried with
      | inr deed =>
        cases h
        contradiction
      | inl outcome' =>
        simp only [attempt, hrun, Bool.not_true, Bool.false_eq_true, if_false] at hattempt
        obtain ⟨c?, hfetch, htried⟩ := Reply.result_andThen_eq_ok.1 hattempt
        cases c? with
        | none => exact hfetch
        | some c =>
          obtain ⟨deed, -, hdeed⟩ := Reply.result_map_eq_ok.1 htried
          cases hdeed

theorem idles_of_step {m : Machine π η ρ} {outcome : Outcome} (hidle : outcome ≠ .executed)
    (h : m.step.result = .ok outcome) : m.Idles outcome := by
  rcases step_inversion_of_idle hidle h with hrun | ⟨hrun, hfetch⟩
  · have hidles := idles_of_stopped hrun
    cases hidles.result.symm.trans h
    exact hidles
  · have hidles := idles_of_unfetched hrun hfetch
    cases hidles.result.symm.trans h
    exact hidles

/-- **Idling is final.** Whoever asks the guard once more gets the same answer. -/
theorem Idles.again [SteadyGuard η] {m : Machine π η ρ} {outcome : Outcome}
    (h : m.Idles outcome) : m.step.state.Idles outcome := by
  rw [h.state]
  rcases step_inversion_of_idle h.idle h.result with hrun | ⟨hrun, hfetch⟩
  · cases (idles_of_stopped hrun).result.symm.trans h.result
    exact idles_of_stopped hrun
  · cases (idles_of_unfetched hrun hfetch).result.symm.trans h.result
    have hsame := (Grid.asked_read m.state.grid m.state.position m.surroundings.guard).verdict_eq
    refine idles_of_unfetched hrun (Eq.trans ?_ hfetch)
    exact Grid.result_read_congr hsame m.state.grid m.state.position

/-! ### Steps in two parts -/

/-- Steps can be counted in two parts. -/
theorem stepsFrom_add (n k : Nat) (m : Machine π η ρ) :
    stepsFrom 0 [] (n + k) m = (stepsFrom 0 [] n m).andThen fun ended mid =>
      if ended.2 = .executed then
        (stepsFrom 0 [] k mid).map fun rest => (ended.1 + rest.1, rest.2)
      else .done ended mid := by
  induction n generalizing m with
  | zero =>
    rw [Nat.zero_add]
    show _ = (Reply.done (0, Outcome.executed) m).andThen _
    rw [Reply.done_andThen, if_pos rfl]
    obtain ⟨_ | rest, mid, events⟩ := stepsFrom 0 [] k m
    · rfl
    · simp [Reply.map, Except.map]
  | succ n ih =>
    rw [Nat.add_right_comm, stepsFrom_succ, stepsFrom_succ, Reply.andThen_assoc]
    apply Reply.andThen_congr
    intro outcome _
    split
    · rw [ih, Reply.andThen_map, Reply.map_andThen]
      apply Reply.andThen_congr
      intro ended _
      simp only
      split
      · rw [Reply.map_map]
        simp only [Nat.add_assoc]
      · rfl
    · next hidle => rw [Reply.done_andThen, if_neg hidle]

/-- A run of at most `n` steps has executed `n` of them iff it has not ended by itself. -/
theorem stepsFrom_bounds {n : Nat} {m : Machine π η ρ} {i : Nat} {outcome : Outcome}
    (h : (stepsFrom 0 [] n m).result = .ok (i, outcome)) :
    i ≤ n ∧ (outcome = .executed ↔ i = n) := by
  induction n generalizing m i with
  | zero =>
    cases h
    simp
  | succ n ih =>
    rw [stepsFrom_succ] at h
    obtain ⟨first, -, h⟩ := Reply.result_andThen_eq_ok.1 h
    split at h
    · obtain ⟨⟨j, last⟩, hrest, heq⟩ := Reply.result_map_eq_ok.1 h
      cases heq
      obtain ⟨hle, hiff⟩ := ih hrest
      rw [hiff]
      omega
    · next hidle =>
      cases h
      simp [hidle]

/-- Where steps have ended by themselves, the machine idles. -/
theorem idles_of_stepsFrom [SteadyGuard η] {n : Nat} {m : Machine π η ρ} {i : Nat}
    {outcome : Outcome} (h : (stepsFrom 0 [] n m).result = .ok (i, outcome))
    (hidle : outcome ≠ .executed) : (stepsFrom 0 [] n m).state.Idles outcome := by
  induction n generalizing m i with
  | zero =>
    cases h
    contradiction
  | succ n ih =>
    rw [stepsFrom_succ] at h ⊢
    obtain ⟨first, hfirst, h⟩ := Reply.result_andThen_eq_ok.1 h
    rw [Reply.andThen_of_ok hfirst]
    by_cases hexec : first = .executed
    · simp only [if_pos hexec] at h ⊢
      obtain ⟨⟨j, last⟩, hrest, heq⟩ := Reply.result_map_eq_ok.1 h
      cases heq
      exact ih hrest
    · simp only [if_neg hexec] at h ⊢
      cases h
      exact (idles_of_step hidle hfirst).again

/-- Nothing comes of running a machine that idles. -/
theorem Idles.stepsFrom {m : Machine π η ρ} {outcome : Outcome} (h : m.Idles outcome) {k : Nat}
    (hk : k ≠ 0) :
    (stepsFrom 0 [] k m).result = .ok (0, outcome) ∧
      (stepsFrom 0 [] k m).state = m.idled outcome := by
  obtain ⟨k, rfl⟩ := Nat.exists_eq_succ_of_ne_zero hk
  rw [stepsFrom_succ, Reply.andThen_of_ok h.result, if_neg h.idle]
  exact ⟨rfl, h.state⟩

/-! ### Runs -/

/-- A run with this limit comes to an end, and to this one. -/
def Yields (limit : Option Nat) (m : Machine π η ρ) (r : Reply (Machine π η ρ) Summary) : Prop :=
  ∃ fuel, m.run fuel limit = some r

/-- The steps of a run with this limit are at most `n`. -/
def EndsWithin (limit : Option Nat) (n : Nat) (m : Machine π η ρ) : Prop :=
  limit = some n ∨ limit = none ∧ ∀ i, (stepsFrom 0 [] n m).result ≠ .ok (i, .executed)

theorem runToEnd_eq_some_iff {fuel : Nat} {m : Machine π η ρ}
    {r : Reply (Machine π η ρ) Summary} :
    m.runToEnd fuel = some r ↔
      (∀ i, (stepsFrom 0 [] fuel m).result ≠ .ok (i, .executed)) ∧
        r = (stepsFrom 0 [] fuel m).andThen summarize := by
  simp only [runToEnd]
  split
  · next i hgoes =>
    simp [hgoes]
  · next hends =>
    rw [Option.some.injEq, eq_comm]
    exact (and_iff_right hends).symm

theorem yields_iff {limit : Option Nat} {m : Machine π η ρ}
    {r : Reply (Machine π η ρ) Summary} :
    m.Yields limit r ↔
      ∃ n, EndsWithin limit n m ∧ r = (stepsFrom 0 [] n m).andThen summarize := by
  cases limit with
  | none =>
    simp only [Yields, run, EndsWithin, runToEnd_eq_some_iff]
    simp
  | some n =>
    simp only [Yields, run, EndsWithin, runFor]
    grind

/-- More steps do not matter once a run has ended. -/
theorem stepsFrom_add_of_ended {n : Nat} {m : Machine π η ρ}
    (h : ∀ i, (stepsFrom 0 [] n m).result ≠ .ok (i, .executed)) (k : Nat) :
    stepsFrom 0 [] (n + k) m = stepsFrom 0 [] n m := by
  rw [stepsFrom_add]
  generalize stepsFrom 0 [] n m = r at *
  obtain ⟨_ | ⟨i, outcome⟩, mid, events⟩ := r
  · rfl
  · have hidle : outcome ≠ .executed := by
      intro hexec
      subst hexec
      exact h i rfl
    simp [Reply.andThen, hidle, Reply.done]

/-- A run comes to one end. -/
theorem Yields.unique {limit : Option Nat} {m : Machine π η ρ}
    {r r' : Reply (Machine π η ρ) Summary} (h : m.Yields limit r) (h' : m.Yields limit r') :
    r' = r := by
  obtain ⟨n, hn, rfl⟩ := yields_iff.1 h
  obtain ⟨n', hn', rfl⟩ := yields_iff.1 h'
  rcases hn with rfl | ⟨rfl, hn⟩
  · rcases hn' with hn' | ⟨hn', -⟩
    · cases hn'
      rfl
    · cases hn'
  · obtain ⟨-, hn'⟩ : _ ∧ _ := hn'.resolve_left (by simp)
    have hsame : stepsFrom 0 [] n' m = stepsFrom 0 [] n m := by
      calc stepsFrom 0 [] n' m = stepsFrom 0 [] (n' + n) m := (stepsFrom_add_of_ended hn' n).symm
        _ = stepsFrom 0 [] (n + n') m := by rw [Nat.add_comm]
        _ = stepsFrom 0 [] n m := stepsFrom_add_of_ended hn n'
    rw [hsame]

theorem Idles.yields {m : Machine π η ρ} {outcome : Outcome} (h : m.Idles outcome)
    {more : Option Nat} (hmore : more ≠ some 0) :
    ∃ second, m.Yields more second ∧
      second.result = .ok ⟨0, outcome, m.state.stack.exitCode⟩ ∧
      second.state = m.idled outcome := by
  have hstate : (m.idled outcome).state = m.state := by
    rw [idled]
    split <;> rfl
  have hends : ∀ k ≠ 0, ∃ second, second = (Machine.stepsFrom 0 [] k m).andThen summarize ∧
      second.result = .ok ⟨0, outcome, m.state.stack.exitCode⟩ ∧
      second.state = m.idled outcome := by
    intro k hk
    obtain ⟨hresult, hidled⟩ := h.stepsFrom hk
    refine ⟨_, rfl, ?_⟩
    rw [Reply.andThen_of_ok hresult, hidled]
    simp only [summarize, hstate]
    exact ⟨trivial, trivial⟩
  cases more with
  | some k =>
    obtain ⟨second, hsecond, hrest⟩ := hends k (by simpa using hmore)
    exact ⟨second, yields_iff.2 ⟨k, .inl rfl, hsecond⟩, hrest⟩
  | none =>
    obtain ⟨second, hsecond, hrest⟩ := hends 1 (by decide)
    refine ⟨second, yields_iff.2 ⟨1, .inr ⟨rfl, ?_⟩, hsecond⟩, hrest⟩
    intro i
    rw [(h.stepsFrom (by decide)).1]
    intro heq
    cases heq
    exact h.idle rfl

/-! ### Runs in two parts -/

/-- The limit of a single run that does as much as two runs. -/
def jointLimit (limit more : Option Nat) : Option Nat :=
  limit.bind fun n => more.map (n + ·)

/-- A run comes to its end at `mid`, within `n` steps and with the summary `sum`. -/
structure ComesTo (limit : Option Nat) (n : Nat) (m : Machine π η ρ) (sum : Summary)
    (mid : Machine π η ρ) : Prop where
  endsWithin : m.EndsWithin limit n
  result : (stepsFrom 0 [] n m).result = .ok (sum.steps, sum.outcome)
  state : (stepsFrom 0 [] n m).state = mid
  exitCode : sum.exitCode = mid.state.stack.exitCode

theorem Yields.comesTo {limit : Option Nat} {m : Machine π η ρ}
    {r : Reply (Machine π η ρ) Summary} {sum : Summary} (h : m.Yields limit r)
    (hok : r.result = .ok sum) : ∃ n, m.ComesTo limit n sum r.state := by
  obtain ⟨n, hn, rfl⟩ := yields_iff.1 h
  obtain ⟨ended, hended, hsum⟩ := Reply.result_andThen_eq_ok.1 hok
  rw [Reply.andThen_of_ok hended]
  cases hsum
  exact ⟨n, hn, hended, rfl, rfl⟩

omit [Channel π] [EdgeGuard η] [DirectionSource ρ] in
/-- The summary of steps of which some have been counted before. -/
theorem summarize_after {r r' : Reply (Machine π η ρ) (Nat × Outcome)} {k : Nat}
    (hresult : r.result = r'.result.map fun ended => (k + ended.1, ended.2))
    (hstate : r.state = r'.state) :
    (r.andThen summarize).result = (r'.andThen summarize).result.map (Summary.after k) ∧
      (r.andThen summarize).state = (r'.andThen summarize).state := by
  cases hr' : r'.result with
  | error fault =>
    rw [hr'] at hresult
    rw [Reply.andThen_of_error hr', Reply.andThen_of_error hresult]
    exact ⟨rfl, hstate⟩
  | ok ended =>
    rw [hr'] at hresult
    rw [Reply.andThen_of_ok hr', Reply.andThen_of_ok hresult, hstate]
    exact ⟨rfl, rfl⟩

namespace ComesTo

variable {limit more : Option Nat} {n : Nat} {m mid : Machine π η ρ} {sum : Summary}

theorem eq_of_limit (h : m.ComesTo limit n sum mid) {k : Nat} (hk : limit = some k) : k = n := by
  rcases h.endsWithin with hlimit | ⟨hlimit, -⟩
  · exact Option.some.inj (hk.symm.trans hlimit)
  · cases hk.symm.trans hlimit

theorem limit_eq (h : m.ComesTo limit n sum mid) (hexec : sum.outcome = .executed) :
    limit = some n := by
  rcases h.endsWithin with hlimit | ⟨-, hends⟩
  · exact hlimit
  · have hresult := h.result
    rw [hexec] at hresult
    exact absurd hresult (hends _)

theorem steps_le (h : m.ComesTo limit n sum mid) {k : Nat} (hk : limit = some k) :
    sum.steps ≤ k := by
  rw [h.eq_of_limit hk]
  exact (stepsFrom_bounds h.result).1

theorem executed_iff (h : m.ComesTo limit n sum mid) :
    sum.outcome = .executed ↔ limit = some sum.steps := by
  have hbounds := (stepsFrom_bounds h.result).2
  constructor
  · intro hexec
    rw [h.limit_eq hexec, hbounds.1 hexec]
  · intro hlimit
    exact hbounds.2 (h.eq_of_limit hlimit)

/-! #### Where the first run has used up its limit -/

theorem stepsFrom_eq_of_executed (h : m.ComesTo limit n sum mid)
    (hexec : sum.outcome = .executed) (k : Nat) :
    (stepsFrom 0 [] (n + k) m).result =
        (stepsFrom 0 [] k mid).result.map (fun ended => (sum.steps + ended.1, ended.2)) ∧
      (stepsFrom 0 [] (n + k) m).state = (stepsFrom 0 [] k mid).state := by
  rw [stepsFrom_add, Reply.andThen_of_ok h.result, h.state]
  simp only [if_pos hexec]
  exact ⟨rfl, rfl⟩

/-- The second run ends with the single one, and as it does. -/
theorem join_of_executed (h : m.ComesTo limit n sum mid) (hexec : sum.outcome = .executed)
    {second : Reply (Machine π η ρ) Summary} (hsecond : mid.Yields more second) :
    ∃ whole, m.Yields (jointLimit limit more) whole ∧
      whole.result = second.result.map (Summary.after sum.steps) ∧
      whole.state = second.state := by
  obtain ⟨k, hk, rfl⟩ := yields_iff.1 hsecond
  obtain ⟨hresult, hstate⟩ := h.stepsFrom_eq_of_executed hexec k
  refine ⟨_, yields_iff.2 ⟨n + k, ?_, rfl⟩, summarize_after hresult hstate⟩
  rw [h.limit_eq hexec]
  rcases hk with rfl | ⟨rfl, hends⟩
  · exact .inl rfl
  · refine .inr ⟨rfl, ?_⟩
    intro i hi
    rw [hresult] at hi
    cases hrest : (stepsFrom 0 [] k mid).result with
    | error fault =>
      rw [hrest] at hi
      cases hi
    | ok ended =>
      rw [hrest] at hi
      injection hi with hi
      injection hi with _ hlast
      exact hends ended.1 (by rw [hrest, ← hlast])

theorem yields_of_executed (h : m.ComesTo limit n sum mid) (hexec : sum.outcome = .executed)
    {whole : Reply (Machine π η ρ) Summary} (hwhole : m.Yields (jointLimit limit more) whole) :
    ∃ second, mid.Yields more second := by
  cases more with
  | some k => exact ⟨_, 0, rfl⟩
  | none =>
    rw [h.limit_eq hexec] at hwhole
    obtain ⟨k, hk, -⟩ := yields_iff.1 hwhole
    obtain ⟨-, hends⟩ : _ ∧ _ := hk.resolve_left (by simp [jointLimit])
    refine ⟨_, yields_iff.2 ⟨k, .inr ⟨rfl, ?_⟩, rfl⟩⟩
    intro i hi
    have hresult := (h.stepsFrom_eq_of_executed hexec k).1
    rw [hi, Nat.add_comm, stepsFrom_add_of_ended hends] at hresult
    exact hends _ hresult

/-! #### Where the first run has ended before -/

theorem ended (h : m.ComesTo limit n sum mid) (hidle : sum.outcome ≠ .executed) (i : Nat) :
    (stepsFrom 0 [] n m).result ≠ .ok (i, .executed) := by
  rw [h.result]
  intro heq
  injection heq with heq
  exact hidle (congrArg Prod.snd heq)

/-- The single run ends where the first one does. -/
theorem yields_joint (h : m.ComesTo limit n sum mid) (hidle : sum.outcome ≠ .executed)
    (more : Option Nat) :
    ∃ whole, m.Yields (jointLimit limit more) whole ∧ whole.result = .ok sum ∧
      whole.state = mid := by
  have hends := h.ended hidle
  have hwhole : ∀ k, (stepsFrom 0 [] (n + k) m).andThen summarize =
      (stepsFrom 0 [] n m).andThen summarize := by
    intro k
    rw [stepsFrom_add_of_ended hends]
  refine ⟨(stepsFrom 0 [] n m).andThen summarize, yields_iff.2 ?_, ?_⟩
  · rcases h.endsWithin with rfl | ⟨rfl, -⟩
    · cases more with
      | some k => exact ⟨n + k, .inl rfl, (hwhole k).symm⟩
      | none => exact ⟨n, .inr ⟨rfl, hends⟩, rfl⟩
    · exact ⟨n, .inr ⟨rfl, hends⟩, rfl⟩
  · rw [Reply.andThen_of_ok h.result, h.state]
    simp only [summarize, ← h.exitCode]
    exact ⟨trivial, trivial⟩

/-- The second run finds the machine idling. -/
theorem yields_idled [SteadyGuard η] (h : m.ComesTo limit n sum mid)
    (hidle : sum.outcome ≠ .executed) (hmore : more ≠ some 0) :
    ∃ second, mid.Yields more second ∧ second.result = .ok { sum with steps := 0 } ∧
      second.state = mid.idled sum.outcome := by
  have hidles := idles_of_stepsFrom h.result hidle
  rw [h.state] at hidles
  obtain ⟨second, hsecond, hresult, hstate⟩ := hidles.yields hmore
  rw [← h.exitCode] at hresult
  exact ⟨second, hsecond, hresult, hstate⟩

/-! #### In both cases -/

theorem ends_iff [SteadyGuard η] (h : m.ComesTo limit n sum mid) (hmore : more ≠ some 0) :
    (∃ second, mid.Yields more second) ↔ ∃ whole, m.Yields (jointLimit limit more) whole := by
  by_cases hexec : sum.outcome = .executed
  · constructor
    · rintro ⟨second, hsecond⟩
      obtain ⟨whole, hwhole, -⟩ := h.join_of_executed hexec hsecond
      exact ⟨whole, hwhole⟩
    · rintro ⟨whole, hwhole⟩
      exact h.yields_of_executed hexec hwhole
  · obtain ⟨second, hsecond, -⟩ := h.yields_idled hexec hmore
    obtain ⟨whole, hwhole, -⟩ := h.yields_joint hexec more
    exact iff_of_true ⟨second, hsecond⟩ ⟨whole, hwhole⟩

theorem join [SteadyGuard η] (h : m.ComesTo limit n sum mid) (hmore : more ≠ some 0)
    {second whole : Reply (Machine π η ρ) Summary} (hsecond : mid.Yields more second)
    (hwhole : m.Yields (jointLimit limit more) whole) :
    whole.result = second.result.map (Summary.after sum.steps) ∧
      second.state = whole.state.idled sum.outcome := by
  by_cases hexec : sum.outcome = .executed
  · obtain ⟨whole', hwhole', hresult, hstate⟩ := h.join_of_executed hexec hsecond
    cases hwhole.unique hwhole'
    rw [idled, if_neg (by simp [hexec])]
    exact ⟨hresult, hstate.symm⟩
  · obtain ⟨second', hsecond', hresult, hstate⟩ := h.yields_idled hexec hmore
    obtain ⟨whole', hwhole', hresult', hstate'⟩ := h.yields_joint hexec more
    cases hsecond.unique hsecond'
    cases hwhole.unique hwhole'
    rw [hresult', hresult, hstate, hstate']
    exact ⟨rfl, rfl⟩

end ComesTo

/-- A run from `m` up to `limit` has come to `mid` with the summary `sum`. This is what becomes of a
second run from there, up to `more`. -/
structure Splits (limit more : Option Nat) (m mid : Machine π η ρ) (sum : Summary) : Prop where
  le_limit : ∀ n, limit = some n → sum.steps ≤ n
  executed_iff : sum.outcome = .executed ↔ limit = some sum.steps
  /-- The second run ends iff a single one does. -/
  ends_iff : (∃ second, mid.Yields more second) ↔ ∃ whole, m.Yields (jointLimit limit more) whole
  /-- Both come to the same, but the guard may have been asked once more. -/
  joins : ∀ second whole, mid.Yields more second → m.Yields (jointLimit limit more) whole →
    whole.result = second.result.map (Summary.after sum.steps) ∧
      second.state = if sum.outcome = .stalled then whole.state.reread else whole.state
  /-- A run that has ended by itself leaves nothing to the second one. -/
  idles : sum.outcome ≠ .executed → ∃ second, (∀ r, mid.Yields more r ↔ r = second) ∧
    second.result = .ok { sum with steps := 0 } ∧
    second.state = if sum.outcome = .stalled then mid.reread else mid

/-- **Runs can be split anywhere**, before or after the program has come to its end, and also where
there is no limit. The second limit must not be zero: a run that may not step reports that it has
used up its limit, and not how the program has ended. -/
theorem splits_of_yields [SteadyGuard η] (limit more : Option Nat) (hmore : more ≠ some 0)
    (m : Machine π η ρ) (first : Reply (Machine π η ρ) Summary) (sum : Summary)
    (hfirst : m.Yields limit first) (hok : first.result = .ok sum) :
    Splits limit more m first.state sum := by
  obtain ⟨n, hcomes⟩ := hfirst.comesTo hok
  constructor
  · exact fun _ => hcomes.steps_le
  · exact hcomes.executed_iff
  · exact hcomes.ends_iff hmore
  · exact fun _ _ => hcomes.join hmore
  · intro hidle
    obtain ⟨second, hsecond, hrest⟩ := hcomes.yields_idled hidle hmore
    refine ⟨second, ?_, hrest⟩
    intro r
    constructor
    · exact fun hr => hsecond.unique hr
    · rintro rfl
      exact hsecond

/-- A program that runs off the right end of its line, where this is noted. -/
def runaway : Machine Terminal EdgeRecorder Xoshiro :=
  start ⟨#[#['1', '2']], 2, 1, 16⟩ {} {} default .off

/-- The first run ends long before its limit. A second one without a limit ends too, and all that is
new after it is that the same crossing has been noted again. -/
theorem splits_of_yields_runaway :
    let first := runaway.runFor 5
    let note : Violation := ⟨.read, .right, ⟨2, 0⟩⟩
    runaway.Yields (some 5) first ∧ first.result = .ok ⟨2, .stalled, 2⟩ ∧
      Splits (some 5) none runaway first.state ⟨2, .stalled, 2⟩ ∧
      first.state.surroundings.guard.violations = #[note] ∧
      first.state.reread.surroundings.guard.violations = #[note, note] := by
  intro first note
  have hfirst : runaway.Yields (some 5) first := ⟨0, rfl⟩
  have hok : first.result = .ok ⟨2, .stalled, 2⟩ := by decide
  have hsplits := splits_of_yields (some 5) none (by simp) runaway first _ hfirst hok
  exact ⟨hfirst, hok, hsplits, by decide, by decide⟩

end Machine

end Retrace
