import Retrace.CommandLine.Job
import Retrace.Proofs.Foresight
import Retrace.Proofs.Inputless
import Retrace.Proofs.Splitting

/-!
# Launches in portions

A `Job` carries out a launch in portions. Here it is shown that the portions add up: whoever carries
out all of them, with all input at hand (`Job.complete`), comes to the end that the run has which
they are portions of (`Job.exists_yields`, `Job.complete_watched`), and they come to an end iff that
run does (`Job.exists_complete`).

Before that, one portion is looked at. What will be typed later and what was shown before do not
matter for it, unless it was starved (`Job.advance_amid`), and if it was starved it has begun by
writing the same (`Job.begins_advance`).
-/

namespace Retrace

open AtConsole
open Event (warnings)

namespace Job

instance : AtConsole Job where
  console := console
  withConsole := withConsole
  console_withConsole c job := by cases job <;> rfl

/-! ### Portions of a longer exchange -/

def stretch (limit : Option Nat) : Nat := min portion (limit.getD portion)

def left (limit : Option Nat) : Except Fault Summary → Option Nat
  | .error _ => limit
  | .ok summary => limit.map (· - summary.steps)

/-- The exit code after a portion, if it was the last one. -/
def exitCode? (limit : Option Nat) (summary : Summary) : Option Int32 :=
  if summary.outcome ≠ .executed ∨ limit.map (· - summary.steps) = some 0 then
    some summary.exitCode
  else none

/-- A portion of a plain run is a run of its own. -/
theorem advance_plain (limit : Option Nat) (m : Machine Terminal EdgePolicy Xoshiro) :
    (plain limit m).advance = ((m.runFor (stretch limit)).map (exitCode? limit)).within
      (plain (left limit (m.runFor (stretch limit)).result)) := by
  simp only [advance, stretch]
  obtain ⟨_ | summary, m', events⟩ := m.runFor (min portion (limit.getD portion))
  · rfl
  · rfl

/-- A portion of a watched run is a turn. -/
theorem advance_watched {s : Session Xoshiro} (h : s.active = true) :
    (watched s).advance = ⟨s.turn.result.map fun goesOn =>
        if goesOn then none else some s.turn.state.machine.state.stack.exitCode,
      watched s.turn.state, s.turn.events⟩ := by
  simp only [advance, h, if_true]
  obtain ⟨_ | goesOn, s', events⟩ := s.turn
  · rfl
  · rfl

theorem advance_of_inactive {s : Session Xoshiro} (h : s.active = false) :
    (watched s).advance = .done (some s.machine.state.stack.exitCode) (watched s) := by
  simp only [advance, h, Bool.false_eq_true, if_false]

theorem proceeds_advance (job : Job) : job.console.Proceeds job.advance.state.console := by
  cases job with
  | plain limit m =>
    rw [advance_plain]
    exact (Machine.timely_runFor (stretch limit)).proceeds m
  | watched s =>
    cases hactive : s.active with
    | false =>
      rw [advance_of_inactive hactive]
      exact .refl _
    | true =>
      rw [advance_watched hactive]
      exact ((Session.timely_tell fun _ _ _ => rfl).proceeds s).trans s.proceeds_turn

/-- A portion of a session that found no command ends with the invitation. -/
theorem advance_of_starved {s : Session Xoshiro} (hs : s.Unlimited) (hactive : s.active = true)
    (h : (watched s).console.input.unread = []) :
    (watched s).advance =
      .done (some s.machine.state.stack.exitCode) (watched (s.tell s.invitation).state) := by
  rw [advance_watched hactive, s.turn_of_starved hs h]
  rfl

/-- **What is typed later does not matter** for a portion that was not starved, and what was shown
before does not matter either. -/
theorem advance_amid {job : Job} {more : List UInt8} (hready : job.console.Ready more)
    (hfed : more = [] ∨ job.starved job.advance.result = false) (shown : ByteArray) :
    (amid shown more job).advance = job.advance.within (amid shown more) := by
  cases job with
  | plain limit m =>
    have hm : (AtConsole.console m).Ready more := hready
    have hrun := ((Machine.timely_runFor (stretch limit)).foreseen hm shown).same
    have hresult : more = [] ∨ (m.runFor (stretch limit)).result ≠ .error .inputExhausted := by
      refine hfed.imp_right fun hfed hend => ?_
      rw [advance_plain, Reply.result_within, Reply.result_map, hend] at hfed
      cases hfed
    show (plain limit (amid shown more m)).advance = _
    rw [advance_plain, advance_plain, hrun hresult]
    rfl
  | watched s =>
    have hs : (AtConsole.console s).Ready more := hready
    cases hactive : s.active with
    | false =>
      have hactive' : (amid shown more s).active = false := hactive
      show (watched (amid shown more s)).advance = _
      rw [advance_of_inactive hactive, advance_of_inactive hactive']
      rfl
    | true =>
      have hactive' : (amid shown more s).active = true := hactive
      have hcommand : more = [] ∨ (AtConsole.console s).input.unread ≠ [] := by
        refine hfed.imp_right fun hfed hnone => ?_
        rw [advance_of_starved hready.unlimited hactive hnone] at hfed
        simp [Reply.done, starved, hactive, show (watched s).console.input.unread = [] from hnone]
          at hfed
      have hturn := (s.foreseen_turn hs hcommand shown).same
      have hresult : more = [] ∨ s.turn.result ≠ .error .inputExhausted := by
        refine hfed.imp_right fun hfed hend => ?_
        rw [advance_watched hactive, hend] at hfed
        cases hfed
      show (watched (amid shown more s)).advance = _
      rw [advance_watched hactive, advance_watched hactive', hturn hresult]
      rfl

/-- A portion begins by writing the same, even if it was starved. -/
theorem begins_advance {job : Job} {more : List UInt8} (hready : job.console.Ready more)
    (shown : ByteArray) :
    ∃ rest, written (amid shown more job).advance.state =
      shown ++ written job.advance.state ++ rest := by
  cases job with
  | plain limit m =>
    have hm : (AtConsole.console m).Ready more := hready
    show ∃ rest, written (plain limit (amid shown more m)).advance.state = _
    rw [advance_plain, advance_plain]
    exact ((Machine.timely_runFor (stretch limit)).foreseen hm shown).begins
  | watched s =>
    have hs : (AtConsole.console s).Ready more := hready
    show ∃ rest, written (watched (amid shown more s)).advance.state = _
    cases hactive : s.active with
    | false =>
      have hactive' : (amid shown more s).active = false := hactive
      rw [advance_of_inactive hactive, advance_of_inactive hactive']
      exact ⟨.empty, ByteArray.append_empty.symm⟩
    | true =>
      have hactive' : (amid shown more s).active = true := hactive
      rw [advance_watched hactive']
      by_cases hnone : (AtConsole.console s).input.unread = []
      · -- The invitation is all that was written, and every turn begins with it.
        rw [advance_of_starved hready.unlimited hactive hnone]
        obtain ⟨rest, hrest⟩ := (Session.timely_invite.foreseen hs shown).begins
        obtain ⟨rest', hrest'⟩ := (amid shown more s).proceeds_turn.written
        refine ⟨rest ++ rest', ?_⟩
        rw [← ByteArray.append_assoc]
        exact hrest'.trans (congrArg (· ++ rest') hrest)
      · rw [advance_watched hactive]
        exact (s.foreseen_turn hs (.inr hnone) shown).begins

/-! ### All portions -/

/-- Carries out the portions of a job to its end; `none` if there are more than `n`. -/
def complete : Nat → Job → Option (Reply Job Int32)
  | 0, _ => none
  | n + 1, job =>
    match ending? job.advance.result with
    | some ending => some ⟨ending, job.advance.state, job.advance.events⟩
    | none =>
      (complete n job.advance.state).map fun r =>
        { r with events := job.advance.events ++ r.events }

theorem complete_of_ending {job : Job} {ending : Except Fault Int32}
    (h : ending? job.advance.result = some ending) (n : Nat) :
    job.complete (n + 1) = some ⟨ending, job.advance.state, job.advance.events⟩ := by
  rw [complete, h]

theorem complete_of_none {job : Job} (h : ending? job.advance.result = none) (n : Nat) :
    job.complete (n + 1) = (job.advance.state.complete n).map fun r =>
      { r with events := job.advance.events ++ r.events } := by
  rw [complete, h]

/-- A job comes to one end. -/
theorem complete_unique {n k : Nat} {job : Job} {r r' : Reply Job Int32}
    (h : job.complete n = some r) (h' : job.complete k = some r') : r' = r := by
  induction n generalizing k job r r' with
  | zero => cases h
  | succ n ih =>
    cases k with
    | zero => cases h'
    | succ k =>
      cases hending : ending? job.advance.result with
      | some ending =>
        rw [complete_of_ending hending] at h h'
        exact Option.some.inj (h'.symm.trans h)
      | none =>
        rw [complete_of_none hending] at h h'
        obtain ⟨rest, hrest, rfl⟩ := Option.map_eq_some_iff.1 h
        obtain ⟨rest', hrest', rfl⟩ := Option.map_eq_some_iff.1 h'
        rw [ih hrest hrest']

/-- What a job that has come to its end leaves behind. -/
def closing (r : Reply Job Int32) : Report := Launch.report (written r.state) r.events r.result

/-! ### Portions of a plain run -/

theorem stretch_le {limit : Option Nat} {n : Nat} (h : limit = some n) : stretch limit ≤ n := by
  subst h
  exact Nat.min_le_right portion n

theorem stretch_pos {limit : Option Nat} (h : limit.map (· - stretch limit) ≠ some 0) :
    0 < stretch limit := by
  cases limit with
  | none => decide
  | some n =>
    have hportion : 0 < portion := by decide
    simp only [stretch, Option.map_some, Option.getD_some, ne_eq, Option.some.injEq] at h ⊢
    omega

/-- A plain run goes on after a portion iff all steps of the portion were executed, and more are
left. -/
theorem ending?_plain_eq_none_iff {limit : Option Nat} {m : Machine Terminal EdgePolicy Xoshiro} :
    ending? (plain limit m).advance.result = none ↔
      (Machine.stepsFrom 0 [] (stretch limit) m).result = .ok (stretch limit, .executed) ∧
        limit.map (· - stretch limit) ≠ some 0 := by
  rw [advance_plain, Reply.result_within, Reply.result_map, Machine.runFor]
  cases hsteps : (Machine.stepsFrom 0 [] (stretch limit) m).result with
  | error fault =>
    rw [Reply.andThen_of_error hsteps]
    simp [Except.map, ending?]
  | ok ended =>
    obtain ⟨i, outcome⟩ := ended
    have hall := (Machine.stepsFrom_bounds hsteps).2
    rw [Reply.andThen_of_ok hsteps]
    simp only [Machine.summarize, Except.map, exitCode?]
    by_cases hexec : outcome = .executed
    · have hi := hall.1 hexec
      subst hexec hi
      by_cases hzero : limit.map (· - stretch limit) = some 0
      · simp [hzero, ending?]
      · simp [hzero, ending?]
    · simp [hexec, ending?]

/-- A run that does not go on after a portion has come to its end. -/
theorem yields_of_ending {limit : Option Nat} {m : Machine Terminal EdgePolicy Xoshiro}
    (h : ending? (plain limit m).advance.result ≠ none) :
    m.Yields limit (m.runFor (stretch limit)) := by
  rw [ne_eq, ending?_plain_eq_none_iff, not_and_not_right] at h
  apply Machine.yields_iff.2
  by_cases hexec : (Machine.stepsFrom 0 [] (stretch limit) m).result =
      .ok (stretch limit, .executed)
  · obtain ⟨n, hn, hzero⟩ := Option.map_eq_some_iff.1 (h hexec)
    have hle := stretch_le hn
    have hall : n = stretch limit := by omega
    exact ⟨stretch limit, .inl (hn.trans (congrArg some hall)), rfl⟩
  · have hends : ∀ i, (Machine.stepsFrom 0 [] (stretch limit) m).result ≠ .ok (i, .executed) := by
      intro i hi
      rw [(Machine.stepsFrom_bounds hi).2.1 rfl] at hi
      exact hexec hi
    cases hlimit : limit with
    | none =>
      rw [hlimit] at hends
      exact ⟨_, .inr ⟨rfl, hends⟩, rfl⟩
    | some n =>
      have hmore := Machine.stepsFrom_add_of_ended hends (n - stretch limit)
      rw [Nat.add_sub_cancel' (stretch_le hlimit)] at hmore
      exact ⟨n, .inl rfl, by rw [Machine.runFor, hmore, hlimit]⟩

section GoesOn

variable {limit : Option Nat} {m : Machine Terminal EdgePolicy Xoshiro}
  (h : ending? (plain limit m).advance.result = none)

def midway (limit : Option Nat) (m : Machine Terminal EdgePolicy Xoshiro) :
    Machine Terminal EdgePolicy Xoshiro :=
  (Machine.stepsFrom 0 [] (stretch limit) m).state

include h

theorem advance_of_goesOn :
    (plain limit m).advance.state = plain (limit.map (· - stretch limit)) (midway limit m) ∧
      warnings (plain limit m).advance.events =
        warnings (Machine.stepsFrom 0 [] (stretch limit) m).events := by
  obtain ⟨hsteps, -⟩ := ending?_plain_eq_none_iff.1 h
  rw [advance_plain, Machine.runFor, Reply.andThen_of_ok hsteps]
  refine ⟨rfl, ?_⟩
  simp [Reply.within, Reply.map, Machine.summarize]

/-- The steps that follow a portion. -/
theorem stepsFrom_of_goesOn (k : Nat) :
    Machine.stepsFrom 0 [] (stretch limit + k) m =
      ⟨(Machine.stepsFrom 0 [] k (midway limit m)).result.map
          fun ended => (stretch limit + ended.1, ended.2),
        (Machine.stepsFrom 0 [] k (midway limit m)).state,
        (Machine.stepsFrom 0 [] (stretch limit) m).events ++
          (Machine.stepsFrom 0 [] k (midway limit m)).events⟩ := by
  obtain ⟨hsteps, -⟩ := ending?_plain_eq_none_iff.1 h
  rw [Machine.stepsFrom_add, Reply.andThen_of_ok hsteps]
  rfl

theorem endsWithin_of_goesOn {k : Nat} :
    m.EndsWithin limit (stretch limit + k) ↔
      (midway limit m).EndsWithin (limit.map (· - stretch limit)) k := by
  have hexecuted : (∀ i, (Machine.stepsFrom 0 [] (stretch limit + k) m).result ≠
      .ok (i, .executed)) ↔
        ∀ i, (Machine.stepsFrom 0 [] k (midway limit m)).result ≠ .ok (i, .executed) := by
    rw [stepsFrom_of_goesOn h]
    cases (Machine.stepsFrom 0 [] k (midway limit m)).result with
    | error fault => simp [Except.map]
    | ok ended => simp [Except.map, Prod.ext_iff]
  unfold Machine.EndsWithin
  rw [hexecuted]
  cases hlimit : limit with
  | none => simp
  | some n =>
    have hle := stretch_le hlimit
    rw [← hlimit]
    simp only [hlimit, Option.map_some, Option.some.injEq, reduceCtorEq, false_and, or_false]
    rw [hlimit] at hle
    omega

end GoesOn

/-- A job that has come to an end, and a run that has: they agree in all that is reported. -/
structure Concludes (r : Reply Job Int32)
    (r' : Reply (Machine Terminal EdgePolicy Xoshiro) Summary) : Prop where
  result : r.result = r'.result.map Summary.exitCode
  written : written r.state = written r'.state
  warnings : warnings r.events = warnings r'.events

theorem concludes_of_ending {limit : Option Nat} {m : Machine Terminal EdgePolicy Xoshiro}
    {ending : Except Fault Int32} (h : ending? (plain limit m).advance.result = some ending) :
    Concludes ⟨ending, (plain limit m).advance.state, (plain limit m).advance.events⟩
      (m.runFor (stretch limit)) := by
  rw [advance_plain] at h ⊢
  refine ⟨?_, rfl, rfl⟩
  rw [Reply.result_within, Reply.result_map] at h
  cases hrun : (m.runFor (stretch limit)).result with
  | error fault =>
    rw [hrun] at h
    cases h
    rfl
  | ok summary =>
    rw [hrun] at h
    simp only [Except.map, exitCode?] at h ⊢
    split at h
    · cases h
      rfl
    · cases h

/-- A portion and what concludes the rest conclude the whole. -/
theorem concludes_of_goesOn {limit : Option Nat} {m : Machine Terminal EdgePolicy Xoshiro}
    (h : ending? (plain limit m).advance.result = none) {k : Nat} {rest : Reply Job Int32}
    (hrest : Concludes rest
      ((Machine.stepsFrom 0 [] k (midway limit m)).andThen Machine.summarize)) :
    Concludes { rest with events := (plain limit m).advance.events ++ rest.events }
      ((Machine.stepsFrom 0 [] (stretch limit + k) m).andThen Machine.summarize) := by
  obtain ⟨hresult, hwritten, hwarnings⟩ := hrest
  rw [stepsFrom_of_goesOn h]
  have hevents := (advance_of_goesOn h).2
  generalize Machine.stepsFrom 0 [] k (midway limit m) = r at *
  obtain ⟨_ | ended, m', events⟩ := r
  · refine ⟨hresult, hwritten, ?_⟩
    simp only [Event.warnings_append, hevents, hwarnings]
    simp [Reply.andThen, Except.map]
  · refine ⟨hresult, hwritten, ?_⟩
    simp only [Event.warnings_append, hevents, hwarnings]
    simp [Reply.andThen, Except.map, Machine.summarize]

/-- **Portions of a plain run add up to the run.** -/
theorem exists_yields {k : Nat} {limit : Option Nat} {m : Machine Terminal EdgePolicy Xoshiro}
    {r : Reply Job Int32} (hcomplete : (plain limit m).complete k = some r) :
    ∃ r', m.Yields limit r' ∧ Concludes r r' := by
  induction k generalizing limit m r with
  | zero => cases hcomplete
  | succ k ih =>
    cases hending : ending? (plain limit m).advance.result with
    | some ending =>
      rw [complete_of_ending hending] at hcomplete
      cases hcomplete
      exact ⟨_, yields_of_ending (by simp [hending]), concludes_of_ending hending⟩
    | none =>
      rw [complete_of_none hending, (advance_of_goesOn hending).1] at hcomplete
      obtain ⟨rest, hrest, rfl⟩ := Option.map_eq_some_iff.1 hcomplete
      obtain ⟨r', hyields, hconcludes⟩ := ih hrest
      obtain ⟨j, hj, rfl⟩ := Machine.yields_iff.1 hyields
      have hends := (endsWithin_of_goesOn hending).2 hj
      exact ⟨_, Machine.yields_iff.2 ⟨_, hends, rfl⟩, concludes_of_goesOn hending hconcludes⟩

/-- A plain run that ends has only so many portions. -/
theorem exists_complete {n : Nat} {limit : Option Nat} {m : Machine Terminal EdgePolicy Xoshiro}
    (h : m.EndsWithin limit n) : ∃ k r, (plain limit m).complete k = some r := by
  induction n using Nat.strongRecOn generalizing limit m with
  | _ n shorter =>
    cases hending : ending? (plain limit m).advance.result with
    | some ending => exact ⟨1, _, complete_of_ending hending 0⟩
    | none =>
      obtain ⟨hsteps, hleft⟩ := ending?_plain_eq_none_iff.1 hending
      have hle : stretch limit ≤ n := by
        rcases h with hlimit | ⟨-, hends⟩
        · exact stretch_le hlimit
        · by_contra hlt
          have hmore := Machine.stepsFrom_add_of_ended hends (stretch limit - n)
          rw [Nat.add_sub_cancel' (by omega)] at hmore
          exact hends _ (hmore ▸ hsteps)
      obtain ⟨j, rfl⟩ := Nat.exists_eq_add_of_le hle
      have hpos := stretch_pos hleft
      obtain ⟨k, r, hcomplete⟩ := shorter j (by omega) ((endsWithin_of_goesOn hending).1 h)
      refine ⟨k + 1, { r with events := (plain limit m).advance.events ++ r.events }, ?_⟩
      rw [complete_of_none hending, (advance_of_goesOn hending).1, hcomplete, Option.map_some]

/-! ### Turns of a watched run -/

/-- **Turns are all of a session.** Every turn but the last one reads a line, so there are not more
turns than the session takes. -/
theorem complete_watched {n : Nat} {s : Session Xoshiro}
    (h : (watched s).console.input.unread.length < n) :
    (watched s).complete n = some (((s.turns n).andThen fun () s =>
      .done s.machine.state.stack.exitCode s).within watched) := by
  induction n generalizing s with
  | zero => omega
  | succ n ih =>
    cases hactive : s.active with
    | false =>
      have hending : ending? (watched s).advance.result =
          some (.ok s.machine.state.stack.exitCode) := by
        rw [advance_of_inactive hactive]
        rfl
      rw [complete_of_ending hending, advance_of_inactive hactive]
      simp only [Session.turns, hactive, Bool.false_eq_true, if_false]
      rfl
    | true =>
      simp only [Session.turns, hactive, if_true, complete, advance_watched hactive]
      cases hturn : s.turn.result with
      | error fault =>
        rw [Reply.andThen_of_error hturn]
        rfl
      | ok goesOn =>
        rw [Reply.andThen_of_ok hturn]
        cases goesOn with
        | false => simp [Except.map, ending?, Reply.andThen, Reply.done, Reply.within]
        | true =>
          have hshorter : (watched s.turn.state).console.input.unread.length < n :=
            Nat.lt_of_lt_of_le (Session.unread_turn_lt hturn) (Nat.le_of_lt_succ h)
          simp only [Except.map, if_true, ending?, ih hshorter, Option.map_some]
          obtain ⟨_ | _, s', events⟩ := s.turn.state.turns n
          · rfl
          · simp [Reply.andThen, Reply.done, Reply.within]

theorem eq_run_of_complete {k : Nat} {s : Session Xoshiro} {r : Reply Job Int32}
    (h : (watched s).complete k = some r) : r = s.run.within watched :=
  complete_unique (complete_watched (Nat.lt_succ_self _)) h

end Job

end Retrace
