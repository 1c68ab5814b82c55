import Retrace.Proofs.Transcripts
import Retrace.Proofs.Verdicts

/-!
# Going forward again

After some steps have been undone the same steps can be taken again, but not in the same world: the
grid has kept its extent, and the input is shorter by what was passed over. This file shows that it
makes no difference. A step that is taken again fetches the same character and comes to the same
deed (`Executes.again`), and when it is over the machine is where it was before the step was undone,
down to the last cell and character (`Executes.redo`).

Two instructions are left out. A direction that was drawn does not come back, and a machine that has
halted stays so.
-/

namespace Retrace

namespace Machine

variable {η ρ : Type} [EdgeGuard η] [DirectionSource ρ]

/-! ### What was printed -/

theorem resolve_output {division : DivisionPolicy} {s : State} {i : Instruction}
    {around : Surroundings Transcript η ρ} {deed : Deed}
    (h : (resolve division s i around).result = .ok deed) :
    (resolve division s i around).state.channel.output =
      around.channel.output ++ deed.printed := by
  obtain ⟨channel, guard, dice⟩ := around
  cases i with
  | arith op =>
    simp only [resolve] at h ⊢
    split at h
    · cases h
    · next hdivides =>
      cases h
      rw [if_neg hdivides]
      exact String.append_empty.symm
  | printInt | printChar =>
    cases h
    rfl
  | readInt | readChar | place | grab =>
    obtain ⟨_, _, rfl⟩ := Reply.result_map_eq_ok.1 h
    exact String.append_empty.symm
  | _ =>
    cases h
    exact String.append_empty.symm

theorem Executes.output {m : Machine Transcript η ρ} {c : Char} {deed : Deed}
    (h : m.Executes c deed) :
    (m.consulted c).channel.output = m.surroundings.channel.output ++ deed.printed := by
  cases hm : m.state.mode with
  | normal =>
    obtain ⟨hok, haround⟩ := h.resolved hm
    rw [haround]
    exact resolve_output hok
  | text =>
    obtain ⟨hdeed, haround⟩ := h.literal hm
    rw [haround, hdeed, Machine.literal]
    split <;> exact String.append_empty.symm

/-! ### The same deed again -/

/-- An instruction comes to the same deed on a padding, at a transcript where that deed has been
undone, and it leaves the transcript as it was before. -/
theorem resolve_again {division : DivisionPolicy} {s t : State} {i : Instruction}
    {around around' : Surroundings Transcript η ρ} {deed : Deed} {x : Transcript} {before : String}
    (hok : (resolve division s i around).result = .ok deed) (hi : i ≠ .random)
    (hst : s.PaddedTo t) (hroom : ∀ spot c, deed = .place (some spot) c → t.grid.Contains spot)
    (hguard : verdict around'.guard = verdict around.guard) (hfree : ReadsFreely around'.guard)
    (hx : x.output = before ++ deed.printed) (hchannel : around'.channel = x.undo deed) :
    (resolve division t i around').result = .ok deed ∧
      (resolve division t i around').state.channel = x := by
  obtain ⟨channel, guard, dice⟩ := around
  obtain ⟨channel', guard', dice'⟩ := around'
  simp only at hguard hfree hchannel
  subst hchannel
  have hundo : deed.printed = "" → deed.given = [] → x.undo deed = x := by
    intro hprinted hgiven
    rw [Transcript.undo, hprinted, hgiven, Transcript.strip_empty]
    rfl
  cases i with
  | random => exact absurd rfl hi
  | arith op =>
    simp only [resolve, hst.stack] at hok ⊢
    split at hok
    · cases hok
    · next hdivides =>
      cases hok
      rw [if_neg hdivides]
      exact ⟨rfl, hundo rfl rfl⟩
  | printInt | printChar =>
    cases hok
    simp only [resolve, hst.stack]
    exact ⟨rfl, Transcript.emit_undo rfl hx⟩
  | readInt =>
    obtain ⟨d, hd, rfl⟩ := Reply.result_map_eq_ok.1 hok
    simp only [resolve, Transcript.takeDigit_undo (Transcript.digit?_of_takeDigit hd)]
    exact ⟨rfl, rfl⟩
  | readChar =>
    obtain ⟨c, hc, rfl⟩ := Reply.result_map_eq_ok.1 hok
    simp only [resolve, Transcript.takeChar_undo]
    exact ⟨rfl, rfl⟩
  | place =>
    obtain ⟨spot?, hspot, rfl⟩ := Reply.result_map_eq_ok.1 hok
    refine ⟨?_, hundo rfl rfl⟩
    apply Reply.result_map_eq_ok.2
    refine ⟨spot?, ?_, by rw [hst.stack]⟩
    rw [hst.target_eq]
    apply Grid.landing_of_contains hspot hguard
    intro spot hs
    exact hroom spot _ (by rw [hs])
  | grab =>
    obtain ⟨c?, hc, rfl⟩ := Reply.result_map_eq_ok.1 hok
    refine ⟨?_, hundo rfl rfl⟩
    apply Reply.result_map_eq_ok.2
    refine ⟨_, Grid.read_eq_found hfree t.grid t.target, ?_⟩
    -- Where a cell was missed there is a space now, and a space was what was taken for it.
    rw [hst.grid.outer.found_getD, hst.target_eq, hst.grid.shows_eq, ← hst.grid.inner.found_getD,
      ← Grid.eq_found_of_read hc]
  | _ =>
    cases hok
    exact ⟨rfl, hundo rfl rfl⟩

/-- `x` stands where `m` stood, and its grid may have been padded since. -/
structure StandsAt (x m : Machine Transcript η ρ) : Prop where
  state : m.state.PaddedTo x.state
  running : x.state.running = true
  output : x.surroundings.channel.output = m.surroundings.channel.output
  division : x.division = m.division
  verdict : verdict x.surroundings.guard = verdict m.surroundings.guard

/-- The machines are alike but for their dice and for the notes that their guards have made. -/
structure Meets (y x : Machine Transcript η ρ) : Prop where
  state : y.state = x.state
  channel : y.surroundings.channel = x.surroundings.channel
  division : y.division = x.division
  history : y.history = x.history
  verdict : verdict y.surroundings.guard = verdict x.surroundings.guard

omit [DirectionSource ρ] in
theorem StandsAt.of_meets {x y m : Machine Transcript η ρ} (hx : x.StandsAt m) (hy : y.Meets x) :
    y.StandsAt m := by
  refine ⟨?_, ?_, ?_, hy.division.trans hx.division, hy.verdict.trans hx.verdict⟩
  · rw [hy.state]
    exact hx.state
  · rw [hy.state]
    exact hx.running
  · rw [hy.channel]
    exact hx.output

variable [SteadyGuard η]

/-- **The same deed again.** Where a deed was undone, the next step comes to that deed. -/
theorem Executes.again {m y : Machine Transcript η ρ} {c : Char} {deed : Deed} {t : Transcript}
    (h : m.Executes c deed) (hrandom : m.state.mode = .normal → Instruction.decode c ≠ .random)
    (hy : y.StandsAt m) (hroom : ∀ spot c, deed = .place (some spot) c → y.state.grid.Contains spot)
    (hfree : ReadsFreely m.surroundings.guard)
    (ht : t.output = m.surroundings.channel.output ++ deed.printed)
    (hchannel : y.surroundings.channel = t.undo deed) :
    y.Executes c deed ∧ (y.consulted c).channel = t := by
  have hfree' : ReadsFreely y.surroundings.guard := hfree.of_verdict hy.verdict
  -- The pointer may miss another edge than before, but no read is refused.
  have hfetch : (fetch y.state y.surroundings).result = .ok (some c) := by
    have hfound := hy.state.grid.found_some h.found
    rw [← hy.state.position] at hfound
    rw [← hfound]
    exact Grid.read_eq_found hfree' _ _
  have hguard : verdict (fetch y.state y.surroundings).state.guard =
      verdict (fetch m.state m.surroundings).state.guard := by
    rw [verdict_fetch, verdict_fetch, hy.verdict]
  have hmode := hy.state.mode
  cases hm : m.state.mode with
  | normal =>
    rw [hm] at hmode
    obtain ⟨hok, -⟩ := h.resolved hm
    have hfree'' := hfree'.of_verdict (verdict_fetch y.state y.surroundings)
    obtain ⟨hok', hstate⟩ :=
      resolve_again hok (hrandom hm) hy.state hroom hguard hfree'' ht hchannel
    have hinterpret :
        interpret y.division y.state c (fetch y.state y.surroundings).state =
          resolve m.division y.state (.decode c) (fetch y.state y.surroundings).state := by
      rw [interpret, hmode, hy.division]
    refine ⟨⟨hy.running, hfetch, ?_⟩, ?_⟩
    · rw [hinterpret]
      exact hok'
    · rw [consulted, hinterpret]
      exact hstate
  | text =>
    rw [hm] at hmode
    obtain ⟨rfl, -⟩ := h.literal hm
    refine ⟨⟨hy.running, hfetch, ?_⟩, ?_⟩
    · rw [interpret, hmode]
      rfl
    · rw [consulted, interpret, hmode]
      refine hchannel.trans ?_
      rw [Transcript.undo, Machine.literal]
      split <;> simp only [Deed.printed, Deed.given, Transcript.strip_empty] <;> rfl

/-! ### One step back and forward -/

/-- Undoing a step leads to where it was taken. -/
theorem Executes.standsAt_unstep {m x : Machine Transcript η ρ} {c : Char} {deed : Deed}
    {rest : List (List Change)} (h : m.Executes c deed) (hm : m.state.grid.Rectangular)
    (hx : x.StandsAt m.step.state)
    (hgroups : x.history.groups = (m.state.perform deed).2.reverse :: rest) :
    x.unstep.state.StandsAt m := by
  obtain ⟨hstate, hrunning, houtput, hdivision, hverdict⟩ := hx
  rw [h.step_eq.2] at hstate houtput hdivision hverdict
  rw [(unstep_of_deed hgroups).2]
  refine ⟨hstate.revertAll_perform hm, ?_, ?_, hdivision, ?_⟩
  · rw [State.running_revertAll]
    exact hrunning
  · show Transcript.strip deed.printed x.surroundings.channel.output = _
    rw [houtput, h.output, Transcript.strip_append]
  · exact hverdict.trans (verdict_consulted m c)

/-- **One step again.** A step that was undone and is taken again leads exactly to where it was
undone. -/
theorem Executes.redo {m x y : Machine Transcript η ρ} {c : Char} {deed : Deed}
    {rest : List (List Change)} (h : m.Executes c deed) (hhalt : deed ≠ .halt)
    (hrandom : m.state.mode = .normal → Instruction.decode c ≠ .random)
    (hm : m.state.grid.Rectangular) (hfree : ReadsFreely m.surroundings.guard)
    (hx : x.StandsAt m.step.state)
    (hgroups : x.history.groups = (m.state.perform deed).2.reverse :: rest)
    (hfits : x.history.Fits) (hpending : x.history.pending = []) (hy : y.Meets x.unstep.state) :
    y.step.result = .ok .executed ∧ y.step.state.Meets x := by
  have hundone := h.standsAt_unstep hm hx hgroups
  have hunstep := (unstep_of_deed hgroups).2
  have hpadded : (m.state.perform deed).1.PaddedTo x.state := by
    have hstate := hx.state
    rwa [h.step_eq.2] at hstate
  have hprinted : x.surroundings.channel.output =
      m.surroundings.channel.output ++ deed.printed := by
    have houtput := hx.output
    rw [h.step_eq.2] at houtput
    exact houtput.trans h.output
  rw [hunstep] at hy
  have hroom : ∀ spot c, deed = .place (some spot) c → y.state.grid.Contains spot := by
    rw [hy.state]
    exact hpadded.contains_revertAll _
  obtain ⟨hexec, hchannel⟩ :=
    h.again hrandom (hundone.of_meets (hunstep ▸ hy)) hroom hfree hprinted hy.channel
  obtain ⟨hresult, hstep⟩ := hexec.step_eq
  refine ⟨hresult, ?_⟩
  rw [hstep]
  refine ⟨?_, hchannel, hy.division, ?_, ?_⟩
  · rw [hy.state]
    exact hpadded.perform_revertAll hm hhalt
  · -- The changes are those that were dropped, so the history is what it was.
    have hchanges : (y.state.perform deed).2 = (m.state.perform deed).2 := by
      rw [hy.state]
      exact ((hpadded.revertAll_perform hm).perform deed).2
    have hsettled : y.history.pending = [] := by
      rw [hy.history, History.pending_dropNewest]
      exact hpending
    rw [History.extend_eq_add hsettled, hchanges, hy.history]
    exact History.add_dropNewest hfits hgroups
  · exact (verdict_consulted y c).trans hy.verdict

/-! ### Several steps back and forward -/

/-- The next step executes, and it neither draws a direction nor halts. -/
structure Repeatable (m : Machine Transcript η ρ) : Prop where
  executed : m.step.result = .ok .executed
  plain : m.state.mode = .normal → m.state.cell? ≠ some '?' ∧ m.state.cell? ≠ some '@'

omit [SteadyGuard η] in
theorem Repeatable.exists_deed {m : Machine Transcript η ρ} (h : m.Repeatable) :
    ∃ c deed, m.Executes c deed ∧ deed ≠ .halt ∧
      (m.state.mode = .normal → Instruction.decode c ≠ .random) := by
  obtain ⟨c, deed, hexec⟩ := result_step_eq_executed_iff.1 h.executed
  refine ⟨c, deed, hexec, ?_, ?_⟩
  · rintro rfl
    obtain ⟨hmode, hcell, -⟩ := hexec.cell?_eq (i := .halt) rfl (by simp)
    exact (h.plain hmode).2 hcell
  · intro hmode hdecode
    have hc : Instruction.symbol .random = c := by
      rw [← hdecode]
      exact Instruction.symbol_decode (by rw [hdecode]; simp)
    subst hc
    exact (h.plain hmode).1 (Grid.get?_of_found hexec.found (by decide))

theorem verdict_stepped (m : Machine Transcript η ρ) (n : Nat) :
    verdict (m.stepped n).surroundings.guard = verdict m.surroundings.guard := by
  induction n with
  | zero => rfl
  | succ n ih => exact (verdict_step _).trans ih

/-- **Several steps again.** Undo `k` steps wherever `m` would be after them, and take them again:
that leads back. The last step is undone first and taken again last, so the induction takes the
steps off at the end. -/
theorem replay {m x : Machine Transcript η ρ} (hm : m.Settled)
    (hfree : ReadsFreely m.surroundings.guard) (k : Nat)
    (hsteps : ∀ i < k, (m.stepped i).Repeatable) (hx : x.StandsAt (m.stepped k))
    (hk : k ≤ x.history.groups.length)
    (hgroups : x.history.groups.take k = (m.stepped k).history.groups.take k)
    (hfits : x.history.Fits) (hpending : x.history.pending = []) :
    (∀ i < k, (x.unstepped i).unstep.result = .ok true) ∧
      ∀ z : Machine Transcript η ρ, z.Meets (x.unstepped k) →
        (∀ i < k, (z.stepped i).step.result = .ok .executed) ∧ (z.stepped k).Meets x := by
  induction k generalizing x with
  | zero =>
    refine ⟨fun i hi => absurd hi (Nat.not_lt_zero i), fun z hz => ⟨?_, hz⟩⟩
    intro i hi
    exact absurd hi (Nat.not_lt_zero i)
  | succ k ih =>
    have hmk := hm.stepped k
    obtain ⟨c, deed, hexec, hhalt, hrandom⟩ := (hsteps k (Nat.lt_succ_self k)).exists_deed
    have hhistory : (m.stepped (k + 1)).history =
        (m.stepped k).history.add ((m.stepped k).state.perform deed).2.reverse := by
      show (m.stepped k).step.state.history = _
      rw [hexec.step_eq.2]
      exact History.extend_eq_add hmk.pending _
    -- The newest group of `x` is that of the last step, and below it are those of the others.
    rw [hhistory] at hgroups
    obtain ⟨rest, hcons, hrest⟩ := History.eq_cons_of_take_add hk hgroups
    obtain ⟨hresult, hunstep⟩ := unstep_of_deed hcons
    have hback := hexec.standsAt_unstep hmk.rectangular hx hcons
    have hdropped : x.unstep.state.history = x.history.dropNewest := by rw [hunstep]
    have hgroups' : x.unstep.state.history.groups = rest := by
      rw [hdropped, History.groups_dropNewest, hcons]
      rfl
    obtain ⟨hunsteps, hagain⟩ := ih (x := x.unstep.state)
      (fun i hi => hsteps i (Nat.lt_succ_of_lt hi)) hback
      (by rw [hgroups']; rw [hcons] at hk; exact Nat.le_of_succ_le_succ hk)
      (by rw [hgroups', hrest]) (by rw [hdropped]; exact hfits.dropNewest)
      (by rw [hdropped, History.pending_dropNewest, hpending])
    constructor
    · intro i hi
      cases i with
      | zero => exact hresult
      | succ i =>
        rw [unstepped_succ]
        exact hunsteps i (Nat.lt_of_succ_lt_succ hi)
    · intro z hz
      rw [unstepped_succ] at hz
      obtain ⟨hsteps', hmeets⟩ := hagain z hz
      have hfree' := hfree.of_verdict (verdict_stepped m k)
      obtain ⟨hlast, hend⟩ :=
        hexec.redo hhalt hrandom hmk.rectangular hfree' hx hcons hfits hpending hmeets
      refine ⟨?_, hend⟩
      intro i hi
      rcases Nat.lt_succ_iff_lt_or_eq.1 hi with hlt | rfl
      · exact hsteps' i hlt
      · exact hlast

/-! ### Replaying -/

/-- The machine can be taken `k` steps back and `k` steps forward again, and is then what it was. -/
structure Replays (m : Machine Transcript η ρ) (k : Nat) : Prop where
  back : ∀ i < k, (m.unstepped i).unstep.result = .ok true
  forward : ∀ i < k, ((m.unstepped k).stepped i).step.result = .ok .executed
  state : ((m.unstepped k).stepped k).state = m.state
  channel : ((m.unstepped k).stepped k).surroundings.channel = m.surroundings.channel
  history : ((m.unstepped k).stepped k).history = m.history

/-- After any calls, as many steps as can be repeated and as are still in the history replay. -/
def Replayable (m : Machine Transcript η ρ) : Prop :=
  ∀ (cs : List Call) (k : Nat), (∀ i < k, ((m.calls cs).stepped i).Repeatable) →
    k ≤ ((m.calls cs).stepped k).history.depth → ((m.calls cs).stepped k).Replays k

omit [SteadyGuard η] in
theorem Repeatable.running_step {m : Machine Transcript η ρ} (h : m.Repeatable) :
    m.step.state.state.running = true := by
  obtain ⟨c, deed, hexec, hhalt, -⟩ := h.exists_deed
  rw [hexec.step_eq.2]
  exact (State.running_perform hhalt m.state).trans hexec.running

theorem replays_stepped {m : Machine Transcript η ρ} (hm : m.Settled)
    (hfree : ReadsFreely m.surroundings.guard) {k : Nat}
    (hsteps : ∀ i < k, (m.stepped i).Repeatable) (hk : k ≤ (m.stepped k).history.depth) :
    (m.stepped k).Replays k := by
  cases k with
  -- Without a step there is nothing to show, not even that the machine runs.
  | zero =>
    refine ⟨?_, ?_, rfl, rfl, rfl⟩
    · intro i hi
      exact absurd hi (Nat.not_lt_zero i)
    · intro i hi
      exact absurd hi (Nat.not_lt_zero i)
  | succ k =>
    have hend := hm.stepped (k + 1)
    have hrunning : (m.stepped (k + 1)).state.running = true :=
      (hsteps k (Nat.lt_succ_self k)).running_step
    rw [History.depth_eq] at hk
    obtain ⟨hback, hagain⟩ := replay hm hfree (k + 1) hsteps
      ⟨.refl hend.rectangular, hrunning, rfl, rfl, rfl⟩ hk rfl hend.fits hend.pending
    obtain ⟨hforward, hmeets⟩ := hagain _ ⟨rfl, rfl, rfl, rfl, rfl⟩
    exact ⟨hback, hforward, hmeets.state, hmeets.channel, hmeets.history⟩

/-- Every call preserves what replaying needs, and a machine that was just started has it. -/
theorem replayable_start {grid : Grid} (hgrid : grid.Rectangular) (t : Transcript) {guard : η}
    (hfree : ReadsFreely guard) (dice : ρ) (division : DivisionPolicy) (limit : Option Nat) :
    ((start grid t guard dice (.kept { limit })).withDivision division).Replayable := by
  intro cs k hsteps hk
  have hsettled :
      Settled ((start grid t guard dice (.kept { limit })).withDivision division) := by
    -- No limit is too small for a history that is empty.
    refine ⟨hgrid, rfl, ?_⟩
    cases limit with
    | none => rfl
    | some n => exact List.take_nil
  apply replays_stepped (hsettled.calls cs) ?_ hsteps hk
  exact hfree.of_verdict (verdict_calls _ cs)

/-- **Replaying is exact** with a recorder, and with every policy that refuses no read: whatever was
called before, steps that are undone and taken again lead to the same state, transcript and
history. -/
theorem replayable (grid : Grid) (hgrid : grid.Rectangular) (t : Transcript) (dice : ρ)
    (division : DivisionPolicy) (limit : Option Nat) :
    (∀ recorder : EdgeRecorder,
      ((start grid t recorder dice (.kept { limit })).withDivision division).Replayable) ∧
    ∀ policy : EdgePolicy, (∀ edge, policy.action .read edge ≠ .fatal) →
      ((start grid t policy dice (.kept { limit })).withDivision division).Replayable := by
  constructor
  · intro recorder
    exact replayable_start hgrid t recorder.readsFreely dice division limit
  · intro policy hpolicy
    exact replayable_start hgrid t (EdgePolicy.readsFreely hpolicy) dice division limit

/-- A program that reads a digit and places a character as many lines below. -/
def dropping : Machine Transcript EdgePolicy Xoshiro :=
  (start ⟨#[#['&', 'p']], 2, 1, 64⟩ { console := { input := { pending := ['a', '7'] } } }
    .permissive default (.kept { limit := some 2 })).withDivision .fatal

theorem replayable_dropping :
    (∀ edge, EdgePolicy.permissive.action .read edge ≠ .fatal) ∧ dropping.Replayable ∧
      (dropping.stepped 2).Replays 2 ∧ (dropping.stepped 2).state.grid.height = 8 := by
  have hpolicy : ∀ edge, EdgePolicy.permissive.action .read edge ≠ .fatal := by
    intro edge
    cases edge <;> decide
  have hdropping : dropping.Replayable :=
    (replayable _ (by decide) _ _ _ _).2 _ hpolicy
  have hseek : Console.seekDigit .whenDry { pending := ['a', '7'] } {} [] =
      .done 7 { input := {}, sink := {} } := by
    rw [Console.seekDigit_skip rfl rfl (by decide)]
    exact Console.seekDigit_done rfl rfl (by decide)
  have hread : dropping.Executes '&' (.readDigit 7) := by
    refine ⟨rfl, rfl, Reply.result_map_eq_ok.2 ⟨7, ?_, rfl⟩⟩
    exact congrArg Reply.result hseek
  have hstep : dropping.stepped 1 = _ := hread.step_eq.2
  have hheight : (dropping.stepped 2).state.grid.height = 8 := by
    show (dropping.stepped 1).step.state.state.grid.height = 8
    rw [hstep]
    rfl
  refine ⟨hpolicy, hdropping, ?_, hheight⟩
  apply hdropping [] 2
  · intro i hi
    match i, hi with
    | 0, _ => exact ⟨hread.step_eq.1, fun _ => by decide⟩
    | 1, _ =>
      show (dropping.stepped 1).Repeatable
      rw [hstep]
      exact ⟨rfl, fun _ => by decide⟩
  · show 2 ≤ (dropping.stepped 1).step.state.history.depth
    rw [hstep]
    exact Nat.le_refl 2

end Machine

end Retrace
