import Retrace.Proofs.Portions

/-!
# Playing with someone who types

The program does not launch a run with all of its input. It plays a `Job`: it carries out one
portion after the other, shows what is new, and waits for a line when what was typed has run out, in
which case the portion is repeated. `Job.played` is what is shown that way to someone who has
certain bytes to type.

It is what the report of the launch says that is given all these bytes at the start
(`Launch.played_iff_run`), byte for byte, with the same warnings and the same status. Playing comes
to an end iff that launch does.
-/

namespace Retrace

open AtConsole
open Event (warnings)

/-! ### Playing -/

/-- The report of what was shown and noted before as well. -/
def Report.after (output : ByteArray) (events : List Event) (r : Report) : Report :=
  ⟨output ++ r.output, events ++ r.events, r.status⟩

/-- Reports are put together in the order in which their parts were printed. -/
theorem Report.after_after (before output : ByteArray) (first events : List Event) (r : Report) :
    (r.after output events).after before first = r.after (before ++ output) (first ++ events) := by
  simp only [after, ByteArray.append_assoc, List.append_assoc]

theorem Launch.report_append (before output : ByteArray) (first events : List Event)
    (ending : Except Fault Int32) :
    Launch.report (before ++ output) (first ++ events) ending =
      (Launch.report output events ending).after before first := by
  cases ending with
  | ok code => simp only [report, Report.after, ByteArray.append_assoc]
  | error fault => simp only [report, Report.after, List.append_assoc]

namespace Job

/-- What is shown in all when a job is played, `shown` bytes of its next portion having been shown
before, to someone who types `input`; `none` if there are more than `n` moves. -/
def played : Nat → Job → Nat → List UInt8 → Option Report
  | 0, _, _, _ => none
  | n + 1, job, shown, input =>
    match job.move shown with
    | .goOn output events next => (played n next 0 input).map (.after output events)
    | .wait output shown close =>
      match Text.breakAfter Input.isLineFeed input with
      | (line, rest) =>
        if line.isEmpty then some (close.after output [])
        else (played n (job.feed line) shown rest).map (.after output [])
    | .finish close => some close

def drained (job : Job) : Job := job.withConsole job.console.drain.2

theorem feed_eq_amid (line : List UInt8) (job : Job) : job.feed line = amid .empty line job := by
  have hsink : ∀ sink : Sink, sink.preceded .empty = sink := by
    intro sink
    rw [Sink.preceded, ByteArray.empty_append]
  show job.withConsole ⟨_, _⟩ = job.withConsole ⟨_, _⟩
  rw [hsink]
  rfl

theorem withConsole_withConsole (c c' : Console) (job : Job) :
    (job.withConsole c').withConsole c = job.withConsole c := by
  cases job <;> rfl

theorem console_withConsole (c : Console) (job : Job) : (job.withConsole c).console = c := by
  cases job <;> rfl

/-- Feeding a line is moving it from what is to come into what has arrived. -/
theorem amid_feed (shown : ByteArray) (line rest : List UInt8) (job : Job) :
    amid shown rest (job.feed line) = amid shown (line ++ rest) job := by
  show (job.withConsole _).withConsole (Console.amid shown rest (job.withConsole _).console) = _
  rw [withConsole_withConsole, console_withConsole]
  simp only [Console.amid, Console.feed, Input.followed, List.append_assoc]
  rfl

/-- Taking the output away and putting it in front again changes nothing. -/
theorem amid_drained (before : ByteArray) (more : List UInt8) (job : Job) :
    amid (before ++ written job) more job.drained = amid before more job := by
  show (job.withConsole _).withConsole (Console.amid _ more (job.withConsole _).console) = _
  rw [withConsole_withConsole, console_withConsole]
  simp only [Console.amid, Console.drain, Sink.preceded, ByteArray.append_empty]
  rfl

/-! #### Moves -/

/-- What a move shows: what its portion has written, without what was shown before. -/
def fresh (job : Job) (shown : Nat) : ByteArray :=
  (written job.advance.state).extract shown (written job.advance.state).size

/-- What was shown before and what is fresh make up all that was written. -/
theorem append_fresh {job : Job} {shown : Nat} (h : shown ≤ (written job.advance.state).size)
    (before : ByteArray) :
    before ++ (written job.advance.state).extract 0 shown ++ job.fresh shown =
      before ++ written job.advance.state := by
  rw [ByteArray.append_assoc, fresh, ByteArray.extract_append_extract, Nat.zero_min,
    Nat.max_eq_right h, ByteArray.extract_zero_size]

/-- A portion after which the job goes on was not starved. -/
theorem fed_of_none {job : Job} (hs : job.console.sink.capacity = none)
    (h : ending? job.advance.result = none) : job.starved job.advance.result = false := by
  cases job with
  | plain limit m =>
    cases hresult : (plain limit m).advance.result with
    | error fault =>
      rw [hresult] at h
      cases h
    | ok code? => rfl
  | watched s =>
    cases hresult : (watched s).advance.result with
    | error fault =>
      rw [hresult] at h
      cases h
    | ok code? =>
      rw [starved, Bool.and_eq_false_iff]
      by_contra hstarved
      simp only [not_or, Bool.not_eq_false, List.isEmpty_iff] at hstarved
      rw [advance_of_starved hs hstarved.1 hstarved.2] at h
      cases h

/-! #### Played to the end -/

section Played

variable {job : Job} (n shown : Nat) (input : List UInt8)

theorem played_of_none (h : ending? job.advance.result = none) :
    job.played (n + 1) shown input = (job.advance.state.drained.played n 0 input).map
      (.after (job.fresh shown) job.advance.events) := by
  simp only [played, move, h]
  rfl

variable {ending : Except Fault Int32} (h : ending? job.advance.result = some ending)

include h

theorem played_of_fed (hfed : job.starved job.advance.result = false) :
    job.played (n + 1) shown input =
      some (Launch.report (job.fresh shown) job.advance.events ending) := by
  simp only [played, move, h, hfed, Bool.false_eq_true, if_false]
  rfl

/-- A job that waits for a line where there is none is told so by silence, and it ends. -/
theorem played_of_silence (hstarved : job.starved job.advance.result = true) :
    job.played (n + 1) shown [] =
      some ((Launch.report .empty job.advance.events ending).after (job.fresh shown) []) := by
  simp only [played, move, h, hstarved, if_true]
  rfl

/-- A job that waits is run again from where it was, with the line that was typed. -/
theorem played_of_typed (hstarved : job.starved job.advance.result = true) (hne : input ≠ []) :
    job.played (n + 1) shown input =
      ((job.feed (Text.breakAfter Input.isLineFeed input).1).played n
        (written job.advance.state).size (Text.breakAfter Input.isLineFeed input).2).map
          (.after (job.fresh shown) []) := by
  have hline : (Text.breakAfter Input.isLineFeed input).1.isEmpty = false :=
    List.isEmpty_eq_false_iff.2 (Text.fst_breakAfter_ne_nil _ hne)
  simp only [played, move, h, hstarved, if_true, hline, Bool.false_eq_true, if_false]
  rfl

end Played

theorem ready_drained {job : Job} {more : List UInt8} (h : job.console.Ready more) :
    job.drained.console.Ready more := by
  rw [drained, console_withConsole]
  exact ⟨h.unlimited, h.joins⟩

/-- A line of the input can be typed, and the rest later. -/
theorem ready_feed {job : Job} {input : List UInt8} (h : job.console.Ready input)
    (hne : input ≠ []) :
    (job.feed (Text.breakAfter Input.isLineFeed input).1).console.Ready
      (Text.breakAfter Input.isLineFeed input).2 := by
  rw [feed, console_withConsole]
  refine ⟨h.unlimited, fun hrest => ?_⟩
  exact (Text.whole_breakAfter hrest).append (Text.fst_breakAfter_ne_nil _ hne) _

/-- With a line that is typed a portion begins as it did without. -/
theorem begins_feed {job : Job} {input : List UInt8} (h : job.console.Ready input)
    (hne : input ≠ []) (line : List UInt8) :
    ∃ rest, written (job.feed line).advance.state = written job.advance.state ++ rest := by
  have hline : job.console.Ready line := ⟨h.unlimited, fun _ => h.joins hne⟩
  obtain ⟨rest, hrest⟩ := begins_advance hline .empty
  rw [ByteArray.empty_append] at hrest
  exact ⟨rest, (feed_eq_amid line job) ▸ hrest⟩

/-- The end of a job, in the middle of an exchange. -/
theorem closing_amid {job : Job} {more : List UInt8} {before : ByteArray}
    {ending : Except Fault Int32} (hending : ending? job.advance.result = some ending)
    (hsame : (amid before more job).advance = job.advance.within (amid before more)) :
    ∃ r, (amid before more job).complete 1 = some r ∧
      closing r =
        Launch.report (before ++ written job.advance.state) job.advance.events ending := by
  refine ⟨_, complete_of_ending (by rw [hsame]; exact hending) 0, ?_⟩
  rw [closing, hsame, Reply.state_within, written_amid]
  rfl

/-- **Whatever is played is completed.** The report has all that was shown, in its order. -/
theorem complete_of_played {n : Nat} {job : Job} {shown : Nat} {input : List UInt8}
    {report : Report} (hplayed : job.played n shown input = some report)
    (hready : job.console.Ready input) (hshown : shown ≤ (written job.advance.state).size)
    (before : ByteArray) :
    ∃ k r, (amid before input job).complete k = some r ∧
      closing r = report.after (before ++ (written job.advance.state).extract 0 shown) [] := by
  induction n generalizing job shown input report before with
  | zero => cases hplayed
  | succ n ih =>
    cases hending : ending? job.advance.result with
    | none =>
      -- The portion is the same with all input at hand, and the next one follows it.
      have hsame := advance_amid hready (.inr (fed_of_none hready.unlimited hending)) before
      rw [played_of_none n shown input hending] at hplayed
      obtain ⟨report', hplayed', rfl⟩ := Option.map_eq_some_iff.1 hplayed
      have hready' := ready_drained (hready.of_proceeds (proceeds_advance job))
      obtain ⟨k, r, hcomplete, hclosing⟩ :=
        ih hplayed' hready' (Nat.zero_le _) (before ++ written job.advance.state)
      rw [amid_drained] at hcomplete
      refine ⟨k + 1, { r with events := job.advance.events ++ r.events }, ?_, ?_⟩
      · rw [complete_of_none (by rw [hsame]; exact hending), hsame, Reply.state_within, hcomplete]
        rfl
      · have hout : closing { r with events := job.advance.events ++ r.events } =
            (closing r).after .empty job.advance.events := by
          rw [closing, closing, ← Launch.report_append, ByteArray.empty_append]
        rw [hout, hclosing, Report.after_after, Report.after_after, append_fresh hshown,
          ByteArray.extract_same, ByteArray.append_empty, ByteArray.empty_append, List.append_nil,
          List.nil_append]
    | some ending =>
      cases hstarved : job.starved job.advance.result with
      | false =>
        rw [played_of_fed n shown input hending hstarved] at hplayed
        obtain ⟨r, hcomplete, hclosing⟩ :=
          closing_amid hending (advance_amid hready (.inr hstarved) before)
        cases hplayed
        refine ⟨1, r, hcomplete, ?_⟩
        rw [hclosing, ← Launch.report_append, append_fresh hshown, List.nil_append]
      | true =>
        by_cases hnone : input = []
        · -- Nothing more is typed, so the starved portion was the last one.
          subst hnone
          rw [played_of_silence n shown hending hstarved] at hplayed
          obtain ⟨r, hcomplete, hclosing⟩ :=
            closing_amid hending (advance_amid hready (.inl rfl) before)
          cases hplayed
          refine ⟨1, r, hcomplete, ?_⟩
          rw [hclosing, Report.after_after, append_fresh hshown, List.append_nil,
            ← Launch.report_append, ByteArray.append_empty, List.nil_append]
        · -- The portion is repeated with one line more, and begins with what was shown of it.
          rw [played_of_typed n shown input hending hstarved hnone] at hplayed
          obtain ⟨report', hplayed', rfl⟩ := Option.map_eq_some_iff.1 hplayed
          obtain ⟨rest, hrest⟩ :=
            begins_feed hready hnone (Text.breakAfter Input.isLineFeed input).1
          obtain ⟨k, r, hcomplete, hclosing⟩ :=
            ih hplayed' (ready_feed hready hnone) (by simp [hrest]) before
          rw [amid_feed, Text.breakAfter_append] at hcomplete
          refine ⟨k, r, hcomplete, ?_⟩
          rw [hclosing, hrest, ByteArray.extract_append_eq_left rfl, Report.after_after,
            append_fresh hshown, List.append_nil]

/-- A job that can be completed can be played. -/
theorem exists_played {k : Nat} {job : Job} {input : List UInt8} {before : ByteArray}
    {r : Reply Job Int32} (hcomplete : (amid before input job).complete k = some r)
    (hready : job.console.Ready input) (shown : Nat) :
    ∃ n report, job.played n shown input = some report := by
  induction k generalizing job input before r shown with
  | zero => cases hcomplete
  | succ k ih =>
    -- As long as the portion is starved it takes lines from the input.
    induction hlength : input.length using Nat.strongRecOn generalizing job input shown with
    | _ length shorter =>
      subst hlength
      cases hending : ending? job.advance.result with
      | none =>
        have hsame := advance_amid hready (.inr (fed_of_none hready.unlimited hending)) before
        rw [complete_of_none (by rw [hsame]; exact hending), hsame] at hcomplete
        obtain ⟨rest, hrest, -⟩ := Option.map_eq_some_iff.1 hcomplete
        rw [Reply.state_within, ← amid_drained] at hrest
        have hready' := ready_drained (hready.of_proceeds (proceeds_advance job))
        obtain ⟨n, report, hplayed⟩ := ih hrest hready' 0
        refine ⟨n + 1, report.after (job.fresh shown) job.advance.events, ?_⟩
        rw [played_of_none n shown input hending, hplayed, Option.map_some]
      | some ending =>
        cases hstarved : job.starved job.advance.result with
        | false => exact ⟨1, _, played_of_fed 0 shown input hending hstarved⟩
        | true =>
          by_cases hnone : input = []
          · subst hnone
            exact ⟨1, _, played_of_silence 0 shown hending hstarved⟩
          · rw [← Text.breakAfter_append Input.isLineFeed input, ← amid_feed] at hcomplete
            obtain ⟨n, report, hplayed⟩ := shorter _
              (Text.length_breakAfter_snd_lt Input.isLineFeed hnone) hcomplete
              (ready_feed hready hnone) (written job.advance.state).size rfl
            refine ⟨n + 1, report.after (job.fresh shown) [], ?_⟩
            rw [played_of_typed n shown input hending hstarved hnone, hplayed, Option.map_some]

/-- **Nothing depends on when the input is typed.** Playing a job shows what completing it with all
of the input would. -/
theorem played_iff_complete {job : Job} {input : List UInt8} (hready : job.console.Ready input)
    (report : Report) :
    (∃ n, job.played n 0 input = some report) ↔
      ∃ k r, (amid .empty input job).complete k = some r ∧ closing r = report := by
  have hforth : ∀ {n report}, job.played n 0 input = some report →
      ∃ k r, (amid .empty input job).complete k = some r ∧ closing r = report := by
    intro n report hplayed
    obtain ⟨k, r, hcomplete, hclosing⟩ :=
      complete_of_played hplayed hready (Nat.zero_le _) .empty
    refine ⟨k, r, hcomplete, ?_⟩
    rw [hclosing, ByteArray.extract_same, Report.after, ByteArray.append_empty,
      ByteArray.empty_append, List.nil_append]
  constructor
  · rintro ⟨n, hplayed⟩
    exact hforth hplayed
  · rintro ⟨k, r, hcomplete, rfl⟩
    obtain ⟨n, report, hplayed⟩ := exists_played hcomplete hready 0
    obtain ⟨k', r', hcomplete', rfl⟩ := hforth hplayed
    rw [complete_unique hcomplete hcomplete'] at hplayed
    exact ⟨n, hplayed⟩

end Job

/-! ### Launches -/

/-- What a user sees of a report: the events that are not for users are left out. -/
def Report.seen (r : Report) : Report := { r with events := warnings r.events }

namespace Launch

theorem seen_report {output : ByteArray} {events events' : List Event}
    (h : warnings events = warnings events') (ending : Except Fault Int32) :
    (report output events ending).seen = (report output events' ending).seen := by
  cases ending with
  | ok code => simp only [report, Report.seen, h]
  | error fault => simp only [report, Report.seen, Event.warnings_append, h]

end Launch

namespace Job

/-- What can be seen of a played job is what can be seen of it when it has all its input from the
start. -/
theorem seen_played_iff {job : Job} {input : List UInt8} (hready : job.console.Ready input)
    (seen : Report) :
    (∃ n, (job.played n 0 input).map Report.seen = some seen) ↔
      ∃ k r, (amid .empty input job).complete k = some r ∧ (closing r).seen = seen := by
  simp only [Option.map_eq_some_iff]
  constructor
  · rintro ⟨n, report, hplayed, rfl⟩
    obtain ⟨k, r, hcomplete, rfl⟩ := (played_iff_complete hready report).1 ⟨n, hplayed⟩
    exact ⟨k, r, hcomplete, rfl⟩
  · rintro ⟨k, r, hcomplete, rfl⟩
    obtain ⟨n, hplayed⟩ := (played_iff_complete hready _).2 ⟨k, r, hcomplete, rfl⟩
    exact ⟨n, _, hplayed, rfl⟩

/-- Completing a plain run and running it are the same to a user. -/
theorem complete_plain_iff {limit : Option Nat} {m : Machine Terminal EdgePolicy Xoshiro}
    (seen : Report) :
    (∃ k r, (plain limit m).complete k = some r ∧ (closing r).seen = seen) ↔
      ∃ r, m.Yields limit r ∧
        (Launch.report (written r.state) r.events (r.result.map Summary.exitCode)).seen = seen := by
  have hsame : ∀ {r r'}, Concludes r r' → (closing r).seen =
      (Launch.report (written r'.state) r'.events (r'.result.map Summary.exitCode)).seen := by
    intro r r' h
    rw [closing, h.result, h.written, Launch.seen_report h.warnings]
  constructor
  · rintro ⟨k, r, hcomplete, rfl⟩
    obtain ⟨r', hyields, hconcludes⟩ := exists_yields hcomplete
    exact ⟨r', hyields, (hsame hconcludes).symm⟩
  · rintro ⟨r, hyields, rfl⟩
    obtain ⟨n, hends, -⟩ := Machine.yields_iff.1 hyields
    obtain ⟨k, r', hcomplete⟩ := exists_complete hends
    obtain ⟨r'', hyields', hconcludes⟩ := exists_yields hcomplete
    cases hyields.unique hyields'
    exact ⟨k, r', hcomplete, hsame hconcludes⟩

/-- Completing a watched run and running it are the same. -/
theorem complete_watched_iff {s : Session Xoshiro} (seen : Report) :
    (∃ k r, (watched s).complete k = some r ∧ (closing r).seen = seen) ↔
      (Launch.report (written s.run.state) s.run.events s.run.result).seen = seen := by
  constructor
  · rintro ⟨k, r, hcomplete, rfl⟩
    rw [eq_run_of_complete hcomplete]
    rfl
  · rintro rfl
    exact ⟨_, _, complete_watched (Nat.lt_succ_self _), rfl⟩

end Job

namespace Launch

theorem console_amid (input : List UInt8) : (console []).amid .empty input = console input := by
  simp only [Console.amid, console, Input.ofBytes, Input.followed, Sink.preceded,
    ByteArray.append_empty, List.nil_append]

theorem ready_console (input : List UInt8) : (console []).Ready input :=
  ⟨rfl, fun _ _ hlast => absurd hlast (by simp [console, Input.ofBytes])⟩

/-- **A launch that is played** with someone who types `input` shows what the launch with this
input reports, and it comes to an end iff the launch does. -/
theorem played_iff_run {words : List String} {options : Options} {look : String → Grid.Found}
    {grid : Grid} (hwords : Options.parse words = some options)
    (hgrid : Grid.load options.file (look options.file) = .ok grid) (entropy : UInt64)
    (input : List UInt8) (seen : Report) :
    (∃ n, ((Job.ofOptions options grid entropy).played n 0 input).map Report.seen = some seen) ↔
      ∃ fuel, (run fuel entropy look words input).map Report.seen = some seen := by
  simp only [run, hwords, hgrid]
  cases hdebug : options.debug with
  | false =>
    have hjob : Job.ofOptions options grid entropy =
        .plain options.stepLimit (plain grid (dice options entropy) []) := by
      simp only [Job.ofOptions, hdebug, Bool.false_eq_true, if_false]
    have hamid : amid .empty input (Job.plain options.stepLimit
          (plain grid (dice options entropy) [])) =
        .plain options.stepLimit (plain grid (dice options entropy) input) :=
      congrArg (fun c => Job.plain options.stepLimit
        (.start grid ⟨c⟩ .standard (dice options entropy) .off)) (console_amid input)
    rw [hjob, Job.seen_played_iff (ready_console input), hamid, Job.complete_plain_iff]
    simp only [Bool.false_eq_true, if_false, runPlain, Option.map_map, Option.map_eq_some_iff,
      Machine.Yields]
    constructor
    · rintro ⟨r, ⟨fuel, hrun⟩, hseen⟩
      exact ⟨fuel, r, hrun, hseen⟩
    · rintro ⟨fuel, r, hrun, hseen⟩
      exact ⟨r, ⟨fuel, hrun⟩, hseen⟩
  | true =>
    have hjob : Job.ofOptions options grid entropy =
        .watched (watched options grid (dice options entropy) []) := by
      simp only [Job.ofOptions, hdebug, if_true]
    have hamid : amid .empty input (Job.watched (watched options grid (dice options entropy) [])) =
        .watched (watched options grid (dice options entropy) input) :=
      congrArg (fun c => Job.watched
        ⟨.start grid ⟨c, ""⟩ .standard (dice options entropy) (.kept (.bounded options.history)), 0,
          options.stepLimit⟩) (console_amid input)
    rw [hjob, Job.seen_played_iff (ready_console input), hamid, Job.complete_watched_iff]
    simp only [if_true, Option.map_some, Option.some.injEq, exists_const]
    rfl

end Launch

end Retrace
