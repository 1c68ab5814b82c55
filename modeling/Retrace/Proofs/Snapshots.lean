import Retrace.Proofs.Transcripts

/-!
# Undoing against snapshots

A machine that kept a copy of everything at each step could go back by taking the newest copy. The
history is to do the same with changes alone, and this file compares the two: a `Watched` machine is
a machine with a list of snapshots beside it, one for each step that it executed and can still undo.

Three things do not come back, and the comparison accounts for each of them. The grid keeps its
extent. A machine that stopped stays stopped. And the characters that a search for a digit passed
over are gone: they are struck out of every snapshot that still has them (`Snapshot.strike`).

The whole history is tied to the whole list of snapshots by `Linked`, link by link: the changes of a
group are those of a deed, and doing it leads from one snapshot to the next one.
-/

namespace Retrace

/-! ### Snapshots -/

/-- What there was before a step: the state, the output, and the input that remained. -/
structure Snapshot where
  state : State
  output : String
  input : List Char
  /-- The input without the characters that were passed over since. -/
  left : List Char

namespace Snapshot

/-- Where the input ends in `before`, it shall end in `after`. -/
def strike (before after : List Char) (s : Snapshot) : Snapshot :=
  { s with left := s.left.take (s.left.length - before.length) ++ after }

/-- Striking out acts on the end of the input that a snapshot has left, whatever stands in front. -/
theorem left_strike {s : Snapshot} (front : List Char) {before : List Char}
    (h : s.left = front ++ before) (after : List Char) :
    (s.strike before after).left = front ++ after := by
  have hlength : s.left.length - before.length = front.length := by
    rw [h, List.length_append, Nat.add_sub_cancel]
  rw [strike, hlength, h, List.take_left]

/-- What is left of the input is the input without some characters, and none of these is a digit. -/
structure Keeps (s : Snapshot) : Prop where
  sublist : s.left.Sublist s.input
  digits : s.left.filterMap Text.digit? = s.input.filterMap Text.digit?

/-- What is struck out was passed over in search of a digit, so a snapshot keeps all its digits. -/
theorem Keeps.strike {s : Snapshot} (hs : s.Keeps) (front : List Char)
    {skipped after : List Char} (h : s.left = front ++ (skipped ++ after))
    (hskipped : skipped.all Console.passedOver) :
    (s.strike (skipped ++ after) after).Keeps := by
  have hnone : skipped.filterMap Text.digit? = [] := by
    rw [List.filterMap_eq_nil_iff]
    intro c hc
    exact Option.isNone_iff_eq_none.1 (List.all_eq_true.1 hskipped c hc)
  have hleft := left_strike front h after
  constructor
  · rw [hleft]
    refine List.Sublist.trans ?_ (h ▸ hs.sublist)
    exact (List.Sublist.refl front).append (List.sublist_append_right skipped after)
  · rw [hleft]
    refine Eq.trans ?_ hs.digits
    rw [h]
    simp only [List.filterMap_append, hnone, List.nil_append]

end Snapshot

/-! ### Histories and snapshots, link by link -/

/-- The groups of a history lead back from `now` over the snapshots. A grid may have been padded
since a group was made, and the input may have been struck out. -/
inductive Linked : Snapshot → List (List Change) → List Snapshot → Prop where
  | nil {now : Snapshot} : Linked now [] []
  | cons {now s : Snapshot} {deed : Deed} {groups : List (List Change)} {saved : List Snapshot}
      (rectangular : s.state.grid.Rectangular)
      (state : (s.state.perform deed).1.PaddedTo now.state)
      (output : now.output = s.output ++ deed.printed)
      (left : s.left = deed.given ++ now.left)
      (keeps : s.Keeps)
      (rest : Linked s groups saved) :
      Linked now ((s.state.perform deed).2.reverse :: groups) (s :: saved)

namespace Linked

variable {now now' : Snapshot} {groups : List (List Change)} {saved : List Snapshot}

theorem length_eq (h : Linked now groups saved) : groups.length = saved.length := by
  induction h with
  | nil => rfl
  | cons _ _ _ _ _ _ ih => rw [List.length_cons, List.length_cons, ih]

/-- A history leads back from a padding as well. -/
theorem padded (h : Linked now groups saved) (hstate : now.state.PaddedTo now'.state)
    (houtput : now'.output = now.output) (hleft : now'.left = now.left) :
    Linked now' groups saved := by
  cases h with
  | nil => exact .nil
  | cons rectangular state output left keeps rest =>
    exact .cons rectangular (state.trans hstate) (houtput.trans output)
      (left.trans (by rw [hleft])) keeps rest

/-- The oldest groups and the oldest snapshots can be forgotten together. -/
theorem take (h : Linked now groups saved) (n : Nat) :
    Linked now (groups.take n) (saved.take n) := by
  induction h generalizing n with
  | nil => simpa using Linked.nil
  | cons rectangular state output left keeps _ ih =>
    cases n with
    | zero => exact .nil
    | succ n => exact .cons rectangular state output left keeps (ih n)

/-- Groups and snapshots are forgotten together, the oldest first. -/
theorem newest (h : Linked now groups saved) (limit : Option Nat) :
    Linked now (newest limit groups) (newest limit saved) := by
  cases limit with
  | none => exact h
  | some n => exact h.take n

/-- Characters can be struck out of all snapshots at once. What comes in front of them differs from
one snapshot to the next, so the induction goes over every `front`. -/
theorem strike (h : Linked now groups saved) (front : List Char) {skipped after : List Char}
    (hnow : now.left = front ++ (skipped ++ after)) (hskipped : skipped.all Console.passedOver) :
    Linked (now.strike (skipped ++ after) after) groups
      (saved.map (·.strike (skipped ++ after) after)) := by
  induction h generalizing front with
  | nil => exact .nil
  | @cons now s deed groups saved rectangular state output left keeps _ ih =>
    have hs : s.left = (deed.given ++ front) ++ (skipped ++ after) := by
      rw [left, hnow, List.append_assoc]
    rw [List.map_cons]
    refine .cons (s := s.strike (skipped ++ after) after) rectangular state output ?_
      (keeps.strike _ hs hskipped) (ih _ hs)
    rw [Snapshot.left_strike _ hs, Snapshot.left_strike front hnow, List.append_assoc]

theorem saved_eq_nil (h : Linked now [] saved) : saved = [] := by
  cases h with
  | nil => rfl

theorem saved_eq_cons {group : List Change} (h : Linked now (group :: groups) saved) :
    ∃ s rest, saved = s :: rest := by
  cases h with
  | cons => exact ⟨_, _, rfl⟩

theorem keeps {s : Snapshot} {group : List Change} (h : Linked now (group :: groups) (s :: saved)) :
    s.Keeps := by
  cases h with
  | cons _ _ _ _ keeps _ => exact keeps

theorem rest {s : Snapshot} {group : List Change} (h : Linked now (group :: groups) (s :: saved)) :
    Linked s groups saved := by
  cases h with
  | cons _ _ _ _ _ rest => exact rest

end Linked

/-! ### Watching a machine -/

namespace Machine

variable {η ρ : Type}

def snapshot (m : Machine Transcript η ρ) : Snapshot :=
  ⟨m.state, m.surroundings.channel.output, m.surroundings.channel.remaining,
    m.surroundings.channel.remaining⟩

/-- The characters that the machine is about to pass over: those in front of the first digit, if it
is to read one. -/
def skips (m : Machine Transcript η ρ) : List Char :=
  if m.state.mode = .normal ∧ m.state.cell? = some '&' then
    m.surroundings.channel.remaining.takeWhile Console.passedOver
  else []

/-- A search for a digit passes over no digit. -/
theorem all_skips (m : Machine Transcript η ρ) : m.skips.all Console.passedOver := by
  rw [skips]
  split
  · exact List.all_takeWhile
  · rfl

theorem keeps_snapshot (m : Machine Transcript η ρ) : m.snapshot.Keeps :=
  ⟨List.Sublist.refl _, rfl⟩

variable [EdgeGuard η] [DirectionSource ρ]

/-- The characters that are passed over are told by the cell under the pointer. -/
theorem Executes.skipped_eq {m : Machine Transcript η ρ} {c : Char} {deed : Deed}
    (h : m.Executes c deed) (hm : m.state.grid.Rectangular) :
    deed.skipped m.surroundings.channel.remaining = m.skips := by
  by_cases hcell : m.state.mode = .normal ∧ m.state.cell? = some '&'
  · have hc := h.eq_of_cell? hm hcell.2
    subst hc
    obtain ⟨d, _, rfl⟩ := Reply.result_map_eq_ok.1 (h.resolved hcell.1).1
    rw [skips, if_pos hcell]
    rfl
  · rw [skips, if_neg hcell]
    cases deed with
    | readDigit d =>
      obtain ⟨hmode, hcell', _⟩ := h.cell?_eq (i := .readInt) rfl (by simp)
      exact absurd ⟨hmode, hcell'⟩ hcell
    | _ => rfl

omit [EdgeGuard η] [DirectionSource ρ] in
/-- An unstep leads back to the newest snapshot. -/
theorem unstep_of_linked {m : Machine Transcript η ρ} {s : Snapshot} {group : List Change}
    {groups : List (List Change)} {saved : List Snapshot}
    (hgroups : m.history.groups = group :: groups)
    (hlinked : Linked m.snapshot (group :: groups) (s :: saved))
    (ht : m.surroundings.channel.Unfailing) :
    m.unstep.result = .ok true ∧ s.state.PaddedTo m.unstep.state.state ∧
      m.unstep.state.surroundings.channel.output = s.output ∧
      m.unstep.state.surroundings.channel.remaining = s.left ∧
      m.unstep.state.surroundings.channel.Unfailing := by
  cases hlinked with
  | @cons _ _ deed _ _ rectangular state output left keeps rest =>
    obtain ⟨hresult, hstate⟩ := unstep_of_deed hgroups
    rw [hstate]
    refine ⟨hresult, state.revertAll_perform rectangular, ?_, ?_, ht.undo deed⟩
    · have hprinted : m.surroundings.channel.output = s.output ++ deed.printed := output
      show Transcript.strip deed.printed m.surroundings.channel.output = s.output
      rw [hprinted, Transcript.strip_append]
    · rw [left]
      exact Transcript.remaining_undo deed _

end Machine

/-- A machine and the snapshots of it, the newest first, of which `limit` are kept. -/
structure Watched (η ρ : Type) where
  machine : Machine Transcript η ρ
  saved : List Snapshot := []
  limit : Option Nat

namespace Watched

variable {η ρ : Type}

def start (grid : Grid) (t : Transcript) (guard : η) (dice : ρ) (division : DivisionPolicy)
    (limit : Option Nat) : Watched η ρ :=
  { machine := (Machine.start grid t guard dice (.kept { limit })).withDivision division
    limit }

variable [EdgeGuard η] [DirectionSource ρ]

/-- The snapshots with one more, taken before a step, and without what that step passes over. -/
def save (w : Watched η ρ) : List Snapshot :=
  let text := w.machine.surroundings.channel.remaining
  newest w.limit <|
    (w.machine.snapshot :: w.saved).map (·.strike text (text.drop w.machine.skips.length))

/-- A step that executes saves a snapshot, and any other step saves nothing. -/
def step (w : Watched η ρ) : Watched η ρ :=
  { w with
    machine := w.machine.step.state
    saved :=
      match w.machine.step.result with
      | .ok .executed => w.save
      | _ => w.saved }

theorem step_of_executed {w : Watched η ρ} (h : w.machine.step.result = .ok .executed) :
    w.step = ⟨w.machine.step.state, w.save, w.limit⟩ := by
  rw [step, h]

theorem step_of_not_executed {w : Watched η ρ} (h : w.machine.step.result ≠ .ok .executed) :
    w.step = ⟨w.machine.step.state, w.saved, w.limit⟩ := by
  unfold step
  split
  · contradiction
  · rfl

def unstep (w : Watched η ρ) : Watched η ρ :=
  { w with machine := w.machine.unstep.state, saved := w.saved.tail }

def call (w : Watched η ρ) : Machine.Call → Watched η ρ
  | .step => w.step
  | .unstep => w.unstep
  | .stop => { w with machine := w.machine.stop }
  | .restart => { w with machine := w.machine.restart }

def calls (w : Watched η ρ) (cs : List Machine.Call) : Watched η ρ := cs.foldl call w

theorem machine_call (w : Watched η ρ) (c : Machine.Call) :
    (w.call c).machine = w.machine.call c := by
  cases c <;> rfl

/-- Watching a machine does not disturb it. -/
theorem machine_calls (w : Watched η ρ) (cs : List Machine.Call) :
    (w.calls cs).machine = w.machine.calls cs := by
  induction cs generalizing w with
  | nil => rfl
  | cons c rest ih =>
    have hrest := ih (w.call c)
    rw [machine_call] at hrest
    exact hrest

/-! ### The comparison holds in every run -/

/-- The history and the snapshots are about the same steps. -/
structure Sound (w : Watched η ρ) : Prop where
  rectangular : w.machine.state.grid.Rectangular
  unfailing : w.machine.surroundings.channel.Unfailing
  linked : ∃ groups, w.machine.history = .kept { groups, limit := w.limit } ∧
    Linked w.machine.snapshot groups w.saved

/-- An executed step saves a snapshot and commits a group, and the new link is the step itself; any
other step changes nothing that is linked. -/
theorem Sound.step {w : Watched η ρ} (hw : w.Sound) : w.step.Sound := by
  obtain ⟨hrect, ht, groups, hhistory, hlinked⟩ := hw
  rcases w.machine.step_inversion with ⟨c, deed, hexec⟩ | ⟨hne, around, habandons, hstep⟩
  · obtain ⟨hresult, hstate⟩ := hexec.step_eq
    have hpasses := hexec.passes ht
    have hremaining := hpasses.remaining
    rw [hexec.skipped_eq hrect, List.append_assoc] at hremaining
    have hrect' := State.rectangular_perform hrect deed
    rw [step_of_executed hresult, hstate]
    refine ⟨hrect', hpasses.unfailing,
      newest w.limit ((w.machine.state.perform deed).2.reverse :: groups), ?_, ?_⟩
    · simp only [hhistory]
      exact History.extend_eq_add rfl _
    · -- The new snapshot stands before the others once all of them are struck out.
      have hskips := w.machine.all_skips
      have hstruck := hlinked.strike [] hremaining hskips
      have hkeeps := w.machine.keeps_snapshot.strike [] hremaining hskips
      have hleft := Snapshot.left_strike (s := w.machine.snapshot) [] hremaining
      rw [save, hremaining, List.drop_left, List.map_cons]
      refine Linked.newest ?_ w.limit
      exact .cons hrect (.refl hrect') hpasses.output (hleft _) hkeeps hstruck
  · have hpasses := habandons.passes ht
    rw [step_of_not_executed hne, hstep]
    refine ⟨hrect, hpasses.unfailing, groups, hhistory, ?_⟩
    refine hlinked.padded (.refl hrect) ?_ hpasses.remaining.symm
    exact hpasses.output.trans String.append_empty

omit [EdgeGuard η] [DirectionSource ρ] in
/-- The newest link is used up. What it leads back to is the snapshot, padded to the present extent
of the grid. -/
theorem Sound.unstep {w : Watched η ρ} (hw : w.Sound) : w.unstep.Sound := by
  obtain ⟨hrect, ht, groups, hhistory, hlinked⟩ := hw
  have hgroups : w.machine.history.groups = groups := by rw [hhistory]; rfl
  cases groups with
  | nil =>
    -- With nothing to undo there is no snapshot either, and dropping one has no effect.
    have hsaved := hlinked.saved_eq_nil
    rw [Watched.unstep, (Machine.unstep_of_no_groups hgroups).2, hsaved]
    exact ⟨hrect, ht, [], hhistory, .nil⟩
  | cons group rest =>
    obtain ⟨s, saved, hsaved⟩ := hlinked.saved_eq_cons
    rw [hsaved] at hlinked
    obtain ⟨-, hstate, houtput, hleft, ht'⟩ := Machine.unstep_of_linked hgroups hlinked ht
    refine ⟨hstate.grid.outer, ht', rest, ?_, ?_⟩
    · rw [Watched.unstep, (Machine.unstep_of_groups hgroups).2, hhistory]
      rfl
    · -- The older groups led back from the snapshot, so they lead back from its padding.
      rw [Watched.unstep, hsaved]
      exact hlinked.rest.padded hstate houtput hleft

omit [EdgeGuard η] [DirectionSource ρ] in
/-- Stopping and restarting are not steps. -/
theorem Sound.running {w : Watched η ρ} (hw : w.Sound) (b : Bool) :
    Sound
      { w with machine := { w.machine with state := { w.machine.state with running := b } } } := by
  obtain ⟨hrect, ht, groups, hhistory, hlinked⟩ := hw
  refine ⟨hrect, ht, groups, hhistory, hlinked.padded ?_ rfl rfl⟩
  exact ⟨.refl hrect, rfl, rfl, rfl, rfl⟩

/-- The run lemma, from which everything about unsteps follows. -/
theorem Sound.calls {w : Watched η ρ} (hw : w.Sound) (cs : List Machine.Call) :
    (w.calls cs).Sound := by
  induction cs generalizing w with
  | nil => exact hw
  | cons c rest ih =>
    apply ih
    cases c with
    | step => exact hw.step
    | unstep => exact hw.unstep
    | stop => exact hw.running false
    | restart => exact hw.running true

/-! ### Undoing is exact -/

/-- The machine agrees with a snapshot, on a grid that may be larger and has spaces there. -/
structure Restored (s : Snapshot) (m : Machine Transcript η ρ) : Prop where
  position : m.state.position = s.state.position
  velocity : m.state.velocity = s.state.velocity
  mode : m.state.mode = s.state.mode
  stack : m.state.stack = s.state.stack
  output : m.surroundings.channel.output = s.output
  inside (spot : Spot) : s.state.grid.Contains spot →
    m.state.grid.cell? spot = s.state.grid.cell? spot
  outside (spot : Spot) : ¬ s.state.grid.Contains spot → m.state.grid.Contains spot →
    m.state.grid.cell? spot = some ' '
  input : m.surroundings.channel.remaining = s.left

/-- An unstep does what a return to the newest snapshot would do. -/
structure Exact (w : Watched η ρ) : Prop where
  depth : w.machine.history.depth = w.saved.length
  /-- Only where there is no snapshot is there nothing to undo. -/
  nothing : w.machine.unstep.result = .ok false ∧ w.machine.unstep.state = w.machine ↔ w.saved = []
  /-- The newest snapshot comes back, but for characters that are no digits. -/
  restored (s : Snapshot) (rest : List Snapshot) : w.saved = s :: rest →
    w.machine.unstep.result = .ok true ∧ Restored s w.machine.unstep.state ∧ s.Keeps
  /-- The grid does not shrink, and a machine that stopped stays stopped. -/
  stays : w.machine.unstep.state.state.grid.width = w.machine.state.grid.width ∧
    w.machine.unstep.state.state.grid.height = w.machine.state.grid.height ∧
    w.machine.unstep.state.state.running = w.machine.state.running

omit [EdgeGuard η] [DirectionSource ρ] in
/-- The newest link of a sound history says what the next unstep restores. -/
theorem Sound.exact {w : Watched η ρ} (hw : w.Sound) : w.Exact := by
  obtain ⟨hrect, ht, groups, hhistory, hlinked⟩ := hw
  have hgroups : w.machine.history.groups = groups := by rw [hhistory]; rfl
  have hdepth : w.machine.history.depth = w.saved.length := by
    rw [History.depth_eq, hgroups, hlinked.length_eq]
  cases groups with
  | nil =>
    obtain ⟨hresult, hstate⟩ := Machine.unstep_of_no_groups hgroups
    have hsaved : w.saved = [] := hlinked.saved_eq_nil
    refine ⟨hdepth, ?_, ?_, ?_⟩
    · exact ⟨fun _ => hsaved, fun _ => ⟨hresult, hstate⟩⟩
    · intro s rest hcons
      rw [hsaved] at hcons
      cases hcons
    · rw [hstate]
      exact ⟨rfl, rfl, rfl⟩
  | cons group groups =>
    obtain ⟨s, saved, hsaved⟩ := hlinked.saved_eq_cons
    rw [hsaved] at hlinked
    obtain ⟨hresult, hstate, houtput, hleft, -⟩ := Machine.unstep_of_linked hgroups hlinked ht
    refine ⟨hdepth, ?_, ?_, ?_⟩
    · rw [hresult, hsaved]
      simp
    · intro s' rest hcons
      rw [hsaved] at hcons
      cases hcons
      refine ⟨hresult, ⟨hstate.position, hstate.velocity, hstate.mode, hstate.stack, houtput,
        ?_, ?_, hleft⟩, hlinked.keeps⟩
      · intro spot hspot
        exact hstate.grid.cell?_inside hspot
      · intro spot hout hin
        exact hstate.grid.cell?_outside hout hin
    · rw [(Machine.unstep_of_groups hgroups).2]
      obtain ⟨hw, hht⟩ := State.extent_revertAll group w.machine.state
      exact ⟨hw, hht, State.running_revertAll group w.machine.state⟩

omit [EdgeGuard η] [DirectionSource ρ] in
/-- At the start there is nothing to undo, so nothing to be linked. -/
theorem sound_start {grid : Grid} (hgrid : grid.Rectangular) {t : Transcript} (ht : t.Unfailing)
    (guard : η) (dice : ρ) (division : DivisionPolicy) (limit : Option Nat) :
    (start grid t guard dice division limit).Sound :=
  ⟨hgrid, ht, [], rfl, .nil⟩

/-- **Undoing is exact** after any calls in any order, for every program, guard and source of
directions, with and without a limit. -/
theorem exact_calls (grid : Grid) (hgrid : grid.Rectangular) (t : Transcript) (ht : t.Unfailing)
    (guard : η) (dice : ρ) (division : DivisionPolicy) (limit : Option Nat)
    (cs : List Machine.Call) :
    ((start grid t guard dice division limit).calls cs).machine =
        ((Machine.start grid t guard dice (.kept { limit })).withDivision division).calls cs ∧
      ((start grid t guard dice division limit).calls cs).Exact := by
  refine ⟨machine_calls _ cs, ?_⟩
  exact ((sound_start hgrid ht guard dice division limit).calls cs).exact

/-- A program that reads a digit and places a character as many lines below. -/
def outgrowing : Grid := ⟨#[#['&', 'p']], 2, 1, 64⟩

/-- A transcript with an `a`, a digit and a line feed to be read. -/
def typed : Transcript := { console := { input := { pending := ['a', '7', '\n'] } } }

def opened : Watched EdgePolicy Xoshiro := start outgrowing typed .standard default .fatal (some 4)

/-- The snapshot before the digit was read has lost the character in front of the digit, and with
the second step undone the grid is still eight lines high. -/
theorem exact_calls_outgrowing :
    outgrowing.Rectangular ∧ typed.Unfailing ∧ (opened.calls [.step, .step, .unstep]).Exact ∧
      (opened.calls [.step, .step, .unstep]).saved.map (fun s => (s.input, s.left)) =
        [(['a', '7', '\n'], ['7', '\n'])] ∧
      (opened.calls [.step, .step, .unstep]).machine.state.grid.height = 8 := by
  have hgrid : outgrowing.Rectangular := by decide
  have ht : typed.Unfailing := ⟨rfl, rfl⟩
  refine ⟨hgrid, ht, (exact_calls outgrowing hgrid typed ht _ _ _ _ _).2, ?_⟩
  have hseek : Console.seekDigit .whenDry typed.console.input typed.console.sink [] =
      .done 7 { input := { pending := ['\n'] } } := by
    rw [Console.seekDigit_skip rfl rfl (by decide)]
    exact Console.seekDigit_done rfl rfl (by decide)
  have hread : opened.machine.Executes '&' (.readDigit 7) := by
    refine ⟨rfl, rfl, Reply.result_map_eq_ok.2 ⟨7, ?_, rfl⟩⟩
    exact congrArg Reply.result hseek
  have hleft : opened.machine.consulted '&' =
      ⟨{ console := { input := { pending := ['\n'] } } }, .standard, default⟩ :=
    congrArg (fun r : Reply Console Nat =>
      (⟨⟨r.state, ""⟩, .standard, default⟩ : Surroundings Transcript EdgePolicy Xoshiro)) hseek
  show opened.step.step.unstep.saved.map _ = _ ∧
    opened.step.step.unstep.machine.state.grid.height = 8
  rw [step_of_executed hread.step_eq.1, hread.step_eq.2, hleft]
  exact ⟨by decide +kernel, by decide +kernel⟩

end Watched

end Retrace
