import Retrace.Channel.Transcript
import Retrace.Proofs.Calls

/-!
# What makes a history forget

A history with a limit forgets its oldest step when a new one is added, and an event tells of it. Of
all that a watched machine does, nothing else makes such an event: not the guard, not the channel,
not the undoing of a step (`Reply.Lossless`). So the events of a step tell what its history has
forgotten (`Machine.Executes.forgotten_step`), and together with what is kept this is what there was
before, and the new step (`History.depth_extend`).
-/

namespace Retrace

/-! ### Events of forgetting -/

namespace Event

def isEviction : Event → Bool
  | evicted _ => true
  | _ => false

def forgotten (events : List Event) : Nat := events.countP isEviction

@[simp] theorem forgotten_nil : forgotten [] = 0 := rfl

@[simp] theorem forgotten_append (first second : List Event) :
    forgotten (first ++ second) = forgotten first + forgotten second :=
  List.countP_append

@[simp] theorem forgotten_stepping (position : Point) (cell : Char) (mode : Mode)
    (events : List Event) :
    forgotten (.stepping position cell mode :: events) = forgotten events :=
  rfl

end Event

open Event (forgotten)

/-- Nothing was forgotten in an operation. -/
def Reply.Lossless (r : Reply σ α) : Prop := forgotten r.events = 0

namespace Reply.Lossless

variable {σ : Type u} {α β : Type v}

theorem done (a : α) (s : σ) : (Reply.done a s).Lossless := rfl

theorem fail (fault : Fault) (s : σ) : (Reply.fail fault s : Reply σ α).Lossless := rfl

/-- What is lost by two operations in turn is lost by one of them. -/
theorem andThen {r : Reply σ α} (h : r.Lossless) {next : α → σ → Reply σ β}
    (hnext : ∀ a s, (next a s).Lossless) : (r.andThen next).Lossless := by
  cases hr : r.result with
  | error fault =>
    rw [andThen_of_error hr]
    exact h
  | ok a =>
    rw [andThen_of_ok hr, Lossless, Event.forgotten_append, h, hnext a r.state]

end Reply.Lossless

/-! ### Operations that forget nothing -/

theorem Input.lossless_readLine (i : Input) : i.readLine.Lossless := by
  unfold readLine
  split
  · exact .done _ _
  · dsimp only
    split
    · exact .fail _ _
    · exact .done _ _

theorem Input.lossless_next (i : Input) : i.next.Lossless := by
  unfold next
  split
  · exact .done _ _
  · split
    · exact .fail _ _
    · exact .done _ _
    · exact .fail _ _

theorem Console.lossless_takeChar (rule : Prompting) (console : Console) :
    (console.takeChar rule).Lossless := by
  obtain ⟨input, sink⟩ := console
  rw [takeChar]
  split
  · exact .fail _ _
  · exact Input.lossless_next input

/-- By the recursion of the search: it fails to prompt, fails to read, finds a digit, or goes on. -/
theorem Console.lossless_seekDigit (rule : Prompting) (input : Input) (sink : Sink)
    (skipped : List Char) : (seekDigit rule input sink skipped).Lossless := by
  fun_induction seekDigit rule input sink skipped with
  | case1 => exact .fail _ _
  | case2 => exact .fail _ _
  | case3 => exact .done _ _
  | case4 => assumption

/-- A policy reports violations, but it forgets nothing. -/
theorem EdgePolicy.lossless_consult (access : Access) (edge : Edge) (p : Point)
    (policy : EdgePolicy) : (EdgeGuard.consult access edge p policy).Lossless := by
  simp only [EdgeGuard.consult]
  split <;> rfl

namespace Grid

theorem lossless_read (g : Grid) (p : Point) (policy : EdgePolicy) :
    (g.read p policy).Lossless := by
  unfold read
  split
  · exact .done _ _
  · exact EdgePolicy.lossless_consult _ _ _ _

theorem lossless_consultAll (access : Access) (p : Point) (edges : List Edge)
    (policy : EdgePolicy) : (consultAll access p edges policy).Lossless := by
  induction edges generalizing policy with
  | nil => exact .done _ _
  | cons edge rest ih => exact (EdgePolicy.lossless_consult _ _ _ _).andThen fun _ => ih

theorem lossless_landing (g : Grid) (p : Point) (policy : EdgePolicy) :
    (g.landing p policy).Lossless := by
  refine (lossless_consultAll _ _ _ _).andThen ?_
  intro _ policy
  split
  · exact .done _ _
  · split
    · exact .fail _ _
    · exact .done _ _

end Grid

/-- A transcript always takes back what it is asked to, and shows nothing of it. -/
theorem Transcript.revertAll_eq_done (changes : List Change) (t : Transcript) :
    ∃ t', Channel.revertAll changes t = .done () t' ∧ t'.console.sink = t.console.sink := by
  induction changes generalizing t with
  | nil => exact ⟨t, rfl, rfl⟩
  | cons c rest ih =>
    have hrevert : ∃ t', Channel.revert c t = .done () t' ∧ t'.console.sink = t.console.sink := by
      cases c <;> exact ⟨_, rfl, rfl⟩
    obtain ⟨t', ht', hsink'⟩ := hrevert
    obtain ⟨t'', ht'', hsink''⟩ := ih t'
    refine ⟨t'', ?_, hsink''.trans hsink'⟩
    simp only [Channel.revertAll, ht', Reply.done] at ht'' ⊢
    rw [ht'']
    rfl

namespace History

variable {h : History} {n : Nat}

/-- Noting changes never alters how much may be noted. -/
theorem limit?_extend (changes : List Change) (h : History) :
    (h.extend changes).1.limit? = h.limit? := by
  cases h with
  | off =>
    rw [extend, record_all_off]
    rfl
  | kept j =>
    rw [extend, record_all]
    rfl

/-- A history with a limit makes room by forgetting: a group is added, and of all groups some are
kept and the others are forgotten. -/
theorem depth_extend (hlimit : h.limit? = some n) (changes : List Change) :
    (h.extend changes).1.depth + forgotten (h.extend changes).2 = h.depth + 1 ∧
      (h.extend changes).1.depth ≤ n := by
  cases h with
  | off => cases hlimit
  | kept j =>
    change j.limit = some n at hlimit
    rw [extend, record_all]
    simp only [commit, Journal.commit, Journal.trim, hlimit, depth, Journal.depth, forgotten,
      List.length_take, List.length_cons, List.countP_replicate, Event.isEviction]
    simp only [if_true]
    omega

/-- Dropping the newest group of a history that has one makes it shallower by exactly one. -/
theorem depth_dropNewest {group : List Change} {rest : List (List Change)}
    (hg : h.groups = group :: rest) : h.dropNewest.depth + 1 = h.depth := by
  rw [depth_eq, depth_eq, groups_dropNewest, hg]
  rfl

end History

namespace Machine

variable {ρ : Type}

/-- A transcript takes back whatever was printed to it, so undoing a group always succeeds; it costs
one group, loses nothing, and shows nothing. -/
theorem unstep_of_transcript {η : Type} {m : Machine Transcript η ρ} {group : List Change}
    {rest : List (List Change)} (hg : m.history.groups = group :: rest) :
    m.unstep.result = .ok true ∧ m.unstep.state.history = m.history.dropNewest ∧
      m.unstep.Lossless ∧
      m.unstep.state.surroundings.channel.console.sink =
        m.surroundings.channel.console.sink := by
  obtain ⟨state, ⟨channel, guard, dice⟩, division, history⟩ := m
  obtain ⟨t, ht, hsink⟩ := Transcript.revertAll_eq_done group channel
  simp only [unstep, History.pop?_eq_some hg, ht]
  exact ⟨rfl, trivial, rfl, hsink⟩

theorem unstep_of_empty {η : Type} {m : Machine Transcript η ρ} (hg : m.history.groups = []) :
    m.unstep = .done false m := by
  obtain ⟨state, ⟨channel, guard, dice⟩, division, history⟩ := m
  simp only [unstep, History.pop?_eq_none hg]

variable [DirectionSource ρ]

theorem lossless_resolve (division : DivisionPolicy) (s : State) (i : Instruction)
    (around : Surroundings Transcript EdgePolicy ρ) :
    (resolve division s i around).Lossless := by
  obtain ⟨⟨console, output⟩, policy, dice⟩ := around
  cases i with
  | arith op =>
    simp only [resolve]
    split
    · exact .fail _ _
    · exact .done _ _
  | readChar => exact Console.lossless_takeChar _ _
  | readInt => exact Console.lossless_seekDigit _ _ _ _
  | grab => exact Grid.lossless_read _ _ _
  | place => exact Grid.lossless_landing _ _ _
  | _ => rfl

/-- Interpreting a character does not touch the history: only committing may forget. -/
theorem lossless_interpret (division : DivisionPolicy) (s : State) (c : Char)
    (around : Surroundings Transcript EdgePolicy ρ) :
    (interpret division s c around).Lossless := by
  unfold interpret
  split
  · exact .done _ _
  · exact lossless_resolve _ _ _ _

/-- Of all that a step does, only the end of it can make the history forget. -/
theorem Executes.forgotten_step {m : Machine Transcript EdgePolicy ρ} {c : Char} {deed : Deed}
    (h : m.Executes c deed) :
    forgotten m.step.events = forgotten (m.history.extend (m.state.perform deed).2).2 := by
  obtain ⟨state, around, division, history⟩ := m
  obtain ⟨hrun, hfetch, hinterpret⟩ := h
  simp only at hrun hfetch hinterpret
  have hfetched : (fetch state around).Lossless := Grid.lossless_read _ _ _
  have hinterpreted := lossless_interpret division state c (fetch state around).state
  simp only [step, hrun, Bool.not_true, Bool.false_eq_true, if_false]
  generalize fetch state around = r at *
  obtain ⟨result, around', events⟩ := r
  subst hfetch
  simp only at hinterpret hinterpreted ⊢
  generalize interpret division state c around' = r at *
  obtain ⟨result, around'', more⟩ := r
  subst hinterpret
  simp only [Reply.Lossless] at hfetched hinterpreted
  simp [hfetched, hinterpreted]

end Machine

end Retrace
