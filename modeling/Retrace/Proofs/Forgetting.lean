import Mathlib.Data.List.Induction
import Retrace.Proofs.Histories

/-!
# A limit only forgets

A journal with a limit is used side by side with one that has none, by the same calls. The first
keeps the newest part of what the second keeps (`NewestPart`): it never has a group that the other
does not have, it never has them in another order, and a group that both hand out is the same one.
A pop that only the journal without a limit can serve does no harm, because by then the other has
nothing left.

What a group is, is said by the calls alone (`Committed`): it holds what was recorded between two
neighbouring commits. And no group gets lost without a trace (`depth_call`): whatever was committed
is still there, or was handed out, or was reported as forgotten.
-/

namespace Retrace.Journal

/-! ### Using a journal -/

inductive Call where
  | record (c : Change)
  | commit
  | pop
  deriving DecidableEq, Repr

/-- The journal after a call, whatever the call answered. -/
def call (j : Journal) : Call → Journal
  | .record c => j.record c
  | .commit => j.commit.1
  | .pop =>
    match j.pop? with
    | none => j
    | some (_, rest) => rest

/-- The group that a call hands out. -/
def answer? (j : Journal) : Call → Option (List Change)
  | .pop => j.pop?.map Prod.fst
  | _ => none

def reports (j : Journal) : Call → List Event
  | .commit => j.commit.2
  | _ => []

def calls (j : Journal) (cs : List Call) : Journal := cs.foldl call j

/-- All that comes out of some calls, `out` telling what comes out of each. -/
def gathered (out : Journal → Call → List α) (j : Journal) : List Call → List α
  | [] => []
  | c :: cs => out j c ++ gathered out (j.call c) cs

/-- The groups that some calls hand out, the first one first. -/
def popped : Journal → List Call → List (List Change) := gathered fun j c => (j.answer? c).toList

def events : Journal → List Call → List Event := gathered reports

theorem calls_snoc (j : Journal) (cs : List Call) (c : Call) :
    j.calls (cs ++ [c]) = (j.calls cs).call c := by
  rw [calls, List.foldl_append]
  rfl

theorem gathered_snoc (out : Journal → Call → List α) (j : Journal) (cs : List Call) (c : Call) :
    gathered out j (cs ++ [c]) = gathered out j cs ++ out (j.calls cs) c := by
  induction cs generalizing j with
  | nil => simp [gathered, calls]
  | cons first cs ih =>
    have hrest := ih (j.call first)
    rw [List.cons_append, gathered, gathered, hrest, List.append_assoc]
    rfl

/-! ### What one call does -/

/-- A commit puts the pending changes in front and keeps the newest groups that the limit allows. -/
theorem groups_commit (j : Journal) :
    j.commit.1.groups = newest j.limit (j.pending :: j.groups) := by
  simp only [commit, trim, newest]
  cases j.limit with
  | none => rfl
  | some n => rfl

theorem groups_pop (j : Journal) : (j.call .pop).groups = j.groups.tail := by
  simp only [call, pop?]
  cases hg : j.groups with
  | nil => exact hg
  | cons group rest => rfl

theorem pending_pop (j : Journal) : (j.call .pop).pending = j.pending := by
  simp only [call, pop?]
  cases j.groups with
  | nil => rfl
  | cons group rest => rfl

theorem answer?_pop (j : Journal) : j.answer? .pop = j.groups.head? := by
  simp only [answer?, pop?]
  cases j.groups with
  | nil => rfl
  | cons group rest => rfl

@[simp] theorem limit_call (j : Journal) (c : Call) : (j.call c).limit = j.limit := by
  cases c with
  | record c => rfl
  | commit => rfl
  | pop =>
    simp only [call, pop?]
    cases j.groups with
    | nil => rfl
    | cons group rest => rfl

theorem limit_calls (j : Journal) (cs : List Call) : (j.calls cs).limit = j.limit := by
  induction cs generalizing j with
  | nil => rfl
  | cons c cs ih => exact (ih (j.call c)).trans (limit_call j c)

/-- **No group gets lost**: there is one more after a commit, and those that are no longer there
were handed out or reported. -/
theorem depth_call (j : Journal) (c : Call) :
    [c].count .commit + j.depth =
      (j.call c).depth + (j.answer? c).toList.length + (j.reports c).length := by
  cases c with
  | record c => simp [call, record, answer?, reports, depth]
  | commit =>
    simp only [call, answer?, reports, depth, commit, trim]
    cases j.limit with
    | none => simp [Nat.add_comm]
    | some n =>
      simp only [List.count_singleton_self, List.length_take, List.length_cons,
        Option.toList_none, List.length_nil, List.length_replicate]
      omega
  | pop =>
    rw [answer?_pop, depth, depth, groups_pop]
    cases j.groups with
    | nil => rfl
    | cons group rest => simp [reports]

/-- The next commit forgets nothing, or it forgets the oldest group and reports it. -/
def ForgetsOneAtMost (j : Journal) (n : Nat) : Prop :=
  j.commit.1.groups = j.pending :: j.groups ∧ j.commit.2 = [] ∨
    ∃ oldest, j.commit.1.groups ++ [oldest] = j.pending :: j.groups ∧ j.commit.2 = [.evicted n]

/-- A journal within its limit is at most one group over it after a commit, so one group is all that
a commit can forget. -/
theorem forgetsOneAtMost {j : Journal} {n : Nat} (hlimit : j.limit = some n)
    (hdepth : j.depth ≤ n) : j.ForgetsOneAtMost n := by
  have hreports : j.commit.2 = List.replicate (j.depth + 1 - n) (.evicted n) := by
    simp [commit, trim, hlimit, depth]
  have hgroups : j.commit.1.groups = (j.pending :: j.groups).take n := by
    rw [groups_commit, hlimit]
    rfl
  rw [ForgetsOneAtMost, hreports, hgroups]
  by_cases hroom : j.depth + 1 ≤ n
  · left
    rw [Nat.sub_eq_zero_of_le hroom]
    exact ⟨List.take_of_length_le hroom, rfl⟩
  · right
    have hfull : n = j.depth := by omega
    refine ⟨(j.pending :: j.groups).getLast (List.cons_ne_nil _ _), ?_, ?_⟩
    · have hall := List.take_append_getLast (j.pending :: j.groups) (List.cons_ne_nil _ _)
      rw [hfull]
      exact hall
    · rw [show j.depth + 1 - n = 1 by omega]
      rfl

theorem depth_le_call {j : Journal} {n : Nat} (hlimit : j.limit = some n) (hdepth : j.depth ≤ n)
    (c : Call) : (j.call c).depth ≤ n := by
  cases c with
  | record c => exact hdepth
  | commit =>
    show j.commit.1.groups.length ≤ n
    rw [groups_commit, hlimit]
    exact List.length_take_le _ _
  | pop =>
    rw [depth, groups_pop, List.length_tail]
    exact Nat.le_trans (Nat.sub_le _ _) hdepth

/-- The only thing a journal ever reports is that it has forgotten a group, and it names its
limit. -/
theorem eq_evicted_of_mem_reports {j : Journal} {n : Nat} (hlimit : j.limit = some n) {c : Call}
    {e : Event} (he : e ∈ j.reports c) : e = .evicted n := by
  cases c with
  | record c => cases he
  | commit =>
    simp only [reports, commit, trim, hlimit] at he
    exact List.eq_of_mem_replicate he
  | pop => cases he

/-! ### Side by side -/

/-- The same is pending in both journals, and the groups of the first are the newest of the second.
Groups are listed newest first, so these come first. -/
structure NewestPart (j k : Journal) : Prop where
  groups : j.groups <+: k.groups
  pending : j.pending = k.pending

/-- The step of the simulation: whatever is called, the bounded journal goes on holding the newest
part of what the unbounded one holds. -/
theorem NewestPart.call {j k : Journal} (h : j.NewestPart k) (hk : k.limit = none) (c : Call) :
    (j.call c).NewestPart (k.call c) := by
  obtain ⟨hgroups, hpending⟩ := h
  cases c with
  | record c => exact ⟨hgroups, congrArg (c :: ·) hpending⟩
  | commit =>
    refine ⟨?_, rfl⟩
    show j.commit.1.groups <+: k.commit.1.groups
    rw [groups_commit, groups_commit, hk, hpending]
    have hall : k.pending :: j.groups <+: k.pending :: k.groups :=
      (List.prefix_cons_inj _).2 hgroups
    cases j.limit with
    | none => exact hall
    | some n => exact (List.take_prefix n _).trans hall
  | pop =>
    refine ⟨?_, by rw [pending_pop, pending_pop, hpending]⟩
    rw [groups_pop, groups_pop]
    obtain ⟨older, hk⟩ := hgroups
    rw [← hk]
    cases j.groups with
    -- The pop is served by `k` alone, and `j` stays as it is.
    | nil => exact List.nil_prefix
    | cons group rest => exact List.prefix_append rest older

/-- A group that the bounded journal still hands out is the one that the unbounded journal hands
out. -/
theorem NewestPart.answer? {j k : Journal} (h : j.NewestPart k) {group : List Change}
    (hgroup : j.answer? .pop = some group) : k.answer? .pop = some group := by
  rw [answer?_pop] at hgroup ⊢
  obtain ⟨rest, hj⟩ := List.head?_eq_some_iff.1 hgroup
  obtain ⟨older, hk⟩ := h.groups
  rw [← hk, hj]
  rfl

/-- Two journals that are called in the same way differ only by what the bounded one has
forgotten. -/
theorem newestPart_calls (n : Nat) (cs : List Call) :
    ((bounded n).calls cs).NewestPart (unbounded.calls cs) := by
  induction cs using List.reverseRecOn with
  | nil => exact ⟨List.prefix_rfl, rfl⟩
  | append_singleton cs c ih =>
    rw [calls_snoc, calls_snoc]
    exact ih.call (limit_calls unbounded cs) c

theorem depth_calls_le (n : Nat) (cs : List Call) : ((bounded n).calls cs).depth ≤ n := by
  induction cs using List.reverseRecOn with
  | nil => exact Nat.zero_le n
  | append_singleton cs c ih =>
    rw [calls_snoc]
    exact depth_le_call (limit_calls _ cs) ih c

/-- Groups are conserved: each one that was committed is still held, has been popped, or has been
reported as forgotten. -/
theorem count_commit (j : Journal) (cs : List Call) :
    cs.count .commit + j.depth =
      (j.calls cs).depth + (j.popped cs).length + (j.events cs).length := by
  induction cs using List.reverseRecOn with
  | nil => simp [popped, events, gathered, calls]
  | append_singleton cs c ih =>
    have hcall := depth_call (j.calls cs) c
    rw [popped, events] at ih
    rw [calls_snoc, popped, events, gathered_snoc, gathered_snoc, List.length_append,
      List.length_append, List.count_append]
    omega

theorem eq_evicted_of_mem_events {n : Nat} {cs : List Call} {e : Event}
    (he : e ∈ (bounded n).events cs) : e = .evicted n := by
  induction cs using List.reverseRecOn with
  | nil => cases he
  | append_singleton cs c ih =>
    rw [events, gathered_snoc, List.mem_append] at he
    rcases he with he | he
    · exact ih he
    · exact eq_evicted_of_mem_reports (limit_calls _ cs) he

theorem events_unbounded (cs : List Call) : unbounded.events cs = [] := by
  induction cs using List.reverseRecOn with
  | nil => rfl
  | append_singleton cs c ih =>
    have hlimit : (unbounded.calls cs).limit = none := limit_calls unbounded cs
    have hreports : (unbounded.calls cs).reports c = [] := by
      cases c with
      | record c => rfl
      | commit => simp only [reports, commit, trim, hlimit]
      | pop => rfl
    rw [events] at ih
    rw [events, gathered_snoc, ih, hreports]
    rfl

/-! ### Groups by the calls that made them -/

def Call.change? : Call → Option Change
  | .record c => some c
  | _ => none

/-- What was recorded by the calls `between`, the newest first, where these are all the calls since
the commit at the end of `before`, or since the start. -/
structure Noted (before between : List Call) (changes : List Change) : Prop where
  since : before = [] ∨ ∃ earlier, before = earlier ++ [.commit]
  uncut : .commit ∉ between
  changes : changes = (between.filterMap Call.change?).reverse

/-- The group was made by a commit among `cs`: it is what had been noted when that commit came.
Since then there have never been more pops than commits, and at the end there are `later` commits
more. -/
inductive Committed (cs : List Call) (later : Nat) (group : List Change) : Prop where
  | intro (before between after : List Call)
      (calls : cs = before ++ between ++ .commit :: after)
      (noted : Noted before between group)
      (kept : ∀ first, first <+: after → first.count .pop ≤ first.count .commit)
      (later : after.count .commit = after.count .pop + later)

/-- A call that does not commit extends the stretch since the last commit, and the change it notes,
if any, comes to stand in front. -/
theorem Noted.snoc {before between : List Call} {changes : List Change} {c : Call}
    (h : Noted before between changes) (hc : c ≠ .commit) :
    Noted before (between ++ [c]) (c.change?.toList ++ changes) := by
  refine ⟨h.since, ?_, ?_⟩
  · intro hmem
    rcases List.mem_append.1 hmem with hmem | hmem
    · exact h.uncut hmem
    · exact hc (List.mem_singleton.1 hmem).symm
  · rw [List.filterMap_append, List.reverse_append, ← h.changes]
    cases c <;> rfl

/-- A call that leaves a group in the journal leaves it committed. Its place among the groups is
`place` after the call. -/
theorem Committed.snoc {cs : List Call} {later place : Nat} {group : List Change} {c : Call}
    (h : Committed cs later group)
    (hplace : later + [c].count .commit = place + [c].count .pop) :
    Committed (cs ++ [c]) place group := by
  obtain ⟨before, between, after, hcalls, hnoted, hkept, hlater⟩ := h
  refine ⟨before, between, after ++ [c], by simp [hcalls], hnoted, ?_, ?_⟩
  · intro first hfirst
    rcases List.prefix_concat_iff.1 hfirst with rfl | hfirst
    · rw [List.count_append, List.count_append]
      omega
    · exact hkept first hfirst
  · rw [List.count_append, List.count_append]
    omega

/-- What a journal holds, told by the calls that were made on it. -/
structure Holds (cs : List Call) (j : Journal) : Prop where
  pending : ∃ before between, cs = before ++ between ∧ Noted before between j.pending
  groups : ∀ (i : Nat) (group : List Change), j.groups[i]? = some group → Committed cs i group

/-- Every group of an unbounded journal goes back to one commit among the calls, and this remains so
after one more call. -/
theorem Holds.call {cs : List Call} {j : Journal} (h : Holds cs j) (hj : j.limit = none)
    (c : Call) : Holds (cs ++ [c]) (j.call c) := by
  obtain ⟨before, between, hcalls, hnoted⟩ := h.pending
  cases c with
  | record c =>
    refine ⟨⟨before, between ++ [.record c], by simp [hcalls], hnoted.snoc (by simp)⟩, ?_⟩
    intro i group hgroup
    exact (h.groups i group hgroup).snoc rfl
  | commit =>
    refine ⟨⟨cs ++ [.commit], [], by simp, .inr ⟨cs, rfl⟩, by simp, rfl⟩, ?_⟩
    intro i group hgroup
    have hgroups : (j.call .commit).groups = j.pending :: j.groups := by
      show j.commit.1.groups = _
      rw [groups_commit, hj]
      rfl
    rw [hgroups] at hgroup
    cases i with
    | zero =>
      -- The newest group is what was pending, and nothing has been called since.
      injection hgroup with hgroup
      subst hgroup
      refine ⟨before, between, [], by simp [hcalls], hnoted, ?_, rfl⟩
      intro first hfirst
      rw [List.prefix_nil.1 hfirst]
      exact Nat.le_refl 0
    | succ i => exact (h.groups i group hgroup).snoc rfl
  | pop =>
    refine ⟨⟨before, between ++ [.pop], by simp [hcalls], ?_⟩, ?_⟩
    · rw [pending_pop]
      exact hnoted.snoc (by simp)
    · intro i group hgroup
      rw [groups_pop, List.getElem?_tail] at hgroup
      exact (h.groups (i + 1) group hgroup).snoc rfl

theorem holds_calls (cs : List Call) : Holds cs (unbounded.calls cs) := by
  induction cs using List.reverseRecOn with
  | nil =>
    refine ⟨⟨[], [], rfl, .inl rfl, by simp, rfl⟩, ?_⟩
    intro i group hgroup
    cases hgroup
  | append_singleton cs c ih =>
    rw [calls_snoc]
    exact ih.call (limit_calls unbounded cs) c

/-! ### The comparison -/

/-- How a journal with the limit `n` compares, after some calls, with one that has no limit. -/
structure OnlyForgets (n : Nat) (cs : List Call) : Prop where
  newestPart : ((bounded n).calls cs).NewestPart (unbounded.calls cs)
  depth_le : ((bounded n).calls cs).depth ≤ n
  /-- A group that is handed out is handed out by both, and it is that of the newest commit that was
  not taken back. -/
  answer? (group : List Change) : ((bounded n).calls cs).answer? .pop = some group →
    (unbounded.calls cs).answer? .pop = some group ∧ Committed cs 0 group
  commit : ((bounded n).calls cs).ForgetsOneAtMost n
  /-- Every commit is accounted for: by a group that is there, that was popped, or was forgotten. -/
  conserved : cs.count .commit = ((bounded n).calls cs).depth + ((bounded n).popped cs).length +
    ((bounded n).events cs).count (.evicted n)
  /-- Without a limit nothing is forgotten. -/
  complete : cs.count .commit = (unbounded.calls cs).depth + (unbounded.popped cs).length ∧
    unbounded.events cs = []

/-- **A limit only forgets**, and it forgets the oldest groups, whatever the limit is and however
records, commits and pops follow each other. -/
theorem onlyForgets_calls (n : Nat) (cs : List Call) : OnlyForgets n cs := by
  have hnewest := newestPart_calls n cs
  have hdepth := depth_calls_le n cs
  have hone := forgetsOneAtMost (limit_calls _ cs) hdepth
  refine ⟨hnewest, hdepth, ?_, hone, ?_, ?_, events_unbounded cs⟩
  · intro group hgroup
    have hboth := hnewest.answer? hgroup
    refine ⟨hboth, (holds_calls cs).groups 0 group ?_⟩
    rw [← List.head?_eq_getElem?, ← answer?_pop]
    exact hboth
  · have hcount := count_commit (bounded n) cs
    have hevicted : ((bounded n).events cs).count (.evicted n) = ((bounded n).events cs).length :=
      List.count_eq_length.2 fun e he => (eq_evicted_of_mem_events he).symm
    rw [hevicted]
    exact hcount
  · have hcount := count_commit unbounded cs
    rw [events_unbounded] at hcount
    exact hcount

/-- With room for one group, the second pop is served only where there is no limit. -/
example :
    let cs : List Call := [.record .pushed, .commit, .commit, .pop, .pop, .commit]
    (bounded 1).popped cs = [[]] ∧ unbounded.popped cs = [[], [.pushed]] ∧
      (bounded 1).events cs = [.evicted 1] := by
  decide

end Retrace.Journal
