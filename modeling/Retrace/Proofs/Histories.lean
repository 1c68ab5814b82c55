import Retrace.Journal

/-!
# Histories by whole groups

A journal notes changes one by one, but to a machine only whole groups matter. As long as nothing is
pending when a step begins, a history is its list of groups: a step adds one (`add`), an unstep
drops one (`dropNewest`), and a group that was dropped can be added again without a trace
(`add_dropNewest`), since a history that fits its limit forgets nothing then.
-/

namespace Retrace

/-- The newest elements of a list, the newest first, of which `limit` are kept. -/
def newest (limit : Option Nat) (l : List α) : List α :=
  match limit with
  | none => l
  | some n => l.take n

theorem newest_newest (limit : Option Nat) (l : List α) :
    newest limit (newest limit l) = newest limit l := by
  cases limit with
  | none => rfl
  | some n =>
    show (l.take n).take n = l.take n
    rw [List.take_take, Nat.min_self]

theorem take_newest {limit : Option Nat} {l : List α} {n : Nat}
    (h : n ≤ (newest limit l).length) : (newest limit l).take n = l.take n := by
  cases limit with
  | none => rfl
  | some k =>
    show (l.take k).take n = l.take n
    have hlength : n ≤ (l.take k).length := h
    rw [List.length_take] at hlength
    rw [List.take_take, Nat.min_eq_left (by omega)]

theorem newest_tail {limit : Option Nat} {l : List α} (h : newest limit l = l) :
    newest limit l.tail = l.tail := by
  cases limit with
  | none => rfl
  | some n =>
    have hlength : l.length ≤ n := by
      have hle := List.length_take_le n l
      rwa [show l.take n = l from h] at hle
    apply List.take_of_length_le
    rw [List.length_tail]
    omega

/-- Cutting two lists to the same length does not widen the gap between their lengths. -/
theorem length_newest_le {l : List α} {l' : List β} {n : Nat}
    (h : l.length ≤ l'.length + n) (limit : Option Nat) :
    (newest limit l).length ≤ (newest limit l').length + n := by
  cases limit with
  | none => exact h
  | some k =>
    show (l.take k).length ≤ (l'.take k).length + n
    rw [List.length_take, List.length_take]
    omega

/-- Unless the limit is zero, the group that was added last is kept. -/
theorem newest_cons {limit : Option Nat} (h : limit ≠ some 0) (a : α) (l : List α) :
    ∃ rest, newest limit (a :: l) = a :: rest := by
  match limit with
  | none => exact ⟨l, rfl⟩
  | some 0 => exact absurd rfl h
  | some (n + 1) => exact ⟨l.take n, rfl⟩

namespace History

def pending : History → List Change
  | off => []
  | kept j => j.pending

def groups : History → List (List Change)
  | off => []
  | kept j => j.groups

/-- A history with one more group, and without those that the limit does not allow. -/
def add (group : List Change) : History → History
  | off => off
  | kept j => kept { j with groups := newest j.limit (group :: j.groups) }

/-- Noting changes one by one stacks them up, so the last one noted is the first to be undone. -/
theorem record_all (changes : List Change) (j : Journal) :
    changes.foldl (fun h c => h.record c) (kept j) =
      kept { j with pending := changes.reverse ++ j.pending } := by
  induction changes generalizing j with
  | nil => rfl
  | cons c rest ih =>
    have hrest := ih (j.record c)
    simp only [Journal.record] at hrest
    rw [List.foldl_cons, record, Journal.record, hrest]
    simp

theorem record_all_off (changes : List Change) :
    changes.foldl (fun h c => h.record c) off = off := by
  induction changes with
  | nil => rfl
  | cons c rest ih => exact ih

/-- Where nothing is pending, the changes of a step become a group of their own. -/
theorem extend_eq_add {h : History} (hp : h.pending = []) (changes : List Change) :
    (h.extend changes).1 = h.add changes.reverse := by
  cases h with
  | off => rw [extend, record_all_off]; rfl
  | kept j =>
    -- What is noted comes in front of what was pending, and there the group begins.
    simp only [pending] at hp
    rw [extend, record_all, hp, List.append_nil]
    cases hl : j.limit with
    | none => simp [commit, Journal.commit, Journal.trim, add, newest, hp, hl]
    | some n => simp [commit, Journal.commit, Journal.trim, add, newest, hp, hl]

@[simp] theorem pending_add (group : List Change) (h : History) :
    (h.add group).pending = h.pending := by
  cases h <;> rfl

theorem pop?_eq_none {h : History} (hg : h.groups = []) : h.pop? = none := by
  cases h with
  | off => rfl
  | kept j =>
    simp only [groups] at hg
    simp [pop?, Journal.pop?, hg]

/-- The history whose newest group was `group` and whose other groups were `rest`, without it. -/
def dropNewest : History → History
  | off => off
  | kept j => kept { j with groups := j.groups.tail }

theorem pop?_eq_some {h : History} {group : List Change} {rest : List (List Change)}
    (hg : h.groups = group :: rest) : h.pop? = some (group, h.dropNewest) := by
  cases h with
  | off => cases hg
  | kept j =>
    simp only [groups] at hg
    simp [pop?, Journal.pop?, dropNewest, hg]

@[simp] theorem pending_dropNewest (h : History) : h.dropNewest.pending = h.pending := by
  cases h <;> rfl

@[simp] theorem groups_dropNewest (h : History) : h.dropNewest.groups = h.groups.tail := by
  cases h <;> rfl

@[simp] theorem limit?_dropNewest (h : History) : h.dropNewest.limit? = h.limit? := by
  cases h <;> rfl

/-- Of a history to which a group was added, the newest groups are that group and then the newest
from before. -/
theorem take_groups_add {group : List Change} {h : History} {n : Nat}
    (hn : n + 1 ≤ (h.add group).groups.length) :
    (h.add group).groups.take (n + 1) = group :: h.groups.take n := by
  cases h with
  | off => cases hn
  | kept j => exact take_newest hn

/-- Groups that begin like those of a history with one more begin with that group, and go on like
those of the history. -/
theorem eq_cons_of_take_add {group : List Change} {h : History} {groups : List (List Change)}
    {n : Nat} (hn : n + 1 ≤ groups.length)
    (htake : groups.take (n + 1) = (h.add group).groups.take (n + 1)) :
    ∃ rest, groups = group :: rest ∧ rest.take n = h.groups.take n := by
  have hlong : n + 1 ≤ (h.add group).groups.length := by
    have hlengths := congrArg List.length htake
    rw [List.length_take, List.length_take] at hlengths
    omega
  rw [take_groups_add hlong] at htake
  cases groups with
  | nil => cases htake
  | cons newest rest =>
    rw [List.take_succ_cons] at htake
    injection htake with hgroup hrest
    exact ⟨rest, by rw [hgroup], hrest⟩

def Fits (h : History) : Prop := newest h.limit? h.groups = h.groups

/-- However many groups there were, after a commit they fit. -/
theorem fits_add (group : List Change) (h : History) : (h.add group).Fits := by
  cases h with
  | off => rfl
  | kept j =>
    show newest j.limit (newest j.limit (group :: j.groups)) = newest j.limit (group :: j.groups)
    exact newest_newest j.limit _

theorem Fits.dropNewest {h : History} (hh : h.Fits) : h.dropNewest.Fits := by
  rw [Fits, limit?_dropNewest, groups_dropNewest]
  exact newest_tail hh

/-- A group that was dropped can be added again. -/
theorem add_dropNewest {h : History} (hh : h.Fits) {group : List Change}
    {rest : List (List Change)} (hg : h.groups = group :: rest) :
    h.dropNewest.add group = h := by
  cases h with
  | off => cases hg
  | kept j =>
    -- Only a history over its limit would forget a group here.
    have hkeep : newest j.limit j.groups = j.groups := hh
    simp only [groups] at hg
    simp only [History.dropNewest, add, hg, List.tail_cons]
    rw [← hg, hkeep]

theorem depth_eq (h : History) : h.depth = h.groups.length := by
  cases h <;> rfl

end History

end Retrace
