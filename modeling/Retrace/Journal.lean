import Retrace.Change

/-!
# Histories

The changes of a step are noted one by one and then committed together as a group, so that whole
steps are undone. A `Journal` keeps the committed groups, the newest first, and in each group the
newest change first: that is the order in which they have to be reverted. A journal with a limit
forgets its oldest groups.

A machine may also keep no history at all; `History` has both.
-/

namespace Retrace

/-- Committed groups of changes and the changes noted since, everything newest first. -/
structure Journal where
  groups : List (List Change) := []
  pending : List Change := []
  limit : Option Nat := none
  deriving DecidableEq, Repr, Inhabited

namespace Journal

def unbounded : Journal := {}

def bounded (limit : Nat) : Journal := { limit := some limit }

def depth (j : Journal) : Nat := j.groups.length

def record (c : Change) (j : Journal) : Journal := { j with pending := c :: j.pending }

/-- Keeps the newest groups that the limit allows, with an event for each group forgotten. -/
def trim (limit : Option Nat) (groups : List (List Change)) : List (List Change) × List Event :=
  match limit with
  | none => (groups, [])
  | some n => (groups.take n, List.replicate (groups.length - n) (.evicted n))

/-- Makes a group of the changes noted since the last commit, even if there are none. -/
def commit (j : Journal) : Journal × List Event :=
  match trim j.limit (j.pending :: j.groups) with
  | (groups, events) => ({ groups, pending := [], limit := j.limit }, events)

def pop? (j : Journal) : Option (List Change × Journal) :=
  match j.groups with
  | [] => none
  | group :: rest => some (group, { j with groups := rest })

@[simp] theorem pending_commit (j : Journal) : j.commit.1.pending = [] := rfl

@[simp] theorem limit_commit (j : Journal) : j.commit.1.limit = j.limit := rfl

@[simp] theorem limit_record (c : Change) (j : Journal) : (j.record c).limit = j.limit := rfl

@[simp] theorem groups_record (c : Change) (j : Journal) : (j.record c).groups = j.groups := rfl

end Journal

inductive History where
  | off
  | kept (journal : Journal)
  deriving DecidableEq, Repr

namespace History

instance : Inhabited History := ⟨off⟩

def depth : History → Nat
  | off => 0
  | kept j => j.depth

/-- The number of steps that are remembered at most, if there is a limit. -/
def limit? : History → Option Nat
  | off => none
  | kept j => j.limit

def record (c : Change) : History → History
  | off => off
  | kept j => kept (j.record c)

/-- Closes the group of a step. -/
def commit : History → History × List Event
  | off => (off, [])
  | kept j =>
    match j.commit with
    | (j, events) => (kept j, events)

/-- Takes the changes of the newest step, the newest change first. -/
def pop? : History → Option (List Change × History)
  | off => none
  | kept j => j.pop?.map fun (group, j) => (group, kept j)

/-- Notes the changes of a step, given oldest first, and closes their group. -/
def extend (changes : List Change) (h : History) : History × List Event :=
  (changes.foldl (fun h c => h.record c) h).commit

end History

end Retrace
