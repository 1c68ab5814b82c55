import Retrace.Event

/-!
# Replies

An operation on a state of type `σ` answers with a `Reply`: a result or a fault, the state that it
leaves behind, and the events that it made, oldest first. The state is there in both cases, because
an operation that fails may still have used up input or written part of a text.

Operations are sequenced by `andThen`, which stops at the first fault and joins the events, and an
operation on a part is lifted to the whole by `within`.
-/

namespace Retrace

/-- Results can be compared where their values can. -/
instance [DecidableEq α] : DecidableEq (Except Fault α)
  | .ok a, .ok b => decidable_of_iff (a = b) (by simp)
  | .error e, .error e' => decidable_of_iff (e = e') (by simp)
  | .ok _, .error _ => isFalse (by simp)
  | .error _, .ok _ => isFalse (by simp)

/-- The answer of an operation: its result, the state afterwards, the events in between. -/
structure Reply (σ : Type u) (α : Type v) where
  result : Except Fault α
  state : σ
  events : List Event := []

namespace Reply

variable {σ τ : Type u} {α β : Type v}

def done (a : α) (s : σ) : Reply σ α := ⟨.ok a, s, []⟩

def fail (fault : Fault) (s : σ) : Reply σ α := ⟨.error fault, s, []⟩

/-- Goes on with `next` where the first operation succeeded. -/
def andThen (r : Reply σ α) (next : α → σ → Reply σ β) : Reply σ β :=
  match r with
  | ⟨.error fault, s, events⟩ => ⟨.error fault, s, events⟩
  | ⟨.ok a, s, events⟩ =>
    match next a s with
    | ⟨result, s', more⟩ => ⟨result, s', events ++ more⟩

/-- Takes an answer about a part for one about the whole, `put` placing the part's state. -/
def within (r : Reply σ α) (put : σ → τ) : Reply τ α := ⟨r.result, put r.state, r.events⟩

def map (f : α → β) (r : Reply σ α) : Reply σ β := ⟨r.result.map f, r.state, r.events⟩

@[simp] theorem result_done (a : α) (s : σ) : (done a s).result = .ok a := rfl

@[simp] theorem state_done (a : α) (s : σ) : (done a s).state = s := rfl

@[simp] theorem events_done (a : α) (s : σ) : (done a s).events = [] := rfl

@[simp] theorem result_fail (e : Fault) (s : σ) : (fail e s : Reply σ α).result = .error e := rfl

@[simp] theorem state_fail (e : Fault) (s : σ) : (fail e s : Reply σ α).state = s := rfl

@[simp] theorem events_fail (e : Fault) (s : σ) : (fail e s : Reply σ α).events = [] := rfl

@[simp] theorem result_within (r : Reply σ α) (put : σ → τ) :
    (r.within put).result = r.result := rfl

@[simp] theorem state_within (r : Reply σ α) (put : σ → τ) :
    (r.within put).state = put r.state := rfl

@[simp] theorem events_within (r : Reply σ α) (put : σ → τ) :
    (r.within put).events = r.events := rfl

@[simp] theorem result_map (f : α → β) (r : Reply σ α) :
    (r.map f).result = r.result.map f := rfl

@[simp] theorem state_map (f : α → β) (r : Reply σ α) : (r.map f).state = r.state := rfl

@[simp] theorem done_andThen (a : α) (s : σ) (next : α → σ → Reply σ β) :
    (done a s).andThen next = next a s := rfl

@[simp] theorem fail_andThen (e : Fault) (s : σ) (next : α → σ → Reply σ β) :
    (fail e s).andThen next = fail e s := rfl

/-- Two operations in sequence succeed iff the first does and then the second. -/
theorem result_andThen_eq_ok {r : Reply σ α} {next : α → σ → Reply σ β} {b : β} :
    (r.andThen next).result = .ok b ↔
      ∃ a, r.result = .ok a ∧ (next a r.state).result = .ok b := by
  obtain ⟨_ | a, s, events⟩ := r
  · simp [andThen]
  · simp [andThen]

/-- A turned result is there iff the result was. -/
theorem result_map_eq_ok {f : α → β} {r : Reply σ α} {b : β} :
    (r.map f).result = .ok b ↔ ∃ a, r.result = .ok a ∧ f a = b := by
  obtain ⟨_ | a, s, events⟩ := r
  · simp [map, Except.map]
  · simp [map, Except.map]

/-- Two operations in sequence fail iff the first does, or else the second. -/
theorem result_andThen_eq_error {r : Reply σ α} {next : α → σ → Reply σ β} {fault : Fault} :
    (r.andThen next).result = .error fault ↔
      r.result = .error fault ∨ ∃ a, r.result = .ok a ∧ (next a r.state).result = .error fault := by
  obtain ⟨_ | a, s, events⟩ := r
  · simp [andThen]
  · simp [andThen]

/-- A turned result fails iff the result did. -/
theorem result_map_eq_error {f : α → β} {r : Reply σ α} {fault : Fault} :
    (r.map f).result = .error fault ↔ r.result = .error fault := by
  obtain ⟨_ | a, s, events⟩ := r
  · simp [map, Except.map]
  · simp [map, Except.map]

theorem andThen_of_ok {r : Reply σ α} {a : α} (h : r.result = .ok a) (next : α → σ → Reply σ β) :
    r.andThen next = ⟨(next a r.state).result, (next a r.state).state,
      r.events ++ (next a r.state).events⟩ := by
  obtain ⟨result, s, events⟩ := r
  cases h
  rfl

/-- After a fault nothing more is done, but what was done is not taken back. -/
theorem andThen_of_error {r : Reply σ α} {fault : Fault} (h : r.result = .error fault)
    (next : α → σ → Reply σ β) : r.andThen next = ⟨.error fault, r.state, r.events⟩ := by
  obtain ⟨result, s, events⟩ := r
  cases h
  rfl

theorem andThen_assoc {γ : Type v} (r : Reply σ α) (next : α → σ → Reply σ β)
    (last : β → σ → Reply σ γ) :
    (r.andThen next).andThen last = r.andThen fun a s => (next a s).andThen last := by
  obtain ⟨_ | a, s, events⟩ := r
  · rfl
  · simp only [andThen]
    obtain ⟨_ | b, s', more⟩ := next a s
    · rfl
    · simp only [List.append_assoc]

@[simp] theorem andThen_done (r : Reply σ α) : (r.andThen fun a s => .done a s) = r := by
  obtain ⟨_ | a, s, events⟩ := r
  · rfl
  · simp [andThen, done]

/-- What follows an operation matters only for the answer that it gave. -/
theorem andThen_congr {r : Reply σ α} {next next' : α → σ → Reply σ β}
    (h : ∀ a, r.result = .ok a → next a r.state = next' a r.state) :
    r.andThen next = r.andThen next' := by
  obtain ⟨_ | a, s, events⟩ := r
  · rfl
  · rw [andThen, andThen, h a rfl]

/-- Adapting an answer can be left to the operation that receives it. -/
theorem map_andThen {γ : Type v} (r : Reply σ α) (f : α → β) (next : β → σ → Reply σ γ) :
    (r.map f).andThen next = r.andThen fun a s => next (f a) s := by
  obtain ⟨_ | a, s, events⟩ := r
  · rfl
  · rfl

theorem andThen_map {γ : Type v} (r : Reply σ α) (next : α → σ → Reply σ β) (f : β → γ) :
    (r.andThen next).map f = r.andThen fun a s => (next a s).map f := by
  obtain ⟨_ | a, s, events⟩ := r
  · rfl
  · rfl

theorem map_map {γ : Type v} (r : Reply σ α) (f : α → β) (g : β → γ) :
    (r.map f).map g = r.map fun a => g (f a) := by
  obtain ⟨_ | a, s, events⟩ := r
  · rfl
  · rfl

end Reply

end Retrace
