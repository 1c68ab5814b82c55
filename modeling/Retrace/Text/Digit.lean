/-!
# Decimal digits

Only the ten ASCII digits count, in programs and in input alike. `digit?` reads one and `digitChar`
writes one; each undoes the other (`digit?_digitChar`, `digitChar_of_digit?`).
-/

namespace Retrace.Text

def digit? (c : Char) : Option Nat := if c.isDigit then some (c.toNat - '0'.toNat) else none

/-- The digit of a number, which is reduced modulo ten. -/
def digitChar (d : Nat) : Char := (d % 10).digitChar

theorem digit?_eq_none_iff {c : Char} : digit? c = none ↔ c.isDigit = false := by
  simp [digit?]

theorem digit?_of_isDigit {c : Char} (h : c.isDigit = true) :
    digit? c = some (c.toNat - '0'.toNat) := if_pos h

theorem isDigit_of_digit? {c : Char} {d : Nat} (h : digit? c = some d) :
    c.isDigit = true ∧ d = c.toNat - '0'.toNat := by
  unfold digit? at h
  split at h
  · next hc => exact ⟨hc, (Option.some.inj h).symm⟩
  · cases h

/-- Only the last decimal place of a number is spelled. -/
theorem digitChar_eq (d : Nat) : digitChar d = Char.ofNat ('0'.toNat + d % 10) := by
  have small : ∀ n : Fin 10, digitChar n = Char.ofNat ('0'.toNat + n) := by decide
  simpa [digitChar] using small ⟨d % 10, Nat.mod_lt d (by decide)⟩

@[simp] theorem digit?_digitChar (d : Nat) : digit? (digitChar d) = some (d % 10) := by
  have small : ∀ n : Fin 10, digit? (digitChar n) = some n.val := by decide
  simpa [digitChar] using small ⟨d % 10, Nat.mod_lt d (by decide)⟩

/-- The digits are the characters from 48 to 57. -/
theorem digit?_eq_some_iff {c : Char} {d : Nat} :
    digit? c = some d ↔ d < 10 ∧ c.toNat = 48 + d := by
  have bounds : c.isDigit = true ↔ 48 ≤ c.toNat ∧ c.toNat ≤ 57 := by
    simp [Char.isDigit, UInt32.le_iff_toNat_le]
  simp only [digit?, Option.ite_none_right_eq_some, Option.some.injEq, bounds]
  simp
  omega

/-- Putting a digit back restores the character that it was read from. -/
theorem digitChar_of_digit? {c : Char} {d : Nat} (h : digit? c = some d) : digitChar d = c := by
  obtain ⟨small, code⟩ := digit?_eq_some_iff.1 h
  have hcode : '0'.toNat + d % 10 = c.toNat := by
    rw [Nat.mod_eq_of_lt small, code]
    rfl
  rw [digitChar_eq, hcode, Char.ofNat_toNat]

end Retrace.Text
