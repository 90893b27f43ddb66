import Mathlib.Data.Nat.Basic
import Mathlib.Tactic.Ring
import Mathlib.Tactic.SplitIfs

/-! # Decimal numbers of a fixed width

`fixedDigits w n` writes a number with exactly `w` digits, as `%0wd` does when they suffice, and
`parseDigits` reads a string of digits; `parseDigits_fixedDigits` is the round trip. -/

namespace Namecoin.Lib.Decimal

/-- The digit of a number below ten. -/
def digitChar (n : ℕ) : Char := "0123456789".toList.getD n '0'

/-- The number of a digit. -/
def charDigit (c : Char) : Option ℕ :=
  if '0' ≤ c ∧ c ≤ '9' then some (c.toNat - '0'.toNat) else none

theorem charDigit_digitChar {n : ℕ} (h : n < 10) : charDigit (digitChar n) = some n := by
  have : ∀ m : Fin 10, charDigit (digitChar m) = some m.val := by decide +kernel
  exact this ⟨n, h⟩

/-- The last `w` digits of a number. -/
def fixedDigits : ℕ → ℕ → List Char
  | 0, _ => []
  | w + 1, n => fixedDigits w (n / 10) ++ [digitChar (n % 10)]

/-- Read digits, after those read so far. -/
def parseDigits : ℕ → List Char → Option ℕ
  | acc, [] => some acc
  | acc, c :: cs => match charDigit c with
    | none => none
    | some d => parseDigits (10 * acc + d) cs

theorem parseDigits_append : ∀ (cs : List Char) (ds : List Char) (acc : ℕ),
    parseDigits acc (cs ++ ds) = (parseDigits acc cs).bind fun a => parseDigits a ds
  | [], ds, acc => rfl
  | c :: cs, ds, acc => by
    rw [List.cons_append, parseDigits, parseDigits]
    cases charDigit c with
    | none => rfl
    | some d => exact parseDigits_append cs ds _

theorem parseDigits_fixed (acc : ℕ) : ∀ w n : ℕ,
    parseDigits acc (fixedDigits w n) = some (acc * 10 ^ w + n % 10 ^ w)
  | 0, n => by simp [fixedDigits, parseDigits, Nat.mod_one]
  | w + 1, n => by
    rw [fixedDigits, parseDigits_append, parseDigits_fixed acc w (n / 10), Option.bind_some, parseDigits,
      charDigit_digitChar (Nat.mod_lt n (by decide))]
    have hmod : n % 10 ^ (w + 1) = n % 10 + 10 * (n / 10 % 10 ^ w) := by
      rw [Nat.pow_succ, Nat.mul_comm, Nat.mod_mul]
    simp only [parseDigits, Option.some.injEq]
    rw [hmod]
    ring

/-- **Round trip**: a number that fits is read back. -/
theorem parseDigits_fixedDigits {w n : ℕ} (h : n < 10 ^ w) :
    parseDigits 0 (fixedDigits w n) = some n := by
  rw [parseDigits_fixed, Nat.mod_eq_of_lt h, Nat.zero_mul, Nat.zero_add]

theorem fixedDigits_ne_nil (w n : ℕ) : fixedDigits (w + 1) n ≠ [] := by simp [fixedDigits]

end Namecoin.Lib.Decimal
