import Mathlib.Data.List.Basic
import Mathlib.Data.List.Induction
import Mathlib.Data.List.Lex
import Mathlib.Data.Nat.Basic
import Mathlib.Tactic.IntervalCases

/-! # Byte strings and their spellings

A byte string is a list of bytes. `hexEncode` / `hexDecode` and `base64Encode` / `base64Decode` are the
two textual spellings, each with its round trip; `bytesLess` is the lexicographic order, decided on the
values of the bytes, and `toNatBE` reads a byte string as a big-endian number. -/

namespace Namecoin.Lib.ByteStrings

/-- Byte strings. -/
abbrev Bytes := List UInt8

/-- The lexicographic order of byte strings. -/
def bytesLess (a b : Bytes) : Prop := a.map UInt8.toNat < b.map UInt8.toNat

instance (a b : Bytes) : Decidable (bytesLess a b) := by unfold bytesLess; infer_instance

theorem map_toNat_injective : Function.Injective (List.map UInt8.toNat) :=
  List.map_injective_iff.mpr fun _ _ h => UInt8.toNat_inj.mp h

theorem bytesLess_irrefl (a : Bytes) : ¬ bytesLess a a := lt_irrefl (a.map UInt8.toNat)

theorem bytesLess_trans {a b c : Bytes} (h1 : bytesLess a b) (h2 : bytesLess b c) : bytesLess a c :=
  lt_trans h1 h2

theorem bytesLess_trichotomy (a b : Bytes) : bytesLess a b ∨ a = b ∨ bytesLess b a := by
  rcases lt_trichotomy (a.map UInt8.toNat) (b.map UInt8.toNat) with h | h | h
  · exact Or.inl h
  · exact Or.inr (Or.inl (map_toNat_injective h))
  · exact Or.inr (Or.inr h)

/-- The big-endian value of a byte string. -/
def toNatBE (b : Bytes) : ℕ := b.foldl (fun n x => 256 * n + x.toNat) 0

theorem toNatBE_snoc (b : Bytes) (x : UInt8) : toNatBE (b ++ [x]) = 256 * toNatBE b + x.toNat := by
  rw [toNatBE, List.foldl_append]
  rfl

theorem toNatBE_zeros (k : ℕ) (b : Bytes) : toNatBE (List.replicate k 0 ++ b) = toNatBE b := by
  induction k with
  | zero => rfl
  | succ k ih => exact ih

theorem toNatBE_lt (b : Bytes) : toNatBE b < 256 ^ b.length := by
  induction b using List.reverseRecOn with
  | nil => exact Nat.one_pos
  | append_singleton b x ih =>
    have hx := x.toNat_lt
    rw [toNatBE_snoc, List.length_append, List.length_singleton, Nat.pow_succ]
    omega

theorem toNatBE_injective {a b : Bytes} (hlen : a.length = b.length) (h : toNatBE a = toNatBE b) :
    a = b := by
  induction a using List.reverseRecOn generalizing b with
  | nil => exact (List.length_eq_zero_iff.mp hlen.symm).symm
  | append_singleton a x ih =>
    rcases List.eq_nil_or_concat b with rfl | ⟨b, y, rfl⟩
    · simp at hlen
    · -- the last bytes are the remainders by 256, the rest the quotients
      have hx := x.toNat_lt
      have hy := y.toNat_lt
      simp only [List.concat_eq_append, List.length_append, List.length_singleton, toNatBE_snoc] at hlen h
      have hab : a = b := ih (by omega) (by omega)
      have hxy : x = y := UInt8.toNat_inj.mp (by omega)
      rw [hab, hxy, List.concat_eq_append]

/-- The UTF-8 bytes of a text. -/
def utf8 (s : String) : Bytes := s.toList.flatMap String.utf8EncodeChar

/-! ### Hexadecimal -/

/-- A hexadecimal digit, in lower case. -/
def hexDigit (n : ℕ) : Char := "0123456789abcdef".toList.getD n '0'

/-- The value of a hexadecimal digit, in either case. -/
def unhexDigit (c : Char) : Option ℕ :=
  if '0' ≤ c ∧ c ≤ '9' then some (c.toNat - '0'.toNat)
  else if 'a' ≤ c ∧ c ≤ 'f' then some (c.toNat - 'a'.toNat + 10)
  else if 'A' ≤ c ∧ c ≤ 'F' then some (c.toNat - 'A'.toNat + 10)
  else none

theorem unhexDigit_hexDigit {n : ℕ} (h : n < 16) : unhexDigit (hexDigit n) = some n := by
  interval_cases n <;> decide

/-- The two digits of a byte. -/
def hexByte (b : UInt8) : List Char := [hexDigit (b.toNat / 16), hexDigit (b.toNat % 16)]

/-- The digits of a byte string. -/
def hexChars (b : Bytes) : List Char := b.flatMap hexByte

/-- The lower-case hexadecimal spelling. -/
def hexEncode (b : Bytes) : String := String.ofList (hexChars b)

/-- Read pairs of digits. -/
def unhexChars : List Char → Option Bytes
  | [] => some []
  | [_] => none
  | c :: d :: cs => do
    let x ← unhexDigit c
    let y ← unhexDigit d
    let rest ← unhexChars cs
    return UInt8.ofNat (16 * x + y) :: rest

/-- Read a hexadecimal spelling. -/
def hexDecode (s : String) : Option Bytes := unhexChars s.toList

theorem unhexChars_hexChars : ∀ b : Bytes, unhexChars (hexChars b) = some b
  | [] => rfl
  | x :: b => by
    have ih := unhexChars_hexChars b
    have hx := UInt8.toNat_lt x
    have hcons : hexChars (x :: b) = hexDigit (x.toNat / 16) :: hexDigit (x.toNat % 16) :: hexChars b :=
      rfl
    have hval : UInt8.ofNat (16 * (x.toNat / 16) + x.toNat % 16) = x := by
      rw [Nat.div_add_mod]; exact UInt8.ofNat_toNat
    rw [hcons, unhexChars, unhexDigit_hexDigit (by omega), unhexDigit_hexDigit (by omega), ih]
    simp only [Option.bind_eq_bind, Option.bind_some, Option.pure_def, hval]

/-- **Round trip.** -/
@[simp] theorem hexDecode_hexEncode (b : Bytes) : hexDecode (hexEncode b) = some b := by
  rw [hexDecode, hexEncode, String.toList_ofList, unhexChars_hexChars]

theorem hexEncode_injective : Function.Injective hexEncode := fun a b h => by
  have := congrArg hexDecode h
  simpa using this

theorem hexEncode_eq_empty {b : Bytes} : hexEncode b = "" ↔ b = [] :=
  ⟨fun h => hexEncode_injective (h.trans rfl), fun h => by rw [h]; rfl⟩

/-! ### Base64 -/

/-- A character of the standard alphabet. -/
def b64Char (n : ℕ) : Char :=
  "ABCDEFGHIJKLMNOPQRSTUVWXYZabcdefghijklmnopqrstuvwxyz0123456789+/".toList.getD n 'A'

/-- The value of a character of the standard alphabet. -/
def unb64Char (c : Char) : Option ℕ :=
  if 'A' ≤ c ∧ c ≤ 'Z' then some (c.toNat - 'A'.toNat)
  else if 'a' ≤ c ∧ c ≤ 'z' then some (c.toNat - 'a'.toNat + 26)
  else if '0' ≤ c ∧ c ≤ '9' then some (c.toNat - '0'.toNat + 52)
  else if c = '+' then some 62
  else if c = '/' then some 63
  else none

theorem unb64Char_b64Char {n : ℕ} (h : n < 64) : unb64Char (b64Char n) = some n := by
  have : ∀ i : Fin 64, unb64Char (b64Char i) = some i.val := by decide +kernel
  exact this ⟨n, h⟩

theorem b64Char_ne_pad {n : ℕ} (h : n < 64) : b64Char n ≠ '=' := by
  have : ∀ i : Fin 64, b64Char i ≠ '=' := by decide +kernel
  exact this ⟨n, h⟩

theorem b64Char_ne_newline {n : ℕ} (h : n < 64) : b64Char n ≠ '\n' ∧ b64Char n ≠ '\r' := by
  have : ∀ i : Fin 64, b64Char i ≠ '\n' ∧ b64Char i ≠ '\r' := by decide +kernel
  exact this ⟨n, h⟩

/-- Groups of three bytes as four characters, the last group padded. -/
def b64Chars : Bytes → List Char
  | [] => []
  | [a] => [b64Char (a.toNat / 4), b64Char (a.toNat % 4 * 16), '=', '=']
  | [a, b] =>
    [b64Char (a.toNat / 4), b64Char (a.toNat % 4 * 16 + b.toNat / 16), b64Char (b.toNat % 16 * 4), '=']
  | a :: b :: c :: rest =>
    b64Char (a.toNat / 4) :: b64Char (a.toNat % 4 * 16 + b.toNat / 16) ::
      b64Char (b.toNat % 16 * 4 + c.toNat / 64) :: b64Char (c.toNat % 64) :: b64Chars rest

/-- The standard, padded spelling. -/
def base64Encode (b : Bytes) : String := String.ofList (b64Chars b)

/-- Read groups of four characters; padding only in the last one. -/
def unb64Chars : List Char → Option Bytes
  | [] => some []
  | w :: x :: y :: z :: rest =>
    if z = '=' then
      if rest ≠ [] then none
      else if y = '=' then do
        let a ← unb64Char w
        let b ← unb64Char x
        return [UInt8.ofNat (a * 4 + b / 16)]
      else do
        let a ← unb64Char w
        let b ← unb64Char x
        let c ← unb64Char y
        return [UInt8.ofNat (a * 4 + b / 16), UInt8.ofNat (b % 16 * 16 + c / 4)]
    else do
      let a ← unb64Char w
      let b ← unb64Char x
      let c ← unb64Char y
      let d ← unb64Char z
      let tail ← unb64Chars rest
      return UInt8.ofNat (a * 4 + b / 16) :: UInt8.ofNat (b % 16 * 16 + c / 4) ::
        UInt8.ofNat (c % 4 * 64 + d) :: tail
  | _ => none

/-- Read a base64 spelling; line breaks are ignored. -/
def base64Decode (s : String) : Option Bytes :=
  unb64Chars (s.toList.filter fun c => c ≠ '\n' ∧ c ≠ '\r')

theorem ofNat_of_eq {n : ℕ} {x : UInt8} (h : n = x.toNat) : UInt8.ofNat n = x := by
  rw [h]; exact UInt8.ofNat_toNat

theorem unb64Chars_b64Chars : ∀ b : Bytes, unb64Chars (b64Chars b) = some b
  | [] => rfl
  | [a] => by
    have ha := UInt8.toNat_lt a
    have h1 : UInt8.ofNat (a.toNat / 4 * 4 + a.toNat % 4 * 16 / 16) = a := ofNat_of_eq (by omega)
    rw [b64Chars, unb64Chars, if_pos rfl, if_neg (by simp), if_pos rfl,
      unb64Char_b64Char (by omega), unb64Char_b64Char (by omega)]
    simp only [Option.bind_eq_bind, Option.bind_some, Option.pure_def, h1]
  | [a, b] => by
    have ha := UInt8.toNat_lt a
    have hb := UInt8.toNat_lt b
    have h1 : UInt8.ofNat (a.toNat / 4 * 4 + (a.toNat % 4 * 16 + b.toNat / 16) / 16) = a :=
      ofNat_of_eq (by omega)
    have h2 : UInt8.ofNat ((a.toNat % 4 * 16 + b.toNat / 16) % 16 * 16 + b.toNat % 16 * 4 / 4) = b :=
      ofNat_of_eq (by omega)
    rw [b64Chars, unb64Chars, if_pos rfl, if_neg (by simp), if_neg (b64Char_ne_pad (by omega)),
      unb64Char_b64Char (by omega), unb64Char_b64Char (by omega), unb64Char_b64Char (by omega)]
    simp only [Option.bind_eq_bind, Option.bind_some, Option.pure_def, h1, h2]
  | a :: b :: c :: rest => by
    have ih := unb64Chars_b64Chars rest
    have ha := UInt8.toNat_lt a
    have hb := UInt8.toNat_lt b
    have hc := UInt8.toNat_lt c
    have h1 : UInt8.ofNat (a.toNat / 4 * 4 + (a.toNat % 4 * 16 + b.toNat / 16) / 16) = a :=
      ofNat_of_eq (by omega)
    have h2 : UInt8.ofNat ((a.toNat % 4 * 16 + b.toNat / 16) % 16 * 16 +
        (b.toNat % 16 * 4 + c.toNat / 64) / 4) = b := ofNat_of_eq (by omega)
    have h3 : UInt8.ofNat ((b.toNat % 16 * 4 + c.toNat / 64) % 4 * 64 + c.toNat % 64) = c :=
      ofNat_of_eq (by omega)
    rw [b64Chars, unb64Chars, if_neg (b64Char_ne_pad (by omega)), unb64Char_b64Char (by omega),
      unb64Char_b64Char (by omega), unb64Char_b64Char (by omega), unb64Char_b64Char (by omega), ih]
    simp only [Option.bind_eq_bind, Option.bind_some, Option.pure_def, h1, h2, h3]

theorem b64Chars_no_newline : ∀ b : Bytes, ∀ c ∈ b64Chars b, c ≠ '\n' ∧ c ≠ '\r'
  | [], c, h => by simp [b64Chars] at h
  | [a], c, h => by
    have ha := UInt8.toNat_lt a
    simp only [b64Chars, List.mem_cons, List.not_mem_nil, or_false] at h
    rcases h with rfl | rfl | rfl | rfl
    · exact b64Char_ne_newline (by omega)
    · exact b64Char_ne_newline (by omega)
    · decide
    · decide
  | [a, b], c, h => by
    have ha := UInt8.toNat_lt a
    have hb := UInt8.toNat_lt b
    simp only [b64Chars, List.mem_cons, List.not_mem_nil, or_false] at h
    rcases h with rfl | rfl | rfl | rfl
    · exact b64Char_ne_newline (by omega)
    · exact b64Char_ne_newline (by omega)
    · exact b64Char_ne_newline (by omega)
    · decide
  | a :: b :: d :: rest, c, h => by
    have ha := UInt8.toNat_lt a
    have hb := UInt8.toNat_lt b
    have hd := UInt8.toNat_lt d
    simp only [b64Chars, List.mem_cons] at h
    rcases h with rfl | rfl | rfl | rfl | h
    · exact b64Char_ne_newline (by omega)
    · exact b64Char_ne_newline (by omega)
    · exact b64Char_ne_newline (by omega)
    · exact b64Char_ne_newline (by omega)
    · exact b64Chars_no_newline rest c h

/-- **Round trip.** -/
@[simp] theorem base64Decode_base64Encode (b : Bytes) : base64Decode (base64Encode b) = some b := by
  have hf : (b64Chars b).filter (fun c => decide (c ≠ '\n' ∧ c ≠ '\r')) = b64Chars b :=
    List.filter_eq_self.mpr fun c hc => by simpa using b64Chars_no_newline b c hc
  rw [base64Decode, base64Encode, String.toList_ofList, hf, unb64Chars_b64Chars]

end Namecoin.Lib.ByteStrings
