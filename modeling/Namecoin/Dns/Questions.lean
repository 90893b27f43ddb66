import Namecoin.Lib.DnsFormat
import Namecoin.Types.Defs

/-! # The question of a query

`parseQuestion` of `dns/server.go`. It reads labels at an offset until a zero byte, and
then the type and the class. A read or a slice out of range is a panic of the code, so it
is one here (`Fault.panic`).

* `readLabels_cons`: one turn of the loop, on the bytes that are left;
* `readLabels_ok_iff`, `readLabels_not_panic`: what the loop accepts;
* `question_grammar`: **the parser accepts exactly its grammar**, and reads nothing past the end. -/

namespace Namecoin.Dns.Questions

open Lib.ByteStrings Lib.DnsFormat

/-! ### The model -/

/-- How the parser ends without a question: with an error and the offset that is returned
beside it, or with a panic. -/
inductive Fault
  | error (text : String) (off : ℕ)
  | panic
deriving DecidableEq

/-- What the parser returns. -/
structure ParsedQuestion where
  name : Bytes
  qtype : UInt16
  qclass : UInt16
  off : ℕ

/-- `msg[i]`. -/
def byteAt (msg : Bytes) (i : ℕ) : Except Fault UInt8 :=
  match msg[i]? with
  | some b => .ok b
  | none => .error .panic

/-- `msg[i:j]`. -/
def slice (msg : Bytes) (i j : ℕ) : Except Fault Bytes :=
  if i ≤ j ∧ j ≤ msg.length then .ok ((msg.take j).drop i) else .error .panic

/-- `binary.BigEndian.Uint16`, which looks at two bytes. -/
def readUint16 : Bytes → Except Fault UInt16
  | hi :: lo :: _ => .ok (uint16 hi lo)
  | _ => .error .panic

/-- The loop of `parseQuestion`: the labels and the offset after the zero byte. -/
def readLabels (msg : Bytes) (off : ℕ) (labels : List Bytes) : Except Fault (List Bytes × ℕ) :=
  if msg.length ≤ off then .error (.error "truncated name" off)
  else do
    let l ← byteAt msg off
    if l = 0 then return (labels, off + 1)
    else if l &&& 0xC0 ≠ 0 ∨ 63 < l.toNat then .error (.error "invalid label" (off + 1))
    else if msg.length < off + 1 + l.toNat then .error (.error "truncated label" (off + 1))
    else do
      let label ← slice msg (off + 1) (off + 1 + l.toNat)
      readLabels msg (off + 1 + l.toNat) (labels ++ [label])
termination_by msg.length - off

def parseQuestion (msg : Bytes) (off : ℕ) : Except Fault ParsedQuestion := do
  let (labels, off) ← readLabels msg off []
  if labels = [] then .error (.error "empty name" off)
  else if 255 < (joinDots labels).length then .error (.error "name too long" off)
  else if msg.length < off + 4 then .error (.error "truncated question" off)
  else do
    let qtype ← slice msg off (off + 2) >>= readUint16
    let qclass ← slice msg (off + 2) (off + 4) >>= readUint16
    return ⟨joinDots labels, qtype, qclass, off + 4⟩

variable {msg rest : Bytes} {off : ℕ} {labels acc : List Bytes} {l : UInt8}

/-! ### Reads -/

theorem byteAt_of_drop (h : msg.drop off = l :: rest) : byteAt msg off = .ok l := by
  have hget : msg[off]? = some l := by
    have hhead := congrArg (fun b => b[0]?) h
    simpa using hhead
  rw [byteAt, hget]

theorem slice_of_drop {a : Bytes} (h : msg.drop off = a ++ rest) (hne : off ≤ msg.length) :
    slice msg off (off + a.length) = .ok a := by
  have hlen := congrArg List.length h
  rw [List.length_drop, List.length_append] at hlen
  rw [slice, if_pos ⟨by omega, by omega⟩, ← List.take_drop, h, List.take_left]

theorem le_length_of_drop (h : msg.drop off = l :: rest) : off + 1 + rest.length = msg.length := by
  have hlen := congrArg List.length h
  rw [List.length_drop, List.length_cons] at hlen
  omega

theorem drop_of_drop {a : Bytes} (h : msg.drop off = a ++ rest) : msg.drop (off + a.length) = rest := by
  rw [← List.drop_drop, h, List.drop_left]

/-! ### The loop -/

theorem and_mask_eq_zero (h : l.toNat ≤ 63) : l &&& 0xC0 = 0 := by
  have hall : ∀ n < 64, n &&& 0xC0 = 0 := by decide
  apply UInt8.toNat_inj.mp
  rw [UInt8.toNat_and]
  exact hall l.toNat (by omega)

theorem readLabels_nil (h : msg.drop off = []) :
    readLabels msg off acc = .error (.error "truncated name" off) := by
  rw [readLabels, if_pos (List.drop_eq_nil_iff.mp h)]

theorem readLabels_cons (h : msg.drop off = l :: rest) : readLabels msg off acc =
    if l = 0 then .ok (acc, off + 1)
    else if 63 < l.toNat then .error (.error "invalid label" (off + 1))
    else if rest.length < l.toNat then .error (.error "truncated label" (off + 1))
    else readLabels msg (off + 1 + l.toNat) (acc ++ [rest.take l.toNat]) := by
  have hlen := le_length_of_drop h
  rw [readLabels, if_neg (by omega), byteAt_of_drop h]
  show (if l = 0 then _ else _) = _
  by_cases h0 : l = 0
  · rw [if_pos h0, if_pos h0]
    rfl
  rw [if_neg h0, if_neg h0]
  by_cases hbig : 63 < l.toNat
  · rw [if_pos (.inr hbig), if_pos hbig]
  rw [if_neg (by rw [and_mask_eq_zero (not_lt.mp hbig)]; simpa using hbig), if_neg hbig]
  by_cases hshort : rest.length < l.toNat
  · rw [if_pos (by omega), if_pos hshort]
  rw [if_neg (by omega), if_neg hshort]
  have hdrop : msg.drop (off + 1) = rest.take l.toNat ++ rest.drop l.toNat := by
    rw [List.take_append_drop, ← List.drop_drop, h]
    rfl
  have hslice := slice_of_drop hdrop (by omega)
  rw [List.length_take, Nat.min_eq_left (not_lt.mp hshort)] at hslice
  rw [hslice]
  rfl

/-- The bytes start with a name of these labels, and `rest` comes after it. -/
def Spells (labels : List Bytes) (rest b : Bytes) : Prop :=
  (∀ l ∈ labels, LabelOK l) ∧ b = encodeLabels labels ++ 0 :: rest

theorem not_spells_nil : ¬ Spells labels rest [] := fun h => by simpa using congrArg List.length h.2

/-- The first byte of a name: the zero byte at its end, or the length of a label. -/
theorem spells_cons_iff {r : Bytes} : Spells labels r (l :: rest) ↔ l = 0 ∧ labels = [] ∧ r = rest ∨
    l ≠ 0 ∧ l.toNat ≤ 63 ∧ l.toNat ≤ rest.length ∧
      ∃ more, labels = rest.take l.toNat :: more ∧ Spells more r (rest.drop l.toNat) := by
  constructor
  · rintro ⟨hok, h⟩
    cases labels with
    | nil =>
      cases h
      exact .inl ⟨rfl, rfl, rfl⟩
    | cons a more =>
      obtain ⟨hmin, hmax⟩ := hok a List.mem_cons_self
      rw [encodeLabels_cons, List.cons_append, List.append_assoc] at h
      obtain ⟨rfl, rfl⟩ := List.cons.inj h
      have hl : (UInt8.ofNat a.length).toNat = a.length :=
        UInt8.toNat_ofNat_of_lt' (show a.length < 2 ^ 8 by omega)
      rw [hl, List.take_left, List.drop_left, List.length_append]
      refine .inr ⟨fun h0 => ?_, hmax, by omega, more, rfl,
        fun x hx => hok x (List.mem_cons_of_mem a hx), rfl⟩
      have hzero : a.length = 0 := hl.symm.trans (congrArg UInt8.toNat h0)
      omega
  · rintro (⟨rfl, rfl, rfl⟩ | ⟨h0, hmax, hlen, more, rfl, hok, h⟩)
    · exact ⟨by simp, rfl⟩
    · have htake : (rest.take l.toNat).length = l.toNat := by rw [List.length_take, Nat.min_eq_left hlen]
      have hpos : l.toNat ≠ 0 := fun h => h0 (UInt8.toNat_inj.mp h)
      refine ⟨List.forall_mem_cons.mpr ⟨⟨by omega, by omega⟩, hok⟩, ?_⟩
      rw [encodeLabels_cons, htake, UInt8.ofNat_toNat, List.cons_append, List.append_assoc, ← h,
        List.take_append_drop]

/-- **The loop accepts the names**, and returns their labels and the offset after the zero byte. -/
theorem readLabels_ok_iff (msg : Bytes) (off : ℕ) (acc : List Bytes) {labels : List Bytes} {off' : ℕ} :
    readLabels msg off acc = .ok (labels, off') ↔ ∃ new rest, Spells new rest (msg.drop off) ∧
    labels = acc ++ new ∧
      off' = off + (encodeLabels new).length + 1 := by
  cases hdrop : msg.drop off with
  | nil =>
    rw [readLabels_nil hdrop]
    refine iff_of_false (fun h => by cases h) ?_
    rintro ⟨new, rest, h, -⟩
    exact not_spells_nil h
  | cons l rest =>
    have hlen := le_length_of_drop hdrop
    rw [readLabels_cons hdrop]
    simp only [spells_cons_iff]
    by_cases h0 : l = 0
    · rw [if_pos h0]
      constructor
      · intro h
        cases h
        exact ⟨[], rest, .inl ⟨h0, rfl, rfl⟩, by simp, rfl⟩
      · rintro ⟨new, r, ⟨-, rfl, -⟩ | ⟨h, -⟩, rfl, rfl⟩
        · rw [List.append_nil]
          rfl
        · exact absurd h0 h
    rw [if_neg h0]
    by_cases hbig : 63 < l.toNat
    · rw [if_pos hbig]
      refine iff_of_false (fun h => by cases h) ?_
      rintro ⟨new, r, ⟨h, -⟩ | ⟨-, h, -⟩, -⟩
      · exact h0 h
      · omega
    rw [if_neg hbig]
    by_cases hshort : rest.length < l.toNat
    · rw [if_pos hshort]
      refine iff_of_false (fun h => by cases h) ?_
      rintro ⟨new, r, ⟨h, -⟩ | ⟨-, -, h, -⟩, -⟩
      · exact h0 h
      · omega
    rw [if_neg hshort, readLabels_ok_iff msg (off + 1 + l.toNat)]
    have hnext : msg.drop (off + 1 + l.toNat) = rest.drop l.toNat := by
      rw [← List.drop_drop, ← List.drop_drop, hdrop]
      rfl
    have htake : (rest.take l.toNat).length = l.toNat := by
      rw [List.length_take, Nat.min_eq_left (not_lt.mp hshort)]
    rw [hnext]
    constructor
    · rintro ⟨new, r, h, rfl, rfl⟩
      refine ⟨rest.take l.toNat :: new, r, .inr ⟨h0, not_lt.mp hbig, not_lt.mp hshort, new, rfl,
        h⟩, by simp, ?_⟩
      rw [encodeLabels_cons, List.length_cons, List.length_append, htake]
      omega
    · rintro ⟨new, r, ⟨h, -⟩ | ⟨-, -, -, more, rfl, h⟩, rfl, rfl⟩
      · exact absurd h h0
      · refine ⟨more, r, h, by simp, ?_⟩
        rw [encodeLabels_cons, List.length_cons, List.length_append, htake]
        omega
termination_by msg.length - off

theorem readLabels_not_panic (msg : Bytes) (off : ℕ) (acc : List Bytes) :
    readLabels msg off acc ≠ .error .panic := by
  cases hdrop : msg.drop off with
  | nil =>
    rw [readLabels_nil hdrop]
    simp
  | cons l rest =>
    have hlen := le_length_of_drop hdrop
    rw [readLabels_cons hdrop]
    by_cases h0 : l = 0
    · simp [h0]
    rw [if_neg h0]
    split_ifs
    · simp
    · simp
    · exact readLabels_not_panic msg (off + 1 + l.toNat) _
termination_by msg.length - off

/-! ### The question -/

/-- A message with a question at an offset. -/
def Asks (msg : Bytes) (off : ℕ) (q : ParsedQuestion) : Prop :=
  ∃ labels t₁ t₂ c₁ c₂ rest, labels ≠ [] ∧ (joinDots labels).length ≤ 255 ∧
    Spells labels (t₁ :: t₂ :: c₁ :: c₂ :: rest) (msg.drop off) ∧
    q = ⟨joinDots labels, uint16 t₁ t₂, uint16 c₁ c₂, off + (encodeLabels labels).length + 5⟩

theorem drop_of_spells (h : Spells labels rest (msg.drop off)) :
    msg.drop (off + (encodeLabels labels).length + 1) = rest ∧
      off + (encodeLabels labels).length + 1 + rest.length = msg.length := by
  have hdrop : msg.drop (off + (encodeLabels labels).length) = 0 :: rest := drop_of_drop h.2
  refine ⟨?_, le_length_of_drop hdrop⟩
  rw [← List.drop_drop, hdrop]
  rfl

theorem four_bytes {b : Bytes} (h : 4 ≤ b.length) :
    ∃ t₁ t₂ c₁ c₂ rest, b = t₁ :: t₂ :: c₁ :: c₂ :: rest := by
  rcases b with _ | ⟨t₁, _ | ⟨t₂, _ | ⟨c₁, _ | ⟨c₂, rest⟩⟩⟩⟩
  · simp at h
  · simp at h
  · simp at h
  · simp at h
  · exact ⟨t₁, t₂, c₁, c₂, rest, rfl⟩

theorem parseQuestion_tail {t₁ t₂ c₁ c₂ : UInt8} (h : msg.drop off = t₁ :: t₂ :: c₁ :: c₂ :: rest) :
    (slice msg off (off + 2) >>= readUint16) = .ok (uint16 t₁ t₂) ∧
      (slice msg (off + 2) (off + 4) >>= readUint16) = .ok (uint16 c₁ c₂) := by
  have hlen := le_length_of_drop h
  rw [List.length_cons] at hlen
  have htype : slice msg off (off + 2) = .ok [t₁, t₂] := slice_of_drop (a := [t₁, t₂]) h (by omega)
  have hdrop : msg.drop (off + 2) = [c₁, c₂] ++ rest := drop_of_drop (a := [t₁, t₂]) h
  have hclass : slice msg (off + 2) (off + 4) = .ok [c₁, c₂] := slice_of_drop hdrop (by omega)
  rw [htype, hclass]
  exact ⟨rfl, rfl⟩

theorem parseQuestion_of_spells (h : Spells labels rest (msg.drop off)) : parseQuestion msg off =
    if labels = [] then .error (.error "empty name" (off + (encodeLabels labels).length + 1))
    else if 255 < (joinDots labels).length then
      .error (.error "name too long" (off + (encodeLabels labels).length + 1))
    else if rest.length < 4 then
      .error (.error "truncated question" (off + (encodeLabels labels).length + 1))
    else .ok ⟨joinDots labels, uint16 (rest.getD 0 0) (rest.getD 1 0),
    uint16 (rest.getD 2 0) (rest.getD 3 0),
      off + (encodeLabels labels).length + 5⟩ := by
  have hloop : readLabels msg off [] = .ok (labels, off + (encodeLabels labels).length + 1) :=
    (readLabels_ok_iff msg off []).mpr ⟨labels, rest, h, rfl, rfl⟩
  obtain ⟨hdrop, hlen⟩ := drop_of_spells h
  rw [parseQuestion, hloop]
  show (if labels = [] then _ else _) = _
  by_cases hnil : labels = []
  · rw [if_pos hnil, if_pos hnil]
  rw [if_neg hnil, if_neg hnil]
  by_cases hlong : 255 < (joinDots labels).length
  · rw [if_pos hlong, if_pos hlong]
  rw [if_neg hlong, if_neg hlong]
  by_cases hshort : rest.length < 4
  · rw [if_pos (by omega), if_pos hshort]
  rw [if_neg (by omega), if_neg hshort]
  obtain ⟨t₁, t₂, c₁, c₂, more, rfl⟩ := four_bytes (not_lt.mp hshort)
  obtain ⟨htype, hclass⟩ := parseQuestion_tail hdrop
  rw [htype]
  show (slice msg _ _ >>= readUint16) >>= _ = _
  rw [hclass]
  rfl

theorem spells_or_error (msg : Bytes) (off : ℕ) : (∃ labels rest, Spells labels rest (msg.drop off)) ∨
    (∀ labels rest, ¬ Spells labels rest (msg.drop off)) ∧
      ∃ text off', parseQuestion msg off = .error (.error text off') := by
  cases hloop : readLabels msg off [] with
  | ok r =>
    obtain ⟨new, rest, h, -⟩ := (readLabels_ok_iff msg off []).mp hloop
    exact .inl ⟨new, rest, h⟩
  | error e =>
    refine .inr ⟨fun labels rest h => ?_, ?_⟩
    · have hok := (readLabels_ok_iff msg off []).mpr ⟨labels, rest, h, rfl, rfl⟩
      rw [hloop] at hok
      cases hok
    · cases e with
      | panic => exact absurd hloop (readLabels_not_panic msg off [])
      | error text off' =>
        refine ⟨text, off', ?_⟩
        rw [parseQuestion, hloop]
        rfl

theorem parseQuestion_ok_iff {q : ParsedQuestion} : parseQuestion msg off = .ok q ↔ Asks msg off q := by
  constructor
  · intro hq
    rcases spells_or_error msg off with ⟨labels, rest, h⟩ | ⟨-, text, off', he⟩
    · rw [parseQuestion_of_spells h] at hq
      split_ifs at hq with hnil hlong hshort
      obtain ⟨t₁, t₂, c₁, c₂, more, rfl⟩ := four_bytes (not_lt.mp hshort)
      cases hq
      exact ⟨labels, t₁, t₂, c₁, c₂, more, hnil, not_lt.mp hlong, h, rfl⟩
    · rw [he] at hq
      cases hq
  · rintro ⟨labels, t₁, t₂, c₁, c₂, rest, hnil, hlong, h, rfl⟩
    rw [parseQuestion_of_spells h, if_neg hnil, if_neg (not_lt.mpr hlong), if_neg (by simp)]
    rfl

theorem parseQuestion_not_panic (msg : Bytes) (off : ℕ) : parseQuestion msg off ≠ .error .panic := by
  rcases spells_or_error msg off with ⟨labels, rest, h⟩ | ⟨-, text, off', he⟩
  · rw [parseQuestion_of_spells h]
    split_ifs <;> simp
  · rw [he]
    simp

theorem Asks.off_le {q : ParsedQuestion} (h : Asks msg off q) : q.off ≤ msg.length := by
  obtain ⟨labels, t₁, t₂, c₁, c₂, rest, -, -, hs, rfl⟩ := h
  have hlen := (drop_of_spells hs).2
  simp only [List.length_cons] at hlen
  show off + (encodeLabels labels).length + 5 ≤ msg.length
  omega

/-- **The parser accepts exactly its grammar**: one or more labels of 1 to 63 bytes, a zero byte and at
least four more bytes, with at most 255 bytes in dotted form. It returns the dotted form, the type, the
class and the offset after them, which is in the message, and no read is out of range. -/
theorem question_grammar (msg : Bytes) :
    (∀ q, parseQuestion msg 12 = .ok q ↔ ∃ labels t₁ t₂ c₁ c₂ rest, labels ≠ [] ∧
      (∀ l ∈ labels, 1 ≤ l.length ∧ l.length ≤ 63) ∧ (joinDots labels).length ≤ 255 ∧
      msg.drop 12 = encodeLabels labels ++ 0 :: t₁ :: t₂ :: c₁ :: c₂ :: rest ∧
      q = ⟨joinDots labels, uint16 t₁ t₂, uint16 c₁ c₂, 12 + (encodeLabels labels).length + 5⟩) ∧
    (∀ q, parseQuestion msg 12 = .ok q → q.off ≤ msg.length) ∧ parseQuestion msg 12 ≠ .error .panic := by
  refine ⟨fun q => ?_, fun q h => (parseQuestion_ok_iff.mp h).off_le, parseQuestion_not_panic msg 12⟩
  rw [parseQuestion_ok_iff]
  constructor
  · rintro ⟨labels, t₁, t₂, c₁, c₂, rest, hnil, hlong, ⟨hok, h⟩, hq⟩
    exact ⟨labels, t₁, t₂, c₁, c₂, rest, hnil, hok, hlong, h, hq⟩
  · rintro ⟨labels, t₁, t₂, c₁, c₂, rest, hnil, hok, hlong, h, hq⟩
    exact ⟨labels, t₁, t₂, c₁, c₂, rest, hnil, hlong, ⟨hok, h⟩, hq⟩

end Namecoin.Dns.Questions
