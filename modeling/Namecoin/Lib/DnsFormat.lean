import Namecoin.Lib.ByteStrings

/-! # DNS messages

The wire format of DNS. A name is a sequence of labels, each with its length in front, that ends with a
zero byte or with a pointer to another name of the message. A message is a header with four counts, and
as many questions and records as it announces.

* `encodeName`, `encodeQuestion`, `encodeRecord`, `encode`: the bytes of each part;
* `Well`: bytes are those of a well-formed message. The labels have 1 to 63 bytes, the counts of the
  header and the length of each `RDATA` are right, and a pointer leads to a name of the message. -/

namespace Namecoin.Lib.DnsFormat

open Lib.ByteStrings

/-! ### Numbers -/

/-- `binary.BigEndian.Uint16`. -/
def uint16 (hi lo : UInt8) : UInt16 := UInt16.ofNat (256 * hi.toNat + lo.toNat)

/-- `binary.BigEndian.PutUint16`. -/
def putUint16 (x : UInt16) : Bytes := [UInt8.ofNat (x.toNat / 256), UInt8.ofNat x.toNat]

/-- `binary.BigEndian.PutUint32`. -/
def putUint32 (x : UInt32) : Bytes :=
  [UInt8.ofNat (x.toNat / 256 ^ 3), UInt8.ofNat (x.toNat / 256 ^ 2), UInt8.ofNat (x.toNat / 256),
    UInt8.ofNat x.toNat]

@[simp] theorem length_putUint16 (x : UInt16) : (putUint16 x).length = 2 := rfl

@[simp] theorem length_putUint32 (x : UInt32) : (putUint32 x).length = 4 := rfl

theorem putUint16_uint16 (hi lo : UInt8) : putUint16 (uint16 hi lo) = [hi, lo] := by
  have hhi := hi.toNat_lt
  have hlo := lo.toNat_lt
  have hn : (uint16 hi lo).toNat = 256 * hi.toNat + lo.toNat :=
    UInt16.toNat_ofNat_of_lt' (show 256 * hi.toNat + lo.toNat < 2 ^ 16 by omega)
  have h₁ : UInt8.ofNat ((256 * hi.toNat + lo.toNat) / 256) = hi := by
    rw [show (256 * hi.toNat + lo.toNat) / 256 = hi.toNat by omega, UInt8.ofNat_toNat]
  have h₂ : UInt8.ofNat (256 * hi.toNat + lo.toNat) = lo := by
    apply UInt8.toNat_inj.mp
    rw [UInt8.toNat_ofNat']
    omega
  rw [putUint16, hn, h₁, h₂]

theorem uint16_putUint16 (x : UInt16) :
    uint16 (UInt8.ofNat (x.toNat / 256)) (UInt8.ofNat x.toNat) = x := by
  have hx := x.toNat_lt
  apply UInt16.toNat_inj.mp
  rw [uint16, UInt16.toNat_ofNat', UInt8.toNat_ofNat', UInt8.toNat_ofNat']
  omega

theorem uint16_or_and (a b mask : UInt16) : (a ||| b) &&& mask = (a &&& mask) ||| (b &&& mask) := by
  apply UInt16.toNat_inj.mp
  rw [UInt16.toNat_and, UInt16.toNat_or, UInt16.toNat_or, UInt16.toNat_and, UInt16.toNat_and]
  exact Nat.and_or_distrib_right ..

/-! ### Names -/

/-- A label has 1 to 63 bytes. -/
def LabelOK (l : Bytes) : Prop := 1 ≤ l.length ∧ l.length ≤ 63

instance (l : Bytes) : Decidable (LabelOK l) := by unfold LabelOK; infer_instance

/-- Labels with their lengths in front. -/
def encodeLabels (labels : List Bytes) : Bytes := labels.flatMap fun l => UInt8.ofNat l.length :: l

/-- The labels of a name in dotted form. -/
def joinDots (labels : List Bytes) : Bytes := [46].intercalate labels

/-- A name as it stands in a message. -/
structure Name where
  labels : List Bytes
  pointer : Option ℕ

/-- The bytes of a name; the two highest bits of a pointer are set. -/
def encodeName (n : Name) : Bytes :=
  encodeLabels n.labels ++ match n.pointer with
    | none => [0]
    | some off => putUint16 (UInt16.ofNat (0xC000 + off))

@[simp] theorem encodeLabels_nil : encodeLabels [] = [] := rfl

@[simp] theorem encodeLabels_cons (l : Bytes) (labels : List Bytes) :
    encodeLabels (l :: labels) = UInt8.ofNat l.length :: (l ++ encodeLabels labels) := rfl

theorem length_joinDots : ∀ {labels : List Bytes}, labels ≠ [] →
    (joinDots labels).length + 1 = (encodeLabels labels).length
  | [], h => absurd rfl h
  | [l], _ => by simp [joinDots, List.intercalate]
  | l :: l' :: labels, _ => by
    have ih := length_joinDots (List.cons_ne_nil l' labels)
    simp only [joinDots, List.intercalate, List.intersperse_cons_cons, List.flatten_cons,
      List.length_append, encodeLabels_cons, List.length_cons, List.length_nil] at ih ⊢
    omega

/-! ### Messages -/

/-- The header. -/
structure Header where
  id : UInt16
  flags : UInt16
  qdCount : UInt16
  anCount : UInt16
  nsCount : UInt16
  arCount : UInt16

def encodeHeader (h : Header) : Bytes :=
  putUint16 h.id ++ putUint16 h.flags ++ putUint16 h.qdCount ++ putUint16 h.anCount ++
    putUint16 h.nsCount ++ putUint16 h.arCount

@[simp] theorem length_encodeHeader (h : Header) : (encodeHeader h).length = 12 := rfl

/-- A question. -/
structure Question where
  name : Name
  qtype : UInt16
  qclass : UInt16

def encodeQuestion (q : Question) : Bytes := encodeName q.name ++ putUint16 q.qtype ++ putUint16 q.qclass

/-- A resource record, with the length of its data as it is announced. -/
structure Record where
  name : Name
  rtype : UInt16
  rclass : UInt16
  ttl : UInt32
  rdLength : UInt16
  rdata : Bytes

def encodeRecord (r : Record) : Bytes :=
  encodeName r.name ++ putUint16 r.rtype ++ putUint16 r.rclass ++ putUint32 r.ttl ++
    putUint16 r.rdLength ++ r.rdata

/-- A message: its header and its four sections. -/
structure Message where
  header : Header
  questions : List Question
  answers : List Record
  authorities : List Record
  additional : List Record

def encode (m : Message) : Bytes :=
  encodeHeader m.header ++ m.questions.flatMap encodeQuestion ++ m.answers.flatMap encodeRecord ++
    m.authorities.flatMap encodeRecord ++ m.additional.flatMap encodeRecord

/-- The labels are labels, and a pointer leads to a name in `bytes` that ends without a pointer. -/
def NameOK (bytes : Bytes) (n : Name) : Prop :=
  (∀ l ∈ n.labels, LabelOK l) ∧ ∀ off ∈ n.pointer, off < 2 ^ 14 ∧
    ∃ labels, (∀ l ∈ labels, LabelOK l) ∧ encodeName ⟨labels, none⟩ <+: bytes.drop off

/-- The name of the record is a name, and its data is as long as announced. -/
def RecordOK (bytes : Bytes) (r : Record) : Prop :=
  NameOK bytes r.name ∧ r.rdLength.toNat = r.rdata.length

/-- A well-formed message with the given bytes. -/
structure Well (bytes : Bytes) (m : Message) : Prop where
  encoded : bytes = encode m
  qdCount : m.header.qdCount.toNat = m.questions.length
  anCount : m.header.anCount.toNat = m.answers.length
  nsCount : m.header.nsCount.toNat = m.authorities.length
  arCount : m.header.arCount.toNat = m.additional.length
  questions : ∀ q ∈ m.questions, NameOK bytes q.name
  records : ∀ r ∈ m.answers ++ m.authorities ++ m.additional, RecordOK bytes r

theorem Well.length_gt {bytes : Bytes} {m : Message} (h : Well bytes m) (hq : m.header.qdCount ≠ 0) :
    12 < bytes.length := by
  have hne : m.questions ≠ [] := by
    intro hnil
    have hcount := h.qdCount
    rw [hnil, List.length_nil] at hcount
    exact hq (UInt16.toNat_inj.mp hcount)
  obtain ⟨q, rest, hqs⟩ := List.exists_cons_of_ne_nil hne
  rw [h.encoded, encode, hqs]
  simp only [List.length_append, length_encodeHeader, List.flatMap_cons, encodeQuestion, length_putUint16]
  omega

theorem Well.header {bytes : Bytes} {m : Message} (h : Well bytes m) :
    bytes.take 12 = encodeHeader m.header := by
  rw [h.encoded, encode, List.append_assoc, List.append_assoc, List.append_assoc]
  exact List.take_left' (length_encodeHeader _)

theorem encodeHeader_injective : Function.Injective encodeHeader := by
  intro a b h
  have hput : Function.Injective putUint16 := by
    intro x y hxy
    have h₁ := (List.cons.inj hxy).1
    have h₂ := (List.cons.inj (List.cons.inj hxy).2).1
    rw [← uint16_putUint16 x, ← uint16_putUint16 y, h₁, h₂]
  simp only [encodeHeader, List.append_assoc] at h
  obtain ⟨h₁, h⟩ := List.append_inj h rfl
  obtain ⟨h₂, h⟩ := List.append_inj h rfl
  obtain ⟨h₃, h⟩ := List.append_inj h rfl
  obtain ⟨h₄, h⟩ := List.append_inj h rfl
  obtain ⟨h₅, h₆⟩ := List.append_inj h rfl
  cases a
  cases b
  simp only [Header.mk.injEq]
  exact ⟨hput h₁, hput h₂, hput h₃, hput h₄, hput h₅, hput h₆⟩

end Namecoin.Lib.DnsFormat
