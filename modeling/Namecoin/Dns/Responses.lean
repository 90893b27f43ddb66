import Namecoin.Dns.Questions
import Namecoin.Node.Resolver

/-! # The responses of the DNS server

`buildResponse` of `dns/server.go` and the builders of the seven responses below it. The header of
every response announces one question. A response to a query that cannot be parsed has none, and an
answer with a long text does not fit into a packet.

* `buildResponse_eq`: which response is built;
* `Formed`: what a response should be, a message of at most 512 bytes with the ID and
  the RD bit of the query;
* `formed_iff`: the queries for which it is. -/

namespace Namecoin.Dns.Responses

open Lib.ByteStrings Lib.DnsFormat Node.Resolver Dns.Questions

/-! ### The model -/

/-- The functions of the standard library the server relies on: `strings.ToLower` and `net.ParseIP`,
which gives all addresses in 16 bytes. -/
structure Net where
  toLower : Bytes → Bytes
  parseIP : String → Option Bytes
  length_parseIP : ∀ {s ip}, parseIP s = some ip → ip.length = 16

def maxDNSPacketSize : ℕ := 512

def maxTXTSize : ℕ := 255

/-- `(net.IP).To4`: the last four bytes of an IPv4 address in 16 bytes. -/
def to4 (ip : Bytes) : Option Bytes :=
  if ip.length = 4 then some ip
  else if ip.length = 16 ∧ ip.take 12 = List.replicate 10 0 ++ [0xFF, 0xFF] then some (ip.drop 12)
  else none

/-- `(net.IP).To16`. -/
def to16 (ip : Bytes) : Option Bytes :=
  if ip.length = 4 then some (List.replicate 10 0 ++ [0xFF, 0xFF] ++ ip)
  else if ip.length = 16 then some ip
  else none

/-- `appendHeader`; one question is announced, and nothing after the answers. -/
def appendHeader (buf : Bytes) (id : UInt16) (rd : Bool) (rcode anCount : UInt16) : Bytes :=
  let flags : UInt16 := 0x8000
  let flags := if rd then flags ||| 0x0100 else flags
  let flags := flags ||| (rcode &&& 0xF)
  let flags := flags ||| 0x0400
  buf ++ (putUint16 id ++ putUint16 flags ++ putUint16 1 ++ putUint16 anCount ++ [0, 0, 0, 0])

/-- `appendNamePtr`: a pointer to the name of the question. -/
def appendNamePtr (buf : Bytes) : Bytes := buf ++ [0xC0, 0x0C]

def appendTypeClassTTL (buf : Bytes) (qtype : UInt16) (ttl : UInt32) : Bytes :=
  buf ++ (putUint16 qtype ++ putUint16 1 ++ putUint32 ttl)

def appendRData (buf data : Bytes) : Bytes := buf ++ putUint16 (UInt16.ofNat data.length) ++ data

/-- The data of a TXT answer: a text of at most 255 bytes and its length. -/
def txtData (txt : Bytes) : Bytes := UInt8.ofNat (txt.take maxTXTSize).length :: txt.take maxTXTSize

/-- The data of an answer, by the type of the question: 1 is A, 28 is AAAA and 16 is TXT. -/
def answerData (N : Net) (qtype : UInt16) (r : DNSResponse) : Option Bytes :=
  if qtype = 1 ∨ qtype = 28 then
    match N.parseIP r.ip with
    | none => none
    | some ip => if qtype = 28 then (if '.' ∈ r.ip.toList then none else to16 ip) else to4 ip
  else if qtype = 16 then if utf8 r.txtRecord = [] then none else some (txtData (utf8 r.txtRecord))
  else none

def buildAnswer (N : Net) (qtype : UInt16) (ttl : UInt32) (r : DNSResponse) : Option Bytes :=
  (answerData N qtype r).map (appendRData (appendTypeClassTTL (appendNamePtr []) qtype ttl))

/-- The time to live of an answer: `defaultTTL` unless the response has one that fits. -/
def answerTTL (r : DNSResponse) : UInt32 :=
  if 0 < r.ttl ∧ r.ttl < 0xFFFFFFFF then UInt32.ofNat r.ttl.toNat else 60

def formatErrorResponse (id : UInt16) (rd : Bool) : Bytes := appendHeader [] id rd 1 0

/-- The responses with a code, the question and no answer. -/
def codeResponse (rcode id : UInt16) (rd : Bool) (question : Bytes) : Bytes :=
  appendHeader [] id rd rcode 0 ++ question

def servFailResponse : UInt16 → Bool → Bytes → Bytes := codeResponse 2

def nxResponse : UInt16 → Bool → Bytes → Bytes := codeResponse 3

def notImplementedResponse : UInt16 → Bool → Bytes → Bytes := codeResponse 4

def emptyResponse : UInt16 → Bool → Bytes → Bytes := codeResponse 0

/-- The part of `buildResponse` after the question has been parsed; `question` is `msg[12:off]`. -/
def answerQuestion (N : Net) (resolver : Bytes → DNSResponse) (id : UInt16) (rd : Bool)
    (q : ParsedQuestion) (question : Bytes) : Bytes :=
  if q.qclass ≠ 1 then notImplementedResponse id rd question
  else if ¬ utf8 ".bit" <:+ N.toLower q.name then nxResponse id rd question
  else
    let r := resolver (N.toLower q.name)
    -- a resolver returns one of three statuses; the default branch of the source answers like `invalid`
    match r.status with
    | .nxDomain => nxResponse id rd question
    | .invalid => servFailResponse id rd question
    | .success => match buildAnswer N q.qtype (answerTTL r) r with
      | none => emptyResponse id rd question
      | some answer => appendHeader [] id rd 0 1 ++ question ++ answer

/-- `buildResponse`; there is no response to a packet that is too short or too long. -/
def buildResponse (N : Net) (resolver : Bytes → DNSResponse) (msg : Bytes) :
    Except Fault (Option Bytes) :=
  if msg.length < 12 ∨ maxDNSPacketSize < msg.length then return none
  else do
    let id ← slice msg 0 2 >>= readUint16
    let flags ← slice msg 2 4 >>= readUint16
    let rd := decide (flags &&& 0x0100 ≠ 0)
    let opcode := (flags >>> 11) &&& 0xF
    let qdCount ← slice msg 4 6 >>= readUint16
    if opcode ≠ 0 ∨ qdCount ≠ 1 then return some (formatErrorResponse id rd)
    else match parseQuestion msg 12 with
      | .error .panic => .error .panic
      | .error (.error _ _) => return some (formatErrorResponse id rd)
      | .ok q => do
        let question ← slice msg 12 q.off
        return some (answerQuestion N resolver id rd q question)

/-! ### The fields of a query -/

variable {N : Net} {resolver : Bytes → DNSResponse} {msg resp : Bytes} {q : ParsedQuestion}
  {id rcode anCount : UInt16} {rd : Bool}

/-- The number at an even offset of the header. -/
def field (msg : Bytes) (i : ℕ) : UInt16 := uint16 (msg.getD i 0) (msg.getD (i + 1) 0)

/-- The query is a standard query with one question. -/
def Standard (msg : Bytes) : Prop := (field msg 2 >>> 11) &&& 0xF = 0 ∧ field msg 4 = 1

instance (msg : Bytes) : Decidable (Standard msg) := by unfold Standard; infer_instance

theorem read_field {i : ℕ} (h : i + 2 ≤ msg.length) :
    (slice msg i (i + 2) >>= readUint16) = .ok (field msg i) := by
  have h₁ : msg.drop i = [msg.getD i 0, msg.getD (i + 1) 0] ++ msg.drop (i + 2) := by
    rw [List.drop_eq_getElem_cons (show i < msg.length by omega),
      List.drop_eq_getElem_cons (show i + 1 < msg.length by omega)]
    simp [List.getD, show i < msg.length by omega, show i + 1 < msg.length by omega]
  have hslice : slice msg i (i + 2) = .ok _ := slice_of_drop h₁ (by omega)
  rw [hslice]
  rfl

/-- The RD bit of a query. -/
def recursionDesired (msg : Bytes) : Bool := decide (field msg 2 &&& 0x0100 ≠ 0)

theorem buildResponse_eq (hmin : 12 ≤ msg.length) (hmax : msg.length ≤ maxDNSPacketSize) :
    buildResponse N resolver msg =
      if (field msg 2 >>> 11) &&& 0xF ≠ 0 ∨ field msg 4 ≠ 1 then
        .ok (some (formatErrorResponse (field msg 0) (recursionDesired msg)))
      else match parseQuestion msg 12 with
        | .error .panic => .error .panic
        | .error (.error _ _) => .ok (some (formatErrorResponse (field msg 0) (recursionDesired msg)))
        | .ok q => do
          let question ← slice msg 12 q.off
          return some (answerQuestion N resolver (field msg 0) (recursionDesired msg) q question) := by
  rw [buildResponse, if_neg (by omega), read_field (i := 0) (by omega)]
  show ((slice msg 2 4 >>= readUint16) >>= _) = _
  rw [read_field (i := 2) (by omega)]
  show ((slice msg 4 6 >>= readUint16) >>= _) = _
  rw [read_field (i := 4) (by omega)]
  rfl

theorem buildResponse_error (hmin : 12 ≤ msg.length) (hmax : msg.length ≤ maxDNSPacketSize)
    (h : ¬ (Standard msg ∧ ∃ q, parseQuestion msg 12 = .ok q)) :
    buildResponse N resolver msg =
      .ok (some (formatErrorResponse (field msg 0) (recursionDesired msg))) := by
  rw [buildResponse_eq hmin hmax]
  by_cases hs : Standard msg
  · rw [if_neg (by rw [not_or, not_not, not_not]; exact hs)]
    cases hq : parseQuestion msg 12 with
    | ok q => exact absurd ⟨hs, q, hq⟩ h
    | error e =>
      cases e with
      | panic => exact absurd hq (parseQuestion_not_panic msg 12)
      | error text off => rfl
  · rw [if_pos (by rwa [← not_and_or])]

theorem buildResponse_question (hmin : 12 ≤ msg.length) (hmax : msg.length ≤ maxDNSPacketSize)
    (hs : Standard msg) (hq : parseQuestion msg 12 = .ok q) : buildResponse N resolver msg = .ok (some
      (answerQuestion N resolver (field msg 0) (recursionDesired msg) q ((msg.take q.off).drop 12))) := by
  have hasks := parseQuestion_ok_iff.mp hq
  have hoff : 12 ≤ q.off := by
    obtain ⟨labels, _, _, _, _, _, -, -, -, rfl⟩ := hasks
    show 12 ≤ 12 + (encodeLabels labels).length + 5
    omega
  rw [buildResponse_eq hmin hmax, if_neg (by rw [not_or, not_not, not_not]; exact hs), hq]
  show (slice msg 12 q.off >>= _) = _
  rw [slice, if_pos ⟨hoff, hasks.off_le⟩]
  rfl

/-! ### Well-formed responses -/

/-- What a response to a query should be. -/
structure Formed (msg resp : Bytes) : Prop where
  size : resp.length ≤ maxDNSPacketSize
  message : ∃ m, Well resp m ∧ m.header.id = field msg 0 ∧ m.header.flags &&& 0x8000 ≠ 0 ∧
    (m.header.flags &&& 0x0100 ≠ 0 ↔ field msg 2 &&& 0x0100 ≠ 0)

/-- The header that `appendHeader` writes. -/
def responseHeader (id : UInt16) (rd : Bool) (rcode anCount : UInt16) : Header :=
  ⟨id, ((if rd then 0x8000 ||| 0x0100 else 0x8000) ||| (rcode &&& 0xF)) ||| 0x0400, 1, anCount, 0, 0⟩

theorem appendHeader_nil : appendHeader [] id rd rcode anCount =
      encodeHeader (responseHeader id rd rcode anCount) := by
  have hzero : putUint16 0 ++ putUint16 0 = [0, 0, 0, 0] := by decide
  cases rd <;> simp only [appendHeader, encodeHeader, responseHeader, List.nil_append,
    List.append_assoc, hzero]

/-- QR is set and RD is repeated, whatever the code. -/
theorem flags_responseHeader : (responseHeader id rd rcode anCount).flags &&& 0x8000 ≠ 0 ∧
    ((responseHeader id rd rcode anCount).flags &&& 0x0100 ≠ 0 ↔ rd = true) := by
  have hcode : ∀ mask : UInt16, 0xF &&& mask = 0 → (rcode &&& 0xF) &&& mask = 0 := fun mask h => by
    rw [UInt16.and_assoc, h, UInt16.and_zero]
  have h₁ := hcode 0x8000 (by decide)
  have h₂ := hcode 0x0100 (by decide)
  simp only [responseHeader, uint16_or_and, h₁, h₂]
  cases rd <;> decide

theorem header_of_well {m : Message} {rest : Bytes}
    (h : Well (appendHeader [] id rd rcode anCount ++ rest) m) :
    m.header = responseHeader id rd rcode anCount := by
  have hhead := h.header
  rw [appendHeader_nil, List.take_left' (length_encodeHeader _)] at hhead
  exact (encodeHeader_injective hhead).symm

/-- **An error without the question is no message**, since its header announces a question. -/
theorem not_formed_formatErrorResponse : ¬ Formed msg (formatErrorResponse id rd) := by
  rintro ⟨-, m, hwell, -⟩
  have hwell' : Well (appendHeader [] id rd 1 0 ++ []) m := by
    rw [List.append_nil]
    exact hwell
  have hgt := hwell'.length_gt (by rw [header_of_well hwell']; exact (by decide : (1 : UInt16) ≠ 0))
  rw [List.append_nil, appendHeader_nil, length_encodeHeader] at hgt
  omega

/-! ### The question in a response -/

theorem question_bytes (h : Asks msg 12 q) : ∃ labels, (∀ l ∈ labels, LabelOK l) ∧
    (msg.take q.off).drop 12 = encodeQuestion ⟨⟨labels, none⟩, q.qtype, q.qclass⟩ ∧
    ((msg.take q.off).drop 12).length + 12 = q.off ∧ q.off ≤ 273 := by
  obtain ⟨labels, t₁, t₂, c₁, c₂, rest, hne, hlong, ⟨hok, hdrop⟩, rfl⟩ := h
  have hlen := length_joinDots hne
  have hbytes : (msg.take (12 + (encodeLabels labels).length + 5)).drop 12 =
      encodeLabels labels ++ [0, t₁, t₂, c₁, c₂] := by
    rw [show 12 + (encodeLabels labels).length + 5 = 12 + ((encodeLabels labels).length + 5) by omega,
      ← List.take_drop, hdrop]
    rw [show encodeLabels labels ++ 0 :: t₁ :: t₂ :: c₁ :: c₂ :: rest =
      (encodeLabels labels ++ [0, t₁, t₂, c₁, c₂]) ++ rest by simp]
    exact List.take_left' (by simp)
  refine ⟨labels, hok, ?_, ?_, ?_⟩
  · show (msg.take (12 + (encodeLabels labels).length + 5)).drop 12 = _
    rw [hbytes, encodeQuestion, encodeName, putUint16_uint16, putUint16_uint16]
    simp
  · show ((msg.take (12 + (encodeLabels labels).length + 5)).drop 12).length + 12 =
      12 + (encodeLabels labels).length + 5
    rw [hbytes]
    simp only [List.length_append, List.length_cons, List.length_nil]
    omega
  · show 12 + (encodeLabels labels).length + 5 ≤ 273
    omega

theorem formed_of_records (rcode anCount : UInt16) (answers : List Record) {question : Bytes}
    {labels : List Bytes} {qtype qclass : UInt16} (hok : ∀ l ∈ labels, LabelOK l)
    (hquestion : question = encodeQuestion ⟨⟨labels, none⟩, qtype, qclass⟩)
    (hcount : anCount.toNat = answers.length)
    (hanswers : ∀ r ∈ answers, r.name = ⟨[], some 12⟩ ∧ r.rdLength.toNat = r.rdata.length)
    (hresp : resp = appendHeader [] (field msg 0) (recursionDesired msg) rcode anCount ++ question ++
      answers.flatMap encodeRecord) (hsize : resp.length ≤ maxDNSPacketSize) : Formed msg resp := by
  have hflags := @flags_responseHeader (field msg 0) rcode anCount (recursionDesired msg)
  have hencoded : resp = encode ⟨responseHeader (field msg 0) (recursionDesired msg) rcode anCount,
      [⟨⟨labels, none⟩, qtype, qclass⟩], answers, [], []⟩ := by
    rw [hresp, appendHeader_nil, hquestion, encode]
    simp
  -- the name of an answer leads to the question, which comes after the header
  have hname : encodeName ⟨labels, none⟩ <+: resp.drop 12 := by
    rw [hresp, appendHeader_nil, hquestion, List.append_assoc, List.drop_left' (length_encodeHeader _),
      encodeQuestion, List.append_assoc, List.append_assoc]
    exact List.prefix_append _ _
  refine ⟨hsize, _, ⟨hencoded, rfl, hcount, rfl, rfl, ?_, ?_⟩, rfl, hflags.1, ?_⟩
  · intro q hq
    rw [List.mem_singleton.mp hq]
    exact ⟨hok, fun _ h => by cases h⟩
  · intro r hr
    have hmem : r ∈ answers := by simpa using hr
    obtain ⟨hptr, hlen⟩ := hanswers r hmem
    refine ⟨?_, hlen⟩
    rw [hptr]
    refine ⟨by simp, fun off hoff => ?_⟩
    cases hoff
    exact ⟨by decide, labels, hok, hname⟩
  · rw [hflags.2, recursionDesired, decide_eq_true_iff]

/-! ### Answers -/

theorem length_txtData (txt : Bytes) : (txtData txt).length = 1 + min maxTXTSize txt.length := by
  rw [txtData, List.length_cons, List.length_take, Nat.add_comm]

theorem length_to4 {ip data : Bytes} (h : to4 ip = some data) : data.length = 4 := by
  unfold to4 at h
  split_ifs at h with h4 h16
  · cases h
    exact h4
  · cases h
    rw [List.length_drop, h16.1]

theorem length_to16 {ip data : Bytes} (h : to16 ip = some data) : data.length = 16 := by
  unfold to16 at h
  split_ifs at h with h4 h16
  · cases h
    simp [h4]
  · cases h
    exact h16

/-- The data of a text answer; without a text there is none. -/
theorem answerData_txt (r : DNSResponse) : answerData N 16 r =
    if utf8 r.txtRecord = [] then none else some (txtData (utf8 r.txtRecord)) := by
  rw [answerData, if_neg (by decide), if_pos rfl]

theorem length_answerData {qtype : UInt16} {r : DNSResponse} {data : Bytes} (hne : qtype ≠ 16)
    (h : answerData N qtype r = some data) : data.length ≤ 16 := by
  unfold answerData at h
  rw [if_neg hne] at h
  split_ifs at h with haddr h6 hdot
  · cases hip : N.parseIP r.ip <;> simp [hip] at h
  · cases hip : N.parseIP r.ip with
    | none => simp [hip] at h
    | some ip =>
      rw [hip] at h
      exact (length_to16 h).le
  · cases hip : N.parseIP r.ip with
    | none => simp [hip] at h
    | some ip =>
      rw [hip] at h
      rw [length_to4 h]
      omega

theorem buildAnswer_eq {qtype : UInt16} {ttl : UInt32} {r : DNSResponse} {answer : Bytes}
    (h : buildAnswer N qtype ttl r = some answer) : ∃ data, answerData N qtype r = some data ∧
      answer = encodeRecord ⟨⟨[], some 12⟩, qtype, 1, ttl, UInt16.ofNat data.length, data⟩ ∧
      answer.length = 12 + data.length := by
  obtain ⟨data, hdata, rfl⟩ := Option.map_eq_some_iff.mp h
  have hptr : encodeName ⟨[], some 12⟩ = [0xC0, 0x0C] := by decide
  have heq : appendRData (appendTypeClassTTL (appendNamePtr []) qtype ttl) data =
      encodeRecord ⟨⟨[], some 12⟩, qtype, 1, ttl, UInt16.ofNat data.length, data⟩ := by
    simp only [appendRData, appendTypeClassTTL, appendNamePtr, encodeRecord, hptr, List.nil_append,
      List.append_assoc]
  refine ⟨data, hdata, heq, ?_⟩
  simp only [appendRData, appendTypeClassTTL, appendNamePtr, List.length_append, length_putUint16,
    length_putUint32, List.length_cons, List.length_nil]

/-- The question is answered with a text, and the answer does not fit into a packet after the question. -/
def Overlong (N : Net) (resolver : Bytes → DNSResponse) (q : ParsedQuestion) : Prop :=
  q.qclass = 1 ∧ utf8 ".bit" <:+ N.toLower q.name ∧ (resolver (N.toLower q.name)).status = .success ∧
    q.qtype = 16 ∧ maxDNSPacketSize < q.off + 13 + min maxTXTSize
    (utf8 (resolver (N.toLower q.name)).txtRecord).length

theorem formed_answer_iff (h : Asks msg 12 q) {ttl : UInt32} {data answer : Bytes}
    (hanswer : answer = encodeRecord ⟨⟨[], some 12⟩, q.qtype, 1, ttl, UInt16.ofNat data.length, data⟩)
    (hlen : answer.length = 12 + data.length) :
    Formed msg (appendHeader [] (field msg 0) (recursionDesired msg) 0 1 ++
      (msg.take q.off).drop 12 ++ answer) ↔ q.off + 12 + data.length ≤ maxDNSPacketSize := by
  obtain ⟨labels, hok, hquestion, hoff, -⟩ := question_bytes h
  have hsize : (appendHeader [] (field msg 0) (recursionDesired msg) 0 1 ++ (msg.take q.off).drop 12 ++
    answer).length = q.off + 12 + data.length := by
    rw [List.length_append, List.length_append, appendHeader_nil, length_encodeHeader, hlen]
    omega
  constructor
  · intro hformed
    rw [← hsize]
    exact hformed.size
  · intro hle
    have hshort : data.length < 2 ^ 16 := by
      rw [maxDNSPacketSize] at hle
      omega
    refine formed_of_records 0 1 [⟨⟨[], some 12⟩, q.qtype, 1, ttl, UInt16.ofNat data.length, data⟩]
      hok hquestion rfl ?_ ?_ (hsize.trans_le hle)
    · intro r hr
      rw [List.mem_singleton.mp hr]
      exact ⟨rfl, UInt16.toNat_ofNat_of_lt' hshort⟩
    · rw [hanswer, List.flatMap_singleton]

/-- **A response to a question is well formed** exactly if it fits into a packet. -/
theorem formed_answerQuestion_iff (h : Asks msg 12 q) :
    Formed msg (answerQuestion N resolver (field msg 0) (recursionDesired msg) q
      ((msg.take q.off).drop 12)) ↔ ¬ Overlong N resolver q := by
  obtain ⟨labels, hok, hquestion, hlen, hoff⟩ := question_bytes h
  have hcode : ∀ rcode, Formed msg (codeResponse rcode (field msg 0) (recursionDesired msg)
      ((msg.take q.off).drop 12)) := by
    intro rcode
    refine formed_of_records rcode 0 [] hok hquestion rfl (by simp) (List.append_nil _).symm ?_
    rw [codeResponse, appendHeader_nil, List.length_append, length_encodeHeader, maxDNSPacketSize]
    omega
  unfold answerQuestion Overlong
  by_cases hclass : q.qclass = 1
  swap
  · rw [if_pos hclass]
    exact iff_of_true (hcode 4) fun hlong => hclass hlong.1
  rw [if_neg (not_not.mpr hclass)]
  by_cases hbit : utf8 ".bit" <:+ N.toLower q.name
  swap
  · rw [if_pos hbit]
    exact iff_of_true (hcode 3) fun hlong => hbit hlong.2.1
  rw [if_neg (not_not.mpr hbit)]
  dsimp only
  cases hstatus : (resolver (N.toLower q.name)).status with
  | nxDomain => exact iff_of_true (hcode 3) (by simp)
  | invalid => exact iff_of_true (hcode 2) (by simp)
  | success =>
    simp only [hclass, hbit, true_and, not_and, not_lt]
    cases hanswer : buildAnswer N q.qtype (answerTTL (resolver (N.toLower q.name)))
        (resolver (N.toLower q.name)) with
    | none =>
      refine iff_of_true (hcode 0) fun htxt => ?_
      have hnone := Option.map_eq_none_iff.mp hanswer
      rw [htxt, answerData_txt] at hnone
      have hempty : utf8 (resolver (N.toLower q.name)).txtRecord = [] := by
        by_contra hne
        rw [if_neg hne] at hnone
        cases hnone
      rw [hempty, maxDNSPacketSize, List.length_nil]
      omega
    | some answer =>
      obtain ⟨data, hdata, heq, hsize⟩ := buildAnswer_eq hanswer
      rw [formed_answer_iff h heq hsize]
      by_cases htxt : q.qtype = 16
      · rw [htxt, answerData_txt] at hdata
        split_ifs at hdata
        cases hdata
        rw [length_txtData]
        refine ⟨fun hle _ => ?_, fun hle => ?_⟩
        · omega
        · have := hle htxt
          omega
      · have hshort := length_answerData htxt hdata
        refine iff_of_true ?_ fun h16 => absurd h16 htxt
        rw [maxDNSPacketSize]
        omega

/-- **When the response to a query is well formed.** There is a response to every query of 12 to 512
bytes. It is a message with the ID and the RD bit of the query that fits into a packet exactly if the
query is a standard query with one question, the question can be parsed, and the answer is not a text
that is too long for the packet. -/
theorem formed_iff (N : Net) (resolver : Bytes → DNSResponse) (msg : Bytes) (hmin : 12 ≤ msg.length)
    (hmax : msg.length ≤ maxDNSPacketSize) : ∃ resp, buildResponse N resolver msg = .ok (some resp) ∧
      (Formed msg resp ↔ Standard msg ∧ ∃ q, parseQuestion msg 12 = .ok q ∧ ¬ Overlong N resolver q) := by
  by_cases hread : Standard msg ∧ ∃ q, parseQuestion msg 12 = .ok q
  · obtain ⟨hs, q, hq⟩ := hread
    refine ⟨_, buildResponse_question hmin hmax hs hq, ?_⟩
    rw [formed_answerQuestion_iff (parseQuestion_ok_iff.mp hq)]
    refine ⟨fun hfit => ⟨hs, q, hq, hfit⟩, ?_⟩
    rintro ⟨-, q', hq', hfit⟩
    cases hq.symm.trans hq'
    exact hfit
  · refine ⟨_, buildResponse_error hmin hmax hread, iff_of_false not_formed_formatErrorResponse ?_⟩
    rintro ⟨hs, q, hq, -⟩
    exact hread ⟨hs, q, hq⟩

/-! ### Three queries -/

/-- Names are in lower case already, and there are no addresses. -/
def plainNet : Net := ⟨fun b => b, fun _ => none, fun h => by cases h⟩

/-- A resolver with one text for all names. -/
def textResolver (txt : String) (_ : Bytes) : DNSResponse := ⟨"", "", txt, .success, 1⟩

/-- A query for the text of a name. -/
def txtQuery (labels : List Bytes) : Bytes :=
  [0, 7, 1, 0, 0, 1, 0, 0, 0, 0, 0, 0] ++ (encodeLabels labels ++ [0, 0, 16, 0, 1])

theorem asks_txtQuery (labels : List Bytes) (hne : labels ≠ []) (hok : ∀ l ∈ labels, LabelOK l)
    (hlong : (joinDots labels).length ≤ 255) : parseQuestion (txtQuery labels) 12 =
      .ok ⟨joinDots labels, 16, 1, 12 + (encodeLabels labels).length + 5⟩ :=
  parseQuestion_ok_iff.mpr ⟨labels, 0, 16, 0, 1, [], hne, hlong, ⟨hok, rfl⟩, rfl⟩

theorem standard_txtQuery (labels : List Bytes) : Standard (txtQuery labels) := by
  have hfield : field (txtQuery labels) 2 = 0x0100 ∧ field (txtQuery labels) 4 = 1 := ⟨rfl, rfl⟩
  rw [Standard, hfield.1, hfield.2]
  decide

theorem overlong_txtQuery_iff {txt : String} {labels : List Bytes}
    (hbit : utf8 ".bit" <:+ joinDots labels) :
    Overlong plainNet (textResolver txt) ⟨joinDots labels, 16, 1, 12 + (encodeLabels labels).length + 5⟩ ↔
      maxDNSPacketSize < 12 + (encodeLabels labels).length + 5 + 13 + min maxTXTSize (utf8 txt).length :=
  ⟨fun h => h.2.2.2.2, fun h => ⟨rfl, hbit, rfl, rfl, h⟩⟩

/-- A name of 255 bytes. -/
def longLabels : List Bytes :=
  [List.replicate 63 97, List.replicate 63 97, List.replicate 63 97, List.replicate 59 97, [98, 105, 116]]

/-- A text of `n` bytes. -/
def longText (n : ℕ) : String := String.ofList (List.replicate n 'a')

theorem length_longText (n : ℕ) : (utf8 (longText n)).length = n := by
  have hone : (String.utf8EncodeChar 'a').length = 1 := by decide
  rw [utf8, longText, String.toList_ofList, List.length_flatMap, List.map_replicate, hone]
  simp

/-- A query of zeros is answered with a header alone, and a query for a long name and a long text
with more than 512 bytes. -/
theorem malformed_responses :
    (∃ resp, buildResponse plainNet (textResolver "") (List.replicate 12 0) = .ok (some resp) ∧
      ¬ Formed (List.replicate 12 0) resp) ∧
    ∃ resp, buildResponse plainNet (textResolver (longText 255)) (txtQuery longLabels) = .ok (some resp) ∧
      ¬ Formed (txtQuery longLabels) resp := by
  have hzero : ¬ Standard (List.replicate 12 0) := by decide
  have hlong := asks_txtQuery longLabels (by decide) (by decide +kernel) (by decide +kernel)
  have hmax : (txtQuery longLabels).length ≤ maxDNSPacketSize := by decide +kernel
  refine ⟨⟨_, buildResponse_error (by decide) (by decide) fun h => hzero h.1,
    not_formed_formatErrorResponse⟩, _, buildResponse_question (by decide +kernel) hmax
    (standard_txtQuery _) hlong, ?_⟩
  rw [formed_answerQuestion_iff (parseQuestion_ok_iff.mp hlong), not_not]
  have hbit : utf8 ".bit" <:+ joinDots longLabels := by
    rw [show utf8 ".bit" = [46, 98, 105, 116] by decide]
    decide +kernel
  rw [overlong_txtQuery_iff hbit, length_longText]
  decide +kernel

/-- A query for the text of `a.bit`. -/
theorem formed_short : ∃ resp, buildResponse plainNet (textResolver "text")
      (txtQuery [[97], [98, 105, 116]]) =
    .ok (some resp) ∧ Formed (txtQuery [[97], [98, 105, 116]]) resp := by
  have hasks := asks_txtQuery [[97], [98, 105, 116]] (by decide) (by decide) (by decide)
  obtain ⟨resp, hresp, hiff⟩ := formed_iff plainNet (textResolver "text")
    (txtQuery [[97], [98, 105, 116]]) (by decide) (by decide)
  refine ⟨resp, hresp, hiff.mpr ⟨standard_txtQuery _, _, hasks, ?_⟩⟩
  rintro ⟨-, -, -, -, h⟩
  exact absurd h (by decide)

end Namecoin.Dns.Responses
