import Namecoin.Lib.Json

/-! # A binary code for JSON texts

A codec in the sense of `Json.Codec` that can be run: every constructor has a tag byte, strings
and digits end in a byte that does not occur in them. `parse_code` reads a text off the front of a
byte string, so the code is a prefix code (`code_append_inj`) and `binary` is a codec. `valueCode`
does the same for values. -/

namespace Namecoin.Lib.JsonCode

open Lib.ByteStrings Lib.Json

/-! ### Numbers and strings -/

/-- A number in base 128, the lowest digit first, with at most `fuel` digits. -/
def digits128 : ℕ → ℕ → List ℕ
  | 0, _ => []
  | _, 0 => []
  | fuel + 1, n => n % 128 :: digits128 fuel (n / 128)

/-- The number with the given digits. -/
def ofDigits128 : List ℕ → ℕ
  | [] => 0
  | d :: ds => d + 128 * ofDigits128 ds

theorem ofDigits128_digits128 : ∀ fuel n : ℕ, n < 128 ^ fuel → ofDigits128 (digits128 fuel n) = n
  | 0, n, h => by simp at h; simp [digits128, ofDigits128, h]
  | fuel + 1, 0, _ => rfl
  | fuel + 1, n + 1, h => by
    rw [digits128, ofDigits128, ofDigits128_digits128 fuel]
    · omega
    · rw [Nat.pow_succ] at h; omega
    · simp

theorem digits128_lt : ∀ fuel n : ℕ, ∀ d ∈ digits128 fuel n, d < 128
  | 0, n, d, h => by simp [digits128] at h
  | fuel + 1, 0, d, h => by simp [digits128] at h
  | fuel + 1, n + 1, d, h => by
    rw [digits128] at h
    · rcases List.mem_cons.mp h with rfl | h
      · omega
      · exact digits128_lt fuel _ d h
    · simp

theorem toNat_ofNat_of_lt {n : ℕ} (h : n < 255) : (UInt8.ofNat n).toNat = n := by
  simp [Nat.mod_eq_of_lt (by omega : n < 256)]

theorem ofNat_ne {n : ℕ} {b : UInt8} (h : n < 255) (hb : n ≠ b.toNat) : UInt8.ofNat n ≠ b := fun he => by
  rw [← he, toNat_ofNat_of_lt h] at hb
  exact hb rfl

/-- A list of numbers below 255, each a byte, and the byte 255. -/
def blockCode (ns : List ℕ) : Bytes := ns.map UInt8.ofNat ++ [255]

/-- Read numbers up to the byte 255. -/
def parseBlock : Bytes → Option (List ℕ × Bytes)
  | [] => none
  | b :: r => if b = 255 then some ([], r) else (parseBlock r).map fun p => (b.toNat :: p.1, p.2)

theorem parseBlock_blockCode : ∀ (ns : List ℕ) (r : Bytes), (∀ n ∈ ns, n < 255) →
    parseBlock (blockCode ns ++ r) = some (ns, r)
  | [], r, _ => by simp [blockCode, parseBlock]
  | n :: ns, r, h => by
    have hn : n < 255 := h n (by simp)
    have ih := parseBlock_blockCode ns r fun m hm => h m (List.mem_cons_of_mem _ hm)
    have hne : UInt8.ofNat n ≠ 255 := ofNat_ne hn (by simp; omega)
    unfold blockCode at ih ⊢
    rw [List.map_cons, List.cons_append, List.cons_append, parseBlock, if_neg hne, ih]
    rw [Option.map_some, toNat_ofNat_of_lt hn]

/-- The code of a number. -/
def natCode (n : ℕ) : Bytes := blockCode (digits128 (n.log2 + 1) n)

/-- Read a number. -/
def parseNat (b : Bytes) : Option (ℕ × Bytes) := (parseBlock b).map fun p => (ofDigits128 p.1, p.2)

theorem parseNat_natCode (n : ℕ) (r : Bytes) : parseNat (natCode n ++ r) = some (n, r) := by
  have hlt : n < 128 ^ (n.log2 + 1) := by
    calc n < 2 ^ (n.log2 + 1) := Nat.lt_log2_self
      _ ≤ 128 ^ (n.log2 + 1) := Nat.pow_le_pow_left (by omega) _
  unfold parseNat natCode
  rw [parseBlock_blockCode _ _ fun d hd => by have := digits128_lt _ _ d hd; omega]
  simp [ofDigits128_digits128 _ _ hlt]

/-- The code of a character: ASCII as it is, others as 254 and a number. -/
def charCode (c : Char) : Bytes := if c.toNat < 128 then [UInt8.ofNat c.toNat] else 254 :: natCode c.toNat

/-- The code of a string. -/
def strCode (cs : List Char) : Bytes := cs.flatMap charCode ++ [255]

/-- Read characters up to the byte 255. -/
def parseStr : ℕ → Bytes → Option (List Char × Bytes)
  | 0, _ => none
  | _, [] => none
  | fuel + 1, b :: r =>
    if b = 255 then some ([], r)
    else if b = 254 then
      match parseNat r with
      | some (n, r) => (parseStr fuel r).map fun p => (Char.ofNat n :: p.1, p.2)
      | none => none
    else (parseStr fuel r).map fun p => (Char.ofNat b.toNat :: p.1, p.2)

theorem parseStr_strCode : ∀ (cs : List Char) (fuel : ℕ) (r : Bytes), cs.length < fuel →
    parseStr fuel (strCode cs ++ r) = some (cs, r)
  | [], 0, r, h => by omega
  | [], fuel + 1, r, h => by simp [strCode, parseStr]
  | c :: cs, 0, r, h => by omega
  | c :: cs, fuel + 1, r, h => by
    have ih := parseStr_strCode cs fuel r (by simp at h; omega)
    unfold strCode at ih ⊢
    rw [List.flatMap_cons, charCode]
    split_ifs with hc
    · have h1 : UInt8.ofNat c.toNat ≠ 255 := ofNat_ne (by omega) (by simp; omega)
      have h2 : UInt8.ofNat c.toNat ≠ 254 := ofNat_ne (by omega) (by simp; omega)
      simp only [List.cons_append, List.nil_append, List.append_assoc, parseStr, if_neg h1,
        if_neg h2] at ih ⊢
      rw [ih, Option.map_some, toNat_ofNat_of_lt (by omega), Char.ofNat_toNat]
    · simp only [List.cons_append, List.append_assoc, parseStr] at ih ⊢
      rw [if_neg (by decide), parseNat_natCode]
      simp only [if_true, ih, Option.map_some, Char.ofNat_toNat]

/-! ### Texts -/

/-- The code of a number as it is written. -/
def numCode (n : JsonNum) : Bytes :=
  (if n.neg then 1 else 0) :: natCode n.int ++ blockCode (n.frac.map Fin.val) ++
    match n.exp with
    | none => [0]
    | some e => (if e < 0 then 2 else 1) :: natCode e.natAbs

/-- Read an exponent. -/
def parseExp : Bytes → Option (Option ℤ × Bytes)
  | [] => none
  | b :: r =>
    if b = 0 then some (none, r)
    else (parseNat r).map fun p => (some (if b = 2 then -(p.1 : ℤ) else p.1), p.2)

/-- Read a number as it is written. -/
def parseNum : Bytes → Option (JsonNum × Bytes)
  | [] => none
  | b :: r => do
    let (int, r) ← parseNat r
    let (frac, r) ← parseBlock r
    let (exp, r) ← parseExp r
    return (⟨b = 1, int, frac.map (Fin.ofNat 10), exp⟩, r)

theorem parseNum_numCode (n : JsonNum) (r : Bytes) : parseNum (numCode n ++ r) = some (n, r) := by
  obtain ⟨neg, int, frac, exp⟩ := n
  have hfrac : (frac.map Fin.val).map (Fin.ofNat 10) = frac := by
    rw [List.map_map]
    conv_rhs => rw [← List.map_id frac]
    exact List.map_congr_left fun d _ => by simp
  have hexp : ∀ r, parseExp ((match exp with
      | none => [0]
      | some e => (if e < 0 then 2 else 1) :: natCode e.natAbs) ++ r) = some (exp, r) := by
    intro r
    cases exp with
    | none => rfl
    | some e =>
      by_cases he : e < 0
      · have hval : -(e.natAbs : ℤ) = e := by omega
        simp only [if_pos he, List.cons_append, parseExp, parseNat_natCode, Option.map_some]
        rw [if_neg (by decide), if_pos trivial, hval]
      · have hval : (e.natAbs : ℤ) = e := by omega
        simp only [if_neg he, List.cons_append, parseExp, parseNat_natCode, Option.map_some]
        rw [if_neg (by decide), if_neg (by decide), hval]
  unfold numCode parseNum
  simp only [List.cons_append, List.append_assoc, parseNat_natCode, Option.bind_eq_bind, Option.bind_some]
  rw [parseBlock_blockCode _ _ fun d hd => by
    obtain ⟨x, -, rfl⟩ := List.mem_map.mp hd; omega]
  simp only [Option.bind_some, hexp, hfrac, Option.pure_def]
  cases neg <;> rfl

mutual

/-- The code of a text. -/
def code : JsonText → Bytes
  | .null => [0]
  | .bool false => [1]
  | .bool true => [2]
  | .num n => 3 :: numCode n
  | .str s => 4 :: strCode s.toList
  | .arr xs => 5 :: codeList xs
  | .obj kvs => 6 :: codeMembers kvs

/-- The codes of the members of an array. -/
def codeList : List JsonText → Bytes
  | [] => [0]
  | x :: xs => 1 :: code x ++ codeList xs

/-- The codes of the members of an object. -/
def codeMembers : List (String × JsonText) → Bytes
  | [] => [0]
  | (k, x) :: kvs => 1 :: strCode k.toList ++ code x ++ codeMembers kvs

end

mutual

/-- Read a text. -/
def parse : ℕ → Bytes → Option (JsonText × Bytes)
  | 0, _ => none
  | _, [] => none
  | fuel + 1, b :: r => match b.toNat with
    | 0 => some (.null, r)
    | 1 => some (.bool false, r)
    | 2 => some (.bool true, r)
    | 3 => (parseNum r).map fun p => (.num p.1, p.2)
    | 4 => (parseStr fuel r).map fun p => (.str (String.ofList p.1), p.2)
    | 5 => (parseList fuel r).map fun p => (.arr p.1, p.2)
    | 6 => (parseMembers fuel r).map fun p => (.obj p.1, p.2)
    | _ => none

/-- Read the members of an array. -/
def parseList : ℕ → Bytes → Option (List JsonText × Bytes)
  | 0, _ => none
  | _, [] => none
  | fuel + 1, b :: r =>
    if b = 0 then some ([], r)
    else match parse fuel r with
      | some (x, r) => (parseList fuel r).map fun p => (x :: p.1, p.2)
      | none => none

/-- Read the members of an object. -/
def parseMembers : ℕ → Bytes → Option (List (String × JsonText) × Bytes)
  | 0, _ => none
  | _, [] => none
  | fuel + 1, b :: r =>
    if b = 0 then some ([], r)
    else match parseStr fuel r with
      | some (k, r) => match parse fuel r with
        | some (x, r) => (parseMembers fuel r).map fun p => ((String.ofList k, x) :: p.1, p.2)
        | none => none
      | none => none

end

theorem length_lt_strCode (cs : List Char) : cs.length < (strCode cs).length := by
  have hpos : ∀ c, 0 < (charCode c).length := fun c => by unfold charCode; split_ifs <;> simp
  have h : cs.length ≤ (cs.flatMap charCode).length := by
    induction cs with
    | nil => simp
    | cons c cs ih =>
      have := hpos c
      simp only [List.flatMap_cons, List.length_append, List.length_cons]
      omega
  simp only [strCode, List.length_append, List.length_cons, List.length_nil]
  omega

theorem code_length_pos (t : JsonText) : 0 < (code t).length := by
  cases t with
  | bool b => cases b <;> simp [code]
  | _ => simp [code]

mutual

theorem parse_code : ∀ (t : JsonText) (fuel : ℕ) (r : Bytes), (code t).length ≤ fuel →
    parse fuel (code t ++ r) = some (t, r)
  | t, 0, r, h => by have := code_length_pos t; omega
  | .null, fuel + 1, r, h => rfl
  | .bool false, fuel + 1, r, h => rfl
  | .bool true, fuel + 1, r, h => rfl
  | .num n, fuel + 1, r, h => by
    show (parseNum (numCode n ++ r)).map _ = _
    rw [parseNum_numCode]; rfl
  | .str s, fuel + 1, r, h => by
    show (parseStr fuel (strCode s.toList ++ r)).map _ = _
    have hs := length_lt_strCode s.toList
    simp only [code, List.length_cons] at h
    rw [parseStr_strCode _ _ _ (by omega)]
    simp
  | .arr xs, fuel + 1, r, h => by
    show (parseList fuel (codeList xs ++ r)).map _ = _
    simp only [code, List.length_cons] at h
    rw [parseList_codeList xs fuel r (by omega)]; rfl
  | .obj kvs, fuel + 1, r, h => by
    show (parseMembers fuel (codeMembers kvs ++ r)).map _ = _
    simp only [code, List.length_cons] at h
    rw [parseMembers_codeMembers kvs fuel r (by omega)]; rfl

theorem parseList_codeList : ∀ (xs : List JsonText) (fuel : ℕ) (r : Bytes), (codeList xs).length ≤ fuel →
    parseList fuel (codeList xs ++ r) = some (xs, r)
  | xs, 0, r, h => by cases xs <;> simp [codeList] at h
  | [], fuel + 1, r, h => rfl
  | x :: xs, fuel + 1, r, h => by
    simp only [codeList, List.cons_append, List.length_cons, List.length_append, List.append_assoc] at h ⊢
    rw [parseList, if_neg (by decide), parse_code x fuel _ (by omega)]
    simp only [parseList_codeList xs fuel r (by omega), Option.map_some]

theorem parseMembers_codeMembers : ∀ (kvs : List (String × JsonText)) (fuel : ℕ) (r : Bytes),
    (codeMembers kvs).length ≤ fuel → parseMembers fuel (codeMembers kvs ++ r) = some (kvs, r)
  | kvs, 0, r, h => by cases kvs <;> simp [codeMembers] at h
  | [], fuel + 1, r, h => rfl
  | (k, x) :: kvs, fuel + 1, r, h => by
    have hs := length_lt_strCode k.toList
    simp only [codeMembers, List.cons_append, List.length_cons, List.length_append,
      List.append_assoc] at h ⊢
    rw [parseMembers, if_neg (by decide), parseStr_strCode _ _ _ (by omega)]
    simp only [parse_code x fuel _ (by omega), parseMembers_codeMembers kvs fuel r (by omega),
      Option.map_some, String.ofList_toList]

end

/-- **A prefix code**: where the code of a text ends can be told from the bytes. -/
theorem code_append_inj {s t : JsonText} {x y : Bytes} (h : code s ++ x = code t ++ y) :
    s = t ∧ x = y := by
  have h1 := parse_code s ((code s).length + (code t).length) x (by omega)
  rw [h, parse_code t _ y (by omega)] at h1
  cases h1
  exact ⟨rfl, rfl⟩

/-- The codec of this code. -/
def binary : Codec where
  encode := code
  decode b := match parse b.length b with
    | some (t, []) => some t
    | _ => none
  decode_encode t := by
    have h := parse_code t (code t).length [] le_rfl
    rw [List.append_nil] at h
    rw [h]
  encode_ne_nil t := by
    cases t with
    | bool b => cases b <;> simp [code]
    | _ => simp [code]

/-! ### Values -/

mutual

/-- A value as a text: a rational is written with its denominator in the place of the exponent. -/
def toText : JsonValue → JsonText
  | .null => .null
  | .bool b => .bool b
  | .num q => .num ⟨decide (q.num < 0), q.num.natAbs, [], some q.den⟩
  | .str s => .str s
  | .arr xs => .arr (toTextList xs)
  | .obj kvs => .obj (toTextMembers kvs)

/-- The members of an array as texts. -/
def toTextList : List JsonValue → List JsonText
  | [] => []
  | x :: xs => toText x :: toTextList xs

/-- The members of an object as texts. -/
def toTextMembers : List (String × JsonValue) → List (String × JsonText)
  | [] => []
  | (k, x) :: kvs => (k, toText x) :: toTextMembers kvs

end

mutual

/-- The value written as a text. -/
def ofText : JsonText → JsonValue
  | .null => .null
  | .bool b => .bool b
  | .num n => .num ((if n.neg then -(n.int : ℚ) else n.int) / (n.exp.getD 1 : ℤ))
  | .str s => .str s
  | .arr xs => .arr (ofTextList xs)
  | .obj kvs => .obj (ofTextMembers kvs)

/-- The values written as the members of an array. -/
def ofTextList : List JsonText → List JsonValue
  | [] => []
  | x :: xs => ofText x :: ofTextList xs

/-- The values written as the members of an object. -/
def ofTextMembers : List (String × JsonText) → List (String × JsonValue)
  | [] => []
  | (k, x) :: kvs => (k, ofText x) :: ofTextMembers kvs

end

theorem ofText_num (q : ℚ) : ofText (toText (.num q)) = .num q := by
  have hsign : (if decide (q.num < 0) = true then -(q.num.natAbs : ℚ) else q.num.natAbs) =
      (q.num : ℚ) := by
    by_cases h : q.num < 0
    · have hval : -(q.num.natAbs : ℤ) = q.num := by omega
      rw [if_pos (by simpa using h), ← Int.cast_natCast, ← Int.cast_neg, hval]
    · have hval : (q.num.natAbs : ℤ) = q.num := by omega
      rw [if_neg (by simpa using h), ← Int.cast_natCast, hval]
  simp only [toText, ofText, hsign, Option.getD_some, Int.cast_natCast]
  rw [Rat.num_div_den]

mutual

theorem ofText_toText : ∀ v : JsonValue, ofText (toText v) = v
  | .null => rfl
  | .bool _ => rfl
  | .num q => ofText_num q
  | .str _ => rfl
  | .arr xs => by rw [toText, ofText, ofTextList_toTextList xs]
  | .obj kvs => by rw [toText, ofText, ofTextMembers_toTextMembers kvs]

theorem ofTextList_toTextList : ∀ xs : List JsonValue, ofTextList (toTextList xs) = xs
  | [] => rfl
  | x :: xs => by rw [toTextList, ofTextList, ofText_toText x, ofTextList_toTextList xs]

theorem ofTextMembers_toTextMembers : ∀ kvs : List (String × JsonValue),
    ofTextMembers (toTextMembers kvs) = kvs
  | [] => rfl
  | (k, x) :: kvs =>
    by rw [toTextMembers, ofTextMembers, ofText_toText x, ofTextMembers_toTextMembers kvs]

end

/-- The code of a value. -/
def valueCode (v : JsonValue) : Bytes := code (toText v)

theorem valueCode_append_inj {v w : JsonValue} {x y : Bytes} (h : valueCode v ++ x = valueCode w ++ y) :
    v = w ∧ x = y := by
  obtain ⟨ht, hxy⟩ := code_append_inj h
  refine ⟨?_, hxy⟩
  rw [← ofText_toText v, ht, ofText_toText]

end Namecoin.Lib.JsonCode
