import Namecoin.Lib.ByteStrings

/-! # Texts of IP addresses

How the standard library of Go reads and writes IP addresses (`net.ParseIP` and `IP.String`). Every
address is an IPv6 address here, and an IPv4 address is one of `::ffff:0:0/96`. Many texts are read as
the same address: groups may have leading zeros and capital letters, zeros may be written out, and the
last two groups may be in dotted form. Each address is written in one way only, in lower case with the
first longest run of zeros left out, and addresses of IPv4 in dotted form.

* `parseIP` and `Ip.text`: reading and writing;
* `shown`: a text as it looks after it has been read and written, if it is an address. -/

namespace Namecoin.Lib.IpText

open Lib.ByteStrings

/-- An address: eight groups of 16 bits. -/
structure Ip where
  groups : List UInt16
  length_groups : groups.length = 8
deriving DecidableEq

/-! ### Reading -/

def isDigit (c : Char) : Bool := '0' ≤ c && c ≤ '9'

/-- `parseIPv4Fields`: four numbers below 256 without leading zeros, with dots between them. `val` is
the value of the `digits` digits of the current number, and `pos` is the number of dots before it. -/
def parseIPv4Fields : List Char → (val digits pos : ℕ) → Option (List ℕ)
  | [], val, _, pos => if pos < 3 then none else some [val]
  | c :: cs, val, digits, pos =>
    if isDigit c then
      if digits = 1 ∧ val = 0 then none
      else
        let val := val * 10 + (c.toNat - '0'.toNat)
        if 255 < val then none else parseIPv4Fields cs val (digits + 1) pos
    else if c = '.' then
      if digits = 0 ∨ cs = [] ∨ pos = 3 then none
      else (parseIPv4Fields cs 0 0 (pos + 1)).map (val :: ·)
    else none

/-- Two groups of an address from the text of an IPv4 address. -/
def dottedGroups (s : List Char) : Option (List UInt16) :=
  match parseIPv4Fields s 0 0 0 with
  | some [a, b, c, d] => some [.ofNat (a * 256 + b), .ofNat (c * 256 + d)]
  | _ => none

/-- The loop of `parseIPv6` over the groups, with `left` groups to come. It gives the groups, where the
ellipsis `::` was, and the text that is left. -/
def parseGroups : (left : ℕ) → List UInt16 → Option ℕ → List Char →
    Option (List UInt16 × Option ℕ × List Char)
  | 0, gs, ellipsis, s => some (gs, ellipsis, s)
  | left + 1, gs, ellipsis, s =>
    let digits := (s.map unhexDigit).takeWhile Option.isSome
    let rest := s.drop digits.length
    if digits.length = 0 ∨ 4 < digits.length then none
    else if rest.head? = some '.' then
      -- an IPv4 address in place of the last two groups
      if ellipsis = none ∧ left ≠ 1 ∨ left = 0 then none
      else (dottedGroups s).map fun last => (gs ++ last, ellipsis, [])
    else
      let gs := gs ++ [.ofNat (digits.foldl (fun acc d => acc * 16 + d.getD 0) 0)]
      match rest with
      | [] => some (gs, ellipsis, [])
      | [_] => none
      | ':' :: ':' :: s =>
        if ellipsis.isSome then none
        else if s = [] then some (gs, some gs.length, [])
        else parseGroups left gs (some gs.length) s
      | ':' :: s => parseGroups left gs ellipsis s
      | _ => none

/-- `parseIPv6`. The ellipsis stands for one group of zeros or more. -/
def parseIPv6 (s : List Char) : Option (List UInt16) :=
  let parsed := match s with
    | [':', ':'] => some ([], some 0, [])
    | ':' :: ':' :: s => parseGroups 8 [] (some 0) s
    | s => parseGroups 8 [] none s
  match parsed with
  | some (gs, ellipsis, []) => match ellipsis with
    | some i =>
      if gs.length < 8 then some (gs.take i ++ List.replicate (8 - gs.length) 0 ++ gs.drop i) else none
    | none => some gs
  | _ => none

/-- `net.ParseIP`. An address with a zone, after a `%`, is not read. -/
def parseIP (s : String) : Option Ip :=
  let groups := match s.toList.find? (fun c => c = '.' ∨ c = ':' ∨ c = '%') with
    | some '.' => (dottedGroups s.toList).map ([0, 0, 0, 0, 0, 0xffff] ++ ·)
    | some ':' => if '%' ∈ s.toList then none else parseIPv6 s.toList
    | _ => none
  groups.bind fun gs => if h : gs.length = 8 then some ⟨gs, h⟩ else none

/-! ### Writing -/

/-- A group in lower-case hexadecimal digits, without leading zeros. -/
def hexText (g : UInt16) : List Char := Nat.toDigits 16 g.toNat

def decText (n : ℕ) : List Char := Nat.toDigits 10 n

def joined (sep : Char) (parts : List (List Char)) : List Char := List.intercalate [sep] parts

/-- The first longest run of two groups of zeros or more: where it begins and how long it is. -/
def longestZeros (gs : List UInt16) : ℕ × ℕ :=
  (List.range gs.length).foldl (fun best i =>
    let l := ((gs.drop i).takeWhile (· == 0)).length
    if 2 ≤ l ∧ best.2 < l then (i, l) else best) (0, 0)

/-- `appendTo6`. -/
def groupsText (gs : List UInt16) : List Char :=
  let (start, l) := longestZeros gs
  if l = 0 then joined ':' (gs.map hexText)
  else joined ':' ((gs.take start).map hexText) ++ [':', ':'] ++
    joined ':' ((gs.drop (start + l)).map hexText)

def octets (g : UInt16) : List ℕ := [g.toNat / 256, g.toNat % 256]

/-- `IP.String`. -/
def Ip.text (ip : Ip) : String :=
  String.ofList (match ip.groups with
    | [0, 0, 0, 0, 0, 0xffff, g, h] => joined '.' ((octets g ++ octets h).map decText)
    | gs => groupsText gs)

/-- A text after it has been read and written, if it is an address. -/
def shown (s : String) : String :=
  match parseIP s with
  | some ip => ip.text
  | none => s

theorem shown_eq_iff {s t : String} :
    shown s = t ↔ parseIP s = none ∧ s = t ∨ ∃ ip, parseIP s = some ip ∧ ip.text = t := by
  unfold shown
  cases parseIP s <;> simp

example : shown "2001:DB8:0:0::1" = "2001:db8::1" ∧ shown "::ffff:1.2.3.4" = "1.2.3.4" ∧
    shown "1:0:0:2:0:0:0:3" = "1:0:0:2::3" ∧ shown "::" = "::" := by decide +kernel

example : parseIP "10.0.0.01" = none ∧ parseIP "1.2.3" = none ∧ parseIP "fe80::1%eth0" = none ∧
    parseIP "1:2:3:4:5:6:7::8" = none ∧ parseIP "12345::" = none ∧ parseIP "site.bit" = none := by
      decide +kernel

end Namecoin.Lib.IpText
