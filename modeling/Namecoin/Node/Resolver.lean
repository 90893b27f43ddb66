import Namecoin.Chain.Lifetimes
import Namecoin.Lib.IpText

/-! # Resolving names

`ResolveDomain` (`impl.go`) and the lookup behind it (`namecoin_resolver.go`). A name is trimmed and
put into lower case before it is looked up, but the ledger takes names as they are written: a name with
an upper-case letter or a space at an end can be registered and is not found under its own spelling. An
address is given back as `IP.String` writes it, which need not be how it is stored.

* `resolves_iff`: **a registered name resolves to its record** exactly if the record under its trimmed
  lower-case spelling has the same expiry and a value that is given back as the one of the name;
* `upper_case_name`: `Site.bit` is registered and does not resolve. -/

namespace Namecoin.Node.Resolver

open Lib.Maps Lib.IpText Types.Defs Types.SampleEnv State.Defs State.Commands State.Effects
open State.Invariant State.Wallet Chain.Defs Chain.Apply Chain.Registration Chain.Ownership
open Chain.History

/-! ### The model -/

/-- `unicode.ToLower`, which is the usual function on the first 128 characters. -/
structure Text where
  lowerRune : Char → Char
  ascii : ∀ c : Char, c.toNat < 128 → lowerRune c = c.toLower

variable {T : Text}

/-- `strings.ToLower`. -/
def toLower (T : Text) (s : String) : String := String.ofList (s.toList.map T.lowerRune)

inductive DNSStatus
  | success
  | nxDomain
  | invalid
deriving DecidableEq

structure DNSResponse where
  domain : String
  ip : String
  txtRecord : String
  status : DNSStatus
  ttl : UInt64

/-- The IP and the TXT record of a value. -/
def answerOf (value : String) : String × String :=
  match parseIP value with
  | some ip => (ip.text, "")
  | none => ("", value)

/-- `resolve`, with the canonical chain as the reader. -/
def resolve (c : NamecoinChain) (domain : String) : DNSResponse :=
  let height := c.state.currentHeight
  match c.state.domains.lookup domain with
  | none => ⟨domain, "", "", .nxDomain, 0⟩
  | some r =>
    if r.expiresAt ≠ 0 ∧ r.expiresAt ≤ height then ⟨domain, "", "", .nxDomain, 0⟩
    else
      let value := trimSpace r.ip
      if value = "" then ⟨domain, "", "", .invalid, 0⟩
      else ⟨domain, (answerOf value).1, (answerOf value).2, .success,
        if height < r.expiresAt then r.expiresAt - height else 0⟩

def resolveDomain (T : Text) (c : NamecoinChain) (domain : String) : DNSResponse :=
  resolve c (toLower T (trimSpace domain))

/-! ### When a name resolves -/

/-- The response gives the trimmed value of the record, as IP or as TXT record, and the number of
blocks until it expires. -/
structure Answers (r : NameRecord) (height : UInt64) (resp : DNSResponse) : Prop where
  status : resp.status = .success
  value : resp.ip = trimSpace r.ip ∨ resp.txtRecord = trimSpace r.ip
  ttl : (resp.ttl.toNat : ℤ) = r.expiresAt.toNat - height.toNat

/-- A name of the domain `bit` with a record that has a value and has not expired. -/
structure Held (c : NamecoinChain) (d : String) (r : NameRecord) : Prop where
  lookup : c.state.domains.lookup d = some r
  bit : ".bit".toList <:+ d.toList
  live : ¬ isExpired r c.state.currentHeight
  value : trimSpace r.ip ≠ ""

/-- The lookup succeeds exactly for a record that has a value and has not expired. -/
theorem resolve_success_iff {c : NamecoinChain} {d : String} : (resolve c d).status = .success ↔
    ∃ r, c.state.domains.lookup d = some r ∧ ¬ isExpired r c.state.currentHeight ∧
    trimSpace r.ip ≠ "" := by
  unfold resolve isExpired
  cases c.state.domains.lookup d with
  | none => simp
  | some r =>
    simp only [Option.some.injEq, exists_eq_left']
    by_cases hexp : r.expiresAt ≠ 0 ∧ r.expiresAt ≤ c.state.currentHeight
    · rw [if_pos hexp]
      exact iff_of_false (by simp) fun h => h.1 hexp
    · rw [if_neg hexp]
      by_cases hblank : trimSpace r.ip = ""
      · rw [if_pos hblank]
        exact iff_of_false (by simp) fun h => h.2 hblank
      · rw [if_neg hblank]
        exact iff_of_true rfl ⟨hexp, hblank⟩

/-- The answer gives a value exactly if it is what the text looks like after it has been read. -/
theorem answerOf_iff {v w : String} (hw : w ≠ "") : (answerOf v).1 = w ∨ (answerOf v).2 = w ↔
    shown v = w := by
  rw [shown_eq_iff]
  unfold answerOf
  cases parseIP v <;> simp [hw.symm]

theorem resolve_of_live {c : NamecoinChain} {d : String} {r : NameRecord}
    (hr : c.state.domains.lookup d = some r) (hlive : ¬ isExpired r c.state.currentHeight)
    (hvalue : trimSpace r.ip ≠ "") : resolve c d =
      ⟨d, (answerOf (trimSpace r.ip)).1, (answerOf (trimSpace r.ip)).2, .success,
        if c.state.currentHeight < r.expiresAt then r.expiresAt - c.state.currentHeight else 0⟩ := by
  unfold resolve
  unfold isExpired at hlive
  rw [hr]
  dsimp only
  rw [if_neg hlive, if_neg hvalue]

theorem ttl_eq_iff {e e' h : UInt64} (hlive : ¬ (e ≠ 0 ∧ e ≤ h)) (hlive' : ¬ (e' ≠ 0 ∧ e' ≤ h)) :
    ((if h < e' then e' - h else 0).toNat : ℤ) = e.toNat - h.toNat ↔ e' = e ∧ (e ≠ 0 ∨ h = 0) := by
  rw [← UInt64.toNat_inj (a := e'), ne_eq, ← UInt64.toNat_inj (a := e), ← UInt64.toNat_inj (a := h),
    UInt64.toNat_zero]
  rw [ne_eq, ← UInt64.toNat_inj, UInt64.toNat_zero, UInt64.le_iff_toNat_le] at hlive hlive'
  split_ifs with hlt
  · rw [UInt64.toNat_sub_of_le _ _ (UInt64.le_of_lt hlt)]
    rw [UInt64.lt_iff_toNat_lt] at hlt
    omega
  · rw [UInt64.lt_iff_toNat_lt] at hlt
    rw [UInt64.toNat_zero]
    omega

/-- **A registered name resolves to its record** exactly if the record under its trimmed lower-case
spelling has the same expiry and its value is given back as the value of the name: it is no address
and has the same value, or it is an address that is written as this value. Besides, the expiry has
not wrapped around to 0. -/
theorem resolves_iff {c : NamecoinChain} {d : String} {r : NameRecord} (hd : Held c d r) :
    Answers r c.state.currentHeight (resolveDomain T c d) ↔
      (r.expiresAt ≠ 0 ∨ c.state.currentHeight = 0) ∧
      ∃ r', c.state.domains.lookup (toLower T (trimSpace d)) = some r' ∧
        trimSpace r'.ip ≠ "" ∧ r'.expiresAt = r.expiresAt ∧
        (parseIP (trimSpace r'.ip) = none ∧ trimSpace r'.ip = trimSpace r.ip ∨
          ∃ ip, parseIP (trimSpace r'.ip) = some ip ∧ ip.text = trimSpace r.ip) := by
  unfold resolveDomain
  simp only [← shown_eq_iff]
  constructor
  · intro h
    obtain ⟨r', hr', hlive', hvalue⟩ := resolve_success_iff.mp h.status
    have heq := resolve_of_live hr' hlive' hvalue
    have hv := h.value
    have ht := h.ttl
    rw [heq] at hv ht
    dsimp only at hv
    obtain ⟨hexp, hne⟩ := (ttl_eq_iff hd.live hlive').mp ht
    exact ⟨hne, r', hr', hvalue, hexp, (answerOf_iff hd.value).mp hv⟩
  · rintro ⟨hne, r', hr', hvalue, hexp, hv⟩
    have hlive' : ¬ isExpired r' c.state.currentHeight := by
      unfold isExpired
      rw [hexp]
      exact hd.live
    have hgiven := (answerOf_iff hd.value).mpr hv
    rw [resolve_of_live hr' hlive' hvalue]
    refine ⟨rfl, ?_, (ttl_eq_iff hd.live hlive').mpr ⟨hexp, hne⟩⟩
    dsimp only
    exact hgiven

/-! ### Registered names -/

theorem toLower_ascii {s : String} (h : s.toList.all (·.toNat < 128) = true) :
    toLower T s = String.ofList (s.toList.map Char.toLower) := by
  unfold toLower
  rw [List.map_congr_left fun c hc => T.ascii c (of_decide_eq_true (List.all_eq_true.mp h c hc))]

theorem first_domain {E : Env} {txID : String} {tx : Tx} {s s' : NamecoinState} {n : NameFirstUpdate}
    (h : FreshStep E txID tx s s') (hcmd : resolveCommand tx.type tx.payload = .ok (.nameFirstUpdate n))
    (hs : s.domains = ∅) : ∃ r, s'.domains = (∅ : Map String NameRecord).insert n.domain r ∧
    r.ip = n.ip := by
  obtain ⟨cmd, c, hcmd', -, hc, s₁, hn, rfl⟩ := freshStep_cases h
  rw [hcmd] at hcmd'
  cases hcmd'
  have hcoins : CoinsOnly s c := (coinEffect_coinsOnly txID tx _).ok hc
  have hnone : c.domains = ∅ := by rw [hcoins]; exact hs
  cases hn with
  | nameFirstUpdate _ _ cr key =>
    have hdrop : (dropExpired n.domain c).domains = ∅ := by
      unfold dropExpired
      rw [hnone]
      exact hnone
    refine ⟨firstRecord n tx cr.ttl (dropExpired n.domain c), ?_, rfl⟩
    rw [markAsApplied_domains, deleteCommitment_domains, setDomain_domains, hdrop]
    rfl

theorem registered_chain {domain : String} (hd : domain ≠ "") : ∃ (c : NamecoinChain) (r : NameRecord),
    ReachedChain plainEnv c ∧ c.state.domains = (∅ : Map String NameRecord).insert domain r ∧
    r.ip = "10.0.0.1" ∧
      r.expiresAt = 101 ∧ c.state.currentHeight = 1 := by
  let k := plainSigner 7
  obtain ⟨s₀, s₁, r', hs₀, hf, hrun₁, hr', -, hexp⟩ :=
    register_ledger plainEnv_collisionFree plainEnv_canonicalJson k hd
  have hcmd := resolveCommand_payload (.nameFirstUpdate (revealOf domain (commitFor k domain).txID))
  have hnone : (atHeight 1 s₀).domains = ∅ := by
    rw [atHeight_of_no_expires hs₀.expires]
    exact hs₀.domains
  obtain ⟨r, hdomains, hip⟩ := first_domain hf hcmd hnone
  obtain ⟨c, -, -, -, hc, hst, -⟩ := hrun₁.reached (by simp) (.nil _) []
  refine ⟨c, r, hc.reached, by rw [hst]; exact hdomains, hip, ?_, ?_⟩
  · have hsame : r' = r := by
      rw [hdomains] at hr'
      exact Option.some.inj (hr'.symm.trans (Finmap.lookup_insert _))
    rw [← hsame, hexp]
  · rw [hst]
    exact (freshStep_height hf).trans (atHeight_currentHeight _ _)

theorem registered_held {c : NamecoinChain} {r : NameRecord} {domain : String}
    (hbit : ".bit".toList <:+ domain.toList)
    (hdomains : c.state.domains = (∅ : Map String NameRecord).insert domain r) (hip : r.ip = "10.0.0.1")
    (hexp : r.expiresAt = 101) (hheight : c.state.currentHeight = 1) : Held c domain r := by
  refine ⟨by rw [hdomains]; exact Finmap.lookup_insert _, hbit, ?_, by rw [hip]; decide⟩
  unfold isExpired
  rw [hexp, hheight]
  decide

/-- A name in lower case resolves. -/
theorem resolves_site : ∃ (E : Env) (c : NamecoinChain) (r : NameRecord), ReachedChain E c ∧
    Held c "site.bit" r ∧ ∀ T, Answers r c.state.currentHeight (resolveDomain T c "site.bit") := by
  obtain ⟨c, r, hc, hdomains, hip, hexp, hheight⟩ := registered_chain (show "site.bit" ≠ "" by decide)
  have hheld := registered_held (by decide) hdomains hip hexp hheight
  refine ⟨plainEnv, c, r, hc, hheld, fun T => (resolves_iff hheld).mpr ⟨.inl (by rw [hexp]; decide),
    r, ?_, hheld.value, rfl, shown_eq_iff.mp (by rw [hip]; decide +kernel)⟩⟩
  rw [toLower_ascii (by decide),
    show String.ofList ((trimSpace "site.bit").toList.map Char.toLower) = "site.bit" by decide]
  exact hheld.lookup

/-- **A name with an upper-case letter** is registered and does not resolve. -/
theorem upper_case_name : ∃ (E : Env) (c : NamecoinChain) (r : NameRecord), ReachedChain E c ∧
    Held c "Site.bit" r ∧ ∀ T, ¬ Answers r c.state.currentHeight (resolveDomain T c "Site.bit") := by
  obtain ⟨c, r, hc, hdomains, hip, hexp, hheight⟩ := registered_chain (show "Site.bit" ≠ "" by decide)
  refine ⟨plainEnv, c, r, hc, registered_held (by decide) hdomains hip hexp hheight, fun T h => ?_⟩
  obtain ⟨r', hr', -⟩ := resolve_success_iff.mp h.status
  rw [toLower_ascii (by decide),
    show String.ofList ((trimSpace "Site.bit").toList.map Char.toLower) = "site.bit" by decide,
    hdomains, Finmap.lookup_insert_of_ne _ (by decide)] at hr'
  cases hr'

end Namecoin.Node.Resolver
