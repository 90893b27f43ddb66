import Namecoin.State.Fresh
import Namecoin.State.Progress

/-! # Transactions that apply together

Each of some transactions is valid on its own in a state `st` (`Pending`). Applied one after the other,
one block later, they get in each other's way in few ways (`Independent`), and the step to the next
height makes some of them invalid (`Timely`). `run_iff` says that these are the only ones.

The two halves of the invariant say how far the state has moved from `st` after the transactions
`done`: `NamesRun` for names and commitments, `CoinsRun` for the coins. -/

namespace Namecoin.State.Together

open Lib.Maps Lib.Ops Lib.ByteStrings Types.Defs Types.TxCodec State.Defs State.Utxo State.Commands
open State.Strict State.Effects State.Invariant State.SpendPlan State.Fresh State.Progress

/-! ### What transactions have in common -/

/-- The payload of a `NameFirstUpdate`. -/
def firstUpdateOf (tx : Tx) : Option NameFirstUpdate :=
  match resolveCommand tx.type tx.payload with
  | .ok (.nameFirstUpdate n) => some n
  | _ => none

/-- The payload of a `NameUpdate`. -/
def updateOf (tx : Tx) : Option NameUpdate :=
  match resolveCommand tx.type tx.payload with
  | .ok (.nameUpdate n) => some n
  | _ => none

/-- The transaction spends coins. -/
def Spends (tx : Tx) : Prop := tx.type ≠ "Reward" ∧ tx.amount ≠ 0

/-- Two transactions that do not compete: for the coins of one sender, for a name, or for a commitment. -/
structure Independent (a b : Tx) : Prop where
  senders : Spends a → Spends b → a.fromAddr ≠ b.fromAddr
  names : ∀ n m, firstUpdateOf a = some n → firstUpdateOf b = some m → n.domain ≠ m.domain
  commits : ∀ n m, firstUpdateOf a = some n → firstUpdateOf b = some m → commitKey n a ≠ commitKey m b

/-- A transaction that the step to the next height does not make invalid: its commitment does not get too
old, and its name does not expire. -/
structure Timely (st : NamecoinState) (tx : Tx) : Prop where
  age : ∀ n key r, firstUpdateOf tx = some n → commitKey n tx = some key →
    st.commitments.lookup key = some r → 0 < r.height.toNat →
    st.currentHeight.toNat ≠ r.height.toNat + maxFirstUpdateDepth.toNat
  live : ∀ n r, updateOf tx = some n → st.domains.lookup n.domain = some r →
    r.expiresAt.toNat ≠ st.currentHeight.toNat + 1

/-- A transaction that is valid in the state `st`, or a reward. -/
inductive Pending (E : Env) (st : NamecoinState) (txID : String) (tx : Tx) : Prop
  | reward : tx.type = "Reward" → (tx.txID = "" ∨ tx.txID = txID) → (elems tx.outputs).length ≤ 1 →
    Pending E st txID tx
  | user : tx.type ≠ "Reward" →
    deterministicSpendPlan st tx.fromAddr tx.amount = .ok (tx.inputs, tx.outputs) →
    verifyTxAuth E tx txID = .ok () → validateCommand st tx = .ok () →
    validateCommandWithInputs E st tx = .ok () → Pending E st txID tx

theorem firstUpdateOf_iff {tx : Tx} {n : NameFirstUpdate} :
    firstUpdateOf tx = some n ↔ resolveCommand tx.type tx.payload = .ok (.nameFirstUpdate n) := by
  unfold firstUpdateOf
  split
  case h_1 m h => rw [h]; simp
  case h_2 h => exact ⟨fun hn => (by cases hn), fun hn => absurd hn (h n)⟩

theorem updateOf_iff {tx : Tx} {n : NameUpdate} :
    updateOf tx = some n ↔ resolveCommand tx.type tx.payload = .ok (.nameUpdate n) := by
  unfold updateOf
  split
  case h_1 m h => rw [h]; simp
  case h_2 h => exact ⟨fun hn => (by cases hn), fun hn => absurd hn (h n)⟩

/-! ### Names and commitments -/

section names

variable {E : Env} {st s s' c : NamecoinState} {txID : String} {tx : Tx} {done : List Tx}

/-- How far names and commitments have moved from `st`, in a block of the next height. -/
structure NamesRun (st : NamecoinState) (done : List Tx) (s : NamecoinState) : Prop where
  height : s.currentHeight = st.currentHeight + 1
  commits : ∀ key r, st.commitments.lookup key = some r →
    (∀ tx ∈ done, ∀ n, firstUpdateOf tx = some n → commitKey n tx ≠ some key) →
    s.commitments.lookup key = some r
  consumed : ∀ tx ∈ done, ∀ n key, firstUpdateOf tx = some n → commitKey n tx = some key →
    key ∈ st.commitments → key ∉ s.commitments
  live : ∀ d r, st.domains.lookup d = some r → ¬ isExpired r (st.currentHeight + 1) →
    ∃ r', s.domains.lookup d = some r' ∧ r'.owner = r.owner ∧ ¬ isExpired r' s.currentHeight
  free : ∀ d, (∀ r, st.domains.lookup d = some r → isExpired r (st.currentHeight + 1)) →
    (∀ tx ∈ done, ∀ n, firstUpdateOf tx = some n → n.domain ≠ d) →
    ¬ registered s d ∧ d ∉ s.claimedDomains
  claimed : ∀ tx ∈ done, ∀ n, firstUpdateOf tx = some n → n.domain ∈ s.claimedDomains

theorem namesRun_start (hw : WellFormed st) (hcl : st.claimedDomains = ∅) :
    NamesRun st [] (atHeight (st.currentHeight + 1) st) := by
  have hp := pruneExpired_pruned (st.currentHeight + 1) (setHeight (st.currentHeight + 1) st)
  have hheight : (atHeight (st.currentHeight + 1) st).currentHeight = st.currentHeight + 1 := by
    unfold atHeight; rw [hp.rest]; rfl
  refine ⟨hheight, fun key r hk _ => ?_, fun tx ht => (by simp at ht), fun d r hd hl => ?_,
    fun d hd _ => ?_, fun tx ht => (by simp at ht)⟩
  · unfold atHeight
    rw [hp.rest]
    exact hk
  · have h0 : (0 : UInt64) ∉ (setHeight (st.currentHeight + 1) st).expires := hw.buckets
    rw [hheight]
    exact ⟨r, pruneExpired_keeps h0 hd hl, rfl, hl⟩
  · refine ⟨fun hreg => ?_, fun hc => ?_⟩
    · obtain ⟨r, hr, hl⟩ := registered_iff.mp hreg
      rw [hheight] at hl
      exact hl (hd r (hp.shrinks d r hr))
    · have hempty := hp.claims hc
      rw [show (setHeight (st.currentHeight + 1) st).claimedDomains = ∅ from hcl] at hempty
      exact Finset.notMem_empty d hempty

theorem not_isExpired_fresh {r : NameRecord} {h : UInt64} {ttl : UInt64} (hr : r.expiresAt = h + ttl)
    (hpos : 0 < ttl.toNat) (hle : ttl.toNat ≤ maxDomainTTLBlocks.toNat)
    (hh : h.toNat + maxDomainTTLBlocks.toNat < 2 ^ 64) : ¬ isExpired r h := by
  rintro ⟨-, hexp⟩
  have hsum : (h + ttl).toNat = h.toNat + ttl.toNat := by
    rw [UInt64.toNat_add, Nat.mod_eq_of_lt (by omega)]
  rw [hr, UInt64.le_iff_toNat_le, hsum] at hexp
  omega

theorem outpointKey_hex_inj {a b : Bytes}
    (h : outpointKey (hexEncode a) 0 = outpointKey (hexEncode b) 0) :
    a = b := by
  unfold outpointKey decodeHex at h
  simp only [hexDecode_hexEncode] at h
  rw [String.append_assoc, String.append_assoc] at h
  exact hexEncode_injective (String.append_left_inj _ |>.mp h)

theorem outpointKey_ne (hw : WellFormed st) (hb : buildTransactionID E tx = .ok txID)
    (hnew : txID ∉ st.txMap) {key : String} (hk : key ∈ st.commitments) : key ≠ outpointKey txID 0 := by
  obtain ⟨t, ht, rfl⟩ := hw.commits key hk
  obtain ⟨a, rfl⟩ := hw.ids t ht
  obtain ⟨p, -, rfl⟩ := buildTransactionID_ok_iff.mp hb
  intro he
  unfold hashHex at he hnew
  exact hnew (outpointKey_hex_inj he ▸ ht)

theorem mem_of_firstUpdateOf (hno : firstUpdateOf tx = none) (done : List Tx) :
    ∀ tx' ∈ done ++ [tx], ∀ n, firstUpdateOf tx' = some n → tx' ∈ done := fun tx' ht n hn => by
  rcases List.mem_append.mp ht with ht | ht
  · exact ht
  · rw [List.mem_singleton.mp ht, hno] at hn
    cases hn

theorem NamesRun.quiet (h : NamesRun st done s) (hno : firstUpdateOf tx = none)
    (hheight : s'.currentHeight = s.currentHeight) (hdom : s'.domains = s.domains)
    (hclaim : s'.claimedDomains = s.claimedDomains)
    (hcom : ∀ key ∈ st.commitments, s'.commitments.lookup key = s.commitments.lookup key) :
    NamesRun st (done ++ [tx]) s' := by
  have hreg : ∀ d, registered s' d ↔ registered s d := fun d => by
    rw [registered_iff, registered_iff, hdom, hheight]
  have hone := mem_of_firstUpdateOf hno done
  refine ⟨hheight.trans h.height, fun key r hk hnot => ?_, fun tx' ht n key hn hkey hk => ?_,
    fun d r hd hl => ?_, fun d hd hnot => ?_, fun tx' ht n hn => ?_⟩
  · rw [hcom key (Finmap.mem_of_lookup_eq_some hk)]
    exact h.commits key r hk fun tx' ht => hnot tx' (List.mem_append_left _ ht)
  · rw [← Finmap.lookup_eq_none, hcom key hk, Finmap.lookup_eq_none]
    exact h.consumed tx' (hone tx' ht n hn) n key hn hkey hk
  · rw [hdom, hheight]
    exact h.live d r hd hl
  · rw [hreg, hclaim]
    exact h.free d hd fun tx' ht => hnot tx' (List.mem_append_left _ ht)
  · rw [hclaim]
    exact h.claimed tx' (hone tx' ht n hn) n hn

theorem NamesRun.update (h : NamesRun st done s) (hw : WellFormed s)
    (hh : s.currentHeight.toNat + maxDomainTTLBlocks.toNat < 2 ^ 64) (hc : CoinsOnly s c) {n : NameUpdate}
    {r : NameRecord} (hcmd : resolveCommand tx.type tx.payload = .ok (.nameUpdate n))
    (hr : c.domains.lookup n.domain = some r) (hlive : ¬ isExpired r c.currentHeight) :
    NamesRun st (done ++ [tx]) (markAsApplied txID (setDomain (n.updated c r) c)) := by
  have hno : firstUpdateOf tx = none := by unfold firstUpdateOf; rw [hcmd]
  have hdomc : c.domains = s.domains := by rw [hc]
  have hheightc : c.currentHeight = s.currentHeight := by rw [hc]
  have hname : (n.updated c r).domain = n.domain := by
    show (if blank n.domain then r.domain else n.domain) = n.domain
    split_ifs
    · exact hw.named _ _ (hdomc ▸ hr)
    · rfl
  obtain ⟨e, he⟩ := setDomain_eq (n.updated c r) c
  rw [hname] at he
  have hfresh : ¬ isExpired (n.updated c r) s.currentHeight := by
    have httl : c.domainTTL = clampTTL defaultDomainTTLBlocks := by rw [hc]; exact hw.ttl
    have hexp : (n.updated c r).expiresAt = s.currentHeight + effectiveTTL c n.ttl := by
      rw [← hheightc]
      rfl
    obtain ⟨hpos, hle⟩ := effectiveTTL_bounds httl n.ttl
    exact not_isExpired_fresh hexp hpos hle hh
  have hregn : registered s n.domain := registered_iff.mpr ⟨r, hdomc ▸ hr, hheightc ▸ hlive⟩
  have hlook : ∀ d, (markAsApplied txID (setDomain (n.updated c r) c)).domains.lookup d =
      if d = n.domain then some (n.updated c r) else s.domains.lookup d := fun d => by
    rw [markAsApplied_domains, setDomain_domains, hname, lookup_insert_ite, hdomc]
  have hheight : (markAsApplied txID (setDomain (n.updated c r) c)).currentHeight = s.currentHeight := by
    rw [he]; exact hheightc
  have hclaim : (markAsApplied txID (setDomain (n.updated c r) c)).claimedDomains =
      insert n.domain s.claimedDomains := by
    rw [markAsApplied_claimedDomains, setDomain_claimedDomains, hname, hc]
  have hcom : (markAsApplied txID (setDomain (n.updated c r) c)).commitments = s.commitments := by
    rw [he, hc]; rfl
  have hone := mem_of_firstUpdateOf hno done
  refine ⟨hheight.trans h.height, fun key r hk hnot => ?_, fun tx' ht m key hm hkey hk => ?_,
    fun d r' hd hl => ?_, fun d hd hnot => ?_, fun tx' ht m hm => ?_⟩
  · rw [hcom]
    exact h.commits key r hk fun tx' ht => hnot tx' (List.mem_append_left _ ht)
  · rw [hcom]
    exact h.consumed tx' (hone tx' ht m hm) m key hm hkey hk
  · obtain ⟨r₁, hr₁, hown, hlive₁⟩ := h.live d r' hd hl
    rw [hlook, hheight]
    split_ifs with hdn
    · rw [hdn, ← hdomc, hr] at hr₁
      cases hr₁
      exact ⟨_, rfl, hown, hfresh⟩
    · exact ⟨r₁, hr₁, hown, hlive₁⟩
  · obtain ⟨hnreg, hncl⟩ := h.free d hd fun tx' ht => hnot tx' (List.mem_append_left _ ht)
    have hdn : d ≠ n.domain := fun he => hnreg (he ▸ hregn)
    refine ⟨fun hreg => hnreg ?_, ?_⟩
    · obtain ⟨r₁, hr₁, hl₁⟩ := registered_iff.mp hreg
      rw [hlook, if_neg hdn] at hr₁
      rw [hheight] at hl₁
      exact registered_iff.mpr ⟨r₁, hr₁, hl₁⟩
    · rw [hclaim]
      exact fun hm => (Finset.mem_insert.mp hm).elim hdn hncl
  · rw [hclaim]
    exact Finset.mem_insert_of_mem (h.claimed tx' (hone tx' ht m hm) m hm)

theorem NamesRun.firstUpdate (h : NamesRun st done s) (hc : CoinsOnly s c) {n : NameFirstUpdate}
    {r : CommitmentRecord} {key : String}
    (hcmd : resolveCommand tx.type tx.payload = .ok (.nameFirstUpdate n))
    (hkey : commitKey n tx = some key) (hreg : ¬ registered s n.domain) :
    NamesRun st (done ++ [tx]) (markAsApplied txID (deleteCommitment key
      (setDomain (firstRecord n tx r.ttl (dropExpired n.domain c)) (dropExpired n.domain c)))) := by
  have hfu : firstUpdateOf tx = some n := firstUpdateOf_iff.mpr hcmd
  obtain ⟨e, he⟩ := setDomain_eq (firstRecord n tx r.ttl (dropExpired n.domain c))
    (dropExpired n.domain c)
  obtain ⟨e', he'⟩ := dropExpired_eq n.domain c
  set s' := markAsApplied txID (deleteCommitment key
      (setDomain (firstRecord n tx r.ttl (dropExpired n.domain c)) (dropExpired n.domain c))) with hs'
  have hheight : s'.currentHeight = s.currentHeight := by rw [hs', he, he', hc]; rfl
  have hlook : ∀ d, d ≠ n.domain → s'.domains.lookup d = s.domains.lookup d := fun d hd => by
    rw [hs', markAsApplied_domains, deleteCommitment_domains, setDomain_domains, lookup_insert_ite,
      firstRecord_domain, if_neg hd, lookup_dropExpired_ne _ hd, hc]
  have hclaim : s'.claimedDomains = insert n.domain s.claimedDomains := by
    rw [hs', markAsApplied_claimedDomains, deleteCommitment_claimedDomains, setDomain_claimedDomains,
      firstRecord_domain, dropExpired_claimedDomains, hc]
  have hcom : ∀ k, s'.commitments.lookup k = if k = key then none else s.commitments.lookup k :=
      fun k => by
    rw [hs', he, he', hc]
    exact lookup_erase_ite _ _ _
  refine ⟨hheight.trans h.height, fun k r' hk hnot => ?_, fun tx' ht m k hm hkey' hk => ?_,
    fun d r' hd hl => ?_, fun d hd hnot => ?_, fun tx' ht m hm => ?_⟩
  · have hne : k ≠ key := fun he => hnot tx (List.mem_append_right _ (List.mem_singleton_self tx))
      n hfu (he ▸ hkey)
    rw [hcom, if_neg hne]
    exact h.commits k r' hk fun tx' ht => hnot tx' (List.mem_append_left _ ht)
  · rw [← Finmap.lookup_eq_none, hcom]
    split_ifs with hkk
    · rfl
    · rw [Finmap.lookup_eq_none]
      rcases List.mem_append.mp ht with ht | ht
      · exact h.consumed tx' ht m k hm hkey' hk
      · rw [List.mem_singleton.mp ht] at hm hkey'
        rw [hfu] at hm
        cases hm
        rw [hkey] at hkey'
        cases hkey'
        exact absurd rfl hkk
  · obtain ⟨r₁, hr₁, hown, hlive₁⟩ := h.live d r' hd hl
    have hdn : d ≠ n.domain := by
      rintro rfl
      exact hreg (registered_iff.mpr ⟨r₁, hr₁, hlive₁⟩)
    rw [hlook d hdn, hheight]
    exact ⟨r₁, hr₁, hown, hlive₁⟩
  · obtain ⟨hnreg, hncl⟩ := h.free d hd fun tx' ht => hnot tx' (List.mem_append_left _ ht)
    have hdn : d ≠ n.domain :=
      fun he => hnot tx (List.mem_append_right _ (List.mem_singleton_self tx)) n hfu he.symm
    rw [registered_iff, hlook d hdn, hheight, ← registered_iff, hclaim]
    exact ⟨hnreg, fun hm => (Finset.mem_insert.mp hm).elim hdn hncl⟩
  · rw [hclaim]
    rcases List.mem_append.mp ht with ht | ht
    · exact Finset.mem_insert_of_mem (h.claimed tx' ht m hm)
    · rw [List.mem_singleton.mp ht, hfu] at hm
      cases hm
      exact Finset.mem_insert_self _ _

/-- **One transaction**, for names and commitments. -/
theorem NamesRun.step (h : NamesRun st done s) (hst : WellFormed st) (hw : WellFormed s)
    (hh : s.currentHeight.toNat + maxDomainTTLBlocks.toNat < 2 ^ 64)
    (hb : buildTransactionID E tx = .ok txID) (hnew : txID ∉ st.txMap) (hf : FreshStep E txID tx s s') :
    NamesRun st (done ++ [tx]) s' := by
  obtain ⟨cmd, c, hcmd, hv, hcoin, s₁, hn, rfl⟩ := freshStep_cases hf
  have hc : CoinsOnly s c := (coinEffect_coinsOnly txID tx cmd).ok hcoin
  cases hn with
  | nameNew n =>
    have hno : firstUpdateOf tx = none := by unfold firstUpdateOf; rw [hcmd]
    refine h.quiet hno ?_ ?_ ?_ fun key hk => ?_
    · rw [hc]; rfl
    · rw [hc]; rfl
    · rw [hc]; rfl
    · have hne : key ≠ outpointKey txID 0 := outpointKey_ne hst hb hnew hk
      show (c.commitments.insert (outpointKey txID 0) _).lookup key = _
      rw [lookup_insert_ite, if_neg hne, hc]
  | reward =>
    have hno : firstUpdateOf tx = none := by unfold firstUpdateOf; rw [hcmd]
    refine h.quiet hno ?_ ?_ ?_ fun key _ => ?_ <;> rw [hc] <;> rfl
  | nameUpdate n _ r hr hl => exact h.update hw hh hc hcmd hr hl
  | nameFirstUpdate n _ r key hres _ _ =>
    exact h.firstUpdate hc hcmd (resolveCommitment_ok_iff.mp hres).1
      (firstUpdate_validateWithInputs_iff.mp (validateTxStrict_command hcmd hv).2).2

end names

/-! ### Coins -/

section coins

variable {E : Env} {st s s' : NamecoinState} {txID : String} {tx : Tx} {done : List Tx}

/-- How far the coins have moved from `st`: an account nobody has spent from has only grown, and what was
spent is gone. -/
structure CoinsRun (st : NamecoinState) (done : List Tx) (s : NamecoinState) : Prop where
  numbered : Numbered s
  seq : s.nextUTXOSeq.toNat ≤ st.nextUTXOSeq.toNat + done.length
  kept : ∀ addr, (∀ tx ∈ done, Spends tx → tx.fromAddr ≠ addr) →
    ∃ more, coinsOf s addr = coinsOf st addr ++ more
  spent : ∀ tx ∈ done, Spends tx → ∀ t ∈ (elems tx.inputs).map TxInput.txID, t ∈ st.txMap →
    t ∉ account s tx.fromAddr

theorem coinsRun_start (hn : Numbered st) (h : UInt64) : CoinsRun st [] (atHeight h st) := by
  have hrest := (pruneExpired_pruned h (setHeight h st)).rest
  have hacc : ∀ addr, account (atHeight h st) addr = account st addr := fun addr => by
    unfold account atHeight; rw [hrest]; rfl
  have hseq : (atHeight h st).nextUTXOSeq = st.nextUTXOSeq := by unfold atHeight; rw [hrest]; rfl
  refine ⟨fun addr t u hu => ?_, ?_, fun addr _ => ⟨[], ?_⟩, fun tx ht => (by simp at ht)⟩
  · rw [hacc] at hu; rw [hseq]; exact hn addr t u hu
  · rw [hseq]; exact Nat.le_add_right _ _
  · unfold coinsOf; rw [hacc, List.append_nil]

/-- Where the coins of a step end up: with the reward, or spent. -/
theorem freshStep_coins (hw : WellFormed s) (hid : txID ∉ s.txMap) (hf : FreshStep E txID tx s s') :
    (∀ addr, account s' addr = account (if tx.type = "Reward" then withUTXO (rewardCoin txID tx) s
      else spentState txID tx s) addr) ∧
    s'.nextUTXOSeq = (if tx.type = "Reward" then withUTXO (rewardCoin txID tx) s
      else spentState txID tx s).nextUTXOSeq := by
  obtain ⟨cmd, c, hcmd, hv, hcoin, s₁, hn, rfl⟩ := freshStep_cases hf
  have hnames := NameEffect.namesOnly hn
  have hacc : ∀ addr, account (markAsApplied txID s₁) addr = account c addr := fun addr => by
    unfold account; rw [← hnames.coins]; rfl
  have hseq : (markAsApplied txID s₁).nextUTXOSeq = c.nextUTXOSeq := hnames.seq
  split_ifs with hR
  · rw [resolveCommand_reward_iff.mpr hR] at hcmd
    cases hcmd
    obtain ⟨-, rfl⟩ := appendUTXO_ok_iff.mp hcoin
    exact ⟨hacc, hseq⟩
  · obtain ⟨-, s₂, hn₂, he⟩ := (freshStep_user_iff hR hcmd fun hm => hid (hw.coins _ _ hm)).mp hf
    have hnames₂ := NameEffect.namesOnly hn₂
    rw [he]
    exact ⟨fun addr => by unfold account; rw [← hnames₂.coins]; rfl, hnames₂.seq⟩

theorem freshStep_spend (hR : tx.type ≠ "Reward") (hf : FreshStep E txID tx s s') :
    CanonicalSpend s tx.fromAddr tx.amount (elems tx.inputs) (elems tx.outputs) := by
  obtain ⟨-, -, -, -, hplan, -⟩ := (validateTxStrict_user_iff hR).mp hf.1
  obtain ⟨ins, outs, hp, hin, hout⟩ := checkSpendPlan_ok_iff.mp hplan
  rw [hin, hout]
  exact spendPlan_ok hp

theorem coinsOf_step (hn : Numbered s) (hw : WellFormed s) (hid : txID ∉ s.txMap)
    (hf : FreshStep E txID tx s s') {addr : String} (ha : Spends tx → tx.fromAddr ≠ addr) :
    ∃ more, coinsOf s' addr = coinsOf s addr ++ more := by
  obtain ⟨hacc, -⟩ := freshStep_coins hw hid hf
  unfold coinsOf
  rw [hacc]
  split_ifs with hR
  · exact coinsOf_withUTXO hn (fun hm => hid (hw.coins _ _ hm)) addr
  · have hs := freshStep_spend hR hf
    by_cases h0 : tx.amount = 0
    · rw [spentState_zero hs h0]
      exact ⟨[], (List.append_nil _).symm⟩
    · rw [account_spentState_ne hs (ha ⟨hR, h0⟩).symm]
      exact ⟨[], (List.append_nil _).symm⟩

/-- **One transaction**, for the coins. -/
theorem CoinsRun.step (h : CoinsRun st done s) (hw : WellFormed s) (hid : txID ∉ s.txMap)
    (hst : st.txMap ⊆ s.txMap) (hlen : st.nextUTXOSeq.toNat + done.length + 1 < 2 ^ 64)
    (hf : FreshStep E txID tx s s') : CoinsRun st (done ++ [tx]) s' := by
  obtain ⟨hacc, hseq⟩ := freshStep_coins hw hid hf
  have hwrap : s.nextUTXOSeq.toNat + 1 < 2 ^ 64 := by have := h.seq; omega
  have hnum : Numbered s' ∧ s'.nextUTXOSeq.toNat ≤ s.nextUTXOSeq.toNat + 1 := by
    unfold Numbered
    rw [hseq]
    simp only [hacc]
    split_ifs with hR
    · refine ⟨h.numbered.withUTXO _ hwrap, ?_⟩
      show (s.nextUTXOSeq + 1).toNat ≤ _
      rw [UInt64.toNat_add, UInt64.toNat_one, Nat.mod_eq_of_lt hwrap]
    · exact h.numbered.spentState (freshStep_spend hR hf) hwrap
  refine ⟨hnum.1, ?_, fun addr ha => ?_, fun tx' ht hsp t hin hmem => ?_⟩
  · have := h.seq
    have := hnum.2
    rw [List.length_append, List.length_singleton]
    omega
  · obtain ⟨m₁, h₁⟩ := h.kept addr fun tx' ht => ha tx' (List.mem_append_left _ ht)
    obtain ⟨m₂, h₂⟩ := coinsOf_step h.numbered hw hid hf
      (ha tx (List.mem_append_right _ (List.mem_singleton_self tx)))
    exact ⟨m₁ ++ m₂, by rw [h₂, h₁, List.append_assoc]⟩
  · have hne : t ≠ txID := fun he => hid (he ▸ hst hmem)
    rcases List.mem_append.mp ht with ht | ht
    · intro hm
      obtain ⟨u, hu⟩ := Finmap.mem_iff.mp hm
      obtain ⟨cmd, c, -, -, hcoin, s₁, hn, rfl⟩ := freshStep_cases hf
      have hac : account (markAsApplied txID s₁) tx'.fromAddr = account c tx'.fromAddr := by
        unfold account; rw [← (NameEffect.namesOnly hn).coins]; rfl
      rw [hac] at hu
      rcases ((coinEffect_paid txID tx cmd).ok hcoin).coins _ _ _ hu with hu | ⟨he, -⟩
      · exact h.spent tx' ht hsp t hin hmem (Finmap.mem_of_lookup_eq_some hu)
      · exact hne he
    · rw [List.mem_singleton.mp ht] at hsp hin ⊢
      rw [hacc, if_neg hsp.1]
      exact spent_notMem (freshStep_spend hsp.1 hf) hin hne

end coins

/-! ### One transaction and the rest -/

section together

variable {E : Env} {st s : NamecoinState} {txID : String} {tx : Tx} {done : List Tx}

/-- The state after some transactions of a block on top of `st`. -/
structure Running (E : Env) (st : NamecoinState) (done : List Tx) (s : NamecoinState) : Prop where
  names : NamesRun st done s
  coins : CoinsRun st done s
  wellFormed : WellFormed s
  applied : st.txMap ⊆ s.txMap
  pending : ∀ d ∈ done, ∃ id, Pending E st id d

theorem Pending.firstUpdate {n : NameFirstUpdate} (hp : Pending E st txID tx)
    (hn : firstUpdateOf tx = some n) :
    (∃ key r, commitKey n tx = some key ∧ st.commitments.lookup key = some r ∧
    commitmentOf E n = r.commit ∧
      ¬ (0 < r.height.toNat ∧ r.height.toNat + maxFirstUpdateDepth.toNat < st.currentHeight.toNat)) ∧
    ¬ (n.domain = "" ∨ n.salt = "" ∨ n.ip = "") ∧ ¬ registered st n.domain := by
  have hcmd := firstUpdateOf_iff.mp hn
  cases hp with
  | reward hR => rw [resolveCommand_reward_iff.mpr hR] at hcmd; cases hcmd
  | user hR _ _ hval hins =>
    rw [validateCommand_eq hcmd] at hval
    rw [validateCommandWithInputs_eq hcmd] at hins
    simp only [NamecoinCommand.validate, NameFirstUpdate.validate, except_seq_ok_iff,
      failIf_ok_iff] at hval
    obtain ⟨⟨key, r, hk, hr, hcm, hage⟩, hreg⟩ := firstUpdate_validateWithInputs_iff.mp hins
    rw [tooOld_iff] at hage
    exact ⟨⟨key, r, hk, hr, hcm, hage⟩, hval.1, hreg⟩

theorem Pending.update {n : NameUpdate} (hp : Pending E st txID tx) (hn : updateOf tx = some n) :
    ∃ r, st.domains.lookup n.domain = some r ∧ ¬ isExpired r st.currentHeight ∧
    r.owner = tx.fromAddr := by
  have hcmd := updateOf_iff.mp hn
  cases hp with
  | reward hR => rw [resolveCommand_reward_iff.mpr hR] at hcmd; cases hcmd
  | user hR _ _ hval _ =>
    rw [validateCommand_eq hcmd] at hval
    cases hl : st.domains.lookup n.domain with
    | none =>
      simp only [NamecoinCommand.validate, NameUpdate.validate, hl] at hval
      cases hval
    | some r =>
      simp only [NamecoinCommand.validate, NameUpdate.validate, hl, except_seq_ok_iff, failIf_ok_iff,
        not_not] at hval
      exact ⟨r, rfl, hval.1, hval.2⟩

theorem Pending.plan (hp : Pending E st txID tx) (hs : tx.type ≠ "Reward") :
    deterministicSpendPlan st tx.fromAddr tx.amount = .ok (tx.inputs, tx.outputs) := by
  cases hp with
  | reward hR => exact absurd hR hs
  | user _ hplan => exact hplan

theorem Pending.first_coin {a b : Tx} {i j : String} (ha : Pending E st i a) (hb : Pending E st j b)
    (hsa : Spends a) (hsb : Spends b) (hfrom : a.fromAddr = b.fromAddr) :
    ∃ t, t ∈ (elems a.inputs).map TxInput.txID ∧ t ∈ (elems b.inputs).map TxInput.txID ∧
      t ∈ account st b.fromAddr := by
  have hpa := ha.plan hsa.1
  have hpb := hb.plan hsb.1
  have hheads : (elems a.inputs).head? = (elems b.inputs).head? := by
    rw [spendPlan_head hsa.2 hpa, spendPlan_head hsb.2 hpb, hfrom]
  obtain ⟨x, hx⟩ := Option.isSome_iff_exists.mp
    (List.isSome_head?.mpr ((spendPlan_ok hpb).spends hsb.2))
  have hxb := List.mem_of_head? hx
  have hxa := List.mem_of_head? (hheads.trans hx)
  exact ⟨x.txID, List.mem_map_of_mem hxa, List.mem_map_of_mem hxb,
    (spendPlan_ok hpb).owned _ (List.mem_map_of_mem hxb)⟩

theorem expired_next {r : NameRecord} (hh : st.currentHeight.toNat + 1 < 2 ^ 64)
    (hl : ¬ isExpired r st.currentHeight) :
    isExpired r (st.currentHeight + 1) ↔ r.expiresAt.toNat = st.currentHeight.toNat + 1 := by
  have hsucc : (st.currentHeight + 1).toNat = st.currentHeight.toNat + 1 := by
    rw [UInt64.toNat_add, UInt64.toNat_one, Nat.mod_eq_of_lt hh]
  rw [isExpired_iff] at hl ⊢
  rw [hsucc]
  omega

section step

variable (h : Running E st done s) (hst : WellFormed st)
  (hh : st.currentHeight.toNat + 1 + maxDomainTTLBlocks.toNat < 2 ^ 64) (hp : Pending E st txID tx)
include h hh hp

/-- The name of a pending `NameFirstUpdate` is free, as long as no other has taken it. -/
theorem Running.free_name {n : NameFirstUpdate} (hn : firstUpdateOf tx = some n)
    (hnames : ∀ d ∈ done, ∀ m, firstUpdateOf d = some m → m.domain ≠ n.domain) :
    ¬ registered s n.domain ∧ n.domain ∉ s.claimedDomains := by
  refine h.names.free _ (fun r hr => ?_) hnames
  obtain ⟨-, -, hreg⟩ := hp.firstUpdate hn
  by_contra hl
  refine hreg (registered_iff.mpr ⟨r, hr, fun he => hl ?_⟩)
  rw [isExpired_iff] at he ⊢
  rw [UInt64.toNat_add, UInt64.toNat_one, Nat.mod_eq_of_lt (by omega)]
  omega

/-- **The conditions are enough.** -/
theorem Running.step_sufficient (hR : tx.type ≠ "Reward") (hind : ∀ d ∈ done, Independent d tx)
    (htime : Timely st tx) : validateTxStrict E s txID tx = .ok () ∧
      ∀ n, firstUpdateOf tx = some n → n.domain ∉ s.claimedDomains := by
  have hfree : ∀ n, firstUpdateOf tx = some n → ¬ registered s n.domain ∧ n.domain ∉ s.claimedDomains :=
    fun n hn => h.free_name hh hp hn fun d hd m hm => (hind d hd).names m n hm hn
  have hsucc : (st.currentHeight + 1).toNat = st.currentHeight.toNat + 1 := by
    rw [UInt64.toNat_add, UInt64.toNat_one, Nat.mod_eq_of_lt (by omega)]
  refine ⟨?_, fun n hn => (hfree n hn).2⟩
  have hp' := hp
  cases hp with
  | reward hR' => exact absurd hR' hR
  | user _ hplan hauth hval hins =>
    have hspend := spendPlan_ok hplan
    obtain ⟨cmd, hcmd, hval⟩ := validateCommand_ok_iff.mp hval
    rw [validateCommandWithInputs_eq hcmd] at hins
    have hplan' : deterministicSpendPlan s tx.fromAddr tx.amount = .ok (tx.inputs, tx.outputs) := by
      by_cases h0 : tx.amount = 0
      · unfold deterministicSpendPlan at hplan ⊢
        rwa [if_pos h0] at hplan ⊢
      · obtain ⟨more, hmore⟩ := h.coins.kept tx.fromAddr fun d hd hsd => (hind d hd).senders hsd ⟨hR, h0⟩
        exact spendPlan_grown hmore hplan
    have hone : (elems tx.outputs).length ≤ 1 := by
      rcases CanonicalSpend.outputs_cases hspend with ho | ⟨o, -, ho⟩ <;> simp [ho]
    refine (validateTxStrict_user_iff hR).mpr ⟨validateCommand_ok_iff.mpr ⟨cmd, hcmd, ?_⟩, hauth, hone,
      hspend.index, checkSpendPlan_ok_iff.mpr ⟨_, _, hplan', rfl, rfl⟩,
      validateCommandWithInputs_ok_iff.mpr ⟨cmd, hcmd, ?_⟩⟩
    · cases cmd with
      | nameNew n => exact hval
      | reward => rfl
      | nameFirstUpdate n =>
        obtain ⟨-, hfields, -⟩ := hp'.firstUpdate (firstUpdateOf_iff.mpr hcmd)
        simp only [NamecoinCommand.validate, NameFirstUpdate.validate, except_seq_ok_iff, failIf_ok_iff]
        exact ⟨hfields, (hfree n (firstUpdateOf_iff.mpr hcmd)).1⟩
      | nameUpdate n =>
        obtain ⟨r, hr, hl, hown⟩ := hp'.update (updateOf_iff.mpr hcmd)
        have hl' : ¬ isExpired r (st.currentHeight + 1) := fun he =>
          htime.live n r (updateOf_iff.mpr hcmd) hr ((expired_next (by omega) hl).mp he)
        obtain ⟨r', hr', hown', hlive'⟩ := h.names.live _ r hr hl'
        simp only [NamecoinCommand.validate, NameUpdate.validate, hr', except_seq_ok_iff,
          failIf_ok_iff, not_not]
        exact ⟨hlive', hown'.trans hown⟩
    · cases cmd with
      | nameNew n => exact hins
      | reward => rfl
      | nameUpdate n => rfl
      | nameFirstUpdate n =>
        have hn := firstUpdateOf_iff.mpr hcmd
        obtain ⟨⟨key, r, hk, hr, hcm, hage⟩, -, -⟩ := hp'.firstUpdate hn
        refine firstUpdate_validateWithInputs_iff.mpr ⟨⟨key, r, hk, ?_, hcm, ?_⟩, (hfree n hn).1⟩
        · exact h.names.commits key r hr fun d hd m hm he =>
            (hind d hd).commits m n hm hn (he.trans hk.symm)
        · rw [tooOld_iff, h.names.height, hsucc]
          have := htime.age n key r hn hk hr
          omega

include hst

/-- **The conditions are necessary.** -/
theorem Running.step_necessary (hR : tx.type ≠ "Reward") (hv : validateTxStrict E s txID tx = .ok ())
    (hclaim : ∀ n, firstUpdateOf tx = some n → n.domain ∉ s.claimedDomains) :
    (∀ d ∈ done, Independent d tx) ∧ Timely st tx := by
  have hsucc : (st.currentHeight + 1).toNat = st.currentHeight.toNat + 1 := by
    rw [UInt64.toNat_add, UInt64.toNat_one, Nat.mod_eq_of_lt (by omega)]
  obtain ⟨hval, -, -, -, hplan, hins⟩ := (validateTxStrict_user_iff hR).mp hv
  have hwith : ∀ n, firstUpdateOf tx = some n → ∃ key r, commitKey n tx = some key ∧
      s.commitments.lookup key = some r ∧
      ¬ (0 < r.height.toNat ∧ r.height.toNat + maxFirstUpdateDepth.toNat <
      st.currentHeight.toNat + 1) := by
    intro n hn
    rw [validateCommandWithInputs_eq (firstUpdateOf_iff.mp hn)] at hins
    obtain ⟨⟨key, r, hk, hr, -, hage⟩, -⟩ := firstUpdate_validateWithInputs_iff.mp hins
    rw [tooOld_iff, h.names.height, hsucc] at hage
    exact ⟨key, r, hk, hr, hage⟩
  have hcommits : ∀ d ∈ done, ∀ m n, firstUpdateOf d = some m → firstUpdateOf tx = some n →
      commitKey m d ≠ commitKey n tx := by
    intro d hd m n hm hn he
    obtain ⟨key, r, hk, hr, -⟩ := hwith n hn
    obtain ⟨id, hpd⟩ := h.pending d hd
    obtain ⟨⟨key', r', hk', hr', -⟩, -⟩ := hpd.firstUpdate hm
    rw [he, hk] at hk'
    cases hk'
    exact h.names.consumed d hd m key hm (he.trans hk) (Finmap.mem_of_lookup_eq_some hr')
      (Finmap.mem_of_lookup_eq_some hr)
  refine ⟨fun d hd => ⟨fun hsd hst' hfrom => ?_, fun m n hm hn he => ?_, hcommits d hd⟩,
    fun n key r hn hk hr hpos => ?_, fun n r hn hr he => ?_⟩
  · -- the first coin of the sender is gone
    obtain ⟨id, hpd⟩ := h.pending d hd
    obtain ⟨t, htd, htx, hacc⟩ := hpd.first_coin hp hsd hst' hfrom
    obtain ⟨ins, outs, hp₁, hin, -⟩ := checkSpendPlan_ok_iff.mp hplan
    rw [hin] at htx
    refine h.coins.spent d hd hsd t htd (hst.coins _ _ hacc) ?_
    rw [hfrom]
    exact (spendPlan_ok hp₁).owned t htx
  · exact hclaim n hn (he ▸ h.names.claimed d hd m hm)
  · -- the commitment is still the one of `st`, one block older
    obtain ⟨key', r', hk', hr', hage⟩ := hwith n hn
    rw [hk] at hk'
    cases hk'
    rw [h.names.commits key r hr fun d hd m hm he => hcommits d hd m n hm hn (he.trans hk.symm)] at hr'
    cases hr'
    omega
  · -- a name that expires at the height of the block is not registered any more
    obtain ⟨r', hr', hl, -⟩ := hp.update hn
    rw [hr] at hr'
    cases hr'
    have hexp := (expired_next (by omega) hl).mpr he
    have hnot : ¬ registered s n.domain := by
      refine (h.names.free n.domain (fun r₁ h₁ => ?_) fun d hd m hm hmd => ?_).1
      · rw [hr] at h₁
        cases h₁
        exact hexp
      · obtain ⟨id, hpd⟩ := h.pending d hd
        obtain ⟨-, -, hreg⟩ := hpd.firstUpdate hm
        exact hreg (hmd ▸ registered_iff.mpr ⟨r, hr, hl⟩)
    rw [validateCommand_eq (updateOf_iff.mp hn)] at hval
    cases hl₁ : s.domains.lookup n.domain with
    | none => simp only [NamecoinCommand.validate, NameUpdate.validate, hl₁] at hval; cases hval
    | some r₁ =>
      simp only [NamecoinCommand.validate, NameUpdate.validate, hl₁, except_seq_ok_iff,
        failIf_ok_iff] at hval
      exact hnot (registered_iff.mpr ⟨r₁, hl₁, hval.1⟩)

/-- **One transaction more.** -/
theorem Running.step_iff (hid : txID ∉ s.txMap) :
    (∃ s', FreshStep E txID tx s s') ↔ (∀ d ∈ done, Independent d tx) ∧ Timely st tx := by
  have hnew : ∀ addr, txID ∉ account s addr := fun addr hm => hid (h.wellFormed.coins _ _ hm)
  by_cases hR : tx.type = "Reward"
  · have hcmd : resolveCommand tx.type tx.payload = .ok .reward := resolveCommand_reward_iff.mpr hR
    have hfu : ∀ n, firstUpdateOf tx ≠ some n := fun n hn => by
      rw [firstUpdateOf_iff, hcmd] at hn; cases hn
    have hup : ∀ n, updateOf tx ≠ some n := fun n hn => by rw [updateOf_iff, hcmd] at hn; cases hn
    cases hp with
    | user hR' => exact absurd hR hR'
    | reward _ hid' hone =>
      exact ⟨fun _ => ⟨fun d _ => ⟨fun _ hs => absurd hR hs.1, fun _ n _ hn => absurd hn (hfu n),
        fun _ n _ hn => absurd hn (hfu n)⟩, fun n _ _ hn => absurd hn (hfu n),
        fun n _ hn => absurd hn (hup n)⟩, fun _ => ⟨_, freshStep_reward hR hid' hone (hnew _)⟩⟩
  · have hcmd : ∃ cmd, resolveCommand tx.type tx.payload = .ok cmd := by
      cases hp with
      | reward hR' => exact absurd hR' hR
      | user _ _ _ hval _ =>
        obtain ⟨cmd, hcmd, -⟩ := validateCommand_ok_iff.mp hval
        exact ⟨cmd, hcmd⟩
    obtain ⟨cmd, hcmd⟩ := hcmd
    have hfu : (∀ n, cmd = .nameFirstUpdate n → n.domain ∉ s.claimedDomains) ↔
        ∀ n, firstUpdateOf tx = some n → n.domain ∉ s.claimedDomains := by
      simp only [firstUpdateOf_iff, hcmd, Except.ok.injEq]
    rw [freshStep_exists_iff hR hcmd (hnew _), hfu]
    exact ⟨fun ⟨hv, hc⟩ => h.step_necessary hst hh hp hR hv hc,
      fun ⟨hind, ht⟩ => h.step_sufficient hh hp hR hind ht⟩

end step

theorem Running.step {s' : NamecoinState} (h : Running E st done s) (hst : WellFormed st)
    (hh : st.currentHeight.toNat + 1 + maxDomainTTLBlocks.toNat < 2 ^ 64) (hp : Pending E st txID tx)
    (hb : buildTransactionID E tx = .ok txID) (hid : txID ∉ s.txMap)
    (hlen : st.nextUTXOSeq.toNat + done.length + 1 < 2 ^ 64) (hf : FreshStep E txID tx s s') :
    Running E st (done ++ [tx]) s' := by
  have hh' : s.currentHeight.toNat + maxDomainTTLBlocks.toNat < 2 ^ 64 := by
    rw [h.names.height, UInt64.toNat_add, UInt64.toNat_one, Nat.mod_eq_of_lt (by omega)]
    exact hh
  refine ⟨h.names.step hst h.wellFormed hh' hb (fun hm => hid (h.applied hm)) hf,
    h.coins.step h.wellFormed hid h.applied hlen hf, h.wellFormed.freshStep hb hf, ?_, fun d hd => ?_⟩
  · rw [freshStep_txMap hf]
    exact h.applied.trans (Finset.subset_insert _ _)
  · rcases List.mem_append.mp hd with hd | hd
    · exact h.pending d hd
    · rw [List.mem_singleton.mp hd]
      exact ⟨txID, hp⟩

/-- **All the transactions of a block** apply exactly if they are independent of
those before and in time. -/
theorem run_iff (hst : WellFormed st)
    (hh : st.currentHeight.toNat + 1 + maxDomainTTLBlocks.toNat < 2 ^ 64) :
    ∀ (rest : List (String × Tx)) (done : List Tx) (s : NamecoinState), Running E st done s →
      (∀ e ∈ rest, Pending E st e.1 e.2 ∧ buildTransactionID E e.2 = .ok e.1 ∧ e.1 ∉ s.txMap) →
      (rest.map Prod.fst).Nodup → st.nextUTXOSeq.toNat + done.length + rest.length < 2 ^ 64 →
      ((∃ s', FreshRun E rest s s') ↔ (∀ d ∈ done, ∀ e ∈ rest, Independent d e.2) ∧
        rest.Pairwise (fun a b => Independent a.2 b.2) ∧ ∀ e ∈ rest, Timely st e.2)
  | [], done, s, _, _, _, _ => by
    simp only [List.not_mem_nil, false_implies, implies_true, List.Pairwise.nil, and_self, iff_true]
    exact ⟨s, .nil s⟩
  | (txID, tx) :: rest, done, s, h, hpend, hnd, hlen => by
    obtain ⟨hp, hb, hid⟩ := hpend (txID, tx) List.mem_cons_self
    rw [List.map_cons, List.nodup_cons] at hnd
    rw [List.length_cons] at hlen
    -- what the induction says of the rest, from any state the first transaction leads to
    have hrest : ∀ s₁, FreshStep E txID tx s s₁ → ((∃ s', FreshRun E rest s₁ s') ↔
        (∀ d ∈ done ++ [tx], ∀ e ∈ rest, Independent d e.2) ∧
          rest.Pairwise (fun a b => Independent a.2 b.2) ∧ ∀ e ∈ rest, Timely st e.2) := fun s₁ hf => by
      refine run_iff hst hh rest (done ++ [tx]) s₁ (h.step hst hh hp hb hid (by omega) hf)
        (fun e he => ?_) hnd.2 (by rw [List.length_append, List.length_singleton]; omega)
      obtain ⟨hp', hb', hid'⟩ := hpend e (List.mem_cons_of_mem _ he)
      refine ⟨hp', hb', fun hm => ?_⟩
      rw [freshStep_txMap hf] at hm
      rcases Finset.mem_insert.mp hm with heq | hm
      · exact hnd.1 (List.mem_map.mpr ⟨e, he, heq⟩)
      · exact hid' hm
    simp only [List.pairwise_cons, List.forall_mem_cons]
    constructor
    · rintro ⟨s', hrun⟩
      cases hrun with
      | @cons _ _ _ _ s₁ _ _ hf hrun =>
        obtain ⟨hind, htime⟩ := (h.step_iff hst hh hp hid).mp ⟨s₁, hf⟩
        obtain ⟨h1, h2, h3⟩ := (hrest s₁ hf).mp ⟨s', hrun⟩
        exact ⟨fun d hd => ⟨hind d hd, h1 d (List.mem_append_left _ hd)⟩,
          ⟨h1 tx (List.mem_append_right _ (List.mem_singleton_self tx)), h2⟩, htime, h3⟩
    · rintro ⟨h1, ⟨h2, h3⟩, h4, h5⟩
      obtain ⟨s₁, hf⟩ := (h.step_iff hst hh hp hid).mpr ⟨fun d hd => (h1 d hd).1, h4⟩
      obtain ⟨s', hrun⟩ := (hrest s₁ hf).mpr ⟨fun d hd e he => by
        rcases List.mem_append.mp hd with hd | hd
        · exact (h1 d hd).2 e he
        · rw [List.mem_singleton.mp hd]
          exact h2 e he, h3, h5⟩
      exact ⟨s', .cons hid hf hrun⟩

end together

end Namecoin.State.Together
