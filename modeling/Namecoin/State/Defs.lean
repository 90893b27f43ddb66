import Namecoin.Lib.Maps
import Namecoin.Types.Defs

/-! # The ledger state

`NamecoinState` of `namecoin_state.go` and the operations on its maps. The maps of the code are finite
maps, its sets finite sets; `NewState` makes all of them, so none is nil. `claimedDomains` is a map of
the state like the others, but `replaceWith` does not carry it over: it only ever collects the names
set in the block being applied. -/

namespace Namecoin.State.Defs

open Lib.Maps Types.Defs

def defaultDomainTTLBlocks : UInt64 := 36000

def maxDomainTTLBlocks : UInt64 := 5256000

structure CommitmentRecord where
  commit : String
  ttl : UInt64
  height : UInt64
deriving DecidableEq

structure NamecoinState where
  domains : Map String NameRecord
  expires : Map UInt64 (List String)
  currentHeight : UInt64
  domainTTL : UInt64
  claimedDomains : Finset String
  commitments : Map String CommitmentRecord
  utxoMap : Map String (Map String UTXO)
  txMap : Finset String
  nextUTXOSeq : UInt64

/-- Operations on a state: on an error the changes made so far stay. -/
abbrev StateOp := EStateM Err NamecoinState

def clampTTL (ttl : UInt64) : UInt64 :=
  if ttl = 0 then 0 else if maxDomainTTLBlocks < ttl then maxDomainTTLBlocks else ttl

def newState : NamecoinState where
  domains := ∅
  expires := ∅
  currentHeight := 0
  domainTTL := clampTTL defaultDomainTTLBlocks
  claimedDomains := ∅
  commitments := ∅
  utxoMap := ∅
  txMap := ∅
  nextUTXOSeq := 0

def effectiveTTL (st : NamecoinState) (ttl : UInt64) : UInt64 :=
  if ttl = 0 then clampTTL st.domainTTL else clampTTL ttl

def isExpired (r : NameRecord) (height : UInt64) : Prop := r.expiresAt ≠ 0 ∧ r.expiresAt ≤ height

instance (r : NameRecord) (height : UInt64) : Decidable (isExpired r height) := by
  unfold isExpired; infer_instance

theorem isExpired_iff {r : NameRecord} {height : UInt64} :
    isExpired r height ↔ r.expiresAt.toNat ≠ 0 ∧ r.expiresAt.toNat ≤ height.toNat := by
  unfold isExpired
  rw [UInt64.le_iff_toNat_le, ne_eq, ← UInt64.toNat_inj, UInt64.toNat_zero]

def setHeight (h : UInt64) (st : NamecoinState) : NamecoinState := { st with currentHeight := h }

def addExpiryLocked (domain : String) (height : UInt64) (st : NamecoinState) : NamecoinState :=
  { st with expires := st.expires.insert height ((st.expires.lookup height).getD [] ++ [domain]) }

/-- The loop of `removeFromExpiryLocked`: the first occurrence is overwritten by the last member, and the
last member is cut off. -/
def removeSwap (domain : String) (names : List String) : List String :=
  if domain ∈ names then (names.set (names.idxOf domain) (names.getLastD domain)).dropLast else names

def removeFromExpiryLocked (domain : String) (height : UInt64) (st : NamecoinState) : NamecoinState :=
  if height = 0 then st
  else match st.expires.lookup height with
    | none => st
    | some names =>
      let names' := removeSwap domain names
      if names' = [] then { st with expires := st.expires.erase height }
      else { st with expires := st.expires.insert height names' }

def setDomain (r : NameRecord) (st : NamecoinState) : NamecoinState :=
  let st := match st.domains.lookup r.domain with
    | some existing =>
      if existing.expiresAt ≠ 0 then removeFromExpiryLocked r.domain existing.expiresAt st else st
    | none => st
  let st := { st with
    domains := st.domains.insert r.domain r
    claimedDomains := insert r.domain st.claimedDomains }
  if r.expiresAt ≠ 0 then addExpiryLocked r.domain r.expiresAt st else st

def setCommitment (outpointKey commitment : String) (ttl height : UInt64) (st : NamecoinState) :
    NamecoinState :=
  { st with commitments := st.commitments.insert outpointKey ⟨commitment, ttl, height⟩ }

def deleteCommitment (outpointKey : String) (st : NamecoinState) : NamecoinState :=
  { st with commitments := st.commitments.erase outpointKey }

def markAsApplied (txID : String) (st : NamecoinState) : NamecoinState :=
  { st with txMap := insert txID st.txMap }

def isTxApplied (st : NamecoinState) (txID : String) : Prop := txID ∈ st.txMap

instance (st : NamecoinState) (txID : String) : Decidable (isTxApplied st txID) := by
  unfold isTxApplied; infer_instance

/-! ### Pruning -/

/-- The body of the inner loop of `pruneExpired`: one name of the bucket `expHeight`. -/
def pruneName (expHeight : UInt64) (st : NamecoinState) (name : String) : NamecoinState :=
  match st.domains.lookup name with
  | some r =>
    if r.expiresAt = expHeight then
      { st with
        domains := st.domains.erase name
        claimedDomains := st.claimedDomains.erase name }
    else st
  | none => st

/-- The body of the outer loop of `pruneExpired`: one bucket. -/
def pruneBucket (height : UInt64) (st : NamecoinState) (expHeight : UInt64) : NamecoinState :=
  if height < expHeight then st
  else
    let st := ((st.expires.lookup expHeight).getD []).foldl (pruneName expHeight) st
    { st with expires := st.expires.erase expHeight }

/-- The order of machine words, for the loop over the expiry index. -/
def wordLE (a b : UInt64) : Prop := a ≤ b

instance : DecidableRel wordLE := fun a b => by unfold wordLE; infer_instance

instance : IsTrans UInt64 wordLE := ⟨fun _ _ _ h1 h2 => UInt64.le_trans h1 h2⟩

instance : Std.Antisymm wordLE := ⟨fun _ _ h1 h2 => UInt64.le_antisymm h1 h2⟩

instance : Std.Total wordLE := ⟨fun a b => UInt64.le_total a b⟩

/-- `pruneExpired`. Go visits the buckets of a map in no fixed order; here they are taken in ascending
order. -/
def pruneExpired (height : UInt64) (st : NamecoinState) : NamecoinState :=
  (sortedKeys wordLE st.expires).foldl (pruneBucket height) st

/-! ### What the operations on names leave alone -/

theorem removeFromExpiryLocked_eq (domain : String) (height : UInt64) (st : NamecoinState) :
    ∃ e, removeFromExpiryLocked domain height st = { st with expires := e } := by
  unfold removeFromExpiryLocked
  split_ifs
  · exact ⟨_, rfl⟩
  · split
    · exact ⟨_, rfl⟩
    · dsimp only
      split_ifs <;> exact ⟨_, rfl⟩

/-- **`SetDomain`** writes the record under its own name and marks the name as claimed; otherwise only the
expiry index changes. -/
theorem setDomain_eq (r : NameRecord) (st : NamecoinState) :
    ∃ e, setDomain r st = { st with
      domains := st.domains.insert r.domain r
      claimedDomains := insert r.domain st.claimedDomains
      expires := e } := by
  have hfirst : ∃ e, (match st.domains.lookup r.domain with
      | some existing =>
        if existing.expiresAt ≠ 0 then removeFromExpiryLocked r.domain existing.expiresAt st else st
      | none => st) = { st with expires := e } := by
    split
    · split_ifs
      · exact removeFromExpiryLocked_eq _ _ _
      · exact ⟨_, rfl⟩
    · exact ⟨_, rfl⟩
  obtain ⟨e, he⟩ := hfirst
  unfold setDomain
  rw [he]
  dsimp only
  split_ifs
  · exact ⟨_, rfl⟩
  · exact ⟨_, rfl⟩

@[simp] theorem markAsApplied_domains (txID : String) (st : NamecoinState) :
    (markAsApplied txID st).domains = st.domains := rfl

@[simp] theorem markAsApplied_claimedDomains (txID : String) (st : NamecoinState) :
    (markAsApplied txID st).claimedDomains = st.claimedDomains := rfl

@[simp] theorem deleteCommitment_domains (key : String) (st : NamecoinState) :
    (deleteCommitment key st).domains = st.domains := rfl

@[simp] theorem deleteCommitment_claimedDomains (key : String) (st : NamecoinState) :
    (deleteCommitment key st).claimedDomains = st.claimedDomains := rfl

@[simp] theorem setDomain_domains (r : NameRecord) (st : NamecoinState) :
    (setDomain r st).domains = st.domains.insert r.domain r := by
  obtain ⟨e, he⟩ := setDomain_eq r st
  rw [he]

@[simp] theorem setDomain_claimedDomains (r : NameRecord) (st : NamecoinState) :
    (setDomain r st).claimedDomains = insert r.domain st.claimedDomains := by
  obtain ⟨e, he⟩ := setDomain_eq r st
  rw [he]

/-- What one step of the pruning loops may do: remove records that expire at or before `height`, and their
claim marks. -/
structure Pruned (height : UInt64) (s s' : NamecoinState) : Prop where
  rest : s' = { s with domains := s'.domains, claimedDomains := s'.claimedDomains, expires := s'.expires }
  shrinks : ∀ k r, s'.domains.lookup k = some r → s.domains.lookup k = some r
  keeps : ∀ k r, s.domains.lookup k = some r → height < r.expiresAt → s'.domains.lookup k = some r
  claims : s'.claimedDomains ⊆ s.claimedDomains

theorem Pruned.refl (height : UInt64) (s : NamecoinState) : Pruned height s s :=
  ⟨rfl, fun _ _ h => h, fun _ _ h _ => h, Finset.Subset.refl _⟩

theorem Pruned.trans {height : UInt64} {s₁ s₂ s₃ : NamecoinState} (h1 : Pruned height s₁ s₂)
    (h2 : Pruned height s₂ s₃) : Pruned height s₁ s₃ where
  rest := by rw [h2.rest, h1.rest]
  shrinks k r h := h1.shrinks k r (h2.shrinks k r h)
  keeps k r h hl := h2.keeps k r (h1.keeps k r h hl) hl
  claims := h2.claims.trans h1.claims

theorem pruneName_pruned {height expHeight : UInt64} (h : expHeight ≤ height) (s : NamecoinState)
    (name : String) : Pruned height s (pruneName expHeight s name) := by
  unfold pruneName
  split
  case h_2 => exact .refl _ _
  case h_1 r hr =>
    split_ifs with he
    · refine ⟨rfl, fun k r' hk => ?_, fun k r' hk hl => ?_, Finset.erase_subset _ _⟩
      · dsimp only at hk
        rw [lookup_erase_ite] at hk
        split_ifs at hk
        exact hk
      · dsimp only
        rw [lookup_erase_ite, if_neg, hk]
        rintro rfl
        rw [hr] at hk
        cases hk
        rw [he] at hl
        exact absurd (UInt64.lt_of_lt_of_le hl h) (UInt64.lt_irrefl _)
    · exact .refl _ _

theorem pruneNames_pruned {height expHeight : UInt64} (h : expHeight ≤ height) :
    ∀ (names : List String) (s : NamecoinState), Pruned height s (names.foldl (pruneName expHeight) s)
  | [], s => .refl _ s
  | n :: names, s => (pruneName_pruned h s n).trans (pruneNames_pruned h names _)

theorem pruneBucket_pruned (height : UInt64) (s : NamecoinState) (expHeight : UInt64) :
    Pruned height s (pruneBucket height s expHeight) := by
  unfold pruneBucket
  split_ifs with h
  · exact .refl _ _
  · have hp := pruneNames_pruned (UInt64.not_lt.mp h) ((s.expires.lookup expHeight).getD []) s
    exact hp.trans ⟨rfl, fun _ _ h => h, fun _ _ h _ => h, Finset.Subset.refl _⟩

/-- **Pruning** only removes records that have expired. -/
theorem pruneExpired_pruned (height : UInt64) (s : NamecoinState) :
    Pruned height s (pruneExpired height s) := by
  have hfold : ∀ (ks : List UInt64) (s : NamecoinState), Pruned height s
      (ks.foldl (pruneBucket height) s) := by
    intro ks
    induction ks with
    | nil => exact .refl _
    | cons k ks ih => exact fun s => (pruneBucket_pruned height s k).trans (ih _)
  exact hfold _ s

/-! ### The bucket of height 0

`ExpiresAt` 0 means that a record does not expire, so nothing is ever entered under height 0. -/

theorem zero_notMem_removeFromExpiry {domain : String} {height : UInt64} {st : NamecoinState}
    (h : (0 : UInt64) ∉ st.expires) :
    (0 : UInt64) ∉ (removeFromExpiryLocked domain height st).expires := by
  unfold removeFromExpiryLocked
  split_ifs with h0
  · exact h
  · split
    · exact h
    · dsimp only
      split_ifs
      · exact fun hm => h (Finmap.mem_erase.mp hm).2
      · exact fun hm => (Finmap.mem_insert.mp hm).elim (fun he => h0 he.symm) h

theorem zero_notMem_setDomain {r : NameRecord} {st : NamecoinState} (h : (0 : UInt64) ∉ st.expires) :
    (0 : UInt64) ∉ (setDomain r st).expires := by
  have hfirst : (0 : UInt64) ∉ (match st.domains.lookup r.domain with
      | some existing =>
        if existing.expiresAt ≠ 0 then removeFromExpiryLocked r.domain existing.expiresAt st else st
      | none => st).expires := by
    split
    · split_ifs
      · exact zero_notMem_removeFromExpiry h
      · exact h
    · exact h
  unfold setDomain
  dsimp only
  split_ifs with h0
  · exact fun hm => (Finmap.mem_insert.mp hm).elim (fun he => h0 he.symm) hfirst
  · exact hfirst

theorem pruneName_expires (expHeight : UInt64) (st : NamecoinState) (name : String) :
    (pruneName expHeight st name).expires = st.expires := by
  unfold pruneName
  split
  · split_ifs <;> rfl
  · rfl

theorem pruneNames_expires (expHeight : UInt64) : ∀ (names : List String) (st : NamecoinState),
    (names.foldl (pruneName expHeight) st).expires = st.expires
  | [], _ => rfl
  | n :: names, st => by rw [List.foldl_cons, pruneNames_expires, pruneName_expires]

theorem zero_notMem_pruneExpired {height : UInt64} {st : NamecoinState} (h : (0 : UInt64) ∉ st.expires) :
    (0 : UInt64) ∉ (pruneExpired height st).expires := by
  have hfold : ∀ (ks : List UInt64) (st : NamecoinState), (0 : UInt64) ∉ st.expires →
      (0 : UInt64) ∉ (ks.foldl (pruneBucket height) st).expires := by
    intro ks
    induction ks with
    | nil => exact fun _ h => h
    | cons k ks ih =>
      refine fun st h => ih _ ?_
      unfold pruneBucket
      split_ifs
      · exact h
      · dsimp only
        rw [pruneNames_expires]
        exact fun hm => h (Finmap.mem_erase.mp hm).2
  exact hfold _ st h

theorem pruneName_keeps {expHeight : UInt64} (h0 : expHeight ≠ 0) {st : NamecoinState} {name d : String}
    {r : NameRecord} (hd : st.domains.lookup d = some r) (hr : r.expiresAt = 0) :
    (pruneName expHeight st name).domains.lookup d = some r := by
  unfold pruneName
  split
  case h_2 => exact hd
  case h_1 r' hr' =>
    split_ifs with he
    · dsimp only
      rw [lookup_erase_ite, if_neg, hd]
      rintro rfl
      rw [hr'] at hd
      cases hd
      exact h0 (he.symm.trans hr)
    · exact hd

theorem pruneBucket_keeps {height expHeight : UInt64} (h0 : expHeight ≠ 0)
    {st : NamecoinState} {d : String} {r : NameRecord} (hd : st.domains.lookup d = some r)
    (hr : r.expiresAt = 0) :
    (pruneBucket height st expHeight).domains.lookup d = some r := by
  have hnames : ∀ (names : List String) (st : NamecoinState), st.domains.lookup d = some r →
      (names.foldl (pruneName expHeight) st).domains.lookup d = some r := by
    intro names
    induction names with
    | nil => exact fun _ h => h
    | cons n names ih => exact fun st h => ih _ (pruneName_keeps h0 h hr)
  unfold pruneBucket
  split_ifs
  · exact hd
  · exact hnames _ _ hd

/-- **Pruning keeps every record that has not expired.** -/
theorem pruneExpired_keeps {height : UInt64} {st : NamecoinState} {d : String} {r : NameRecord}
    (h0 : (0 : UInt64) ∉ st.expires) (hd : st.domains.lookup d = some r) (hlive : ¬ isExpired r height) :
    (pruneExpired height st).domains.lookup d = some r := by
  by_cases hr : r.expiresAt = 0
  · have hfold : ∀ (ks : List UInt64) (st : NamecoinState), (∀ k ∈ ks, k ≠ 0) →
        st.domains.lookup d = some r → (ks.foldl (pruneBucket height) st).domains.lookup d = some r := by
      intro ks
      induction ks with
      | nil => exact fun _ _ h => h
      | cons k ks ih =>
        exact fun st hk h => ih _ (fun k' hk' => hk k' (List.mem_cons_of_mem _ hk'))
          (pruneBucket_keeps (hk k List.mem_cons_self) h hr)
    exact hfold _ st (fun k hk he => h0 (he ▸ (mem_sortedKeys wordLE).mp hk)) hd
  · have hlt : height < r.expiresAt := UInt64.not_le.mp fun hle => hlive ⟨hr, hle⟩
    exact (pruneExpired_pruned height st).keeps d r hd hlt

/-- `replaceWith`: everything but `claimedDomains` is taken from the snapshot. -/
def replaceWith (st snapshot : NamecoinState) : NamecoinState :=
  { snapshot with claimedDomains := st.claimedDomains }

end Namecoin.State.Defs
