import Namecoin.State.Invariant

/-! # The expiry index

`expires` lists, for every height, the names that expire at it. `Indexed` says that it agrees with the
records: a name is listed once at the height its record expires at, and nowhere else; and that every
record expires after the height of the state, within `MaxDomainTTLBlocks`. Pruning
(`Indexed.atHeight`) and every transaction (`Indexed.freshStep`) keep it, as long as heights do not
come near the largest machine word. -/

namespace Namecoin.State.Expiry

open Lib.Maps Types.Defs State.Defs State.Commands State.Effects State.Invariant

/-! ### Buckets -/

/-- The names that expire at a height. -/
def bucket (s : NamecoinState) (k : UInt64) : List String := (s.expires.lookup k).getD []

/-- **Removal by swapping** with the last member removes one occurrence. -/
theorem removeSwap_perm {d : String} {names : List String} (h : d ∈ names) :
    (removeSwap d names).Perm (names.erase d) := by
  obtain ⟨a, b, ha, rfl, herase⟩ := List.exists_erase_eq h
  rw [herase]
  unfold removeSwap
  rw [if_pos h, List.idxOf_append_of_notMem ha, List.idxOf_cons_self, Nat.add_zero,
    List.set_append_right _ _ (le_refl _), Nat.sub_self, List.set_cons_zero]
  rcases List.eq_nil_or_concat b with rfl | ⟨b', z, rfl⟩
  · simp
  · have hlast : (a ++ d :: b'.concat z).getLastD d = z := by
      rw [List.concat_eq_append, ← List.cons_append, ← List.append_assoc, List.getLastD_concat]
    have hdrop : (a ++ z :: b'.concat z).dropLast = a ++ z :: b' := by
      rw [List.concat_eq_append, ← List.cons_append, ← List.append_assoc, List.dropLast_concat]
    rw [hlast, hdrop, List.concat_eq_append]
    exact List.Perm.append_left a (List.perm_append_singleton z b').symm

theorem count_removeSwap (d x : String) (names : List String) :
    (removeSwap d names).count x = if x = d then names.count x - 1 else names.count x := by
  by_cases h : d ∈ names
  · rw [(removeSwap_perm h).count_eq x]
    split_ifs with hx
    · rw [hx, List.count_erase_self]
    · rw [List.count_erase_of_ne hx]
  · unfold removeSwap
    rw [if_neg h]
    split_ifs with hx
    · rw [hx, List.count_eq_zero_of_not_mem h]
    · rfl

theorem bucket_addExpiry (d : String) (h : UInt64) (s : NamecoinState) (k : UInt64) :
    bucket (addExpiryLocked d h s) k = if k = h then bucket s k ++ [d] else bucket s k := by
  unfold bucket addExpiryLocked
  rw [lookup_insert_ite]
  split_ifs with hk
  · rw [hk]; rfl
  · rfl

theorem bucket_removeFromExpiry (d : String) {h : UInt64} (h0 : h ≠ 0) (s : NamecoinState) (k : UInt64) :
    bucket (removeFromExpiryLocked d h s) k = if k = h then removeSwap d (bucket s k)
      else bucket s k := by
  unfold removeFromExpiryLocked
  rw [if_neg h0]
  cases hl : s.expires.lookup h with
  | none =>
    split_ifs with hk
    · subst hk
      simp [bucket, hl, removeSwap]
    · rfl
  | some names =>
    dsimp only
    by_cases hnil : removeSwap d names = []
    · rw [if_pos hnil]
      unfold bucket
      dsimp only
      rw [lookup_erase_ite]
      split_ifs with hk
      · rw [hk, hl, Option.getD_some, hnil]; rfl
      · rfl
    · rw [if_neg hnil]
      unfold bucket
      dsimp only
      rw [lookup_insert_ite]
      split_ifs with hk
      · rw [hk, hl]; rfl
      · rfl

/-! ### The index -/

/-- How often a name with the given record is listed at a height. -/
def expected (r : Option NameRecord) (k : UInt64) : ℕ :=
  match r with
  | some r => if r.expiresAt = k then 1 else 0
  | none => 0

/-- The expiry index and the records agree. -/
structure Indexed (s : NamecoinState) : Prop where
  named : ∀ d r, s.domains.lookup d = some r → r.domain = d
  live : ∀ d r, s.domains.lookup d = some r → s.currentHeight.toNat < r.expiresAt.toNat ∧
    r.expiresAt.toNat ≤ s.currentHeight.toNat + maxDomainTTLBlocks.toNat
  index : ∀ k d, (bucket s k).count d = expected (s.domains.lookup d) k

theorem indexed_newState : Indexed newState where
  named d r h := by simp [newState] at h
  live d r h := by simp [newState] at h
  index k d := by simp [bucket, newState, expected]

variable {s s' : NamecoinState} {d : String} {r : NameRecord}

theorem Indexed.ne_zero (h : Indexed s) (hd : s.domains.lookup d = some r) : r.expiresAt ≠ 0 :=
  fun h0 => by
  have := (h.live d r hd).1
  rw [h0] at this
  exact Nat.not_lt_zero _ this

theorem Indexed.not_isExpired (h : Indexed s) (hd : s.domains.lookup d = some r) :
    ¬ isExpired r s.currentHeight := by
  rw [isExpired_iff]
  have := (h.live d r hd).1
  omega

theorem Indexed.of_eq (h : Indexed s) (hd : s'.domains = s.domains) (he : s'.expires = s.expires)
    (hh : s'.currentHeight = s.currentHeight) : Indexed s' := by
  refine ⟨hd ▸ h.named, ?_, fun k d => ?_⟩
  · rw [hd, hh]; exact h.live
  · unfold bucket
    rw [hd, he]
    exact h.index k d

theorem Indexed.deleteCommitment (h : Indexed s) (key : String) : Indexed (deleteCommitment key s) :=
  h.of_eq rfl rfl rfl

/-- The state after `SetDomain` has removed the old entry of the name from the index. -/
def cleared (r : NameRecord) (st : NamecoinState) : NamecoinState :=
  match st.domains.lookup r.domain with
  | some existing =>
    if existing.expiresAt ≠ 0 then removeFromExpiryLocked r.domain existing.expiresAt st else st
  | none => st

theorem bucket_setDomain (r : NameRecord) (s : NamecoinState) (h0 : r.expiresAt ≠ 0) (k : UInt64) :
    bucket (setDomain r s) k =
      if k = r.expiresAt then bucket (cleared r s) k ++ [r.domain] else bucket (cleared r s) k := by
  unfold setDomain
  dsimp only
  rw [if_pos h0, bucket_addExpiry]
  rfl

theorem count_cleared (h : Indexed s) (r : NameRecord) (k : UInt64) (x : String) :
    (bucket (cleared r s) k).count x = if x = r.domain then 0 else (bucket s k).count x := by
  unfold cleared
  cases hl : s.domains.lookup r.domain with
  | none =>
    dsimp only
    split_ifs with hx
    · rw [hx, h.index, hl]; rfl
    · rfl
  | some existing =>
    have h0 := h.ne_zero hl
    simp only [ne_eq, h0, not_false_eq_true, if_true]
    rw [bucket_removeFromExpiry _ h0]
    by_cases hk : k = existing.expiresAt
    · rw [if_pos hk, count_removeSwap]
      split_ifs with hx
      · rw [hx, h.index, hl, expected, if_pos hk.symm]
      · rfl
    · rw [if_neg hk]
      split_ifs with hx
      · rw [hx, h.index, hl, expected, if_neg fun he => hk he.symm]
      · rfl

/-- **`SetDomain`** keeps the index, for a record that expires in time. -/
theorem Indexed.setDomain (h : Indexed s) (hlive : s.currentHeight.toNat < r.expiresAt.toNat ∧
      r.expiresAt.toNat ≤ s.currentHeight.toNat + maxDomainTTLBlocks.toNat) : Indexed
        (setDomain r s) := by
  have h0 : r.expiresAt ≠ 0 := fun h0 => by rw [h0] at hlive; exact Nat.not_lt_zero _ hlive.1
  have hheight : (Defs.setDomain r s).currentHeight = s.currentHeight := by
    obtain ⟨e, he⟩ := setDomain_eq r s
    rw [he]
  refine ⟨fun d r' hd => ?_, fun d r' hd => ?_, fun k x => ?_⟩
  · rw [setDomain_domains, lookup_insert_ite] at hd
    split_ifs at hd with hdr
    · cases hd; exact hdr.symm
    · exact h.named d r' hd
  · rw [hheight]
    rw [setDomain_domains, lookup_insert_ite] at hd
    split_ifs at hd
    · cases hd; exact hlive
    · exact h.live d r' hd
  · have hcount := count_cleared h r k x
    rw [setDomain_domains, lookup_insert_ite, bucket_setDomain r s h0]
    by_cases hx : x = r.domain
    · rw [if_pos hx] at hcount ⊢
      rw [expected]
      by_cases hk : k = r.expiresAt
      · rw [if_pos hk, if_pos hk.symm, List.count_append, hcount, hx, List.count_singleton_self]
      · rw [if_neg hk, if_neg fun he => hk he.symm, hcount]
    · rw [if_neg hx] at hcount ⊢
      rw [← h.index, ← hcount]
      split_ifs
      · have hone : [r.domain].count x = 0 := List.count_eq_zero_of_not_mem (by simpa using hx)
        rw [List.count_append, hone, Nat.add_zero]
      · rfl

/-! ### Pruning -/

/-- The height at which a name expires. -/
def expiry (s : NamecoinState) (d : String) : Option UInt64 :=
  (s.domains.lookup d).map NameRecord.expiresAt

theorem pruneName_lookup (k : UInt64) (s : NamecoinState) (name d : String) :
    (pruneName k s name).domains.lookup d =
      if d = name ∧ expiry s d = some k then none else s.domains.lookup d := by
  unfold pruneName expiry
  cases hl : s.domains.lookup name with
  | none =>
    dsimp only
    split_ifs with hd
    · rw [hd.1, hl]
    · rfl
  | some r =>
    dsimp only
    by_cases hr : r.expiresAt = k
    · rw [if_pos hr, lookup_erase_ite]
      by_cases hd : d = name
      · rw [if_pos hd, if_pos ⟨hd, by rw [hd, hl, Option.map_some, hr]⟩]
      · rw [if_neg hd, if_neg fun h => hd h.1]
    · rw [if_neg hr, if_neg]
      rintro ⟨rfl, he⟩
      rw [hl, Option.map_some, Option.some.injEq] at he
      exact hr he

theorem pruneNames_lookup (k : UInt64) (d : String) : ∀ (names : List String) (s : NamecoinState),
    (names.foldl (pruneName k) s).domains.lookup d =
      if d ∈ names ∧ expiry s d = some k then none else s.domains.lookup d
  | [], s => by simp
  | name :: names, s => by
    rw [List.foldl_cons, pruneNames_lookup k d names]
    have hstep := pruneName_lookup k s name d
    by_cases he : expiry s d = some k
    · by_cases hd : d = name
      · rw [if_pos ⟨hd, he⟩] at hstep
        rw [hstep, ite_self, if_pos ⟨hd ▸ List.mem_cons_self, he⟩]
      · rw [if_neg fun h => hd h.1] at hstep
        have hexp : expiry (pruneName k s name) d = expiry s d := by unfold expiry; rw [hstep]
        rw [hexp, hstep]
        simp [hd]
    · rw [if_neg fun h => he h.2] at hstep
      have hexp : expiry (pruneName k s name) d = expiry s d := by unfold expiry; rw [hstep]
      rw [hexp, hstep, if_neg fun h => he h.2, if_neg fun h => he h.2]

/-- Every record is listed at the height it expires at. -/
def Listed (s : NamecoinState) : Prop := ∀ d k, expiry s d = some k → d ∈ bucket s k

theorem pruneBucket_lookup {s : NamecoinState} (hl : Listed s) (h k : UInt64) (d : String) :
    (pruneBucket h s k).domains.lookup d = if k ≤ h ∧ expiry s d = some k then none
      else s.domains.lookup d := by
  unfold pruneBucket
  split_ifs with hk hc hc
  · exact absurd hk (UInt64.not_lt.mpr hc.1)
  · rfl
  · dsimp only
    rw [pruneNames_lookup, if_pos ⟨hl d k hc.2, hc.2⟩]
  · dsimp only
    rw [pruneNames_lookup, if_neg fun he => hc ⟨UInt64.not_lt.mp hk, he.2⟩]

theorem pruneBucket_bucket (s : NamecoinState) (h k j : UInt64) :
    bucket (pruneBucket h s k) j = if k ≤ h ∧ j = k then [] else bucket s j := by
  unfold pruneBucket
  by_cases hk : h < k
  · rw [if_pos hk, if_neg fun hc => UInt64.not_lt.mpr hc.1 hk]
  · rw [if_neg hk]
    unfold bucket
    dsimp only
    rw [pruneNames_expires, lookup_erase_ite]
    by_cases hj : j = k
    · rw [if_pos hj, if_pos ⟨UInt64.not_lt.mp hk, hj⟩]; rfl
    · rw [if_neg hj, if_neg fun hc => hj hc.2]

theorem pruneBucket_expiry {s : NamecoinState} (hl : Listed s) (h k : UInt64) (d : String) :
    expiry (pruneBucket h s k) d = if k ≤ h ∧ expiry s d = some k then none else expiry s d := by
  unfold expiry
  rw [pruneBucket_lookup hl]
  split_ifs <;> first | rfl | (exfalso; tauto)

theorem Listed.pruneBucket {s : NamecoinState} (hl : Listed s) (h k : UInt64) :
    Listed (pruneBucket h s k) := by
  intro d j hj
  rw [pruneBucket_expiry hl] at hj
  rw [pruneBucket_bucket]
  by_cases hc : k ≤ h ∧ expiry s d = some k
  · rw [if_pos hc] at hj
    cases hj
  · rw [if_neg hc] at hj
    have hother : ¬ (k ≤ h ∧ j = k) := fun hjk => hc ⟨hjk.1, hjk.2 ▸ hj⟩
    rw [if_neg hother]
    exact hl d j hj

/-- The loop of `pruneExpired`: the records listed at the given heights go, if these are not above `h`. -/
theorem pruneBuckets_lookup (h : UInt64) (d : String) :
    ∀ (ks : List UInt64) (s : NamecoinState), Listed s →
    (ks.foldl (Defs.pruneBucket h) s).domains.lookup d =
      if ∃ k ∈ ks, k ≤ h ∧ expiry s d = some k then none else s.domains.lookup d
  | [], s, _ => by simp
  | k :: ks, s, hl => by
    rw [List.foldl_cons, pruneBuckets_lookup h d ks _ (hl.pruneBucket h k), pruneBucket_expiry hl,
      pruneBucket_lookup hl]
    by_cases hc : k ≤ h ∧ expiry s d = some k
    · rw [if_pos hc, if_pos hc, ite_self, if_pos ⟨k, List.mem_cons_self, hc⟩]
    · rw [if_neg hc, if_neg hc]
      congr 1
      rw [List.exists_mem_cons_iff]
      simp [hc]

theorem pruneBuckets_bucket (h j : UInt64) : ∀ (ks : List UInt64) (s : NamecoinState),
    bucket (ks.foldl (Defs.pruneBucket h) s) j = if j ∈ ks ∧ j ≤ h then [] else bucket s j
  | [], s => by simp
  | k :: ks, s => by
    rw [List.foldl_cons, pruneBuckets_bucket h j ks, pruneBucket_bucket]
    by_cases hj : j = k
    · subst hj
      by_cases hle : j ≤ h <;> simp [hle]
    · simp [hj]

/-- **Pruning** removes the records that expire at or before the height, and no others. -/
theorem pruneExpired_some (hl : Listed s) {height : UInt64} :
    (pruneExpired height s).domains.lookup d = some r ↔ s.domains.lookup d = some r ∧
    height < r.expiresAt := by
  unfold pruneExpired
  rw [pruneBuckets_lookup height d _ s hl]
  constructor
  · intro hd
    split_ifs at hd with hex
    refine ⟨hd, ?_⟩
    by_contra hle
    have hk : expiry s d = some r.expiresAt := by rw [expiry, hd, Option.map_some]
    have hmem := hl d _ hk
    refine hex ⟨r.expiresAt, ?_, UInt64.not_lt.mp hle, hk⟩
    rw [mem_sortedKeys]
    by_contra hno
    rw [bucket, Finmap.lookup_eq_none.mpr hno] at hmem
    exact List.not_mem_nil hmem
  · rintro ⟨hd, hlt⟩
    rw [if_neg, hd]
    rintro ⟨k, -, hle, hk⟩
    rw [expiry, hd, Option.map_some, Option.some.injEq] at hk
    exact absurd hlt (UInt64.not_lt.mpr (hk ▸ hle))

theorem pruneExpired_bucket (s : NamecoinState) (height k : UInt64) :
    bucket (pruneExpired height s) k = if k ≤ height then [] else bucket s k := by
  unfold pruneExpired
  rw [pruneBuckets_bucket]
  by_cases hk : k ∈ s.expires
  · simp [mem_sortedKeys, hk]
  · have hnil : bucket s k = [] := by rw [bucket, Finmap.lookup_eq_none.mpr hk]; rfl
    rw [hnil, ite_self, ite_self]

theorem Indexed.listed (h : Indexed s) : Listed s := by
  intro d k hk
  obtain ⟨r, hr, hrk⟩ := Option.map_eq_some_iff.mp hk
  have hcount := h.index k d
  rw [hr, expected, if_pos hrk] at hcount
  exact List.count_pos_iff.mp (hcount ▸ Nat.one_pos)

/-- The records at the start of a block: those that expire later. -/
theorem Indexed.atHeight_some (h : Indexed s) {height : UInt64} :
    (atHeight height s).domains.lookup d = some r ↔ s.domains.lookup d = some r ∧
    height < r.expiresAt := by
  have hl : Listed (setHeight height s) := h.listed
  exact pruneExpired_some hl

/-- **The start of a block** keeps the index: the heights only grow. -/
theorem Indexed.atHeight (h : Indexed s) {height : UInt64} (hle : s.currentHeight.toNat ≤ height.toNat) :
    Indexed (atHeight height s) := by
  have hheight : (Effects.atHeight height s).currentHeight = height := by
    unfold Effects.atHeight
    rw [(pruneExpired_pruned height (setHeight height s)).rest]
    rfl
  refine ⟨fun d r hd => h.named d r (h.atHeight_some.mp hd).1, fun d r hd => ?_, fun k d => ?_⟩
  · obtain ⟨hd, hlt⟩ := h.atHeight_some.mp hd
    rw [hheight]
    have := (h.live d r hd).2
    exact ⟨UInt64.lt_iff_toNat_lt.mp hlt, by omega⟩
  · have hbucket : bucket (Effects.atHeight height s) k = if k ≤ height then [] else bucket s k :=
      pruneExpired_bucket (setHeight height s) height k
    rw [hbucket]
    cases hd : (Effects.atHeight height s).domains.lookup d with
    | some r =>
      obtain ⟨hr, hlt⟩ := h.atHeight_some.mp hd
      have hcount := h.index k d
      rw [hr] at hcount
      rw [← hcount]
      split_ifs with hk
      · have hne : r.expiresAt ≠ k := fun he => absurd hlt (UInt64.not_lt.mpr (he ▸ hk))
        rw [hcount, expected, if_neg hne, List.count_nil]
      · rfl
    | none =>
      rw [expected]
      split_ifs with hk
      · exact List.count_nil
      · rw [h.index k d]
        cases hr : s.domains.lookup d with
        | none => rfl
        | some r =>
          have hne : r.expiresAt ≠ k := by
            rintro rfl
            have := h.atHeight_some.mpr ⟨hr, UInt64.not_le.mp hk⟩
            rw [hd] at this
            cases this
          rw [expected, if_neg hne]

/-! ### Transactions -/

theorem Indexed.dropExpired (h : Indexed s) (d : String) : dropExpired d s = s := by
  unfold Commands.dropExpired
  cases hd : s.domains.lookup d with
  | none => rfl
  | some r => exact if_neg (h.not_isExpired hd)

theorem live_of_ttl (hb : s.currentHeight.toNat + maxDomainTTLBlocks.toNat < 2 ^ 64)
    (httl : s.domainTTL = clampTTL defaultDomainTTLBlocks) (ttl : UInt64) :
    s.currentHeight.toNat < (s.currentHeight + effectiveTTL s ttl).toNat ∧
      (s.currentHeight + effectiveTTL s ttl).toNat ≤
        s.currentHeight.toNat + maxDomainTTLBlocks.toNat := by
  obtain ⟨hpos, hle⟩ := effectiveTTL_bounds httl ttl
  rw [UInt64.toNat_add, Nat.mod_eq_of_lt (by omega)]
  omega

/-- **Every transaction** keeps the index. -/
theorem Indexed.freshStep {E : Env} {txID : String} {tx : Tx} (h : Indexed s)
    (hb : s.currentHeight.toNat + maxDomainTTLBlocks.toNat < 2 ^ 64)
    (httl : s.domainTTL = clampTTL defaultDomainTTLBlocks) (hf : FreshStep E txID tx s s') :
    Indexed s' := by
  obtain ⟨cmd, c, -, -, hc, s₁, hn, rfl⟩ := freshStep_cases hf
  have hcoins : CoinsOnly s c := (coinEffect_coinsOnly txID tx cmd).ok hc
  have hheight : c.currentHeight = s.currentHeight := by rw [hcoins]
  have hcttl : c.domainTTL = clampTTL defaultDomainTTLBlocks := by rw [hcoins]; exact httl
  have hic : Indexed c := h.of_eq (by rw [hcoins]) (by rw [hcoins]) hheight
  have hlive := fun ttl => live_of_ttl (by rw [hheight]; exact hb) hcttl ttl
  have hi : Indexed s₁ := by
    cases hn with
    | nameNew n => exact hic.of_eq rfl rfl rfl
    | nameFirstUpdate n _ r key =>
      rw [hic.dropExpired]
      have hset : Indexed (Defs.setDomain (firstRecord n tx r.ttl c) c) := hic.setDomain (hlive _)
      exact hset.deleteCommitment key
    | nameUpdate n _ r => exact hic.setDomain (hlive n.ttl)
    | reward => exact hic
  exact hi.of_eq rfl rfl rfl

end Namecoin.State.Expiry
