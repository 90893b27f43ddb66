import Namecoin.State.Progress

/-! # The spend plan, exactly

`DeterministicSpendPlan` adds up coins in a machine word. Compared with the same selection over the
integers (`ExactPlan`), it is right as long as the coin that reaches the amount does not take the sum
to `2 ^ 64`: then the running total wraps around to less than the amount, and the loop goes on.

* `spendLoop_prefix`: the loop takes a prefix, and returns its worth modulo `2 ^ 64`;
* `spendEntries_unique`: the order in which Go visits the map does not matter;
* `exactPlan_iff`: **the plan is exact** exactly if no such coin is met. -/

namespace Namecoin.State.Exactness

open Lib.Maps Types.Defs State.Defs State.Utxo State.SpendPlan State.Progress

/-- The exact worth of some coins. -/
def worth (es : List UtxoEntry) : ℕ := (es.map fun e => e.amount.toNat).sum

/-- The input that spends a coin. -/
def inputOf (e : UtxoEntry) : TxInput := ⟨e.txid, 0⟩

/-- The coins of a map, listed in some order. -/
def Lists (m : Map String UTXO) (es : List UtxoEntry) : Prop :=
  es.Nodup ∧ ∀ e, e ∈ es ↔ ∃ u, m.lookup e.txid = some u ∧ e.amount = u.amount ∧ e.order = u.order

/-- `DeterministicSpendPlan` after the coins of the sender have been sorted. -/
def planOf (fromAddr : String) (amount : UInt64) (entries : List UtxoEntry) :
    Except Err (Slice TxInput × Slice TxOutput) :=
  let (inputs, tot) := spendLoop amount entries 0
  if tot < amount then .error (.msg "insufficient funds")
  else .ok (some inputs, some (changeOutputs fromAddr (tot - amount)))

/-- The first `k` coins are worth the amount, and no fewer are. -/
structure Shortest (amount : UInt64) (es : List UtxoEntry) (k : ℕ) : Prop where
  le_length : k ≤ es.length
  reaches : amount.toNat ≤ worth (es.take k)
  least : ∀ j < k, worth (es.take j) < amount.toNat

/-- **The plan over the integers**: it fails if all coins are worth less than the amount, and otherwise
it spends the shortest sequence of first coins and returns what they are worth more. -/
structure ExactPlan (st : NamecoinState) (fromAddr : String) (amount : UInt64) (m : Map String UTXO) :
    Prop where
  fails : (∃ e, deterministicSpendPlan st fromAddr amount = .error e) ↔
    worth (spendEntries m) < amount.toNat
  spends : ∀ k, Shortest amount (spendEntries m) k → ∃ outs,
    deterministicSpendPlan st fromAddr amount =
    .ok (some (((spendEntries m).take k).map inputOf), some outs) ∧
    (worth ((spendEntries m).take k) = amount.toNat → outs = []) ∧
    (amount.toNat < worth ((spendEntries m).take k) → ∃ change : UInt64, outs = [⟨fromAddr, change⟩] ∧
    change.toNat = worth ((spendEntries m).take k) - amount.toNat)
  unordered : ∀ es, Lists m es → es.Pairwise entryLE →
    deterministicSpendPlan st fromAddr amount = planOf fromAddr amount es

/-- The condition: a coin that is added to coins worth less than the amount does not
take the sum to `2 ^ 64`. -/
def NoWrap (amount : UInt64) (es : List UtxoEntry) : Prop :=
  ∀ k, worth (es.take k) < amount.toNat → worth (es.take (k + 1)) < 2 ^ 64

/-! ### The loop -/

theorem worth_cons (e : UtxoEntry) (es : List UtxoEntry) : worth (e :: es) = e.amount.toNat + worth es :=
  rfl

theorem worth_append (es es' : List UtxoEntry) : worth (es ++ es') = worth es + worth es' := by
  unfold worth
  rw [List.map_append, List.sum_append]

theorem worth_take_le (es : List UtxoEntry) {j k : ℕ} (h : j ≤ k) :
    worth (es.take j) ≤ worth (es.take k) := by
  have htake : es.take j ++ (es.take k).drop j = es.take k := by
    have hsplit := List.take_append_drop j (es.take k)
    rwa [List.take_take, Nat.min_eq_left h] at hsplit
  rw [← htake, worth_append]
  omega

theorem worth_take_succ_lt (es : List UtxoEntry) (k : ℕ) :
    worth (es.take (k + 1)) < worth (es.take k) + 2 ^ 64 := by
  rw [List.take_add_one, worth_append]
  cases es[k]? with
  | none => exact Nat.lt_add_of_pos_right (Nat.two_pow_pos 64)
  | some e =>
    have hlt := e.amount.toNat_lt
    have hone : worth (some e).toList = e.amount.toNat := rfl
    omega

/-- **The loop takes a prefix.** It stops at the first running total that reaches the
amount, or takes all coins. -/
theorem spendLoop_prefix (amount : UInt64) (es : List UtxoEntry) (tot : UInt64) : ∃ k ≤ es.length,
    (spendLoop amount es tot).1 = (es.take k).map inputOf ∧
      (spendLoop amount es tot).2.toNat = (tot.toNat + worth (es.take k)) % 2 ^ 64 ∧
      (∀ j < k, 0 < j → (tot.toNat + worth (es.take j)) % 2 ^ 64 < amount.toNat) ∧
      (k = es.length ∨ amount ≤ (spendLoop amount es tot).2) := by
  induction es generalizing tot with
  | nil =>
    refine ⟨0, le_rfl, rfl, ?_, fun j hj => absurd hj (Nat.not_lt_zero j), .inl rfl⟩
    exact (Nat.mod_eq_of_lt tot.toNat_lt).symm
  | cons e es ih =>
    have hadd : (tot + e.amount).toNat = (tot.toNat + e.amount.toNat) % 2 ^ 64 := UInt64.toNat_add _ _
    unfold spendLoop
    dsimp only
    split_ifs with hle
    · refine ⟨1, by simp, rfl, ?_, fun j hj hpos => by omega, .inr hle⟩
      rw [hadd]
      rfl
    · obtain ⟨k, hk, hins, htot, hbefore, hstop⟩ := ih (tot + e.amount)
      -- the total of the rest starts from a total that has been reduced already
      have hsum : ∀ j, (tot.toNat + worth ((e :: es).take (j + 1))) % 2 ^ 64 =
          ((tot + e.amount).toNat + worth (es.take j)) % 2 ^ 64 := by
        intro j
        rw [List.take_succ_cons, worth_cons, hadd]
        omega
      refine ⟨k + 1, Nat.succ_le_succ hk, ?_, ?_, fun j hj hpos => ?_, ?_⟩
      · rw [hins]
        rfl
      · rw [htot, hsum]
      · obtain ⟨j, rfl⟩ := Nat.exists_eq_succ_of_ne_zero (Nat.ne_of_gt hpos)
        rw [Nat.succ_eq_add_one, hsum]
        rcases Nat.eq_zero_or_pos j with rfl | hj0
        · have hlt := UInt64.lt_iff_toNat_lt.mp (UInt64.not_le.mp hle)
          have hzero : worth (es.take 0) = 0 := rfl
          omega
        · exact hbefore j (by omega) hj0
      · rcases hstop with hall | hreach
        · exact .inl (by rw [hall]; rfl)
        · exact .inr hreach

theorem take_inputs_inj {es : List UtxoEntry} {j k : ℕ} (hj : j ≤ es.length) (hk : k ≤ es.length)
    (h : (es.take j).map inputOf = (es.take k).map inputOf) : j = k := by
  have hlen := congrArg List.length h
  simp only [List.length_map, List.length_take] at hlen
  omega

/-! ### Listing the map -/

/-- **The order of the map does not matter**: there is one sorted list of its coins. -/
theorem spendEntries_unique {m : Map String UTXO} {es : List UtxoEntry} (h : Lists m es)
    (hs : es.Pairwise entryLE) : es = spendEntries m := by
  have hperm : es.Perm (spendEntries m) := by
    refine (List.perm_ext_iff_of_nodup h.1 (nodup_spendEntries_self m)).mpr fun e => ?_
    rw [h.2, mem_spendEntries]
  refine hperm.eq_of_pairwise (fun a b ha hb hab hba => ?_) hs (List.pairwise_insertionSort _ _)
  exact List.inj_on_of_nodup_map (nodup_spendEntries m) (hperm.mem_iff.mp ha) hb
    (txid_eq_of_entryLE hab hba)

/-! ### The plan -/

variable {st : NamecoinState} {fromAddr : String} {amount : UInt64} {m : Map String UTXO}

theorem spendPlan_planOf (hm : st.utxoMap.lookup fromAddr = some m) (h0 : amount ≠ 0) :
    deterministicSpendPlan st fromAddr amount = planOf fromAddr amount (spendEntries m) := by
  unfold deterministicSpendPlan planOf
  rw [if_neg h0, hm]

theorem planOf_error_iff {es : List UtxoEntry} :
    (∃ e, planOf fromAddr amount es = .error e) ↔ (spendLoop amount es 0).2 < amount := by
  unfold planOf
  dsimp only
  split_ifs with h
  · exact iff_of_true ⟨_, rfl⟩ h
  · refine iff_of_false ?_ h
    rintro ⟨e, he⟩
    cases he

theorem changeOutputs_exact {w : UInt64} {n : ℕ} (hw : w.toNat = n) (hle : amount ≤ w) :
    (n = amount.toNat → changeOutputs fromAddr (w - amount) = []) ∧
      (amount.toNat < n → ∃ change : UInt64, changeOutputs fromAddr (w - amount) = [⟨fromAddr, change⟩] ∧
        change.toNat = n - amount.toNat) := by
  have hsub : (w - amount).toNat = n - amount.toNat := by rw [UInt64.toNat_sub_of_le _ _ hle, hw]
  unfold changeOutputs
  constructor
  · intro heq
    refine if_neg fun hpos => ?_
    have := UInt64.lt_iff_toNat_lt.mp hpos
    rw [UInt64.toNat_zero] at this
    omega
  · intro hlt
    have hpos : 0 < w - amount := by
      rw [UInt64.lt_iff_toNat_lt, UInt64.toNat_zero]
      omega
    exact ⟨w - amount, if_pos hpos, hsub⟩

theorem NoWrap.exact {es : List UtxoEntry} {k : ℕ} (h : NoWrap amount es) (h0 : amount ≠ 0)
    (hbefore : ∀ j < k, 0 < j → worth (es.take j) % 2 ^ 64 < amount.toNat) :
    worth (es.take k) < 2 ^ 64 ∧ ∀ j < k, worth (es.take j) < amount.toNat := by
  have hpos : 0 < amount.toNat := by
    have hne : amount.toNat ≠ 0 := fun hz => h0 (UInt64.toNat_inj.mp hz)
    omega
  induction k with
  | zero => exact ⟨Nat.two_pow_pos 64, fun j hj => absurd hj (Nat.not_lt_zero j)⟩
  | succ k ih =>
    obtain ⟨hlt, hall⟩ := ih fun j hj => hbefore j (by omega)
    have hk : worth (es.take k) < amount.toNat := by
      rcases Nat.eq_zero_or_pos k with rfl | hk0
      · exact hpos
      · have hmod := hbefore k (by omega) hk0
        rwa [Nat.mod_eq_of_lt hlt] at hmod
    refine ⟨h k hk, fun j hj => ?_⟩
    rcases Nat.lt_or_ge j k with hjk | hjk
    · exact hall j hjk
    · rwa [show j = k by omega]

/-- **The plan is exact** if no coin wraps the total around. -/
theorem exactPlan_of_noWrap (hm : st.utxoMap.lookup fromAddr = some m) (h0 : amount ≠ 0)
    (h : NoWrap amount (spendEntries m)) : ExactPlan st fromAddr amount m := by
  have hplan := spendPlan_planOf hm h0
  obtain ⟨k, hk, hins, htot, hbefore, hstop⟩ := spendLoop_prefix amount (spendEntries m) 0
  simp only [UInt64.toNat_zero, Nat.zero_add] at htot hbefore
  obtain ⟨hlt, hleast⟩ := h.exact h0 hbefore
  rw [Nat.mod_eq_of_lt hlt] at htot
  -- the loop stops below the amount only if it has taken all coins
  have hall : worth ((spendEntries m).take k) < amount.toNat → k = (spendEntries m).length := by
    intro hless
    rcases hstop with heq | hle
    · exact heq
    · have := UInt64.le_iff_toNat_le.mp hle
      omega
  refine ⟨?_, fun k' hs => ?_, fun es hl hsorted => ?_⟩
  · rw [hplan, planOf_error_iff, UInt64.lt_iff_toNat_lt, htot]
    constructor
    · intro hless
      have heq := hall hless
      rwa [heq, List.take_length] at hless
    · intro hless
      have hle := worth_take_le (spendEntries m) hk
      rw [List.take_length] at hle
      omega
  · obtain rfl : k' = k := by
      rcases Nat.lt_trichotomy k' k with hlt' | heq | hgt
      · have := hleast k' hlt'
        have := hs.reaches
        omega
      · exact heq
      · have := hall (hs.least k hgt)
        have := hs.le_length
        omega
    have hle : amount ≤ (spendLoop amount (spendEntries m) 0).2 := by
      rw [UInt64.le_iff_toNat_le, htot]
      exact hs.reaches
    refine ⟨changeOutputs fromAddr ((spendLoop amount (spendEntries m) 0).2 - amount), ?_,
      changeOutputs_exact htot hle⟩
    rw [hplan, ← hins]
    exact if_neg (UInt64.not_lt.mpr hle)
  · rw [hplan, spendEntries_unique hl hsorted]

/-- **The spend plan is exact** exactly if no coin that reaches the amount takes the sum to `2 ^ 64`. -/
theorem exactPlan_iff (hm : st.utxoMap.lookup fromAddr = some m) (h0 : amount ≠ 0) :
    ExactPlan st fromAddr amount m ↔ NoWrap amount (spendEntries m) := by
  refine ⟨fun h k hless => ?_, exactPlan_of_noWrap hm h0⟩
  by_contra hge
  have hword := amount.toNat_lt
  have hnext := worth_take_succ_lt (spendEntries m) k
  have hlen : k < (spendEntries m).length := by
    by_contra hnot
    rw [List.take_of_length_le (by omega)] at hless hge
    omega
  have hs : Shortest amount (spendEntries m) (k + 1) := by
    refine ⟨hlen, by omega, fun j hj => ?_⟩
    have := worth_take_le (spendEntries m) (show j ≤ k by omega)
    omega
  obtain ⟨outs, hok, -⟩ := h.spends (k + 1) hs
  rw [spendPlan_planOf hm h0] at hok
  -- the plan spends these coins, but their total has wrapped around
  obtain ⟨k', hk', hins, htot, -⟩ := spendLoop_prefix amount (spendEntries m) 0
  simp only [UInt64.toNat_zero, Nat.zero_add] at htot
  unfold planOf at hok
  dsimp only at hok
  split_ifs at hok with htot'
  have hsame : ((spendEntries m).take k').map inputOf = ((spendEntries m).take (k + 1)).map inputOf := by
    have hfst := congrArg Prod.fst (Except.ok.inj hok)
    rw [← hins]
    exact Option.some.inj hfst
  have hk1 : k' = k + 1 := take_inputs_inj hk' hlen hsame
  have hle := UInt64.le_iff_toNat_le.mp (UInt64.not_lt.mp htot')
  rw [htot, hk1] at hle
  omega

/-! ### Two coins of half the range -/

/-- A state in which `addr` owns two coins. -/
def twoCoins (addr : String) (first second : UInt64) : NamecoinState :=
  withAccount newState addr (((∅ : Map String UTXO).insert "a" ⟨"a", addr, first, 0⟩).insert "b"
    ⟨"b", addr, second, 1⟩)

theorem lookup_twoCoins (addr : String) (first second : UInt64) :
    (twoCoins addr first second).utxoMap.lookup addr =
      some (((∅ : Map String UTXO).insert "a" ⟨"a", addr, first, 0⟩).insert "b" ⟨"b", addr, second, 1⟩) :=
  Finmap.lookup_insert _

theorem spendEntries_twoCoins (addr : String) (first second : UInt64) :
    spendEntries (((∅ : Map String UTXO).insert "a" ⟨"a", addr, first, 0⟩).insert "b"
      ⟨"b", addr, second, 1⟩) = [⟨"a", first, 0⟩, ⟨"b", second, 1⟩] := by
  rw [spendEntries_insert, spendEntries_singleton]
  · rfl
  · intro hmem
    rcases Finmap.mem_insert.mp hmem with hkey | hnone
    · exact absurd hkey (by decide)
    · exact Finmap.notMem_empty hnone
  · intro t v hv
    rw [lookup_insert_ite] at hv
    split_ifs at hv
    · cases hv
      exact (by decide : (0 : UInt64) < 1)
    · simp at hv

/-- Two coins of 3 and 4 pay 5, and 2 come back. -/
theorem exactPlan_small : ∃ (st : NamecoinState) (m : Map String UTXO), st.utxoMap.lookup "x" = some m ∧
    Shortest 5 (spendEntries m) 2 ∧ ExactPlan st "x" 5 m := by
  refine ⟨twoCoins "x" 3 4, _, lookup_twoCoins "x" 3 4, ?_,
    (exactPlan_iff (lookup_twoCoins "x" 3 4) (by decide)).mpr ?_⟩
  · rw [spendEntries_twoCoins]
    exact ⟨by decide, by decide, by decide⟩
  · rw [spendEntries_twoCoins]
    intro k _
    have hall : ([⟨"a", 3, 0⟩, ⟨"b", 4, 1⟩] : List UtxoEntry).take (k + 3) = _ :=
      List.take_of_length_le (by simp)
    have hle := worth_take_le [⟨"a", 3, 0⟩, ⟨"b", 4, 1⟩] (show k + 1 ≤ k + 3 by omega)
    rw [hall] at hle
    exact Nat.lt_of_le_of_lt hle (by decide)

/-- **Two coins of `2 ^ 63`** are worth `2 ^ 64`, and do not pay `2 ^ 64 - 1`. -/
theorem wrapped_total : ∃ (st : NamecoinState) (m : Map String UTXO), st.utxoMap.lookup "x" = some m ∧
    (18446744073709551615 : UInt64).toNat ≤ worth (spendEntries m) ∧
      deterministicSpendPlan st "x" 18446744073709551615 = .error (.msg "insufficient funds") := by
  refine ⟨twoCoins "x" 9223372036854775808 9223372036854775808, _, lookup_twoCoins _ _ _, ?_, ?_⟩
  · rw [spendEntries_twoCoins]
    decide
  · rw [spendPlan_planOf (lookup_twoCoins _ _ _) (by decide), spendEntries_twoCoins]
    rfl

end Namecoin.State.Exactness
