import Namecoin.Chain.Forks
import Namecoin.Service.Branches

/-! # What chains can read

Chains share their stores: a fork reads through its overlay what other chains write, and a
commit writes to the store that other chains read. So a chain may come to read blocks of other
branches. What can be said is that every block a chain reads, up to its height, was put there by
the service: a property of stored blocks that every new block has is one that all blocks have
that can be read (`Readable`).

* `readable_origin`, `readable_attach`: a chain that is made for a block, and a block
  that is attached, keep this;
* `grown`: a chain that accepts a block in a turn gets a head of the next height,
  which has not wrapped around;
* `fork_has_head`: forks have a head, since the first blocks that are stored can be replayed. -/

namespace Namecoin.Service.Views

open Lib.Maps Lib.ByteStrings Types.Defs Types.BlockCodec Chain.Stores Chain.Overlays Chain.Defs
open Chain.Apply Chain.Replay Chain.Reload Chain.Forks Service.Defs Service.Turns Service.Branches

variable {E : Env} {visit : Finset ℕ → List ℕ} {s : ChainService} {index : ℤ} {blk : Block}
variable {c : NamecoinChain} {i : ℕ} {S : Heap}

/-- A head as the code keeps it. -/
def Sane (c : NamecoinChain) : Prop := HeadOK c.headHash ∧ (c.headHash = none → c.headHeight = 0)

theorem sane_of_replayed {blks : List Block} (h : Replayed E blks (headOf c)) : Sane c := by
  refine ⟨headOK_of_replayed h, fun hn => ?_⟩
  have hheight : (headOf c).headHash = none → (headOf c).headHeight = 0 := by
    generalize headOf c = r at h
    cases h with
    | start => exact fun _ => rfl
    | step => exact fun hn => by cases hn
  exact hheight hn

/-- Every block that a chain can read up to its height, or that an overlay holds, has the property `Q`. -/
structure Readable (Q : UInt64 → Bytes → Prop) (s : ChainService) : Prop where
  layered : Layered s.stores
  stores : ∀ c ∈ s.chains, c.store < s.stores.length
  heads : ∀ c ∈ s.chains, Sane c
  layers : LayersHold (fun key data => ∀ h, key = encodeNamecoinBlockKey h → Q h data) s.stores
  views : ∀ c ∈ s.chains, ∀ h ≤ c.headHeight, ∀ data, entry s.stores c.store (encodeNamecoinBlockKey h) =
    some data → Q h data

variable {Q Q' : UInt64 → Bytes → Prop}

theorem Readable.mono (h : Readable Q s) (hQ : ∀ k data, Q k data → Q' k data) : Readable Q' s :=
  ⟨h.layered, h.stores, h.heads, fun b d del hm key data hd k hk => hQ k data
    (h.layers b d del hm key data hd k hk), fun c hc k hk data hd =>
    hQ k data (h.views c hc k hk data hd)⟩

theorem Readable.congr {s' : ChainService} (h : Readable Q s) (hS : s'.stores = s.stores)
    (hc : s'.chains = s.chains) : Readable Q s' := by
  obtain ⟨h1, h2, h3, h4, h5⟩ := h
  exact ⟨by rwa [hS], by rwa [hS, hc], by rwa [hc], by rwa [hS], by rwa [hS, hc]⟩

theorem readable_new {m : Map String Bytes} (hstore : c.store = 0) (hc : Sane c)
    (hQ : ∀ h ≤ c.headHeight, ∀ data, m.lookup (encodeNamecoinBlockKey h) = some data → Q h data) :
    Readable Q (newChainService E [.mem m] c) := by
  have hone : Readable Q ⟨[.mem m], [c], 0, ∅, ∅, by simp⟩ := by
    refine ⟨True.intro, fun d hd => ?_, fun d hd => ?_, fun b d del hm => ?_, fun d hd k hk data he => ?_⟩
    · rw [List.mem_singleton.mp hd, hstore]
      exact Nat.one_pos
    · rw [List.mem_singleton.mp hd]
      exact hc
    · simp at hm
    · rw [List.mem_singleton.mp hd] at hk he
      rw [hstore] at he
      exact hQ k hk data he
  exact hone.congr (stores_indexChain _ _ _) (chains_indexChain _ _ _)

/-! ### A chain is made for a block -/

theorem Readable.add (h : Readable Q s) {ref f : NamecoinChain} (href : ref ∈ s.chains)
    (hstore : f.store = s.stores.length) (hheight : f.headHeight ≤ ref.headHeight) (hf : Sane f) :
    Readable Q (addChain s (newOverlayStore s.stores ref.store).1 f) := by
  have hmem : ∀ {c}, c ∈ s.chains ++ [f] → c ∈ s.chains ∨ c = f := fun hc => by simpa using hc
  refine ⟨⟨h.stores ref href, rfl, h.layered⟩, fun c hc => ?_, fun c hc => ?_, h.layers.cons ref.store,
    fun c hc k hk data hd => ?_⟩
  · show c.store < (StoreObj.overlay ref.store ∅ ∅ :: s.stores).length
    rw [List.length_cons]
    rcases hmem hc with hc | rfl
    · exact (h.stores c hc).trans (Nat.lt_succ_self _)
    · omega
  · rcases hmem hc with hc | rfl
    · exact h.heads c hc
    · exact hf
  · rcases hmem hc with hc | rfl
    · refine h.views c hc k hk data ?_
      rwa [← entry_cons (.overlay ref.store ∅ ∅) (h.stores c hc)]
    · refine h.views ref href k (UInt64.le_trans hk hheight) data ?_
      rwa [← entry_newOverlayStore, ← hstore]

/-- A longest one of the chains with the given numbers. -/
def Longest (s : ChainService) (is : Finset ℕ) (c : NamecoinChain) : Prop :=
  (∃ i ∈ is, s.chains[i]? = some c) ∧ ∀ j ∈ is, ∀ d, s.chains[j]? = some d → d.headHeight ≤ c.headHeight

theorem Longest.mem {is : Finset ℕ} (h : Longest s is c) : c ∈ s.chains :=
  let ⟨_, _, hi⟩ := h.1
  List.mem_of_getElem? hi

theorem pickBase_some : ∀ {is : List ℕ} {base : Option NamecoinChain} {c : NamecoinChain},
    pickBase s is base = some c → (base = some c ∨ ∃ i ∈ is, s.chains[i]? = some c) ∧
      (∀ b, base = some b → b.headHeight ≤ c.headHeight) ∧
      ∀ j ∈ is, ∀ d, s.chains[j]? = some d → d.headHeight ≤ c.headHeight
  | [], base, c, h => by
    rw [pickBase] at h
    refine ⟨.inl h, fun b hb => ?_, by simp⟩
    rw [h] at hb
    cases hb
    exact UInt64.le_refl _
  | i :: is, base, c, h => by
    rw [pickBase.eq_def] at h
    dsimp only at h
    cases hi : s.chains[i]? with
    | none =>
      rw [hi] at h
      obtain ⟨hfrom, hbase, hall⟩ := pickBase_some h
      refine ⟨hfrom.imp id fun ⟨j, hj, hc⟩ => ⟨j, List.mem_cons_of_mem _ hj, hc⟩, hbase,
        fun j hj d hd => ?_⟩
      rcases List.mem_cons.mp hj with rfl | hj
      · rw [hi] at hd
        cases hd
      · exact hall j hj d hd
    | some ch =>
      rw [hi] at h
      -- the candidate after this turn is no shorter than the chain and than the candidate before
      have hstep : ∀ {b : NamecoinChain}, pickBase s is (some b) = some c → (b = ch ∨ base = some b) →
          ch.headHeight ≤ b.headHeight → (∀ b', base = some b' → b'.headHeight ≤ b.headHeight) →
          (base = some c ∨ ∃ j ∈ i :: is, s.chains[j]? = some c) ∧
            (∀ b', base = some b' → b'.headHeight ≤ c.headHeight) ∧
            ∀ j ∈ i :: is, ∀ d, s.chains[j]? = some d → d.headHeight ≤ c.headHeight := by
        intro b hb hfrom hch hbase'
        obtain ⟨hfrom', hbase, hall⟩ := pickBase_some hb
        have hbc := hbase b rfl
        refine ⟨?_, fun b' hb' => UInt64.le_trans (hbase' b' hb') hbc, fun j hj d hd => ?_⟩
        · rcases hfrom' with heq | ⟨j, hj, hc⟩
          · cases heq
            rcases hfrom with rfl | hfrom
            · exact .inr ⟨i, List.mem_cons_self, hi⟩
            · exact .inl hfrom
          · exact .inr ⟨j, List.mem_cons_of_mem _ hj, hc⟩
        · rcases List.mem_cons.mp hj with rfl | hj
          · rw [hi] at hd
            cases hd
            exact UInt64.le_trans hch hbc
          · exact hall j hj d hd
      cases base with
      | none => exact hstep h (.inl rfl) (UInt64.le_refl _) fun b' hb' => by cases hb'
      | some b =>
        dsimp only at h
        split_ifs at h with hlt
        · exact hstep h (.inl rfl) (UInt64.le_refl _) fun b' hb' => by
            cases hb'
            exact UInt64.le_of_lt hlt
        · exact hstep h (.inr rfl) (UInt64.not_lt.mp hlt) fun b' hb' => by
            cases hb'
            exact UInt64.le_refl _

theorem pickBase_none : ∀ {is : List ℕ} {base : Option NamecoinChain}, pickBase s is base = none →
    ∀ i ∈ is, s.chains[i]? = none
  | [], _, _, _, hi => by cases hi
  | i :: is, base, h, j, hj => by
    rw [pickBase.eq_def] at h
    dsimp only at h
    cases hi : s.chains[i]? with
    | none =>
      rw [hi] at h
      rcases List.mem_cons.mp hj with rfl | hj
      · exact hi
      · exact pickBase_none h j hj
    | some ch =>
      rw [hi] at h
      have hsome : ∀ {is : List ℕ} {b : NamecoinChain}, pickBase s is (some b) ≠ none := by
        intro is
        induction is with
        | nil => exact fun h => by cases h
        | cons k is ih =>
          intro b h
          rw [pickBase.eq_def] at h
          dsimp only at h
          cases hk : s.chains[k]? with
          | none => rw [hk] at h; exact ih h
          | some d =>
            rw [hk] at h
            dsimp only at h
            split_ifs at h
            · exact ih h
            · exact ih h
      cases base with
      | none => exact absurd h hsome
      | some b =>
        dsimp only at h
        split_ifs at h
        · exact absurd h hsome
        · exact absurd h hsome

/-- **The chain that is forked** is a longest one of those that the index names. -/
theorem longest_of_pickBase {is : Finset ℕ} {l : List ℕ} (hl : ∀ i, i ∈ l ↔ i ∈ is)
    (h : pickBase s l none = some c) : Longest s is c := by
  obtain ⟨hfrom, -, hall⟩ := pickBase_some h
  obtain ⟨i, hi, hc⟩ := hfrom.resolve_left fun h => by cases h
  exact ⟨⟨i, (hl i).mp hi, hc⟩, fun j hj => hall j ((hl j).mpr hj)⟩

theorem pickBase_mem {l : List ℕ} (h : pickBase s l none = some c) : c ∈ s.chains := by
  obtain ⟨i, -, hi⟩ := (pickBase_some h).1.resolve_left fun h => by cases h
  exact List.mem_of_getElem? hi

theorem sane_fork {base f : NamecoinChain} {height : UInt64} {store : ℕ}
    (h : base.forkUpToHeight E S height store = .ok f) : Sane f := by
  obtain ⟨-, hheight, -, hnone, -⟩ := fork_run h
  obtain ⟨blks, hb⟩ := replayed_fork h
  exact ⟨headOK_of_replayed hb, fun hn => hheight.trans (hnone hn)⟩

/-- **A chain that is made for a block** reads what could be read before. -/
theorem readable_origin {s₁ : ChainService} (ho : Origin E visit s index blk s₁ c i)
    (h : Readable Q s) : Readable Q s₁ := by
  cases ho with
  | empty => exact h
  | head => exact h
  | fresh _ _ _ hr => exact h.add (List.mem_of_getElem? hr) rfl UInt64.zero_le ⟨rfl, fun _ => rfl⟩
  | @fork m base _ _ _ _ _ hbase hf =>
    have hmem : base ∈ s.chains := pickBase_mem hbase
    obtain ⟨hle, hheight, hstore, -⟩ := fork_run hf
    have hadd := h.add hmem hstore (hheight ▸ hle) (sane_fork hf)
    exact hadd.congr (stores_indexChain _ _ _) (chains_indexChain _ _ _)

/-! ### A block is attached -/

theorem origin_height {s₁ : ChainService} (ho : Origin E visit s index blk s₁ c i)
    (hc : c.headHash ≠ none) : blk.header.height ≠ 0 := fun h0 => by
  cases ho with
  | empty _ hf => exact hc (firstChain_some hf).2.1
  | fresh => exact hc rfl
  | head h => exact h h0
  | fork h => exact h h0

/-- **A chain that accepts a block in a turn** gets a head of the next height. -/
theorem grown {s₁ : ChainService} {c c' : NamecoinChain} (ho : Origin E visit s index blk s₁ c i)
    (hc : Sane c) (ha : c.applyBlock E s₁.stores blk = .ok (S, c')) :
    c'.headHash = some (computeHash E blk) ∧ c'.headHeight = blk.header.height ∧
      (c.headHash = none ∨ c.headHeight < c'.headHeight) ∧
      ∀ h ≤ c'.headHeight, h ≤ c.headHeight ∨ h = c'.headHeight := by
  obtain ⟨st, data, hv, -, -, -, rfl⟩ := (applyBlock_ok_iff hc.1).mp ha
  refine ⟨rfl, rfl, ?_⟩
  have hnext := ensureNextBlockFollows_ok_iff.mp (validateBlockHeader_ok_iff.mp hv).2.1
  by_cases hnone : c.headHash = none
  · refine ⟨.inl hnone, fun h hh => .inl ?_⟩
    rw [if_pos hnone] at hnext
    rw [hc.2 hnone]
    exact hnext.1 ▸ hh
  · rw [if_neg hnone] at hnext
    have h0 : blk.header.height ≠ 0 := origin_height ho hnone
    -- the height has not wrapped around
    have hnat : blk.header.height.toNat = c.headHeight.toNat + 1 := by
      have hlt := c.headHeight.toNat_lt
      have heq : blk.header.height.toNat = (c.headHeight.toNat + 1) % 2 ^ 64 := by
        rw [hnext.1, UInt64.toNat_add]
        rfl
      have hne : blk.header.height.toNat ≠ 0 := fun h => h0 (UInt64.toNat.inj h)
      omega
    refine ⟨.inr ?_, fun h hh => ?_⟩
    · show c.headHeight < blk.header.height
      rw [UInt64.lt_iff_toNat_lt, hnat]
      omega
    · have hle : h.toNat ≤ blk.header.height.toNat := UInt64.le_iff_toNat_le.mp hh
      rcases Nat.lt_or_ge c.headHeight.toNat h.toNat with hlt | hge
      · exact .inr (UInt64.toNat.inj (show h.toNat = blk.header.height.toNat by omega))
      · exact .inl (UInt64.le_iff_toNat_le.mpr hge)

theorem entry_persist {store : ℕ} {data : Bytes} {id : ℕ} {k : UInt64} {d : Bytes}
    (h : entry (persist E S store blk data) id (encodeNamecoinBlockKey k) = some d) :
    entry S id (encodeNamecoinBlockKey k) = some d ∨ (k = blk.header.height ∧ d = data) := by
  rw [persist, entry_set_of_ne (encode_ne_last k)] at h
  rcases entry_set_cases store (encodeNamecoinBlockKey blk.header.height) data S id
    (encodeNamecoinBlockKey k) with h' | ⟨hk, h'⟩
  · exact .inl (h' ▸ h)
  · exact .inr ⟨encode_injective hk, Option.some.inj (h.symm.trans h')⟩

theorem entry_persist_self {store : ℕ} (data : Bytes) (h : store < S.length) :
    entry (persist E S store blk data) store (encodeNamecoinBlockKey blk.header.height) = some data := by
  rw [persist, entry_set_of_ne (encode_ne_last _)]
  exact entry_set_self h

theorem baseOf_persist (S : Heap) (store : ℕ) (data : Bytes) (id : ℕ) :
    baseOf (persist E S store blk data) id = baseOf S id := by
  rw [persist, baseOf_set, baseOf_set]

theorem Readable.applied (h : Readable Q s) {c c' : NamecoinChain} (hi : s.chains[i]? = some c)
    (ha : c.applyBlock E s.stores blk = .ok (S, c'))
    (hgrown : ∀ k ≤ c'.headHeight, k ≤ c.headHeight ∨ k = c'.headHeight)
    (hQ : ∀ data, marshal E (settleHash E blk) = .ok data → Q blk.header.height data) :
    Readable Q (setChain s S i c') := by
  have hmem := List.mem_of_getElem? hi
  obtain ⟨st, data, -, -, hdata, rfl, rfl⟩ := (applyBlock_ok_iff (h.heads c hmem).1).mp ha
  have hnew := hQ data hdata
  have hset : ∀ {d}, d ∈ s.chains.set i (chainAfter E c blk st) → d ∈ s.chains ∨
      d = chainAfter E c blk st :=
    List.mem_or_eq_of_mem_set
  refine ⟨(h.layered.set _ _ _).set _ _ _, fun d hd => ?_, fun d hd => ?_, ?_,
    fun d hd k hk dat hdat => ?_⟩
  · show d.store < (persist E s.stores c.store blk data).length
    rw [persist, length_set, length_set]
    rcases hset hd with hd | rfl
    · exact h.stores d hd
    · exact h.stores c hmem
  · rcases hset hd with hd | rfl
    · exact h.heads d hd
    · exact ⟨HeadOK.after c blk st, fun hn => (by cases hn)⟩
  · refine LayersHold.set (LayersHold.set h.layers (fun k hk => ?_) _)
      (fun k hk => absurd hk.symm (encode_ne_last k)) _
    rw [← encode_injective hk]
    exact hnew
  · rcases entry_persist hdat with hold | ⟨rfl, rfl⟩
    · rcases hset hd with hd | rfl
      · exact h.views d hd k hk dat hold
      · rcases hgrown k hk with hk | rfl
        · exact h.views c hmem k hk dat hold
        · -- at its own height the chain reads the block
          obtain rfl : dat = data := Option.some.inj
            (hdat.symm.trans (entry_persist_self data (h.stores c hmem)))
          exact hnew
    · exact hnew

theorem Readable.commitStore (h : Readable Q s) (hi : s.chains[i]? = some c) :
    Readable Q (setChain s (Defs.commitStore s.stores c).1 i (Defs.commitStore s.stores c).2) := by
  have hmem := List.mem_of_getElem? hi
  unfold Defs.commitStore
  cases hb : baseOf s.stores c.store with
  | none =>
    obtain ⟨hlt, rfl⟩ := List.getElem?_eq_some_iff.mp hi
    exact h.congr rfl (List.set_getElem_self hlt)
  | some base =>
    obtain ⟨data, del, ho⟩ := baseOf_eq_some_iff.mp hb
    have hset : ∀ {d}, d ∈ s.chains.set i { c with store := base } → d ∈ s.chains ∨
        d = { c with store := base } :=
      List.mem_or_eq_of_mem_set
    have hover := entry_overlay h.layered ho
    refine ⟨h.layered.commit ho, fun d hd => ?_, fun d hd => ?_, LayersHold.commit h.layered h.layers ho,
      fun d hd k hk dat hdat => ?_⟩
    · show d.store < (commit s.stores c.store).length
      rw [length_commit h.layered ho]
      rcases hset hd with hd | rfl
      · exact h.stores d hd
      · exact hover.1.trans (h.stores c hmem)
    · rcases hset hd with hd | rfl
      · exact h.heads d hd
      · exact h.heads c hmem
    · rcases hset hd with hd | rfl
      · rcases entry_commit_cases h.layered ho d.store (encodeNamecoinBlockKey k) with h' | ⟨v, hv, h'⟩
        · exact h.views d hd k hk dat (h' ▸ hdat)
        · obtain rfl : v = dat := Option.some.inj (h'.symm.trans hdat)
          exact h.layers base data del (obj_mem ho) _ v hv k rfl
      · refine h.views c hmem k hk dat ?_
        rw [← entry_commit_base h.layered ho]
        exact hdat

/-- **A block that is attached** and has the property keeps it for all that can be read. -/
theorem readable_attach {s₁ : ChainService} {c c' : NamecoinChain}
    (ho : Origin E visit s index blk s₁ c i) (ha : c.applyBlock E s₁.stores blk = .ok (S, c'))
    (h : Readable Q s₁)
    (hQ : ∀ data, marshal E (settleHash E blk) = .ok data → Q blk.header.height data) :
    Readable Q (attach s₁ S c' i (settleHash E blk)) := by
  have hi := ho.getElem?
  obtain ⟨-, -, -, hgrown⟩ := grown ho (h.heads c (List.mem_of_getElem? hi)) ha
  have hset := h.applied hi ha hgrown hQ
  rcases attach_cases S c' (settleHash E blk) ho.lt_length with ⟨-, heq⟩ | ⟨-, hp⟩
  · rw [heq]
    exact hset.congr (stores_registerBlock _ _ _) (chains_registerBlock _ _ _)
  · have hi' : (setChain s₁ S i c').chains[i]? = some c' := List.getElem?_set_self ho.lt_length
    exact (hset.commitStore hi').congr hp.stores (by rw [hp.chains]; exact (List.set_set _).symm)

/-! ### First blocks -/

/-- Data that can be replayed if it is that of a first block. -/
def FirstReplays (E : Env) (height : UInt64) (data : Bytes) : Prop :=
  height = 0 → ∃ p, replayOne E replayStart ⟨0, data⟩ = .ok p

theorem replayed_none {blks : List Block} {r : ReplayState} (h : Replayed E blks r)
    (hn : r.headHash = none) :
    r = replayStart := by
  cases h with
  | start => rfl
  | step => cases hn

theorem firstReplays_attached {s₁ : ChainService} {c c' : NamecoinChain}
    (ho : Origin E visit s index blk s₁ c i) (ha : c.applyBlock E s₁.stores blk = .ok (S, c'))
    (h : AllReplayed E s₁) {data : Bytes} (hdata : marshal E (settleHash E blk) = .ok data) :
    FirstReplays E blk.header.height data := by
  obtain ⟨blks, hb⟩ := h c (List.mem_of_getElem? ho.getElem?)
  intro h0
  have hnone : c.headHash = none := by
    cases ho with
    | empty _ hf => exact (firstChain_some hf).2.1
    | fresh => rfl
    | head hne => exact absurd h0 hne
    | fork hne => exact absurd h0 hne
  have hone := replayOne_stored (headOK_of_replayed hb) ha
  rw [replayed_none hb hnone] at hone
  unfold loaded at hone
  rw [dataOf_eq hdata, h0] at hone
  exact ⟨_, hone⟩

/-- **A fork has a head** if the first blocks that chains can read can be replayed. -/
theorem fork_has_head {base f : NamecoinChain} {height : UInt64} (h : Readable (FirstReplays E) s)
    (hbase : base ∈ s.chains)
    (hf : base.forkUpToHeight E (newOverlayStore s.stores base.store).1 height s.stores.length = .ok f) :
    f.headHash ≠ none := by
  intro hx
  obtain ⟨hle, -, -, hnone, lbs, hs, -⟩ := fork_run hf
  obtain rfl := hnone hx
  obtain ⟨front, ⟨k, data⟩, rfl, -, hk⟩ := hs.snoc
  obtain rfl : k = 0 := hk
  have hentry := hs.entries ⟨0, data⟩ (by simp)
  have hold : entry s.stores base.store (encodeNamecoinBlockKey 0) = some data := by
    rw [← hentry, entry_newOverlayStore]
  obtain ⟨⟨hash, r⟩, hr⟩ := h.views base hbase 0 hle data hold rfl
  obtain ⟨b, state, -, -, -, -, -, -, rfl⟩ := replayOne_ok_iff.mp hr
  have hhead := fork_zero hf hentry hr
  rw [hx] at hhead
  cases hhead

end Namecoin.Service.Views
