import Namecoin.Chain.Backing
import Namecoin.Node.Handler
import Namecoin.Service.Steady

/-! # Starting a node

`LoadNamecoinChain` on a store with any content, and what `NewPeer` builds from the chain it returns.
The blocks of a store are replayed in the order of their heights, in whatever order `ForEach` has
visited them (`Scanned`); those that do not follow are skipped.

* `load_sound`: **the chain that is loaded** is that of blocks of the store, each on top of the one
  before, and loading again gives the same head;
* `checks_canonical`: transactions are checked against the canonical state if no other chain becomes
  the canonical one, and `stale_state`: otherwise they are not. -/

namespace Namecoin.Node.Startup

open Lib.Maps Lib.ByteStrings Types.Defs Types.TxCodec Types.BlockCodec Types.SampleEnv State.Defs
open State.Utxo State.Effects State.Wallet Chain.Pow Chain.Stores Chain.Overlays Chain.Defs
open Chain.Apply Chain.Build Chain.Registration Chain.Replay Chain.Reload Chain.Restart Chain.Forks
open Chain.Backing Service.Defs Service.Turns Service.Branches Service.Steady Node.Mempool
open Node.Handler

variable {E : Env} {S : Heap} {store : ℕ} {blocks : List LoadedBlock}

/-! ### The scan -/

/-- The blocks of a store in an order in which they can be replayed: `ForEach` visits the entries in
some order, and the blocks among them are sorted by their heights. -/
structure Scanned (S : Heap) (store : ℕ) (blocks : List LoadedBlock) : Prop where
  sorted : blocks.Pairwise fun a b => a.height ≤ b.height
  visited : ∃ es : List (String × Bytes), es.Nodup ∧
    (∀ key val, (key, val) ∈ es ↔ entry S store key = some val) ∧ blocks.Perm (es.filterMap blockEntry)

theorem scanned_mem (m : Map String Bytes) : Scanned [.mem m] 0 (scanBlocks [.mem m] 0) := by
  refine ⟨scanBlocks_sorted _ _, sortedEntries (fun a b : String => a ≤ b) m, ?_,
    fun key val => mem_sortedEntries _, scanBlocks_perm _ _⟩
  exact List.Nodup.of_map Prod.fst (by rw [map_fst_sortedEntries]; exact nodup_sortedKeys _ m)

theorem Scanned.entry_of_mem (h : Scanned S store blocks) {lb : LoadedBlock} (hlb : lb ∈ blocks) :
    ∃ key, entry S store key = some lb.raw ∧ parseNamecoinBlockHeight key = .ok lb.height := by
  obtain ⟨es, -, hes, hperm⟩ := h.visited
  obtain ⟨⟨key, val⟩, he, hb⟩ := List.mem_filterMap.mp (hperm.mem_iff.mp hlb)
  refine ⟨key, ?_⟩
  unfold blockEntry at hb
  cases hp : parseNamecoinBlockHeight key with
  | error e => rw [hp] at hb; cases hb
  | ok height =>
    rw [hp] at hb
    cases hb
    exact ⟨(hes key val).mp he, rfl⟩

theorem Scanned.set_last (h : Scanned S store blocks) (hstore : store < S.length) (hash : Bytes) :
    Scanned (Chain.Stores.set S store namecoinLastBlockKey hash) store blocks := by
  obtain ⟨es, hnodup, hes, hperm⟩ := h.visited
  have hlast : ∀ val, blockEntry (namecoinLastBlockKey, val) = none := fun val => by
    obtain ⟨e, he⟩ := parse_last
    unfold blockEntry
    rw [he]
  refine ⟨h.sorted, (namecoinLastBlockKey, hash) :: es.filter fun e => e.1 ≠
    namecoinLastBlockKey, ?_, ?_, ?_⟩
  · refine List.nodup_cons.mpr ⟨fun hm => ?_, hnodup.filter _⟩
    simp at hm
  · intro key val
    by_cases hkey : key = namecoinLastBlockKey
    · rw [hkey, entry_set_self hstore]
      simp [eq_comm]
    · rw [entry_set_of_ne hkey, ← hes]
      simp [hkey]
  · refine hperm.trans (List.Perm.of_eq ?_)
    rw [List.filterMap_cons, hlast, List.filterMap_filter]
    refine List.filterMap_congr fun e _ => ?_
    obtain ⟨key, val⟩ := e
    by_cases hkey : key = namecoinLastBlockKey
    · simp [hkey, hlast]
    · simp [hkey]

/-! ### The replay -/

theorem replayBlocks_run (stored : Slice UInt8) :
    ∀ (lbs : List LoadedBlock) (r : ReplayState), ∃ used hashes,
    used.Sublist lbs ∧ ReplayRun E r used hashes (replayBlocks E stored lbs r).1
  | [], r => ⟨[], [], .slnil, .nil r⟩
  | lb :: rest, r => by
    rw [replayBlocks]
    cases hone : replayOne E r lb with
    | error e =>
      obtain ⟨used, hashes, hsub, hrun⟩ := replayBlocks_run stored rest r
      exact ⟨used, hashes, hsub.cons lb, hrun⟩
    | ok p =>
      obtain ⟨hash, r₁⟩ := p
      dsimp only
      split_ifs with hstop
      · exact ⟨[lb], [hash], (List.nil_sublist rest).cons_cons lb, .cons hone (.nil r₁)⟩
      · obtain ⟨used, hashes, hsub, hrun⟩ := replayBlocks_run stored rest r₁
        exact ⟨lb :: used, hash :: hashes, hsub.cons_cons lb, .cons hone hrun⟩

/-- The variables of the loop are those after a block. -/
def AtBlock (E : Env) (r : ReplayState) : Prop :=
  ∃ b, r.headHash = some (computeHash E b) ∧ r.headHeight = b.header.height

/-- The blocks that are still to be replayed are not below the head. -/
structure Ahead (r : ReplayState) (lbs : List LoadedBlock) : Prop where
  sorted : lbs.Pairwise fun a b => a.height ≤ b.height
  above : r.headHash ≠ none → ∀ lb ∈ lbs, r.headHeight ≤ lb.height

theorem Ahead.step {r r₁ : ReplayState} {lb : LoadedBlock} {rest : List LoadedBlock} {hash : Bytes}
    (h : Ahead r (lb :: rest)) (hone : replayOne E r lb = .ok (hash, r₁)) : Ahead r₁ rest ∧ AtBlock E r₁ ∧
      r₁.headHash = some hash ∧ (r.headHash ≠ none → r.headHeight < r₁.headHeight) := by
  obtain ⟨b, state, hdec, -, hnext, -, -, rfl, rfl⟩ := replayOne_ok_iff.mp hone
  have hheight := decodeLoadedBlock_height hdec
  have hfollows := ensureNextBlockFollows_ok_iff.mp hnext
  obtain ⟨hbelow, hsorted⟩ := List.pairwise_cons.mp h.sorted
  refine ⟨⟨hsorted, fun _ lb' hlb' => ?_⟩, ⟨b, rfl, rfl⟩, rfl, fun hsome => ?_⟩
  · show b.header.height ≤ lb'.height
    rw [hheight]
    exact hbelow lb' hlb'
  · rw [if_neg hsome] at hfollows
    have hle := h.above hsome lb List.mem_cons_self
    show r.headHeight < b.header.height
    rw [← hheight] at hle
    refine UInt64.lt_of_le_of_ne hle fun heq => ?_
    rw [hfollows.1] at heq
    exact absurd (UInt64.left_eq_add.mp heq) (by decide)

theorem replayBlocks_above (stored : Slice UInt8) :
    ∀ {lbs : List LoadedBlock} {r : ReplayState}, Ahead r lbs →
    (replayBlocks E stored lbs r).1 = r ∨ (AtBlock E (replayBlocks E stored lbs r).1 ∧
      (r.headHash ≠ none → r.headHeight < (replayBlocks E stored lbs r).1.headHeight))
  | [], r, _ => .inl rfl
  | lb :: rest, r, h => by
    rw [replayBlocks]
    cases hone : replayOne E r lb with
    | error e =>
      exact replayBlocks_above stored ⟨h.sorted.of_cons,
        fun hs lb' hlb' => h.above hs lb' (List.mem_cons_of_mem _ hlb')⟩
    | ok p =>
      obtain ⟨hash, r₁⟩ := p
      obtain ⟨h₁, hat, -, hlt⟩ := h.step hone
      dsimp only
      split_ifs with hstop
      · exact .inr ⟨hat, hlt⟩
      · rcases replayBlocks_above stored h₁ with heq | ⟨hat', hlt'⟩
        · rw [heq]
          exact .inr ⟨hat, hlt⟩
        · obtain ⟨b, hb, -⟩ := hat
          have hsome : r₁.headHash ≠ none := by rw [hb]; exact Option.some_ne_none _
          exact .inr ⟨hat', fun hs => UInt64.lt_trans (hlt hs) (hlt' hsome)⟩

/-- **A replay that looks for the head it has found before** finds it again. -/
theorem replayBlocks_again (hc : E.CollisionFree) (stored : Slice UInt8) {head : Bytes} :
    ∀ {lbs : List LoadedBlock} {r : ReplayState}, Ahead r lbs →
    (replayBlocks E stored lbs r).1.headHash = some head →
      (replayBlocks E (some head) lbs r).1 = (replayBlocks E stored lbs r).1
  | [], r, _, _ => rfl
  | lb :: rest, r, h, hhead => by
    rw [replayBlocks] at hhead ⊢
    rw [replayBlocks]
    cases hone : replayOne E r lb with
    | error e =>
      rw [hone] at hhead
      refine replayBlocks_again hc stored ⟨h.sorted.of_cons, fun hs lb' hlb' => ?_⟩ hhead
      exact h.above hs lb' (List.mem_cons_of_mem _ hlb')
    | ok p =>
      obtain ⟨hash, r₁⟩ := p
      obtain ⟨h₁, ⟨b, hb, hbh⟩, hhash, -⟩ := h.step hone
      rw [hone] at hhead
      dsimp only at hhead ⊢
      by_cases hstop : stored ≠ none ∧ bytesEqual (some hash) stored
      · rw [if_pos hstop] at hhead ⊢
        rw [hhash, Option.some.injEq] at hhead
        rw [hhead, if_pos ⟨Option.some_ne_none _, rfl⟩]
      · rw [if_neg hstop] at hhead ⊢
        by_cases heq : hash = head
        · -- nothing has been replayed after this block: a later one is higher, and has another hash
          rw [heq, if_pos ⟨Option.some_ne_none _, rfl⟩]
          rcases replayBlocks_above (E := E) stored h₁ with hsame | ⟨⟨b', hb', hbh'⟩, hlt⟩
          · exact hsame.symm
          · have hcollide : computeHash E b = computeHash E b' := by
              rw [hb] at hhash
              rw [hb'] at hhead
              rw [Option.some.inj hhash, Option.some.inj hhead, heq]
            have hheader : b.header = b'.header := serializeHeader_injective (hc hcollide)
            have hbelow := hlt (by rw [hb]; exact Option.some_ne_none _)
            rw [hbh, hbh', hheader] at hbelow
            exact absurd hbelow (UInt64.lt_irrefl _)
        · rw [if_neg fun hsame => heq hsame.2]
          exact replayBlocks_again hc stored h₁ hhead

/-! ### The chain that is loaded -/

/-- The head of a chain is that of blocks of a store, each on top of the one before. -/
def Loaded (E : Env) (S : Heap) (store : ℕ) (c : NamecoinChain) : Prop :=
  ∃ lbs blks, (∀ lb ∈ lbs, ∃ key, entry S store key = some lb.raw ∧
    parseNamecoinBlockHeight key = .ok lb.height) ∧ List.Forall₂ (StoredAs E) lbs blks ∧
    Branch E blks (headOf c) ∧ ∀ i (h : i < blks.length), blks[i].header.height.toNat = i

theorem loadScanned_head : headOf (loadScanned E S store blocks).2 =
    (replayBlocks E (Chain.Stores.get S store namecoinLastBlockKey) blocks replayStart).1 := by
  unfold loadScanned
  cases blocks with
  | nil => rfl
  | cons first rest => rfl

theorem loadScanned_replayed (E : Env) (S : Heap) (store : ℕ) (blocks : List LoadedBlock) :
    ∃ blks, Replayed E blks (headOf (loadScanned E S store blocks).2) := by
  rw [loadScanned_head]
  exact Replayed.replayBlocks .start

theorem loadScanned_stores : (loadScanned E S store blocks).1 =
    match (headOf (loadScanned E S store blocks).2).headHash with
    | none => S
    | some h => Chain.Stores.set S store namecoinLastBlockKey h := by
  unfold loadScanned
  cases blocks with
  | nil => rfl
  | cons first rest => rfl

theorem ahead_start (h : Scanned S store blocks) : Ahead replayStart blocks :=
  ⟨h.sorted, fun hs => absurd rfl hs⟩

theorem toNat_of_sorted {blks : List Block}
    (hheights : ∀ i (h : i < blks.length), blks[i].header.height = UInt64.ofNat i)
    (hsorted : blks.Pairwise fun a b => a.header.height ≤ b.header.height) :
    ∀ i (h : i < blks.length), blks[i].header.height.toNat = i := by
  intro i hi
  rw [hheights i hi]
  refine UInt64.toNat_ofNat_of_lt' (Nat.lt_of_not_le fun (hge : 2 ^ 64 ≤ i) => ?_)
  -- the block number 2^64 would have the height 0 again
  have hlt : 2 ^ 64 - 1 < 2 ^ 64 := by decide
  have hle := List.pairwise_iff_getElem.mp hsorted (2 ^ 64 - 1) (2 ^ 64) (by omega) (by omega) hlt
  rw [hheights, hheights] at hle
  exact absurd hle (by decide)

theorem heights_of_stored {lbs : List LoadedBlock} {blks : List Block}
    (h : List.Forall₂ (StoredAs E) lbs blks) :
    blks.map (fun b => b.header.height) = lbs.map LoadedBlock.height := by
  induction h with
  | nil => rfl
  | cons hone _ ih => rw [List.map_cons, List.map_cons, decodeLoadedBlock_height hone.1, ih]

/-- **Loading is sound on any store**: the chain is that of blocks of the store, each on top of the one
before, and loading it again from the store it leaves behind gives the same head. -/
theorem load_sound (hstore : store < S.length) (hscan : Scanned S store blocks) :
    Loaded E S store (loadScanned E S store blocks).2 ∧
    Scanned (loadScanned E S store blocks).1 store blocks ∧
      (E.CollisionFree → headOf (loadScanned E (loadScanned E S store blocks).1 store blocks).2 =
        headOf (loadScanned E S store blocks).2) := by
  refine ⟨?_, ?_, fun hc => ?_⟩
  · obtain ⟨used, hashes, hsub, hrun⟩ := replayBlocks_run (E := E)
      (Chain.Stores.get S store namecoinLastBlockKey) blocks replayStart
    rw [← loadScanned_head] at hrun
    obtain ⟨blks, hb, hall⟩ := ReplayRun.replayed hrun .start
    have hbranch := branch_of_replayed hb
    refine ⟨used, blks, fun lb hlb => hscan.entry_of_mem (hsub.subset hlb), hall, hbranch, ?_⟩
    have hsorted := List.pairwise_map.mpr (hscan.sorted.sublist hsub)
    rw [← heights_of_stored hall] at hsorted
    exact toNat_of_sorted hbranch.heights (List.pairwise_map.mp hsorted)
  · rw [loadScanned_stores]
    cases (headOf (loadScanned E S store blocks).2).headHash with
    | none => exact hscan
    | some hash => exact hscan.set_last hstore hash
  · rw [loadScanned_head, loadScanned_stores]
    cases hhead : (headOf (loadScanned E S store blocks).2).headHash with
    | none => exact loadScanned_head.symm
    | some hash =>
      have hget : Chain.Stores.get (Chain.Stores.set S store namecoinLastBlockKey hash) store
        namecoinLastBlockKey = some hash := by
        obtain ⟨blks, hb⟩ := loadScanned_replayed E S store blocks
        have hok := headOK_of_replayed hb
        rw [hhead] at hok
        unfold Chain.Stores.get
        rw [entry_set_self hstore]
        exact hok
      rw [loadScanned_head] at hhead ⊢
      dsimp only
      rw [hget]
      exact replayBlocks_again hc _ (ahead_start hscan) hhead

/-- The store of a chain whose two blocks pay a coin and spend it. -/
theorem load_sound_commit : ∃ (E : Env) (cfg : PoWConfig) (blks : List Block) (m : Map String Bytes)
      (c : NamecoinChain),
    LiveRun E cfg blks [.mem m] c ∧ blks.length = 2 ∧
    headOf (loadNamecoinChain E [.mem m] 0).2 = headOf c ∧
      Loaded E [.mem m] 0 (loadNamecoinChain E [.mem m] 0).2 ∧
      headOf (loadScanned E (loadNamecoinChain E [.mem m] 0).1 0 (scanBlocks [.mem m] 0)).2 =
        headOf (loadNamecoinChain E [.mem m] 0).2 := by
  obtain ⟨st, hledger, -⟩ := commit_ledger plainEnv_collisionFree plainEnv_canonicalJson
    (plainSigner 7) "site" 1
  obtain ⟨cfg, blks, S, c, hrun, hlen, -⟩ := exists_live hledger
  have htwo : blks.length = 2 := hlen
  obtain ⟨m, rfl, hm⟩ := hrun.holds
  obtain ⟨hload, -, hagain⟩ := load_sound (E := plainEnv)
    (show 0 < [StoreObj.mem m].length from Nat.one_pos) (scanned_mem m)
  refine ⟨plainEnv, cfg, blks, m, c, hrun, htwo, ?_, hload, hagain plainEnv_collisionFree⟩
  obtain ⟨front, blk, rfl⟩ := (List.eq_nil_or_concat' blks).resolve_left fun h => by
    rw [h] at htwo
    cases htwo
  obtain ⟨seed, hchain⟩ := hrun.load plainEnv_collisionFree (by rw [htwo]; decide)
  rw [hm.store] at hchain
  rw [hchain]
  rfl

/-! ### The state transactions are checked against -/

/-- `NewPeer`, as far as the ledger goes: the chain is loaded from the store, whose blocks have been
scanned in the given order, and the service is built on it. -/
def newPeer (E : Env) (cfg : PoWConfig) (S : Heap) (store : ℕ) (blocks : List LoadedBlock) : NodeState :=
  let (S, namecoinChain) := loadScanned E S store blocks
  ⟨newChainService E S (configurePow cfg namecoinChain), newTxBuffer, ∅, []⟩

/-- The state the `TransactionService` of a node works on. `NewPeer` gives it that of the loaded chain,
which is the first chain of the service ever after; a chain changes its state in place. -/
def transactionState (n : NodeState) : NamecoinState :=
  (n.service.chains.get ⟨0, Nat.zero_lt_of_lt n.service.longest_lt⟩).state

/-- `GetSpendPlan` of a node. -/
def NodeState.getSpendPlan (n : NodeState) (fromAddr : String) (amount : UInt64) :
    Except Err (Slice TxInput × Slice TxOutput) :=
  Mempool.getSpendPlan (transactionState n) fromAddr amount

/-- `ValidateTransaction` of the `TransactionService` of a node. -/
def NodeState.validateTransaction (E : Env) (n : NodeState) (tx : Tx) : Except Err Unit :=
  Mempool.validateTransaction E (transactionState n) tx

/-- The node checks transactions against the state of the canonical chain. -/
structure ChecksCanonical (E : Env) (n : NodeState) : Prop where
  plan : ∀ fromAddr amount, NodeState.getSpendPlan n fromAddr amount =
    deterministicSpendPlan (getLongestChain n.service).state fromAddr amount
  valid : ∀ tx, NodeState.validateTransaction E n tx = .ok () ↔
    Mempool.validateTransaction E (getLongestChain n.service).state tx = .ok ()

theorem newPeer_service (cfg : PoWConfig) : (newPeer E cfg S store blocks).service.longestChainIndex = 0 ∧
    AllReplayed E (newPeer E cfg S store blocks).service := by
  refine ⟨longestChainIndex_indexChain _ _ _, fun c hc => ?_⟩
  have hchains : (newPeer E cfg S store blocks).service.chains =
      [configurePow cfg (loadScanned E S store blocks).2] :=
    chains_indexChain _ _ _
  rw [hchains, List.mem_singleton] at hc
  rw [hc]
  exact loadScanned_replayed E S store blocks

/-- **Transactions are checked against the canonical state** of a node, as long as no turn makes
another chain the canonical one. -/
theorem checks_canonical {cfg : PoWConfig} {calls : List Block} {n : NodeState}
    (h : CallsAlong E (Uncontested E) (newPeer E cfg S store blocks).service calls n.service) :
    ChecksCanonical E n := by
  have hall := h.invariant (I := fun s => s.longestChainIndex = 0 ∧ AllReplayed E s)
    (fun order k index s blk o ht hC hI => ?_) (newPeer_service cfg)
  · have hstate : transactionState n = (getLongestChain n.service).state := by
      have hfirst := getElem?_longest n.service
      rw [hall.1] at hfirst
      exact congrArg NamecoinChain.state (List.getElem?_eq_some_iff.mp hfirst).2
    refine ⟨fun fromAddr amount => ?_, fun tx => ?_⟩
    · unfold NodeState.getSpendPlan
      rw [hstate]
      rfl
    · unfold NodeState.validateTransaction
      rw [hstate]
  · exact ⟨(steady_turn ht hI.2 hC).1.trans hI.1, replayed_turn ht hI.2⟩

/-! ### After a reorganisation -/

/-- The first block that pays a signer. -/
def payBlock {E : Env} (k : Signer E) : Block := blockAt E 0 none [rewardTx k.address 1] 0

theorem first_payBlock {E : Env} (k : Signer E) {target : ℤ}
    (hwork : (workOf E (payBlock k) : ℤ) ≤ target) :
    ∃ data, First E target (payBlock k) data (funded k) := by
  have hstart : atHeight 0 newState = newState := atHeight_of_no_expires rfl 0
  refine first_blockAt (by simp [rewardTx]) ?_ hwork
  rw [hstart]
  refine .fresh (buildTransactionID_rewardTx _ _) (Finset.notMem_empty _) ?_ (.nil _)
  exact freshStep_reward rfl (.inl rfl) (by simp [rewardTx]) Finmap.notMem_empty

theorem payBlock_less : ∃ a b : Signer plainEnv, a.address ≠ b.address ∧
    bytesLess (computeHash plainEnv (payBlock a)) (computeHash plainEnv (payBlock b)) := by
  let a := plainSigner 7
  let b := plainSigner 8
  have hne : a.address ≠ b.address := by decide
  rcases bytesLess_trichotomy (computeHash plainEnv (payBlock a))
    (computeHash plainEnv (payBlock b)) with hlt | heq | hlt
  · exact ⟨a, b, hne, hlt⟩
  · -- the hashes commit to the transactions
    have hheader := serializeHeader_injective (plainEnv_collisionFree heq)
    have hroot : rootOf plainEnv [rewardTx a.address 1] = rootOf plainEnv [rewardTx b.address 1] :=
      Option.some.inj (congrArg BlockHeader.txRoot hheader)
    have hsame := computeTxRoot_inj plainEnv_collisionFree plainEnv_canonicalJson
      (computeTxRoot_rootOf (by simp [rewardTx])) (hroot ▸ computeTxRoot_rootOf (by simp [rewardTx]))
    exact absurd (List.forall₂_cons.mp hsame).1.fromAddr.symm hne
  · exact ⟨b, a, hne.symm, hlt⟩

/-- Two first blocks that pay a coin: the second one is on a chain beside the canonical one. -/
theorem checks_canonical_beside : ∃ (E : Env) (cfg : PoWConfig) (g g' : Block) (n : NodeState),
    CallsAlong E (Uncontested E) (newPeer E cfg [.mem ∅] 0 []).service [g, g'] n.service ∧
      n.service.chains.length = 2 ∧ (∃ addr plan, NodeState.getSpendPlan n addr 1 = .ok plan) ∧
      ChecksCanonical E n := by
  obtain ⟨a, b, -, hless⟩ := payBlock_less
  let target : ℤ := workOf plainEnv (payBlock a) + workOf plainEnv (payBlock b)
  obtain ⟨data, hg⟩ := first_payBlock a (show (workOf plainEnv (payBlock a) : ℤ) ≤ target by omega)
  obtain ⟨data', hg'⟩ := first_payBlock b (show (workOf plainEnv (payBlock b) : ℤ) ≤ target by omega)
  obtain ⟨s, hd, htwo, hlong⟩ := firsts_beside (C := Uncontested plainEnv) hg hg'
    (fun h => bytesLess_irrefl _ (bytesLess_trans h hless)) (fun _ _ => ⟨_, rfl⟩)
    fun s hnot _ hover => absurd hover hnot
  have hcalls : CallsAlong plainEnv (Uncontested plainEnv)
    (newPeer plainEnv (staticConfig target) [.mem ∅] 0 []).service _ s := hd.callsAlong
  have hn : ChecksCanonical plainEnv ⟨s, newTxBuffer, ∅, []⟩ := checks_canonical hcalls
  have hplan := hn.plan a.address 1
  rw [show (getLongestChain s).state = replaceWith newState (funded a) by rw [hlong]; rfl] at hplan
  exact ⟨plainEnv, _, _, _, _, hcalls, htwo, ⟨a.address, _, hplan.trans (spendPlan_funded a)⟩, hn⟩

theorem unpaid {target : ℤ} {k k' : Signer plainEnv} (hne : k.address ≠ k'.address)
    (hwork : (workOf plainEnv (payBlock k) : ℤ) ≤ target)
    (hwork' : (workOf plainEnv (payBlock k') : ℤ) ≤ target)
    (hless : bytesLess (computeHash plainEnv (payBlock k')) (computeHash plainEnv (payBlock k))) :
    ∃ (calls : List Block) (n : NodeState), CallsAlong plainEnv (fun _ _ => True)
      (newPeer plainEnv (staticConfig target) [.mem ∅] 0 []).service calls n.service ∧
      ¬ ChecksCanonical plainEnv n := by
  obtain ⟨data, hg⟩ := first_payBlock k hwork
  obtain ⟨data', hg'⟩ := first_payBlock k' hwork'
  obtain ⟨s, hd, hp, -⟩ := two_firsts (C := fun _ _ => True) hg hg' hless True.intro fun _ _ => True.intro
  refine ⟨_, ⟨s, newTxBuffer, ∅, []⟩, hd.callsAlong, fun h => ?_⟩
  have hfirst : transactionState ⟨s, newTxBuffer, ∅, []⟩ = replaceWith newState (funded k) := by
    unfold transactionState
    simp only [List.get_eq_getElem, hp.chains]
    rfl
  have hlongest : (getLongestChain s).state = replaceWith newState (funded k') := by
    rw [getLongestChain_eq (by rw [hp.index, hp.chains]; rfl)]
    rfl
  have hnone : (replaceWith newState (funded k)).utxoMap.lookup k'.address = none :=
    (Finmap.lookup_insert_of_ne _ hne.symm).trans rfl
  have hplan := h.plan k'.address 1
  unfold NodeState.getSpendPlan Mempool.getSpendPlan at hplan
  rw [hfirst, hlongest] at hplan
  have hright : deterministicSpendPlan (replaceWith newState (funded k')) k'.address 1 = _ :=
    spendPlan_funded k'
  rw [hright] at hplan
  unfold deterministicSpendPlan at hplan
  rw [if_neg (by decide), hnone] at hplan
  cases hplan

/-- **After a reorganisation** a node still checks transactions against the state of the chain
it has been started with. -/
theorem stale_state : ∃ (E : Env) (cfg : PoWConfig) (calls : List Block) (n : NodeState),
    CallsAlong E (fun _ _ => True) (newPeer E cfg [.mem ∅] 0 []).service calls n.service ∧
    ¬ ChecksCanonical E n := by
  obtain ⟨a, b, hne, hless⟩ := payBlock_less
  let target : ℤ := workOf plainEnv (payBlock a) + workOf plainEnv (payBlock b)
  have ha : (workOf plainEnv (payBlock a) : ℤ) ≤ target := by omega
  have hb : (workOf plainEnv (payBlock b) : ℤ) ≤ target := by omega
  obtain ⟨calls, n, hcalls, hn⟩ := unpaid hne.symm hb ha hless
  exact ⟨_, _, calls, n, hcalls, hn⟩

end Namecoin.Node.Startup
