import Namecoin.Chain.Overlays
import Namecoin.Chain.Reveal
import Namecoin.State.Objects

/-! # `ApplyBlock` on the objects of a chain

`applyBlock` is `NamecoinChain.ApplyBlock` with its side effects: the state is an object, its clone is
changed in place by the strict application, also by one that fails, and the references of the clone
are swapped in at the end.

* `applyBlock_spec`: it does what the function on values does, so a failed call
  has only touched the clone;
* `allOrNothing_iff`: an accepted block leaves the strict application of its transactions behind
  exactly if the application ends with the claimed names it started with, since `replaceWith` does not
  hand over `ClaimedDomains`;
* `claimed_lost`: a block that registers a name does not. -/

namespace Namecoin.Chain.Atomic

open Lib.Ops Lib.ByteStrings Types.Defs Types.TxCodec Types.BlockCodec Types.SampleEnv State.Defs
open State.Commands State.Strict State.Effects State.Invariant State.Fresh State.Objects
open State.Wallet Chain.Build Chain.Pow Chain.Stores Chain.Defs Chain.Apply Chain.Overlays
open Chain.Registration Chain.Reveal Chain.History Chain.Ownership

/-- The fields of a `NamecoinChain`; the state is an object. -/
structure ChainObj where
  store : ℕ
  state : StateObj
  headHash : Slice UInt8
  headHeight : UInt64
  powSeed : Option ℤ
  powTarget : Option ℤ
  powParams : PowParams
  headTS : Int64

/-- What `ApplyBlock` can change. -/
structure World where
  memory : Memory
  stores : Heap
  chain : ChainObj

/-- The chain that an object shows. -/
def ChainObj.value (M : Memory) (c : ChainObj) : NamecoinChain :=
  ⟨c.store, view M c.state, c.headHash, c.headHeight, c.powSeed, c.powTarget, c.powParams, c.headTS⟩

/-- The chain as a value. -/
def World.value (w : World) : NamecoinChain := w.chain.value w.memory

/-- `c.state.Clone()`. -/
def cloneState : EStateM Err World StateObj := fun w =>
  let (M, o) := clone w.memory w.chain.state
  .ok o { w with memory := M }

/-- Run an operation of the state on an object; a failed one leaves the changes it has made so far. -/
def onState (o : StateObj) (op : StateOp Unit) : EStateM Err World StateObj := fun w =>
  match op (view w.memory o) with
  | .ok _ st => .ok (assign w.memory o st).2 { w with memory := (assign w.memory o st).1 }
  | .error e st => .error e { w with memory := (assign w.memory o st).1 }

/-- `c.store.Set(key, val)`. -/
def storeSet (key : String) (val : Bytes) : EStateM Err World Unit :=
  modify fun w => { w with stores := Stores.set w.stores w.chain.store key val }

/-- `NamecoinChain.ApplyBlock`. -/
def applyBlock (E : Env) (blk : Block) : EStateM Err World Unit := do
  let c := (← get).chain
  let target := c.powTarget
  let currentHeadHeight := c.headHeight
  let currentHeadHash := cloneBytes c.headHash
  let clonedState ← cloneState
  let prevTS := c.headTS
  let blockTarget := (decodeDifficulty blk.header.difficulty).or c.powTarget
  -- `ValidateBlock`
  check (validateBlockHeader E currentHeadHeight currentHeadHash blk target)
  let clonedState ← onState clonedState (applyBlockStrict E blk)
  let blk := settleHash E blk
  let data ← check (marshal E blk)
  let c := (← get).chain
  check (failIf (c.headHeight ≠ currentHeadHeight ∨ ¬ bytesEqual c.headHash currentHeadHash)
    (.msg "chain head changed during ApplyBlock"))
  check (validateBlockHeader E c.headHeight c.headHash blk c.powTarget)
  modify fun w => { w with chain := { w.chain with state := replaceWith w.chain.state clonedState } }
  storeSet (encodeNamecoinBlockKey blk.header.height) data
  let canonical := computeHash E blk
  storeSet namecoinLastBlockKey canonical
  modify fun w => { w with chain := { w.chain with
    headHash := cloneBytes (some canonical)
    headHeight := blk.header.height
    headTS := blk.header.timestamp
    powTarget := nextTarget E w.chain.powParams blockTarget prevTS blk.header.timestamp } }

/-- The maps of the state are there, not shared, and a record is filed under its name. -/
structure World.Sound (w : World) : Prop where
  valid : Valid w.memory w.chain.state
  wellFormed : WellFormed w.value.state

variable {E : Env} {w w' : World} {blk : Block}

/-! ### The call on objects and the call on values -/

/-- What a call on objects does, given the outcome of the call on values. -/
def Follows (w : World) : Except Err (Heap × NamecoinChain) → EStateM.Result Err World Unit → Prop
  | .error e, r =>
    ∃ w', r = .error e w' ∧ w'.stores = w.stores ∧ w'.chain = w.chain ∧ w'.value = w.value ∧
      Valid w'.memory w'.chain.state
  | .ok (S, c), r => ∃ w', r = .ok () w' ∧ w'.stores = S ∧ w'.value = c ∧ Valid w'.memory w'.chain.state

theorem cloneState_run (w : World) : cloneState w =
    .ok (clone w.memory w.chain.state).2 { w with memory := (clone w.memory w.chain.state).1 } := rfl

theorem headUnchanged (height : UInt64) (hash : Slice UInt8) (e : Err) :
    failIf (height ≠ height ∨ ¬ bytesEqual hash (cloneBytes hash)) e = .ok PUnit.unit := by
  rw [failIf_ok_iff]
  simp [bytesEqual, elems_cloneBytes]

theorem check_ok_bind {α β : Type} (a : α) (f : α → EStateM Err World β) (w : World) :
    (check (.ok a) >>= f) w = f a w := rfl

/-- **The call on objects does what the call on values does**, and a failed one changes
nothing that the chain shows. -/
theorem applyBlock_spec (hv : Valid w.memory w.chain.state) :
    Follows w (w.value.applyBlock E w.stores blk) (applyBlock E blk w) := by
  obtain ⟨hclone, hcv⟩ := clone_spec w.memory w.chain.state
  obtain ⟨hold, hov, hsep⟩ := clone_separate (o := w.chain.state) hv
  unfold applyBlock NamecoinChain.applyBlock validateBlock
  rw [get_bind_run, bind_run, cloneState_run]
  simp only [World.value, ChainObj.value]
  generalize clone w.memory w.chain.state = cl at *
  obtain ⟨M, o⟩ := cl
  dsimp only at *
  cases validateBlockHeader E w.chain.headHeight (cloneBytes w.chain.headHash) blk w.chain.powTarget with
  | error e =>
    exact ⟨_, rfl, rfl, rfl, by simp only [World.value, ChainObj.value, hold], hov⟩
  | ok u =>
    rw [check_ok_bind, bind_run, onState]
    simp only [hclone]
    cases applyBlockStrict E blk (view w.memory w.chain.state) with
    | error e st =>
      obtain ⟨hview, hvalid⟩ := assign_separate hcv hov hsep st
      exact ⟨_, rfl, rfl, rfl, by simp only [World.value, ChainObj.value, hview, hold], hvalid⟩
    | ok u st =>
      obtain ⟨hview, hvalid⟩ := assign_separate hcv hov hsep st
      obtain ⟨hnew, hnewv⟩ := assign_spec hcv st
      have hkept : view (assign M o st).1 w.chain.state = view w.memory w.chain.state := hview.trans hold
      cases marshal E (settleHash E blk) with
      | error e => exact ⟨_, rfl, rfl, rfl, by simp only [World.value, ChainObj.value, hkept], hvalid⟩
      | ok data =>
        dsimp only
        rw [check_ok_bind, get_bind_run]
        dsimp only
        rw [headUnchanged, check_ok_bind]
        cases validateBlockHeader E w.chain.headHeight w.chain.headHash
            (settleHash E blk) w.chain.powTarget with
        | error e => exact ⟨_, rfl, rfl, rfl, by simp only [World.value, ChainObj.value, hkept], hvalid⟩
        | ok u =>
          refine ⟨_, rfl, rfl, ?_, Valid.replaceWith hvalid hnewv⟩
          simp only [World.value, ChainObj.value, view_replaceWith, hnew, hkept]

theorem applied_value (hv : Valid w.memory w.chain.state) (hr : applyBlock E blk w = .ok () w') :
    w.value.applyBlock E w.stores blk = .ok (w'.stores, w'.value) ∧ Valid w'.memory w'.chain.state := by
  have h := @applyBlock_spec E w blk hv
  rw [hr] at h
  cases hval : w.value.applyBlock E w.stores blk with
  | error e =>
    rw [hval] at h
    obtain ⟨_, he, -⟩ := h
    cases he
  | ok r =>
    rw [hval] at h
    obtain ⟨_, he, hstores, hvalue, hvalid⟩ := h
    cases he
    exact ⟨by rw [hstores, hvalue], hvalid⟩

theorem failed_value {e : Err} (hv : Valid w.memory w.chain.state)
    (hr : applyBlock E blk w = .error e w') :
    w'.stores = w.stores ∧ w'.value = w.value := by
  have h := @applyBlock_spec E w blk hv
  rw [hr] at h
  cases hval : w.value.applyBlock E w.stores blk with
  | error e =>
    rw [hval] at h
    obtain ⟨_, he, hstores, -, hvalue, -⟩ := h
    cases he
    exact ⟨hstores, hvalue⟩
  | ok r =>
    rw [hval] at h
    obtain ⟨_, he, -⟩ := h
    cases he

theorem applied_iff (hv : Valid w.memory w.chain.state) :
    (∃ w', applyBlock E blk w = .ok () w') ↔ ∃ r, w.value.applyBlock E w.stores blk = .ok r := by
  constructor
  · rintro ⟨w', hr⟩
    exact ⟨_, (applied_value hv hr).1⟩
  · rintro ⟨r, hr⟩
    have h := @applyBlock_spec E w blk hv
    rw [hr] at h
    obtain ⟨w', he, -⟩ := h
    exact ⟨w', he⟩

/-! ### The claimed names -/

/-- The name that a transaction sets. -/
def nameSet (tx : Tx) : Option String :=
  match resolveCommand tx.type tx.payload with
  | .ok (.nameFirstUpdate n) => some n.domain
  | .ok (.nameUpdate n) => some n.domain
  | _ => none

/-- The names that the transactions of a block set which have not been applied. -/
def namesSet (E : Env) (st : NamecoinState) (blk : Block) : Finset String :=
  ((freshTxs E st.txMap blk.transactions).filterMap fun e => nameSet e.2).toFinset

/-- The block ends with the claimed names it starts with: what is claimed at its
height and the names it sets. -/
def Unclaimed (E : Env) (st : NamecoinState) (blk : Block) : Prop :=
  (atHeight blk.header.height st).claimedDomains ∪ namesSet E st blk = st.claimedDomains

theorem freshStep_claims {txID : String} {tx : Tx} {s s' : NamecoinState} (hw : WellFormed s)
    (h : FreshStep E txID tx s s') : s'.claimedDomains = s.claimedDomains ∪ (nameSet tx).toFinset := by
  obtain ⟨cmd, c, hcmd, -, hcoin, s₁, hn, rfl⟩ := freshStep_cases h
  have hc : CoinsOnly s c := (coinEffect_coinsOnly txID tx cmd).ok hcoin
  have hclaims : c.claimedDomains = s.claimedDomains := by rw [hc]
  have hdomains : c.domains = s.domains := by rw [hc]
  unfold nameSet
  rw [hcmd, markAsApplied_claimedDomains, ← hclaims]
  cases hn with
  | nameNew n => simp [setCommitment]
  | nameFirstUpdate n _ r key =>
    rw [deleteCommitment_claimedDomains, setDomain_claimedDomains, dropExpired_claimedDomains]
    show insert n.domain c.claimedDomains = _
    simp
  | nameUpdate n _ r hr =>
    rw [hdomains] at hr
    rw [setDomain_claimedDomains, updated_domain (hw.named _ _ hr)]
    simp
  | reward => simp

theorem freshRun_claims {rest : List (String × Tx)} {s s' : NamecoinState} (h : FreshRun E rest s s') :
    (∀ e ∈ rest, buildTransactionID E e.2 = .ok e.1) → WellFormed s →
      s'.claimedDomains = s.claimedDomains ∪ (rest.filterMap fun e => nameSet e.2).toFinset := by
  induction h with
  | nil => simp
  | @cons txID tx rest s s₁ s' _ hf _ ih =>
    intro hb hw
    have hw₁ := hw.freshStep (hb _ List.mem_cons_self) hf
    rw [ih (fun e he => hb e (List.mem_cons_of_mem _ he)) hw₁, freshStep_claims hw hf]
    cases h : nameSet tx <;> simp [h]

/-- **The claimed names after a strict application.** -/
theorem applyBlockStrict_claims {s s' : NamecoinState} (hw : WellFormed s)
    (h : applyBlockStrict E blk s = .ok () s') :
    s'.claimedDomains = (atHeight blk.header.height s).claimedDomains ∪ namesSet E s blk := by
  have hrun := StrictRun.freshRun (applyBlockStrict_ok_iff.mp h)
  rw [freshRun_claims hrun (fun e he => (freshTxs_build he).2.1) (hw.atHeight _)]
  unfold namesSet
  rw [(pruned_rest blk.header.height s).2]

/-! ### All or nothing -/

/-- What an accepted block leaves behind. -/
structure Applied (E : Env) (w : World) (blk : Block) (w' : World) : Prop where
  linked : if w.chain.headHash = none then blk.header.height = 0 ∧ elems blk.header.prevHash = []
    else blk.header.height = w.chain.headHeight + 1 ∧ bytesEqual blk.header.prevHash w.chain.headHash
  txRoot : computeTxRoot E blk.transactions = .ok (elems blk.header.txRoot)
  work : ∃ t, enforceDifficultyTarget blk w.chain.powTarget = .ok t ∧
    validateWorkForTarget E blk t = .ok ()
  state : applyBlockStrict E blk w.value.state = .ok () w'.value.state
  headHash : w'.chain.headHash = some (computeHash E blk)
  headHeight : w'.chain.headHeight = if w.chain.headHash = none then 0 else w.chain.headHeight + 1
  stores : ∀ id key, key ≠ encodeNamecoinBlockKey blk.header.height → key ≠ namecoinLastBlockKey →
    entry w'.stores id key = entry w.stores id key

/-- A call that fails leaves the chain and the stores as they are, one that succeeds
leaves the block applied. -/
structure AllOrNothing (E : Env) (w : World) (blk : Block) : Prop where
  nothing : ∀ e w', applyBlock E blk w = .error e w' → w'.value = w.value ∧ w'.stores = w.stores
  all : ∀ w', applyBlock E blk w = .ok () w' → Applied E w blk w'

theorem checks_of_settleHash {height : UInt64} {hash : Slice UInt8} {target : Option ℤ}
    (h : validateBlockHeader E height hash (settleHash E blk) target = .ok ()) :
    ensureNextBlockFollows height hash blk = .ok () ∧
      computeTxRoot E blk.transactions = .ok (elems blk.header.txRoot) ∧
      ∃ t, enforceDifficultyTarget blk target = .ok t ∧ validateWorkForTarget E blk t = .ok () := by
  simpa using (validateBlockHeader_ok_iff.mp h).2

/-- What a successful call on values has checked and changed, whatever the head hash of the chain. -/
theorem applyBlock_ok {S S' : Heap} {c c' : NamecoinChain} (h : c.applyBlock E S blk = .ok (S', c')) :
    ∃ st data, validateBlockHeader E c.headHeight c.headHash (settleHash E blk) c.powTarget = .ok () ∧
      applyBlockStrict E blk c.state = .ok () st ∧ S' = persist E S c.store blk data ∧
      c' = chainAfter E c blk st := by
  unfold NamecoinChain.applyBlock at h
  simp only [except_bind_ok_iff, validateBlock_ok_iff] at h
  obtain ⟨st, ⟨-, hstrict⟩, data, -, u, hheader, heq⟩ := h
  cases heq
  refine ⟨st, data, hheader, hstrict, ?_, ?_⟩
  · simp only [settleHash_header, computeHash_settleHash]; rfl
  · simp only [settleHash_header, cloneBytes_some (E.sha256_ne_nil _), computeHash]; rfl

theorem entry_persist_of_ne {S : Heap} {store : ℕ} {data : Bytes} {id : ℕ} {key : String}
    (h : key ≠ encodeNamecoinBlockKey blk.header.height) (h' : key ≠ namecoinLastBlockKey) :
    entry (persist E S store blk data) id key = entry S id key := by
  unfold persist
  rw [entry_set_of_ne h', entry_set_of_ne h]

theorem unclaimed_of_applied (hs : w.Sound) (hr : applyBlock E blk w = .ok () w')
    (h : Applied E w blk w') :
    Unclaimed E w.value.state blk := by
  obtain ⟨st, data, -, -, -, hvalue⟩ := applyBlock_ok (applied_value hs.valid hr).1
  unfold Unclaimed
  rw [← applyBlockStrict_claims hs.wellFormed h.state, hvalue]
  rfl

theorem applied_of_unclaimed (hs : w.Sound) (hr : applyBlock E blk w = .ok () w')
    (h : Unclaimed E w.value.state blk) : Applied E w blk w' := by
  obtain ⟨st, data, hheader, hstrict, hstores, hvalue⟩ := applyBlock_ok (applied_value hs.valid hr).1
  obtain ⟨hlink, hroot, hwork⟩ := checks_of_settleHash hheader
  have hlinked := ensureNextBlockFollows_ok_iff.mp hlink
  have hclaims : st.claimedDomains = w.value.state.claimedDomains := by
    rw [applyBlockStrict_claims hs.wellFormed hstrict]
    exact h
  have hstate : w'.value.state = st := by
    rw [hvalue]
    show { st with claimedDomains := w.value.state.claimedDomains } = st
    rw [← hclaims]
  refine ⟨hlinked, hroot, hwork, by rw [hstate]; exact hstrict, ?_, ?_, ?_⟩
  · exact congrArg NamecoinChain.headHash hvalue
  · have hheight : w'.chain.headHeight = blk.header.height := congrArg NamecoinChain.headHeight hvalue
    rw [hheight]
    change (if w.chain.headHash = none then _ else _) at hlinked
    split_ifs at hlinked ⊢ with hnone
    · exact hlinked.1
    · exact hlinked.1
  · intro id key hblock hlast
    rw [hstores]
    exact entry_persist_of_ne hblock hlast

/-- **All or nothing, but for the claimed names.** A failed call changes nothing. A successful one
leaves the block applied exactly if the strict application of the block ends with the claimed
names of the state before. -/
theorem allOrNothing_iff (hs : w.Sound) : AllOrNothing E w blk ↔
    ((∃ r, w.value.applyBlock E w.stores blk = .ok r) → Unclaimed E w.value.state blk) := by
  constructor
  · intro h hok
    obtain ⟨w', hr⟩ := (applied_iff hs.valid).mpr hok
    exact unclaimed_of_applied hs hr (h.all w' hr)
  · intro hcond
    constructor
    · intro e w' hr
      exact (failed_value hs.valid hr).symm
    · intro w' hr
      exact applied_of_unclaimed hs hr (hcond ((applied_iff hs.valid).mp ⟨w', hr⟩))

/-! ### Every chain -/

/-- **A sound chain stays sound**, whatever block it accepts. -/
theorem World.Sound.applied (hs : w.Sound) (hr : applyBlock E blk w = .ok () w') : w'.Sound := by
  obtain ⟨hval, hvalid⟩ := applied_value hs.valid hr
  obtain ⟨st, data, -, hstrict, -, hvalue⟩ := applyBlock_ok hval
  have hw := hs.wellFormed.applyBlockStrict hstrict
  refine ⟨hvalid, ?_⟩
  rw [hvalue]
  exact ⟨hw.named, hw.coins, hw.commits, hw.ids, hw.buckets, hw.ttl⟩

theorem exists_world (S : Heap) {c : NamecoinChain} (hw : WellFormed c.state) :
    ∃ w : World, w.Sound ∧ w.value = c ∧ w.stores = S := by
  obtain ⟨M, o, hvalid, hview⟩ := exists_object c.state
  have hvalue : (World.mk M S ⟨c.store, o, c.headHash, c.headHeight, c.powSeed, c.powTarget, c.powParams,
      c.headTS⟩).value = c := by
    simp only [World.value, ChainObj.value, hview]
  exact ⟨_, ⟨hvalid, by rw [hvalue]; exact hw⟩, hvalue, rfl⟩

/-- The reward and a commitment on an empty chain are applied. -/
theorem commitment_applied : ∃ (E : Env) (w w' : World) (blk : Block), w.Sound ∧ blk.transactions ≠ [] ∧
    applyBlock E blk w = .ok () w' ∧ AllOrNothing E w blk ∧ Applied E w blk w' := by
  let k := plainSigner 7
  obtain ⟨s, hrun, -⟩ := commit_run plainEnv_collisionFree plainEnv_canonicalJson k "site"
  have hpay : ∀ tx ∈ [rewardTx k.address 1, commitFor k "site"], tx.payload ≠ .invalid := by
    simp [rewardTx, commitFor, walletTx, unsignedTx]
  obtain ⟨c, c', S', blk, -, hst, ha, htxs, -⟩ := (LedgerRun.nil 0 newState).reached hpay hrun []
  obtain ⟨w, hs, rfl, hstores⟩ := exists_world [] (c := c) (by rw [hst]; exact wellFormed_newState)
  rw [← hstores] at ha
  obtain ⟨w', hr⟩ := (applied_iff hs.valid).mpr ⟨_, ha⟩
  have hnone : ∀ e ∈ freshTxs plainEnv w.value.state.txMap blk.transactions, nameSet e.2 = none := by
    intro e he
    have htx := (freshTxs_build he).1
    rw [htxs] at htx
    rcases List.mem_pair.mp htx with h | h
    · rw [h]; rfl
    · rw [h]; rfl
  have hcond : Unclaimed plainEnv w.value.state blk := by
    unfold Unclaimed namesSet
    rw [List.filterMap_eq_nil_iff.mpr hnone, hst, atHeight_of_no_expires rfl]
    rfl
  have hall := (allOrNothing_iff hs).mpr fun _ => hcond
  exact ⟨_, w, w', blk, hs, by simp [htxs], hr, hall, hall.all w' hr⟩

/-- The block that registers a name does not leave it claimed. -/
theorem claimed_lost : ¬ ∀ (E : Env) (w : World) (blk : Block), w.Sound → AllOrNothing E w blk := by
  intro hall
  let k := plainSigner 7
  obtain ⟨c, c', S', blk, log, hlog, ha, hfresh, -⟩ :=
    reveal_accepted plainEnv_collisionFree plainEnv_canonicalJson k k 0
  obtain ⟨hwell, hclaims⟩ := hlog.reached.wellFormed
  obtain ⟨w, hs, rfl, hstores⟩ := exists_world [] hwell
  rw [← hstores] at ha
  obtain ⟨w', hr⟩ := (applied_iff hs.valid).mpr ⟨_, ha⟩
  have hcond := unclaimed_of_applied hs hr ((hall _ w blk hs).all w' hr)
  have hset : "site" ∈ namesSet plainEnv w.value.state blk := by
    unfold namesSet
    rw [show freshTxs plainEnv w.value.state.txMap blk.transactions = _ from hfresh]
    exact List.mem_toFinset.mpr List.mem_cons_self
  have hmem : "site" ∈ w.value.state.claimedDomains := hcond ▸ Finset.mem_union_right _ hset
  rw [hclaims] at hmem
  exact Finset.notMem_empty _ hmem

end Namecoin.Chain.Atomic
