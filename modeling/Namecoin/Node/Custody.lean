import Namecoin.Node.Miner

/-! # Transactions that the miner has taken

An iteration of the miner takes all transactions from the buffer. It gives them back if it does not
find a nonce, and otherwise not: not if it has been stopped after it has found one, not if its block is
rejected, and not if the block does not become the canonical head.

* `custody`: **no admitted transaction is lost** as long as an iteration that does not give its
  transactions back has none that is still wanted, no turn of the service is contested, and the
  handler removes only what is applied; and a stop after a nonce has been found loses a
  transaction that is still wanted;
* `stopped_after_nonce`: an iteration that has found a nonce for its block is stopped, and
  its transaction is gone. -/

namespace Namecoin.Node.Custody

open Lib.Ops Lib.ByteStrings Lib.Json Lib.JsonCode Lib.Threads Types.Defs Types.TxCodec
open Types.BlockCodec Types.SampleEnv State.Defs State.Strict State.Wallet State.Effects
open Chain.Stores Chain.Pow Chain.Build Service.Scenes Service.Defs Service.Branches
open Service.Transactions Node.Mempool Node.Template Node.Miner

variable {E : Env} {cfg : MinerConfig} {order : MapOrder} {n : Peer} {w : Work} {e : Effect Peer Work}
  {p p' : Pool Peer Work} {id : String}

/-- The iteration has taken a transaction with the ID. -/
def Holds (E : Env) : Work → String → Prop
  | .attempt _ _ _ drained _, id => id ∈ drained.snapshot
  | .requeue drained, id => id ∈ drained.snapshot
  | .mined _ block _, id => HasID E block.transactions id
  | .append _ block, id => HasID E block.transactions id
  | _, _ => False

/-- A miner iteration in progress holds the transaction. -/
def Held (E : Env) (p : Pool Peer Work) (id : String) : Prop := ∃ w ∈ p.tasks, Holds E w id

/-- The transaction is still wanted: it is not applied on the canonical chain, and valid there. -/
def Wanted (E : Env) (n : Peer) (id : String) (tx : Tx) : Prop :=
  ¬ Applied n.ledger.service id ∧ validateTxStrict E (getLongestChain n.ledger.service).state id tx =
    .ok ()

/-- **No admitted transaction is lost.** -/
def Kept (E : Env) (p : Pool Peer Work) : Prop :=
  ∀ id tx, (id, tx) ∈ p.shared.admitted → Wanted E p.shared id tx →
  id ∈ p.shared.ledger.txBuffer.txs ∨ Held E p id

/-! ### The condition on a turn -/

/-- The admitted transactions of the block are applied, or in the buffer. -/
def Settled (E : Env) (n : Peer) (block : Block) : Prop :=
  ∀ x ∈ n.admitted, HasID E block.transactions x.1 →
  Applied n.ledger.service x.1 ∨ x.1 ∈ n.ledger.txBuffer.txs

/-- An iteration that is stopped after it has found a nonce has a block that is settled; a mined block
is settled or extends the canonical chain; no turn of the service is contested; and the handler
removes what is applied. -/
def Careful (E : Env) (order : MapOrder) (n : Peer) : Work → Prop
  | .mined stop block _ => stop ∈ n.closed → Settled E n block
  | .append _ block => Calm E order n.ledger.service block ∧
    (Settled E n block ∨ Extends E n.ledger.service block)
  | .receive blk => Calm E order n.ledger.service blk
  | .remove (tx :: _) _ => ∀ id, buildTransactionID E tx = .ok id → id ∈ n.ledger.txBuffer.txs →
    Applied n.ledger.service id
  | _ => True

def CarefulTurn (E : Env) (p : Pool Peer Work) : Event → Prop
  | .call _ => True
  | .turn t _ order => ∀ w, p.top t = some w → Careful E order p.shared w

/-! ### One turn -/

/-- The ID is applied, in the buffer, or held by one of the tasks. -/
def Safe (E : Env) (n : Peer) (ws : Multiset Work) (id : String) : Prop :=
  Applied n.ledger.service id ∨ id ∈ n.ledger.txBuffer.txs ∨ ∃ w ∈ ws, Holds E w id

/-- What a turn hands on: what is applied stays so, and what is in the buffer or held
by the task stays safe. -/
structure HandsOn (E : Env) (n : Peer) (w : Work) (e : Effect Peer Work) : Prop where
  applied : ∀ id, Applied n.ledger.service id → Applied e.shared.ledger.service id
  buffered : ∀ id ∈ n.ledger.txBuffer.txs, Safe E e.shared (e.next : Multiset Work) id
  held : ∀ x ∈ n.admitted, Holds E w x.1 → Safe E e.shared (e.next : Multiset Work) x.1
  admitted : ∀ x ∈ e.shared.admitted, x ∈ n.admitted ∨ x.1 ∈ e.shared.ledger.txBuffer.txs

theorem hasID_of_taken {drained : Drained} {block : Block} {reward : Tx} (h : Taken E drained)
    (hb : block.transactions = reward :: drained.pending) (hid : id ∈ drained.snapshot) :
    HasID E block.transactions id := by
  obtain ⟨t, ht⟩ := Finmap.mem_iff.mp hid
  obtain ⟨hmem, hbuild⟩ := h.named id t ht
  exact ⟨t, by rw [hb]; exact List.mem_cons_of_mem _ hmem, hbuild⟩

/-- **A careful turn** hands on what it finds. -/
theorem handsOn_of_does (h : Does E order n w e) (hr : AllReplayed E n.ledger.service)
    (ht : Tidy E n.ledger.txBuffer) (hp : Proper E w) (hc : Careful E order n w) : HandsOn E n w e := by
  cases h with
  | aside hw hservice hbuffer hadmitted hnext =>
    refine ⟨fun id h => by rw [hservice]; exact h, fun id h => .inr (.inl (by rw [hbuffer]; exact h)),
      fun x _ h => ?_, fun x h => .inl (hadmitted ▸ h)⟩
    cases w <;> first | exact h.elim | cases hw
  | add tx txID =>
    refine ⟨fun id h => h, fun id h => .inr (.inl (mem_add.mpr (.inr h))),
      fun x _ h => h.elim, fun x h => ?_⟩
    rcases List.mem_append.mp h with h | h
    · exact .inl h
    · rw [List.mem_singleton.mp h]
      exact .inr (mem_add.mpr (.inl rfl))
  | receive blk _ hnext =>
    exact ⟨(applied_call hc hr).2, fun id h => .inr (.inl h), fun x _ h => h.elim, fun x h => .inl h⟩
  | receiveHead blk =>
    exact ⟨(applied_call hc hr).2, fun id h => .inr (.inl h), fun x _ h => h.elim, fun x h => .inl h⟩
  | removed txs =>
    exact ⟨fun id h => h, fun id h => .inr (.inl h), fun x _ h => h.elim, fun x h => .inl h⟩
  | @remove tx txID left txs hid =>
    refine ⟨fun id h => h, fun id h => ?_, fun x _ h => h.elim, fun x h => .inl h⟩
    by_cases heq : id = txID
    · subst heq
      exact .inl (hc id hid h)
    · exact .inr (.inl (mem_remove.mpr ⟨heq, h⟩))
  | nameless => exact ⟨fun id h => h, fun id h => .inr (.inl h), fun x _ h => h.elim, fun x h => .inl h⟩
  | drain stop base hdr target =>
    refine ⟨fun id h => h, fun id h => .inr (.inr ⟨_, List.mem_singleton_self _, ?_⟩),
      fun x _ h => h.elim, fun x h => .inl h⟩
    exact (ht.drain.2 id).mpr h
  | search =>
    exact ⟨fun id h => h, fun id h => .inr (.inl h),
      fun x _ h => .inr (.inr ⟨_, List.mem_singleton_self _, h⟩), fun x h => .inl h⟩
  | giveUp =>
    exact ⟨fun id h => h, fun id h => .inr (.inl h), fun x _ h => .inr (.inr ⟨_, List.mem_cons_self, h⟩),
      fun x h => .inl h⟩
  | find stop hdr target drained nonce hblock =>
    refine ⟨fun id h => h, fun id h => .inr (.inl h),
      fun x _ h => .inr (.inr ⟨_, List.mem_singleton_self _, ?_⟩), fun x h => .inl h⟩
    exact hasID_of_taken hp hblock h
  | requeue drained =>
    obtain ⟨-, hmem⟩ := ht.requeue (fun id t hl => (Taken.named hp id t hl).2) drained.order
    refine ⟨fun id h => h, fun id h => .inr (.inl ((hmem id).mpr (.inl h))), fun x _ h => ?_,
      fun x h => .inl h⟩
    exact .inr (.inl ((hmem x.1).mpr (.inr ⟨Taken.listed hp x.1 h, h⟩)))
  | mined stop block hashed =>
    refine ⟨fun id h => h, fun id h => .inr (.inl h), fun x hx h => ?_, fun x h => .inl h⟩
    by_cases hclosed : stop ∈ n.closed
    · exact (hc hclosed x hx h).imp_right .inl
    · refine .inr (.inr ⟨.append stop block, ?_, h⟩)
      dsimp only
      rw [if_neg hclosed]
      exact List.mem_singleton_self _
  | append stop block hnext =>
    obtain ⟨hcalm, hblock⟩ := hc
    refine ⟨(applied_call hcalm hr).2, fun id h => .inr (.inl h), fun x hx h => ?_, fun x h => .inl h⟩
    rcases hblock with hsettled | hextends
    · rcases hsettled x hx h with happlied | hbuffered
      · exact .inl ((applied_call hcalm hr).2 x.1 happlied)
      · exact .inr (.inl hbuffered)
    · exact .inl (extends_call hextends hcalm hr h)

/-! ### Runs -/

/-- Every admitted transaction is applied, in the buffer, or held. -/
def AllSafe (E : Env) (p : Pool Peer Work) : Prop := ∀ x ∈ p.shared.admitted, Safe E p.shared p.tasks x.1

theorem AllSafe.kept (h : AllSafe E p) : Kept E p := fun id tx hx hw => (h (id, tx) hx).resolve_left hw.1

theorem allSafe_step {a : Event} (ho : Orderly E p) (h : AllSafe E p) (hc : CarefulTurn E p a)
    (hs : step E cfg p a = some p') : AllSafe E p' := by
  cases a with
  | call w =>
    rw [step] at hs
    split_ifs at hs
    cases hs
    intro x hx
    rcases h x hx with h | h | ⟨w', hw', h⟩
    · exact .inl h
    · exact .inr (.inl h)
    · exact .inr (.inr ⟨w', by rw [spawn_tasks]; exact Multiset.mem_add.mpr (.inr hw'), h⟩)
  | turn t now order =>
    obtain ⟨w, e, others, htop, he, hshared, hold, hnew⟩ := run_tasks hs
    have hw : w ∈ p.tasks := by
      rw [hold]
      exact Multiset.mem_cons_self w others
    have hon := handsOn_of_does (exec_does he) ho.replayed ho.tidy (ho.proper w hw) (hc w htop)
    -- what the turn leaves to its own goroutine is among the tasks of the pool
    have hsafe : ∀ id, Safe E e.shared (e.next : Multiset Work) id → Safe E p'.shared p'.tasks id :=
        fun id h => by
      rw [hshared]
      refine h.imp_right (.imp_right ?_)
      rintro ⟨w', hw', h⟩
      refine ⟨w', ?_, h⟩
      rw [hnew]
      exact Multiset.mem_add.mpr (.inl (Multiset.mem_coe.mpr
        (List.mem_append_left _ (Multiset.mem_coe.mp hw'))))
    intro x hx
    rw [hshared] at hx
    rcases hon.admitted x hx with hx | hbuffered
    · rcases h x hx with happlied | hbuffered | ⟨w', hw', hholds⟩
      · exact hsafe _ (.inl (hon.applied x.1 happlied))
      · exact hsafe _ (hon.buffered x.1 hbuffered)
      · rw [hold] at hw'
        rcases Multiset.mem_cons.mp hw' with rfl | hother
        · exact hsafe _ (hon.held x hx hholds)
        · exact .inr (.inr ⟨w', by rw [hnew]; exact Multiset.mem_add.mpr (.inr hother), hholds⟩)
    · exact hsafe _ (.inr (.inl hbuffered))

theorem allSafe_reach (h : (mining E cfg).Reach (CarefulTurn E) p) : Orderly E p ∧ AllSafe E p := by
  refine h.invariant (I := fun p => Orderly E p ∧ AllSafe E p) (fun p hs => ⟨orderly_start hs, ?_⟩)
    fun p a p' hc hs hI => ⟨orderly_step hI.1 hs, allSafe_step hI.1 hI.2 hc hs⟩
  obtain ⟨S, store, blocks, rfl⟩ := hs
  intro x hx
  cases hx

/-- The turn stops an iteration that has found a nonce, and an admitted transaction of its block is
still wanted and nowhere else. -/
def Discards (E : Env) (p : Pool Peer Work) : Event → Prop
  | .call _ => False
  | .turn t _ _ =>
    ∃ stop block hashed others, p.top t = some (.mined stop block hashed) ∧ stop ∈ p.shared.closed ∧
      p.tasks = .mined stop block hashed ::ₘ others ∧ ∃ id tx, (id, tx) ∈ p.shared.admitted ∧
      Wanted E p.shared id tx ∧ id ∉ p.shared.ledger.txBuffer.txs ∧ ∀ w ∈ others, ¬ Holds E w id

theorem not_kept_of_discards {a : Event} (hd : Discards E p a) (hs : step E cfg p a = some p') :
    ¬ Kept E p' := by
  cases a with
  | call w => exact hd.elim
  | turn t now order =>
    obtain ⟨stop, block, hashed, others, htop, hclosed, htasks, id, tx, hx, hwanted, hbuffer, hothers⟩ :=
      hd
    obtain ⟨w, e, others', htop', he, hshared, hold, hnew⟩ := run_tasks hs
    cases htop.symm.trans htop'
    cases (Multiset.cons_inj_right _).mp (htasks.symm.trans hold)
    rw [exec, if_pos hclosed] at he
    cases he
    intro hkept
    rcases hkept id tx (by rw [hshared]; exact hx) (by rw [hshared]; exact hwanted) with h | ⟨w, hw, h⟩
    · rw [hshared] at h
      exact hbuffer h
    · rw [hnew] at hw
      rcases Multiset.mem_add.mp hw with hw | hw
      · rw [Multiset.mem_coe] at hw
        cases List.mem_singleton.mp hw
        exact h
      · exact hothers w hw h

/-- **No admitted transaction is lost** in a run of careful turns, and a stop that
discards a wanted one loses it. -/
theorem custody (h : (mining E cfg).Reach (CarefulTurn E) p) : Kept E p ∧
    ∀ a p', step E cfg p a = some p' → Discards E p a → ¬ Kept E p' :=
  ⟨(allSafe_reach h).2.kept, fun _ _ hs hd => not_kept_of_discards hd hs⟩

/-! ### An iteration that is stopped after it has found a nonce -/

theorem valueCode_ne_serializeHeader {sha256 : Bytes → Bytes} {h : ∀ b, sha256 b ≠ []} (v : JsonValue)
    (ms : List (String × JsonValue)) (x : Bytes) (hdr : BlockHeader) :
    valueCode (.obj (("amount", v) :: ms)) ++ x ≠ serializeHeader (sampleEnv sha256 h) hdr := by
  intro he
  have hcode : code (toText (.obj (("amount", v) :: ms))) ++ x =
      code (.obj (headerMembers hdr)) ++ [] := by
    rw [List.append_nil]
    exact he
  have hkey : "amount" = "height" := by
    have hobj := JsonText.obj.inj (code_append_inj hcode).1
    exact (Prod.mk.inj (List.cons.inj hobj).1).1
  exact absurd hkey (by decide)

/-- The transaction, made with a hash that marks every byte string. -/
def markedTx : Tx := walletTx (sampleSigner (listedHash []) (listedHash_ne_nil []) 7) .reward 0 [] []

/-- The header the miner makes for it. -/
def luckyHeader : BlockHeader :=
  ⟨0, none, some (rootOf (listedEnv []) [blockReward 0 "", markedTx]), 0, 0, "", some (bigBytes 1)⟩

/-- The hash of the header is 1, which is the target. -/
def luckyEnv : Env := listedEnv [serializeHeader (listedEnv []) luckyHeader]

def luckySigner : Signer luckyEnv := sampleSigner _ _ 7

theorem luckyEnv_sha256 {b : Bytes} (h : b ≠ serializeHeader (listedEnv []) luckyHeader) :
    luckyEnv.sha256 b = (listedEnv []).sha256 b := listedHash_singleton h

theorem unsignedTx_luckySigner : unsignedTx luckySigner .reward 0 [] [] =
    unsignedTx (sampleSigner (listedHash []) (listedHash_ne_nil []) 7) .reward 0 [] [] := by
  have haddress : luckySigner.address = (sampleSigner (listedHash []) (listedHash_ne_nil []) 7).address :=
    congrArg hexEncode (luckyEnv_sha256 fun h => absurd (List.cons.inj h).1 (by decide))
  unfold unsignedTx
  rw [haddress]
  rfl

theorem walletTx_luckySigner : walletTx luckySigner .reward 0 [] [] = markedTx := by
  have hid : hashHex luckyEnv (preimage luckySigner .reward 0 [] []) =
      hashHex (listedEnv []) (preimage (sampleSigner (listedHash []) (listedHash_ne_nil []) 7)
      .reward 0 [] []) := by
    unfold preimage
    rw [unsignedTx_luckySigner]
    refine congrArg hexEncode (luckyEnv_sha256 fun h => ?_)
    exact valueCode_ne_serializeHeader _ _ [] _ (by rw [List.append_nil]; exact h)
  unfold walletTx markedTx walletTx
  rw [hid, unsignedTx_luckySigner]
  rfl

theorem computeTxRoot_lucky : computeTxRoot luckyEnv [blockReward 0 "", markedTx] =
    .ok (rootOf (listedEnv []) [blockReward 0 "", markedTx]) := by
  have hp : ∀ tx ∈ [blockReward 0 "", markedTx], tx.payload ≠ .invalid := by
    simp [blockReward, markedTx, walletTx, unsignedTx]
  obtain ⟨bytes, hbytes, hr⟩ := except_map_ok_iff.mp (computeTxRoot_rootOf (E := listedEnv []) hp)
  have hbytes' : rootBytes luckyEnv 0 [blockReward 0 "", markedTx] = .ok bytes := hbytes
  unfold computeTxRoot
  rw [hbytes', ← hr]
  refine congrArg Except.ok (luckyEnv_sha256 ?_)
  cases hbytes
  exact valueCode_ne_serializeHeader _ _ _ _

def luckyBlock : Block := ⟨luckyHeader, [blockReward 0 "", markedTx], some [1]⟩

theorem work_luckyHeader : luckyEnv.sha256 (serializeHeader luckyEnv luckyHeader) = [1] :=
  listedHash_self _

theorem assembleBlock_lucky {hdr : BlockHeader}
    (h : { hdr with txRoot := some (rootOf (listedEnv []) [blockReward 0 "", markedTx]) } = luckyHeader) :
    assembleBlock luckyEnv hdr [markedTx] "" = .ok luckyBlock := by
  have hheight : hdr.height = 0 := congrArg BlockHeader.height h
  unfold assembleBlock
  dsimp only
  rw [hheight] at h ⊢
  rw [computeTxRoot_lucky]
  show Except.ok _ = _
  rw [h]
  exact congrArg (fun x => Except.ok (Block.mk luckyHeader [blockReward 0 "", markedTx] (some x)))
    work_luckyHeader

theorem exec_found {now : Int64} {stop : ℕ} {hdr : BlockHeader} {target : ℤ} {drained : Drained}
    {nonce : UInt64} {blk : Block}
    (hgo : ¬ (target = 0 ∨ cfg.nonces ≤ nonce ∨ stop ∈ n.closed))
    (hwork : (toNatBE (E.sha256 (buildHeader E hdr nonce now)) : ℤ) ≤ target)
    (hblk : assembleBlock E { hdr with timestamp := now, nonce := nonce } drained.pending cfg.pow.pubKey =
    .ok blk)
    (hval : isBlockComplexityValid E blk (some (toNatBE (elems hdr.difficulty)))) :
    exec E cfg now order n (.attempt stop hdr target drained nonce) =
      goOn n [.mined stop blk (buildHeader E hdr nonce now)] := by
  rw [exec, mineNonce, if_neg hgo]
  dsimp only
  rw [if_pos hwork, hblk]
  exact if_pos hval

theorem exec_lucky : exec luckyEnv (sampleConfig 1) 0 numbered
      (takenPeer luckyEnv 1 markedTx markedTx.txID)
    (.attempt 0 luckyHeader 1 (takenOne markedTx markedTx.txID) 0) =
      goOn (takenPeer luckyEnv 1 markedTx markedTx.txID)
        [.mined 0 luckyBlock (serializeHeader luckyEnv luckyHeader)] := by
  refine exec_found (by decide) ?_ ?_ ?_
  · show (toNatBE (luckyEnv.sha256 (serializeHeader luckyEnv luckyHeader)) : ℤ) ≤ 1
    rw [work_luckyHeader]
    decide
  · rw [takenOne_eq]
    exact assembleBlock_lucky rfl
  · show (toNatBE (luckyEnv.sha256 (serializeHeader luckyEnv luckyHeader)) : ℤ) ≤
      effectiveTarget (some (toNatBE (bigBytes 1)))
    rw [work_luckyHeader]
    norm_num [bigBytes, toNatBE, effectiveTarget]

theorem admission_markedTx : admission luckyEnv newState markedTx = .ok (markedTx, markedTx.txID) := by
  rw [← walletTx_luckySigner]
  exact admit_walletTx rfl rfl rfl

theorem wanted_markedTx : validateTxStrict luckyEnv newState markedTx.txID markedTx = .ok () :=
  (validateTxStrict_reward_iff rfl).mpr ⟨.inr rfl, by decide⟩

/-- An iteration has found a nonce, is stopped, and its transaction is gone. -/
theorem stopped_after_nonce : ¬ ∀ (E : Env) (cfg : MinerConfig) (p : Pool Peer Work), E.CollisionFree →
    (mining E cfg).Reach (fun _ _ => True) p → Kept E p := by
  intro h
  let n := takenPeer luckyEnv 1 markedTx markedTx.txID
  let n' : Peer := { n with minerStopping := true, closed := [0], minerStopCh := none }
  let mined : Work := .mined 0 luckyBlock (serializeHeader luckyEnv luckyHeader)
  have h₁ := reach_taken (C := fun _ _ => True) (fun _ _ _ => True.intro) admission_markedTx
    (assembleBlock_lucky rfl)
  have h₂ := reach_turn 2 ⟨n, [[], [], [mined]]⟩ h₁ True.intro rfl exec_lucky rfl
  have h₃ := reach_call .stop h₂ True.intro rfl
  have h₄ := reach_turn 3 ⟨n', [[], [], [mined], [.wait, .stopped]]⟩ h₃ True.intro rfl rfl rfl
  have h₅ := reach_turn 2 ⟨n', [[], [], [.finish], [.wait, .stopped]]⟩ h₄ True.intro rfl rfl rfl
  have h₆ := reach_turn 2 ⟨{ n' with minerWG := 0 }, [[], [], [], [.wait, .stopped]]⟩ h₅
    True.intro rfl rfl rfl
  have h₇ := reach_turn 3 ⟨{ n' with minerWG := 0 }, [[], [], [], [.stopped]]⟩ h₆ True.intro rfl rfl rfl
  have h₈ := reach_turn 3 ⟨{ n' with minerWG := 0, minerStopping := false }, [[], [], [], []]⟩ h₇
    True.intro rfl rfl rfl
  have hkept := h _ _ _ (listedEnv_collisionFree (by decide)) h₈
  rcases hkept markedTx.txID markedTx (List.mem_singleton_self _) ⟨not_applied_emptyPeer _ _ _,
      wanted_markedTx⟩ with
    hb | ⟨w, hw, -⟩
  · exact Finmap.notMem_empty hb
  · simp [Pool.tasks] at hw

theorem careful_of_quiet {s : ChainService} {a : Event} (h : Quiet s p a) : CarefulTurn E p a := by
  cases a with
  | call w => exact True.intro
  | turn t now order =>
    intro w htop
    have hw := h.2 w (mem_tasks_of_top htop)
    cases w <;> first | exact True.intro | cases hw

/-- An iteration holds a transaction that is still wanted. -/
theorem custody_taken : ∃ (E : Env) (cfg : MinerConfig) (p : Pool Peer Work) (id : String) (tx : Tx),
    (mining E cfg).Reach (CarefulTurn E) p ∧ Kept E p ∧ (id, tx) ∈ p.shared.admitted ∧
    Wanted E p.shared id tx ∧
      id ∉ p.shared.ledger.txBuffer.txs := by
  have h := reach_taken (C := CarefulTurn luckyEnv) (fun _ _ => careful_of_quiet) admission_markedTx
    (assembleBlock_lucky rfl)
  exact ⟨luckyEnv, _, _, markedTx.txID, markedTx, h, (custody h).1, List.mem_singleton_self _,
    ⟨not_applied_emptyPeer _ _ _, wanted_markedTx⟩, Finmap.notMem_empty⟩

end Namecoin.Node.Custody
