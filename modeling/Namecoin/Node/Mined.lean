import Namecoin.Node.Custody

/-! # What the miner finds is a block of its chain

`MineAndApply` puts the difficulty and the root of the transactions into the header, looks for a nonce
with the bytes of that header, and builds the block a second time around the nonce it has found. The
validator of the chain computes all of this again from the block. Here the two are compared: a call of
`MineAndApply` is a goroutine that takes the turns of `exec` from `drain` on, while the rest of the
node does between its turns whatever it likes.

* `toNatBE_bigBytes`: the difficulty of the header decodes to the target;
* `Searching`: what the goroutine holds before each attempt (`searching_mining`);
* `mined_accepted`: the block that is returned passes `ValidateBlockHeader` for the head it was mined
  on, and the bytes that the miner has hashed are those of its header. -/

namespace Namecoin.Node.Mined

open Lib.Ops Lib.ByteStrings Types.Defs Types.TxCodec Types.BlockCodec Chain.Pow Chain.Defs
open Chain.Apply Service.Defs Service.Scenes Node.Mempool Node.Template Node.Miner Node.Custody

/-! ### The encoding of the target -/

theorem toNatBE_reverse_digits : ∀ {l : List ℕ}, (∀ d ∈ l, d < 256) →
    toNatBE ((l.map UInt8.ofNat).reverse) = Nat.ofDigits 256 l
  | [], _ => rfl
  | d :: l, h => by
    have hd : (UInt8.ofNat d).toNat = d := UInt8.toNat_ofNat_of_lt (h d List.mem_cons_self)
    have ih := toNatBE_reverse_digits fun x hx => h x (List.mem_cons_of_mem d hx)
    unfold toNatBE at ih ⊢
    rw [List.map_cons, List.reverse_cons, List.foldl_append, ih, List.foldl_cons, List.foldl_nil, hd,
      Nat.ofDigits_cons]
    exact Nat.add_comm _ _

theorem toNatBE_bigBytes (x : ℤ) : toNatBE (bigBytes x) = x.natAbs := by
  rw [bigBytes, toNatBE_reverse_digits fun d hd => Nat.digits_lt_base (by decide) hd, Nat.ofDigits_digits]

theorem decodeDifficulty_bigBytes {t : ℤ} (ht : 0 < t) :
    decodeDifficulty (some (bigBytes t)) = some t := by
  have hne : elems (some (bigBytes t)) ≠ [] := by
    intro h
    have h0 : toNatBE (bigBytes t) = 0 := by
      show toNatBE (elems (some (bigBytes t))) = 0
      rw [h]
      rfl
    rw [toNatBE_bigBytes] at h0
    omega
  rw [decodeDifficulty, if_neg hne]
  show some ((toNatBE (bigBytes t) : ℕ) : ℤ) = some t
  rw [toNatBE_bigBytes, Int.natAbs_of_nonneg ht.le]

theorem enforceDifficultyTarget_same {blk : Block} {t : ℤ}
    (h : decodeDifficulty blk.header.difficulty = some t) :
    enforceDifficultyTarget blk (some t) = .ok (some t) := by
  simp only [enforceDifficultyTarget, h, lt_irrefl, if_false]

/-! ### The block around a header -/

variable {E : Env} {cfg : MinerConfig} {stop : ℕ} {base hdr : BlockHeader} {t : ℤ}
  {w w' : Work} {block : Block} {now : Int64} {order : MapOrder} {n n' : Peer} {drained : Drained}
  {nonce : UInt64} {pending : List Tx} {miner : String}

theorem assembleBlock_ok_iff : assembleBlock E hdr pending miner = .ok block ↔ ∃ root,
    computeTxRoot E (blockReward hdr.height miner :: pending) = .ok root ∧
      block = ⟨{ hdr with txRoot := some root }, blockReward hdr.height miner :: pending,
        some (E.sha256 (serializeHeader E { hdr with txRoot := some root }))⟩ := by
  unfold assembleBlock
  rw [except_bind_ok_iff]
  refine exists_congr fun root => and_congr_right fun _ => ?_
  constructor
  · intro h
    cases h
    rfl
  · rintro rfl
    rfl

theorem header_assembleBlock (h : assembleBlock E base pending miner = .ok block) {block' : Block}
    (h' : assembleBlock E hdr pending miner = .ok block') (hheight : hdr.height = block.header.height)
    (htxs : hdr.txRoot = block.header.txRoot) : block'.header = hdr := by
  obtain ⟨root, hroot, rfl⟩ := assembleBlock_ok_iff.mp h
  obtain ⟨root', hroot', rfl⟩ := assembleBlock_ok_iff.mp h'
  rw [hheight] at hroot'
  cases hroot.symm.trans hroot'
  exact congrArg (fun r => { hdr with txRoot := r }) htxs.symm

/-! ### A call of `MineAndApply` -/

/-- The header `MinerDoWork` builds on a head. -/
def baseHeader (headHash : Slice UInt8) (headHeight : UInt64) (miner : String) (now : Int64) :
    BlockHeader :=
  ⟨if headHash = none then 0 else headHeight + 1, headHash, none, now, 0, miner, none⟩

/-- Where the goroutine can be in a call of `MineAndApply`. The turns are made at any times, and the
node may have changed in any way between two of them. -/
inductive Mining (E : Env) (cfg : MinerConfig) (stop : ℕ) (base : BlockHeader) (t : ℤ) : Work → Prop
  | call : Mining E cfg stop base t (.drain stop base t)
  | turn {now : Int64} {order : MapOrder} {n n' : Peer} {w w' : Work} : Mining E cfg stop base t w →
    exec E cfg now order n w = goOn n' [w'] → Mining E cfg stop base t w'

/-- `MineAndApply` returns the block without an error, after `MineNonce` has hashed the bytes. -/
def MineAndApply (E : Env) (cfg : MinerConfig) (stop : ℕ) (base : BlockHeader) (t : ℤ) (block : Block)
    (bytes : Bytes) : Prop :=
  ∃ now order n n' w, Mining E cfg stop base t w ∧ exec E cfg now order n w =
    goOn n' [.mined stop block bytes]

/-- The goroutine has not drained the buffer yet, or it looks for a nonce for the header of a block
with what it has drained, or it has returned. -/
def Searching (E : Env) (cfg : MinerConfig) (stop : ℕ) (base : BlockHeader) (t : ℤ) : Work → Prop
  | .drain stop' base' t' => stop' = stop ∧ base' = base ∧ t' = t
  | .attempt stop' hdr t' drained _ => stop' = stop ∧ t' = t ∧ ∃ block, block.header = hdr ∧
      assembleBlock E { base with difficulty := some (bigBytes t) } drained.pending cfg.pow.pubKey =
      .ok block
  | .mined _ _ _ => True
  | .append _ _ => True
  | .finish => True
  | _ => False

theorem goOn_inj {next next' : List Work} (h : goOn n next = goOn n' next') : n = n' ∧ next = next' := by
  cases h
  exact ⟨rfl, rfl⟩

/-- A turn of `MineNonce` that goes on: another nonce, or a block. -/
theorem mineNonce_goOn (h : mineNonce E cfg now n stop hdr t drained nonce = goOn n' [w']) :
    w' = .attempt stop hdr t drained (nonce + 1) ∨
    ∃ block, w' = .mined stop block (buildHeader E hdr nonce now) ∧
      (toNatBE (E.sha256 (buildHeader E hdr nonce now)) : ℤ) ≤ t ∧
      assembleBlock E { hdr with timestamp := now, nonce := nonce } drained.pending cfg.pow.pubKey =
        .ok block ∧
      isBlockComplexityValid E block (some (toNatBE (elems hdr.difficulty))) := by
  unfold mineNonce at h
  dsimp only at h
  split_ifs at h with _ hwork
  · cases (goOn_inj h).2
  · cases ha : assembleBlock E { hdr with timestamp := now, nonce := nonce } drained.pending
        cfg.pow.pubKey with
    | error err =>
      rw [ha] at h
      cases h
    | ok block =>
      rw [ha] at h
      dsimp only at h
      split_ifs at h with hval
      · cases (goOn_inj h).2
        exact .inr ⟨block, rfl, hwork, rfl, hval⟩
      · cases (goOn_inj h).2
  · cases (goOn_inj h).2
    exact .inl rfl

theorem drain_goOn (h : exec E cfg now order n (.drain stop base t) = goOn n' [w']) : ∃ block,
    w' = .attempt stop block.header t n.ledger.txBuffer.drain.1 0 ∧ assembleBlock E
      { base with difficulty := some (bigBytes t) } n.ledger.txBuffer.drain.1.pending cfg.pow.pubKey =
        .ok block := by
  cases ha : assembleBlock E { base with difficulty := some (bigBytes t) }
    n.ledger.txBuffer.drain.1.pending cfg.pow.pubKey with
  | error err =>
    rw [exec] at h
    dsimp only at h
    rw [ha] at h
    cases h
  | ok block =>
    rw [exec_drain ha] at h
    cases (goOn_inj h).2
    exact ⟨block, rfl, rfl⟩

theorem Searching.turn (h : Searching E cfg stop base t w)
    (hexec : exec E cfg now order n w = goOn n' [w']) :
    Searching E cfg stop base t w' := by
  cases w with
  | drain stop' base' t' =>
    obtain ⟨rfl, rfl, rfl⟩ := h
    obtain ⟨block, rfl, hblock⟩ := drain_goOn hexec
    exact ⟨rfl, rfl, block, rfl, hblock⟩
  | attempt stop' hdr t' drained nonce =>
    rcases mineNonce_goOn hexec with rfl | ⟨block, rfl, -⟩
    · exact h
    · exact True.intro
  | mined stop' block hashed =>
    have hnext := (goOn_inj hexec).2
    split_ifs at hnext <;> cases hnext <;> exact True.intro
  | append stop' block =>
    have hnext := (goOn_inj hexec).2
    split at hnext <;> cases hnext
  | finish => cases (goOn_inj hexec).2
  | _ => exact h.elim

theorem searching_mining (h : Mining E cfg stop base t w) : Searching E cfg stop base t w := by
  induction h with
  | call => exact ⟨rfl, rfl, rfl⟩
  | turn _ hexec ih => exact ih.turn hexec

/-! ### The validator -/

theorem exec_mined {bytes : Bytes} (h : Searching E cfg stop base t w)
    (hexec : exec E cfg now order n w = goOn n' [.mined stop block bytes]) :
    ∃ hdr drained nonce, w = .attempt stop hdr t drained nonce := by
  cases w with
  | attempt stop' hdr t' drained nonce =>
    obtain ⟨rfl, rfl, -⟩ := h
    exact ⟨hdr, drained, nonce, rfl⟩
  | drain stop' base' t' =>
    obtain ⟨block', hw, -⟩ := drain_goOn hexec
    cases hw
  | mined stop' block' hashed =>
    have hnext := (goOn_inj hexec).2
    split_ifs at hnext <;> cases hnext
  | append stop' block' =>
    have hnext := (goOn_inj hexec).2
    split at hnext <;> cases hnext
  | finish => cases (goOn_inj hexec).2
  | _ => exact h.elim

theorem mined_spec {bytes : Bytes} (h : MineAndApply E cfg stop base t block bytes) :
    ∃ pending first now nonce, assembleBlock E { base with difficulty := some (bigBytes t) } pending
      cfg.pow.pubKey = .ok first ∧
      assembleBlock E { first.header with timestamp := now, nonce := nonce } pending cfg.pow.pubKey =
      .ok block ∧ block.header = { first.header with timestamp := now, nonce := nonce } ∧
      bytes = serializeHeader E block.header ∧ (toNatBE (E.sha256 bytes) : ℤ) ≤ t ∧
      isBlockComplexityValid E block (some (toNatBE (bigBytes t))) := by
  obtain ⟨now, order, n, n', w, hm, hexec⟩ := h
  have hsearch := searching_mining hm
  obtain ⟨hdr, drained, nonce, rfl⟩ := exec_mined hsearch hexec
  obtain ⟨-, -, first, rfl, hfirst⟩ := hsearch
  rcases mineNonce_goOn hexec with hw | ⟨block', hw, hwork, hblock, hval⟩
  · cases hw
  · cases hw
    have hheader := header_assembleBlock hfirst hblock rfl rfl
    have hdiff : elems first.header.difficulty = bigBytes t := by
      obtain ⟨root, -, rfl⟩ := assembleBlock_ok_iff.mp hfirst
      rfl
    rw [hdiff] at hval
    refine ⟨drained.pending, first, now, nonce, hfirst, hblock, hheader, ?_, hwork, hval⟩
    rw [hheader]
    rfl

/-- **A mined block passes the checks of the chain.** If `MineAndApply` is given the header for a head
and a positive target and returns a block, the validator accepts the block for that head and target.
The bytes that the miner has hashed are those of the header of the block and their hash meets the
target, the root is the one of the transactions, and the difficulty is the target. -/
theorem mined_accepted {headHash : Slice UInt8} {headHeight : UInt64} {bytes : Bytes} (ht : 0 < t)
    (h : MineAndApply E cfg stop (baseHeader headHash headHeight miner now) t block bytes) :
    validateBlockHeader E headHeight headHash block (some t) = .ok () ∧
      bytes = serializeHeader E block.header ∧ (toNatBE (E.sha256 bytes) : ℤ) ≤ t ∧
      computeTxRoot E block.transactions = .ok (elems block.header.txRoot) ∧
      decodeDifficulty block.header.difficulty = some t := by
  obtain ⟨pending, first, now', nonce, hfirst, hblock, hheader, hbytes, hwork, hval⟩ := mined_spec h
  obtain ⟨root, -, rfl⟩ := assembleBlock_ok_iff.mp hfirst
  obtain ⟨root', hroot', rfl⟩ := assembleBlock_ok_iff.mp hblock
  have hdecode := decodeDifficulty_bigBytes ht
  rw [toNatBE_bigBytes, Int.natAbs_of_nonneg ht.le] at hval
  refine ⟨validateBlockHeader_ok_iff.mpr ⟨.inr rfl, ?_, hroot', some t, ?_, if_pos hval⟩,
    hbytes, hwork, hroot', hdecode⟩
  · rw [ensureNextBlockFollows_ok_iff]
    cases headHash with
    | none => exact ⟨rfl, rfl⟩
    | some b =>
      rw [if_neg (by simp)]
      exact ⟨rfl, rfl⟩
  · exact enforceDifficultyTarget_same hdecode

/-- The first block of a chain, with one transaction. -/
theorem mined_accepted_lucky : (0 : ℤ) < 1 ∧
    MineAndApply luckyEnv (sampleConfig 1) 0 (baseHeader none 0 "" 0) 1 luckyBlock
      (serializeHeader luckyEnv luckyHeader) ∧
    validateBlockHeader luckyEnv 0 none luckyBlock (some 1) = .ok () := by
  have hblk : assembleBlock luckyEnv ⟨0, none, none, 0, 0, "", some (bigBytes 1)⟩
      (takenOne markedTx markedTx.txID).pending "" = .ok luckyBlock := by
    rw [takenOne_eq]
    exact assembleBlock_lucky rfl
  have hdrain : exec luckyEnv (sampleConfig 1) 0 numbered (admittedOne luckyEnv 1 markedTx markedTx.txID)
      (.drain 0 (baseHeader none 0 "" 0) 1) = _ := exec_drain hblk
  have hmined : MineAndApply luckyEnv (sampleConfig 1) 0 (baseHeader none 0 "" 0) 1 luckyBlock
      (serializeHeader luckyEnv luckyHeader) :=
    ⟨0, numbered, _, _, _, .turn .call hdrain, exec_lucky⟩
  exact ⟨by decide, hmined, (mined_accepted (by decide) hmined).1⟩

end Namecoin.Node.Mined
