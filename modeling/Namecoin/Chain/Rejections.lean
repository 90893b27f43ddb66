import Namecoin.Chain.Apply
import Namecoin.State.Failures

/-! # How a block is rejected

* `applyBlock_follow_iff`: `ApplyBlock` fails with a `ChainFollowError` exactly if the `Hash` of the
  block fits and the block is not the next one of the chain;
* `applyBlock_bad_root`: the next block with another transaction root is rejected with an
  error of another kind. -/

namespace Namecoin.Chain.Rejections

open Lib.Ops Lib.ByteStrings Types.Defs Types.TxCodec Types.BlockCodec State.Strict State.Failures
open Chain.Pow Chain.Stores Chain.Defs Chain.Apply

variable {E : Env} {S : Heap} {c : NamecoinChain} {blk : Block}

/-! ### Errors of the parts -/

theorem marshal_errors {P : Err → Prop} (hP : Plain P) (b : Block) : Errors P (marshal E b) := by
  have htexts : ∀ txs : List Tx, Errors P (txTexts txs) := by
    intro txs
    induction txs with
    | nil => exact .ok _
    | cons tx rest ih =>
      refine Errors.bind ?_ fun _ => Errors.bind ih fun _ => .ok _
      cases tx.payload with
      | nil => exact .ok _
      | invalid => exact .error (hP.msg _)
      | text t => exact .ok _
  exact Errors.bind (htexts _) fun _ => .ok _

theorem validateBlockHeader_errors {height : UInt64} {hash : Slice UInt8} {target : Option ℤ}
    {P : Err → Prop} (hP : Plain P) (hnext : Errors P (ensureNextBlockFollows height hash blk)) :
    Errors P (validateBlockHeader E height hash blk target) := by
  refine Errors.bind (.failIf (hP.msg _)) fun _ => ?_
  refine Errors.bind hnext fun _ => Errors.bind ?_ fun _ => Errors.bind (.failIf (hP.msg _)) fun _ => ?_
  · exact (computeTxRoot_errors hP _).mapError (hP.wrap _)
  · refine Errors.bind ?_ fun t => ?_
    · unfold enforceDifficultyTarget
      split
      · exact .ok _
      · exact .ok _
      · split_ifs
        · exact .error (hP.msg _)
        · exact .ok _
    · unfold validateWorkForTarget
      split_ifs
      · exact .ok _
      · exact .error (hP.msg _)

theorem applyBlock_errors (hh : HeadOK c.headHash)
    (hnext : ensureNextBlockFollows c.headHeight c.headHash blk = .ok ()) :
    Errors NotFollow (c.applyBlock E S blk) := by
  have hsettled : ensureNextBlockFollows c.headHeight c.headHash (settleHash E blk) = .ok () :=
    (ensureNextBlockFollows_settleHash _ _ blk).trans hnext
  unfold NamecoinChain.applyBlock
  dsimp only
  rw [show cloneBytes c.headHash = c.headHash from hh]
  have hplain := plain_notFollow
  refine Errors.bind ?_ fun _ => Errors.bind (marshal_errors hplain _) fun _ =>
    Errors.bind (validateBlockHeader_errors hplain (hsettled ▸ .ok _)) fun _ => .ok _
  refine Errors.bind (validateBlockHeader_errors hplain (hnext ▸ .ok _)) fun _ => ?_
  cases hr : applyBlockStrict E blk c.state with
  | ok u st => exact .ok _
  | error e st => exact .error (applyBlockStrict_fails hplain (notFollow_panic _) blk _ _ _ hr)

theorem applyBlock_of_header_error (hh : HeadOK c.headHash) {e : Err}
    (h : validateBlockHeader E c.headHeight c.headHash blk c.powTarget = .error e) :
    c.applyBlock E S blk = .error e := by
  have hv : validateBlock E c.headHeight (cloneBytes c.headHash) blk c.powTarget c.state = .error e := by
    unfold validateBlock
    rw [show cloneBytes c.headHash = c.headHash from hh, h]
    rfl
  unfold NamecoinChain.applyBlock
  dsimp only
  rw [hv]
  rfl

theorem validateBlockHeader_of_follow_error {height : UInt64} {hash : Slice UInt8}
    {target : Option ℤ} {e : Err} (hfit : hashFits E blk)
    (h : ensureNextBlockFollows height hash blk = .error e) :
    validateBlockHeader E height hash blk target = .error e := by
  unfold validateBlockHeader
  rw [h, failIf, if_neg (not_not.mpr hfit)]
  rfl

/-! ### Rejected blocks -/

/-- **A wrong `Hash`.** -/
theorem applyBlock_bad_hash (hh : HeadOK c.headHash) (hfit : ¬ hashFits E blk) :
    c.applyBlock E S blk = .error (.msg "block hash mismatch: payload hash != computed header hash") := by
  refine applyBlock_of_header_error hh ?_
  unfold validateBlockHeader
  rw [failIf, if_pos hfit]
  rfl

/-- **`ChainFollowError`**: the `Hash` fits, and the block is not the next one of the chain. -/
theorem applyBlock_follow_iff (hh : HeadOK c.headHash) {text : String} :
    c.applyBlock E S blk = .error (.chainFollow text) ↔ hashFits E blk ∧
      ensureNextBlockFollows c.headHeight c.headHash blk = .error (.chainFollow text) := by
  constructor
  · intro h
    have hfit : hashFits E blk := by
      by_contra hfit
      rw [applyBlock_bad_hash hh hfit] at h
      cases h
    refine ⟨hfit, ?_⟩
    cases hnext : ensureNextBlockFollows c.headHeight c.headHash blk with
    | ok u => exact absurd rfl (applyBlock_errors hh hnext _ h text)
    | error e =>
      have heq := applyBlock_of_header_error (S := S) hh (validateBlockHeader_of_follow_error hfit hnext)
      rw [heq] at h
      exact congrArg _ (Except.error.inj h)
  · rintro ⟨hfit, h⟩
    exact applyBlock_of_header_error hh (validateBlockHeader_of_follow_error hfit h)

/-- **A wrong transaction root.** -/
theorem applyBlock_bad_root {root : Bytes} (hh : HeadOK c.headHash) (hfit : hashFits E blk)
    (hnext : ensureNextBlockFollows c.headHeight c.headHash blk = .ok ())
    (hroot : computeTxRoot E blk.transactions = .ok root) (hne : elems blk.header.txRoot ≠ root) :
    c.applyBlock E S blk = .error (.msg "txRoot mismatch") := by
  refine applyBlock_of_header_error hh ?_
  unfold validateBlockHeader
  rw [hnext, hroot, failIf, if_neg (not_not.mpr hfit)]
  show (failIf (elems blk.header.txRoot ≠ root) (Err.msg "txRoot mismatch") >>= _) = _
  rw [failIf, if_pos hne]
  rfl

end Namecoin.Chain.Rejections
