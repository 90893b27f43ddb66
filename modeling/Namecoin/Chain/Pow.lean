import Namecoin.Types.BlockCodec

/-! # Proof of work

`namecoin_pow.go` and the parameters of `namecoin_chain.go` and `peer/pow_config.go`. A target is a
`*big.Int`, so an integer or nil; the factors of the configuration are the rationals their
`float64` values stand for. -/

namespace Namecoin.Chain.Pow

open Lib.ByteStrings Types.Defs Types.BlockCodec

/-- The fields of `peer.PoWConfig` that the chain and the miner read. -/
structure PoWConfig where
  target : Option ℤ
  disableDifficultyAdjustment : Bool
  targetBlockTime : Int64
  maxAdjustUp : ℚ
  maxAdjustDown : ℚ
  pubKey : String

structure PowParams where
  targetBlockTime : Int64
  maxAdjustUp : ℚ
  maxAdjustDown : ℚ
  dynamic : Bool

/-- `time.Second`, in nanoseconds. -/
def second : Int64 := 1000000000

def defaultTarget : ℤ := 2 ^ 240

def defaultTargetBlockTime : Int64 := 10 * second

def defaultMaxAdjustUp : ℚ := 4

/-- `defaultMaxAdjustDown`: the `float64` nearest to 0.1. -/
def defaultMaxAdjustDown : ℚ := 3602879701896397 / 36028797018963968

def powParamsFromConfig (cfg : PoWConfig) : PowParams where
  targetBlockTime := if cfg.targetBlockTime ≤ 0 then defaultTargetBlockTime else cfg.targetBlockTime
  maxAdjustUp := if cfg.maxAdjustUp ≤ 0 then defaultMaxAdjustUp else cfg.maxAdjustUp
  maxAdjustDown := if cfg.maxAdjustDown ≤ 0 then defaultMaxAdjustDown else cfg.maxAdjustDown
  dynamic := !cfg.disableDifficultyAdjustment

/-- The configuration `peer.PoWConfig{}`. -/
def zeroPoWConfig : PoWConfig := ⟨none, false, 0, 0, 0, ""⟩

def effectiveTarget (normal : Option ℤ) : ℤ := normal.getD defaultTarget

def decodeDifficulty (b : Slice UInt8) : Option ℤ :=
  if elems b = [] then none else some (toNatBE (elems b))

def adjustDifficulty (E : Env) (prevTarget : Option ℤ) (spacing targetBlockTime : Int64)
    (maxAdjustUp maxAdjustDown : ℚ) : ℤ :=
  let prevTarget := prevTarget.getD defaultTarget
  let targetBlockTime := if targetBlockTime ≤ 0 then defaultTargetBlockTime else targetBlockTime
  let maxAdjustUp := if maxAdjustUp ≤ 0 then defaultMaxAdjustUp else maxAdjustUp
  let maxAdjustDown := if maxAdjustDown ≤ 0 then defaultMaxAdjustDown else maxAdjustDown
  let spacing := if spacing ≤ 0 then second else spacing
  let ratioNum := E.floatRatio spacing targetBlockTime
  let ratio := if ratioNum < maxAdjustDown then maxAdjustDown
    else if maxAdjustUp < ratioNum then maxAdjustUp else ratioNum
  let num : ℚ := prevTarget * ratio
  let out := num.num / num.den
  if out = 0 then 1 else out

/-- The target after a block: the target of the block, adjusted by the time since the block before unless
adjustment is off or there is no time to compare with. -/
def nextTarget (E : Env) (params : PowParams) (blkTarget : Option ℤ) (prevTS ts : Int64) : Option ℤ :=
  if params.dynamic = true ∧ prevTS ≠ 0 then
    some (adjustDifficulty E blkTarget ((ts - prevTS) * second) params.targetBlockTime params.maxAdjustUp
      params.maxAdjustDown)
  else blkTarget

theorem nextTarget_ne_none {E : Env} {params : PowParams} {t : Option ℤ} {prevTS ts : Int64}
    (h : t ≠ none) :
    nextTarget E params t prevTS ts ≠ none := by
  unfold nextTarget
  split_ifs
  · exact Option.some_ne_none _
  · exact h

def isBlockComplexityValid (E : Env) (blk : Block) (target : Option ℤ) : Prop :=
  (toNatBE (computeHash E blk) : ℤ) ≤ effectiveTarget target

instance (E : Env) (blk : Block) (target : Option ℤ) :
    Decidable (isBlockComplexityValid E blk target) := by
  unfold isBlockComplexityValid; infer_instance

/-- `enforceDifficultyTarget`: a block may claim the target of the chain or a harder one. -/
def enforceDifficultyTarget (blk : Block) (chainTarget : Option ℤ) : Except Err (Option ℤ) :=
  match decodeDifficulty blk.header.difficulty, chainTarget with
  | none, _ => .ok chainTarget
  | some blkTarget, none => .ok (some blkTarget)
  | some blkTarget, some target =>
    if target < blkTarget then .error (.msg "block difficulty easier than expected")
      else .ok (some blkTarget)

def validateWorkForTarget (E : Env) (blk : Block) (target : Option ℤ) : Except Err Unit :=
  if isBlockComplexityValid E blk target then .ok () else .error (.msg "block hash above target")

end Namecoin.Chain.Pow
