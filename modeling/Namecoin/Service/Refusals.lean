import Namecoin.Service.Views

/-! # What a failed call leaves behind

A call that reports an error may have changed the service: a block of height 0 leaves a new chain
without blocks, a block on an inner block leaves a fork, and an error may come from a block that was
waiting for the one of the call.

* `Grows`: turns never remove a chain or lower a head;
* `failed_call_iff`: **a failed call leaves the service as it was** exactly if the block is `Refused`:
  it is not known, no chain is made for it, and the chain of its parent rejects it. -/

namespace Namecoin.Service.Refusals

open Lib.WorkList Types.Defs Types.BlockCodec Chain.Stores Chain.Defs Service.Defs Service.Turns
open Service.Branches Service.Views

variable {E : Env} {visit : Finset ℕ → List ℕ} {s s₁ : ChainService} {index : ℤ} {blk : Block}

/-! ### Chains only grow -/

/-- The head of `c'` is not below that of `c`. -/
def Above (c' c : NamecoinChain) : Prop :=
  (c.headHash ≠ none → c'.headHash ≠ none) ∧ c.headHeight ≤ c'.headHeight

theorem Above.refl (c : NamecoinChain) : Above c c := ⟨id, UInt64.le_refl _⟩

theorem Above.trans {a b c : NamecoinChain} (h₁ : Above a b) (h₂ : Above b c) : Above a c :=
  ⟨h₁.1 ∘ h₂.1, UInt64.le_trans h₂.2 h₁.2⟩

/-- Every chain of `s` is one of `s'`, under the same number and with a head that is not lower. -/
def Grows (s s' : ChainService) : Prop :=
  ∀ (i : ℕ) (c : NamecoinChain), s.chains[i]? = some c → ∃ c', s'.chains[i]? = some c' ∧ Above c' c

theorem Grows.refl (s : ChainService) : Grows s s := fun _ c h => ⟨c, h, .refl c⟩

theorem Grows.trans {s₂ : ChainService} (h₁ : Grows s s₁) (h₂ : Grows s₁ s₂) : Grows s s₂ :=
  fun i c hc => by
  obtain ⟨c', hc', h⟩ := h₁ i c hc
  obtain ⟨c'', hc'', h'⟩ := h₂ i c' hc'
  exact ⟨c'', hc'', h'.trans h⟩

theorem Grows.length_le {s' : ChainService} (h : Grows s s') : s.chains.length ≤ s'.chains.length := by
  by_contra hlt
  rw [not_le] at hlt
  obtain ⟨c', hc', -⟩ := h _ _ (List.getElem?_eq_getElem hlt)
  rw [List.getElem?_eq_none le_rfl] at hc'
  cases hc'

theorem grows_origin {c : NamecoinChain} {i : ℕ} (ho : Origin E visit s index blk s₁ c i) :
    Grows s s₁ := by
  intro j d hd
  refine ⟨d, ?_, .refl d⟩
  rcases ho.chains with heq | heq
  · rw [heq]
    exact hd
  · rw [heq, List.getElem?_append_left (List.getElem?_eq_some_iff.mp hd).1]
    exact hd

theorem grows_attach {c c' : NamecoinChain} {i : ℕ} {S : Heap} (ho : Origin E visit s index blk s₁ c i)
    (ha : c.applyBlock E s₁.stores blk = .ok (S, c')) (hc : Sane c) :
    Grows s₁ (attach s₁ S c' i (settleHash E blk)) ∧
      ∃ d, (attach s₁ S c' i (settleHash E blk)).chains[i]? = some d ∧ ¬ Above c d := by
  obtain ⟨hhash, -, hgrown, -⟩ := grown ho hc ha
  obtain ⟨store, hchains⟩ := chains_attach S c' (settleHash E blk) ho.lt_length
  have hsome : c'.headHash ≠ none := by rw [hhash]; exact Option.some_ne_none _
  have habove : Above { c' with store := store } c := by
    refine ⟨fun _ => hsome, ?_⟩
    rcases hgrown with hnone | hlt
    · rw [hc.2 hnone]
      exact UInt64.zero_le
    · exact UInt64.le_of_lt hlt
  refine ⟨fun j d hd => ?_, { c' with store := store }, ?_, fun h => ?_⟩
  · rw [hchains, List.getElem?_set]
    by_cases hij : i = j
    · subst hij
      obtain rfl : c = d := Option.some.inj (ho.getElem?.symm.trans hd)
      rw [if_pos rfl, if_pos ho.lt_length]
      exact ⟨_, rfl, habove⟩
    · rw [if_neg hij]
      exact ⟨d, hd, .refl d⟩
  · rw [hchains, List.getElem?_set_self ho.lt_length]
  · rcases hgrown with hnone | hlt
    · exact h.1 hsome hnone
    · exact absurd hlt (UInt64.not_lt.mpr h.2)

theorem grows_turn {o : Outcome ChainService Block Err} (ht : Turn E visit index s blk o)
    (hs : AllReplayed E s) :
    Grows s o.state :=
  ht.invariant (I := Grows s) (fun _ _ h => h) (fun _ _ _ ho => grows_origin ho)
    (fun s₁ c _ _ _ ho ha => by
      obtain ⟨blks, hb⟩ := replayed_origin ho hs c (List.mem_of_getElem? ho.getElem?)
      exact (grows_origin ho).trans (grows_attach ho ha (sane_of_replayed hb)).1) (.refl s)

theorem grows_drain {order : MapOrder} (n : ℕ) (jobs : List Block) (hs : AllReplayed E s) :
    Grows s ((pendingWorker E order index).drain n s jobs).1 := by
  have hinv := (Along.trivial (w := pendingWorker E order index) n s jobs).invariant
    (I := fun s' _ => AllReplayed E s' ∧ Grows s s') (fun n s' a _ _ h => ?_) ⟨hs, .refl s⟩
  · exact hinv.2
  · have ht := processSingleBlock_turn E (order.visit n) index s' a
    exact ⟨replayed_turn ht h.1, h.2.trans (grows_turn ht h.1)⟩

/-! ### Failed turns -/

theorem turn_failed {o : Outcome ChainService Block Err} (h : Turn E visit index s blk o)
    (hf : o.failure ≠ none) :
    waitingCount o.state + o.jobs.length ≤ waitingCount s := by
  cases h with
  | known => exact absurd rfl hf
  | unknownParent => exact absurd rfl hf
  | noFork => exact le_rfl
  | notNext => exact absurd rfl hf
  | invalid _ ho => exact (waitingCount_congr ho.orphansByPrev).le
  | attached => exact absurd rfl hf

/-- The chain that is there for the block: the first one without blocks for a block of height 0, and
otherwise the first one that has the parent as its head. -/
def chainFor (s : ChainService) (blk : Block) : Option (NamecoinChain × ℕ) :=
  if blk.header.height = 0 then firstChain s isEmpty else findHeadByHash s blk.header.prevHash

/-- A block that fails and leaves nothing: it is not known, the chain that is there for it rejects it,
and if there is none, none can be made. -/
structure Refused (E : Env) (visit : Finset ℕ → List ℕ) (s : ChainService) (blk : Block) : Prop where
  unknown : ¬ blockKnown s blk.hash blk.header.height
  rejected : ∀ c i, chainFor s blk = some (c, i) → ∀ r, c.applyBlock E s.stores blk ≠ .ok r
  genesis : blk.header.height = 0 → chainFor s blk ≠ none
  unforked : blk.header.height ≠ 0 → chainFor s blk = none → ∀ m base f,
    s.blockIndex.lookup (hashKeyHex blk.header.prevHash) = some m →
    pickBase s (visit m.chains) none = some base →
    base.forkUpToHeight E (newOverlayStore s.stores base.store).1 m.height s.stores.length ≠ .ok f

theorem origin_made {c : NamecoinChain} {i : ℕ} (ho : Origin E visit s index blk s₁ c i) :
    (s₁ = s ∧ chainFor s blk = some (c, i)) ∨
      (chainFor s blk = none ∧ s.chains.length < s₁.chains.length ∧ ¬ Refused E visit s blk) := by
  cases ho with
  | empty h0 hf => exact .inl ⟨rfl, (if_pos h0).trans hf⟩
  | fresh h0 hf =>
    refine .inr ⟨(if_pos h0).trans hf, ?_, fun h => h.genesis h0 ((if_pos h0).trans hf)⟩
    show _ < (s.chains ++ _).length
    simp
  | head h0 hp hf => exact .inl ⟨rfl, (if_neg h0).trans hf⟩
  | fork h0 hp hf hl hbase hok =>
    refine .inr ⟨(if_neg h0).trans hf, ?_, fun h => h.unforked h0 ((if_neg h0).trans hf) _
      _ _ hl hbase hok⟩
    unfold withFork
    rw [chains_indexChain]
    show _ < (s.chains ++ _).length
    simp

/-- An error that is not about the parent: no chain is there for the block, and none can be made. -/
theorem refused_of_noFork {e : Err} (hk : ¬ blockKnown s blk.hash blk.header.height)
    (he : ensureChainForParent E visit s index blk = .error e) (hne : e ≠ .unknownParent) :
    Refused E visit s blk := by
  have hno : ∀ s₁ c i, ¬ Origin E visit s index blk s₁ c i := fun s₁ c i ho => by
    rw [ensureChainForParent_ok_iff.mpr ho] at he
    cases he
  have hp : blk.header.height ≠ 0 → blk.header.prevHash ≠ none := fun h0 hp => by
    unfold ensureChainForParent at he
    rw [if_neg h0, if_pos hp] at he
    exact hne (Except.error.inj he).symm
  refine ⟨hk, fun c i hc => ?_, fun h0 hc => ?_, fun h0 hc m base f hl hbase hok => ?_⟩
  · unfold chainFor at hc
    split_ifs at hc with h0
    · exact absurd (.empty h0 hc) (hno s c i)
    · exact absurd (.head h0 (hp h0) hc) (hno s c i)
  · unfold chainFor at hc
    rw [if_pos h0] at hc
    unfold ensureChainForParent handleGenesis at he
    rw [if_pos h0, hc] at he
    dsimp only at he
    split_ifs at he
    · exact hne (Except.error.inj he).symm
    · split at he
      · exact hne (Except.error.inj he).symm
      · cases he
  · unfold chainFor at hc
    rw [if_neg h0] at hc
    exact hno _ _ _ (.fork h0 (hp h0) hc hl hbase hok)

/-! ### Failed calls -/

/-- **A call that reports an error** leaves the service as it was exactly if its block is refused. -/
theorem failed_call_iff {order : MapOrder} (hs : AllReplayed E s)
    (herr : (appendBlockToChain E order index s blk).2.2 ≠ none) :
    (appendBlockToChain E order index s blk).1 = s ↔ Refused E (order.visit 0) s blk := by
  have hloop : (appendBlockToChain E order index s blk).1 = ((pendingWorker E order index).drain 1
      (processSingleBlock E (order.visit 0) index s blk).state
      (processSingleBlock E (order.visit 0) index s blk).jobs).1 := by
    show ((pendingWorker E order index).drain 0 s [blk]).1 = _
    rw [drain_cons, List.nil_append]
    rfl
  have herr' : (processSingleBlock E (order.visit 0) index s blk).failure.or
    ((pendingWorker E order index).drain 1 (processSingleBlock E (order.visit 0) index s blk).state
      (processSingleBlock E (order.visit 0) index s blk).jobs).2 ≠ none := by
    have hcons : (appendBlockToChain E order index s blk).2.2 =
      ((pendingWorker E order index).drain 0 s [blk]).2 := rfl
    rw [hcons, drain_cons, List.nil_append] at herr
    exact herr
  rw [hloop]
  have ht := processSingleBlock_turn E (order.visit 0) index s blk
  have hlost := drain_lost (w := pendingWorker E order index)
    (fun n s a hf => turn_failed (processSingleBlock_turn E (order.visit n) index s a) hf) 1
  have hgrows : ∀ jobs, Grows _ ((pendingWorker E order index).drain 1 _ jobs).1 :=
    fun jobs => grows_drain 1 jobs (replayed_turn ht hs)
  generalize processSingleBlock E (order.visit 0) index s blk = o at ht herr' hlost hgrows ⊢
  cases ht with
  | known hk =>
    -- the error is that of a child, which no longer waits
    refine iff_of_false (fun heq => ?_) fun h => h.unknown hk
    have hlt := hlost _ _ herr'
    rw [heq] at hlt
    exact absurd hlt (waitingCount_popWaitingChildren s blk.hash).le.not_gt
  | unknownParent =>
    rw [drain_nil] at herr'
    exact absurd rfl herr'
  | noFork hk he hne =>
    rw [drain_nil]
    exact iff_of_true rfl (refused_of_noFork hk he hne)
  | notNext =>
    rw [drain_nil] at herr'
    exact absurd rfl herr'
  | invalid hk ho hbad =>
    rw [drain_nil]
    rcases origin_made ho with ⟨rfl, hc⟩ | ⟨-, hlt, hnot⟩
    · refine iff_of_true rfl ⟨hk, fun c' i' hc' r hr => ?_, fun _ hn => ?_, fun _ hn => ?_⟩
      · rw [hc] at hc'
        cases hc'
        rw [hbad] at hr
        cases hr
      · rw [hc] at hn
        cases hn
      · rw [hc] at hn
        cases hn
    · refine iff_of_false (fun heq => ?_) hnot
      have hlen := congrArg (fun s => s.chains.length) heq
      exact hlt.ne' hlen
  | @attached s₁ c c' i S hk ho ha =>
    obtain ⟨blks, hb⟩ := replayed_origin ho hs c (List.mem_of_getElem? ho.getElem?)
    obtain ⟨hatt, d, hd, hnot⟩ := grows_attach ho ha (sane_of_replayed hb)
    obtain ⟨pool, hpop⟩ := popWaitingChildren_eq (attach s₁ S c' i (settleHash E blk))
      (settleHash E blk).hash
    have hrest := hgrows (popWaitingChildren (attach s₁ S c' i (settleHash E blk))
      (settleHash E blk).hash).2
    have hsame : (popWaitingChildren (attach s₁ S c' i (settleHash E blk))
      (settleHash E blk).hash).1.chains = (attach s₁ S c' i (settleHash E blk)).chains := by rw [hpop]
    obtain ⟨d', hd', habove⟩ := hrest i d (by rw [hsame]; exact hd)
    rcases origin_made ho with ⟨rfl, hc⟩ | ⟨-, hlt, hnot'⟩
    · refine iff_of_false (fun heq => ?_) fun h => h.rejected c i hc _ ha
      rw [heq, ho.getElem?] at hd'
      cases hd'
      exact hnot habove
    · refine iff_of_false (fun heq => ?_) hnot'
      have hlen := hrest.length_le
      rw [heq, hsame] at hlen
      exact absurd (hlt.trans_le hatt.length_le) hlen.not_gt

end Namecoin.Service.Refusals
