import Namecoin.Chain.Rejections
import Namecoin.Chain.Restart
import Namecoin.Service.Steady

/-! # The canonical chain is the best one

Heads are compared by height, and heads of one height by their hash; no head is worse than any. A fork
has the head that its store shows at the height of the parent, which need not be the parent. So the
invariant is about what chains can read: nothing that a chain can read up to its height, and that could
be replayed, is better than the canonical head (`Ranked`).

* `canonical_best`: the canonical chain is the best one after every sequence of calls, and a call
  reports a change of the head exactly when the head has become better;
* `dirty_store`: on a chain without blocks whose store holds a first block this fails. -/

namespace Namecoin.Service.Choice

open Lib.Maps Lib.ByteStrings Lib.WorkList Types.Defs Types.BlockCodec Chain.Pow Chain.Stores
open Chain.Overlays Chain.Defs Chain.Apply Chain.Build Chain.Replay Chain.Reload Chain.Restart
open Types.SampleEnv Service.Defs Service.Turns Service.Scenes Chain.Forks Chain.Rejections
open Service.Views Service.Steady

variable {E : Env} {visit : Finset ℕ → List ℕ} {s : ChainService} {index : ℤ} {blk : Block}

/-! ### The order of heads -/

/-- A head of the given height and hash is not better than that of `c`. -/
def AtLeast (c : NamecoinChain) (height : UInt64) (hash : Bytes) : Prop :=
  c.headHash ≠ none ∧
    (height < c.headHeight ∨ (height = c.headHeight ∧ ¬ bytesLess hash (elems c.headHash)))

/-- The head of `a` is strictly better than that of `b`. -/
def Better (a b : NamecoinChain) : Prop :=
  a.headHash ≠ none ∧ (b.headHash = none ∨ b.headHeight < a.headHeight ∨
    (b.headHeight = a.headHeight ∧ bytesLess (elems a.headHash) (elems b.headHash)))

/-- The head of `a` is that of `b`, or a better one. -/
def Improves (a b : NamecoinChain) : Prop :=
  (a.headHash = b.headHash ∧ a.headHeight = b.headHeight) ∨ Better a b

theorem AtLeast.improve {a b : NamecoinChain} {height : UInt64} {hash : Bytes} (h : AtLeast b height hash)
    (hab : Improves a b) : AtLeast a height hash := by
  obtain ⟨hb, h⟩ := h
  rcases hab with ⟨hhash, hheight⟩ | ⟨ha, hnone | hlt | ⟨heq, hless⟩⟩
  · exact ⟨by rwa [hhash], by rwa [hhash, hheight]⟩
  · exact absurd hnone hb
  · refine ⟨ha, .inl ?_⟩
    rcases h with h | ⟨h, -⟩
    · exact UInt64.lt_trans h hlt
    · exact h ▸ hlt
  · refine ⟨ha, ?_⟩
    rw [← heq]
    exact h.imp id fun ⟨h, hn⟩ => ⟨h, fun hx => hn (bytesLess_trans hx hless)⟩

theorem Better.trans {a b c : NamecoinChain} (h₁ : Better a b) (h₂ : Better b c) : Better a c := by
  obtain ⟨ha, h₁⟩ := h₁
  obtain ⟨hb, h₂⟩ := h₂
  refine ⟨ha, ?_⟩
  rcases h₁ with h | h | ⟨h, hl⟩
  · exact absurd h hb
  · rcases h₂ with h' | h' | ⟨h', -⟩
    · exact .inl h'
    · exact .inr (.inl (UInt64.lt_trans h' h))
    · exact .inr (.inl (h' ▸ h))
  · rcases h₂ with h' | h' | ⟨h', hl'⟩
    · exact .inl h'
    · exact .inr (.inl (h ▸ h'))
    · exact .inr (.inr ⟨h'.trans h, bytesLess_trans hl hl'⟩)

theorem Improves.refl (a : NamecoinChain) : Improves a a := .inl ⟨rfl, rfl⟩

theorem Improves.trans {a b c : NamecoinChain} (h₁ : Improves a b) (h₂ : Improves b c) :
    Improves a c := by
  rcases h₁ with ⟨hh, hn⟩ | h₁
  · rcases h₂ with ⟨hh', hn'⟩ | h₂
    · exact .inl ⟨hh.trans hh', hn.trans hn'⟩
    · right
      unfold Better at h₂ ⊢
      rwa [hh, hn]
  · rcases h₂ with ⟨hh', hn'⟩ | h₂
    · right
      unfold Better at h₁ ⊢
      rwa [← hh', ← hn']
    · exact .inr (h₁.trans h₂)

/-! ### What can be read -/

/-- Data under the key of a height that, if it can be replayed, leads to no
better head than that of `c`. -/
def Fine (E : Env) (c : NamecoinChain) (height : UInt64) (data : Bytes) : Prop :=
  ∀ r hash r', (height = 0 → r = replayStart) → replayOne E r ⟨height, data⟩ = .ok (hash, r') →
    AtLeast c height hash

theorem Fine.improve {a b : NamecoinChain} {height : UInt64} {data : Bytes} (h : Fine E b height data)
    (hab : Improves a b) : Fine E a height data := fun r hash r' h0 hr => (h r hash r' h0 hr).improve hab

/-! ### The invariant -/

/-- The heads of all chains, and everything chains can read, are no better than the head of `l`. -/
structure Ranked (E : Env) (l : NamecoinChain) (s : ChainService) : Prop where
  readable : Readable (Fine E l) s
  best : ∀ c ∈ s.chains, ∀ x, c.headHash = some x → AtLeast l c.headHeight x

variable {l l' : NamecoinChain}

theorem Ranked.improve (h : Ranked E l s) (hl : Improves l' l) : Ranked E l' s :=
  ⟨h.readable.mono fun _ _ hf => hf.improve hl, fun c hc x hx => (h.best c hc x hx).improve hl⟩

theorem ranked_origin {s₁ : ChainService} {c : NamecoinChain} {i : ℕ}
    (ho : Origin E visit s index blk s₁ c i) (h : Ranked E l s) : Ranked E l s₁ := by
  have hnew : (∀ x, c.headHash = some x → AtLeast l c.headHeight x) → Ranked E l s₁ := fun hc => by
    refine ⟨readable_origin ho h.readable, fun d hd x hx => ?_⟩
    rcases ho.chains with heq | heq
    · exact h.best d (heq ▸ hd) x hx
    · rw [heq, List.mem_append, List.mem_singleton] at hd
      rcases hd with hd | rfl
      · exact h.best d hd x hx
      · exact hc x hx
  cases ho with
  | empty => exact h
  | head => exact h
  | fresh => exact hnew fun x hx => by cases hx
  | @fork m base _ _ _ _ _ hbase hf =>
    refine hnew fun x hx => ?_
    obtain ⟨hle, hheight, -⟩ := fork_run hf
    obtain ⟨data, r, he, h0, hr⟩ := fork_head hf hx
    rw [entry_newOverlayStore] at he
    rw [hheight]
    exact h.readable.views base (pickBase_mem hbase) m.height hle data he r x _ h0 hr

/-! ### A block is attached -/

theorem replayOne_data {data : Bytes} (hd : marshal E (settleHash E blk) = .ok data) {r r' : ReplayState}
    {hash : Bytes} (hr : replayOne E r ⟨blk.header.height, data⟩ = .ok (hash, r')) :
    hash = computeHash E blk := by
  obtain ⟨b, state, hdec, -, -, -, -, rfl, -⟩ := replayOne_ok_iff.mp hr
  have hstored := decodeLoadedBlock_stored hd
  rw [settleHash_header, hdec] at hstored
  cases hstored
  exact computeHash_settleHash blk

theorem better_of_not_keepsLongest {a b : NamecoinChain} (h : ¬ keepsLongest a b)
    (ha : a.headHash ≠ none) :
    Better a b := by
  unfold keepsLongest at h
  push Not at h
  obtain ⟨hle, heq⟩ := h
  refine ⟨ha, ?_⟩
  rcases UInt64.lt_or_eq_of_le (UInt64.not_lt.mp hle) with hlt | he
  · exact .inr (.inl hlt)
  · by_cases hb : b.headHash = none
    · exact .inl hb
    · exact .inr (.inr ⟨he, heq he.symm hb ha⟩)

/-- **A block that is attached** keeps the invariant, and the canonical head stays or gets better. -/
theorem ranked_attach {s₁ : ChainService} {c c' : NamecoinChain} {i : ℕ} {S : Heap}
    (ho : Origin E visit s index blk s₁ c i) (ha : c.applyBlock E s₁.stores blk = .ok (S, c'))
    (h : Ranked E (getLongestChain s₁) s₁) :
    Improves (getLongestChain (attach s₁ S c' i (settleHash E blk))) (getLongestChain s₁) ∧
      Ranked E (getLongestChain (attach s₁ S c' i (settleHash E blk)))
        (attach s₁ S c' i (settleHash E blk)) := by
  have hi := ho.getElem?
  obtain ⟨hhash, hheight, hless, -⟩ := grown ho (h.readable.heads c (List.mem_of_getElem? hi)) ha
  have hsome : c'.headHash ≠ none := by rw [hhash]; exact Option.some_ne_none _
  have hbetter : Better c' c := ⟨hsome, hless.imp id .inl⟩
  have hrival : Improves (rival s₁ i c') (getLongestChain s₁) := by
    unfold rival
    split_ifs with hlong
    · have heq : getLongestChain s₁ = c := getLongestChain_eq (hlong ▸ hi)
      rw [heq]
      exact .inr hbetter
    · exact .refl _
  -- it is enough that the new canonical head is no worse than the old one and than the block
  have hall : ∀ l', Improves l' (getLongestChain s₁) → AtLeast l' c'.headHeight (computeHash E blk) →
      Ranked E l' (attach s₁ S c' i (settleHash E blk)) := by
    intro l' himp hat
    have h' := h.improve himp
    refine ⟨readable_attach ho ha h'.readable fun data hd r hash r' _ hr => ?_, fun d hd x hx => ?_⟩
    · rw [replayOne_data hd hr, ← hheight]
      exact hat
    · obtain ⟨store, hchains⟩ := chains_attach S c' (settleHash E blk) ho.lt_length
      rw [hchains] at hd
      rcases List.mem_or_eq_of_mem_set hd with hd | rfl
      · exact h'.best d hd x hx
      · cases hhash.symm.trans hx
        exact hat
  rcases attach_cases S c' (settleHash E blk) ho.lt_length with ⟨hkeep, heq⟩ | ⟨hnot, hp⟩
  · have hlong : getLongestChain (attach s₁ S c' i (settleHash E blk)) = rival s₁ i c' := by
      rw [heq, getLongestChain_registerBlock, getLongestChain_setChain]
      rfl
    rw [hlong]
    refine ⟨hrival, hall _ hrival ?_⟩
    have hnone : (rival s₁ i c').headHash = none → (rival s₁ i c').headHeight = 0 := by
      unfold rival
      split_ifs
      · exact fun hn => absurd hn hsome
      · exact (h.readable.heads _ (List.mem_of_getElem? (getElem?_longest s₁))).2
    rcases hkeep with hlt | ⟨heq, hr, -, hless⟩
    · refine ⟨fun hn => ?_, .inl hlt⟩
      rw [hnone hn] at hlt
      exact UInt64.not_lt_zero hlt
    · rw [hhash] at hless
      exact ⟨hr, .inr ⟨heq, hless⟩⟩
  · obtain ⟨store, hstore⟩ := commitStore_snd S c'
    have himp : Improves (commitStore S c').2 (getLongestChain s₁) := by
      rw [hstore]
      exact Improves.trans (a := c') (.inr (better_of_not_keepsLongest hnot hsome)) hrival
    rw [hp.getLongestChain ho.lt_length]
    refine ⟨himp, hall _ himp ?_⟩
    rw [hstore]
    refine ⟨hsome, .inr ⟨rfl, ?_⟩⟩
    rw [hhash]
    exact bytesLess_irrefl _

/-- **A turn** keeps the invariant, and the canonical head stays or gets better. -/
theorem ranked_turn {o : Outcome ChainService Block Err} (ht : Turn E visit index s blk o)
    (h : Ranked E (getLongestChain s) s) :
    Ranked E (getLongestChain o.state) o.state ∧
    Improves (getLongestChain o.state) (getLongestChain s) := by
  refine ht.invariant (I := fun s' => Ranked E (getLongestChain s') s' ∧
    Improves (getLongestChain s') (getLongestChain s))
    (fun s' _ h' => ⟨⟨h'.1.readable.congr rfl rfl, h'.1.best⟩, h'.2⟩) (fun s₁ c i ho => ?_)
    (fun s₁ c i S c' ho ha => ?_) ⟨h, .refl _⟩
  · have hl := ho.getLongestChain
    rw [hl]
    exact ⟨ranked_origin ho h, .refl _⟩
  · have hl := ho.getLongestChain
    have h₁ : Ranked E (getLongestChain s₁) s₁ := by
      rw [hl]
      exact ranked_origin ho h
    obtain ⟨himp, hr⟩ := ranked_attach ho ha h₁
    exact ⟨hr, hl ▸ himp⟩

theorem ranked_call (order : MapOrder) (index : ℤ) (blk : Block) (h : Ranked E (getLongestChain s) s) :
    Ranked E (getLongestChain (appendBlockToChain E order index s blk).1)
      (appendBlockToChain E order index s blk).1 ∧
      Improves (getLongestChain (appendBlockToChain E order index s blk).1) (getLongestChain s) :=
  appendBlockToChain_invariant
    (I := fun s' => Ranked E (getLongestChain s') s' ∧ Improves (getLongestChain s') (getLongestChain s))
    (fun _ _ _ _ ht h' => ⟨(ranked_turn ht h'.1).1, (ranked_turn ht h'.1).2.trans h'.2⟩) ⟨h, .refl _⟩

/-! ### Calls -/

/-- A chain on the store `m` that holds, up to the height of the chain, nothing that could be
replayed to a better head. -/
structure Settled (E : Env) (m : Map String Bytes) (c : NamecoinChain) : Prop where
  store : c.store = 0
  head : Sane c
  stored : ∀ h ≤ c.headHeight, ∀ data, m.lookup (encodeNamecoinBlockKey h) = some data → Fine E c h data

theorem Settled.ranked {m : Map String Bytes} {c : NamecoinChain} (h : Settled E m c) :
    Ranked E (getLongestChain (newChainService E [.mem m] c)) (newChainService E [.mem m] c) := by
  have hl : getLongestChain (newChainService E [.mem m] c) = c := getLongestChain_indexChain _ _ _
  rw [hl]
  refine ⟨readable_new h.store h.head h.stored, fun d hd x hx => ?_⟩
  rw [newChainService, chains_indexChain, List.mem_singleton] at hd
  rw [hd] at hx ⊢
  refine ⟨by rw [hx]; exact Option.some_ne_none _, .inr ⟨rfl, ?_⟩⟩
  rw [hx]
  exact bytesLess_irrefl _

theorem settled_live {cfg : PoWConfig} {blks : List Block} {m : Map String Bytes} {c : NamecoinChain}
    (h : LiveRun E cfg blks [.mem m] c) : Settled E m c := by
  obtain ⟨m', heq, hm⟩ := h.holds
  cases heq
  rcases List.eq_nil_or_concat' blks with rfl | ⟨front, b, rfl⟩
  · refine ⟨hm.store, ⟨h.reached.headOK, fun _ => by rw [h.of_nil.2]; rfl⟩, fun k _ data hd => ?_⟩
    rcases hm.keys _ data hd with hlast | ⟨b, hb, -⟩
    · exact absurd hlast (encode_ne_last k)
    · cases hb
  · obtain ⟨hhash, hheight, -, hlast⟩ := hm.stamp b (by simp)
    refine ⟨hm.store, ⟨h.reached.headOK, fun hn => ?_⟩, fun k hk data hd r hash r' _ hr => ?_⟩
    · rw [hhash] at hn
      cases hn
    · refine ⟨by rw [hhash]; exact Option.some_ne_none _, ?_⟩
      rcases UInt64.lt_or_eq_of_le hk with hlt | rfl
      · exact .inl hlt
      · -- at the height of the head, the store holds the head
        right
        obtain ⟨d, hdata⟩ := hm.data b (by simp)
        rw [hheight, hlast, dataOf_eq hdata, Option.some.injEq] at hd
        rw [← hd, hheight] at hr
        refine ⟨rfl, ?_⟩
        rw [replayOne_data hdata hr, hhash]
        exact bytesLess_irrefl _

theorem changed_of_better {before after : NamecoinChain} (hok : HeadOK after.headHash)
    (h : Better after before) :
    before.headHeight ≠ after.headHeight ∨ ¬ bytesEqual (cloneBytes before.headHash) after.headHash := by
  obtain ⟨ha, hnone | hlt | ⟨-, hless⟩⟩ := h
  · right
    intro he
    refine ha ?_
    rw [hnone] at he
    rw [← hok]
    exact if_pos he.symm
  · exact .inl (UInt64.ne_of_lt hlt)
  · right
    intro he
    unfold bytesEqual at he
    rw [elems_cloneBytes] at he
    rw [he] at hless
    exact bytesLess_irrefl _ hless

/-- **The canonical chain is the best known one and never gets worse.** -/
theorem canonical_best {m : Map String Bytes} {c₀ : NamecoinChain} {calls : List Block}
    (h₀ : Settled E m c₀) (h : Calls E (newChainService E [.mem m] c₀) calls s) :
    (∀ c ∈ s.chains, ∀ x, c.headHash = some x → AtLeast (getLongestChain s) c.headHeight x) ∧
      ∀ order index blk, ((appendBlockToChain E order index s blk).2.1 = false ∧
          (getLongestChain (appendBlockToChain E order index s blk).1).headHash =
            (getLongestChain s).headHash ∧
          (getLongestChain (appendBlockToChain E order index s blk).1).headHeight =
            (getLongestChain s).headHeight) ∨
        ((appendBlockToChain E order index s blk).2.1 = true ∧
          Better (getLongestChain (appendBlockToChain E order index s blk).1) (getLongestChain s)) := by
  have hr : Ranked E (getLongestChain s) s := by
    refine h.invariant (I := fun s => Ranked E (getLongestChain s) s)
      (fun _ _ _ _ _ ht h' => ?_) h₀.ranked
    exact (ranked_turn ht h').1
  refine ⟨hr.best, fun order index blk => ?_⟩
  obtain ⟨hr', himp⟩ := ranked_call order index blk hr
  have hflag : (appendBlockToChain E order index s blk).2.1 =
      decide (canonicalChanged (cloneBytes (getLongestChain s).headHash) (getLongestChain s).headHeight
        (appendBlockToChain E order index s blk).1) := rfl
  rw [hflag]
  rcases himp with ⟨hhash, hheight⟩ | hbetter
  · left
    refine ⟨decide_eq_false ?_, hhash, hheight⟩
    rintro (hne | hne)
    · exact hne hheight.symm
    · refine hne ?_
      unfold bytesEqual
      rw [elems_cloneBytes, hhash]
  · right
    refine ⟨decide_eq_true ?_, hbetter⟩
    exact changed_of_better (hr'.readable.heads _ (List.mem_of_getElem? (getElem?_longest _))).1 hbetter

/-- A second first block takes over, and the chain of the first one stays beside it. -/
theorem canonical_best_rivals : ∃ (E : Env) (c₀ : NamecoinChain) (g g' : Block) (s : ChainService),
    Settled E ∅ c₀ ∧ Calls E (newChainService E [.mem ∅] c₀) [g, g'] s ∧
      s.chains.map NamecoinChain.headHash = [some (computeHash E g), some (computeHash E g')] ∧
      (getLongestChain s).headHash = some (computeHash E g') ∧
      ∀ c ∈ s.chains, ∀ x, c.headHash = some x → AtLeast (getLongestChain s) c.headHeight x := by
  obtain ⟨target, data, data', hg, hg'⟩ := plain_rivals
  obtain ⟨s, hd, hp, -⟩ := two_firsts (C := fun _ _ => True) hg hg' plain_firsts_less True.intro
    fun _ _ => True.intro
  have hset : Settled plainEnv ∅ (emptyChain target 0) :=
    settled_live (show LiveRun plainEnv (staticConfig target) _ _ _ from .empty)
  refine ⟨plainEnv, _, _, _, s, hset, hd.calls, ?_, ?_, (canonical_best hset hd.calls).1⟩
  · rw [hp.chains]
    rfl
  · rw [getLongestChain_eq (by rw [hp.index, hp.chains]; rfl)]
    rfl

/-! ### A store that is not empty -/

/-- A block of height 1 on top of `g` without a transaction root. -/
def rootless (E : Env) (g : Block) : Block :=
  ⟨⟨1, some (computeHash E g), none, 1, 0, "", none⟩, [], none⟩

/-- **On a chain without blocks whose store holds a block**, a fork is better than the canonical chain. -/
theorem dirty_store : ∃ (E : Env) (m : Map String Bytes) (c₀ : NamecoinChain) (blk : Block)
      (s : ChainService),
    isEmpty c₀ ∧ c₀.store = 0 ∧ Calls E (newChainService E [.mem m] c₀) [blk] s ∧
      (getLongestChain s).headHash = none ∧ ∃ c ∈ s.chains, c.headHash ≠ none := by
  obtain ⟨target, m, c, -, -, hrun⟩ := quiet_live plainEnv
  let E := plainEnv
  let g := blockAt E 0 none [] 0
  let c₀ := emptyChain target 0
  let s := newChainService E [.mem m] c₀
  have hstores : s.stores = [.mem m] := stores_indexChain _ _ _
  have hchains : s.chains = [c₀] := chains_indexChain _ _ _
  obtain ⟨m', heq, hm⟩ := hrun.holds
  cases heq
  obtain ⟨hhash, hheight, -, -⟩ := hm.stamp g rfl
  have hzero : c.headHeight = 0 := hheight
  -- the service forks the empty chain, and the fork has a head
  obtain ⟨f, hf, hsame⟩ : ∃ f, c₀.forkUpToHeight E (newOverlayStore s.stores c₀.store).1 c.headHeight
      s.stores.length = .ok f ∧ SameHead f c := by
    refine (show LiveRun E _ ([] ++ [g]) _ c from hrun).fork (by simp) (fun key => ?_) ?_
    · rw [entry_newOverlayStore, hstores, hm.store]
      rfl
    · rw [hzero]
      exact UInt64.zero_le
  have ho : Origin E (numbered.visit 0) s 0 (rootless E g) (withFork E s c₀ f) f s.chains.length := by
    refine .fork (by simp [rootless]) (by simp [rootless]) ?_ (index_one hrun rfl rfl) ?_ (hzero ▸ hf)
    · refine firstChain_none.mpr fun d hd he => ?_
      rw [hchains, List.mem_singleton] at hd
      rw [hd] at he
      exact E.sha256_ne_nil _ he.symm
    · rw [visit_singleton]
      show pickBase s [0] none = some c₀
      rw [pickBase.eq_def, hchains]
      rfl
  have hok : HeadOK f.headHash := (sane_fork hf).1
  have hbad : f.applyBlock E (withFork E s c₀ f).stores (rootless E g) =
      .error (.msg "txRoot mismatch") := by
    refine applyBlock_bad_root hok (.inl rfl) ?_ (computeTxRoot_rootOf (by simp [rootless])) ?_
    · refine ensureNextBlockFollows_ok_iff.mpr ?_
      rw [hsame.headHash, hhash, if_neg (Option.some_ne_none _), hsame.headHeight, hzero]
      exact ⟨rfl, rfl⟩
    · exact fun he => rootOf_ne_nil E [] (by simp) he.symm
  have hturn := processSingleBlock_invalid (not_blockKnown_of_none rfl) ho hbad rfl
  have hcall : (appendBlockToChain E numbered 0 s (rootless E g)).1 = withFork E s c₀ f :=
    congrArg Prod.fst (appendBlockToChain_single hturn)
  refine ⟨E, m, c₀, rootless E g, _, ⟨rfl, rfl⟩, rfl, .snoc numbered 0 _ .nil, ?_, f, ?_, ?_⟩
  · have hlong : getLongestChain s = c₀ := getLongestChain_indexChain _ _ _
    rw [hcall, ho.getLongestChain, hlong]
    rfl
  · rw [hcall]
    exact List.mem_of_getElem? ho.getElem?
  · rw [hsame.headHash, hhash]
    exact Option.some_ne_none _

end Namecoin.Service.Choice
