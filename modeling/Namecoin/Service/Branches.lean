import Namecoin.Service.Scenes

/-! # The state of a chain is that of one branch

Forks are replayed from stores that other chains write to, so the blocks that are replayed need not be
the ones the index promised. Still, whatever is replayed or applied is on top of what was there before.

* `unmixed`: the state of every chain of the service is that of blocks linked from a
  first block to its head. -/

namespace Namecoin.Service.Branches

open Types.Defs Types.BlockCodec State.Defs State.Strict Chain.Pow Chain.Stores Chain.Defs
open Chain.Apply Chain.Replay Chain.Reload Chain.Registration Types.SampleEnv State.Wallet
open Service.Defs Service.Turns Service.Scenes

variable {E : Env} {visit : Finset ℕ → List ℕ} {s : ChainService} {index : ℤ} {blk : Block}

/-- Blocks applied one after the other. -/
def applyBlocks (E : Env) (blks : List Block) (st : NamecoinState) : Except Err NamecoinState :=
  blks.foldlM (fun st b => applyBlock E b st) st

/-- A block is on top of another one. -/
def OnTop (E : Env) (a b : Block) : Prop :=
  b.header.height = a.header.height + 1 ∧ elems b.header.prevHash = computeHash E a

/-- The blocks lead from a first block to the head. -/
structure Branch (E : Env) (blks : List Block) (r : ReplayState) : Prop where
  first : ∀ b, blks.head? = some b → b.header.height = 0 ∧ elems b.header.prevHash = []
  links : blks.IsChain (OnTop E)
  heights : ∀ i (h : i < blks.length), blks[i].header.height = UInt64.ofNat i
  empty : blks = [] → r.headHash = none
  last : ∀ b, blks.getLast? = some b → r.headHash = some (computeHash E b) ∧
    r.headHeight = b.header.height
  state : applyBlocks E blks newState = .ok r.state

theorem Branch.snoc {blks : List Block} {r : ReplayState} {state : NamecoinState} (h : Branch E blks r)
    (hnext : ensureNextBlockFollows r.headHeight r.headHash blk = .ok ())
    (ha : applyBlock E blk r.state = .ok state) :
    Branch E (blks ++ [blk]) ⟨state, some (computeHash E blk), blk.header.height⟩ := by
  have hfollows := ensureNextBlockFollows_ok_iff.mp hnext
  have hlast : ∀ b, (blks ++ [blk]).getLast? = some b → b = blk := fun b hb => by
    rw [List.getLast?_concat, Option.some.injEq] at hb
    exact hb.symm
  have hstate : applyBlocks E (blks ++ [blk]) newState = .ok state := by
    unfold applyBlocks
    rw [List.foldlM_append]
    refine (congrArg (· >>= _) h.state).trans ?_
    show (applyBlock E blk r.state >>= pure) = .ok state
    rw [ha]
    rfl
  rcases List.eq_nil_or_concat' blks with rfl | ⟨front, b, rfl⟩
  · rw [h.empty rfl, if_pos rfl] at hfollows
    refine ⟨fun b hb => ?_, List.isChain_singleton _, fun i hi => ?_, fun hnil => ?_,
      fun b hb => ?_, hstate⟩
    · cases hb
      exact hfollows
    · obtain rfl : i = 0 := by simpa using hi
      exact hfollows.1
    · cases hnil
    · rw [hlast b hb]
      exact ⟨rfl, rfl⟩
  · obtain ⟨hhash, hheight⟩ := h.last b (by simp)
    rw [hhash, if_neg (Option.some_ne_none _), hheight] at hfollows
    refine ⟨fun a ha => h.first a ?_, ?_, fun i hi => ?_, fun hnil => ?_, fun a ha => ?_, hstate⟩
    · rwa [List.head?_append_of_ne_nil _ (by simp)] at ha
    · refine h.links.append (List.isChain_singleton _) fun x hx y hy => ?_
      rw [List.getLast?_concat, Option.mem_some_iff] at hx
      rw [List.head?_singleton, Option.mem_some_iff] at hy
      subst hx hy
      exact hfollows
    · rcases Nat.lt_or_ge i (front ++ [b]).length with hlt | hge
      · rw [List.getElem_append_left hlt]
        exact h.heights i hlt
      · have hi' : i = (front ++ [b]).length := by simp at hi hge ⊢; omega
        subst hi'
        have hb := h.heights front.length (by simp)
        simp only [List.getElem_concat_length] at hb ⊢
        rw [hfollows.1, hb, List.length_append, List.length_singleton, UInt64.ofNat_add]
        rfl
    · simp at hnil
    · rw [hlast a ha]
      exact ⟨rfl, rfl⟩

theorem branch_of_replayed {blks : List Block} {r : ReplayState} (h : Replayed E blks r) :
    Branch E blks r := by
  induction h with
  | start => exact ⟨by simp, .nil, by simp, fun _ => rfl, by simp, rfl⟩
  | step _ hnext ha ih => exact ih.snoc hnext ha

theorem headOK_of_replayed {blks : List Block} {r : ReplayState} (h : Replayed E blks r) :
    HeadOK r.headHash := by
  cases h with
  | start => rfl
  | step => exact cloneBytes_some (E.sha256_ne_nil _)

/-- The head of every chain is one that blocks lead to. -/
def AllReplayed (E : Env) (s : ChainService) : Prop := ∀ c ∈ s.chains, ∃ blks, Replayed E blks (headOf c)

theorem replayed_fork {S : Heap} {base f : NamecoinChain} {height : UInt64} {store : ℕ}
    (h : base.forkUpToHeight E S height store = .ok f) : ∃ blks, Replayed E blks (headOf f) := by
  obtain ⟨-, lbs, -, -, rfl⟩ := forkUpToHeight_ok_iff.mp h
  exact Replayed.replayBlocks (.start)

theorem replayed_origin {s₁ : ChainService} {c : NamecoinChain} {i : ℕ}
    (h : Origin E visit s index blk s₁ c i) (hs : AllReplayed E s) : AllReplayed E s₁ := by
  have hnew : (∃ blks, Replayed E blks (headOf c)) → AllReplayed E s₁ := fun hc c' hc' => by
    rcases h.chains with heq | heq
    · exact hs c' (heq ▸ hc')
    · rw [heq, List.mem_append, List.mem_singleton] at hc'
      rcases hc' with hc' | rfl
      · exact hs c' hc'
      · exact hc
  cases h with
  | empty => exact hs
  | fresh => exact hnew ⟨[], .start⟩
  | head => exact hs
  | fork _ _ _ _ _ hf => exact hnew (replayed_fork hf)

theorem replayed_attach {s₁ : ChainService} {c c' : NamecoinChain} {i : ℕ} {S : Heap}
    (ho : Origin E visit s index blk s₁ c i) (ha : c.applyBlock E s₁.stores blk = .ok (S, c'))
    (hs : AllReplayed E s₁) :
    AllReplayed E (attach s₁ S c' i (settleHash E blk)) := by
  intro d hd
  obtain ⟨store, hchains⟩ := chains_attach S c' (settleHash E blk) ho.lt_length
  rw [hchains] at hd
  rcases List.mem_or_eq_of_mem_set hd with hd | rfl
  · exact hs d hd
  · obtain ⟨blks, hb⟩ := hs c (List.mem_of_getElem? ho.getElem?)
    have hnext := hb.applyBlock (headOK_of_replayed hb) ha
    exact ⟨_, hnext⟩

theorem replayed_turn {o : Lib.WorkList.Outcome ChainService Block Err} (h : Turn E visit index s blk o)
    (hs : AllReplayed E s) : AllReplayed E o.state :=
  h.invariant (fun _ _ h => h) (fun _ _ _ ho => replayed_origin ho hs)
    (fun _ _ _ _ _ ho ha => replayed_attach ho ha (replayed_origin ho hs)) hs

/-- **A chain's state never mixes branches.** -/
theorem unmixed {S : Heap} {store : ℕ} {cfg : PoWConfig} {calls : List Block}
    (h : Calls E (newChainService E S (configurePow cfg (newNamecoinChain store))) calls s)
    {c : NamecoinChain} (hc : c ∈ s.chains) (hne : c.headHash ≠ none) :
    ∃ (blks : List Block) (n : ℕ), blks.length = n + 1 ∧
      c.headHeight = UInt64.ofNat n ∧ Branch E blks (headOf c) := by
  have hall : AllReplayed E s := by
    refine h.invariant (fun _ _ _ _ _ => replayed_turn) fun c hc => ⟨[], ?_⟩
    rw [newChainService, chains_indexChain, List.mem_singleton] at hc
    rw [hc]
    exact .start
  obtain ⟨blks, hb⟩ := hall c hc
  have hbranch := branch_of_replayed hb
  obtain ⟨front, b, rfl⟩ := (List.eq_nil_or_concat' blks).resolve_left fun h => hne (hbranch.empty h)
  refine ⟨_, front.length, by simp, ?_, hbranch⟩
  have hheight := hbranch.heights front.length (by simp)
  rw [List.getElem_concat_length rfl] at hheight
  exact (hbranch.last b (by simp)).2.trans hheight

/-- A chain of two blocks that pay and spend a coin has the state of two blocks. -/
theorem unmixed_commit : ∃ (E : Env) (cfg : PoWConfig) (calls : List Block) (s : ChainService)
      (c : NamecoinChain),
    Calls E (newChainService E [.mem ∅] (configurePow cfg (newNamecoinChain 0))) calls s ∧
    calls.length = 2 ∧
      c ∈ s.chains ∧ c.headHash ≠ none ∧ ∃ blks, Branch E blks (headOf c) ∧ blks ≠ [] := by
  obtain ⟨st, hrun, -⟩ := commit_ledger plainEnv_collisionFree plainEnv_canonicalJson
    (plainSigner 7) "site" 1
  obtain ⟨cfg, blks, S, c, hl, hlen, -, hhash⟩ := exists_live hrun
  have htwo : blks.length = 2 := hlen
  obtain ⟨s, hcalls, hs⟩ := live_calls hl (by rw [htwo]; decide) hhash
  have hmem : c ∈ s.chains := by rw [hs.chains]; exact List.mem_singleton_self c
  have hne : c.headHash ≠ none := fun hn => by
    obtain ⟨m, -, hm⟩ := hl.holds
    rw [hm.empty.mp hn] at htwo
    cases htwo
  obtain ⟨branch, n, hn, -, hb⟩ := unmixed hcalls hmem hne
  refine ⟨_, cfg, blks, s, c, hcalls, htwo, hmem, hne, branch, hb, fun hnil => ?_⟩
  rw [hnil] at hn
  cases hn

end Namecoin.Service.Branches
