import Namecoin.Chain.History

/-! # Commit and reveal

What a history says of the commitments its `NameFirstUpdate`s consume.

* `reveal_iff`: each consumes the commitment of an earlier `NameNew`, no two the same, and at most
  `MaxFirstUpdateDepth` blocks later, with one exception: the age of a commitment of the genesis block
  is never checked (`stale_reveal`).
* `committer_iff`: the name goes to the sender of the `NameFirstUpdate`, whoever made the commitment;
  nothing in the record of a commitment says who that was (`stolen_reveal`). -/

namespace Namecoin.Chain.Reveal

open Lib.ByteStrings Types.Defs Types.TxCodec Types.SampleEnv State.Defs State.Commands
open State.Effects State.Invariant State.Fresh State.Wallet State.Progress State.Together
open Chain.Stores Chain.Defs Chain.Apply Chain.Build Chain.Registration Chain.Ownership
open Chain.History

variable {E : Env}

/-! ### Once and in time -/

/-- The `NameFirstUpdate` `e` between the events `pre` and `post` consumes the commitment of `e₀`,
which no other refers to, in time. -/
structure OnceInTime (E : Env) (pre : List Event) (e : Event) (post : List Event) (n : NameFirstUpdate)
    (e₀ : Event) : Prop where
  consumes : Consumes E pre e₀ e n
  once : Unused (pre ++ post) (outpointKey e₀.txID 0)
  depth : e.height.toNat ≤ e₀.height.toNat + maxFirstUpdateDepth.toNat

theorem Logged.event_eq {log : List Event} {s : NamecoinState} (h : Logged E log s) {e e' : Event}
    (he : e ∈ log) (he' : e' ∈ log) (hkey : outpointKey e.txID 0 = outpointKey e'.txID 0) : e = e' :=
  List.inj_on_of_nodup_map h.nodup he he' (outpointKey_id (h.built e he) (h.built e' he') hkey)

/-- **Commitments are used once and in time**, exactly if no `NameFirstUpdate` above `MaxFirstUpdateDepth`
refers to a transaction of the genesis block. -/
theorem reveal_iff {c : NamecoinChain} {log : List Event} (h : ChainRun E c log) :
    (∀ pre e post n, log = pre ++ e :: post → firstUpdateOf e.tx = some n →
      ∃ e₀, OnceInTime E pre e post n e₀) ↔
    ∀ pre e post n e₀, log = pre ++ e :: post → firstUpdateOf e.tx = some n → e₀ ∈ pre →
      commitKey n e.tx = some (outpointKey e₀.txID 0) → e₀.height = 0 →
      e.height.toNat ≤ maxFirstUpdateDepth.toNat := by
  have hlog := h.logged
  constructor
  · intro hall pre e post n e₀ hsplit hn he₀ hkey h0
    obtain ⟨e₁, hc, -, hdepth⟩ := hall pre e post n hsplit hn
    have hmem : ∀ x ∈ pre, x ∈ log := fun x hx => by rw [hsplit]; exact List.mem_append_left _ hx
    have heq : e₁ = e₀ := Logged.event_eq hlog (hmem e₁ hc.before) (hmem e₀ he₀)
      (Option.some.inj (hc.key.symm.trans hkey))
    rw [heq, h0] at hdepth
    simpa using hdepth
  · intro hgen pre e post n hsplit hn
    obtain ⟨e₀, hc, htime, hun⟩ := hlog.used pre e post n hsplit hn
    refine ⟨e₀, hc, hun, ?_⟩
    by_cases h0 : e₀.height = 0
    · have := hgen pre e post n e₀ hsplit hn hc.before hc.key h0
      omega
    · have hpos : 0 < e₀.height.toNat := Nat.pos_of_ne_zero fun hz => h0 (UInt64.toNat_inj.mp hz)
      unfold InTime at htime
      omega

theorem firstUpdateOf_revealTx (k k' : Signer E) :
    firstUpdateOf (revealTx k k') = some (reveal (commitTx k).txID) :=
  firstUpdateOf_iff.mpr (resolveCommand_payload (.nameFirstUpdate (reveal (commitTx k).txID)))

theorem reveal_accepted (hc : E.CollisionFree) (hj : E.CanonicalJson) (k k' : Signer E) (n : ℕ) :
    ∃ (c c' : NamecoinChain) (S' : Heap) (blk : Block) (log : List Event), ChainRun E c log ∧
      c.applyBlock E [] blk = .ok (S', c') ∧ freshOf E c blk = [((revealTx k k').txID, revealTx k k')] ∧
      blk.header.height = UInt64.ofNat (n + 1) ∧ (∀ e ∈ log, firstUpdateOf e.tx = none) ∧
      ∃ e₀ ∈ log, e₀.txID = (commitTx k).txID ∧ e₀.height = 0 := by
  obtain ⟨s₀, hrun, hs₀⟩ := commit_ledger hc hj k "site" n
  obtain ⟨hid, s₁, hf⟩ := reveal_run hc hj k' (by decide) hs₀ (UInt64.ofNat (n + 1))
  have hpay : ∀ tx ∈ [revealTx k k'], tx.payload ≠ .invalid := by simp [revealFor, walletTx, unsignedTx]
  have hlen : UInt64.ofNat ([rewardTx k.address 1, commitTx k] :: List.replicate n []).length =
      UInt64.ofNat (n + 1) := by simp
  have hid₁ : (revealTx k k').txID ∉ (atHeight (UInt64.ofNat (n + 1)) s₀).txMap := by
    rw [(pruned_rest _ s₀).2]; exact hid
  have hstep : StrictRun E [revealTx k k'] (atHeight (UInt64.ofNat (n + 1)) s₀) s₁ :=
    .fresh (buildTransactionID_revealFor k k' "site") hid₁ hf (.nil _)
  obtain ⟨c, c', S', blk, hreach, hst, ha, htxs, hheight, -⟩ := hrun.reached hpay (hlen ▸ hstep) []
  obtain ⟨log, hlog⟩ := exists_run hreach.reached
  have hfresh : freshOf E c blk = [((revealTx k k').txID, revealTx k k')] := by
    unfold freshOf
    rw [htxs, hst, freshTxs, buildTransactionID_revealFor]
    simp only [if_neg hid]
    rfl
  obtain ⟨e₀, he₀, -, -, hkey, -, h0⟩ := hlog.logged.made _ _ (by rw [hst]; exact hs₀.commit)
  have hid₀ := outpointKey_id (buildTransactionID_commitFor k "site") (hlog.logged.built e₀ he₀) hkey
  have hnone : ∀ e ∈ log, firstUpdateOf e.tx = none := fun e he => by
    have hmem := hlog.logged.applied e he
    rw [hst, hs₀.applied] at hmem
    by_contra hne
    obtain ⟨m, hm⟩ := Option.ne_none_iff_exists'.mp hne
    have htype := resolveCommand_type (firstUpdateOf_iff.mp hm)
    rcases Finset.mem_insert.mp hmem with h | h
    · exact txID_ne_of_type hc hj (hlog.logged.built e he) (buildTransactionID_rewardTx _ _)
        (by rw [htype]; exact show "NameFirstUpdate" ≠ "Reward" by decide) h
    · exact txID_ne_of_type hc hj (hlog.logged.built e he) (buildTransactionID_commitFor k "site")
        (by rw [htype]; exact show "NameFirstUpdate" ≠ "NameNew" by decide) (Finset.mem_singleton.mp h)
  exact ⟨c, c', S', blk, log, hlog, ha, hfresh, hheight.trans hlen, hnone, e₀, he₀, hid₀.symm, h0.symm⟩

/-- A commitment of the genesis block is revealed at height 26. -/
theorem stale_reveal : ¬ ∀ (E : Env) (c : NamecoinChain) (log : List Event), ChainRun E c log →
    ∀ pre e post n, log = pre ++ e :: post → firstUpdateOf e.tx = some n →
      ∃ e₀, OnceInTime E pre e post n e₀ := by
  intro hall
  let k := plainSigner 7
  have hinj := plainEnv_collisionFree
  obtain ⟨c, c', S', blk, log, hlog, ha, hfresh, hheight, -, e₀, he₀, hid, h0⟩ :=
    reveal_accepted hinj plainEnv_canonicalJson k k 25
  have hrun := ChainRun.step hlog ha
  rw [hfresh] at hrun
  have hn := firstUpdateOf_revealTx k k
  obtain ⟨e₁, hc, -, hdepth⟩ := hall _ c' _ hrun log ⟨blk.header.height, _, revealTx k k⟩ [] _ rfl hn
  have hkey : outpointKey e₁.txID 0 = outpointKey e₀.txID 0 := by
    rw [hid]; exact Option.some.inj (hc.key.symm.trans (commitKey_reveal k k "site"))
  rw [Logged.event_eq hlog.logged hc.before he₀ hkey, h0, hheight] at hdepth
  exact absurd hdepth (by decide)

/-- A commitment of the genesis block that is revealed in the next block. -/
theorem prompt_reveal : ∃ (E : Env) (c : NamecoinChain) (log : List Event) (e : Event)
      (n : NameFirstUpdate),
    ChainRun E c (log ++ [e]) ∧ firstUpdateOf e.tx = some n ∧ ∃ e₀, OnceInTime E log e [] n e₀ := by
  let k := plainSigner 7
  have hinj := plainEnv_collisionFree
  obtain ⟨c, c', S', blk, log, hlog, ha, hfresh, hheight, hnone, -⟩ :=
    reveal_accepted hinj plainEnv_canonicalJson k k 0
  have hrun := ChainRun.step hlog ha
  rw [hfresh] at hrun
  have hn := firstUpdateOf_revealTx k k
  refine ⟨_, c', log, ⟨blk.header.height, _, revealTx k k⟩, _, hrun, hn, ?_⟩
  refine (reveal_iff hrun).mpr (fun pre e post n e₀ hsplit hn' _ _ _ => ?_) log _ [] _ rfl hn
  rcases append_singleton_split hsplit with ⟨post', -, hold⟩ | ⟨-, rfl, -⟩
  · rw [hnone e (by rw [hold]; simp)] at hn'
    cases hn'
  · show blk.header.height.toNat ≤ _
    rw [hheight]
    decide

/-! ### Who reveals -/

theorem freshRun_owner {rest : List (String × Tx)} {s s' : NamecoinState} {d : String}
    (h : FreshRun E rest s s') : (∀ e ∈ rest, buildTransactionID E e.2 = .ok e.1) → WellFormed s →
    ∀ {r : NameRecord}, s.domains.lookup d = some r → d ∈ s.claimedDomains →
      ∃ r', s'.domains.lookup d = some r' ∧ r'.owner = r.owner := by
  induction h with
  | nil => exact fun _ _ r hd _ => ⟨r, hd, rfl⟩
  | @cons id tx rest s s₁ s' _ hf _ ih =>
    intro hb hw r hd hmark
    have hb' : ∀ e ∈ rest, buildTransactionID E e.2 = .ok e.1 :=
      fun e he => hb e (List.mem_cons_of_mem _ he)
    have hw₁ := hw.freshStep (hb _ List.mem_cons_self) hf
    obtain ⟨-, hclaims, hd₁ | ⟨hmark₁, -, r₁, hd₁, hown⟩⟩ := freshStep_record hw hf hd (.inr hmark)
    · exact ih hb' hw₁ hd₁ (hclaims hmark)
    · obtain ⟨r', hr', hown'⟩ := ih hb' hw₁ hd₁ hmark₁
      exact ⟨r', hr', hown'.trans hown⟩

theorem reveal_owner {S S' : Heap} {c c' : NamecoinChain} {blk : Block} {log : List Event}
    {pre post : List (String × Tx)} {id : String} {tx : Tx} {n : NameFirstUpdate}
    (hrun : ChainRun E c log) (ha : c.applyBlock E S blk = .ok (S', c'))
    (hsplit : freshOf E c blk = pre ++ (id, tx) :: post) (hn : firstUpdateOf tx = some n) :
    ∃ r e₀, c'.state.domains.lookup n.domain = some r ∧
      r.owner = tx.fromAddr ∧
      Consumes E (log ++ eventsAt blk.header.height pre) e₀ ⟨blk.header.height, id, tx⟩ n := by
  obtain ⟨st, hfresh, hst⟩ := hrun.reached.freshRun ha
  have hb : ∀ e ∈ freshOf E c blk, buildTransactionID E e.2 = .ok e.1 :=
    fun e he => (freshTxs_build he).2.1
  rw [hsplit] at hfresh hb
  obtain ⟨s₁, s₂, hpre, hid, hf, hpost⟩ := FreshRun.split hfresh
  have hw₁ : WellFormed s₁ := WellFormed.freshRun hpre (fun e he => hb e (List.mem_append_left _ he))
    (hrun.reached.wellFormed.1.atHeight _)
  have hcmd := firstUpdateOf_iff.mp hn
  obtain ⟨hmark, r₂, ttl, hr₂, hown₂, -⟩ := freshStep_registers hf hcmd
  obtain ⟨r, hr, hown⟩ := freshRun_owner hpost (fun e he => hb e (by simp [he]))
    (hw₁.freshStep (hb (id, tx) (by simp)) hf) hr₂ hmark
  have hall := (ChainRun.step hrun ha).logged
  rw [hsplit] at hall
  obtain ⟨e₀, hc, -, -⟩ := hall.used (log ++ eventsAt blk.header.height pre) ⟨blk.header.height, id, tx⟩
    (eventsAt blk.header.height post) n (by simp [eventsAt]) hn
  exact ⟨r, e₀, by rw [hst]; exact hr, hown.trans hown₂, hc⟩

/-- **The name goes to whoever reveals it.** After a block with a `NameFirstUpdate` that takes effect,
the owner of the name is the sender of the `NameNew` it refers to exactly if both have the same sender. -/
theorem committer_iff {S S' : Heap} {c c' : NamecoinChain} {blk : Block} {log : List Event}
    {pre post : List (String × Tx)} {id : String} {tx : Tx} {n : NameFirstUpdate}
    (hrun : ChainRun E c log) (ha : c.applyBlock E S blk = .ok (S', c'))
    (hsplit : freshOf E c blk = pre ++ (id, tx) :: post) (hn : firstUpdateOf tx = some n) :
    ∃ r e₀, c'.state.domains.lookup n.domain = some r ∧
      Consumes E (log ++ eventsAt blk.header.height pre) e₀ ⟨blk.header.height, id, tx⟩ n ∧
      (r.owner = e₀.tx.fromAddr ↔ tx.fromAddr = e₀.tx.fromAddr) := by
  obtain ⟨r, e₀, hr, hown, hc⟩ := reveal_owner hrun ha hsplit hn
  exact ⟨r, e₀, hr, hc, by rw [hown]⟩

theorem consumed_sender (hc : E.CollisionFree) (hj : E.CanonicalJson) {k k' : Signer E} {log : List Event}
    {s : NamecoinState} (hlog : Logged E log s) {e₀ : Event} {h : UInt64}
    (hcons : Consumes E (log ++ eventsAt h []) e₀ ⟨h, (revealTx k k').txID, revealTx k k'⟩
      (reveal (commitTx k).txID)) : e₀.tx.fromAddr = k.address := by
  have hbefore : e₀ ∈ log := by simpa [eventsAt] using hcons.before
  have hid := outpointKey_id (hlog.built e₀ hbefore) (buildTransactionID_commitFor k "site")
    (Option.some.inj (hcons.key.symm.trans (commitKey_reveal k k' "site")))
  exact (buildTransactionID_inj hc hj (hid ▸ hlog.built e₀ hbefore)
    (buildTransactionID_commitFor k "site")).fromAddr

/-- One address commits to a name, another reveals it and owns it. -/
theorem stolen_reveal : ¬ ∀ (E : Env) (S S' : Heap) (c c' : NamecoinChain) (blk : Block)
      (log : List Event)
    (pre post : List (String × Tx)) (id : String) (tx : Tx) (n : NameFirstUpdate)
    (r : NameRecord) (e₀ : Event), ChainRun E c log → c.applyBlock E S blk = .ok (S', c') →
    freshOf E c blk = pre ++ (id, tx) :: post →
    firstUpdateOf tx = some n → c'.state.domains.lookup n.domain = some r →
    Consumes E (log ++ eventsAt blk.header.height pre) e₀ ⟨blk.header.height, id, tx⟩ n →
    r.owner = e₀.tx.fromAddr := by
  intro hall
  let k := plainSigner 7
  let k' := plainSigner 8
  have hinj := plainEnv_collisionFree
  have hj := plainEnv_canonicalJson
  obtain ⟨c, c', S', blk, log, hlog, ha, hfresh, -⟩ := reveal_accepted hinj hj k k' 0
  have hsplit : freshOf _ c blk = [] ++ ((revealTx k k').txID, revealTx k k') :: [] := hfresh
  obtain ⟨r, e₀, hr, hown, hc⟩ := reveal_owner hlog ha hsplit (firstUpdateOf_revealTx k k')
  have hown' := hall _ _ _ _ _ _ _ _ _ _ _ _ _ _ hlog ha hsplit (firstUpdateOf_revealTx k k') hr hc
  rw [hown, consumed_sender hinj hj hlog.logged hc] at hown'
  have haddr : k'.pk = k.pk := hinj (hexEncode_injective hown')
  exact absurd haddr (show List.replicate 32 (8 : UInt8) ≠ List.replicate 32 7 by decide)

/-- The name is revealed by the address that committed to it. -/
theorem own_reveal : ∃ (E : Env) (c c' : NamecoinChain) (S' : Heap) (blk : Block) (log : List Event)
    (id : String) (tx : Tx) (n : NameFirstUpdate) (r : NameRecord) (e₀ : Event),
    ChainRun E c log ∧ c.applyBlock E [] blk = .ok (S', c') ∧ freshOf E c blk = [(id, tx)] ∧
      firstUpdateOf tx = some n ∧ c'.state.domains.lookup n.domain = some r ∧
      tx.fromAddr = e₀.tx.fromAddr ∧ r.owner = e₀.tx.fromAddr := by
  let k := plainSigner 7
  have hinj := plainEnv_collisionFree
  have hj := plainEnv_canonicalJson
  obtain ⟨c, c', S', blk, log, hlog, ha, hfresh, -⟩ := reveal_accepted hinj hj k k 0
  have hsplit : freshOf _ c blk = [] ++ ((revealTx k k).txID, revealTx k k) :: [] := hfresh
  have hn := firstUpdateOf_revealTx k k
  obtain ⟨r, e₀, hr, hc, hiff⟩ := committer_iff hlog ha hsplit hn
  have hsame : (revealTx k k).fromAddr = e₀.tx.fromAddr := (consumed_sender hinj hj hlog.logged hc).symm
  exact ⟨_, c, c', S', blk, log, _, _, _, r, e₀, hlog, ha, hfresh, hn, hr, hsame, hiff.mpr hsame⟩

end Namecoin.Chain.Reveal
