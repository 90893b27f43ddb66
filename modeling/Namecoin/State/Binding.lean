import Namecoin.State.Progress
import Namecoin.Types.SampleEnv

/-! # What a commitment binds to

A name is committed to as the hash of `DOMAIN_HASH_v1:domain:salt`. Nothing keeps a colon out of the
name or the salt, so the text does not tell where the name ends.

* `bound_iff`: **two names that open one commitment are equal** exactly if neither of them, with a
  colon after it, is the beginning of the other;
* `two_openings`: `a:b` with the salt `c` and `a` with the salt `b:c` open the same commitment. -/

namespace Namecoin.State.Binding

open Lib.Maps Lib.ByteStrings Types.Defs Types.SampleEnv State.Defs State.Commands State.Progress

variable {E : Env} {st : NamecoinState} {tx₁ tx₂ : Tx} {n₁ n₂ : NameFirstUpdate} {r : CommitmentRecord}
  {key₁ key₂ : String}

theorem utf8_injective : Function.Injective utf8 := fun s t h => by
  have hbytes : s.toList.utf8Encode = t.toList.utf8Encode := congrArg List.toByteArray h
  rw [String.utf8Encode_toList, String.utf8Encode_toList] at hbytes
  exact String.toByteArray_inj.mp hbytes

theorem commitmentOf_inj (hc : E.CollisionFree) (h : commitmentOf E n₁ = commitmentOf E n₂) :
    n₁.domain.toList ++ ':' :: n₁.salt.toList = n₂.domain.toList ++ ':' :: n₂.salt.toList := by
  have htext := congrArg String.toList (utf8_injective (hc (hexEncode_injective h)))
  simp only [String.toList_append, List.append_assoc] at htext
  exact List.append_cancel_left htext

theorem eq_of_separated {α : Type} {sep : α} {d₁ s₁ d₂ s₂ : List α}
    (h : d₁ ++ sep :: s₁ = d₂ ++ sep :: s₂) (h₁ : ¬ d₁ ++ [sep] <+: d₂) (h₂ : ¬ d₂ ++ [sep] <+: d₁) :
    d₁ = d₂ := by
  rcases List.append_eq_append_iff.mp h with ⟨x, rfl, hx⟩ | ⟨x, rfl, hx⟩
  · cases x with
    | nil => simp
    | cons a x =>
      cases hx
      exact absurd ⟨x, by simp⟩ h₁
  · cases x with
    | nil => simp
    | cons a x =>
      cases hx
      exact absurd ⟨x, by simp⟩ h₂

theorem separator_not_initial {α : Type} (sep : α) (d : List α) : ¬ d ++ [sep] <+: d := fun h => by
  have := h.length_le
  simp at this

/-- **A commitment binds to one name** exactly if the names that open it do not continue
one another after a colon. -/
theorem bound_iff (hc : E.CollisionFree) (h₁ : n₁.resolveCommitment E st tx₁ = .ok (r, key₁))
    (h₂ : n₂.resolveCommitment E st tx₂ = .ok (r, key₂)) : n₁.domain = n₂.domain ↔
      ¬ n₁.domain.toList ++ [':'] <+: n₂.domain.toList ∧
      ¬ n₂.domain.toList ++ [':'] <+: n₁.domain.toList := by
  have hcommit : commitmentOf E n₁ = commitmentOf E n₂ :=
    (resolveCommitment_ok_iff.mp h₁).2.2.trans (resolveCommitment_ok_iff.mp h₂).2.2.symm
  constructor
  · intro h
    rw [h]
    exact ⟨separator_not_initial _ _, separator_not_initial _ _⟩
  · rintro ⟨hno₁, hno₂⟩
    exact String.toList_inj.mp (eq_of_separated (commitmentOf_inj hc hcommit) hno₁ hno₂)

/-- A state with one commitment, that of the payload. -/
def committed (E : Env) (n : NameFirstUpdate) : NamecoinState :=
  { newState with
    commitments := (∅ : Map String CommitmentRecord).insert (outpointKey n.txID 0)
      ⟨commitmentOf E n, 0, 0⟩ }

theorem resolve_committed (n₁ n₂ : NameFirstUpdate) (ht : n₁.txID ≠ "") (htx : n₂.txID = n₁.txID)
    (hc : commitmentOf E n₂ = commitmentOf E n₁) (tx : Tx) :
    n₂.resolveCommitment E (committed E n₁) tx =
      .ok (⟨commitmentOf E n₁, 0, 0⟩, outpointKey n₁.txID 0) := by
  refine resolveCommitment_ok_iff.mpr ⟨?_, Finmap.lookup_insert _, hc⟩
  unfold commitKey
  rw [htx, if_neg ht]

/-- **One commitment, two names.** -/
theorem two_openings : ¬ ∀ (E : Env) (st : NamecoinState) (tx₁ tx₂ : Tx) (n₁ n₂ : NameFirstUpdate)
    (r : CommitmentRecord) (key₁ key₂ : String), E.CollisionFree → n₁.domain ≠ "" → n₁.salt ≠ "" →
    n₂.domain ≠ "" → n₂.salt ≠ "" →
    n₁.resolveCommitment E st tx₁ = .ok (r, key₁) → n₂.resolveCommitment E st tx₂ = .ok (r, key₂) →
    n₁.domain = n₂.domain := by
  intro h
  let tx : Tx := ⟨"", "NameFirstUpdate", none, none, 0, .nil, "", "", ""⟩
  let n₁ : NameFirstUpdate := ⟨"a:b", "c", "1.2.3.4", 0, "t"⟩
  let n₂ : NameFirstUpdate := ⟨"a", "b:c", "1.2.3.4", 0, "t"⟩
  have h₁ := resolve_committed (E := plainEnv) n₁ n₁ (by decide) rfl rfl tx
  have h₂ := resolve_committed (E := plainEnv) n₁ n₂ (by decide) rfl rfl tx
  have heq := h _ _ tx tx n₁ n₂ _ _ _ plainEnv_collisionFree (by decide) (by decide) (by decide)
    (by decide) h₁ h₂
  exact absurd heq (by decide)

/-- A name that is opened twice, with different addresses. -/
theorem bound_site : ∃ (st : NamecoinState) (tx : Tx) (n₁ n₂ : NameFirstUpdate)
      (r : CommitmentRecord) (key : String),
    n₁ ≠ n₂ ∧ n₁.resolveCommitment plainEnv st tx = .ok (r, key) ∧
    n₂.resolveCommitment plainEnv st tx = .ok (r, key) ∧
      n₁.domain = n₂.domain := by
  let n₁ : NameFirstUpdate := ⟨"site", "salt", "1.2.3.4", 0, "t"⟩
  let n₂ : NameFirstUpdate := ⟨"site", "salt", "5.6.7.8", 0, "t"⟩
  let tx : Tx := ⟨"", "NameFirstUpdate", none, none, 0, .nil, "", "", ""⟩
  have h₁ := resolve_committed (E := plainEnv) n₁ n₁ (by decide) rfl rfl tx
  have h₂ := resolve_committed (E := plainEnv) n₁ n₂ (by decide) rfl rfl tx
  exact ⟨_, tx, n₁, n₂, _, _, by decide, h₁, h₂, (bound_iff plainEnv_collisionFree h₁ h₂).mpr (by decide)⟩

end Namecoin.State.Binding
