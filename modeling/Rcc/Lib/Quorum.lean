import Mathlib.Data.Finset.Card
import Mathlib.Data.List.Pairwise
import Mathlib.Tactic

/-!
# Rcc.Lib.Quorum

Counting arguments behind quorums.

* `exists_common`: two majorities share a member;
* `exists_honest_common`: of `n` members with at most `(n - 1) / 3` faulty ones, two sets of
  `n - (n - 1) / 3` members share one that is not faulty;
* `exists_signers`: a list of ballots that each have a signer, no two of them a common one,
  names at least as many distinct signers as it has ballots.
-/

namespace Quorum

open List Finset

variable {ι : Type} [DecidableEq ι] {U A B : Finset ι}

/-- The number of faulty members that `n` members tolerate. -/
def maxFaulty (n : Nat) : Nat := (n - 1) / 3

/-- The size of a quorum of `n` members. -/
def quorumSize (n : Nat) : Nat := n - maxFaulty n

theorem card_add_card_le (hA : A ⊆ U) (hB : B ⊆ U) : A.card + B.card ≤ (A ∩ B).card + U.card := by
  have hunion := card_union_add_card_inter A B
  have hle : (A ∪ B).card ≤ U.card := card_le_card (union_subset hA hB)
  omega

/-- Two sets that together outnumber the whole share a member. -/
theorem exists_common (hA : A ⊆ U) (hB : B ⊆ U) (h : U.card < A.card + B.card) :
    ∃ z ∈ A, z ∈ B := by
  have hcount := card_add_card_le hA hB
  obtain ⟨z, hz⟩ := card_pos.mp (show 0 < (A ∩ B).card by omega)
  exact ⟨z, (mem_inter.mp hz).1, (mem_inter.mp hz).2⟩

/-- **Quorum intersection.** The common members of two quorums outnumber the faulty ones. -/
theorem exists_honest_common {Z : Finset ι} {n : Nat} (hn : 0 < n) (hU : U.card ≤ n) (hA : A ⊆ U)
    (hB : B ⊆ U) (hcA : quorumSize n ≤ A.card) (hcB : quorumSize n ≤ B.card)
    (hZ : Z.card ≤ maxFaulty n) : ∃ z, z ∈ A ∧ z ∈ B ∧ z ∉ Z := by
  have hcount := card_add_card_le hA hB
  unfold quorumSize maxFaulty at *
  have hlt : Z.card < (A ∩ B).card := by omega
  obtain ⟨z, hz, hzZ⟩ := exists_mem_notMem_of_card_lt_card hlt
  rw [mem_inter] at hz
  exact ⟨z, hz.1, hz.2, hzZ⟩

/-- Pairwise unrelated ballots name as many signers as there are ballots. -/
theorem exists_signers {β : Type} {signedBy : β → ι → Prop} {l : List β}
    (hsigned : ∀ b ∈ l, ∃ i, signedBy b i)
    (hapart : l.Pairwise (fun b c => ∀ i, signedBy b i → ¬ signedBy c i)) :
    ∃ S : Finset ι, S.card = l.length ∧ ∀ i ∈ S, ∃ b ∈ l, signedBy b i := by
  induction l with
  | nil => exact ⟨∅, rfl, by simp⟩
  | cons b l ih =>
    obtain ⟨hb, hapart'⟩ := pairwise_cons.mp hapart
    obtain ⟨S, hcard, hS⟩ := ih (fun c hc => hsigned c (mem_cons_of_mem b hc)) hapart'
    obtain ⟨i, hi⟩ := hsigned b mem_cons_self
    have hnew : i ∉ S := by
      intro hiS
      obtain ⟨c, hc, hci⟩ := hS i hiS
      exact hb c hc i hi hci
    refine ⟨insert i S, ?_, ?_⟩
    · rw [card_insert_of_notMem hnew, hcard, length_cons]
    · intro j hj
      rcases mem_insert.mp hj with rfl | hj
      · exact ⟨b, mem_cons_self, hi⟩
      · obtain ⟨c, hc, hcj⟩ := hS j hj
        exact ⟨c, mem_cons_of_mem b hc, hcj⟩

end Quorum
