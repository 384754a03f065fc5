import Mathlib.Algebra.BigOperators.Intervals
import Mathlib.Algebra.Order.BigOperators.Group.Finset

/-! Parties carry natural weights. A quorum is a set of parties whose weight is above two thirds of
the total, and the faulty parties weigh less than one third, so that any two quorums share a party
that is not faulty. -/
namespace Quorum
variable {ι : Type*} {w : ι → ℕ} {total : ℕ} {faulty s t : Finset ι}

def threshold (total : ℕ) : ℕ := 2 * total / 3 + 1

theorem exists_mem_not_faulty (h : ∑ i ∈ faulty, w i < ∑ i ∈ s, w i) : ∃ i ∈ s, i ∉ faulty := by
  by_contra hn
  push Not at hn
  have hle : ∑ i ∈ s, w i ≤ ∑ i ∈ faulty, w i := Finset.sum_le_sum_of_subset hn
  omega

theorem exists_mem_quorum_not_faulty (hf : 3 * ∑ i ∈ faulty, w i < total)
    (hs : threshold total ≤ ∑ i ∈ s, w i) : ∃ i ∈ s, i ∉ faulty := by
  unfold threshold at hs
  have hlt : ∑ i ∈ faulty, w i < ∑ i ∈ s, w i := by omega
  exact exists_mem_not_faulty hlt

variable [DecidableEq ι]

theorem exists_mem_inter_not_faulty (hf : 3 * ∑ i ∈ faulty, w i < total)
    (hs : threshold total ≤ ∑ i ∈ s, w i) (ht : threshold total ≤ ∑ i ∈ t, w i)
    (hu : ∑ i ∈ s ∪ t, w i ≤ total) : ∃ i ∈ s, i ∈ t ∧ i ∉ faulty := by
  have hsm : ∑ i ∈ s ∪ t, w i + ∑ i ∈ s ∩ t, w i = ∑ i ∈ s, w i + ∑ i ∈ t, w i :=
    Finset.sum_union_inter
  unfold threshold at hs ht
  have hlt : ∑ i ∈ faulty, w i < ∑ i ∈ s ∩ t, w i := by omega
  obtain ⟨i,hi,hn⟩ := exists_mem_not_faulty hlt
  exact ⟨i,(Finset.mem_inter.mp hi).1,(Finset.mem_inter.mp hi).2,hn⟩

end Quorum
