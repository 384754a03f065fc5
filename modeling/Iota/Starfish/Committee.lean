import Iota.Lib.Quorum
import Mathlib

/-! The committee of an epoch and the aggregator that counts the stake of distinct voters. -/
namespace Iota.Starfish
open Finset

/-- The authorities of an epoch, each given by its stake. The fields after `authorities` are the
assertions of `Committee::new`. -/
structure Committee where
  epoch : Nat
  authorities : List Nat
  authorities_ne_nil : authorities ≠ []
  length_lt : authorities.length < 255
  total_ne_zero : authorities.sum ≠ 0

namespace Committee
variable (c : Committee)

def size : Nat := c.authorities.length
def totalStake : Nat := c.authorities.sum
def quorumThreshold : Nat := 2 * c.totalStake / 3 + 1
def reachedQuorum (stake : Nat) : Bool := c.quorumThreshold ≤ stake
def isValidIndex (a : Nat) : Bool := a < c.size

/-- Stake of an authority. The source panics outside the committee; the verifier models that
panic where an index can be outside, and elsewhere every index is one of a verified header. -/
def stake (a : Nat) : Nat := c.authorities.getD a 0

def stakeOf (s : Finset Nat) : Nat := ∑ a ∈ s, c.stake a

def IsQuorum (s : Finset Nat) : Prop := c.quorumThreshold ≤ c.stakeOf s

instance (s : Finset Nat) : Decidable (c.IsQuorum s) :=
  inferInstanceAs (Decidable (_ ≤ _))

/-- The authorities of `byzantine` hold less than one third of the stake. -/
def FaultBound (byzantine : Finset Nat) : Prop :=
  3 * c.stakeOf byzantine < c.totalStake

instance (s : Finset Nat) : Decidable (c.FaultBound s) :=
  inferInstanceAs (Decidable (_ < _))

variable {c}

@[simp] theorem reachedQuorum_iff {s : Nat} : c.reachedQuorum s = true ↔ c.quorumThreshold ≤ s := by
  simp [reachedQuorum]

@[simp] theorem isValidIndex_iff {a : Nat} : c.isValidIndex a = true ↔ a < c.size := by
  simp [isValidIndex]

theorem size_pos : 0 < c.size := List.length_pos_of_ne_nil c.authorities_ne_nil

theorem stake_eq_zero {a : Nat} (h : c.size ≤ a) : c.stake a = 0 :=
  List.getD_eq_default _ _ h

theorem sum_range_stake : ∑ a ∈ range c.size, c.stake a = c.totalStake := by
  unfold stake size totalStake
  induction c.authorities with
  | nil => rfl
  | cons x xs ih => rw [List.length_cons,sum_range_succ',List.sum_cons,← ih]; simp [add_comm]

theorem stakeOf_mono {s t : Finset Nat} (h : s ⊆ t) : c.stakeOf s ≤ c.stakeOf t :=
  sum_le_sum_of_subset h

theorem stakeOf_le_totalStake (s : Finset Nat) : c.stakeOf s ≤ c.totalStake := by
  have hs : c.stakeOf s = c.stakeOf (s.filter (· < c.size)) := by
    refine (sum_filter_of_ne fun a _ ha => ?_).symm
    by_contra hn
    exact ha (stake_eq_zero (Nat.le_of_not_lt hn))
  rw [hs,← sum_range_stake]
  refine sum_le_sum_of_subset fun a ha => ?_
  exact mem_range.mpr (mem_filter.mp ha).2

theorem IsQuorum.mono {s t : Finset Nat} (hs : c.IsQuorum s) (h : s ⊆ t) : c.IsQuorum t :=
  le_trans hs (stakeOf_mono h)

theorem not_isQuorum_empty : ¬c.IsQuorum ∅ := by
  simp [IsQuorum,stakeOf,quorumThreshold]

theorem IsQuorum.nonempty {s : Finset Nat} (hs : c.IsQuorum s) : s.Nonempty := by
  by_contra he
  rw [not_nonempty_iff_eq_empty.mp he] at hs
  exact not_isQuorum_empty hs

variable {byzantine s t : Finset Nat}

theorem IsQuorum.exists_honest (hs : c.IsQuorum s) (hb : c.FaultBound byzantine) :
    ∃ a ∈ s, a ∉ byzantine :=
  Quorum.exists_mem_quorum_not_faulty hb hs

theorem IsQuorum.exists_honest_inter (hs : c.IsQuorum s) (ht : c.IsQuorum t)
    (hb : c.FaultBound byzantine) : ∃ a ∈ s, a ∈ t ∧ a ∉ byzantine :=
  Quorum.exists_mem_inter_not_faulty hb hs ht (stakeOf_le_totalStake _)

end Committee

/-- Distinct voters with their total stake (`StakeAggregator<QuorumThreshold>`). -/
@[ext] structure StakeAggregator (c : Committee) where
  votes : Finset Nat
  stake : Nat
  stake_eq : stake = c.stakeOf votes

namespace StakeAggregator
variable {c : Committee}

def new : StakeAggregator c := ⟨∅,0,rfl⟩

/-- Counts a vote once per authority. The source returns `reachedThreshold` of the result. -/
def add (g : StakeAggregator c) (vote : Nat) : StakeAggregator c :=
  if h : vote ∈ g.votes then g
  else ⟨insert vote g.votes,g.stake + c.stake vote,by
    rw [g.stake_eq]
    exact (add_comm _ _).trans (sum_insert h).symm⟩

def reachedThreshold (g : StakeAggregator c) : Bool := c.reachedQuorum g.stake

@[simp] theorem votes_new : (new : StakeAggregator c).votes = ∅ := rfl

@[simp] theorem votes_add (g : StakeAggregator c) (a : Nat) :
    (g.add a).votes = insert a g.votes := by
  unfold add
  split
  · rename_i h
    exact (insert_eq_of_mem h).symm
  · rfl

@[simp] theorem reachedThreshold_iff (g : StakeAggregator c) :
    g.reachedThreshold = true ↔ c.IsQuorum g.votes := by
  rw [reachedThreshold,Committee.reachedQuorum_iff,g.stake_eq]
  rfl

end StakeAggregator
end Iota.Starfish
