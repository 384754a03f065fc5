import Mathlib
import Iota.Types.Basic

/-! A transaction waits for new randomness, or until a later round because of congestion. -/
namespace Iota.Authority

inductive DeferralKey
  | randomness (deferredFromRound : CommitRound)
  | consensusRound (futureRound deferredFromRound : CommitRound)
deriving DecidableEq, Repr

namespace DeferralKey

def newForRandomness (deferredFromRound : CommitRound) : DeferralKey :=
  .randomness deferredFromRound

def newForConsensusRound (futureRound deferredFromRound : CommitRound) : DeferralKey :=
  .consensusRound futureRound deferredFromRound

/-- The position of the variant and its fields, by which the derived order compares. -/
def variantIndex : DeferralKey → Nat
  | .randomness _ => 0
  | .consensusRound .. => 1

def firstRound : DeferralKey → CommitRound
  | .randomness deferredFromRound => deferredFromRound
  | .consensusRound futureRound _ => futureRound

def secondRound : DeferralKey → CommitRound
  | .randomness _ => 0
  | .consensusRound _ deferredFromRound => deferredFromRound

def cmp : DeferralKey → DeferralKey → Ordering :=
  compareLex (compareOn variantIndex) (compareLex (compareOn firstRound) (compareOn secondRound))

instance : Ord DeferralKey := ⟨cmp⟩

instance : Std.TransOrd DeferralKey := inferInstanceAs (Std.TransCmp (compareLex
  (compareOn variantIndex) (compareLex (compareOn firstRound) (compareOn secondRound))))

instance : Std.LawfulEqOrd DeferralKey where
  eq_of_compare {a b} h := by
    have h' : compare a.variantIndex b.variantIndex = .eq ∧
        compare a.firstRound b.firstRound = .eq ∧ compare a.secondRound b.secondRound = .eq := by
      simpa [compare,cmp,compareLex,compareOn,Ordering.then_eq_eq] using h
    simp only [compare_eq_iff_eq] at h'
    cases a <;> cases b <;> simp_all [variantIndex,firstRound,secondRound]

def deferredFromRound : DeferralKey → CommitRound
  | .randomness deferredFromRound => deferredFromRound
  | .consensusRound _ deferredFromRound => deferredFromRound

end DeferralKey
end Iota.Authority
