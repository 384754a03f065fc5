import Iota.Lib.BTree
import Iota.Lib.Except
import Iota.Starfish.Committee

/-! References to blocks and transactions, and headers with their compressed reference list. -/
namespace Iota.Starfish
open Std.ExtTreeSet

inductive Panic
  | sliceOutOfRange
  | authorityOutOfRange
  | genesisHeaderAccepted
  | ownSlotOccupied
  | blockNotFound
  | roundHasCommittedHeaders
  | moreThanOneCertifiedBlock
  | uncommittedBlockMissing
  | headerTraversedTwice
  | duplicateBlockRef
  | committedHeaderMissing
  | commitIndexGap
  | commitTimestampDecreases
  | commitRoundOrder
  | duplicateVote
  | commitRangeOrder
  | scoringSubdagNotEmpty
  | scoringSubdagEmpty
  | lastCommitMissing
  | evictedRoundRequested
  | genesisRoundRequested
  | parentQuorumMissing
  | swapThresholdOutOfRange
  | scoresPerAuthorityLength
  | multiLeaderSwap
  | noGoodNode
  | invalidCommitRange
  | medianTimestampMissing
  | inconsistentTransactionRefs
  | duplicateMissingRef
  | commitSentOutOfOrder
  | consensusBehindNode
  | scheduleUpdateDue
  | outOfFuel
deriving DecidableEq, Repr

structure BlockRef where
  round : Nat
  author : Nat
  digest : Nat
deriving DecidableEq, Repr

structure Slot where
  round : Nat
  authority : Nat
deriving DecidableEq, Repr

namespace Slot

def cmp : Slot → Slot → Ordering := compareLex (compareOn round) (compareOn authority)

instance : Std.TransCmp cmp :=
  inferInstanceAs (Std.TransCmp (compareLex (compareOn round) (compareOn authority)))

instance : Std.LawfulEqCmp cmp where
  eq_of_compare {a b} h := by
    have h' : compare a.round b.round = .eq ∧ compare a.authority b.authority = .eq := by
      simpa [cmp,compareLex,compareOn,Ordering.then_eq_eq] using h
    simp only [compare_eq_iff_eq] at h'
    cases a
    cases b
    simp_all

end Slot
namespace BlockRef

def slot (r : BlockRef) : Slot := ⟨r.round,r.author⟩

/-- The derived order of the source: by round, then author, then digest. -/
def cmp : BlockRef → BlockRef → Ordering :=
  compareLex (compareOn round) (compareLex (compareOn author) (compareOn digest))

instance : Ord BlockRef := ⟨cmp⟩

instance : Std.TransOrd BlockRef := inferInstanceAs (Std.TransCmp
  (compareLex (compareOn round) (compareLex (compareOn author) (compareOn digest))))

instance : Std.LawfulEqOrd BlockRef where
  eq_of_compare {a b} h := by
    have h' : compare a.round b.round = .eq ∧ compare a.author b.author = .eq ∧
        compare a.digest b.digest = .eq := by
      simpa [compare,cmp,compareLex,compareOn,Ordering.then_eq_eq] using h
    simp only [compare_eq_iff_eq] at h'
    cases a
    cases b
    simp_all

variable {a b : BlockRef}

theorem compare_lt_of_round_lt (h : a.round < b.round) : compare a b = .lt := by
  have hc : compare a b = (compare a.round b.round).then
      ((compare a.author b.author).then (compare a.digest b.digest)) := rfl
  rw [hc,Nat.compare_eq_lt.mpr h]
  rfl

theorem round_le_of_isLE (h : (compare a b).isLE = true) : a.round ≤ b.round := by
  by_contra hn
  have hlt := compare_lt_of_round_lt (Nat.lt_of_not_le hn)
  have hs : compare a b = (compare b a).swap := Std.OrientedCmp.eq_swap
  rw [hs,hlt] at h
  cases h

theorem compare_lt_of_isLE_of_ne (h : (compare a b).isLE = true) (hne : a ≠ b) :
    compare a b = .lt := by
  cases hc : compare a b with
  | lt => rfl
  | eq => exact absurd (Std.LawfulEqOrd.eq_of_compare hc) hne
  | gt => rw [hc] at h; cases h

/-- The least reference of a round, used to split the trackers and caches. -/
def lowest (round : Nat) : BlockRef := ⟨round,0,0⟩

theorem isLE_compare_mk_zero (round : Nat) (r : BlockRef) {author : Nat} (hat : author ≤ r.author) :
    (compare (⟨round,author,0⟩ : BlockRef) r).isLE = true ↔ round ≤ r.round := by
  have hc : compare (⟨round,author,0⟩ : BlockRef) r = (compare round r.round).then
      ((compare author r.author).then (compare 0 r.digest)) := rfl
  rw [hc]
  rcases Nat.lt_trichotomy round r.round with h | h | h
  · simp [Nat.compare_eq_lt.mpr h,h.le]
  · subst h
    have ha : (compare author r.author).isLE = true := Nat.isLE_compare.mpr hat
    have hd : (compare 0 r.digest).isLE = true := Nat.isLE_compare.mpr (Nat.zero_le _)
    revert ha hd
    cases compare author r.author <;> cases compare 0 r.digest <;> simp
  · simp [Nat.compare_eq_gt.mpr h,h]

@[simp] theorem isLE_compare_lowest (round : Nat) (r : BlockRef) :
    (compare (lowest round) r).isLE = true ↔ round ≤ r.round :=
  isLE_compare_mk_zero round r (Nat.zero_le _)

end BlockRef

def genesisRound : Nat := 0

/-- A batch of transactions, named by its slot and its commitment. -/
structure TransactionRef where
  round : Nat
  author : Nat
  transactionsCommitment : Nat
deriving DecidableEq, Repr

namespace TransactionRef

def cmp : TransactionRef → TransactionRef → Ordering :=
  compareLex (compareOn round) (compareLex (compareOn author) (compareOn transactionsCommitment))

instance : Ord TransactionRef := ⟨cmp⟩

instance : Std.TransOrd TransactionRef := inferInstanceAs (Std.TransCmp
  (compareLex (compareOn round) (compareLex (compareOn author) (compareOn transactionsCommitment))))

end TransactionRef

structure CommitRef where
  index : Nat
  digest : Nat
deriving DecidableEq, Repr

namespace CommitRef

def cmp : CommitRef → CommitRef → Ordering := compareLex (compareOn index) (compareOn digest)

instance : Ord CommitRef := ⟨cmp⟩

instance : Std.TransOrd CommitRef :=
  inferInstanceAs (Std.TransCmp (compareLex (compareOn index) (compareOn digest)))

instance : Std.LawfulEqOrd CommitRef where
  eq_of_compare {a b} h := by
    have h' : compare a.index b.index = .eq ∧ compare a.digest b.digest = .eq := by
      simpa [compare,cmp,compareLex,compareOn,Ordering.then_eq_eq] using h
    simp only [compare_eq_iff_eq] at h'
    cases a
    cases b
    simp_all

theorem index_le_of_isLE {a b : CommitRef} (h : (compare a b).isLE = true) : a.index ≤ b.index := by
  have hc : compare a b = (compare a.index b.index).then (compare a.digest b.digest) := rfl
  by_contra hn
  rw [hc,Nat.compare_eq_gt.mpr (Nat.lt_of_not_le hn)] at h
  cases h

end CommitRef

/-- `BlockHeaderV1`. `references` holds ancestors and acknowledgments with their common part once;
the two indices, bytes in the source, delimit that part. -/
structure BlockHeader where
  epoch : Nat
  round : Nat
  author : Nat
  timestampMs : Nat
  references : List BlockRef
  overlapStartIndex : Nat
  overlapEndIndex : Nat
  transactionsCommitment : Nat
  commitVotes : List CommitRef
deriving DecidableEq, Repr

namespace BlockHeader

def ancestors (h : BlockHeader) : Except Panic (List BlockRef) :=
  if h.overlapEndIndex ≤ h.references.length then .ok (h.references.take h.overlapEndIndex)
  else .error .sliceOutOfRange

def acknowledgments (h : BlockHeader) : Except Panic (List BlockRef) :=
  if h.overlapStartIndex ≤ h.references.length then .ok (h.references.drop h.overlapStartIndex)
  else .error .sliceOutOfRange

end BlockHeader

/-- Iteration order of a hash set or the keys of a hash map: any enumeration without repetition. -/
structure HashOrder (α : Type) where
  iter : Finset α → List α
  nodup_iter : ∀ s, (iter s).Nodup
  mem_iter : ∀ s r, r ∈ iter s ↔ r ∈ s

open Std in
def HashOrder.sorted {α : Type} [DecidableEq α] (cmp : α → α → Ordering) [TransCmp cmp]
    [LawfulEqCmp cmp] : HashOrder α where
  iter s := Quot.liftOn s.val (fun l => (ofList l cmp).toList) fun l l' h => by
    have heq : ofList l cmp = ofList l' cmp := ext_mem fun a => by
      simp [mem_ofList,(h : l.Perm l').mem_iff]
    simp only [heq]
  nodup_iter s := by
    obtain ⟨⟨l⟩,_⟩ := s
    have hdistinct := distinct_toList (t := ofList l cmp)
    exact hdistinct.imp fun h he => by simp [he] at h
  mem_iter s r := by
    obtain ⟨⟨l⟩,_⟩ := s
    have hmem := mem_toList (t := ofList l cmp) (k := r)
    exact hmem.trans (by simp [mem_ofList])

/-- Layout `|ancestors_only|overlap|acknowledgments_only|ref0?|` with the two overlap indices cast
to a byte. -/
def compressReferences (o : HashOrder BlockRef) (ancestors acknowledgments : List BlockRef) :
    List BlockRef × Nat × Nat :=
  match ancestors with
  | [] => (acknowledgments,0,0)
  | ref0 :: rest =>
    let ackSet := acknowledgments.toFinset
    let overlap := rest.filter (· ∈ ackSet)
    let ancestorsOnly := ref0 :: rest.filter (· ∉ ackSet)
    let acknowledgmentsOnly := (o.iter ackSet).filter (· ∉ ref0 :: rest)
    let overlapStart := ancestorsOnly.length
    let overlapEnd := overlapStart + overlap.length
    (ancestorsOnly ++ overlap ++ acknowledgmentsOnly ++ (if ref0 ∈ ackSet then [ref0] else []),
      overlapStart % 256,overlapEnd % 256)

def BlockHeader.new (o : HashOrder BlockRef) (epoch : Nat) (round : Nat) (author : Nat)
    (timestampMs : Nat) (ancestors acknowledgments : List BlockRef)
    (commitVotes : List CommitRef) (transactionsCommitment : Nat) :
    BlockHeader :=
  let (references,overlapStartIndex,overlapEndIndex) :=
    compressReferences o ancestors acknowledgments
  { epoch, round, author, timestampMs, references, overlapStartIndex, overlapEndIndex,
    transactionsCommitment, commitVotes }

structure SignedBlockHeader where
  inner : BlockHeader
  signature : Nat
deriving DecidableEq, Repr

/-- A signed header with the digest of its serialized form. Headers enter this type after the
verifier has read their ancestors, so the ancestor slice is in range. -/
@[ext] structure VerifiedBlockHeader where
  signed : SignedBlockHeader
  digest : Nat
  inRange : signed.inner.overlapEndIndex ≤ signed.inner.references.length
deriving DecidableEq

namespace VerifiedBlockHeader
variable (h : VerifiedBlockHeader)

def round : Nat := h.signed.inner.round
def author : Nat := h.signed.inner.author
def timestampMs : Nat := h.signed.inner.timestampMs
def transactionsCommitment : Nat := h.signed.inner.transactionsCommitment
def commitVotes : List CommitRef := h.signed.inner.commitVotes
def ancestors : List BlockRef :=
  h.signed.inner.references.take h.signed.inner.overlapEndIndex
def acknowledgments : Except Panic (List BlockRef) := h.signed.inner.acknowledgments
def reference : BlockRef := ⟨h.round,h.author,h.digest⟩
def slot : Slot := ⟨h.round,h.author⟩

@[simp] theorem reference_round : h.reference.round = h.round := rfl
@[simp] theorem reference_author : h.reference.author = h.author := rfl
@[simp] theorem reference_slot : h.reference.slot = h.slot := rfl

theorem inner_ancestors : h.signed.inner.ancestors = .ok h.ancestors :=
  if_pos h.inRange

end VerifiedBlockHeader
end Iota.Starfish
