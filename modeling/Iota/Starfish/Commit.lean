import Iota.Starfish.BlockHeader

/-! Commits, the sub-dags they come from and the decisions on leaders. -/
namespace Iota.Starfish

def waveLength : Nat := 3
def genesisCommitIndex : Nat := 0

/-- Committed transactions are named by block reference or, with fast commit sync, by
transaction reference. -/
inductive GenericTransactionRef
  | blockRef (r : BlockRef)
  | transactionRef (t : TransactionRef)
deriving DecidableEq, Repr

namespace GenericTransactionRef

def variantIndex : GenericTransactionRef → Nat
  | blockRef _ => 0
  | transactionRef _ => 1

def key : GenericTransactionRef → BlockRef
  | blockRef r => r
  | transactionRef t => ⟨t.round,t.author,t.transactionsCommitment⟩

def round (g : GenericTransactionRef) : Nat := g.key.round
def author (g : GenericTransactionRef) : Nat := g.key.author

def cmp : GenericTransactionRef → GenericTransactionRef → Ordering :=
  compareLex (compareOn variantIndex) (compareOn key)

instance : Ord GenericTransactionRef := ⟨cmp⟩

instance : Std.TransOrd GenericTransactionRef := inferInstanceAs (Std.TransCmp
  (compareLex (compareOn variantIndex) (compareOn key)))

instance : Std.LawfulEqOrd GenericTransactionRef where
  eq_of_compare {a b} h := by
    have h' : compare a.variantIndex b.variantIndex = .eq ∧ compare a.key b.key = .eq := by
      simpa [compare,cmp,compareLex,compareOn,Ordering.then_eq_eq] using h
    have hv : a.variantIndex = b.variantIndex := compare_eq_iff_eq.mp h'.1
    have hk : a.key = b.key := Std.LawfulEqOrd.eq_of_compare h'.2
    cases a with
    | blockRef r =>
      cases b with
      | blockRef r' => exact congrArg blockRef hk
      | transactionRef t => cases hv
    | transactionRef t =>
      cases b with
      | blockRef r => cases hv
      | transactionRef t' =>
        cases t
        cases t'
        simp_all [key]

end GenericTransactionRef

/-- `CommitV1` and `CommitV2`; the first has no reputation scores. -/
structure Commit where
  index : Nat
  previousDigest : Nat
  timestampMs : Nat
  leader : BlockRef
  blockHeaders : List BlockRef
  committedTransactions : List GenericTransactionRef
  reputationScoresDesc : List (Nat × Nat)
deriving DecidableEq, Repr

structure TrustedCommit extends Commit where
  digest : Nat
deriving DecidableEq, Repr

namespace TrustedCommit

def reference (c : TrustedCommit) : CommitRef := ⟨c.index,c.digest⟩
def round (c : TrustedCommit) : Nat := c.leader.round

end TrustedCommit

/-- Transactions with the reference they are stored under. The block digest is absent when they
arrive without a header. -/
structure VerifiedTransactions where
  transactions : List Nat
  transactionRef : TransactionRef
  blockDigest : Option Nat
deriving DecidableEq, Repr

namespace VerifiedTransactions

def blockRef (t : VerifiedTransactions) : Option BlockRef :=
  t.blockDigest.map fun digest => ⟨t.transactionRef.round,t.transactionRef.author,digest⟩

def hasTransactions (t : VerifiedTransactions) : Bool := !t.transactions.isEmpty

end VerifiedTransactions

structure SubDagBase where
  leader : BlockRef
  headers : List VerifiedBlockHeader
  committedHeaderRefs : List BlockRef
  timestampMs : Nat
  commitRef : CommitRef
  reputationScoresDesc : List (Nat × Nat)
deriving DecidableEq

structure PendingSubDag extends SubDagBase where
  committedTransactionRefs : List GenericTransactionRef
deriving DecidableEq

/-- The order of `sort_sub_dag_blocks`: by round, then author. -/
def subDagLE (a b : VerifiedBlockHeader) : Prop :=
  a.round < b.round ∨ a.round = b.round ∧ a.author ≤ b.author

instance : DecidableRel subDagLE := fun _ _ => inferInstanceAs (Decidable (_ ∨ _))

def sortSubDagBlocks (headers : List VerifiedBlockHeader) : List VerifiedBlockHeader :=
  headers.insertionSort subDagLE

instance : Std.Total subDagLE := ⟨fun a b => by unfold subDagLE; omega⟩
instance : IsTrans VerifiedBlockHeader subDagLE := ⟨fun a b c => by unfold subDagLE; omega⟩

theorem sortSubDagBlocks_perm (l : List VerifiedBlockHeader) : (sortSubDagBlocks l).Perm l :=
  List.perm_insertionSort subDagLE l

structure CommitRange where
  start : Nat
  stop : Nat
deriving DecidableEq, Repr

namespace CommitRange

def new (first last : Nat) : CommitRange := ⟨first,last+1⟩
def last (r : CommitRange) : Nat := r.stop - 1
def size (r : CommitRange) : Nat := r.stop - r.start
def isNextRange (r other : CommitRange) : Bool := r.stop = other.start
def isEqualSize (r other : CommitRange) : Bool := r.size = other.size

end CommitRange

structure ReputationScores where
  scoresPerAuthority : List Nat
  commitRange : CommitRange
deriving DecidableEq, Repr

structure CommitInfo where
  committedRounds : List Nat
  reputationScores : ReputationScores
deriving DecidableEq, Repr

inductive Decision
  | direct
  | indirect
deriving DecidableEq, Repr

inductive LeaderStatus
  | commit (header : VerifiedBlockHeader)
  | skip (slot : Slot)
  | undecided (slot : Slot)
deriving DecidableEq

namespace LeaderStatus

def round : LeaderStatus → Nat
  | commit header => header.round
  | skip slot => slot.round
  | undecided slot => slot.round

def isDecided : LeaderStatus → Bool
  | commit _ => true
  | skip _ => true
  | undecided _ => false

end LeaderStatus

inductive DecidedLeader
  | commit (header : VerifiedBlockHeader)
  | skip (slot : Slot)
deriving DecidableEq

namespace DecidedLeader

def slot : DecidedLeader → Slot
  | commit header => header.slot
  | skip slot => slot

def intoCommittedBlock : DecidedLeader → Option VerifiedBlockHeader
  | commit header => some header
  | skip _ => none

end DecidedLeader

def LeaderStatus.intoDecidedLeader : LeaderStatus → Option DecidedLeader
  | commit header => some (.commit header)
  | skip slot => some (.skip slot)
  | undecided _ => none

end Iota.Starfish
