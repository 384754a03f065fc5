import Iota.Lib.Traversal
import Iota.Starfish.LeaderSchedule

/-! Committed leaders become commits: the headers of a leader's history not committed before, and
the transactions whose acknowledgments reach a quorum with them. -/
namespace Iota.Starfish
open Std (ExtTreeMap ExtTreeSet)

/-- The first commit format has no reputation scores, the second names transactions by their own
references. -/
def Commit.new (ctx : Context) (index previousDigest timestampMs : Nat) (leader : BlockRef)
    (blockHeaders : List BlockRef) (committedTransactions : List GenericTransactionRef)
    (reputationScoresDesc : List (Nat × Nat)) : Commit where
  index := index
  previousDigest := previousDigest
  timestampMs := timestampMs
  leader := leader
  blockHeaders := blockHeaders
  committedTransactions := committedTransactions
  reputationScoresDesc :=
    if ctx.protocolConfig.consensusFastCommitSync then reputationScoresDesc else []

def TrustedCommit.newTrusted (ctx : Context) (commit : Commit) : TrustedCommit :=
  ⟨commit,ctx.hashCommit commit⟩

/-- The first timestamp at which the accumulated stake is above `half`. -/
def firstAbove (half : Nat) : Nat → List (Nat × Nat) → Option Nat
  | _, [] => none
  | cumulative, (timestamp,stake) :: rest =>
    if half < cumulative + stake then some timestamp else firstAbove half (cumulative + stake) rest

def medianTimestampsByStakeInner (timestamps : List (Nat × Nat)) (totalStake : Nat) : Nat :=
  let sorted := timestamps.insertionSort fun a b => a.1 ≤ b.1
  (firstAbove (totalStake / 2) 0 sorted).getD ((sorted.getLast?.map Prod.fst).getD 0)

/-- Median of the timestamps weighted by the stake of the authors. -/
def medianTimestampByStake (c : Committee) (headers : List VerifiedBlockHeader) :
    Except Panic Nat :=
  let timestamps := headers.map fun h => (h.timestampMs,c.stake h.author)
  let totalStake := (timestamps.map Prod.snd).sum
  if timestamps = [] then .error .medianTimestampMissing
  else if totalStake < c.quorumThreshold then .error .medianTimestampMissing
  else .ok (medianTimestampsByStakeInner timestamps totalStake)

/-- `Linearizer`: the votes for referenced transactions and the headers traversed so far. -/
structure Linearizer (ctx : Context) where
  transactionsAckTracker : ExtTreeMap BlockRef (StakeAggregator ctx.committee)
  traversedHeadersTracker : ExtTreeSet BlockRef

namespace Linearizer
variable {ctx : Context}

def new : Linearizer ctx := ⟨∅,∅⟩

def clearState (_ : Linearizer ctx) : Linearizer ctx := new

/-- The ancestors the traversal follows: above the committed round of their author and not too far
below the leader. -/
def openAncestors (lastCommittedRounds : Nat → Nat) (lowest : Nat) (h : VerifiedBlockHeader) :
    List BlockRef :=
  h.ancestors.filter fun a => lastCommittedRounds a.author < a.round ∧ lowest ≤ a.round

def expectUncommitted (get : BlockRef → Option VerifiedBlockHeader) (r : BlockRef) :
    Except Panic VerifiedBlockHeader :=
  match get r with
  | some h => .ok h
  | none => .error .uncommittedBlockMissing

def linearizeSubDag (get : BlockRef → Option VerifiedBlockHeader) (fuel : Nat)
    (lastCommittedRounds : Nat → Nat) (maxLinearizerDepth : Nat) (leader : VerifiedBlockHeader) :
    Except Panic (List VerifiedBlockHeader) :=
  (Traversal.visit VerifiedBlockHeader.reference
    (openAncestors lastCommittedRounds (leader.round - maxLinearizerDepth))
    (expectUncommitted get) .headerTraversedTwice .outOfFuel fuel [leader] []
    {leader.reference}).map sortSubDagBlocks

/-- Median over the parents of the leader, and no earlier than the last commit. -/
def calculateCommitTimestamp (s : DagState ctx) (leader : VerifiedBlockHeader) :
    Except Panic Nat := do
  let parents ← DagState.expectHeaders
    (s.getVerifiedBlockHeaders (leader.ancestors.filter fun a => a.round = leader.round - 1))
  let timestampMs ← medianTimestampByStake ctx.committee parents
  .ok (max timestampMs s.lastCommitTimestampMs)

variable (l : Linearizer ctx)

def recordTraversedHeaders (headers : List VerifiedBlockHeader) : Linearizer ctx :=
  if ctx.protocolConfig.consensusCommitTransactionsOnlyForTraversedHeaders then
    { l with traversedHeadersTracker :=
        l.traversedHeadersTracker.insertMany (headers.map VerifiedBlockHeader.reference) }
  else l

def votesFor (r : BlockRef) : StakeAggregator ctx.committee :=
  (l.transactionsAckTracker[r]?).getD .new

/-- Transactions may have to wait for their header to be traversed. -/
def committable (r : BlockRef) : Bool :=
  !ctx.protocolConfig.consensusCommitTransactionsOnlyForTraversedHeaders ||
    l.traversedHeadersTracker.contains r

/-- One acknowledgment within the window. The flag says that the reference is committed with it. -/
def addAck (authority : Nat) (r : BlockRef) : Bool × Linearizer ctx :=
  let before := l.votesFor r
  let after := before.add authority
  (after.reachedThreshold && !before.reachedThreshold && l.committable r,
    { l with transactionsAckTracker := l.transactionsAckTracker.insert r after })

def addCommittedTransactionAcks (round authority : Nat) :
    Linearizer ctx → List BlockRef → List BlockRef × Linearizer ctx
  | l, [] => ([],l)
  | l, r :: rest =>
    if r.round < round - ctx.protocolConfig.gcDepth then
      addCommittedTransactionAcks round authority l rest
    else
      let (reached,l) := l.addAck authority r
      let (committed,l) := addCommittedTransactionAcks round authority l rest
      (if reached then r :: committed else committed, l)

/-- The acknowledgments of the committed headers, in their order. -/
def addAcksOf : Linearizer ctx → List VerifiedBlockHeader →
    Except Panic (List BlockRef × Linearizer ctx)
  | l, [] => .ok ([],l)
  | l, h :: rest => do
    let acks ← h.acknowledgments
    let (committed,l) := addCommittedTransactionAcks h.round h.author l acks
    let (others,l) ← addAcksOf l rest
    .ok (committed ++ others,l)

/-- With fast commit sync a reference becomes that of the header's transactions. -/
def genericTransactionRefs (s : DagState ctx) (committed : List BlockRef) :
    Except Panic (List GenericTransactionRef) :=
  if ctx.protocolConfig.consensusFastCommitSync then
    (committed.zip (s.getTransactionsCommitmentsBatch committed)).mapM fun p =>
      match p.2 with
      | some commitment => .ok (.transactionRef ⟨p.1.round,p.1.author,commitment⟩)
      | none => .error .committedHeaderMissing
  else .ok (committed.map .blockRef)

/-- The commit of a leader, after the last commit of the state. -/
def newCommit (s : DagState ctx) (leader : VerifiedBlockHeader)
    (headers : List VerifiedBlockHeader) (timestampMs : Nat)
    (committedTransactions : List GenericTransactionRef)
    (reputationScoresDesc : List (Nat × Nat)) : TrustedCommit :=
  TrustedCommit.newTrusted ctx (Commit.new ctx (s.lastCommitIndex+1) s.lastCommitDigest
    timestampMs leader.reference (headers.map VerifiedBlockHeader.reference)
    committedTransactions reputationScoresDesc)

def newSubDag (commit : TrustedCommit) (headers : List VerifiedBlockHeader)
    (reputationScoresDesc : List (Nat × Nat)) : PendingSubDag where
  leader := commit.leader
  headers := headers
  committedHeaderRefs := commit.blockHeaders
  timestampMs := commit.timestampMs
  commitRef := commit.reference
  reputationScoresDesc := reputationScoresDesc
  committedTransactionRefs := commit.committedTransactions

def collectSubDagAndCommit (s : DagState ctx) (leader : VerifiedBlockHeader)
    (reputationScoresDesc : List (Nat × Nat)) :
    Except Panic (PendingSubDag × TrustedCommit × Linearizer ctx) := do
  let toCommit ← linearizeSubDag s.getVerifiedBlockHeader (s.headerCount+1)
    s.lastCommittedRounds ctx.protocolConfig.gcDepth leader
  let timestampMs ← calculateCommitTimestamp s leader
  let (committed,l) ← (l.recordTraversedHeaders toCommit).addAcksOf toCommit
  if committed.Nodup then
    let refs ← genericTransactionRefs s committed
    let commit := newCommit s leader toCommit timestampMs refs reputationScoresDesc
    .ok (newSubDag commit toCommit reputationScoresDesc,commit,l)
  else .error .duplicateBlockRef

/-- A leader is committed and its commit added to the DAG state. -/
def commitLeader (s : DagState ctx) (leader : VerifiedBlockHeader)
    (reputationScoresDesc : List (Nat × Nat)) :
    Except Panic (PendingSubDag × Linearizer ctx × DagState ctx) := do
  let (subDag,commit,l) ← l.collectSubDagAndCommit s leader reputationScoresDesc
  let s ← s.addCommit commit
  .ok (subDag,l,s)

/-- The leaders one after another; the scores go to the first. -/
def commitLeaders : Linearizer ctx → DagState ctx → List (Nat × Nat) →
    List VerifiedBlockHeader → Except Panic (List PendingSubDag × Linearizer ctx × DagState ctx)
  | l, s, _, [] => .ok ([],l,s)
  | l, s, scores, leader :: rest => do
    let (subDag,l,s) ← l.commitLeader s leader scores
    let (subDags,l,s) ← commitLeaders l s [] rest
    .ok (subDag :: subDags, l, s)

/-- `get_pending_sub_dags`: after an update of the leader schedule the first sub-dag carries the
scores. -/
def getPendingSubDags (schedule : LeaderSchedule) (s : DagState ctx)
    (leaders : List VerifiedBlockHeader) :
    Except Panic (List PendingSubDag × Linearizer ctx × DagState ctx) :=
  commitLeaders l s (if LeaderSchedule.leaderScheduleUpdated s then
    schedule.leaderSwapTable.reputationScoresDesc else []) leaders

/-- `evict_linearizer`: references up to twice the depth below the solid leader are dropped. -/
def evictLinearizer (solidCommitLeaderRound : Nat) : Linearizer ctx :=
  let bound := BlockRef.lowest (solidCommitLeaderRound - ctx.protocolConfig.gcDepth * 2 + 1)
  { transactionsAckTracker := l.transactionsAckTracker.splitOff bound
    traversedHeadersTracker :=
      if ctx.protocolConfig.consensusCommitTransactionsOnlyForTraversedHeaders then
        l.traversedHeadersTracker.splitOff bound
      else l.traversedHeadersTracker }

/-- `transaction_acknowledgments`: the acknowledgments of the headers of a sub-dag by slot, with
slots and references in the order of the hash maps. -/
def transactionAcknowledgments (refOrder : HashOrder BlockRef) (slotOrder : HashOrder Slot)
    (headers : List VerifiedBlockHeader) : Except Panic (List (Slot × List BlockRef)) := do
  let acks ← headers.mapM fun h => h.acknowledgments.map fun acks => (h.slot,acks)
  .ok ((slotOrder.iter (acks.map Prod.fst).toFinset).map fun slot =>
    (slot,refOrder.iter ((acks.filter fun p => p.1 = slot).flatMap Prod.snd).toFinset))

def recoverCommit (refOrder : HashOrder BlockRef) (slotOrder : HashOrder Slot) (store : Store)
    (l : Linearizer ctx) (commit : TrustedCommit) : Except Panic (Linearizer ctx) := do
  let subDag ← store.loadSubDagBase commit
  let acks ← transactionAcknowledgments refOrder slotOrder subDag.headers
  .ok (acks.foldl (fun l p => (addCommittedTransactionAcks p.1.round p.1.authority l p.2).2)
    (l.recordTraversedHeaders subDag.headers))

/-- The trackers rebuilt from the last stored commits, as on recovery. -/
def recoverState (refOrder : HashOrder BlockRef) (slotOrder : HashOrder Slot) (store : Store)
    (lastCommitIndex : Nat) : Except Panic (Linearizer ctx) :=
  let recoveryStart := max (lastCommitIndex - ctx.protocolConfig.gcDepth * 2) 1
  (store.scanCommits recoveryStart lastCommitIndex).foldlM
    (recoverCommit refOrder slotOrder store) new

end Linearizer
end Iota.Starfish
