import Iota.Starfish.CommitSolidifier
import Iota.Starfish.Linearizer

/-! Sub-dags of committed leaders are made solid and sent to the consumer of the consensus output.
After a restart the commits the consumer has not processed are sent again. -/
namespace Iota.Starfish
open Std (ExtTreeMap ExtTreeSet)

/-- The consumer: the commit index it starts after, and the sub-dags it was sent. -/
structure CommitConsumer where
  lastProcessedCommitIndex : Nat
  received : List CommittedSubDag

structure CommitObserver (ctx : Context) where
  linearizer : Linearizer ctx
  commitSolidifier : CommitSolidifier
  consumer : CommitConsumer
  lastSentCommitIndex : Nat

/-- `get_transaction_ack_authors`: the votes for missing transactions whose block is known. -/
def Linearizer.getTransactionAckAuthors {ctx : Context} (l : Linearizer ctx) (s : DagState ctx)
    (missingRefs : ExtTreeSet GenericTransactionRef) :
    ExtTreeMap GenericTransactionRef (Finset Nat) :=
  missingRefs.toList.foldl (fun m g =>
    let blockRef := match g with
      | .blockRef r => some r
      | .transactionRef t => s.resolveBlockRef t
    match blockRef.bind fun r => l.transactionsAckTracker[r]? with
    | some acknowledgments => m.insert g acknowledgments.votes
    | none => m) ∅

namespace CommitObserver
variable {ctx : Context} (o : CommitObserver ctx)

/-- Commits up to the last sent one are skipped, others are sent in order. -/
def sendSubDag (o : CommitObserver ctx) (d : CommittedSubDag) :
    Except Panic (CommitObserver ctx) :=
  if d.commitRef.index ≤ o.lastSentCommitIndex then .ok o
  else if d.commitRef.index ≠ o.lastSentCommitIndex+1 then .error .commitSentOutOfOrder
  else .ok { o with
    consumer := { o.consumer with received := o.consumer.received ++ [d] }
    lastSentCommitIndex := d.commitRef.index }

def sendSubDags (subdags : List CommittedSubDag) : Except Panic (CommitObserver ctx) :=
  subdags.foldlM sendSubDag o

/-- The last solid sub-dag evicts from the linearizer and becomes that of the DAG state. -/
def updateWithSolidSubdagsAndFlush (s : DagState ctx) (solid : List CommittedSubDag) :
    CommitObserver ctx × DagState ctx :=
  match solid.getLast? with
  | some d => ({ o with linearizer := o.linearizer.evictLinearizer d.leader.round },
      (s.updateLastSolidSubdagBase d.toSubDagBase).flush)
  | none => (o,s.flush)

def finalizeAndSendSolidSubdags (s : DagState ctx) (solid : List CommittedSubDag) :
    Except Panic (CommitObserver ctx × DagState ctx) := do
  let (o,s) := o.updateWithSolidSubdagsAndFlush s solid
  let o ← o.sendSubDags solid
  .ok (o,s)

/-- Sub-dags made pending before may become solid together with the new ones. -/
def handleCommittedLeaders (schedule : LeaderSchedule) (s : DagState ctx)
    (leaders : List VerifiedBlockHeader) :
    Except Panic (List PendingSubDag × ExtTreeMap GenericTransactionRef (Finset Nat) ×
      CommitObserver ctx × DagState ctx) := do
  let (pending,linearizer,s) ← o.linearizer.getPendingSubDags schedule s leaders
  let (solid,missing,solidifier,s) ← o.commitSolidifier.tryGetSolidSubDags s pending
  let authors := linearizer.getTransactionAckAuthors s missing
  let (o,s) ← finalizeAndSendSolidSubdags
    { o with linearizer := linearizer, commitSolidifier := solidifier } s solid
  .ok (pending,authors,o,s)

/-- `build_committed_subdag_from_commit`: no headers, and nothing if transactions are missing. -/
def buildCommittedSubdag (s : DagState ctx) (commit : TrustedCommit) (scores : List (Nat × Nat)) :
    Except Panic (Option CommittedSubDag) := do
  let transactions ← s.tryGetAllVerifiedTransactions commit.committedTransactions
  match transactions with
  | .error _ => .ok none
  | .ok transactions => .ok (some
      { leader := commit.leader, headers := [], committedHeaderRefs := commit.blockHeaders,
        timestampMs := commit.timestampMs, commitRef := commit.reference,
        reputationScoresDesc := scores, transactions := transactions })

/-- The last processed commit becomes the last solid one, if its transactions are there. -/
def initializeLastSolid (s : DagState ctx) (lastProcessedCommitIndex : Nat) :
    Except Panic (CommitObserver ctx × DagState ctx) :=
  if lastProcessedCommitIndex = 0 then .ok (o,s)
  else match s.store.scanCommits lastProcessedCommitIndex lastProcessedCommitIndex with
    | [] => .ok (o,s)
    | commit :: _ => do
      match ← buildCommittedSubdag s commit [] with
      | none => .ok (o,s)
      | some d => .ok (o.updateWithSolidSubdagsAndFlush s [d])

/-- The commits to send again, up to the first one with missing transactions. Only the last commit
carries scores. -/
def buildUnprocessed (s : DagState ctx) (scores : List (Nat × Nat)) :
    Nat → List TrustedCommit → Except Panic (List CommittedSubDag)
  | _, [] => .ok []
  | expected, commit :: rest =>
    if commit.index ≠ expected then .error .commitIndexGap
    else do
      match ← buildCommittedSubdag s commit (if rest = [] then scores else []) with
      | none => .ok []
      | some d =>
        let ds ← buildUnprocessed s scores (expected+1) rest
        .ok (d :: ds)

def resendUnprocessedSolidCommits (schedule : LeaderSchedule) (s : DagState ctx)
    (lastProcessedCommitIndex lastCommitIndex : Nat) :
    Except Panic (CommitObserver ctx × DagState ctx) :=
  if lastCommitIndex ≤ lastProcessedCommitIndex then
    o.initializeLastSolid s lastProcessedCommitIndex
  else do
    let subdags ← buildUnprocessed s schedule.leaderSwapTable.reputationScoresDesc
      (o.lastSentCommitIndex+1)
      (s.store.scanCommits (lastProcessedCommitIndex+1) lastCommitIndex)
    let (o,s) ←
      (if subdags = [] then o.initializeLastSolid s lastProcessedCommitIndex else .ok (o,s))
    o.finalizeAndSendSolidSubdags s subdags

/-- What recovery does with one stored commit: recent ones rebuild the trackers of the linearizer,
unsent ones go to the solidifier. -/
def recoverCommit (refOrder : HashOrder BlockRef) (slotOrder : HashOrder Slot) (store : Store)
    (linearizerStart solidifierStart : Nat) (acc : Linearizer ctx × List PendingSubDag)
    (commit : TrustedCommit) : Except Panic (Linearizer ctx × List PendingSubDag) := do
  let base ← store.loadSubDagBase commit
  let linearizer ← (if linearizerStart ≤ commit.index then
    Linearizer.recoverCommit refOrder slotOrder store acc.1 commit else .ok acc.1)
  .ok (linearizer,if solidifierStart ≤ commit.index then
    acc.2 ++ [⟨base,commit.committedTransactions⟩] else acc.2)

def recoverLinearizerAndSolidifierState (refOrder : HashOrder BlockRef)
    (slotOrder : HashOrder Slot) (s : DagState ctx) (lastCommitIndex : Nat) :
    Except Panic (CommitObserver ctx × DagState ctx) := do
  let linearizerStart := max (lastCommitIndex - ctx.protocolConfig.gcDepth * 2) 1
  let solidifierStart := o.lastSentCommitIndex+1
  let (linearizer,pending) ←
    (s.store.scanCommits (min linearizerStart solidifierStart) lastCommitIndex).foldlM
      (recoverCommit refOrder slotOrder s.store linearizerStart solidifierStart)
      (o.linearizer,[])
  let o := { o with
    linearizer := linearizer
    commitSolidifier := o.commitSolidifier.setLastSolidCommittedIndex o.lastSentCommitIndex }
  if pending = [] then .ok (o,s)
  else
    let (solid,_,solidifier,s) ← o.commitSolidifier.tryGetSolidSubDags s pending
    finalizeAndSendSolidSubdags { o with commitSolidifier := solidifier } s solid

/-- While a fast sync is marked as ongoing only the first phase runs. -/
def recoverAndSendCommits (refOrder : HashOrder BlockRef) (slotOrder : HashOrder Slot)
    (schedule : LeaderSchedule) (s : DagState ctx) (lastProcessedCommitIndex : Nat) :
    Except Panic (CommitObserver ctx × DagState ctx) :=
  let lastCommitIndex := match s.store.readLastCommit with
    | some commit => commit.index
    | none => 0
  if lastCommitIndex < lastProcessedCommitIndex then .error .consensusBehindNode
  else if lastCommitIndex = 0 then .ok (o,s)
  else do
    let (o,s) ← o.resendUnprocessedSolidCommits schedule s lastProcessedCommitIndex lastCommitIndex
    if s.store.fastSyncOngoing then .ok (o,s)
    else o.recoverLinearizerAndSolidifierState refOrder slotOrder s lastCommitIndex

def new (refOrder : HashOrder BlockRef) (slotOrder : HashOrder Slot) (schedule : LeaderSchedule)
    (s : DagState ctx) (lastProcessedCommitIndex : Nat) :
    Except Panic (CommitObserver ctx × DagState ctx) :=
  recoverAndSendCommits
    { linearizer := .new
      commitSolidifier := .new
      consumer := ⟨lastProcessedCommitIndex,[]⟩
      lastSentCommitIndex := lastProcessedCommitIndex }
    refOrder slotOrder schedule s lastProcessedCommitIndex

/-- `reinitialize`, after a fast sync: everything committed so far counts as sent. -/
def reinitialize (refOrder : HashOrder BlockRef) (slotOrder : HashOrder Slot)
    (schedule : LeaderSchedule) (s : DagState ctx) (lastCommitIndex : Nat) :
    Except Panic (CommitObserver ctx × DagState ctx) :=
  recoverAndSendCommits
    { o with linearizer := o.linearizer.clearState, lastSentCommitIndex := lastCommitIndex }
    refOrder slotOrder schedule s lastCommitIndex

end CommitObserver
end Iota.Starfish
