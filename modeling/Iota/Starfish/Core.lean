import Iota.Starfish.CommitObserver
import Iota.Starfish.Committer
import Iota.Starfish.DagState.Run

/-! The operations by which a node adds transactions, commits leaders, takes over commits from a
fast sync and restarts. Block creation is represented by its effects on the DAG state and by the
submitters who wait for the status of a block. -/
namespace Iota.Starfish
open Std (ExtTreeMap ExtTreeSet)

inductive BlockStatus
  | sequenced (g : GenericTransactionRef)
  | garbageCollected (g : GenericTransactionRef)
deriving DecidableEq, Repr

/-- The submitters in wait for the status of own transactions, and the statuses sent so far. -/
structure TransactionConsumer where
  blockStatusSubscribers : ExtTreeMap GenericTransactionRef (List Nat)
  statuses : List (Nat × BlockStatus)

namespace TransactionConsumer
variable (t : TransactionConsumer)

def subscribe (g : GenericTransactionRef) (subscribers : List Nat) : TransactionConsumer :=
  let waiting := (t.blockStatusSubscribers[g]?).getD []
  { t with blockStatusSubscribers := t.blockStatusSubscribers.insert g (waiting ++ subscribers) }

def notifySequenced (t : TransactionConsumer) (g : GenericTransactionRef) : TransactionConsumer :=
  match t.blockStatusSubscribers[g]? with
  | none => t
  | some subscribers =>
    ⟨t.blockStatusSubscribers.erase g,t.statuses ++ subscribers.map (·,.sequenced g)⟩

/-- References are popped in their order until one is above the round. -/
def notifyGarbageCollected (gcRound : Nat) : TransactionConsumer :=
  let collected := t.blockStatusSubscribers.toList.takeWhile fun p => p.1.round ≤ gcRound
  ⟨collected.foldl (fun m p => m.erase p.1) t.blockStatusSubscribers,
    t.statuses ++ collected.flatMap fun p => p.2.map (·,.garbageCollected p.1)⟩

def notifyOwnTransactionsStatus (committed : List GenericTransactionRef) (gcRound : Nat) :
    TransactionConsumer :=
  (committed.foldl notifySequenced t).notifyGarbageCollected gcRound

end TransactionConsumer

def DagState.gcRoundForLastCommit {ctx : Context} (s : DagState ctx) : Nat :=
  DagState.gcRound ctx s.lastCommitRound

/-- Commits fetched by a fast sync, with the sub-dags made from them and their transactions. -/
structure FastSyncOutput where
  commits : List TrustedCommit
  committedSubdags : List CommittedSubDag

/-- The transactions of some references leave the map of the verified ones. -/
def removeTransactions (transactions : ExtTreeMap GenericTransactionRef VerifiedTransactions) :
    List GenericTransactionRef →
      List VerifiedTransactions × ExtTreeMap GenericTransactionRef VerifiedTransactions
  | [] => ([],transactions)
  | g :: rest =>
    let (removed,left) := removeTransactions (transactions.erase g) rest
    match transactions[g]? with
    | some t => (t :: removed, left)
    | none => (removed,left)

/-- The last step of `fetch_once`: sub-dags without headers, each with the transactions its commit
names that no earlier one took. -/
def createSubdags : List TrustedCommit →
    ExtTreeMap GenericTransactionRef VerifiedTransactions → List CommittedSubDag
  | [], _ => []
  | commit :: rest, transactions =>
    let (removed,left) := removeTransactions transactions commit.committedTransactions
    { leader := commit.leader, headers := [], committedHeaderRefs := commit.blockHeaders,
      timestampMs := commit.timestampMs, commitRef := commit.reference,
      reputationScoresDesc := commit.reputationScoresDesc, transactions := removed } ::
      createSubdags rest left

structure Core (ctx : Context) where
  dag : DagState ctx
  leaderSchedule : LeaderSchedule
  commitObserver : CommitObserver ctx
  transactionConsumer : TransactionConsumer
  lastDecidedLeader : Slot

/-- The changes of a DAG state by the block manager and by the creation of blocks. -/
def DagOp.Direct : DagOp → Prop
  | .acceptBlockHeader _ | .addTransactions _ _ | .takeCommitVotes _ | .takeAcknowledgments _
  | .flush => True
  | _ => False

namespace Core
variable {ctx : Context} (c : Core ctx)

/-- The leader schedule changes as soon as a window of commits is full. -/
def updateScheduleIfDue : Except Panic (Core ctx) :=
  if c.leaderSchedule.commitsUntilLeaderScheduleUpdate c.dag = 0 then do
    let (schedule,dag) ← c.leaderSchedule.updateLeaderSchedule c.dag
    if schedule.commitsUntilLeaderScheduleUpdate dag = 0 then .error .scheduleUpdateDue
    else .ok { c with leaderSchedule := schedule, dag := dag }
  else .ok c

/-- Leaders handed to the observer; pending and solid sub-dags are both scored. -/
def commitSequenced (leaders : List VerifiedBlockHeader) :
    Except Panic (List PendingSubDag × ExtTreeMap GenericTransactionRef (Finset Nat) ×
      Core ctx) := do
  let (subdags,missing,observer,dag) ←
    c.commitObserver.handleCommittedLeaders c.leaderSchedule c.dag leaders
  let dag ← dag.addScoringSubdags (subdags.map PendingSubDag.toSubDagBase)
  .ok (subdags,missing,{ c with commitObserver := observer, dag := dag })

/-- The loop of `try_commit`, with the sub-dags committed and the references found missing so
far. -/
def tryCommitLoop : Nat → Core ctx → List PendingSubDag →
    ExtTreeMap GenericTransactionRef (Finset Nat) → Except Panic (List PendingSubDag × Core ctx)
  | 0, _, _, _ => .error .outOfFuel
  | fuel+1, c, committed, missing => do
    let c ← c.updateScheduleIfDue
    let decided ← UniversalCommitter.tryDecide c.leaderSchedule c.dag c.lastDecidedLeader
    -- decided leaders beyond the window are decided again with the next schedule
    let decided := decided.take (c.leaderSchedule.commitsUntilLeaderScheduleUpdate c.dag)
    match decided.getLast? with
    | none => .ok (committed,c)
    | some last =>
      let c := { c with lastDecidedLeader := last.slot }
      let sequenced := decided.filterMap DecidedLeader.intoCommittedBlock
      if sequenced = [] then .ok (committed,c)
      else
        let (subdags,authors,c) ← c.commitSequenced sequenced
        if authors.keys.any fun g => missing.contains g then .error .duplicateMissingRef
        else tryCommitLoop fuel c (committed ++ subdags) (missing.insertMany authors.toList)

/-- `try_commit`: own committed transactions are notified once the loop has ended. -/
def tryCommit : Except Panic (Core ctx) := do
  let (committed,c) ← tryCommitLoop (c.dag.highestAcceptedRound+2) c [] ∅
  let own := (committed.flatMap fun d => d.committedTransactionRefs).filter fun g =>
    g.author = c.dag.ownIndex
  .ok { c with transactionConsumer :=
    c.transactionConsumer.notifyOwnTransactionsStatus own c.dag.gcRoundForLastCommit }

/-- `add_transactions`: sub-dags in wait may become solid, no leader is committed. -/
def addTransactions (transactions : List VerifiedTransactions) (source : DataSource) :
    Except Panic (Core ctx) := do
  let dag := transactions.foldl (fun s t => s.addTransactions t source) c.dag
  let (_,_,observer,dag) ← c.commitObserver.handleCommittedLeaders c.leaderSchedule dag []
  .ok { c with commitObserver := observer, dag := dag }

/-- A commit from a fast sync; one that carries scores updates the leader schedule first. -/
def addSyncedCommit (acc : LeaderSchedule × DagState ctx) (commit : TrustedCommit) :
    Except Panic (LeaderSchedule × DagState ctx) := do
  let (schedule,s) ←
    (if commit.reputationScoresDesc = [] then .ok acc
    else acc.1.updateFromCommitScores acc.2 commit.index commit.reputationScoresDesc)
  let s ← s.addCommit commit
  .ok (schedule,s)

def addSyncedTransactions (s : DagState ctx) (subdags : List CommittedSubDag) : DagState ctx :=
  (subdags.flatMap fun d => d.transactions).foldl
    (fun s t => s.addTransactions t .fastCommitSyncer) s

def handleCommittedSubDagsFromFastSync (output : FastSyncOutput) : Except Panic (Core ctx) := do
  let (schedule,dag) ← output.commits.foldlM addSyncedCommit (c.leaderSchedule,c.dag)
  let dag := ((addSyncedTransactions dag output.committedSubdags).setFastSyncOngoingFlag true).flush
  let (observer,dag) ← c.commitObserver.finalizeAndSendSolidSubdags dag output.committedSubdags
  .ok { c with leaderSchedule := schedule, commitObserver := observer, dag := dag }

def reinitializeComponents (refOrder : HashOrder BlockRef) (slotOrder : HashOrder Slot)
    (headers : List VerifiedBlockHeader) : Except Panic (Core ctx) := do
  let dag ← headers.foldlM DagState.acceptBlockHeader c.dag
  let dag := (dag.setFastSyncOngoingFlag false).flush
  let lastCommitIndex := dag.lastCommitIndex
  let dag ← dag.reinitializeCaches
  let schedule ← c.leaderSchedule.reinitializeTable dag
  let (observer,dag') ←
    c.commitObserver.reinitialize refOrder slotOrder schedule dag lastCommitIndex
  .ok { c with
    leaderSchedule := schedule
    commitObserver := observer
    dag := dag'
    lastDecidedLeader := dag.lastCommitLeader }

/-- The components built anew from the store, for a consumer that has processed commits up to some
index. No submitter of the old process is in wait. -/
def restart (refOrder : HashOrder BlockRef) (slotOrder : HashOrder Slot)
    (lastProcessedCommitIndex : Nat) : Except Panic (Core ctx) := do
  let dag ← DagState.new ctx c.dag.ownIndex c.dag.cachedRounds c.dag.store
  let schedule ← LeaderSchedule.fromStore ctx dag.store
  let (observer,dag) ←
    CommitObserver.new refOrder slotOrder schedule dag lastProcessedCommitIndex
  .ok { dag := dag
        leaderSchedule := schedule
        commitObserver := observer
        transactionConsumer := ⟨∅,c.transactionConsumer.statuses⟩
        lastDecidedLeader := dag.lastCommitLeader }

end Core

inductive CoreOp
  | dag (op : DagOp)
  | addTransactions (transactions : List VerifiedTransactions) (source : DataSource)
  | tryCommit
  | subscribe (g : GenericTransactionRef) (subscribers : List Nat)
  | fastSync (output : FastSyncOutput)
  | reinitializeComponents (refOrder : HashOrder BlockRef) (slotOrder : HashOrder Slot)
      (headers : List VerifiedBlockHeader)
  | restart (refOrder : HashOrder BlockRef) (slotOrder : HashOrder Slot)
      (lastProcessedCommitIndex : Nat)

namespace Core
variable {ctx : Context}

def exec (c : Core ctx) : CoreOp → Except Panic (Core ctx)
  | .dag op => (c.dag.exec op).map fun dag => { c with dag := dag }
  | .addTransactions transactions source => c.addTransactions transactions source
  | .tryCommit => c.tryCommit
  | .subscribe g subscribers => .ok { c with
      transactionConsumer := c.transactionConsumer.subscribe g subscribers }
  | .fastSync output => c.handleCommittedSubDagsFromFastSync output
  | .reinitializeComponents refOrder slotOrder headers =>
    c.reinitializeComponents refOrder slotOrder headers
  | .restart refOrder slotOrder lastProcessedCommitIndex =>
    c.restart refOrder slotOrder lastProcessedCommitIndex

def Initial (ownIndex cachedRounds : Nat) (c : Core ctx) : Prop :=
  DagState.Initial ownIndex cachedRounds c.dag ∧ c.leaderSchedule = .new .default ∧
    c.commitObserver = ⟨.new,.new,⟨0,[]⟩,0⟩ ∧ c.transactionConsumer = ⟨∅,[]⟩ ∧
    c.lastDecidedLeader = c.dag.lastCommitLeader

end Core
end Iota.Starfish
