import Iota.Authority.TransactionDeferral
import Iota.Lib.RefCounted
import Iota.Types.Checkpoint

/-! The output of a consensus commit stays in memory until the checkpoints built from it have been
executed; only then it is written to the tables of the epoch. Reads look in memory first and fall
back to the tables. -/
namespace Iota.Authority
open Std (ExtTreeMap)

abbrev SequenceNumber := Nat
abbrev CheckpointSequenceNumber := Nat
abbrev CheckpointHeight := Nat
abbrev SequencedConsensusTransactionKey := Nat

inductive TransactionKey
  | digest (digest : TransactionDigest)
  | randomnessRound (epoch round : Nat)
deriving DecidableEq, Repr

structure PendingCheckpointInfo where
  timestampMs : Nat
  lastOfEpoch : Bool
  checkpointHeight : CheckpointHeight
deriving DecidableEq, Repr

structure PendingCheckpoint where
  roots : List TransactionKey
  details : PendingCheckpointInfo
deriving DecidableEq, Repr

def PendingCheckpoint.height (pending : PendingCheckpoint) : CheckpointHeight :=
  pending.details.checkpointHeight

structure BuilderCheckpointSummary where
  summary : CheckpointSummary
  /-- `none` for the genesis checkpoint. -/
  checkpointHeight : Option CheckpointHeight
  positionInCommit : Nat
deriving DecidableEq

abbrev CheckpointContents := List TransactionDigest

structure ExecutionIndicesWithStats where
  lastCommittedRound : Nat
  subDagIndex : Nat
  transactionIndex : Nat
deriving DecidableEq, Repr

structure CongestionPerObjectDebt where
  round : CommitRound
  debt : Nat
deriving DecidableEq, Repr

/-- A sequenced certificate; transactions of other kinds are never deferred. -/
structure VerifiedSequencedConsensusTransaction where
  certificate : Certificate
  epoch : Nat
  certificateAuthor : AuthorityName
deriving DecidableEq, Repr

structure DeferredTransaction where
  transaction : VerifiedSequencedConsensusTransaction
  suggestedGasPrice : Option Nat
deriving DecidableEq, Repr

/-- Keys and values of third-party or opaque types are numbers. -/
structure ConsensusCommitOutput where
  consensusRound : CommitRound
  consensusMessagesProcessed : List SequencedConsensusTransactionKey := []
  endOfPublish : List AuthorityName := []
  reconfigState : Option Nat := none
  consensusCommitStats : Option ExecutionIndicesWithStats := none
  nextSharedObjectVersions : Option (List (ObjectID × SequenceNumber)) := none
  congestionControlObjectDebts : List (ObjectID × Nat) := []
  congestionControlRandomnessObjectDebts : List (ObjectID × Nat) := []
  deferredTxns : List (DeferralKey × List DeferredTransaction) := []
  deletedDeferredTxns : List DeferralKey := []
  pendingCheckpoints : List PendingCheckpoint := []
  nextRandomnessRound : Option (Nat × Nat) := none
  dkgConfirmations : List (Nat × Nat) := []
  dkgProcessedMessages : List (Nat × Nat) := []
  dkgUsedMessage : Option Nat := none
  dkgOutput : Option Nat := none
  pendingJwks : Finset (AuthorityName × Nat) := ∅
  /-- The round and the key. -/
  activeJwks : Finset (Nat × Nat) := ∅
deriving DecidableEq

/-- The tables that consensus output is written to; a single row is an optional value. -/
structure OutputTables where
  consensusMessageProcessed : ExtTreeMap SequencedConsensusTransactionKey Bool := ∅
  endOfPublish : ExtTreeMap AuthorityName Unit := ∅
  reconfigState : Option Nat := none
  lastConsensusStats : Option ExecutionIndicesWithStats := none
  nextSharedObjectVersions : ExtTreeMap ObjectID SequenceNumber := ∅
  deferredTransactions :
    ExtTreeMap DeferralKey (List VerifiedSequencedConsensusTransaction) := ∅
  deferredTransactionsV2 : ExtTreeMap DeferralKey (List DeferredTransaction) := ∅
  randomnessNextRound : Option Nat := none
  randomnessLastRoundTimestamp : Option Nat := none
  dkgConfirmations : ExtTreeMap Nat Nat := ∅
  dkgProcessedMessages : ExtTreeMap Nat Nat := ∅
  dkgUsedMessages : Option Nat := none
  dkgOutput : Option Nat := none
  pendingJwks : Finset (AuthorityName × Nat) := ∅
  activeJwks : Finset (Nat × Nat) := ∅
  congestionControlObjectDebts : ExtTreeMap ObjectID CongestionPerObjectDebt := ∅
  congestionControlRandomnessObjectDebts : ExtTreeMap ObjectID CongestionPerObjectDebt := ∅

structure AuthorityEpochTables extends OutputTables where
  builderDigestToCheckpoint : ExtTreeMap TransactionDigest CheckpointSequenceNumber := ∅
  builderCheckpointSummary : ExtTreeMap CheckpointSequenceNumber BuilderCheckpointSummary := ∅

/-- The assertions, `expect`s and the fatal branch that committing can run into. -/
inductive QuarantineFailure
  | transactionNotFound
  | transactionOfOtherCheckpoint
  | checkpointWithoutHeight
  | heightNotIncreasing
  | statsMissing
  | jwkOfOtherRound
  /-- The fatal branch of `remove_shared_object_next_versions`. -/
  | nextVersionNotFound
deriving DecidableEq, Repr

namespace ConsensusCommitOutput
variable (output : ConsensusCommitOutput)

def getHighestPendingCheckpointHeight : Option CheckpointHeight :=
  output.pendingCheckpoints.getLast?.map PendingCheckpoint.height

def getPendingCheckpoints (last : Option CheckpointHeight) : List PendingCheckpoint :=
  output.pendingCheckpoints.filter fun cp => last.all fun last => last < cp.height

def getRound : Option Nat := output.consensusCommitStats.map (·.lastCommittedRound)

def objectDebts : List (ObjectID × CongestionPerObjectDebt) :=
  output.congestionControlObjectDebts.map fun e => (e.1,⟨output.consensusRound,e.2⟩)

def randomnessObjectDebts : List (ObjectID × CongestionPerObjectDebt) :=
  output.congestionControlRandomnessObjectDebts.map fun e => (e.1,⟨output.consensusRound,e.2⟩)

def nextVersions : List (ObjectID × SequenceNumber) := output.nextSharedObjectVersions.getD []

/-- The deferred entries as they are stored without gas price feedback. -/
def deferredTxnsV1 : List (DeferralKey × List VerifiedSequencedConsensusTransaction) :=
  output.deferredTxns.map fun e => (e.1,e.2.map DeferredTransaction.transaction)

/-- The operations of a batch for one output, in order. The flag is
`congestion_control_gas_price_feedback_mechanism`. -/
def writes (gasPriceFeedback : Bool) (tables : OutputTables) : OutputTables where
  consensusMessageProcessed := output.consensusMessagesProcessed.foldl
    (fun t key => t.insert key true) tables.consensusMessageProcessed
  endOfPublish := output.endOfPublish.foldl (fun t a => t.insert a ()) tables.endOfPublish
  reconfigState := output.reconfigState.or tables.reconfigState
  lastConsensusStats := output.consensusCommitStats.or tables.lastConsensusStats
  nextSharedObjectVersions := output.nextVersions.foldl
    (fun t e => t.insert e.1 e.2) tables.nextSharedObjectVersions
  deferredTransactions :=
    if gasPriceFeedback then tables.deferredTransactions
    else output.deferredTxnsV1.foldl (fun t e => t.insert e.1 e.2)
      (output.deletedDeferredTxns.foldl (fun t k => t.erase k) tables.deferredTransactions)
  deferredTransactionsV2 :=
    if gasPriceFeedback then output.deferredTxns.foldl (fun t e => t.insert e.1 e.2)
      (output.deletedDeferredTxns.foldl (fun t k => t.erase k) tables.deferredTransactionsV2)
    else tables.deferredTransactionsV2
  randomnessNextRound :=
    (output.nextRandomnessRound.map Prod.fst).or tables.randomnessNextRound
  randomnessLastRoundTimestamp :=
    (output.nextRandomnessRound.map Prod.snd).or tables.randomnessLastRoundTimestamp
  dkgConfirmations := output.dkgConfirmations.foldl
    (fun t e => t.insert e.1 e.2) tables.dkgConfirmations
  dkgProcessedMessages := output.dkgProcessedMessages.foldl
    (fun t e => t.insert e.1 e.2) tables.dkgProcessedMessages
  dkgUsedMessages := output.dkgUsedMessage.or tables.dkgUsedMessages
  dkgOutput := output.dkgOutput.or tables.dkgOutput
  pendingJwks := tables.pendingJwks ∪ output.pendingJwks
  activeJwks := tables.activeJwks ∪ output.activeJwks
  congestionControlObjectDebts := output.objectDebts.foldl
    (fun t e => t.insert e.1 e.2) tables.congestionControlObjectDebts
  congestionControlRandomnessObjectDebts := output.randomnessObjectDebts.foldl
    (fun t e => t.insert e.1 e.2) tables.congestionControlRandomnessObjectDebts

def writeToBatch (gasPriceFeedback : Bool) (tables : OutputTables) :
    Except QuarantineFailure OutputTables :=
  match output.consensusCommitStats with
  | none => .error .statsMissing
  | some stats =>
    if ∀ j ∈ output.activeJwks, j.1 = stats.lastCommittedRound then
      .ok (output.writes gasPriceFeedback tables)
    else .error .jwkOfOtherRound

end ConsensusCommitOutput

/-- The deferred transactions that `ConsensusOutputCache` holds. -/
structure ConsensusOutputCache where
  deferredTransactions : ExtTreeMap DeferralKey (List VerifiedSequencedConsensusTransaction)
  deferredTransactionsV2 : ExtTreeMap DeferralKey (List DeferredTransaction)

namespace ConsensusOutputCache

def new (tables : OutputTables) : ConsensusOutputCache :=
  ⟨tables.deferredTransactions,tables.deferredTransactionsV2⟩

/-- What processing a commit does to the cache: the deferred entries are inserted while the
transactions are handled, the loaded keys are removed when the commit is done. -/
def record (cache : ConsensusOutputCache) (gasPriceFeedback : Bool)
    (output : ConsensusCommitOutput) : ConsensusOutputCache :=
  if gasPriceFeedback then
    let inserted := output.deferredTxns.foldl (fun t e => t.insert e.1 e.2)
      cache.deferredTransactionsV2
    { cache with
      deferredTransactionsV2 := output.deletedDeferredTxns.foldl (fun t k => t.erase k) inserted }
  else
    let inserted := output.deferredTxnsV1.foldl (fun t e => t.insert e.1 e.2)
      cache.deferredTransactions
    { cache with
      deferredTransactions := output.deletedDeferredTxns.foldl (fun t k => t.erase k) inserted }

end ConsensusOutputCache

abbrev RefCountedHashMap (β : Type) := RefCountedMap Nat β compare

structure ConsensusOutputQuarantine where
  outputQueue : List ConsensusCommitOutput
  highestExecutedCheckpoint : CheckpointSequenceNumber
  builderCheckpointSummary :
    ExtTreeMap CheckpointSequenceNumber (BuilderCheckpointSummary × CheckpointContents)
  builderDigestToCheckpoint : ExtTreeMap TransactionDigest CheckpointSequenceNumber
  sharedObjectNextVersions : RefCountedHashMap SequenceNumber
  congestionControlObjectDebts : RefCountedHashMap CongestionPerObjectDebt
  congestionControlRandomnessObjectDebts : RefCountedHashMap CongestionPerObjectDebt
  processedConsensusMessages : RefCountedHashMap Unit

namespace ConsensusOutputQuarantine

def new (highestExecutedCheckpoint : CheckpointSequenceNumber) : ConsensusOutputQuarantine where
  outputQueue := []
  highestExecutedCheckpoint := highestExecutedCheckpoint
  builderCheckpointSummary := ∅
  builderDigestToCheckpoint := ∅
  sharedObjectNextVersions := .empty
  congestionControlObjectDebts := .empty
  congestionControlRandomnessObjectDebts := .empty
  processedConsensusMessages := .empty

variable (q : ConsensusOutputQuarantine) (output : ConsensusCommitOutput)

def insertSharedObjectNextVersions : ConsensusOutputQuarantine :=
  { q with sharedObjectNextVersions := q.sharedObjectNextVersions.insertAll output.nextVersions }

def insertCongestionControlDebts : ConsensusOutputQuarantine :=
  { q with
    congestionControlObjectDebts := q.congestionControlObjectDebts.insertAll output.objectDebts
    congestionControlRandomnessObjectDebts :=
      q.congestionControlRandomnessObjectDebts.insertAll output.randomnessObjectDebts }

def insertProcessedConsensusMessages : ConsensusOutputQuarantine :=
  { q with
    processedConsensusMessages := q.processedConsensusMessages.insertAll
      (output.consensusMessagesProcessed.map fun key => (key,())) }

def removeNextVersion (m : RefCountedHashMap SequenceNumber) (id : ObjectID) :
    Except QuarantineFailure (RefCountedHashMap SequenceNumber) :=
  match m.remove id with
  | (true,m) => .ok m
  | (false,_) => .error .nextVersionNotFound

def removeSharedObjectNextVersions : Except QuarantineFailure ConsensusOutputQuarantine := do
  let m ← (output.nextVersions.map Prod.fst).foldlM removeNextVersion q.sharedObjectNextVersions
  return { q with sharedObjectNextVersions := m }

def removeProcessedConsensusMessages : ConsensusOutputQuarantine :=
  { q with processedConsensusMessages :=
      q.processedConsensusMessages.removeAll output.consensusMessagesProcessed }

def removeCongestionControlDebts : ConsensusOutputQuarantine :=
  { q with
    congestionControlObjectDebts := q.congestionControlObjectDebts.removeAll
      (output.congestionControlObjectDebts.map Prod.fst)
    congestionControlRandomnessObjectDebts := q.congestionControlRandomnessObjectDebts.removeAll
      (output.congestionControlRandomnessObjectDebts.map Prod.fst) }

/-- Takes one transaction of a checkpoint out of the index. -/
def removeDigest (seq : CheckpointSequenceNumber)
    (m : ExtTreeMap TransactionDigest CheckpointSequenceNumber) (digest : TransactionDigest) :
    Except QuarantineFailure (ExtTreeMap TransactionDigest CheckpointSequenceNumber) :=
  match m[digest]? with
  | none => .error .transactionNotFound
  | some s => if s = seq then .ok (m.erase digest) else .error .transactionOfOtherCheckpoint

structure Committing where
  q : ConsensusOutputQuarantine
  tables : AuthorityEpochTables
  highestCommittedHeight : Option CheckpointHeight

/-- One built checkpoint moves from memory to the tables; `digests` is the index without its
transactions. -/
def Committing.moveSummary (s : Committing)
    (e : CheckpointSequenceNumber × BuilderCheckpointSummary × CheckpointContents)
    (digests : ExtTreeMap TransactionDigest CheckpointSequenceNumber) (height : CheckpointHeight) :
    Committing where
  q := { s.q with
    builderCheckpointSummary := s.q.builderCheckpointSummary.erase e.1
    builderDigestToCheckpoint := digests }
  tables := { s.tables with
    builderDigestToCheckpoint :=
      e.2.2.foldl (fun t d => t.insert d e.1) s.tables.builderDigestToCheckpoint
    builderCheckpointSummary := s.tables.builderCheckpointSummary.insert e.1 e.2.1 }
  highestCommittedHeight := some height

/-- The body of the loop over the built checkpoints at or below the watermark. -/
def commitSummary (s : Committing)
    (e : CheckpointSequenceNumber × BuilderCheckpointSummary × CheckpointContents) :
    Except QuarantineFailure Committing := do
  let digests ← e.2.2.foldlM (removeDigest e.1) s.q.builderDigestToCheckpoint
  match e.2.1.checkpointHeight with
  | none => .error .checkpointWithoutHeight
  | some height =>
    if s.highestCommittedHeight.all fun highest => highest < height then
      .ok (s.moveSummary e digests height)
    else .error .heightNotIncreasing

/-- The built checkpoints that have been executed, from the first on. -/
def ready : List (CheckpointSequenceNumber × BuilderCheckpointSummary × CheckpointContents) :=
  q.builderCheckpointSummary.toList.takeWhile fun e => e.1 ≤ q.highestExecutedCheckpoint

def commitOutput (gasPriceFeedback : Bool) (tables : AuthorityEpochTables) :
    Except QuarantineFailure (ConsensusOutputQuarantine × AuthorityEpochTables) := do
  let q ← q.removeSharedObjectNextVersions output
  let q := q.removeProcessedConsensusMessages output
  let q := q.removeCongestionControlDebts output
  let written ← output.writeToBatch gasPriceFeedback tables.toOutputTables
  return (q,{ tables with toOutputTables := written })

/-- The loop over the queue; an output without a pending checkpoint ends it. -/
def commitOutputs (gasPriceFeedback : Bool) (committed : CheckpointHeight) :
    List ConsensusCommitOutput → ConsensusOutputQuarantine → AuthorityEpochTables →
      Except QuarantineFailure (ConsensusOutputQuarantine × AuthorityEpochTables)
  | [], q, tables => .ok ({ q with outputQueue := [] },tables)
  | output :: queue, q, tables =>
    match output.getHighestPendingCheckpointHeight with
    | none => .ok ({ q with outputQueue := output :: queue },tables)
    | some highest =>
      if highest ≤ committed then do
        let (q,tables) ← q.commitOutput output gasPriceFeedback tables
        commitOutputs gasPriceFeedback committed queue q tables
      else .ok ({ q with outputQueue := output :: queue },tables)

def commitWithBatch (gasPriceFeedback : Bool) (tables : AuthorityEpochTables) :
    Except QuarantineFailure (ConsensusOutputQuarantine × AuthorityEpochTables) := do
  let s ← q.ready.foldlM commitSummary ⟨q,tables,none⟩
  match s.highestCommittedHeight with
  | none => return (s.q,s.tables)
  | some committed => commitOutputs gasPriceFeedback committed s.q.outputQueue s.q s.tables

def enqueue : ConsensusOutputQuarantine :=
  let q := q.insertSharedObjectNextVersions output
  let q := q.insertCongestionControlDebts output
  let q := q.insertProcessedConsensusMessages output
  { q with outputQueue := q.outputQueue ++ [output] }

/-- The checkpoint of the round may have been executed already, so there may be data to commit. -/
def pushConsensusOutput (gasPriceFeedback : Bool) (tables : AuthorityEpochTables) :
    Except QuarantineFailure (ConsensusOutputQuarantine × AuthorityEpochTables) :=
  (q.enqueue output).commitWithBatch gasPriceFeedback tables

def insertBuilderSummary (seq : CheckpointSequenceNumber) (summary : BuilderCheckpointSummary)
    (contents : CheckpointContents) : ConsensusOutputQuarantine :=
  { q with
    builderDigestToCheckpoint :=
      contents.foldl (fun t d => t.insert d seq) q.builderDigestToCheckpoint
    builderCheckpointSummary := q.builderCheckpointSummary.insert seq (summary,contents) }

def updateHighestExecutedCheckpoint (checkpoint : CheckpointSequenceNumber)
    (gasPriceFeedback : Bool) (tables : AuthorityEpochTables) :
    Except QuarantineFailure (ConsensusOutputQuarantine × AuthorityEpochTables) :=
  { q with highestExecutedCheckpoint := checkpoint }.commitWithBatch gasPriceFeedback tables

/-- Each checkpoint of `content_info` is recorded under the height of the commit. -/
def insertChunks (commitHeight : CheckpointHeight)
    (contentInfo : List (CheckpointSummary × CheckpointContents)) : ConsensusOutputQuarantine :=
  contentInfo.zipIdx.foldl
    (fun q e => q.insertBuilderSummary e.1.1.sequenceNumber ⟨e.1.1,some commitHeight,e.2⟩ e.1.2) q

def processConstructedCheckpoint (commitHeight : CheckpointHeight)
    (contentInfo : List (CheckpointSummary × CheckpointContents)) (gasPriceFeedback : Bool)
    (tables : AuthorityEpochTables) :
    Except QuarantineFailure (ConsensusOutputQuarantine × AuthorityEpochTables) :=
  (q.insertChunks commitHeight contentInfo).commitWithBatch gasPriceFeedback tables

/-- What the cache has for each key, and for the others what the database has. -/
def doFallbackLookup {α β : Type} (keys : List α) (getCached getFallback : α → Option β) :
    List (Option β) :=
  keys.map fun key => (getCached key).or (getFallback key)

def getNextSharedObjectVersions (tables : OutputTables)
    (objectsToInit : List (ObjectID × SequenceNumber)) : List (Option SequenceNumber) :=
  doFallbackLookup objectsToInit (fun e => q.sharedObjectNextVersions.get e.1)
    fun e => tables.nextSharedObjectVersions[e.1]?

def getPendingCheckpoints (last : Option CheckpointHeight) :
    List (CheckpointHeight × PendingCheckpoint) :=
  q.outputQueue.flatMap fun output =>
    (output.getPendingCheckpoints last).map fun cp => (cp.height,cp)

def lastBuiltSummary : Option BuilderCheckpointSummary :=
  q.builderCheckpointSummary.toList.getLast?.map fun e => e.2.1

def includedTransactionInCheckpoint (digest : TransactionDigest) : Bool :=
  q.builderDigestToCheckpoint.contains digest

/-- The objects without a next version, in memory and in the table. -/
def uninitializedObjects (tables : OutputTables)
    (objectsToInit : List (ObjectID × SequenceNumber)) : List (ObjectID × SequenceNumber) :=
  ((q.getNextSharedObjectVersions tables objectsToInit).zip objectsToInit).filterMap fun e =>
    match e.1 with
    | none => some e.2
    | some _ => none

/-- The version of an object that has none yet: that of the object in the store, or the initial
one. -/
def versionsToWrite (currentVersion : ObjectID → Option SequenceNumber) (tables : OutputTables)
    (objectsToInit : List (ObjectID × SequenceNumber)) : List (ObjectID × SequenceNumber) :=
  (q.uninitializedObjects tables objectsToInit).map fun e => (e.1,(currentVersion e.1).getD e.2)

/-- The next versions, and the table in which the missing ones have been written; the write does
not go through the quarantine. -/
def getOrInitNextObjectVersions (currentVersion : ObjectID → Option SequenceNumber)
    (tables : OutputTables) (objectsToInit : List (ObjectID × SequenceNumber)) :
    ExtTreeMap ObjectID SequenceNumber × OutputTables :=
  let nextVersions := q.getNextSharedObjectVersions tables objectsToInit
  let written := q.versionsToWrite currentVersion tables objectsToInit
  let found := (objectsToInit.zip nextVersions).filterMap fun e => e.2.map fun v => (e.1.1,v)
  ((found ++ written).foldl (fun t e => t.insert e.1 e.2) ∅,
    { tables with
      nextSharedObjectVersions :=
        written.foldl (fun t e => t.insert e.1 e.2) tables.nextSharedObjectVersions })

end ConsensusOutputQuarantine

structure EpochStore where
  quarantine : ConsensusOutputQuarantine
  tables : AuthorityEpochTables
  cache : ConsensusOutputCache

inductive EpochStore.Event
  /-- The consensus handler is done with a commit. -/
  | pushed (output : ConsensusCommitOutput)
  /-- Versions are looked up for assignment. -/
  | versionsRead (currentVersion : ObjectID → Option SequenceNumber)
      (objectsToInit : List (ObjectID × SequenceNumber))
  /-- The builder made the checkpoints of a height. -/
  | built (commitHeight : CheckpointHeight)
      (contentInfo : List (CheckpointSummary × CheckpointContents))
  | executed (checkpoint : CheckpointSequenceNumber)
  /-- The node stops at any point and starts from the tables. -/
  | restarted (highestExecutedCheckpoint : CheckpointSequenceNumber)

namespace EpochStore

def new (tables : AuthorityEpochTables) (highestExecutedCheckpoint : CheckpointSequenceNumber) :
    EpochStore :=
  ⟨.new highestExecutedCheckpoint,tables,.new tables.toOutputTables⟩

def step (gasPriceFeedback : Bool) (s : EpochStore) :
    Event → Except QuarantineFailure EpochStore
  | .pushed output => do
    let (q,tables) ← s.quarantine.pushConsensusOutput output gasPriceFeedback s.tables
    return ⟨q,tables,s.cache.record gasPriceFeedback output⟩
  | .versionsRead currentVersion objectsToInit =>
    let tables := (s.quarantine.getOrInitNextObjectVersions currentVersion s.tables.toOutputTables
      objectsToInit).2
    .ok { s with tables := { s.tables with toOutputTables := tables } }
  | .built commitHeight contentInfo => do
    let (q,tables) ←
      s.quarantine.processConstructedCheckpoint commitHeight contentInfo gasPriceFeedback s.tables
    return { s with quarantine := q, tables := tables }
  | .executed checkpoint => do
    let (q,tables) ←
      s.quarantine.updateHighestExecutedCheckpoint checkpoint gasPriceFeedback s.tables
    return { s with quarantine := q, tables := tables }
  | .restarted highestExecutedCheckpoint => .ok (.new s.tables highestExecutedCheckpoint)

end EpochStore
end Iota.Authority
