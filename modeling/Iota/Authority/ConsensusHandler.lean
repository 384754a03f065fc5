import Iota.Authority.CongestionTracker
import Iota.Authority.ConsensusQuarantine
import Iota.Lib.Multimap

/-! A commit loads the deferred certificates that are due, and schedules, defers or cancels them
together with the new ones. What the congestion tracker and the random beacon answer is an input of
the commit. -/
namespace Iota

def randomnessStateObjectId : ObjectID := 8

def Certificate.usesRandomness (cert : Certificate) : Bool :=
  cert.sharedInputObjects.any fun obj => obj.id = randomnessStateObjectId

end Iota
namespace Iota.Authority
open Std (ExtTreeMap)
namespace DeferralKey

def fullRangeForRandomness : DeferralKey × DeferralKey :=
  (.randomness 0,.randomness (2 ^ 64 - 1))

def rangeForUpToConsensusRound (consensusRound : CommitRound) :
    Except Panic (DeferralKey × DeferralKey) :=
  if consensusRound+1 < 2 ^ 64 then
    .ok (.consensusRound 0 0,.consensusRound (consensusRound+1) 0)
  else .error .panic

end DeferralKey

def transactionDeferralWithinLimit (deferralKey : DeferralKey)
    (maxDeferralRoundsForCongestionControl : Nat) : Bool :=
  match deferralKey with
  | .consensusRound futureRound deferredFromRound =>
    futureRound - deferredFromRound ≤ maxDeferralRoundsForCongestionControl
  | .randomness _ => true

inductive ReconfigCertStatus
  | acceptAllCerts
  | rejectUserCerts
  | rejectAllCerts
  | rejectAllTx
deriving DecidableEq, Repr

namespace ReconfigCertStatus

def closeUserCerts : ReconfigCertStatus → ReconfigCertStatus
  | .acceptAllCerts => .rejectUserCerts
  | status => status

def shouldAcceptConsensusCerts (status : ReconfigCertStatus) : Bool :=
  status = .acceptAllCerts || status = .rejectUserCerts

def isRejectAllCerts (status : ReconfigCertStatus) : Bool := status = .rejectAllCerts

def shouldAcceptTx (status : ReconfigCertStatus) : Bool := status ≠ .rejectAllTx

end ReconfigCertStatus

inductive DkgStatus
  | pending
  | failed
  | successful
deriving DecidableEq, Repr

/-- The parts of the protocol configuration and the epoch that processing reads. -/
structure HandlerConfig where
  epoch : Nat
  congestionControlGasPriceFeedbackMechanism : Bool
  congestionControlEnabled : Bool
  maxDeferralRoundsForCongestionControl : Nat
  /-- `ConsensusTransactionOrdering::ByGasPrice`, or no reordering. -/
  orderByGasPrice : Bool
  /-- Whether the stake of the authorities is a quorum. -/
  isQuorum : List AuthorityName → Bool

/-- One commit, with what the other components answer while it is processed. -/
structure ConsensusCommit where
  round : CommitRound
  transactions : List VerifiedSequencedConsensusTransaction
  /-- Whether the handler's cache of processed keys, which forgets old ones, holds a key. -/
  inCache : TransactionDigest → Bool
  endOfPublish : List AuthorityName
  dkgStatus : DkgStatus
  /-- Whether `reserve_next_randomness` gives a round. -/
  reserveNextRandomness : Bool
  /-- The start time the congestion tracker finds for a certificate, if it is not congested. -/
  startTime : TransactionDigest → Option Nat
  suggestedGasPrice : TransactionDigest → Nat

inductive DeferralReason
  | randomnessNotReady
  | sharedObjectCongestion
deriving DecidableEq, Repr

inductive SchedulingResult
  | defer (key : DeferralKey) (reason : DeferralReason)
  | schedule (startTime : Nat)
deriving DecidableEq, Repr

inductive CancelConsensusCertificateReason
  | congestionOnObjects (suggestedGasPrice : Option Nat)
  | dkgFailed
deriving DecidableEq, Repr

inductive ConsensusCertificateResult
  | ignored
  | scheduled (startTime : Nat)
  | deferred (deferralKey : DeferralKey) (suggestedGasPrice : Option Nat)
  | cancelled (reason : CancelConsensusCertificateReason)
deriving DecidableEq, Repr

/-- What the epoch store keeps between commits. The lists of accepted, scheduled and cancelled
certificates and of deferrals because of congestion record the run. -/
structure HandlerState where
  cache : ConsensusOutputCache
  processed : List TransactionDigest
  endOfPublish : List AuthorityName
  reconfig : ReconfigCertStatus
  lastRound : CommitRound
  accepted : List VerifiedSequencedConsensusTransaction
  scheduled : List VerifiedSequencedConsensusTransaction
  cancelled : List VerifiedSequencedConsensusTransaction
  congested : List TransactionDigest

structure CommitContext where
  commitRound : CommitRound
  dkgFailed : Bool
  generatingRandomness : Bool
  previouslyDeferred : PreviouslyDeferredTransactions
  endOfPublish : List AuthorityName
  reconfig : ReconfigCertStatus

namespace VerifiedSequencedConsensusTransaction

def digest (tx : VerifiedSequencedConsensusTransaction) : TransactionDigest :=
  tx.certificate.digest

def usesRandomness (tx : VerifiedSequencedConsensusTransaction) : Bool :=
  tx.certificate.usesRandomness

end VerifiedSequencedConsensusTransaction
namespace CommitContext
variable (cfg : HandlerConfig) (commit : ConsensusCommit) (ctx : CommitContext)
  (tx : VerifiedSequencedConsensusTransaction)

def trySchedule : SchedulingResult :=
  if !ctx.dkgFailed && !ctx.generatingRandomness && tx.usesRandomness then
    let deferredFromRound := (ctx.previouslyDeferred[tx.digest]?.map
      fun e => e.1.deferredFromRound).getD ctx.commitRound
    .defer (.newForRandomness deferredFromRound) .randomnessNotReady
  else if cfg.congestionControlEnabled then
    match commit.startTime tx.digest with
    | none =>
      .defer (SharedObjectCongestionTracker.deferralKey ctx.previouslyDeferred ctx.commitRound
        tx.certificate) .sharedObjectCongestion
    | some startTime => .schedule startTime
  else .schedule 0

def suggestedGasPrice : Option Nat :=
  if cfg.congestionControlGasPriceFeedbackMechanism then
    let current := commit.suggestedGasPrice tx.digest
    match ctx.previouslyDeferred[tx.digest]? with
    | none => some current
    | some e => some (min (e.2.getD current) current)
  else none

def processConsensusTransaction : ConsensusCertificateResult :=
  if tx.epoch ≠ cfg.epoch then .ignored
  else if ctx.endOfPublish.contains tx.certificateAuthor &&
      !ctx.previouslyDeferred.contains tx.digest then .ignored
  else if !ctx.reconfig.shouldAcceptConsensusCerts &&
      !ctx.previouslyDeferred.contains tx.digest then .ignored
  else
    match ctx.trySchedule cfg commit tx with
    | .defer key .randomnessNotReady => .deferred key none
    | .defer key .sharedObjectCongestion =>
      let price := ctx.suggestedGasPrice cfg commit tx
      if transactionDeferralWithinLimit key cfg.maxDeferralRoundsForCongestionControl then
        .deferred key price
      else .cancelled (.congestionOnObjects price)
    | .schedule startTime =>
      if ctx.dkgFailed && tx.usesRandomness then .cancelled .dkgFailed
      else .scheduled startTime

end CommitContext

/-- What the loop over the certificates of a commit collects. -/
structure Collected where
  deferredTxns : ExtTreeMap DeferralKey (List DeferredTransaction) := ∅
  scheduled : List VerifiedSequencedConsensusTransaction := []
  cancelledTxns : List VerifiedSequencedConsensusTransaction := []
  processed : List VerifiedSequencedConsensusTransaction := []

/-- The body of the loop; ignored certificates are not recorded as processed. -/
def Collected.add (c : Collected) (tx : VerifiedSequencedConsensusTransaction) :
    ConsensusCertificateResult → Except Panic Collected
  | .ignored => .ok c
  | .scheduled _ =>
    .ok { c with scheduled := c.scheduled ++ [tx], processed := c.processed ++ [tx] }
  | .deferred key price =>
    .ok { c with
      deferredTxns := c.deferredTxns.pushAt key ⟨tx,price⟩
      processed := c.processed ++ [tx] }
  | .cancelled _ =>
    if tx.digest ∈ c.cancelledTxns.map (·.digest) then .error .panic
    else .ok { c with
      cancelledTxns := c.cancelledTxns ++ [tx]
      processed := c.processed ++ [tx] }

namespace HandlerState
variable (cfg : HandlerConfig) (s : HandlerState) (commit : ConsensusCommit)

def loadDeferredTransactions (lo hi : DeferralKey) :
    List (DeferralKey × List DeferredTransaction) :=
  if cfg.congestionControlGasPriceFeedbackMechanism then
    s.cache.deferredTransactionsV2.range lo hi
  else
    (s.cache.deferredTransactions.range lo hi).map fun e =>
      (e.1,e.2.map fun tx => ⟨tx,none⟩)

def deferredTransactionsEmpty (cache : ConsensusOutputCache) : Bool :=
  if cfg.congestionControlGasPriceFeedbackMechanism then cache.deferredTransactionsV2.isEmpty
  else cache.deferredTransactions.isEmpty

def reorder (txs : List VerifiedSequencedConsensusTransaction) :
    List VerifiedSequencedConsensusTransaction :=
  if cfg.orderByGasPrice then
    txs.mergeSort fun a b => b.certificate.gasPrice ≤ a.certificate.gasPrice
  else txs

def previouslyDeferredOf (loaded : List (DeferralKey × List DeferredTransaction)) :
    PreviouslyDeferredTransactions :=
  (loaded.flatMap fun e => e.2.map fun tx =>
    (tx.transaction.digest,(e.1,tx.suggestedGasPrice))).foldl
      (fun m e => m.insert e.1 e.2) ∅

def transactionsOf (loaded : List (DeferralKey × List DeferredTransaction)) :
    List VerifiedSequencedConsensusTransaction :=
  loaded.flatMap fun e => e.2.map DeferredTransaction.transaction

def generatingRandomness : Bool :=
  commit.dkgStatus = .successful && s.reconfig.shouldAcceptTx && commit.reserveNextRandomness

/-- The deferred entries loaded for the commit: those due by its round, and all that wait for
randomness when there is some, or when there will never be. -/
def loaded : Except Panic (List (DeferralKey × List DeferredTransaction) ×
    List (DeferralKey × List DeferredTransaction)) := do
  let (lo,hi) ← DeferralKey.rangeForUpToConsensusRound commit.round
  let forRound := s.loadDeferredTransactions cfg lo hi
  let forRandomness :=
    if commit.dkgStatus = .failed || s.generatingRandomness commit then
      s.loadDeferredTransactions cfg DeferralKey.fullRangeForRandomness.1
        DeferralKey.fullRangeForRandomness.2
    else []
  return (forRound,forRandomness)

/-- The loop of `handle_consensus_output` that skips what it has seen. -/
def skipProcessed : List VerifiedSequencedConsensusTransaction :=
  commit.transactions.foldl (fun all tx =>
    if tx.digest ∈ all.map (·.digest) || commit.inCache tx.digest then all else all ++ [tx]) []

/-- The new certificates: those that have not been processed. -/
def verified : List VerifiedSequencedConsensusTransaction :=
  (skipProcessed commit).filter fun tx => tx.digest ∉ s.processed

/-- All certificates of the commit in the order they are processed: without randomness first,
loaded ones before new ones, then by gas price. -/
def sequenced (forRound forRandomness : List (DeferralKey × List DeferredTransaction)) :
    List VerifiedSequencedConsensusTransaction :=
  let due := transactionsOf forRound
  let new := s.verified commit
  reorder cfg (due.filter (!·.usesRandomness) ++ new.filter (!·.usesRandomness)) ++
    reorder cfg (transactionsOf forRandomness ++ due.filter (·.usesRandomness) ++
      new.filter (·.usesRandomness))

def context (forRound forRandomness : List (DeferralKey × List DeferredTransaction)) :
    CommitContext where
  commitRound := commit.round
  dkgFailed := commit.dkgStatus = .failed
  generatingRandomness := s.generatingRandomness commit
  previouslyDeferred := previouslyDeferredOf (forRound ++ forRandomness)
  endOfPublish := s.endOfPublish
  reconfig := s.reconfig

def processAll (ctx : CommitContext) (txs : List VerifiedSequencedConsensusTransaction) :
    Except Panic Collected :=
  txs.foldlM (fun c tx => c.add tx (ctx.processConsensusTransaction cfg commit tx)) {}

/-- One `EndOfPublish` message; those after a quorum are not recorded. -/
def endOfPublishStep (acc : List AuthorityName × ReconfigCertStatus) (authority : AuthorityName) :
    List AuthorityName × ReconfigCertStatus :=
  if acc.2.shouldAcceptConsensusCerts then
    let senders := if acc.1.contains authority then acc.1 else acc.1 ++ [authority]
    (senders,if cfg.isQuorum senders then .rejectAllCerts else acc.2)
  else acc

/-- The output of the commit, as far as deferred certificates and messages go. -/
def commitOutput (forRound forRandomness : List (DeferralKey × List DeferredTransaction))
    (collected : Collected) : ConsensusCommitOutput where
  consensusRound := commit.round
  consensusMessagesProcessed := collected.processed.map (·.digest)
  deferredTxns := collected.deferredTxns.toList
  deletedDeferredTxns := (forRound ++ forRandomness).map Prod.fst

/-- The cache while the end of the epoch is decided: the new entries are in it, and the loaded
ones still are. -/
def cacheAtEndOfPublish (output : ConsensusCommitOutput) : ConsensusOutputCache :=
  s.cache.record cfg.congestionControlGasPriceFeedbackMechanism
    { output with deletedDeferredTxns := [] }

/-- The keys under which certificates were deferred because of congestion; the others wait for
randomness. -/
def congestedOf (output : ConsensusCommitOutput) : List TransactionDigest :=
  output.deferredTxns.flatMap fun e =>
    match e.1 with
    | .consensusRound .. => e.2.map fun tx => tx.transaction.digest
    | .randomness _ => []

/-- The state after a commit, its output, and whether it is the final round of the epoch. -/
def processCommit : Except Panic (HandlerState × ConsensusCommitOutput × Bool) := do
  let (forRound,forRandomness) ← s.loaded cfg commit
  let ctx := s.context commit forRound forRandomness
  let collected ← processAll cfg commit ctx (s.sequenced cfg commit forRound forRandomness)
  let output := commitOutput commit forRound forRandomness collected
  let (senders,reconfig) :=
    commit.endOfPublish.foldl (endOfPublishStep cfg) (s.endOfPublish,s.reconfig)
  let commitHasDeferredTxns := !output.deferredTxns.isEmpty
  let finalRound := reconfig.isRejectAllCerts &&
    deferredTransactionsEmpty cfg (s.cacheAtEndOfPublish cfg output) && !commitHasDeferredTxns
  return ({
    cache := s.cache.record cfg.congestionControlGasPriceFeedbackMechanism output
    processed := s.processed ++ output.consensusMessagesProcessed
    endOfPublish := senders
    reconfig := if finalRound then .rejectAllTx else reconfig
    lastRound := commit.round
    accepted := s.accepted ++
      collected.processed.filter fun tx => !ctx.previouslyDeferred.contains tx.digest
    scheduled := s.scheduled ++ collected.scheduled
    cancelled := s.cancelled ++ collected.cancelledTxns
    congested := s.congested ++ congestedOf output },output,finalRound)

inductive Event
  | commit (commit : ConsensusCommit)
  /-- The node stops taking certificates from users. -/
  | closeUserCerts

def step (event : Event) : Except Panic HandlerState :=
  match event with
  | .commit commit => do
    let (s,_,_) ← s.processCommit cfg commit
    return s
  | .closeUserCerts => .ok { s with reconfig := s.reconfig.closeUserCerts }

end HandlerState
end Iota.Authority
