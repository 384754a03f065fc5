import Iota.Starfish.DagState

/-! Acceptance of headers and transactions, commits, flushing with eviction, and recovery from the
store. -/
namespace Iota.Starfish
open Std (ExtTreeMap ExtTreeSet)

def VerifiedTransactions.genericRef (ctx : Context) (t : VerifiedTransactions) :
    Option GenericTransactionRef :=
  if ctx.protocolConfig.consensusFastCommitSync then some (.transactionRef t.transactionRef)
  else t.blockRef.map .blockRef

/-- The lowest key of a round and author in the transaction caches. -/
def lowestGenericRef (ctx : Context) (round author : Nat) : GenericTransactionRef :=
  if ctx.protocolConfig.consensusFastCommitSync then .transactionRef ⟨round,author,0⟩
  else .blockRef ⟨round,author,0⟩

namespace Store

def write (ctx : Context) (store : Store) (transactions : List VerifiedTransactions)
    (blockHeaders : List VerifiedBlockHeader) (commits : List TrustedCommit)
    (commitInfo : List (CommitRef × CommitInfo)) (flag : Option Bool) : Store where
  blockHeaders := blockHeaders.foldl (fun m h => m.insert h.reference h) store.blockHeaders
  transactions := transactions.foldl (fun m t => match t.genericRef ctx with
    | some g => m.insert g t
    | none => m) store.transactions
  commits := commits.foldl (fun m c => m.insert c.reference c) store.commits
  commitInfo := commitInfo.foldl (fun m p => m.insert p.1 p.2) store.commitInfo
  fastSyncOngoing := flag.getD store.fastSyncOngoing

/-- `load_pending_subdag_from_store`, the part the scoring uses. -/
def loadSubDagBase (store : Store) (commit : TrustedCommit) : Except Panic SubDagBase := do
  let headers ← DagState.expectHeaders (commit.blockHeaders.map fun r => store.blockHeaders[r]?)
  if headers.any fun h => h.reference = commit.leader then
    .ok { leader := commit.leader, headers, committedHeaderRefs := commit.blockHeaders,
          timestampMs := commit.timestampMs, commitRef := commit.reference,
          reputationScoresDesc := [] }
  else .error .committedHeaderMissing

end Store
namespace DagState
variable {ctx : Context} (s : DagState ctx)

def updateBlockHeaderMetadata (h : VerifiedBlockHeader) : DagState ctx :=
  let r := h.reference
  { s with
    recentBlockHeaders := s.recentBlockHeaders.insert r h
    recentHeadersRefsByAuthority := Function.update s.recentHeadersRefsByAuthority r.author
      ((s.recentHeadersRefsByAuthority r.author).insert r)
    txRefToBlockDigestByAuthority := Function.update s.txRefToBlockDigestByAuthority r.author
      ((s.txRefToBlockDigestByAuthority r.author).insert
        ⟨r.round,r.author,h.transactionsCommitment⟩ r.digest)
    thresholdClock := s.thresholdClock.addBlockHeader r
    highestAcceptedRound := max s.highestAcceptedRound h.round }

/-- Adds a pending acknowledgment for the given digest, or for the one the commitment resolves
to. -/
def addPendingAcknowledgment (t : TransactionRef) (blockDigest : Option Nat) : DagState ctx :=
  match blockDigest with
  | some digest => { s with
      pendingAcknowledgments := s.pendingAcknowledgments.insert ⟨t.round,t.author,digest⟩ }
  | none => match s.resolveBlockRef t with
    | some r => { s with pendingAcknowledgments := s.pendingAcknowledgments.insert r }
    | none => s

/-- Transactions of recent rounds that did not come from a commit or from the store are
acknowledged. -/
def acknowledges (t : VerifiedTransactions) (source : DataSource) : Bool :=
  t.hasTransactions && (s.thresholdClockRound - ctx.protocolConfig.gcDepth ≤ t.transactionRef.round)
    && source ≠ .fastCommitSyncer && source ≠ .commitSyncer && source ≠ .recover

def updateTransactionMetadata (t : VerifiedTransactions) (source : DataSource) : DagState ctx :=
  match t.genericRef ctx with
  | none => s
  | some g =>
    let a := t.transactionRef.author
    let s' := { s with
      recentTransactionsByAuthority := Function.update s.recentTransactionsByAuthority a
        ((s.recentTransactionsByAuthority a).insert g t) }
    if s.acknowledges t source then s'.addPendingAcknowledgment t.transactionRef t.blockDigest
    else s'

/-- `accept_block_header`. Only headers of the own authority are checked for an occupied slot. -/
def acceptBlockHeader (h : VerifiedBlockHeader) : Except Panic (DagState ctx) :=
  if h.round = genesisRound then .error .genesisHeaderAccepted
  else if s.containsBlockHeader h.reference then .ok s
  else if h.author = s.ownIndex ∧ s.getUncommittedBlockHeadersAtSlot h.slot ≠ [] then
    .error .ownSlotOccupied
  else
    let s := s.updateBlockHeaderMetadata h
    .ok { s with blockHeadersToWrite := s.blockHeadersToWrite ++ [h] }

/-- Transactions already in the cache are dropped; the store is not asked. -/
def addTransactions (t : VerifiedTransactions) (source : DataSource) : DagState ctx :=
  match t.genericRef ctx with
  | none => s
  | some g =>
    if g ∈ s.recentTransactionsByAuthority t.transactionRef.author then s
    else
      let s := s.updateTransactionMetadata t source
      { s with transactionsToWrite := s.transactionsToWrite ++ [t] }

def setFastSyncOngoingFlag (flag : Bool) : DagState ctx :=
  { s with fastSyncOngoingFlagToWrite := some flag }

def updateLastSolidSubdagBase (base : SubDagBase) : DagState ctx :=
  { s with lastSolidSubdagBase := some base }

def updatePendingCommitVotes (refs : List CommitRef) : DagState ctx :=
  { s with pendingCommitVotes := s.pendingCommitVotes ++ refs }

/-- The update of the per-authority rounds by the headers of a commit. -/
def raiseRounds (rounds : Nat → Nat) (refs : List BlockRef) : Nat → Nat :=
  refs.foldl (fun f r => Function.update f r.author (max (f r.author) r.round)) rounds

def appendCommit (commit : TrustedCommit) : DagState ctx :=
  { s with
    lastCommit := some commit
    lastCommittedRounds := raiseRounds s.lastCommittedRounds commit.blockHeaders
    commitsToWrite := s.commitsToWrite ++ [commit] }

/-- `add_commit`: commits at or below the last index are ignored, others must follow it with a
later leader round and no earlier timestamp. -/
def addCommit (commit : TrustedCommit) : Except Panic (DagState ctx) :=
  match s.lastCommit with
  | none => if commit.index = 1 then .ok (s.appendCommit commit) else .error .commitIndexGap
  | some last =>
    if commit.index ≤ last.index then .ok s
    else if commit.index ≠ last.index+1 then .error .commitIndexGap
    else if commit.timestampMs < last.timestampMs then .error .commitTimestampDecreases
    else if commit.round ≤ last.round then .error .commitRoundOrder
    else .ok (s.appendCommit commit)

def addCommitInfo (scores : ReputationScores) : Except Panic (DagState ctx) :=
  if s.scoringSubdag.isEmpty = false then .error .scoringSubdagNotEmpty
  else match s.lastCommit with
    | none => .error .lastCommitMissing
    | some last => .ok { s with commitInfoToWrite := s.commitInfoToWrite ++
        [(last.reference,⟨(List.range ctx.committee.size).map s.lastCommittedRounds,scores⟩)] }

def takeCommitVotes (limit : Nat) : List CommitRef × DagState ctx :=
  (s.pendingCommitVotes.take limit,
    { s with pendingCommitVotes := s.pendingCommitVotes.drop limit })

def evictHeadersOf (s : DagState ctx) (a : Nat) : DagState ctx :=
  let evictionRound := s.calculateAuthorityEvictionRound a
  let refs := s.recentHeadersRefsByAuthority a
  let toKeep := refs.splitOff ⟨evictionRound+1,a,0⟩
  { s with
    recentHeadersRefsByAuthority := Function.update s.recentHeadersRefsByAuthority a toKeep
    recentBlockHeaders :=
      (refs.toList.filter fun r => r ∉ toKeep).foldl (fun m r => m.erase r) s.recentBlockHeaders
    evictedRounds := Function.update s.evictedRounds a evictionRound }

def evictHeaders : DagState ctx := (List.range ctx.committee.size).foldl evictHeadersOf s

def transactionEvictionRound (a : Nat) : Nat :=
  min s.gcRoundForLastSolidCommit (s.calculateAuthorityEvictionRound a + 1)

def evictTransactions : DagState ctx :=
  { s with
    recentTransactionsByAuthority := fun a =>
      if a < ctx.committee.size then (s.recentTransactionsByAuthority a).splitOff
        (lowestGenericRef ctx (s.transactionEvictionRound a) a)
      else s.recentTransactionsByAuthority a }

def evictTxRefToBlockDigests : DagState ctx :=
  { s with
    txRefToBlockDigestByAuthority := fun a =>
      if a < ctx.committee.size then (s.txRefToBlockDigestByAuthority a).splitOff
        ⟨s.transactionEvictionRound a,a,0⟩
      else s.txRefToBlockDigestByAuthority a }

def evictPendingAcknowledgments : DagState ctx :=
  { s with
    pendingAcknowledgments := s.pendingAcknowledgments.splitOff
      (.lowest (s.thresholdClockRound - ctx.protocolConfig.gcDepth)) }

/-- At most `limit` acknowledgments from below the clock round. The set is split at the last one
taken, which stays in it. -/
def takeAcknowledgments (limit : Nat) : List BlockRef × DagState ctx :=
  let s := s.evictPendingAcknowledgments
  let taken := (s.pendingAcknowledgments.toList.takeWhile
    fun r => r.round < s.thresholdClockRound).take limit
  match taken.getLast? with
  | none => (taken,s)
  | some last => (taken,{ s with
      pendingAcknowledgments := s.pendingAcknowledgments.splitOff last })

def writeBuffers : DagState ctx :=
  { s with
    store := s.store.write ctx s.transactionsToWrite s.blockHeadersToWrite s.commitsToWrite
      s.commitInfoToWrite s.fastSyncOngoingFlagToWrite
    transactionsToWrite := []
    blockHeadersToWrite := []
    commitsToWrite := []
    commitInfoToWrite := []
    fastSyncOngoingFlagToWrite := none }

/-- `flush`: nothing happens with empty buffers, otherwise old data is evicted after the write. -/
def flush : DagState ctx :=
  if s.transactionsToWrite = [] ∧ s.blockHeadersToWrite = [] ∧ s.commitsToWrite = [] ∧
      s.commitInfoToWrite = [] ∧ s.fastSyncOngoingFlagToWrite = none then s
  else s.writeBuffers.evictHeaders.evictTransactions.evictTxRefToBlockDigests
    |>.evictPendingAcknowledgments

def addScoringSubdags (subdags : List SubDagBase) : Except Panic (DagState ctx) :=
  (s.scoringSubdag.addSubdags subdags).map fun scoring => { s with scoringSubdag := scoring }

def clearScoringSubdag : DagState ctx := { s with scoringSubdag := .new }

/-- The headers of an authority above its eviction round are loaded from the store. -/
def loadCachedHeaders (s : DagState ctx) (a : Nat) : DagState ctx :=
  let evictionRound := s.calculateAuthorityEvictionRound a
  (s.store.scanBlockHeadersByAuthor a (evictionRound+1)).foldl updateBlockHeaderMetadata
    { s with evictedRounds := Function.update s.evictedRounds a evictionRound }

/-- `load_cached_data_for_authority`: then its transactions above that round. -/
def loadCachedDataForAuthority (source : DataSource) (s : DagState ctx) (a : Nat) : DagState ctx :=
  (s.store.scanTransactionsByAuthor ctx.protocolConfig.consensusFastCommitSync a
    (s.calculateAuthorityEvictionRound a + 1)).foldl
    (fun s t => s.updateTransactionMetadata t source) (s.loadCachedHeaders a)

/-- The index from which commits are replayed over the last commit info. -/
def commitRecoveryStartIndex (info : Option (CommitRef × CommitInfo)) : Nat :=
  match info with
  | some (ref,info) =>
    if info.reputationScores.commitRange.last = genesisCommitIndex then ref.index+1
    else info.reputationScores.commitRange.last+1
  | none => genesisCommitIndex+1

def recoveredRounds (info : Option (CommitRef × CommitInfo)) : Nat → Nat :=
  match info with
  | some (_,info) => fun a => info.committedRounds.getD a 0
  | none => fun _ => 0

/-- The commits replayed by `DagState::new`: none while a fast sync is marked as ongoing. -/
def commitsToReplay (store : Store) : List TrustedCommit :=
  if store.fastSyncOngoing then []
  else match store.readLastCommit with
    | none => []
    | some last =>
      store.scanCommits (commitRecoveryStartIndex store.readLastCommitInfo) last.index

def replayRounds (rounds : Nat → Nat) (commits : List TrustedCommit) : Nat → Nat :=
  commits.foldl (fun f c => raiseRounds f c.blockHeaders) rounds

def recovered (ctx : Context) (ownIndex cachedRounds : Nat) (store : Store)
    (scoringSubdag : ScoringSubdag ctx.committee) : DagState ctx where
  ownIndex := ownIndex
  cachedRounds := cachedRounds
  recentBlockHeaders := ∅
  recentTransactionsByAuthority := fun _ => ∅
  recentHeadersRefsByAuthority := fun _ => ∅
  txRefToBlockDigestByAuthority := fun _ => ∅
  thresholdClock := .new 1
  evictedRounds := fun _ => 0
  highestAcceptedRound := 0
  lastCommit := store.readLastCommit
  lastSolidSubdagBase := none
  lastCommittedRounds :=
    replayRounds (recoveredRounds store.readLastCommitInfo) (commitsToReplay store)
  scoringSubdag := scoringSubdag
  pendingCommitVotes := []
  pendingAcknowledgments := ∅
  transactionsToWrite := []
  blockHeadersToWrite := []
  commitsToWrite := []
  commitInfoToWrite := []
  fastSyncOngoingFlagToWrite := none
  store := store

def new (ctx : Context) (ownIndex cachedRounds : Nat) (store : Store) :
    Except Panic (DagState ctx) := do
  let subdags ← (commitsToReplay store).mapM store.loadSubDagBase
  let scoringSubdag ← ScoringSubdag.new.addSubdags subdags
  .ok ((List.range ctx.committee.size).foldl (loadCachedDataForAuthority .recover)
    (recovered ctx ownIndex cachedRounds store scoringSubdag))

def rebuildScoringSubdagFromStore : Except Panic (DagState ctx) :=
  match s.lastCommit with
  | none => .ok s
  | some last => do
    let subdags ← (s.store.scanCommits (s.lastCommitInfoIndex+1) last.index).mapM
      s.store.loadSubDagBase
    s.addScoringSubdags subdags

/-- The caches emptied by `reinitialize`; the committed rounds stay as they are. -/
def clearCaches : DagState ctx :=
  { s with
    scoringSubdag := .new
    recentBlockHeaders := ∅
    recentTransactionsByAuthority := fun _ => ∅
    recentHeadersRefsByAuthority := fun _ => ∅
    txRefToBlockDigestByAuthority := fun _ => ∅
    pendingCommitVotes := []
    pendingAcknowledgments := ∅
    thresholdClock := .new s.thresholdClockRound }

/-- `reinitialize`, after a fast sync: the caches are reloaded from the store. -/
def reinitializeCaches : Except Panic (DagState ctx) :=
  ((List.range ctx.committee.size).foldl (loadCachedDataForAuthority .fastCommitSyncer)
    s.clearCaches).rebuildScoringSubdagFromStore

end DagState
end Iota.Starfish
