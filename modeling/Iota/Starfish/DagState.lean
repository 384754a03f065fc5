import Iota.Starfish.LeaderScoring

/-! The in-memory caches, the write buffers and the store of one authority, and what the other
components read from them. Vectors indexed by authority are functions of the index: the indices come
from verified headers or from the committee itself. -/
namespace Iota.Starfish
open Std (ExtTreeMap ExtTreeSet)

structure ThresholdClock (c : Committee) where
  aggregator : StakeAggregator c
  round : Nat

namespace ThresholdClock
variable {c : Committee}

def new (round : Nat) : ThresholdClock c := ⟨.new,round⟩

def tryAdvanceRound (t : ThresholdClock c) (newRound : Nat) : ThresholdClock c :=
  if t.aggregator.reachedThreshold then ⟨.new,newRound⟩ else t

/-- Stale references are ignored, one of a later round starts that round, one of the current
round adds its author's stake. -/
def addBlockHeader (t : ThresholdClock c) (r : BlockRef) : ThresholdClock c :=
  let t := if r.round < t.round then t
    else if t.round < r.round then ⟨StakeAggregator.new.add r.author,r.round⟩
    else ⟨t.aggregator.add r.author,t.round⟩
  t.tryAdvanceRound (r.round+1)

end ThresholdClock

inductive DataSource
  | transactionSynchronizer
  | shardReconstructor
  | blockBundleStream
  | headerSynchronizer
  | recover
  | ownBlock
  | blockStreaming
  | commitSyncer
  | fastCommitSyncer
deriving DecidableEq, Repr

structure Store where
  blockHeaders : ExtTreeMap BlockRef VerifiedBlockHeader
  transactions : ExtTreeMap GenericTransactionRef VerifiedTransactions
  commits : ExtTreeMap CommitRef TrustedCommit
  commitInfo : ExtTreeMap CommitRef CommitInfo
  fastSyncOngoing : Bool

namespace Store

def empty : Store := ⟨∅,∅,∅,∅,false⟩

variable (store : Store)

def scanBlockHeadersByAuthor (author startRound : Nat) : List VerifiedBlockHeader :=
  (store.blockHeaders.toList.filter fun p => p.1.author = author ∧ startRound ≤ p.1.round).map
    Prod.snd

/-- With fast commit sync transactions are scanned by their own references, otherwise through the
references of the stored headers. -/
def scanTransactionsByAuthor (fastCommitSync : Bool) (author startRound : Nat) :
    List VerifiedTransactions :=
  if fastCommitSync then
    (store.transactions.toList.filter fun p =>
      p.1.variantIndex = 1 ∧ p.1.author = author ∧ startRound ≤ p.1.round).map Prod.snd
  else
    (store.scanBlockHeadersByAuthor author startRound).filterMap fun h =>
      store.transactions[GenericTransactionRef.blockRef h.reference]?

def readLastCommit : Option TrustedCommit := store.commits.lastKey?.bind fun k => store.commits[k]?

def readLastCommitInfo : Option (CommitRef × CommitInfo) :=
  store.commitInfo.lastKey?.bind fun k => store.commitInfo[k]?.map fun info => (k,info)

def scanCommits (first last : Nat) : List TrustedCommit :=
  (store.commits.toList.filter fun p => first ≤ p.1.index ∧ p.1.index ≤ last).map Prod.snd

theorem readLastCommit_eq_some {c : TrustedCommit} (h : store.readLastCommit = some c) :
    ∃ k, store.commits[k]? = some c ∧ ∀ k' ∈ store.commits, (compare k' k).isLE := by
  obtain ⟨k,hk,hg⟩ := Option.bind_eq_some_iff.mp h
  exact ⟨k,hg,(ExtTreeMap.lastKey?_eq_some_iff.mp hk).2⟩

theorem readLastCommit_eq_none (h : store.readLastCommit = none) : store.commits = ∅ := by
  unfold readLastCommit at h
  cases hk : store.commits.lastKey? with
  | none => exact ExtTreeMap.lastKey?_eq_none_iff.mp hk
  | some k =>
    have hm := (ExtTreeMap.lastKey?_eq_some_iff.mp hk).1
    rw [hk,Option.bind_some] at h
    rw [ExtTreeMap.mem_iff_isSome_getElem?,h] at hm
    cases hm

theorem readLastCommitInfo_eq_some {k : CommitRef} {info : CommitInfo}
    (h : store.readLastCommitInfo = some (k,info)) :
    store.commitInfo[k]? = some info ∧ ∀ k' ∈ store.commitInfo, (compare k' k).isLE := by
  obtain ⟨k',hk,hg⟩ := Option.bind_eq_some_iff.mp h
  obtain ⟨info',hi,heq⟩ := Option.map_eq_some_iff.mp hg
  cases heq
  exact ⟨hi,(ExtTreeMap.lastKey?_eq_some_iff.mp hk).2⟩

theorem mem_scanCommits {first last : Nat} {c : TrustedCommit} :
    c ∈ store.scanCommits first last ↔
      ∃ k : CommitRef, store.commits[k]? = some c ∧ first ≤ k.index ∧ k.index ≤ last := by
  simp only [scanCommits,List.mem_map,List.mem_filter,Prod.exists,decide_eq_true_eq,
    ExtTreeMap.mem_toList_iff_getElem?_eq_some]
  constructor
  · rintro ⟨k,c',⟨hk,hr⟩,rfl⟩
    exact ⟨k,hk,hr⟩
  · rintro ⟨k,hk,hr⟩
    exact ⟨k,c,⟨hk,hr⟩,rfl⟩

end Store

/-- `DagState` without shards, voting headers, metrics and wall-clock times. The index of the
authority comes from its own context. -/
structure DagState (ctx : Context) where
  ownIndex : Nat
  cachedRounds : Nat
  recentBlockHeaders : ExtTreeMap BlockRef VerifiedBlockHeader
  recentTransactionsByAuthority : Nat → ExtTreeMap GenericTransactionRef VerifiedTransactions
  recentHeadersRefsByAuthority : Nat → ExtTreeSet BlockRef
  txRefToBlockDigestByAuthority : Nat → ExtTreeMap TransactionRef Nat
  thresholdClock : ThresholdClock ctx.committee
  evictedRounds : Nat → Nat
  highestAcceptedRound : Nat
  lastCommit : Option TrustedCommit
  lastSolidSubdagBase : Option SubDagBase
  lastCommittedRounds : Nat → Nat
  scoringSubdag : ScoringSubdag ctx.committee
  pendingCommitVotes : List CommitRef
  pendingAcknowledgments : ExtTreeSet BlockRef
  transactionsToWrite : List VerifiedTransactions
  blockHeadersToWrite : List VerifiedBlockHeader
  commitsToWrite : List TrustedCommit
  commitInfoToWrite : List (CommitRef × CommitInfo)
  fastSyncOngoingFlagToWrite : Option Bool
  store : Store

namespace DagState
variable {ctx : Context} (s : DagState ctx)

def thresholdClockRound : Nat := s.thresholdClock.round

def lastCommitRound : Nat :=
  match s.lastCommit with
  | some commit => commit.leader.round
  | none => 0

def lastCommitIndex : Nat :=
  match s.lastCommit with
  | some commit => commit.index
  | none => 0

def lastCommitDigest : Nat :=
  match s.lastCommit with
  | some commit => commit.digest
  | none => 0

def lastCommitTimestampMs : Nat :=
  match s.lastCommit with
  | some commit => commit.timestampMs
  | none => 0

/-- Leader slot of the last commit; the first genesis slot before any commit. -/
def lastCommitLeader : Slot :=
  match s.lastCommit with
  | some commit => commit.leader.slot
  | none => ⟨genesisRound,0⟩

/-- A header is looked up in genesis, then in the cache, then in the store. -/
def getVerifiedBlockHeader (r : BlockRef) : Option VerifiedBlockHeader :=
  if r.round = genesisRound then ctx.genesisHeaders.find? fun h => h.reference = r
  else match s.recentBlockHeaders[r]? with
    | some h => some h
    | none => s.store.blockHeaders[r]?

def getVerifiedBlockHeaders (refs : List BlockRef) : List (Option VerifiedBlockHeader) :=
  refs.map s.getVerifiedBlockHeader

/-- Commitments of the referenced headers; genesis has none. -/
def getTransactionsCommitmentsBatch (refs : List BlockRef) : List (Option Nat) :=
  refs.map fun r =>
    if r.round = genesisRound then none
    else (s.getVerifiedBlockHeader r).map VerifiedBlockHeader.transactionsCommitment

def resolveBlockRef (t : TransactionRef) : Option BlockRef :=
  (s.txRefToBlockDigestByAuthority t.author)[t]?.map fun digest => ⟨t.round,t.author,digest⟩

def getUncommittedBlockHeadersAtSlot (slot : Slot) : List VerifiedBlockHeader :=
  (s.recentBlockHeaders.toList.filter fun p => p.1.slot = slot).map Prod.snd

def getUncommittedBlockHeadersAtRound (round : Nat) : Except Panic (List VerifiedBlockHeader) :=
  if round ≤ s.lastCommitRound then .error .roundHasCommittedHeaders
  else .ok ((s.recentBlockHeaders.toList.filter fun p => p.1.round = round).map Prod.snd)

/-- Upper bound on the headers that can be looked up, the fuel of the traversals. -/
def headerCount : Nat :=
  ctx.committee.size + s.recentBlockHeaders.size + s.store.blockHeaders.size

/-- The loop of `ancestors_at_round`: the highest linked reference above `earlierRound` is replaced
by its ancestors. -/
def linkedAtRound (earlierRound : Nat) : Nat → ExtTreeSet BlockRef →
    Except Panic (ExtTreeSet BlockRef)
  | 0, _ => .error .outOfFuel
  | fuel+1, linked =>
    match linked.last? with
    | none => .ok linked
    | some r =>
      if r.round ≤ earlierRound then .ok linked
      else match s.getVerifiedBlockHeader r with
        | none => .error .blockNotFound
        | some h => linkedAtRound earlierRound fuel
            ((linked.erase r).insertMany (h.ancestors.filter fun a => earlierRound ≤ a.round))

def expectHeaders : List (Option VerifiedBlockHeader) → Except Panic (List VerifiedBlockHeader)
  | [] => .ok []
  | none :: _ => .error .blockNotFound
  | some h :: hs => (expectHeaders hs).map (h :: ·)

def ancestorsAtRound (laterBlock : VerifiedBlockHeader) (earlierRound : Nat) :
    Except Panic (List VerifiedBlockHeader) := do
  let linked ← s.linkedAtRound earlierRound (s.headerCount+1) (.ofList laterBlock.ancestors)
  expectHeaders (s.getVerifiedBlockHeaders linked.toList)

/-- Membership with the shortcut for references above the newest cached one of their author. -/
def containsBlockHeader (r : BlockRef) : Bool :=
  let recentRefs := s.recentHeadersRefsByAuthority r.author
  if recentRefs.contains r || (ctx.genesisHeaders.any fun h => h.reference = r) then true
  else match recentRefs.last? with
    | none => false
    | some last => if last.round < r.round then false else s.store.blockHeaders.contains r

/-- Last cached header of an authority, or its genesis header. -/
def getLastBlockHeaderForAuthority (authority : Nat) : Except Panic VerifiedBlockHeader :=
  match (s.recentHeadersRefsByAuthority authority).last? with
  | some last => match s.recentBlockHeaders[last]? with
    | some h => .ok h
    | none => .error .blockNotFound
  | none => match ctx.genesisHeaders.find? fun h => h.author = authority with
    | some h => .ok h
    | none => .error .blockNotFound

def evictionRound (commitRound cachedRounds : Nat) : Nat := commitRound - cachedRounds

def calculateAuthorityEvictionRound (a : Nat) : Nat :=
  evictionRound (s.lastCommittedRounds a) s.cachedRounds

def gcRound (ctx : Context) (round : Nat) : Nat := round - 2 * ctx.protocolConfig.gcDepth

def gcRoundForLastSolidCommit : Nat :=
  match s.lastSolidSubdagBase with
  | some base => gcRound ctx base.leader.round
  | none => genesisRound

def lastCommitInfoIndex : Nat :=
  match s.store.readLastCommitInfo with
  | some (ref,info) =>
    if info.reputationScores.commitRange.last = genesisCommitIndex then ref.index
    else info.reputationScores.commitRange.last
  | none => genesisCommitIndex

end DagState
end Iota.Starfish
