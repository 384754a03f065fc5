import Iota.Starfish.LeaderSchedule

/-! The base committer decides one leader from the headers of its wave; the universal committer runs
three of them, one for each round of a wave, over all undecided rounds. -/
namespace Iota.Starfish
open Std (ExtTreeMap)

/-- Adds the authors of the items that pass a test until their stake reaches a quorum, the loop of
the vote, blame and certificate counts. The test may read and extend a cache. -/
def quorumAmong {α σ : Type} (c : Committee) (author : α → Nat)
    (test : σ → α → Except Panic (Bool × σ)) :
    List α → StakeAggregator c → σ → Except Panic (Bool × σ)
  | [], _, st => .ok (false,st)
  | x :: xs, agg, st => do
    let (passes,st) ← test st x
    if passes then
      if (agg.add (author x)).reachedThreshold then .ok (true,st)
      else quorumAmong c author test xs (agg.add (author x)) st
    else quorumAmong c author test xs agg st

def filterOk {α : Type} (test : α → Except Panic Bool) : List α → Except Panic (List α)
  | [] => .ok []
  | x :: xs => do
    let keep ← test x
    let rest ← filterOk test xs
    .ok (if keep then x :: rest else rest)

namespace DagState
variable {ctx : Context} (s : DagState ctx)

/-- The block of a slot that is supported by a header: the first one met depth first. The fuel is
the depth. -/
def findSupportedBlock (leaderSlot : Slot) :
    Nat → VerifiedBlockHeader → Except Panic (Option BlockRef)
  | 0, _ => .error .outOfFuel
  | fuel+1, header =>
    if header.round < leaderSlot.round then .ok none
    else header.ancestors.findSomeM? fun ancestor =>
      if ancestor.slot = leaderSlot then .ok (some ancestor)
      else if ancestor.round ≤ leaderSlot.round then .ok none
      else match s.getVerifiedBlockHeader ancestor with
        | none => .error .blockNotFound
        | some header => findSupportedBlock leaderSlot fuel header

/-- Rounds fall along ancestors, so the round of the vote bounds the depth. -/
def isVote (potentialVote leaderBlock : VerifiedBlockHeader) : Except Panic Bool := do
  let support ← s.findSupportedBlock leaderBlock.slot (potentialVote.round+1) potentialVote
  .ok (support = some leaderBlock.reference)

/-- Whether a reference is a vote, from the cache if it is there. -/
def isVoteCached (leaderBlock : VerifiedBlockHeader) (allVotes : ExtTreeMap BlockRef Bool)
    (r : BlockRef) : Except Panic (Bool × ExtTreeMap BlockRef Bool) :=
  match allVotes[r]? with
  | some vote => .ok (vote,allVotes)
  | none => match s.getVerifiedBlockHeader r with
    | none => .error .blockNotFound
    | some potentialVote => do
      let vote ← s.isVote potentialVote leaderBlock
      .ok (vote,allVotes.insert r vote)

def isCertificate (leaderBlock : VerifiedBlockHeader) (allVotes : ExtTreeMap BlockRef Bool)
    (potentialCertificate : VerifiedBlockHeader) :
    Except Panic (Bool × ExtTreeMap BlockRef Bool) :=
  quorumAmong ctx.committee BlockRef.author (s.isVoteCached leaderBlock)
    potentialCertificate.ancestors .new allVotes

def isBlame (leader : Nat) (votingBlock : VerifiedBlockHeader) : Bool :=
  votingBlock.ancestors.all fun ancestor => ancestor.author ≠ leader

def enoughLeaderBlame (votingRound leader : Nat) : Except Panic Bool := do
  let votingBlocks ← s.getUncommittedBlockHeadersAtRound votingRound
  let (enough,_) ← quorumAmong ctx.committee VerifiedBlockHeader.author
    (fun _ votingBlock => .ok (isBlame leader votingBlock,())) votingBlocks .new ()
  .ok enough

/-- The sum for the quick rejection counts an equivocating author more than once. -/
def enoughLeaderSupport (certifyingRound : Nat) (leaderBlock : VerifiedBlockHeader) :
    Except Panic Bool := do
  let decisionBlocks ← s.getUncommittedBlockHeadersAtRound certifyingRound
  let totalStake := (decisionBlocks.map fun b => ctx.committee.stake b.author).sum
  if ctx.committee.reachedQuorum totalStake = false then .ok false
  else
    let (enough,_) ← quorumAmong ctx.committee VerifiedBlockHeader.author
      (s.isCertificate leaderBlock) decisionBlocks .new ∅
    .ok enough

/-- Whether one of the potential certificates certifies the leader block. -/
def anyCertificate (leaderBlock : VerifiedBlockHeader) :
    List VerifiedBlockHeader → ExtTreeMap BlockRef Bool → Except Panic Bool
  | [], _ => .ok false
  | certificate :: rest, allVotes => do
    let (certifies,allVotes) ← s.isCertificate leaderBlock allVotes certificate
    if certifies then .ok true else anyCertificate leaderBlock rest allVotes

end DagState

/-- `BaseCommitter`, with the options of one of the pipelined committers. -/
structure BaseCommitter where
  leaderOffset : Nat
  roundOffset : Nat
deriving DecidableEq, Repr

namespace BaseCommitter
variable (b : BaseCommitter)

def leaderRound (wave : Nat) : Nat := wave * waveLength + b.roundOffset
def certifyingRound (wave : Nat) : Nat := wave * waveLength + waveLength - 1 + b.roundOffset
def waveNumber (round : Nat) : Nat := (round - b.roundOffset) / waveLength

/-- A committer has a leader at the first round of each of its waves. -/
def electLeader (ctx : Context) (schedule : LeaderSchedule) (round : Nat) :
    Except Panic (Option Slot) :=
  if b.leaderRound (b.waveNumber round) ≠ round then .ok none
  else (schedule.electLeader ctx round b.leaderOffset).map fun leader => some ⟨round,leader⟩

variable {ctx : Context} (s : DagState ctx)

def tryDirectDecide (leader : Slot) : Except Panic LeaderStatus := do
  let blamed ← s.enoughLeaderBlame (leader.round+1) leader.authority
  if blamed then .ok (.skip leader)
  else
    let certifyingRound := b.certifyingRound (b.waveNumber leader.round)
    let supported ← filterOk (s.enoughLeaderSupport certifyingRound)
      (s.getUncommittedBlockHeadersAtSlot leader)
    match supported with
    | [] => .ok (.undecided leader)
    | [block] => .ok (.commit block)
    | _ :: _ :: _ => .error .moreThanOneCertifiedBlock

def decideLeaderFromAnchor (anchor : VerifiedBlockHeader) (leaderSlot : Slot) :
    Except Panic LeaderStatus := do
  let certifyingRound := b.certifyingRound (b.waveNumber leaderSlot.round)
  let potentialCertificates ← s.ancestorsAtRound anchor certifyingRound
  let certified ← filterOk (fun block => s.anyCertificate block potentialCertificates ∅)
    (s.getUncommittedBlockHeadersAtSlot leaderSlot)
  match certified with
  | [] => .ok (.skip leaderSlot)
  | [block] => .ok (.commit block)
  | _ :: _ :: _ => .error .moreThanOneCertifiedBlock

/-- The anchor is the first committed leader from the next wave on; the search stops at an
undecided one. -/
def decideFromAnchors (leaderSlot : Slot) : List LeaderStatus → Except Panic LeaderStatus
  | [] => .ok (.undecided leaderSlot)
  | .commit anchor :: _ => b.decideLeaderFromAnchor s anchor leaderSlot
  | .skip _ :: rest => decideFromAnchors leaderSlot rest
  | .undecided _ :: _ => .ok (.undecided leaderSlot)

def tryIndirectDecide (leaderSlot : Slot) (leaders : List LeaderStatus) :
    Except Panic LeaderStatus :=
  b.decideFromAnchors s leaderSlot
    (leaders.filter fun x => leaderSlot.round + waveLength ≤ x.round)

end BaseCommitter

/-- The committers of the pipeline, one for each round of a wave, with one leader per round. -/
def committers : List BaseCommitter := (List.range waveLength).map fun offset => ⟨0,offset⟩

namespace UniversalCommitter
variable {ctx : Context} (schedule : LeaderSchedule) (s : DagState ctx)

/-- The decision of one committer on its leader of a round, given the decisions above. -/
def decideSlot (committer : BaseCommitter) (slot : Slot)
    (leaders : List (LeaderStatus × Decision)) : Except Panic (LeaderStatus × Decision) := do
  let status ← committer.tryDirectDecide s slot
  if status.isDecided then .ok (status,.direct)
  else
    let status ← committer.tryIndirectDecide s slot (leaders.map Prod.fst)
    .ok (status,.indirect)

/-- The nested loops of `try_decide` over the rounds and, in each, over the committers, from the
highest down. -/
def decideLeaders (lastDecided : Slot) : List (Nat × BaseCommitter) →
    List (LeaderStatus × Decision) → Except Panic (List (LeaderStatus × Decision))
  | [], leaders => .ok leaders
  | (round,committer) :: rest, leaders => do
    let elected ← committer.electLeader ctx schedule round
    match elected with
    | none => decideLeaders lastDecided rest leaders
    | some slot =>
      if slot = lastDecided then .ok leaders
      else
        let decided ← decideSlot s committer slot leaders
        decideLeaders lastDecided rest (decided :: leaders)

/-- `count` rounds from `first` on, each with the committers, in descending order. -/
def descending (first count : Nat) : List (Nat × BaseCommitter) :=
  (List.range' first count).reverse.flatMap fun round =>
    committers.reverse.map fun committer => (round,committer)

def decidedSequence : List LeaderStatus → List DecidedLeader
  | [] => []
  | leader :: rest =>
    if leader.round = genesisRound then decidedSequence rest
    else match leader.intoDecidedLeader with
      | none => []
      | some decided => decided :: decidedSequence rest

/-- The statuses `try_decide` computes, for the rounds after the last decided one up to two below
the highest accepted one. -/
def decideAll (lastDecided : Slot) : Except Panic (List (LeaderStatus × Decision)) :=
  decideLeaders schedule s lastDecided
    (descending (lastDecided.round+1) (s.highestAcceptedRound - 2 - lastDecided.round)) []

def tryDecide (lastDecided : Slot) : Except Panic (List DecidedLeader) := do
  let leaders ← decideAll schedule s lastDecided
  .ok (decidedSequence (leaders.map Prod.fst))

end UniversalCommitter
end Iota.Starfish
