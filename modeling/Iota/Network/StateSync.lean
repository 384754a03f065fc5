import Iota.Lib.Run
import Iota.Types.Checkpoint

/-! Summaries reach the store through `sync_to_checkpoint`. It takes them from a temporary cache
that peers fill by pushing summaries and by reporting their highest one, or else from the answers of
peers to its own requests. The requests of one run are in flight together and are processed in order
of their sequence numbers. -/
namespace Iota.Network
open Std (ExtTreeMap)

abbrev PeerId := Nat
abbrev Checkpoint := CertifiedCheckpointSummary
abbrev PinnedCheckpoints := List (Nat × CheckpointDigest)

/-- Why a step is not taken: the node panics, or the task is not at this point. -/
inductive Halt
  | panic
  | notReady
deriving DecidableEq, Repr

def checkedSucc (n : Nat) : Except Halt Nat :=
  if n+1 < 2 ^ 64 then .ok (n+1) else .error .panic

structure PeerStateSyncInfo where
  genesisCheckpointDigest : CheckpointDigest
  onSameChainAsUs : Bool
  height : Nat
  lowest : Nat
deriving DecidableEq

structure PeerHeights where
  peers : ExtTreeMap PeerId PeerStateSyncInfo
  unprocessedCheckpoints : ExtTreeMap CheckpointDigest Checkpoint
  sequenceNumberToDigest : ExtTreeMap Nat CheckpointDigest

namespace PeerHeights
variable (crypto : Crypto)

def empty : PeerHeights := ⟨∅,∅,∅⟩

def highestKnownCheckpointSequenceNumber (heights : PeerHeights) : Option Nat :=
  ((heights.peers.toList.filter fun e => e.2.onSameChainAsUs).map fun e => e.2.height).max?

def getCheckpointByDigest (heights : PeerHeights) (digest : CheckpointDigest) :
    Option Checkpoint :=
  heights.unprocessedCheckpoints[digest]?

def getCheckpointBySequenceNumber (heights : PeerHeights) (sequenceNumber : Nat) :
    Option Checkpoint :=
  heights.sequenceNumberToDigest[sequenceNumber]?.bind heights.getCheckpointByDigest

def highestKnownCheckpoint (heights : PeerHeights) : Option Checkpoint :=
  heights.highestKnownCheckpointSequenceNumber.bind heights.getCheckpointBySequenceNumber

def insertCheckpoint (heights : PeerHeights) (checkpoint : Checkpoint) : PeerHeights :=
  { heights with
    unprocessedCheckpoints :=
      heights.unprocessedCheckpoints.insert (checkpoint.digest crypto) checkpoint
    sequenceNumberToDigest :=
      heights.sequenceNumberToDigest.insert checkpoint.sequenceNumber
        (checkpoint.digest crypto) }

def removeCheckpoint (heights : PeerHeights) (digest : CheckpointDigest) : PeerHeights :=
  match heights.unprocessedCheckpoints[digest]? with
  | none => heights
  | some checkpoint =>
    { heights with
      unprocessedCheckpoints := heights.unprocessedCheckpoints.erase digest
      sequenceNumberToDigest := heights.sequenceNumberToDigest.erase checkpoint.sequenceNumber }

def cleanupOldCheckpoints (heights : PeerHeights) (sequenceNumber : Nat) : PeerHeights :=
  { heights with
    unprocessedCheckpoints :=
      heights.unprocessedCheckpoints.filter fun _ c => decide (sequenceNumber < c.sequenceNumber)
    sequenceNumberToDigest :=
      heights.sequenceNumberToDigest.filter fun s _ => decide (sequenceNumber < s) }

def Listens (heights : PeerHeights) (peer : PeerId) : Prop :=
  ∃ info, heights.peers[peer]? = some info ∧ info.onSameChainAsUs = true

def updatePeerInfo (heights : PeerHeights) (peer : PeerId) (checkpoint : Checkpoint)
    (lowWatermark : Option Nat) : PeerHeights :=
  match heights.peers[peer]? with
  | none => heights
  | some info =>
    if info.onSameChainAsUs then
      let info :=
        { info with
          height := max checkpoint.sequenceNumber info.height
          lowest := lowWatermark.getD info.lowest }
      insertCheckpoint crypto { heights with peers := heights.peers.insert peer info } checkpoint
    else heights

def insertPeerInfo (heights : PeerHeights) (peer : PeerId) (info : PeerStateSyncInfo) :
    PeerHeights :=
  let entry :=
    match heights.peers[peer]? with
    | none => info
    | some entry =>
      if entry.genesisCheckpointDigest = info.genesisCheckpointDigest then
        { entry with height := max entry.height info.height }
      else info
  { heights with peers := heights.peers.insert peer entry }

def markPeerAsNotOnSameChain (heights : PeerHeights) (peer : PeerId) : PeerHeights :=
  match heights.peers[peer]? with
  | none => heights
  | some info =>
    { heights with peers := heights.peers.insert peer { info with onSameChainAsUs := false } }

end PeerHeights

/-- The tables of the checkpoint store and of the committee store, with the watermark of the
highest verified checkpoint. -/
structure Store where
  certifiedCheckpoints : ExtTreeMap Nat Checkpoint
  checkpointByDigest : ExtTreeMap CheckpointDigest Checkpoint
  highestVerified : Nat × CheckpointDigest
  committees : ExtTreeMap Nat Committee

namespace Store
variable (crypto : Crypto)

def getHighestVerifiedCheckpoint (store : Store) : Except Halt Checkpoint :=
  match store.checkpointByDigest[store.highestVerified.2]? with
  | some checkpoint => .ok checkpoint
  | none => .error .panic

def insertNewCommittee (store : Store) (committee : Committee) : Except Halt Store :=
  match store.committees[committee.epoch]? with
  | some old => if old = committee then .ok store else .error .panic
  | none => .ok { store with committees := store.committees.insert committee.epoch committee }

/-- The committee a checkpoint announces, entered for the epoch after the checkpoint's. -/
def insertNextCommittee (store : Store) (summary : CheckpointSummary) : Except Halt Store :=
  match summary.nextEpochCommittee with
  | none => .ok store
  | some rights => do
    let epoch ← checkedSucc summary.epoch
    match Committee.new epoch rights with
    | .error _ => .error .panic
    | .ok committee => store.insertNewCommittee committee

def insertCertifiedCheckpoint (store : Store) (checkpoint : Checkpoint) : Store :=
  { store with
    certifiedCheckpoints :=
      store.certifiedCheckpoints.insert checkpoint.sequenceNumber checkpoint
    checkpointByDigest :=
      store.checkpointByDigest.insert (checkpoint.digest crypto) checkpoint }

def updateHighestVerifiedCheckpoint (store : Store) (checkpoint : Checkpoint) : Store :=
  if store.highestVerified.1 < checkpoint.sequenceNumber then
    { store with highestVerified := (checkpoint.sequenceNumber,checkpoint.digest crypto) }
  else store

def insertCheckpoint (store : Store) (checkpoint : Checkpoint) : Except Halt Store := do
  let store ← store.insertNextCommittee checkpoint.summary
  .ok ((store.insertCertifiedCheckpoint crypto checkpoint).updateHighestVerifiedCheckpoint crypto
    checkpoint)

end Store

/-- A request of a sync run: peers are being asked, or it has ended with a result. -/
inductive Fetch
  | asking
  | done (checkpoint : Option Checkpoint) (peer : Option PeerId)

structure SyncTask where
  current : Checkpoint
  target : Nat
  requests : ExtTreeMap Nat Fetch

structure State where
  heights : PeerHeights
  store : Store
  task : Option SyncTask
  /-- What `sync_to_checkpoint` inserted so far, each with the checkpoint it was put after. -/
  synced : List (Checkpoint × Checkpoint)

section Verify
variable (crypto : Crypto)

/-- `verify_checkpoint_with_committee`; `true` when the checkpoint is accepted. -/
def verifyCheckpointWithCommittee (committee : Committee) (current checkpoint : Checkpoint) :
    Except Halt Bool := do
  let next ← checkedSucc current.sequenceNumber
  if checkpoint.sequenceNumber ≠ next then .error .panic
  else if some (current.digest crypto) ≠ checkpoint.summary.previousDigest then .ok false
  else
    let nextEpoch ← checkedSucc current.summary.epoch
    if checkpoint.summary.epoch ≠ current.summary.epoch ∧
        checkpoint.summary.epoch ≠ nextEpoch then .ok false
    else if checkpoint.summary.epoch = nextEpoch ∧
        current.summary.nextEpochCommittee.isNone then .ok false
    else
      match checkpoint.verifyAuthoritySignatures crypto committee with
      | .ok () => .ok true
      | .error _ => .ok false

def verifyCheckpoint (store : Store) (current checkpoint : Checkpoint) : Except Halt Bool :=
  match store.committees[checkpoint.summary.epoch]? with
  | none => .error .panic
  | some committee => verifyCheckpointWithCommittee crypto committee current checkpoint

end Verify

/-- What peers, consensus and the tasks of state sync do, one event at a time. -/
inductive Event
  | connect (peer : PeerId) (genesis : Option Checkpoint)
  | lost (peer : PeerId)
  | push (peer : PeerId) (checkpoint : Checkpoint)
  | availability (peer : PeerId) (checkpoint : Checkpoint) (lowest : Option Nat)
  | certified (checkpoint : Checkpoint)
  | consensus (checkpoint : Checkpoint)
  | start
  | poll (sequenceNumber : Nat)
  | answer (sequenceNumber : Nat) (peer : PeerId) (checkpoint : Checkpoint)
  | exhausted (sequenceNumber : Nat)
  | process
  | finish
  | restart

namespace StateSync
variable (crypto : Crypto) (pinned : PinnedCheckpoints)

/-- The entry of the sorted list of pinned checkpoints at a sequence number. -/
def pinnedDigest (sequenceNumber : Nat) : Option CheckpointDigest :=
  let sorted := pinned.mergeSort fun a b => a.1 < b.1 ∨ a.1 = b.1 ∧ a.2 ≤ b.2
  (sorted.binarySearchByKey Prod.fst sequenceNumber).map Prod.snd

/-- The first answer in `get_latest_from_peer`: the genesis checkpoint of a peer. -/
def connect (s : State) (peer : PeerId) (genesis : Option Checkpoint) : Except Halt State :=
  match s.store.certifiedCheckpoints[0]? with
  | none => .error .panic
  | some ours =>
    let info : PeerStateSyncInfo :=
      match genesis with
      | some checkpoint =>
        { genesisCheckpointDigest := checkpoint.digest crypto
          onSameChainAsUs := decide (ours.digest crypto = checkpoint.digest crypto)
          height := checkpoint.sequenceNumber
          lowest := 0 }
      | none => ⟨0,false,0,0⟩
    .ok { s with heights := s.heights.insertPeerInfo peer info }

/-- A checkpoint certified by this validator's own aggregator, which stored it before. -/
def handleCheckpointFromConsensus (s : State) (checkpoint : Checkpoint) : Except Halt State :=
  match checkpoint.sequenceNumber with
  | 0 => .error .panic
  | previous+1 =>
    match s.store.certifiedCheckpoints[previous]? with
    | none => .error .panic
    | some previous =>
      if checkpoint.summary.previousDigest ≠ some (previous.digest crypto) then .error .panic
      else do
        let latest ← s.store.getHighestVerifiedCheckpoint
        if checkpoint.sequenceNumber ≤ latest.sequenceNumber then .ok s
        else
          let store ← s.store.insertNextCommittee checkpoint.summary
          .ok { s with store := store.updateHighestVerifiedCheckpoint crypto checkpoint }

/-- `maybe_start_checkpoint_summary_sync_task` and the head of `sync_to_checkpoint`. -/
def start (s : State) : Except Halt State :=
  match s.task with
  | some _ => .ok s
  | none => do
    let current ← s.store.getHighestVerifiedCheckpoint
    match s.heights.highestKnownCheckpoint with
    | none => .ok s
    | some target =>
      if current.sequenceNumber < target.sequenceNumber then
        .ok { s with task := some ⟨current,target.sequenceNumber,∅⟩ }
      else .ok s

/-- A request of the stream begins: it takes a summary from the cache or starts to ask. -/
def poll (s : State) (next : Nat) : Except Halt State :=
  match s.task with
  | none => .error .notReady
  | some task =>
    if next ∈ task.requests ∨ next ≤ task.current.sequenceNumber ∨ task.target < next then
      .error .notReady
    else
      let fetch :=
        match s.heights.getCheckpointBySequenceNumber next with
        | some checkpoint => Fetch.done (some checkpoint) none
        | none => Fetch.asking
      .ok { s with task := some { task with requests := task.requests.insert next fetch } }

/-- A peer answers the request for a sequence number; a summary with another number or with
another digest than the pinned one is passed over. -/
def answer (s : State) (next : Nat) (peer : PeerId) (checkpoint : Checkpoint) :
    Except Halt State :=
  match s.task with
  | none => .error .notReady
  | some task =>
    match task.requests[next]? with
    | some .asking =>
      if checkpoint.sequenceNumber ≠ next then .ok s
      else if (pinnedDigest pinned checkpoint.sequenceNumber).any
          (fun d => d ≠ checkpoint.digest crypto) then .ok s
      else
        let fetch := Fetch.done (some checkpoint) (some peer)
        .ok { s with
          heights := s.heights.insertCheckpoint crypto checkpoint
          task := some { task with requests := task.requests.insert next fetch } }
    | _ => .error .notReady

def exhausted (s : State) (next : Nat) : Except Halt State :=
  match s.task with
  | none => .error .notReady
  | some task =>
    match task.requests[next]? with
    | some .asking =>
      .ok { s with
        task := some { task with requests := task.requests.insert next (.done none none) } }
    | _ => .error .notReady

/-- The checks of the loop of `sync_to_checkpoint`: pinned checkpoints are not verified. -/
def accepts (s : State) (current checkpoint : Checkpoint) : Except Halt Bool :=
  if (pinnedDigest pinned checkpoint.sequenceNumber).isSome then .ok true
  else verifyCheckpoint crypto s.store current checkpoint

def process (s : State) : Except Halt State :=
  match s.task with
  | none => .error .notReady
  | some task =>
    match task.requests[task.current.sequenceNumber+1]? with
    | some (.done none _) => .ok { s with task := none }
    | some (.done (some checkpoint) peer) => do
      if ← accepts crypto pinned s task.current checkpoint then
        let store ← s.store.insertCheckpoint crypto checkpoint
        .ok { s with
          store := store
          task := some { task with current := checkpoint }
          synced := (task.current,checkpoint) :: s.synced }
      else
        let heights := s.heights.removeCheckpoint (checkpoint.digest crypto)
        let heights := (peer.map heights.markPeerAsNotOnSameChain).getD heights
        .ok { s with heights := heights, task := none }
    | _ => .error .notReady

def finish (s : State) : Except Halt State :=
  match s.task with
  | none => .error .notReady
  | some task =>
    if task.current.sequenceNumber = task.target then
      .ok { s with heights := s.heights.cleanupOldCheckpoints task.target, task := none }
    else .error .notReady

def step (s : State) : Event → Except Halt State
  | .connect peer genesis => connect crypto s peer genesis
  | .lost peer =>
    .ok { s with heights := { s.heights with peers := s.heights.peers.erase peer } }
  | .push peer checkpoint =>
    .ok { s with heights := s.heights.updatePeerInfo crypto peer checkpoint none }
  | .availability peer checkpoint lowest =>
    .ok { s with heights := s.heights.updatePeerInfo crypto peer checkpoint lowest }
  | .certified checkpoint =>
    .ok { s with store := s.store.insertCertifiedCheckpoint crypto checkpoint }
  | .consensus checkpoint => handleCheckpointFromConsensus crypto s checkpoint
  | .start => start s
  | .poll next => poll s next
  | .answer next peer checkpoint => answer crypto pinned s next peer checkpoint
  | .exhausted next => exhausted s next
  | .process => process crypto pinned s
  | .finish => finish s
  | .restart => .ok { s with heights := .empty, task := none }

end StateSync
end Iota.Network
