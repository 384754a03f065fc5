import Iota.Checkpoints.CausalOrder

/-! Pending checkpoints are grouped until the minimal interval has passed; the transactions of a
group are completed with their dependencies, sorted, split and written as checkpoints. Execution,
sizes and hashes are inputs that all validators share; the order of a hash set and the scores of the
scorer are inputs of each wake-up. -/
namespace Iota.Checkpoints
open Std (ExtTreeMap)
open Iota.Authority

def maxScore : Nat := 2 ^ 16

inductive CreateFailure
  /-- A root has not been executed; the builder waits for it. -/
  | notExecuted
  | missingEffects
  | expectedOnePrologue
  | noPreviousEpoch
  | outOfFuel
deriving DecidableEq, Repr

inductive BuildFailure
  | create (failure : CreateFailure)
  /-- A checkpoint was previously built with a different result. -/
  | differentResult
deriving DecidableEq, Repr

/-- A checkpoint in the tables of the builder, or in the quarantine. -/
structure BuiltCheckpoint where
  builderSummary : BuilderCheckpointSummary
  contents : CheckpointContents
deriving DecidableEq

namespace BuiltCheckpoint

def summary (c : BuiltCheckpoint) : CheckpointSummary := c.builderSummary.summary

def height (c : BuiltCheckpoint) : Option CheckpointHeight := c.builderSummary.checkpointHeight

end BuiltCheckpoint

/-- The epoch of a network, as its checkpoint builders see it. -/
structure BuilderEnv where
  epoch : Nat
  minCheckpointIntervalMs : Nat
  consensusMedianTimestampWithCheckpointEnforcement : Bool
  passCalculatedValidatorScoresToAdvanceEpoch : Bool
  maxTransactionsPerCheckpoint : Nat
  maxCheckpointSizeBytes : Nat
  numMembers : Nat
  /-- The digest a root stands for once it has been executed. -/
  executedDigest : TransactionKey → Option TransactionDigest
  /-- The effects of the executed transactions. -/
  executed : List TransactionEffects
  executedInCurEpoch : TransactionDigest → Bool
  isPrologue : TransactionDigest → Bool
  randomnessRound : TransactionDigest → Option Nat
  /-- The serialized size of a transaction, its effects and its signatures. -/
  size : TransactionEffects → Nat
  contentsDigest : CheckpointContents → Nat
  summaryDigest : CheckpointSummary → CheckpointDigest
  /-- The serialized rounds of randomness of a checkpoint. -/
  versionSpecificData : List Nat → List Nat
  epochLastCheckpoint : Option CheckpointSummary
  genesis : Option BuiltCheckpoint
  /-- Executing the transaction that advances the epoch, from the gas cost of the epoch, the
  timestamp, the checkpoint and the scores. -/
  advanceEpoch : GasCostSummary → Nat → CheckpointSequenceNumber → List Nat →
    TransactionEffects × EndOfEpochData

structure HashOrder where
  iter : List TransactionDigest → List TransactionDigest
  perm : ∀ l, (iter l).Perm l

/-! ### Completing the transactions of a pending checkpoint -/

/-- One iteration of the loop in `complete_checkpoint_effects`. -/
structure Visit where
  seen : List TransactionDigest
  pending : List TransactionDigest := []
  results : List TransactionEffects

namespace Visit
variable (env : BuilderEnv) (included : TransactionDigest → Bool)
  (existing : List TransactionDigest)

/-- Whether a transaction is in a checkpoint already or of an earlier epoch. -/
def skips (effect : TransactionEffects) : Bool :=
  existing.contains effect.transactionDigest || included effect.transactionDigest ||
    effect.executedEpoch < env.epoch

def addDependency (v : Visit) (dependency : TransactionDigest) : Visit :=
  if env.executedInCurEpoch dependency && !v.seen.contains dependency then
    { v with seen := dependency :: v.seen, pending := v.pending ++ [dependency] }
  else v

def visit (v : Visit) (effect : TransactionEffects) : Visit :=
  let v := { v with seen := effect.transactionDigest :: v.seen }
  if skips env included existing effect then v
  else
    let v := effect.dependencies.foldl (addDependency env) v
    { v with results := v.results ++ [effect] }

end Visit
namespace BuilderEnv
variable (env : BuilderEnv) (order : HashOrder) (included : TransactionDigest → Bool)

def getExecutedEffects (digest : TransactionDigest) : Option TransactionEffects :=
  env.executed.find? fun e => e.transactionDigest = digest

def multiGetExecutedEffects (digests : List TransactionDigest) (failure : CreateFailure) :
    Except CreateFailure (List TransactionEffects) :=
  digests.mapM fun d =>
    match env.getExecutedEffects d with
    | some effects => .ok effects
    | none => .error failure

def notifyReadExecutedDigests (roots : List TransactionKey) :
    Except CreateFailure (List TransactionDigest) :=
  roots.mapM fun key =>
    match env.executedDigest key with
    | some d => .ok d
    | none => .error .notExecuted

def completeLoop (existing : List TransactionDigest) :
    Nat → List TransactionEffects → List TransactionDigest → List TransactionEffects →
      Except CreateFailure (List TransactionEffects)
  | 0, _, _, _ => .error .outOfFuel
  | fuel+1, roots, seen, results => do
    let v := roots.foldl (Visit.visit env included existing) { seen, results }
    if v.pending.isEmpty then return v.results
    let roots ← env.multiGetExecutedEffects (order.iter v.pending) .missingEffects
    completeLoop existing fuel roots v.seen v.results

/-- Every iteration but the first sees an executed transaction for the first time. -/
def completeCheckpointEffects (roots : List TransactionEffects)
    (existing : List TransactionDigest) : Except CreateFailure (List TransactionEffects) :=
  completeLoop env order included existing (env.executed.length+1) roots [] []

def extractConsensusCommitPrologue (rootDigests : List TransactionDigest)
    (rootEffects : List TransactionEffects) : Option TransactionEffects :=
  match rootDigests, rootEffects with
  | d :: _, e :: _ => if env.isPrologue d then some e else none
  | _, _ => none

/-- What the prologue needs: nothing but itself. Gives the transactions of the checkpoint so
far. -/
def completePrologue (prologue : Option TransactionEffects)
    (existing : List TransactionDigest) : Except CreateFailure (List TransactionDigest) :=
  match prologue with
  | none => .ok existing
  | some ccp => do
    let unsorted ← env.completeCheckpointEffects order included [ccp] existing
    if unsorted.length ≠ 1 then .error .expectedOnePrologue
    else .ok (existing ++ unsorted.map (·.transactionDigest))

/-- The sorted transactions of one pending checkpoint, and the transactions of the checkpoint so
far. -/
def resolveCheckpointTransactions (roots : List TransactionKey)
    (existing : List TransactionDigest) :
    Except CreateFailure (List TransactionEffects × List TransactionDigest) := do
  let rootDigests ← env.notifyReadExecutedDigests roots
  let rootEffects ← env.multiGetExecutedEffects rootDigests .notExecuted
  let prologue := env.extractConsensusCommitPrologue rootDigests rootEffects
  let existing ← env.completePrologue order included prologue existing
  let unsorted ← env.completeCheckpointEffects order included rootEffects existing
  return (prologue.toList ++ CausalOrder.causalSort unsorted,
    existing ++ unsorted.map (·.transactionDigest))

/-- The transactions of a group of pending checkpoints, one list each. -/
def resolveAll : List PendingCheckpoint → List TransactionDigest →
    Except CreateFailure (List (List TransactionEffects))
  | [], _ => .ok []
  | pending :: rest, existing => do
    let (sorted,existing) ←
      env.resolveCheckpointTransactions order included pending.roots existing
    let others ← resolveAll rest existing
    return sorted :: others

/-! ### Splitting -/

structure Chunks where
  chunks : List (List TransactionEffects) := []
  chunk : List TransactionEffects := []
  chunkSize : Nat := 0

/-- A full chunk is closed before the transaction is added, unless it is empty. -/
def addToChunk (c : Chunks) (effects : TransactionEffects) : Chunks :=
  let size := env.size effects
  let c :=
    if (c.chunk.length = env.maxTransactionsPerCheckpoint ∨
        c.chunkSize + size > env.maxCheckpointSizeBytes) ∧ c.chunk ≠ [] then
      { chunks := c.chunks ++ [c.chunk] }
    else c
  { c with chunk := c.chunk ++ [effects], chunkSize := c.chunkSize + size }

def splitCheckpointChunks (effects : List TransactionEffects) : List (List TransactionEffects) :=
  let c := effects.foldl env.addToChunk {}
  if c.chunk ≠ [] ∨ c.chunks = [] then c.chunks ++ [c.chunk] else c.chunks

/-! ### Creating checkpoints -/

def nextSequenceNumber (last : Option CheckpointSummary) : CheckpointSequenceNumber :=
  (last.map fun l => l.sequenceNumber+1).getD 0

/-- The timestamp does not decrease when this is enforced. -/
def timestampAfter (last : Option CheckpointSummary) (timestampMs : Nat) : Nat :=
  match last with
  | none => timestampMs
  | some l =>
    if l.timestampMs > timestampMs && env.consensusMedianTimestampWithCheckpointEnforcement then
      l.timestampMs
    else timestampMs

def gasCostOf (effects : List TransactionEffects) : GasCostSummary where
  computationCost := (effects.map (·.gasCostSummary.computationCost)).sum
  computationCostBurned := (effects.map (·.gasCostSummary.computationCostBurned)).sum
  storageCost := (effects.map (·.gasCostSummary.storageCost)).sum
  storageRebate := (effects.map (·.gasCostSummary.storageRebate)).sum
  nonRefundableStorageFee := (effects.map (·.gasCostSummary.nonRefundableStorageFee)).sum

def getEpochTotalGasCost (last : Option CheckpointSummary) (effects : List TransactionEffects) :
    GasCostSummary :=
  let current := gasCostOf effects
  match last with
  | none =>
    -- the default of the previous epoch is epoch 0 without costs
    current
  | some l =>
    let previous := l.epochRollingGasCostSummary
    if l.epoch = env.epoch then
      ⟨previous.computationCost + current.computationCost,
        previous.computationCostBurned + current.computationCostBurned,
        previous.storageCost + current.storageCost,
        previous.storageRebate + current.storageRebate,
        previous.nonRefundableStorageFee + current.nonRefundableStorageFee⟩
    else current

/-- The scores passed to the transaction that advances the epoch. -/
def scoresOf (currentScores : List Nat) : List Nat :=
  if env.passCalculatedValidatorScoresToAdvanceEpoch then currentScores
  else List.replicate env.numMembers maxScore

/-- One checkpoint; the last one of the epoch gets the transaction that advances the epoch. -/
def createCheckpoint (currentScores : List Nat) (details : PendingCheckpointInfo)
    (last : Option CheckpointSummary) (lastChunk : Bool) (effects : List TransactionEffects) :
    CheckpointSummary × CheckpointContents :=
  let sequenceNumber := nextSequenceNumber last
  let timestampMs := env.timestampAfter last details.timestampMs
  let gasCost := env.getEpochTotalGasCost last effects
  let augmented :=
    if details.lastOfEpoch && lastChunk then
      some (env.advanceEpoch gasCost timestampMs sequenceNumber (env.scoresOf currentScores))
    else none
  let effects := effects ++ (augmented.map Prod.fst).toList
  let contents := effects.map (·.transactionDigest)
  ({ epoch := env.epoch
     sequenceNumber
     networkTotalTransactions :=
       (last.map (·.networkTotalTransactions)).getD 0 + contents.length
     contentDigest := env.contentsDigest contents
     previousDigest := last.map env.summaryDigest
     epochRollingGasCostSummary := gasCost
     timestampMs
     checkpointCommitments := []
     endOfEpochData := augmented.map Prod.snd
     versionSpecificData := env.versionSpecificData
       (effects.filterMap fun e => env.randomnessRound e.transactionDigest) },contents)

def createFrom (currentScores : List Nat) (details : PendingCheckpointInfo) :
    Option CheckpointSummary → List (List TransactionEffects) →
      List (CheckpointSummary × CheckpointContents)
  | _, [] => []
  | last, chunk :: rest =>
    let created := env.createCheckpoint currentScores details last rest.isEmpty chunk
    created :: createFrom currentScores details (some created.1) rest

end BuilderEnv

/-! ### The builder -/

/-- The state of a builder. Checkpoints that have been executed survive a restart, and so do the
summaries in `locally_computed_checkpoints`. -/
structure Builder where
  built : List BuiltCheckpoint
  executed : Nat
  locallyComputed : ExtTreeMap CheckpointSequenceNumber CheckpointSummary

/-- When the builder is woken up: how many pending checkpoints of the epoch have arrived, after how
many built checkpoints the wake-up is cut off, and whether that happens after the next checkpoints
were written to the checkpoint store. -/
structure WakeUp where
  arrived : Nat
  builds : Nat
  written : Bool
  order : HashOrder
  currentScores : List Nat

namespace Builder
variable (env : BuilderEnv)

def new : Builder := ⟨env.genesis.toList,env.genesis.toList.length,∅⟩

def included (b : Builder) (digest : TransactionDigest) : Bool :=
  b.built.any fun c => c.contents.contains digest

def lastHeight (b : Builder) : Option CheckpointHeight := b.built.getLast?.bind (·.height)

def lastTimestamp (b : Builder) : Option Nat := b.built.getLast?.map (·.summary.timestampMs)

def loadLastBuiltCheckpointSummary (b : Builder) :
    Except CreateFailure (Option CheckpointSummary) :=
  match b.built.getLast? with
  | some c => .ok (some c.summary)
  | none =>
    if env.epoch = 0 then .ok none
    else
      match env.epochLastCheckpoint with
      | some summary => .ok (some summary)
      | none => .error .noPreviousEpoch

def createCheckpoints (b : Builder) (w : WakeUp) (pendings : List PendingCheckpoint)
    (details : PendingCheckpointInfo) :
    Except CreateFailure (List (CheckpointSummary × CheckpointContents)) := do
  let sorted ← env.resolveAll w.order b.included pendings []
  let last ← b.loadLastBuiltCheckpointSummary env
  return env.createFrom w.currentScores details last (env.splitCheckpointChunks sorted.flatten)

/-- The first half of `write_checkpoints`: the checkpoint store. -/
def writeComputed (b : Builder) (created : List (CheckpointSummary × CheckpointContents)) :
    Except BuildFailure Builder :=
  if created.any fun c => (b.locallyComputed[c.1.sequenceNumber]?).any (· ≠ c.1) then
    .error .differentResult
  else .ok { b with
    locallyComputed := created.foldl (fun m c => m.insert c.1.sequenceNumber c.1)
      b.locallyComputed }

def processConstructed (b : Builder) (height : CheckpointHeight)
    (created : List (CheckpointSummary × CheckpointContents)) : Builder :=
  { b with built := b.built ++ created.zipIdx.map fun c =>
      ⟨⟨c.1.1,some height,c.2⟩,c.1.2⟩ }

def makeCheckpoint (b : Builder) (w : WakeUp) (pendings : List PendingCheckpoint)
    (details : PendingCheckpointInfo) : Except BuildFailure Builder := do
  let created ← (b.createCheckpoints env w pendings details).mapError .create
  let b ← b.writeComputed created
  return b.processConstructed details.checkpointHeight created

def canBuild (lastTimestamp : Option Nat) (pending : PendingCheckpoint)
    (next : Option PendingCheckpoint) : Bool :=
  (match lastTimestamp with
    | some last => pending.details.timestampMs ≥ last + env.minCheckpointIntervalMs
    | none => true) ||
    next.any (·.details.lastOfEpoch) || pending.details.lastOfEpoch

def buildLoop (w : WakeUp) : List PendingCheckpoint → Option Nat → List PendingCheckpoint → Nat →
    Builder → Except BuildFailure Builder
  | [], _, _, _, b => .ok b
  | pending :: rest, lastTimestamp, grouped, builds, b =>
    let grouped := grouped ++ [pending]
    if canBuild env lastTimestamp pending rest.head? then
      match builds with
      | 0 =>
        if w.written then do
          let created ← (b.createCheckpoints env w grouped pending.details).mapError .create
          b.writeComputed created
        else .ok b
      | builds+1 => do
        let b ← b.makeCheckpoint env w grouped pending.details
        buildLoop w rest (some pending.details.timestampMs) [] builds b
    else buildLoop w rest lastTimestamp grouped builds b

/-- The pending checkpoints above the last built height among those that have arrived. -/
def getPendingCheckpoints (pendings : List PendingCheckpoint) (last : Option CheckpointHeight) :
    List PendingCheckpoint :=
  pendings.filter fun p => last.all (· < p.height)

def maybeBuildCheckpoints (pendings : List PendingCheckpoint) (w : WakeUp) (b : Builder) :
    Except BuildFailure Builder :=
  buildLoop env w (getPendingCheckpoints (pendings.take w.arrived) b.lastHeight) b.lastTimestamp []
    w.builds b

inductive Event
  | wakeUp (w : WakeUp)
  /-- The next built checkpoint has been executed. -/
  | executed
  | restart

def restart (b : Builder) : Builder := { b with built := b.built.take b.executed }

def step (pendings : List PendingCheckpoint) (b : Builder) : Event → Except BuildFailure Builder
  | .wakeUp w => b.maybeBuildCheckpoints env pendings w
  | .executed => .ok { b with executed := min (b.executed+1) b.built.length }
  | .restart => .ok b.restart

end Builder
end Iota.Checkpoints
