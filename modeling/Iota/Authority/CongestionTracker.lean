import Iota.Authority.TransactionDeferral
import Iota.Lib.Search
import Iota.Lib.BTree

/-! Each shared object has a list of free execution slots within a commit. A certificate is
scheduled at a time at which its estimated duration is free on its shared inputs and takes that slot
away from the objects it mutates, or it is deferred. -/
namespace Iota.Authority
open List
open Std (ExtTreeMap)

def maxExecutionTime : Nat := 2 ^ 64 - 1

structure ExecutionSlot where
  startTime : Nat
  endTime : Nat
  valid : startTime < endTime
  bounded : endTime ≤ maxExecutionTime
deriving DecidableEq

namespace ExecutionSlot

def duration (slot : ExecutionSlot) : Nat := slot.endTime - slot.startTime

def intersection (slot other : ExecutionSlot) : Option ExecutionSlot :=
  if h : max slot.startTime other.startTime < min slot.endTime other.endTime then
    some ⟨max slot.startTime other.startTime,min slot.endTime other.endTime,h,
      (Nat.min_le_left _ _).trans slot.bounded⟩
  else none

def maxDurationSlot : ExecutionSlot := ⟨0,maxExecutionTime,by decide,le_rfl⟩

/-- How a slot stands to another one; `eq` when it contains it. -/
def contains (slot other : ExecutionSlot) : Ordering :=
  if slot.endTime < other.endTime then .lt
  else if other.startTime < slot.startTime then .gt
  else .eq

theorem contains_eq_iff {slot other : ExecutionSlot} :
    slot.contains other = .eq ↔
      slot.startTime ≤ other.startTime ∧ other.endTime ≤ slot.endTime := by
  unfold contains
  split
  · simp; omega
  split
  · simp; omega
  · simp; omega

/-- What remains of a free slot, before and after an occupied one. -/
def remainders (free slot : ExecutionSlot) : List ExecutionSlot :=
  (if h : free.startTime < slot.startTime then
    [⟨free.startTime,slot.startTime,h,slot.valid.le.trans slot.bounded⟩] else []) ++
  (if h : slot.endTime < free.endTime then
    [⟨slot.endTime,free.endTime,h,free.bounded⟩] else [])

theorem mem_remainders {free slot r : ExecutionSlot} : r ∈ free.remainders slot ↔
    (r.startTime = free.startTime ∧ r.endTime = slot.startTime) ∨
      (r.startTime = slot.endTime ∧ r.endTime = free.endTime) := by
  obtain ⟨rs,-,-,-⟩ := r
  unfold remainders
  by_cases hl : free.startTime < slot.startTime <;> by_cases hu : slot.endTime < free.endTime <;>
    simp [hl,hu] <;> omega

end ExecutionSlot

/-- Free slots come one after the other, with time between them. -/
def Separated (slots : List ExecutionSlot) : Prop :=
  slots.Pairwise fun a b => a.endTime < b.startTime

structure ObjectExecutionSlots where
  slots : List ExecutionSlot
  separated : Separated slots

namespace ObjectExecutionSlots

def new : ObjectExecutionSlots :=
  ⟨[.maxDurationSlot],pairwise_singleton _ _⟩

def maxObjectFreeSlotStartTime (object : ObjectExecutionSlots) (txDuration : Nat) : Option Nat :=
  match object.slots.getLast? with
  | some last =>
    if txDuration ≤ maxExecutionTime - last.startTime then some last.startTime else none
  | none => none

def maxObjectOccupiedSlotEndTime (object : ObjectExecutionSlots) : Nat :=
  (object.maxObjectFreeSlotStartTime 0).getD maxExecutionTime

/-- Cutting an occupied slot out of the free slot at an index leaves the rest in place. -/
def cutAt (slots : List ExecutionSlot) (slot : ExecutionSlot) (i : Nat) : List ExecutionSlot :=
  slots.take i ++ ((slots[i]?).toList.flatMap (·.remainders slot) ++ slots.drop (i+1))

theorem separated_cutAt {slots : List ExecutionSlot} {slot : ExecutionSlot} {i : Nat}
    (hs : Separated slots) (h : slots.binarySearchBy (·.contains slot) = some i) :
    Separated (cutAt slots slot i) := by
  obtain ⟨free,hf,hcn⟩ := List.getElem?_of_binarySearchBy h
  obtain ⟨hl,hh⟩ := ExecutionSlot.contains_eq_iff.mp hcn
  obtain ⟨hi,rfl⟩ := List.getElem?_eq_some_iff.mp hf
  have hsl : slots = slots.take i ++ slots[i] :: slots.drop (i+1) := by
    rw [← drop_eq_getElem_cons hi,take_append_drop]
  have hsp := hs
  unfold Separated at hsp ⊢
  rw [hsl,pairwise_append,pairwise_cons] at hsp
  obtain ⟨hbf,⟨hn,haf⟩,hc⟩ := hsp
  have hv := slot.valid
  unfold cutAt
  rw [hf,Option.toList_some,flatMap_singleton,pairwise_append,pairwise_append]
  refine ⟨hbf,⟨?_,haf,?_⟩,?_⟩
  · unfold ExecutionSlot.remainders
    split <;> split <;> simp [hv]
  · intro r hr b hb
    have hfb := hn b hb
    rcases ExecutionSlot.mem_remainders.mp hr with ⟨-,he⟩ | ⟨-,he⟩ <;> omega
  intro a ha b hb
  rcases mem_append.mp hb with hb | hb
  · have hai := hc a ha _ mem_cons_self
    rcases ExecutionSlot.mem_remainders.mp hb with ⟨hst,-⟩ | ⟨hst,-⟩ <;> omega
  · exact hc a ha b (.tail _ hb)

def remove (object : ObjectExecutionSlots) (slot : ExecutionSlot) :
    Except Panic ObjectExecutionSlots :=
  match h : object.slots.binarySearchBy (·.contains slot) with
  | none => .error .panic
  | some i => .ok ⟨cutAt object.slots slot i,separated_cutAt object.separated h⟩

end ObjectExecutionSlots

inductive PerObjectCongestionControlMode
  | none
  | totalGasBudget
  | totalTxCount
deriving DecidableEq, Repr

structure CongestionControlParameters where
  perObjectCongestionControlMode : PerObjectCongestionControlMode
  congestionControlMinFreeExecutionSlot : Bool
  maxExecutionDurationPerCommit : Option Nat
  maxCongestionLimitOvershootPerCommit : Option Nat

namespace CongestionControlParameters

def getEstimatedExecutionDuration (params : CongestionControlParameters) (cert : Certificate) :
    Nat :=
  match params.perObjectCongestionControlMode with
  | .none => 0
  | .totalGasBudget => cert.gasBudget
  | .totalTxCount => 1

def isCongestionControlEnabled (params : CongestionControlParameters) : Bool :=
  params.maxExecutionDurationPerCommit.isSome

def getEffectiveCongestionLimitPerCommit (params : CongestionControlParameters) : Option Nat :=
  params.maxExecutionDurationPerCommit.map fun limit =>
    min (limit + params.maxCongestionLimitOvershootPerCommit.getD 0) maxExecutionTime

end CongestionControlParameters

/-- The deferral key and the suggested gas price of transactions deferred before. -/
abbrev PreviouslyDeferredTransactions := ExtTreeMap TransactionDigest (DeferralKey × Option Nat)

inductive SequencingResult
  | schedule (startTime : Nat)
  | defer (key : DeferralKey) (congested : List ObjectID)
deriving DecidableEq, Repr

structure BumpObjectExecutionSlotsResult where
  objectIds : List ObjectID
  executionStartTime : Nat
  estimatedExecutionDuration : Nat
  gasPrice : Nat
deriving DecidableEq, Repr

structure SharedObjectCongestionTracker where
  objectExecutionSlots : ExtTreeMap ObjectID ObjectExecutionSlots
  congestionControlParameters : CongestionControlParameters

namespace SharedObjectCongestionTracker

/-- The slots of an object that starts a commit with a debt. -/
def initialSlots (debt : Nat) : Except Panic ObjectExecutionSlots :=
  if h : 0 < debt ∧ debt ≤ maxExecutionTime then
    ObjectExecutionSlots.new.remove ⟨0,debt,h.1,h.2⟩
  else .ok .new

def addDebt (slots : ExtTreeMap ObjectID ObjectExecutionSlots) (entry : ObjectID × Nat) :
    Except Panic (ExtTreeMap ObjectID ObjectExecutionSlots) := do
  let object ← initialSlots entry.2
  .ok (slots.insert entry.1 object)

def new (initialObjectDebts : List (ObjectID × Nat)) (params : CongestionControlParameters) :
    Except Panic SharedObjectCongestionTracker := do
  let slots ← initialObjectDebts.foldlM addDebt ∅
  .ok ⟨slots,params⟩

variable (tracker : SharedObjectCongestionTracker)

def initializeObjectExecutionSlots (objects : List SharedInputObject) :
    SharedObjectCongestionTracker :=
  { tracker with
    objectExecutionSlots := objects.foldl
      (fun slots obj => slots.insertIfNew obj.id .new) tracker.objectExecutionSlots }

def slotsOf (id : ObjectID) : Except Panic ObjectExecutionSlots :=
  match tracker.objectExecutionSlots[id]? with
  | some object => .ok object
  | none => .error .panic

/-- `compute_min_free_execution_slot`: the slots of the first object within the lookup interval are
tried in order, each with the remaining objects. -/
def computeMinFreeExecutionSlot (txDuration : Nat) :
    List SharedInputObject → ExecutionSlot → Except Panic (Option Nat)
  | [], _ => .error .panic
  | obj :: rest, lookup => do
    let object ← tracker.slotsOf obj.id
    (object.slots.filterMap (·.intersection lookup)).findSomeM? fun slot =>
      if slot.duration < txDuration then .ok none
      else if rest.isEmpty then .ok (some slot.startTime)
      else computeMinFreeExecutionSlot txDuration rest slot

/-- The start times of the last free slots, or nothing if an object has no slot to offer. -/
def objectStartTimes (txDuration : Nat) :
    List SharedInputObject → Except Panic (Option (List Nat))
  | [] => .ok (some [])
  | obj :: rest => do
    let object ← tracker.slotsOf obj.id
    match object.maxObjectFreeSlotStartTime txDuration with
    | none => .ok none
    | some start => do
      let starts ← objectStartTimes txDuration rest
      .ok (starts.map (start :: ·))

def computeTxStartTime (objects : List SharedInputObject) (txDuration : Nat) :
    Except Panic (Option Nat) :=
  if tracker.congestionControlParameters.congestionControlMinFreeExecutionSlot then
    tracker.computeMinFreeExecutionSlot txDuration objects .maxDurationSlot
  else do
    let starts ← tracker.objectStartTimes txDuration objects
    .ok (starts.bind List.max?)

/-- Whether an object is named as a cause of congestion when slots are taken at the end. -/
def isCongested (txDuration limit : Nat) (obj : SharedInputObject) : Except Panic Bool := do
  let object ← tracker.slotsOf obj.id
  let sum := object.maxObjectOccupiedSlotEndTime + txDuration
  .ok (decide (maxExecutionTime < sum) || decide (limit < sum % 2 ^ 64))

def congestedInputs (txDuration limit : Nat) :
    List SharedInputObject → Except Panic (List ObjectID)
  | [] => .ok []
  | obj :: rest => do
    let congested ← tracker.isCongested txDuration limit obj
    let others ← congestedInputs txDuration limit rest
    .ok (if congested then obj.id :: others else others)

def congestedObjects (objects : List SharedInputObject) (txDuration limit : Nat) :
    Except Panic (List ObjectID) :=
  if tracker.congestionControlParameters.congestionControlMinFreeExecutionSlot then
    .ok (objects.map SharedInputObject.id)
  else tracker.congestedInputs txDuration limit objects

def deferralKey (previous : PreviouslyDeferredTransactions) (commitRound : CommitRound)
    (cert : Certificate) : DeferralKey :=
  match previous[cert.digest]? with
  | some entry => .newForConsensusRound (commitRound+1) entry.1.deferredFromRound
  | none => .newForConsensusRound (commitRound+1) commitRound

/-- The end of `try_schedule`: the certificate cannot be scheduled. -/
def deferCongested (cert : Certificate) (previous : PreviouslyDeferredTransactions)
    (commitRound : CommitRound) (txDuration limit : Nat) : Except Panic SequencingResult := do
  let congested ← tracker.congestedObjects cert.sharedInputObjects txDuration limit
  if congested.isEmpty then .error .panic
  else .ok (.defer (deferralKey previous commitRound cert) congested)

def trySchedule (cert : Certificate) (previous : PreviouslyDeferredTransactions)
    (commitRound : CommitRound) : Except Panic SequencingResult :=
  let params := tracker.congestionControlParameters
  let txDuration := params.getEstimatedExecutionDuration cert
  if txDuration = 0 then .ok (.schedule 0)
  else if cert.sharedInputObjects.isEmpty then .ok (.schedule 0)
  else
    match params.getEffectiveCongestionLimitPerCommit with
    | none => .ok (.schedule 0)
    | some limit => do
      match ← tracker.computeTxStartTime cert.sharedInputObjects txDuration with
      | some start =>
        if start + txDuration ≤ limit then .ok (.schedule start)
        else tracker.deferCongested cert previous commitRound txDuration limit
      | none => tracker.deferCongested cert previous commitRound txDuration limit

def removeSlot (slot : ExecutionSlot) : List ObjectID → SharedObjectCongestionTracker →
    Except Panic SharedObjectCongestionTracker
  | [], tracker => .ok tracker
  | id :: rest, tracker => do
    let object ← tracker.slotsOf id
    let object ← object.remove slot
    removeSlot slot rest
      { tracker with objectExecutionSlots := tracker.objectExecutionSlots.insert id object }

def bumpObjectExecutionSlots (cert : Certificate) (startTime : Nat) :
    Except Panic (SharedObjectCongestionTracker × Option BumpObjectExecutionSlotsResult) :=
  let duration := tracker.congestionControlParameters.getEstimatedExecutionDuration cert
  if duration = 0 then .ok (tracker,none)
  else if h : startTime < min (startTime + duration) maxExecutionTime then do
    let slot : ExecutionSlot :=
      ⟨startTime,min (startTime + duration) maxExecutionTime,h,Nat.min_le_right _ _⟩
    let tracker ← removeSlot slot cert.mutableInputs tracker
    .ok (tracker,some ⟨cert.mutableInputs,startTime,duration,cert.gasPrice⟩)
  else .error .panic

end SharedObjectCongestionTracker

/-- A certificate offered to the tracker while a commit is processed. -/
structure SchedulingRequest where
  cert : Certificate
  previous : PreviouslyDeferredTransactions
  commitRound : CommitRound

/-- The tracker of a commit, with the certificates scheduled so far and their start times. -/
structure CommitSchedule where
  tracker : SharedObjectCongestionTracker
  scheduled : List (Certificate × Nat)

namespace CommitSchedule

def place (s : CommitSchedule) (tracker : SharedObjectCongestionTracker) (cert : Certificate) :
    SequencingResult → Except Panic CommitSchedule
  | .defer _ _ => .ok { s with tracker := tracker }
  | .schedule start => do
    let (tracker,_) ← tracker.bumpObjectExecutionSlots cert start
    .ok ⟨tracker,s.scheduled ++ [(cert,start)]⟩

/-- What the epoch store does with a certificate; nothing is tracked when congestion control is
off. -/
def attempt (s : CommitSchedule) (request : SchedulingRequest) :
    Except Panic (SequencingResult × CommitSchedule) :=
  if s.tracker.congestionControlParameters.isCongestionControlEnabled then do
    let tracker := s.tracker.initializeObjectExecutionSlots request.cert.sharedInputObjects
    let result ← tracker.trySchedule request.cert request.previous request.commitRound
    let s' ← s.place tracker request.cert result
    .ok (result,s')
  else .ok (.schedule 0,s)

theorem place_schedule {s : CommitSchedule} {tracker tracker' : SharedObjectCongestionTracker}
    {cert : Certificate} {start : Nat} {bumped : Option BumpObjectExecutionSlotsResult}
    (hb : tracker.bumpObjectExecutionSlots cert start = .ok (tracker',bumped)) :
    s.place tracker cert (.schedule start) = .ok ⟨tracker',s.scheduled ++ [(cert,start)]⟩ := by
  rw [place,hb]
  rfl

theorem attempt_ok {s s' : CommitSchedule} {request : SchedulingRequest} {result : SequencingResult}
    (he : s.tracker.congestionControlParameters.isCongestionControlEnabled = true)
    (ht : (s.tracker.initializeObjectExecutionSlots
      request.cert.sharedInputObjects).trySchedule request.cert request.previous
        request.commitRound = .ok result)
    (hp : s.place (s.tracker.initializeObjectExecutionSlots request.cert.sharedInputObjects)
      request.cert result = .ok s') : s.attempt request = .ok (result,s') := by
  simp [attempt,he,ht,hp]

def step (s : CommitSchedule) (request : SchedulingRequest) : Except Panic CommitSchedule :=
  (s.attempt request).map Prod.snd

end CommitSchedule
end Iota.Authority
