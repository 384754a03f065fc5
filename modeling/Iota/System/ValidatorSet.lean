import Iota.Lib.VecMap
import Iota.System.VotingPower

/-! The Move module `validator_set`: candidates, pending, active and inactive validators, the
committee chosen among the active ones, and the epoch change. -/
namespace Iota.System
open Error Move VotingPower

/-- For each reported validator the validators that report it. -/
abbrev ReportRecords := VecMap Nat (VecSet Nat)

structure SystemParameters where
  minValidatorCount : Nat
  maxValidatorCount : Nat
  minValidatorJoiningStake : Nat
  validatorLowStakeThreshold : Nat
  validatorVeryLowStakeThreshold : Nat
  validatorLowStakeGracePeriod : Nat
deriving DecidableEq, Repr

structure AdvanceEpochParams where
  epoch : Nat
  nextProtocolVersion : Nat
  validatorSubsidy : Nat
  storageCharge : Nat
  computationCharge : Nat
  computationChargeBurned : Nat
  storageRebate : Nat
  nonRefundableStorageFee : Nat
  rewardSlashingRate : Nat
  epochStartTimestampMs : Nat
  maxCommitteeMembersCount : Nat
  eligibleActiveValidators : List Nat
  scores : List Nat
  adjustRewardsByScore : Bool
deriving DecidableEq, Repr

structure ValidatorSet where
  totalStake : Nat
  activeValidators : List Validator
  committeeMembers : List Nat
  pendingActiveValidators : List Validator
  pendingRemovals : List Nat
  stakingPoolMappings : Std.ExtTreeMap Nat Nat
  inactiveValidators : Std.ExtTreeMap Nat Validator
  validatorCandidates : Std.ExtTreeMap Nat Validator
  atRiskValidators : VecMap Nat Nat

def basisPointDenominator : Nat := 10000

def maxScore : Nat := 65536

def Table.add {ν : Type} (table : Std.ExtTreeMap Nat ν) (key : Nat) (value : ν) :
    Tx (Std.ExtTreeMap Nat ν) :=
  if table.contains key then .error .dynamicField else .ok (table.insert key value)

def Table.remove {ν : Type} (table : Std.ExtTreeMap Nat ν) (key : Nat) :
    Tx (ν × Std.ExtTreeMap Nat ν) :=
  match table[key]? with
  | some value => .ok (value,table.erase key)
  | none => .error .dynamicField

/-- Where a new index goes among the indices of the largest elements, which stand in ascending
order here: past those whose elements are smaller. -/
def insertTop (smaller : Nat → Tx Bool) (i : Nat) : List Nat → Tx (List Nat)
  | [] => .ok [i]
  | k :: rest => do
    if ← smaller k then do
      let rest ← insertTop smaller i rest
      .ok (k :: rest)
    else .ok (i :: k :: rest)

/-- The body of the loop of `take_top_n`. With `n` indices found, a new one replaces the smallest. -/
def takeTopStep {α : Type} (v : List α) (n : Nat) (lessThan : α → α → Tx Bool) (top : List Nat)
    (i : Nat) : Tx (List Nat) := do
  let x ← get v i
  let smaller := fun k => do
    let y ← get v k
    lessThan y x
  if i < n then insertTop smaller i top
  else match top with
    | [] => .ok []
    | k :: rest => do
      if ← smaller k then insertTop smaller i rest else .ok top

/-- `take_top_n`: the indices of the `n` largest elements, in descending order if there are more. -/
def takeTopN {α : Type} (v : List α) (n : Nat) (lessThan : α → α → Tx Bool) : Tx (List Nat) := do
  if v.length ≤ n then .ok (List.range v.length)
  else if n = 0 then .ok []
  else do
    let top ← ((List.range v.length).drop 1).foldlM (takeTopStep v n lessThan) [0]
    .ok top.reverse

def findValidator (validators : List Validator) (validatorAddress : Nat) : Option Nat :=
  validators.findIdx? fun v => v.iotaAddress == validatorAddress

def getValidatorMut {α : Type} (validators : List Validator) (validatorAddress : Nat)
    (f : Validator → Tx (Validator × α)) : Tx (List Validator × α) :=
  match findValidator validators validatorAddress with
  | none => .error (.code .notAValidator)
  | some i => do
    let validator ← get validators i
    let (validator,result) ← f validator
    let validators ← set validators i validator
    .ok (validators,result)

/-- `count_duplicates_vec` and `count_duplicates_tablevec`. -/
def countDuplicates (validators : List Validator) (validator : Validator) : Nat :=
  validators.countP fun v => v.isDuplicate validator

def isDuplicateValidator (validators : List Validator) (newValidator : Validator) : Bool :=
  0 < countDuplicates validators newValidator

def insertRemoval (cur : Nat) : List Nat → List Nat
  | [] => [cur]
  | index :: rest =>
    if cur < index then cur :: index :: rest else index :: insertRemoval cur rest

def sortRemovalList (withdrawList : List Nat) : List Nat :=
  withdrawList.foldl (fun sorted cur => insertRemoval cur sorted) []

/-- One round of the loop of `clean_report_records_leaving_validator`. -/
def cleanReporters (leavingValidatorAddr : Nat) (records : ReportRecords)
    (reportedValidatorAddr : Nat) : Tx ReportRecords := do
  let reporters ← records.get reportedValidatorAddr
  if reporters.contains leavingValidatorAddr then do
    let reporters ← reporters.remove leavingValidatorAddr
    if reporters.isEmpty then records.remove reportedValidatorAddr
    else .ok (records.replace reportedValidatorAddr reporters)
  else .ok records

def cleanReportRecordsLeavingValidator (records : ReportRecords) (leavingValidatorAddr : Nat) :
    Tx ReportRecords := do
  let records ← (if records.contains leavingValidatorAddr then
    records.remove leavingValidatorAddr else .ok records)
  records.keys.foldlM (cleanReporters leavingValidatorAddr) records

/-- Rewards of the committee members by voting power, before any adjustment. -/
def computeUnadjustedRewardDistribution (activeValidators : List Validator)
    (committeeMembers : List Nat) (totalVotingPower totalStakingReward : Nat) :
    Tx (List Nat) := do
  let members ← take activeValidators committeeMembers
  members.mapM fun validator => do
    let reward ← div (validator.votingPower * totalStakingReward) totalVotingPower
    castU64 reward

/-- The reward of one committee member after the adjustments for its score and for reports. -/
def adjustedReward (slashed : Bool) (rewardSlashingRate score : Nat) (adjustRewardsByScore : Bool)
    (unadjusted : Nat) : Tx Nat := do
  let scoreAdjusted := if adjustRewardsByScore then score * unadjusted / maxScore else unadjusted
  let adjusted ← (if slashed then
    sub scoreAdjusted (scoreAdjusted * rewardSlashingRate / basisPointDenominator)
    else .ok scoreAdjusted)
  castU64 adjusted

def computeAdjustedRewardDistribution (committeeMembers unadjusted : List Nat)
    (slashedValidatorIndices : VecSet Nat) (params : AdvanceEpochParams) : Tx (List Nat) := do
  assert (committeeMembers.length = unadjusted.length) invalidRewardAdjustmentData
  assert (unadjusted.length = params.scores.length) invalidScoresData
  ((committeeMembers.zip unadjusted).zip params.scores).mapM fun ((member,amount),score) =>
    adjustedReward (slashedValidatorIndices.contains member) params.rewardSlashingRate score
      params.adjustRewardsByScore amount

/-- The share of one validator: its commission is staked for it, the rest goes to its stakers. -/
def rewardValidator (validator : Validator) (stakingRewardAmount epoch : Nat) : Tx Validator := do
  let effectiveCommissionRate := max validator.commissionRate validator.votingPower
  let validatorReward ←
    castU64 (stakingRewardAmount * effectiveCommissionRate / basisPointDenominator)
  let stakerReward ← Balance.split stakingRewardAmount validatorReward
  let validator ← (if 0 < validatorReward then do
    let (validator,_) ← validator.requestAddStake validatorReward epoch
    .ok validator
    else .ok validator)
  validator.depositStakeRewards stakerReward

/-- The validators afterwards and the rewards that are left. -/
def distributeReward (validators : List Validator) (committeeMembers amounts : List Nat)
    (stakingRewards epoch : Nat) : Tx (List Validator × Nat) := do
  assert (committeeMembers ≠ []) validatorSetEmpty
  (committeeMembers.zip amounts).foldlM (fun (validators,rewards) (i,amount) => do
    let validator ← get validators i
    let rewards ← Balance.split rewards amount
    let validator ← rewardValidator validator amount epoch
    let validators ← set validators i validator
    .ok (validators,rewards)) (validators,stakingRewards)

def validateEligibleValidatorsVotingPower (activeValidators : List Validator)
    (eligibleActiveValidators : List Nat) : Tx (List Nat) := do
  if eligibleActiveValidators = [] then .ok (List.range activeValidators.length)
  else do
    let eligibleTotalVotingPower ← eligibleActiveValidators.foldlM (fun total i => do
      assert (i < activeValidators.length) invalidEligibleValidatorIndex
      let validator ← get activeValidators i
      add total validator.votingPower) 0
    if eligibleTotalVotingPower < quorumThreshold then
      .ok (List.range activeValidators.length)
    else .ok eligibleActiveValidators

def getValidatorIndicesSet (validators : List Validator) (validatorAddresses : List Nat) :
    Tx (VecSet Nat) :=
  validatorAddresses.foldlM (fun res addr =>
    match findValidator validators addr with
    | none => .error (.code .notAValidator)
    | some i => res.insert i) VecSet.empty

namespace ValidatorSet

/-- `new_v1` followed by `v1_to_v2`: all validators of the genesis form the committee. -/
def new (initActiveValidators : List Validator) : Tx ValidatorSet := do
  let totalStake ← initActiveValidators.foldlM (fun stake v => add stake v.totalStake) 0
  let stakingPoolMappings ← initActiveValidators.foldlM (fun mappings v =>
    Table.add mappings v.stakingPoolId v.iotaAddress) ∅
  let committeeMembers := List.range initActiveValidators.length
  let activeValidators ← setVotingPower committeeMembers initActiveValidators
  .ok
    { totalStake
      activeValidators
      committeeMembers
      pendingActiveValidators := []
      pendingRemovals := []
      stakingPoolMappings
      inactiveValidators := ∅
      validatorCandidates := ∅
      atRiskValidators := VecMap.empty }

variable {α : Type} (self : ValidatorSet)

def isDuplicateWithActiveValidator (newValidator : Validator) : Bool :=
  isDuplicateValidator self.activeValidators newValidator

def isDuplicateWithPendingValidator (newValidator : Validator) : Bool :=
  isDuplicateValidator self.pendingActiveValidators newValidator

def requestAddValidatorCandidate (validator : Validator) : Tx ValidatorSet := do
  assert (self.isDuplicateWithActiveValidator validator = false
    ∧ self.isDuplicateWithPendingValidator validator = false) duplicateValidator
  assert (self.validatorCandidates.contains validator.iotaAddress = false)
    alreadyValidatorCandidate
  assert (validator.isPreactive = true) validatorNotCandidate
  let stakingPoolMappings ←
    Table.add self.stakingPoolMappings validator.stakingPoolId validator.iotaAddress
  let validatorCandidates ← Table.add self.validatorCandidates validator.iotaAddress validator
  .ok { self with stakingPoolMappings, validatorCandidates }

def requestRemoveValidatorCandidate (sender epoch : Nat) : Tx ValidatorSet := do
  assert (self.validatorCandidates.contains sender = true) setNotValidatorCandidate
  let (validator,validatorCandidates) ← Table.remove self.validatorCandidates sender
  assert (validator.isPreactive = true) validatorNotCandidate
  let stakingPoolId := validator.stakingPoolId
  let (_,stakingPoolMappings) ← Table.remove self.stakingPoolMappings stakingPoolId
  let validator ← validator.deactivate epoch
  let inactiveValidators ← Table.add self.inactiveValidators stakingPoolId validator
  .ok { self with validatorCandidates, stakingPoolMappings, inactiveValidators }

def requestAddValidator (minJoiningStakeAmount sender : Nat) : Tx ValidatorSet := do
  assert (self.validatorCandidates.contains sender = true) setNotValidatorCandidate
  let (validator,validatorCandidates) ← Table.remove self.validatorCandidates sender
  assert (self.isDuplicateWithActiveValidator validator = false
    ∧ self.isDuplicateWithPendingValidator validator = false) duplicateValidator
  assert (validator.isPreactive = true) validatorNotCandidate
  assert (validator.totalStake = validator.nextEpochStake) setInvalidStakeAmount
  assert (minJoiningStakeAmount ≤ validator.totalStake) minJoiningStakeNotReached
  .ok { self with
    validatorCandidates
    pendingActiveValidators := self.pendingActiveValidators ++ [validator] }

/-- An active or pending validator is found as a duplicate of itself. -/
def assertNoPendingOrActiveDuplicates (validator : Validator) : Tx Unit :=
  assert (countDuplicates self.activeValidators validator
    + countDuplicates self.pendingActiveValidators validator = 1) duplicateValidator

def requestRemoveValidator (sender : Nat) : Tx ValidatorSet :=
  match findValidator self.activeValidators sender with
  | none => .error (.code .notAValidator)
  | some validatorIndex => do
    assert (validatorIndex ∉ self.pendingRemovals) validatorAlreadyRemoved
    .ok { self with pendingRemovals := self.pendingRemovals ++ [validatorIndex] }

/-- An update through `get_candidate_or_active_validator_mut`. -/
def getCandidateOrActiveValidatorMut (validatorAddress : Nat)
    (f : Validator → Tx (Validator × α)) : Tx (ValidatorSet × α) :=
  match self.validatorCandidates[validatorAddress]? with
  | some validator => do
    let (validator,result) ← f validator
    .ok ({ self with
      validatorCandidates := self.validatorCandidates.insert validatorAddress validator },result)
  | none => do
    let (activeValidators,result) ← getValidatorMut self.activeValidators validatorAddress f
    .ok ({ self with activeValidators },result)

/-- An update through `get_active_or_pending_or_candidate_validator_mut`, which also returns the
validator updated. -/
def getActiveOrPendingOrCandidateValidatorMut (validatorAddress : Nat) (includeCandidate : Bool)
    (f : Validator → Tx Validator) : Tx (ValidatorSet × Validator) :=
  match findValidator self.activeValidators validatorAddress with
  | some i => do
    let validator ← get self.activeValidators i
    let validator ← f validator
    let activeValidators ← set self.activeValidators i validator
    .ok ({ self with activeValidators },validator)
  | none =>
    match findValidator self.pendingActiveValidators validatorAddress with
    | some i => do
      let validator ← get self.pendingActiveValidators i
      let validator ← f validator
      let pendingActiveValidators ← set self.pendingActiveValidators i validator
      .ok ({ self with pendingActiveValidators },validator)
    | none => do
      assert (includeCandidate = true) notActiveOrPendingValidator
      match self.validatorCandidates[validatorAddress]? with
      | none => .error .dynamicField
      | some validator => do
        let validator ← f validator
        .ok ({ self with
          validatorCandidates :=
            self.validatorCandidates.insert validatorAddress validator },validator)

def requestAddStake (validatorAddress stake epoch : Nat) : Tx (ValidatorSet × StakedIota) := do
  assert (minStakingThreshold ≤ stake) stakingBelowThreshold
  self.getCandidateOrActiveValidatorMut validatorAddress fun v => v.requestAddStake stake epoch

def requestWithdrawStake (staked : StakedIota) (epoch : Nat) : Tx (ValidatorSet × Nat) :=
  match self.stakingPoolMappings[staked.poolId]? with
  | some validatorAddress =>
    self.getCandidateOrActiveValidatorMut validatorAddress fun v =>
      v.requestWithdrawStake staked epoch
  | none =>
    match self.inactiveValidators[staked.poolId]? with
    | none => .error (.code .noPoolFound)
    | some validator => do
      let (validator,amount) ← validator.requestWithdrawStake staked epoch
      .ok ({ self with
        inactiveValidators := self.inactiveValidators.insert staked.poolId validator },amount)

def requestSetCommissionRate (newCommissionRate sender : Nat) : Tx ValidatorSet := do
  let (activeValidators,_) ← getValidatorMut self.activeValidators sender fun v => do
    let v ← v.requestSetCommissionRate newCommissionRate
    .ok (v,())
  .ok { self with activeValidators }

def nextEpochValidatorCount : Tx Nat := do
  let staying ← sub self.activeValidators.length self.pendingRemovals.length
  add staying self.pendingActiveValidators.length

def isCommitteeValidatorByIotaAddress (validatorAddress : Nat) : Bool :=
  match findValidator self.activeValidators validatorAddress with
  | some i => self.committeeMembers.contains i
  | none => false

def getCommitteeValidatorRef (validatorAddress : Nat) : Tx Validator :=
  match findValidator self.activeValidators validatorAddress with
  | none => .error (.code .notAValidator)
  | some i => do
    assert (i ∈ self.committeeMembers) notACommitteeValidator
    get self.activeValidators i

/-- `verify_cap` for committee validators: the address the cap stands for. -/
def verifyCap (capId capAddress : Nat) : Tx Nat := do
  let validator ← self.getCommitteeValidatorRef capAddress
  assert (validator.operationCapId = capId) invalidCap
  .ok capAddress

def sumCommitteeVotingPowerByAddresses (addresses : List Nat) : Tx Nat :=
  addresses.foldlM (fun sum addr => do
    let validator ← self.getCommitteeValidatorRef addr
    add sum validator.votingPower) 0

/-- The reported committee members whose reporters hold a quorum. Records are taken from the back. -/
def computeSlashedValidators (records : ReportRecords) : Tx (List Nat) :=
  records.contents.reverse.foldlM (fun slashed (validatorAddress,reporters) => do
    assert (self.isCommitteeValidatorByIotaAddress validatorAddress = true)
      nonValidatorInReportRecords
    let reporterVotes ← self.sumCommitteeVotingPowerByAddresses reporters.contents
    if quorumThreshold ≤ reporterVotes then .ok (slashed ++ [validatorAddress])
    else .ok slashed) []

def activeValidatorAddresses : List Nat := self.activeValidators.map Validator.iotaAddress

def committeeValidatorAddresses : Tx (List Nat) := do
  let members ← take self.activeValidators self.committeeMembers
  .ok (members.map Validator.iotaAddress)

/-- The set and the records after a validator taken out of `active_validators` has left. -/
def processValidatorDeparture (validator : Validator) (records : ReportRecords)
    (isCommittee : Bool) (newEpoch : Nat) : Tx (ValidatorSet × ReportRecords) := do
  let validatorAddress := validator.iotaAddress
  let validatorPoolId := validator.stakingPoolId
  let (_,stakingPoolMappings) ← Table.remove self.stakingPoolMappings validatorPoolId
  let atRiskValidators ← (if self.atRiskValidators.contains validatorAddress then
    self.atRiskValidators.remove validatorAddress else .ok self.atRiskValidators)
  let totalStake ← (if isCommittee then sub self.totalStake validator.totalStake
    else .ok self.totalStake)
  let records ← cleanReportRecordsLeavingValidator records validatorAddress
  let validator ← validator.deactivate newEpoch
  let inactiveValidators ← Table.add self.inactiveValidators validatorPoolId validator
  .ok ({ self with stakingPoolMappings, atRiskValidators, totalStake, inactiveValidators },
    records)

def removeActiveValidator (i : Nat) (records : ReportRecords) (committeeAddresses : List Nat)
    (newEpoch : Nat) : Tx (ValidatorSet × ReportRecords) := do
  let (validator,activeValidators) ← remove self.activeValidators i
  let isCommittee := committeeAddresses.contains validator.iotaAddress
  ValidatorSet.processValidatorDeparture { self with activeValidators } validator records
    isCommittee newEpoch

def processPendingValidators (newEpoch : Nat) : Tx ValidatorSet := do
  let activeValidators ← self.pendingActiveValidators.reverse.foldlM (fun active validator => do
    let validator ← validator.activate newEpoch
    .ok (active ++ [validator])) self.activeValidators
  .ok { self with activeValidators, pendingActiveValidators := [] }

def processPendingRemovals (records : ReportRecords) (committeeAddresses : List Nat)
    (newEpoch : Nat) : Tx (ValidatorSet × ReportRecords) :=
  (sortRemovalList self.pendingRemovals).reverse.foldlM (fun (self,records) i =>
    self.removeActiveValidator i records committeeAddresses newEpoch)
    ({ self with pendingRemovals := [] },records)

/-- The epochs a validator whose stake is a bit low has been at risk, with this one. -/
def recordAtRisk (validatorAddress : Nat) : Tx (ValidatorSet × Nat) := do
  if self.atRiskValidators.contains validatorAddress then do
    let numEpochs ← self.atRiskValidators.get validatorAddress
    let numEpochs ← add numEpochs 1
    let atRiskValidators := self.atRiskValidators.replace validatorAddress numEpochs
    .ok ({ self with atRiskValidators },numEpochs)
  else do
    let atRiskValidators ← self.atRiskValidators.insert validatorAddress 1
    .ok ({ self with atRiskValidators },1)

/-- The body of the loop of `update_and_process_low_stake_departures`. -/
def processLowStake (parameters : SystemParameters) (committeeAddresses : List Nat) (newEpoch : Nat)
    (records : ReportRecords) (i : Nat) : Tx (ValidatorSet × ReportRecords) := do
  let validator ← get self.activeValidators i
  let validatorAddress := validator.iotaAddress
  let stake := validator.totalStake
  if parameters.validatorLowStakeThreshold ≤ stake then do
    let atRiskValidators ← (if self.atRiskValidators.contains validatorAddress then
      self.atRiskValidators.remove validatorAddress else .ok self.atRiskValidators)
    .ok ({ self with atRiskValidators },records)
  else if parameters.validatorVeryLowStakeThreshold ≤ stake then do
    let (self,newLowStakePeriod) ← self.recordAtRisk validatorAddress
    if parameters.validatorLowStakeGracePeriod < newLowStakePeriod then
      self.removeActiveValidator i records committeeAddresses newEpoch
    else .ok (self,records)
  else self.removeActiveValidator i records committeeAddresses newEpoch

/-- The loop goes over the active validators from the last one to the first. -/
def updateAndProcessLowStakeDepartures (parameters : SystemParameters) (records : ReportRecords)
    (committeeAddresses : List Nat) (newEpoch : Nat) : Tx (ValidatorSet × ReportRecords) :=
  (List.range self.activeValidators.length).reverse.foldlM (fun (self,records) i =>
    self.processLowStake parameters committeeAddresses newEpoch records i) (self,records)

def selectCommitteeMembersFromEligible (n : Nat) (eligibleIndices : List Nat) :
    Tx (List Nat) := do
  let selectedPositions ← takeTopN eligibleIndices n fun i j => do
    let a ← get self.activeValidators i
    let b ← get self.activeValidators j
    a.smallerThan b
  selectedPositions.mapM (get eligibleIndices)

/-- The present indices of the eligible validators that are still active. -/
def currentEligibleIndices (prevActiveValidatorAddresses eligibleActiveValidators : List Nat) :
    Tx (List Nat) :=
  eligibleActiveValidators.foldlM (fun current i => do
    assert (i < prevActiveValidatorAddresses.length) invalidEligibleValidatorIndex
    let addr ← get prevActiveValidatorAddresses i
    match findValidator self.activeValidators addr with
    | some index => .ok (if index ∈ current then current else current ++ [index])
    | none => .ok current) []

def processNewCommittee (committeeSize : Nat)
    (prevActiveValidatorAddresses eligibleActiveValidators : List Nat) : Tx ValidatorSet := do
  let currentEligibleIndices ←
    self.currentEligibleIndices prevActiveValidatorAddresses eligibleActiveValidators
  let committeeMembers ←
    self.selectCommitteeMembersFromEligible committeeSize currentEligibleIndices
  .ok { self with committeeMembers }

/-- The first part of `advance_epoch`: rewards are distributed and pending stakes processed. -/
def settleStakes (totalValidatorRewards : Nat) (records : ReportRecords)
    (params : AdvanceEpochParams) (epoch : Nat) : Tx (ValidatorSet × Nat) := do
  let unadjusted ← computeUnadjustedRewardDistribution self.activeValidators self.committeeMembers
    totalVotingPower totalValidatorRewards
  let slashedValidators ← self.computeSlashedValidators records
  let slashedIndices ← getValidatorIndicesSet self.activeValidators slashedValidators
  let adjusted ←
    computeAdjustedRewardDistribution self.committeeMembers unadjusted slashedIndices params
  let (activeValidators,leftover) ←
    distributeReward self.activeValidators self.committeeMembers adjusted totalValidatorRewards epoch
  let activeValidators := activeValidators.map Validator.adjustNextEpochCommissionRate
  let activeValidators ←
    activeValidators.mapM fun v => v.processPendingStakesAndWithdraws epoch
  .ok ({ self with activeValidators },leftover)

/-- The second part of `advance_epoch`: validators join and leave. -/
def changeMembers (parameters : SystemParameters) (records : ReportRecords)
    (committeeAddresses : List Nat) (newEpoch : Nat) : Tx (ValidatorSet × ReportRecords) := do
  let self ← self.processPendingValidators newEpoch
  let (self,records) ← self.processPendingRemovals records committeeAddresses newEpoch
  self.updateAndProcessLowStakeDepartures parameters records committeeAddresses newEpoch

/-- The set, the rewards that were not distributed and the report records of the new epoch. -/
def advanceEpoch (totalValidatorRewards : Nat) (records : ReportRecords)
    (parameters : SystemParameters) (params : AdvanceEpochParams) (epoch : Nat) :
    Tx (ValidatorSet × Nat × ReportRecords) := do
  let newEpoch ← add epoch 1
  let (self,leftover) ← self.settleStakes totalValidatorRewards records params epoch
  let prevCommitteeAddresses ← self.committeeValidatorAddresses
  let prevActiveAddresses := self.activeValidatorAddresses
  let eligible ← validateEligibleValidatorsVotingPower self.activeValidators
    params.eligibleActiveValidators
  let (self,records) ← self.changeMembers parameters records prevCommitteeAddresses newEpoch
  assert (self.activeValidators ≠ []) validatorSetEmpty
  let self ← self.processNewCommittee params.maxCommitteeMembersCount prevActiveAddresses eligible
  let totalStake ← totalCommitteeStake self.activeValidators self.committeeMembers
  let activeValidators ←
    setVotingPower self.committeeMembers self.activeValidators
  .ok ({ self with
    totalStake
    activeValidators := activeValidators.map Validator.effectuateStagedMetadata },leftover,records)

end ValidatorSet
end Iota.System
