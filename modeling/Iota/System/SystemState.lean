import Iota.Lib.Run
import Iota.System.Validator.Metadata
import Iota.System.ValidatorSet

/-! The Move module `iota_system_state_inner` and the safe mode of the Rust execution engine:
requests of validators and stakers, and epoch changes. When `advance_epoch` aborts, the epoch is
advanced in safe mode, which only accumulates the charges of the epoch. -/
namespace Iota.System
open Error Except Move

structure StorageFund where
  totalObjectStorageRebates : Nat
  nonRefundableBalance : Nat
deriving DecidableEq, Repr

/-- `advance_epoch` of the storage fund: the fund and the rebates already refunded. -/
def StorageFund.advanceEpoch (self : StorageFund)
    (storageCharges storageRebateAmount nonRefundableStorageFeeAmount : Nat) :
    Tx (StorageFund × Nat) := do
  let rebates ← add self.totalObjectStorageRebates storageCharges
  let rebates ← Balance.split rebates nonRefundableStorageFeeAmount
  let nonRefundableBalance ← add self.nonRefundableBalance nonRefundableStorageFeeAmount
  let totalObjectStorageRebates ← Balance.split rebates storageRebateAmount
  .ok ({ totalObjectStorageRebates, nonRefundableBalance },storageRebateAmount)

structure Charges where
  storageCharge : Nat
  computationCharge : Nat
  computationChargeBurned : Nat
  storageRebate : Nat
  nonRefundableStorageFee : Nat
deriving DecidableEq, Repr

structure SystemState where
  epoch : Nat
  protocolVersion : Nat
  totalSupply : Nat
  validators : ValidatorSet
  storageFund : StorageFund
  parameters : SystemParameters
  validatorReportRecords : ReportRecords
  safeMode : Bool
  safeModeStorageCharges : Nat
  safeModeComputationCharges : Nat
  safeModeComputationChargesBurned : Nat
  safeModeStorageRebates : Nat
  safeModeNonRefundableStorageFee : Nat
  epochStartTimestampMs : Nat
  /-- The ids of staking pools and of operation caps that have been used. -/
  poolIds : Nat
  capIds : Nat

def mint (totalSupply value : Nat) : Tx Nat := do
  let room ← sub (2 ^ 64 - 1) totalSupply
  assert (value < room) supplyOverflow
  add totalSupply value

def burn (totalSupply value : Nat) : Tx Nat := do
  assert (value ≤ totalSupply) supplyOverflow
  sub totalSupply value

def matchComputationChargeBurnedToValidatorSubsidy
    (validatorSubsidy computationCharges computationChargeBurned totalSupply : Nat) :
    Tx (Nat × Nat) := do
  if computationChargeBurned < validatorSubsidy then do
    let actualAmountToMint ← sub validatorSubsidy computationChargeBurned
    let totalSupply ← mint totalSupply actualAmountToMint
    let rewards ← add computationCharges actualAmountToMint
    .ok (rewards,totalSupply)
  else if validatorSubsidy < computationChargeBurned then do
    let actualAmountToBurn ← sub computationChargeBurned validatorSubsidy
    let rewards ← Balance.split computationCharges actualAmountToBurn
    let totalSupply ← burn totalSupply actualAmountToBurn
    .ok (rewards,totalSupply)
  else .ok (computationCharges,totalSupply)

def reportValidatorImpl (reporterAddress reporteeAddr : Nat) (records : ReportRecords) :
    Tx ReportRecords := do
  assert (reporterAddress ≠ reporteeAddr) cannotReportOneself
  if records.contains reporteeAddr = false then
    records.insert reporteeAddr (VecSet.singleton reporterAddress)
  else records.modify reporteeAddr fun reporters =>
    if reporters.contains reporterAddress then .ok reporters else reporters.insert reporterAddress

def undoReportValidatorImpl (reporterAddr reporteeAddr : Nat) (records : ReportRecords) :
    Tx ReportRecords := do
  assert (records.contains reporteeAddr = true) reportRecordNotFound
  let reporters ← records.get reporteeAddr
  assert (reporters.contains reporterAddr = true) reportRecordNotFound
  let reporters ← reporters.remove reporterAddr
  if reporters.isEmpty then records.remove reporteeAddr
  else .ok (records.replace reporteeAddr reporters)

def AdvanceEpochParams.charges (params : AdvanceEpochParams) : Charges where
  storageCharge := params.storageCharge
  computationCharge := params.computationCharge
  computationChargeBurned := params.computationChargeBurned
  storageRebate := params.storageRebate
  nonRefundableStorageFee := params.nonRefundableStorageFee

/-- A transaction on the system state by its sender, or an epoch change. -/
inductive SystemOp
  | requestAddValidatorCandidate (sender : Nat) (params : ValidatorParams)
  | requestRemoveValidatorCandidate (sender : Nat)
  | requestAddValidator (sender : Nat)
  | requestRemoveValidator (sender : Nat)
  | requestSetCommissionRate (sender rate : Nat)
  | setCandidateCommissionRate (sender rate : Nat)
  | requestAddStake (validatorAddress amount : Nat)
  | requestWithdrawStake (staked : StakedIota)
  | reportValidator (capId capAddress reportee : Nat)
  | undoReportValidator (capId capAddress reportee : Nat)
  | rotateOperationCap (sender : Nat)
  | updateMetadata (sender : Nat) (update : MetadataUpdate)
  | advanceEpoch (params : AdvanceEpochParams)
  | advanceEpochSafeMode (params : AdvanceEpochParams)
deriving DecidableEq, Repr

def SystemOp.isRequest : SystemOp → Bool
  | .advanceEpoch _ | .advanceEpochSafeMode _ => false
  | _ => true

namespace SystemState
variable (self : SystemState)

def safeModeCharges : Charges where
  storageCharge := self.safeModeStorageCharges
  computationCharge := self.safeModeComputationCharges
  computationChargeBurned := self.safeModeComputationChargesBurned
  storageRebate := self.safeModeStorageRebates
  nonRefundableStorageFee := self.safeModeNonRefundableStorageFee

/-- The first part of `advance_epoch`: what was accumulated in safe mode joins the charges of the
epoch. -/
def mergeSafeModeCharges (charges : Charges) : Tx (SystemState × Charges) := do
  let storageCharge ← add charges.storageCharge self.safeModeStorageCharges
  let computationCharge ← add charges.computationCharge self.safeModeComputationCharges
  let computationChargeBurned ←
    add charges.computationChargeBurned self.safeModeComputationChargesBurned
  let storageRebate ← add charges.storageRebate self.safeModeStorageRebates
  let nonRefundableStorageFee ←
    add charges.nonRefundableStorageFee self.safeModeNonRefundableStorageFee
  .ok ({ self with
      safeModeStorageCharges := 0
      safeModeComputationCharges := 0
      safeModeStorageRebates := 0
      safeModeNonRefundableStorageFee := 0 },
    { storageCharge, computationCharge, computationChargeBurned, storageRebate,
      nonRefundableStorageFee })

/-- The state and the amounts that the epoch change accounted for, with the rewards burned because
they were not distributed. -/
def advanceEpochWith (params : AdvanceEpochParams) : Tx (SystemState × Charges × Nat) := do
  let epoch := self.epoch
  assert (params.rewardSlashingRate ≤ basisPointDenominator) bpsTooLarge
  let (self,charges) ← self.mergeSafeModeCharges params.charges
  let _tipsAmount ← (sub charges.computationCharge charges.computationChargeBurned : Tx Nat)
  let (totalValidatorRewards,totalSupply) ← matchComputationChargeBurnedToValidatorSubsidy
    params.validatorSubsidy charges.computationCharge charges.computationChargeBurned
    self.totalSupply
  let newEpoch ← add self.epoch 1
  assert (params.epoch = newEpoch) advancedToWrongEpoch
  let (validators,leftover,validatorReportRecords) ← self.validators.advanceEpoch
    totalValidatorRewards self.validatorReportRecords self.parameters params epoch
  -- The amounts of the emitted event.
  let _distributed ← (sub totalValidatorRewards leftover : Tx Nat)
  let _burntTokensAmount ← (add charges.computationChargeBurned leftover : Tx Nat)
  let totalSupply ← burn totalSupply leftover
  let (storageFund,_) ← self.storageFund.advanceEpoch charges.storageCharge charges.storageRebate
    charges.nonRefundableStorageFee
  assert (self.safeModeStorageRebates = 0 ∧ self.safeModeStorageCharges = 0
    ∧ self.safeModeComputationCharges = 0) safeModeGasNotProcessed
  .ok ({ self with
      epoch := newEpoch
      protocolVersion := params.nextProtocolVersion
      totalSupply
      validators
      storageFund
      validatorReportRecords
      safeMode := false
      epochStartTimestampMs := params.epochStartTimestampMs },charges,leftover)

def advanceEpoch (params : AdvanceEpochParams) : Tx SystemState := do
  let (self,_) ← self.advanceEpochWith params
  .ok self

def advanceEpochSafeMode (params : AdvanceEpochParams) : Tx SystemState := do
  let safeModeStorageCharges ← add self.safeModeStorageCharges params.storageCharge
  let safeModeStorageRebates ← add self.safeModeStorageRebates params.storageRebate
  let safeModeComputationCharges ← add self.safeModeComputationCharges params.computationCharge
  let safeModeComputationChargesBurned ←
    add self.safeModeComputationChargesBurned params.computationChargeBurned
  let safeModeNonRefundableStorageFee ←
    add self.safeModeNonRefundableStorageFee params.nonRefundableStorageFee
  .ok { self with
    epoch := params.epoch
    safeMode := true
    safeModeStorageCharges
    safeModeStorageRebates
    safeModeComputationCharges
    safeModeComputationChargesBurned
    safeModeNonRefundableStorageFee
    epochStartTimestampMs := params.epochStartTimestampMs
    protocolVersion := params.nextProtocolVersion }

/-- `advance_epoch_impl`: safe mode when the transaction fails. -/
def advanceEpochImpl (params : AdvanceEpochParams) : Tx SystemState :=
  match self.advanceEpoch params with
  | .ok state => .ok state
  | .error _ => self.advanceEpochSafeMode params

def requestAddValidator (sender : Nat) : Tx SystemState := do
  let count ← self.validators.nextEpochValidatorCount
  assert (count < self.parameters.maxValidatorCount) limitExceeded
  let validators ←
    self.validators.requestAddValidator self.parameters.minValidatorJoiningStake sender
  .ok { self with validators }

def requestRemoveValidator (sender : Nat) : Tx SystemState := do
  (if self.parameters.minValidatorCount ≤ self.validators.activeValidators.length then do
    let count ← self.validators.nextEpochValidatorCount
    assert (self.parameters.minValidatorCount < count) limitExceeded
    else .ok ())
  let validators ← self.validators.requestRemoveValidator sender
  .ok { self with validators }

def reportValidator (capId capAddress reporteeAddr : Nat) : Tx SystemState := do
  assert (self.validators.isCommitteeValidatorByIotaAddress reporteeAddr = true)
    notCommitteeValidator
  let reporter ← self.validators.verifyCap capId capAddress
  let validatorReportRecords ←
    reportValidatorImpl reporter reporteeAddr self.validatorReportRecords
  .ok { self with validatorReportRecords }

def undoReportValidator (capId capAddress reporteeAddr : Nat) : Tx SystemState := do
  let reporter ← self.validators.verifyCap capId capAddress
  let validatorReportRecords ←
    undoReportValidatorImpl reporter reporteeAddr self.validatorReportRecords
  .ok { self with validatorReportRecords }

variable (validateMetadata : ValidatorMetadata → Bool)

def requestAddValidatorCandidate (sender : Nat) (params : ValidatorParams) : Tx SystemState := do
  let validator ← Validator.new validateMetadata sender params self.poolIds self.capIds
  let validators ← self.validators.requestAddValidatorCandidate validator
  .ok { self with validators, poolIds := self.poolIds+1, capIds := self.capIds+1 }

/-- The entry points `update_validator_*` and `update_candidate_validator_*`. -/
def updateMetadata (sender : Nat) (update : MetadataUpdate) : Tx SystemState := do
  let (validators,validator) ← self.validators.getActiveOrPendingOrCandidateValidatorMut sender
    (!update.isStaged) fun v => v.update validateMetadata update
  (if update.isChecked then validators.assertNoPendingOrActiveDuplicates validator else .ok ())
  .ok { self with validators }

def exec (self : SystemState) : SystemOp → Tx SystemState
  | .requestAddValidatorCandidate sender params =>
    self.requestAddValidatorCandidate validateMetadata sender params
  | .requestRemoveValidatorCandidate sender => do
    let validators ← self.validators.requestRemoveValidatorCandidate sender self.epoch
    .ok { self with validators }
  | .requestAddValidator sender => self.requestAddValidator sender
  | .requestRemoveValidator sender => self.requestRemoveValidator sender
  | .requestSetCommissionRate sender rate => do
    let validators ← self.validators.requestSetCommissionRate rate sender
    .ok { self with validators }
  | .setCandidateCommissionRate sender rate => do
    let (validators,_) ← self.validators.getActiveOrPendingOrCandidateValidatorMut sender true
      fun v => v.setCandidateCommissionRate rate
    .ok { self with validators }
  | .requestAddStake validatorAddress amount => do
    let (validators,_) ← self.validators.requestAddStake validatorAddress amount self.epoch
    .ok { self with validators }
  | .requestWithdrawStake staked => do
    let (validators,_) ← self.validators.requestWithdrawStake staked self.epoch
    .ok { self with validators }
  | .reportValidator capId capAddress reportee => self.reportValidator capId capAddress reportee
  | .undoReportValidator capId capAddress reportee =>
    self.undoReportValidator capId capAddress reportee
  | .rotateOperationCap sender => do
    let (validators,_) ← self.validators.getActiveOrPendingOrCandidateValidatorMut sender true
      fun v => v.newOperationCap sender self.capIds
    .ok { self with validators, capIds := self.capIds+1 }
  | .updateMetadata sender update => self.updateMetadata validateMetadata sender update
  | .advanceEpoch params => self.advanceEpoch params
  | .advanceEpochSafeMode params => self.advanceEpochSafeMode params

/-- The validators of the genesis, created one after another and compared with those before. -/
def genesisValidators (specs : List (Nat × ValidatorParams)) : Tx (List Validator) :=
  specs.foldlM (fun validators (address,params) => do
    let validator ←
      Validator.new validateMetadata address params validators.length validators.length
    assert (isDuplicateValidator validators validator = false) duplicateValidator
    .ok (validators ++ [validator])) []

/-- The allocations that are staked with validators, taken from the back. -/
def allocateTokens (validators : List Validator) (allocations : List (Nat × Nat)) :
    Tx (List Validator) :=
  allocations.reverse.foldlM (fun validators (validatorAddress,amount) => do
    let (validators,_) ← getValidatorMut validators validatorAddress fun v =>
      v.requestAddStakeAtGenesis amount 0
    .ok validators) validators

def genesis (specs : List (Nat × ValidatorParams)) (allocations : List (Nat × Nat))
    (parameters : SystemParameters) (totalSupply protocolVersion timestamp : Nat) :
    Tx SystemState := do
  let validators ← genesisValidators validateMetadata specs
  let validators ← allocateTokens validators allocations
  let validators ← validators.mapM fun v => v.activate 0
  let validators ← ValidatorSet.new validators
  .ok
    { epoch := 0
      protocolVersion
      totalSupply
      validators
      storageFund := ⟨0,0⟩
      parameters
      validatorReportRecords := VecMap.empty
      safeMode := false
      safeModeStorageCharges := 0
      safeModeComputationCharges := 0
      safeModeComputationChargesBurned := 0
      safeModeStorageRebates := 0
      safeModeNonRefundableStorageFee := 0
      epochStartTimestampMs := timestamp
      poolIds := specs.length
      capIds := specs.length }

def Initial (s : SystemState) : Prop :=
  ∃ specs allocations parameters totalSupply protocolVersion timestamp,
    genesis validateMetadata specs allocations parameters totalSupply protocolVersion timestamp =
      .ok s

theorem genesis_cases {validateMetadata : ValidatorMetadata → Bool}
    {specs : List (Nat × ValidatorParams)} {allocations : List (Nat × Nat)}
    {parameters : SystemParameters} {totalSupply protocolVersion timestamp : Nat} {s : SystemState}
    (h : genesis validateMetadata specs allocations parameters totalSupply protocolVersion
      timestamp = .ok s) :
    ∃ created allocated activated, genesisValidators validateMetadata specs = .ok created ∧
      allocateTokens created allocations = .ok allocated ∧
      allocated.mapM (fun v => v.activate 0) = .ok activated ∧
      ValidatorSet.new activated = .ok s.validators ∧
      s.validatorReportRecords = VecMap.empty ∧ s.safeModeCharges = ⟨0,0,0,0,0⟩ ∧
      s.poolIds = specs.length := by
  obtain ⟨created,hc,h⟩ := of_bind h
  obtain ⟨allocated,hal,h⟩ := of_bind h
  obtain ⟨activated,ha,h⟩ := of_bind h
  obtain ⟨validators,hv,h⟩ := of_bind h
  cases h
  exact ⟨created,allocated,activated,hc,hal,ha,hv,rfl,rfl,rfl⟩

end SystemState
end Iota.System
