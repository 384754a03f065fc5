import Iota.Lib.BTree
import Iota.Lib.Move

/-! The Move module `staking_pool`: stake is added and withdrawn during an epoch and takes effect at
the epoch boundary, where pool tokens are issued and destroyed at the pool's exchange rate. -/
namespace Iota.System

/-- The abort codes of the system package that the modelled functions raise. -/
inductive Error
  -- staking_pool
  | wrongPool
  | delegationToInactivePool
  | deactivationOfInactivePool
  | poolAlreadyActive
  | activationOfInactivePool
  | delegationOfZeroIota
  | insufficientIotaTokenBalance
  | stakedIotaBelowThreshold
  | incompatibleStakedIota
  | tokenBalancesDoNotMatchExchangeRate
  -- balance
  | notEnough
  | supplyOverflow
  -- validator
  | invalidAscii
  | invalidMetadata
  | validatorMetadataExceedingLengthLimit
  | commissionRateTooHigh
  | gasPriceHigherThanThreshold
  | notValidatorCandidate
  | invalidStakeAmount
  | calledDuringNonGenesis
  | newCapNotCreatedByValidatorItself
  -- voting_power
  | totalPowerMismatch
  | relativePowerMismatch
  | votingPowerOverThreshold
  | invalidVotingPower
  -- validator_set
  | nonValidatorInReportRecords
  | duplicateValidator
  | noPoolFound
  | notAValidator
  | minJoiningStakeNotReached
  | alreadyValidatorCandidate
  | validatorNotCandidate
  | setNotValidatorCandidate
  | notActiveOrPendingValidator
  | stakingBelowThreshold
  | validatorAlreadyRemoved
  | validatorSetEmpty
  | notACommitteeValidator
  | setInvalidStakeAmount
  | invalidEligibleValidatorIndex
  | invalidRewardAdjustmentData
  | invalidScoresData
  | invalidCap
  -- iota_system_state_inner
  | notCommitteeValidator
  | limitExceeded
  | cannotReportOneself
  | reportRecordNotFound
  | bpsTooLarge
  | safeModeGasNotProcessed
  | advancedToWrongEpoch
deriving DecidableEq, Repr

abbrev Tx (α : Type) := Except (Move.Abort Error) α

open Move

/-- `balance::split`: what is left of `self` after taking `value`. -/
def Balance.split (self value : Nat) : Tx Nat := do
  assert (value ≤ self) Error.notEnough
  sub self value

structure PoolTokenExchangeRate where
  iotaAmount : Nat
  poolTokenAmount : Nat
deriving DecidableEq, Repr

structure StakedIota where
  poolId : Nat
  stakeActivationEpoch : Nat
  principal : Nat
deriving DecidableEq, Repr

structure StakingPool where
  id : Nat
  activationEpoch : Option Nat
  deactivationEpoch : Option Nat
  iotaBalance : Nat
  rewardsPool : Nat
  poolTokenBalance : Nat
  exchangeRates : Std.ExtTreeMap Nat PoolTokenExchangeRate
  pendingStake : Nat
  pendingTotalIotaWithdraw : Nat
  pendingPoolTokenWithdraw : Nat

namespace PoolTokenExchangeRate

def initial : PoolTokenExchangeRate := ⟨0,0⟩

/-- The quotient of `get_iota_amount` before its cast to `u64`. -/
def iotaOf (rate : PoolTokenExchangeRate) (tokenAmount : Nat) : Nat :=
  if rate.iotaAmount = 0 ∨ rate.poolTokenAmount = 0 then tokenAmount
  else rate.iotaAmount * tokenAmount / rate.poolTokenAmount

/-- The quotient of `get_token_amount` before its cast to `u64`. -/
def tokensOf (rate : PoolTokenExchangeRate) (iotaAmount : Nat) : Nat :=
  if rate.iotaAmount = 0 ∨ rate.poolTokenAmount = 0 then iotaAmount
  else rate.poolTokenAmount * iotaAmount / rate.iotaAmount

def getIotaAmount (rate : PoolTokenExchangeRate) (tokenAmount : Nat) : Tx Nat :=
  castU64 (rate.iotaOf tokenAmount)

def getTokenAmount (rate : PoolTokenExchangeRate) (iotaAmount : Nat) : Tx Nat :=
  castU64 (rate.tokensOf iotaAmount)

end PoolTokenExchangeRate
open PoolTokenExchangeRate

def minStakingThreshold : Nat := 1000000000

namespace StakedIota

def split (self : StakedIota) (splitAmount : Nat) : Tx (StakedIota × StakedIota) := do
  assert (splitAmount ≤ self.principal) Error.insufficientIotaTokenBalance
  let remainingAmount ← sub self.principal splitAmount
  assert (minStakingThreshold ≤ remainingAmount) Error.stakedIotaBelowThreshold
  assert (minStakingThreshold ≤ splitAmount) Error.stakedIotaBelowThreshold
  .ok ({ self with principal := remainingAmount },{ self with principal := splitAmount })

def isEqualStakingMetadata (self other : StakedIota) : Bool :=
  self.poolId == other.poolId && self.stakeActivationEpoch == other.stakeActivationEpoch

def join (self other : StakedIota) : Tx StakedIota := do
  assert (self.isEqualStakingMetadata other) Error.incompatibleStakedIota
  let principal ← add self.principal other.principal
  .ok { self with principal }

end StakedIota
namespace StakingPool

def new (id : Nat) : StakingPool where
  id
  activationEpoch := none
  deactivationEpoch := none
  iotaBalance := 0
  rewardsPool := 0
  poolTokenBalance := 0
  exchangeRates := ∅
  pendingStake := 0
  pendingTotalIotaWithdraw := 0
  pendingPoolTokenWithdraw := 0

def isPreactive (pool : StakingPool) : Bool := pool.activationEpoch.isNone

def isInactive (pool : StakingPool) : Bool := pool.deactivationEpoch.isSome

/-- Either the pool is preactive or its first epoch is later than the given one. -/
def isPreactiveAtEpoch (pool : StakingPool) (epoch : Nat) : Bool :=
  match pool.activationEpoch with
  | none => true
  | some activationEpoch => epoch < activationEpoch

/-- The loop of `pool_token_exchange_rate_at_epoch`: the latest entry from `epoch` down to the
activation epoch. Without one the loop ends and the line after it is reached, which is `none`. -/
def latestRate (rates : Std.ExtTreeMap Nat PoolTokenExchangeRate) (activationEpoch : Nat) :
    Nat → Tx (Option PoolTokenExchangeRate)
  | 0 =>
    if activationEpoch ≤ 0 then
      match rates[0]? with
      | some rate => .ok (some rate)
      | none => .error .underflow
    else .ok none
  | epoch+1 =>
    if activationEpoch ≤ epoch+1 then
      match rates[epoch+1]? with
      | some rate => .ok (some rate)
      | none => latestRate rates activationEpoch epoch
    else .ok none

/-- The search for the rate at an epoch of an active or inactive pool. -/
def searchRate (pool : StakingPool) (epoch : Nat) : Tx (Option PoolTokenExchangeRate) :=
  let clampedEpoch := pool.deactivationEpoch.getD epoch
  latestRate pool.exchangeRates (pool.activationEpoch.getD 0) (min clampedEpoch epoch)

def poolTokenExchangeRateAtEpoch (pool : StakingPool) (epoch : Nat) :
    Tx PoolTokenExchangeRate :=
  if pool.isPreactiveAtEpoch epoch then .ok initial
  else do
    let rate ← pool.searchRate epoch
    .ok (rate.getD initial)

def checkBalanceInvariants (pool : StakingPool) (epoch : Nat) : Tx Unit := do
  let exchangeRate ← pool.poolTokenExchangeRateAtEpoch epoch
  let expected ← exchangeRate.getTokenAmount pool.iotaBalance
  assert (expected = pool.poolTokenBalance) Error.tokenBalancesDoNotMatchExchangeRate

def requestAddStake (pool : StakingPool) (stake stakeActivationEpoch : Nat) :
    Tx (StakingPool × StakedIota) := do
  assert (pool.isInactive = false) Error.delegationToInactivePool
  assert (0 < stake) Error.delegationOfZeroIota
  let pendingStake ← add pool.pendingStake stake
  .ok ({ pool with pendingStake },⟨pool.id,stakeActivationEpoch,stake⟩)

/-- Pool tokens and principal of a stake, at the exchange rate of its activation epoch. -/
def withdrawFromPrincipal (pool : StakingPool) (staked : StakedIota) : Tx (Nat × Nat) := do
  assert (staked.poolId = pool.id) Error.wrongPool
  let exchangeRateAtStakingEpoch ←
    pool.poolTokenExchangeRateAtEpoch staked.stakeActivationEpoch
  let poolTokenWithdrawAmount ← exchangeRateAtStakingEpoch.getTokenAmount staked.principal
  .ok (poolTokenWithdrawAmount,staked.principal)

/-- The rewards that go with a withdrawn principal, taken out of the rewards pool. -/
def withdrawRewards (pool : StakingPool)
    (principalWithdrawAmount poolTokenWithdrawAmount epoch : Nat) : Tx (StakingPool × Nat) := do
  let exchangeRate ← pool.poolTokenExchangeRateAtEpoch epoch
  let totalIotaWithdrawAmount ← exchangeRate.getIotaAmount poolTokenWithdrawAmount
  -- A difference below zero counts as no reward.
  let rewardWithdrawAmount := totalIotaWithdrawAmount - principalWithdrawAmount
  let rewardWithdrawAmount := min rewardWithdrawAmount pool.rewardsPool
  let rewardsPool ← Balance.split pool.rewardsPool rewardWithdrawAmount
  .ok ({ pool with rewardsPool },rewardWithdrawAmount)

/-- The branch of `request_withdraw_stake` for a stake that is not active yet. -/
def withdrawInactiveStake (pool : StakingPool) (principal epoch : Nat) : Tx StakingPool :=
  if pool.isPreactive then do
    -- A preactive pool processes stake at once and exchanges 1:1.
    let iotaBalance ← sub pool.iotaBalance principal
    let poolTokenBalance ← sub pool.poolTokenBalance principal
    let pool := { pool with iotaBalance, poolTokenBalance }
    pool.checkBalanceInvariants epoch
    .ok pool
  else do
    let pendingStake ← sub pool.pendingStake principal
    .ok { pool with pendingStake }

def requestWithdrawStake (pool : StakingPool) (staked : StakedIota) (epoch : Nat) :
    Tx (StakingPool × Nat) :=
  if epoch < staked.stakeActivationEpoch then do
    let pool ← pool.withdrawInactiveStake staked.principal epoch
    .ok (pool,staked.principal)
  else do
    let (poolTokenWithdrawAmount,principal) ← pool.withdrawFromPrincipal staked
    let (pool,rewards) ← pool.withdrawRewards principal poolTokenWithdrawAmount epoch
    let totalIotaWithdrawAmount ← add principal rewards
    let pendingTotalIotaWithdraw ← add pool.pendingTotalIotaWithdraw totalIotaWithdrawAmount
    let pendingPoolTokenWithdraw ← add pool.pendingPoolTokenWithdraw poolTokenWithdrawAmount
    .ok ({ pool with pendingTotalIotaWithdraw, pendingPoolTokenWithdraw },
      totalIotaWithdrawAmount)

def depositRewards (pool : StakingPool) (rewards : Nat) : Tx StakingPool := do
  let iotaBalance ← add pool.iotaBalance rewards
  let rewardsPool ← add pool.rewardsPool rewards
  .ok { pool with iotaBalance, rewardsPool }

def processPendingStakeWithdraw (pool : StakingPool) : Tx StakingPool := do
  let iotaBalance ← sub pool.iotaBalance pool.pendingTotalIotaWithdraw
  let poolTokenBalance ← sub pool.poolTokenBalance pool.pendingPoolTokenWithdraw
  .ok { pool with
    iotaBalance
    poolTokenBalance
    pendingTotalIotaWithdraw := 0
    pendingPoolTokenWithdraw := 0 }

def processPendingStake (pool : StakingPool) : Tx StakingPool := do
  let latestExchangeRate : PoolTokenExchangeRate := ⟨pool.iotaBalance,pool.poolTokenBalance⟩
  let iotaBalance ← add pool.iotaBalance pool.pendingStake
  let poolTokenBalance ← latestExchangeRate.getTokenAmount iotaBalance
  .ok { pool with iotaBalance, poolTokenBalance, pendingStake := 0 }

def addExchangeRate (pool : StakingPool) (epoch : Nat) (rate : PoolTokenExchangeRate) :
    Tx StakingPool :=
  if pool.exchangeRates.contains epoch then .error .dynamicField
  else .ok { pool with exchangeRates := pool.exchangeRates.insert epoch rate }

def processPendingStakesAndWithdraws (pool : StakingPool) (epoch : Nat) : Tx StakingPool := do
  let newEpoch ← add epoch 1
  let pool ← pool.processPendingStakeWithdraw
  let pool ← pool.processPendingStake
  let pool ← pool.addExchangeRate newEpoch ⟨pool.iotaBalance,pool.poolTokenBalance⟩
  pool.checkBalanceInvariants newEpoch
  .ok pool

def activateStakingPool (pool : StakingPool) (activationEpoch : Nat) : Tx StakingPool := do
  let pool ← pool.addExchangeRate activationEpoch initial
  assert (pool.isPreactive = true) Error.poolAlreadyActive
  assert (pool.isInactive = false) Error.activationOfInactivePool
  .ok { pool with activationEpoch := some activationEpoch }

def deactivateStakingPool (pool : StakingPool) (deactivationEpoch : Nat) : Tx StakingPool := do
  assert (pool.isInactive = false) Error.deactivationOfInactivePool
  .ok { pool with deactivationEpoch := some deactivationEpoch }

end StakingPool
end Iota.System
