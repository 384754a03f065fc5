import Iota.System.StakingPool

/-! The Move module `validator`: a validator's metadata, its staged changes for the next epoch and
its staking pool. -/
namespace Iota.System
open Move

/-- Byte strings: keys, and texts that are checked to be ASCII. -/
abbrev Bytes := List UInt8

structure ValidatorMetadata where
  iotaAddress : Nat
  authorityPubkeyBytes : Bytes
  networkPubkeyBytes : Bytes
  protocolPubkeyBytes : Bytes
  proofOfPossession : Bytes
  name : Bytes
  description : Bytes
  imageUrl : Bytes
  projectUrl : Bytes
  netAddress : Bytes
  p2pAddress : Bytes
  primaryAddress : Bytes
  nextEpochAuthorityPubkeyBytes : Option Bytes
  nextEpochProofOfPossession : Option Bytes
  nextEpochNetworkPubkeyBytes : Option Bytes
  nextEpochProtocolPubkeyBytes : Option Bytes
  nextEpochNetAddress : Option Bytes
  nextEpochP2pAddress : Option Bytes
  nextEpochPrimaryAddress : Option Bytes
deriving DecidableEq, Repr

structure Validator where
  metadata : ValidatorMetadata
  votingPower : Nat
  operationCapId : Nat
  gasPrice : Nat
  stakingPool : StakingPool
  commissionRate : Nat
  nextEpochStake : Nat
  nextEpochGasPrice : Nat
  nextEpochCommissionRate : Nat

def maxCommissionRate : Nat := 2000

def maxValidatorMetadataLength : Nat := 256

def maxValidatorGasPrice : Nat := 100000

def toAsciiString (bytes : Bytes) : Tx Bytes := do
  assert (∀ b ∈ bytes, b < 128) Error.invalidAscii
  .ok bytes

/-- Equality of two staged values; an absent one equals nothing. -/
def isEqualSome (a b : Option Bytes) : Bool := a.isSome && b.isSome && a == b

def isEqualSomeAndValue (a : Option Bytes) (b : Bytes) : Bool := a == some b

namespace ValidatorMetadata

def isDuplicate (self other : ValidatorMetadata) : Bool :=
  self.iotaAddress == other.iotaAddress
    || self.name == other.name
    || self.netAddress == other.netAddress
    || self.p2pAddress == other.p2pAddress
    || self.authorityPubkeyBytes == other.authorityPubkeyBytes
    || self.networkPubkeyBytes == other.networkPubkeyBytes
    || self.networkPubkeyBytes == other.protocolPubkeyBytes
    || self.protocolPubkeyBytes == other.protocolPubkeyBytes
    || self.protocolPubkeyBytes == other.networkPubkeyBytes
    || isEqualSome self.nextEpochNetAddress other.nextEpochNetAddress
    || isEqualSome self.nextEpochP2pAddress other.nextEpochP2pAddress
    || isEqualSome self.nextEpochAuthorityPubkeyBytes other.nextEpochAuthorityPubkeyBytes
    || isEqualSome self.nextEpochNetworkPubkeyBytes other.nextEpochNetworkPubkeyBytes
    || isEqualSome self.nextEpochNetworkPubkeyBytes other.nextEpochProtocolPubkeyBytes
    || isEqualSome self.nextEpochProtocolPubkeyBytes other.nextEpochProtocolPubkeyBytes
    || isEqualSome self.nextEpochProtocolPubkeyBytes other.nextEpochNetworkPubkeyBytes
    || isEqualSomeAndValue self.nextEpochNetAddress other.netAddress
    || isEqualSomeAndValue self.nextEpochP2pAddress other.p2pAddress
    || isEqualSomeAndValue self.nextEpochAuthorityPubkeyBytes other.authorityPubkeyBytes
    || isEqualSomeAndValue self.nextEpochNetworkPubkeyBytes other.networkPubkeyBytes
    || isEqualSomeAndValue self.nextEpochNetworkPubkeyBytes other.protocolPubkeyBytes
    || isEqualSomeAndValue self.nextEpochProtocolPubkeyBytes other.protocolPubkeyBytes
    || isEqualSomeAndValue self.nextEpochProtocolPubkeyBytes other.networkPubkeyBytes
    || isEqualSomeAndValue other.nextEpochNetAddress self.netAddress
    || isEqualSomeAndValue other.nextEpochP2pAddress self.p2pAddress
    || isEqualSomeAndValue other.nextEpochAuthorityPubkeyBytes self.authorityPubkeyBytes
    || isEqualSomeAndValue other.nextEpochNetworkPubkeyBytes self.networkPubkeyBytes
    || isEqualSomeAndValue other.nextEpochNetworkPubkeyBytes self.protocolPubkeyBytes
    || isEqualSomeAndValue other.nextEpochProtocolPubkeyBytes self.protocolPubkeyBytes
    || isEqualSomeAndValue other.nextEpochProtocolPubkeyBytes self.networkPubkeyBytes

def effectuateStaged (m : ValidatorMetadata) : ValidatorMetadata :=
  let m := { m with
    netAddress := m.nextEpochNetAddress.getD m.netAddress
    nextEpochNetAddress := none
    p2pAddress := m.nextEpochP2pAddress.getD m.p2pAddress
    nextEpochP2pAddress := none
    primaryAddress := m.nextEpochPrimaryAddress.getD m.primaryAddress
    nextEpochPrimaryAddress := none }
  -- The proof of possession is staged together with the authority key.
  let m :=
    match m.nextEpochAuthorityPubkeyBytes with
    | none => m
    | some key => { m with
        authorityPubkeyBytes := key
        nextEpochAuthorityPubkeyBytes := none
        proofOfPossession := m.nextEpochProofOfPossession.getD m.proofOfPossession
        nextEpochProofOfPossession := none }
  { m with
    networkPubkeyBytes := m.nextEpochNetworkPubkeyBytes.getD m.networkPubkeyBytes
    nextEpochNetworkPubkeyBytes := none
    protocolPubkeyBytes := m.nextEpochProtocolPubkeyBytes.getD m.protocolPubkeyBytes
    nextEpochProtocolPubkeyBytes := none }

end ValidatorMetadata
namespace Validator

def iotaAddress (self : Validator) : Nat := self.metadata.iotaAddress

def stakingPoolId (self : Validator) : Nat := self.stakingPool.id

def isPreactive (self : Validator) : Bool := self.stakingPool.isPreactive

/-- `total_stake`, `stake_amount` and `total_stake_amount` of the source. -/
def totalStake (self : Validator) : Nat := self.stakingPool.iotaBalance

def setVotingPower (self : Validator) (votingPower : Nat) : Validator := { self with votingPower }

def isDuplicate (self other : Validator) : Bool := self.metadata.isDuplicate other.metadata

/-- The comparison of public keys in `smaller_than`. Keys of different lengths abort. -/
def pubkeySmallerThan : Bytes → Bytes → Bool
  | a :: as, b :: bs => if a ≠ b then a < b else pubkeySmallerThan as bs
  | _, _ => false

def smallerThan (self other : Validator) : Tx Bool :=
  if self.totalStake ≠ other.totalStake then .ok (self.totalStake < other.totalStake)
  else if self.metadata.authorityPubkeyBytes.length = other.metadata.authorityPubkeyBytes.length then
    .ok (pubkeySmallerThan self.metadata.authorityPubkeyBytes other.metadata.authorityPubkeyBytes)
  else .error .vectorIndex

def deactivate (self : Validator) (deactivationEpoch : Nat) : Tx Validator := do
  let stakingPool ← self.stakingPool.deactivateStakingPool deactivationEpoch
  .ok { self with stakingPool }

def activate (self : Validator) (activationEpoch : Nat) : Tx Validator := do
  let stakingPool ← self.stakingPool.activateStakingPool activationEpoch
  .ok { self with stakingPool }

def adjustNextEpochCommissionRate (self : Validator) : Validator :=
  { self with commissionRate := self.nextEpochCommissionRate }

def requestAddStake (self : Validator) (stake epoch : Nat) : Tx (Validator × StakedIota) := do
  assert (0 < stake) Error.invalidStakeAmount
  let stakeEpoch ← add epoch 1
  let (stakingPool,staked) ← self.stakingPool.requestAddStake stake stakeEpoch
  -- Process stake right away if the staking pool is preactive.
  let stakingPool ← (if stakingPool.isPreactive then stakingPool.processPendingStake
    else .ok stakingPool)
  let nextEpochStake ← add self.nextEpochStake stake
  .ok ({ self with stakingPool, nextEpochStake },staked)

def requestAddStakeAtGenesis (self : Validator) (stake epoch : Nat) :
    Tx (Validator × StakedIota) := do
  assert (epoch = 0) Error.calledDuringNonGenesis
  assert (0 < stake) Error.invalidStakeAmount
  let (stakingPool,staked) ← self.stakingPool.requestAddStake stake 0
  let stakingPool ← stakingPool.processPendingStake
  let nextEpochStake ← add self.nextEpochStake stake
  .ok ({ self with stakingPool, nextEpochStake },staked)

def requestWithdrawStake (self : Validator) (staked : StakedIota) (epoch : Nat) :
    Tx (Validator × Nat) := do
  let (stakingPool,withdrawAmount) ← self.stakingPool.requestWithdrawStake staked epoch
  -- Process the withdrawal right away if the staking pool is preactive or inactive.
  let stakingPool ← (if stakingPool.isPreactive || stakingPool.isInactive then
    stakingPool.processPendingStakeWithdraw else .ok stakingPool)
  -- The difference is the reward amount of the emitted event.
  let _ ← (sub withdrawAmount staked.principal : Tx Nat)
  let nextEpochStake ← sub self.nextEpochStake withdrawAmount
  .ok ({ self with stakingPool, nextEpochStake },withdrawAmount)

def requestSetCommissionRate (self : Validator) (newCommissionRate : Nat) : Tx Validator := do
  assert (newCommissionRate ≤ maxCommissionRate) Error.commissionRateTooHigh
  .ok { self with nextEpochCommissionRate := newCommissionRate }

def setCandidateCommissionRate (self : Validator) (newCommissionRate : Nat) : Tx Validator := do
  assert (self.isPreactive = true) Error.notValidatorCandidate
  assert (newCommissionRate ≤ maxCommissionRate) Error.commissionRateTooHigh
  .ok { self with
    commissionRate := newCommissionRate
    nextEpochCommissionRate := newCommissionRate }

def depositStakeRewards (self : Validator) (reward : Nat) : Tx Validator := do
  let nextEpochStake ← add self.nextEpochStake reward
  let stakingPool ← self.stakingPool.depositRewards reward
  .ok { self with nextEpochStake, stakingPool }

def processPendingStakesAndWithdraws (self : Validator) (epoch : Nat) : Tx Validator := do
  let stakingPool ← self.stakingPool.processPendingStakesAndWithdraws epoch
  assert (stakingPool.iotaBalance = self.nextEpochStake) Error.invalidStakeAmount
  .ok { self with stakingPool }

def effectuateStagedMetadata (self : Validator) : Validator :=
  { self with metadata := self.metadata.effectuateStaged }

/-- An active validator with metadata of its own and one stake. -/
def numbered (n stake : Nat) : Validator where
  metadata :=
    { iotaAddress := n
      authorityPubkeyBytes := [n.toUInt8,0]
      networkPubkeyBytes := [n.toUInt8,1]
      protocolPubkeyBytes := [n.toUInt8,2]
      proofOfPossession := []
      name := [n.toUInt8]
      description := []
      imageUrl := []
      projectUrl := []
      netAddress := [n.toUInt8]
      p2pAddress := [n.toUInt8]
      primaryAddress := [n.toUInt8]
      nextEpochAuthorityPubkeyBytes := none
      nextEpochProofOfPossession := none
      nextEpochNetworkPubkeyBytes := none
      nextEpochProtocolPubkeyBytes := none
      nextEpochNetAddress := none
      nextEpochP2pAddress := none
      nextEpochPrimaryAddress := none }
  votingPower := 0
  operationCapId := n
  gasPrice := 1000
  stakingPool := { StakingPool.new n with
    activationEpoch := some 0
    iotaBalance := stake
    poolTokenBalance := stake
    exchangeRates := (∅ : Std.ExtTreeMap Nat PoolTokenExchangeRate).insert 0
      PoolTokenExchangeRate.initial }
  commissionRate := 200
  nextEpochStake := stake
  nextEpochGasPrice := 1000
  nextEpochCommissionRate := 200

def candidate (n : Nat) : Validator := { numbered n 0 with stakingPool := StakingPool.new n }

end Validator
end Iota.System
