import Iota.System.Validator

/-! Creation of a validator and the changes of its metadata. Names and the metadata of candidates
change at once, the rest is staged for the next epoch. The native check of keys, addresses and the
proof of possession is a parameter. -/
namespace Iota.System
open Error Except Move

/-- The arguments of `validator::new` besides the address. -/
structure ValidatorParams where
  authorityPubkeyBytes : Bytes
  networkPubkeyBytes : Bytes
  protocolPubkeyBytes : Bytes
  proofOfPossession : Bytes
  name : Bytes
  description : Bytes
  imageUrl : Bytes
  projectUrl : Bytes
  netAddress : Bytes
  p2pAddress : Bytes
  primaryAddress : Bytes
  gasPrice : Nat
  commissionRate : Nat
deriving DecidableEq, Repr

def ValidatorParams.numbered (n : UInt8) : ValidatorParams where
  authorityPubkeyBytes := [n,0]
  networkPubkeyBytes := [n,1]
  protocolPubkeyBytes := [n,2]
  proofOfPossession := []
  name := [n]
  description := []
  imageUrl := []
  projectUrl := []
  netAddress := [n]
  p2pAddress := [n]
  primaryAddress := [n]
  gasPrice := 1000
  commissionRate := 200

/-- A change of the metadata, by the name of its entry point. -/
inductive MetadataUpdate
  | name (name : Bytes)
  | description (description : Bytes)
  | imageUrl (imageUrl : Bytes)
  | projectUrl (projectUrl : Bytes)
  | nextEpochNetworkAddress (netAddress : Bytes)
  | nextEpochP2pAddress (p2pAddress : Bytes)
  | nextEpochPrimaryAddress (primaryAddress : Bytes)
  | nextEpochAuthorityPubkey (authorityPubkey proofOfPossession : Bytes)
  | nextEpochProtocolPubkey (protocolPubkey : Bytes)
  | nextEpochNetworkPubkey (networkPubkey : Bytes)
  | candidateNetworkAddress (netAddress : Bytes)
  | candidateP2pAddress (p2pAddress : Bytes)
  | candidatePrimaryAddress (primaryAddress : Bytes)
  | candidateAuthorityPubkey (authorityPubkey proofOfPossession : Bytes)
  | candidateProtocolPubkey (protocolPubkey : Bytes)
  | candidateNetworkPubkey (networkPubkey : Bytes)
deriving DecidableEq, Repr

namespace Validator

/-- The length limit of a text and its conversion to a string. -/
def checkText (bytes : Bytes) : Tx Bytes := do
  assert (bytes.length ≤ maxValidatorMetadataLength) validatorMetadataExceedingLengthLimit
  toAsciiString bytes

section
variable (validateMetadata : ValidatorMetadata → Bool)

/-- Changed metadata, checked as a whole by the native `validate_metadata`. -/
def setMetadata (self : Validator) (metadata : ValidatorMetadata) : Tx Validator := do
  assert (validateMetadata metadata = true) invalidMetadata
  .ok { self with metadata }

/-- `validator::new` with fresh ids for the staking pool and the operation cap. -/
def new (iotaAddress : Nat) (params : ValidatorParams) (poolId operationCapId : Nat) :
    Tx Validator := do
  assert (params.netAddress.length ≤ maxValidatorMetadataLength
    ∧ params.p2pAddress.length ≤ maxValidatorMetadataLength
    ∧ params.primaryAddress.length ≤ maxValidatorMetadataLength
    ∧ params.name.length ≤ maxValidatorMetadataLength
    ∧ params.description.length ≤ maxValidatorMetadataLength
    ∧ params.imageUrl.length ≤ maxValidatorMetadataLength
    ∧ params.projectUrl.length ≤ maxValidatorMetadataLength)
    validatorMetadataExceedingLengthLimit
  assert (params.commissionRate ≤ maxCommissionRate) commissionRateTooHigh
  assert (params.gasPrice ≤ maxValidatorGasPrice) gasPriceHigherThanThreshold
  let name ← toAsciiString params.name
  let description ← toAsciiString params.description
  let imageUrl ← toAsciiString params.imageUrl
  let projectUrl ← toAsciiString params.projectUrl
  let netAddress ← toAsciiString params.netAddress
  let p2pAddress ← toAsciiString params.p2pAddress
  let primaryAddress ← toAsciiString params.primaryAddress
  let metadata : ValidatorMetadata :=
    { iotaAddress
      authorityPubkeyBytes := params.authorityPubkeyBytes
      networkPubkeyBytes := params.networkPubkeyBytes
      protocolPubkeyBytes := params.protocolPubkeyBytes
      proofOfPossession := params.proofOfPossession
      name, description, imageUrl, projectUrl, netAddress, p2pAddress, primaryAddress
      nextEpochAuthorityPubkeyBytes := none
      nextEpochProofOfPossession := none
      nextEpochNetworkPubkeyBytes := none
      nextEpochProtocolPubkeyBytes := none
      nextEpochNetAddress := none
      nextEpochP2pAddress := none
      nextEpochPrimaryAddress := none }
  assert (validateMetadata metadata = true) invalidMetadata
  .ok
    { metadata
      votingPower := 0
      operationCapId
      gasPrice := params.gasPrice
      stakingPool := StakingPool.new poolId
      commissionRate := params.commissionRate
      nextEpochStake := 0
      nextEpochGasPrice := params.gasPrice
      nextEpochCommissionRate := params.commissionRate }

/-- `new_unverified_validator_operation_cap_and_transfer`: a new cap revokes the previous one. -/
def newOperationCap (self : Validator) (sender newId : Nat) : Tx Validator := do
  assert (sender = self.metadata.iotaAddress) newCapNotCreatedByValidatorItself
  .ok { self with operationCapId := newId }

def updateName (self : Validator) (name : Bytes) : Tx Validator := do
  let name ← checkText name
  .ok { self with metadata := { self.metadata with name } }

def updateDescription (self : Validator) (description : Bytes) : Tx Validator := do
  let description ← checkText description
  .ok { self with metadata := { self.metadata with description } }

def updateImageUrl (self : Validator) (imageUrl : Bytes) : Tx Validator := do
  let imageUrl ← checkText imageUrl
  .ok { self with metadata := { self.metadata with imageUrl } }

def updateProjectUrl (self : Validator) (projectUrl : Bytes) : Tx Validator := do
  let projectUrl ← checkText projectUrl
  .ok { self with metadata := { self.metadata with projectUrl } }

def updateNextEpochNetworkAddress (self : Validator) (netAddress : Bytes) : Tx Validator := do
  let netAddress ← checkText netAddress
  self.setMetadata validateMetadata { self.metadata with nextEpochNetAddress := some netAddress }

def updateNextEpochP2pAddress (self : Validator) (p2pAddress : Bytes) : Tx Validator := do
  let p2pAddress ← checkText p2pAddress
  self.setMetadata validateMetadata { self.metadata with nextEpochP2pAddress := some p2pAddress }

def updateNextEpochPrimaryAddress (self : Validator) (primaryAddress : Bytes) :
    Tx Validator := do
  let primaryAddress ← checkText primaryAddress
  self.setMetadata validateMetadata
    { self.metadata with nextEpochPrimaryAddress := some primaryAddress }

def updateNextEpochAuthorityPubkey (self : Validator) (authorityPubkey proofOfPossession : Bytes) :
    Tx Validator :=
  self.setMetadata validateMetadata { self.metadata with
    nextEpochAuthorityPubkeyBytes := some authorityPubkey
    nextEpochProofOfPossession := some proofOfPossession }

def updateNextEpochProtocolPubkey (self : Validator) (protocolPubkey : Bytes) : Tx Validator :=
  self.setMetadata validateMetadata
    { self.metadata with nextEpochProtocolPubkeyBytes := some protocolPubkey }

def updateNextEpochNetworkPubkey (self : Validator) (networkPubkey : Bytes) : Tx Validator :=
  self.setMetadata validateMetadata
    { self.metadata with nextEpochNetworkPubkeyBytes := some networkPubkey }

def updateCandidateNetworkAddress (self : Validator) (netAddress : Bytes) : Tx Validator := do
  assert (self.isPreactive = true) notValidatorCandidate
  let netAddress ← checkText netAddress
  self.setMetadata validateMetadata { self.metadata with netAddress }

def updateCandidateP2pAddress (self : Validator) (p2pAddress : Bytes) : Tx Validator := do
  assert (self.isPreactive = true) notValidatorCandidate
  let p2pAddress ← checkText p2pAddress
  self.setMetadata validateMetadata { self.metadata with p2pAddress }

def updateCandidatePrimaryAddress (self : Validator) (primaryAddress : Bytes) :
    Tx Validator := do
  assert (self.isPreactive = true) notValidatorCandidate
  let primaryAddress ← checkText primaryAddress
  self.setMetadata validateMetadata { self.metadata with primaryAddress }

def updateCandidateAuthorityPubkey (self : Validator) (authorityPubkey proofOfPossession : Bytes) :
    Tx Validator := do
  assert (self.isPreactive = true) notValidatorCandidate
  self.setMetadata validateMetadata
    { self.metadata with authorityPubkeyBytes := authorityPubkey, proofOfPossession }

def updateCandidateProtocolPubkey (self : Validator) (protocolPubkey : Bytes) :
    Tx Validator := do
  assert (self.isPreactive = true) notValidatorCandidate
  self.setMetadata validateMetadata { self.metadata with protocolPubkeyBytes := protocolPubkey }

def updateCandidateNetworkPubkey (self : Validator) (networkPubkey : Bytes) : Tx Validator := do
  assert (self.isPreactive = true) notValidatorCandidate
  self.setMetadata validateMetadata { self.metadata with networkPubkeyBytes := networkPubkey }

def update (self : Validator) : MetadataUpdate → Tx Validator
  | .name x => self.updateName x
  | .description x => self.updateDescription x
  | .imageUrl x => self.updateImageUrl x
  | .projectUrl x => self.updateProjectUrl x
  | .nextEpochNetworkAddress x => self.updateNextEpochNetworkAddress validateMetadata x
  | .nextEpochP2pAddress x => self.updateNextEpochP2pAddress validateMetadata x
  | .nextEpochPrimaryAddress x => self.updateNextEpochPrimaryAddress validateMetadata x
  | .nextEpochAuthorityPubkey x y => self.updateNextEpochAuthorityPubkey validateMetadata x y
  | .nextEpochProtocolPubkey x => self.updateNextEpochProtocolPubkey validateMetadata x
  | .nextEpochNetworkPubkey x => self.updateNextEpochNetworkPubkey validateMetadata x
  | .candidateNetworkAddress x => self.updateCandidateNetworkAddress validateMetadata x
  | .candidateP2pAddress x => self.updateCandidateP2pAddress validateMetadata x
  | .candidatePrimaryAddress x => self.updateCandidatePrimaryAddress validateMetadata x
  | .candidateAuthorityPubkey x y => self.updateCandidateAuthorityPubkey validateMetadata x y
  | .candidateProtocolPubkey x => self.updateCandidateProtocolPubkey validateMetadata x
  | .candidateNetworkPubkey x => self.updateCandidateNetworkPubkey validateMetadata x

end
end Validator
namespace MetadataUpdate

def apply (m : ValidatorMetadata) : MetadataUpdate → ValidatorMetadata
  | .name x => { m with name := x }
  | .description x => { m with description := x }
  | .imageUrl x => { m with imageUrl := x }
  | .projectUrl x => { m with projectUrl := x }
  | .nextEpochNetworkAddress x => { m with nextEpochNetAddress := some x }
  | .nextEpochP2pAddress x => { m with nextEpochP2pAddress := some x }
  | .nextEpochPrimaryAddress x => { m with nextEpochPrimaryAddress := some x }
  | .nextEpochAuthorityPubkey x y =>
    { m with nextEpochAuthorityPubkeyBytes := some x, nextEpochProofOfPossession := some y }
  | .nextEpochProtocolPubkey x => { m with nextEpochProtocolPubkeyBytes := some x }
  | .nextEpochNetworkPubkey x => { m with nextEpochNetworkPubkeyBytes := some x }
  | .candidateNetworkAddress x => { m with netAddress := x }
  | .candidateP2pAddress x => { m with p2pAddress := x }
  | .candidatePrimaryAddress x => { m with primaryAddress := x }
  | .candidateAuthorityPubkey x y => { m with authorityPubkeyBytes := x, proofOfPossession := y }
  | .candidateProtocolPubkey x => { m with protocolPubkeyBytes := x }
  | .candidateNetworkPubkey x => { m with networkPubkeyBytes := x }

/-- The updates that take effect in the next epoch; their entry points exclude candidates. -/
def isStaged : MetadataUpdate → Bool
  | .nextEpochNetworkAddress _ | .nextEpochP2pAddress _ | .nextEpochPrimaryAddress _
  | .nextEpochAuthorityPubkey _ _ | .nextEpochProtocolPubkey _ | .nextEpochNetworkPubkey _ => true
  | _ => false

/-- The updates whose entry points look for duplicates afterwards. -/
def isChecked : MetadataUpdate → Bool
  | .nextEpochNetworkAddress _ | .nextEpochP2pAddress _
  | .nextEpochAuthorityPubkey _ _ | .nextEpochProtocolPubkey _ | .nextEpochNetworkPubkey _ => true
  | _ => false

@[simp] theorem apply_iotaAddress (u : MetadataUpdate) (m : ValidatorMetadata) :
    (u.apply m).iotaAddress = m.iotaAddress := by
  cases u <;> rfl

end MetadataUpdate
namespace Validator
variable {validateMetadata : ValidatorMetadata → Bool} {v v' : Validator}

theorem checkText_eq_ok {bytes text : Bytes} (h : checkText bytes = .ok text) : text = bytes := by
  iterate 2 obtain ⟨_,h⟩ := ok_of_bind h
  exact (ok.inj h).symm

theorem setMetadata_eq_ok {metadata : ValidatorMetadata}
    (h : v.setMetadata validateMetadata metadata = .ok v') : v' = { v with metadata } := by
  obtain ⟨_,h⟩ := ok_of_bind h
  exact (ok.inj h).symm

theorem update_eq_ok {u : MetadataUpdate} (h : v.update validateMetadata u = .ok v') :
    v' = { v with metadata := u.apply v.metadata } := by
  cases u with
  | name | description | imageUrl | projectUrl =>
    obtain ⟨text,ht,h⟩ := of_bind h
    cases checkText_eq_ok ht
    exact (ok.inj h).symm
  | nextEpochNetworkAddress | nextEpochP2pAddress | nextEpochPrimaryAddress =>
    obtain ⟨text,ht,h⟩ := of_bind h
    cases checkText_eq_ok ht
    exact setMetadata_eq_ok h
  | nextEpochAuthorityPubkey | nextEpochProtocolPubkey | nextEpochNetworkPubkey =>
    exact setMetadata_eq_ok h
  | candidateNetworkAddress | candidateP2pAddress | candidatePrimaryAddress =>
    obtain ⟨_,h⟩ := ok_of_bind h
    obtain ⟨text,ht,h⟩ := of_bind h
    cases checkText_eq_ok ht
    exact setMetadata_eq_ok h
  | candidateAuthorityPubkey | candidateProtocolPubkey | candidateNetworkPubkey =>
    obtain ⟨_,h⟩ := ok_of_bind h
    exact setMetadata_eq_ok h

end Validator
end Iota.System
