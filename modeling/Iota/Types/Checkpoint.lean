import Iota.Lib.Search
import Iota.Lib.BTree
import Iota.Types.Basic

/-! A committee, the summary of a checkpoint, and the check that a quorum of a committee signed it.
Hashing and the aggregate signature scheme are third-party code and stay parameters. -/
namespace Iota
open Except List
open Std (ExtTreeMap)

abbrev AuthorityName := Nat
abbrev CheckpointDigest := Nat

def totalVotingPower : Nat := 10000
def quorumThreshold : Nat := 6667

/-- A committee: distinct authorities in increasing order with their stakes. -/
structure Committee where
  epoch : Nat
  votingRights : List (AuthorityName × Nat)
  sorted : (votingRights.map Prod.fst).Pairwise (· < ·)
deriving DecidableEq

variable {committee : Committee}
namespace Committee

/-- `Committee::new`; the vector is collected into a map first. -/
def new (epoch : Nat) (rights : List (AuthorityName × Nat)) : Except Panic Committee :=
  let votingRights := (ExtTreeMap.ofList rights compare).toList
  if votingRights = [] ∨ votingRights.all (fun r => r.2 = 0) ∨
      (votingRights.map Prod.snd).sum ≠ totalVotingPower then .error .panic
  else
    .ok ⟨epoch,votingRights,by
      have hkeys := (ExtTreeMap.ofList rights compare).ordered_keys
      rw [← ExtTreeMap.map_fst_toList_eq_keys] at hkeys
      exact hkeys.imp fun h => Nat.compare_eq_lt.mp h⟩

def authorityByIndex (committee : Committee) (index : Nat) : Option AuthorityName :=
  (committee.votingRights[index]?).map Prod.fst

def weight (committee : Committee) (author : AuthorityName) : Nat :=
  ((committee.votingRights.binarySearchByKey Prod.fst author).map Prod.snd).getD 0

theorem authorityByIndex_injective {i j : Nat} {a : AuthorityName}
    (hi : committee.authorityByIndex i = some a) (hj : committee.authorityByIndex j = some a) :
    i = j := by
  have hn : (committee.votingRights.map Prod.fst).Nodup := committee.sorted.imp Nat.ne_of_lt
  unfold authorityByIndex at hi hj
  rw [← List.getElem?_map] at hi hj
  have hl := (List.getElem?_eq_some_iff.mp hi).1
  exact (List.getElem?_inj hl hn).mp (hi.trans hj.symm)

end Committee

structure EndOfEpochData where
  nextEpochCommittee : List (AuthorityName × Nat)
  nextEpochProtocolVersion : Nat
  epochCommitments : List Nat
  epochSupplyChange : Int
deriving DecidableEq, Encodable

structure GasCostSummary where
  computationCost : Nat
  computationCostBurned : Nat
  storageCost : Nat
  storageRebate : Nat
  nonRefundableStorageFee : Nat
deriving DecidableEq, Encodable

structure CheckpointSummary where
  epoch : Nat
  sequenceNumber : Nat
  networkTotalTransactions : Nat
  contentDigest : Nat
  previousDigest : Option CheckpointDigest
  epochRollingGasCostSummary : GasCostSummary
  timestampMs : Nat
  checkpointCommitments : List Nat
  endOfEpochData : Option EndOfEpochData
  versionSpecificData : List Nat
deriving DecidableEq, Encodable

namespace CheckpointSummary

def nextEpochCommittee (summary : CheckpointSummary) : Option (List (AuthorityName × Nat)) :=
  summary.endOfEpochData.map EndOfEpochData.nextEpochCommittee

end CheckpointSummary

/-- `AuthorityStrongQuorumSignInfo`; the signers are a bitmap of positions in the committee. -/
structure AuthorityQuorumSignInfo where
  epoch : Nat
  signature : Nat
  signersMap : List Nat
  sorted : signersMap.Pairwise (· < ·)
deriving DecidableEq

structure CertifiedCheckpointSummary where
  summary : CheckpointSummary
  authSig : AuthorityQuorumSignInfo
deriving DecidableEq

/-- Hashing of summaries, and the verification of an aggregate signature of the authorities of a
list over a summary and an epoch. -/
structure Crypto where
  digest : CheckpointSummary → CheckpointDigest
  verifyAll : List AuthorityName → CheckpointSummary → Nat → Nat → Bool

/-- Digests do not collide, and every authority an accepted aggregate stands for has signed. -/
structure Crypto.Sound (crypto : Crypto) (signed : AuthorityName → CheckpointSummary → Prop) :
    Prop where
  digest_injective : Function.Injective crypto.digest
  unforgeable : ∀ keys summary epoch signature,
    crypto.verifyAll keys summary epoch signature = true → ∀ a ∈ keys, signed a summary

inductive SignatureError
  | wrongEpoch (expected actual : Nat)
  | unknownSigner (signer : Option AuthorityName) (index : Nat)
  | certificateRequiresQuorum
  | invalidSignature
deriving DecidableEq, Repr

namespace CertifiedCheckpointSummary
variable (crypto : Crypto)

def digest (checkpoint : CertifiedCheckpointSummary) : CheckpointDigest :=
  crypto.digest checkpoint.summary

def sequenceNumber (checkpoint : CertifiedCheckpointSummary) : Nat :=
  checkpoint.summary.sequenceNumber

/-- The loop of `add_to_verification_obligation`: the keys of the signers and their weight. -/
def addSigners (committee : Committee) :
    List Nat → Except SignatureError (List AuthorityName × Nat)
  | [] => .ok ([],0)
  | index :: rest =>
    match committee.authorityByIndex index with
    | none => .error (.unknownSigner none index)
    | some authority =>
      if committee.weight authority = 0 then .error (.unknownSigner (some authority) index)
      else do
        let (keys,weight) ← addSigners committee rest
        .ok (authority :: keys, committee.weight authority + weight)

def verifySecure (sig : AuthorityQuorumSignInfo) (data : CheckpointSummary)
    (committee : Committee) : Except SignatureError Unit := do
  if sig.epoch ≠ committee.epoch then .error (.wrongEpoch committee.epoch sig.epoch)
  else
    let (keys,weight) ← addSigners committee sig.signersMap
    if weight < quorumThreshold then .error .certificateRequiresQuorum
    else if crypto.verifyAll keys data sig.epoch sig.signature then .ok ()
    else .error .invalidSignature

def verifyAuthoritySignatures (checkpoint : CertifiedCheckpointSummary) (committee : Committee) :
    Except SignatureError Unit :=
  if checkpoint.summary.epoch ≠ checkpoint.authSig.epoch then
    .error (.wrongEpoch checkpoint.authSig.epoch checkpoint.summary.epoch)
  else verifySecure crypto checkpoint.authSig checkpoint.summary committee

end CertifiedCheckpointSummary

/-- Authorities of the committee of the summary's epoch that weigh a quorum have signed it. -/
def SignedByQuorum (signed : AuthorityName → CheckpointSummary → Prop) (committee : Committee)
    (summary : CheckpointSummary) : Prop :=
  committee.epoch = summary.epoch ∧ ∃ signers : Finset AuthorityName,
    (∀ a ∈ signers, a ∈ committee.votingRights.map Prod.fst ∧ signed a summary) ∧
      quorumThreshold ≤ ∑ a ∈ signers, committee.weight a

namespace CertifiedCheckpointSummary
variable {crypto : Crypto} {signed : AuthorityName → CheckpointSummary → Prop}

theorem addSigners_spec :
    ∀ {indices : List Nat} {keys : List AuthorityName} {weight : Nat}, indices.Nodup →
      addSigners committee indices = .ok (keys,weight) →
      keys.Nodup ∧ weight = (keys.map committee.weight).sum ∧
        ∀ a ∈ keys, ∃ i ∈ indices, committee.authorityByIndex i = some a := by
  intro indices
  induction indices with
  | nil =>
    rintro keys weight - h
    cases h
    exact ⟨nodup_nil,rfl,forall_mem_nil _⟩
  | cons index rest ih =>
    intro keys weight hnd h
    obtain ⟨hf,hr⟩ := nodup_cons.mp hnd
    unfold addSigners at h
    split at h
    · cases h
    · next authority hid =>
      split at h
      · cases h
      obtain ⟨⟨others,sum⟩,ho,h⟩ := of_bind h
      cases h
      obtain ⟨hn,hs,hm⟩ := ih hr ho
      refine ⟨nodup_cons.mpr ⟨?_,hn⟩,by simp [hs],?_⟩
      · -- another position of the same authority would be the same position
        intro hin
        obtain ⟨i,hi,hnm⟩ := hm authority hin
        exact hf (Committee.authorityByIndex_injective hid hnm ▸ hi)
      intro a ha
      rcases mem_cons.mp ha with rfl | ha
      · exact ⟨index,mem_cons_self,hid⟩
      · obtain ⟨i,hi,hnm⟩ := hm a ha
        exact ⟨i,mem_cons_of_mem _ hi,hnm⟩

theorem signedByQuorum_of_verify (hs : crypto.Sound signed)
    {checkpoint : CertifiedCheckpointSummary}
    (h : checkpoint.verifyAuthoritySignatures crypto committee = .ok ()) :
    SignedByQuorum signed committee checkpoint.summary := by
  unfold verifyAuthoritySignatures verifySecure at h
  split at h
  · cases h
  · next he =>
    split at h
    · cases h
    · next hc =>
      obtain ⟨⟨keys,weight⟩,hk,h⟩ := of_bind h
      dsimp only at h
      split at h
      · cases h
      · next hw =>
        split at h
        · next hv =>
          have hnd : checkpoint.authSig.signersMap.Nodup :=
            checkpoint.authSig.sorted.imp Nat.ne_of_lt
          obtain ⟨hn,hsm,hmm⟩ := addSigners_spec hnd hk
          refine ⟨by omega,keys.toFinset,?_,?_⟩
          · intro a ha
            have hin := mem_toFinset.mp ha
            obtain ⟨i,-,hnm⟩ := hmm a hin
            obtain ⟨right,hr,rfl⟩ := Option.map_eq_some_iff.mp hnm
            have hm := mem_map_of_mem (f := Prod.fst) (mem_of_getElem? hr)
            exact ⟨hm,hs.unforgeable _ _ _ _ hv _ hin⟩
          have hq : quorumThreshold ≤ (keys.map committee.weight).sum := by omega
          rw [sum_toFinset _ hn]
          exact hq
        · cases h

end CertifiedCheckpointSummary
end Iota
