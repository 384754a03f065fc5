import Iota.System.SystemState

/-! Every charge of an epoch is accounted for once: by the epoch change itself, or after a stay in
the safe-mode accumulators. The accumulator of burned computation charges is never reset, so this
holds as long as no epoch change finds something in it. -/
namespace Iota.System
open Except Move
namespace Charges

instance : Zero Charges := ⟨⟨0,0,0,0,0⟩⟩

instance : Add Charges where
  add a b :=
    { storageCharge := a.storageCharge + b.storageCharge
      computationCharge := a.computationCharge + b.computationCharge
      computationChargeBurned := a.computationChargeBurned + b.computationChargeBurned
      storageRebate := a.storageRebate + b.storageRebate
      nonRefundableStorageFee := a.nonRefundableStorageFee + b.nonRefundableStorageFee }

theorem add_def (a b : Charges) : a + b =
    ⟨a.storageCharge + b.storageCharge,a.computationCharge + b.computationCharge,
      a.computationChargeBurned + b.computationChargeBurned,a.storageRebate + b.storageRebate,
      a.nonRefundableStorageFee + b.nonRefundableStorageFee⟩ := rfl

theorem zero_def : (0 : Charges) = ⟨0,0,0,0,0⟩ := rfl

theorem add_assoc (a b c : Charges) : a + b + c = a + (b + c) := by
  simp [add_def,Nat.add_assoc]

theorem add_comm (a b : Charges) : a + b = b + a := by
  simp [add_def,Nat.add_comm]

theorem add_zero (a : Charges) : a+0 = a := rfl

end Charges

/-- What is burned of the computation charge of an epoch is a part of it. -/
def AdvanceEpochParams.Covered (params : AdvanceEpochParams) : Prop :=
  params.computationChargeBurned ≤ params.computationCharge

/-- A system state with the charges of all epochs so far and those that successful epoch changes
accounted for. -/
structure Ledger where
  state : SystemState
  incurred : Charges
  accounted : Charges

namespace SystemState
variable {s s' : SystemState} {params : AdvanceEpochParams} {charges : Charges} {leftover : Nat}

theorem mergeSafeModeCharges_satisfies (s : SystemState) (charges : Charges) :
    (s.mergeSafeModeCharges charges).Satisfies Overflows fun r =>
      r = ({ s with
        safeModeStorageCharges := 0
        safeModeComputationCharges := 0
        safeModeStorageRebates := 0
        safeModeNonRefundableStorageFee := 0 },charges + s.safeModeCharges) := by
  refine (add_satisfies _ _).bind ?_
  rintro _ rfl
  refine (add_satisfies _ _).bind ?_
  rintro _ rfl
  refine (add_satisfies _ _).bind ?_
  rintro _ rfl
  refine (add_satisfies _ _).bind ?_
  rintro _ rfl
  refine (add_satisfies _ _).bind ?_
  rintro _ rfl
  exact rfl

theorem matchComputationChargeBurned_supply {subsidy computation burned supply rewards supply' : Nat}
    (h : matchComputationChargeBurnedToValidatorSubsidy subsidy computation burned supply =
      .ok (rewards,supply')) : supply' + burned = supply + subsidy := by
  unfold matchComputationChargeBurnedToValidatorSubsidy at h
  split at h
  · obtain ⟨_,ha,h⟩ := of_bind h
    obtain ⟨_,hm,h⟩ := of_bind h
    obtain ⟨_,h⟩ := ok_of_bind h
    cases h
    obtain ⟨-,rfl⟩ := sub_eq_ok.mp ha
    iterate 2 obtain ⟨_,hm⟩ := ok_of_bind hm
    obtain ⟨-,rfl⟩ := add_eq_ok.mp hm
    omega
  · split at h
    · obtain ⟨_,ha,h⟩ := of_bind h
      obtain ⟨_,h⟩ := ok_of_bind h
      obtain ⟨_,hb,h⟩ := of_bind h
      cases h
      obtain ⟨-,rfl⟩ := sub_eq_ok.mp ha
      obtain ⟨_,hb⟩ := ok_of_bind hb
      obtain ⟨hle,rfl⟩ := sub_eq_ok.mp hb
      omega
    · cases h
      omega

theorem advanceEpochWith_cases (h : s.advanceEpochWith params = .ok (s',charges,leftover)) :
    charges = params.charges + s.safeModeCharges ∧
      charges.computationChargeBurned ≤ charges.computationCharge ∧
      s'.safeModeCharges =
        { (0 : Charges) with computationChargeBurned := s.safeModeComputationChargesBurned } ∧
      s'.totalSupply + (charges.computationChargeBurned + leftover) =
        s.totalSupply + params.validatorSubsidy := by
  obtain ⟨_,h⟩ := ok_of_bind h
  obtain ⟨⟨t,merged⟩,hmr,h⟩ := of_bind h
  cases (mergeSafeModeCharges_satisfies s params.charges).of_ok hmr
  obtain ⟨_,ht,h⟩ := of_bind h
  obtain ⟨⟨rewards,supply⟩,hm,h⟩ := of_bind h
  iterate 2 obtain ⟨_,h⟩ := ok_of_bind h
  obtain ⟨⟨validators,left,records⟩,-,h⟩ := of_bind h
  iterate 2 obtain ⟨_,h⟩ := ok_of_bind h
  obtain ⟨_,hb,h⟩ := of_bind h
  obtain ⟨_,h⟩ := ok_of_bind h
  cases h
  obtain ⟨_,hb⟩ := ok_of_bind hb
  obtain ⟨hle,rfl⟩ := sub_eq_ok.mp hb
  have hs := matchComputationChargeBurned_supply hm
  refine ⟨rfl,(sub_eq_ok.mp ht).1,rfl,?_⟩
  simp only at hs ⊢
  omega

theorem advanceEpochSafeMode_charges (h : s.advanceEpochSafeMode params = .ok s') :
    s'.safeModeCharges = s.safeModeCharges + params.charges := by
  obtain ⟨_,hs,h⟩ := of_bind h
  obtain ⟨_,hr,h⟩ := of_bind h
  obtain ⟨_,hc,h⟩ := of_bind h
  obtain ⟨_,hb,h⟩ := of_bind h
  obtain ⟨_,hf,h⟩ := of_bind h
  cases h
  obtain ⟨-,rfl⟩ := add_eq_ok.mp hs
  obtain ⟨-,rfl⟩ := add_eq_ok.mp hr
  obtain ⟨-,rfl⟩ := add_eq_ok.mp hc
  obtain ⟨-,rfl⟩ := add_eq_ok.mp hb
  obtain ⟨-,rfl⟩ := add_eq_ok.mp hf
  rfl

theorem exec_request {validateMetadata : ValidatorMetadata → Bool} {op : SystemOp}
    (hop : op.isRequest = true) (h : s.exec validateMetadata op = .ok s') :
    ∃ validators validatorReportRecords poolIds capIds,
      s' = { s with validators, validatorReportRecords, poolIds, capIds } := by
  cases op with
  | requestRemoveValidatorCandidate | requestSetCommissionRate | setCandidateCommissionRate
  | requestAddStake | requestWithdrawStake | rotateOperationCap =>
    obtain ⟨_,h⟩ := ok_of_bind h
    exact ⟨_,_,_,_,(ok.inj h).symm⟩
  | requestAddValidatorCandidate | requestRemoveValidator | undoReportValidator
  | updateMetadata =>
    iterate 2 obtain ⟨_,h⟩ := ok_of_bind h
    exact ⟨_,_,_,_,(ok.inj h).symm⟩
  | requestAddValidator | reportValidator =>
    iterate 3 obtain ⟨_,h⟩ := ok_of_bind h
    exact ⟨_,_,_,_,(ok.inj h).symm⟩
  | advanceEpoch | advanceEpochSafeMode => cases hop

end SystemState
namespace Ledger
variable {validateMetadata : ValidatorMetadata → Bool} {l l' : Ledger} {op : SystemOp}

/-- A step of the system, with the charges it brings and those it accounts for. -/
def exec (validateMetadata : ValidatorMetadata → Bool) (l : Ledger) (op : SystemOp) : Tx Ledger :=
  match op with
  | .advanceEpoch params => do
    let (state,charges,_) ← l.state.advanceEpochWith params
    .ok ⟨state,l.incurred + params.charges,l.accounted + charges⟩
  | .advanceEpochSafeMode params => do
    let state ← l.state.advanceEpochSafeMode params
    .ok { l with state, incurred := l.incurred + params.charges }
  | op => do
    let state ← l.state.exec validateMetadata op
    .ok { l with state }

def Initial (validateMetadata : ValidatorMetadata → Bool) (l : Ledger) : Prop :=
  SystemState.Initial validateMetadata l.state ∧ l.incurred = 0 ∧ l.accounted = 0

/-- The burned part of the charges of an epoch does not exceed them. -/
def Permitted (_ : Ledger) : SystemOp → Prop
  | .advanceEpoch params => params.Covered
  | .advanceEpochSafeMode params => params.Covered
  | _ => True

/-- A successful epoch change finds no burned charges left by safe mode. -/
def NoneBurned (l : Ledger) : SystemOp → Prop
  | .advanceEpoch _ => l.state.safeModeComputationChargesBurned = 0
  | _ => True

/-- Nothing is lost or accounted for twice, and the burned part of what is accumulated is covered. -/
structure Balanced (l : Ledger) : Prop where
  conserved : l.incurred = l.accounted + l.state.safeModeCharges
  covered : l.state.safeModeComputationChargesBurned ≤ l.state.safeModeComputationCharges

theorem Initial.balanced (h : Initial validateMetadata l) : Balanced l := by
  obtain ⟨⟨_,_,_,_,_,_,hg⟩,hi,ha⟩ := h
  obtain ⟨_,_,_,-,-,-,-,-,hc,-⟩ := SystemState.genesis_cases hg
  constructor
  · rw [hi,ha,hc]
    rfl
  have hb := congrArg Charges.computationChargeBurned hc
  simp only [SystemState.safeModeCharges] at hb
  omega

theorem exec_request (hop : op.isRequest = true) (h : l.exec validateMetadata op = .ok l') :
    l'.incurred = l.incurred ∧ l'.accounted = l.accounted ∧
      l'.state.safeModeCharges = l.state.safeModeCharges := by
  obtain ⟨state,hst,h⟩ : ∃ state, l.state.exec validateMetadata op = .ok state ∧
      l' = { l with state } := by
    cases op with
    | advanceEpoch | advanceEpochSafeMode => cases hop
    | _ =>
      obtain ⟨state,hst,h⟩ := of_bind h
      exact ⟨state,hst,(ok.inj h).symm⟩
  obtain ⟨_,_,_,_,rfl⟩ := SystemState.exec_request hop hst
  subst h
  exact ⟨rfl,rfl,rfl⟩

theorem Balanced.of_charges (h : Balanced l) (hi : l'.incurred = l.incurred)
    (ha : l'.accounted = l.accounted)
    (hc : l'.state.safeModeCharges = l.state.safeModeCharges) : Balanced l' := by
  constructor
  · rw [hi,ha,hc]
    exact h.conserved
  have := h.covered
  simp only [SystemState.safeModeCharges,Charges.mk.injEq] at hc
  omega

theorem Balanced.exec (h : Balanced l) (hp : Permitted l op) (hn : NoneBurned l op)
    (hr : l.exec validateMetadata op = .ok l') : Balanced l' := by
  cases hop : op.isRequest with
  | true =>
    obtain ⟨hi,ha,hc⟩ := exec_request hop hr
    exact h.of_charges hi ha hc
  | false =>
    cases op with
    | advanceEpoch params =>
      obtain ⟨⟨state,charges,leftover⟩,had,hr⟩ := of_bind hr
      cases hr
      obtain ⟨rfl,-,hcl,-⟩ := SystemState.advanceEpochWith_cases had
      rw [show l.state.safeModeComputationChargesBurned = 0 from hn] at hcl
      constructor
      · rw [hcl,h.conserved,Charges.add_assoc,Charges.add_comm params.charges]
        rfl
      have hb : state.safeModeComputationChargesBurned = 0 :=
        congrArg Charges.computationChargeBurned hcl
      simp only [hb,Nat.zero_le]
    | advanceEpochSafeMode params =>
      obtain ⟨state,hs,hr⟩ := of_bind hr
      cases hr
      have hc := SystemState.advanceEpochSafeMode_charges hs
      constructor
      · rw [hc,h.conserved,Charges.add_assoc]
      have := h.covered
      have : params.computationChargeBurned ≤ params.computationCharge := hp
      simp only [SystemState.safeModeCharges,AdvanceEpochParams.charges,Charges.add_def,
        Charges.mk.injEq] at hc ⊢
      omega
    | _ => cases hop

/-- Charges through any sequence of epoch changes, none of which follows a safe-mode epoch with
burned computation charges. -/
theorem charges_processed_once
    (h : Machine.Reached (Initial validateMetadata) (exec validateMetadata)
      (fun l op => Permitted l op ∧ NoneBurned l op) l) :
    l.incurred = l.accounted + l.state.safeModeCharges ∧
      (∀ params : AdvanceEpochParams, params.Covered →
        (l.state.mergeSafeModeCharges params.charges).Satisfies Overflows fun r =>
          r.2.computationChargeBurned ≤ r.2.computationCharge) ∧
      ∀ params s' charges leftover,
        l.state.advanceEpochWith params = .ok (s',charges,leftover) →
        charges = params.charges + l.state.safeModeCharges ∧
          (s'.safeModeCharges = 0 ↔ l.state.safeModeComputationChargesBurned = 0) ∧
          s'.totalSupply + (charges.computationChargeBurned + leftover) =
            l.state.totalSupply + params.validatorSubsidy := by
  have hb : Balanced l := by
    induction h with
    | init hi => exact hi.balanced
    | step _ ha hr ih => exact ih.exec ha.1 ha.2 hr
  refine ⟨hb.conserved,fun params hcv => ?_,fun params s' charges leftover hr => ?_⟩
  · refine (SystemState.mergeSafeModeCharges_satisfies l.state params.charges).mono ?_
    rintro _ rfl
    have := hb.covered
    have : params.computationChargeBurned ≤ params.computationCharge := hcv
    simp only [Charges.add_def,SystemState.safeModeCharges,AdvanceEpochParams.charges]
    omega
  obtain ⟨hc,-,hcl,hs⟩ := SystemState.advanceEpochWith_cases hr
  refine ⟨hc,?_,hs⟩
  rw [hcl,Charges.zero_def,Charges.mk.injEq]
  simp

def soleGenesis : Tx SystemState :=
  SystemState.genesis (fun _ => true) [(1,ValidatorParams.numbered 1)] [(1,5000000000)]
    ⟨4,10,2000000000,1500000000,1000000000,7⟩ 10000000000 1 0

/-- The change to an epoch with charges of computation only. -/
def computationOnly (epoch computationCharge computationChargeBurned : Nat) : AdvanceEpochParams where
  epoch
  nextProtocolVersion := 1
  validatorSubsidy := 1000
  storageCharge := 0
  computationCharge
  computationChargeBurned
  storageRebate := 0
  nonRefundableStorageFee := 0
  rewardSlashingRate := 0
  epochStartTimestampMs := 0
  maxCommitteeMembersCount := 4
  eligibleActiveValidators := []
  scores := [maxScore]
  adjustRewardsByScore := false

theorem initial_soleGenesis {s : SystemState} (h : soleGenesis = .ok s) :
    Initial (fun _ => true) ⟨s,0,0⟩ := ⟨⟨_,_,_,_,_,_,h⟩,rfl,rfl⟩

/-- Tips of a safe-mode epoch reach the validators in the next one. -/
theorem charges_processed_once_tips : ∃ l,
    Machine.Reached (Initial fun _ => true) (exec fun _ => true)
      (fun l op => Permitted l op ∧ NoneBurned l op) l ∧
      l.state.epoch = 2 ∧ l.accounted = ⟨0,30,20,0,0⟩ ∧
      l.incurred = l.accounted + l.state.safeModeCharges := by
  obtain ⟨s,hs,l1,h1,hn,l,h,he,ha⟩ : ∃ s, soleGenesis = .ok s ∧
      ∃ l1, exec (fun _ => true) ⟨s,0,0⟩ (.advanceEpochSafeMode (computationOnly 1 10 0)) =
        .ok l1 ∧ l1.state.safeModeComputationChargesBurned = 0 ∧
      ∃ l, exec (fun _ => true) l1 (.advanceEpoch (computationOnly 2 20 20)) = .ok l ∧
        l.state.epoch = 2 ∧ l.accounted = ⟨0,30,20,0,0⟩ := by decide +kernel
  have hsf : Permitted ⟨s,0,0⟩ (.advanceEpochSafeMode (computationOnly 1 10 0)) ∧
      NoneBurned ⟨s,0,0⟩ (.advanceEpochSafeMode (computationOnly 1 10 0)) :=
    ⟨show 0 ≤ 10 by omega,trivial⟩
  have had : Permitted l1 (.advanceEpoch (computationOnly 2 20 20)) ∧
      NoneBurned l1 (.advanceEpoch (computationOnly 2 20 20)) :=
    ⟨show 20 ≤ 20 by omega,hn⟩
  have hr : Machine.Reached (Initial fun _ => true) (exec fun _ => true)
      (fun l op => Permitted l op ∧ NoneBurned l op) l :=
    .step (.step (.init (initial_soleGenesis hs)) hsf h1) had h
  exact ⟨l,hr,he,ha,(charges_processed_once hr).1⟩

/-- Charges burned in a safe-mode epoch stay in the accumulator and are burned again: the second
epoch change after safe mode aborts. -/
theorem burned_charges_accounted_twice : ∃ l l',
    Machine.Reached (Initial fun _ => true) (exec fun _ => true) Permitted l ∧
      exec (fun _ => true) l (.advanceEpoch (computationOnly 2 20 10)) = .ok l' ∧
      l'.state.safeModeComputationChargesBurned = 10 ∧
      exec (fun _ => true) l' (.advanceEpoch (computationOnly 3 0 0)) = .error .underflow := by
  obtain ⟨s,hs,l,h,l',h',ha⟩ : ∃ s, soleGenesis = .ok s ∧
      ∃ l, exec (fun _ => true) ⟨s,0,0⟩ (.advanceEpochSafeMode (computationOnly 1 10 10)) = .ok l ∧
      ∃ l', exec (fun _ => true) l (.advanceEpoch (computationOnly 2 20 10)) = .ok l' ∧
        l'.state.safeModeComputationChargesBurned = 10 ∧
        exec (fun _ => true) l' (.advanceEpoch (computationOnly 3 0 0)) = .error .underflow := by
    decide +kernel
  have hsf : Permitted ⟨s,0,0⟩ (.advanceEpochSafeMode (computationOnly 1 10 10)) :=
    show 10 ≤ 10 by omega
  exact ⟨l,l',.step (.init (initial_soleGenesis hs)) hsf h,h',ha⟩

end Ledger
end Iota.System
