import Iota.System.Stake
import Iota.System.SystemState

/-! Requests change one validator in its place. Most keep its metadata, its voting power and the
status of its pool; updates of the metadata keep everything but the metadata. -/
namespace Iota.System
open Except List Move

/-- The part of a validator that decides about its place in the set and its rights. -/
structure Standing where
  metadata : ValidatorMetadata
  votingPower : Nat
  poolId : Nat
  activationEpoch : Option Nat
  deactivationEpoch : Option Nat

variable {staked : StakedIota}
namespace Validator

def standing (v : Validator) : Standing :=
  ⟨v.metadata,v.votingPower,v.stakingPool.id,v.stakingPool.activationEpoch,
    v.stakingPool.deactivationEpoch⟩

/-- The standing with the exchange rates, which only an epoch change extends. -/
def profile (v : Validator) : Standing × Std.ExtTreeMap Nat PoolTokenExchangeRate :=
  (v.standing,v.stakingPool.exchangeRates)

def seat (v : Validator) :
    Nat × Nat × Nat × Option Nat × Option Nat × Std.ExtTreeMap Nat PoolTokenExchangeRate :=
  (v.iotaAddress,v.votingPower,v.stakingPool.id,v.stakingPool.activationEpoch,
    v.stakingPool.deactivationEpoch,v.stakingPool.exchangeRates)

variable {v v' : Validator}

theorem profile_eq (hm : v'.metadata = v.metadata) (hp : v'.votingPower = v.votingPower)
    (hs : v.stakingPool.SameRates v'.stakingPool) : v'.profile = v.profile := by
  simp only [profile,standing,hm,hp,hs.id,hs.activation,hs.deactivation,hs.rates]

theorem requestAddStake_profile {stake epoch : Nat}
    (h : v.requestAddStake stake epoch = .ok (v',staked)) : v'.profile = v.profile := by
  obtain ⟨-,-,-,hp⟩ := requestAddStake_cases h
  have hs : v.stakingPool.SameRates v'.stakingPool := by
    split at hp
    · rw [hp]
      exact ⟨rfl,rfl,rfl,rfl⟩
    · rw [hp]
      exact ⟨rfl,rfl,rfl,rfl⟩
  iterate 2 obtain ⟨_,h⟩ := ok_of_bind h
  obtain ⟨⟨_,_⟩,-,h⟩ := of_bind h
  iterate 2 obtain ⟨_,h⟩ := ok_of_bind h
  cases h
  exact profile_eq rfl rfl hs

theorem requestWithdrawStake_profile {epoch amount : Nat}
    (h : v.requestWithdrawStake staked epoch = .ok (v',amount)) : v'.profile = v.profile := by
  have hs := requestWithdrawStake_sameRates h
  obtain ⟨⟨_,_⟩,-,h⟩ := of_bind h
  iterate 3 obtain ⟨_,h⟩ := ok_of_bind h
  cases h
  exact profile_eq rfl rfl hs

theorem requestSetCommissionRate_profile {rate : Nat}
    (h : v.requestSetCommissionRate rate = .ok v') : v'.profile = v.profile := by
  obtain ⟨_,h⟩ := ok_of_bind h
  cases h
  rfl

theorem setCandidateCommissionRate_profile {rate : Nat}
    (h : v.setCandidateCommissionRate rate = .ok v') : v'.profile = v.profile := by
  iterate 2 obtain ⟨_,h⟩ := ok_of_bind h
  cases h
  rfl

theorem newOperationCap_profile {sender newId : Nat}
    (h : v.newOperationCap sender newId = .ok v') : v'.profile = v.profile := by
  obtain ⟨_,h⟩ := ok_of_bind h
  cases h
  rfl

theorem update_seat {validateMetadata : ValidatorMetadata → Bool} {u : MetadataUpdate}
    (h : v.update validateMetadata u = .ok v') : v'.seat = v.seat := by
  rw [update_eq_ok h]
  simp only [seat,iotaAddress,MetadataUpdate.apply_iotaAddress]

theorem depositStakeRewards_profile {reward : Nat} (h : v.depositStakeRewards reward = .ok v') :
    v'.profile = v.profile := by
  obtain ⟨_,h⟩ := ok_of_bind h
  obtain ⟨_,hp,h⟩ := of_bind h
  iterate 2 obtain ⟨_,hp⟩ := ok_of_bind hp
  cases hp
  cases h
  rfl

theorem processPendingStakesAndWithdraws_standing {epoch : Nat}
    (h : v.processPendingStakesAndWithdraws epoch = .ok v') : v'.standing = v.standing := by
  obtain ⟨pool,hp,h⟩ := of_bind h
  obtain ⟨_,h⟩ := ok_of_bind h
  cases h
  obtain ⟨_,hp⟩ := ok_of_bind hp
  obtain ⟨p1,h1,hp⟩ := of_bind hp
  obtain ⟨p2,h2,hp⟩ := of_bind hp
  obtain ⟨p3,h3,hp⟩ := of_bind hp
  obtain ⟨_,hp⟩ := ok_of_bind hp
  cases hp
  iterate 2 obtain ⟨_,h1⟩ := ok_of_bind h1
  cases h1
  iterate 2 obtain ⟨_,h2⟩ := ok_of_bind h2
  cases h2
  unfold StakingPool.addExchangeRate at h3
  split at h3
  · cases h3
  · cases h3
    rfl

end Validator
section Lists
variable {α β : Type} {g : Validator → β} {validators validators' : List Validator} {address : Nat}

theorem map_set_of_eq {i : Nat} {v w : Validator} (hv : validators[i]? = some v)
    (hg : g w = g v) : (validators.set i w).map g = validators.map g := by
  apply ext_getElem?
  intro j
  rw [List.getElem?_map,List.getElem?_map,List.getElem?_set]
  split
  · next hij =>
    have hi := (List.getElem?_eq_some_iff.mp hv).1
    rw [← hij,hv,if_pos hi,Option.map_some,Option.map_some,hg]
  · rfl

theorem findValidator_eq_some {i : Nat} (h : findValidator validators address = some i) :
    ∃ v, validators[i]? = some v ∧ v.iotaAddress = address := by
  obtain ⟨hi,hv,-⟩ := List.findIdx?_eq_some_iff_getElem.mp h
  exact ⟨validators[i],List.getElem?_eq_getElem hi,by simpa using hv⟩

theorem getValidatorMut_cases {f : Validator → Tx (Validator × α)} {result : α}
    (h : getValidatorMut validators address f = .ok (validators',result)) :
    ∃ i v v', findValidator validators address = some i ∧ validators[i]? = some v ∧
      f v = .ok (v',result) ∧ validators' = validators.set i v' := by
  unfold getValidatorMut at h
  split at h
  · cases h
  · next i hi =>
    simp only [bind_eq_ok] at h
    obtain ⟨v,hv,⟨v',r⟩,hf,_,hs,h⟩ := h
    obtain ⟨-,rfl⟩ := set_eq_ok.mp hs
    cases h
    exact ⟨i,v,v',hi,get_eq_ok.mp hv,hf,rfl⟩

theorem getValidatorMut_map {f : Validator → Tx (Validator × α)} {result : α}
    (hf : ∀ v v' r, f v = .ok (v',r) → g v' = g v)
    (h : getValidatorMut validators address f = .ok (validators',result)) :
    validators'.map g = validators.map g := by
  obtain ⟨i,v,v',-,hv,hr,rfl⟩ := getValidatorMut_cases h
  exact map_set_of_eq hv (hf v v' result hr)

end Lists
namespace ValidatorSet
variable {α β γ : Type} {g : Validator → β} {s s' : ValidatorSet} {address : Nat}

/-- Two sets that differ at most in what `g` does not see of their validators. -/
structure SameView (g : Validator → β) (s s' : ValidatorSet) : Prop where
  active : s'.activeValidators.map g = s.activeValidators.map g
  pending : s'.pendingActiveValidators.map g = s.pendingActiveValidators.map g
  candidates (a : Nat) : s'.validatorCandidates[a]?.map g = s.validatorCandidates[a]?.map g
  inactive (id : Nat) : s'.inactiveValidators[id]?.map g = s.inactiveValidators[id]?.map g
  committee : s'.committeeMembers = s.committeeMembers
  removals : s'.pendingRemovals = s.pendingRemovals
  mappings : s'.stakingPoolMappings = s.stakingPoolMappings
  atRisk : s'.atRiskValidators = s.atRiskValidators

namespace SameView

protected theorem refl (s : ValidatorSet) : SameView g s s :=
  ⟨rfl,rfl,fun _ => rfl,fun _ => rfl,rfl,rfl,rfl,rfl⟩

theorem comp (h : SameView g s s') (f : β → γ) : SameView (f ∘ g) s s' where
  active := by rw [← map_map,h.active,map_map]
  pending := by rw [← map_map,h.pending,map_map]
  candidates a := by rw [← Option.map_map,h.candidates,Option.map_map]
  inactive id := by rw [← Option.map_map,h.inactive,Option.map_map]
  committee := h.committee
  removals := h.removals
  mappings := h.mappings
  atRisk := h.atRisk

theorem of_active {activeValidators : List Validator}
    (h : activeValidators.map g = s.activeValidators.map g) :
    SameView g s { s with activeValidators } :=
  ⟨h,rfl,fun _ => rfl,fun _ => rfl,rfl,rfl,rfl,rfl⟩

theorem of_pending {pendingActiveValidators : List Validator}
    (h : pendingActiveValidators.map g = s.pendingActiveValidators.map g) :
    SameView g s { s with pendingActiveValidators } :=
  ⟨rfl,h,fun _ => rfl,fun _ => rfl,rfl,rfl,rfl,rfl⟩

variable {v w : Validator}

theorem map_insert_of_eq {table : Std.ExtTreeMap Nat Validator} {k : Nat}
    (hv : table[k]? = some v) (hg : g w = g v) (a : Nat) :
    (table.insert k w)[a]?.map g = table[a]?.map g := by
  rw [Std.ExtTreeMap.getElem?_insert_eq]
  split
  · next hk => rw [← hk,hv,Option.map_some,Option.map_some,hg]
  · rfl

theorem of_candidates {k : Nat} (hv : s.validatorCandidates[k]? = some v) (hg : g w = g v) :
    SameView g s { s with validatorCandidates := s.validatorCandidates.insert k w } :=
  ⟨rfl,rfl,map_insert_of_eq hv hg,fun _ => rfl,rfl,rfl,rfl,rfl⟩

theorem of_inactive {k : Nat} (hv : s.inactiveValidators[k]? = some v) (hg : g w = g v) :
    SameView g s { s with inactiveValidators := s.inactiveValidators.insert k w } :=
  ⟨rfl,rfl,fun _ => rfl,map_insert_of_eq hv hg,rfl,rfl,rfl,rfl⟩

end SameView

theorem getCandidateOrActiveValidatorMut_sameView {f : Validator → Tx (Validator × α)} {result : α}
    (hf : ∀ v v' r, f v = .ok (v',r) → g v' = g v)
    (h : s.getCandidateOrActiveValidatorMut address f = .ok (s',result)) : SameView g s s' := by
  unfold getCandidateOrActiveValidatorMut at h
  split at h
  · next v hv =>
    obtain ⟨⟨v',r⟩,hr,h⟩ := of_bind h
    cases h
    exact .of_candidates hv (hf v v' _ hr)
  obtain ⟨⟨active,r⟩,hr,h⟩ := of_bind h
  cases h
  exact .of_active (getValidatorMut_map hf hr)

theorem getActiveOrPendingOrCandidateValidatorMut_cases {includeCandidate : Bool}
    {f : Validator → Tx Validator} {v' : Validator}
    (h : s.getActiveOrPendingOrCandidateValidatorMut address includeCandidate f = .ok (s',v')) :
    (∃ i v, s.activeValidators[i]? = some v ∧ v.iotaAddress = address ∧ f v = .ok v' ∧
      s' = { s with activeValidators := s.activeValidators.set i v' }) ∨
    (∃ i v, s.pendingActiveValidators[i]? = some v ∧ v.iotaAddress = address ∧ f v = .ok v' ∧
      s' = { s with pendingActiveValidators := s.pendingActiveValidators.set i v' }) ∨
    (includeCandidate = true ∧ ∃ v, s.validatorCandidates[address]? = some v ∧ f v = .ok v' ∧
      s' = { s with validatorCandidates := s.validatorCandidates.insert address v' }) := by
  unfold getActiveOrPendingOrCandidateValidatorMut at h
  split at h
  · next i hi =>
    obtain ⟨w,hw,ha⟩ := findValidator_eq_some hi
    simp only [bind_eq_ok] at h
    obtain ⟨v,hv,_,hf,_,hs,h⟩ := h
    obtain ⟨-,rfl⟩ := set_eq_ok.mp hs
    cases h
    obtain rfl : w = v := Option.some.inj (hw.symm.trans (get_eq_ok.mp hv))
    exact .inl ⟨i,w,hw,ha,hf,rfl⟩
  split at h
  · next i hi =>
    obtain ⟨w,hw,ha⟩ := findValidator_eq_some hi
    simp only [bind_eq_ok] at h
    obtain ⟨v,hv,_,hf,_,hs,h⟩ := h
    obtain ⟨-,rfl⟩ := set_eq_ok.mp hs
    cases h
    obtain rfl : w = v := Option.some.inj (hw.symm.trans (get_eq_ok.mp hv))
    exact .inr (.inl ⟨i,w,hw,ha,hf,rfl⟩)
  obtain ⟨_,hin,h⟩ := of_bind h
  split at h
  · cases h
  · next v hv =>
    obtain ⟨_,hf,h⟩ := of_bind h
    cases h
    exact .inr (.inr ⟨assert_eq_ok.mp hin,v,hv,hf,rfl⟩)

theorem getActiveOrPendingOrCandidateValidatorMut_sameView {includeCandidate : Bool}
    {f : Validator → Tx Validator} {v' : Validator} (hf : ∀ v v', f v = .ok v' → g v' = g v)
    (h : s.getActiveOrPendingOrCandidateValidatorMut address includeCandidate f = .ok (s',v')) :
    SameView g s s' := by
  rcases getActiveOrPendingOrCandidateValidatorMut_cases h with
    ⟨i,v,hv,-,hr,rfl⟩ | ⟨i,v,hv,-,hr,rfl⟩ | ⟨-,v,hv,hr,rfl⟩
  · exact .of_active (map_set_of_eq hv (hf v v' hr))
  · exact .of_pending (map_set_of_eq hv (hf v v' hr))
  · exact .of_candidates hv (hf v v' hr)

theorem requestWithdrawStake_sameView {epoch amount : Nat}
    (h : s.requestWithdrawStake staked epoch = .ok (s',amount)) :
    SameView Validator.profile s s' := by
  unfold requestWithdrawStake at h
  split at h
  · exact getCandidateOrActiveValidatorMut_sameView
      (fun _ _ _ => Validator.requestWithdrawStake_profile) h
  split at h
  · cases h
  · next v hv =>
    obtain ⟨⟨v',_⟩,hr,h⟩ := of_bind h
    cases h
    exact .of_inactive hv (Validator.requestWithdrawStake_profile hr)

theorem rewardValidator_profile {v v' : Validator} {amount epoch : Nat}
    (h : rewardValidator v amount epoch = .ok v') : v'.profile = v.profile := by
  iterate 2 obtain ⟨_,h⟩ := ok_of_bind h
  obtain ⟨w,hs,h⟩ := of_bind h
  rw [Validator.depositStakeRewards_profile h]
  split at hs
  · obtain ⟨⟨w',_⟩,hr,hs⟩ := of_bind hs
    cases hs
    exact Validator.requestAddStake_profile hr
  · rw [← ok.inj hs]

theorem distributeReward_profile {validators validators' : List Validator} {members amounts : List Nat}
    {rewards leftover epoch : Nat}
    (h : distributeReward validators members amounts rewards epoch = .ok (validators',leftover)) :
    validators'.map Validator.profile = validators.map Validator.profile := by
  obtain ⟨_,h⟩ := ok_of_bind h
  refine foldlM_keeps (fun r : List Validator × Nat =>
    r.1.map Validator.profile = validators.map Validator.profile) ?_ rfl h
  rintro ⟨i,amount⟩ - ⟨vs,rest⟩ ⟨vs',rest'⟩ hsm hs
  simp only [bind_eq_ok] at hs
  obtain ⟨v,hv,_,-,v',hr,_,hst,hs⟩ := hs
  obtain ⟨-,rfl⟩ := set_eq_ok.mp hst
  cases hs
  exact (map_set_of_eq (get_eq_ok.mp hv) (rewardValidator_profile hr)).trans hsm

theorem settleStakes_cases {rewards leftover epoch : Nat} {records : ReportRecords}
    {params : AdvanceEpochParams}
    (h : s.settleStakes rewards records params epoch = .ok (s',leftover)) :
    ∃ activeValidators, s' = { s with activeValidators } ∧
      activeValidators.map Validator.standing = s.activeValidators.map Validator.standing := by
  iterate 4 obtain ⟨_,h⟩ := ok_of_bind h
  obtain ⟨⟨rewarded,_⟩,hrw,h⟩ := of_bind h
  obtain ⟨processed,hp,h⟩ := of_bind h
  cases h
  refine ⟨processed,rfl,?_⟩
  have hr := congrArg (List.map Prod.fst) (distributeReward_profile hrw)
  rw [map_map,map_map] at hr
  calc processed.map Validator.standing
      = (rewarded.map Validator.adjustNextEpochCommissionRate).map Validator.standing :=
        map_eq_of_mapM (fun _ _ => Validator.processPendingStakesAndWithdraws_standing) hp
    _ = rewarded.map (Prod.fst ∘ Validator.profile) := by
        rw [map_map]
        rfl
    _ = s.activeValidators.map Validator.standing := hr

end ValidatorSet
namespace SystemState
variable {validateMetadata : ValidatorMetadata → Bool} {s s' : SystemState}

/-- The requests that keep the profile of every validator: all but those that create or move a
validator or update its metadata. -/
theorem exec_profile {op : SystemOp} (h : s.exec validateMetadata op = .ok s')
    (hop : match op with
      | .requestSetCommissionRate _ _ | .setCandidateCommissionRate _ _ | .requestAddStake _ _
      | .requestWithdrawStake _ | .reportValidator _ _ _ | .undoReportValidator _ _ _
      | .rotateOperationCap _ | .advanceEpochSafeMode _ => True
      | _ => False) :
    ValidatorSet.SameView Validator.profile s.validators s'.validators ∧
      s'.poolIds = s.poolIds := by
  cases op with
  | requestSetCommissionRate sender rate =>
    obtain ⟨validators,hr,h⟩ := of_bind h
    cases h
    obtain ⟨⟨active,_⟩,hm,hr⟩ := of_bind hr
    cases hr
    refine ⟨.of_active (getValidatorMut_map (fun v v' _ hv => ?_) hm),rfl⟩
    obtain ⟨_,hrt,hv⟩ := of_bind hv
    cases hv
    exact Validator.requestSetCommissionRate_profile hrt
  | setCandidateCommissionRate sender rate =>
    obtain ⟨⟨validators,_⟩,hr,h⟩ := of_bind h
    cases h
    exact ⟨ValidatorSet.getActiveOrPendingOrCandidateValidatorMut_sameView
      (fun _ _ => Validator.setCandidateCommissionRate_profile) hr,rfl⟩
  | requestAddStake address amount =>
    obtain ⟨⟨validators,_⟩,hr,h⟩ := of_bind h
    cases h
    obtain ⟨_,hr⟩ := ok_of_bind hr
    exact ⟨ValidatorSet.getCandidateOrActiveValidatorMut_sameView
      (fun _ _ _ => Validator.requestAddStake_profile) hr,rfl⟩
  | requestWithdrawStake staked =>
    obtain ⟨⟨validators,_⟩,hr,h⟩ := of_bind h
    cases h
    exact ⟨ValidatorSet.requestWithdrawStake_sameView hr,rfl⟩
  | reportValidator capId capAddress reportee =>
    iterate 3 obtain ⟨_,h⟩ := ok_of_bind h
    cases h
    exact ⟨.refl _,rfl⟩
  | undoReportValidator capId capAddress reportee =>
    iterate 2 obtain ⟨_,h⟩ := ok_of_bind h
    cases h
    exact ⟨.refl _,rfl⟩
  | rotateOperationCap sender =>
    obtain ⟨⟨validators,_⟩,hr,h⟩ := of_bind h
    cases h
    exact ⟨ValidatorSet.getActiveOrPendingOrCandidateValidatorMut_sameView
      (fun _ _ => Validator.newOperationCap_profile) hr,rfl⟩
  | advanceEpochSafeMode params =>
    iterate 5 obtain ⟨_,h⟩ := ok_of_bind h
    cases h
    exact ⟨.refl _,rfl⟩
  | _ => exact hop.elim

end SystemState
end Iota.System
