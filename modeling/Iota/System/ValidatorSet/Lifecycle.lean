import Iota.System.ValidatorSet.Epoch

/-! Every staking pool has one place at any time, and an epoch change makes the pending validators
join and those leave that asked for it or have little stake. The stakes that leave are taken from
the total stake of the previous epoch, although they have grown since: an epoch change aborts when
more leaves than there was. -/
namespace Iota.System
open Except List Move SystemState Validator
variable {params : AdvanceEpochParams} {committee : List Nat} {records : ReportRecords}
namespace ValidatorSet
variable {s t : ValidatorSet} {pools : Nat}

theorem rewardValidator_nextEpochStake {v v' : Validator} {amount epoch : Nat}
    (h : rewardValidator v amount epoch = .ok v') :
    v'.nextEpochStake = v.nextEpochStake + amount := by
  obtain ⟨reward,h⟩ := ok_of_bind h
  obtain ⟨rest,hsp,h⟩ := of_bind h
  obtain ⟨w,hs,h⟩ := of_bind h
  obtain ⟨_,hsp⟩ := ok_of_bind hsp
  obtain ⟨hle,rfl⟩ := sub_eq_ok.mp hsp
  have hw : w.nextEpochStake = v.nextEpochStake + reward := by
    split at hs
    · obtain ⟨⟨w',_⟩,hr,hs⟩ := of_bind hs
      cases hs
      iterate 2 obtain ⟨_,hr⟩ := ok_of_bind hr
      obtain ⟨⟨_,_⟩,-,hr⟩ := of_bind hr
      obtain ⟨_,hr⟩ := ok_of_bind hr
      obtain ⟨_,ha,hr⟩ := of_bind hr
      cases hr
      exact (add_eq_ok.mp ha).2.symm
    · cases hs
      omega
  obtain ⟨_,ha,h⟩ := of_bind h
  obtain ⟨_,h⟩ := ok_of_bind h
  cases h
  obtain ⟨-,rfl⟩ := add_eq_ok.mp ha
  simp only [hw]
  omega

/-- Stakes at the end of an epoch are those announced for the next one with the rewards. -/
structure Grown (before after : List Nat) (rewards : Nat) : Prop where
  le : List.Forall₂ (· ≤ ·) before after
  sum : after.sum ≤ before.sum + rewards

theorem Grown.set {before after : List Nat} {rewards i x amount : Nat}
    (h : Grown before after rewards) (hx : after[i]? = some x) :
    Grown before (after.set i (x + amount)) (rewards + amount) := by
  obtain ⟨hle,hs⟩ := h
  suffices hst : List.Forall₂ (· ≤ ·) before (after.set i (x + amount)) ∧
      (after.set i (x + amount)).sum = after.sum + amount by
    exact ⟨hst.1,by omega⟩
  clear hs
  induction hle generalizing i with
  | nil => cases hx
  | cons hab hle ih =>
    cases i with
    | zero =>
      cases hx
      refine ⟨.cons (hab.trans (Nat.le_add_right _ _)) hle,?_⟩
      rw [set_cons_zero,sum_cons,sum_cons]
      omega
    | succ i =>
      obtain ⟨hle',hs⟩ := ih hx
      refine ⟨.cons hab hle',?_⟩
      rw [set_cons_succ,sum_cons,sum_cons,hs]
      omega

theorem distributeReward_grown {validators validators' : List Validator} {members amounts : List Nat}
    {rewards leftover epoch : Nat}
    (h : distributeReward validators members amounts rewards epoch = .ok (validators',leftover)) :
    Grown (validators.map nextEpochStake) (validators'.map nextEpochStake)
      rewards := by
  obtain ⟨_,h⟩ := ok_of_bind h
  have hg : ∃ given, given + leftover = rewards ∧
      Grown (validators.map nextEpochStake) (validators'.map nextEpochStake) given := by
    refine foldlM_keeps (fun r : List Validator × Nat => ∃ given, given + r.2 = rewards ∧
      Grown (validators.map nextEpochStake) (r.1.map nextEpochStake) given)
      ?_ ⟨0,Nat.zero_add _,forall₂_same.mpr fun _ _ => Nat.le_refl _,Nat.le_refl _⟩ h
    rintro ⟨i,amount⟩ - ⟨vs,rest⟩ ⟨vs',rest'⟩ ⟨given,hgv,hg⟩ hs
    simp only [bind_eq_ok] at hs
    obtain ⟨v,hv,_,hsp,v',hr,_,hst,hs⟩ := hs
    obtain ⟨-,rfl⟩ := set_eq_ok.mp hst
    cases hs
    obtain ⟨_,hsp⟩ := ok_of_bind hsp
    obtain ⟨hle,rfl⟩ := sub_eq_ok.mp hsp
    have hn := congrArg (Option.map nextEpochStake) (get_eq_ok.mp hv)
    rw [← List.getElem?_map] at hn
    refine ⟨given + amount,by simp only at hgv ⊢; omega,?_⟩
    rw [map_set,rewardValidator_nextEpochStake hr]
    exact hg.set hn
  obtain ⟨given,hgv,hle,hsm⟩ := hg
  exact ⟨hle,by omega⟩

theorem settleStakes_grown {rewards leftover epoch : Nat}
    (h : s.settleStakes rewards records params epoch = .ok (t,leftover)) :
    Grown (s.activeValidators.map nextEpochStake)
      (t.activeValidators.map Validator.totalStake) rewards := by
  iterate 4 obtain ⟨_,h⟩ := ok_of_bind h
  obtain ⟨⟨rewarded,_⟩,hrw,h⟩ := of_bind h
  obtain ⟨processed,hp,h⟩ := of_bind h
  cases h
  have hs : processed.map Validator.totalStake = rewarded.map Validator.nextEpochStake := by
    refine (map_eq_of_mapM (k := nextEpochStake) (fun v v' hr => ?_) hp).trans ?_
    · obtain ⟨_,hr⟩ := ok_of_bind hr
      obtain ⟨_,ha,hr⟩ := of_bind hr
      cases hr
      exact assert_eq_ok.mp ha
    · rw [map_map]
      rfl
  rw [hs]
  exact distributeReward_grown hrw

/-- The validator may leave at the next epoch change, by what is known before it. -/
def mayLeave (parameters : SystemParameters) (s : ValidatorSet) (v : Validator) : Bool :=
  (addressesAt s.activeValidators s.committeeMembers).contains v.iotaAddress &&
    ((addressesAt s.activeValidators s.pendingRemovals).contains v.iotaAddress ||
      v.nextEpochStake < parameters.validatorLowStakeThreshold)

/-- The stakes that committee members may take with them at the next epoch change, with all of its
rewards, are in the total stake. -/
def Covers (parameters : SystemParameters) (rewards : Nat) (s : ValidatorSet) : Prop :=
  ((s.activeValidators.filter (mayLeave parameters s)).map nextEpochStake).sum + rewards ≤
    s.totalStake

theorem committeeValidatorAddresses_eq (h : t.committeeValidatorAddresses = .ok committee) :
    committee = addressesAt t.activeValidators t.committeeMembers := by
  obtain ⟨members,ht,h⟩ := of_bind h
  rw [← ok.inj h]
  clear h
  unfold VotingPower.take at ht
  generalize t.committeeMembers = indices at ht
  induction indices generalizing members with
  | nil =>
    cases ht
    rfl
  | cons i indices ih =>
    rw [mapM_cons] at ht
    obtain ⟨v,hv,ht⟩ := of_bind ht
    obtain ⟨rest,hr,ht⟩ := of_bind ht
    cases ht
    rw [map_cons,ih rest hr,addressesAt,addressesAt,filterMap_cons,get_eq_ok.mp hv]
    rfl

theorem cost_le (committee : List Nat) (v : Validator) : cost committee v ≤ v.totalStake := by
  unfold cost
  split
  · exact Nat.le_refl _
  · exact Nat.zero_le _

theorem sum_selected_le {before after : List Validator} {p q : Validator → Bool}
    (hle : List.Forall₂ (fun w v => w.nextEpochStake ≤ v.totalStake) before after)
    (ha : after.map iotaAddress = before.map iotaAddress)
    (hpq : ∀ w v, v.iotaAddress = w.iotaAddress → w.nextEpochStake ≤ v.totalStake → p v = true →
      committee.contains v.iotaAddress = true → q w = true) :
    ((after.filter p).map (cost committee)).sum + (before.map nextEpochStake).sum ≤
      ((before.filter q).map Validator.nextEpochStake).sum + (after.map Validator.totalStake).sum := by
  induction hle with
  | nil => exact Nat.le_refl _
  | @cons w v before after hwv hle ih =>
    obtain ⟨hs,ha⟩ := List.cons.inj ha
    have ih := ih ha
    have hc := cost_le committee v
    simp only [map_cons,sum_cons]
    by_cases hv : p v = true
    · by_cases hm : committee.contains v.iotaAddress = true
      · rw [filter_cons_of_pos hv,filter_cons_of_pos (hpq w v hs hwv hv hm),
          map_cons,map_cons,sum_cons,sum_cons]
        omega
      have hz : cost committee v = 0 := if_neg hm
      rw [filter_cons_of_pos hv,map_cons,sum_cons,hz,filter_cons]
      split
      · rw [map_cons,sum_cons]
        omega
      · omega
    · rw [filter_cons_of_neg hv,filter_cons]
      split
      · rw [map_cons,sum_cons]
        omega
      · omega

theorem Covers.fits {parameters : SystemParameters} {rewards leftover epoch newEpoch : Nat}
    (h : Covers parameters rewards s) (hpl : WellPlaced pools s)
    (hst : s.settleStakes rewards records params epoch = .ok (t,leftover))
    (hc : t.committeeValidatorAddresses = .ok committee) :
    Fits committee (leavesNext parameters t) (t.join newEpoch) := by
  have hg := settleStakes_grown hst
  obtain ⟨active,rfl,hsn⟩ := settleStakes_cases hst
  have ha : active.map iotaAddress =
      s.activeValidators.map iotaAddress := by
    have := congrArg (List.map fun x : Standing => x.metadata.iotaAddress) hsn
    rwa [map_map,map_map] at this
  have hm := committeeValidatorAddresses_eq hc
  simp only [addressesAt_congr ha] at hm
  have hp : (((s.pendingActiveValidators.reverse.map fun v => v.activated newEpoch).filter
      (leavesNext parameters { s with activeValidators := active })).map (cost committee)).sum = 0 := by
    rw [sum_eq_zero_iff]
    intro x hx
    obtain ⟨_,hf,rfl⟩ := mem_map.mp hx
    obtain ⟨v,hv,rfl⟩ := mem_map.mp (mem_filter.mp hf).1
    refine if_neg fun hcn => ?_
    have hmm : v.iotaAddress ∈ addressesAt s.activeValidators s.committeeMembers := by
      rw [← hm]
      exact contains_iff_mem.mp hcn
    obtain ⟨i,-,w,hw,heq⟩ := mem_addressesAt.mp hmm
    have hd := hpl.distinct
    rw [map_append,nodup_append] at hd
    exact hd.2.2 _ (mem_map_of_mem (mem_of_getElem? hw)) _ (mem_map_of_mem (mem_reverse.mp hv)) heq
  have hmy : ∀ w v : Validator, v.iotaAddress = w.iotaAddress → w.nextEpochStake ≤ v.totalStake →
      leavesNext parameters { s with activeValidators := active } v = true →
      committee.contains v.iotaAddress = true → mayLeave parameters s w = true := by
    intro w v hs hle hl hmb
    rw [hs,hm] at hmb
    simp only [leavesNext,addressesAt_congr ha,hs,Bool.or_eq_true] at hl
    rw [mayLeave,hmb,Bool.true_and,Bool.or_eq_true]
    refine hl.imp_right fun hlw => ?_
    simp only [lowStakeLeaves,Bool.and_eq_true,decide_eq_true_eq] at hlw ⊢
    omega
  have hsl := sum_selected_le (forall₂_map_left_iff.mp (forall₂_map_right_iff.mp hg.le)) ha hmy
  have hsm := hg.sum
  unfold Covers at h
  rw [Fits,ValidatorSet.join,filter_append,map_append,sum_append,hp]
  dsimp only at hsm hsl ⊢
  omega

end ValidatorSet

def Validator.identity (v : Validator) : Nat × Nat := (v.stakingPoolId,v.iotaAddress)

/-- A system state with the addresses that asked to join and to leave since the last epoch change
that succeeded. -/
structure History where
  state : SystemState
  joined : List Nat
  left : List Nat

namespace History
variable (validateMetadata : ValidatorMetadata → Bool)

def exec (h : History) (op : SystemOp) : Tx History := do
  let state ← h.state.exec validateMetadata op
  .ok (match op with
    | .requestAddValidator sender => { h with state, joined := h.joined ++ [sender] }
    | .requestRemoveValidator sender => { h with state, left := h.left ++ [sender] }
    | .advanceEpoch _ => ⟨state,[],[]⟩
    | _ => { h with state })

def Initial (h : History) : Prop :=
  h.state.Initial validateMetadata ∧ h.joined = [] ∧ h.left = []

def Permitted (h : History) : SystemOp → Prop
  | .advanceEpochSafeMode params => h.state.epoch ≤ params.epoch
  | _ => True

structure Tracked (h : History) : Prop where
  placed : h.state.validators.WellPlaced h.state.poolIds
  joined : h.state.validators.pendingActiveValidators.map iotaAddress = h.joined
  left : ValidatorSet.addressesAt h.state.validators.activeValidators
    h.state.validators.pendingRemovals = h.left
  atRisk : ∀ e ∈ h.state.validators.atRiskValidators.contents, e.2 ≤ h.state.epoch

variable {validateMetadata} {h h' : History}

theorem tracked_initial (hi : Initial validateMetadata h) : Tracked h := by
  obtain ⟨hst,hj,hl⟩ := hi
  have hp := wellPlaced_initial hst
  obtain ⟨specs,allocations,parameters,supply,version,timestamp,hg⟩ := hst
  obtain ⟨_,_,_,-,-,-,hn,-,-,-⟩ := genesis_cases hg
  iterate 3 obtain ⟨_,hn⟩ := ok_of_bind hn
  have hv := (ok.inj hn).symm
  refine ⟨hp,?_,?_,?_⟩
  · rw [hv,hj]
    rfl
  · rw [hv,hl]
    rfl
  · rw [hv]
    exact forall_mem_nil _

theorem Tracked.of_sameView {state : SystemState} (ht : Tracked h)
    (hp : state.validators.WellPlaced state.poolIds)
    (hv : ValidatorSet.SameView iotaAddress h.state.validators state.validators)
    (hep : h.state.epoch ≤ state.epoch) : Tracked { h with state } := by
  refine ⟨hp,hv.pending.trans ht.joined,?_,fun e he => ?_⟩
  · simp only [hv.removals]
    rw [ValidatorSet.addressesAt_congr hv.active]
    exact ht.left
  · simp only [hv.atRisk] at he
    exact (ht.atRisk e he).trans hep

theorem addressesAt_append (validators : List Validator) (indices : List Nat) {i : Nat}
    {v : Validator} (hv : validators[i]? = some v) :
    ValidatorSet.addressesAt validators (indices ++ [i]) =
      ValidatorSet.addressesAt validators indices ++ [v.iotaAddress] := by
  simp [ValidatorSet.addressesAt,filterMap_append,hv]

theorem Tracked.advanceEpoch {state : SystemState} (ht : Tracked h)
    (hpl : state.validators.WellPlaced state.poolIds)
    (hrn : h.state.advanceEpoch params = .ok state) : Tracked ⟨state,[],[]⟩ := by
  obtain ⟨leftover,ha,he,-,-⟩ := advanceEpoch_cases hrn
  obtain ⟨t,committee,-,u,members,totalStake,powers,-,hs,-,-,hc,-,-,-,
    hvalidators⟩ := ValidatorSet.advanceEpoch_cases ha
  have hr : ∀ e ∈ t.atRiskValidators.contents, e.2 ≤ h.state.epoch := by
    obtain ⟨_,rfl,-⟩ := ValidatorSet.settleStakes_cases hs
    exact ht.atRisk
  obtain ⟨⟨gone,hd⟩,-,hcn⟩ := (ValidatorSet.changeMembers_satisfies _ _ committee _
    (ht.placed.settleStakes hs) hr).of_ok hc
  have hp : u.pendingActiveValidators = [] := hd.pending
  have hrm : u.pendingRemovals = [] := hd.removals
  refine ⟨hpl,?_,?_,?_⟩
  · rw [hvalidators,hp]
    rfl
  · rw [hvalidators,hrm]
    rfl
  · rw [hvalidators,he]
    exact hcn

theorem Tracked.exec {op : SystemOp} (ht : Tracked h) (hpr : Permitted h op)
    (hrn : h.exec validateMetadata op = .ok h') : Tracked h' := by
  obtain ⟨state,hst,hrn⟩ := of_bind hrn
  have hp := wellPlaced_exec ht.placed hst
  have hrq (hop : op.isRequest = true) : state.epoch = h.state.epoch := by
    obtain ⟨_,_,_,_,rfl⟩ := exec_request hop hst
    rfl
  cases hrn
  cases op with
  | requestAddValidatorCandidate sender params =>
    obtain ⟨v,hst⟩ := ok_of_bind hst
    obtain ⟨validators,ha,hst⟩ := of_bind hst
    cases hst
    obtain ⟨-,rfl⟩ := ValidatorSet.requestAddValidatorCandidate_cases ha
    exact ⟨hp,ht.joined,ht.left,ht.atRisk⟩
  | requestRemoveValidatorCandidate sender =>
    obtain ⟨validators,hr,hst⟩ := of_bind hst
    cases hst
    obtain ⟨_,-,-,rfl⟩ := ValidatorSet.requestRemoveValidatorCandidate_cases hr
    exact ⟨hp,ht.joined,ht.left,ht.atRisk⟩
  | requestAddValidator sender =>
    iterate 2 obtain ⟨_,hst⟩ := ok_of_bind hst
    obtain ⟨validators,ha,hst⟩ := of_bind hst
    cases hst
    obtain ⟨v,candidates,hv,-,rfl⟩ := ValidatorSet.requestAddValidator_cases ha
    refine ⟨hp,?_,ht.left,ht.atRisk⟩
    rw [map_append,ht.joined,map_singleton,(ht.placed.candidate _ _ hv).1]
  | requestRemoveValidator sender =>
    obtain ⟨_,hst⟩ := ok_of_bind hst
    obtain ⟨validators,hr,hst⟩ := of_bind hst
    cases hst
    obtain ⟨i,v,hv,rfl,-,rfl⟩ := ValidatorSet.requestRemoveValidator_cases hr
    refine ⟨hp,ht.joined,?_,ht.atRisk⟩
    rw [addressesAt_append _ _ hv,ht.left]
  | updateMetadata sender update =>
    have he := hrq rfl
    obtain ⟨⟨validators,_⟩,hm,hst⟩ := of_bind hst
    obtain ⟨_,hst⟩ := ok_of_bind hst
    cases hst
    have hvw := ValidatorSet.getActiveOrPendingOrCandidateValidatorMut_sameView
      (fun _ _ => update_seat) hm
    exact ht.of_sameView hp (hvw.comp Prod.fst) he.ge
  | advanceEpoch params => exact ht.advanceEpoch hp hst
  | advanceEpochSafeMode params =>
    have hvw := (exec_profile hst trivial).1
    refine ht.of_sameView hp (hvw.comp fun x => x.1.metadata.iotaAddress) ?_
    iterate 5 obtain ⟨_,hst⟩ := ok_of_bind hst
    cases hst
    exact hpr
  | _ =>
    have hvw := (exec_profile hst trivial).1
    exact ht.of_sameView hp (hvw.comp fun x => x.1.metadata.iotaAddress) (hrq rfl).ge

/-- The active validators of the next epoch when the stakes are settled as in `t`: the active and the
pending ones without those that asked to leave and those with little stake. -/
def nextActive (h : History) (t : ValidatorSet) : List (Nat × Nat) :=
  ((t.activeValidators ++ t.pendingActiveValidators.reverse).filter fun v =>
    !(h.left.contains v.iotaAddress ||
      ValidatorSet.lowStakeLeaves h.state.parameters t.atRiskValidators v)).map identity

/-- The members of the set with settled stakes `t` change to those of the next epoch. -/
def MembersExact (h : History) (t : ValidatorSet) (committee : List Nat) : Prop :=
  ∃ u records, t.changeMembers h.state.parameters h.state.validatorReportRecords committee
      (h.state.epoch+1) = .ok (u,records) ∧
    u.activeValidators.map identity = nextActive h t

theorem filter_join_identity (t : ValidatorSet) (newEpoch : Nat) (p : Validator → Bool)
    (hp : ∀ v : Validator, p (v.activated newEpoch) = p v) :
    ((t.join newEpoch).activeValidators.filter p).map identity =
      ((t.activeValidators ++ t.pendingActiveValidators.reverse).filter p).map identity := by
  have hc : p ∘ (fun v : Validator => v.activated newEpoch) = p := funext hp
  simp only [ValidatorSet.join,filter_append,map_append,filter_map,hc,map_map]
  rfl

variable {rewards leftover : Nat}

theorem Tracked.leavesNext {t : ValidatorSet} (ht : Tracked h)
    (hs : h.state.validators.settleStakes rewards h.state.validatorReportRecords params
      h.state.epoch = .ok (t,leftover)) (v : Validator) :
    ValidatorSet.leavesNext h.state.parameters t v = (h.left.contains v.iotaAddress ||
      ValidatorSet.lowStakeLeaves h.state.parameters t.atRiskValidators v) := by
  obtain ⟨active,rfl,hst⟩ := ValidatorSet.settleStakes_cases hs
  have ha : active.map iotaAddress =
      h.state.validators.activeValidators.map iotaAddress := by
    have := congrArg (List.map fun x : Standing => x.metadata.iotaAddress) hst
    rwa [map_map,map_map] at this
  simp only [ValidatorSet.leavesNext,ValidatorSet.addressesAt_congr ha,ht.left]

theorem Tracked.nextActive {t u : ValidatorSet} (ht : Tracked h)
    (hs : h.state.validators.settleStakes rewards h.state.validatorReportRecords params
      h.state.epoch = .ok (t,leftover))
    (hc : t.changeMembers h.state.parameters h.state.validatorReportRecords committee
      (h.state.epoch+1) = .ok (u,records)) : u.activeValidators.map identity = h.nextActive t := by
  obtain ⟨bound,hb⟩ := ValidatorSet.exists_bound t.atRiskValidators
  obtain ⟨-,ha,-⟩ := (ValidatorSet.changeMembers_satisfies _ _ committee _
    (ht.placed.settleStakes hs) hb).of_ok hc
  rw [show u.activeValidators = _ from ha,filter_join_identity,History.nextActive]
  · simp only [ht.leavesNext hs]
  · intro v
    rfl

theorem tracked_of_reached
    (hr : Machine.Reached (Initial validateMetadata) (exec validateMetadata) Permitted h) :
    Tracked h := by
  induction hr with
  | init hi => exact tracked_initial hi
  | step _ hp hrn ih => exact ih.exec hp hrn

theorem Tracked.changeMembers_ok_iff {t : ValidatorSet} (ht : Tracked h)
    (hlt : h.state.epoch+1 < 2 ^ 64)
    (hs : h.state.validators.settleStakes rewards h.state.validatorReportRecords params
      h.state.epoch = .ok (t,leftover)) :
    (∃ r, t.changeMembers h.state.parameters h.state.validatorReportRecords committee
        (h.state.epoch+1) = .ok r) ↔
      ValidatorSet.Fits committee (ValidatorSet.leavesNext h.state.parameters t)
        (t.join (h.state.epoch+1)) := by
  refine ValidatorSet.changeMembers_ok_iff (ht.placed.settleStakes hs) hlt ?_
  obtain ⟨_,rfl,-⟩ := ValidatorSet.settleStakes_cases hs
  exact ht.atRisk

/-- Every pool is in one place, which the mappings know. At an epoch change the pending validators
join, and those leave that asked for it or have little stake, just when the stakes of the leaving
committee members fit into the total stake, as they do when they are covered before the change. -/
theorem lifecycle_exact
    (hreached : Machine.Reached (Initial validateMetadata) (exec validateMetadata) Permitted h) :
    (h.state.validators.entries.map Entry.poolId).Perm (List.range h.state.poolIds) ∧
    Mapped h.state.validators.stakingPoolMappings h.state.validators.entries ∧
    h.state.validators.pendingActiveValidators.map iotaAddress = h.joined ∧
    (∀ params t leftover committee, h.state.epoch+1 < 2 ^ 64 →
      h.state.validators.settleStakes (h.state.epochRewards params) h.state.validatorReportRecords
        params h.state.epoch = .ok (t,leftover) →
      t.committeeValidatorAddresses = .ok committee →
      (h.MembersExact t committee ↔ ValidatorSet.Fits committee
        (ValidatorSet.leavesNext h.state.parameters t) (t.join (h.state.epoch+1))) ∧
      (ValidatorSet.Covers h.state.parameters (h.state.epochRewards params) h.state.validators →
        h.MembersExact t committee)) ∧
    ∀ params s', h.state.advanceEpoch params = .ok s' → ∃ t leftover,
      h.state.validators.settleStakes (h.state.epochRewards params) h.state.validatorReportRecords
        params h.state.epoch = .ok (t,leftover) ∧
      t.activeValidators.map identity = h.state.validators.activeValidators.map identity ∧
      t.pendingActiveValidators = h.state.validators.pendingActiveValidators ∧
      s'.validators.activeValidators.map identity = h.nextActive t := by
  have ht := tracked_of_reached hreached
  refine ⟨ht.placed.once,ht.placed.mapped,ht.joined,?_,?_⟩
  · intro params t leftover committee hlt hs hcm
    have hf : h.MembersExact t committee ↔ ValidatorSet.Fits committee
        (ValidatorSet.leavesNext h.state.parameters t) (t.join (h.state.epoch+1)) := by
      rw [← ht.changeMembers_ok_iff hlt hs]
      constructor
      · rintro ⟨u,records,hc,-⟩
        exact ⟨_,hc⟩
      · rintro ⟨⟨u,records⟩,hc⟩
        exact ⟨u,records,hc,ht.nextActive hs hc⟩
    exact ⟨hf,fun hcv => hf.mpr (hcv.fits ht.placed hs hcm)⟩
  · intro params s' hr
    obtain ⟨leftover,ha,-,-,-⟩ := advanceEpoch_cases hr
    obtain ⟨t,committee,-,u,members,totalStake,powers,-,hs,-,-,hc,-,-,
      hpowers,hv⟩ := ValidatorSet.advanceEpoch_cases ha
    refine ⟨t,leftover,hs,?_,?_,?_⟩
    · obtain ⟨active,rfl,hst⟩ := ValidatorSet.settleStakes_cases hs
      have := congrArg (List.map fun x : Standing => (x.poolId,x.metadata.iotaAddress)) hst
      rwa [map_map,map_map] at this
    · obtain ⟨active,rfl,-⟩ := ValidatorSet.settleStakes_cases hs
      rfl
    · have hi : identity = (fun x : Nat × Nat × Option Nat => (x.2.1,x.1)) ∘ tag := rfl
      rw [hv,← ht.nextActive hs hc,hi,← map_map,ValidatorSet.tag_of_powers hpowers,map_map]

def fiveGenesis : Tx SystemState :=
  genesis (fun _ => true)
    [(1,.numbered 1),(2,.numbered 2),(3,.numbered 3),(4,.numbered 4),(5,.numbered 5)]
    [(1,5000000000),(2,5000000000),(3,5000000000),(4,5000000000),(5,5000000000)]
    ⟨4,10,2000000000,1500000000,1000000000,7⟩ 100000000000 1 0

def fiveParams : AdvanceEpochParams :=
  { Ledger.computationOnly 1 0 0 with
    maxCommitteeMembersCount := 5
    scores := [maxScore,maxScore,maxScore,maxScore,maxScore] }

theorem initial_fiveGenesis {s : SystemState} (hs : fiveGenesis = .ok s) :
    Initial (fun _ => true) ⟨s,[],[]⟩ := ⟨⟨_,_,_,_,_,_,hs⟩,rfl,rfl⟩

/-- A validator that asked to leave with a stake above that of the whole committee stays: the epoch
change aborts, and safe mode keeps all validators. -/
theorem departure_exceeds_total_stake : ∃ h s',
    Machine.Reached (Initial fun _ => true) (exec fun _ => true) Permitted h ∧ h.left = [1] ∧
      h.state.advanceEpoch fiveParams = .error .underflow ∧
      h.state.advanceEpochImpl fiveParams = .ok s' ∧
      s'.validators.activeValidatorAddresses = [1,2,3,4,5] := by
  obtain ⟨s,hs,h1,hr1,h,hrn,hl,ha,s',hsf⟩ : ∃ s, fiveGenesis = .ok s ∧
      ∃ h1, exec (fun _ => true) ⟨s,[],[]⟩ (.requestAddStake 1 21000000000) = .ok h1 ∧
      ∃ h, exec (fun _ => true) h1 (.requestRemoveValidator 1) = .ok h ∧ h.left = [1] ∧
        h.state.advanceEpoch fiveParams = .error .underflow ∧
      ∃ s', h.state.advanceEpochImpl fiveParams = .ok s' ∧
        s'.validators.activeValidatorAddresses = [1,2,3,4,5] := by decide +kernel
  have hst : Permitted ⟨s,[],[]⟩ (.requestAddStake 1 21000000000) := trivial
  have hr : Permitted h1 (.requestRemoveValidator 1) := trivial
  exact ⟨h,s',.step (.step (.init (initial_fiveGenesis hs)) hst hr1) hr hrn,hl,ha,hsf⟩

instance (parameters : SystemParameters) (rewards : Nat) (s : ValidatorSet) :
    Decidable (ValidatorSet.Covers parameters rewards s) :=
  inferInstanceAs (Decidable (_ ≤ _))

/-- A validator leaves with a stake that is covered. -/
theorem lifecycle_exact_departure : ∃ h t leftover committee,
    Machine.Reached (Initial fun _ => true) (exec fun _ => true) Permitted h ∧ h.left = [1] ∧
      h.state.validators.settleStakes (h.state.epochRewards fiveParams)
        h.state.validatorReportRecords fiveParams h.state.epoch = .ok (t,leftover) ∧
      h.nextActive t = [(1,2),(2,3),(3,4),(4,5)] ∧ h.MembersExact t committee := by
  obtain ⟨s,hs,h,hrn,hl,hlt,hcv,⟨t,leftover⟩,hst,hn,committee,
      hc,-⟩ : ∃ s, fiveGenesis = .ok s ∧
      ∃ h, exec (fun _ => true) ⟨s,[],[]⟩ (.requestRemoveValidator 1) = .ok h ∧
        h.left = [1] ∧ h.state.epoch+1 < 2 ^ 64 ∧
        ValidatorSet.Covers h.state.parameters (h.state.epochRewards fiveParams)
          h.state.validators ∧
      ∃ r, h.state.validators.settleStakes (h.state.epochRewards fiveParams)
          h.state.validatorReportRecords fiveParams h.state.epoch = .ok r ∧
        h.nextActive r.1 = [(1,2),(2,3),(3,4),(4,5)] ∧
      ∃ committee, r.1.committeeValidatorAddresses = .ok committee ∧ True := by decide +kernel
  have hrm : Permitted ⟨s,[],[]⟩ (.requestRemoveValidator 1) := trivial
  have hr : Machine.Reached (Initial fun _ => true) (exec fun _ => true) Permitted h :=
    .step (.init (initial_fiveGenesis hs)) hrm hrn
  exact ⟨h,t,leftover,committee,hr,hl,hst,hn,
    ((lifecycle_exact hr).2.2.2.1 fiveParams t leftover committee hlt hst hc).2 hcv⟩

/-- Removals and departures go through just when the stakes of the leaving committee members, as they
are after the rewards and pending stakes of the epoch, fit into the total stake, which is that of the
committee at the start of the epoch. After an epoch change it is that of the new committee. -/
theorem departures_exact
    (hreached : Machine.Reached (Initial validateMetadata) (exec validateMetadata) Permitted h)
    (params : AdvanceEpochParams) :
    (∀ t leftover committee, h.state.epoch+1 < 2 ^ 64 →
      h.state.validators.settleStakes (h.state.epochRewards params) h.state.validatorReportRecords
        params h.state.epoch = .ok (t,leftover) →
      t.committeeValidatorAddresses = .ok committee →
      ((∃ r, t.changeMembers h.state.parameters h.state.validatorReportRecords committee
          (h.state.epoch+1) = .ok r) ↔
        ValidatorSet.Fits committee (ValidatorSet.leavesNext h.state.parameters t)
          (t.join (h.state.epoch+1)))) ∧
    ∀ s', h.state.advanceEpoch params = .ok s' →
      VotingPower.totalCommitteeStake s'.validators.activeValidators
        s'.validators.committeeMembers = .ok s'.validators.totalStake := by
  constructor
  · intro t leftover committee hlt hs _
    exact (tracked_of_reached hreached).changeMembers_ok_iff hlt hs
  intro s' hr
  obtain ⟨leftover,ha,-⟩ := advanceEpoch_cases hr
  obtain ⟨t,committee,-,u,members,totalStake,powers,-,-,-,-,-,-,ht,hp,
    hvalidators⟩ := ValidatorSet.advanceEpoch_cases ha
  have hst : (powers.map effectuateStagedMetadata).map Validator.totalStake =
      u.activeValidators.map Validator.totalStake := by
    rw [map_map]
    exact VotingPower.setVotingPower_map (fun _ _ => rfl) hp
  rw [hvalidators]
  exact (VotingPower.totalCommitteeStake_congr hst members).trans ht

theorem departures_exact_genesis : ∃ s' : SystemState,
    VotingPower.totalCommitteeStake s'.validators.activeValidators
      s'.validators.committeeMembers = .ok s'.validators.totalStake ∧
    s'.validators.totalStake = 25000001000 := by
  obtain ⟨s,hs,s',hr,hst⟩ : ∃ s, fiveGenesis = .ok s ∧
      ∃ s', s.advanceEpoch fiveParams = .ok s' ∧
        s'.validators.totalStake = 25000001000 := by decide +kernel
  exact ⟨s',(departures_exact (.init (initial_fiveGenesis hs)) fiveParams).2 s' hr,hst⟩

/-- The removal of a validator whose stake in the new epoch is above that of the committee in this
epoch aborts. -/
theorem removal_underflows : ∃ h t leftover committee,
    Machine.Reached (Initial fun _ => true) (exec fun _ => true) Permitted h ∧
      h.state.validators.settleStakes (h.state.epochRewards fiveParams)
        h.state.validatorReportRecords fiveParams h.state.epoch = .ok (t,leftover) ∧
      t.committeeValidatorAddresses = .ok committee ∧
      t.changeMembers h.state.parameters h.state.validatorReportRecords committee
        (h.state.epoch+1) = .error .underflow := by
  obtain ⟨s,hs,h1,hr1,h,hrn,⟨t,leftover⟩,hst,committee,hc⟩ :
      ∃ s, fiveGenesis = .ok s ∧
      ∃ h1, exec (fun _ => true) ⟨s,[],[]⟩ (.requestAddStake 1 21000000000) = .ok h1 ∧
      ∃ h, exec (fun _ => true) h1 (.requestRemoveValidator 1) = .ok h ∧
      ∃ r, h.state.validators.settleStakes (h.state.epochRewards fiveParams)
          h.state.validatorReportRecords fiveParams h.state.epoch = .ok r ∧
      ∃ committee, r.1.committeeValidatorAddresses = .ok committee ∧
        r.1.changeMembers h.state.parameters h.state.validatorReportRecords committee
          (h.state.epoch+1) = .error .underflow := by decide +kernel
  have hsk : Permitted ⟨s,[],[]⟩ (.requestAddStake 1 21000000000) := trivial
  have hr : Permitted h1 (.requestRemoveValidator 1) := trivial
  exact ⟨h,t,leftover,committee,
    .step (.step (.init (initial_fiveGenesis hs)) hsk hr1) hr hrn,hst,hc⟩

end History
end Iota.System
