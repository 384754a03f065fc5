import Iota.System.SystemState.SafeMode
import Iota.System.ValidatorSet.Members

/-! Every transaction and every epoch change keeps the validators well placed, and so does their
creation at genesis. -/
namespace Iota.System
open Except List Move

def Validator.tag (v : Validator) : Nat × Nat × Option Nat :=
  (v.iotaAddress,v.stakingPoolId,v.stakingPool.deactivationEpoch)

variable {validators validators' : List Validator}
namespace VotingPower

theorem setVotingPower_map {β : Type} {g : Validator → β} {members : List Nat}
    (hg : ∀ v power, g (v.setVotingPower power) = g v)
    (h : setVotingPower members validators = .ok validators') :
    validators'.map g = validators.map g := by
  obtain ⟨_,h⟩ := ok_of_bind h
  obtain ⟨⟨_,_⟩,-,h⟩ := of_bind h
  obtain ⟨_,h⟩ := ok_of_bind h
  obtain ⟨_,hu,h⟩ := of_bind h
  obtain ⟨_,h⟩ := ok_of_bind h
  cases h
  refine foldlM_keeps (fun vs : List Validator => vs.map g = validators.map g) ?_ ?_ hu
  · rintro info - vs vs' hsm hs
    obtain ⟨v,hv,hs⟩ := of_bind hs
    obtain ⟨_,hp,hs⟩ := of_bind hs
    cases hp
    obtain ⟨-,rfl⟩ := set_eq_ok.mp hs
    exact (map_set_of_eq (get_eq_ok.mp hv) (hg v _)).trans hsm
  · rw [map_map]
    exact map_congr_left fun v _ => hg v 0

theorem totalCommitteeStake_congr
    (h : validators'.map Validator.totalStake = validators.map Validator.totalStake)
    (members : List Nat) :
    totalCommitteeStake validators' members = totalCommitteeStake validators members := by
  have hg : ∀ i stake, (get validators' i >>= fun v => add stake v.totalStake : Tx Nat) =
      get validators i >>= fun v => add stake v.totalStake := by
    intro i stake
    have hi := congrArg (·[i]?) h
    simp only [List.getElem?_map] at hi
    unfold Move.get
    cases hv : validators[i]? <;> cases hv' : validators'[i]? <;> simp_all
  simp only [totalCommitteeStake,hg]

end VotingPower
namespace ValidatorSet
variable {s s' t u : ValidatorSet} {pools : Nat}

theorem WellPlaced.withActive (h : WellPlaced pools s) {activeValidators : List Validator}
    (hm : activeValidators.map Validator.tag = s.activeValidators.map Validator.tag)
    (totalStake : Nat) (committeeMembers : List Nat) :
    WellPlaced pools { s with activeValidators, totalStake, committeeMembers } := by
  have he : ValidatorSet.entries { s with activeValidators, totalStake, committeeMembers } =
      s.entries := by
    have hen := congrArg (List.map fun x : Nat × Nat × Option Nat =>
      (⟨x.2.1,.active,x.1⟩ : Entry)) hm
    rw [map_map,map_map] at hen
    exact congrArg (· ++ _) hen
  have ha : activeValidators.map Validator.iotaAddress =
      s.activeValidators.map Validator.iotaAddress := by
    have := congrArg (List.map Prod.fst) hm
    rwa [map_map,map_map] at this
  refine ⟨by rw [he]; exact h.once,by rw [he]; exact h.mapped,?_,h.candidate,
    h.inactive,h.pending,fun v hv => ?_,h.removals.1,fun i hi => ?_⟩
  · rw [map_append,ha,← map_append]
    exact h.distinct
  · obtain ⟨w,hw,ht⟩ := mem_of_map_eq hm hv
    exact (congrArg (fun x => x.2.2) ht).trans (h.active w hw)
  have hl := congrArg List.length hm
  rw [length_map,length_map] at hl
  exact (h.removals.2 i hi).trans_eq hl.symm

variable {rewards leftover epoch : Nat} {params : AdvanceEpochParams} {records records' : ReportRecords}

theorem advanceEpoch_cases {parameters : SystemParameters}
    (h : s.advanceEpoch rewards records parameters params epoch = .ok (s',leftover,records')) :
    ∃ t committee eligible u committeeMembers totalStake powers,
      epoch+1 < 2 ^ 64 ∧ s.settleStakes rewards records params epoch = .ok (t,leftover) ∧
      t.committeeValidatorAddresses = .ok committee ∧
      validateEligibleValidatorsVotingPower t.activeValidators params.eligibleActiveValidators =
        .ok eligible ∧
      t.changeMembers parameters records committee (epoch+1) = .ok (u,records') ∧
      u.processNewCommittee params.maxCommitteeMembersCount t.activeValidatorAddresses eligible =
        .ok { u with committeeMembers } ∧
      VotingPower.totalCommitteeStake u.activeValidators committeeMembers = .ok totalStake ∧
      VotingPower.setVotingPower committeeMembers u.activeValidators = .ok powers ∧
      s' = { u with
        activeValidators := powers.map Validator.effectuateStagedMetadata
        totalStake
        committeeMembers } := by
  obtain ⟨_,hep,h⟩ := of_bind h
  obtain ⟨⟨t,_⟩,hs,h⟩ := of_bind h
  obtain ⟨committee,hcm,h⟩ := of_bind h
  obtain ⟨eligible,he,h⟩ := of_bind h
  obtain ⟨⟨u,_⟩,hc,h⟩ := of_bind h
  obtain ⟨_,h⟩ := ok_of_bind h
  obtain ⟨w,hn,h⟩ := of_bind h
  obtain ⟨totalStake,ht,h⟩ := of_bind h
  obtain ⟨powers,hp,h⟩ := of_bind h
  cases h
  obtain ⟨hlt,rfl⟩ := add_eq_ok.mp hep
  have hw : w = { u with committeeMembers := w.committeeMembers } := by
    iterate 2 obtain ⟨_,hn⟩ := ok_of_bind hn
    rw [← ok.inj hn]
  rw [hw] at hn ht hp
  refine ⟨t,committee,eligible,u,w.committeeMembers,totalStake,powers,hlt,hs, hcm,he,hc,hn,ht,hp,?_⟩
  rw [hw]

@[simp] theorem effectuateStaged_iotaAddress (m : ValidatorMetadata) :
    m.effectuateStaged.iotaAddress = m.iotaAddress := by
  unfold ValidatorMetadata.effectuateStaged
  dsimp only
  split <;> rfl

theorem tag_of_powers {members : List Nat} {active powers : List Validator}
    (h : VotingPower.setVotingPower members active = .ok powers) :
    (powers.map Validator.effectuateStagedMetadata).map Validator.tag =
      active.map Validator.tag := by
  have ht : Validator.tag ∘ Validator.effectuateStagedMetadata = Validator.tag := by
    funext v
    simp [Validator.tag,Validator.effectuateStagedMetadata,Validator.iotaAddress,
      Validator.stakingPoolId]
  rw [map_map,ht]
  exact VotingPower.setVotingPower_map (fun _ _ => rfl) h

theorem WellPlaced.settleStakes {records : ReportRecords} (h : WellPlaced pools s)
    (hr : s.settleStakes rewards records params epoch = .ok (t,leftover)) : WellPlaced pools t := by
  obtain ⟨activeValidators,rfl,hm⟩ := settleStakes_cases hr
  refine h.withActive ?_ s.totalStake s.committeeMembers
  have ht := congrArg (List.map fun x : Standing =>
    (x.metadata.iotaAddress,x.poolId,x.deactivationEpoch)) hm
  rw [map_map,map_map] at ht
  exact ht

theorem exists_bound (m : VecMap Nat Nat) : ∃ bound, ∀ e ∈ m.contents, e.2 ≤ bound :=
  ⟨(m.contents.map Prod.snd).sum,fun _ he =>
    single_le_sum (fun _ _ => Nat.zero_le _) _ (mem_map_of_mem he)⟩

theorem WellPlaced.advanceEpoch {parameters : SystemParameters} (h : WellPlaced pools s)
    (hr : s.advanceEpoch rewards records parameters params epoch = .ok (s',leftover,records')) :
    WellPlaced pools s' := by
  obtain ⟨t,committee,-,u,members,totalStake,powers,-,hs,-,-,hc,-,-,
    hp,rfl⟩ := advanceEpoch_cases hr
  obtain ⟨bound,hb⟩ := exists_bound t.atRiskValidators
  have hm := changeMembers_satisfies parameters records committee (epoch+1) (h.settleStakes hs) hb
  obtain ⟨⟨gone,hd⟩,-,-⟩ := hm.of_ok hc
  exact hd.placed.withActive (tag_of_powers hp) totalStake members

theorem mappings_of_foldlM {l : List Validator} {mappings : Std.ExtTreeMap Nat Nat}
    (h : l.foldlM (fun mappings v => Table.add mappings v.stakingPoolId v.iotaAddress) ∅ =
      (.ok mappings : Tx (Std.ExtTreeMap Nat Nat))) :
    Mapped mappings (l.map (Validator.entry .active)) := by
  refine foldlM_done (fun done m => Mapped m (done.map (Validator.entry .active))) ?_
    (fun _ _ => by simp [Live]) h
  intro done v m m' hm ha
  obtain ⟨hn,rfl⟩ := Table.add_eq_ok ha
  have hnw : ∀ e ∈ done.map (Validator.entry .active), e.poolId ≠ v.stakingPoolId := by
    intro e he heq
    have hl : Live (done.map (Validator.entry .active)) v.stakingPoolId e.address := by
      obtain ⟨w,-,rfl⟩ := mem_map.mp he
      exact ⟨_,he,by simp [Validator.entry],heq,rfl⟩
    rw [(hm _ _).mpr hl] at hn
    cases hn
  have hcr : Mapped (m.insert v.stakingPoolId v.iotaAddress)
      ((v :: done).map (Validator.entry .active)) := hm.create hnw (by decide)
  exact hcr.perm ((perm_append_singleton v done).symm.map _)

theorem WellPlaced.new {l : List Validator} (h : ValidatorSet.new l = .ok s)
    (hi : l.map Validator.stakingPoolId = List.range pools)
    (had : (l.map Validator.iotaAddress).Nodup)
    (ha : ∀ v ∈ l, v.stakingPool.deactivationEpoch = none) : WellPlaced pools s := by
  obtain ⟨total,h⟩ := ok_of_bind h
  obtain ⟨mappings,hm,h⟩ := of_bind h
  obtain ⟨powers,hpw,h⟩ := of_bind h
  cases h
  have he (active : List Validator) :
      entriesOf active [] ∅ ∅ = active.map (Validator.entry .active) := by
    simp [entriesOf]
  have hp : WellPlaced pools
      { totalStake := total, activeValidators := l, committeeMembers := List.range l.length
        pendingActiveValidators := [], pendingRemovals := [], stakingPoolMappings := mappings
        inactiveValidators := ∅, validatorCandidates := ∅, atRiskValidators := VecMap.empty } := by
    refine ⟨?_,?_,by rwa [append_nil],fun a v hv => by simp at hv,fun id v hv => by simp at hv,
      forall_mem_nil _,ha,nodup_nil,forall_mem_nil _⟩
    · rw [ValidatorSet.entries,he,map_map]
      exact .of_eq hi
    · rw [ValidatorSet.entries,he]
      exact mappings_of_foldlM hm
  exact hp.withActive (VotingPower.setVotingPower_map (fun _ _ => rfl) hpw) total _

end ValidatorSet
namespace Validator
variable {validateMetadata : ValidatorMetadata → Bool} {v v' : Validator}

theorem new_cases {address poolId capId : Nat} {params : ValidatorParams}
    (h : Validator.new validateMetadata address params poolId capId = .ok v) :
    v.iotaAddress = address ∧ v.stakingPoolId = poolId ∧ v.IsNew := by
  iterate 11 obtain ⟨_,h⟩ := ok_of_bind h
  cases h
  exact ⟨rfl,rfl,rfl,rfl,rfl⟩

theorem requestAddStakeAtGenesis_profile {stake epoch : Nat} {staked : StakedIota}
    (h : v.requestAddStakeAtGenesis stake epoch = .ok (v',staked)) : v'.profile = v.profile := by
  iterate 2 obtain ⟨_,h⟩ := ok_of_bind h
  obtain ⟨⟨pool,_⟩,ha,h⟩ := of_bind h
  obtain ⟨pool',hp,h⟩ := of_bind h
  obtain ⟨_,h⟩ := ok_of_bind h
  cases h
  iterate 3 obtain ⟨_,ha⟩ := ok_of_bind ha
  cases ha
  iterate 2 obtain ⟨_,hp⟩ := ok_of_bind hp
  cases hp
  rfl

end Validator
namespace SystemState
variable {validateMetadata : ValidatorMetadata → Bool} {s s' : SystemState}

theorem genesisValidators_cases {specs : List (Nat × ValidatorParams)} {created : List Validator}
    (h : genesisValidators validateMetadata specs = .ok created) :
    created.map Validator.stakingPoolId = List.range specs.length ∧
      (created.map Validator.iotaAddress).Nodup ∧ ∀ v ∈ created, v.IsNew := by
  refine foldlM_done (fun (done : List (Nat × ValidatorParams)) vs =>
    vs.map Validator.stakingPoolId = List.range done.length ∧
      (vs.map Validator.iotaAddress).Nodup ∧ ∀ v ∈ vs, v.IsNew) ?_
    ⟨rfl,nodup_nil,forall_mem_nil _⟩ h
  rintro done spec before after ⟨hi,had,hn⟩ hs
  obtain ⟨v,hv,hs⟩ := of_bind hs
  obtain ⟨_,hd,hs⟩ := of_bind hs
  cases hs
  obtain ⟨-,hid,hvn⟩ := Validator.new_cases hv
  have hfr := ValidatorSet.not_mem_of_not_duplicate (assert_eq_ok.mp hd)
  have hl : before.length = done.length := by simpa using congrArg length hi
  refine ⟨by simp [hi,hid,hl,range_succ],?_,fun w hw => ?_⟩
  · rw [map_append,nodup_append]
    refine ⟨had,nodup_singleton _,?_⟩
    rintro a ha _ hb rfl
    exact hfr (mem_singleton.mp hb ▸ ha)
  rcases mem_append.mp hw with hw | hw
  · exact hn w hw
  · exact mem_singleton.mp hw ▸ hvn

theorem allocateTokens_profile
    {allocations : List (Nat × Nat)} (h : allocateTokens validators allocations = .ok validators') :
    validators'.map Validator.profile = validators.map Validator.profile := by
  refine foldlM_keeps (fun vs : List Validator =>
    vs.map Validator.profile = validators.map Validator.profile) ?_ rfl h
  rintro ⟨address,amount⟩ - vs vs' hsm hs
  obtain ⟨⟨_,_⟩,hm,hs⟩ := of_bind hs
  cases hs
  exact (getValidatorMut_map (fun _ _ _ => Validator.requestAddStakeAtGenesis_profile) hm).trans hsm

theorem wellPlaced_initial (h : Initial validateMetadata s) :
    s.validators.WellPlaced s.poolIds := by
  obtain ⟨specs,allocations,parameters,supply,version,timestamp,h⟩ := h
  obtain ⟨created,allocated,activated,hc,hal,ha,hn,-,-,hpl⟩ := genesis_cases h
  obtain ⟨hi,hadd,hf⟩ := genesisValidators_cases hc
  have hp := allocateTokens_profile hal
  have hid := congrArg (List.map fun x => x.1.poolId) hp
  have had := congrArg (List.map fun x => x.1.metadata.iotaAddress) hp
  rw [map_map,map_map] at hid had
  have hac : ∀ v ∈ activated, v.stakingPool.deactivationEpoch = none := by
    intro v hv
    obtain ⟨w,hw,hr⟩ := exists_of_mem_mapM ha hv
    obtain ⟨x,hx,heq⟩ := ValidatorSet.mem_of_map_eq hp hw
    cases Validator.activate_eq_ok hr
    exact (Validator.isNew_of_profile heq (hf x hx)).deactivation
  rw [hpl]
  refine .new hn ?_ ?_ hac
  · rw [← hi]
    refine (map_eq_of_mapM (fun v v' hr => ?_) ha).trans hid
    cases Validator.activate_eq_ok hr
    rfl
  have hs : activated.map Validator.iotaAddress = created.map Validator.iotaAddress := by
    refine (map_eq_of_mapM (fun v v' hr => ?_) ha).trans had
    cases Validator.activate_eq_ok hr
    rfl
  exact hs ▸ hadd

/-- The rewards of an epoch: its computation charges and those of safe mode, with the subsidy in the
place of what was burned. -/
def epochRewards (s : SystemState) (params : AdvanceEpochParams) : Nat :=
  params.computationCharge + s.safeModeComputationCharges + params.validatorSubsidy -
    (params.computationChargeBurned + s.safeModeComputationChargesBurned)

theorem matchComputationChargeBurned_rewards
    {subsidy computation burned supply rewards supply' : Nat}
    (h : matchComputationChargeBurnedToValidatorSubsidy subsidy computation burned supply =
      .ok (rewards,supply')) : rewards = computation + subsidy - burned := by
  unfold matchComputationChargeBurnedToValidatorSubsidy at h
  split at h
  · obtain ⟨_,ha,h⟩ := of_bind h
    obtain ⟨_,h⟩ := ok_of_bind h
    obtain ⟨_,had,h⟩ := of_bind h
    cases h
    obtain ⟨hle,rfl⟩ := sub_eq_ok.mp ha
    obtain ⟨-,rfl⟩ := add_eq_ok.mp had
    omega
  split at h
  · obtain ⟨_,ha,h⟩ := of_bind h
    obtain ⟨_,hs,h⟩ := of_bind h
    obtain ⟨_,h⟩ := ok_of_bind h
    cases h
    obtain ⟨hle,rfl⟩ := sub_eq_ok.mp ha
    obtain ⟨_,hs⟩ := ok_of_bind hs
    obtain ⟨hle',rfl⟩ := sub_eq_ok.mp hs
    omega
  · cases h
    omega

theorem advanceEpoch_cases {params : AdvanceEpochParams} (h : s.advanceEpoch params = .ok s') :
    ∃ leftover, s.validators.advanceEpoch (s.epochRewards params) s.validatorReportRecords
        s.parameters params s.epoch = .ok (s'.validators,leftover,s'.validatorReportRecords) ∧
      s'.epoch = s.epoch+1 ∧ s'.parameters = s.parameters ∧ s'.poolIds = s.poolIds := by
  obtain ⟨⟨_,_⟩,h,hst⟩ := of_bind h
  cases hst
  obtain ⟨_,h⟩ := ok_of_bind h
  obtain ⟨⟨t,charges⟩,hmr,h⟩ := of_bind h
  obtain ⟨_,-,h⟩ := of_bind h
  obtain ⟨⟨rewards,supply⟩,hm,h⟩ := of_bind h
  obtain ⟨_,he,h⟩ := of_bind h
  obtain ⟨_,h⟩ := ok_of_bind h
  obtain ⟨⟨validators,leftover,records⟩,ha,h⟩ := of_bind h
  iterate 3 obtain ⟨_,h⟩ := ok_of_bind h
  obtain ⟨⟨_,_⟩,-,h⟩ := of_bind h
  obtain ⟨_,h⟩ := ok_of_bind h
  cases h
  cases (mergeSafeModeCharges_satisfies s params.charges).of_ok hmr
  cases matchComputationChargeBurned_rewards hm
  obtain ⟨-,rfl⟩ := add_eq_ok.mp he
  exact ⟨leftover,ha,rfl,rfl,rfl⟩

theorem wellPlaced_exec {op : SystemOp} (h : s.validators.WellPlaced s.poolIds)
    (hr : s.exec validateMetadata op = .ok s') : s'.validators.WellPlaced s'.poolIds := by
  have hpl (hpr : ValidatorSet.SameView Validator.profile s.validators s'.validators ∧
      s'.poolIds = s.poolIds) : s'.validators.WellPlaced s'.poolIds := by
    obtain ⟨hvw,hp⟩ := hpr
    rw [hp]
    exact h.of_sameView (hvw.comp fun x => (x.1.metadata.iotaAddress,x.1.votingPower,x.1.poolId,
      x.1.activationEpoch,x.1.deactivationEpoch,x.2))
  cases op with
  | requestAddValidatorCandidate sender params =>
    obtain ⟨v,hv,hr⟩ := of_bind hr
    obtain ⟨validators,ha,hr⟩ := of_bind hr
    cases hr
    obtain ⟨-,hid,hn⟩ := Validator.new_cases hv
    exact h.requestAddValidatorCandidate hn hid ha
  | requestRemoveValidatorCandidate sender =>
    obtain ⟨validators,hrm,hr⟩ := of_bind hr
    cases hr
    exact h.requestRemoveValidatorCandidate hrm
  | requestAddValidator sender =>
    iterate 2 obtain ⟨_,hr⟩ := ok_of_bind hr
    obtain ⟨validators,ha,hr⟩ := of_bind hr
    cases hr
    exact h.requestAddValidator ha
  | requestRemoveValidator sender =>
    obtain ⟨_,hr⟩ := ok_of_bind hr
    obtain ⟨validators,hrm,hr⟩ := of_bind hr
    cases hr
    exact h.requestRemoveValidator hrm
  | updateMetadata sender update =>
    obtain ⟨⟨validators,_⟩,hm,hr⟩ := of_bind hr
    obtain ⟨_,hr⟩ := ok_of_bind hr
    cases hr
    exact h.of_sameView (ValidatorSet.getActiveOrPendingOrCandidateValidatorMut_sameView
      (fun _ _ => Validator.update_seat) hm)
  | advanceEpoch params =>
    obtain ⟨leftover,had,-,-,hp⟩ := advanceEpoch_cases hr
    rw [hp]
    exact h.advanceEpoch had
  | _ => exact hpl (exec_profile hr trivial)

end SystemState
end Iota.System
