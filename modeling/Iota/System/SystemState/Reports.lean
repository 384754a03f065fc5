import Iota.System.ValidatorSet.Epoch

/-! Reports are by and about committee members. The records of a validator are deleted when it
leaves the set, but not when it only loses its seat in the committee. -/
namespace Iota.System
open Except List Move Validator VotingPower
namespace ValidatorSet
variable {s s' : ValidatorSet} {x : Nat}

def IsMember (s : ValidatorSet) (x : Nat) : Prop :=
  x ∈ addressesAt s.activeValidators s.committeeMembers

/-- The voting powers of the committee are in the total voting power. -/
def Powered (s : ValidatorSet) : Prop :=
  (s.committeeMembers.map (powerAt s.activeValidators)).sum ≤
    totalVotingPower

variable {l : List Validator}

theorem findValidator_eq {i : Nat} {v : Validator}
    (hn : (l.map iotaAddress).Nodup) (hv : l[i]? = some v) :
    findValidator l v.iotaAddress = some i := by
  obtain ⟨hi,rfl⟩ := List.getElem?_eq_some_iff.mp hv
  refine findIdx?_eq_some_iff_getElem.mpr ⟨hi,by simp,fun j hj heq => ?_⟩
  have hij : (l.map iotaAddress)[j]? = (l.map iotaAddress)[i]? := by
    simpa [hj.trans hi,hi] using heq
  have := (nodup_iff_getElem?_ne_getElem?.mp hn) j i hj (by simpa using hi)
  exact this hij

theorem WellPlaced.active_distinct {pools : Nat} (h : WellPlaced pools s) :
    (s.activeValidators.map iotaAddress).Nodup := by
  have := h.distinct
  rw [map_append,nodup_append] at this
  exact this.1

theorem IsMember.index (h : s.IsMember x) (hn : (s.activeValidators.map iotaAddress).Nodup) :
    ∃ i v, findValidator s.activeValidators x = some i ∧ i ∈ s.committeeMembers ∧
      s.activeValidators[i]? = some v ∧ v.iotaAddress = x := by
  obtain ⟨i,hi,v,hv,rfl⟩ := mem_addressesAt.mp h
  exact ⟨i,v,findValidator_eq hn hv,hi,hv,rfl⟩

theorem isCommitteeValidatorByIotaAddress_iff (hn : (s.activeValidators.map iotaAddress).Nodup) :
    s.isCommitteeValidatorByIotaAddress x = true ↔ s.IsMember x := by
  unfold isCommitteeValidatorByIotaAddress
  constructor
  · intro h
    split at h
    · next i hi =>
      obtain ⟨v,hv,ha⟩ := findValidator_eq_some hi
      exact mem_addressesAt.mpr ⟨i,contains_iff_mem.mp h,v,hv,ha⟩
    · cases h
  intro h
  obtain ⟨i,v,hf,hi,-⟩ := h.index hn
  simp [hf,hi]

def powerOf (s : ValidatorSet) (x : Nat) : Nat :=
  powerAt s.activeValidators ((findValidator s.activeValidators x).getD 0)

theorem sum_powerOf_le {addresses : List Nat} (hpw : s.Powered)
    (hn : (s.activeValidators.map iotaAddress).Nodup) (hd : addresses.Nodup)
    (hm : ∀ x ∈ addresses, s.IsMember x) : (addresses.map s.powerOf).sum ≤ totalVotingPower := by
  refine Nat.le_trans ?_ hpw
  have hin : (addresses.map fun x => (findValidator s.activeValidators x).getD 0).Nodup := by
    refine hd.map_on fun x hx y hy heq => ?_
    obtain ⟨i,v,hf,-,hv,rfl⟩ := (hm x hx).index hn
    obtain ⟨j,w,hf',-,hw,rfl⟩ := (hm y hy).index hn
    rw [hf,hf',Option.getD_some,Option.getD_some] at heq
    subst heq
    rw [Option.some.inj (hv.symm.trans hw)]
  have hsb : (addresses.map fun x => (findValidator s.activeValidators x).getD 0) ⊆
      s.committeeMembers := by
    intro i hi
    obtain ⟨x,hx,rfl⟩ := mem_map.mp hi
    obtain ⟨i,v,hf,hi,-⟩ := (hm x hx).index hn
    rwa [hf,Option.getD_some]
  obtain ⟨l,hp,hsu⟩ := hin.subperm hsb
  have hs := (hp.map (powerAt s.activeValidators)).sum_eq
  rw [map_map] at hs
  calc (addresses.map s.powerOf).sum = (l.map (powerAt s.activeValidators)).sum :=
        hs.symm
    _ ≤ (s.committeeMembers.map (powerAt s.activeValidators)).sum :=
        (hsu.map _).sum_le_sum fun _ _ => Nat.zero_le _

theorem sumCommitteeVotingPowerByAddresses_ok {addresses : List Nat} (hp : s.Powered)
    (hn : (s.activeValidators.map iotaAddress).Nodup) (hd : addresses.Nodup)
    (hm : ∀ x ∈ addresses, s.IsMember x) :
    s.sumCommitteeVotingPowerByAddresses addresses = .ok (addresses.map s.powerOf).sum := by
  have ht : totalVotingPower < 2 ^ 64 := by decide
  have hb := (sum_powerOf_le hp hn hd hm).trans_lt ht
  rw [← Nat.zero_add (addresses.map s.powerOf).sum] at hb ⊢
  refine foldlM_add (fun x hx sum => ?_) 0 hb
  obtain ⟨i,v,hf,hi,hv,-⟩ := (hm x hx).index hn
  have hr : s.getCommitteeValidatorRef x = .ok v := by
    rw [getCommitteeValidatorRef,hf]
    simp only [assert_ok hi,ok_bind]
    exact get_eq_ok.mpr hv
  have hpw : s.powerOf x = v.votingPower := by
    simp [powerOf,hf,powerAt,hv]
  rw [hr,ok_bind,hpw]

def Reported (s : ValidatorSet) (records : ReportRecords) : Prop := ∀ x, Named records x → s.IsMember x

theorem computeSlashedValidators_ok {records : ReportRecords} (hp : s.Powered)
    (hn : (s.activeValidators.map iotaAddress).Nodup) (hr : s.Reported records) :
    s.computeSlashedValidators records = .ok ((records.contents.reverse.filter fun entry =>
      quorumThreshold ≤ (entry.2.contents.map s.powerOf).sum).map Prod.fst) := by
  have hf : ∀ (l : List (Nat × VecSet Nat)) (slashed : List Nat),
      (∀ entry ∈ l, entry ∈ records.contents) →
      l.foldlM (fun slashed entry => do
        assert (s.isCommitteeValidatorByIotaAddress entry.1 = true)
          Error.nonValidatorInReportRecords
        let reporterVotes ← s.sumCommitteeVotingPowerByAddresses entry.2.contents
        if quorumThreshold ≤ reporterVotes then .ok (slashed ++ [entry.1])
        else .ok slashed) slashed =
      (.ok (slashed ++ (l.filter fun entry => quorumThreshold ≤
        (entry.2.contents.map s.powerOf).sum).map Prod.fst) : Tx (List Nat)) := by
    intro l
    induction l with
    | nil => exact fun slashed _ => by simp; rfl
    | cons entry l ih =>
      intro slashed hl
      obtain ⟨reportee,reporters⟩ := entry
      have hen := hl (reportee,reporters) mem_cons_self
      have hm := (isCommitteeValidatorByIotaAddress_iff hn).mpr (hr reportee ⟨_,hen,.inl rfl⟩)
      have hs := sumCommitteeVotingPowerByAddresses_ok hp hn reporters.nodup
        fun x hx => hr x ⟨_,hen,.inr hx⟩
      rw [foldlM_cons]
      simp only [assert_ok hm,ok_bind,hs]
      split
      · next hq =>
        rw [ok_bind,ih _ fun e he => hl e (.tail _ he),
          filter_cons_of_pos (by simpa using hq),map_cons,append_assoc]
        rfl
      · next hq =>
        rw [ok_bind,ih _ fun e he => hl e (.tail _ he),filter_cons_of_neg (by simpa using hq)]
  exact hf _ [] fun e => mem_reverse.mp

variable {records records' : ReportRecords}

theorem reportValidatorImpl_named {reporter reportee : Nat}
    (h : reportValidatorImpl reporter reportee records = .ok records') (hx : Named records' x) :
    Named records x ∨ x = reporter ∨ x = reportee := by
  obtain ⟨_,h⟩ := ok_of_bind h
  obtain ⟨entry,he,hx⟩ := hx
  split at h
  · obtain ⟨-,hc⟩ := VecMap.insert_eq_ok h
    rw [hc] at he
    rcases mem_append.mp he with he | he
    · exact .inl ⟨entry,he,hx⟩
    · cases mem_singleton.mp he
      exact .inr (hx.symm.imp_left mem_singleton.mp)
  obtain ⟨old,new,ho,hn,rfl⟩ := VecMap.modify_eq_ok h
  rcases VecMap.mem_replace.mp he with ⟨he,-⟩ | ⟨hk,hv,-⟩
  · exact .inl ⟨entry,he,hx⟩
  rw [hk,hv] at hx
  rcases hx with hx | hx
  · exact .inr (.inr hx)
  split at hn
  · cases hn
    exact .inl ⟨_,ho,.inr hx⟩
  rw [(VecSet.insert_eq_ok hn).2] at hx
  rcases mem_append.mp hx with hx | hx
  · exact .inl ⟨_,ho,.inr hx⟩
  · exact .inr (.inl (mem_singleton.mp hx))

theorem undoReportValidatorImpl_named {reporter reportee : Nat}
    (h : undoReportValidatorImpl reporter reportee records = .ok records') (hx : Named records' x) :
    Named records x := by
  obtain ⟨_,h⟩ := ok_of_bind h
  obtain ⟨reporters,hg,h⟩ := of_bind h
  obtain ⟨_,h⟩ := ok_of_bind h
  obtain ⟨rest,hr,h⟩ := of_bind h
  obtain ⟨entry,he,hx⟩ := hx
  split at h
  · obtain ⟨-,rfl⟩ := VecMap.remove_eq_ok.mp h
    exact ⟨entry,(VecMap.mem_erase.mp he).1,hx⟩
  cases h
  rcases VecMap.mem_replace.mp he with ⟨he,-⟩ | ⟨hk,hv,-⟩
  · exact ⟨entry,he,hx⟩
  · rw [hk,hv] at hx
    exact ⟨_,VecMap.get_eq_ok.mp hg,hx.imp_right fun hx => ((VecSet.mem_remove hr).mp hx).2⟩

theorem verifyCap_isMember {capId capAddress : Nat} (h : s.verifyCap capId capAddress = .ok x) :
    s.IsMember x := by
  obtain ⟨v,hv,h⟩ := of_bind h
  obtain ⟨_,h⟩ := ok_of_bind h
  cases h
  unfold getCommitteeValidatorRef at hv
  split at hv
  · cases hv
  · next i hi =>
    obtain ⟨w,hw,ha⟩ := findValidator_eq_some hi
    obtain ⟨_,hm,-⟩ := of_bind hv
    exact mem_addressesAt.mpr ⟨i,assert_eq_ok.mp hm,w,hw,ha⟩

theorem sum_powerAt_of_setVotingPower {l l' : List Validator} {members : List Nat}
    (h : setVotingPower members l = .ok l') :
    (members.map (powerAt l')).sum = totalVotingPower := by
  obtain ⟨_,h⟩ := ok_of_bind h
  obtain ⟨⟨_,_⟩,-,h⟩ := of_bind h
  iterate 2 obtain ⟨_,h⟩ := ok_of_bind h
  obtain ⟨_,hc,h⟩ := of_bind h
  cases h
  obtain ⟨taken,ht,hc⟩ := of_bind hc
  obtain ⟨total,hsm,hc⟩ := of_bind hc
  obtain ⟨_,htt,-⟩ := of_bind hc
  have hsum : total = (taken.map votingPower).sum := by
    refine foldlM_done (fun done total => total = (done.map votingPower).sum) ?_ rfl hsm
    rintro done v _ _ rfl hs
    obtain ⟨_,hs⟩ := ok_of_bind hs
    obtain ⟨-,rfl⟩ := add_eq_ok.mp hs
    simp
  rw [← powerAt_of_take ht,← assert_eq_ok.mp htt,hsum]

theorem currentEligibleIndices_spec {previous eligible current : List Nat}
    (h : s.currentEligibleIndices previous eligible = .ok current) :
    current.Nodup ∧ (∀ i ∈ current, i < s.activeValidators.length) ∧
      ∀ j ∈ eligible, ∀ a, previous[j]? = some a → ∀ i,
        findValidator s.activeValidators a = some i → i ∈ current := by
  refine foldlM_done (fun done current : List Nat => current.Nodup ∧
    (∀ i ∈ current, i < s.activeValidators.length) ∧ ∀ j ∈ done, ∀ a, previous[j]? = some a →
      ∀ i, findValidator s.activeValidators a = some i → i ∈ current) ?_
    ⟨nodup_nil,forall_mem_nil _,forall_mem_nil _⟩ h
  rintro done j before after ⟨hn,hlt,hal⟩ hs
  obtain ⟨_,hs⟩ := ok_of_bind hs
  obtain ⟨a,ha,hs⟩ := of_bind hs
  have hmd : before ⊆ after ∧ after.Nodup ∧ (∀ i ∈ after, i < s.activeValidators.length) ∧
      ∀ i, findValidator s.activeValidators a = some i → i ∈ after := by
    split at hs
    · next index hin =>
      have hbn : index < s.activeValidators.length := by
        obtain ⟨v,hv,-⟩ := findValidator_eq_some hin
        exact (List.getElem?_eq_some_iff.mp hv).1
      have hf (current : List Nat) (hc : index ∈ current) : ∀ i,
          findValidator s.activeValidators a = some i → i ∈ current := by
        intro i hi
        rw [hin] at hi
        exact Option.some.inj hi ▸ hc
      cases hs
      split
      · next hm => exact ⟨Subset.refl _,hn,hlt,hf _ hm⟩
      · next hm =>
        refine ⟨subset_append_left _ _,?_,fun i hi => ?_,hf _ (by simp)⟩
        · rw [nodup_append]
          refine ⟨hn,nodup_singleton _,?_⟩
          rintro i hi _ hi' rfl
          exact hm (mem_singleton.mp hi' ▸ hi)
        rcases mem_append.mp hi with hi | hi
        · exact hlt i hi
        · exact mem_singleton.mp hi ▸ hbn
    · next hnn =>
      cases hs
      exact ⟨Subset.refl _,hn,hlt,fun i hi => by rw [hnn] at hi; cases hi⟩
  obtain ⟨hsb,hn',hlt',hf⟩ := hmd
  refine ⟨hn',hlt',fun k hk b hb i hi => ?_⟩
  rcases mem_append.mp hk with hk | hk
  · exact hsb (hal k hk b hb i hi)
  · cases mem_singleton.mp hk
    obtain rfl : b = a := Option.some.inj (hb.symm.trans (get_eq_ok.mp ha))
    exact hf i hi

theorem selectCommitteeMembersFromEligible_all {n : Nat} {indices : List Nat}
    (h : indices.length ≤ n) : s.selectCommitteeMembersFromEligible n indices = .ok indices := by
  unfold selectCommitteeMembersFromEligible takeTopN
  rw [if_pos h,ok_bind]
  have hg : ∀ (l before : List Nat),
      (range' before.length l.length).mapM (get (before ++ l)) = (.ok l : Tx (List Nat)) := by
    intro l
    induction l with
    | nil => exact fun _ => rfl
    | cons i l ih =>
      intro before
      have hi : (get (before ++ i :: l) before.length : Tx Nat) = .ok i := get_eq_ok.mpr (by simp)
      have hr := ih (before ++ [i])
      rw [append_assoc,length_append] at hr
      rw [length_cons,range'_succ,mapM_cons,hi,ok_bind]
      exact bind_eq_ok.mpr ⟨l,hr,rfl⟩
  rw [range_eq_range']
  exact hg indices []

/-- Nobody in the records loses its seat without leaving: there are no records, or there are seats
for all validators and everybody in the records is eligible. -/
def Seated (s : ValidatorSet) (records : ReportRecords) (params : AdvanceEpochParams) : Prop :=
  records.contents = [] ∨
    s.activeValidators.length + s.pendingActiveValidators.length ≤ params.maxCommitteeMembersCount ∧
    (params.eligibleActiveValidators = [] ∨
      ∀ x, Named records x → x ∈ addressesAt s.activeValidators params.eligibleActiveValidators)

theorem mem_addressesAt_range (hx : x ∈ l.map iotaAddress) :
    x ∈ addressesAt l (range l.length) := by
  obtain ⟨v,hv,rfl⟩ := mem_map.mp hx
  obtain ⟨i,hi⟩ := getElem?_of_mem hv
  exact mem_addressesAt.mpr ⟨i,mem_range.mpr (List.getElem?_eq_some_iff.mp hi).1,v,hi,rfl⟩

theorem IsMember.mem_active (h : s.IsMember x) : x ∈ s.activeValidators.map iotaAddress := by
  obtain ⟨i,-,v,hv,rfl⟩ := mem_addressesAt.mp h
  exact mem_map_of_mem (mem_of_getElem? hv)

theorem validateEligibleValidatorsVotingPower_cases {eligible given : List Nat}
    (h : validateEligibleValidatorsVotingPower l given = .ok eligible) :
    eligible = range l.length ∨ given ≠ [] ∧ eligible = given := by
  unfold validateEligibleValidatorsVotingPower at h
  split at h
  · exact .inl (ok.inj h).symm
  · next hne =>
    obtain ⟨_,h⟩ := ok_of_bind h
    split at h
    · exact .inl (ok.inj h).symm
    · exact .inr ⟨hne,(ok.inj h).symm⟩

theorem advanceEpoch_powered {rewards leftover epoch : Nat}
    {parameters : SystemParameters} {params : AdvanceEpochParams}
    (h : s.advanceEpoch rewards records parameters params epoch = .ok (s',leftover,records')) :
    s'.Powered := by
  obtain ⟨_,_,_,_,members,_,powers,-,-,-,-,-,-,-,hp,rfl⟩ := advanceEpoch_cases h
  have hs : powerAt (powers.map effectuateStagedMetadata) =
      powerAt powers := by
    funext i
    simp [powerAt,effectuateStagedMetadata,Function.comp_def]
  simp only [Powered,hs]
  exact (sum_powerAt_of_setVotingPower hp).le

theorem advanceEpoch_reported {pools rewards leftover epoch : Nat}
    {parameters : SystemParameters} {params : AdvanceEpochParams} (hpl : WellPlaced pools s)
    (hrp : s.Reported records) (hsd : s.Seated records params)
    (h : s.advanceEpoch rewards records parameters params epoch = .ok (s',leftover,records')) :
    s'.Reported records' := by
  obtain ⟨t,committee,eligible,u,members,-,powers,-,hst,-,hel,hch,
    hc,-,hpw,rfl⟩ := advanceEpoch_cases h
  have hpc := hpl.settleStakes hst
  obtain ⟨bound,hb⟩ := exists_bound t.atRiskValidators
  obtain ⟨⟨gone,hd⟩,-,-⟩ := (changeMembers_satisfies parameters records committee
    (epoch+1) hpc hb).of_ok hch
  obtain ⟨active,rfl,hsn⟩ := settleStakes_cases hst
  have had : active.map iotaAddress =
      s.activeValidators.map iotaAddress := by
    have := congrArg (map fun x : Standing => x.metadata.iotaAddress) hsn
    rwa [map_map,map_map] at this
  intro x hx
  obtain ⟨hn,hsy⟩ := hd.named x hx
  obtain ⟨hss,he'⟩ := hsd.resolve_left fun hnl => by
    obtain ⟨entry,he,-⟩ := hn
    rw [hnl] at he
    cases he
  have hac : x ∈ active.map iotaAddress := had ▸ (hrp x hn).mem_active
  -- The validator stays, at some index of the set after the change.
  obtain ⟨i,v,hv,rfl⟩ : ∃ (i : Nat) (v : Validator),
      u.activeValidators[i]? = some v ∧ v.iotaAddress = x := by
    have hjn : x ∈ (ValidatorSet.join { s with activeValidators := active }
        (epoch+1)).activeValidators.map iotaAddress := by
      rw [ValidatorSet.join,map_append]
      exact mem_append_left _ hac
    rw [(hd.perm.map _).mem_iff,map_append,mem_append] at hjn
    obtain ⟨v,hm,ha⟩ := mem_map.mp (hjn.resolve_left hsy)
    obtain ⟨i,hi⟩ := getElem?_of_mem hm
    exact ⟨i,v,hi,ha⟩
  have hf := findValidator_eq hd.placed.active_distinct hv
  -- It is eligible, and so it is among the indices the committee is selected from.
  have hin : v.iotaAddress ∈ addressesAt active eligible := by
    rcases validateEligibleValidatorsVotingPower_cases hel with rfl | ⟨hne,rfl⟩
    · exact mem_addressesAt_range hac
    · rw [addressesAt_congr had]
      exact he'.resolve_left hne _ hn
  obtain ⟨current,hcr,hc⟩ := of_bind hc
  obtain ⟨selected,hsl,hc⟩ := of_bind hc
  obtain ⟨hnd,hr,hal⟩ := currentEligibleIndices_spec hcr
  have hm : i ∈ current := by
    obtain ⟨j,hj,w,hw,ha⟩ := mem_addressesAt.mp hin
    refine hal j hj v.iotaAddress ?_ i hf
    simp [activeValidatorAddresses,hw,ha]
  have hl : current.length ≤ params.maxCommitteeMembersCount := by
    have hcr : current.length ≤ u.activeValidators.length := by
      have := (hnd.subperm fun k hk => mem_range.mpr (hr k hk)).length_le
      rwa [length_range] at this
    have hp := hd.perm.length_eq
    have hs := congrArg length had
    simp only [ValidatorSet.join,length_append,length_map,length_reverse] at hp hs
    omega
  rw [selectCommitteeMembersFromEligible_all hl] at hsl
  cases hsl
  have hmb : current = members := congrArg committeeMembers (ok.inj hc)
  have hs : (powers.map effectuateStagedMetadata).map iotaAddress =
      u.activeValidators.map iotaAddress := by
    have hfs : iotaAddress = Prod.fst ∘ tag := rfl
    rw [hfs,← map_map,tag_of_powers hpw,map_map]
  rw [IsMember,addressesAt_congr hs,← hmb]
  exact mem_addressesAt.mpr ⟨i,hm,v,hv,rfl⟩

end ValidatorSet
namespace SystemState
variable {validateMetadata : ValidatorMetadata → Bool} {s s' : SystemState}

/-- The validators are well placed, the committee has its voting power, and the records are about
and by its members. -/
structure Accountable (s : SystemState) : Prop where
  placed : s.validators.WellPlaced s.poolIds
  powered : s.validators.Powered
  reported : s.validators.Reported s.validatorReportRecords

/-- Epoch changes leave the validators in the records their seats. -/
def Seating (s : SystemState) : SystemOp → Prop
  | .advanceEpoch params => s.validators.Seated s.validatorReportRecords params
  | _ => True

theorem powered_of_powers {l l' : List Validator} {members : List Nat}
    (h : l'.map votingPower = l.map votingPower) :
    members.map (powerAt l') = members.map (powerAt l) := by
  refine map_congr_left fun i _ => ?_
  rw [powerAt,powerAt,← getElem?_map,← getElem?_map,h]

theorem Accountable.of_active (h : Accountable s) (hp : s'.validators.WellPlaced s'.poolIds)
    (ha : s'.validators.activeValidators.map iotaAddress =
      s.validators.activeValidators.map iotaAddress)
    (hpw : s'.validators.activeValidators.map votingPower =
      s.validators.activeValidators.map votingPower)
    (hc : s'.validators.committeeMembers = s.validators.committeeMembers)
    (hr : ∀ x, Named s'.validatorReportRecords x →
      Named s.validatorReportRecords x ∨ s.validators.IsMember x) : Accountable s' := by
  have hm : ∀ x, s.validators.IsMember x → s'.validators.IsMember x := by
    intro x hx
    rwa [ValidatorSet.IsMember,hc,ValidatorSet.addressesAt_congr ha]
  refine ⟨hp,?_,fun x hx => hm x ((hr x hx).elim (h.reported x) id)⟩
  rw [ValidatorSet.Powered,hc,powered_of_powers hpw]
  exact h.powered

theorem Accountable.of_sameView (h : Accountable s) (hp : s'.validators.WellPlaced s'.poolIds)
    (hv : ValidatorSet.SameView seat s.validators s'.validators)
    (hr : ∀ x, Named s'.validatorReportRecords x →
      Named s.validatorReportRecords x ∨ s.validators.IsMember x) : Accountable s' :=
  h.of_active hp (hv.comp Prod.fst).active (hv.comp fun x => x.2.1).active hv.committee hr

theorem Accountable.exec {op : SystemOp} (h : Accountable s) (hst : Seating s op)
    (hr : s.exec validateMetadata op = .ok s') : Accountable s' := by
  have hp := wellPlaced_exec h.placed hr
  have hn := h.placed.active_distinct
  have hpl (hv : ValidatorSet.SameView profile s.validators s'.validators) :
      ValidatorSet.SameView seat s.validators s'.validators :=
    hv.comp fun x => (x.1.metadata.iotaAddress,x.1.votingPower,x.1.poolId,
      x.1.activationEpoch,x.1.deactivationEpoch,x.2)
  have hs : ∀ x, Named s.validatorReportRecords x →
      Named s.validatorReportRecords x ∨ s.validators.IsMember x := fun _ => .inl
  cases op with
  | requestAddValidatorCandidate sender params =>
    obtain ⟨v,hr⟩ := ok_of_bind hr
    obtain ⟨validators,ha,hr⟩ := of_bind hr
    cases hr
    obtain ⟨-,rfl⟩ := ValidatorSet.requestAddValidatorCandidate_cases ha
    exact h.of_active hp rfl rfl rfl hs
  | requestRemoveValidatorCandidate sender =>
    obtain ⟨validators,hrm,hr⟩ := of_bind hr
    cases hr
    obtain ⟨_,-,-,rfl⟩ := ValidatorSet.requestRemoveValidatorCandidate_cases hrm
    exact h.of_active hp rfl rfl rfl hs
  | requestAddValidator sender =>
    iterate 2 obtain ⟨_,hr⟩ := ok_of_bind hr
    obtain ⟨validators,ha,hr⟩ := of_bind hr
    cases hr
    obtain ⟨v,candidates,-,-,rfl⟩ := ValidatorSet.requestAddValidator_cases ha
    exact h.of_active hp rfl rfl rfl hs
  | requestRemoveValidator sender =>
    obtain ⟨_,hr⟩ := ok_of_bind hr
    obtain ⟨validators,hrm,hr⟩ := of_bind hr
    cases hr
    obtain ⟨i,v,-,-,-,rfl⟩ := ValidatorSet.requestRemoveValidator_cases hrm
    exact h.of_active hp rfl rfl rfl hs
  | updateMetadata sender update =>
    obtain ⟨⟨validators,_⟩,hmt,hr⟩ := of_bind hr
    obtain ⟨_,hr⟩ := ok_of_bind hr
    cases hr
    exact h.of_sameView hp (ValidatorSet.getActiveOrPendingOrCandidateValidatorMut_sameView
      (fun _ _ => update_seat) hmt) hs
  | reportValidator capId capAddress reportee =>
    have hv := hpl (exec_profile hr trivial).1
    obtain ⟨_,hrp,hr⟩ := of_bind hr
    obtain ⟨reporter,hrr,hr⟩ := of_bind hr
    obtain ⟨records,hrt,hr⟩ := of_bind hr
    cases hr
    have hm := (ValidatorSet.isCommitteeValidatorByIotaAddress_iff hn).mp (assert_eq_ok.mp hrp)
    have hm' := ValidatorSet.verifyCap_isMember hrr
    refine h.of_sameView hp hv fun x hx => ?_
    rcases ValidatorSet.reportValidatorImpl_named hrt hx with hx | rfl | rfl
    · exact .inl hx
    · exact .inr hm'
    · exact .inr hm
  | undoReportValidator capId capAddress reportee =>
    have hv := hpl (exec_profile hr trivial).1
    obtain ⟨reporter,hr⟩ := ok_of_bind hr
    obtain ⟨records,hu,hr⟩ := of_bind hr
    cases hr
    exact h.of_sameView hp hv fun x hx =>
      .inl (ValidatorSet.undoReportValidatorImpl_named hu hx)
  | advanceEpoch params =>
    obtain ⟨leftover,had,-,-,-⟩ := advanceEpoch_cases hr
    exact ⟨hp,ValidatorSet.advanceEpoch_powered had,
      ValidatorSet.advanceEpoch_reported h.placed h.reported hst had⟩
  | advanceEpochSafeMode params =>
    have hv := hpl (exec_profile hr trivial).1
    iterate 5 obtain ⟨_,hr⟩ := ok_of_bind hr
    cases hr
    exact h.of_sameView hp hv hs
  | _ =>
    have hv := hpl (exec_profile hr trivial).1
    obtain ⟨_,hr⟩ := ok_of_bind hr
    cases hr
    exact h.of_sameView hp hv hs

theorem accountable_initial (h : Initial validateMetadata s) : Accountable s := by
  have hp := wellPlaced_initial h
  obtain ⟨specs,allocations,parameters,supply,version,timestamp,h⟩ := h
  obtain ⟨_,_,activated,-,-,-,hn,hr,-,-⟩ := genesis_cases h
  iterate 2 obtain ⟨_,hn⟩ := ok_of_bind hn
  obtain ⟨powers,hpw,hn⟩ := of_bind hn
  have hv := (ok.inj hn).symm
  refine ⟨hp,?_,?_⟩
  · rw [hv]
    exact (ValidatorSet.sum_powerAt_of_setVotingPower hpw).le
  rw [hr]
  rintro x ⟨_,he,-⟩
  cases he

/-- As long as epoch changes leave the validators in the records their seats, these are committee
members and the slashed validators of the epoch are found. -/
theorem records_name_members
    (hreached : Machine.Reached (Initial validateMetadata) (exec validateMetadata) Seating s) :
    (∀ x, Named s.validatorReportRecords x →
      s.validators.isCommitteeValidatorByIotaAddress x = true) ∧
    (∀ reportee reporters, (reportee,reporters) ∈ s.validatorReportRecords.contents →
      ∃ votes, s.validators.sumCommitteeVotingPowerByAddresses reporters.contents = .ok votes) ∧
    ∃ slashed, s.validators.computeSlashedValidators s.validatorReportRecords = .ok slashed := by
  have h : Accountable s := by
    induction hreached with
    | init hi => exact accountable_initial hi
    | step _ hs hr ih => exact ih.exec hs hr
  have hn := h.placed.active_distinct
  refine ⟨fun x hx => ?_,fun reportee reporters he => ?_,?_⟩
  · exact (ValidatorSet.isCommitteeValidatorByIotaAddress_iff hn).mpr (h.reported x hx)
  · exact ⟨_,ValidatorSet.sumCommitteeVotingPowerByAddresses_ok h.powered hn reporters.nodup
      fun x hx => h.reported x ⟨_,he,.inr hx⟩⟩
  · exact ⟨_,ValidatorSet.computeSlashedValidators_ok h.powered hn h.reported⟩

/-- A genesis with four validators, the second with the least stake. -/
def fourGenesis : Tx SystemState :=
  genesis (fun _ => true)
    [(1,.numbered 1),(2,.numbered 2),(3,.numbered 3),(4,.numbered 4)]
    [(1,5000000000),(2,4000000000),(3,5000000000),(4,5000000000)]
    ⟨2,10,2000000000,1500000000,1000000000,7⟩ 100000000000 1 0

/-- The first epoch change, with a number of seats in the next committee. -/
def seatParams (maxCommitteeMembersCount : Nat) : AdvanceEpochParams :=
  { Ledger.computationOnly 1 0 0 with
    maxCommitteeMembersCount
    scores := [maxScore,maxScore,maxScore,maxScore] }

/-- Validator 1 reports validator 2, and all keep their seats. -/
theorem records_name_members_kept : ∃ s,
    Machine.Reached (Initial fun _ => true) (exec fun _ => true) Seating s ∧ s.epoch = 1 ∧
      s.validatorReportRecords.keys = [2] ∧
      s.validators.isCommitteeValidatorByIotaAddress 2 = true ∧
      ∃ slashed, s.validators.computeSlashedValidators s.validatorReportRecords = .ok slashed := by
  obtain ⟨s0,hs0,s1,hr1,hst,s,hrn,hep,hk⟩ : ∃ s0, fourGenesis = .ok s0 ∧
      ∃ s1, exec (fun _ => true) s0 (.reportValidator 0 1 2) = .ok s1 ∧
        s1.validators.activeValidators.length + s1.validators.pendingActiveValidators.length ≤ 4 ∧
      ∃ s, exec (fun _ => true) s1 (.advanceEpoch (seatParams 4)) = .ok s ∧
        s.epoch = 1 ∧ s.validatorReportRecords.keys = [2] := by decide +kernel
  have hrp : Seating s0 (.reportValidator 0 1 2) := trivial
  have ha : Seating s1 (.advanceEpoch (seatParams 4)) := .inr ⟨hst,.inl rfl⟩
  have hi : Initial (fun _ => true) s0 := ⟨_,_,_,_,_,_,hs0⟩
  have hr : Machine.Reached (Initial fun _ => true) (exec fun _ => true) Seating s :=
    .step (.step (.init hi) hrp hr1) ha hrn
  have hn : Named s.validatorReportRecords 2 := by
    obtain ⟨reporters,he⟩ := VecMap.mem_keys.mp (hk ▸ mem_singleton_self 2)
    exact ⟨_,he,.inl rfl⟩
  obtain ⟨hm,-,hs⟩ := records_name_members hr
  exact ⟨s,hr,hep,hk,hm 2 hn,hs⟩

/-- Validator 2 is reported and loses its seat, but stays active with its record: the next epoch
change aborts. -/
theorem reported_validator_loses_seat : ∃ s,
    Machine.Reached (Initial fun _ => true) (exec fun _ => true) (fun _ _ => True) s ∧
      s.validatorReportRecords.keys = [2] ∧
      2 ∈ s.validators.activeValidatorAddresses ∧
      s.validators.isCommitteeValidatorByIotaAddress 2 = false ∧
      s.validators.computeSlashedValidators s.validatorReportRecords =
        .error (.code .nonValidatorInReportRecords) := by
  obtain ⟨s0,hs0,s1,hr1,s,hr,hs⟩ : ∃ s0, fourGenesis = .ok s0 ∧
      ∃ s1, exec (fun _ => true) s0 (.reportValidator 0 1 2) = .ok s1 ∧
      ∃ s, exec (fun _ => true) s1 (.advanceEpoch (seatParams 3)) = .ok s ∧
        s.validatorReportRecords.keys = [2] ∧ 2 ∈ s.validators.activeValidatorAddresses ∧
        s.validators.isCommitteeValidatorByIotaAddress 2 = false ∧
        s.validators.computeSlashedValidators s.validatorReportRecords =
          .error (.code .nonValidatorInReportRecords) := by decide +kernel
  have hi : Initial (fun _ => true) s0 := ⟨_,_,_,_,_,_,hs0⟩
  exact ⟨s,.step (.step (.init hi) trivial hr1) trivial hr,hs⟩

end SystemState
end Iota.System
