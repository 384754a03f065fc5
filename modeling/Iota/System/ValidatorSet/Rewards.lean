import Iota.System.ValidatorSet.Frame

/-! The rewards of an epoch are divided by voting power, lowered for low scores and for reports, and
what a validator gets is divided again into its commission and the share of its stakers. Every
division rounds down, so no balance is split below zero. -/
namespace Iota.System.ValidatorSet
open Except List Move VotingPower

/-- Every failure but that of a balance that is split below zero. -/
def NoSplit (e : Abort Error) : Prop := e ≠ .code .notEnough

section Payment
variable {v : Validator} {amount : Nat}

def rates (v : Validator) : Nat × Nat := (v.commissionRate,v.votingPower)

/-- A commission is staked for the validator and a share is deposited for its stakers. -/
def pay (v : Validator) (commission share epoch : Nat) : Tx Validator := do
  let v ← (if 0 < commission then do
    let (v,_) ← v.requestAddStake commission epoch
    .ok v
    else .ok v)
  v.depositStakeRewards share

theorem noSplit_of_overflows (e : Abort Error) (h : Overflows e) : NoSplit e := by
  rw [h]
  exact nofun

theorem add_noSplit (a b : Nat) : (add a b : Tx Nat).Satisfies NoSplit fun c => c = a + b :=
  (add_satisfies a b).weaken noSplit_of_overflows

theorem assert_noSplit {p : Prop} [Decidable p] {e : Error} (h : e ≠ .notEnough) :
    (assert p e : Tx Unit).Satisfies NoSplit fun _ => True := by
  unfold assert
  split
  · trivial
  · exact fun he => h (by simpa using he)

theorem get_noSplit (vs : List Validator) (i : Nat) :
    (get vs i : Tx Validator).Satisfies NoSplit fun v => vs[i]? = some v := by
  unfold Move.get
  cases vs[i]? with
  | none => exact nofun
  | some v => rfl

theorem requestAddStake_noSplit (v : Validator) (stake epoch : Nat) :
    (v.requestAddStake stake epoch).Satisfies NoSplit fun r => rates r.1 = rates v := by
  unfold Validator.requestAddStake StakingPool.requestAddStake
  refine (assert_noSplit (by decide)).bind fun _ _ => ?_
  refine (add_noSplit _ _).bind fun _ _ => ?_
  refine Satisfies.bind (p := fun _ => True) ?_ fun r _ => ?_
  · refine (assert_noSplit (by decide)).bind fun _ _ => ?_
    refine (assert_noSplit (by decide)).bind fun _ _ => ?_
    exact (add_noSplit _ _).bind fun _ _ => trivial
  refine Satisfies.bind (p := fun _ => True) ?_ fun _ _ => ?_
  · split
    · exact (StakingPool.processPendingStake_satisfies.weaken noSplit_of_overflows).mono
        fun _ _ => trivial
    · trivial
  · exact (add_noSplit _ _).bind fun _ _ => rfl

theorem pay_noSplit (v : Validator) (commission share epoch : Nat) :
    (pay v commission share epoch).Satisfies NoSplit fun v' => rates v' = rates v := by
  refine Satisfies.bind (p := fun v' => rates v' = rates v) ?_ fun w hw => ?_
  · split
    · exact (requestAddStake_noSplit v commission epoch).bind fun _ h => h
    · rfl
  refine (add_noSplit _ _).bind fun _ _ => ?_
  refine Satisfies.bind (p := fun _ => True) ?_ fun _ _ => hw
  exact (add_noSplit _ _).bind fun _ _ => (add_noSplit _ _).bind fun _ _ => trivial

theorem rewardValidator_eq (epoch : Nat) (ha : amount < 2 ^ 64)
    (hr : v.commissionRate ≤ basisPointDenominator) (hp : v.votingPower ≤ basisPointDenominator) :
    ∃ commission share, commission + share = amount ∧
      rewardValidator v amount epoch = pay v commission share epoch := by
  have hle : amount * max v.commissionRate v.votingPower / basisPointDenominator ≤ amount :=
    Nat.div_le_of_le_mul (by
      rw [Nat.mul_comm basisPointDenominator]
      exact Nat.mul_le_mul_left amount (max_le hr hp))
  refine ⟨_,_,Nat.add_sub_of_le hle,?_⟩
  rw [rewardValidator,castU64_eq_ok.mpr ⟨by omega,rfl⟩,ok_bind,Balance.split,assert_ok hle,
    ok_bind,sub_ok hle]
  rfl

end Payment
section Division
variable {validators : List Validator} {members : List Nat} {rewards : Nat}

theorem sum_mul_div_le (shares : List Nat) (rewards total : Nat) :
    (shares.map fun n => n * rewards / total).sum ≤ shares.sum * rewards / total := by
  induction shares with
  | nil => exact Nat.zero_le _
  | cons n rest ih =>
    rw [map_cons,sum_cons,sum_cons,Nat.add_mul]
    exact (Nat.add_le_add_left ih _).trans (Nat.div_add_div_le_add_div)

theorem computeUnadjusted_eq (hr : ∀ i ∈ members, i < validators.length)
    (hs : (members.map (powerAt validators)).sum = totalVotingPower) (hrw : rewards < 2 ^ 64) :
    computeUnadjustedRewardDistribution validators members totalVotingPower rewards =
      .ok (members.map fun i => powerAt validators i * rewards / totalVotingPower) := by
  obtain ⟨ms,ht,-⟩ := take_spec validators members hr
  have hms := powerAt_of_take ht
  rw [computeUnadjustedRewardDistribution,ht,ok_bind]
  have hrn : ∀ v ∈ ms, div (v.votingPower * rewards) totalVotingPower >>= castU64 =
      (.ok (v.votingPower * rewards / totalVotingPower) : Tx Nat) := by
    intro v hv
    have hle : v.votingPower ≤ totalVotingPower := by
      rw [← hs,← hms]
      exact le_sum_of_mem (mem_map_of_mem hv)
    have hlt : v.votingPower * rewards / totalVotingPower ≤ rewards :=
      Nat.div_le_of_le_mul (Nat.mul_le_mul_right _ hle)
    exact castU64_eq_ok.mpr ⟨by omega,rfl⟩
  have hm := congrArg (map fun n => n * rewards / totalVotingPower) hms
  rw [map_map,map_map] at hm
  exact (mapM_eq_ok_map hrn).trans (congrArg _ hm)

theorem adjustedReward_le {score rate amount : Nat} (slashed byScore : Bool)
    (hsc : score ≤ maxScore) (hr : rate ≤ basisPointDenominator) (ha : amount < 2 ^ 64) :
    ∃ adjusted, adjustedReward slashed rate score byScore amount = .ok adjusted ∧
      adjusted ≤ amount := by
  have hs : (if byScore then score * amount / maxScore else amount) ≤ amount := by
    split
    · exact Nat.div_le_of_le_mul (Nat.mul_le_mul_right _ hsc)
    · exact le_rfl
  unfold adjustedReward
  generalize (if byScore then score * amount / maxScore else amount) = scored at hs ⊢
  have hsl : scored * rate / basisPointDenominator ≤ scored :=
    Nat.div_le_of_le_mul (Nat.mul_comm scored _ ▸ Nat.mul_le_mul_left _ hr)
  cases slashed with
  | false => exact ⟨scored,castU64_eq_ok.mpr ⟨by omega,rfl⟩,hs⟩
  | true =>
    have hle := (Nat.sub_le scored (scored * rate / basisPointDenominator)).trans hs
    simp only [if_true,sub_ok hsl,ok_bind]
    exact ⟨_,castU64_eq_ok.mpr ⟨hle.trans_lt ha,rfl⟩,hle⟩

theorem computeAdjusted_le {unadjusted : List Nat} {params : AdvanceEpochParams}
    (slashed : VecSet Nat) (hl : members.length = unadjusted.length)
    (ha : ∀ n ∈ unadjusted, n < 2 ^ 64) (hsc : params.scores.length = members.length)
    (hsr : ∀ s ∈ params.scores, s ≤ maxScore)
    (hr : params.rewardSlashingRate ≤ basisPointDenominator) :
    ∃ adjusted, computeAdjustedRewardDistribution members unadjusted slashed params =
      .ok adjusted ∧ Forall₂ (· ≤ ·) adjusted unadjusted := by
  obtain ⟨adjusted,hrn,hle⟩ := exists_mapM_forall₂ (r := fun x y => y ≤ x.1.2)
    (f := fun x => adjustedReward (slashed.contains x.1.1)
      params.rewardSlashingRate x.2 params.adjustRewardsByScore x.1.2)
    fun x (hx : x ∈ (members.zip unadjusted).zip params.scores) => by
      obtain ⟨hp,hs⟩ := of_mem_zip hx
      exact adjustedReward_le _ _ (hsr _ hs) hr (ha _ (of_mem_zip hp).2)
  refine ⟨adjusted,?_,?_⟩
  · rw [computeAdjustedRewardDistribution,assert_ok hl,ok_bind,
      assert_ok (hl.symm.trans hsc.symm),ok_bind]
    exact hrn
  have hm : ((members.zip unadjusted).zip params.scores).map (fun x => x.1.2) =
      unadjusted := by
    have hf : ((members.zip unadjusted).zip params.scores).map Prod.fst =
        members.zip unadjusted := map_fst_zip (by simp [hl,hsc])
    have hsn : (members.zip unadjusted).map Prod.snd = unadjusted := map_snd_zip hl.ge
    rw [← hf,map_map] at hsn
    exact hsn
  rw [← hm,forall₂_map_right_iff]
  exact hle.flip

end Division

section Paying
variable {validators : List Validator} {members adjusted : List Nat} {rewards : Nat}

/-- What is left covers what is still to be paid, and the rates are those of the start. -/
structure Paying (validators : List Validator) (members : List Nat) (total rewards : Nat)
    (due : List (Nat × Nat)) (s : List Validator × Nat) : Prop where
  left : s.2 + total = rewards + (due.map Prod.snd).sum
  le_total : (due.map Prod.snd).sum ≤ total
  mem : due.map Prod.fst ⊆ members
  rates : s.1.map rates = validators.map rates

theorem distributeReward_noSplit (epoch : Nat) (hle : adjusted.sum ≤ rewards)
    (hrw : rewards < 2 ^ 64) (hl : adjusted.length = members.length)
    (hra : ∀ v ∈ validators, v.commissionRate ≤ basisPointDenominator)
    (hpw : ∀ i ∈ members, powerAt validators i ≤ basisPointDenominator) :
    (distributeReward validators members adjusted rewards epoch).Satisfies NoSplit
      fun r => r.2 + adjusted.sum = rewards := by
  refine (assert_noSplit (by decide)).bind fun _ _ => ?_
  have hs : (members.zip adjusted).map Prod.snd = adjusted := map_snd_zip hl.le
  refine (foldlM_satisfies (Paying validators members adjusted.sum rewards) ?_ ?_).mono
    fun r hr => by simpa using hr.left
  · rintro ⟨i,amount⟩ rest ⟨vs,left⟩ h
    obtain ⟨hlf,hd,hm,hrt⟩ := h
    simp only [map_cons,sum_cons,cons_subset] at hlf hd hm hrt
    refine (get_noSplit vs i).bind fun v hv => ?_
    have ha : amount ≤ left := by omega
    obtain ⟨w,hw,hwv⟩ : ∃ w, validators[i]? = some w ∧ rates w = rates v := by
      have hi := congrArg (·[i]?) hrt
      simpa [hv] using hi.symm
    obtain ⟨hc,hvt⟩ := Prod.mk.inj hwv
    obtain ⟨commission,share,-,hp⟩ := rewardValidator_eq epoch
      (by omega : amount < 2 ^ 64) (hc ▸ hra w (mem_of_getElem? hw))
      (by simpa [powerAt,hw,hvt] using hpw i hm.1)
    rw [Balance.split,assert_ok ha,ok_bind,sub_ok ha,ok_bind,hp]
    refine (pay_noSplit v commission share epoch).bind fun v' hv' => ?_
    refine .bind_ok (set_eq_ok.mpr ⟨(List.getElem?_eq_some_iff.mp hv).1,rfl⟩) ?_
    refine ⟨by dsimp only; omega,by omega,hm.2,(map_set_of_eq hv hv').trans hrt⟩
  · refine ⟨by rw [hs],by rw [hs],?_,rfl⟩
    rw [map_fst_zip hl.ge]
    exact fun _ h => h

/-- Of the rewards of an epoch no balance is split below zero. Every reward is at most the one
before the adjustments and is divided into a commission and a share without loss. -/
theorem rewards_conserved {params : AdvanceEpochParams} (slashed : VecSet Nat) (epoch : Nat)
    (hrange : ∀ i ∈ members, i < validators.length)
    (hsum : (members.map (powerAt validators)).sum = totalVotingPower)
    (hrewards : rewards < 2 ^ 64) (hscores : params.scores.length = members.length)
    (hscore : ∀ score ∈ params.scores, score ≤ maxScore)
    (hslash : params.rewardSlashingRate ≤ basisPointDenominator)
    (hrate : ∀ v ∈ validators, v.commissionRate ≤ basisPointDenominator) :
    ∃ unadjusted adjusted,
      computeUnadjustedRewardDistribution validators members totalVotingPower rewards =
        .ok unadjusted ∧
      computeAdjustedRewardDistribution members unadjusted slashed params = .ok adjusted ∧
      Forall₂ (· ≤ ·) adjusted unadjusted ∧ adjusted.sum ≤ rewards ∧
      (distributeReward validators members adjusted rewards epoch).Satisfies
        (· ≠ .code .notEnough) (fun r => r.2 + adjusted.sum = rewards) ∧
      ∀ p ∈ members.zip adjusted, ∀ v, validators[p.1]? = some v →
        ∃ commission share, commission + share = p.2 ∧
          rewardValidator v p.2 epoch = pay v commission share epoch := by
  have hle := sum_mul_div_le (members.map (powerAt validators)) rewards totalVotingPower
  rw [hsum,map_map,Nat.mul_div_cancel_left _ (by decide)] at hle
  have hpw : ∀ i ∈ members, powerAt validators i ≤ basisPointDenominator := fun i hi =>
    (le_sum_of_mem (mem_map_of_mem hi)).trans_eq hsum
  have hlt : ∀ n ∈ members.map fun i => powerAt validators i * rewards / totalVotingPower,
      n < 2 ^ 64 := fun n hn => ((le_sum_of_mem hn).trans hle).trans_lt hrewards
  obtain ⟨adjusted,had,ha⟩ := computeAdjusted_le slashed (by simp) hlt hscores hscore hslash
  have ht : adjusted.sum ≤ rewards := ha.sum_le_sum.trans hle
  refine ⟨_,adjusted,computeUnadjusted_eq hrange hsum hrewards,had,ha,ht,
    distributeReward_noSplit epoch ht hrewards (by simp [ha.length_eq]) hrate hpw,?_⟩
  intro p hp v hv
  refine rewardValidator_eq epoch ?_ (hrate v (mem_of_getElem? hv)) ?_
  · exact ((le_sum_of_mem (of_mem_zip hp).2).trans ht).trans_lt hrewards
  · simpa [powerAt,hv] using hpw p.1 (of_mem_zip hp).1

/-- The only member has half of the highest score and is slashed at half of its reward. -/
theorem rewards_conserved_slashed :
    ∃ unadjusted adjusted,
      computeUnadjustedRewardDistribution
        [{ Validator.numbered 0 1 with votingPower := totalVotingPower }] [0] totalVotingPower
        1000 = .ok unadjusted ∧
      Forall₂ (· ≤ ·) adjusted unadjusted ∧ adjusted.sum ≤ 1000 := by
  obtain ⟨unadjusted,adjusted,hr,-,ha,hle,-⟩ := @rewards_conserved
    [{ Validator.numbered 0 1 with votingPower := totalVotingPower }] [0] 1000
    ⟨1,1,0,0,0,0,0,0,5000,0,1,[],[32768],true⟩ ⟨[0],by decide⟩ 1
    (by decide) (by decide) (by decide) rfl (by decide) (by decide) (by decide)
  exact ⟨unadjusted,adjusted,hr,ha,hle⟩

end Paying
end Iota.System.ValidatorSet
