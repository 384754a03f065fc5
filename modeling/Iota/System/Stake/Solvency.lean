import Iota.System.Stake

/-! What a pool holds against its outstanding receipts, kept by every request and every epoch
change. -/
namespace Iota.System.Account
open Except Move PoolTokenExchangeRate StakingPool
open Validator (requestAddStake_cases requestWithdrawStake_sameRates)
variable {activation last : Nat}

/-- The pool of a candidate exchanges 1:1 and holds the principals only. -/
structure Candidate (c : Account) : Prop where
  preactive : c.pool.activationEpoch = none
  rates : c.pool.exchangeRates = ∅
  balance : c.pool.iotaBalance = principalWhere (fun _ => true) c.stakes
  tokens : c.pool.poolTokenBalance = c.pool.iotaBalance
  rewards : c.pool.rewardsPool = 0
  pendingStake : c.pool.pendingStake = 0
  pendingIota : c.pool.pendingTotalIotaWithdraw = 0
  pendingTokens : c.pool.pendingPoolTokenWithdraw = 0
  next : c.validator.nextEpochStake = c.pool.iotaBalance

/-- The pool of a validator that is or was active, processed last when epoch `last` began. -/
structure Activated (c : Account) (activation last : Nat) : Prop where
  recorded : c.pool.Recorded activation last
  le : last ≤ c.epoch
  pending : c.pool.pendingStake = principalWhere (fun a => decide (last < a)) c.stakes
  balance : c.pool.iotaBalance = c.pool.pendingTotalIotaWithdraw +
    principalWhere (fun a => decide (a ≤ last)) c.stakes + c.pool.rewardsPool
  tokens : c.pool.pendingPoolTokenWithdraw +
    owed c.pool.entered c.pool.rateAt (c.epoch+2) c.stakes ≤ c.pool.poolTokenBalance
  next : c.validator.nextEpochStake + c.pool.pendingTotalIotaWithdraw =
    c.pool.iotaBalance + c.pool.pendingStake

/-- The receipts are for this pool and for epochs up to the next one. -/
structure Receipts (c : Account) : Prop where
  poolId : ∀ s ∈ c.stakes, s.poolId = c.pool.id
  le : ∀ s ∈ c.stakes, s.stakeActivationEpoch ≤ c.epoch+1

structure Solvent (c : Account) : Prop where
  receipts : Receipts c
  status : Candidate c ∨ ∃ activation last, Activated c activation last

variable {c : Account}

theorem minted_self (balance stake : Nat) : minted balance balance stake = balance + stake := by
  by_cases h : balance = 0
  · exact minted_of_empty (.inl h)
  · rw [minted_eq h h,Nat.mul_div_cancel_left _ (Nat.pos_of_ne_zero h)]

variable {v : Validator} {staked : StakedIota}

theorem Candidate.addStake (h : Candidate c) {amount : Nat}
    (ha : c.validator.requestAddStake amount c.epoch = .ok (v,staked)) :
    Candidate { c with validator := v, stakes := staked :: c.stakes } := by
  obtain ⟨-,rfl,hnx,hpl⟩ := requestAddStake_cases ha
  have hpr : c.validator.stakingPool.isPreactive = true := by
    simp [isPreactive,show c.validator.stakingPool.activationEpoch = none from h.preactive]
  rw [if_pos hpr] at hpl
  have hb := h.balance
  have ht := h.tokens
  have hp := h.pendingStake
  have hn := h.next
  simp only [pool] at hb ht hp hn
  rw [hp,ht,Nat.zero_add,minted_self] at hpl
  constructor
  · simpa [pool,hpl] using h.preactive
  · simpa [pool,hpl] using h.rates
  · simp only [pool,hpl,principalWhere_cons,if_true]
    omega
  · simp [pool,hpl]
  · simpa [pool,hpl] using h.rewards
  · simp [pool,hpl]
  · simpa [pool,hpl] using h.pendingIota
  · simpa [pool,hpl] using h.pendingTokens
  · simp only [pool,hpl]
    omega

theorem Activated.addStake {activation last : Nat} (h : Activated c activation last) {amount : Nat}
    (ha : c.validator.requestAddStake amount c.epoch = .ok (v,staked)) :
    Activated { c with validator := v, stakes := staked :: c.stakes } activation last := by
  obtain ⟨-,rfl,hnx,hpl⟩ := requestAddStake_cases ha
  have hpr : ¬c.validator.stakingPool.isPreactive = true := by
    simpa [pool] using h.recorded.isPreactive_eq
  rw [if_neg hpr] at hpl
  have hle := h.le
  have hp := h.pending
  have hb := h.balance
  have hn := h.next
  have ht := h.tokens
  have hs : c.pool.SameRates v.stakingPool := by rw [hpl]; exact ⟨rfl,rfl,rfl,rfl⟩
  have hnw : c.pool.entered (c.epoch+1) = false := h.recorded.not_entered (by omega)
  simp only [pool] at hp hb hn ht hnw hs
  constructor
  · exact hs.recorded h.recorded
  · exact hle
  · simp only [pool,hpl,principalWhere_cons,decide_eq_true_eq,if_pos (show last < c.epoch+1 by omega)]
    omega
  · simp only [pool,hpl,principalWhere_cons,decide_eq_true_eq,
      if_neg (show ¬c.epoch+1 ≤ last by omega)]
    omega
  · simp only [pool,hs.entered,hs.rateAt]
    rw [owed_cons_of_not_backed hnw]
    simpa only [hpl] using ht
  · simp only [pool,hpl]
    omega

variable {stakes : List StakedIota}

theorem Activated.of_principals {activation last : Nat} (h : Activated c activation last)
    (hs : ∀ p, principalWhere p stakes = principalWhere p c.stakes) :
    Activated { c with stakes } activation last := by
  refine ⟨h.recorded,h.le,?_,?_,?_,h.next⟩
  · rw [hs]
    exact h.pending
  · rw [hs]
    exact h.balance
  · rw [owed_congr fun a => hs _]
    exact h.tokens

theorem Candidate.of_principals (h : Candidate c)
    (hs : ∀ p, principalWhere p stakes = principalWhere p c.stakes) :
    Candidate { c with stakes } := by
  refine ⟨h.preactive,h.rates,?_,h.tokens,h.rewards,h.pendingStake,h.pendingIota,
    h.pendingTokens,h.next⟩
  rw [hs]
  exact h.balance

theorem Receipts.perm (h : Receipts c) (hp : c.stakes.Perm stakes) : Receipts { c with stakes } :=
  ⟨fun s hs => h.poolId s (hp.mem_iff.mpr hs),fun s hs => h.le s (hp.mem_iff.mpr hs)⟩

theorem Activated.processWithdraw (h : Activated c activation last) :
    ∃ pool', c.pool.processPendingStakeWithdraw = .ok pool' ∧
      Activated { c with validator := { c.validator with stakingPool := pool' } }
        activation last := by
  have hb := h.balance
  have ht := h.tokens
  have hn := h.next
  refine ⟨_,processPendingStakeWithdraw_eq (by omega) (by omega),?_⟩
  have hs : c.pool.SameRates { c.pool with
      iotaBalance := c.pool.iotaBalance - c.pool.pendingTotalIotaWithdraw
      poolTokenBalance := c.pool.poolTokenBalance - c.pool.pendingPoolTokenWithdraw
      pendingTotalIotaWithdraw := 0
      pendingPoolTokenWithdraw := 0 } := ⟨rfl,rfl,rfl,rfl⟩
  constructor
  · exact hs.recorded h.recorded
  · exact h.le
  · exact h.pending
  · simp only [pool] at *
    omega
  · simp only [pool] at *
    rw [hs.entered,hs.rateAt]
    omega
  · simp only [pool] at *
    omega

variable {pool : StakingPool}

theorem withdrawInactiveStake_eq {principal epoch : Nat}
    (hp : pool.isPreactive = false) (hle : principal ≤ pool.pendingStake) :
    pool.withdrawInactiveStake principal epoch =
      .ok { pool with pendingStake := pool.pendingStake - principal } := by
  simp [withdrawInactiveStake,hp,sub_ok hle]

theorem requestWithdrawStake_satisfies
    {rate rateNow : PoolTokenExchangeRate} {epoch : Nat} (hid : staked.poolId = pool.id)
    (he : staked.stakeActivationEpoch ≤ epoch)
    (hr : pool.poolTokenExchangeRateAtEpoch staked.stakeActivationEpoch = .ok rate)
    (hn : pool.poolTokenExchangeRateAtEpoch epoch = .ok rateNow) :
    (pool.requestWithdrawStake staked epoch).Satisfies Overflows fun r =>
      ∃ rewards, rewards ≤ pool.rewardsPool ∧
        rewards ≤ rateNow.iotaOf (rate.tokensOf staked.principal) - staked.principal ∧
        r = ({ pool with
            rewardsPool := pool.rewardsPool - rewards
            pendingTotalIotaWithdraw := pool.pendingTotalIotaWithdraw + (staked.principal + rewards)
            pendingPoolTokenWithdraw :=
              pool.pendingPoolTokenWithdraw + rate.tokensOf staked.principal },
          staked.principal + rewards) := by
  unfold StakingPool.requestWithdrawStake
  rw [if_neg (Nat.not_lt.mpr he)]
  have hp : (pool.withdrawFromPrincipal staked).Satisfies Overflows fun r =>
      r = (rate.tokensOf staked.principal,staked.principal) := by
    refine .bind_ok (assert_ok hid) (.bind_ok hr ?_)
    refine (castU64_satisfies _).bind ?_
    rintro _ ⟨rfl,-⟩
    exact rfl
  refine hp.bind ?_
  rintro _ rfl
  obtain ⟨rewards,hrw⟩ : ∃ r, r = min
      (rateNow.iotaOf (rate.tokensOf staked.principal) - staked.principal) pool.rewardsPool :=
    ⟨_,rfl⟩
  have hw : (pool.withdrawRewards staked.principal (rate.tokensOf staked.principal)
      epoch).Satisfies Overflows fun r =>
        r = ({ pool with rewardsPool := pool.rewardsPool - rewards },rewards) := by
    refine .bind_ok hn ((castU64_satisfies _).bind ?_)
    rintro _ ⟨rfl,-⟩
    have hs : Balance.split pool.rewardsPool rewards = .ok (pool.rewardsPool - rewards) := by
      have hle : rewards ≤ pool.rewardsPool := by omega
      simp [Balance.split,assert_ok hle,sub_ok hle]
    simp only [← hrw]
    exact .bind_ok hs rfl
  refine hw.bind ?_
  rintro _ rfl
  refine (add_satisfies _ _).bind ?_
  rintro _ rfl
  refine (add_satisfies _ _).bind ?_
  rintro _ rfl
  refine (add_satisfies _ _).bind ?_
  rintro _ rfl
  exact ⟨rewards,by omega,by omega,rfl⟩

theorem Activated.settle {pool' : StakingPool} {epoch amount principal : Nat}
    (h : Activated ⟨{ v with stakingPool := pool', nextEpochStake := v.nextEpochStake - amount },
      stakes,epoch⟩ activation last) (hpn : principal ≤ amount) (ham : amount ≤ v.nextEpochStake) :
    ((do
      let stakingPool ← (if pool'.isPreactive || pool'.isInactive then
        pool'.processPendingStakeWithdraw else .ok pool')
      let _ ← (sub amount principal : Tx Nat)
      let nextEpochStake ← sub v.nextEpochStake amount
      .ok ({ v with stakingPool, nextEpochStake },amount)) :
        Tx (Validator × Nat)).Satisfies Overflows fun r =>
          Activated ⟨r.1,stakes,epoch⟩ activation last := by
  obtain ⟨pool'',hpr,haf⟩ := h.processWithdraw
  have hpl : ∃ p, (if pool'.isPreactive || pool'.isInactive then
      pool'.processPendingStakeWithdraw else .ok pool') = .ok p ∧
      Activated ⟨{ v with stakingPool := p, nextEpochStake := v.nextEpochStake - amount },
        stakes,epoch⟩ activation last := by
    split
    · exact ⟨pool'',hpr,haf⟩
    · exact ⟨pool',rfl,h⟩
  obtain ⟨p,hp,ha⟩ := hpl
  refine .bind_ok hp (.bind_ok (sub_ok hpn) (.bind_ok (sub_ok ham) ?_))
  exact ha

theorem Activated.withdraw {s : StakedIota} {rest : List StakedIota}
    (h : Activated c activation last) (hst : c.stakes = s :: rest) (hid : s.poolId = c.pool.id)
    (htm : c.epoch < s.stakeActivationEpoch ∨ c.pool.entered s.stakeActivationEpoch = true) :
    (c.validator.requestWithdrawStake s c.epoch).Satisfies Overflows fun r =>
      Activated { c with validator := r.1, stakes := rest } activation last := by
  have hp := h.pending
  have hb := h.balance
  have ht := h.tokens
  have hn := h.next
  have hle := h.le
  rw [hst,principalWhere_cons] at hp hb
  rw [hst] at ht
  simp only [decide_eq_true_eq] at hp hb
  by_cases hep : c.epoch < s.stakeActivationEpoch
  · rw [if_pos (by omega)] at hp
    rw [if_neg (by omega)] at hb
    have hr : c.pool.requestWithdrawStake s c.epoch =
        .ok ({ c.pool with pendingStake := c.pool.pendingStake - s.principal },s.principal) := by
      rw [StakingPool.requestWithdrawStake,if_pos hep,
        withdrawInactiveStake_eq h.recorded.isPreactive_eq (by omega)]
      rfl
    refine .bind_ok hr (Activated.settle ?_ le_rfl (by omega))
    have hs : c.pool.SameRates
        { c.pool with pendingStake := c.pool.pendingStake - s.principal } := ⟨rfl,rfl,rfl,rfl⟩
    refine ⟨hs.recorded h.recorded,hle,?_,?_,?_,?_⟩
    · simp only [pool] at *
      omega
    · simp only [pool] at *
      omega
    · simp only [pool] at *
      rw [hs.entered,hs.rateAt]
      have : owed c.validator.stakingPool.entered c.validator.stakingPool.rateAt (c.epoch+2) rest ≤
          owed c.validator.stakingPool.entered c.validator.stakingPool.rateAt (c.epoch+2)
            (s :: rest) := owed_le_cons
      omega
    · simp only [pool] at *
      omega
  · have he : c.pool.entered s.stakeActivationEpoch = true := by
      rcases htm with hlt | hin
      · exact absurd hlt hep
      · exact hin
    have hl : s.stakeActivationEpoch ≤ last := by
      by_contra hgt
      rw [h.recorded.not_entered (by omega)] at he
      cases he
    rw [if_neg (by omega)] at hp
    rw [if_pos hl] at hb
    have htk : (c.pool.rateAt s.stakeActivationEpoch).tokensOf s.principal +
        owed c.pool.entered c.pool.rateAt (c.epoch+2) rest ≤
        owed c.pool.entered c.pool.rateAt (c.epoch+2) (s :: rest) :=
      tokensOf_add_owed_le he (by omega)
    obtain ⟨rateNow,hnw⟩ := h.recorded.exists_rate c.epoch
    refine (requestWithdrawStake_satisfies hid (by omega) (h.recorded.rate_eq he) hnw).bind ?_
    rintro _ ⟨rewards,hrw,-,rfl⟩
    refine Activated.settle ?_ (Nat.le_add_right _ _) (by simp only [pool] at *; omega)
    have hs : c.pool.SameRates { c.pool with
        rewardsPool := c.pool.rewardsPool - rewards
        pendingTotalIotaWithdraw := c.pool.pendingTotalIotaWithdraw + (s.principal + rewards)
        pendingPoolTokenWithdraw := c.pool.pendingPoolTokenWithdraw +
          (c.pool.rateAt s.stakeActivationEpoch).tokensOf s.principal } := ⟨rfl,rfl,rfl,rfl⟩
    refine ⟨hs.recorded h.recorded,hle,?_,?_,?_,?_⟩
    · simp only [pool] at *
      omega
    · simp only [pool] at *
      omega
    · simp only [pool] at *
      rw [hs.entered,hs.rateAt]
      omega
    · simp only [pool] at *
      omega

theorem Candidate.withdraw {s : StakedIota} {rest : List StakedIota} (h : Candidate c)
    (hs : c.stakes = s :: rest) (hid : s.poolId = c.pool.id) :
    (c.validator.requestWithdrawStake s c.epoch).Satisfies Overflows fun r =>
      Candidate { c with validator := r.1, stakes := rest } := by
  obtain ⟨hp,hra,hb,ht,hr,hps,hpi,hpt,hn⟩ := h
  rw [hs,principalWhere_cons,if_pos rfl] at hb
  have hpc : c.pool.isPreactive = true := by simp [isPreactive,hp]
  have hat : ∀ epoch, c.pool.isPreactiveAtEpoch epoch = true := by
    simp [isPreactiveAtEpoch,hp]
  have hle : s.principal ≤ c.pool.iotaBalance := by omega
  -- Both branches end with the principal taken out of both balances.
  have hpd : Candidate ⟨{ c.validator with
      stakingPool := { c.pool with
        iotaBalance := c.pool.iotaBalance - s.principal
        poolTokenBalance := c.pool.poolTokenBalance - s.principal }
      nextEpochStake := c.validator.nextEpochStake - s.principal },rest,c.epoch⟩ := by
    constructor <;> simp only [pool] at * <;> first | assumption | omega
  have hnx : s.principal ≤ c.validator.nextEpochStake := by omega
  by_cases he : c.epoch < s.stakeActivationEpoch
  · obtain ⟨pool',hp'⟩ : ∃ p, p = { c.pool with
        iotaBalance := c.pool.iotaBalance - s.principal
        poolTokenBalance := c.pool.poolTokenBalance - s.principal } := ⟨_,rfl⟩
    have hc : (pool'.checkBalanceInvariants c.epoch).Satisfies Overflows fun _ => True := by
      have hrt : pool'.poolTokenExchangeRateAtEpoch c.epoch = .ok initial := by
        have hat' := hat c.epoch
        rw [poolTokenExchangeRateAtEpoch,show pool'.isPreactiveAtEpoch c.epoch = true by
          rw [hp']; exact hat',if_pos rfl]
      refine .bind_ok hrt ((castU64_satisfies _).bind ?_)
      rintro _ ⟨rfl,-⟩
      have heq : initial.tokensOf pool'.iotaBalance = pool'.poolTokenBalance := by
        rw [tokensOf_initial,hp']
        simp only
        omega
      rw [assert_ok heq]
      trivial
    have hrq : (c.pool.requestWithdrawStake s c.epoch).Satisfies Overflows fun r =>
        r = (pool',s.principal) := by
      rw [StakingPool.requestWithdrawStake,if_pos he,withdrawInactiveStake,if_pos hpc,
        sub_ok hle,ok_bind,sub_ok (ht ▸ hle),ok_bind,← hp']
      have hrn : (pool'.checkBalanceInvariants c.epoch >>= fun _ =>
          (.ok pool' : Tx StakingPool)).Satisfies Overflows fun p => p = pool' :=
        hc.bind fun _ _ => rfl
      refine hrn.bind ?_
      rintro _ rfl
      exact rfl
    refine hrq.bind ?_
    rintro _ rfl
    have hpr' : (pool'.isPreactive || pool'.isInactive) = true := by
      rw [hp']
      simp [isPreactive,hp]
    have hpr : pool'.processPendingStakeWithdraw = .ok pool' := by
      rw [hp',processPendingStakeWithdraw_eq (by simp [hpi]) (by simp [hpt])]
      simp [hpi,hpt]
    simp only [hpr',if_true]
    refine .bind_ok hpr (.bind_ok (sub_ok le_rfl) (.bind_ok (sub_ok hnx) ?_))
    rw [hp']
    exact hpd
  · have hrt : ∀ epoch, c.pool.poolTokenExchangeRateAtEpoch epoch = .ok initial := fun epoch => by
      rw [poolTokenExchangeRateAtEpoch,if_pos (hat epoch)]
    refine (requestWithdrawStake_satisfies hid (by omega) (hrt _) (hrt _)).bind ?_
    rintro _ ⟨rewards,-,hz,rfl⟩
    obtain rfl : rewards = 0 := by simpa using hz
    simp only [tokensOf_initial,Nat.add_zero,Nat.sub_zero,hpi,hpt,Nat.zero_add]
    have hpr' : (StakingPool.isPreactive { c.pool with
        pendingTotalIotaWithdraw := s.principal, pendingPoolTokenWithdraw := s.principal } ||
        StakingPool.isInactive { c.pool with
        pendingTotalIotaWithdraw := s.principal
        pendingPoolTokenWithdraw := s.principal }) = true := by
      simp [isPreactive,hp]
    simp only [hpr',if_true]
    rw [processPendingStakeWithdraw_eq (by simpa using hle) (by simpa using ht ▸ hle),
      ok_bind,sub_ok le_rfl,ok_bind,sub_ok hnx,ok_bind]
    simpa only [Except.satisfies_ok,hpi,hpt] using hpd

/-- The pool after a processed boundary, with the exchange rate of the new epoch recorded. -/
def processed (pool : StakingPool) (newEpoch : Nat) : StakingPool :=
  let iotaBalance := pool.iotaBalance - pool.pendingTotalIotaWithdraw
  let tokens := pool.poolTokenBalance - pool.pendingPoolTokenWithdraw
  { pool with
    iotaBalance := iotaBalance + pool.pendingStake
    poolTokenBalance := minted iotaBalance tokens pool.pendingStake
    pendingStake := 0
    pendingTotalIotaWithdraw := 0
    pendingPoolTokenWithdraw := 0
    exchangeRates := pool.exchangeRates.insert newEpoch
      ⟨iotaBalance + pool.pendingStake,minted iotaBalance tokens pool.pendingStake⟩ }

variable {newEpoch epoch : Nat}

theorem processed_exchangeRates (h : newEpoch ≠ epoch) :
    (processed pool newEpoch).exchangeRates[epoch]? = pool.exchangeRates[epoch]? := by
  simp [processed,Std.ExtTreeMap.getElem?_insert_eq,h]

theorem processed_entered (h : newEpoch ≠ epoch) :
    (processed pool newEpoch).entered epoch = pool.entered epoch := by
  have hp : (processed pool newEpoch).isPreactiveAtEpoch epoch =
    pool.isPreactiveAtEpoch epoch := rfl
  rw [entered,entered,hp,Std.ExtTreeMap.contains_eq_isSome_getElem?,
    Std.ExtTreeMap.contains_eq_isSome_getElem?,processed_exchangeRates h]

theorem processed_rateAt (h : newEpoch ≠ epoch) :
    (processed pool newEpoch).rateAt epoch = pool.rateAt epoch := by
  have hp : (processed pool newEpoch).isPreactiveAtEpoch epoch =
    pool.isPreactiveAtEpoch epoch := rfl
  rw [rateAt,rateAt,hp,processed_exchangeRates h]

theorem processed_rate {activation last epoch : Nat}
    (h : pool.Recorded activation last) (hl : last ≤ epoch) (ha : pool.deactivationEpoch = none) :
    (processed pool (epoch+1)).Recorded activation (epoch+1) ∧
      (processed pool (epoch+1)).entered (epoch+1) = true ∧
      (processed pool (epoch+1)).rateAt (epoch+1) =
        ⟨(processed pool (epoch+1)).iotaBalance,
          (processed pool (epoch+1)).poolTokenBalance⟩ := by
  have hr : (processed pool (epoch+1)).Recorded activation (epoch+1) :=
    h.insert (Nat.lt_succ_of_le hl) ha _ _
  have hle := h.le
  have hp : (processed pool (epoch+1)).isPreactiveAtEpoch (epoch+1) = false := by
    rw [hr.isPreactiveAtEpoch_eq]
    simp only [decide_eq_false_iff_not]
    omega
  refine ⟨hr,?_,?_⟩
  · simp [entered,processed]
  · rw [rateAt,hp]
    simp [processed]

theorem Activated.processPool (h : Activated c activation last)
    (ha : c.pool.deactivationEpoch = none) :
    (c.pool.processPendingStakesAndWithdraws c.epoch).Satisfies Overflows fun pool' =>
      pool' = processed c.pool (c.epoch+1) := by
  have hb := h.balance
  have ht := h.tokens
  refine (add_satisfies _ _).bind ?_
  rintro _ rfl
  refine .bind_ok (processPendingStakeWithdraw_eq (by omega) (by omega)) ?_
  refine processPendingStake_satisfies.bind ?_
  rintro _ ⟨-,rfl⟩
  have hf : c.pool.exchangeRates.contains (c.epoch+1) = false := by
    by_contra hne
    have := (h.recorded.range _ (by simpa using hne)).2
    have := h.le
    omega
  refine .bind_ok (addExchangeRate_eq hf) ?_
  obtain ⟨hrc,he,hr⟩ := processed_rate h.recorded h.le ha
  have hc : ((processed c.pool (c.epoch+1)).checkBalanceInvariants
      (c.epoch+1)).Satisfies Overflows fun _ => True := by
    refine .bind_ok (hrc.rate_eq he) ((castU64_satisfies _).bind ?_)
    rintro _ ⟨rfl,-⟩
    have hs : ((processed c.pool (c.epoch+1)).rateAt (c.epoch+1)).tokensOf
        (processed c.pool (c.epoch+1)).iotaBalance =
        (processed c.pool (c.epoch+1)).poolTokenBalance := by
      rw [hr]
      exact tokensOf_self minted_balanced
    rw [assert_ok hs]
    trivial
  exact hc.bind fun _ _ => rfl

theorem Activated.process (h : Activated c activation last)
    (hrc : Receipts c) (hac : c.pool.deactivationEpoch = none) :
    (c.validator.processPendingStakesAndWithdraws c.epoch).Satisfies Overflows fun v =>
      Activated { c with validator := v, epoch := c.epoch+1 } activation (c.epoch+1) ∧
        v.stakingPool = processed c.pool (c.epoch+1) := by
  have hp := h.pending
  have hb := h.balance
  have ht := h.tokens
  have hn := h.next
  have hle := h.le
  refine (h.processPool hac).bind ?_
  rintro _ rfl
  have hnx : (processed c.pool (c.epoch+1)).iotaBalance = c.validator.nextEpochStake := by
    simp only [processed]
    omega
  refine .bind_ok (assert_ok hnx) ⟨?_,rfl⟩
  obtain ⟨hr,hen,hrt⟩ := processed_rate h.recorded hle hac
  have hal : ∀ n, c.epoch+1 ≤ n → principalWhere (fun a => decide (n < a)) c.stakes = 0 :=
    fun n hn => principalWhere_eq_zero fun s hs => by
      have := hrc.le s hs
      simp only [decide_eq_false_iff_not]
      omega
  have hsp := principalWhere_split c.stakes last
  have hs' := principalWhere_split c.stakes (c.epoch+1)
  rw [hal _ le_rfl,Nat.add_zero] at hs'
  -- What was owed before the boundary is owed after it, and the new epoch's stakes besides.
  have ho : owed (processed c.pool (c.epoch+1)).entered
      (processed c.pool (c.epoch+1)).rateAt (c.epoch+1+2) c.stakes =
      owed c.pool.entered c.pool.rateAt (c.epoch+2) c.stakes +
        (⟨(processed c.pool (c.epoch+1)).iotaBalance,
          (processed c.pool (c.epoch+1)).poolTokenBalance⟩ : PoolTokenExchangeRate).tokensOf
          (principalWhere (· == c.epoch+1) c.stakes) := by
    rw [owed_succ_of_not_backed (h.recorded.not_entered (by omega)),← hrt]
    exact owed_next (fun a ha => processed_entered (by omega))
      (fun a ha => processed_rateAt (by omega)) hen (hr.not_entered (by omega))
  have he : c.pool.iotaBalance - c.pool.pendingTotalIotaWithdraw = 0 →
      owed c.pool.entered c.pool.rateAt (c.epoch+2) c.stakes = 0 := by
    intro hz
    refine owed_eq_zero fun a ha => Nat.le_zero.mp ?_
    have hl : a ≤ last := by
      by_contra hgt
      rw [h.recorded.not_entered (by omega)] at ha
      cases ha
    have : principalWhere (· == a) c.stakes ≤
        principalWhere (fun x => decide (x ≤ last)) c.stakes := by
      refine principalWhere_mono fun s _ hs => ?_
      obtain rfl : s.stakeActivationEpoch = a := by simpa using hs
      simpa using hl
    omega
  have hnw : principalWhere (· == c.epoch+1) c.stakes ≤ c.pool.pendingStake := by
    rw [hp]
    refine principalWhere_mono fun s _ hs => ?_
    obtain hs : s.stakeActivationEpoch = c.epoch+1 := by simpa using hs
    simp only [decide_eq_true_eq]
    omega
  have hf : owed c.pool.entered c.pool.rateAt (c.epoch+2) c.stakes ≤
      c.pool.poolTokenBalance - c.pool.pendingPoolTokenWithdraw := by omega
  have hm := owed_add_tokensOf_le_minted hf he hnw
  constructor
  · exact hr
  · exact le_rfl
  · exact (hal _ le_rfl).symm
  · simp only [pool,processed] at *
    omega
  · simp only [pool] at ho ⊢
    rw [ho]
    simpa only [processed,pool,Nat.zero_add] using hm
  · simp only [pool,processed] at *
    omega

theorem deactivate_eq {epoch : Nat} (h : v.stakingPool.deactivationEpoch = none) :
    v.deactivate epoch =
      .ok { v with stakingPool := { v.stakingPool with deactivationEpoch := some epoch } } := by
  have ha : v.stakingPool.isInactive = false := by simp [isInactive,h]
  simp [Validator.deactivate,deactivateStakingPool,assert_ok ha]

theorem Activated.depart {activation : Nat} (h : Activated c activation c.epoch)
    (ha : c.pool.deactivationEpoch = none) (leaves : Bool) :
    ∃ v, depart c.validator leaves c.epoch = .ok v ∧
      Activated { c with validator := v } activation c.epoch ∧ v.stakingPool.id = c.pool.id := by
  cases leaves with
  | false => exact ⟨c.validator,rfl,h,rfl⟩
  | true =>
    refine ⟨_,deactivate_eq ha,?_,rfl⟩
    obtain ⟨⟨hr1,hr2,hr3,hr4,hr5,-⟩,hle,hp,hb,ht,hn⟩ := h
    refine ⟨⟨hr1,hr2,hr3,hr4,hr5,?_⟩,hle,hp,hb,ht,hn⟩
    intro epoch heq
    exact (Option.some.inj heq).symm

theorem Candidate.activate (h : Candidate c) {newEpoch : Nat}
    (hrp : ∀ s ∈ c.stakes, s.stakeActivationEpoch ≤ newEpoch)
    (hv : c.validator.activate newEpoch = .ok v) :
    Activated { c with validator := v, epoch := newEpoch } newEpoch newEpoch ∧
      v.stakingPool.deactivationEpoch = none ∧ v.stakingPool.id = c.pool.id := by
  obtain ⟨hpr,hrt,hb,ht,hr,hps,hpi,hpt,hn⟩ := h
  have he : c.pool.exchangeRates.contains newEpoch = false := by simp [hrt]
  obtain ⟨ha,hp⟩ : c.pool.deactivationEpoch = none ∧ v = { c.validator with
      stakingPool := { c.pool with
        exchangeRates := c.pool.exchangeRates.insert newEpoch initial
        activationEpoch := some newEpoch } } := by
    obtain ⟨_,hv,heq⟩ := of_bind hv
    obtain ⟨_,had,hv⟩ := of_bind hv
    cases (addExchangeRate_eq he).symm.trans had
    obtain ⟨_,hv⟩ := ok_of_bind hv
    obtain ⟨_,hin,hv⟩ := of_bind hv
    cases hv
    cases heq
    exact ⟨by simpa [isInactive] using assert_eq_ok.mp hin,rfl⟩
  subst hp
  obtain ⟨pool',hp'⟩ : ∃ p, p = { c.pool with
      exchangeRates := c.pool.exchangeRates.insert newEpoch initial
      activationEpoch := some newEpoch } := ⟨_,rfl⟩
  have hrc : pool'.Recorded newEpoch newEpoch := by
    rw [hp']
    refine ⟨rfl,le_rfl,?_,?_,?_,?_⟩
    · simp
    · simp
    · intro epoch hc
      have : newEpoch = epoch := by
        simpa [hrt,Std.ExtTreeMap.contains_insert] using hc
      omega
    · simp [ha]
  have hra : ∀ a, pool'.rateAt a = initial := by
    intro a
    rw [rateAt,hp']
    simp only [hrt,Std.ExtTreeMap.getElem?_insert_eq]
    split
    · rfl
    · split <;> simp
  have ho : owed pool'.entered pool'.rateAt (newEpoch+2) c.stakes ≤ c.pool.iotaBalance := by
    calc owed pool'.entered pool'.rateAt (newEpoch+2) c.stakes
        ≤ ∑ a ∈ Finset.range (newEpoch+2), principalWhere (· == a) c.stakes := by
          refine Finset.sum_le_sum fun a _ => ?_
          rw [hra a,tokensOf_initial]
          split
          · exact le_rfl
          · exact Nat.zero_le _
      _ = principalWhere (fun a => decide (a < newEpoch+2)) c.stakes := sum_principalWhere _
      _ ≤ principalWhere (fun _ => true) c.stakes := principalWhere_mono fun _ _ _ => rfl
      _ = c.pool.iotaBalance := hb.symm
  have haf : principalWhere (fun a => decide (newEpoch < a)) c.stakes = 0 :=
    principalWhere_eq_zero fun s hs => by simpa using hrp s hs
  have hsp := principalWhere_split c.stakes newEpoch
  rw [hp'] at hrc ho
  refine ⟨⟨hrc,le_rfl,?_,?_,?_,?_⟩,ha,rfl⟩
  · simp only [pool] at *
    omega
  · simp only [pool] at *
    omega
  · simp only [pool] at *
    omega
  · simp only [pool] at *
    omega

theorem Activated.skip (h : Activated c activation last) :
    Activated { c with epoch := c.epoch+1 } activation last := by
  refine ⟨h.recorded,h.le.trans (Nat.le_succ _),h.pending,h.balance,?_,h.next⟩
  have hle := h.le
  have hn : c.pool.entered (c.epoch+2) = false := h.recorded.not_entered (by omega)
  have := h.tokens
  rw [← owed_succ_of_not_backed hn] at this
  exact this

theorem Candidate.skip (h : Candidate c) : Candidate { c with epoch := c.epoch+1 } := by
  obtain ⟨hp,hrt,hb,ht,hr,hps,hpi,hpt,hn⟩ := h
  exact ⟨hp,hrt,hb,ht,hr,hps,hpi,hpt,hn⟩

end Iota.System.Account
