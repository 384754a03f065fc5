import Iota.Lib.Run
import Iota.System.Validator

/-! A validator's pool together with the receipts of its stakers, through stake requests,
withdrawals and epoch changes. Amounts are converted between tokens of different epochs by floor
division, so what the pool owes is accounted for per activation epoch. -/
namespace Iota.System
open Except Finset Move Nat PoolTokenExchangeRate

/-- A validator, the outstanding receipts of its pool and the current epoch. -/
structure Account where
  validator : Validator
  stakes : List StakedIota
  epoch : Nat

/-- What happens to a pool. An epoch change processes the pool of an active validator, which may
leave in it; a pending validator becomes active in one. -/
inductive StakeOp
  | addStake (amount : Nat)
  | withdraw (k : Nat)
  | split (k amount : Nat)
  | join (k l : Nat)
  | depositRewards (amount : Nat)
  | endEpoch (leaves : Bool)
  | activate (leaves : Bool)
  | removeCandidate
  | safeMode
deriving DecidableEq, Repr

namespace Account

def pool (c : Account) : StakingPool := c.validator.stakingPool

def isActive (c : Account) : Bool := !c.pool.isPreactive && !c.pool.isInactive

def depart (v : Validator) (leaves : Bool) (newEpoch : Nat) : Tx Validator :=
  if leaves then v.deactivate newEpoch else .ok v

def exec (c : Account) : StakeOp → Tx Account
  | .addStake amount => do
    let (validator,staked) ← c.validator.requestAddStake amount c.epoch
    .ok { c with validator, stakes := staked :: c.stakes }
  | .withdraw k => do
    let (staked,stakes) ← remove c.stakes k
    let (validator,_) ← c.validator.requestWithdrawStake staked c.epoch
    .ok { c with validator, stakes }
  | .split k amount => do
    let (staked,stakes) ← remove c.stakes k
    let (rest,part) ← staked.split amount
    .ok { c with stakes := rest :: part :: stakes }
  | .join k l => do
    let (staked,stakes) ← remove c.stakes k
    let (other,stakes) ← remove stakes l
    let joined ← staked.join other
    .ok { c with stakes := joined :: stakes }
  | .depositRewards amount => do
    let validator ← c.validator.depositStakeRewards amount
    .ok { c with validator }
  | .endEpoch leaves =>
    if c.isActive then do
      let validator ← c.validator.processPendingStakesAndWithdraws c.epoch
      let validator ← depart validator leaves (c.epoch+1)
      .ok { c with validator, epoch := c.epoch+1 }
    else .ok { c with epoch := c.epoch+1 }
  | .activate leaves => do
    let validator ← c.validator.activate (c.epoch+1)
    let validator ← depart validator leaves (c.epoch+1)
    .ok { c with validator, epoch := c.epoch+1 }
  | .removeCandidate => do
    assert (c.pool.isPreactive = true) Error.validatorNotCandidate
    let validator ← c.validator.deactivate c.epoch
    .ok { c with validator }
  | .safeMode => .ok { c with epoch := c.epoch+1 }

structure Fresh (v : Validator) : Prop where
  pool : v.stakingPool = StakingPool.new v.stakingPool.id
  nextEpochStake : v.nextEpochStake = 0

/-- The stakes of a genesis validator, all active from epoch 0, before its activation. -/
def genesisStakes (v : Validator) (amounts : List Nat) : Tx Account :=
  amounts.foldlM (fun c amount => do
    let (validator,staked) ← c.validator.requestAddStakeAtGenesis amount 0
    .ok { c with validator, stakes := staked :: c.stakes }) ⟨v,[],0⟩

def genesis (v : Validator) (amounts : List Nat) : Tx Account := do
  let c ← genesisStakes v amounts
  let validator ← c.validator.activate 0
  .ok { c with validator }

/-- A new candidate at some epoch, or a genesis validator. -/
def Initial (c : Account) : Prop :=
  (Fresh c.validator ∧ c.stakes = []) ∨
    ∃ v amounts, Fresh v ∧ genesis v amounts = .ok c

end Account

/-! ### Receipts -/
namespace StakedIota
variable {s other : StakedIota}

theorem split_cases {amount : Nat} {left part : StakedIota} (h : s.split amount = .ok (left,part)) :
    amount ≤ s.principal ∧ left = { s with principal := s.principal - amount } ∧
      part = { s with principal := amount } := by
  obtain ⟨_,hle,h⟩ := of_bind h
  obtain ⟨_,hs,h⟩ := of_bind h
  iterate 2 obtain ⟨_,h⟩ := ok_of_bind h
  obtain ⟨-,rfl⟩ := sub_eq_ok.mp hs
  cases h
  exact ⟨assert_eq_ok.mp hle,rfl,rfl⟩

theorem join_cases {joined : StakedIota} (h : s.join other = .ok joined) :
    s.stakeActivationEpoch = other.stakeActivationEpoch ∧
      joined = { s with principal := s.principal + other.principal } := by
  obtain ⟨_,heq,h⟩ := of_bind h
  obtain ⟨_,hs,h⟩ := of_bind h
  obtain ⟨-,rfl⟩ := add_eq_ok.mp hs
  cases h
  have hm := assert_eq_ok.mp heq
  simp only [isEqualStakingMetadata,Bool.and_eq_true,beq_iff_eq] at hm
  exact ⟨hm.2,rfl⟩

end StakedIota

/-! ### Exchange rates -/
namespace PoolTokenExchangeRate
variable {rate : PoolTokenExchangeRate}

@[simp] theorem tokensOf_initial (x : Nat) : initial.tokensOf x = x := by simp [tokensOf,initial]

@[simp] theorem iotaOf_initial (x : Nat) : initial.iotaOf x = x := by simp [iotaOf,initial]

@[simp] theorem tokensOf_zero : rate.tokensOf 0 = 0 := by simp [tokensOf]

theorem tokensOf_add_le (x y : Nat) :
    rate.tokensOf x + rate.tokensOf y ≤ rate.tokensOf (x + y) := by
  unfold tokensOf
  split
  · exact le_rfl
  · rw [mul_add]
    exact div_add_div_le_add_div

theorem tokensOf_mono {x y : Nat} (h : x ≤ y) : rate.tokensOf x ≤ rate.tokensOf y := by
  obtain ⟨z,rfl⟩ := Nat.exists_eq_add_of_le h
  exact (le_add_right _ _).trans (tokensOf_add_le x z)

theorem tokensOf_self {iota tokens : Nat} (h : iota = 0 ∨ tokens = 0 → tokens = iota) :
    (⟨iota,tokens⟩ : PoolTokenExchangeRate).tokensOf iota = tokens := by
  unfold tokensOf
  split
  · next hz => exact (h hz).symm
  · next hne =>
    have hp : 0 < iota := pos_of_ne_zero fun h0 => hne (.inl h0)
    exact Nat.mul_div_cancel _ hp

variable {iota tokens stake : Nat}

def minted (iota tokens stake : Nat) : Nat :=
  (⟨iota,tokens⟩ : PoolTokenExchangeRate).tokensOf (iota + stake)

theorem minted_eq (hi : iota ≠ 0) (ht : tokens ≠ 0) :
    minted iota tokens stake = tokens + tokens * stake / iota := by
  have hp : 0 < iota := pos_of_ne_zero hi
  simp only [minted,tokensOf,hi,ht,or_self,if_false]
  rw [mul_add,mul_comm tokens iota,mul_add_div hp]

theorem minted_of_empty (h : iota = 0 ∨ tokens = 0) : minted iota tokens stake = iota + stake := by
  simp [minted,tokensOf,h]

theorem minted_balanced : iota + stake = 0 ∨ minted iota tokens stake = 0 →
    minted iota tokens stake = iota + stake := by
  intro h
  by_cases he : iota = 0 ∨ tokens = 0
  · exact minted_of_empty he
  obtain ⟨hi,ht⟩ := not_or.mp he
  have := le_add_right tokens (tokens * stake / iota)
  rw [minted_eq hi ht] at h
  rcases h with h | h <;> omega

theorem owed_add_tokensOf_le_minted {owed x : Nat} (ho : owed ≤ tokens)
    (he : iota = 0 → owed = 0) (hx : x ≤ stake) :
    owed + (⟨iota + stake,minted iota tokens stake⟩ : PoolTokenExchangeRate).tokensOf x ≤
      minted iota tokens stake := by
  by_cases h : iota = 0 ∨ tokens = 0
  · have hz : owed = 0 := by
      rcases h with h | h
      · exact he h
      · omega
    rw [minted_of_empty h,hz,zero_add]
    calc (⟨iota + stake,iota + stake⟩ : PoolTokenExchangeRate).tokensOf x
        ≤ (⟨iota + stake,iota + stake⟩ : PoolTokenExchangeRate).tokensOf (iota + stake) :=
          tokensOf_mono (hx.trans (le_add_left _ _))
      _ = iota + stake := tokensOf_self fun _ => rfl
  · obtain ⟨hi,ht⟩ := not_or.mp h
    have hn : minted iota tokens stake = tokens + tokens * stake / iota := minted_eq hi ht
    have hp : 0 < iota := pos_of_ne_zero hi
    -- The rate does not rise: the minted tokens are a floor.
    have hr : minted iota tokens stake * iota ≤ tokens * (iota + stake) := by
      rw [hn,add_mul,mul_add]
      have := div_mul_le_self (tokens * stake) iota
      omega
    have hle : (⟨iota + stake,minted iota tokens stake⟩ : PoolTokenExchangeRate).tokensOf x ≤
        tokens * stake / iota := by
      have hm : tokens ≤ minted iota tokens stake := hn ▸ le_add_right _ _
      have hne : ¬(iota + stake = 0 ∨ minted iota tokens stake = 0) := by omega
      simp only [tokensOf,hne,if_false]
      rw [le_div_iff_mul_le hp]
      have hs : 0 < iota + stake := by omega
      have hf := div_mul_le_self (minted iota tokens stake * x) (iota + stake)
      have hc : minted iota tokens stake * x / (iota + stake) * iota * (iota + stake) ≤
          tokens * stake * (iota + stake) := by
        calc minted iota tokens stake * x / (iota + stake) * iota * (iota + stake)
            = minted iota tokens stake * x / (iota + stake) * (iota + stake) * iota := by ring
          _ ≤ minted iota tokens stake * x * iota := mul_le_mul_right _ hf
          _ = minted iota tokens stake * iota * x := by ring
          _ ≤ tokens * (iota + stake) * x := mul_le_mul_right _ hr
          _ ≤ tokens * (iota + stake) * stake := mul_le_mul_left _ hx
          _ = tokens * stake * (iota + stake) := by ring
      exact le_of_mul_le_mul_right hc hs
    omega

end PoolTokenExchangeRate

/-! ### Principals and tokens per activation epoch -/

/-- The principal of the stakes whose activation epoch satisfies `p`. -/
def principalWhere (p : Nat → Bool) (stakes : List StakedIota) : Nat :=
  (stakes.map fun s => if p s.stakeActivationEpoch then s.principal else 0).sum

section Sums
variable {p q : Nat → Bool} {s : StakedIota} {stakes stakes' : List StakedIota}

@[simp] theorem principalWhere_nil : principalWhere p [] = 0 := rfl

@[simp] theorem principalWhere_cons : principalWhere p (s :: stakes) =
    (if p s.stakeActivationEpoch then s.principal else 0) + principalWhere p stakes := by
  simp [principalWhere]

theorem principalWhere_perm (h : stakes.Perm stakes') :
    principalWhere p stakes = principalWhere p stakes' := (h.map _).sum_eq

theorem principalWhere_mono (h : ∀ s ∈ stakes, p s.stakeActivationEpoch → q s.stakeActivationEpoch) :
    principalWhere p stakes ≤ principalWhere q stakes := by
  induction stakes with
  | nil => exact le_rfl
  | cons s rest ih =>
    have hs := h s List.mem_cons_self
    have := ih fun x hx => h x (.tail _ hx)
    rw [principalWhere_cons,principalWhere_cons]
    split
    · next hp =>
      rw [if_pos (hs hp)]
      omega
    · omega

theorem principalWhere_congr
    (h : ∀ s ∈ stakes, p s.stakeActivationEpoch = q s.stakeActivationEpoch) :
    principalWhere p stakes = principalWhere q stakes :=
  le_antisymm (principalWhere_mono fun s hs => by simp [h s hs])
    (principalWhere_mono fun s hs => by simp [h s hs])

theorem principalWhere_eq_zero (h : ∀ s ∈ stakes, p s.stakeActivationEpoch = false) :
    principalWhere p stakes = 0 := by
  induction stakes with
  | nil => rfl
  | cons s rest ih =>
    rw [principalWhere_cons,h s List.mem_cons_self,ih fun x hx => h x (.tail _ hx)]
    rfl

variable (stakes) in
theorem principalWhere_split (n : Nat) : principalWhere (fun a => decide (a ≤ n)) stakes +
    principalWhere (fun a => decide (n < a)) stakes = principalWhere (fun _ => true) stakes := by
  induction stakes with
  | nil => rfl
  | cons s rest ih =>
    simp only [principalWhere_cons,decide_eq_true_eq,if_true]
    split <;> split <;> omega

theorem sum_principalWhere (n : Nat) :
    ∑ a ∈ range n, principalWhere (· == a) stakes =
      principalWhere (fun a => decide (a < n)) stakes := by
  induction stakes with
  | nil => simp
  | cons s rest ih =>
    simp only [principalWhere_cons,sum_add_distrib,ih,beq_iff_eq,decide_eq_true_eq]
    congr 1
    simp

/-- The tokens owed to the stakes of all backed activation epochs below `n`, with the principals of
an epoch converted together. -/
def owed (backed : Nat → Bool) (rate : Nat → PoolTokenExchangeRate) (n : Nat)
    (stakes : List StakedIota) : Nat :=
  ∑ a ∈ range n,
    if backed a then (rate a).tokensOf (principalWhere (· == a) stakes) else 0

variable {backed backed' : Nat → Bool} {rate rate' : Nat → PoolTokenExchangeRate} {n : Nat}

theorem owed_congr (h : ∀ a, principalWhere (· == a) stakes = principalWhere (· == a) stakes') :
    owed backed rate n stakes = owed backed rate n stakes' :=
  sum_congr rfl fun a _ => by rw [h a]

theorem tokensOf_add_owed_le (hs : backed s.stakeActivationEpoch = true)
    (hn : s.stakeActivationEpoch < n) :
    (rate s.stakeActivationEpoch).tokensOf s.principal + owed backed rate n stakes ≤
      owed backed rate n (s :: stakes) := by
  have hm : s.stakeActivationEpoch ∈ range n := mem_range.mpr hn
  unfold owed
  rw [← add_sum_erase _ _ hm,← add_sum_erase _ _ hm,← add_assoc]
  apply Nat.add_le_add
  · simp only [hs,if_true,principalWhere_cons,beq_self_eq_true]
    exact tokensOf_add_le _ _
  apply sum_le_sum
  intro a ha
  have hne : (s.stakeActivationEpoch == a) = false := by
    simpa using (ne_of_mem_erase ha).symm
  simp [principalWhere_cons,hne]

theorem owed_le_cons : owed backed rate n stakes ≤ owed backed rate n (s :: stakes) := by
  apply sum_le_sum
  intro a _
  split
  · exact tokensOf_mono (by rw [principalWhere_cons]; exact le_add_left _ _)
  · exact le_rfl

theorem owed_cons_of_not_backed (hs : backed s.stakeActivationEpoch = false) :
    owed backed rate n (s :: stakes) = owed backed rate n stakes := by
  apply sum_congr rfl
  intro a _
  split
  · next ha =>
    have hne : (s.stakeActivationEpoch == a) = false := by
      rw [beq_eq_false_iff_ne]
      rintro rfl
      simp [hs] at ha
    simp [principalWhere_cons,hne]
  · rfl

theorem owed_succ_of_not_backed (h : backed n = false) :
    owed backed rate (n+1) stakes = owed backed rate n stakes := by
  simp [owed,sum_range_succ,h]

theorem owed_eq_zero (h : ∀ a, backed a = true → principalWhere (· == a) stakes = 0) :
    owed backed rate n stakes = 0 := by
  apply sum_eq_zero
  intro a _
  split
  · next ha => rw [h a ha,tokensOf_zero]
  · rfl

theorem owed_next (hb : ∀ a < n, backed' a = backed a) (hr : ∀ a < n, rate' a = rate a)
    (hn : backed' n = true) (haf : backed' (n+1) = false) :
    owed backed' rate' (n+2) stakes =
      owed backed rate n stakes + (rate' n).tokensOf (principalWhere (· == n) stakes) := by
  rw [owed_succ_of_not_backed haf,owed,sum_range_succ,if_pos hn]
  congr 1
  apply sum_congr rfl
  intro a ha
  rw [hb a (mem_range.mp ha),hr a (mem_range.mp ha)]

theorem sum_tokensOf_le_owed : (stakes.map fun s =>
      if backed s.stakeActivationEpoch && decide (s.stakeActivationEpoch < n) then
        (rate s.stakeActivationEpoch).tokensOf s.principal else 0).sum ≤
    owed backed rate n stakes := by
  induction stakes with
  | nil => exact zero_le _
  | cons s rest ih =>
    rw [List.map_cons,List.sum_cons]
    split
    · next h =>
      obtain ⟨hb,hn⟩ := Bool.and_eq_true_iff.mp h
      exact (Nat.add_le_add_left ih _).trans (tokensOf_add_owed_le hb (of_decide_eq_true hn))
    · rw [zero_add]
      exact ih.trans owed_le_cons

end Sums

/-! ### The search for a rate -/
namespace StakingPool
variable {pool : StakingPool} {rates : Std.ExtTreeMap Nat PoolTokenExchangeRate}
  {activation epoch : Nat} {rate : PoolTokenExchangeRate}

theorem latestRate_of_entry (h : activation ≤ epoch) (hr : rates[epoch]? = some rate) :
    latestRate rates activation epoch = .ok (some rate) := by
  cases epoch with
  | zero => rw [latestRate,if_pos h,hr]
  | succ n => rw [latestRate,if_pos h,hr]

theorem exists_latestRate (h : activation ≤ epoch) (hr : rates[activation]? = some rate) :
    ∃ r, latestRate rates activation epoch = .ok (some r) := by
  induction epoch with
  | zero =>
    obtain rfl : activation = 0 := by omega
    exact ⟨rate,latestRate_of_entry h hr⟩
  | succ n ih =>
    cases hn : rates[n+1]? with
    | some r => exact ⟨r,latestRate_of_entry h hn⟩
    | none =>
      have hle : activation ≤ n := by
        rcases lt_or_ge n activation with hlt | hge
        · obtain rfl : activation = n+1 := by omega
          rw [hn] at hr
          cases hr
        · exact hge
      obtain ⟨r,hrn⟩ := ih hle
      exact ⟨r,by rw [latestRate,if_pos h,hn]; exact hrn⟩

def rateAt (pool : StakingPool) (epoch : Nat) : PoolTokenExchangeRate :=
  if pool.isPreactiveAtEpoch epoch then initial else pool.exchangeRates[epoch]?.getD initial

/-- The epoch lies before the activation of the pool, or the pool was processed when it began. -/
def entered (pool : StakingPool) (epoch : Nat) : Bool :=
  pool.isPreactiveAtEpoch epoch || pool.exchangeRates.contains epoch

/-- The tokens of a stake at the rate of its activation epoch. -/
def tokensOwed (pool : StakingPool) (staked : StakedIota) : Nat :=
  match pool.poolTokenExchangeRateAtEpoch staked.stakeActivationEpoch with
  | .ok rate => rate.tokensOf staked.principal
  | .error _ => 0

/-- The reward of a withdrawn stake before `withdraw_rewards` takes the minimum with the rewards
pool. -/
def entitlement (pool : StakingPool) (epoch : Nat) (staked : StakedIota) : Nat :=
  if epoch < staked.stakeActivationEpoch then 0
  else
    match pool.poolTokenExchangeRateAtEpoch epoch with
    | .ok rate => rate.iotaOf (pool.tokensOwed staked) - staked.principal
    | .error _ => 0

/-- The exchange rates of a pool that was activated: they start at its activation and end with the
last boundary it was processed in, which is the one it left in. -/
structure Recorded (pool : StakingPool) (activation last : Nat) : Prop where
  activated : pool.activationEpoch = some activation
  le : activation ≤ last
  first : pool.exchangeRates[activation]? = some initial
  processed : pool.exchangeRates.contains last = true
  range : ∀ epoch, pool.exchangeRates.contains epoch = true → activation ≤ epoch ∧ epoch ≤ last
  left : ∀ epoch, pool.deactivationEpoch = some epoch → epoch = last

namespace Recorded
variable {last : Nat} (h : Recorded pool activation last)

include h

theorem isPreactive_eq : pool.isPreactive = false := by simp [isPreactive,h.activated]

theorem isPreactiveAtEpoch_eq : pool.isPreactiveAtEpoch epoch = decide (epoch < activation) := by
  simp [isPreactiveAtEpoch,h.activated]

theorem exists_searchRate (he : activation ≤ epoch) :
    ∃ r, pool.searchRate epoch = .ok (some r) := by
  unfold searchRate
  rw [h.activated]
  refine exists_latestRate ?_ h.first
  cases hd : pool.deactivationEpoch with
  | none => simpa using he
  | some d =>
    have := h.left d hd
    have := h.le
    simp only [Option.getD_some]
    omega

theorem exists_rate (epoch : Nat) : ∃ r, pool.poolTokenExchangeRateAtEpoch epoch = .ok r := by
  unfold poolTokenExchangeRateAtEpoch
  rw [h.isPreactiveAtEpoch_eq]
  split
  · exact ⟨_,rfl⟩
  · next hge =>
    obtain ⟨r,hr⟩ := h.exists_searchRate (by simpa using hge : activation ≤ epoch)
    exact ⟨r,by rw [hr]; rfl⟩

theorem rate_eq (he : pool.entered epoch = true) :
    pool.poolTokenExchangeRateAtEpoch epoch = .ok (pool.rateAt epoch) := by
  unfold poolTokenExchangeRateAtEpoch rateAt
  cases hp : pool.isPreactiveAtEpoch epoch with
  | true => simp
  | false =>
    have hc : pool.exchangeRates.contains epoch = true := by
      simpa [entered,hp] using he
    obtain ⟨hle,hl⟩ := h.range epoch hc
    obtain ⟨r,hr⟩ : ∃ r, pool.exchangeRates[epoch]? = some r := by
      rw [Std.ExtTreeMap.contains_eq_isSome_getElem?] at hc
      exact Option.isSome_iff_exists.mp hc
    have hcl : min (pool.deactivationEpoch.getD epoch) epoch = epoch := by
      cases hd : pool.deactivationEpoch with
      | none => simp
      | some d =>
        have := h.left d hd
        simp only [Option.getD_some]
        omega
    have hs : pool.searchRate epoch = .ok (some r) := by
      simp only [searchRate,h.activated,hcl]
      exact latestRate_of_entry hle hr
    simp [hs,hr]

theorem not_entered (he : last < epoch) : pool.entered epoch = false := by
  have hle := h.le
  have hp : pool.isPreactiveAtEpoch epoch = false := by
    rw [h.isPreactiveAtEpoch_eq]
    simp only [decide_eq_false_iff_not]
    omega
  have hc : pool.exchangeRates.contains epoch = false := by
    by_contra hne
    have := (h.range epoch (by simpa using hne)).2
    omega
  simp [entered,hp,hc]

end Recorded

structure SameRates (pool pool' : StakingPool) : Prop where
  id : pool'.id = pool.id
  activation : pool'.activationEpoch = pool.activationEpoch
  deactivation : pool'.deactivationEpoch = pool.deactivationEpoch
  rates : pool'.exchangeRates = pool.exchangeRates

namespace SameRates
variable {pool' : StakingPool} (h : SameRates pool pool')

include h

theorem trans {pool'' : StakingPool} (h' : SameRates pool' pool'') : SameRates pool pool'' :=
  ⟨h'.id.trans h.id,h'.activation.trans h.activation,h'.deactivation.trans h.deactivation,
    h'.rates.trans h.rates⟩

theorem isPreactiveAtEpoch (epoch : Nat) :
    pool'.isPreactiveAtEpoch epoch = pool.isPreactiveAtEpoch epoch := by
  simp only [StakingPool.isPreactiveAtEpoch,h.activation]

theorem entered : pool'.entered = pool.entered := by
  funext epoch
  simp only [StakingPool.entered,h.isPreactiveAtEpoch,h.rates]

theorem rateAt : pool'.rateAt = pool.rateAt := by
  funext epoch
  simp only [StakingPool.rateAt,h.isPreactiveAtEpoch,h.rates]

theorem entitlement : pool'.entitlement = pool.entitlement := by
  have hr (epoch : Nat) : pool'.poolTokenExchangeRateAtEpoch epoch =
      pool.poolTokenExchangeRateAtEpoch epoch := by
    simp only [poolTokenExchangeRateAtEpoch,searchRate,h.isPreactiveAtEpoch,h.activation,
      h.deactivation,h.rates]
  funext epoch staked
  simp only [StakingPool.entitlement,tokensOwed,hr]

theorem recorded {last : Nat} (hr : Recorded pool activation last) :
    Recorded pool' activation last := by
  obtain ⟨h1,h2,h3,h4,h5,h6⟩ := hr
  constructor
  · rw [h.activation,h1]
  · exact h2
  · rw [h.rates,h3]
  · rw [h.rates,h4]
  · rw [h.rates]
    exact h5
  · rw [h.deactivation]
    exact h6

end SameRates

/-! ### What the steps at a boundary do -/

theorem processPendingStakeWithdraw_eq (hi : pool.pendingTotalIotaWithdraw ≤ pool.iotaBalance)
    (ht : pool.pendingPoolTokenWithdraw ≤ pool.poolTokenBalance) :
    pool.processPendingStakeWithdraw = .ok { pool with
      iotaBalance := pool.iotaBalance - pool.pendingTotalIotaWithdraw
      poolTokenBalance := pool.poolTokenBalance - pool.pendingPoolTokenWithdraw
      pendingTotalIotaWithdraw := 0
      pendingPoolTokenWithdraw := 0 } := by
  simp only [processPendingStakeWithdraw,sub_ok hi,sub_ok ht,ok_bind]

theorem processPendingStake_satisfies : pool.processPendingStake.Satisfies Overflows fun pool' =>
    minted pool.iotaBalance pool.poolTokenBalance pool.pendingStake < 2 ^ 64 ∧
      pool' = { pool with
        iotaBalance := pool.iotaBalance + pool.pendingStake
        poolTokenBalance := minted pool.iotaBalance pool.poolTokenBalance pool.pendingStake
        pendingStake := 0 } := by
  refine (add_satisfies _ _).bind ?_
  rintro _ rfl
  refine (castU64_satisfies _).bind ?_
  rintro _ ⟨rfl,hlt⟩
  exact ⟨hlt,rfl⟩

theorem requestWithdrawStake_cases {pool' : StakingPool} {s : StakedIota} {amount : Nat}
    (h : pool.requestWithdrawStake s epoch = .ok (pool',amount)) :
    pool.SameRates pool' ∧ ∃ rewards, rewards = min (pool.entitlement epoch s) pool.rewardsPool ∧
      amount = s.principal + rewards ∧ pool'.rewardsPool + rewards = pool.rewardsPool := by
  unfold StakingPool.requestWithdrawStake at h
  unfold entitlement
  split at h
  · next he =>
    obtain ⟨_,hw,h⟩ := of_bind h
    cases h
    rw [if_pos he,Nat.zero_min]
    unfold withdrawInactiveStake at hw
    split at hw
    · iterate 3 obtain ⟨_,hw⟩ := ok_of_bind hw
      cases hw
      exact ⟨⟨rfl,rfl,rfl,rfl⟩,0,rfl,rfl,rfl⟩
    · obtain ⟨_,hw⟩ := ok_of_bind hw
      cases hw
      exact ⟨⟨rfl,rfl,rfl,rfl⟩,0,rfl,rfl,rfl⟩
  · next he =>
    obtain ⟨⟨tokens,principal⟩,hp,h⟩ := of_bind h
    obtain ⟨⟨_,rewards⟩,hw,h⟩ := of_bind h
    obtain ⟨_,hs,h⟩ := of_bind h
    iterate 2 obtain ⟨_,h⟩ := ok_of_bind h
    cases h
    obtain ⟨-,rfl⟩ := add_eq_ok.mp hs
    obtain ⟨_,hp⟩ := ok_of_bind hp
    obtain ⟨rate,hr,hp⟩ := of_bind hp
    obtain ⟨_,ht,hp⟩ := of_bind hp
    obtain ⟨-,rfl⟩ := castU64_eq_ok.mp ht
    cases hp
    obtain ⟨now,hn,hw⟩ := of_bind hw
    obtain ⟨_,hi,hw⟩ := of_bind hw
    obtain ⟨-,rfl⟩ := castU64_eq_ok.mp hi
    obtain ⟨_,hsp,hw⟩ := of_bind hw
    obtain ⟨_,hsp⟩ := ok_of_bind hsp
    obtain ⟨hle,rfl⟩ := sub_eq_ok.mp hsp
    cases hw
    rw [if_neg he,tokensOwed,hr,hn]
    exact ⟨⟨rfl,rfl,rfl,rfl⟩,_,rfl,rfl,Nat.sub_add_cancel hle⟩

theorem addExchangeRate_eq (h : pool.exchangeRates.contains epoch = false) :
    pool.addExchangeRate epoch rate =
      .ok { pool with exchangeRates := pool.exchangeRates.insert epoch rate } := by
  simp [addExchangeRate,h]

theorem Recorded.insert {last : Nat} (h : Recorded pool activation last) (hl : last < epoch)
    (ha : pool.deactivationEpoch = none) (iotaBalance poolTokenBalance : Nat) :
    Recorded { pool with
      iotaBalance
      poolTokenBalance
      pendingStake := 0
      pendingTotalIotaWithdraw := 0
      pendingPoolTokenWithdraw := 0
      exchangeRates := pool.exchangeRates.insert epoch rate } activation epoch where
  activated := h.activated
  le := h.le.trans hl.le
  first := by
    have := h.le
    rw [Std.ExtTreeMap.getElem?_insert_eq,if_neg (by omega)]
    exact h.first
  processed := by simp
  range := by
    intro k hk
    rw [Std.ExtTreeMap.contains_insert,Bool.or_eq_true] at hk
    have := h.le
    rcases hk with hk | hk
    · obtain rfl : epoch = k := by simpa using hk
      omega
    · have := h.range k hk
      omega
  left := by simp [ha]

end StakingPool

/-! ### What requests do to a validator -/
namespace Validator
open StakingPool

/-- What a successful request does to a validator: the stake of a preactive pool is processed at
once, that of an active one is pending. -/
theorem requestAddStake_cases {v v' : Validator} {amount epoch : Nat} {staked : StakedIota}
    (h : v.requestAddStake amount epoch = .ok (v',staked)) :
    v.stakingPool.isInactive = false ∧ staked = ⟨v.stakingPool.id,epoch+1,amount⟩ ∧
      v'.nextEpochStake = v.nextEpochStake + amount ∧
      if v.stakingPool.isPreactive then
        v'.stakingPool = { v.stakingPool with
          iotaBalance := v.stakingPool.iotaBalance + (v.stakingPool.pendingStake + amount)
          poolTokenBalance := minted v.stakingPool.iotaBalance v.stakingPool.poolTokenBalance
            (v.stakingPool.pendingStake + amount)
          pendingStake := 0 }
      else v'.stakingPool = { v.stakingPool with
        pendingStake := v.stakingPool.pendingStake + amount } := by
  obtain ⟨-,-,h⟩ := of_bind h
  obtain ⟨_,he,h⟩ := of_bind h
  obtain ⟨-,rfl⟩ := add_eq_ok.mp he
  obtain ⟨⟨pool,receipt⟩,ha,h⟩ := of_bind h
  obtain ⟨hin,hpl,hr⟩ : v.stakingPool.isInactive = false ∧
      pool = { v.stakingPool with pendingStake := v.stakingPool.pendingStake + amount } ∧
      receipt = ⟨v.stakingPool.id,epoch+1,amount⟩ := by
    obtain ⟨_,hin,ha⟩ := of_bind ha
    obtain ⟨-,-,ha⟩ := of_bind ha
    obtain ⟨_,hs,ha⟩ := of_bind ha
    obtain ⟨-,rfl⟩ := add_eq_ok.mp hs
    cases ha
    exact ⟨assert_eq_ok.mp hin,rfl,rfl⟩
  obtain ⟨pool',hpr,h⟩ := of_bind h
  obtain ⟨_,hn,h⟩ := of_bind h
  obtain ⟨-,rfl⟩ := add_eq_ok.mp hn
  cases h
  refine ⟨hin,hr,rfl,?_⟩
  have hpre : pool.isPreactive = v.stakingPool.isPreactive := by rw [hpl]; rfl
  simp only [hpre] at hpr
  split
  · next hp =>
    rw [if_pos hp] at hpr
    have := (processPendingStake_satisfies.of_ok hpr).2
    rw [this,hpl]
  · next hp =>
    rw [if_neg hp] at hpr
    rw [← ok.inj hpr,hpl]

theorem requestWithdrawStake_cases {v v' : Validator} {s : StakedIota} {epoch amount : Nat}
    (h : v.requestWithdrawStake s epoch = .ok (v',amount)) :
    v.stakingPool.SameRates v'.stakingPool ∧ ∃ rewards,
      rewards = min (v.stakingPool.entitlement epoch s) v.stakingPool.rewardsPool ∧
      amount = s.principal + rewards ∧
      v'.stakingPool.rewardsPool + rewards = v.stakingPool.rewardsPool := by
  obtain ⟨⟨pool,_⟩,hw,h⟩ := of_bind h
  obtain ⟨pool',hp,h⟩ := of_bind h
  iterate 2 obtain ⟨_,h⟩ := ok_of_bind h
  cases h
  obtain ⟨hs,hr⟩ : pool.SameRates pool' ∧ pool'.rewardsPool = pool.rewardsPool := by
    split at hp
    · iterate 2 obtain ⟨_,hp⟩ := ok_of_bind hp
      cases hp
      exact ⟨⟨rfl,rfl,rfl,rfl⟩,rfl⟩
    · cases hp
      exact ⟨⟨rfl,rfl,rfl,rfl⟩,rfl⟩
  obtain ⟨hs',hrw⟩ := StakingPool.requestWithdrawStake_cases hw
  exact ⟨hs'.trans hs,by rwa [hr]⟩

theorem requestWithdrawStake_sameRates {v v' : Validator} {s : StakedIota} {epoch amount : Nat}
    (h : v.requestWithdrawStake s epoch = .ok (v',amount)) :
    v.stakingPool.SameRates v'.stakingPool :=
  (requestWithdrawStake_cases h).1

end Validator
end Iota.System
