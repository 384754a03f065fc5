import Iota.System.Stake.Solvency

/-! Solvency in every state a pool reaches. Without safe mode every epoch that begins is entered by
the active pools, so every stake can be withdrawn at the rate of its activation epoch. A safe-mode
epoch change leaves the pools as they are; the stakes that become active in it are the exception. -/
namespace Iota.System.Account
open Except List Machine Move PoolTokenExchangeRate StakingPool
open Validator (requestAddStake_cases requestWithdrawStake_sameRates)
variable {c c' : Account}

/-- Rewards are deposited in the pools of active validators only, by `distribute_reward`. -/
def Permitted (c : Account) : StakeOp → Prop
  | .depositRewards _ => c.isActive = true
  | _ => True

/-- A withdrawn stake's activation epoch lies ahead or was entered by the pool. -/
def Timely (c : Account) : StakeOp → Prop
  | .withdraw k => ∀ s, c.stakes[k]? = some s →
      c.epoch < s.stakeActivationEpoch ∨ c.pool.entered s.stakeActivationEpoch = true
  | _ => True

variable {v : Validator}

theorem Receipts.tail {s : StakedIota} {rest : List StakedIota} (h : Receipts c)
    (hs : c.stakes = s :: rest) (hid : v.stakingPool.id = c.pool.id) :
    Receipts { c with validator := v, stakes := rest } :=
  ⟨fun x hx => (h.poolId x (hs ▸ mem_cons_of_mem _ hx)).trans hid.symm,
    fun x hx => h.le x (hs ▸ mem_cons_of_mem _ hx)⟩

theorem Receipts.skip (h : Receipts c) (hid : v.stakingPool.id = c.pool.id) :
    Receipts { c with validator := v, epoch := c.epoch+1 } :=
  ⟨fun s hs => (h.poolId s hs).trans hid.symm,fun s hs => (h.le s hs).trans (Nat.le_succ _)⟩

theorem Solvent.withdraw (h : Solvent c) {k : Nat} {s : StakedIota} (hs : c.stakes[k]? = some s)
    (ht : Timely c (.withdraw k)) : (c.exec (.withdraw k)).Satisfies Overflows Solvent := by
  have hrm : (remove c.stakes k : Tx (StakedIota × List StakedIota)) =
      .ok (s,c.stakes.eraseIdx k) := remove_eq_ok.mpr ⟨hs,rfl⟩
  have hp := remove_perm hrm
  have hid := h.receipts.poolId s (mem_of_getElem? hs)
  have hrc := h.receipts.perm hp
  have hsm : ∀ p, principalWhere p (s :: c.stakes.eraseIdx k) = principalWhere p c.stakes :=
    fun p => (principalWhere_perm hp).symm
  have hst : (c.validator.requestWithdrawStake s c.epoch).Satisfies Overflows fun r =>
      Candidate { c with validator := r.1, stakes := c.stakes.eraseIdx k } ∨
        ∃ activation last,
          Activated { c with validator := r.1, stakes := c.stakes.eraseIdx k } activation last := by
    rcases h.status with hc | ⟨activation,last,ha⟩
    · exact ((hc.of_principals hsm).withdraw rfl hid).mono fun _ h => .inl h
    · exact ((ha.of_principals hsm).withdraw rfl hid (ht s hs)).mono fun _ h =>
        .inr ⟨activation,last,h⟩
  simp only [exec]
  refine .bind_ok hrm ?_
  cases hr : c.validator.requestWithdrawStake s c.epoch with
  | error e => exact hst.of_error hr
  | ok r => exact ⟨hrc.tail rfl (requestWithdrawStake_sameRates hr).id,hst.of_ok hr⟩

theorem Solvent.endEpoch (h : Solvent c) (leaves : Bool) :
    (c.exec (.endEpoch leaves)).Satisfies Overflows Solvent := by
  simp only [exec]
  split
  · next hac =>
    obtain ⟨hpr,hin⟩ := Bool.and_eq_true_iff.mp hac
    have hd : c.pool.deactivationEpoch = none := by simpa [isInactive] using hin
    rcases h.status with hc | ⟨activation,last,ha⟩
    · simp [isPreactive,hc.preactive] at hpr
    refine (ha.process h.receipts hd).bind ?_
    rintro v ⟨hv,hp⟩
    have hn : v.stakingPool.deactivationEpoch = none := by rw [hp]; exact hd
    obtain ⟨v',hr,hv',hid⟩ := hv.depart hn leaves
    refine .bind_ok hr ⟨h.receipts.skip ?_,.inr ⟨activation,_,hv'⟩⟩
    exact hid.trans (by rw [pool,hp]; rfl)
  · refine ⟨h.receipts.skip rfl,?_⟩
    rcases h.status with hc | ⟨activation,last,ha⟩
    · exact .inl hc.skip
    · exact .inr ⟨activation,last,ha.skip⟩

variable {amount : Nat}

theorem Solvent.addStake (h : Solvent c) (hr : c.exec (.addStake amount) = .ok c') :
    Solvent c' := by
  obtain ⟨⟨v,staked⟩,had,hr⟩ := of_bind hr
  cases hr
  obtain ⟨-,hst,-,hp⟩ := requestAddStake_cases had
  have hid : v.stakingPool.id = c.pool.id := by
    split at hp
    · rw [hp]; rfl
    · rw [hp]; rfl
  refine ⟨⟨fun s hs => ?_,fun s hs => ?_⟩,?_⟩
  · rcases mem_cons.mp hs with rfl | hs
    · rw [hst]
      exact hid.symm
    · exact (h.receipts.poolId s hs).trans hid.symm
  · rcases mem_cons.mp hs with rfl | hs
    · rw [hst]
    · exact h.receipts.le s hs
  rcases h.status with hc | ⟨activation,last,ha⟩
  · exact .inl (hc.addStake had)
  · exact .inr ⟨activation,last,ha.addStake had⟩

theorem Solvent.exchange (h : Solvent c) {stakes : List StakedIota}
    (hsm : ∀ p, principalWhere p stakes = principalWhere p c.stakes)
    (hf : ∀ s ∈ stakes, ∃ x ∈ c.stakes, s.poolId = x.poolId ∧
      s.stakeActivationEpoch = x.stakeActivationEpoch) : Solvent { c with stakes } := by
  refine ⟨⟨fun s hs => ?_,fun s hs => ?_⟩,?_⟩
  · obtain ⟨x,hx,hid,-⟩ := hf s hs
    exact hid.trans (h.receipts.poolId x hx)
  · obtain ⟨x,hx,-,he⟩ := hf s hs
    exact he.trans_le (h.receipts.le x hx)
  rcases h.status with hc | ⟨activation,last,ha⟩
  · exact .inl (hc.of_principals hsm)
  · exact .inr ⟨activation,last,ha.of_principals hsm⟩

theorem Solvent.split (h : Solvent c) {k amount : Nat} (hr : c.exec (.split k amount) = .ok c') :
    Solvent c' := by
  obtain ⟨⟨s,rest⟩,hrm,hr⟩ := of_bind hr
  obtain ⟨⟨left,part⟩,hs,hr⟩ := of_bind hr
  cases hr
  have hp := remove_perm hrm
  obtain ⟨hle,rfl,rfl⟩ := StakedIota.split_cases hs
  refine h.exchange (fun p => ?_) fun x hx => ?_
  · rw [principalWhere_perm hp]
    simp only [principalWhere_cons]
    split <;> omega
  rcases mem_cons.mp hx with rfl | hx
  · exact ⟨s,hp.mem_iff.mpr mem_cons_self,rfl,rfl⟩
  rcases mem_cons.mp hx with rfl | hx
  · exact ⟨s,hp.mem_iff.mpr mem_cons_self,rfl,rfl⟩
  · exact ⟨x,hp.mem_iff.mpr (.tail _ hx),rfl,rfl⟩

theorem Solvent.join (h : Solvent c) {k l : Nat} (hr : c.exec (.join k l) = .ok c') :
    Solvent c' := by
  obtain ⟨⟨s,rest⟩,hrm,hr⟩ := of_bind hr
  obtain ⟨⟨other,rest'⟩,hr',hr⟩ := of_bind hr
  obtain ⟨joined,hj,hr⟩ := of_bind hr
  cases hr
  have hp := (remove_perm hrm).trans ((remove_perm hr').cons s)
  obtain ⟨he,rfl⟩ := StakedIota.join_cases hj
  refine h.exchange (fun p => ?_) fun x hx => ?_
  · rw [principalWhere_perm hp]
    simp only [principalWhere_cons,he]
    split <;> omega
  rcases mem_cons.mp hx with rfl | hx
  · exact ⟨s,hp.mem_iff.mpr mem_cons_self,rfl,rfl⟩
  · exact ⟨x,hp.mem_iff.mpr (mem_cons_of_mem _ (.tail _ hx)),rfl,rfl⟩

theorem Solvent.depositRewards (h : Solvent c) (hac : c.isActive = true)
    (hr : c.exec (.depositRewards amount) = .ok c') : Solvent c' := by
  obtain ⟨v,hd,hr⟩ := of_bind hr
  cases hr
  obtain rfl : v = { c.validator with
      nextEpochStake := c.validator.nextEpochStake + amount
      stakingPool := { c.pool with
        iotaBalance := c.pool.iotaBalance + amount
        rewardsPool := c.pool.rewardsPool + amount } } := by
    obtain ⟨_,hnx,hd⟩ := of_bind hd
    obtain ⟨_,hpl,hd⟩ := of_bind hd
    obtain ⟨_,hbl,hpl⟩ := of_bind hpl
    obtain ⟨_,hrw,hpl⟩ := of_bind hpl
    obtain ⟨-,rfl⟩ := add_eq_ok.mp hnx
    obtain ⟨-,rfl⟩ := add_eq_ok.mp hbl
    obtain ⟨-,rfl⟩ := add_eq_ok.mp hrw
    cases hpl
    exact (ok.inj hd).symm
  refine ⟨⟨h.receipts.poolId,h.receipts.le⟩,?_⟩
  rcases h.status with hc | ⟨activation,last,ha⟩
  · simp [isActive,isPreactive,hc.preactive] at hac
  have hs : c.pool.SameRates { c.pool with
      iotaBalance := c.pool.iotaBalance + amount
      rewardsPool := c.pool.rewardsPool + amount } := ⟨rfl,rfl,rfl,rfl⟩
  obtain ⟨hrc,hle,hp,hb,ht,hn⟩ := ha
  refine .inr ⟨activation,last,hs.recorded hrc,hle,hp,?_,?_,?_⟩
  · simp only [pool] at *
    omega
  · simp only [pool] at *
    rw [hs.entered,hs.rateAt]
    exact ht
  · simp only [pool] at *
    omega

variable {leaves : Bool}

theorem Solvent.activate (h : Solvent c)
    (hr : c.exec (.activate leaves) = .ok c') : Solvent c' := by
  obtain ⟨v,hac,hr⟩ := of_bind hr
  obtain ⟨v',hd,hr⟩ := of_bind hr
  cases hr
  rcases h.status with hc | ⟨activation,last,ha⟩
  · obtain ⟨hat,hn,hid⟩ := hc.activate h.receipts.le hac
    obtain ⟨w,hw,ha',hid'⟩ := hat.depart hn leaves
    cases hw.symm.trans hd
    exact ⟨h.receipts.skip (hid'.trans hid),.inr ⟨_,_,ha'⟩⟩
  -- An activated pool is not activated again.
  obtain ⟨_,hac,-⟩ := of_bind hac
  obtain ⟨p,had,hac⟩ := of_bind hac
  obtain ⟨_,hp,-⟩ := of_bind hac
  have hf : p.isPreactive = false := by
    unfold addExchangeRate at had
    split at had
    · cases had
    · rw [← ok.inj had]
      exact ha.recorded.isPreactive_eq
  rw [assert_eq_ok,hf] at hp
  cases hp

theorem Solvent.removeCandidate (h : Solvent c) (hrn : c.exec .removeCandidate = .ok c') :
    Solvent c' := by
  obtain ⟨_,hpr,hrn⟩ := of_bind hrn
  obtain ⟨v,hd,hrn⟩ := of_bind hrn
  cases hrn
  obtain rfl : v = { c.validator with
      stakingPool := { c.pool with deactivationEpoch := some c.epoch } } := by
    obtain ⟨_,hp,hd⟩ := of_bind hd
    obtain ⟨_,hp⟩ := ok_of_bind hp
    cases hp
    exact (ok.inj hd).symm
  refine ⟨⟨h.receipts.poolId,h.receipts.le⟩,?_⟩
  rcases h.status with hc | ⟨activation,last,ha⟩
  · obtain ⟨hpr,hrt,hb,ht,hr,hps,hpi,hpt,hn⟩ := hc
    exact .inl ⟨hpr,hrt,hb,ht,hr,hps,hpi,hpt,hn⟩
  · rw [assert_eq_ok,ha.recorded.isPreactive_eq] at hpr
    cases hpr

theorem Solvent.exec (h : Solvent c) {op : StakeOp} (hp : Permitted c op)
    (ht : Timely c op) (hr : c.exec op = .ok c') : Solvent c' := by
  cases op with
  | addStake amount => exact h.addStake hr
  | withdraw k =>
    obtain ⟨⟨s,rest⟩,hrm,-⟩ := of_bind hr
    exact (h.withdraw (remove_eq_ok.mp hrm).1 ht).of_ok hr
  | split k amount => exact h.split hr
  | join k l => exact h.join hr
  | depositRewards amount => exact h.depositRewards hp hr
  | endEpoch leaves => exact (h.endEpoch leaves).of_ok hr
  | activate leaves => exact h.activate hr
  | removeCandidate => exact h.removeCandidate hr
  | safeMode =>
    cases hr
    refine ⟨h.receipts.skip rfl,?_⟩
    rcases h.status with hc | ⟨activation,last,ha⟩
    · exact .inl hc.skip
    · exact .inr ⟨activation,last,ha.skip⟩

theorem Fresh.candidate (h : Fresh v) (epoch : Nat) : Candidate ⟨v,[],epoch⟩ := by
  obtain ⟨hp,hn⟩ := h
  constructor <;> simp only [Account.pool] <;> rw [hp] <;> first | rfl | exact hn

variable {staked : StakedIota}

theorem requestAddStakeAtGenesis_cases {v v' : Validator}
    (h : v.requestAddStakeAtGenesis amount 0 = .ok (v',staked)) :
    staked = ⟨v.stakingPool.id,0,amount⟩ ∧ v' = { v with
      nextEpochStake := v.nextEpochStake + amount
      stakingPool := { v.stakingPool with
        iotaBalance := v.stakingPool.iotaBalance + (v.stakingPool.pendingStake + amount)
        poolTokenBalance := minted v.stakingPool.iotaBalance v.stakingPool.poolTokenBalance
          (v.stakingPool.pendingStake + amount)
        pendingStake := 0 } } := by
  iterate 2 obtain ⟨_,h⟩ := ok_of_bind h
  obtain ⟨⟨pool,receipt⟩,ha,h⟩ := of_bind h
  iterate 2 obtain ⟨_,ha⟩ := ok_of_bind ha
  obtain ⟨_,hs,ha⟩ := of_bind ha
  obtain ⟨-,rfl⟩ := add_eq_ok.mp hs
  cases ha
  obtain ⟨pool',hp,h⟩ := of_bind h
  obtain ⟨_,hn,h⟩ := of_bind h
  obtain ⟨-,rfl⟩ := add_eq_ok.mp hn
  cases h
  obtain ⟨-,rfl⟩ := processPendingStake_satisfies.of_ok hp
  exact ⟨rfl,rfl⟩

/-- The genesis stakes of a validator before its activation. -/
structure AtGenesis (c : Account) : Prop where
  candidate : Candidate c
  epoch : c.epoch = 0
  poolId : ∀ s ∈ c.stakes, s.poolId = c.pool.id
  stakes : ∀ s ∈ c.stakes, s.stakeActivationEpoch = 0

theorem AtGenesis.add (h : AtGenesis c) {amount : Nat}
    (ha : c.validator.requestAddStakeAtGenesis amount 0 = .ok (v,staked)) :
    AtGenesis { c with validator := v, stakes := staked :: c.stakes } := by
  obtain ⟨rfl,rfl⟩ := requestAddStakeAtGenesis_cases ha
  obtain ⟨⟨hp,hrt,hb,ht,hr,hps,hpi,hpt,hn⟩,he,hid,hst⟩ := h
  simp only [pool] at *
  refine ⟨?_,he,fun s hs => ?_,fun s hs => ?_⟩
  · rw [hps,ht,Nat.zero_add,minted_self]
    refine ⟨hp,hrt,?_,rfl,hr,rfl,hpi,hpt,?_⟩
    · simp only [pool,principalWhere_cons,if_true]
      omega
    · simp only [pool]
      omega
  · rcases mem_cons.mp hs with rfl | hs
    · rfl
    · exact hid s hs
  rcases mem_cons.mp hs with rfl | hs
  · rfl
  · exact hst s hs

theorem genesis_activated {amounts : List Nat} (hv : Fresh v) (h : genesis v amounts = .ok c) :
    Activated c 0 0 ∧ Receipts c ∧ c.epoch = 0 ∧ c.pool.deactivationEpoch = none ∧
      ∀ s ∈ c.stakes, s.stakeActivationEpoch = 0 := by
  obtain ⟨c0,hsk,h⟩ := of_bind h
  have hg : AtGenesis c0 := by
    have hsr : AtGenesis ⟨v,[],0⟩ := ⟨hv.candidate 0,rfl,forall_mem_nil _,forall_mem_nil _⟩
    refine foldlM_ok_inv (fun amount _ s s' hs hst => ?_) hsr hsk
    obtain ⟨⟨w,staked⟩,had,hst⟩ := of_bind hst
    cases hst
    exact hs.add had
  obtain ⟨w,ha,h⟩ := of_bind h
  cases h
  obtain ⟨hac,hn,hid⟩ := hg.candidate.activate (fun s hs => (hg.stakes s hs).le) ha
  have ha' : Activated { c0 with validator := w } 0 0 := by
    rw [hg.epoch]
    exact hac
  refine ⟨ha',⟨fun s hs => ?_,fun s hs => ?_⟩,hg.epoch,hn,hg.stakes⟩
  · exact (hg.poolId s hs).trans hid.symm
  · rw [hg.stakes s hs]
    exact Nat.zero_le _

theorem Initial.solvent (h : Initial c) : Solvent c := by
  rcases h with ⟨hv,hs⟩ | ⟨v,amounts,hv,h⟩
  · obtain ⟨v,stakes,epoch⟩ := c
    cases hs
    exact ⟨⟨nofun,nofun⟩,.inl (hv.candidate epoch)⟩
  · obtain ⟨ha,hr,-⟩ := genesis_activated hv h
    exact ⟨hr,.inr ⟨0,0,ha⟩⟩

/-- The pool has entered the activation epochs that have come, and takes no new stake once it is
left. -/
structure Regular (c : Account) : Prop where
  entered : ∀ s ∈ c.stakes, s.stakeActivationEpoch ≤ c.epoch →
    c.pool.entered s.stakeActivationEpoch = true
  left : c.pool.isPreactive = false → c.pool.isInactive = true →
    ∀ s ∈ c.stakes, s.stakeActivationEpoch ≤ c.epoch

theorem entered_of_preactive {pool : StakingPool} (h : pool.isPreactive = true) (epoch : Nat) :
    pool.entered epoch = true := by
  have : pool.activationEpoch = none := by simpa [isPreactive] using h
  simp [entered,isPreactiveAtEpoch,this]

theorem Regular.timely (h : Regular c) (op : StakeOp) : Timely c op := by
  cases op with
  | withdraw k =>
    intro s hs
    by_cases hlt : c.epoch < s.stakeActivationEpoch
    · exact .inl hlt
    · exact .inr (h.entered s (mem_of_getElem? hs) (Nat.le_of_not_lt hlt))
  | _ => trivial

theorem Regular.of_sameRates (h : Regular c) {stakes : List StakedIota}
    (hsm : c.pool.SameRates v.stakingPool)
    (hf : ∀ s ∈ stakes, ∃ x ∈ c.stakes, s.stakeActivationEpoch = x.stakeActivationEpoch) :
    Regular { c with validator := v, stakes } := by
  refine ⟨fun s hs hle => ?_,fun hp hin s hs => ?_⟩
  · obtain ⟨x,hx,heq⟩ := hf s hs
    simp only [pool,hsm.entered,heq] at hle ⊢
    exact h.entered x hx hle
  obtain ⟨x,hx,heq⟩ := hf s hs
  simp only [pool,isPreactive,isInactive,hsm.activation,hsm.deactivation] at hp hin
  rw [heq]
  exact h.left hp hin x hx

theorem Regular.addStake (h : Regular c)
    (ha : c.validator.requestAddStake amount c.epoch = .ok (v,staked)) :
    Regular { c with validator := v, stakes := staked :: c.stakes } := by
  obtain ⟨hin,rfl,-,hp⟩ := requestAddStake_cases ha
  have hsm : c.pool.SameRates v.stakingPool := by
    split at hp
    · rw [hp]
      exact ⟨rfl,rfl,rfl,rfl⟩
    · rw [hp]
      exact ⟨rfl,rfl,rfl,rfl⟩
  have hr := h.of_sameRates hsm fun s hs => ⟨s,hs,rfl⟩
  refine ⟨fun s hs hle => ?_,fun _ hi => ?_⟩
  · rcases mem_cons.mp hs with rfl | hs
    · simp only at hle
      omega
    · exact hr.entered s hs hle
  have : v.stakingPool.isInactive = false := by
    simp only [isInactive,hsm.deactivation]
    exact hin
  simp only [pool,this] at hi
  cases hi

theorem depart_entered {v v' : Validator} {epoch : Nat}
    (h : depart v leaves epoch = .ok v') : v'.stakingPool.entered = v.stakingPool.entered := by
  cases leaves with
  | false => rw [← ok.inj h]
  | true =>
    obtain ⟨_,hp,h⟩ := of_bind h
    obtain ⟨_,hp⟩ := ok_of_bind hp
    cases hp
    cases h
    rfl

theorem Regular.endEpoch (h : Regular c) (hs : Solvent c)
    (hr : c.exec (.endEpoch leaves) = .ok c') : Regular c' := by
  simp only [Account.exec] at hr
  split at hr
  · next hac =>
    obtain ⟨hp,hin⟩ := Bool.and_eq_true_iff.mp hac
    have hd : c.pool.deactivationEpoch = none := by simpa [isInactive] using hin
    rcases hs.status with hc | ⟨activation,last,ha⟩
    · simp [isPreactive,hc.preactive] at hp
    obtain ⟨v,hpr,hr⟩ := of_bind hr
    obtain ⟨v',hdp,hr⟩ := of_bind hr
    cases hr
    obtain ⟨-,hpl⟩ := (ha.process hs.receipts hd).of_ok hpr
    obtain ⟨-,hn,-⟩ := processed_rate ha.recorded ha.le hd
    refine ⟨fun s hm hle => ?_,fun _ _ s hm => hs.receipts.le s hm⟩
    simp only [pool,depart_entered hdp,hpl] at hle ⊢
    rcases Nat.lt_or_ge c.epoch s.stakeActivationEpoch with hlt | hge
    · obtain heq : s.stakeActivationEpoch = c.epoch+1 := by omega
      rw [heq]
      exact hn
    · rw [processed_entered (by omega)]
      exact h.entered s hm hge
  · next hac =>
    cases hr
    by_cases hp : c.pool.isPreactive = true
    · exact ⟨fun s _ _ => entered_of_preactive hp _,fun hf => by
        simp only [pool] at hp hf
        rw [hp] at hf
        cases hf⟩
    have hp : c.pool.isPreactive = false := by simpa using hp
    have hin : c.pool.isInactive = true := by simpa [isActive,hp] using hac
    exact ⟨fun s hm _ => h.entered s hm (h.left hp hin s hm),
      fun _ _ s hm => (h.left hp hin s hm).trans (Nat.le_succ _)⟩

theorem Regular.activate (hs : Solvent c)
    (hr : c.exec (.activate leaves) = .ok c') : Regular c' := by
  obtain ⟨v,hac,hr⟩ := of_bind hr
  obtain ⟨v',hd,hr⟩ := of_bind hr
  cases hr
  obtain ⟨han,hrt⟩ : v.stakingPool.activationEpoch = some (c.epoch+1) ∧
      v.stakingPool.exchangeRates.contains (c.epoch+1) = true := by
    obtain ⟨_,hp,hac⟩ := of_bind hac
    obtain ⟨p,ha,hp⟩ := of_bind hp
    iterate 2 obtain ⟨_,hp⟩ := ok_of_bind hp
    cases hp
    cases hac
    refine ⟨rfl,?_⟩
    unfold addExchangeRate at ha
    split at ha
    · cases ha
    · rw [← ok.inj ha]
      simp
  refine ⟨fun s hm hle => ?_,fun _ _ s hm => hs.receipts.le s hm⟩
  simp only [pool,depart_entered hd]
  rcases Nat.lt_or_ge s.stakeActivationEpoch (c.epoch+1) with hlt | hge
  · simp [StakingPool.entered,isPreactiveAtEpoch,han,hlt]
  obtain heq : s.stakeActivationEpoch = c.epoch+1 := by
    have := hs.receipts.le s hm
    omega
  rw [heq]
  simp [StakingPool.entered,hrt]

theorem Regular.exec (h : Regular c) (hs : Solvent c) {op : StakeOp} (hm : op ≠ .safeMode)
    (hr : c.exec op = .ok c') : Regular c' := by
  have hsl : c.pool.SameRates c.validator.stakingPool := ⟨rfl,rfl,rfl,rfl⟩
  cases op with
  | addStake amount =>
    obtain ⟨⟨v,staked⟩,ha,hr⟩ := of_bind hr
    cases hr
    exact h.addStake ha
  | withdraw k =>
    obtain ⟨⟨s,rest⟩,hrm,hr⟩ := of_bind hr
    obtain ⟨⟨v,_⟩,hw,hr⟩ := of_bind hr
    cases hr
    have hpr := remove_perm hrm
    exact h.of_sameRates (requestWithdrawStake_sameRates hw) fun x hx =>
      ⟨x,hpr.mem_iff.mpr (.tail _ hx),rfl⟩
  | split k amount =>
    obtain ⟨⟨s,rest⟩,hrm,hr⟩ := of_bind hr
    obtain ⟨⟨left,part⟩,hsp,hr⟩ := of_bind hr
    cases hr
    have hpr := remove_perm hrm
    obtain ⟨-,rfl,rfl⟩ := StakedIota.split_cases hsp
    refine h.of_sameRates hsl fun x hx => ?_
    rcases mem_cons.mp hx with rfl | hx
    · exact ⟨s,hpr.mem_iff.mpr mem_cons_self,rfl⟩
    rcases mem_cons.mp hx with rfl | hx
    · exact ⟨s,hpr.mem_iff.mpr mem_cons_self,rfl⟩
    · exact ⟨x,hpr.mem_iff.mpr (.tail _ hx),rfl⟩
  | join k l =>
    obtain ⟨⟨s,rest⟩,hrm,hr⟩ := of_bind hr
    obtain ⟨⟨other,rest'⟩,hr',hr⟩ := of_bind hr
    obtain ⟨joined,hj,hr⟩ := of_bind hr
    cases hr
    have hpr := (remove_perm hrm).trans ((remove_perm hr').cons s)
    obtain ⟨-,rfl⟩ := StakedIota.join_cases hj
    refine h.of_sameRates hsl fun x hx => ?_
    rcases mem_cons.mp hx with rfl | hx
    · exact ⟨s,hpr.mem_iff.mpr mem_cons_self,rfl⟩
    · exact ⟨x,hpr.mem_iff.mpr (mem_cons_of_mem _ (.tail _ hx)),rfl⟩
  | depositRewards amount =>
    obtain ⟨v,hd,hr⟩ := of_bind hr
    cases hr
    refine h.of_sameRates ?_ fun x hx => ⟨x,hx,rfl⟩
    obtain ⟨_,hd⟩ := ok_of_bind hd
    obtain ⟨_,hp,hd⟩ := of_bind hd
    iterate 2 obtain ⟨_,hp⟩ := ok_of_bind hp
    cases hp
    cases hd
    exact ⟨rfl,rfl,rfl,rfl⟩
  | endEpoch leaves => exact h.endEpoch hs hr
  | activate leaves => exact Regular.activate hs hr
  | removeCandidate =>
    obtain ⟨_,hpre,hr⟩ := of_bind hr
    obtain ⟨v,hdc,hr⟩ := of_bind hr
    cases hr
    have hpre : v.stakingPool.isPreactive = true := by
      obtain ⟨_,hp,hdc⟩ := of_bind hdc
      obtain ⟨_,hp⟩ := ok_of_bind hp
      cases hp
      cases hdc
      exact assert_eq_ok.mp hpre
    refine ⟨fun s _ _ => entered_of_preactive hpre _,fun hf => ?_⟩
    simp only [pool,hpre] at hf
    cases hf
  | safeMode => exact absurd rfl hm

theorem Initial.regular (h : Initial c) : Regular c := by
  rcases h with ⟨-,hst⟩ | ⟨v,amounts,hv,h⟩
  · exact ⟨by simp [hst],by simp [hst]⟩
  obtain ⟨ha,-,-,hn,hst⟩ := genesis_activated hv h
  refine ⟨fun s hs _ => ?_,fun _ hin => by simp [isInactive,hn] at hin⟩
  rw [hst s hs]
  simp [entered,ha.recorded.processed]

/-- The principals in the balance of the pool: all of a preactive pool, else those whose activation
epoch has begun. -/
def processedPrincipal (c : Account) : Nat :=
  principalWhere (fun a => c.pool.isPreactive || decide (a ≤ c.epoch)) c.stakes

/-- The tokens of the active stakes, each at the rate of its activation epoch. -/
def activeTokens (c : Account) : Nat :=
  (c.stakes.map fun s =>
    if s.stakeActivationEpoch ≤ c.epoch then c.pool.tokensOwed s else 0).sum

theorem Candidate.activeTokens_le (h : Candidate c) : activeTokens c ≤ c.pool.poolTokenBalance := by
  have hr (a : Nat) : c.pool.poolTokenExchangeRateAtEpoch a = .ok initial := by
    simp [poolTokenExchangeRateAtEpoch,isPreactiveAtEpoch,h.preactive]
  rw [h.tokens,h.balance]
  apply sum_le_sum
  intro s _
  simp only [tokensOwed,hr,tokensOf_initial,if_true]
  split
  · exact le_rfl
  · exact Nat.zero_le _

variable {activation last : Nat}

theorem Activated.activeTokens_le (h : Activated c activation last) (hr : Regular c) :
    c.pool.pendingPoolTokenWithdraw + activeTokens c ≤ c.pool.poolTokenBalance := by
  refine le_trans (Nat.add_le_add_left ?_ _) h.tokens
  refine le_trans ?_ sum_tokensOf_le_owed
  apply sum_le_sum
  intro s hs
  by_cases hle : s.stakeActivationEpoch ≤ c.epoch
  · have hin := hr.entered s hs hle
    have hlt : s.stakeActivationEpoch < c.epoch+2 := by omega
    simp [hle,hin,hlt,tokensOwed,h.recorded.rate_eq hin]
  · simp [hle]

theorem Activated.processedPrincipal_eq (h : Activated c activation last) (hr : Regular c) :
    processedPrincipal c = principalWhere (fun a => decide (a ≤ last)) c.stakes := by
  apply principalWhere_congr
  intro s hs
  rw [h.recorded.isPreactive_eq,Bool.false_or,decide_eq_decide]
  constructor
  · intro hle
    by_contra hlt
    have := hr.entered s hs hle
    rw [h.recorded.not_entered (by omega)] at this
    cases this
  · intro hle
    exact hle.trans h.le

/-- A pool whose boundaries are all processed covers what it owes, and neither a withdrawal nor an
epoch change fails but for amounts beyond `u64`. -/
theorem pool_solvent (h : Reached Initial exec (fun c op => Permitted c op ∧ op ≠ .safeMode) c) :
    c.pool.iotaBalance =
        c.pool.pendingTotalIotaWithdraw + processedPrincipal c + c.pool.rewardsPool ∧
      c.pool.pendingPoolTokenWithdraw + activeTokens c ≤ c.pool.poolTokenBalance ∧
      c.validator.nextEpochStake + c.pool.pendingTotalIotaWithdraw =
        c.pool.iotaBalance + c.pool.pendingStake ∧
      (c.pool.isPreactive = true → c.validator.totalStake = c.validator.nextEpochStake) ∧
      (∀ k s, c.stakes[k]? = some s →
        (c.exec (.withdraw k)).Satisfies Overflows fun _ => True) ∧
      (∀ leaves, (c.exec (.endEpoch leaves)).Satisfies Overflows fun _ => True) ∧
      ∀ epoch, c.pool.isPreactiveAtEpoch epoch = false →
        ∃ rate, c.pool.searchRate epoch = .ok (some rate) := by
  obtain ⟨hs,hr⟩ : Solvent c ∧ Regular c := by
    induction h with
    | init hc => exact ⟨hc.solvent,hc.regular⟩
    | step _ hal hrn ih =>
      obtain ⟨hs,hr⟩ := ih
      exact ⟨hs.exec hal.1 (hr.timely _) hrn,hr.exec hs hal.2 hrn⟩
  have hw : ∀ k s, c.stakes[k]? = some s →
      (c.exec (.withdraw k)).Satisfies Overflows fun _ => True :=
    fun k s hk => (hs.withdraw hk (hr.timely _)).mono fun _ _ => trivial
  have he : ∀ leaves, (c.exec (.endEpoch leaves)).Satisfies Overflows fun _ => True :=
    fun leaves => (hs.endEpoch leaves).mono fun _ _ => trivial
  rcases hs.status with hc | ⟨activation,last,ha⟩
  · refine ⟨?_,?_,?_,fun _ => hc.next.symm,hw,he,fun epoch hf => ?_⟩
    · have hp : c.pool.isPreactive = true := by simp [isPreactive,hc.preactive]
      simp only [processedPrincipal,hp,Bool.true_or,hc.pendingIota,hc.rewards,← hc.balance]
      omega
    · rw [hc.pendingTokens,Nat.zero_add]
      exact hc.activeTokens_le
    · rw [hc.next,hc.pendingIota,hc.pendingStake]
    · simp [isPreactiveAtEpoch,hc.preactive] at hf
  refine ⟨?_,ha.activeTokens_le hr,ha.next,fun hp => ?_,hw,he,fun epoch hf => ?_⟩
  · rw [ha.processedPrincipal_eq hr]
    exact ha.balance
  · rw [ha.recorded.isPreactive_eq] at hp
    cases hp
  · rw [ha.recorded.isPreactiveAtEpoch_eq] at hf
    exact ha.recorded.exists_searchRate (by simpa using hf)

theorem fresh_candidate (n : Nat) : Fresh (Validator.candidate n) := ⟨rfl,rfl⟩

/-- The older of two stakes is withdrawn with the rewards. -/
theorem pool_solvent_rewarded : ∃ c,
    Reached Initial exec (fun c op => Permitted c op ∧ op ≠ .safeMode) c ∧
      c.pool.pendingTotalIotaWithdraw = 6000000000 ∧ activeTokens c = 6666666666 ∧
      c.pool.pendingPoolTokenWithdraw + activeTokens c ≤ c.pool.poolTokenBalance := by
  obtain ⟨c1,h1,ha,c2,hd,c,h,hp,ht⟩ :
      ∃ c1, genesis (Validator.candidate 0) [5000000000] = .ok c1 ∧ c1.isActive ∧
      ∃ c2, c1.exec (.depositRewards 1000000000) = .ok c2 ∧
      ∃ c, [.addStake 8000000000,.endEpoch false,.withdraw 1].foldlM exec c2 = .ok c ∧
        c.pool.pendingTotalIotaWithdraw = 6000000000 ∧ activeTokens c = 6666666666 := by
    decide +kernel
  have hal : Permitted c1 (.depositRewards 1000000000) ∧
      StakeOp.depositRewards 1000000000 ≠ .safeMode := ⟨ha,by simp⟩
  have hr : Reached Initial exec (fun c op => Permitted c op ∧ op ≠ .safeMode) c :=
    Reached.foldlM (by simp [Permitted]) (.step (.init (.inr ⟨_,_,fresh_candidate 0,h1⟩)) hal hd) h
  exact ⟨c,hr,hp,ht,(pool_solvent hr).2.1⟩

/-- A pool some of whose boundaries passed in safe mode still backs every outstanding principal and
can be processed, as long as no stake is withdrawn whose activation epoch the pool never entered. -/
theorem pool_sound_through_safe_mode
    (h : Reached Initial exec (fun c op => Permitted c op ∧ Timely c op) c) :
    c.pool.iotaBalance + c.pool.pendingStake = c.pool.pendingTotalIotaWithdraw +
        principalWhere (fun _ => true) c.stakes + c.pool.rewardsPool ∧
      c.validator.nextEpochStake + c.pool.pendingTotalIotaWithdraw =
        c.pool.iotaBalance + c.pool.pendingStake ∧
      (∀ leaves, (c.exec (.endEpoch leaves)).Satisfies Overflows fun _ => True) ∧
      ∀ k s, c.stakes[k]? = some s → Timely c (.withdraw k) →
        (c.exec (.withdraw k)).Satisfies Overflows fun _ => True := by
  have hs : Solvent c := by
    induction h with
    | init hc => exact hc.solvent
    | step _ hal hr ih => exact ih.exec hal.1 hal.2 hr
  refine ⟨?_,?_,fun leaves => (hs.endEpoch leaves).mono fun _ _ => trivial,
    fun k s hk ht => (hs.withdraw hk ht).mono fun _ _ => trivial⟩
  · rcases hs.status with hc | ⟨activation,last,ha⟩
    · rw [hc.pendingStake,hc.pendingIota,hc.rewards,hc.balance]
      omega
    · rw [ha.balance,ha.pending,← principalWhere_split c.stakes last]
      omega
  rcases hs.status with hc | ⟨activation,last,ha⟩
  · rw [hc.next,hc.pendingIota,hc.pendingStake]
  · exact ha.next

/-- A stake that became active in safe mode stays; an older one is withdrawn. -/
theorem pool_sound_through_safe_mode_older : ∃ c,
    Reached Initial exec (fun c op => Permitted c op ∧ Timely c op) c ∧
      c.epoch = 1 ∧ c.pool.pendingTotalIotaWithdraw = 5000000000 ∧
      (c.exec (.endEpoch false)).Satisfies Overflows fun _ => True := by
  obtain ⟨c0,h0,c1,h1,hep,hen,c,hw,he,hp⟩ :
      ∃ c0, genesis (Validator.candidate 0) [5000000000] = .ok c0 ∧
      ∃ c1, [.addStake 10000000000,.safeMode].foldlM exec c0 = .ok c1 ∧
        c1.stakes.map (·.stakeActivationEpoch) = [1,0] ∧ c1.pool.entered 0 ∧
      ∃ c, c1.exec (.withdraw 1) = .ok c ∧
        c.epoch = 1 ∧ c.pool.pendingTotalIotaWithdraw = 5000000000 := by decide +kernel
  have ha : Permitted c1 (.withdraw 1) ∧ Timely c1 (.withdraw 1) := by
    refine ⟨trivial,fun s hs => ?_⟩
    have := congrArg (·[1]?) hep
    simp only [List.getElem?_map,hs] at this
    rw [show s.stakeActivationEpoch = 0 by simpa using this]
    exact .inr hen
  have hr : Reached Initial exec (fun c op => Permitted c op ∧ Timely c op) c :=
    .step (Reached.foldlM (by simp [Permitted,Timely])
      (.init (.inr ⟨_,_,fresh_candidate 0,h0⟩)) h1) ha hw
  exact ⟨c,hr,he,hp,(pool_sound_through_safe_mode hr).2.2.1 false⟩

/-- The stake that became active in safe mode is withdrawn from a balance it never entered, and
the next epoch change aborts. -/
theorem safe_mode_withdrawal_aborts : ∃ c c',
    Reached Initial exec Permitted c ∧ c.exec (.withdraw 0) = .ok c' ∧
      c'.exec (.endEpoch false) = .error .underflow := by
  obtain ⟨c0,h0,c,h,c',hw⟩ :
      ∃ c0, genesis (Validator.candidate 0) [5000000000] = .ok c0 ∧
      ∃ c, [.addStake 10000000000,.safeMode].foldlM exec c0 = .ok c ∧
      ∃ c', c.exec (.withdraw 0) = .ok c' ∧ c'.exec (.endEpoch false) = .error .underflow := by
    decide +kernel
  exact ⟨c,c',Reached.foldlM (by simp [Permitted]) (.init (.inr ⟨_,_,fresh_candidate 0,h0⟩)) h,hw⟩

end Iota.System.Account
