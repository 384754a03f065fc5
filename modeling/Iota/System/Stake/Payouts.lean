import Iota.System.Stake.Runs

/-! What the stakes of a pool are paid when several are withdrawn within one epoch. Each is entitled
to the rewards of its tokens at the rate of the epoch; a stake that was rounded down when it was
exchanged counts as entitled to nothing, so the others can be entitled to more than there is. -/
namespace Iota.System
open Except List Machine

/-- The amounts paid when the stakes are withdrawn in this order. -/
def Validator.payouts (self : Validator) (epoch : Nat) : List StakedIota → Tx (List Nat)
  | [] => .ok []
  | staked :: order => do
    let (self,amount) ← self.requestWithdrawStake staked epoch
    let paid ← self.payouts epoch order
    .ok (amount :: paid)

/-- Stakes withdrawn within one epoch, in whatever order, are all paid what they are entitled to
exactly when their entitlements together are in the rewards pool. -/
theorem Validator.withdrawals_paid_iff {v : Validator} {epoch : Nat} {order : List StakedIota}
    {paid : List Nat} (h : v.payouts epoch order = .ok paid) :
    paid = order.map (fun s => s.principal + v.stakingPool.entitlement epoch s) ↔
      (order.map (v.stakingPool.entitlement epoch)).sum ≤ v.stakingPool.rewardsPool := by
  induction order generalizing v paid with
  | nil =>
    cases h
    simp
  | cons s order ih =>
    obtain ⟨⟨v',amount⟩,hw,h⟩ := of_bind h
    obtain ⟨rest,hr,h⟩ := of_bind h
    cases h
    obtain ⟨hs,rewards,hrw,ham,hp⟩ := requestWithdrawStake_cases hw
    have hi := ih hr
    rw [hs.entitlement] at hi
    rw [map_cons,map_cons,sum_cons,cons.injEq,hi]
    omega

/-- A third stake is rounded down when it is exchanged, so the two older ones are entitled to more
than the rewards pool. The one withdrawn first is paid in full and the other is not. -/
theorem Account.withdrawals_paid_iff_older : ∃ c : Account, ∃ s ∈ c.stakes, ∃ s' ∈ c.stakes,
    Reached Initial exec (fun c op => Permitted c op ∧ Timely c op) c ∧
      c.validator.payouts c.epoch [s,s'] = .ok [8000000001,11999999999] ∧
      c.validator.payouts c.epoch [s',s] = .ok [12000000001,7999999999] ∧
      c.pool.rewardsPool < ([s,s'].map (c.pool.entitlement c.epoch)).sum := by
  obtain ⟨c0,h0,ha,c1,hd,c,h,s,hs,s',hs',hp,hp',hlt⟩ :
      ∃ c0, genesis (Validator.candidate 0) [2000000000,3000000000] = .ok c0 ∧ c0.isActive ∧
      ∃ c1, c0.exec (.depositRewards 15000000000) = .ok c1 ∧
      ∃ c, [.addStake 1000000003,.endEpoch false].foldlM exec c1 = .ok c ∧
      ∃ s ∈ c.stakes, ∃ s' ∈ c.stakes,
        c.validator.payouts c.epoch [s,s'] = .ok [8000000001,11999999999] ∧
        c.validator.payouts c.epoch [s',s] = .ok [12000000001,7999999999] ∧
        11999999999 < s'.principal + c.pool.entitlement c.epoch s' := by decide +kernel
  have hal (n : Nat) : Permitted c0 (.depositRewards n) ∧ Timely c0 (.depositRewards n) :=
    ⟨ha,trivial⟩
  refine ⟨c,s,hs,s',hs',Reached.foldlM (by simp [Permitted,Timely])
    (.step (.init (.inr ⟨_,_,fresh_candidate 0,h0⟩)) (hal _) hd) h,hp,hp',?_⟩
  by_contra hle
  have := (Validator.withdrawals_paid_iff hp).mpr (Nat.le_of_not_lt hle)
  simp only [map_cons,cons.injEq] at this
  rw [Account.pool] at hlt
  omega

end Iota.System
