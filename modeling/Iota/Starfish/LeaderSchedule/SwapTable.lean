import Iota.Starfish.BlockVerifier
import Iota.Starfish.LeaderSchedule

/-! The best and the worst scorers of a window, each within the stake threshold. -/
namespace Iota.Starfish
open Except List

theorem ReputationScores.map_fst_authoritiesByScore (scores : ReputationScores) :
    scores.authoritiesByScore.map Prod.fst = range scores.scoresPerAuthority.length := by
  unfold authoritiesByScore
  rw [map_map,range_eq_range',← zipIdx_map_snd 0 scores.scoresPerAuthority]
  rfl

namespace LeaderSwapTable
variable {ctx : Context} {c : Committee} {threshold : Nat} {l : List (Nat × Nat)}

/-- The stake that the good nodes, and the bad nodes, may have. -/
def shareOf (c : Committee) (threshold : Nat) : Nat := threshold * c.totalStake / 100

abbrev share (ctx : Context) : Nat :=
  shareOf ctx.committee ctx.protocolConfig.badNodesStakeThreshold

def stakeOf (c : Committee) (nodes : List Nat) : Nat := (nodes.map c.stake).sum

theorem exists_retrieveFirstNodes {stake : Nat} (h : stake ≤ shareOf c threshold) :
    ∃ k, retrieveFirstNodes c threshold l stake = (l.take k).map Prod.fst ∧
      stake + stakeOf c (retrieveFirstNodes c threshold l stake) ≤ shareOf c threshold := by
  induction l generalizing stake with
  | nil => exact ⟨0,rfl,h⟩
  | cons p l ih =>
    unfold retrieveFirstNodes
    split
    · exact ⟨0,rfl,h⟩
    · next hle =>
      obtain ⟨k,hk,hs⟩ := ih (Nat.le_of_not_lt hle)
      refine ⟨k+1,congrArg _ hk,?_⟩
      rw [stakeOf,map_cons,sum_cons,← Nat.add_assoc]
      exact hs

theorem retrieveFirstNodes_ne_nil (h : ∀ a, c.stake a ≤ shareOf c threshold) (hl : l ≠ []) :
    retrieveFirstNodes c threshold l 0 ≠ [] := by
  cases l with
  | nil => exact absurd rfl hl
  | cons p l =>
    have hp := h p.1
    unfold retrieveFirstNodes
    rw [if_neg (by unfold shareOf at hp; omega)]
    exact cons_ne_nil _ _

theorem stakeOf_mono {a b : List Nat} (h : a.Sublist b) : stakeOf c a ≤ stakeOf c b :=
  (h.map _).sum_le_sum fun _ _ => Nat.zero_le _

theorem stakeOf_perm {a b : List Nat} (h : a.Perm b) : stakeOf c a = stakeOf c b :=
  (h.map _).sum_eq

theorem exists_front (ht : threshold ≤ 33) (hl : (l.map Prod.fst).Perm (range c.size)) :
    ∃ front back, l = front ++ back ∧
      retrieveFirstNodes c threshold l 0 = front.map Prod.fst ∧
      ∀ a ∈ retrieveFirstNodes c threshold l.reverse 0, a ∈ back.map Prod.fst := by
  obtain ⟨g,hg,hgs⟩ := exists_retrieveFirstNodes (l := l) (Nat.zero_le (shareOf c threshold))
  obtain ⟨b,hb,hbs⟩ :=
    exists_retrieveFirstNodes (l := l.reverse) (Nat.zero_le (shareOf c threshold))
  have hd : (l.reverse.take b).map Prod.fst = ((l.drop (l.length - b)).map Prod.fst).reverse := by
    rw [take_reverse,map_reverse]
  rw [hg] at hgs
  rw [hb,hd,stakeOf_perm (reverse_perm _)] at hbs
  -- both together have two thirds of the stake at most, so they do not meet
  have hm : g ≤ l.length - b := by
    by_contra hlt
    have htot : stakeOf c (l.map Prod.fst) = c.totalStake := by
      rw [stakeOf_perm hl,← c.sum_range_stake]
      rfl
    have hsub : ((l.take (l.length - b)).map Prod.fst).Sublist ((l.take g).map Prod.fst) :=
      (take_sublist_take_left (by omega)).map _
    have hle := stakeOf_mono (c := c) hsub
    have hs : stakeOf c ((l.take (l.length - b)).map Prod.fst) +
        stakeOf c ((l.drop (l.length - b)).map Prod.fst) = stakeOf c (l.map Prod.fst) := by
      rw [stakeOf,stakeOf,stakeOf,← sum_append,← map_append,← map_append,take_append_drop]
    have hsh : 100 * shareOf c threshold ≤ 33 * c.totalStake :=
      (Nat.mul_div_le _ _).trans (Nat.mul_le_mul_right _ ht)
    have hpos : c.totalStake ≠ 0 := c.total_ne_zero
    omega
  refine ⟨l.take g,l.drop g,(take_append_drop g l).symm,hg,fun a ha => ?_⟩
  rw [hb,hd,mem_reverse] at ha
  exact map_subset _ (drop_subset_drop_left _ hm) ha

variable {scores : ReputationScores}

theorem new_ok (ht : ctx.protocolConfig.badNodesStakeThreshold ≤ 33)
    (hs : scores.scoresPerAuthority.length = ctx.committee.size) (index : Nat) :
    let l := (ctx.shuffle index scores.authoritiesByScore).insertionSort fun a b => b.2 ≤ a.2
    LeaderSwapTable.new ctx index scores =
      .ok ⟨retrieveFirstNodes ctx.committee ctx.protocolConfig.badNodesStakeThreshold l 0,
        retrieveFirstNodes ctx.committee ctx.protocolConfig.badNodesStakeThreshold l.reverse 0,l,
        scores⟩ := by
  have hn : scores.scoresPerAuthority ≠ [] := by
    rintro hn
    have hp := ctx.committee.size_pos
    rw [← hs,hn] at hp
    exact hp.false
  unfold LeaderSwapTable.new
  rw [if_neg (Nat.not_lt.mpr ht),if_neg hn,if_neg (not_not.mpr hs)]

structure Sound (ctx : Context) (scores : ReputationScores) (t : LeaderSwapTable) : Prop where
  disjoint : t.goodNodes.Disjoint t.badNodes
  good_le : stakeOf ctx.committee t.goodNodes ≤ share ctx
  bad_le : stakeOf ctx.committee t.badNodes ≤ share ctx
  score_le : ∀ good ∈ t.goodNodes, ∀ bad ∈ t.badNodes,
    scores.scoresPerAuthority.getD bad 0 ≤ scores.scoresPerAuthority.getD good 0
  good_ne_nil : t.badNodes ≠ [] → t.goodNodes ≠ []

theorem score_of_mem {p : Nat × Nat}
    (h : p ∈ scores.authoritiesByScore) : scores.scoresPerAuthority.getD p.1 0 = p.2 := by
  obtain ⟨⟨score,a⟩,hm,rfl⟩ := mem_map.mp h
  rw [mem_zipIdx_iff_getElem?] at hm
  rw [getD_eq_getElem?_getD,hm]
  rfl

theorem exists_sound (hsh : ∀ i l, (ctx.shuffle i l).Perm l)
    (ht : ctx.protocolConfig.badNodesStakeThreshold ≤ 33)
    (hst : ∀ a, ctx.committee.stake a ≤ share ctx) (index : Nat)
    (hsc : scores.scoresPerAuthority = [] ∨
      scores.scoresPerAuthority.length = ctx.committee.size) :
    ∃ table, LeaderSwapTable.new ctx index scores = .ok table ∧ Sound ctx scores table := by
  rcases hsc with hn | hl
  · refine ⟨.default,?_,disjoint_nil_left _,Nat.zero_le _,Nat.zero_le _,nofun,fun h => h⟩
    unfold LeaderSwapTable.new
    rw [if_neg (Nat.not_lt.mpr ht),if_pos hn]
  let l := (ctx.shuffle index scores.authoritiesByScore).insertionSort fun a b => b.2 ≤ a.2
  have hp : l.Perm scores.authoritiesByScore := (perm_insertionSort _ _).trans (hsh _ _)
  have hk : (l.map Prod.fst).Perm (range ctx.committee.size) := by
    rw [← hl,← scores.map_fst_authoritiesByScore]
    exact hp.map _
  have hs : l.Pairwise fun a b => b.2 ≤ a.2 := by
    have : Std.Total fun a b : Nat × Nat => b.2 ≤ a.2 := ⟨fun a b => Nat.le_total b.2 a.2⟩
    have : IsTrans (Nat × Nat) fun a b => b.2 ≤ a.2 := ⟨fun _ _ _ h h' => h'.trans h⟩
    exact pairwise_insertionSort _ _
  have hz := Nat.zero_le (share ctx)
  obtain ⟨-,-,hg⟩ := exists_retrieveFirstNodes (l := l) hz
  obtain ⟨-,-,hb⟩ := exists_retrieveFirstNodes (l := l.reverse) hz
  obtain ⟨front,back,he,hf,hbk⟩ := exists_front ht hk
  refine ⟨_,new_ok ht hl index,?_,by simpa using hg,by simpa using hb,?_,fun _ => ?_⟩
  · have hd : (front.map Prod.fst ++ back.map Prod.fst).Nodup := by
      rw [← map_append,← he]
      exact hk.nodup_iff.mpr nodup_range
    intro a ha hb
    exact disjoint_of_nodup_append hd (hf ▸ ha) (hbk a hb)
  · intro good hgd bad hbd
    obtain ⟨p,hpf,rfl⟩ := mem_map.mp (hf ▸ hgd : good ∈ front.map Prod.fst)
    obtain ⟨q,hqb,rfl⟩ := mem_map.mp (hbk bad hbd)
    have hpl : p ∈ l := he ▸ mem_append_left _ hpf
    have hql : q ∈ l := he ▸ mem_append_right _ hqb
    rw [score_of_mem (hp.mem_iff.mp hpl),score_of_mem (hp.mem_iff.mp hql)]
    exact (pairwise_append.mp (he ▸ hs)).2.2 p hpf q hqb
  refine retrieveFirstNodes_ne_nil hst fun hn => ?_
  have hle := hk.length_eq
  rw [show l = [] from hn,length_range] at hle
  exact ctx.committee.size_pos.ne hle

/-- The table of any scores when no authority has more stake than the threshold allows. A leader is
replaced by a good node if it is a bad one. -/
theorem swapTable_sound (ctx : Context) (hshuffle : ∀ i l, (ctx.shuffle i l).Perm l)
    (hchoose : ∀ round offset l, l ≠ [] → ctx.choose round offset l ∈ l)
    (hthreshold : ctx.protocolConfig.badNodesStakeThreshold ≤ 33)
    (hstake : ∀ a, ctx.committee.stake a ≤ share ctx) (index : Nat) (scores : ReputationScores)
    (hscores : scores.scoresPerAuthority = [] ∨
      scores.scoresPerAuthority.length = ctx.committee.size) :
    ∃ table, LeaderSwapTable.new ctx index scores = .ok table ∧ Sound ctx scores table ∧
      ∀ leader round, ∃ swapped, table.swap ctx leader round 0 = .ok swapped ∧
        ∀ a, swapped = some a → a ∉ table.badNodes := by
  obtain ⟨table,hn,hs⟩ := exists_sound hshuffle hthreshold hstake index hscores
  refine ⟨table,hn,hs,fun leader round => ?_⟩
  unfold LeaderSwapTable.swap
  split
  · next hm =>
    have hne := hs.good_ne_nil (ne_nil_of_mem hm)
    rw [if_neg (not_not.mpr rfl),if_neg hne]
    refine ⟨_,rfl,?_⟩
    rintro a ⟨⟩
    exact fun hb => hs.disjoint (hchoose round 0 _ hne) hb
  · exact ⟨none,rfl,nofun⟩

def fiveContext : Context :=
  { BlockVerifier.soleContext with
    committee := ⟨0,[1,1,1,1,1],by decide,by decide,by decide⟩ }

/-- Leaders of a round after the first are not supported. -/
theorem swap_second_leader_panics :
    (LeaderSwapTable.new fiveContext 1 ⟨[5,4,3,2,1],⟨1,2⟩⟩ >>= fun table =>
      table.swap fiveContext 4 7 1) = .error .multiLeaderSwap := by
  decide +kernel

theorem swapTable_sound_five : ∃ table,
    LeaderSwapTable.new fiveContext 1 ⟨[5,4,3,2,1],⟨1,2⟩⟩ = .ok table ∧
      table.goodNodes.Disjoint table.badNodes := by
  have hc : ∀ round offset l, l ≠ [] → fiveContext.choose round offset l ∈ l := by
    rintro - - (_ | ⟨a,l⟩) hl
    · exact absurd rfl hl
    · exact .head _
  have hst : ∀ a, fiveContext.committee.stake a ≤ 1 := by
    intro a
    rcases Nat.lt_or_ge a 5 with ha | ha
    · interval_cases a <;> decide
    · exact (Committee.stake_eq_zero ha).trans_le (Nat.zero_le _)
  obtain ⟨table,hn,hs,-⟩ := swapTable_sound fiveContext (fun _ l => .refl l) hc (by decide) hst
    1 ⟨[5,4,3,2,1],⟨1,2⟩⟩ (.inr rfl)
  exact ⟨table,hn,hs.disjoint⟩

end LeaderSwapTable
end Iota.Starfish
