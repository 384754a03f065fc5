import Iota.Starfish.Linearizer.Run

/-! The timestamps of commits never decrease, and the median over the parents of a leader lies among
those of the honest ones. -/
namespace Iota.Starfish
open BlockVerifier DagState Except Linearizer List Universe
variable {ctx : Context} {U : Universe ctx}

section Median
variable {half cumulative m : Nat} {l : List (Nat × Nat)}

theorem exists_firstAbove (h : half < cumulative + (l.map Prod.snd).sum) (hc : cumulative ≤ half) :
    ∃ a x b, l = a ++ x :: b ∧ firstAbove half cumulative l = some x.1 ∧
      cumulative + (a.map Prod.snd).sum ≤ half ∧
      half < cumulative + (a.map Prod.snd).sum + x.2 := by
  induction l generalizing cumulative with
  | nil => exact absurd h (Nat.not_lt.mpr hc)
  | cons x l ih =>
    unfold firstAbove
    split
    · next hlt => exact ⟨[],x,l,rfl,rfl,hc,hlt⟩
    next hle =>
    rw [map_cons,sum_cons,← Nat.add_assoc] at h
    obtain ⟨a,y,b,rfl,hf,ha,hy⟩ := ih h (Nat.le_of_not_lt hle)
    refine ⟨x :: a,y,b,rfl,hf,?_,?_⟩
    · rwa [map_cons,sum_cons,← Nat.add_assoc]
    · rwa [map_cons,sum_cons,← Nat.add_assoc]

/-- The stake of the entries that a test on their timestamps selects. -/
def stakeWhere (p : Nat → Bool) (l : List (Nat × Nat)) : Nat :=
  ((l.filter fun x => p x.1).map Prod.snd).sum

theorem stakeWhere_perm {p : Nat → Bool} {l' : List (Nat × Nat)} (h : l.Perm l') :
    stakeWhere p l = stakeWhere p l' :=
  ((h.filter _).map _).sum_eq

theorem exists_median {total : Nat} (ht : (l.map Prod.snd).sum = total) (hp : 0 < total) :
    ∃ m, firstAbove (total / 2) 0 (l.insertionSort fun a b => a.1 ≤ b.1) = some m ∧
      total / 2 < stakeWhere (· ≤ m) l ∧ stakeWhere (· < m) l ≤ total / 2 := by
  let s := l.insertionSort fun a b => a.1 ≤ b.1
  have hs : s.Perm l := perm_insertionSort _ _
  have ho : s.Pairwise fun a b => a.1 ≤ b.1 := by
    have : Std.Total fun a b : Nat × Nat => a.1 ≤ b.1 := ⟨fun a b => Nat.le_total a.1 b.1⟩
    have : IsTrans (Nat × Nat) fun a b => a.1 ≤ b.1 := ⟨fun _ _ _ h h' => h.trans h'⟩
    exact pairwise_insertionSort _ _
  rw [← (hs.map _).sum_eq] at ht
  have hlt : total / 2 < 0 + (s.map Prod.snd).sum := by omega
  obtain ⟨a,x,b,he,hf,ha,hx⟩ := exists_firstAbove hlt (Nat.zero_le _)
  rw [he] at ho
  obtain ⟨-,hxb,hax⟩ := pairwise_append.mp ho
  refine ⟨x.1,hf,?_,?_⟩
  · rw [← stakeWhere_perm hs,he,stakeWhere,filter_append,map_append,sum_append,
      filter_eq_self.mpr fun y hy => decide_eq_true (hax y hy x mem_cons_self),
      filter_cons_of_pos (by simp),map_cons,sum_cons]
    omega
  have hnil : (x :: b).filter (fun y => decide (y.1 < x.1)) = [] := by
    refine filter_eq_nil_iff.mpr fun y hy => ?_
    rcases mem_cons.mp hy with rfl | hy
    · simp
    · simpa using (pairwise_cons.mp hxb).1 y hy
  rw [← stakeWhere_perm hs,he,stakeWhere,filter_append,hnil,append_nil]
  have hle := (filter_sublist (p := fun y => decide (y.1 < x.1)) (l := a)).map Prod.snd
  have := hle.sum_le_sum fun _ _ => Nat.zero_le _
  omega

end Median
section Parents
variable {c : Committee} {parents : List VerifiedBlockHeader} {byzantine : Finset Nat}

theorem sum_stake_le_stakeOf (hn : (parents.map VerifiedBlockHeader.author).Nodup)
    (hb : ∀ h ∈ parents, h.author ∈ byzantine) :
    (parents.map fun h => c.stake h.author).sum ≤ c.stakeOf byzantine := by
  have hs := sum_toFinset c.stake hn
  rw [map_map] at hs
  rw [show (parents.map fun h => c.stake h.author).sum = _ from hs.symm]
  refine Committee.stakeOf_mono fun a ha => ?_
  obtain ⟨h,hh,rfl⟩ := mem_map.mp (mem_toFinset.mp ha)
  exact hb h hh

theorem stakeWhere_parents (p : Nat → Bool) :
    stakeWhere p (parents.map fun h => (h.timestampMs,c.stake h.author)) =
      ((parents.filter fun h => p h.timestampMs).map fun h => c.stake h.author).sum := by
  rw [stakeWhere,filter_map,map_map]
  rfl

theorem exists_medianTimestamp (hn : (parents.map VerifiedBlockHeader.author).Nodup)
    (hq : c.quorumThreshold ≤ (parents.map fun h => c.stake h.author).sum)
    (hb : c.FaultBound byzantine) :
    ∃ m, medianTimestampByStake c parents = .ok m ∧
      firstAbove ((parents.map fun h => c.stake h.author).sum / 2) 0
        ((parents.map fun h => (h.timestampMs,c.stake h.author)).insertionSort
          fun a b => a.1 ≤ b.1) = some m ∧
      (∃ h ∈ parents, h.author ∉ byzantine ∧ h.timestampMs ≤ m) ∧
      ∃ h ∈ parents, h.author ∉ byzantine ∧ m ≤ h.timestampMs := by
  have ht : ((parents.map fun h => (h.timestampMs,c.stake h.author)).map Prod.snd).sum =
      (parents.map fun h => c.stake h.author).sum := by
    rw [map_map]
    rfl
  have hp : 0 < c.quorumThreshold := Nat.succ_pos _
  obtain ⟨m,hf,hlo,hhi⟩ := exists_median ht (by omega)
  rw [stakeWhere_parents] at hlo hhi
  have hq' := hq
  unfold Committee.FaultBound at hb
  unfold Committee.quorumThreshold at hq'
  have hle {p : VerifiedBlockHeader → Bool}
      (h : ∀ x ∈ parents, p x = true → x.author ∈ byzantine) :
      ((parents.filter p).map fun h => c.stake h.author).sum ≤ c.stakeOf byzantine :=
    sum_stake_le_stakeOf (hn.sublist (filter_sublist.map _)) fun x hx =>
      h x (mem_filter.mp hx).1 (mem_filter.mp hx).2
  refine ⟨m,?_,hf,?_,?_⟩
  · have hne : parents.map (fun h => (h.timestampMs,c.stake h.author)) ≠ [] := by
      intro he
      rw [he] at ht
      have hz : (parents.map fun h => c.stake h.author).sum = 0 := ht.symm
      omega
    unfold medianTimestampByStake medianTimestampsByStakeInner
    dsimp only
    rw [if_neg hne,ht,if_neg (Nat.not_lt.mpr hq),hf]
    rfl
  · by_contra hno
    have := hle (p := fun x => x.timestampMs ≤ m) fun x hx hxm => by
      by_contra hxb
      exact hno ⟨x,hx,hxb,by simpa using hxm⟩
    omega
  · by_contra hno
    have hbz := hle (p := fun x => !decide (x.timestampMs < m)) fun x hx hxm => by
      by_contra hxb
      exact hno ⟨x,hx,hxb,by simpa using hxm⟩
    have hs := ((filter_append_perm (fun x => decide (x.timestampMs < m)) parents).map
      fun h => c.stake h.author).sum_eq
    rw [map_append,sum_append] at hs
    omega

end Parents
namespace LinearizerState
variable {st st' : LinearizerState ctx}

def Monotone (st : LinearizerState ctx) : Prop :=
  st.output.Pairwise fun d d' => d.timestampMs ≤ d'.timestampMs

theorem Inv.timestamp_le_last (hi : Inv U st) (hm : st.Monotone) {d : PendingSubDag}
    (hd : d ∈ st.output) : d.timestampMs ≤ st.dag.lastCommitTimestampMs := by
  rcases eq_nil_or_concat' st.output with he | ⟨before,last,he⟩
  · rw [he] at hd
    cases hd
  have hg : st.output[before.length]? = some last := by
    rw [he]
    exact List.getElem?_concat_length
  obtain ⟨c,hc,hci,hr⟩ := hi.recorded before.length last hg
  have hl : last.timestampMs = st.dag.lastCommitTimestampMs := by
    have hle := hi.length_eq
    rw [he,length_append,length_singleton] at hle
    unfold lastCommitIndex at hle
    unfold lastCommitTimestampMs
    cases hlast : st.dag.lastCommit with
    | none =>
      rw [hlast] at hle
      cases hle
    | some c' =>
      rw [hlast] at hle
      have hlog := hi.watermark.log
      rw [hr.timestamp,hlog.index_inj hc (hlog.last_logged hlast) (hci.trans hle)]
  unfold Monotone at hm
  rw [he] at hd hm
  rw [← hl]
  rcases mem_append.mp hd with hd | hd
  · exact (pairwise_append.mp hm).2.2 d hd last (mem_singleton.mpr rfl)
  · rw [mem_singleton.mp hd]

theorem keptByCommits_monotone : KeptByCommits fun st => Inv U st ∧ st.Monotone := by
  intro st leader scores subDag l' s' ⟨hi,hm⟩ hh hp h
  refine ⟨hi.commitLeader hh hp h,?_⟩
  obtain ⟨headers,timestampMs,committed,refs,hc,rfl,-,-⟩ := commitLeader_cases h
  refine pairwise_append.mpr ⟨hm,pairwise_singleton _ _,fun d hd b hb => ?_⟩
  obtain rfl := mem_singleton.mp hb
  obtain ⟨parents,-,ht⟩ := of_bind hc.timestamp
  obtain ⟨m,-,ht⟩ := of_bind ht
  cases ht
  exact (hi.timestamp_le_last hm hd).trans (Nat.le_max_right _ _)

theorem Monotone.exec (hi : Inv U st) (hm : st.Monotone) {op : LinearizerOp}
    (hop : Permitted U st op) (h : st.exec op = .ok st') : st'.Monotone := by
  cases op with
  | dag op =>
    obtain ⟨s',-,h⟩ := of_bind h
    cases h
    exact hm
  | getPendingSubDags schedule leaders =>
    exact (keptByCommits_monotone.getPendingSubDags ⟨hi,hm⟩ hop h).2
  | evictLinearizer round =>
    cases h
    exact hm
  | restart refOrder slotOrder =>
    obtain ⟨s',-,h⟩ := of_bind h
    obtain ⟨l',-,h⟩ := of_bind h
    cases h
    exact hm.sublist (take_sublist _ _)

theorem Reached.monotone {ownIndex cachedRounds : Nat} (h : Reached U ownIndex cachedRounds st) :
    st.Monotone := by
  have hinit : ∀ s : LinearizerState ctx, Initial ownIndex cachedRounds s →
      Inv U s ∧ s.Monotone := by
    intro s hs
    refine ⟨Inv.initial hs,?_⟩
    unfold Monotone
    rw [hs.2.2]
    exact .nil
  exact (h.invariant hinit fun _ _ _ hi hop hs => ⟨hi.1.exec hop hs,hi.2.exec hi.1 hop hs⟩).2

end LinearizerState
open LinearizerState

/-- Commit timestamps never decrease. The median over the parents of a leader is found before the
loop ends, and lies between timestamps of honest parents. -/
theorem commit_timestamps_sound {ownIndex cachedRounds : Nat} {st : LinearizerState ctx}
    (hst : Reached U ownIndex cachedRounds st) :
    st.output.Pairwise (fun d d' => d.timestampMs ≤ d'.timestampMs) ∧
    ∀ leader ∈ U, ∀ parents : List VerifiedBlockHeader,
      parents.map VerifiedBlockHeader.reference =
        leader.ancestors.filter (fun a => a.round = leader.round - 1) →
      ctx.committee.quorumThreshold ≤ (parents.map fun h => ctx.committee.stake h.author).sum →
      ∀ byzantine, ctx.committee.FaultBound byzantine →
      ∃ m, medianTimestampByStake ctx.committee parents = .ok m ∧
        firstAbove ((parents.map fun h => ctx.committee.stake h.author).sum / 2) 0
          ((parents.map fun h => (h.timestampMs,ctx.committee.stake h.author)).insertionSort
            fun a b => a.1 ≤ b.1) = some m ∧
        (∃ h ∈ parents, h.author ∉ byzantine ∧ h.timestampMs ≤ m) ∧
        ∃ h ∈ parents, h.author ∉ byzantine ∧ m ≤ h.timestampMs := by
  refine ⟨hst.monotone,fun leader hl parents hp hq byzantine hb => ?_⟩
  refine exists_medianTimestamp ?_ hq hb
  have ha : parents.map VerifiedBlockHeader.author =
      (parents.map VerifiedBlockHeader.reference).map BlockRef.author := by
    rw [map_map]
    rfl
  rw [ha,hp]
  exact (ancestors_authors_nodup hl).sublist (filter_sublist.map _)

/-- Two commits on the chain of a sole authority. -/
theorem commit_timestamps_sound_soleChain : ∃ st : LinearizerState soleContext,
    Reached (ackingChain fun _ => []) 0 5 st ∧ st.output.length = 2 ∧
    st.output.Pairwise fun d d' => d.timestampMs ≤ d'.timestampMs := by
  have h0 : Reached (ackingChain fun _ => []) 0 5 _ := .start rfl
  have h1 := Reached.chain (n := 0) h0 rfl rfl
  have h2 := Reached.chain (n := 1) h1 rfl rfl
  have h3 := Reached.chain (n := 2) h2 rfl rfl
  have h4 := h3.commit (.new .default)
    [ackingHeader (fun _ => []) 1,ackingHeader (fun _ => []) 3] (by decide)
    (forall_mem_cons.mpr ⟨rfl,forall_mem_singleton.mpr rfl⟩) rfl
  exact ⟨_,h4,rfl,(commit_timestamps_sound h4).1⟩

end Iota.Starfish
