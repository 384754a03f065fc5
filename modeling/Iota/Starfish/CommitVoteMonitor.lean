import Iota.Starfish.BlockVerifier

/-! `CommitVoteMonitor` keeps the highest commit index each authority voted for, and derives from it
the highest index that a quorum voted for. -/
namespace Iota.Starfish.CommitVoteMonitor
open BlockVerifier Except List

def new (c : Committee) : List Nat := replicate c.size 0

def observeBlock (highest : List Nat) (block : VerifiedBlockHeader) : Except Panic (List Nat) :=
  block.commitVotes.foldlM (fun highest vote =>
    match highest[block.author]? with
    | none => .error .authorityOutOfRange
    | some index =>
      .ok (if index < vote.index then highest.set block.author vote.index else highest)) highest

def firstQuorum (c : Committee) : Nat → List (Nat × Nat) → Nat
  | _, [] => genesisCommitIndex
  | totalStake, (commitIndex,stake) :: rest =>
    if c.quorumThreshold ≤ totalStake + stake then commitIndex
    else firstQuorum c (totalStake + stake) rest

/-- The order of `a.cmp(b).reverse()` on pairs of commit index and stake. -/
def Descending (a b : Nat × Nat) : Prop := b.1 < a.1 ∨ b.1 = a.1 ∧ b.2 ≤ a.2

instance : DecidableRel Descending := fun _ _ => inferInstanceAs (Decidable (_ ∨ _))

def quorumCommitIndex (c : Committee) (highest : List Nat) : Nat :=
  firstQuorum c 0 ((highest.zip c.authorities).insertionSort Descending)

/-- The highest commit index that `a` voted for in the blocks. -/
def highestVote (blocks : List VerifiedBlockHeader) (a : Nat) : Nat :=
  ((blocks.filter (·.author = a)).flatMap fun b => b.commitVotes.map CommitRef.index).foldl max 0

variable {c : Committee} {f : Nat → Nat} {b : VerifiedBlockHeader}
  {blocks : List VerifiedBlockHeader} {l : List (Nat × Nat)} {S n total : Nat}

theorem new_eq : new c = (range c.size).map (highestVote []) := by
  rw [show highestVote [] = fun _ => 0 from rfl,map_const',length_range]
  rfl

theorem set_map_range {a : Nat} (v : Nat) :
    ((range n).map f).set a v = (range n).map (Function.update f a v) := by
  refine ext_getElem (by simp) fun i h h' => ?_
  simp [getElem_set,Function.update_apply,eq_comm]

theorem observeBlock_eq (h : b.author < n) :
    observeBlock ((range n).map f) b = .ok ((range n).map (Function.update f b.author
      ((b.commitVotes.map CommitRef.index).foldl max (f b.author)))) := by
  unfold observeBlock
  induction b.commitVotes generalizing f with
  | nil => simp [pure,Except.pure]
  | cons v vs ih =>
    have hg : ((range n).map f)[b.author]? = some (f b.author) := by simp [h]
    have hs : (if f b.author < v.index then ((range n).map f).set b.author v.index
        else (range n).map f) =
        (range n).map (Function.update f b.author (max (f b.author) v.index)) := by
      split
      · next hl => rw [set_map_range,max_eq_right hl.le]
      · next hl => rw [max_eq_left (Nat.le_of_not_lt hl),Function.update_eq_self]
    rw [foldlM_cons,hg]
    dsimp only
    rw [hs,ok_bind,ih,Function.update_self,Function.update_idem]
    rfl

theorem highestVote_concat : highestVote (blocks ++ [b]) = Function.update (highestVote blocks)
    b.author ((b.commitVotes.map CommitRef.index).foldl max (highestVote blocks b.author)) := by
  funext a
  by_cases ha : a = b.author
  · subst ha
    simp [highestVote,filter_append,foldl_append]
  · simp [highestVote,filter_append,Function.update_of_ne ha,Ne.symm ha]

theorem observe_eq (blocks more : List VerifiedBlockHeader) (h : ∀ b ∈ more, b.author < c.size) :
    more.foldlM observeBlock ((range c.size).map (highestVote blocks)) =
      .ok ((range c.size).map (highestVote (blocks ++ more))) := by
  induction more generalizing blocks with
  | nil => simp [pure,Except.pure]
  | cons b more ih =>
    obtain ⟨hb,hm⟩ := forall_mem_cons.mp h
    rw [foldlM_cons,observeBlock_eq hb,ok_bind,← highestVote_concat,ih _ hm,append_assoc]
    rfl

theorem descending_pairwise : (l.insertionSort Descending).Pairwise fun a b => b.1 ≤ a.1 := by
  have : Std.Total Descending := ⟨fun a b => by unfold Descending; omega⟩
  have : IsTrans _ Descending := ⟨fun a b d h h' => by unfold Descending at *; omega⟩
  refine (pairwise_insertionSort Descending l).imp fun {a b} h => ?_
  unfold Descending at h
  omega

/-- The prefix sums: from a stake below the threshold on, the index found is at least `S` when
the entries with an index of at least `S` fill the quorum. -/
theorem le_firstQuorum_iff (ho : l.Pairwise fun a b => b.1 ≤ a.1) (ht : total < c.quorumThreshold)
    (hq : c.quorumThreshold ≤ total + (l.map Prod.snd).sum) :
    S ≤ firstQuorum c total l ↔
      c.quorumThreshold ≤ total + ((l.filter fun x => S ≤ x.1).map Prod.snd).sum := by
  induction l generalizing total with
  | nil => exact absurd hq (Nat.not_le.mpr ht)
  | cons x l ih =>
    obtain ⟨hx,hl⟩ := pairwise_cons.mp ho
    rw [map_cons,sum_cons] at hq
    have hnil (h : x.1 < S) : l.filter (fun y => decide (S ≤ y.1)) = [] := by
      refine filter_eq_nil_iff.mpr fun y hy => ?_
      simpa using (hx y hy).trans_lt h
    unfold firstQuorum
    by_cases hS : S ≤ x.1
    · rw [filter_cons_of_pos (by simpa using hS),map_cons,sum_cons]
      split
      · exact ⟨fun _ => by omega,fun _ => hS⟩
      · rw [ih hl (by omega) (by omega),Nat.add_assoc]
    have hlt := Nat.lt_of_not_le hS
    rw [filter_cons_of_neg (by simpa using hlt),hnil hlt]
    split
    · simp only [map_nil,sum_nil]
      omega
    rw [ih hl (by omega) (by omega),hnil hlt]
    simp only [map_nil,sum_nil]
    omega

theorem zip_authorities : ((range c.size).map f).zip c.authorities =
    (range c.size).map fun a => (f a,c.stake a) := by
  refine ext_getElem (by simp [Committee.size]) fun i h h' => ?_
  have hi : i < c.authorities.length := (lt_min_iff.mp (by simpa using h)).2
  simp [Committee.stake,hi]

theorem le_quorumCommitIndex_iff : S ≤ quorumCommitIndex c ((range c.size).map f) ↔
    c.IsQuorum ((Finset.range c.size).filter fun a => S ≤ f a) := by
  have hp : 0 < c.quorumThreshold := Nat.succ_pos _
  have hs : (((range c.size).filter fun a => S ≤ f a).map c.stake).sum =
      c.stakeOf ((Finset.range c.size).filter fun a => S ≤ f a) := by
    rw [← sum_toFinset c.stake (nodup_range.filter _),toFinset_filter,toFinset_range]
    simp [Committee.stakeOf]
  have hq : c.quorumThreshold ≤ 0 + ((((((range c.size).map f).zip c.authorities).insertionSort
      Descending)).map Prod.snd).sum := by
    have ht := c.total_ne_zero
    rw [((perm_insertionSort _ _).map _).sum_eq,map_snd_zip (by simp [Committee.size])]
    unfold Committee.quorumThreshold Committee.totalStake
    omega
  unfold quorumCommitIndex Committee.IsQuorum
  rw [le_firstQuorum_iff descending_pairwise hp hq,
    (((perm_insertionSort _ _).filter _).map _).sum_eq,zip_authorities,filter_map,map_map,
    Nat.zero_add,← hs]
  rfl

theorem highestVote_le_append (blocks more : List VerifiedBlockHeader) (a : Nat) :
    highestVote blocks a ≤ highestVote (blocks ++ more) a := by
  have hl (l : List Nat) (v : Nat) : v ≤ l.foldl max v := by
    induction l generalizing v with
    | nil => exact le_rfl
    | cons x l ih => exact (le_max_left v x).trans (ih _)
  unfold highestVote
  rw [filter_append,flatMap_append,foldl_append]
  exact hl _ _

theorem quorumCommitIndex_isGreatest (c : Committee) (blocks more : List VerifiedBlockHeader)
    (hb : ∀ b ∈ blocks ++ more, c.isValidIndex b.author = true) :
    ∃ m m', blocks.foldlM observeBlock (new c) = .ok m ∧ more.foldlM observeBlock m = .ok m' ∧
      IsGreatest {S | c.IsQuorum ((Finset.range c.size).filter fun a => S ≤ highestVote blocks a)}
        (quorumCommitIndex c m) ∧
      quorumCommitIndex c m ≤ quorumCommitIndex c m' := by
  have hv b (h : b ∈ blocks ++ more) : b.author < c.size := by simpa using hb b h
  have hm := observe_eq [] blocks fun b h => hv b (mem_append_left _ h)
  rw [← new_eq,nil_append] at hm
  refine ⟨_,_,hm,observe_eq _ more fun b h => hv b (mem_append_right _ h),⟨?_,fun S hS => ?_⟩,?_⟩
  · exact le_quorumCommitIndex_iff.mp le_rfl
  · exact le_quorumCommitIndex_iff.mpr hS
  have hq := le_quorumCommitIndex_iff.mp (le_refl
    (quorumCommitIndex c ((range c.size).map (highestVote blocks))))
  refine le_quorumCommitIndex_iff.mpr (hq.trans (Committee.stakeOf_mono ?_))
  exact Finset.monotone_filter_right _ fun a _ h => h.trans (highestVote_le_append _ _ a)

theorem quorumCommitIndex_isGreatest_sole :
    let b : VerifiedBlockHeader := ⟨⟨⟨0,1,0,0,[],0,0,0,[⟨5,0⟩]⟩,0⟩,0,le_rfl⟩
    quorumCommitIndex soleCommittee [5] = 5 ∧
    ∃ m m', [b].foldlM observeBlock (new soleCommittee) = .ok m ∧
      [b].foldlM observeBlock m = .ok m' ∧
      IsGreatest {S | soleCommittee.IsQuorum
        ((Finset.range soleCommittee.size).filter fun a => S ≤ highestVote [b] a)}
        (quorumCommitIndex soleCommittee m) ∧
      quorumCommitIndex soleCommittee m ≤ quorumCommitIndex soleCommittee m' :=
  ⟨by decide,quorumCommitIndex_isGreatest soleCommittee _ _ (by decide)⟩

end Iota.Starfish.CommitVoteMonitor
