import Iota.Starfish.DagState

/-! The clock keeps one aggregator that is emptied on every jump and advance. Its round is
nevertheless a function of the set of references it was given. -/
namespace Iota.Starfish.ThresholdClock
open Finset
variable {c : Committee} {initial : Nat} {refs : Finset BlockRef} {t : ThresholdClock c}
  {r : BlockRef}

def topRound (initial : Nat) (refs : Finset BlockRef) : Nat := max initial (refs.sup BlockRef.round)

def authorsAt (refs : Finset BlockRef) (round : Nat) : Finset Nat :=
  (refs.filter fun r => r.round = round).image BlockRef.author

/-- The clock is at the highest round, and past it once its authors are a quorum. -/
def closedForm (c : Committee) (initial : Nat) (refs : Finset BlockRef) : Nat :=
  if c.IsQuorum (authorsAt refs (topRound initial refs)) then topRound initial refs + 1
  else topRound initial refs

/-- The authors of the highest round are in the aggregator until they are a quorum. -/
structure Tracks (initial : Nat) (refs : Finset BlockRef) (t : ThresholdClock c) : Prop where
  round : t.round = closedForm c initial refs
  votes : t.aggregator.votes =
    if c.IsQuorum (authorsAt refs (topRound initial refs)) then ∅
    else authorsAt refs (topRound initial refs)

theorem mem_authorsAt {round a : Nat} :
    a ∈ authorsAt refs round ↔ ∃ r ∈ refs, r.round = round ∧ r.author = a := by
  simp [authorsAt,and_assoc]

theorem round_le_topRound (hr : r ∈ refs) : r.round ≤ topRound initial refs :=
  (le_sup hr).trans (le_max_right _ _)

theorem topRound_insert :
    topRound initial (insert r refs) = max r.round (topRound initial refs) := by
  rw [topRound,topRound,sup_insert]
  exact max_left_comm _ _ _

theorem authorsAt_insert (round : Nat) :
    authorsAt (insert r refs) round =
      if r.round = round then insert r.author (authorsAt refs round) else authorsAt refs round := by
  unfold authorsAt
  rw [filter_insert]
  split
  · rw [image_insert]
  · rfl

theorem Tracks.not_reached (h : Tracks initial refs t) : t.aggregator.reachedThreshold = false := by
  rw [← Bool.not_eq_true,StakeAggregator.reachedThreshold_iff,h.votes]
  split
  · exact Committee.not_isQuorum_empty
  · assumption

theorem tracks_tryAdvanceRound (hrn : t.round = topRound initial refs)
    (hv : t.aggregator.votes = authorsAt refs (topRound initial refs)) :
    Tracks initial refs (t.tryAdvanceRound (topRound initial refs + 1)) := by
  have hr := t.aggregator.reachedThreshold_iff
  rw [hv] at hr
  unfold tryAdvanceRound
  by_cases hq : c.IsQuorum (authorsAt refs (topRound initial refs))
  · rw [if_pos (hr.mpr hq)]
    exact ⟨by rw [closedForm,if_pos hq],by rw [if_pos hq]; rfl⟩
  · rw [if_neg fun h => hq (hr.mp h)]
    exact ⟨by rw [closedForm,if_neg hq,hrn],by rw [if_neg hq,hv]⟩

theorem Tracks.new : Tracks initial ∅ (.new initial : ThresholdClock c) := by
  have he : ¬c.IsQuorum (authorsAt ∅ (topRound initial ∅)) := Committee.not_isQuorum_empty
  refine ⟨?_,by rw [if_neg he]; rfl⟩
  exact (max_eq_left (Nat.zero_le _)).symm

theorem Tracks.addBlockHeader (h : Tracks initial refs t) (r : BlockRef) :
    Tracks initial (insert r refs) (t.addBlockHeader r) := by
  have hr := h.round
  have hv := h.votes
  unfold closedForm at hr
  unfold ThresholdClock.addBlockHeader
  rcases lt_trichotomy r.round (topRound initial refs) with hlt | heq | hgt
  · -- below the highest round: nothing changes
    have ht : topRound initial (insert r refs) = topRound initial refs := by
      rw [topRound_insert,max_eq_right hlt.le]
    have hat : authorsAt (insert r refs) (topRound initial refs) =
        authorsAt refs (topRound initial refs) := by
      rw [authorsAt_insert,if_neg hlt.ne]
    rw [if_pos (by split at hr <;> omega),tryAdvanceRound,h.not_reached]
    refine ⟨?_,?_⟩
    · rw [closedForm,ht,hat]
      exact hr
    · rw [ht,hat]
      exact hv
  · have ht : topRound initial (insert r refs) = r.round := by
      rw [topRound_insert,max_eq_left heq.ge]
    have hat : authorsAt (insert r refs) r.round = insert r.author (authorsAt refs r.round) := by
      rw [authorsAt_insert,if_pos rfl]
    rw [← heq] at hr hv
    by_cases hq : c.IsQuorum (authorsAt refs r.round)
    · -- the clock has left this round, and a larger author set is still a quorum
      rw [if_pos hq] at hr hv
      have hq' : c.IsQuorum (authorsAt (insert r refs) r.round) := by
        rw [hat]
        exact hq.mono (subset_insert _ _)
      rw [if_pos (by omega),tryAdvanceRound,h.not_reached]
      refine ⟨?_,?_⟩
      · rw [closedForm,ht,if_pos hq']
        exact hr
      · rw [ht,if_pos hq']
        exact hv
    · rw [if_neg hq] at hr hv
      rw [if_neg (by omega),if_neg (by omega),← ht]
      refine tracks_tryAdvanceRound (by rw [ht]; exact hr) ?_
      rw [ht,hat,StakeAggregator.votes_add,hv]
  · -- the first reference of its round: the clock jumps there, or is there already
    have ht : topRound initial (insert r refs) = r.round := by
      rw [topRound_insert,max_eq_left hgt.le]
    have hn : authorsAt refs r.round = ∅ := by
      refine eq_empty_of_forall_notMem fun a ha => ?_
      obtain ⟨x,hx,hxr,-⟩ := mem_authorsAt.mp ha
      exact absurd (round_le_topRound hx) (by rw [hxr]; exact hgt.not_ge)
    have hat : authorsAt (insert r refs) r.round = insert r.author ∅ := by
      rw [authorsAt_insert,if_pos rfl,hn]
    rw [if_neg (by split at hr <;> omega),← ht]
    refine tracks_tryAdvanceRound ?_ ?_
    · rw [ht]
      split
      · rfl
      have : topRound initial refs < r.round := hgt
      show t.round = r.round
      split at hr <;> omega
    rw [ht,hat]
    split
    · exact StakeAggregator.votes_add _ _
    have hq : c.IsQuorum (authorsAt refs (topRound initial refs)) := by
      by_contra hq
      rw [if_neg hq] at hr
      omega
    rw [if_pos hq] at hv
    rw [StakeAggregator.votes_add,hv]

def addBlockHeaders (t : ThresholdClock c) (rs : List BlockRef) : ThresholdClock c :=
  rs.foldl ThresholdClock.addBlockHeader t

theorem Tracks.addBlockHeaders (h : Tracks initial refs t) (rs : List BlockRef) :
    Tracks initial (refs ∪ rs.toFinset) (t.addBlockHeaders rs) := by
  induction rs generalizing refs t with
  | nil => simpa [ThresholdClock.addBlockHeaders] using h
  | cons r rs ih =>
    rw [List.toFinset_cons,union_insert,← insert_union]
    exact ih (h.addBlockHeader r)

theorem topRound_le_closedForm : topRound initial refs ≤ closedForm c initial refs := by
  unfold closedForm
  split <;> omega

theorem closedForm_mono {refs' : Finset BlockRef} (h : refs ⊆ refs') :
    closedForm c initial refs ≤ closedForm c initial refs' := by
  have ht : topRound initial refs ≤ topRound initial refs' := max_le_max le_rfl (sup_mono h)
  rcases ht.lt_or_eq with hlt | heq
  · calc closedForm c initial refs ≤ topRound initial refs + 1 := by
          unfold closedForm
          split <;> omega
      _ ≤ topRound initial refs' := hlt
      _ ≤ closedForm c initial refs' := topRound_le_closedForm
  unfold closedForm
  rw [← heq]
  have hs : authorsAt refs (topRound initial refs) ⊆ authorsAt refs' (topRound initial refs) :=
    image_subset_image (filter_subset_filter _ h)
  split
  · next hq => rw [if_pos (hq.mono hs)]
  · split <;> omega

/-- Whatever the order and repetitions of the references, the round is the closed form of their
set, and further references never lower it. -/
theorem addBlockHeaders_round (c : Committee) (initial : Nat) (rs more : List BlockRef) :
    ((new initial : ThresholdClock c).addBlockHeaders rs).round =
        closedForm c initial rs.toFinset ∧
      ((new initial : ThresholdClock c).addBlockHeaders rs).round ≤
        ((new initial : ThresholdClock c).addBlockHeaders (rs ++ more)).round := by
  have hr (l : List BlockRef) : ((new initial : ThresholdClock c).addBlockHeaders l).round =
      closedForm c initial l.toFinset := by
    have h : Tracks initial (∅ ∪ l.toFinset) ((new initial : ThresholdClock c).addBlockHeaders l) :=
      Tracks.new.addBlockHeaders l
    exact h.round
  refine ⟨hr rs,?_⟩
  rw [hr,hr,List.toFinset_append]
  exact closedForm_mono subset_union_left

end Iota.Starfish.ThresholdClock
