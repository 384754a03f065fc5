import Iota.Starfish.Context

/-! The votes for committed leaders collected from the sub-dags of a schedule window. -/
namespace Iota.Starfish
open List
open Std (ExtTreeMap)

structure ScoringSubdag (c : Committee) where
  commitRange : Option CommitRange
  leaders : Finset BlockRef
  votes : ExtTreeMap BlockRef (StakeAggregator c)

namespace ScoringSubdag
variable {c : Committee}

def new : ScoringSubdag c := ⟨none,∅,∅⟩

variable {s : ScoringSubdag c}

/-- A strong link to a committed leader is a vote; a strong link to a vote adds the stake of the
linking author to it. -/
def addAncestor (header : VerifiedBlockHeader) (s : ScoringSubdag c) (ancestor : BlockRef) :
    Except Panic (ScoringSubdag c) :=
  if ancestor.round ≠ header.round - 1 then .ok s
  else if ancestor ∈ s.leaders ∧ header.reference ∈ s.votes then .error .duplicateVote
  else
    let votes := if ancestor ∈ s.leaders then s.votes.insert header.reference .new else s.votes
    .ok { s with votes := match votes[ancestor]? with
      | some stake => votes.insert ancestor (stake.add header.author)
      | none => votes }

def extendRange (range : Option CommitRange) (index : Nat) : Except Panic CommitRange :=
  match range with
  | none => .ok (.new index index)
  | some r => if r.stop ≤ index+1 then .ok ⟨r.start,index+1⟩ else .error .commitRangeOrder

def addSubdag (s : ScoringSubdag c) (subdag : SubDagBase) : Except Panic (ScoringSubdag c) := do
  let range ← extendRange s.commitRange subdag.commitRef.index
  let s := { s with commitRange := some range, leaders := insert subdag.leader s.leaders }
  subdag.headers.foldlM (fun s header => header.ancestors.foldlM (addAncestor header) s) s

def addSubdags (s : ScoringSubdag c) (subdags : List SubDagBase) :
    Except Panic (ScoringSubdag c) :=
  subdags.foldlM addSubdag s

/-- Each vote gives its author the stake that links to it. -/
def distributedVotesScores (s : ScoringSubdag c) : List Nat :=
  (List.range c.size).map fun a =>
    ((s.votes.toList.filter fun v => v.1.author = a).map fun v => v.2.stake).sum

def calculateDistributedVoteScores (s : ScoringSubdag c) : Except Panic ReputationScores :=
  match s.commitRange with
  | none => .error .scoringSubdagEmpty
  | some range => .ok ⟨s.distributedVotesScores,range⟩

def scoredSubdagsCount (s : ScoringSubdag c) : Nat :=
  match s.commitRange with
  | none => 0
  | some range => range.size

def isEmpty (s : ScoringSubdag c) : Bool :=
  s.leaders = ∅ && s.votes.isEmpty && s.commitRange.isNone

theorem addAncestor_ok {header : VerifiedBlockHeader} {a : BlockRef}
    (h : a.round = header.round - 1 → a ∈ s.leaders → header.reference ∉ s.votes) :
    ∃ s', addAncestor header s a = .ok s' ∧ s'.leaders = s.leaders ∧
      s'.commitRange = s.commitRange ∧ ∀ r, r ∈ s'.votes ↔
        r ∈ s.votes ∨ a.round = header.round - 1 ∧ a ∈ s.leaders ∧ r = header.reference := by
  unfold addAncestor
  by_cases hrn : a.round = header.round - 1
  · have hvt : ¬(a ∈ s.leaders ∧ header.reference ∈ s.votes) := fun hv => h hrn hv.1 hv.2
    rw [if_neg (not_not_intro hrn),if_neg hvt]
    refine ⟨_,rfl,rfl,rfl,fun r => ?_⟩
    have hk : r ∈ (if a ∈ s.leaders then s.votes.insert header.reference .new else s.votes) ↔
        r ∈ s.votes ∨ a.round = header.round - 1 ∧ a ∈ s.leaders ∧ r = header.reference := by
      by_cases hl : a ∈ s.leaders
      · rw [if_pos hl,ExtTreeMap.mem_insert,Std.LawfulEqCmp.compare_eq_iff_eq]
        simp [hl,hrn,or_comm,eq_comm]
      · simp [hl]
    rw [← hk]
    split
    · next stake hs =>
      rw [ExtTreeMap.mem_insert]
      refine or_iff_right_of_imp fun hr => ?_
      rw [← Std.LawfulEqCmp.compare_eq_iff_eq.mp hr,ExtTreeMap.mem_iff_isSome_getElem?,hs]
      rfl
    · rfl
  · rw [if_pos hrn]
    exact ⟨s,rfl,rfl,rfl,fun r => (or_iff_left fun hr => hrn hr.1).symm⟩

def LeadersDistinct (s : ScoringSubdag c) : Prop :=
  ∀ a ∈ s.leaders, ∀ b ∈ s.leaders, a.round = b.round → a = b

theorem addAncestors_ok {header : VerifiedBlockHeader} {ancestors : List BlockRef}
    (hn : ancestors.Nodup) (hld : s.LeadersDistinct)
    (hvt : header.reference ∈ s.votes → ∀ a ∈ ancestors, a.round = header.round - 1 →
      a ∉ s.leaders) :
    ∃ s', ancestors.foldlM (addAncestor header) s = .ok s' ∧ s'.leaders = s.leaders ∧
      s'.commitRange = s.commitRange ∧ ∀ r ∈ s'.votes, r ∈ s.votes ∨ r = header.reference := by
  induction ancestors generalizing s with
  | nil => exact ⟨s,rfl,rfl,rfl,fun r => .inl⟩
  | cons a rest ih =>
    obtain ⟨hm,hrs⟩ := nodup_cons.mp hn
    have hs : a.round = header.round - 1 → a ∈ s.leaders → header.reference ∉ s.votes :=
      fun hrn hl hm => hvt hm a mem_cons_self hrn hl
    obtain ⟨s1,ha,hl1,hr1,hv1⟩ := addAncestor_ok hs
    have hvt1 : header.reference ∈ s1.votes → ∀ b ∈ rest, b.round = header.round - 1 →
        b ∉ s1.leaders := by
      intro hv b hb hrn hl
      rw [hl1] at hl
      rcases (hv1 _).mp hv with hv | ⟨hr',hl',-⟩
      · exact hvt hv b (.tail _ hb) hrn hl
      -- two strong links to leaders would be to one round
      rw [hld b hl a hl' (hrn.trans hr'.symm)] at hb
      exact hm hb
    obtain ⟨s2,hf,hl2,hr2,hv2⟩ := ih hrs (by unfold LeadersDistinct; rw [hl1]; exact hld) hvt1
    refine ⟨s2,by rw [foldlM_cons,ha]; exact hf,hl2.trans hl1,hr2.trans hr1,?_⟩
    intro r hr
    rcases hv2 r hr with hr | hr
    · rcases (hv1 r).mp hr with hr | ⟨-,-,hr⟩
      · exact .inl hr
      · exact .inr hr
    · exact .inr hr

theorem addHeaders_ok {headers : List VerifiedBlockHeader} (ha : ∀ h ∈ headers, h.ancestors.Nodup)
    (hn : (headers.map VerifiedBlockHeader.reference).Nodup)
    (hl : s.LeadersDistinct) (hf : ∀ h ∈ headers, h.reference ∉ s.votes) :
    ∃ s', headers.foldlM (fun s h => h.ancestors.foldlM (addAncestor h) s) s = .ok s' ∧
      s'.leaders = s.leaders ∧ s'.commitRange = s.commitRange ∧
      ∀ r ∈ s'.votes, r ∈ s.votes ∨ r ∈ headers.map VerifiedBlockHeader.reference := by
  induction headers generalizing s with
  | nil => exact ⟨s,rfl,rfl,rfl,fun r => .inl⟩
  | cons h rest ih =>
    obtain ⟨hm,hrs⟩ := nodup_cons.mp hn
    obtain ⟨s1,had,hl1,hr1,hv1⟩ := addAncestors_ok (ha h mem_cons_self) hl
      fun hv => absurd hv (hf h mem_cons_self)
    have hf1 : ∀ x ∈ rest, x.reference ∉ s1.votes := by
      intro x hx hv
      rcases hv1 _ hv with hv | hv
      · exact hf x (.tail _ hx) hv
      · exact hm (hv ▸ mem_map_of_mem hx)
    obtain ⟨s2,hfl,hl2,hr2,hv2⟩ := ih (fun x hx => ha x (.tail _ hx)) hrs
      (by unfold LeadersDistinct; rw [hl1]; exact hl) hf1
    refine ⟨s2,by rw [foldlM_cons,had]; exact hfl,hl2.trans hl1,hr2.trans hr1,?_⟩
    intro r hr
    rw [map_cons,mem_cons]
    rcases hv2 r hr with hr | hr
    · rcases hv1 r hr with hr | hr
      · exact .inl hr
      · exact .inr (.inl hr)
    · exact .inr (.inr hr)

/-- Sub-dags as consecutive commits give them: commit indices and leader rounds increase, and no
header is in two of them. -/
structure Consecutive (subdags : List SubDagBase) : Prop where
  indices : (subdags.map fun d => d.commitRef.index).Pairwise (· < ·)
  rounds : (subdags.map fun d => d.leader.round).Pairwise (· < ·)
  headers : (subdags.flatMap fun d => d.headers.map VerifiedBlockHeader.reference).Nodup
  ancestors : ∀ d ∈ subdags, ∀ h ∈ d.headers, h.ancestors.Nodup

theorem Consecutive.sublist {subdags subdags' : List SubDagBase} (hc : Consecutive subdags)
    (h : subdags'.Sublist subdags) : Consecutive subdags' :=
  ⟨hc.indices.sublist (h.map _),hc.rounds.sublist (h.map _),hc.headers.sublist (h.flatMap _),
    fun d hd => hc.ancestors d (h.subset hd)⟩

/-- The state before consecutive sub-dags are added to it. -/
structure Before (s : ScoringSubdag c) (subdags : List SubDagBase) : Prop where
  distinct : s.LeadersDistinct
  below : ∀ a ∈ s.leaders, ∀ d ∈ subdags, a.round < d.leader.round
  fresh : ∀ d ∈ subdags, ∀ h ∈ d.headers, h.reference ∉ s.votes
  range : ∀ r, s.commitRange = some r → ∀ d ∈ subdags, r.stop ≤ d.commitRef.index+1

theorem Before.new (subdags : List SubDagBase) : Before (new : ScoringSubdag c) subdags where
  distinct := fun a ha => by simp [ScoringSubdag.new] at ha
  below := fun a ha => by simp [ScoringSubdag.new] at ha
  fresh := fun _ _ h _ => by simp [ScoringSubdag.new]
  range := fun r hr => by simp [ScoringSubdag.new] at hr

theorem addSubdag_ok {d : SubDagBase} {rest : List SubDagBase} (hc : Consecutive (d :: rest))
    {s : ScoringSubdag c} (hs : s.Before (d :: rest)) :
    ∃ s', s.addSubdag d = .ok s' ∧ s'.Before rest ∧ s'.commitRange =
      some ⟨(s.commitRange.map CommitRange.start).getD d.commitRef.index,
        d.commitRef.index+1⟩ := by
  obtain ⟨hi,-⟩ := pairwise_cons.mp (map_cons ▸ hc.indices)
  obtain ⟨hrd,-⟩ := pairwise_cons.mp (map_cons ▸ hc.rounds)
  obtain ⟨hn,-,hds⟩ := nodup_append.mp (flatMap_cons ▸ hc.headers)
  obtain ⟨range,hrn,hvl⟩ : ∃ range,
      extendRange s.commitRange d.commitRef.index = .ok range ∧
      range = ⟨(s.commitRange.map CommitRange.start).getD d.commitRef.index,
        d.commitRef.index+1⟩ := by
    unfold extendRange
    split
    · next hr => exact ⟨_,rfl,by rw [hr]; rfl⟩
    · next r hr => exact ⟨_,if_pos (hs.range r hr d mem_cons_self),by rw [hr]; rfl⟩
  have hd : LeadersDistinct
      { s with commitRange := some range, leaders := insert d.leader s.leaders } := by
    intro a ha b hb hab
    have hlt : ∀ x ∈ s.leaders, x.round < d.leader.round := fun x hx =>
      hs.below x hx d mem_cons_self
    rcases Finset.mem_insert.mp ha with rfl | ha
    · rcases Finset.mem_insert.mp hb with rfl | hb
      · rfl
      · exact absurd hab (hlt b hb).ne'
    rcases Finset.mem_insert.mp hb with rfl | hb
    · exact absurd hab (hlt a ha).ne
    · exact hs.distinct a ha b hb hab
  obtain ⟨s',had,hl,hr,hv⟩ := addHeaders_ok (hc.ancestors d mem_cons_self) hn
    hd fun h hh => hs.fresh d mem_cons_self h hh
  refine ⟨s',?_,?_,by rw [hr,hvl]⟩
  · unfold addSubdag
    rw [hrn]
    exact had
  constructor
  · unfold LeadersDistinct
    rw [hl]
    exact hd
  · intro a ha x hx
    rw [hl] at ha
    rcases Finset.mem_insert.mp ha with rfl | ha
    · exact hrd _ (mem_map_of_mem hx)
    · exact hs.below a ha x (.tail _ hx)
  · intro x hx h hh hvt
    rcases hv _ hvt with hvt | hvt
    · exact hs.fresh x (.tail _ hx) h hh hvt
    · exact hds _ hvt _ (mem_flatMap.mpr ⟨x,hx,mem_map_of_mem hh⟩) rfl
  intro r hr' x hx
  rw [hr] at hr'
  rw [← Option.some.inj hr',hvl]
  exact Nat.succ_le_succ (hi _ (mem_map_of_mem hx)).le

theorem addSubdags_ok {subdags : List SubDagBase} (hc : Consecutive subdags)
    (hs : s.Before subdags) : ∃ s', s.addSubdags subdags = .ok s' := by
  induction subdags generalizing s with
  | nil => exact ⟨s,rfl⟩
  | cons d rest ih =>
    obtain ⟨s1,ha,hs1,-⟩ := addSubdag_ok hc hs
    obtain ⟨s2,hr⟩ := ih (hc.sublist (sublist_cons_self d rest)) hs1
    refine ⟨s2,?_⟩
    unfold addSubdags
    rw [foldlM_cons,ha]
    exact hr

theorem addSubdags_range {subdags : List SubDagBase} (hc : Consecutive subdags)
    {s s' : ScoringSubdag c} (hs : s.Before subdags) (h : s.addSubdags subdags = .ok s')
    {last : SubDagBase} (hl : subdags.getLast? = some last) :
    s'.commitRange = some ⟨(s.commitRange.map CommitRange.start).getD
      ((subdags.head?.map fun d => d.commitRef.index).getD 0),last.commitRef.index+1⟩ := by
  induction subdags generalizing s with
  | nil => cases hl
  | cons d rest ih =>
    obtain ⟨s1,ha,hs1,hrn⟩ := addSubdag_ok hc hs
    have hr : s1.addSubdags rest = .ok s' := by
      unfold addSubdags at h ⊢
      rwa [foldlM_cons,ha] at h
    cases hr' : rest with
    | nil =>
      subst hr'
      cases hl
      cases hr
      exact hrn
    | cons d' rest' =>
      have hl' : rest.getLast? = some last := by
        rwa [hr',List.getLast?_cons_cons,← hr'] at hl
      have hih := ih (hc.sublist (sublist_cons_self d rest)) hs1 hr hl'
      rw [hrn] at hih
      exact hih

theorem addSubdags_append (s : ScoringSubdag c) (xs ys : List SubDagBase) :
    s.addSubdags (xs ++ ys) = (s.addSubdags xs >>= fun s' => s'.addSubdags ys) :=
  foldlM_append

theorem addSubdags_flatten (s : ScoringSubdag c) (batches : List (List SubDagBase)) :
    batches.foldlM addSubdags s = s.addSubdags batches.flatten := by
  induction batches generalizing s with
  | nil => rfl
  | cons batch rest ih =>
    rw [foldlM_cons,flatten_cons,addSubdags_append]
    exact congrArg _ (funext ih)

/-- Only leader, headers and index of a sub-dag are scored. -/
def SameScored (d d' : SubDagBase) : Prop :=
  d.leader = d'.leader ∧ d.headers = d'.headers ∧ d.commitRef.index = d'.commitRef.index

theorem addSubdags_congr {xs ys : List SubDagBase} (h : List.Forall₂ SameScored xs ys)
    (s : ScoringSubdag c) : s.addSubdags xs = s.addSubdags ys := by
  induction h generalizing s with
  | nil => rfl
  | @cons d d' xs ys hd _ ih =>
    have heq : s.addSubdag d = s.addSubdag d' := by
      unfold addSubdag
      rw [hd.1,hd.2.1,hd.2.2]
    unfold addSubdags at ih ⊢
    rw [foldlM_cons,foldlM_cons,heq]
    exact congrArg _ (funext ih)

end ScoringSubdag

def ReputationScores.authoritiesByScore (s : ReputationScores) : List (Nat × Nat) :=
  s.scoresPerAuthority.zipIdx.map fun p => (p.2,p.1)

def ReputationScores.fromScoresDesc (numAuthorities : Nat) (range : CommitRange)
    (scoresDesc : List (Nat × Nat)) : Except Panic ReputationScores := do
  let scores ← scoresDesc.foldlM (fun (scores : List Nat) p =>
    if p.1 < scores.length then .ok (scores.set p.1 p.2) else .error .authorityOutOfRange)
    (List.replicate numAuthorities 0)
  .ok ⟨scores,range⟩

end Iota.Starfish
