import Iota.Starfish.CommitAgreement
import Iota.Starfish.Core.Run

/-! The loop cuts the decided leaders at the end of the schedule window and stops when no leader is
left or none of the rest is committed. A leader that could be committed is left exactly when the
part within the window is all skipped. -/
namespace Iota.Starfish
open Except List
open Std (ExtTreeMap)
variable {decided : List DecidedLeader}
namespace UniversalCommitter
variable {ctx : Context} {schedule : LeaderSchedule} {s : DagState ctx}

theorem electLeader_round {committer : BaseCommitter} {round : Nat} {slot : Slot}
    (h : committer.electLeader ctx schedule round = .ok (some slot)) : slot.round = round := by
  unfold BaseCommitter.electLeader at h
  split at h
  · cases h
  obtain ⟨leader,-,hs⟩ := map_eq_ok.mp h
  cases hs
  rfl

theorem decideLeaders_append {last : Slot} (last' : Slot) {todo rest : List (Nat × BaseCommitter)}
    (h : ∀ p ∈ todo, last.round < p.1 ∧ last'.round < p.1)
    (leaders : List (LeaderStatus × Decision)) :
    decideLeaders schedule s last (todo ++ rest) leaders =
      decideLeaders schedule s last' todo leaders >>= decideLeaders schedule s last rest := by
  induction todo generalizing leaders with
  | nil => rfl
  | cons p todo ih =>
    obtain ⟨round,committer⟩ := p
    have hr := h _ mem_cons_self
    have ih := ih fun p hp => h p (.tail _ hp)
    rw [cons_append]
    unfold decideLeaders
    cases hel : committer.electLeader ctx schedule round with
    | error e => rfl
    | ok elected =>
      rw [ok_bind,ok_bind]
      cases elected with
      | none => exact ih leaders
      | some slot =>
        have hs := electLeader_round hel
        have hne : slot ≠ last := fun he => by
          rw [he] at hs
          omega
        have hne' : slot ≠ last' := fun he => by
          rw [he] at hs
          omega
        dsimp only
        rw [if_neg hne,if_neg hne']
        cases decideSlot s committer slot leaders with
        | error e => rfl
        | ok decided => exact ih _

theorem descending_add (first m n : Nat) :
    descending first (m + n) = descending (first + m) n ++ descending first m := by
  unfold descending
  rw [← List.range'_append_1,reverse_append,flatMap_append]

theorem mem_descending {first n : Nat} {p : Nat × BaseCommitter} (h : p ∈ descending first n) :
    first ≤ p.1 := by
  obtain ⟨round,hr,hp⟩ := mem_flatMap.mp h
  obtain ⟨committer,-,rfl⟩ := mem_map.mp hp
  have := mem_range'_1.mp (mem_reverse.mp hr)
  exact this.1

theorem decideSlot_skip {committer : BaseCommitter} {slot slot' : Slot}
    {leaders : List (LeaderStatus × Decision)} {d : Decision}
    (h : decideSlot s committer slot leaders = .ok (.skip slot',d)) : slot' = slot := by
  obtain ⟨status,hd,h⟩ := of_bind h
  split at h
  · cases h
    obtain ⟨blamed,hd⟩ := ok_of_bind hd
    split at hd
    · cases hd
      rfl
    · obtain ⟨supported,hd⟩ := ok_of_bind hd
      split at hd <;> cases hd
  obtain ⟨status',hi,h⟩ := of_bind h
  cases h
  unfold BaseCommitter.tryIndirectDecide at hi
  generalize (leaders.map Prod.fst).filter _ = anchors at hi
  induction anchors with
  | nil => cases hi
  | cons anchor anchors ih =>
    cases anchor with
    | undecided _ => cases hi
    | skip _ => exact ih hi
    | commit anchor =>
      obtain ⟨certificates,hi⟩ := ok_of_bind hi
      obtain ⟨certified,hi⟩ := ok_of_bind hi
      split at hi
      · cases hi
        rfl
      · cases hi
      · cases hi

/-- Statuses of consecutive rounds: a skipped leader is of its own round. -/
def SkipsFrom : Nat → List LeaderStatus → Prop
  | _, [] => True
  | round, status :: rest => (∀ slot, status = .skip slot → slot.round = round) ∧
      SkipsFrom (round+1) rest

variable {leaders out : List (LeaderStatus × Decision)}

theorem decideLeaders_skipsFrom {last : Slot} {first n : Nat} (hls : last.round < first)
    (hs : SkipsFrom (first + n) (leaders.map Prod.fst))
    (h : decideLeaders schedule s last (descending first n) leaders = .ok out) :
    SkipsFrom first (out.map Prod.fst) ∧ out.length = n + leaders.length := by
  induction n generalizing leaders with
  | zero =>
    cases h
    exact ⟨hs,(Nat.zero_add _).symm⟩
  | succ n ih =>
    rw [descending_succ,decideLeaders_round] at h
    unfold decideLeaders at h
    have hm : (first + n) % waveLength < waveLength := Nat.mod_lt _ (by decide)
    rw [committerOf,electLeader_committer ctx schedule hm,if_pos rfl] at h
    obtain hel | hel := electLeader_cases ctx schedule (first + n)
    · rw [hel,ok_map,ok_bind] at h
      dsimp only at h
      split at h
      · next he =>
        have : first + n = last.round := congrArg Slot.round he
        omega
      obtain ⟨decided,hd,h⟩ := of_bind h
      have hh : SkipsFrom (first + n) ((decided :: leaders).map Prod.fst) := by
        refine ⟨?_,hs⟩
        intro slot hsl
        obtain ⟨status,d⟩ := decided
        cases (hsl : status = _)
        rw [decideSlot_skip hd]
      obtain ⟨ho,hl⟩ := ih hh h
      rw [length_cons] at hl
      exact ⟨ho,hl.trans (by omega)⟩
    · rw [hel] at h
      cases h

variable {status : LeaderStatus}

theorem intoDecidedLeader_skip {slot : Slot}
    (h : status.intoDecidedLeader = some (.skip slot)) : status = .skip slot := by
  cases status with
  | commit _ => cases h
  | undecided _ => cases h
  | skip _ => cases h; rfl

theorem decideLeaders_suffix {last : Slot} {todo : List (Nat × BaseCommitter)}
    (h : decideLeaders schedule s last todo leaders = .ok out) : leaders <:+ out := by
  induction todo generalizing leaders with
  | nil =>
    cases h
    exact suffix_rfl
  | cons p todo ih =>
    obtain ⟨elected,h⟩ := ok_of_bind h
    cases elected with
    | none => exact ih h
    | some slot =>
      dsimp only at h
      split at h
      · cases h
        exact suffix_rfl
      · obtain ⟨decided,h⟩ := ok_of_bind h
        exact (suffix_cons _ _).trans (ih h)

theorem decidedSequence_genesis (rest : List LeaderStatus) (h : status.round = genesisRound) :
    decidedSequence (status :: rest) = decidedSequence rest := if_pos h

theorem decidedSequence_cons (rest : List LeaderStatus) (h : status.round ≠ genesisRound) :
    decidedSequence (status :: rest) =
      (status.intoDecidedLeader.map fun decided => decided :: decidedSequence rest).getD [] := by
  cases hd : status.intoDecidedLeader with
  | none => simp [decidedSequence,h,hd]
  | some decided => simp [decidedSequence,h,hd]

theorem decidedSequence_drop {first k : Nat} {statuses : List LeaderStatus} {slot : Slot}
    (hsk : SkipsFrom first statuses)
    (hl : ((decidedSequence statuses).take k).getLast? = some (.skip slot)) :
    first ≤ slot.round ∧ slot.round < first + statuses.length ∧
      decidedSequence (statuses.drop (slot.round + 1 - first)) =
        (decidedSequence statuses).drop k := by
  induction statuses generalizing first k with
  | nil => simp [decidedSequence] at hl
  | cons status rest ih =>
    obtain ⟨hst,hr⟩ := hsk
    rw [length_cons]
    have hla : ∀ k, ((decidedSequence rest).take k).getLast? = some (.skip slot) →
        first ≤ slot.round ∧ slot.round < first + (rest.length+1) ∧
          decidedSequence ((status :: rest).drop (slot.round + 1 - first)) =
            (decidedSequence rest).drop k := by
      intro k hl
      obtain ⟨hle,hlt,hd⟩ := ih hr hl
      have hs : slot.round + 1 - first = slot.round + 1 - (first+1) + 1 := by omega
      refine ⟨by omega,by omega,?_⟩
      rw [hs,drop_succ_cons,hd]
    by_cases hg : status.round = genesisRound
    · rw [decidedSequence_genesis rest hg] at hl ⊢
      exact hla k hl
    rw [decidedSequence_cons rest hg] at hl ⊢
    cases hdc : status.intoDecidedLeader with
    | none => simp [hdc] at hl
    | some decided =>
      rw [hdc,Option.map_some,Option.getD_some] at hl
      rw [Option.map_some,Option.getD_some]
      cases k with
      | zero => cases hl
      | succ k =>
        rw [take_succ_cons] at hl
        rw [drop_succ_cons]
        cases ht : (decidedSequence rest).take k with
        | nil =>
          -- the skipped leader is the first one
          rw [ht] at hl
          cases hl
          have hrn := hst slot (intoDecidedLeader_skip hdc)
          have hs : slot.round + 1 - first = 1 := by omega
          have hd : (decidedSequence rest).drop k = decidedSequence rest := by
            obtain hn | hz := take_eq_nil_iff.mp ht
            · rw [hn,drop_zero]
            · rw [hz,drop_nil]
          refine ⟨hrn.ge,by omega,?_⟩
          rw [hs,hd]
          rfl
        | cons next later =>
          rw [ht,List.getLast?_cons_cons,← ht] at hl
          exact hla k hl

theorem tryDecide_of_skip {last slot : Slot} {k : Nat} (h : tryDecide schedule s last = .ok decided)
    (hls : (decided.take k).getLast? = some (.skip slot)) :
    tryDecide schedule s slot = .ok (decided.drop k) := by
  obtain ⟨leaders,ha,hdc⟩ := of_bind h
  cases hdc
  unfold decideAll at ha
  have hn : ∀ n, SkipsFrom n (([] : List (LeaderStatus × Decision)).map Prod.fst) :=
    fun _ => trivial
  obtain ⟨hs,hln⟩ := decideLeaders_skipsFrom (Nat.lt_succ_self _) (hn _) ha
  obtain ⟨hle,hlt,hd⟩ := decidedSequence_drop hs hls
  rw [length_map,hln,length_nil] at hlt
  have hsp : s.highestAcceptedRound - 2 - last.round =
      (slot.round - last.round) + (s.highestAcceptedRound - 2 - slot.round) := by omega
  have hf : last.round + 1 + (slot.round - last.round) = slot.round+1 := by omega
  rw [hsp,descending_add,hf,decideLeaders_append slot] at ha
  · obtain ⟨later,hl,he⟩ := of_bind ha
    obtain ⟨-,hlengthLater⟩ := decideLeaders_skipsFrom (Nat.lt_succ_self _) (hn _) hl
    obtain ⟨earlier,rfl⟩ := decideLeaders_suffix he
    rw [length_append,hlengthLater,length_nil] at hln
    have he : slot.round + 1 - (last.round+1) = earlier.length := by omega
    rw [he,← map_drop,drop_left] at hd
    rw [tryDecide,decideAll,hl,ok_bind,hd]
  intro p hp
  have := mem_descending hp
  omega

end UniversalCommitter
namespace Core
open UniversalCommitter
variable {ctx : Context} {c c' : Core ctx}

def sequencedLeaders (decided : List DecidedLeader) : List VerifiedBlockHeader :=
  decided.filterMap DecidedLeader.intoCommittedBlock

/-- The decided leaders up to the end of the schedule window. -/
def withinWindow (c : Core ctx) (decided : List DecidedLeader) : List DecidedLeader :=
  decided.take (c.leaderSchedule.commitsUntilLeaderScheduleUpdate c.dag)

def Drained (c : Core ctx) : Prop :=
  ∃ decided, tryDecide c.leaderSchedule c.dag c.lastDecidedLeader = .ok decided ∧
    sequencedLeaders decided = []

/-- A pass of the loop of `try_commit` that commits leaders. -/
def Committing (c c' : Core ctx) : Prop :=
  ∃ c₁ decided last subdags missing, c.updateScheduleIfDue = .ok c₁ ∧
    tryDecide c₁.leaderSchedule c₁.dag c₁.lastDecidedLeader = .ok decided ∧
    (c₁.withinWindow decided).getLast? = some last ∧
    sequencedLeaders (c₁.withinWindow decided) ≠ [] ∧
    { c₁ with lastDecidedLeader := last.slot }.commitSequenced
      (sequencedLeaders (c₁.withinWindow decided)) = .ok (subdags,missing,c')

/-- At the start of a pass, no leader beyond the window can be committed while all leaders decided
within it are skipped. -/
def WindowDecisive (c : Core ctx) : Prop :=
  ∀ c₁ decided, c.updateScheduleIfDue = .ok c₁ →
    tryDecide c₁.leaderSchedule c₁.dag c₁.lastDecidedLeader = .ok decided →
    sequencedLeaders (c₁.withinWindow decided) = [] → sequencedLeaders decided = []

theorem Committing.unique {c2 c3 : Core ctx} (h2 : Committing c c2) (h3 : Committing c c3) :
    c2 = c3 := by
  obtain ⟨c1,decided,last,subdags,missing,hu,hd,hl,-,hc⟩ := h2
  obtain ⟨c1',decided',last',subdags',missing',hu',hd',hl',-,hc'⟩ := h3
  cases hu.symm.trans hu'
  cases hd.symm.trans hd'
  cases hl.symm.trans hl'
  cases hc.symm.trans hc'
  rfl

theorem commitsUntil_pos (h : c.updateScheduleIfDue = .ok c') :
    0 < c'.leaderSchedule.commitsUntilLeaderScheduleUpdate c'.dag := by
  unfold updateScheduleIfDue at h
  split at h
  · obtain ⟨⟨schedule,dag⟩,-,h⟩ := of_bind h
    dsimp only at h
    split at h
    · cases h
    · next hne =>
      cases h
      exact Nat.pos_of_ne_zero hne
  · next hne =>
    cases h
    exact Nat.pos_of_ne_zero hne

theorem windowDecisive_iff (hu : c.updateScheduleIfDue = .ok c')
    (hd : tryDecide c'.leaderSchedule c'.dag c'.lastDecidedLeader = .ok decided) :
    WindowDecisive c ↔
      (sequencedLeaders (c'.withinWindow decided) = [] → sequencedLeaders decided = []) := by
  constructor
  · intro h
    exact h c' decided hu hd
  intro h c1 decided' hu' hd'
  cases hu.symm.trans hu'
  cases hd.symm.trans hd'
  exact h

theorem passes_iff_of_nil (hu : c.updateScheduleIfDue = .ok c')
    (hd : tryDecide c'.leaderSchedule c'.dag c'.lastDecidedLeader = .ok decided)
    (hn : sequencedLeaders (c'.withinWindow decided) = []) :
    (∀ c1, Relation.ReflTransGen Committing c c1 → WindowDecisive c1) ↔
      sequencedLeaders decided = [] := by
  have hs := windowDecisive_iff hu hd
  constructor
  · intro ha
    exact hs.mp (ha c .refl) hn
  intro hdr c1 hc1
  obtain rfl | ⟨c2,hst,-⟩ := hc1.cases_head
  · exact hs.mpr fun _ => hdr
  obtain ⟨c1',decided',-,-,-,hu',hd',-,hne,-⟩ := hst
  cases hu.symm.trans hu'
  cases hd.symm.trans hd'
  exact absurd hn hne

theorem exists_skip_of_sequenced_nil {last : DecidedLeader}
    (hnl : sequencedLeaders decided = []) (hl : decided.getLast? = some last) :
    ∃ slot, last = .skip slot := by
  have hn := filterMap_eq_nil_iff.mp hnl last (mem_of_getLast? hl)
  cases last with
  | commit block => cases hn
  | skip slot => exact ⟨slot,rfl⟩

theorem tryCommitLoop_drained_iff {fuel : Nat} {committed committed' : List PendingSubDag}
    {missing : ExtTreeMap GenericTransactionRef (Finset Nat)}
    (h : tryCommitLoop fuel c committed missing = .ok (committed',c')) :
    Drained c' ↔ ∀ c1, Relation.ReflTransGen Committing c c1 → WindowDecisive c1 := by
  induction fuel generalizing c committed missing with
  | zero => cases h
  | succ fuel ih =>
    obtain ⟨c1,hu,h⟩ := of_bind h
    obtain ⟨decided,hd,h⟩ := of_bind h
    dsimp only at h
    split at h
    · next hl =>
      cases h
      have hn : decided = [] := by
        obtain hz | hn := take_eq_nil_iff.mp (List.getLast?_eq_none_iff.mp hl)
        · exact absurd hz (commitsUntil_pos hu).ne'
        · exact hn
      subst hn
      rw [passes_iff_of_nil hu hd (by simp [withinWindow,sequencedLeaders])]
      exact iff_of_true ⟨[],hd,rfl⟩ rfl
    · next last hl =>
      split at h
      · next hn =>
        cases h
        obtain ⟨slot,rfl⟩ := exists_skip_of_sequenced_nil hn hl
        have hr := tryDecide_of_skip hd hl
        rw [passes_iff_of_nil hu hd hn]
        have hsp := congrArg sequencedLeaders (take_append_drop
          (c1.leaderSchedule.commitsUntilLeaderScheduleUpdate c1.dag) decided)
        rw [sequencedLeaders,filterMap_append,hn,nil_append] at hsp
        rw [← hsp]
        constructor
        · rintro ⟨decided',hd',hn'⟩
          cases hr.symm.trans hd'
          exact hn'
        · intro hn'
          exact ⟨_,hr,hn'⟩
      · next hne =>
        obtain ⟨⟨subdags,authors,c2⟩,hsq,h⟩ := of_bind h
        have hs : Committing c c2 := ⟨c1,decided,last,subdags,authors,hu,hd,hl,hne,hsq⟩
        split at h
        · cases h
        rw [ih h]
        constructor
        · intro ha c3 hc3
          obtain rfl | ⟨c2',hs',hr⟩ := hc3.cases_head
          · exact (windowDecisive_iff hu hd).mpr fun hn => absurd hn hne
          · cases hs.unique hs'
            exact ha c3 hr
        · intro ha c3 hc3
          exact ha c3 (.head hs hc3)

/-- When `try_commit` returns, no leader is left to be committed exactly if, at the start of each of
its passes, no leader beyond the schedule window could be committed while all leaders decided within
it are skipped. -/
theorem tryCommit_drained_iff (h : c.tryCommit = .ok c') :
    Drained c' ↔ ∀ c₁, Relation.ReflTransGen Committing c c₁ → WindowDecisive c₁ := by
  obtain ⟨committed,c₁,t,hl,-,rfl⟩ := tryCommit_effect h
  have hd := tryCommitLoop_drained_iff hl
  exact hd

section Concrete
open BlockVerifier

/-- An authority without blocks leads round 300, one with a quorum of the stake all other rounds. -/
def windowContext : Context :=
  { soleContext with
    committee := pairContext.committee
    electLeaderStakeBased := fun round _ => if round = 300 then 1 else 0 }

/-- The chain of the authority with a quorum, from some round on, in the DAG of a node that has
committed one leader in each round before and has not changed its schedule yet. -/
def afterCommits (first count : Nat) : Except Panic (Core windowContext) := do
  let last := first - 1
  let dag ← (List.range' last (count+1)).foldlM
    (fun s n => s.acceptBlockHeader (ackingHeader (fun _ => []) n))
    { DagState.recovered windowContext 0 50 .empty ⟨some (.new 1 last),∅,∅⟩ with
      lastCommit := some ⟨⟨last,0,0,⟨last,0,0⟩,[⟨last,0,0⟩],[],[]⟩,0⟩
      lastCommittedRounds := fun a => if a = 0 then last else 0 }
  .ok
    { dag := dag
      leaderSchedule := .new .default
      commitObserver := ⟨.new,.new,⟨last,[]⟩,last⟩
      transactionConsumer := ⟨∅,[]⟩
      lastDecidedLeader := dag.lastCommitLeader }

/-- The last decided leader after a call of `try_commit`, and what `try_decide` finds then. -/
def commitAndDecide (c : Core windowContext) : Except Panic (Slot × List DecidedLeader) := do
  let c' ← c.tryCommit
  let decided ← tryDecide c'.leaderSchedule c'.dag c'.lastDecidedLeader
  .ok (c'.lastDecidedLeader,decided)

theorem commitAndDecide_spec (first count : Nat) (last : Slot) (decided : List DecidedLeader)
    (h : afterCommits first count >>= commitAndDecide = .ok (last,decided)) :
    ∃ c c', afterCommits first count = .ok c ∧ c.tryCommit = .ok c' ∧
      c'.lastDecidedLeader = last ∧
      tryDecide c'.leaderSchedule c'.dag c'.lastDecidedLeader = .ok decided := by
  obtain ⟨c,hc,h⟩ := of_bind h
  obtain ⟨c',hc',h⟩ := of_bind h
  obtain ⟨decided',hd,h⟩ := of_bind h
  cases h
  exact ⟨c,c',hc,hc',rfl,hd⟩

/-- With room left in the window, leaders are committed until none is left. -/
theorem tryCommit_drained_iff_chain : ∃ c c' : Core windowContext,
    afterCommits 200 4 = .ok c ∧ c.tryCommit = .ok c' ∧ c'.lastDecidedLeader = ⟨201,0⟩ ∧
      Drained c' ∧ ∀ c₁, Relation.ReflTransGen Committing c c₁ → WindowDecisive c₁ := by
  obtain ⟨c,c',hc,hc',hl,hdc⟩ := commitAndDecide_spec 200 4 ⟨201,0⟩ [] (by decide +kernel)
  have hd : Drained c' := ⟨[],hdc,rfl⟩
  exact ⟨c,c',hc,hc',hl,hd,(tryCommit_drained_iff hc').mp hd⟩

/-- With one commit left in the window, the skipped leader of round 300 takes its place: the call
returns although the leader of round 301 can be committed. -/
theorem tryCommit_not_drained : ∃ c c' : Core windowContext,
    afterCommits 300 4 = .ok c ∧ c.tryCommit = .ok c' ∧ c'.lastDecidedLeader = ⟨300,1⟩ ∧
      tryDecide c'.leaderSchedule c'.dag c'.lastDecidedLeader =
        .ok [.commit (ackingHeader (fun _ => []) 301)] :=
  commitAndDecide_spec 300 4 _ _ (by decide +kernel)

end Concrete
end Core
end Iota.Starfish
