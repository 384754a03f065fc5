import Iota.Starfish.LeaderSchedule.SwapTable
import Iota.Starfish.Linearizer.Scoring

/-! A node updates its swap table when a window of commits is full, recovers it from the stored
scores after a crash, or takes it over from the scores in a commit during a fast sync. The three
give the same table. -/
namespace Iota.Starfish
open Except LeaderSchedule Linearizer List PendingSubDag ScoringSubdag Universe
open Std (ExtTreeMap)
variable {ctx : Context} {U : Universe ctx}

section ScoresDesc

end ScoresDesc

variable {table : LeaderSwapTable}

theorem LeaderSwapTable.new_cases (hs : ∀ i l, (ctx.shuffle i l).Perm l) {index : Nat}
    {scores : ReputationScores} (h : LeaderSwapTable.new ctx index scores = .ok table) :
    table = .default ∧ scores.scoresPerAuthority = [] ∨
    table.reputationScoresDesc.Perm scores.authoritiesByScore ∧
      scores.scoresPerAuthority.length = ctx.committee.size := by
  unfold LeaderSwapTable.new at h
  dsimp only at h
  split at h
  · cases h
  split at h
  · next hn => exact .inl ⟨(ok.inj h).symm,hn⟩
  split at h
  · cases h
  · next hl =>
    cases h
    exact .inr ⟨(perm_insertionSort _ _).trans (hs _ _),not_not.mp hl⟩

theorem CommitRef.isLE_of_index_lt {a b : CommitRef} (h : a.index < b.index) :
    (compare a b).isLE = true := by
  have hc : compare a b = (compare a.index b.index).then (compare a.digest b.digest) := rfl
  rw [hc,Nat.compare_eq_lt.mpr h]
  rfl

namespace Store

theorem readLastCommitInfo_eq_none {store : Store} (h : store.readLastCommitInfo = none) :
    store.commitInfo = ∅ := by
  unfold readLastCommitInfo at h
  cases hk : store.commitInfo.lastKey? with
  | none => exact ExtTreeMap.lastKey?_eq_none_iff.mp hk
  | some k =>
    have hm := (ExtTreeMap.lastKey?_eq_some_iff.mp hk).1
    rw [hk,Option.bind_some,Option.map_eq_none_iff] at h
    rw [ExtTreeMap.mem_iff_isSome_getElem?,h] at hm
    cases hm

theorem readLastCommitInfo_insert {store store' : Store} {k : CommitRef} {info : CommitInfo}
    (hi : store'.commitInfo = store.commitInfo.insert k info)
    (hlt : ∀ x ∈ store.commitInfo, x.index < k.index) :
    store'.readLastCommitInfo = some (k,info) := by
  have hl : store'.commitInfo.lastKey? = some k := by
    rw [ExtTreeMap.lastKey?_eq_some_iff,hi]
    refine ⟨ExtTreeMap.mem_insert_self,fun x hx => ?_⟩
    rcases ExtTreeMap.mem_insert.mp hx with heq | hx
    · rw [Std.LawfulEqCmp.compare_eq_iff_eq.mp heq]
      exact Std.ReflOrd.isLE_rfl
    · exact CommitRef.isLE_of_index_lt (hlt x hx)
  unfold readLastCommitInfo
  rw [hl,Option.bind_some,hi,ExtTreeMap.getElem?_insert_self]
  rfl

end Store
namespace DagState
variable {s s' : DagState ctx}

theorem scoringSubdag_flush (s : DagState ctx) : s.flush.scoringSubdag = s.scoringSubdag := by
  unfold flush
  split
  · rfl
  · exact proj_foldl scoringSubdag (f := evictHeadersOf) (fun _ _ => rfl) _ s.writeBuffers

end DagState

variable {leaders : List VerifiedBlockHeader} {subDags : List PendingSubDag}

theorem Linearizer.commitLeaders_commits {l l' : Linearizer ctx} {s s' : DagState ctx}
    {scores : List (Nat × Nat)} (h : commitLeaders l s scores leaders = .ok (subDags,l',s')) :
    subDags.length = leaders.length ∧ s'.scoringSubdag = s.scoringSubdag ∧
      s'.store = s.store ∧ s'.commitInfoToWrite = s.commitInfoToWrite ∧
      ∀ c, s'.Logged c → s.Logged c ∨ s.lastCommitIndex < c.index ∧ c.reputationScoresDesc =
        if ctx.protocolConfig.consensusFastCommitSync ∧ c.index = s.lastCommitIndex+1 then scores
        else [] := by
  induction leaders generalizing l s scores subDags with
  | nil =>
    cases h
    exact ⟨rfl,rfl,rfl,rfl,fun c => .inl⟩
  | cons leader rest ih =>
    obtain ⟨⟨subDag,l1,s1⟩,hcm,h⟩ := of_bind h
    obtain ⟨⟨others,l2,s2⟩,hr,h⟩ := of_bind h
    cases h
    obtain ⟨hl,hsc,hst,hi,hlg⟩ := ih hr
    obtain ⟨headers,timestampMs,-,refs,-,-,-,rfl⟩ := commitLeader_cases hcm
    refine ⟨congrArg (· + 1) hl,hsc,hst,hi,fun c hc => ?_⟩
    rcases hlg c hc with hc | ⟨hin,hs⟩
    · rcases DagState.logged_appendCommit.mp hc with hc | rfl
      · exact .inl hc
      refine .inr ⟨Nat.lt_succ_self _,?_⟩
      show (if ctx.protocolConfig.consensusFastCommitSync then scores else []) = _
      have hn : (newCommit s leader headers timestampMs refs scores).index =
        s.lastCommitIndex+1 := rfl
      simp only [hn,and_true]
    -- the scores of the later commits are empty
    have hls : (s.appendCommit (newCommit s leader headers timestampMs refs
        scores)).lastCommitIndex = s.lastCommitIndex+1 := rfl
    refine .inr ⟨by omega,?_⟩
    rw [if_neg (fun hc => by omega),hs]
    split
    · rfl
    · rfl

structure ScheduleState (ctx : Context) extends LinearizerState ctx where
  schedule : LeaderSchedule

inductive ScheduleOp
  | dag (op : DagOp)
  | tryCommit (leaders : List VerifiedBlockHeader)
  | evictLinearizer (solidCommitLeaderRound : Nat)
  | restart (refOrder : HashOrder BlockRef) (slotOrder : HashOrder Slot)

/-- The changes of a DAG state that neither commit nor score. -/
def DagOp.Plain : DagOp → Prop
  | .addScoringSubdags _ | .persistScores _ => False
  | op => op.Ordinary

namespace ScheduleState
open LinearizerState
variable {st st' : ScheduleState ctx}

/-- The leader schedule changes as soon as a window of commits is full. -/
def updateIfDue (st : ScheduleState ctx) : Except Panic (LeaderSchedule × DagState ctx) :=
  if st.schedule.commitsUntilLeaderScheduleUpdate st.dag = 0 then
    st.schedule.updateLeaderSchedule st.dag
  else .ok (st.schedule,st.dag)

/-- One round of the loop in `try_commit`, with the leaders that are decided. -/
def tryCommit (st : ScheduleState ctx) (leaders : List VerifiedBlockHeader) :
    Except Panic (ScheduleState ctx) := do
  let (schedule,dag) ← st.updateIfDue
  if leaders = [] then .ok ⟨{ st.toLinearizerState with dag := dag },schedule⟩
  else
    let (subDags,linearizer,dag) ← st.linearizer.getPendingSubDags schedule dag leaders
    let dag ← dag.flush.addScoringSubdags (subDags.map toSubDagBase)
    .ok ⟨⟨dag,linearizer,st.output ++ subDags⟩,schedule⟩

def exec (st : ScheduleState ctx) : ScheduleOp → Except Panic (ScheduleState ctx)
  | .dag op => do
    let l ← st.toLinearizerState.exec (.dag op)
    .ok ⟨l,st.schedule⟩
  | .tryCommit leaders => st.tryCommit leaders
  | .evictLinearizer round => do
    let l ← st.toLinearizerState.exec (.evictLinearizer round)
    .ok ⟨l,st.schedule⟩
  | .restart refOrder slotOrder => do
    let l ← st.toLinearizerState.exec (.restart refOrder slotOrder)
    let schedule ← fromStore ctx l.dag.store
    .ok ⟨l,schedule⟩

def Initial (ownIndex cachedRounds : Nat) (st : ScheduleState ctx) : Prop :=
  LinearizerState.Initial ownIndex cachedRounds st.toLinearizerState ∧ st.schedule = .new .default

/-- What the linearizer's callers guarantee, with no more leaders than the window has room for. -/
def Permitted (U : Universe ctx) (st : ScheduleState ctx) : ScheduleOp → Prop
  | .dag op => op.Plain ∧ DagState.Causal U st.dag op
  | .tryCommit leaders =>
    (st.dag.lastCommitRound :: leaders.map VerifiedBlockHeader.round).Pairwise (· < ·) ∧
      (∀ leader ∈ leaders, st.dag.getVerifiedBlockHeader leader.reference = some leader) ∧
      ∀ p, st.updateIfDue = .ok p → leaders.length ≤ p.1.commitsUntilLeaderScheduleUpdate p.2
  | .evictLinearizer round => round ≤ st.dag.lastCommitRound
  | .restart _ _ => True

def Reached (U : Universe ctx) (ownIndex cachedRounds : Nat) : ScheduleState ctx → Prop :=
  Machine.Reached (Initial ownIndex cachedRounds) exec (Permitted U)

/-- The scores of the window that ends with the commit `index`. -/
def windowScores (ctx : Context) (output : List PendingSubDag) (index : Nat) :
    Except Panic ReputationScores := do
  let scoring ← (new : ScoringSubdag ctx.committee).addSubdags
    ((window output (index + 1 - consensusCommitsPerSchedule) index).map
      toSubDagBase)
  scoring.calculateDistributedVoteScores

/-- The table of a history whose last full window ends with the commit `index`. -/
def tableAt (ctx : Context) (output : List PendingSubDag) (index : Nat) :
    Except Panic LeaderSwapTable :=
  if index = 0 then .ok .default
  else windowScores ctx output index >>= LeaderSwapTable.new ctx index

theorem window_eq (output : List PendingSubDag) {first : Nat} (hp : 1 ≤ first) (last : Nat) :
    window output first last = (output.take last).drop (first - 1) := by
  unfold window
  rw [drop_take]
  congr 1
  omega

theorem window_congr {output output' : List PendingSubDag} {first last : Nat} (hp : 1 ≤ first)
    (h : output'.take last = output.take last) : window output' first last = window output first last := by
  rw [window_eq output hp,window_eq output' hp,h]

section Congr
variable {output output' : List PendingSubDag} {index : Nat}
  (hdvd : consensusCommitsPerSchedule ∣ index) (h : output'.take index = output.take index)

include hdvd h

theorem windowScores_congr (hp : 0 < index) :
    windowScores ctx output' index = windowScores ctx output index := by
  have hle := Nat.le_of_dvd hp hdvd
  unfold windowScores
  rw [window_congr (by omega) h]

theorem tableAt_congr : tableAt ctx output' index = tableAt ctx output index := by
  unfold tableAt
  split
  · rfl
  · next hne => rw [windowScores_congr hdvd h (Nat.pos_of_ne_zero hne)]

end Congr

/-- The last stored scores are those of the window that ends with the commit `index`. -/
structure StoredScores (ctx : Context) (output : List PendingSubDag) (store : Store)
    (index : Nat) : Prop where
  aligned : consensusCommitsPerSchedule ∣ index
  info : store.readLastCommitInfo = none ∧ index = 0 ∨ ∃ k info,
    store.readLastCommitInfo = some (k,info) ∧ 0 < index ∧ k.index = index ∧
      info.reputationScores.commitRange.last = index ∧
      windowScores ctx output index = .ok info.reputationScores

/-- A commit carries the scores of the window that ends before it, and no scores inside a window. -/
def Carries (ctx : Context) (output : List PendingSubDag) (c : TrustedCommit) : Prop :=
  if ctx.protocolConfig.consensusFastCommitSync ∧ consensusCommitsPerSchedule ∣ c.index - 1 then
    ∃ table, tableAt ctx output (c.index - 1) = .ok table ∧
      c.reputationScoresDesc = table.reputationScoresDesc
  else c.reputationScoresDesc = []

/-- Where a node is in its window: the last update of the schedule was after the commit `last`, the
last one that is stored after the commit `stored`. -/
structure WindowInv (U : Universe ctx) (ownIndex cachedRounds : Nat) (st : ScheduleState ctx)
    (last stored : Nat) : Prop where
  reached : LinearizerState.Reached U ownIndex cachedRounds st.toLinearizerState
  size : st.schedule.numCommitsPerSchedule = consensusCommitsPerSchedule
  aligned : consensusCommitsPerSchedule ∣ last
  le : last ≤ st.output.length
  room : st.output.length ≤ last + consensusCommitsPerSchedule
  table : tableAt ctx st.output last = .ok st.schedule.leaderSwapTable
  scoring : new.addSubdags
    ((window st.output (last+1) st.output.length).map toSubDagBase) =
      .ok st.dag.scoringSubdag
  storedScores : StoredScores ctx st.output st.dag.store stored
  stored_le : stored ≤ DagState.storedIndex st.dag.store
  stored_room : DagState.storedIndex st.dag.store ≤ stored + consensusCommitsPerSchedule
  buffer : st.dag.commitInfoToWrite = [] ∧ last = stored ∨
    st.output.length = last ∧ stored < last ∧ ∃ k info,
      st.dag.commitInfoToWrite = [(k,info)] ∧ k.index = last ∧
      info.reputationScores.commitRange.last = last ∧
      windowScores ctx st.output last = .ok info.reputationScores
  carries : ∀ c, st.dag.Logged c → Carries ctx st.output c

section Window
variable {ownIndex cachedRounds last stored : Nat} {index : Nat}

theorem StoredScores.congr {output output' : List PendingSubDag} {store : Store}
    (h : StoredScores ctx output store index) (heq : output'.take index = output.take index) :
    StoredScores ctx output' store index := by
  refine ⟨h.aligned,?_⟩
  rcases h.info with hn | ⟨k,info,hr,hp,hk,hl,hs⟩
  · exact .inl hn
  refine .inr ⟨k,info,hr,hp,hk,hl,?_⟩
  rw [windowScores_congr h.aligned heq hp]
  exact hs

variable {output : List PendingSubDag}

theorem StoredScores.recover {store : Store} (h : StoredScores ctx output store index) :
    recoverLeaderSwapTable ctx store = tableAt ctx output index := by
  unfold recoverLeaderSwapTable tableAt
  rcases h.info with ⟨hr,rfl⟩ | ⟨k,info,hr,hp,hk,hl,hs⟩
  · rw [hr]
    rfl
  rw [hr,if_neg hp.ne',hs]
  dsimp only
  rw [hl,hk,ite_self]
  rfl

theorem StoredScores.lastCommitInfoIndex {s : DagState ctx}
    (h : StoredScores ctx output s.store index) : s.lastCommitInfoIndex = index := by
  unfold DagState.lastCommitInfoIndex
  rcases h.info with ⟨hr,rfl⟩ | ⟨k,info,hr,-,hk,hl,-⟩
  · rw [hr]
    rfl
  rw [hr]
  dsimp only
  rw [hl,hk,ite_self]

theorem Carries.congr {output output' : List PendingSubDag} {c : TrustedCommit}
    (h : Carries ctx output c) (heq : output'.take (c.index - 1) = output.take (c.index - 1)) :
    Carries ctx output' c := by
  unfold Carries at h ⊢
  split
  · next hc =>
    rw [if_pos hc] at h
    rw [tableAt_congr hc.2 heq]
    exact h
  · next hc =>
    rw [if_neg hc] at h
    exact h

variable {l : LinearizerState ctx}

theorem commitRange_window (hi : LinearizerState.Inv U l)
    {first stop : Nat} (hp : 1 ≤ first) (hle : first ≤ stop) (hs : stop ≤ l.output.length)
    {scoring : ScoringSubdag ctx.committee}
    (h : new.addSubdags
      ((window l.output first stop).map toSubDagBase) = .ok scoring) :
    scoring.commitRange = some (.new first stop) := by
  have hln : (window l.output first stop).length = stop + 1 - first := by
    unfold window
    rw [length_take,length_drop]
    omega
  have hg : ∀ i, i < stop + 1 - first → ∃ d, (window l.output first stop)[i]? = some d ∧
      d.commitRef.index = first + i := by
    intro i hlt
    have hin : first - 1 + i < l.output.length := by omega
    refine ⟨l.output[first - 1 + i],?_,?_⟩
    · unfold window
      rw [List.getElem?_take_of_lt hlt,List.getElem?_drop,List.getElem?_eq_getElem hin]
    · rw [hi.commitRef_index hin]
      omega
  obtain ⟨d,hd,hdi⟩ := hg 0 (by omega)
  obtain ⟨d',hd',hdi'⟩ := hg (stop - first) (by omega)
  have hl : ((window l.output first stop).map toSubDagBase).getLast? =
      some d'.toSubDagBase := by
    rw [List.getLast?_eq_getElem?,length_map,hln,List.getElem?_map,
      show stop + 1 - first - 1 = stop - first by omega,hd']
    rfl
  have hr := addSubdags_range
    (hi.consecutive.sublist ((window_sublist l.output first stop).map _)) (.new _) h hl
  rw [hr,List.head?_map,List.head?_eq_getElem?,hd]
  show some (CommitRange.mk d.commitRef.index (d'.commitRef.index+1)) = _
  rw [hdi,hdi',show first + (stop - first) = stop by omega]
  rfl

variable {schedule : LeaderSchedule}
section
variable (hw : WindowInv U ownIndex cachedRounds st last stored)

include hw

theorem WindowInv.window_nil (h : st.output.length = last) : st.dag.scoringSubdag = .new := by
  have hs := hw.scoring
  have hn : window st.output (last+1) st.output.length = [] := by
    unfold window
    rw [h,Nat.sub_self,take_zero]
  rw [hn] at hs
  exact (ok.inj hs).symm

theorem WindowInv.commitRange (h : last < st.output.length) :
    st.dag.scoringSubdag.commitRange = some (.new (last+1) st.output.length) :=
  commitRange_window hw.reached.inv (by omega) h le_rfl hw.scoring

theorem WindowInv.scoredSubdagsCount :
    st.dag.scoringSubdag.scoredSubdagsCount = st.output.length - last := by
  have hle := hw.le
  rcases Nat.eq_or_lt_of_le hle with heq | hlt
  · rw [hw.window_nil heq.symm,heq,Nat.sub_self]
    rfl
  unfold ScoringSubdag.scoredSubdagsCount
  rw [hw.commitRange hlt]
  show st.output.length + 1 - (last+1) = _
  omega

theorem WindowInv.isEmpty : st.dag.scoringSubdag.isEmpty = true ↔ st.output.length = last := by
  constructor
  · intro he
    by_contra hne
    have hle := hw.le
    have hr := hw.commitRange (by omega)
    unfold ScoringSubdag.isEmpty at he
    rw [hr] at he
    simp at he
  intro h
  rw [hw.window_nil h]
  simp [ScoringSubdag.isEmpty,ScoringSubdag.new]

theorem WindowInv.updateIfDue {dag : DagState ctx} (h : st.updateIfDue = .ok (schedule,dag)) :
    (∃ last', WindowInv U ownIndex cachedRounds
      ⟨{ st.toLinearizerState with dag := dag },schedule⟩ last' stored) ∧
    dag.lastCommit = st.dag.lastCommit ∧
    dag.getVerifiedBlockHeader = st.dag.getVerifiedBlockHeader := by
  unfold ScheduleState.updateIfDue at h
  split at h
  · next hd =>
    have hi := hw.reached.inv
    have hps : 0 < consensusCommitsPerSchedule := by decide
    have hf : st.output.length = last + consensusCommitsPerSchedule := by
      unfold commitsUntilLeaderScheduleUpdate at hd
      rw [hw.scoredSubdagsCount,hw.size] at hd
      have hrm := hw.room
      omega
    have hr := hw.commitRange (by omega)
    obtain ⟨hb,hst⟩ : st.dag.commitInfoToWrite = [] ∧ last = stored := by
      rcases hw.buffer with hb | ⟨hln,-⟩
      · exact hb
      · omega
    obtain ⟨scores,hs,h⟩ := of_bind h
    obtain ⟨table,ht,h⟩ := of_bind h
    obtain ⟨dag',hp,h⟩ := of_bind h
    obtain ⟨-,-,h⟩ := of_bind h
    cases h
    have hscoresRange : scores.commitRange = .new (last+1) st.output.length := by
      unfold calculateDistributedVoteScores at hs
      rw [hr] at hs
      rw [← ok.inj hs]
    have hscoresLast : scores.commitRange.last = st.output.length := by
      rw [hscoresRange]
      rfl
    -- the full window is the one that ends with the last commit
    have hwn : windowScores ctx st.output st.output.length = .ok scores := by
      unfold windowScores
      rw [show st.output.length + 1 - consensusCommitsPerSchedule = last+1 by omega,hw.scoring]
      exact hs
    have hrc : LinearizerState.Reached U ownIndex cachedRounds
        { st.toLinearizerState with dag := dag } := by
      refine hw.reached.dag (show LinearizerState.Permitted U _ (.dag (.persistScores scores)) from
        ⟨trivial,trivial,?_⟩) hp
      show scores.commitRange.last ≤ st.dag.lastCommitIndex
      rw [hscoresLast,hi.length_eq]
    obtain ⟨c,hl,rfl⟩ := DagState.addCommitInfo_cases hp
    have hin : c.reference.index = st.output.length := by
      rw [hi.length_eq]
      unfold DagState.lastCommitIndex
      rw [show st.dag.lastCommit = some c from hl]
      rfl
    refine ⟨⟨st.output.length,?_⟩,rfl,rfl⟩
    constructor
    · exact hrc
    · exact hw.size
    · show consensusCommitsPerSchedule ∣ st.output.length
      rw [hf]
      exact (Nat.dvd_add_right hw.aligned).mpr dvd_rfl
    · exact le_rfl
    · exact Nat.le_add_right _ _
    · show tableAt ctx st.output st.output.length = .ok table
      unfold tableAt
      rw [if_neg (by omega),hwn,← hscoresLast]
      exact ht
    · show new.addSubdags ((window st.output (st.output.length+1)
        st.output.length).map toSubDagBase) = .ok .new
      unfold window
      rw [Nat.sub_self,take_zero]
      rfl
    · exact hw.storedScores
    · exact hw.stored_le
    · exact hw.stored_room
    · refine .inr ⟨rfl,by omega,c.reference,
        ⟨(List.range ctx.committee.size).map st.dag.lastCommittedRounds,scores⟩,?_,hin,
        hscoresLast,hwn⟩
      show st.dag.commitInfoToWrite ++ _ = _
      rw [hb]
      rfl
    · exact hw.carries
  · cases h
    exact ⟨⟨last,hw⟩,rfl,rfl⟩

end

def BufferedScores (ctx : Context) (output : List PendingSubDag) (s : DagState ctx)
    (last stored : Nat) : Prop :=
  s.commitInfoToWrite = [] ∧ last = stored ∨ stored < last ∧ ∃ k info,
    s.commitInfoToWrite = [(k,info)] ∧ k.index = last ∧
    info.reputationScores.commitRange.last = last ∧
    windowScores ctx output last = .ok info.reputationScores

theorem WindowInv.bufferedScores (hw : WindowInv U ownIndex cachedRounds st last stored) :
    BufferedScores ctx st.output st.dag last stored := by
  rcases hw.buffer with hb | ⟨-,hb⟩
  · exact .inl hb
  · exact .inr hb

theorem StoredScores.flush {s : DagState ctx}
    (hs : StoredScores ctx output s.store stored) (hb : BufferedScores ctx output s last stored)
    (ha : consensusCommitsPerSchedule ∣ last) : StoredScores ctx output s.flush.store last := by
  have hst : s.flush.store.commitInfo =
      s.commitInfoToWrite.foldl (fun m p => m.insert p.1 p.2) s.store.commitInfo :=
    congrArg (fun p : DagState.CommitPart => p.store.commitInfo) (DagState.commitPart_flush s)
  refine ⟨ha,?_⟩
  rcases hb with ⟨he,rfl⟩ | ⟨hlt,k,info,hbf,hk,hrn,hsc⟩
  · rw [he] at hst
    have hr : s.flush.store.readLastCommitInfo = s.store.readLastCommitInfo := by
      unfold Store.readLastCommitInfo
      rw [hst]
      rfl
    rw [hr]
    exact hs.info
  rw [hbf] at hst
  refine .inr ⟨k,info,Store.readLastCommitInfo_insert hst fun x hx => ?_,by omega,hk, hrn,hsc⟩
  -- the keys stored before are of earlier windows
  rcases hs.info with ⟨hn,-⟩ | ⟨k',info',hr,-,hk',-⟩
  · rw [Store.readLastCommitInfo_eq_none hn] at hx
    simp at hx
  · have hle := CommitRef.index_le_of_isLE ((s.store.readLastCommitInfo_eq_some hr).2 x hx)
    omega

section
variable (hw : WindowInv U ownIndex cachedRounds st last stored)

include hw

theorem WindowInv.flush :
    WindowInv U ownIndex cachedRounds
      { st with dag := st.dag.flush } last last := by
  have hr := hw.reached.dag (show LinearizerState.Permitted U _ (.dag .flush) from
    ⟨trivial,trivial,trivial⟩) rfl
  have hi := hr.inv
  have hp := DagState.commitPart_flush st.dag
  have hin : DagState.storedIndex st.dag.flush.store = st.output.length := by
    rw [hi.watermark.log.storedIndex_eq (congrArg DagState.CommitPart.commitsToWrite hp)]
    exact hi.length_eq.symm
  constructor
  · exact hr
  · exact hw.size
  · exact hw.aligned
  · exact hw.le
  · exact hw.room
  · exact hw.table
  · show _ = Except.ok st.dag.flush.scoringSubdag
    rw [DagState.scoringSubdag_flush]
    exact hw.scoring
  · exact hw.storedScores.flush hw.bufferedScores hw.aligned
  · show last ≤ DagState.storedIndex st.dag.flush.store
    rw [hin]
    exact hw.le
  · show DagState.storedIndex st.dag.flush.store ≤ _
    rw [hin]
    exact hw.room
  · exact .inl ⟨congrArg DagState.CommitPart.infoToWrite hp,rfl⟩
  · exact fun c hc => hw.carries c (hw.reached.inv.watermark.log.logged_flush.mp hc)

theorem WindowInv.of_same {dag : DagState ctx} (hp : dag.commitPart = st.dag.commitPart)
    (hsc : dag.scoringSubdag = st.dag.scoringSubdag)
    (hr : LinearizerState.Reached U ownIndex cachedRounds
      { st.toLinearizerState with dag := dag }) :
    WindowInv U ownIndex cachedRounds { st with dag := dag } last stored := by
  have hs : dag.store = st.dag.store := congrArg DagState.CommitPart.store hp
  have hi : dag.commitInfoToWrite = st.dag.commitInfoToWrite :=
    congrArg DagState.CommitPart.infoToWrite hp
  constructor
  · exact hr
  · exact hw.size
  · exact hw.aligned
  · exact hw.le
  · exact hw.room
  · exact hw.table
  · show _ = Except.ok dag.scoringSubdag
    rw [hsc]
    exact hw.scoring
  · show StoredScores ctx st.output dag.store stored
    rw [hs]
    exact hw.storedScores
  · show stored ≤ DagState.storedIndex dag.store
    rw [hs]
    exact hw.stored_le
  · show DagState.storedIndex dag.store ≤ _
    rw [hs]
    exact hw.stored_room
  · show dag.commitInfoToWrite = [] ∧ _ ∨ _ ∧ _ ∧ ∃ k info, dag.commitInfoToWrite = _ ∧ _
    rw [hi]
    exact hw.buffer
  · exact fun c hc => hw.carries c ((DagState.logged_congr hp).mp hc)

theorem WindowInv.dag {op : DagOp}
    (hop : op.Plain) (hc : DagState.Causal U st.dag op) {dag : DagState ctx}
    (h : st.dag.exec op = .ok dag) :
    ∃ stored', WindowInv U ownIndex cachedRounds { st with dag := dag } last stored' := by
  have ho : op.Ordinary := by
    cases op with
    | addScoringSubdags subdags => exact hop.elim
    | persistScores scores => exact hop.elim
    | _ => exact hop
  have hrc : DagState.Recoverable st.dag op := by
    cases op with
    | persistScores scores => exact hop.elim
    | restart => exact hop.elim
    | _ => exact trivial
  have hr := hw.reached.dag ⟨ho,hc,hrc⟩ h
  have hwt : dag.withoutTransactions = st.dag.withoutTransactions →
      ∃ stored', WindowInv U ownIndex cachedRounds { st with dag := dag } last stored' := by
    intro heq
    refine ⟨stored,hw.of_same (congrArg DagState.HeaderPart.toCommitPart
      (DagState.headerPart_eq heq)) ?_ hr⟩
    have hf : dag.withoutTransactions.scoringSubdag =
      st.dag.withoutTransactions.scoringSubdag := by rw [heq]
    exact hf
  cases op with
  | acceptBlockHeader header =>
    refine ⟨stored,hw.of_same (DagState.commitPart_acceptBlockHeader h) ?_ hr⟩
    rcases DagState.acceptBlockHeader_cases h with rfl | ⟨-,rfl⟩
    · rfl
    · rfl
  | addTransactions t source =>
    cases h
    exact hwt (st.dag.withoutTransactions_addTransactions t source)
  | updateLastSolidSubdagBase base =>
    cases h
    exact ⟨stored,hw.of_same rfl rfl hr⟩
  | updatePendingCommitVotes refs =>
    cases h
    exact hwt rfl
  | takeCommitVotes limit =>
    cases h
    exact hwt rfl
  | takeAcknowledgments limit =>
    cases h
    exact hwt (st.dag.withoutTransactions_takeAcknowledgments limit)
  | flush =>
    cases h
    exact ⟨last,hw.flush⟩
  | addScoringSubdags subdags => exact hop.elim
  | persistScores scores => exact hop.elim
  | addCommit _ => exact hop.elim
  | setFastSyncOngoingFlag _ => exact hop.elim
  | reinitializeCaches => exact hop.elim
  | restart => exact hop.elim

end

theorem not_dvd_of_between {n a b : Nat} (ha : n ∣ a) (hlt : a < b) (hgt : b < a + n) : ¬n ∣ b := by
  intro hb
  obtain ⟨k,hk⟩ := (Nat.dvd_sub hb ha : n ∣ b - a)
  rcases Nat.eq_zero_or_pos k with rfl | hp
  · omega
  · have hle := Nat.le_mul_of_pos_right n hp
    omega

section
variable (hw : WindowInv U ownIndex cachedRounds st last stored)

include hw

theorem WindowInv.carries_new
    (hr : st.output.length + subDags.length ≤ last + consensusCommitsPerSchedule)
    {c : TrustedCommit} (hgt : st.output.length < c.index)
    (hle : c.index ≤ st.output.length + subDags.length) (hs : c.reputationScoresDesc =
      if ctx.protocolConfig.consensusFastCommitSync ∧ c.index = st.output.length+1 then
        (if leaderScheduleUpdated st.dag then
          st.schedule.leaderSwapTable.reputationScoresDesc else [])
      else []) : Carries ctx (st.output ++ subDags) c := by
  have hls := hw.le
  unfold Carries
  by_cases hf : ctx.protocolConfig.consensusFastCommitSync = true
  swap
  · rw [if_neg fun h => hf h.1]
    rw [if_neg fun h => hf h.1] at hs
    exact hs
  by_cases hfr : last+1 = c.index
  · -- the first commit after an update
    have hi : c.index - 1 = last := by omega
    have hl : st.output.length = last := by omega
    have hu : leaderScheduleUpdated st.dag = true := hw.isEmpty.mpr hl
    rw [hi,if_pos ⟨hf,hw.aligned⟩]
    rw [if_pos ⟨hf,by omega⟩,if_pos hu] at hs
    refine ⟨_,?_,hs⟩
    rw [tableAt_congr hw.aligned (take_append_of_le_length hls)]
    exact hw.table
  · have hn : ¬consensusCommitsPerSchedule ∣ c.index - 1 :=
      not_dvd_of_between hw.aligned (by omega) (by omega)
    rw [if_neg fun h => hn h.2]
    rw [hs]
    split
    · next hnx =>
      refine if_neg fun hu => ?_
      have hl := hw.isEmpty.mp hu
      omega
    · rfl

theorem WindowInv.commit
    (hrd : (st.dag.lastCommitRound :: leaders.map VerifiedBlockHeader.round).Pairwise (· < ·))
    (hh : ∀ leader ∈ leaders, st.dag.getVerifiedBlockHeader leader.reference = some leader)
    (hlm : leaders.length ≤ st.schedule.commitsUntilLeaderScheduleUpdate st.dag)
    {l' : Linearizer ctx} {s' s'' : DagState ctx}
    (hg : st.linearizer.getPendingSubDags st.schedule st.dag leaders = .ok (subDags,l',s'))
    (ha : s'.flush.addScoringSubdags (subDags.map toSubDagBase) = .ok s'') :
    WindowInv U ownIndex cachedRounds ⟨⟨s'',l',st.output ++ subDags⟩,st.schedule⟩ last last := by
  have hi := hw.reached.inv
  obtain ⟨hlen,hsn,hst,hif,hlg⟩ := Linearizer.commitLeaders_commits hg
  have hcm := hw.reached.commit st.schedule leaders hrd hh hg
  have hf := hcm.dag (show LinearizerState.Permitted U _ (.dag .flush) from
    ⟨trivial,trivial,trivial⟩) rfl
  have hrc := hf.dag (show LinearizerState.Permitted U _ (.dag (.addScoringSubdags
    (subDags.map PendingSubDag.toSubDagBase))) from ⟨trivial,trivial,trivial⟩) ha
  have hp := DagState.commitPart_flush s'
  obtain ⟨scored,hsc,rfl⟩ := map_eq_ok.mp ha
  have hl := hw.le
  have hr : st.output.length + subDags.length ≤ last + consensusCommitsPerSchedule := by
    unfold commitsUntilLeaderScheduleUpdate at hlm
    rw [hw.scoredSubdagsCount,hw.size] at hlm
    have := hw.room
    omega
  have ht : (st.output ++ subDags).take last = st.output.take last := take_append_of_le_length hl
  have hin : DagState.storedIndex s'.flush.store = (st.output ++ subDags).length := by
    rw [hf.inv.watermark.log.storedIndex_eq (congrArg DagState.CommitPart.commitsToWrite hp)]
    exact hf.inv.length_eq.symm
  constructor
  · exact hrc
  · exact hw.size
  · exact hw.aligned
  · show last ≤ (st.output ++ subDags).length
    rw [length_append]
    omega
  · show (st.output ++ subDags).length ≤ _
    rw [length_append]
    exact hr
  · show tableAt ctx (st.output ++ subDags) last = _
    rw [tableAt_congr hw.aligned ht]
    exact hw.table
  · show new.addSubdags ((window (st.output ++ subDags) (last+1)
      (st.output ++ subDags).length).map toSubDagBase) = .ok scored
    have ho : window (st.output ++ subDags) (last+1) st.output.length =
        window st.output (last+1) st.output.length :=
      window_congr (by omega) (by rw [take_left,take_length])
    have hn : window (st.output ++ subDags) (st.output.length+1)
        (st.output ++ subDags).length = subDags := by
      rw [window_eq _ (by omega),take_length]
      exact drop_left
    have hln : st.output.length ≤ (st.output ++ subDags).length := by
      rw [length_append]
      omega
    have hap := window_append (st.output ++ subDags) (Nat.succ_pos last) (Nat.succ_le_succ hl) hln
    rw [← hap,ho,hn,map_append,addSubdags_append,hw.scoring]
    rw [DagState.scoringSubdag_flush,hsn] at hsc
    exact hsc
  · have hsr : StoredScores ctx (st.output ++ subDags) s'.store stored := by
      rw [hst]
      refine hw.storedScores.congr (take_append_of_le_length ?_)
      exact hw.stored_le.trans hi.storedIndex_le
    refine hsr.flush ?_ hw.aligned
    unfold BufferedScores
    rw [hif]
    rcases hw.bufferedScores with he | ⟨hlt,k,info,hb,hk,hrn,hs⟩
    · exact .inl he
    refine .inr ⟨hlt,k,info,hb,hk,hrn,?_⟩
    rw [windowScores_congr hw.aligned ht (by omega)]
    exact hs
  · show last ≤ DagState.storedIndex s'.flush.store
    rw [hin,length_append]
    omega
  · show DagState.storedIndex s'.flush.store ≤ _
    rw [hin,length_append]
    exact hr
  · exact .inl ⟨congrArg DagState.CommitPart.infoToWrite hp,rfl⟩
  · intro c hc
    have hc' : s'.Logged c := hcm.inv.watermark.log.logged_flush.mp hc
    have hle : c.index ≤ (st.output ++ subDags).length := by
      rw [hcm.inv.length_eq]
      exact hcm.inv.watermark.log.index_le_last hc'
    rw [length_append] at hle
    rcases hlg c hc' with ho | ⟨hgt,hs⟩
    · have hle' := hi.watermark.log.index_le_last ho
      rw [← hi.length_eq] at hle'
      exact (hw.carries c ho).congr (take_append_of_le_length (by omega))
    · rw [← hi.length_eq] at hgt hs
      exact hw.carries_new hr hgt hle hs

theorem WindowInv.restart {refOrder : HashOrder BlockRef} {slotOrder : HashOrder Slot}
    (h : st.toLinearizerState.exec (.restart refOrder slotOrder) = .ok l)
    (hsc : fromStore ctx l.dag.store = .ok schedule) :
    WindowInv U ownIndex cachedRounds ⟨l,schedule⟩ stored stored := by
  have hr : LinearizerState.Reached U ownIndex cachedRounds l :=
    .step hw.reached (show LinearizerState.Permitted U _ (.restart refOrder slotOrder) from trivial) h
  obtain ⟨dag,hd,h⟩ := of_bind h
  obtain ⟨linearizer,h⟩ := ok_of_bind h
  cases h
  obtain ⟨table,htb,rfl⟩ := map_eq_ok.mp hsc
  have hi := hw.reached.inv
  have hin := DagState.lastCommitIndex_new hd
  obtain ⟨scoring₀,hp⟩ := DagState.commitPart_new hd
  have hs : dag.store = st.dag.store := congrArg DagState.CommitPart.store hp
  have hle := hi.storedIndex_le
  have ht : (st.output.take dag.lastCommitIndex).take stored = st.output.take stored := by
    rw [take_take,hin,Nat.min_eq_left hw.stored_le]
  have hl : (st.output.take dag.lastCommitIndex).length =
      DagState.storedIndex st.dag.store := by
    rw [hin,length_take_of_le hle]
  rw [hs,hw.storedScores.recover] at htb
  constructor
  · exact hr
  · rfl
  · exact hw.storedScores.aligned
  · show stored ≤ (st.output.take dag.lastCommitIndex).length
    rw [hl]
    exact hw.stored_le
  · show (st.output.take dag.lastCommitIndex).length ≤ _
    rw [hl]
    exact hw.stored_room
  · show tableAt ctx (st.output.take dag.lastCommitIndex) stored = .ok table
    rw [tableAt_congr hw.storedScores.aligned ht]
    exact htb
  · -- the window is rebuilt from the store
    obtain ⟨bases,scoring,hld,ha,hcn⟩ := hw.reached.storesWindow.rebuilt hi
    obtain ⟨dag',hd',hsr⟩ := DagState.new_ok hi.noFastSync hld ha
    cases hd.symm.trans hd'
    rw [DagState.commitRecoveryStartIndex_eq,hw.storedScores.lastCommitInfoIndex] at hcn
    obtain ⟨scored,ho,hb⟩ := hcn _ le_rfl [_] [] (flatten_singleton ..)
      (by unfold window; rw [Nat.sub_self,take_zero]; rfl)
    cases hb
    rw [addSubdags_flatten,flatten_singleton] at ho
    have hwn : window (st.output.take (DagState.storedIndex st.dag.store)) (stored+1)
        (DagState.storedIndex st.dag.store) =
        window st.output (stored+1) (DagState.storedIndex st.dag.store) :=
      window_congr (Nat.succ_pos stored) (by rw [take_take,Nat.min_self])
    rw [hl,hin,hwn,hsr]
    exact ho
  · show StoredScores ctx (st.output.take dag.lastCommitIndex) dag.store stored
    rw [hs]
    exact hw.storedScores.congr ht
  · show stored ≤ DagState.storedIndex dag.store
    rw [hs]
    exact hw.stored_le
  · show DagState.storedIndex dag.store ≤ _
    rw [hs]
    exact hw.stored_room
  · exact .inl ⟨congrArg DagState.CommitPart.infoToWrite hp,rfl⟩
  · intro c hc
    have hst := (DagState.logged_new hd).mp hc
    have hle' := hi.watermark.log.index_le_storedIndex hst
    refine (hw.carries c (.inl hst)).congr ?_
    rw [take_take,hin,Nat.min_eq_left (by omega)]

theorem WindowInv.tryCommit (hop : Permitted U st (.tryCommit leaders))
    (h : st.tryCommit leaders = .ok st') :
    ∃ last' stored', WindowInv U ownIndex cachedRounds st' last' stored' := by
  obtain ⟨⟨schedule,dag⟩,hu,h⟩ := of_bind h
  obtain ⟨⟨last',hw'⟩,hl,hg⟩ := hw.updateIfDue hu
  obtain ⟨hrn,hh,hlm⟩ := hop
  dsimp only at h
  split at h
  · cases h
    exact ⟨last',stored,hw'⟩
  obtain ⟨⟨subDags,l',s'⟩,hc,h⟩ := of_bind h
  obtain ⟨s'',ha,h⟩ := of_bind h
  cases h
  refine ⟨last',last',hw'.commit ?_ ?_ (hlm _ hu) hc ha⟩
  · have hr : dag.lastCommitRound = st.dag.lastCommitRound := by
      unfold DagState.lastCommitRound
      rw [hl]
    rw [hr]
    exact hrn
  show ∀ leader ∈ leaders, dag.getVerifiedBlockHeader _ = _
  rw [hg]
  exact hh

end

theorem WindowInv.initial (h : Initial ownIndex cachedRounds st) :
    WindowInv U ownIndex cachedRounds st 0 0 := by
  obtain ⟨hl,hsc⟩ := h
  have hr : LinearizerState.Reached U ownIndex cachedRounds st.toLinearizerState := .init hl
  obtain ⟨hd,-,ho⟩ := hl
  obtain ⟨scoring,hp⟩ := DagState.commitPart_new hd
  have hst : st.dag.store = .empty := congrArg DagState.CommitPart.store hp
  have hn : ∀ c, ¬st.dag.Logged c := by
    intro c hc
    obtain ⟨k,hk⟩ := (DagState.logged_new hd).mp hc
    simp [Store.empty] at hk
  constructor
  · exact hr
  · rw [hsc]
    rfl
  · exact dvd_zero _
  · exact Nat.zero_le _
  · rw [ho]
    exact Nat.zero_le _
  · rw [ho,hsc]
    rfl
  · have hld : (Store.empty.scanCommits
        (DagState.commitRecoveryStartIndex Store.empty.readLastCommitInfo)
        (DagState.storedIndex .empty)).mapM Store.empty.loadSubDagBase = .ok [] := by
      rfl
    obtain ⟨s,hs,hsr⟩ := DagState.new_ok rfl hld
      (rfl : (new : ScoringSubdag ctx.committee).addSubdags [] = .ok .new)
    rw [ho,ok.inj (hd.symm.trans hs),hsr]
    rfl
  · refine ⟨dvd_zero _,.inl ⟨?_,rfl⟩⟩
    rw [hst]
    exact DagState.readLastCommitInfo_empty
  · exact Nat.zero_le _
  · rw [hst]
    unfold DagState.storedIndex
    exact Nat.zero_le _
  · exact .inl ⟨congrArg DagState.CommitPart.infoToWrite hp,rfl⟩
  · exact fun c hc => absurd hc (hn c)

theorem Reached.chain {acks : Nat → List BlockRef} {st : ScheduleState BlockVerifier.soleContext}
    {cachedRounds n : Nat} {p : VerifiedBlockHeader} {s' : DagState BlockVerifier.soleContext}
    (hst : Reached (ackingChain acks) 0 cachedRounds st)
    (hp : st.dag.getVerifiedBlockHeader ⟨n,0,0⟩ = some p)
    (ha : st.dag.acceptBlockHeader (ackingHeader acks (n+1)) = .ok s') :
    Reached (ackingChain acks) 0 cachedRounds
      ⟨{ st.toLinearizerState with dag := s' },st.schedule⟩ := by
  have hpr : ScheduleState.Permitted (ackingChain acks) st
      (.dag (.acceptBlockHeader (ackingHeader acks (n+1)))) :=
    ⟨trivial,(permitted_chain hp).2.1⟩
  have he : st.toLinearizerState.exec (.dag (.acceptBlockHeader (ackingHeader acks (n+1)))) =
      .ok { st.toLinearizerState with dag := s' } := exec_dag ha
  refine .step hst hpr ?_
  unfold exec
  dsimp only
  rw [he]
  rfl

theorem Reached.commit (hst : Reached U ownIndex cachedRounds st)
    (leaders : List VerifiedBlockHeader)
    (hrn : (st.dag.lastCommitRound :: leaders.map VerifiedBlockHeader.round).Pairwise (· < ·))
    (hh : ∀ leader ∈ leaders, st.dag.getVerifiedBlockHeader leader.reference = some leader)
    {p : LeaderSchedule × DagState ctx} (hd : st.updateIfDue = .ok p)
    (hr : leaders.length ≤ p.1.commitsUntilLeaderScheduleUpdate p.2)
    (h : st.tryCommit leaders = .ok st') : Reached U ownIndex cachedRounds st' := by
  have hp : ScheduleState.Permitted U st (.tryCommit leaders) := by
    refine ⟨hrn,hh,fun q hq => ?_⟩
    cases hd.symm.trans hq
    exact hr
  exact .step hst hp h

end Window
end ScheduleState
end Iota.Starfish
