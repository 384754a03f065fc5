import Iota.Starfish.DagState.Stored
import Iota.Starfish.Linearizer.Committed

/-! A node scores its sub-dags as it commits them. After a crash or a fast sync the sub-dags of the
window are loaded from the store and scored anew, with the same result. -/
namespace Iota.Starfish
open BlockVerifier Except Linearizer List Universe
open Std (ExtTreeMap)
variable {ctx : Context} {U : Universe ctx}

theorem Store.scanCommits_eq_nil (store : Store) {first last : Nat} (h : last < first) :
    store.scanCommits first last = [] := by
  unfold Store.scanCommits
  rw [map_eq_nil_iff,filter_eq_nil_iff]
  intro p _ hp
  have hr := of_decide_eq_true hp
  omega

variable {store : Store}
namespace DagState
variable {s s' : DagState ctx}

theorem commitsToReplay_eq (hf : store.fastSyncOngoing = false) :
    commitsToReplay store =
      store.scanCommits (commitRecoveryStartIndex store.readLastCommitInfo)
        (storedIndex store) := by
  unfold commitsToReplay storedIndex
  rw [hf,if_neg Bool.false_ne_true]
  cases hr : store.readLastCommit with
  | some last => rfl
  | none =>
    unfold Store.scanCommits
    rw [store.readLastCommit_eq_none hr]
    simp

theorem commitRecoveryStartIndex_eq (s : DagState ctx) :
    commitRecoveryStartIndex s.store.readLastCommitInfo = s.lastCommitInfoIndex+1 := by
  unfold commitRecoveryStartIndex lastCommitInfoIndex
  cases s.store.readLastCommitInfo with
  | none => rfl
  | some p =>
    dsimp only
    split
    · rfl
    · rfl

theorem expectHeaders_map_some (headers : List VerifiedBlockHeader) :
    expectHeaders (headers.map some) = .ok headers := by
  induction headers with
  | nil => rfl
  | cons h headers ih =>
    rw [map_cons,expectHeaders,ih]
    rfl

theorem scoringSubdag_loadCachedData (source : DataSource) (authorities : List Nat)
    (s : DagState ctx) :
    (authorities.foldl (loadCachedDataForAuthority source) s).scoringSubdag = s.scoringSubdag := by
  refine proj_foldl scoringSubdag (fun s a => ?_) authorities s
  have ht : ∀ (ts : List VerifiedTransactions) (s : DagState ctx),
      (ts.foldl (fun s t => s.updateTransactionMetadata t source) s).scoringSubdag =
        s.scoringSubdag := fun ts s =>
    proj_foldl scoringSubdag (fun s t => by
      have heq := congrArg scoringSubdag (s.withoutTransactions_updateTransactionMetadata t source)
      exact heq) ts s
  have hh : (s.loadCachedHeaders a).scoringSubdag = s.scoringSubdag := by
    exact proj_foldl scoringSubdag (f := updateBlockHeaderMetadata) (fun _ _ => rfl) _ _
  exact (ht _ _).trans hh

end DagState
namespace LinearizerState
variable {st st' : LinearizerState ctx}

/-- The headers of the commits are found: those of stored commits in the store, those of the
others by a lookup. -/
structure HeadersHeld (s : DagState ctx) : Prop where
  stored : ∀ c, DagState.Stored s.store c → ∀ r ∈ c.blockHeaders,
    ∃ h, DagState.storeLookup ctx s.store r = some h
  logged : ∀ c, s.Logged c → ∀ r ∈ c.blockHeaders, ∃ h, s.getVerifiedBlockHeader r = some h

variable {s s' : DagState ctx}

theorem HeadersHeld.of_store (hh : HeadersHeld s) (hs : s'.store = s.store)
    (hl : ∀ c, s'.Logged c → s.Logged c)
    (hg : ∀ r h, s.getVerifiedBlockHeader r = some h →
      ∃ h', s'.getVerifiedBlockHeader r = some h') : HeadersHeld s' := by
  constructor
  · rw [hs]
    exact hh.stored
  intro c hc r hr
  obtain ⟨h,hf⟩ := hh.logged c (hl c hc) r hr
  exact hg r h hf

theorem HeadersHeld.flush {s : DagState ctx} (hh : HeadersHeld s) (hi : DagState.CacheInv U s) :
    HeadersHeld s.flush := by
  have hg : s.flush.getVerifiedBlockHeader = s.getVerifiedBlockHeader :=
    hi.get_exec (show DagState.Storing U s .flush from trivial) rfl
  rcases DagState.flush_cases s with heq | hp
  · rw [heq]
    exact hh
  have hcm := (congrArg DagState.HeaderPart.toCommitPart hp).trans
    (DagState.commitPart_evictHeaders s.writeBuffers)
  have hs : s.flush.store = s.writeBuffers.store := congrArg DagState.CommitPart.store hcm
  have hl : ∀ c, s.flush.Logged c → s.Logged c := fun c hc =>
    hi.log.logged_writeBuffers.mp ((DagState.logged_congr hcm).mp hc)
  have ha : ∀ c, s.flush.Logged c → ∀ r ∈ c.blockHeaders,
      ∃ h, s.flush.getVerifiedBlockHeader r = some h := by
    intro c hc r hr
    rw [hg]
    exact hh.logged c (hl c hc) r hr
  refine ⟨fun c hc => ?_,ha⟩
  rw [hs,hi.coherent.storeLookup_writeBuffers,← hg]
  exact ha c (.inl hc)

theorem HeadersHeld.restart (hh : HeadersHeld s) (hi : DagState.CacheInv U s)
    (h : DagState.new ctx s.ownIndex s.cachedRounds s.store = .ok s') : HeadersHeld s' := by
  have hg : s'.getVerifiedBlockHeader = DagState.storeLookup ctx s.store :=
    hi.get_exec (show DagState.Storing U s .restart from trivial) h
  obtain ⟨scoring,hp⟩ := DagState.commitPart_new h
  have hs : s'.store = s.store := congrArg DagState.CommitPart.store hp
  constructor
  · rw [hs]
    exact hh.stored
  intro c hc
  rw [hg]
  exact hh.stored c ((DagState.logged_new h).mp hc)

theorem HeadersHeld.exec (hh : HeadersHeld s) (hi : DagState.CacheInv U s)
    {op : DagOp} (hop : op.Ordinary) (hst : DagState.Storing U s op)
    (hs : s.exec op = .ok s') : HeadersHeld s' := by
  have hg := hi.get_exec hst hs
  rcases DagState.headerPart_exec hs with ⟨h,rfl⟩ | ⟨c,rfl⟩ | ⟨scores,rfl⟩ | rfl | rfl | rfl |
    ⟨hp,hl⟩
  · have hp := DagState.commitPart_acceptBlockHeader hs
    refine hh.of_store (congrArg DagState.CommitPart.store hp)
      (fun c => (DagState.logged_congr hp).mp) fun r x hx => ?_
    rw [hg]
    simp only [DagState.lookupAfter]
    split
    · exact ⟨h,rfl⟩
    · exact ⟨x,hx⟩
  · exact hop.elim
  · obtain ⟨last,-,rfl⟩ := DagState.addCommitInfo_cases hs
    exact ⟨hh.stored,hh.logged⟩
  · cases hs
    exact hh.flush hi
  · exact hop.elim
  · exact hop.elim
  have hc := congrArg DagState.HeaderPart.toCommitPart hp
  refine hh.of_store (congrArg DagState.CommitPart.store hc)
    (fun c => (DagState.logged_congr hc).mp) fun r x hx => ?_
  rw [hg,hl]
  exact ⟨x,hx⟩

theorem HeadersHeld.commitLeader (hh : HeadersHeld st.dag) (hi : Inv U st)
    {leader : VerifiedBlockHeader} {scores : List (Nat × Nat)}
    (hhl : st.dag.getVerifiedBlockHeader leader.reference = some leader)
    (hp : 0 < leader.round) {subDag : PendingSubDag} {l' : Linearizer ctx} {s' : DagState ctx}
    (h : st.linearizer.commitLeader st.dag leader scores = .ok (subDag,l',s')) :
    HeadersHeld s' := by
  obtain ⟨headers,timestampMs,committed,refs,hc,-,ha,rfl⟩ := commitLeader_cases h
  have hs := hi.isSubDag hhl (lastCommitRound_lt hp ha) hc.linearized timestampMs refs scores
  refine ⟨hh.stored,fun c hl r hr => ?_⟩
  rcases DagState.logged_appendCommit.mp hl with hl | rfl
  · exact hh.logged c hl r hr
  · obtain ⟨x,hx,rfl⟩ := mem_map.mp hr
    exact ⟨x,hi.causal.view.get_of_reaches hhl ((hs.mem_iff x).mp hx).reaches⟩

theorem HeadersHeld.keptByCommits : KeptByCommits fun st => Inv U st ∧ HeadersHeld st.dag :=
  fun _ _ _ _ _ _ hi hh hp h =>
    ⟨hi.1.commitLeader hh hp h,hi.2.commitLeader hi.1 hh hp h⟩

variable {ownIndex cachedRounds : Nat}

theorem HeadersHeld.initial (h : Initial ownIndex cachedRounds st) : HeadersHeld st.dag := by
  have hn : ∀ c, ¬st.dag.Logged c := by
    intro c hc
    obtain ⟨k,hk⟩ := (DagState.logged_new h.1).mp hc
    simp [Store.empty] at hk
  exact ⟨fun c hc => absurd (.inl hc) (hn c),fun c hc => absurd hc (hn c)⟩

theorem Reached.headersHeld (h : Reached U ownIndex cachedRounds st) : HeadersHeld st.dag := by
  have hb : Inv U st ∧ HeadersHeld st.dag := by
    induction h with
    | init hin => exact ⟨.initial hin,.initial hin⟩
    | @step st op st' _ hop hs hi =>
      refine ⟨hi.1.exec hop hs,?_⟩
      cases op with
      | dag op =>
        obtain ⟨s',he,heq⟩ := of_bind hs
        cases heq
        refine HeadersHeld.exec hi.2 hi.1.causal.cache hop.1 ?_ he
        cases op with
        | acceptBlockHeader h => exact hop.2.1.1
        | addCommit c => exact hop.1.elim
        | reinitializeCaches => exact hop.1.elim
        | _ => exact trivial
      | getPendingSubDags schedule leaders =>
        exact (HeadersHeld.keptByCommits.getPendingSubDags hi hop hs).2
      | evictLinearizer round =>
        cases hs
        exact hi.2
      | restart refOrder slotOrder =>
        obtain ⟨s',hn,hs⟩ := of_bind hs
        obtain ⟨l',-,heq⟩ := of_bind hs
        cases heq
        exact hi.2.restart hi.1.causal.cache hn
  exact hb.2

theorem Inv.split_output (hi : Inv U st) {i : Nat} (hlt : i < st.output.length) :
    ∃ leader, IsSubDag U (st.output.take i) leader st.output[i] :=
  hi.subDags _ _ (st.output.drop (i+1)) (by
    rw [cons_getElem_drop_succ,take_append_drop])

theorem mem_take_of_lt {output : List PendingSubDag} {i j : Nat} (hij : i < j)
    (hj : j < output.length) : output[i] ∈ output.take j := by
  refine mem_of_getElem? (i := i) ?_
  rw [List.getElem?_take,if_pos hij,List.getElem?_eq_getElem]

theorem Inv.commitRef_index (hi : Inv U st) {i : Nat} (hlt : i < st.output.length) :
    st.output[i].commitRef.index = i+1 := by
  obtain ⟨c,-,hin,hr⟩ := hi.recorded i _ (List.getElem?_eq_getElem hlt)
  rw [hr.reference]
  exact hin

theorem Inv.consecutive (hi : Inv U st) :
    ScoringSubdag.Consecutive (st.output.map PendingSubDag.toSubDagBase) := by
  constructor
  · rw [map_map,pairwise_map,pairwise_iff_getElem]
    intro i j hil hj hij
    show st.output[i].commitRef.index < st.output[j].commitRef.index
    rw [hi.commitRef_index hil,hi.commitRef_index hj]
    omega
  · rw [map_map,pairwise_map,pairwise_iff_getElem]
    intro i j hil hj hij
    obtain ⟨leader,hs⟩ := hi.split_output hj
    exact hs.above _ (mem_take_of_lt hij hj)
  · rw [flatMap_map,nodup_flatMap]
    constructor
    · intro d hd
      obtain ⟨before,after,leader,-,hs⟩ := hi.subDag_of_mem hd
      exact hs.nodup
    rw [pairwise_iff_getElem]
    intro i j hil hj hij r hr hr'
    obtain ⟨leader,hs⟩ := hi.split_output hj
    obtain ⟨leader',hs'⟩ := hi.split_output hil
    obtain ⟨x,hx,rfl⟩ := mem_map.mp hr'
    have heq : st.output = st.output.take j ++ st.output[j] :: st.output.drop (j+1) := by
      rw [cons_getElem_drop_succ,take_append_drop]
    refine hi.not_mem_before heq hs hx (mem_take_of_lt hij hj) ?_
    rw [hs'.refs_eq]
    exact hr
  · intro d hd h hh
    obtain ⟨d',hd',rfl⟩ := mem_map.mp hd
    obtain ⟨before,-,leader,-,hs⟩ := hi.subDag_of_mem hd'
    exact ancestors_nodup (((hs.mem_iff h).mp hh).reaches.mem hs.leader_mem)

/-- The sub-dags of the commits from index `first` to `last`. -/
def window (output : List PendingSubDag) (first last : Nat) : List PendingSubDag :=
  (output.drop (first - 1)).take (last + 1 - first)

theorem window_append (output : List PendingSubDag) {first last stop : Nat} (hp : 1 ≤ first)
    (hle : first ≤ last+1) (hs : last ≤ stop) :
    window output first last ++ window output (last+1) stop = window output first stop := by
  have hd : output.drop (last + 1 - 1) =
      (output.drop (first - 1)).drop (last + 1 - first) := by
    rw [drop_drop]
    congr 1
    omega
  have hl : stop + 1 - first = last + 1 - first + (stop + 1 - (last+1)) := by omega
  unfold window
  rw [hd,hl,take_add]

theorem window_sublist (output : List PendingSubDag) (first last : Nat) :
    (window output first last).Sublist output :=
  (take_sublist _ _).trans (drop_sublist _ _)

/-- The store has the commits of the run from index `first` to `last` and their headers. -/
structure StoresWindow (st : LinearizerState ctx) (store : Store) (first last : Nat) : Prop where
  pos : 1 ≤ first
  le : first ≤ last+1
  commits : List.Forall₂ Records (store.scanCommits first last) (window st.output first last)
  headers : ∀ d ∈ window st.output first last, ∀ h ∈ d.headers,
    store.blockHeaders[h.reference]? = some h

theorem loadSubDagBase_ok {c : TrustedCommit} {d : PendingSubDag}
    {before : List PendingSubDag} {leader : VerifiedBlockHeader} (hr : Records c d)
    (hs : IsSubDag U before leader d)
    (hst : ∀ h ∈ d.headers, store.blockHeaders[h.reference]? = some h) :
    ∃ base, store.loadSubDagBase c = .ok base ∧
      ScoringSubdag.SameScored base d.toSubDagBase := by
  have hlk : (c.blockHeaders.map fun r => store.blockHeaders[r]?) = d.headers.map some := by
    rw [← hr.headers,hs.refs_eq,map_map]
    exact map_congr_left hst
  have hl : d.headers.any fun h => h.reference = c.leader := by
    rw [any_eq_true]
    refine ⟨leader,(hs.mem_iff leader).mpr .refl,?_⟩
    rw [← hr.leader,hs.leader_eq]
    exact decide_eq_true rfl
  unfold Store.loadSubDagBase
  rw [hlk,DagState.expectHeaders_map_some,ok_bind,if_pos hl]
  exact ⟨_,rfl,hr.leader.symm,rfl,congrArg CommitRef.index hr.reference.symm⟩

theorem mapM_loadSubDagBase_ok {commits : List TrustedCommit}
    {subDags : List PendingSubDag} (hr : List.Forall₂ Records commits subDags)
    (hsb : ∀ d ∈ subDags, ∃ before leader, IsSubDag U before leader d)
    (hs : ∀ d ∈ subDags, ∀ h ∈ d.headers, store.blockHeaders[h.reference]? = some h) :
    ∃ bases, commits.mapM store.loadSubDagBase = .ok bases ∧ List.Forall₂ ScoringSubdag.SameScored
      bases (subDags.map PendingSubDag.toSubDagBase) := by
  induction hr with
  | nil => exact ⟨[],rfl,.nil⟩
  | cons hcd _ ih =>
    obtain ⟨before,leader,hd⟩ := hsb _ mem_cons_self
    obtain ⟨base,hl,hsm⟩ := loadSubDagBase_ok hcd hd (hs _ mem_cons_self)
    obtain ⟨bases,hld,hsa⟩ := ih (fun d hd => hsb d (.tail _ hd)) fun d hd => hs d (.tail _ hd)
    refine ⟨base :: bases,?_,.cons hsm hsa⟩
    rw [mapM_cons,hl,hld]
    rfl

/-- What was scored from the commits `first` to `last` can be continued: any split of the later
sub-dags into batches gives what a node has that scored all of them in batches of its own. -/
def Continues (st : LinearizerState ctx) (first last : Nat)
    (scoring : ScoringSubdag ctx.committee) : Prop :=
  ∀ stop, last ≤ stop → ∀ online batches : List (List SubDagBase),
    online.flatten = (window st.output first stop).map PendingSubDag.toSubDagBase →
    batches.flatten = (window st.output (last+1) stop).map PendingSubDag.toSubDagBase →
    ∃ scored, online.foldlM ScoringSubdag.addSubdags .new = .ok scored ∧
      batches.foldlM ScoringSubdag.addSubdags scoring = .ok scored

theorem StoresWindow.rebuilt (hi : Inv U st) {first last : Nat}
    (hw : StoresWindow st store first last) :
    ∃ bases scoring, (store.scanCommits first last).mapM store.loadSubDagBase = .ok bases ∧
      ScoringSubdag.new.addSubdags bases = .ok scoring ∧ Continues st first last scoring := by
  have hsc : ∀ stop, ∃ scored, (ScoringSubdag.new : ScoringSubdag ctx.committee).addSubdags
      ((window st.output first stop).map PendingSubDag.toSubDagBase) = .ok scored := fun stop =>
    ScoringSubdag.addSubdags_ok
      (hi.consecutive.sublist ((window_sublist st.output first stop).map _)) (.new _)
  obtain ⟨bases,hb,hsm⟩ := mapM_loadSubDagBase_ok hw.commits
    (fun d hd => by
      obtain ⟨before,-,leader,-,hsb⟩ :=
        hi.subDag_of_mem ((window_sublist st.output first last).subset hd)
      exact ⟨before,leader,hsb⟩) hw.headers
  obtain ⟨scoring,hs⟩ := hsc last
  rw [← ScoringSubdag.addSubdags_congr hsm] at hs
  refine ⟨bases,scoring,hb,hs,?_⟩
  intro stop hst online batches ho hbt
  obtain ⟨scored,ha⟩ := hsc stop
  refine ⟨scored,?_,?_⟩
  · rw [ScoringSubdag.addSubdags_flatten,ho]
    exact ha
  rw [ScoringSubdag.addSubdags_flatten,hbt]
  rw [← window_append st.output hw.pos hw.le hst,map_append,
    ScoringSubdag.addSubdags_append,← ScoringSubdag.addSubdags_congr hsm,hs] at ha
  exact ha

theorem Inv.storedIndex_le (hi : Inv U st) : DagState.storedIndex st.dag.store ≤ st.output.length := by
  rw [hi.length_eq]
  unfold DagState.storedIndex
  cases hr : st.dag.store.readLastCommit with
  | none => exact Nat.zero_le _
  | some last =>
    obtain ⟨k,hk,-⟩ := st.dag.store.readLastCommit_eq_some hr
    exact hi.watermark.log.index_le_last (.inl ⟨k,hk⟩)

theorem Inv.records_stored (hi : Inv U st) {first : Nat} (hp : 1 ≤ first) :
    List.Forall₂ Records (st.dag.store.scanCommits first (DagState.storedIndex st.dag.store))
      (window st.output first (DagState.storedIndex st.dag.store)) := by
  have hin := hi.watermark.log.index_scanCommits hp (le_refl _)
  have hl := congrArg List.length hin
  rw [length_map,length_range'] at hl
  have hle := hi.storedIndex_le
  refine forall₂_iff_get.mpr ⟨?_,fun i hi1 hi2 => ?_⟩
  · unfold window
    rw [hl,length_take,length_drop]
    omega
  simp only [get_eq_getElem]
  have hi' : (st.dag.store.scanCommits first (DagState.storedIndex st.dag.store))[i].index =
      first + i := by
    have heq := congrArg (fun l : List Nat => l[i]?) hin
    rw [List.getElem?_map,List.getElem?_eq_getElem hi1,List.getElem?_range' (by omega)] at heq
    simpa using heq
  obtain ⟨k,hk,-⟩ := (st.dag.store.mem_scanCommits).mp (getElem_mem hi1)
  obtain ⟨d,hd,hr⟩ := hi.exists_output (.inl ⟨k,hk⟩)
  have hg : (window st.output first (DagState.storedIndex st.dag.store))[i]? = some d := by
    unfold window
    rw [List.getElem?_take_of_lt (by omega),List.getElem?_drop,← hd,hi']
    congr 1
    omega
  rw [List.getElem?_eq_getElem hi2] at hg
  rw [Option.some.inj hg]
  exact hr

theorem Reached.headers_stored (h : Reached U ownIndex cachedRounds st) {c : TrustedCommit}
    (hc : DagState.Stored st.dag.store c) {d : PendingSubDag} (hd : d ∈ st.output)
    (hr : Records c d) {x : VerifiedBlockHeader} (hx : x ∈ d.headers) :
    st.dag.store.blockHeaders[x.reference]? = some x := by
  have hi := h.inv
  obtain ⟨before,after,leader,heq,hs⟩ := hi.subDag_of_mem hd
  have hxU := ((hs.mem_iff x).mp hx).reaches.mem hs.leader_mem
  have hrn : x.round ≠ genesisRound := Nat.ne_zero_of_lt (hi.committedRounds_lt_of_mem heq hs hx)
  have hm : x.reference ∈ c.blockHeaders := by
    rw [← hr.headers,hs.refs_eq]
    exact mem_map_of_mem hx
  obtain ⟨x',hx'⟩ := h.headersHeld.stored c hc _ hm
  rw [DagState.storeLookup_header hrn] at hx'
  have hg := (hi.causal.coherent.store_get hx').1
  rw [hx',← Option.some.inj (hg.symm.trans (mem_def.mp hxU))]

theorem Reached.storesWindow (h : Reached U ownIndex cachedRounds st) :
    StoresWindow st st.dag.store
      (DagState.commitRecoveryStartIndex st.dag.store.readLastCommitInfo)
      (DagState.storedIndex st.dag.store) := by
  have hi := h.inv
  have hp : 1 ≤ DagState.commitRecoveryStartIndex st.dag.store.readLastCommitInfo := by
    rw [DagState.commitRecoveryStartIndex_eq]
    exact Nat.le_add_left 1 _
  have hr := hi.records_stored hp
  constructor
  · exact hp
  · refine hi.watermark.commitRecoveryStartIndex_le.trans (Nat.succ_le_succ ?_)
    unfold DagState.snapshotIndex
    cases hrd : st.dag.store.readLastCommitInfo with
    | none => exact Nat.zero_le _
    | some p =>
      obtain ⟨hk,-⟩ := st.dag.store.readLastCommitInfo_eq_some hrd
      obtain ⟨-,c,hc⟩ := hi.watermark.storeInfo hk
      have hle := hi.watermark.log.index_le_storedIndex ⟨_,hc⟩
      rwa [show c.index = p.1.index from
        congrArg CommitRef.index (hi.watermark.log.key hc)] at hle
  · exact hr
  · intro d hd x hx
    obtain ⟨i,hlt,rfl⟩ := mem_iff_getElem.mp hd
    obtain ⟨hl,hg⟩ := forall₂_iff_get.mp hr
    have hrc := hg i (hl.symm ▸ hlt) hlt
    obtain ⟨k,hk,-⟩ := (st.dag.store.mem_scanCommits).mp (getElem_mem (hl.symm ▸ hlt))
    exact h.headers_stored ⟨k,hk⟩ ((window_sublist _ _ _).subset hd) hrc hx

end LinearizerState
namespace DagState
variable {s s' : DagState ctx} {scoring : ScoringSubdag ctx.committee}

theorem new_ok {ownIndex cachedRounds : Nat} {bases : List SubDagBase}
    (hf : store.fastSyncOngoing = false)
    (hl : (store.scanCommits (commitRecoveryStartIndex store.readLastCommitInfo)
      (storedIndex store)).mapM store.loadSubDagBase = .ok bases)
    (ha : ScoringSubdag.new.addSubdags bases = .ok scoring) :
    ∃ s, DagState.new ctx ownIndex cachedRounds store = .ok s ∧ s.scoringSubdag = scoring := by
  unfold DagState.new
  rw [commitsToReplay_eq hf,hl,ok_bind,ha,ok_bind]
  exact ⟨_,rfl,scoringSubdag_loadCachedData _ _ _⟩

theorem reinitializeCaches_ok {bases : List SubDagBase}
    (hl : (s.store.scanCommits (s.lastCommitInfoIndex+1) s.lastCommitIndex).mapM
      s.store.loadSubDagBase = .ok bases) (ha : ScoringSubdag.new.addSubdags bases = .ok scoring) :
    ∃ s', s.reinitializeCaches = .ok s' ∧ s'.scoringSubdag = scoring := by
  have hp := commitPart_loadCachedData .fastCommitSyncer (List.range ctx.committee.size)
    s.clearCaches
  have hsc := scoringSubdag_loadCachedData .fastCommitSyncer
    (List.range ctx.committee.size) s.clearCaches
  unfold reinitializeCaches rebuildScoringSubdagFromStore
  generalize (List.range ctx.committee.size).foldl (loadCachedDataForAuthority .fastCommitSyncer)
    s.clearCaches = loaded at hp hsc
  have hls : loaded.lastCommit = s.lastCommit := congrArg CommitPart.lastCommit hp
  have hst : loaded.store = s.store := congrArg CommitPart.store hp
  have hi : loaded.lastCommitInfoIndex = s.lastCommitInfoIndex := by
    unfold lastCommitInfoIndex
    rw [hst]
  rw [hls]
  unfold lastCommitIndex at hl
  cases hs : s.lastCommit with
  | none =>
    -- without a commit nothing is scanned
    rw [hs] at hl
    rw [Store.scanCommits_eq_nil _ (Nat.succ_pos _)] at hl
    obtain rfl : [] = bases := ok.inj hl
    exact ⟨loaded,rfl,hsc.trans (ok.inj ha)⟩
  | some last =>
    rw [hs] at hl
    dsimp only at hl ⊢
    rw [hi,hst,hl,ok_bind]
    refine ⟨{ loaded with scoringSubdag := scoring },?_,rfl⟩
    unfold addScoringSubdags
    rw [hsc]
    exact congrArg (Except.map _) ha

end DagState
open LinearizerState in
/-- For every run of the linearizer: the scores of a schedule window survive a crash of the node,
which rebuilds them from its own store, and a rebuilding or reinitialization from any store that has
the commits of the window. In all cases the rebuilt sub-dag is continued by the later commits, in any
batches, to what a node has that scored them online, and no vote is found twice. -/
theorem scoring_survives_recovery {ownIndex cachedRounds : Nat} {st : LinearizerState ctx}
    (hst : Reached U ownIndex cachedRounds st) :
    (∃ s, DagState.new ctx ownIndex cachedRounds st.dag.store = .ok s ∧
      Continues st (st.dag.lastCommitInfoIndex+1) s.lastCommitIndex s.scoringSubdag) ∧
    (∀ store, store.fastSyncOngoing = false →
      StoresWindow st store (DagState.commitRecoveryStartIndex store.readLastCommitInfo)
        (DagState.storedIndex store) →
      ∃ s, DagState.new ctx ownIndex cachedRounds store = .ok s ∧
        Continues st (DagState.commitRecoveryStartIndex store.readLastCommitInfo)
          (DagState.storedIndex store) s.scoringSubdag) ∧
    ∀ t : DagState ctx, StoresWindow st t.store (t.lastCommitInfoIndex+1) t.lastCommitIndex →
      ∃ s, t.reinitializeCaches = .ok s ∧
        Continues st (t.lastCommitInfoIndex+1) t.lastCommitIndex s.scoringSubdag := by
  have hi := hst.inv
  have hn : ∀ store, store.fastSyncOngoing = false →
      StoresWindow st store (DagState.commitRecoveryStartIndex store.readLastCommitInfo)
        (DagState.storedIndex store) →
      ∃ s, DagState.new ctx ownIndex cachedRounds store = .ok s ∧
        Continues st (DagState.commitRecoveryStartIndex store.readLastCommitInfo)
          (DagState.storedIndex store) s.scoringSubdag := by
    intro store hf hw
    obtain ⟨bases,scoring,hl,ha,hc⟩ := hw.rebuilt hi
    obtain ⟨s,hs,hsc⟩ := DagState.new_ok hf hl ha
    exact ⟨s,hs,hsc ▸ hc⟩
  refine ⟨?_,hn,?_⟩
  · obtain ⟨s,hs,hc⟩ := hn st.dag.store hi.noFastSync hst.storesWindow
    refine ⟨s,hs,?_⟩
    rw [DagState.lastCommitIndex_new hs,← DagState.commitRecoveryStartIndex_eq]
    exact hc
  intro t hw
  obtain ⟨bases,scoring,hl,ha,hc⟩ := hw.rebuilt hi
  obtain ⟨s,hs,hsc⟩ := DagState.reinitializeCaches_ok hl ha
  exact ⟨s,hs,hsc ▸ hc⟩

open LinearizerState in
/-- On the chain of a sole authority: a crash after the commits of the first and the third header
were flushed. -/
theorem scoring_survives_recovery_soleChain : ∃ st : LinearizerState soleContext,
    Reached (ackingChain fun _ => []) 0 5 st ∧
    st.output.map (fun d => d.leader) = [⟨1,0,0⟩,⟨3,0,0⟩] ∧
    DagState.storedIndex st.dag.store = 2 ∧
    ∃ s, DagState.new soleContext 0 5 st.dag.store = .ok s ∧
      Continues st (st.dag.lastCommitInfoIndex+1) s.lastCommitIndex s.scoringSubdag := by
  have h0 : Reached (ackingChain fun _ => []) 0 5 _ := .start rfl
  have h1 := Reached.chain (n := 0) h0 rfl rfl
  have h2 := Reached.chain (n := 1) h1 rfl rfl
  have h3 := Reached.chain (n := 2) h2 rfl rfl
  have h4 := h3.commit (.new .default)
    [ackingHeader (fun _ => []) 1,ackingHeader (fun _ => []) 3] (by decide)
    (forall_mem_cons.mpr ⟨rfl,forall_mem_singleton.mpr rfl⟩) rfl
  have h5 := h4.dag (show Permitted _ _ (.dag .flush) from ⟨trivial,trivial,trivial⟩) rfl
  exact ⟨_,h5,rfl,by decide +kernel,(scoring_survives_recovery h5).1⟩

end Iota.Starfish
