import Iota.Starfish.Linearizer.Run

/-! In every run of the linearizer each header is committed at most once, by a leader that has it in
its history, and for authors who build one chain nothing of the history is left out. -/
namespace Iota.Starfish
open BlockVerifier DagState Except Linearizer List Relation Universe
variable {ctx : Context} {U : Universe ctx}

namespace Linearizer
variable {l : Linearizer ctx} {s : DagState ctx} {leader : VerifiedBlockHeader}
  {scores : List (Nat × Nat)} {e : Panic}

def TraversalPanic (e : Panic) : Prop :=
  e = .headerTraversedTwice ∨ e = .uncommittedBlockMissing ∨ e = .outOfFuel

theorem expectHeaders_error {headers : List (Option VerifiedBlockHeader)}
    (h : expectHeaders headers = .error e) : e = .blockNotFound := by
  induction headers with
  | nil => cases h
  | cons header headers ih =>
    cases header with
    | none => exact (error.inj h).symm
    | some header =>
      cases hr : expectHeaders headers with
      | error e' =>
        rw [expectHeaders,hr] at h
        cases h
        exact ih hr
      | ok rest =>
        rw [expectHeaders,hr] at h
        cases h

theorem calculateCommitTimestamp_error (h : calculateCommitTimestamp s leader = .error e) :
    ¬TraversalPanic e := by
  rcases bind_eq_error.mp h with hp | ⟨parents,-,h⟩
  · rw [expectHeaders_error hp]
    simp [TraversalPanic]
  rcases bind_eq_error.mp h with hm | ⟨timestampMs,-,h⟩
  · simp only [medianTimestampByStake] at hm
    split at hm
    · cases hm
      simp [TraversalPanic]
    split at hm
    · cases hm
      simp [TraversalPanic]
    · cases hm
  · cases h

variable {headers : List VerifiedBlockHeader}

theorem addAcksOf_error (h : l.addAcksOf headers = .error e) : e = .sliceOutOfRange := by
  induction headers generalizing l with
  | nil => cases h
  | cons header headers ih =>
    rcases bind_eq_error.mp h with ha | ⟨acks,-,h⟩
    · unfold VerifiedBlockHeader.acknowledgments BlockHeader.acknowledgments at ha
      split at ha
      · cases ha
      · exact (error.inj ha).symm
    rcases bind_eq_error.mp h with hr | ⟨p,-,h⟩
    · exact ih hr
    · cases h

theorem genericTransactionRefs_error {committed : List BlockRef}
    (h : genericTransactionRefs s committed = .error e) : e = .committedHeaderMissing := by
  unfold genericTransactionRefs at h
  split at h
  · obtain ⟨p,-,hp⟩ := mapM_eq_error h
    split at hp
    · cases hp
    · exact (error.inj hp).symm
  · cases h

theorem addCommit_error {c : TrustedCommit} (h : s.addCommit c = .error e) : ¬TraversalPanic e := by
  unfold addCommit at h
  repeat' split at h
  all_goals
    cases h
    try simp [TraversalPanic]

theorem commitLeader_error
    (hl : linearizeSubDag s.getVerifiedBlockHeader (s.headerCount+1) s.lastCommittedRounds
      ctx.protocolConfig.gcDepth leader = .ok headers)
    (h : l.commitLeader s leader scores = .error e) : ¬TraversalPanic e := by
  rcases bind_eq_error.mp h with hc | ⟨p,-,h⟩
  · unfold collectSubDagAndCommit at hc
    rw [hl,ok_bind] at hc
    rcases bind_eq_error.mp hc with ht | ⟨timestampMs,-,h⟩
    · exact calculateCommitTimestamp_error ht
    rcases bind_eq_error.mp h with ha | ⟨p,-,h⟩
    · rw [addAcksOf_error ha]
      simp [TraversalPanic]
    dsimp only at h
    split at h
    · rcases bind_eq_error.mp h with hr | ⟨refs,-,h⟩
      · rw [genericTransactionRefs_error hr]
        simp [TraversalPanic]
      · cases h
    · cases h
      simp [TraversalPanic]
  · rcases bind_eq_error.mp h with had | ⟨s',-,h⟩
    · exact addCommit_error had
    · cases h

end Linearizer
namespace LinearizerState
variable {st st' : LinearizerState ctx} {before after : List PendingSubDag} {d : PendingSubDag}
  {leader x : VerifiedBlockHeader}

theorem mem_committedRefs {output : List PendingSubDag} {r : BlockRef} :
    r ∈ output.flatMap (fun d => d.committedHeaderRefs) ↔
      ∃ d ∈ output, r ∈ d.committedHeaderRefs :=
  mem_flatMap

theorem IsSubDag.round_le (hd : IsSubDag U before leader d) (hx : x ∈ d.headers) :
    x.round ≤ leader.round :=
  ((hd.mem_iff x).mp hx).reaches.round_le hd.leader_mem

theorem Inv.subDag_of_mem (hi : Inv U st) (hd : d ∈ st.output) :
    ∃ before after leader, st.output = before ++ d :: after ∧ IsSubDag U before leader d := by
  obtain ⟨before,after,heq⟩ := append_of_mem hd
  obtain ⟨leader,hs⟩ := hi.subDags before d after heq
  exact ⟨before,after,leader,heq,hs⟩

theorem Inv.committedRounds_lt (hi : Inv U st) (heq : st.output = before ++ d :: after)
    (hd : IsSubDag U before leader d) (a : Nat) : committedRounds before a < leader.round := by
  have hp := hd.pos
  rw [hd.leader_eq] at hp
  have hle : committedRounds before a ≤ leader.round - 1 := by
    refine highestRound_le_iff.mpr fun r hr _ => ?_
    obtain ⟨d',hd',hr⟩ := mem_committedRefs.mp hr
    obtain ⟨before',-,leader',-,hs⟩ := hi.subDag_of_mem <| by
      rw [heq]
      exact mem_append_left _ hd'
    rw [hs.refs_eq] at hr
    obtain ⟨x,hx,rfl⟩ := mem_map.mp hr
    have hrn := hs.round_le hx
    have ha := hd.above d' hd'
    rw [hs.leader_eq,hd.leader_eq] at ha
    exact Nat.le_sub_one_of_lt (lt_of_le_of_lt hrn ha)
  have hp' : 0 < leader.round := hp
  omega

theorem Inv.committedRounds_lt_of_mem (hi : Inv U st) (heq : st.output = before ++ d :: after)
    (hd : IsSubDag U before leader d) (hx : x ∈ d.headers) :
    committedRounds before x.author < x.round :=
  ((hd.mem_iff x).mp hx).rounds_lt (hi.committedRounds_lt heq hd _)

theorem Inv.not_mem_before (hi : Inv U st) (heq : st.output = before ++ d :: after)
    (hd : IsSubDag U before leader d) (hx : x ∈ d.headers) {d' : PendingSubDag} (hd' : d' ∈ before) :
    x.reference ∉ d'.committedHeaderRefs := by
  intro hm
  have hlt := hi.committedRounds_lt_of_mem heq hd hx
  have hle := highestRound_le_iff.mp (le_refl (committedRounds before x.author))
    x.reference (mem_committedRefs.mpr ⟨d',hd',hm⟩) rfl
  exact absurd hlt (Nat.not_lt.mpr hle)

theorem Inv.output_eq_append (hi : Inv U st) {c : TrustedCommit} (hc : st.dag.Logged c) :
    ∃ before d after leader, st.output = before ++ d :: after ∧ before.length+1 = c.index ∧
      Records c d ∧ IsSubDag U before leader d := by
  obtain ⟨d,hd,hr⟩ := hi.exists_output hc
  obtain ⟨hlt,hg⟩ := List.getElem?_eq_some_iff.mp hd
  have heq : st.output = st.output.take (c.index - 1) ++ d :: st.output.drop (c.index - 1 + 1) := by
    rw [← hg,cons_getElem_drop_succ,take_append_drop]
  obtain ⟨leader,hs⟩ := hi.subDags _ _ _ heq
  refine ⟨_,d,_,leader,heq,?_,hr,hs⟩
  have hp := hi.watermark.log.index_pos hc
  rw [length_take_of_le hlt.le]
  omega

theorem Inv.commit_eq (hi : Inv U st) {c c' : TrustedCommit} (hc : st.dag.Logged c)
    (hc' : st.dag.Logged c') {r : BlockRef} (hr : r ∈ c.blockHeaders) (hr' : r ∈ c'.blockHeaders) :
    c = c' := by
  have hne : ∀ {c c'}, st.dag.Logged c → st.dag.Logged c' → r ∈ c.blockHeaders →
      r ∈ c'.blockHeaders → ¬c'.index < c.index := by
    intro c c' hc hc' hr hr' hlt
    obtain ⟨before,d,after,leader,heq,hl,hrc,hs⟩ := hi.output_eq_append hc
    obtain ⟨d',hd',hrc'⟩ := hi.exists_output hc'
    have hp := hi.watermark.log.index_pos hc'
    have hm : d' ∈ before := by
      rw [heq,List.getElem?_append_left (by omega)] at hd'
      exact mem_of_getElem? hd'
    rw [← hrc.headers,hs.refs_eq] at hr
    obtain ⟨x,hx,rfl⟩ := mem_map.mp hr
    exact hi.not_mem_before heq hs hx hm (hrc'.headers ▸ hr')
  rcases Nat.lt_trichotomy c.index c'.index with hlt | heq | hlt
  · exact absurd hlt (hne hc' hc hr' hr)
  · exact hi.watermark.log.index_inj hc hc' heq
  · exact absurd hlt (hne hc hc' hr hr')

theorem Inv.headers_eq {U' : Universe ctx} (hi : Inv U st) (hi' : Inv U' st') {n : Nat}
    (hld : ∀ c c', st.dag.Logged c → st'.dag.Logged c' → c.index = c'.index → c.index ≤ n →
      c.leader = c'.leader)
    (hhs : ∀ c, st.dag.Logged c → c.index ≤ n → ∀ leader ∈ U, leader.reference = c.leader →
      ∀ x, U.Reaches leader x → x ∈ U')
    {c c' : TrustedCommit} (hc : st.dag.Logged c) (hc' : st'.dag.Logged c')
    (hin : c.index = c'.index) (hn : c.index ≤ n) : c.blockHeaders = c'.blockHeaders := by
  induction hm : c.index using Nat.strong_induction_on generalizing c c' with
  | _ m ih =>
    obtain ⟨before,d,after,leader,heq,hln,hr,hs⟩ := hi.output_eq_append hc
    obtain ⟨before',d',after',leader',heq',hl',hr',hs'⟩ := hi'.output_eq_append hc'
    -- what was committed before is the same on both sides
    have hrs : before.map (fun d => d.committedHeaderRefs) =
        before'.map (fun d => d.committedHeaderRefs) := by
      refine ext_getElem (by simp; omega) fun i hlt hlt' => ?_
      rw [length_map] at hlt hlt'
      rw [getElem_map,getElem_map]
      have hg : st.output[i]? = some before[i] := by
        rw [heq,List.getElem?_append_left hlt,List.getElem?_eq_getElem hlt]
      have hg' : st'.output[i]? = some before'[i] := by
        rw [heq',List.getElem?_append_left hlt',List.getElem?_eq_getElem hlt']
      obtain ⟨x,hx,hxi,hxr⟩ := hi.recorded i _ hg
      obtain ⟨y,hy,hyi,hyr⟩ := hi'.recorded i _ hg'
      rw [hxr.headers,hyr.headers]
      exact ih x.index (by omega) hx hy (by omega) (by omega) rfl
    have hrn : committedRounds before' = committedRounds before := by
      unfold committedRounds
      rw [flatMap_def,flatMap_def,hrs]
    have hrf : leader.reference = c.leader := hs.leader_eq.symm.trans hr.leader
    have hm' := hhs c hc hn leader hs.leader_mem hrf
    have hl : leader' = leader := by
      refine eq_of_reference_eq hs'.leader_mem (hm' leader .refl) ?_
      rw [hrf,hld c c' hc hc' hin hn,← hr'.leader,hs'.leader_eq]
    subst hl
    have hh := hs.linearized.unique hs.leader_mem hs.complete hm'
      (fun a _ => congrFun hrn a) hs'.linearized
    rw [← hr.headers,← hr'.headers,hs.refs_eq,hs'.refs_eq,hh]

end LinearizerState
open LinearizerState in
/-- In every run of the linearizer: no header is in two commits or twice in one, committed headers
are in the history of their leader and at most the depth below it, the traversal does not panic, and
the headers of a commit, with their order, depend on the leaders so far and their histories only. -/
theorem linearizer_commits_once {ownIndex cachedRounds : Nat} {st : LinearizerState ctx}
    (hst : Reached U ownIndex cachedRounds st) :
    (∀ c, st.dag.Logged c → c.blockHeaders.Nodup) ∧
    (∀ c c', st.dag.Logged c → st.dag.Logged c' → ∀ r ∈ c.blockHeaders, r ∈ c'.blockHeaders →
      c = c') ∧
    (∀ c, st.dag.Logged c → ∃ leader ∈ U, leader.reference = c.leader ∧
      ∀ r ∈ c.blockHeaders, ∃ x, x.reference = r ∧ U.Reaches leader x ∧
        leader.round - ctx.protocolConfig.gcDepth ≤ x.round ∧ x.round ≤ leader.round) ∧
    (∀ schedule leaders, Permitted U st (.getPendingSubDags schedule leaders) → ∀ e,
      st.exec (.getPendingSubDags schedule leaders) = .error e → ¬TraversalPanic e) ∧
    ∀ (U' : Universe ctx) (own' cached' : Nat) (st' : LinearizerState ctx) (n : Nat),
      Reached U' own' cached' st' →
      (∀ c c', st.dag.Logged c → st'.dag.Logged c' → c.index = c'.index → c.index ≤ n →
        c.leader = c'.leader) →
      (∀ c, st.dag.Logged c → c.index ≤ n → ∀ leader ∈ U, leader.reference = c.leader →
        ∀ x, U.Reaches leader x → x ∈ U') →
      ∀ c c', st.dag.Logged c → st'.dag.Logged c' → c.index = c'.index → c.index ≤ n →
        c.blockHeaders = c'.blockHeaders := by
  have hi := hst.inv
  refine ⟨?_,?_,?_,?_,?_⟩
  · intro c hc
    obtain ⟨before,d,after,leader,-,-,hrc,hs⟩ := hi.output_eq_append hc
    rw [← hrc.headers,hs.refs_eq]
    exact hs.nodup
  · exact fun c c' hc hc' r hr hr' => hi.commit_eq hc hc' hr hr'
  · intro c hc
    obtain ⟨before,d,after,leader,-,-,hrc,hs⟩ := hi.output_eq_append hc
    refine ⟨leader,hs.leader_mem,hs.leader_eq.symm.trans hrc.leader,fun r hr => ?_⟩
    rw [← hrc.headers,hs.refs_eq] at hr
    obtain ⟨x,hx,rfl⟩ := mem_map.mp hr
    have hsb := (hs.mem_iff x).mp hx
    exact ⟨x,rfl,hsb.reaches,hsb.lowest_le,hs.round_le hx⟩
  · intro schedule leaders hp e h
    obtain ⟨st1,leader,scores,hiv,hh,her⟩ := Inv.keptByCommits.getPendingSubDags_error hi hp h
    obtain ⟨headers,hln,-⟩ := linearizeSubDag_ok hiv.causal.view hh
    exact commitLeader_error hln her
  · intro U' own' cached' st' n hst' hl hhs c c' hc hc' hin hn
    exact hi.headers_eq hst'.inv hl hhs hc hc' hin hn

open LinearizerState in
/-- On the chain of a sole authority: after the first and the third header became leaders, every
header is in one commit. -/
theorem linearizer_commits_once_soleChain : ∃ st : LinearizerState soleContext,
    Reached (ackingChain fun _ => []) 0 5 st ∧
    st.output.map (fun d => d.committedHeaderRefs) = [[⟨1,0,0⟩],[⟨2,0,0⟩,⟨3,0,0⟩]] ∧
    ∀ c c', st.dag.Logged c → st.dag.Logged c' → ∀ r ∈ c.blockHeaders, r ∈ c'.blockHeaders →
      c = c' := by
  have h0 : Reached (ackingChain fun _ => []) 0 5 _ := .start rfl
  have h1 := Reached.chain (n := 0) h0 rfl rfl
  have h2 := Reached.chain (n := 1) h1 rfl rfl
  have h3 := Reached.chain (n := 2) h2 rfl rfl
  have h4 := h3.commit (.new .default)
    [ackingHeader (fun _ => []) 1,ackingHeader (fun _ => []) 3] (by decide)
    (forall_mem_cons.mpr ⟨rfl,forall_mem_singleton.mpr rfl⟩) rfl
  exact ⟨_,h4,rfl,(linearizer_commits_once h4).2.1⟩

namespace LinearizerState
variable {st : LinearizerState ctx}

/-- What is in the history of a leader and not too far below it was committed with the leader or
before, when authors build single chains. -/
theorem Inv.committed_of_reaches (hi : Inv U st) (hc : U.SingleChains)
    {before after : List PendingSubDag} {d : PendingSubDag} {leader : VerifiedBlockHeader}
    (heq : st.output = before ++ d :: after) (hd : IsSubDag U before leader d)
    {x : VerifiedBlockHeader} (hx : U.Reaches leader x) (hps : 0 < x.round)
    (hl : leader.round - ctx.protocolConfig.gcDepth ≤ x.round) :
    ∃ d' ∈ before ++ [d], x ∈ d'.headers := by
  induction hn : before.length using Nat.strong_induction_on
    generalizing before d after leader x with
  | _ n ih =>
    -- a header in the history of an earlier committed one is covered by the earlier leaders
    have he : ∀ d' ∈ before, ∀ y ∈ d'.headers, ∀ z, U.Reaches y z → 0 < z.round →
        leader.round - ctx.protocolConfig.gcDepth ≤ z.round → ∃ d'' ∈ before ++ [d], z ∈ d''.headers := by
      intro d' hd' y hy z hz hzp hzl
      obtain ⟨before',after',rfl⟩ := append_of_mem hd'
      have heq' : st.output = before' ++ d' :: (after' ++ d :: after) := by simpa using heq
      obtain ⟨leader',hs'⟩ := hi.subDags _ _ _ heq'
      have hab := hd.above d' hd'
      rw [hs'.leader_eq,hd.leader_eq] at hab
      have hlt : leader'.round < leader.round := hab
      obtain ⟨d'',hd'',hz''⟩ := ih before'.length (by rw [← hn]; simp) heq' hs'
        (((hs'.mem_iff y).mp hy).reaches.trans hz) hzp (by omega) rfl
      refine ⟨d'',?_,hz''⟩
      simp only [mem_append,mem_cons] at hd'' ⊢
      tauto
    induction hx with
    | refl => exact ⟨d,by simp,(hd.mem_iff leader).mpr .refl⟩
    | tail hy hp ihy =>
      rename_i y z
      have hzy := hp.round_lt (Reaches.mem hy hd.leader_mem)
      obtain ⟨d',hd',hyd'⟩ := ihy (by omega) (by omega)
      rcases mem_append.mp hd' with hol | hnw
      · exact he d' hol y hyd' z (.single hp) hps hl
      obtain rfl := mem_singleton.mp hnw
      by_cases ho : committedRounds before z.author < z.round
      · exact ⟨d',by simp,(hd.mem_iff z).mpr (((hd.mem_iff y).mp hyd').tail ⟨hp,ho,hl⟩)⟩
      -- a committed header of the author, at this round or later, has it in its history
      obtain ⟨r,hr,hat,hrn⟩ : ∃ r ∈ before.flatMap (fun d => d.committedHeaderRefs),
          r.author = z.author ∧ z.round ≤ r.round := by
        by_contra hnn
        push Not at hnn
        have hle : committedRounds before z.author ≤ z.round - 1 :=
          highestRound_le_iff.mpr fun r hr ha =>
            Nat.le_sub_one_of_lt (hnn r hr ha)
        omega
      obtain ⟨d'',hd'',hrd⟩ := mem_committedRefs.mp hr
      obtain ⟨_,_,leader'',-,hs''⟩ := hi.subDag_of_mem <| by
        rw [heq]
        exact mem_append_left _ hd''
      rw [hs''.refs_eq] at hrd
      obtain ⟨w,hw,rfl⟩ := mem_map.mp hrd
      have hwU : w ∈ U := ((hs''.mem_iff w).mp hw).reaches.mem hs''.leader_mem
      exact he d'' hd'' w hw z (hc.reaches hwU hp.1 hat hrn) hps hl

end LinearizerState
open LinearizerState in
/-- When every author builds a single chain, each header above genesis in the history of a committed
leader, and at most the depth below it, is in the commit of the leader or in an earlier one. -/
theorem linearizer_commits_history {ownIndex cachedRounds : Nat} {st : LinearizerState ctx}
    (hchains : U.SingleChains) (hst : Reached U ownIndex cachedRounds st) {c : TrustedCommit}
    (hc : st.dag.Logged c) {leader x : VerifiedBlockHeader} (hleader : leader ∈ U)
    (href : leader.reference = c.leader) (hx : U.Reaches leader x) (hpos : 0 < x.round)
    (hlow : leader.round - ctx.protocolConfig.gcDepth ≤ x.round) :
    ∃ c', st.dag.Logged c' ∧ c'.index ≤ c.index ∧ x.reference ∈ c'.blockHeaders := by
  have hi := hst.inv
  obtain ⟨before,d,after,leader',heq,hl,hr,hs⟩ := hi.output_eq_append hc
  have hsm : leader' = leader :=
    eq_of_reference_eq hs.leader_mem hleader (by rw [href,← hr.leader,hs.leader_eq])
  subst hsm
  obtain ⟨d',hd',hxd⟩ := hi.committed_of_reaches hchains heq hs hx hpos hlow
  obtain ⟨i,hi'⟩ := mem_iff_getElem?.mp hd'
  have hlt := (List.getElem?_eq_some_iff.mp hi').1
  have hg : st.output[i]? = some d' := by
    rw [heq,← singleton_append,← append_assoc,List.getElem?_append_left hlt]
    exact hi'
  obtain ⟨c',hc',hin,hr'⟩ := hi.recorded i d' hg
  refine ⟨c',hc',?_,?_⟩
  · rw [length_append,length_singleton] at hlt
    omega
  obtain ⟨_,_,_,-,hs'⟩ := hi.subDag_of_mem (mem_of_getElem? hg)
  rw [← hr'.headers,hs'.refs_eq]
  exact mem_map_of_mem hxd

open LinearizerState in
/-- On the chain of a sole authority: the second header is committed with the third. -/
theorem linearizer_commits_history_soleChain : ∃ st : LinearizerState soleContext,
    Reached (ackingChain fun _ => []) 0 5 st ∧ st.dag.lastCommitRound = 3 ∧
    ∃ c, st.dag.Logged c ∧ c.leader = ⟨3,0,0⟩ ∧
      ∃ c', st.dag.Logged c' ∧ c'.index ≤ c.index ∧ ⟨2,0,0⟩ ∈ c'.blockHeaders := by
  have h0 : Reached (ackingChain fun _ => []) 0 5 _ := .start rfl
  have h1 := Reached.chain (n := 0) h0 rfl rfl
  have h2 := Reached.chain (n := 1) h1 rfl rfl
  have h3 := Reached.chain (n := 2) h2 rfl rfl
  have h4 := h3.commit (.new .default)
    [ackingHeader (fun _ => []) 1,ackingHeader (fun _ => []) 3] (by decide)
    (forall_mem_cons.mpr ⟨rfl,forall_mem_singleton.mpr rfl⟩) rfl
  have hl := h4.inv.watermark.log.last_logged rfl
  have hs : (ackingChain fun _ => []).Reaches (ackingHeader (fun _ => []) 3)
      (ackingHeader (fun _ => []) 2) :=
    .single ⟨ackingHeader_mem 2,mem_singleton.mpr (ackingHeader_reference _ 2)⟩
  exact ⟨_,h4,rfl,_,hl,rfl,linearizer_commits_history ackingChain_singleChains h4 hl
    (ackingHeader_mem 3) rfl hs (by decide) (by decide)⟩

end Iota.Starfish
