import Iota.Starfish.DagState.Causal
import Iota.Starfish.DagState.Watermark
import Iota.Starfish.Linearizer.SubDag

/-! The linearizer with the DAG state it reads and the sub-dags it has put out. In every run the
sub-dags are those of their leaders over what was committed before. -/
namespace Iota.Starfish
open BlockVerifier DagState Except Linearizer List Universe
variable {ctx : Context} {U : Universe ctx} {headers : List VerifiedBlockHeader}

namespace Linearizer
variable {l l' : Linearizer ctx} {s s' : DagState ctx} {leader : VerifiedBlockHeader}
  {scores : List (Nat × Nat)} {subDag : PendingSubDag}

structure Collected (l : Linearizer ctx) (s : DagState ctx) (leader : VerifiedBlockHeader)
    (headers : List VerifiedBlockHeader) (timestampMs : Nat) (committed : List BlockRef)
    (refs : List GenericTransactionRef) (l' : Linearizer ctx) : Prop where
  linearized : linearizeSubDag s.getVerifiedBlockHeader (s.headerCount+1) s.lastCommittedRounds
    ctx.protocolConfig.gcDepth leader = .ok headers
  timestamp : calculateCommitTimestamp s leader = .ok timestampMs
  acks : (l.recordTraversedHeaders headers).addAcksOf headers = .ok (committed,l')
  nodup : committed.Nodup
  refs_eq : genericTransactionRefs s committed = .ok refs

theorem collectSubDagAndCommit_cases {commit : TrustedCommit}
    (h : l.collectSubDagAndCommit s leader scores = .ok (subDag,commit,l')) :
    ∃ headers timestampMs committed refs,
      Collected l s leader headers timestampMs committed refs l' ∧
      commit = newCommit s leader headers timestampMs refs scores ∧
      subDag = newSubDag commit headers scores := by
  obtain ⟨headers,hh,h⟩ := of_bind h
  obtain ⟨timestampMs,ht,h⟩ := of_bind h
  obtain ⟨⟨committed,l1⟩,ha,h⟩ := of_bind h
  dsimp only at h
  split at h
  · next hn =>
    obtain ⟨refs,hr,h⟩ := of_bind h
    cases h
    exact ⟨headers,timestampMs,committed,refs,⟨hh,ht,ha,hn,hr⟩,rfl,rfl⟩
  · cases h

theorem commitLeader_cases (h : l.commitLeader s leader scores = .ok (subDag,l',s')) :
    ∃ headers timestampMs committed refs,
      Collected l s leader headers timestampMs committed refs l' ∧
      subDag = newSubDag (newCommit s leader headers timestampMs refs scores) headers scores ∧
      s.addCommit (newCommit s leader headers timestampMs refs scores) = .ok s' ∧
      s' = s.appendCommit (newCommit s leader headers timestampMs refs scores) := by
  obtain ⟨⟨subDag',commit,l1⟩,hcl,h⟩ := of_bind h
  obtain ⟨s1,ha,h⟩ := of_bind h
  cases h
  obtain ⟨headers,timestampMs,committed,refs,hc,rfl,rfl⟩ := collectSubDagAndCommit_cases hcl
  refine ⟨headers,timestampMs,committed,refs,hc,rfl,ha,?_⟩
  rcases addCommit_cases ha with ⟨-,hle⟩ | ⟨-,-,heq⟩
  · -- the index of the new commit is above the last one
    have hi : s.lastCommitIndex+1 ≤ s.lastCommitIndex := hle
    omega
  · exact heq

theorem lastCommitRound_lt (hp : 0 < leader.round)
    {timestampMs : Nat} {refs : List GenericTransactionRef}
    (h : s.addCommit (newCommit s leader headers timestampMs refs scores) = .ok s') :
    s.lastCommitRound < leader.round := by
  rcases addCommit_cases h with ⟨-,hle⟩ | ⟨-,hr,-⟩
  · have hi : s.lastCommitIndex+1 ≤ s.lastCommitIndex := hle
    omega
  unfold lastCommitRound
  cases hl : s.lastCommit with
  | none => exact hp
  | some last => exact hr last hl

section Leaders
variable (inv : Linearizer ctx → DagState ctx → List PendingSubDag → Prop)
  {leaders : List VerifiedBlockHeader}
  (hstep : ∀ l s output leader scores subDag l' s', leader ∈ leaders → inv l s output →
    l.commitLeader s leader scores = .ok (subDag,l',s') → inv l' s' (output ++ [subDag]))
  {output subDags : List PendingSubDag} (hinv : inv l s output)

include hstep hinv

theorem commitLeaders_inv (h : commitLeaders l s scores leaders = .ok (subDags,l',s')) :
    inv l' s' (output ++ subDags) := by
  induction leaders generalizing l s scores output subDags with
  | nil =>
    cases h
    rwa [append_nil]
  | cons leader rest ih =>
    obtain ⟨⟨subDag,l1,s1⟩,hc,h⟩ := of_bind h
    obtain ⟨⟨others,l2,s2⟩,hr,h⟩ := of_bind h
    cases h
    have ho := hstep l s output leader scores subDag l1 s1 mem_cons_self hinv hc
    have hot := ih (fun l s output leader scores subDag l' s' hm =>
      hstep l s output leader scores subDag l' s' (.tail _ hm)) ho hr
    rwa [append_assoc] at hot

theorem commitLeaders_error {e : Panic} (h : commitLeaders l s scores leaders = .error e) :
    ∃ l1 s1 output₁ scores₁, ∃ leader ∈ leaders, inv l1 s1 output₁ ∧
      l1.commitLeader s1 leader scores₁ = .error e := by
  induction leaders generalizing l s scores output with
  | nil => cases h
  | cons leader rest ih =>
    rcases bind_eq_error.mp h with hc | ⟨⟨subDag,l1,s1⟩,hc,h⟩
    · exact ⟨l,s,output,scores,leader,mem_cons_self,hinv,hc⟩
    rcases bind_eq_error.mp h with hr | ⟨p,-,h⟩
    · have ho := hstep l s output leader scores subDag l1 s1 mem_cons_self hinv hc
      obtain ⟨l2,s2,output₂,scores₂,leader₂,hm,hr⟩ := ih (fun l s output leader scores
        subDag l' s' hm => hstep l s output leader scores subDag l' s' (.tail _ hm)) ho hr
      exact ⟨l2,s2,output₂,scores₂,leader₂,mem_cons_of_mem _ hm,hr⟩
    · cases h

end Leaders
end Linearizer

/-- The linearizer with the DAG state it works on and the sub-dags of the commits so far. -/
structure LinearizerState (ctx : Context) where
  dag : DagState ctx
  linearizer : Linearizer ctx
  output : List PendingSubDag

inductive LinearizerOp
  | dag (op : DagOp)
  | getPendingSubDags (schedule : LeaderSchedule) (leaders : List VerifiedBlockHeader)
  | evictLinearizer (solidCommitLeaderRound : Nat)
  | restart (refOrder : HashOrder BlockRef) (slotOrder : HashOrder Slot)

/-- The changes of a DAG state besides commits, recovery and the steps of a fast sync. -/
def DagOp.Ordinary : DagOp → Prop
  | .addCommit _ | .setFastSyncOngoingFlag _ | .reinitializeCaches | .restart => False
  | _ => True

namespace LinearizerState

/-- A restart builds DAG state and trackers from the store; what was not flushed is lost. -/
def exec (st : LinearizerState ctx) : LinearizerOp → Except Panic (LinearizerState ctx)
  | .dag op => do
    let dag ← st.dag.exec op
    .ok { st with dag := dag }
  | .getPendingSubDags schedule leaders => do
    let (subDags,linearizer,dag) ← st.linearizer.getPendingSubDags schedule st.dag leaders
    .ok ⟨dag,linearizer,st.output ++ subDags⟩
  | .evictLinearizer round => .ok { st with linearizer := st.linearizer.evictLinearizer round }
  | .restart refOrder slotOrder => do
    let dag ← new ctx st.dag.ownIndex st.dag.cachedRounds st.dag.store
    let linearizer ← recoverState refOrder slotOrder dag.store dag.lastCommitIndex
    .ok ⟨dag,linearizer,st.output.take dag.lastCommitIndex⟩

def Initial (ownIndex cachedRounds : Nat) (st : LinearizerState ctx) : Prop :=
  DagState.Initial ownIndex cachedRounds st.dag ∧ st.linearizer = .new ∧ st.output = []

/-- What the callers of the linearizer guarantee: the DAG state stays causally complete, the leaders
are held and come in increasing rounds, trackers are evicted for leaders already committed. -/
def Permitted (U : Universe ctx) (st : LinearizerState ctx) : LinearizerOp → Prop
  | .dag op => op.Ordinary ∧ Causal U st.dag op ∧ Recoverable st.dag op
  | .getPendingSubDags _ leaders =>
    (st.dag.lastCommitRound :: leaders.map VerifiedBlockHeader.round).Pairwise (· < ·) ∧
      ∀ leader ∈ leaders, st.dag.getVerifiedBlockHeader leader.reference = some leader
  | .evictLinearizer round => round ≤ st.dag.lastCommitRound
  | .restart _ _ => True

def committedRounds (output : List PendingSubDag) : Nat → Nat :=
  highestRound (output.flatMap fun d => d.committedHeaderRefs)

/-- `d` is the sub-dag of `leader` over what was committed `before`. -/
structure IsSubDag (U : Universe ctx) (before : List PendingSubDag) (leader : VerifiedBlockHeader)
    (d : PendingSubDag) : Prop where
  leader_mem : leader ∈ U
  complete : U.Complete leader
  leader_eq : d.leader = leader.reference
  refs_eq : d.committedHeaderRefs = d.headers.map VerifiedBlockHeader.reference
  nodup : (d.headers.map VerifiedBlockHeader.reference).Nodup
  mem_iff : ∀ x, x ∈ d.headers ↔
    U.SubDag (committedRounds before) ctx.protocolConfig.gcDepth leader x
  linearized : Linearized U (committedRounds before) leader d.headers
  pos : 0 < d.leader.round
  above : ∀ d' ∈ before, d'.leader.round < d.leader.round

structure Records (c : TrustedCommit) (d : PendingSubDag) : Prop where
  reference : d.commitRef = c.reference
  leader : d.leader = c.leader
  headers : d.committedHeaderRefs = c.blockHeaders
  transactions : d.committedTransactionRefs = c.committedTransactions
  timestamp : d.timestampMs = c.timestampMs

/-- What holds in every run: the DAG state is causally complete with the right committed rounds, and
the sub-dags are those of the commits. -/
structure Inv (U : Universe ctx) (st : LinearizerState ctx) : Prop where
  causal : CausalInv U st.dag
  watermark : WatermarkInv st.dag
  noFastSync : st.dag.store.fastSyncOngoing = false
  noFlag : st.dag.fastSyncOngoingFlagToWrite = none
  length_eq : st.output.length = st.dag.lastCommitIndex
  recorded : ∀ i d, st.output[i]? = some d → ∃ c, st.dag.Logged c ∧ c.index = i+1 ∧ Records c d
  subDags : ∀ before d after, st.output = before ++ d :: after →
    ∃ leader, IsSubDag U before leader d

variable {st st' : LinearizerState ctx}

theorem Inv.exists_output (hi : Inv U st) {c : TrustedCommit} (hc : st.dag.Logged c) :
    ∃ d, st.output[c.index - 1]? = some d ∧ Records c d := by
  have hp := hi.watermark.log.index_pos hc
  have hle := hi.watermark.log.index_le_last hc
  have hlt : c.index - 1 < st.output.length := by rw [hi.length_eq]; omega
  obtain ⟨c',hc',hin,hr⟩ := hi.recorded _ _ (List.getElem?_eq_getElem hlt)
  have heq : c' = c := hi.watermark.log.index_inj hc' hc (by omega)
  exact ⟨_,List.getElem?_eq_getElem hlt,heq ▸ hr⟩

theorem Inv.exists_commit (hi : Inv U st) {d : PendingSubDag} (hd : d ∈ st.output) :
    ∃ c, st.dag.Logged c ∧ Records c d := by
  obtain ⟨i,hi'⟩ := mem_iff_getElem?.mp hd
  obtain ⟨c,hc,-,hr⟩ := hi.recorded i d hi'
  exact ⟨c,hc,hr⟩

theorem Inv.rounds_eq (hi : Inv U st) {a : Nat} (ha : a < ctx.committee.size) :
    st.dag.lastCommittedRounds a = committedRounds st.output a := by
  refine hi.watermark.rounds.eq_highestRound (fun r => ?_) ha
  rw [mem_flatMap]
  constructor
  · rintro ⟨d,hd,hr⟩
    obtain ⟨c,hc,hrc⟩ := hi.exists_commit hd
    exact ⟨c,hc,hrc.headers ▸ hr⟩
  rintro ⟨c,hc,hr⟩
  obtain ⟨d,hd,hrc⟩ := hi.exists_output hc
  exact ⟨d,mem_of_getElem? hd,hrc.headers ▸ hr⟩

theorem Inv.leader_le (hi : Inv U st) {d : PendingSubDag} (hd : d ∈ st.output) :
    d.leader.round ≤ st.dag.lastCommitRound := by
  obtain ⟨c,hc,hr⟩ := hi.exists_commit hd
  rw [hr.leader]
  exact hi.watermark.log.round_le_last hc

theorem Inv.isSubDag (hi : Inv U st) {leader : VerifiedBlockHeader}
    (hh : st.dag.getVerifiedBlockHeader leader.reference = some leader)
    (hrn : st.dag.lastCommitRound < leader.round)
    (hl : linearizeSubDag st.dag.getVerifiedBlockHeader (st.dag.headerCount+1)
      st.dag.lastCommittedRounds ctx.protocolConfig.gcDepth leader = .ok headers)
    (timestampMs : Nat) (refs : List GenericTransactionRef) (scores : List (Nat × Nat)) :
    IsSubDag U st.output leader
      (newSubDag (newCommit st.dag leader headers timestampMs refs scores) headers scores) := by
  have hv := hi.causal.view
  have hm := hv.mem hh
  have hc := hv.complete hh
  have hr : ∀ a < ctx.committee.size,
      committedRounds st.output a = st.dag.lastCommittedRounds a := fun a ha => (hi.rounds_eq ha).symm
  obtain ⟨headers',hok,hn,hif⟩ := linearizeSubDag_ok hv hh
  cases hl.symm.trans hok
  constructor
  · exact hm
  · exact hc
  · rfl
  · rfl
  · exact hn
  · intro x
    refine (hif x).trans ⟨?_,?_⟩
    · exact SubDag.congr_rounds hr
    · exact SubDag.congr_rounds fun a ha => (hr a ha).symm
  · refine ⟨st.dag.headerCount+1,?_⟩
    rw [linearizeSubDag_congr hm hc (fun x => hv.get_of_reaches hh) (fun x hx => hx.mem hm) hr]
    exact hl
  · exact Nat.zero_lt_of_lt hrn
  · intro d hd
    exact lt_of_le_of_lt (hi.leader_le hd) hrn

theorem eq_append_singleton {before after output : List PendingSubDag} {d d' : PendingSubDag}
    (h : output ++ [d] = before ++ d' :: after) :
    (before = output ∧ d' = d) ∨ ∃ rest, output = before ++ d' :: rest := by
  rcases eq_nil_or_concat after with rfl | ⟨rest,x,rfl⟩
  · obtain ⟨h1,h2⟩ := append_inj' h rfl
    cases h2
    exact .inl ⟨h1.symm,rfl⟩
  have h' : output ++ [d] = before ++ d' :: rest ++ [x] := by simpa using h
  obtain ⟨h1,-⟩ := append_inj' h' rfl
  exact .inr ⟨rest,h1⟩

variable {s' : DagState ctx} {l' : Linearizer ctx}

theorem Inv.commitLeader (hi : Inv U st) {leader : VerifiedBlockHeader} {scores : List (Nat × Nat)}
    (hh : st.dag.getVerifiedBlockHeader leader.reference = some leader)
    (hp : 0 < leader.round) {subDag : PendingSubDag}
    (h : st.linearizer.commitLeader st.dag leader scores = .ok (subDag,l',s')) :
    Inv U ⟨s',l',st.output ++ [subDag]⟩ := by
  obtain ⟨headers,timestampMs,committed,refs,hc,rfl,ha,rfl⟩ := commitLeader_cases h
  have hs := hi.isSubDag hh (lastCommitRound_lt hp ha) hc.linearized timestampMs refs scores
  constructor
  · refine hi.causal.addCommit (fun r hr => ?_) ha
    obtain ⟨x,hx,rfl⟩ := mem_map.mp hr
    exact ((hs.mem_iff x).mp hx).reaches.round_le hs.leader_mem
  · exact hi.watermark.addCommit ha
  · exact hi.noFastSync
  · exact hi.noFlag
  · rw [length_append,hi.length_eq]
    rfl
  · intro i d hd
    by_cases hlt : i < st.output.length
    · rw [List.getElem?_append_left hlt] at hd
      obtain ⟨c,hc,hrs⟩ := hi.recorded i d hd
      exact ⟨c,logged_appendCommit.mpr (.inl hc),hrs⟩
    have hi' : i = st.output.length := by
      have hl := (List.getElem?_eq_some_iff.mp hd).1
      rw [length_append,length_singleton] at hl
      omega
    subst hi'
    rw [List.getElem?_concat_length] at hd
    cases hd
    refine ⟨_,logged_appendCommit.mpr (.inr rfl),?_,⟨rfl,rfl,rfl,rfl,rfl⟩⟩
    exact congrArg (· + 1) hi.length_eq.symm
  · intro before d after heq
    rcases eq_append_singleton heq with ⟨rfl,rfl⟩ | ⟨rest,ho⟩
    · exact ⟨leader,hs⟩
    · exact hi.subDags before d rest ho

theorem Permitted.round_pos {schedule : LeaderSchedule} {leaders : List VerifiedBlockHeader}
    (hp : Permitted U st (.getPendingSubDags schedule leaders)) :
    ∀ leader ∈ leaders, 0 < leader.round := by
  intro leader hl
  have hlt := (pairwise_cons.mp hp.1).1 _ (mem_map_of_mem hl)
  omega

/-- What is kept when a held leader above genesis is committed. -/
def KeptByCommits (inv : LinearizerState ctx → Prop) : Prop :=
  ∀ st leader scores subDag l' s', inv st →
    st.dag.getVerifiedBlockHeader leader.reference = some leader → 0 < leader.round →
    st.linearizer.commitLeader st.dag leader scores = .ok (subDag,l',s') →
    inv ⟨s',l',st.output ++ [subDag]⟩

section Call
variable {inv : LinearizerState ctx → Prop} (hkept : KeptByCommits inv)
  {schedule : LeaderSchedule} {leaders : List VerifiedBlockHeader}

include hkept

theorem KeptByCommits.held (hp : ∀ leader ∈ leaders, 0 < leader.round) (l : Linearizer ctx)
    (s : DagState ctx) (output : List PendingSubDag) (leader : VerifiedBlockHeader)
    (scores : List (Nat × Nat)) (subDag : PendingSubDag) (l' : Linearizer ctx) (s' : DagState ctx)
    (hm : leader ∈ leaders)
    (hinv : inv ⟨s,l,output⟩ ∧
      ∀ leader ∈ leaders, s.getVerifiedBlockHeader leader.reference = some leader)
    (hc : l.commitLeader s leader scores = .ok (subDag,l',s')) :
    inv ⟨s',l',output ++ [subDag]⟩ ∧
      ∀ leader ∈ leaders, s'.getVerifiedBlockHeader leader.reference = some leader := by
  refine ⟨hkept ⟨s,l,output⟩ leader scores subDag l' s' hinv.1 (hinv.2 leader hm)
    (hp leader hm) hc,?_⟩
  obtain ⟨headers,-,-,-,-,-,-,rfl⟩ := commitLeader_cases hc
  exact hinv.2

theorem KeptByCommits.getPendingSubDags (hinv : inv st)
    (hp : Permitted U st (.getPendingSubDags schedule leaders))
    (h : st.exec (.getPendingSubDags schedule leaders) = .ok st') : inv st' := by
  obtain ⟨⟨subDags,l',s'⟩,hg,h⟩ := of_bind h
  cases h
  exact (commitLeaders_inv _ (hkept.held hp.round_pos) ⟨hinv,hp.2⟩ hg).1

theorem KeptByCommits.getPendingSubDags_error (hinv : inv st)
    (hp : Permitted U st (.getPendingSubDags schedule leaders)) {e : Panic}
    (h : st.exec (.getPendingSubDags schedule leaders) = .error e) :
    ∃ st1 leader scores, inv st1 ∧
      st1.dag.getVerifiedBlockHeader leader.reference = some leader ∧
      st1.linearizer.commitLeader st1.dag leader scores = .error e := by
  rcases bind_eq_error.mp h with hg | ⟨p,-,h⟩
  · obtain ⟨l,s,output,scores,leader,hm,⟨hinv,hh⟩,her⟩ :=
      commitLeaders_error _ (hkept.held hp.round_pos) ⟨hinv,hp.2⟩ hg
    exact ⟨⟨s,l,output⟩,leader,scores,hinv,hh leader hm,her⟩
  · cases h

end Call

theorem Inv.keptByCommits : KeptByCommits (Inv U) :=
  fun _ _ _ _ _ _ hi hh hp h => hi.commitLeader hh hp h

theorem flush_same {s : DagState ctx} (hl : CommitLog s)
    (hf : s.fastSyncOngoingFlagToWrite = none) :
    s.flush.lastCommit = s.lastCommit ∧ (∀ c, s.flush.Logged c ↔ s.Logged c) ∧
      s.flush.store.fastSyncOngoing = s.store.fastSyncOngoing ∧
      s.flush.fastSyncOngoingFlagToWrite = none := by
  rcases flush_cases s with heq | hp
  · rw [heq]
    exact ⟨rfl,fun _ => Iff.rfl,rfl,hf⟩
  have hc := (congrArg HeaderPart.toCommitPart hp).trans (commitPart_evictHeaders s.writeBuffers)
  have hs : s.flush.store = s.writeBuffers.store := congrArg CommitPart.store hc
  refine ⟨congrArg CommitPart.lastCommit hc,
    fun c => (logged_congr hc).trans hl.logged_writeBuffers,?_,?_⟩
  · rw [hs]
    show (s.fastSyncOngoingFlagToWrite).getD s.store.fastSyncOngoing = _
    rw [hf]
    rfl
  unfold flush
  split
  · exact hf
  · exact proj_foldl fastSyncOngoingFlagToWrite
      (f := evictHeadersOf) (fun _ _ => rfl) _ s.writeBuffers

theorem ordinary_exec {s s' : DagState ctx} {op : DagOp} (hop : op.Ordinary)
    (hl : CommitLog s) (hf : s.fastSyncOngoingFlagToWrite = none) (h : s.exec op = .ok s') :
    s'.lastCommit = s.lastCommit ∧ (∀ c, s'.Logged c ↔ s.Logged c) ∧
      s'.store.fastSyncOngoing = s.store.fastSyncOngoing ∧
      s'.fastSyncOngoingFlagToWrite = none := by
  have hs : s'.commitPart = s.commitPart →
      s'.fastSyncOngoingFlagToWrite = s.fastSyncOngoingFlagToWrite →
      s'.lastCommit = s.lastCommit ∧ (∀ c, s'.Logged c ↔ s.Logged c) ∧
        s'.store.fastSyncOngoing = s.store.fastSyncOngoing ∧
        s'.fastSyncOngoingFlagToWrite = none := by
    intro hp hf'
    have hst : s'.store = s.store := congrArg CommitPart.store hp
    exact ⟨congrArg CommitPart.lastCommit hp,fun c => logged_congr hp,
      congrArg Store.fastSyncOngoing hst,hf'.trans hf⟩
  have hw : s'.withoutTransactions = s.withoutTransactions → _ := fun heq =>
    hs (congrArg HeaderPart.toCommitPart (headerPart_eq heq)) <| by
      have hfl : s'.withoutTransactions.fastSyncOngoingFlagToWrite =
          s.withoutTransactions.fastSyncOngoingFlagToWrite := by rw [heq]
      exact hfl
  cases op with
  | acceptBlockHeader header =>
    refine hs (commitPart_acceptBlockHeader h) ?_
    rcases acceptBlockHeader_cases h with rfl | ⟨-,rfl⟩
    · rfl
    · rfl
  | addTransactions t source =>
    cases h
    exact hw (s.withoutTransactions_addTransactions t source)
  | addScoringSubdags subdags =>
    obtain ⟨scoring,-,rfl⟩ := map_eq_ok.mp h
    exact hs rfl rfl
  | persistScores scores =>
    obtain ⟨last,-,rfl⟩ := addCommitInfo_cases h
    exact ⟨rfl,fun c => Iff.rfl,rfl,hf⟩
  | updateLastSolidSubdagBase base =>
    cases h
    exact hs rfl rfl
  | updatePendingCommitVotes refs =>
    cases h
    exact hw rfl
  | takeCommitVotes limit =>
    cases h
    exact hw rfl
  | takeAcknowledgments limit =>
    cases h
    exact hw (s.withoutTransactions_takeAcknowledgments limit)
  | flush =>
    cases h
    exact flush_same hl hf
  | addCommit _ => exact hop.elim
  | setFastSyncOngoingFlag _ => exact hop.elim
  | reinitializeCaches => exact hop.elim
  | restart => exact hop.elim

theorem Inv.of_dag (hi : Inv U st) (hcs : CausalInv U s')
    (hw : WatermarkInv s') (hl : s'.lastCommit = st.dag.lastCommit)
    (hlg : ∀ c, s'.Logged c ↔ st.dag.Logged c)
    (hf : s'.store.fastSyncOngoing = st.dag.store.fastSyncOngoing)
    (hn : s'.fastSyncOngoingFlagToWrite = none) : Inv U { st with dag := s' } := by
  constructor
  · exact hcs
  · exact hw
  · exact hf.trans hi.noFastSync
  · exact hn
  · show st.output.length = s'.lastCommitIndex
    unfold lastCommitIndex
    rw [hl]
    exact hi.length_eq
  · intro i d hd
    obtain ⟨c,hc,hr⟩ := hi.recorded i d hd
    exact ⟨c,(hlg c).mpr hc,hr⟩
  · exact hi.subDags

theorem Inv.restart (hi : Inv U st) (l' : Linearizer ctx)
    (h : new ctx st.dag.ownIndex st.dag.cachedRounds st.dag.store = .ok s') :
    Inv U ⟨s',l',st.output.take s'.lastCommitIndex⟩ := by
  obtain ⟨scoring,hp⟩ := commitPart_new h
  have hs : s'.store = st.dag.store := congrArg CommitPart.store hp
  have hl' := hi.watermark.log.restart h
  have ho : ∀ {c}, s'.Logged c → st.dag.Logged c := fun hc => .inl ((logged_new h).mp hc)
  have hle : s'.lastCommitIndex ≤ st.output.length := by
    rw [hi.length_eq,lastCommitIndex]
    cases hl : s'.lastCommit with
    | none => exact Nat.zero_le _
    | some c => exact hi.watermark.log.index_le_last (ho (hl'.last_logged hl))
  constructor
  · exact hi.causal.restart h
  · exact hi.watermark.restart (.inl hi.noFastSync) h
  · show s'.store.fastSyncOngoing = false
    rw [hs]
    exact hi.noFastSync
  · exact fastSyncOngoingFlagToWrite_new h
  · exact length_take_of_le hle
  · intro i d hd
    rw [List.getElem?_take] at hd
    split at hd
    · next hlt =>
      obtain ⟨c,hc,hin,hr⟩ := hi.recorded i d hd
      obtain ⟨c',hc',hi'⟩ := hl'.exists_index (Nat.succ_pos i) hlt
      have heq : c' = c := hi.watermark.log.index_inj (ho hc') hc (by omega)
      exact ⟨c,heq ▸ hc',hin,hr⟩
    · cases hd
  · intro before d after heq
    refine hi.subDags before d (after ++ st.output.drop s'.lastCommitIndex) ?_
    rw [← cons_append,← append_assoc,← heq,take_append_drop]

variable {ownIndex cachedRounds : Nat}

theorem Inv.initial (h : Initial ownIndex cachedRounds st) : Inv U st := by
  obtain ⟨hdg,-,ho⟩ := h
  have hlg := (CommitLog.empty ctx).restart hdg
  have hn : ∀ c, ¬st.dag.Logged c := by
    intro c hc
    obtain ⟨k,hk⟩ := (logged_new hdg).mp hc
    simp [Store.empty] at hk
  have hi : st.dag.lastCommitIndex = 0 := by
    unfold lastCommitIndex
    cases hl : st.dag.lastCommit with
    | none => rfl
    | some c => exact absurd (hlg.last_logged hl) (hn c)
  obtain ⟨scoring,hp⟩ := commitPart_new hdg
  constructor
  · exact CausalInv.initial U hdg
  · exact WatermarkInv.initial hdg
  · rw [show st.dag.store = .empty from congrArg CommitPart.store hp]
    rfl
  · exact fastSyncOngoingFlagToWrite_new hdg
  · rw [ho,hi]
    rfl
  · intro i d hd
    rw [ho] at hd
    cases hd
  intro before d after heq
  rw [ho] at heq
  exact absurd heq.symm (by simp)

theorem Inv.exec (hi : Inv U st) {op : LinearizerOp} (hop : Permitted U st op)
    (h : st.exec op = .ok st') : Inv U st' := by
  cases op with
  | dag op =>
    obtain ⟨s',hs,h⟩ := of_bind h
    cases h
    obtain ⟨ho,hc,hr⟩ := hop
    obtain ⟨hl,hlg,hf,hn⟩ := ordinary_exec ho hi.watermark.log hi.noFlag hs
    exact hi.of_dag (hi.causal.exec hc hs) (hi.watermark.exec hr hs) hl hlg hf hn
  | getPendingSubDags schedule leaders => exact Inv.keptByCommits.getPendingSubDags hi hop h
  | evictLinearizer round =>
    cases h
    exact ⟨hi.causal,hi.watermark,hi.noFastSync,hi.noFlag,hi.length_eq,hi.recorded,hi.subDags⟩
  | restart refOrder slotOrder =>
    obtain ⟨s',hs,h⟩ := of_bind h
    obtain ⟨l',-,h⟩ := of_bind h
    cases h
    exact hi.restart l' hs

/-- The states of a linearizer in runs over the headers of `U`. -/
def Reached (U : Universe ctx) (ownIndex cachedRounds : Nat) : LinearizerState ctx → Prop :=
  Machine.Reached (Initial ownIndex cachedRounds) exec (Permitted U)

theorem Reached.inv {ownIndex cachedRounds : Nat} (h : Reached U ownIndex cachedRounds st) :
    Inv U st :=
  h.invariant (fun _ => Inv.initial) fun _ _ _ hi hop hs => hi.exec hop hs

theorem Reached.start {ownIndex cachedRounds : Nat} {s : DagState ctx}
    (h : DagState.Initial ownIndex cachedRounds s) : Reached U ownIndex cachedRounds ⟨s,.new,[]⟩ :=
  .init ⟨h,rfl,rfl⟩

theorem exec_commit {schedule : LeaderSchedule} {leaders : List VerifiedBlockHeader}
    {subDags : List PendingSubDag} {s' : DagState ctx}
    (h : st.linearizer.getPendingSubDags schedule st.dag leaders = .ok (subDags,l',s')) :
    st.exec (.getPendingSubDags schedule leaders) = .ok ⟨s',l',st.output ++ subDags⟩ := by
  have he : st.exec (.getPendingSubDags schedule leaders) =
      (st.linearizer.getPendingSubDags schedule st.dag leaders >>= fun p =>
        .ok ⟨p.2.2,p.2.1,st.output ++ p.1⟩) := rfl
  rw [he,h]
  rfl

theorem exec_dag {op : DagOp} {s' : DagState ctx} (h : st.dag.exec op = .ok s') :
    st.exec (.dag op) = .ok { st with dag := s' } := by
  have he : st.exec (.dag op) = (st.dag.exec op >>= fun dag => .ok { st with dag := dag }) := rfl
  rw [he,h]
  rfl

theorem permitted_chain {acks : Nat → List BlockRef} {st : LinearizerState soleContext} {n : Nat}
    {p : VerifiedBlockHeader} (hp : st.dag.getVerifiedBlockHeader ⟨n,0,0⟩ = some p) :
    Permitted (ackingChain acks) st (.dag (.acceptBlockHeader (ackingHeader acks (n+1)))) := by
  refine ⟨trivial,⟨ackingHeader_mem _,fun a ha => ?_⟩,trivial⟩
  obtain rfl := mem_singleton.mp ha
  exact ⟨p,hp⟩

theorem Reached.commit (hst : Reached U ownIndex cachedRounds st)
    (schedule : LeaderSchedule) (leaders : List VerifiedBlockHeader)
    (hr : (st.dag.lastCommitRound :: leaders.map VerifiedBlockHeader.round).Pairwise (· < ·))
    (hh : ∀ leader ∈ leaders, st.dag.getVerifiedBlockHeader leader.reference = some leader)
    {subDags : List PendingSubDag}
    (h : st.linearizer.getPendingSubDags schedule st.dag leaders = .ok (subDags,l',s')) :
    Reached U ownIndex cachedRounds ⟨s',l',st.output ++ subDags⟩ := by
  have hp : Permitted U st (.getPendingSubDags schedule leaders) := ⟨hr,hh⟩
  exact .step hst hp (exec_commit h)

theorem Reached.dag (hst : Reached U ownIndex cachedRounds st)
    {op : DagOp} (hop : Permitted U st (.dag op))
    (h : st.dag.exec op = .ok s') : Reached U ownIndex cachedRounds { st with dag := s' } :=
  .step hst hop (exec_dag h)

theorem Reached.chain {acks : Nat → List BlockRef} {st : LinearizerState soleContext}
    {cachedRounds n : Nat} {p : VerifiedBlockHeader} {s' : DagState soleContext}
    (hst : Reached (ackingChain acks) 0 cachedRounds st)
    (hp : st.dag.getVerifiedBlockHeader ⟨n,0,0⟩ = some p)
    (ha : st.dag.acceptBlockHeader (ackingHeader acks (n+1)) = .ok s') :
    Reached (ackingChain acks) 0 cachedRounds { st with dag := s' } :=
  hst.dag (permitted_chain hp) ha

end LinearizerState
end Iota.Starfish
