import Iota.Starfish.CommitObserver.Delivery
import Iota.Starfish.Core

/-! What the callers of a node guarantee, and what its operations do to DAG state and observer. -/
namespace Iota.Starfish
open Except List
open Std (ExtTreeMap)
open CommitObserver
variable {ctx : Context} {content : GenericTransactionRef → List Nat}

/-- The result of a fetch: consecutive certified commits that agree with those made here and commit
no transactions twice, and the sub-dags made from them and the verified transactions. -/
structure Fetched (content : GenericTransactionRef → List Nat) (s : DagState ctx)
    (output : FastSyncOutput) : Prop where
  fast : ctx.protocolConfig.consensusFastCommitSync = true
  nonempty : output.commits ≠ []
  consecutive : ∃ first, 0 < first ∧
    output.commits.map (fun x => x.index) = List.range' first output.commits.length
  distinct : (output.commits.flatMap fun x => x.committedTransactions).Nodup
  refs : ∀ x ∈ output.commits, ∀ g ∈ x.committedTransactions,
    ∃ r : TransactionRef, g = .transactionRef r ∧ r.round ≠ genesisRound
  created : ∃ transactions : ExtTreeMap GenericTransactionRef VerifiedTransactions,
    (∀ g ∈ output.commits.flatMap fun x => x.committedTransactions,
      ∃ t, transactions[g]? = some t ∧ Attached content g t) ∧
    output.committedSubdags = createSubdags output.commits transactions
  agree : ∀ x ∈ output.commits, ∀ y, s.Logged y → y.index = x.index → y = x

theorem removeTransactions_spec {refs : List GenericTransactionRef}
    {transactions : ExtTreeMap GenericTransactionRef VerifiedTransactions} (hn : refs.Nodup)
    (hv : ∀ g ∈ refs, ∃ t, transactions[g]? = some t ∧ Attached content g t) :
    List.Forall₂ (Attached content) refs (removeTransactions transactions refs).1 ∧
      ∀ g ∉ refs, (removeTransactions transactions refs).2[g]? = transactions[g]? := by
  induction refs generalizing transactions with
  | nil => exact ⟨.nil,fun _ _ => rfl⟩
  | cons g rest ih =>
    obtain ⟨hg,hr⟩ := nodup_cons.mp hn
    have ho : ∀ g' ≠ g, (transactions.erase g)[g']? = transactions[g']? := by
      intro g' hne
      rw [ExtTreeMap.getElem?_erase,if_neg]
      simpa using hne.symm
    obtain ⟨hf,hl⟩ := ih hr fun g' hg' => by
      rw [ho g' fun heq => hg (heq ▸ hg')]
      exact hv g' (.tail _ hg')
    obtain ⟨t,ht,ha⟩ := hv g mem_cons_self
    unfold removeTransactions
    rw [ht]
    refine ⟨.cons ha hf,fun g' hg' => ?_⟩
    obtain ⟨hne,hg'⟩ := not_or.mp (mt mem_cons.mpr hg')
    rw [← ho g' hne]
    exact hl g' hg'

variable {commits : List TrustedCommit}

theorem createSubdags_spec {transactions : ExtTreeMap GenericTransactionRef VerifiedTransactions}
    (hn : (commits.flatMap fun x => x.committedTransactions).Nodup)
    (hv : ∀ g ∈ commits.flatMap fun x => x.committedTransactions,
      ∃ t, transactions[g]? = some t ∧ Attached content g t) :
    List.Forall₂ (fun (x : TrustedCommit) (d : CommittedSubDag) => d.commitRef = x.reference ∧
      List.Forall₂ (Attached content) x.committedTransactions d.transactions)
      commits (createSubdags commits transactions) := by
  induction commits generalizing transactions with
  | nil => exact .nil
  | cons x rest ih =>
    obtain ⟨hf,hr,hd⟩ := nodup_append'.mp hn
    obtain ⟨hfr,hl⟩ := removeTransactions_spec hf fun g hg =>
      hv g (mem_append_left _ hg)
    refine .cons ⟨rfl,hfr⟩ (ih hr fun g hg => ?_)
    rw [hl g fun hm => hd hm hg]
    exact hv g (mem_append_right _ hg)

variable {output : FastSyncOutput}

theorem Fetched.subdags {s : DagState ctx} (hf : Fetched content s output) :
    List.Forall₂ (fun (x : TrustedCommit) (d : CommittedSubDag) => d.commitRef = x.reference ∧
      List.Forall₂ (Attached content) x.committedTransactions d.transactions)
      output.commits output.committedSubdags := by
  obtain ⟨transactions,hv,hc⟩ := hf.created
  rw [hc]
  exact createSubdags_spec hf.distinct hv

variable {t : VerifiedTransactions}

theorem Fetched.attached {s : DagState ctx} (hf : Fetched content s output)
    (ht : t ∈ output.committedSubdags.flatMap fun d => d.transactions) :
    ∃ r, t.genericRef ctx = some (.transactionRef r) ∧ t.transactionRef = r ∧
      t.transactions = content (.transactionRef r) := by
  obtain ⟨d,hd,ht⟩ := mem_flatMap.mp ht
  obtain ⟨x,hx,-,ha⟩ := hf.subdags.flip.exists_right hd
  obtain ⟨g,hg,hc,hgt⟩ := ha.flip.exists_right ht
  obtain ⟨r,rfl,-⟩ := hf.refs x hx g hg
  refine ⟨r,?_,hgt,hc⟩
  rw [VerifiedTransactions.genericRef,if_pos hf.fast,hgt]

variable {transactions : List VerifiedTransactions}
namespace DagState
variable {s s' : DagState ctx}

structure Quiet (content : GenericTransactionRef → List Nat) (s s' : DagState ctx) : Prop extends
    Uncommitting content s s' where
  base : s'.lastSolidSubdagBase = s.lastSolidSubdagBase

theorem Quiet.refl (content : GenericTransactionRef → List Nat) (s : DagState ctx) :
    Quiet content s s := ⟨.refl content s,rfl⟩

theorem Quiet.trans {s1 s2 s3 : DagState ctx} (h : Quiet content s1 s2)
    (h' : Quiet content s2 s3) : Quiet content s1 s3 :=
  ⟨h.toUncommitting.trans h'.toUncommitting,h'.base.trans h.base⟩

theorem Quiet.lastSolidCommitIndex (h : Quiet content s s') :
    s'.lastSolidCommitIndex = s.lastSolidCommitIndex := lastSolidCommitIndex_congr h.base

theorem lastSolidSubdagBase_eq (h : s'.withoutTransactions = s.withoutTransactions) :
    s'.lastSolidSubdagBase = s.lastSolidSubdagBase := by
  have hb := congrArg lastSolidSubdagBase h
  exact hb

theorem lastSolidSubdagBase_loadCachedData (source : DataSource) (authorities : List Nat)
    (s : DagState ctx) : (authorities.foldl (loadCachedDataForAuthority source)
      s).lastSolidSubdagBase = s.lastSolidSubdagBase := by
  exact proj_loadCachedData lastSolidSubdagBase source (fun _ _ => rfl) (fun _ _ => rfl) (fun s t =>
    lastSolidSubdagBase_eq (withoutTransactions_updateTransactionMetadata s t source)) _ s

/-- The changes that commit, make a sub-dag solid or start anew. -/
def Advancing : DagOp → Prop
  | .addCommit _ | .updateLastSolidSubdagBase _ | .restart => True
  | _ => False

theorem lastSolidSubdagBase_exec {op : DagOp} (hop : ¬Advancing op) (hs : s.exec op = .ok s') :
    s'.lastSolidSubdagBase = s.lastSolidSubdagBase := by
  cases op with
  | acceptBlockHeader h =>
    rcases acceptBlockHeader_cases hs with rfl | ⟨-,rfl⟩
    · rfl
    · rfl
  | addTransactions t source =>
    cases hs
    exact lastSolidSubdagBase_eq (withoutTransactions_addTransactions s t source)
  | takeAcknowledgments limit =>
    cases hs
    exact lastSolidSubdagBase_eq (withoutTransactions_takeAcknowledgments s limit)
  | addScoringSubdags subdags =>
    obtain ⟨scoring,-,rfl⟩ := map_eq_ok.mp hs
    rfl
  | persistScores scores =>
    obtain ⟨last,-,rfl⟩ := addCommitInfo_cases hs
    rfl
  | flush =>
    cases hs
    exact lastSolidSubdagBase_flush s
  | reinitializeCaches =>
    exact proj_reinitializeCaches lastSolidSubdagBase (fun _ _ => rfl)
      (lastSolidSubdagBase_loadCachedData .fastCommitSyncer) hs
  | updatePendingCommitVotes refs =>
    cases hs
    rfl
  | takeCommitVotes limit =>
    cases hs
    rfl
  | setFastSyncOngoingFlag flag =>
    cases hs
    rfl
  | addCommit x => exact absurd trivial hop
  | updateLastSolidSubdagBase base => exact absurd trivial hop
  | restart => exact absurd trivial hop

theorem Quiet.exec {op : DagOp} (hop : ¬Advancing op) (hl : Lasting content s op)
    (hs : s.exec op = .ok s') : Quiet content s s' := by
  have hc : s'.lastCommit = s.lastCommit ∧
      (s.commitsToWrite = [] → s'.commitsToWrite = []) := by
    by_cases hcm : Committing op
    · cases op with
      | flush =>
        cases hs
        exact ⟨lastCommit_flush s,fun _ => congrArg CommitPart.commitsToWrite (commitPart_flush s)⟩
      | persistScores scores =>
        obtain ⟨last,-,rfl⟩ := addCommitInfo_cases hs
        exact ⟨rfl,id⟩
      | addCommit x => exact absurd trivial hop
      | restart => exact absurd trivial hop
      | _ => exact absurd hcm id
    · have hp := commitPart_exec hcm hs
      exact ⟨congrArg CommitPart.lastCommit hp,(congrArg CommitPart.commitsToWrite hp).trans⟩
  exact ⟨⟨.single hl hs,hc.1,hc.2⟩,lastSolidSubdagBase_exec hop hs⟩

theorem Quiet.addTransactions (s : DagState ctx)
    (hc : ∀ t ∈ transactions, ∀ g, t.genericRef ctx = some g → t.transactions = content g)
    (source : DataSource) :
    Quiet content s (transactions.foldl (fun s t => s.addTransactions t source) s) := by
  induction transactions generalizing s with
  | nil => exact .refl content s
  | cons t rest ih =>
    have hl : Lasting content s (.addTransactions t source) := ⟨nofun,nofun,hc t mem_cons_self⟩
    exact (Quiet.exec id hl rfl).trans (ih _ fun x hx => hc x (.tail _ hx))

end DagState
namespace Core
variable {c c' : Core ctx}

def Permitted (content : GenericTransactionRef → List Nat) (c : Core ctx) : CoreOp → Prop
  | .dag op => op.Direct ∧ DagState.Contents content ctx op
  | .addTransactions transactions _ =>
    ∀ t ∈ transactions, ∀ g, t.genericRef ctx = some g → t.transactions = content g
  | .fastSync output => Fetched content c.dag output
  | _ => True

section Commit

theorem updateScheduleIfDue_effect (content : GenericTransactionRef → List Nat)
    (h : c.updateScheduleIfDue = .ok c') :
    ∃ schedule s', DagState.Quiet content c.dag s' ∧
      c' = { c with leaderSchedule := schedule, dag := s' } := by
  unfold updateScheduleIfDue at h
  split at h
  · obtain ⟨⟨schedule,s'⟩,hu,h⟩ := of_bind h
    dsimp only at h
    split at h
    · cases h
    cases h
    obtain ⟨scores,hu⟩ := ok_of_bind hu
    obtain ⟨table,hu⟩ := ok_of_bind hu
    obtain ⟨s1,hp,hu⟩ := of_bind hu
    obtain ⟨_,hu⟩ := ok_of_bind hu
    cases hu
    have hl : DagState.Lasting content c.dag (.persistScores scores) := ⟨nofun,nofun,trivial⟩
    exact ⟨_,_,.exec id hl hp,rfl⟩
  · cases h
    exact ⟨c.leaderSchedule,c.dag,.refl content _,rfl⟩

structure Commits (content : GenericTransactionRef → List Nat) (c : Core ctx)
    (pending : List PendingSubDag) (c' : Core ctx) : Prop where
  solidifying : ∃ s₁ solid s₂,
    (∃ l' leaders, c.commitObserver.linearizer.getPendingSubDags c.leaderSchedule c.dag leaders =
      .ok (pending,l',s₁)) ∧
    Solidifying content c.commitObserver s₁ pending solid c'.commitObserver s₂ ∧
    DagState.Quiet content s₂ c'.dag
  consumer : c'.transactionConsumer = c.transactionConsumer

variable {missing : ExtTreeMap GenericTransactionRef (Finset Nat)}

theorem commitSequenced_commits (content : GenericTransactionRef → List Nat)
    {leaders : List VerifiedBlockHeader} {pending : List PendingSubDag}
    (h : c.commitSequenced leaders = .ok (pending,missing,c')) : Commits content c pending c' := by
  obtain ⟨⟨subdags,missing₁,o1,s2⟩,hh,h⟩ := of_bind h
  obtain ⟨s3,hs,h⟩ := of_bind h
  cases h
  obtain ⟨l',s1,solid,hg,hsl⟩ := handleCommittedLeaders_effect content hh
  have hl : DagState.Lasting content s2
      (.addScoringSubdags (pending.map PendingSubDag.toSubDagBase)) := ⟨nofun,nofun,trivial⟩
  exact ⟨⟨s1,solid,s2,⟨l',leaders,hg⟩,hsl,.exec id hl hs⟩,rfl⟩

theorem tryCommitLoop_inv (content : GenericTransactionRef → List Nat)
    (inv : Core ctx → List PendingSubDag → Prop)
    (hs : ∀ c c' committed, inv c committed → c.updateScheduleIfDue = .ok c' →
      inv c' committed)
    (hd : ∀ c committed slot, inv c committed →
      inv { c with lastDecidedLeader := slot } committed)
    (hc : ∀ c c' committed pending, inv c committed → Commits content c pending c' →
      inv c' (committed ++ pending)) {fuel : Nat} {committed committed' : List PendingSubDag}
    (hi : inv c committed)
    (h : tryCommitLoop fuel c committed missing = .ok (committed',c')) : inv c' committed' := by
  induction fuel generalizing c committed missing with
  | zero => cases h
  | succ fuel ih =>
    obtain ⟨c1,hu,h⟩ := of_bind h
    obtain ⟨decided,h⟩ := ok_of_bind h
    have hi1 := hs c c1 committed hi hu
    dsimp only at h
    split at h
    · cases h
      exact hi1
    · next last hl =>
      have hi2 := hd c1 committed last.slot hi1
      split at h
      · cases h
        exact hi2
      obtain ⟨⟨subdags,authors,c2⟩,hsq,h⟩ := of_bind h
      have hi3 := hc _ c2 committed subdags hi2 (commitSequenced_commits content hsq)
      split at h
      · cases h
      · exact ih hi3 h

theorem tryCommit_effect (h : c.tryCommit = .ok c') :
    ∃ committed c1 t, tryCommitLoop (c.dag.highestAcceptedRound+2) c [] ∅ = .ok (committed,c1) ∧
      t = c1.transactionConsumer.notifyOwnTransactionsStatus
        ((committed.flatMap fun d => d.committedTransactionRefs).filter fun g =>
          g.author = c1.dag.ownIndex) c1.dag.gcRoundForLastCommit ∧
      c' = { c1 with transactionConsumer := t } := by
  obtain ⟨⟨committed,c1⟩,hl,h⟩ := of_bind h
  exact ⟨committed,c1,_,hl,rfl,(ok.inj h).symm⟩

end Commit

theorem addTransactions_commits (content : GenericTransactionRef → List Nat) {source : DataSource}
    (h : c.addTransactions transactions source = .ok c') :
    ∃ pending, Commits content { c with
      dag := transactions.foldl (fun s t => s.addTransactions t source) c.dag } pending c' := by
  obtain ⟨⟨pending,missing,o1,s2⟩,hh,h⟩ := of_bind h
  cases h
  obtain ⟨l',s1,solid,hg,hs⟩ := handleCommittedLeaders_effect content hh
  exact ⟨pending,⟨s1,solid,s2,⟨l',[],hg⟩,hs,.refl content _⟩,rfl⟩

section FastSync
variable {schedule schedule' : LeaderSchedule} {s s' : DagState ctx} {x : TrustedCommit}

theorem updateFromCommitScores_cases {commitIndex : Nat} {scoresDesc : List (Nat × Nat)}
    (h : schedule.updateFromCommitScores s commitIndex scoresDesc = .ok (schedule',s')) :
    s' = s ∨ ∃ scores, s.exec (.persistScores scores) = .ok s' := by
  unfold LeaderSchedule.updateFromCommitScores at h
  dsimp only at h
  split at h
  · cases h
    exact .inl rfl
  split at h
  · cases h
    exact .inl rfl
  obtain ⟨scores,h⟩ := ok_of_bind h
  obtain ⟨table,h⟩ := ok_of_bind h
  obtain ⟨s1,hp,h⟩ := of_bind h
  cases h
  exact .inr ⟨scores,hp⟩

theorem addSyncedCommit_effect (content : GenericTransactionRef → List Nat)
    (h : addSyncedCommit (schedule,s) x = .ok (schedule',s')) :
    ∃ s1, DagState.Quiet content s s1 ∧ s1.addCommit x = .ok s' := by
  obtain ⟨⟨schedule₁,s1⟩,hs,h⟩ := of_bind h
  obtain ⟨s2,ha,h⟩ := of_bind h
  cases h
  have hc : s1 = s ∨ ∃ scores, s.exec (.persistScores scores) = .ok s1 := by
    split at hs
    · cases hs
      exact .inl rfl
    · exact updateFromCommitScores_cases hs
  refine ⟨s1,?_⟩
  rcases hc with rfl | ⟨scores,hp⟩
  · exact ⟨.refl content _,ha⟩
  · have hl : DagState.Lasting content s (.persistScores scores) := ⟨nofun,nofun,trivial⟩
    exact ⟨.exec id hl hp,ha⟩

/-- Synced commits are logged, the ones made here before among them. -/
structure CommitsAdded (content : GenericTransactionRef → List Nat) (s : DagState ctx)
    (commits : List TrustedCommit) (first : Nat) (s' : DagState ctx) : Prop where
  extended : DagState.Extends content s s'
  base : s'.lastSolidSubdagBase = s.lastSolidSubdagBase
  logged : ∀ x ∈ commits, s'.Logged x
  only : ∀ y, s'.Logged y → s.Logged y ∨ y ∈ commits
  last : commits ≠ [] →
    s'.lastCommitIndex = max s.lastCommitIndex (first + commits.length - 1)

theorem addSyncedCommits_added {first : Nat} (hl : DagState.CommitLog s) (hf : 0 < first)
    (hrn : commits.map (fun x => x.index) = List.range' first commits.length)
    (hag : ∀ x ∈ commits, ∀ y, s.Logged y → y.index = x.index → y = x)
    (h : commits.foldlM addSyncedCommit (schedule,s) = .ok (schedule',s')) :
    CommitsAdded content s commits first s' := by
  induction commits generalizing schedule s first with
  | nil =>
    cases h
    exact ⟨.refl content _,rfl,nofun,fun y => .inl,nofun⟩
  | cons x rest ih =>
    obtain ⟨⟨schedule₁,s2⟩,hon,h⟩ := of_bind h
    rw [map_cons,length_cons,List.range'_succ,List.cons.injEq] at hrn
    obtain ⟨hi,hr⟩ := hrn
    obtain ⟨s1,hqt,ha⟩ := addSyncedCommit_effect content hon
    have hl1 := hqt.extended.commitLog hl
    have hlg1 : ∀ y, s1.Logged y ↔ s.Logged y := fun y => hqt.logged hl
    have hm := hqt.lastCommitIndex
    have hla : DagState.Lasting content s1 (.addCommit x) := ⟨nofun,nofun,trivial⟩
    have he2 := DagState.Extends.single hla ha
    have hl2 := he2.commitLog hl1
    -- the commit is logged now, and nothing else is new
    have hx : s2.Logged x ∧ (∀ y, s2.Logged y → s.Logged y ∨ y = x) ∧
        s2.lastSolidSubdagBase = s.lastSolidSubdagBase ∧
        s2.lastCommitIndex = max s.lastCommitIndex first := by
      rcases DagState.addCommit_cases ha with ⟨rfl,hle⟩ | ⟨hn,-,rfl⟩
      · obtain ⟨y,hy,hyx⟩ := hl1.exists_index (by omega) hle
        obtain rfl := hag x mem_cons_self y ((hlg1 y).mp hy) hyx
        exact ⟨hy,fun z hz => .inl ((hlg1 z).mp hz),hqt.base,by omega⟩
      refine ⟨DagState.logged_appendCommit.mpr (.inr rfl),fun z hz => ?_,hqt.base,?_⟩
      · exact (DagState.logged_appendCommit.mp hz).imp_left (hlg1 z).mp
      · show x.index = _
        omega
    obtain ⟨hxl,ho,hb,hls⟩ := hx
    have had := ih hl2 (Nat.succ_pos first) hr (fun z hz y hy hyz => by
      rcases ho y hy with hy | rfl
      · exact hag z (.tail _ hz) y hy hyz
      -- the later commits have later indices
      have hmm : z.index ∈ List.range' (first+1) rest.length := by
        rw [← hr]
        exact mem_map_of_mem hz
      have := mem_range'_1.mp hmm
      omega) h
    refine ⟨(hqt.extended.trans he2).trans had.extended,had.base.trans hb,?_,?_,fun _ => ?_⟩
    · intro z hz
      rcases mem_cons.mp hz with rfl | hz
      · exact had.extended.logged hl2 hxl
      · exact had.logged z hz
    · intro y hy
      rcases had.only y hy with hy | hy
      · exact (ho y hy).imp_right fun hyx => mem_cons.mpr (.inl hyx)
      · exact .inr (.tail _ hy)
    by_cases he : rest = []
    · subst he
      cases h
      exact hls
    have hp := length_pos_of_ne_nil he
    rw [had.last he,hls,length_cons]
    omega

theorem contains_addTransactions {g : GenericTransactionRef}
    (hg : t.genericRef ctx = some g) (ha : t.transactionRef.author = g.author)
    (h0 : g.round ≠ genesisRound) (source : DataSource) :
    (s.addTransactions t source).containsTransaction g = true := by
  rw [DagState.containsTransaction_iff h0]
  refine .inl ?_
  unfold DagState.addTransactions
  rw [hg]
  dsimp only
  split
  · next hm => exact ha ▸ hm
  have hp := DagState.transactionPart_updateTransactionMetadata s hg source
  rw [show (s.updateTransactionMetadata t source).recentTransactionsByAuthority = _ from
    congrArg DagState.TransactionPart.recent hp]
  exact DagState.mem_update_insert.mpr (.inl ⟨ha.symm,rfl⟩)

theorem contains_foldl_addTransactions (hi : DagState.TransactionInv content s)
    (hc : ∀ t ∈ transactions, ∀ g, t.genericRef ctx = some g → t.transactions = content g)
    (ht : t ∈ transactions) {g : GenericTransactionRef}
    (hg : t.genericRef ctx = some g) (ha : t.transactionRef.author = g.author)
    (h0 : g.round ≠ genesisRound) (source : DataSource) :
    (transactions.foldl (fun s t => s.addTransactions t source) s).containsTransaction g = true := by
  induction transactions generalizing s with
  | nil => cases ht
  | cons y rest ih =>
    have hr : ∀ z ∈ rest, ∀ g, z.genericRef ctx = some g → z.transactions = content g :=
      fun z hz => hc z (.tail _ hz)
    have hi' := hi.addTransactions (hc y mem_cons_self) source
    rcases mem_cons.mp ht with rfl | ht
    · exact (DagState.Quiet.addTransactions _ hr source).extended.contains hi'
        (contains_addTransactions hg ha h0 source)
    · exact ih hi' hr ht

/-- What a batch of a fast sync does: its commits and transactions are added, then its sub-dags are
finalized and sent. -/
structure Synced (content : GenericTransactionRef → List Nat) (c : Core ctx)
    (output : FastSyncOutput) (first : Nat) (s : DagState ctx) (c' : Core ctx) : Prop where
  extended : DagState.Extends content c.dag s
  base : s.lastSolidSubdagBase = c.dag.lastSolidSubdagBase
  only : ∀ y, s.Logged y → c.dag.Logged y ∨ y ∈ output.commits
  last : s.lastCommitIndex =
    max c.dag.lastCommitIndex (first + output.committedSubdags.length - 1)
  nonempty : output.committedSubdags ≠ []
  consecutive : output.committedSubdags.map (fun d => d.commitRef.index) =
    List.range' first output.committedSubdags.length
  complete : ∀ d ∈ output.committedSubdags, Complete content s d
  finalized : Finalized content s output.committedSubdags c'.dag
  send : ∃ l, ({ c.commitObserver with linearizer := l } : CommitObserver ctx).sendSubDags
    output.committedSubdags = .ok c'.commitObserver
  consumer : c'.transactionConsumer = c.transactionConsumer

theorem fastSync_synced (hf : Fetched content c.dag output)
    (hl : DagState.CommitLog c.dag) (hi : DagState.TransactionInv content c.dag)
    (h : c.handleCommittedSubDagsFromFastSync output = .ok c') :
    ∃ first s, Synced content c output first s c' := by
  obtain ⟨⟨schedule,s1⟩,hcm,h⟩ := of_bind h
  obtain ⟨⟨o',s'⟩,hfnl,h⟩ := of_bind h
  cases h
  obtain ⟨first,hfr,hrn⟩ := hf.consecutive
  have had : CommitsAdded content c.dag output.commits first s1 :=
    addSyncedCommits_added hl hfr hrn hf.agree hcm
  have hl1 := had.extended.commitLog hl
  have hi1 := had.extended.transactionInv hi
  have hc : ∀ t ∈ output.committedSubdags.flatMap fun d => d.transactions, ∀ g,
      t.genericRef ctx = some g → t.transactions = content g := by
    intro t ht g hg
    obtain ⟨r,hr,-,htr⟩ := hf.attached ht
    cases hr.symm.trans hg
    exact htr
  -- the transactions, then the flag and the flush
  have ha : DagState.Quiet content s1 (addSyncedTransactions s1 output.committedSubdags) :=
    .addTransactions s1 hc .fastCommitSyncer
  have hfl : DagState.Lasting content (addSyncedTransactions s1 output.committedSubdags)
      (.setFastSyncOngoingFlag true) := ⟨nofun,nofun,trivial⟩
  have hfs : DagState.Lasting content
      ((addSyncedTransactions s1 output.committedSubdags).setFastSyncOngoingFlag true) .flush :=
    ⟨nofun,nofun,trivial⟩
  have haf := (DagState.Quiet.exec id hfl rfl).trans (.exec id hfs rfl)
  have hqt := ha.trans haf
  have hln := hf.subdags.length_eq
  have hne : output.committedSubdags ≠ [] :=
    ne_nil_of_length_pos (hln ▸ length_pos_of_ne_nil hf.nonempty)
  obtain ⟨hfn,hs⟩ := finalizeAndSend_effect content hfnl
  refine ⟨first,_,had.extended.trans hqt.extended,hqt.base.trans had.base,
    fun y hy => had.only y ((hqt.logged hl1).mp hy),?_,hne,?_,fun d hd => ?_,hfn,
    hs,rfl⟩
  · rw [hqt.lastCommitIndex,had.last hf.nonempty,hln]
  · rw [← hln,← hrn]
    exact (hf.subdags.map_eq fun x d hd => (congrArg CommitRef.index hd.1).symm).symm
  obtain ⟨x,hx,hrf,hat⟩ := hf.subdags.flip.exists_right hd
  refine ⟨x,hqt.extended.logged hl1 (had.logged x hx),hrf.symm,hat,fun g hm => ?_⟩
  obtain ⟨t,ht,hgt⟩ := hat.exists_right hm
  obtain ⟨r,rfl,hr⟩ := hf.refs x hx g hm
  have htr : t.transactionRef = r := hgt.2
  have hg : t.genericRef ctx = some (.transactionRef r) := by
    rw [VerifiedTransactions.genericRef,if_pos hf.fast,htr]
  have hcn := contains_foldl_addTransactions hi1 hc
    (mem_flatMap.mpr ⟨d,hd,ht⟩) hg (congrArg TransactionRef.author htr) hr
    .fastCommitSyncer
  exact haf.extended.contains (ha.extended.transactionInv hi1) hcn

end FastSync
section Restart
variable {refOrder : HashOrder BlockRef} {slotOrder : HashOrder Slot}

/-- The end of a fast sync: headers are accepted and everything is flushed, then the observer takes
the last commit for the last one sent. -/
theorem reinitialize_effect (content : GenericTransactionRef → List Nat)
    {headers : List VerifiedBlockHeader}
    (h : c.reinitializeComponents refOrder slotOrder headers = .ok c') :
    ∃ s schedule, DagState.Quiet content c.dag s ∧ s.commitsToWrite = [] ∧
      s.fastSyncOngoingFlagToWrite = none ∧ s.store.fastSyncOngoing = false ∧
      c.commitObserver.reinitialize refOrder slotOrder schedule s
        c.dag.lastCommitIndex = .ok (c'.commitObserver,c'.dag) ∧
      c'.transactionConsumer = c.transactionConsumer := by
  obtain ⟨s1,ha,h⟩ := of_bind h
  obtain ⟨s2,hc,h⟩ := of_bind h
  obtain ⟨schedule,h⟩ := ok_of_bind h
  obtain ⟨⟨o',s'⟩,ho,h⟩ := of_bind h
  cases h
  have hqt1 : DagState.Quiet content c.dag s1 := by
    have hs : ∀ x ∈ headers, ∀ s s', DagState.Quiet content c.dag s →
        s.acceptBlockHeader x = .ok s' → DagState.Quiet content c.dag s' := by
      intro x _ s s' hq hx
      have hl : DagState.Lasting content s (.acceptBlockHeader x) := ⟨nofun,nofun,trivial⟩
      exact hq.trans (.exec id hl hx)
    exact foldlM_ok_inv hs (.refl content _) ha
  have hf : DagState.Lasting content s1 (.setFastSyncOngoingFlag false) := ⟨nofun,nofun,trivial⟩
  have hfl : DagState.Lasting content (s1.setFastSyncOngoingFlag false) .flush :=
    ⟨nofun,nofun,trivial⟩
  have hqt2 := hqt1.trans ((DagState.Quiet.exec id hf rfl).trans (.exec id hfl rfl))
  have hl : DagState.Lasting content (s1.setFastSyncOngoingFlag false).flush
      .reinitializeCaches := ⟨nofun,fun _ => (DagState.flush_transactions _).1,trivial⟩
  have hp : s2.commitPart = (s1.setFastSyncOngoingFlag false).writeBuffers.commitPart :=
    (DagState.commitPart_reinitializeCaches hc).trans (DagState.commitPart_flush _)
  have hn := DagState.proj_reinitializeCaches DagState.fastSyncOngoingFlagToWrite
    (fun _ _ => rfl) (DagState.fastSyncOngoingFlagToWrite_loadCachedData .fastCommitSyncer) hc
  refine ⟨s2,schedule,hqt2.trans (.exec id hl hc),
    congrArg DagState.CommitPart.commitsToWrite hp,
    hn.trans (DagState.fastSyncOngoingFlagToWrite_flush _),
    congrArg (fun p => p.store.fastSyncOngoing) hp,?_,rfl⟩
  rw [← hqt2.lastCommitIndex]
  exact ho

theorem restart_effect {lastProcessed : Nat}
    (h : c.restart refOrder slotOrder lastProcessed = .ok c') :
    ∃ s schedule, c.dag.exec .restart = .ok s ∧ CommitObserver.new refOrder slotOrder schedule s
        lastProcessed = .ok (c'.commitObserver,c'.dag) ∧
      c'.transactionConsumer = ⟨∅,c.transactionConsumer.statuses⟩ := by
  obtain ⟨s,hn,h⟩ := of_bind h
  obtain ⟨schedule,h⟩ := ok_of_bind h
  obtain ⟨⟨o',s'⟩,ho,h⟩ := of_bind h
  cases h
  exact ⟨s,schedule,hn,ho,rfl⟩

end Restart
section Concrete
open BlockVerifier

/-- An authority with a quorum of the stake and one with the rest, with fast commit sync. -/
def syncContext : Context :=
  { soleContext with
    committee := pairContext.committee
    protocolConfig := ⟨2,true,true,400,20,by decide⟩ }

/-- A node that starts with an empty store and executes operations. -/
def runFrom (ctx : Context) (ownIndex cachedRounds : Nat) (ops : List CoreOp) :
    Except Panic (Core ctx) := do
  let dag ← DagState.new ctx ownIndex cachedRounds .empty
  ops.foldlM exec
    { dag := dag
      leaderSchedule := .new .default
      commitObserver := ⟨.new,.new,⟨0,[]⟩,0⟩
      transactionConsumer := ⟨∅,[]⟩
      lastDecidedLeader := dag.lastCommitLeader }

theorem reached_runFrom {ownIndex cachedRounds : Nat} {ops : List CoreOp}
    {allowed : Core ctx → CoreOp → Prop} (ha : ∀ op ∈ ops, ∀ c, allowed c op)
    (h : runFrom ctx ownIndex cachedRounds ops = .ok c) :
    Machine.Reached (Initial ownIndex cachedRounds) exec allowed c := by
  obtain ⟨dag,hd,h⟩ := of_bind h
  refine .foldlM ha (.init ?_) h
  exact ⟨hd,rfl,rfl,rfl,rfl⟩

def plain : CoreOp → Bool
  | .dag (.acceptBlockHeader _) | .tryCommit => true
  | _ => false

theorem permitted_of_plain {op : CoreOp} (h : plain op = true) (c : Core ctx) :
    Permitted content c op := by
  unfold plain at h
  split at h
  · exact ⟨trivial,trivial⟩
  · trivial
  · cases h

def verifiedTransactions (content : GenericTransactionRef → List Nat) :
    GenericTransactionRef → VerifiedTransactions
  | .transactionRef r => ⟨content (.transactionRef r),r,none⟩
  | .blockRef r => ⟨content (.blockRef r),⟨r.round,r.author,0⟩,some r.digest⟩

theorem attached_verifiedTransactions (g : GenericTransactionRef) :
    Attached content g (verifiedTransactions content g) := by
  cases g with
  | transactionRef r => exact ⟨rfl,rfl⟩
  | blockRef r => exact ⟨rfl,rfl⟩

def fetchOutput (content : GenericTransactionRef → List Nat) (commits : List TrustedCommit) :
    FastSyncOutput :=
  ⟨commits,createSubdags commits (.ofList ((commits.flatMap fun x => x.committedTransactions).map
    fun g => (g,verifiedTransactions content g)))⟩

def syncedRef : GenericTransactionRef → Bool
  | .transactionRef r => r.round ≠ genesisRound
  | .blockRef _ => false

def fetchable (s : DagState ctx) (first : Nat) (commits : List TrustedCommit) : Bool :=
  commits ≠ [] ∧ commits.map (fun x => x.index) = List.range' first commits.length ∧
    (commits.flatMap fun x => x.committedTransactions).Nodup ∧
    (∀ x ∈ commits, x.committedTransactions.all syncedRef) ∧
    ∀ y ∈ s.store.commits.toList.map Prod.snd ++ s.commitsToWrite, ∀ x ∈ commits,
      y.index = x.index → y = x

theorem fetched_of_fetchable {s : DagState ctx} {first : Nat}
    (hf : ctx.protocolConfig.consensusFastCommitSync = true) (hfr : 0 < first)
    (h : fetchable s first commits = true) : Fetched content s (fetchOutput content commits) := by
  obtain ⟨hne,hrn,hn,hr,ha⟩ := of_decide_eq_true h
  refine ⟨hf,hne,⟨first,hfr,hrn⟩,hn,fun x hx g hg => ?_,⟨_,fun g hg => ?_,rfl⟩,
    fun x hx y hy => ha y ?_ x hx⟩
  · have hs := all_eq_true.mp (hr x hx) g hg
    cases g with
    | transactionRef r => exact ⟨r,rfl,by simpa [syncedRef] using hs⟩
    | blockRef r => cases hs
  · refine ⟨_,ExtTreeMap.getElem?_ofList_of_mem Std.ReflCmp.compare_self ?_
      (mem_map_of_mem hg),attached_verifiedTransactions g⟩
    rw [pairwise_map]
    exact hn.imp fun hne heq => hne (Std.LawfulEqOrd.eq_of_compare heq)
  rcases hy with ⟨k,hk⟩ | hy
  · exact mem_append_left _ (mem_map.mpr
      ⟨(k,y),ExtTreeMap.mem_toList_iff_getElem?_eq_some.mpr hk,rfl⟩)
  · exact mem_append_right _ hy

end Concrete
end Core
end Iota.Starfish
