import Iota.Starfish.CommitObserver
import Iota.Starfish.DagState.Transactions
import Iota.Starfish.Linearizer.Run

/-! What each operation of solidifier and observer does to the sub-dags in wait, to the DAG state
and to what the consumer was sent. -/

theorem List.Forall₂.exists_right {α β : Type} {R : α → β → Prop} {l1 : List α} {l2 : List β}
    (h : Forall₂ R l1 l2) {a : α} (ha : a ∈ l1) : ∃ b ∈ l2, R a b := by
  induction h with
  | nil => cases ha
  | cons hab _ ih =>
    rcases mem_cons.mp ha with rfl | ha
    · exact ⟨_,mem_cons_self,hab⟩
    · obtain ⟨b,hb,hr⟩ := ih ha
      exact ⟨b,mem_cons_of_mem _ hb,hr⟩

theorem List.Forall₂.map_eq {α β γ : Type} {R : α → β → Prop} {l1 : List α} {l2 : List β}
    {f : α → γ} {k : β → γ} (h : Forall₂ R l1 l2) (hR : ∀ a b, R a b → f a = k b) :
    l1.map f = l2.map k := by
  induction h with
  | nil => rfl
  | cons hab _ ih => rw [map_cons,map_cons,hR _ _ hab,ih]

namespace Iota.Starfish
open Except List
open Std (ExtTreeMap)
variable {ctx : Context} {content : GenericTransactionRef → List Nat} {s s' : DagState ctx}

/-- Index of the commit stored as the last solid sub-dag, zero if there is none. -/
def DagState.lastSolidCommitIndex (s : DagState ctx) : Nat :=
  match s.lastSolidSubdagBase with
  | some base => base.commitRef.index
  | none => 0

def FromLog (s : DagState ctx) (p : PendingSubDag) : Prop :=
  ∃ x, s.Logged x ∧ x.reference = p.commitRef ∧
    x.committedTransactions = p.committedTransactionRefs

/-- A sub-dag sent to the consumer: that of a logged commit, with exactly the transactions the
commit names, all of them here. -/
def Complete (content : GenericTransactionRef → List Nat) (s : DagState ctx)
    (d : CommittedSubDag) : Prop :=
  ∃ x, s.Logged x ∧ x.reference = d.commitRef ∧
    Forall₂ (Attached content) x.committedTransactions d.transactions ∧
    ∀ g ∈ x.committedTransactions, s.containsTransaction g = true

variable {p : PendingSubDag}

theorem FromLog.extends (hp : FromLog s p)
    (h : DagState.Extends content s s') (hl : DagState.CommitLog s) : FromLog s' p := by
  obtain ⟨x,hx,hr⟩ := hp
  exact ⟨x,h.logged hl hx,hr⟩

variable {d : CommittedSubDag}

theorem Complete.extends (hd : Complete content s d)
    (h : DagState.Extends content s s') (hl : DagState.CommitLog s)
    (hi : DagState.TransactionInv content s) : Complete content s' d := by
  obtain ⟨x,hx,hr,ha,hc⟩ := hd
  exact ⟨x,h.logged hl hx,hr,ha,fun g hg => h.contains hi (hc g hg)⟩

namespace Linearizer
variable {l l' : Linearizer ctx} {scores : List (Nat × Nat)} {leaders : List VerifiedBlockHeader}
  {subDags : List PendingSubDag}

theorem commitLeaders_effect (content : GenericTransactionRef → List Nat)
    (h : commitLeaders l s scores leaders = .ok (subDags,l',s')) :
    DagState.Extends content s s' ∧ s'.lastSolidSubdagBase = s.lastSolidSubdagBase ∧
      s'.lastCommitIndex = s.lastCommitIndex + subDags.length ∧
      subDags.map (fun d => d.commitRef.index) = range' (s.lastCommitIndex+1) subDags.length ∧
      (DagState.CommitLog s → ∀ p ∈ subDags, FromLog s' p) := by
  induction leaders generalizing l s scores subDags with
  | nil =>
    cases h
    exact ⟨.refl content _,rfl,rfl,rfl,nofun⟩
  | cons leader rest ih =>
    obtain ⟨⟨subDag,l1,s1⟩,hc,h⟩ := of_bind h
    obtain ⟨⟨others,l2,s2⟩,hr,h⟩ := of_bind h
    cases h
    obtain ⟨he,hb,hi,hrn,hlg⟩ := ih hr
    obtain ⟨headers,timestampMs,-,refs,-,rfl,ha,rfl⟩ := commitLeader_cases hc
    have hls : DagState.Lasting content s
        (.addCommit (newCommit s leader headers timestampMs refs scores)) :=
      ⟨nofun,nofun,trivial⟩
    have hf := DagState.Extends.single hls ha
    have hn : (s.appendCommit (newCommit s leader headers timestampMs refs
        scores)).lastCommitIndex = s.lastCommitIndex+1 := rfl
    refine ⟨hf.trans he,hb,?_,?_,fun hl p hp => ?_⟩
    · rw [hi,length_cons]
      omega
    · rw [map_cons,hrn,length_cons,range'_succ]
      rfl
    have hl1 := hf.commitLog hl
    rcases mem_cons.mp hp with rfl | hp
    · exact FromLog.extends ⟨_,DagState.logged_appendCommit.mpr (.inr rfl),rfl,rfl⟩ he hl1
    · exact hlg hl1 p hp

end Linearizer

variable {missing : List GenericTransactionRef}
namespace DagState
variable {refs : List GenericTransactionRef}

theorem forall₂_filterMap {find : GenericTransactionRef → Option VerifiedTransactions}
    (h : refs.filter (fun g => find g = none) = []) :
    Forall₂ (fun g t => find g = some t) refs ((refs.map find).filterMap id) := by
  induction refs with
  | nil => exact .nil
  | cons g rest ih =>
    cases hg : find g with
    | none =>
      rw [filter_cons_of_pos (by simpa using hg)] at h
      cases h
    | some t =>
      rw [filter_cons_of_neg (by simp [hg])] at h
      rw [map_cons,hg]
      exact .cons hg (ih h)

theorem tryGetAll_ok {transactions : List VerifiedTransactions}
    (h : s.tryGetAllVerifiedTransactions refs = .ok (.ok transactions)) :
    Forall₂ (fun g t => s.findTransactions g = some t) refs transactions := by
  unfold tryGetAllVerifiedTransactions getVerifiedTransactions at h
  obtain ⟨results,hr,h⟩ := of_bind h
  split at hr
  · cases hr
    dsimp only at h
    split at h
    · next hn =>
      cases h
      exact forall₂_filterMap hn
    · cases h
  · cases hr

theorem tryGetAll_error (h : s.tryGetAllVerifiedTransactions refs = .ok (.error missing)) :
    ∃ g ∈ refs, s.findTransactions g = none := by
  obtain ⟨results,h⟩ := ok_of_bind h
  dsimp only at h
  split at h
  · cases h
  · next hs =>
    obtain ⟨g,hg⟩ := exists_mem_of_ne_nil _ hs
    exact ⟨g,(mem_filter.mp hg).1,of_decide_eq_true (mem_filter.mp hg).2⟩

theorem TransactionInv.complete (hi : TransactionInv content s)
    (hgn : ∀ g, g.round = genesisRound → content g = []) {x : TrustedCommit}
    (hx : s.Logged x) (hr : x.reference = d.commitRef)
    (hf : Forall₂ (fun g t => s.findTransactions g = some t) x.committedTransactions
      d.transactions) : Complete content s d := by
  refine ⟨x,hx,hr,hf.imp fun g t => hi.attached hgn,fun g hg => ?_⟩
  obtain ⟨t,-,ht⟩ := hf.exists_right hg
  exact containsTransaction_of_find ht

end DagState
namespace CommitSolidifier
variable {c c' : CommitSolidifier} {solid : List CommittedSubDag} {fuel : Nat}

/-- A sub-dag taken from the wait list, with the transactions found for it. -/
def Solidified (s : DagState ctx) (p : PendingSubDag) (d : CommittedSubDag) : Prop :=
  d.toSubDagBase = p.toSubDagBase ∧
    Forall₂ (fun g t => s.findTransactions g = some t) p.committedTransactionRefs d.transactions

theorem tryGetOne_ok (h : tryGetOneSolidSubDag s p = .ok (.ok d)) : Solidified s p d := by
  obtain ⟨result,ha,h⟩ := of_bind h
  cases result with
  | error missing => cases h
  | ok transactions =>
    cases h
    exact ⟨rfl,DagState.tryGetAll_ok ha⟩

theorem tryGetOne_error (h : tryGetOneSolidSubDag s p = .ok (.error missing)) :
    ∃ g ∈ p.committedTransactionRefs, s.findTransactions g = none := by
  obtain ⟨result,ha,h⟩ := of_bind h
  cases result with
  | error missing => exact DagState.tryGetAll_error ha
  | ok transactions => cases h

/-- Sub-dags with consecutive indices were taken from the wait list. -/
structure Taken (s : DagState ctx) (c : CommitSolidifier) (solid : List CommittedSubDag)
    (c' : CommitSolidifier) : Prop where
  last : c'.lastSolidCommittedIndex = c.lastSolidCommittedIndex + solid.length
  taken : Forall₂ (fun i d => ∃ p, c.pendingSubdags[i]? = some p ∧ Solidified s p d)
    (range' (c.lastSolidCommittedIndex+1) solid.length) solid
  left : ∀ i, c'.pendingSubdags[i]? =
    if c.lastSolidCommittedIndex < i ∧ i ≤ c'.lastSolidCommittedIndex then none
    else c.pendingSubdags[i]?

theorem Taken.nil (s : DagState ctx) (c : CommitSolidifier) : Taken s c [] c where
  last := rfl
  taken := .nil
  left i := (if_neg (by omega)).symm

theorem Taken.cons
    (hp : c.pendingSubdags[c.lastSolidCommittedIndex+1]? = some p) (hd : Solidified s p d)
    (h : Taken s ⟨c.pendingSubdags.erase (c.lastSolidCommittedIndex+1),
      c.lastSolidCommittedIndex+1⟩ solid c') : Taken s c (d :: solid) c' := by
  have hl : c'.lastSolidCommittedIndex = c.lastSolidCommittedIndex + 1 + solid.length := h.last
  constructor
  · rw [hl,length_cons]
    omega
  · rw [length_cons,range'_succ]
    refine .cons ⟨p,hp,hd⟩ (h.taken.imp fun i x hx => ?_)
    obtain ⟨q,hq,hx⟩ := hx
    rw [ExtTreeMap.getElem?_erase] at hq
    split at hq
    · cases hq
    · exact ⟨q,hq,hx⟩
  intro i
  rw [h.left i,ExtTreeMap.getElem?_erase]
  simp only [Std.LawfulEqCmp.compare_eq_iff_eq]
  split_ifs with h1 h2 h3 h4
  · rfl
  · omega
  · rfl
  · omega
  · omega
  · rfl

theorem takeSolid_taken (h : takeSolid s fuel c = .ok (solid,c')) : Taken s c solid c' := by
  induction fuel generalizing c solid with
  | zero => cases h
  | succ fuel ih =>
    unfold takeSolid at h
    dsimp only at h
    split at h
    · cases h
      exact .nil s _
    · next p hp =>
      obtain ⟨result,ho,h⟩ := of_bind h
      cases result with
      | error missing =>
        cases h
        exact .nil s _
      | ok d =>
        obtain ⟨⟨rest,c1⟩,hr,h⟩ := of_bind h
        cases h
        exact .cons hp (tryGetOne_ok ho) (ih hr)

theorem takeSolid_progress (h : takeSolid s fuel c = .ok (solid,c')) {b : Nat}
    (hr : ∀ i, c.lastSolidCommittedIndex < i → i ≤ b → ∃ p, c.pendingSubdags[i]? = some p ∧
      ∀ g ∈ p.committedTransactionRefs, ∃ t, s.findTransactions g = some t) :
    b ≤ c'.lastSolidCommittedIndex := by
  induction fuel generalizing c solid with
  | zero => cases h
  | succ fuel ih =>
    by_cases hb : b ≤ c.lastSolidCommittedIndex
    · have := (takeSolid_taken h).last
      omega
    obtain ⟨p,hp,hf⟩ := hr (c.lastSolidCommittedIndex+1) (by omega) (by omega)
    unfold takeSolid at h
    dsimp only at h
    rw [hp] at h
    obtain ⟨result,ho,h⟩ := of_bind h
    cases result with
    | error missing =>
      obtain ⟨g,hg,hn⟩ := tryGetOne_error ho
      obtain ⟨t,ht⟩ := hf g hg
      rw [ht] at hn
      cases hn
    | ok d =>
      obtain ⟨⟨rest,c1⟩,hrs,h⟩ := of_bind h
      cases h
      refine ih hrs fun i hi hib => ?_
      dsimp only at hi ⊢
      obtain ⟨q,hq⟩ := hr i (by omega) hib
      refine ⟨q,?_,hq.2⟩
      rw [ExtTreeMap.getElem?_erase,if_neg,hq.1]
      simp only [Std.LawfulEqCmp.compare_eq_iff_eq]
      omega

theorem getElem?_addPending (pending : ExtTreeMap Nat PendingSubDag) (subdags : List PendingSubDag)
    (i : Nat) : (addPending pending subdags)[i]? =
      pending[i]?.or (subdags.find? fun d => d.commitRef.index = i) := by
  unfold addPending
  induction subdags generalizing pending with
  | nil => simp
  | cons d rest ih =>
    rw [foldl_cons,ih,ExtTreeMap.getElem?_insertIfNew,find?_cons]
    simp only [Std.LawfulEqCmp.compare_eq_iff_eq,ExtTreeMap.mem_iff_isSome_getElem?]
    by_cases hi : d.commitRef.index = i
    · subst hi
      cases pending[d.commitRef.index]? with
      | none => simp
      | some p => simp
    · simp [hi]

theorem tryGetSolidSubDags_effect {subdags : List PendingSubDag}
    {missing : Std.ExtTreeSet GenericTransactionRef}
    (h : c.tryGetSolidSubDags s subdags = .ok (solid,missing,c',s')) :
    (∃ fuel, takeSolid s fuel { c with pendingSubdags := addPending c.pendingSubdags subdags } =
      .ok (solid,c')) ∧ s' = s.updatePendingCommitVotes (solid.map fun d => d.commitRef) := by
  obtain ⟨⟨taken,c1⟩,ht,h⟩ := of_bind h
  obtain ⟨missing₁,h⟩ := ok_of_bind h
  cases h
  exact ⟨⟨_,ht⟩,rfl⟩

end CommitSolidifier
namespace CommitObserver
variable {o o' : CommitObserver ctx} {solid : List CommittedSubDag}

/-- The sub-dags `sent` among `ds` went to the consumer, in order. -/
structure Sent (o : CommitObserver ctx) (ds sent : List CommittedSubDag)
    (o' : CommitObserver ctx) : Prop where
  linearizer : o'.linearizer = o.linearizer
  solidifier : o'.commitSolidifier = o.commitSolidifier
  consumer : o'.consumer = ⟨o.consumer.lastProcessedCommitIndex,o.consumer.received ++ sent⟩
  last : o'.lastSentCommitIndex = o.lastSentCommitIndex + sent.length
  order : sent.map (fun d => d.commitRef.index) =
    range' (o.lastSentCommitIndex+1) sent.length
  mem : ∀ d ∈ sent, d ∈ ds

theorem sendSubDag_sent (h : o.sendSubDag d = .ok o') : ∃ sent, Sent o [d] sent o' := by
  unfold sendSubDag at h
  split at h
  · cases h
    refine ⟨[],rfl,rfl,?_,rfl,rfl,nofun⟩
    rw [append_nil]
  split at h
  · cases h
  · next hn =>
    cases h
    rw [not_not] at hn
    exact ⟨[d],rfl,rfl,rfl,hn,congrArg (fun i => [i]) hn,fun x hx => hx⟩

theorem Sent.trans {o1 o2 o3 : CommitObserver ctx} {ds ds' sent sent' : List CommittedSubDag}
    (h : Sent o1 ds sent o2) (h' : Sent o2 ds' sent' o3) :
    Sent o1 (ds ++ ds') (sent ++ sent') o3 where
  linearizer := h'.linearizer.trans h.linearizer
  solidifier := h'.solidifier.trans h.solidifier
  consumer := by
    rw [h'.consumer,h.consumer,append_assoc]
  last := by
    rw [h'.last,h.last,length_append]
    omega
  order := by
    rw [map_append,h.order,h'.order,h.last,length_append,Nat.add_right_comm,range'_append_1]
  mem d hd := by
    rw [mem_append] at hd ⊢
    exact hd.imp (h.mem d) (h'.mem d)

variable {ds : List CommittedSubDag}

theorem sendSubDags_sent (h : o.sendSubDags ds = .ok o') : ∃ sent, Sent o ds sent o' := by
  unfold sendSubDags at h
  induction ds generalizing o with
  | nil =>
    cases h
    refine ⟨[],rfl,rfl,?_,rfl,rfl,nofun⟩
    rw [append_nil]
  | cons d rest ih =>
    obtain ⟨o1,ho,h⟩ := of_bind h
    obtain ⟨first,hf⟩ := sendSubDag_sent ho
    obtain ⟨others,hot⟩ := ih h
    exact ⟨first ++ others,hf.trans hot⟩

theorem sendSubDag_last (h : o.sendSubDag d = .ok o') :
    d.commitRef.index ≤ o.lastSentCommitIndex+1 ∧
      o'.lastSentCommitIndex = max o.lastSentCommitIndex d.commitRef.index := by
  unfold sendSubDag at h
  split at h
  · next hle =>
    cases h
    exact ⟨by omega,by omega⟩
  split at h
  · cases h
  · next hn =>
    cases h
    dsimp only
    exact ⟨by omega,by omega⟩

theorem sendSubDags_last (h : o.sendSubDags ds = .ok o') {first : Nat}
    (hr : ds.map (fun d => d.commitRef.index) = range' first ds.length) (hne : ds ≠ []) :
    first ≤ o.lastSentCommitIndex+1 ∧
      o'.lastSentCommitIndex = max o.lastSentCommitIndex (first + ds.length - 1) := by
  unfold sendSubDags at h
  induction ds generalizing o first with
  | nil => exact absurd rfl hne
  | cons d rest ih =>
    obtain ⟨o1,ho,h⟩ := of_bind h
    rw [map_cons,length_cons,range'_succ,cons.injEq] at hr
    obtain ⟨hn,hm⟩ := sendSubDag_last ho
    rw [hr.1] at hn hm
    refine ⟨hn,?_⟩
    by_cases hrs : rest = []
    · subst hrs
      cases h
      rw [hm]
      rfl
    obtain ⟨-,hl⟩ := ih h hr.2 hrs
    rw [hl,hm,length_cons]
    omega

theorem lastSolidSubdagBase_flush (s : DagState ctx) :
    s.flush.lastSolidSubdagBase = s.lastSolidSubdagBase := by
  unfold DagState.flush
  split
  · rfl
  · exact DagState.proj_foldl DagState.lastSolidSubdagBase (f := DagState.evictHeadersOf)
      (fun _ _ => rfl) _ s.writeBuffers

theorem lastCommit_flush (s : DagState ctx) : s.flush.lastCommit = s.lastCommit :=
  congrArg DagState.CommitPart.lastCommit (DagState.commitPart_flush s)

/-- What a finalization of solid sub-dags leaves of the DAG state. -/
structure Finalized (content : GenericTransactionRef → List Nat) (s : DagState ctx)
    (solid : List CommittedSubDag) (s' : DagState ctx) : Prop where
  extended : DagState.Extends content s s'
  lastCommit : s'.lastCommit = s.lastCommit
  base : s'.lastSolidSubdagBase =
    (solid.getLast?.map CommittedSubDag.toSubDagBase).or s.lastSolidSubdagBase
  flushed : s'.commitsToWrite = []
  noFlag : s'.fastSyncOngoingFlagToWrite = none
  flag : s'.store.fastSyncOngoing =
    s.fastSyncOngoingFlagToWrite.getD s.store.fastSyncOngoing

theorem flush_finalized (content : GenericTransactionRef → List Nat) (s : DagState ctx) :
    Finalized content s [] s.flush where
  extended := .single (show DagState.Lasting content s .flush from ⟨nofun,nofun,trivial⟩) rfl
  lastCommit := lastCommit_flush s
  base := lastSolidSubdagBase_flush s
  flushed := congrArg DagState.CommitPart.commitsToWrite (DagState.commitPart_flush s)
  noFlag := DagState.fastSyncOngoingFlagToWrite_flush s
  flag := congrArg (fun p => p.store.fastSyncOngoing) (DagState.commitPart_flush s)

theorem Finalized.uncommitting {solid : List CommittedSubDag} (h : Finalized content s solid s') :
    DagState.Uncommitting content s s' := ⟨h.extended,h.lastCommit,fun _ => h.flushed⟩

theorem updateWithSolidSubdags_effect (content : GenericTransactionRef → List Nat)
    (o : CommitObserver ctx) (s : DagState ctx) (solid : List CommittedSubDag) :
    Finalized content s solid (o.updateWithSolidSubdagsAndFlush s solid).2 ∧
      ∃ l, (o.updateWithSolidSubdagsAndFlush s solid).1 = { o with linearizer := l } := by
  unfold updateWithSolidSubdagsAndFlush
  cases hl : solid.getLast? with
  | none =>
    obtain rfl := getLast?_eq_none_iff.mp hl
    exact ⟨flush_finalized content s,o.linearizer,rfl⟩
  | some d =>
    have hf := flush_finalized content (s.updateLastSolidSubdagBase d.toSubDagBase)
    have hls : DagState.Lasting content s (.updateLastSolidSubdagBase d.toSubDagBase) :=
      ⟨nofun,nofun,trivial⟩
    refine ⟨⟨(DagState.Extends.single hls rfl).trans hf.extended,hf.lastCommit,?_,
      hf.flushed,hf.noFlag,hf.flag⟩,_,rfl⟩
    rw [hl]
    exact hf.base

theorem finalizeAndSend_effect (content : GenericTransactionRef → List Nat)
    (h : o.finalizeAndSendSolidSubdags s solid = .ok (o',s')) :
    Finalized content s solid s' ∧
      ∃ l, ({ o with linearizer := l } : CommitObserver ctx).sendSubDags solid = .ok o' := by
  unfold finalizeAndSendSolidSubdags at h
  obtain ⟨hf,l,ho⟩ := updateWithSolidSubdags_effect content o s solid
  generalize o.updateWithSolidSubdagsAndFlush s solid = p at h hf ho
  obtain ⟨o1,s1⟩ := p
  obtain ⟨o2,hs,h⟩ := of_bind h
  cases h
  obtain rfl : o1 = _ := ho
  exact ⟨hf,l,hs⟩

def Built (s : DagState ctx) (x : TrustedCommit) (d : CommittedSubDag) : Prop :=
  d.commitRef = x.reference ∧
    Forall₂ (fun g t => s.findTransactions g = some t) x.committedTransactions d.transactions

theorem buildCommittedSubdag_built {x : TrustedCommit} {scores : List (Nat × Nat)}
    (h : buildCommittedSubdag s x scores = .ok (some d)) : Built s x d := by
  obtain ⟨result,ha,h⟩ := of_bind h
  cases result with
  | error missing => cases h
  | ok transactions =>
    cases h
    exact ⟨rfl,DagState.tryGetAll_ok ha⟩

theorem buildUnprocessed_built {scores : List (Nat × Nat)} {expected : Nat}
    {commits : List TrustedCommit} (h : buildUnprocessed s scores expected commits = .ok ds) :
    ds.map (fun d => d.commitRef.index) = range' expected ds.length ∧
      ds.length ≤ commits.length ∧ ∀ d ∈ ds, ∃ x ∈ commits, Built s x d := by
  induction commits generalizing expected ds with
  | nil =>
    cases h
    exact ⟨rfl,le_rfl,nofun⟩
  | cons x rest ih =>
    unfold buildUnprocessed at h
    split at h
    · cases h
    · next hi =>
      rw [not_not] at hi
      obtain ⟨result,hbd,h⟩ := of_bind h
      cases result with
      | none =>
        cases h
        exact ⟨rfl,Nat.zero_le _,nofun⟩
      | some d =>
        obtain ⟨others,hr,h⟩ := of_bind h
        cases h
        obtain ⟨hrn,hl,hm⟩ := ih hr
        have hbl := buildCommittedSubdag_built hbd
        refine ⟨?_,Nat.succ_le_succ hl,fun y hy => ?_⟩
        · rw [map_cons,hrn,length_cons,range'_succ,hbl.1]
          exact congrArg (· :: _) hi
        rcases mem_cons.mp hy with rfl | hy
        · exact ⟨x,mem_cons_self,hbl⟩
        · obtain ⟨z,hz,hb⟩ := hm y hy
          exact ⟨z,mem_cons_of_mem _ hz,hb⟩

theorem initializeLastSolid_effect (content : GenericTransactionRef → List Nat)
    {lastProcessed : Nat} (h : o.initializeLastSolid s lastProcessed = .ok (o',s')) :
    (∃ l, o' = { o with linearizer := l }) ∧ (s' = s ∨ ∃ x d, 0 < lastProcessed ∧
      x ∈ s.store.scanCommits lastProcessed lastProcessed ∧ Built s x d ∧
      Finalized content s [d] s') := by
  unfold initializeLastSolid at h
  split at h
  · cases h
    exact ⟨⟨o.linearizer,rfl⟩,.inl rfl⟩
  · next hps =>
    split at h
    · cases h
      exact ⟨⟨o.linearizer,rfl⟩,.inl rfl⟩
    · next x rest hs =>
      obtain ⟨result,hb,h⟩ := of_bind h
      cases result with
      | none =>
        cases h
        exact ⟨⟨o.linearizer,rfl⟩,.inl rfl⟩
      | some d =>
        obtain ⟨hf,l,ho⟩ := updateWithSolidSubdags_effect content o s [d]
        have hp := ok.inj h
        rw [hp] at hf ho
        refine ⟨⟨l,ho⟩,.inr ⟨x,d,Nat.pos_of_ne_zero hps,?_,buildCommittedSubdag_built hb,hf⟩⟩
        rw [hs]
        exact mem_cons_self

end CommitObserver
end Iota.Starfish
