import Iota.Starfish.CommitObserver.Effects

/-! Sub-dags in wait stand for logged commits. The consumer receives sub-dags with consecutive
indices, each with the transactions its commit names. -/
namespace Iota.Starfish
open CommitSolidifier DagState Except List
open Std (ExtTreeMap)
namespace CommitObserver
variable {ctx : Context} {content : GenericTransactionRef → List Nat} {o o' : CommitObserver ctx}
  {s s' : DagState ctx} {solid : List CommittedSubDag} {subdags : List PendingSubDag}

structure ObserverInv (content : GenericTransactionRef → List Nat) (o : CommitObserver ctx)
    (s : DagState ctx) : Prop where
  log : CommitLog s
  transactions : TransactionInv content s
  pending : ∀ i p, o.commitSolidifier.pendingSubdags[i]? = some p →
    p.commitRef.index = i ∧ FromLog s p

/-- The consumer was sent the commits after the one it starts from, without a gap or a repetition,
and each of them complete. -/
structure Delivered (content : GenericTransactionRef → List Nat) (o : CommitObserver ctx)
    (s : DagState ctx) : Prop where
  last : o.lastSentCommitIndex =
    o.consumer.lastProcessedCommitIndex + o.consumer.received.length
  order : o.consumer.received.map (fun d => d.commitRef.index) =
    List.range' (o.consumer.lastProcessedCommitIndex+1) o.consumer.received.length
  complete : ∀ d ∈ o.consumer.received, Complete content s d

theorem ObserverInv.extends (hi : ObserverInv content o s) (h : Extends content s s')
    (hs : o'.commitSolidifier = o.commitSolidifier) : ObserverInv content o' s' where
  log := h.commitLog hi.log
  transactions := h.transactionInv hi.transactions
  pending i p hp := by
    rw [hs] at hp
    obtain ⟨hin,hf⟩ := hi.pending i p hp
    exact ⟨hin,hf.extends h hi.log⟩

theorem Delivered.extends (hd : Delivered content o s) (hi : ObserverInv content o s)
    (h : Extends content s s') : Delivered content o s' where
  last := hd.last
  order := hd.order
  complete d hm := (hd.complete d hm).extends h hi.log hi.transactions

theorem Delivered.send (hd : Delivered content o s) (hc : ∀ d ∈ solid, Complete content s d)
    (h : o.sendSubDags solid = .ok o') : Delivered content o' s := by
  obtain ⟨sent,hs⟩ := sendSubDags_sent h
  constructor
  · rw [hs.last,hd.last,hs.consumer,length_append,Nat.add_assoc]
  · rw [hs.consumer,map_append,hs.order,hd.order,hd.last,length_append,
      Nat.add_right_comm,List.range'_append_1]
  intro d hm
  rw [hs.consumer] at hm
  rcases mem_append.mp hm with hm | hm
  · exact hd.complete d hm
  · exact hc d (hs.mem d hm)

/-- New sub-dags join those in wait; the solid ones are finalized and sent. -/
structure Solidifying (content : GenericTransactionRef → List Nat) (o : CommitObserver ctx)
    (s : DagState ctx) (subdags : List PendingSubDag) (solid : List CommittedSubDag)
    (o' : CommitObserver ctx) (s' : DagState ctx) : Prop where
  take : ∃ fuel, takeSolid s fuel { o.commitSolidifier with
    pendingSubdags := addPending o.commitSolidifier.pendingSubdags subdags } =
    .ok (solid,o'.commitSolidifier)
  send : ∃ l, sendSubDags { o with
    linearizer := l, commitSolidifier := o'.commitSolidifier } solid = .ok o'
  finalized : Finalized content s solid s'

theorem solidifying_of_ok {missing : Std.ExtTreeSet GenericTransactionRef} {c' : CommitSolidifier}
    {s1 : DagState ctx} {l : Linearizer ctx}
    (h : o.commitSolidifier.tryGetSolidSubDags s subdags = .ok (solid,missing,c',s1))
    (h' : finalizeAndSendSolidSubdags { o with linearizer := l, commitSolidifier := c' } s1 solid =
      .ok (o',s')) : Solidifying content o s subdags solid o' s' := by
  obtain ⟨ht,rfl⟩ := tryGetSolidSubDags_effect h
  obtain ⟨hf,l',hs⟩ := finalizeAndSend_effect content h'
  obtain ⟨sent,hsn⟩ := sendSubDags_sent hs
  have hsl : o'.commitSolidifier = c' := hsn.solidifier
  have hl : Lasting content s
      (.updatePendingCommitVotes (solid.map fun d => d.commitRef)) := ⟨nofun,nofun,trivial⟩
  constructor
  · rw [hsl]
    exact ht
  · rw [hsl]
    exact ⟨l',hs⟩
  · exact ⟨(Extends.single hl rfl).trans hf.extended,hf.lastCommit,
      hf.base,hf.flushed,hf.noFlag,hf.flag⟩

theorem ObserverInv.pending_added (hi : ObserverInv content o s)
    (hn : ∀ p ∈ subdags, FromLog s p) {i : Nat} {p : PendingSubDag}
    (hp : (addPending o.commitSolidifier.pendingSubdags subdags)[i]? = some p) :
    p.commitRef.index = i ∧ FromLog s p := by
  rw [getElem?_addPending] at hp
  cases ho : o.commitSolidifier.pendingSubdags[i]? with
  | some q =>
    rw [ho] at hp
    obtain rfl := Option.some.inj hp
    exact hi.pending i q ho
  | none =>
    rw [ho,Option.none_or] at hp
    exact ⟨by simpa using List.find?_some hp,hn p (mem_of_find?_eq_some hp)⟩

section
variable (h : Solidifying content o s subdags solid o' s')

include h

theorem Solidifying.observerInv (hi : ObserverInv content o s) (hn : ∀ p ∈ subdags, FromLog s p) :
    ObserverInv content o' s' := by
  obtain ⟨fuel,ht⟩ := h.take
  have he := h.finalized.extended
  refine ⟨he.commitLog hi.log,he.transactionInv hi.transactions,fun i p hp => ?_⟩
  rw [(takeSolid_taken ht).left i] at hp
  split at hp
  · cases hp
  · obtain ⟨hin,hf⟩ := hi.pending_added hn hp
    exact ⟨hin,hf.extends he hi.log⟩

theorem Solidifying.consecutive (hi : ObserverInv content o s) (hn : ∀ p ∈ subdags, FromLog s p) :
    solid.map (fun d => d.commitRef.index) =
      List.range' (o.commitSolidifier.lastSolidCommittedIndex+1) solid.length := by
  obtain ⟨fuel,ht⟩ := h.take
  rw [← map_id (List.range' _ _)]
  refine ((takeSolid_taken ht).taken.map_eq fun i d hd => ?_).symm
  obtain ⟨p,hp,hs,-⟩ := hd
  rw [hs]
  exact (hi.pending_added hn hp).1.symm

theorem Solidifying.complete (hgenesis : ∀ g, g.round = genesisRound → content g = [])
    (hi : ObserverInv content o s) (hn : ∀ p ∈ subdags, FromLog s p) :
    ∀ d ∈ solid, Complete content s d := by
  intro d hd
  obtain ⟨fuel,ht⟩ := h.take
  obtain ⟨i,-,p,hp,hb,hf⟩ := (takeSolid_taken ht).taken.flip.exists_right hd
  obtain ⟨x,hx,hrf,hr⟩ := (hi.pending_added hn hp).2
  rw [← hr] at hf
  exact hi.transactions.complete hgenesis hx (by rw [hb,hrf]) hf

theorem Solidifying.delivered (hgenesis : ∀ g, g.round = genesisRound → content g = [])
    (hi : ObserverInv content o s) (hn : ∀ p ∈ subdags, FromLog s p)
    (hd : Delivered content o s) : Delivered content o' s' := by
  have hd' := hd.extends hi h.finalized.extended
  obtain ⟨l,hsn⟩ := h.send
  have hs : Delivered content ({ o with
      linearizer := l, commitSolidifier := o'.commitSolidifier } : CommitObserver ctx) s' :=
    ⟨hd'.last,hd'.order,hd'.complete⟩
  exact hs.send (fun d hm => (h.complete hgenesis hi hn d hm).extends
    h.finalized.extended hi.log hi.transactions) hsn

end

variable {schedule : LeaderSchedule}

theorem handleCommittedLeaders_effect (content : GenericTransactionRef → List Nat)
    {leaders : List VerifiedBlockHeader}
    {pending : List PendingSubDag} {authors : ExtTreeMap GenericTransactionRef (Finset Nat)}
    (h : o.handleCommittedLeaders schedule s leaders = .ok (pending,authors,o',s')) :
    ∃ l' s1 solid, o.linearizer.getPendingSubDags schedule s leaders = .ok (pending,l',s1) ∧
      Solidifying content o s1 pending solid o' s' := by
  obtain ⟨⟨pending₁,l1,s1⟩,hg,h⟩ := of_bind h
  obtain ⟨⟨solid,missing,c1,s2⟩,hs,h⟩ := of_bind h
  obtain ⟨⟨o1,s3⟩,hf,h⟩ := of_bind h
  cases h
  exact ⟨l1,s1,solid,hg,solidifying_of_ok hs hf⟩

section Recovery

variable {x : TrustedCommit}

theorem mem_scanCommits_logged {first last : Nat}
    (h : x ∈ s.store.scanCommits first last) : s.Logged x := by
  obtain ⟨k,hk,-⟩ := s.store.mem_scanCommits.mp h
  exact .inl ⟨k,hk⟩

theorem Built.complete {d : CommittedSubDag} (hd : Built s x d)
    (hgenesis : ∀ g, g.round = genesisRound → content g = []) (hi : ObserverInv content o s)
    (hx : s.Logged x) : Complete content s d :=
  hi.transactions.complete hgenesis hx hd.1.symm hd.2

theorem Finalized.lastSolidCommitIndex {d : CommittedSubDag}
    (h : Finalized content s solid s') (hl : solid.getLast? = some d) :
    s'.lastSolidCommitIndex = d.commitRef.index := by
  unfold DagState.lastSolidCommitIndex
  rw [h.base,hl]
  rfl

theorem lastSolidCommitIndex_congr (h : s'.lastSolidSubdagBase = s.lastSolidSubdagBase) :
    s'.lastSolidCommitIndex = s.lastSolidCommitIndex := by
  unfold lastSolidCommitIndex
  rw [h]

theorem Finalized.lastSolidCommitIndex_nil (h : Finalized content s [] s') :
    s'.lastSolidCommitIndex = s.lastSolidCommitIndex := lastSolidCommitIndex_congr h.base

theorem lastCommitIndex_congr (h : s'.lastCommit = s.lastCommit) :
    s'.lastCommitIndex = s.lastCommitIndex := by
  unfold lastCommitIndex
  rw [h]

theorem Finalized.lastSolidCommitIndex_range (h : Finalized content s solid s') {first : Nat}
    (hr : solid.map (fun d => d.commitRef.index) = List.range' first solid.length)
    (hne : solid ≠ []) : s'.lastSolidCommitIndex = first + solid.length - 1 := by
  have hp := length_pos_of_ne_nil hne
  have hl : (solid.map fun d => d.commitRef.index).getLast? = some (first + solid.length - 1) := by
    rw [hr,List.getLast?_range',if_neg hp.ne']
  rw [List.getLast?_map] at hl
  obtain ⟨d,hd,hi⟩ := Option.map_eq_some_iff.mp hl
  rw [h.lastSolidCommitIndex hd,hi]

variable {refOrder : HashOrder BlockRef} {slotOrder : HashOrder Slot}

/-- What sending unprocessed commits again does, for an observer that starts after the last
processed one. -/
structure Resent (content : GenericTransactionRef → List Nat) (o : CommitObserver ctx)
    (s : DagState ctx) (o' : CommitObserver ctx) (s' : DagState ctx) : Prop extends
    Uncommitting content s s' where
  solidifier : o'.commitSolidifier = o.commitSolidifier
  sent_le : o.lastSentCommitIndex ≤ o'.lastSentCommitIndex
  base : s'.lastSolidCommitIndex = s.lastSolidCommitIndex ∨
    s'.lastSolidCommitIndex = o'.lastSentCommitIndex
  delivered : Delivered content o s → Delivered content o' s'
  flag : s.fastSyncOngoingFlagToWrite = none → s'.fastSyncOngoingFlagToWrite = none ∧
    s'.store.fastSyncOngoing = s.store.fastSyncOngoing

theorem Finalized.flag_of_none (h : Finalized content s solid s')
    (hn : s.fastSyncOngoingFlagToWrite = none) :
    s'.fastSyncOngoingFlagToWrite = none ∧ s'.store.fastSyncOngoing = s.store.fastSyncOngoing := by
  refine ⟨h.noFlag,?_⟩
  rw [h.flag,hn]
  rfl

variable {lastProcessed : Nat}

theorem initializeLastSolid_resent (hi : ObserverInv content o s)
    (hst : o.lastSentCommitIndex = lastProcessed)
    (h : o.initializeLastSolid s lastProcessed = .ok (o',s')) :
    Resent content o s o' s' ∧ o'.lastSentCommitIndex = o.lastSentCommitIndex := by
  obtain ⟨⟨l,rfl⟩,hs⟩ := initializeLastSolid_effect content h
  refine ⟨?_,rfl⟩
  rcases hs with rfl | ⟨x,d,-,hx,hb,hf⟩
  · exact ⟨.refl content _,rfl,le_rfl,.inl rfl,fun hd => ⟨hd.last,hd.order,hd.complete⟩,
      fun hn => ⟨hn,rfl⟩⟩
  refine ⟨hf.uncommitting,rfl,le_rfl,.inr ?_,fun hd => ?_,hf.flag_of_none⟩
  · obtain ⟨k,hk,hge,hle⟩ := s.store.mem_scanCommits.mp hx
    have hin : d.commitRef.index = k.index := by
      rw [hb.1]
      exact congrArg CommitRef.index (hi.log.key hk)
    have hl := hf.lastSolidCommitIndex (d := d) rfl
    show s'.lastSolidCommitIndex = o.lastSentCommitIndex
    omega
  · have hd' := hd.extends hi hf.extended
    exact ⟨hd'.last,hd'.order,hd'.complete⟩

theorem Resent.refl (content : GenericTransactionRef → List Nat) (o : CommitObserver ctx)
    (s : DagState ctx) : Resent content o s o s :=
  ⟨.refl content s,rfl,le_rfl,.inl rfl,id,fun hn => ⟨hn,rfl⟩⟩

theorem resendUnprocessed_resent {lastProcessed lastIndex : Nat}
    (hgenesis : ∀ g, g.round = genesisRound → content g = []) (hi : ObserverInv content o s)
    (hst : o.lastSentCommitIndex = lastProcessed) (hsd : lastIndex ≤ storedIndex s.store)
    (h : o.resendUnprocessedSolidCommits schedule s lastProcessed lastIndex = .ok (o',s')) :
    Resent content o s o' s' ∧ o'.lastSentCommitIndex ≤ max o.lastSentCommitIndex lastIndex := by
  unfold resendUnprocessedSolidCommits at h
  split at h
  · obtain ⟨hrs,hl⟩ := initializeLastSolid_resent hi hst h
    exact ⟨hrs,by omega⟩
  · next hlt =>
    obtain ⟨ds,hb,h⟩ := of_bind h
    obtain ⟨⟨o1,s1⟩,hin,h⟩ := of_bind h
    obtain ⟨hr,hln,hbl⟩ := buildUnprocessed_built hb
    have hcn : (s.store.scanCommits (lastProcessed+1) lastIndex).length =
        lastIndex - lastProcessed := by
      have hsc := congrArg List.length
        (hi.log.index_scanCommits (Nat.le_add_left 1 lastProcessed) hsd)
      rw [length_map,length_range'] at hsc
      omega
    obtain ⟨hf,hl⟩ : Resent content o s o1 s1 ∧
        o1.lastSentCommitIndex = o.lastSentCommitIndex := by
      split at hin
      · exact initializeLastSolid_resent hi hst hin
      · cases hin
        exact ⟨.refl content _ _,rfl⟩
    obtain ⟨hfn,l,hs⟩ := finalizeAndSend_effect content h
    obtain ⟨sent,hsn⟩ := sendSubDags_sent hs
    have hc : ∀ d ∈ ds, Complete content s' d := by
      intro d hd
      obtain ⟨x,hx,hxd⟩ := hbl d hd
      exact (hxd.complete hgenesis hi (mem_scanCommits_logged hx)).extends
        (hf.extended.trans hfn.extended) hi.log hi.transactions
    have hdl : Delivered content o s → Delivered content o' s' := by
      intro hd
      have hd' := (hf.delivered hd).extends (hi.extends hf.extended hf.solidifier) hfn.extended
      have hsm : Delivered content ({ o1 with linearizer := l } : CommitObserver ctx) s' :=
        ⟨hd'.last,hd'.order,hd'.complete⟩
      exact hsm.send hc hs
    have hfl : s.fastSyncOngoingFlagToWrite = none → s'.fastSyncOngoingFlagToWrite = none ∧
        s'.store.fastSyncOngoing = s.store.fastSyncOngoing := by
      intro hn
      obtain ⟨hn1,hf1⟩ := hf.flag hn
      obtain ⟨hn',hf'⟩ := hfn.flag_of_none hn1
      exact ⟨hn',hf'.trans hf1⟩
    have hbf : ({ o1 with linearizer := l } : CommitObserver ctx).lastSentCommitIndex =
        o.lastSentCommitIndex := hl
    by_cases he : ds = []
    · subst he
      have hsent_last : o'.lastSentCommitIndex = o.lastSentCommitIndex := by
        rw [← ok.inj hs]
        exact hl
      refine ⟨⟨hf.toUncommitting.trans hfn.uncommitting,?_,by omega,?_,hdl,hfl⟩,by omega⟩
      · rw [hsn.solidifier]
        exact hf.solidifier
      · rw [hfn.lastSolidCommitIndex_nil,hsent_last,← hl]
        exact hf.base
    · obtain ⟨-,hm⟩ := sendSubDags_last hs hr he
      have hid := hfn.lastSolidCommitIndex_range hr he
      refine ⟨⟨hf.toUncommitting.trans hfn.uncommitting,?_,by omega,.inr (by omega),
        hdl,hfl⟩,by omega⟩
      rw [hsn.solidifier]
      exact hf.solidifier

theorem loadSubDagBase_commitRef {store : Store} {base : SubDagBase}
    (h : store.loadSubDagBase x = .ok base) : base.commitRef = x.reference := by
  obtain ⟨headers,h⟩ := ok_of_bind h
  split at h
  · cases h
    rfl
  · cases h

theorem recoverCommits_pending
    {store : Store} {linearizerStart solidifierStart : Nat} {commits : List TrustedCommit}
    {l l' : Linearizer ctx} {before pending : List PendingSubDag}
    (h : commits.foldlM (recoverCommit refOrder slotOrder store linearizerStart solidifierStart)
      (l,before) = .ok (l',pending)) :
    ∃ new, pending = before ++ new ∧
      List.Forall₂ (fun (x : TrustedCommit) (p : PendingSubDag) => p.commitRef = x.reference ∧
        p.committedTransactionRefs = x.committedTransactions)
        (commits.filter fun x => solidifierStart ≤ x.index) new := by
  induction commits generalizing l before with
  | nil =>
    cases h
    exact ⟨[],(append_nil _).symm,.nil⟩
  | cons x rest ih =>
    obtain ⟨⟨l1,before₁⟩,ho,h⟩ := of_bind h
    obtain ⟨new,hp,hn⟩ := ih h
    obtain ⟨base,hb,ho⟩ := of_bind ho
    obtain ⟨l2,ho⟩ := ok_of_bind ho
    cases ho
    by_cases hs : solidifierStart ≤ x.index
    · rw [if_pos hs,append_assoc] at hp
      rw [filter_cons_of_pos (by simpa using hs)]
      exact ⟨_,hp,.cons ⟨loadSubDagBase_commitRef hb,rfl⟩ hn⟩
    rw [if_neg hs] at hp
    rw [filter_cons_of_neg (by simpa using hs)]
    exact ⟨new,hp,hn⟩

theorem filter_scanCommits (hl : CommitLog s) {first start lastIndex : Nat} (hf : first ≤ start) :
    (s.store.scanCommits first lastIndex).filter (fun x => start ≤ x.index) =
      s.store.scanCommits start lastIndex := by
  unfold Store.scanCommits
  rw [filter_map,filter_filter]
  refine congrArg (List.map Prod.snd) (filter_congr fun p hp => ?_)
  have hi : p.2.index = p.1.index := congrArg CommitRef.index
    (hl.key (ExtTreeMap.mem_toList_iff_getElem?_eq_some.mp hp))
  simp only [Function.comp_apply,hi,Bool.decide_and]
  by_cases hs : start ≤ p.1.index
  · simp [hs,le_trans hf hs]
  · simp [hs]

/-- The second phase of recovery: the solidifier continues after the last sent commit, with all
later commits in wait. -/
theorem recoverState_effect
    {lastIndex : Nat} (content : GenericTransactionRef → List Nat) (hl : CommitLog s)
    (hst : lastIndex = storedIndex s.store)
    (h : o.recoverLinearizerAndSolidifierState refOrder slotOrder s lastIndex = .ok (o',s')) :
    ∃ l pending, pending.map (fun p => p.commitRef.index) =
        List.range' (o.lastSentCommitIndex+1) (lastIndex - o.lastSentCommitIndex) ∧
      (∀ p ∈ pending, FromLog s p) ∧
      (pending = [] ∧ s' = s ∧ o' = { o with linearizer := l, commitSolidifier :=
          o.commitSolidifier.setLastSolidCommittedIndex o.lastSentCommitIndex } ∨
        ∃ solid, Solidifying content { o with linearizer := l, commitSolidifier :=
          o.commitSolidifier.setLastSolidCommittedIndex o.lastSentCommitIndex } s pending solid
          o' s') := by
  obtain ⟨⟨l,pending⟩,hf,h⟩ := of_bind h
  obtain ⟨new,hpn,hn⟩ := recoverCommits_pending hf
  subst hpn
  rw [filter_scanCommits hl (min_le_right _ _)] at hn
  refine ⟨l,pending,?_,fun p hp => ?_,?_⟩
  · have hs := hl.index_scanCommits (Nat.le_add_left 1 o.lastSentCommitIndex) hst.le
    rw [Nat.add_sub_add_right] at hs
    rw [← hs]
    exact (hn.map_eq fun x p hp => (congrArg CommitRef.index hp.1).symm).symm
  · obtain ⟨x,hx,hrf,hr⟩ := hn.flip.exists_right hp
    exact ⟨x,mem_scanCommits_logged hx,hrf.symm,hr.symm⟩
  dsimp only at h
  split at h
  · next he =>
    cases h
    exact .inl ⟨he,rfl,rfl⟩
  · obtain ⟨⟨solid,missing,c1,s1⟩,hsl,h⟩ := of_bind h
    exact .inr ⟨solid,solidifying_of_ok hsl h⟩

section
variable (hgenesis : ∀ g, g.round = genesisRound → content g = [])

include hgenesis

theorem recoverAndSend_effect (hi : ObserverInv content o s)
    (hs : o.lastSentCommitIndex = lastProcessed) (hfl : s.commitsToWrite = [])
    (h : o.recoverAndSendCommits refOrder slotOrder schedule s lastProcessed = .ok (o',s')) :
    lastProcessed ≤ s.lastCommitIndex ∧ (s.lastCommitIndex = 0 ∧ o' = o ∧ s' = s ∨
      ∃ o1 s1, o.resendUnprocessedSolidCommits schedule s lastProcessed s.lastCommitIndex =
          .ok (o1,s1) ∧
        Resent content o s o1 s1 ∧ o1.lastSentCommitIndex ≤ s.lastCommitIndex ∧
        (s1.store.fastSyncOngoing = true ∧ o' = o1 ∧ s' = s1 ∨
          o1.recoverLinearizerAndSolidifierState refOrder slotOrder s1 s.lastCommitIndex =
            .ok (o',s'))) := by
  have hin := hi.log.storedIndex_eq hfl
  have hu : o.recoverAndSendCommits refOrder slotOrder schedule s lastProcessed =
      if storedIndex s.store < lastProcessed then .error .consensusBehindNode
      else if storedIndex s.store = 0 then .ok (o,s)
      else o.resendUnprocessedSolidCommits schedule s lastProcessed
          (storedIndex s.store) >>= fun p =>
        if p.2.store.fastSyncOngoing then .ok (p.1,p.2)
        else p.1.recoverLinearizerAndSolidifierState refOrder slotOrder p.2
          (storedIndex s.store) := rfl
  rw [hu,hin] at h
  split at h
  · cases h
  · next hle =>
    refine ⟨Nat.le_of_not_lt hle,?_⟩
    split at h
    · next hz =>
      cases h
      exact .inl ⟨hz,rfl,rfl⟩
    obtain ⟨⟨o1,s1⟩,hr,h⟩ := of_bind h
    obtain ⟨hrs,hm⟩ := resendUnprocessed_resent hgenesis hi hs hin.ge hr
    refine .inr ⟨o1,s1,hr,hrs,by omega,?_⟩
    split at h
    · next hf =>
      cases h
      exact .inl ⟨hf,rfl,rfl⟩
    · exact .inr h

theorem recoverState_inv {lastIndex : Nat}
    (hi : ObserverInv content o s) (hst : lastIndex = storedIndex s.store)
    (h : o.recoverLinearizerAndSolidifierState refOrder slotOrder s lastIndex = .ok (o',s')) :
    Extends content s s' ∧ ObserverInv content o' s' ∧
      (Delivered content o s → Delivered content o' s') := by
  obtain ⟨l,pending,-,hf,hc⟩ := recoverState_effect content hi.log hst h
  rcases hc with ⟨-,rfl,rfl⟩ | ⟨solid,hs⟩
  · exact ⟨.refl content _,⟨hi.log,hi.transactions,hi.pending⟩,fun hd =>
      ⟨hd.last,hd.order,hd.complete⟩⟩
  have hi' : ObserverInv content ({ o with linearizer := l, commitSolidifier :=
      o.commitSolidifier.setLastSolidCommittedIndex o.lastSentCommitIndex } :
      CommitObserver ctx) s := ⟨hi.log,hi.transactions,hi.pending⟩
  exact ⟨hs.finalized.extended,hs.observerInv hi' hf,fun hd =>
    hs.delivered hgenesis hi' hf ⟨hd.last,hd.order,hd.complete⟩⟩

theorem recoverAndSend_inv (hi : ObserverInv content o s)
    (hs : o.lastSentCommitIndex = lastProcessed) (hf : s.commitsToWrite = [])
    (h : o.recoverAndSendCommits refOrder slotOrder schedule s lastProcessed = .ok (o',s')) :
    Extends content s s' ∧ ObserverInv content o' s' ∧
      (Delivered content o s → Delivered content o' s') := by
  obtain ⟨-,⟨-,rfl,rfl⟩ | ⟨o1,s1,-,hr,-,hc⟩⟩ := recoverAndSend_effect hgenesis hi hs hf h
  · exact ⟨.refl content _,hi,id⟩
  have hi1 := hi.extends hr.extended hr.solidifier
  rcases hc with ⟨-,rfl,rfl⟩ | hst
  · exact ⟨hr.extended,hi1,hr.delivered⟩
  have hsr : s.lastCommitIndex = storedIndex s1.store := by
    rw [hi1.log.storedIndex_eq (hr.flushed hf)]
    exact (lastCommitIndex_congr hr.lastCommit).symm
  obtain ⟨he,hi',hdl⟩ := recoverState_inv hgenesis hi1 hsr hst
  exact ⟨hr.extended.trans he,hi',fun hd => hdl (hr.delivered hd)⟩

end
end Recovery
end CommitObserver
end Iota.Starfish
