import Iota.Starfish.Core.Delivery

/-! The solidifier and the fast sync both advance the last solid sub-dag. It never moves back in
runs whose fast syncs do not overtake a sub-dag in wait. -/
namespace Iota.Starfish
open CommitSolidifier DagState Except List Std.ExtTreeMap
open Std (ExtTreeMap)
variable {ctx : Context} {content : GenericTransactionRef → List Nat} {lastProcessed : Nat}
variable {p : PendingSubDag}
namespace CommitObserver
variable {o o' : CommitObserver ctx} {s s' : DagState ctx} {solid : List CommittedSubDag}
  {subdags : List PendingSubDag} {m : Nat}

/-- The transactions of a sub-dag in wait have all arrived. -/
def Ready (s : DagState ctx) (p : PendingSubDag) : Prop :=
  ∀ g ∈ p.committedTransactionRefs, ∃ r, g = .transactionRef r ∧ s.containsTransaction g = true

theorem Ready.extends (hp : Ready s p) (h : Extends content s s')
    (hi : TransactionInv content s) : Ready s' p := by
  intro g hg
  obtain ⟨r,hr,hc⟩ := hp g hg
  exact ⟨r,hr,h.contains hi hc⟩

theorem Ready.find (hp : Ready s p) {g : GenericTransactionRef}
    (hg : g ∈ p.committedTransactionRefs) : ∃ t, s.findTransactions g = some t := by
  obtain ⟨r,rfl,hc⟩ := hp g hg
  exact exists_find_of_contains hc

def NextWaits (o : CommitObserver ctx) : Prop :=
  o.commitSolidifier.lastSolidCommittedIndex+1 ∈ o.commitSolidifier.pendingSubdags

/-- With commits up to `m`: while the next sub-dag waits so do all later ones, those up to the last
solid sub-dag are ready, and nothing beyond them was sent. -/
structure SolidInv (o : CommitObserver ctx) (s : DagState ctx) (m : Nat) : Prop where
  base_le : s.lastSolidCommitIndex ≤ m
  solid_le : o.commitSolidifier.lastSolidCommittedIndex ≤ m
  pending_le : ∀ i ∈ o.commitSolidifier.pendingSubdags, i ≤ m
  contiguous : NextWaits o → ∀ i, o.commitSolidifier.lastSolidCommittedIndex < i → i ≤ m →
    i ∈ o.commitSolidifier.pendingSubdags
  ready : NextWaits o → ∀ i p, o.commitSolidifier.lastSolidCommittedIndex < i →
    i ≤ s.lastSolidCommitIndex → o.commitSolidifier.pendingSubdags[i]? = some p → Ready s p
  sent : NextWaits o → o.lastSentCommitIndex =
    max s.lastSolidCommitIndex o.commitSolidifier.lastSolidCommittedIndex
  sent_all : o.commitSolidifier.lastSolidCommittedIndex = m →
    o.lastSentCommitIndex = o.commitSolidifier.lastSolidCommittedIndex

theorem SolidInv.extends (hi : SolidInv o s m) (h : Extends content s s')
    (ht : TransactionInv content s) (hb : s'.lastSolidCommitIndex = s.lastSolidCommitIndex)
    (hs : o'.commitSolidifier = o.commitSolidifier)
    (hl : o'.lastSentCommitIndex = o.lastSentCommitIndex) : SolidInv o' s' m := by
  have hn : NextWaits o' ↔ NextWaits o := by
    unfold NextWaits
    rw [hs]
  constructor
  · rw [hb]
    exact hi.base_le
  · rw [hs]
    exact hi.solid_le
  · rw [hs]
    exact hi.pending_le
  · rw [hn,hs]
    exact hi.contiguous
  · rw [hn,hs,hb]
    exact fun hw i p hlt hle hp => (hi.ready hw i p hlt hle hp).extends h ht
  · rw [hn,hs,hb,hl]
    exact hi.sent
  · rw [hs,hl]
    exact hi.sent_all

theorem mem_addPending {pending : ExtTreeMap Nat PendingSubDag}
    (hr : subdags.map (fun p => p.commitRef.index) = List.range' (m+1) subdags.length)
    {i : Nat} : i ∈ addPending pending subdags ↔
      i ∈ pending ∨ m < i ∧ i ≤ m + subdags.length := by
  have hn : (subdags.find? fun d => d.commitRef.index = i).isSome ↔
      m < i ∧ i ≤ m + subdags.length := by
    have hm : i ∈ subdags.map (fun p => p.commitRef.index) ↔ m < i ∧ i ≤ m + subdags.length := by
      rw [hr,mem_range'_1]
      omega
    rw [List.find?_isSome,← hm,mem_map]
    simp
  rw [mem_iff_isSome_getElem?,getElem?_addPending,
    Option.isSome_or,Bool.or_eq_true,hn,← mem_iff_isSome_getElem?]

theorem SolidInv.joined (hi : SolidInv o s m)
    (hr : subdags.map (fun p => p.commitRef.index) = List.range' (m+1) subdags.length)
    (hn : o.commitSolidifier.lastSolidCommittedIndex+1 ∈
      addPending o.commitSolidifier.pendingSubdags subdags) :
    (∀ i, o.commitSolidifier.lastSolidCommittedIndex < i → i ≤ m + subdags.length →
      i ∈ addPending o.commitSolidifier.pendingSubdags subdags) ∧
    (∀ i p, o.commitSolidifier.lastSolidCommittedIndex < i → i ≤ s.lastSolidCommitIndex →
      (addPending o.commitSolidifier.pendingSubdags subdags)[i]? = some p →
        Ready s p) ∧
    o.lastSentCommitIndex =
      max s.lastSolidCommitIndex o.commitSolidifier.lastSolidCommittedIndex := by
  have hb := hi.base_le
  rcases (mem_addPending hr).mp hn with hw | hnw
  · refine ⟨fun i hlt hle => (mem_addPending hr).mpr ?_,fun i p hlt hle hp => ?_,hi.sent hw⟩
    · by_cases hm : i ≤ m
      · exact .inl (hi.contiguous hw i hlt hm)
      · exact .inr ⟨by omega,hle⟩
    have hmm := hi.contiguous hw i hlt (hle.trans hb)
    obtain ⟨q,hq⟩ := Option.isSome_iff_exists.mp (mem_iff_isSome_getElem?.mp hmm)
    rw [getElem?_addPending,hq] at hp
    obtain rfl := Option.some.inj hp
    exact hi.ready hw i q hlt hle hq
  · -- everything up to `m` is solid, only new sub-dags wait
    have ha : o.commitSolidifier.lastSolidCommittedIndex = m := by
      have := hi.solid_le
      omega
    have hs := hi.sent_all ha
    refine ⟨fun i hlt hle => (mem_addPending hr).mpr (.inr ⟨by omega,hle⟩),
      fun i p hlt hle => by omega,by omega⟩

theorem SolidInv.solidify (hi : SolidInv o s m) (ho : ObserverInv content o s)
    (hf : ∀ p ∈ subdags, FromLog s p)
    (hr : subdags.map (fun p => p.commitRef.index) = List.range' (m+1) subdags.length)
    (h : Solidifying content o s subdags solid o' s') :
    SolidInv o' s' (m + subdags.length) ∧ s.lastSolidCommitIndex ≤ s'.lastSolidCommitIndex := by
  obtain ⟨fuel,htk⟩ := h.take
  obtain ⟨l,hsn⟩ := h.send
  have ht := takeSolid_taken htk
  have hin := h.consecutive ho hf
  have hl : o'.commitSolidifier.lastSolidCommittedIndex =
      o.commitSolidifier.lastSolidCommittedIndex + solid.length := ht.last
  have hlf : ∀ i, i ∈ o'.commitSolidifier.pendingSubdags →
      i ∈ addPending o.commitSolidifier.pendingSubdags subdags := by
    intro i hm
    rw [mem_iff_isSome_getElem?,ht.left i] at hm
    split at hm
    · cases hm
    · exact mem_iff_isSome_getElem?.mpr hm
  have hs : ∀ i, o'.commitSolidifier.lastSolidCommittedIndex < i →
      o'.commitSolidifier.pendingSubdags[i]? =
        (addPending o.commitSolidifier.pendingSubdags subdags)[i]? := by
    intro i hlt
    rw [ht.left i,if_neg (by omega)]
  have hpn : ∀ i ∈ addPending o.commitSolidifier.pendingSubdags subdags,
      i ≤ m + subdags.length := by
    intro i hm
    rcases (mem_addPending hr).mp hm with hm | hm
    · exact (hi.pending_le i hm).trans (Nat.le_add_right m _)
    · exact hm.2
  have hsl := hi.solid_le
  have hbs := hi.base_le
  by_cases he : solid = []
  · -- nothing became solid
    subst he
    rw [length_nil,Nat.add_zero] at hl
    have hb := h.finalized.lastSolidCommitIndex_nil
    have hst : o'.lastSentCommitIndex = o.lastSentCommitIndex := by
      rw [← ok.inj hsn]
    have hj : NextWaits o' → o.commitSolidifier.lastSolidCommittedIndex+1 ∈
        addPending o.commitSolidifier.pendingSubdags subdags := by
      intro hw
      rw [← hl]
      exact hlf _ hw
    refine ⟨⟨by omega,by omega,fun i hm => hpn i (hlf i hm),fun hw i hlt hle => ?_,
      fun hw i p hlt hle hp => ?_,fun hw => ?_,fun ha => ?_⟩,hb.ge⟩
    · have hm := (hi.joined hr (hj hw)).1 i (by omega) hle
      rw [mem_iff_isSome_getElem?,hs i hlt]
      exact mem_iff_isSome_getElem?.mp hm
    · rw [hs i hlt] at hp
      exact ((hi.joined hr (hj hw)).2.1 i p (by omega) (by omega) hp).extends
        h.finalized.extended ho.transactions
    · rw [hst,hb,hl]
      exact (hi.joined hr (hj hw)).2.2
    · have hsent_all := hi.sent_all (by omega)
      omega
  · -- the last solid sub-dag is the last one taken, and everything up to the old one was ready
    have hps := length_pos_of_ne_nil he
    have hn : o.commitSolidifier.lastSolidCommittedIndex+1 ∈
        addPending o.commitSolidifier.pendingSubdags subdags := by
      obtain ⟨d,-,p,hp,-⟩ := ht.taken.exists_right
        (a := o.commitSolidifier.lastSolidCommittedIndex+1) (mem_range'_1.mpr ⟨le_rfl,by
          show _ < o.commitSolidifier.lastSolidCommittedIndex + 1 + solid.length
          omega⟩)
      exact mem_iff_isSome_getElem?.mpr (by rw [hp]; rfl)
    obtain ⟨hc,hrd,hst⟩ := hi.joined hr hn
    have hb := h.finalized.lastSolidCommitIndex_range hin he
    obtain ⟨-,hs'⟩ := sendSubDags_last hsn hin he
    have hs'' : o'.lastSentCommitIndex = max o.lastSentCommitIndex
        (o.commitSolidifier.lastSolidCommittedIndex + 1 + solid.length - 1) := hs'
    have hpr : s.lastSolidCommitIndex ≤ o'.commitSolidifier.lastSolidCommittedIndex := by
      refine takeSolid_progress htk fun i hlt hle => ?_
      have hm := hc i hlt (by omega)
      obtain ⟨p,hp⟩ := Option.isSome_iff_exists.mp (mem_iff_isSome_getElem?.mp hm)
      exact ⟨p,hp,fun g => (hrd i p hlt hle hp).find⟩
    have htp : o'.commitSolidifier.lastSolidCommittedIndex ≤ m + subdags.length := by
      obtain ⟨d,-,p,hp,-⟩ := ht.taken.exists_right
        (a := o'.commitSolidifier.lastSolidCommittedIndex) (mem_range'_1.mpr ⟨by
          show o.commitSolidifier.lastSolidCommittedIndex+1 ≤ _
          omega,by
          show _ < o.commitSolidifier.lastSolidCommittedIndex + 1 + solid.length
          omega⟩)
      exact hpn _ (mem_iff_isSome_getElem?.mpr (by rw [hp]; rfl))
    refine ⟨⟨by omega,htp,fun i hm => hpn i (hlf i hm),fun hw i hlt hle => ?_,
      fun hw i p hlt hle => by omega,fun hw => by omega,fun _ => by omega⟩,by omega⟩
    rw [mem_iff_isSome_getElem?,hs i hlt]
    exact mem_iff_isSome_getElem?.mp (hc i (by omega) hle)

section Recovery
variable {refOrder : HashOrder BlockRef} {slotOrder : HashOrder Slot} {schedule : LeaderSchedule}

theorem recoverState_solidInv {lastIndex : Nat} (ho : ObserverInv content o s)
    (hsd : lastIndex = storedIndex s.store) (hb : s.lastSolidCommitIndex ≤ o.lastSentCommitIndex)
    (hp : ∀ i ∈ o.commitSolidifier.pendingSubdags, i ≤ o.lastSentCommitIndex)
    (hle : o.lastSentCommitIndex ≤ lastIndex)
    (h : o.recoverLinearizerAndSolidifierState refOrder slotOrder s lastIndex = .ok (o',s')) :
    SolidInv o' s' lastIndex ∧ s.lastSolidCommitIndex ≤ s'.lastSolidCommitIndex ∧
      s'.lastCommit = s.lastCommit := by
  obtain ⟨l,pending,hr,hf,hc⟩ := recoverState_effect content ho.log hsd h
  have hst : SolidInv ({ o with linearizer := l, commitSolidifier :=
      o.commitSolidifier.setLastSolidCommittedIndex o.lastSentCommitIndex } : CommitObserver ctx) s
      o.lastSentCommitIndex := by
    have hn : o.lastSentCommitIndex+1 ∉ o.commitSolidifier.pendingSubdags := fun hmm => by
      have := hp _ hmm
      omega
    exact ⟨hb,le_rfl,hp,fun hw => absurd hw hn,fun hw => absurd hw hn,
      fun hw => absurd hw hn,fun _ => rfl⟩
  have hl : pending.length = lastIndex - o.lastSentCommitIndex := by
    have := congrArg List.length hr
    simpa using this
  have he : o.lastSentCommitIndex + pending.length = lastIndex := by omega
  rw [← hl] at hr
  rw [← he]
  rcases hc with ⟨rfl,rfl,rfl⟩ | ⟨solid,hs⟩
  · exact ⟨hst,le_rfl,rfl⟩
  have ho' : ObserverInv content ({ o with linearizer := l, commitSolidifier :=
      o.commitSolidifier.setLastSolidCommittedIndex o.lastSentCommitIndex } :
      CommitObserver ctx) s := ⟨ho.log,ho.transactions,ho.pending⟩
  obtain ⟨hi,hm⟩ := hst.solidify ho' hf hr hs
  exact ⟨hi,hm,hs.finalized.lastCommit⟩

theorem buildCommittedSubdag_none {x : TrustedCommit} {scores : List (Nat × Nat)}
    (h : buildCommittedSubdag s x scores = .ok none) :
    ∃ g ∈ x.committedTransactions, s.findTransactions g = none := by
  obtain ⟨result,ha,h⟩ := of_bind h
  cases result with
  | error missing => exact tryGetAll_error ha
  | ok transactions => cases h

theorem buildUnprocessed_progress {scores : List (Nat × Nat)} {commits : List TrustedCommit}
    {expected last : Nat} {ds : List CommittedSubDag} (hl : last < expected + commits.length)
    (hf : ∀ x ∈ commits, x.index ≤ last → ∀ g ∈ x.committedTransactions,
      s.findTransactions g ≠ none)
    (h : buildUnprocessed s scores expected commits = .ok ds) : last < expected + ds.length := by
  induction commits generalizing expected ds with
  | nil =>
    cases h
    exact hl
  | cons x rest ih =>
    unfold buildUnprocessed at h
    split at h
    · cases h
    · next hi =>
      obtain ⟨result,hb,h⟩ := of_bind h
      cases result with
      | none =>
        by_contra hnot
        obtain ⟨g,hg,hn⟩ := buildCommittedSubdag_none hb
        cases h
        exact hf x mem_cons_self (by omega) g hg hn
      | some d =>
        obtain ⟨ds',hr,h⟩ := of_bind h
        cases h
        have := ih (by rw [length_cons] at hl; omega) (fun y hy => hf y (.tail _ hy)) hr
        rw [length_cons]
        omega

theorem initializeLastSolid_progress (hl : CommitLog s)
    (hp : 0 < lastProcessed) (hst : lastProcessed ≤ storedIndex s.store)
    (hfn : ∀ x ∈ s.store.scanCommits lastProcessed lastProcessed, ∀ g ∈ x.committedTransactions,
      s.findTransactions g ≠ none) (h : o.initializeLastSolid s lastProcessed = .ok (o',s')) :
    s'.lastSolidCommitIndex = lastProcessed := by
  have hs := hl.index_scanCommits hp hst
  rw [Nat.add_sub_cancel_left] at hs
  unfold initializeLastSolid at h
  rw [if_neg hp.ne'] at h
  split at h
  · next hnl =>
    rw [hnl] at hs
    cases hs
  · next x rest hc =>
    rw [hc] at hs hfn
    have hi : x.index = lastProcessed := head_eq_of_cons_eq hs
    obtain ⟨result,hb,h⟩ := of_bind h
    cases result with
    | none =>
      obtain ⟨g,hg,hn⟩ := buildCommittedSubdag_none hb
      exact absurd hn (hfn x mem_cons_self g hg)
    | some d =>
      have hf := (updateWithSolidSubdags_effect (fun _ => []) o s [d]).1
      rw [ok.inj h] at hf
      rw [hf.lastSolidCommitIndex (d := d) rfl,(buildCommittedSubdag_built hb).1]
      exact hi

/-- Recovery finds the last solid sub-dag again when the transactions of the commits from the last
processed one on are there. -/
theorem resendUnprocessed_progress {lastProcessed lastIndex target : Nat}
    (ho : ObserverInv content o s) (hst : o.lastSentCommitIndex = lastProcessed)
    (hs : lastIndex = storedIndex s.store) (hle : lastProcessed ≤ lastIndex)
    (ht : target ≤ lastIndex)
    (hf : ∀ x ∈ s.store.scanCommits lastProcessed (max lastProcessed target),
      ∀ g ∈ x.committedTransactions, s.findTransactions g ≠ none)
    (h : o.resendUnprocessedSolidCommits schedule s lastProcessed lastIndex = .ok (o',s')) :
    target ≤ s'.lastSolidCommitIndex := by
  -- without anything to send the last processed commit becomes the last solid one
  have hi : ∀ o1 s1, target ≤ lastProcessed →
      o.initializeLastSolid s lastProcessed = .ok (o1,s1) → target ≤ s1.lastSolidCommitIndex := by
    intro o1 s1 hl hi
    rcases Nat.eq_zero_or_pos lastProcessed with hz | hp
    · omega
    rw [max_eq_left hl] at hf
    rw [initializeLastSolid_progress ho.log hp (hs ▸ hle) hf hi]
    exact hl
  unfold resendUnprocessedSolidCommits at h
  split at h
  · next hd => exact hi o' s' (by omega) h
  · next hlt =>
    obtain ⟨ds,hb,h⟩ := of_bind h
    obtain ⟨⟨o1,s1⟩,hfr,h⟩ := of_bind h
    obtain ⟨hr,-,-⟩ := buildUnprocessed_built hb
    obtain ⟨hfn,-⟩ := finalizeAndSend_effect (fun _ => []) h
    have hc : (s.store.scanCommits (lastProcessed+1) lastIndex).length =
        lastIndex - lastProcessed := by
      have hsc := congrArg List.length
        (ho.log.index_scanCommits (Nat.le_add_left 1 lastProcessed) hs.le)
      rw [length_map,length_range'] at hsc
      omega
    have hpr : target < o.lastSentCommitIndex + 1 + ds.length := by
      refine buildUnprocessed_progress (by omega) (fun x hx hxl => hf x ?_) hb
      obtain ⟨k,hk,hge,-⟩ := s.store.mem_scanCommits.mp hx
      have hky : x.index = k.index := congrArg CommitRef.index (ho.log.key hk)
      exact s.store.mem_scanCommits.mpr ⟨k,hk,by omega,by omega⟩
    by_cases he : ds = []
    · subst he
      rw [hfn.lastSolidCommitIndex_nil]
      exact hi o1 s1 (by rw [length_nil] at hpr; omega) hfr
    · rw [hfn.lastSolidCommitIndex_range hr he]
      omega

/-- A recovery leaves the last solid sub-dag where it was or advances it. While a fast sync is marked
as ongoing it is run with an empty solidifier only. -/
theorem recoverAndSend_solidInv
    (hg : ∀ g, g.round = genesisRound → content g = []) (ho : ObserverInv content o s)
    (hstrt : o.lastSentCommitIndex = lastProcessed) (hf : s.commitsToWrite = [])
    (hb : s.lastSolidCommitIndex ≤ lastProcessed)
    (hp : ∀ i ∈ o.commitSolidifier.pendingSubdags, i ≤ lastProcessed)
    (hsl : o.commitSolidifier.lastSolidCommittedIndex ≤ s.lastCommitIndex)
    (hfl : s.fastSyncOngoingFlagToWrite = none ∧ s.store.fastSyncOngoing = false ∨
      o.commitSolidifier = .new)
    (h : o.recoverAndSendCommits refOrder slotOrder schedule s lastProcessed = .ok (o',s')) :
    SolidInv o' s' s'.lastCommitIndex ∧ s'.lastCommit = s.lastCommit ∧
      s.lastSolidCommitIndex ≤ s'.lastSolidCommitIndex ∧ ∀ target ≤ s.lastCommitIndex,
        (∀ o1 s1, o.resendUnprocessedSolidCommits schedule s lastProcessed s.lastCommitIndex =
          .ok (o1,s1) → target ≤ s1.lastSolidCommitIndex) → target ≤ s'.lastSolidCommitIndex := by
  obtain ⟨hle,hc⟩ := recoverAndSend_effect hg ho hstrt hf h
  rcases hc with ⟨hz,rfl,rfl⟩ | ⟨o1,s1,hrs,hr,hmx,hc⟩
  · refine ⟨⟨by omega,hsl,fun i hm => (hp i hm).trans hle,fun hw => ?_,
      fun hw => ?_,fun hw => ?_,fun _ => by omega⟩,rfl,le_rfl,fun target ht _ => by omega⟩
    all_goals omega
  have hl := lastCommitIndex_congr hr.lastCommit
  have hsn := hr.sent_le
  have hb1 : s.lastSolidCommitIndex ≤ s1.lastSolidCommitIndex ∧
      s1.lastSolidCommitIndex ≤ o1.lastSentCommitIndex := by
    rcases hr.base with hs | hs
    · omega
    · omega
  have hp1 : ∀ i ∈ o1.commitSolidifier.pendingSubdags, i ≤ o1.lastSentCommitIndex := by
    rw [hr.solidifier]
    intro i hm
    have := hp i hm
    omega
  rcases hc with ⟨hon,rfl,rfl⟩ | hst
  · -- only a restart gets here, the solidifier is empty
    have hn : o'.commitSolidifier = .new := by
      rcases hfl with ⟨hnn,hof⟩ | hn
      · rw [(hr.flag hnn).2,hof] at hon
        cases hon
      · rw [hr.solidifier,hn]
    have hnt : ¬NextWaits o' := by
      unfold NextWaits
      rw [hn]
      exact not_mem_empty
    refine ⟨⟨by omega,?_,fun i hm => ?_,fun hw => absurd hw hnt,fun hw => absurd hw hnt,
      fun hw => absurd hw hnt,fun ha => ?_⟩,hr.lastCommit,hb1.1,
      fun _ _ htr => htr o' s' hrs⟩
    · rw [hn]
      exact Nat.zero_le _
    · have := hp1 i hm
      omega
    rw [hn] at ha ⊢
    have hz : 0 = s'.lastCommitIndex := ha
    omega
  · have ho1 := ho.extends hr.extended hr.solidifier
    have hsr : s.lastCommitIndex = storedIndex s1.store := by
      rw [ho1.log.storedIndex_eq (hr.flushed hf),hl]
    obtain ⟨hi,hmn,hl'⟩ := recoverState_solidInv ho1 hsr hb1.2 hp1 hmx hst
    rw [lastCommitIndex_congr hl',hl]
    exact ⟨hi,hl'.trans hr.lastCommit,hb1.1.trans hmn,fun _ _ htr => (htr o1 s1 hrs).trans hmn⟩

end Recovery
end CommitObserver

/-- The transactions of a reference are found in a state built from the store. -/
def DagState.Restorable (s : DagState ctx) (g : GenericTransactionRef) : Prop :=
  if g.round = genesisRound then ctx.genesisTransactions g ≠ none
  else s.store.readVerifiedTransactions g ≠ none

theorem DagState.Restorable.find {s s' : DagState ctx} {g : GenericTransactionRef}
    (h : s.Restorable g) (hs : s'.store = s.store) : s'.findTransactions g ≠ none := by
  unfold Restorable at h
  unfold findTransactions
  split
  · next h0 =>
    rw [if_pos h0] at h
    exact h
  · next h0 =>
    rw [if_neg h0] at h
    split
    · exact Option.some_ne_none _
    · rw [hs]
      exact h

namespace Core
open CommitObserver
variable {c c' : Core ctx}

structure LastSolidInv (content : GenericTransactionRef → List Nat) (c : Core ctx) : Prop where
  observer : ObserverInv content c.commitObserver c.dag
  solid : SolidInv c.commitObserver c.dag c.dag.lastCommitIndex

theorem LastSolidInv.quiet (hi : LastSolidInv content c) (h : Quiet content c.dag c'.dag)
    (hs : c'.commitObserver = c.commitObserver) : LastSolidInv content c' := by
  constructor
  · exact hi.observer.extends h.extended (by rw [hs])
  rw [h.lastCommitIndex]
  exact hi.solid.extends h.extended hi.observer.transactions h.lastSolidCommitIndex
    (by rw [hs]) (by rw [hs])

theorem LastSolidInv.commits (hi : LastSolidInv content c) {pending : List PendingSubDag}
    (h : Commits content c pending c') : LastSolidInv content c' ∧
      c.dag.lastSolidCommitIndex ≤ c'.dag.lastSolidCommitIndex := by
  obtain ⟨s1,solid,s2,he,hbs,hl,hr,hf,hs,hqt⟩ := h.pending_effect
  have hn := hf hi.observer.log
  have ho1 := hi.observer.extends he rfl
  have hb := lastSolidCommitIndex_congr hbs
  have hi1 : SolidInv c.commitObserver s1 c.dag.lastCommitIndex :=
    hi.solid.extends he hi.observer.transactions hb rfl rfl
  obtain ⟨hi2,hm⟩ := hi1.solidify ho1 hn hr hs
  have ho2 := hs.observerInv ho1 hn
  rw [← hl,← lastCommitIndex_congr hs.finalized.lastCommit] at hi2
  refine ⟨⟨ho2.extends hqt.extended rfl,?_⟩,?_⟩
  · rw [hqt.lastCommitIndex]
    exact hi2.extends hqt.extended ho2.transactions hqt.lastSolidCommitIndex rfl rfl
  · rw [hqt.lastSolidCommitIndex,← hb]
    exact hm

theorem LastSolidInv.tryCommit (hi : LastSolidInv content c) (h : c.tryCommit = .ok c') :
    LastSolidInv content c' ∧ c.dag.lastSolidCommitIndex ≤ c'.dag.lastSolidCommitIndex := by
  obtain ⟨committed,c1,t,hl,-,rfl⟩ := tryCommit_effect h
  have hi1 : LastSolidInv content c1 ∧
      c.dag.lastSolidCommitIndex ≤ c1.dag.lastSolidCommitIndex := by
    refine tryCommitLoop_inv content (fun c1 _ => LastSolidInv content c1 ∧
      c.dag.lastSolidCommitIndex ≤ c1.dag.lastSolidCommitIndex) ?_ ?_ ?_ ⟨hi,le_rfl⟩ hl
    · intro c1 c2 _ hi hu
      obtain ⟨schedule,s',hqt,rfl⟩ := updateScheduleIfDue_effect content hu
      exact ⟨hi.1.quiet hqt rfl,hi.2.trans hqt.lastSolidCommitIndex.ge⟩
    · exact fun _ _ _ hi => ⟨⟨hi.1.observer,hi.1.solid⟩,hi.2⟩
    intro c1 c2 _ pending hi hc
    obtain ⟨hi',hm⟩ := hi.1.commits hc
    exact ⟨hi',hi.2.trans hm⟩
  exact ⟨⟨hi1.1.observer,hi1.1.solid⟩,hi1.2⟩

/-- A fast-sync batch does not end before the last solid sub-dag, and not after the last commit while
the next sub-dag waits. A restart finds the commits from the replay point to the last solid sub-dag
stored with their transactions. -/
def Orderly (c : Core ctx) : CoreOp → Prop
  | .fastSync output => ∀ d ∈ output.committedSubdags.getLast?,
    c.dag.lastSolidCommitIndex ≤ d.commitRef.index ∧
      (NextWaits c.commitObserver → d.commitRef.index ≤ c.dag.lastCommitIndex)
  | .restart _ _ lastProcessed => c.dag.lastSolidCommitIndex ≤ storedIndex c.dag.store ∧
    ∀ x ∈ c.dag.store.scanCommits lastProcessed (max lastProcessed c.dag.lastSolidCommitIndex),
      ∀ g ∈ x.committedTransactions, c.dag.Restorable g
  | _ => True

theorem Synced.ready {output : FastSyncOutput} {first : Nat} {s : DagState ctx}
    (h : Synced content c output first s c') (hf : Fetched content c.dag output)
    (hi : ObserverInv content c.commitObserver c.dag) {i : Nat}
    (hp : c.commitObserver.commitSolidifier.pendingSubdags[i]? = some p) (hge : first ≤ i)
    (hlt : i < first + output.committedSubdags.length) : Ready s p := by
  obtain ⟨hin,x,hx,hre,hrf⟩ := hi.pending i p hp
  have hm : i ∈ output.committedSubdags.map fun d => d.commitRef.index := by
    rw [h.consecutive]
    exact mem_range'_1.mpr ⟨hge,hlt⟩
  obtain ⟨d,hd,hdi⟩ := mem_map.mp hm
  obtain ⟨y,hy,hyd,-⟩ := hf.subdags.flip.exists_right hd
  -- the commit of the batch is the one the sub-dag stands for
  have hyi : y.index = i := (congrArg CommitRef.index hyd).symm.trans hdi
  have hxi : x.index = i := (congrArg CommitRef.index hre).trans hin
  obtain rfl := hf.agree y hy x hx (hxi.trans hyi.symm)
  obtain ⟨z,hz,hzd,-,hc⟩ := h.complete d hd
  have hzi : z.index = i := (congrArg CommitRef.index hzd).trans hdi
  have hl := h.extended.commitLog hi.log
  obtain rfl := hl.index_inj hz (h.extended.logged hi.log hx) (hzi.trans hxi.symm)
  intro g hg
  rw [← hrf] at hg
  obtain ⟨r,hr,-⟩ := hf.refs z hy g hg
  exact ⟨r,hr,hc g hg⟩

theorem LastSolidInv.fastSync {output : FastSyncOutput} (hi : LastSolidInv content c)
    (hf : Fetched content c.dag output) (hor : Orderly c (.fastSync output))
    (h : c.handleCommittedSubDagsFromFastSync output = .ok c') : LastSolidInv content c' ∧
      c.dag.lastSolidCommitIndex ≤ c'.dag.lastSolidCommitIndex := by
  obtain ⟨first,s,hsy⟩ := fastSync_synced hf hi.observer.log hi.observer.transactions h
  obtain ⟨l,hsn⟩ := hsy.send
  obtain ⟨sent,hst⟩ := sendSubDags_sent hsn
  obtain ⟨hfr,hlastSent⟩ := sendSubDags_last hsn hsy.consecutive hsy.nonempty
  have hlastSent : c'.commitObserver.lastSentCommitIndex = max
      c.commitObserver.lastSentCommitIndex (first + output.committedSubdags.length - 1) := hlastSent
  have hfr : first ≤ c.commitObserver.lastSentCommitIndex+1 := hfr
  have hsl : c'.commitObserver.commitSolidifier = c.commitObserver.commitSolidifier :=
    hst.solidifier
  have hb := hsy.finalized.lastSolidCommitIndex_range hsy.consecutive hsy.nonempty
  have hm : c'.dag.lastCommitIndex = max c.dag.lastCommitIndex
      (first + output.committedSubdags.length - 1) := by
    rw [lastCommitIndex_congr hsy.finalized.lastCommit,hsy.last]
  obtain ⟨d,hd⟩ := Option.ne_none_iff_exists'.mp (mt List.getLast?_eq_none_iff.mp hsy.nonempty)
  obtain ⟨hfo,hn⟩ := hor d hd
  rw [← hsy.finalized.lastSolidCommitIndex hd,hb] at hfo hn
  have ho : ObserverInv content c'.commitObserver s := hi.observer.extends hsy.extended hsl
  have hnextWaits : NextWaits c'.commitObserver ↔ NextWaits c.commitObserver := by
    unfold NextWaits
    rw [hsl]
  have hs := hi.solid.solid_le
  refine ⟨⟨ho.extends hsy.finalized.extended rfl,?_⟩,by omega⟩
  constructor
  · omega
  · rw [hsl]
    omega
  · rw [hsl]
    intro i hmm
    have := hi.solid.pending_le i hmm
    omega
  · rw [hsl,hnextWaits]
    intro hw i hlt hle
    have := hn hw
    exact hi.solid.contiguous hw i hlt (by omega)
  · rw [hsl,hnextWaits]
    intro hw i p hlt hle hp
    have hws := hi.solid.sent hw
    -- what comes before the batch was ready already
    by_cases hbf : i < first
    · exact (hi.solid.ready hw i p hlt (by omega) hp).extends
        (hsy.extended.trans hsy.finalized.extended) hi.observer.transactions
    · exact (hsy.ready hf hi.observer hp (by omega) (by omega)).extends
        hsy.finalized.extended ho.transactions
  · rw [hsl,hnextWaits]
    intro hw
    have := hi.solid.sent hw
    omega
  · rw [hsl]
    intro ha
    have := hi.solid.sent_all (by omega)
    omega

section Restart
variable {refOrder : HashOrder BlockRef} {slotOrder : HashOrder Slot}

theorem LastSolidInv.reinitialize (hg : ∀ g, g.round = genesisRound → content g = [])
    {headers : List VerifiedBlockHeader} (hi : LastSolidInv content c)
    (h : c.reinitializeComponents refOrder slotOrder headers = .ok c') : LastSolidInv content c' ∧
      c.dag.lastSolidCommitIndex ≤ c'.dag.lastSolidCommitIndex := by
  obtain ⟨s,schedule,hqt,hf,hn,hof,ho,-⟩ := reinitialize_effect content h
  have hi1 := hi.observer.extends hqt.extended rfl
  have hs : ObserverInv content ({ c.commitObserver with
      linearizer := c.commitObserver.linearizer.clearState
      lastSentCommitIndex := c.dag.lastCommitIndex } : CommitObserver ctx) s :=
    ⟨hi1.log,hi1.transactions,hi1.pending⟩
  have hb : s.lastSolidCommitIndex ≤ c.dag.lastCommitIndex := by
    rw [hqt.lastSolidCommitIndex]
    exact hi.solid.base_le
  obtain ⟨hsl,-,hm,-⟩ := recoverAndSend_solidInv hg hs rfl hf hb
    hi.solid.pending_le (hqt.lastCommitIndex ▸ hi.solid.solid_le) (.inl ⟨hn,hof⟩) ho
  rw [hqt.lastSolidCommitIndex] at hm
  exact ⟨⟨(recoverAndSend_inv hg hs rfl hf ho).2.1,hsl⟩,hm⟩

theorem lastSolidSubdagBase_new {ownIndex cachedRounds : Nat} {store : Store} {s : DagState ctx}
    (h : new ctx ownIndex cachedRounds store = .ok s) : s.lastSolidSubdagBase = none := by
  obtain ⟨subdags,h⟩ := ok_of_bind h
  obtain ⟨scoring,h⟩ := ok_of_bind h
  cases h
  exact lastSolidSubdagBase_loadCachedData .recover _ _

theorem LastSolidInv.restart (hgn : ∀ g, g.round = genesisRound → content g = [])
    (hi : LastSolidInv content c) (hor : Orderly c (.restart refOrder slotOrder lastProcessed))
    (h : c.restart refOrder slotOrder lastProcessed = .ok c') : LastSolidInv content c' ∧
      c.dag.lastSolidCommitIndex ≤ c'.dag.lastSolidCommitIndex := by
  obtain ⟨s,schedule,hn,ho,-⟩ := restart_effect h
  obtain ⟨scoring,hpr⟩ := commitPart_new hn
  have hs : s.store = c.dag.store := congrArg CommitPart.store hpr
  have hf : s.commitsToWrite = [] := congrArg CommitPart.commitsToWrite hpr
  have hl := hi.observer.log.restart hn
  have hin := hl.storedIndex_eq hf
  have hst : ObserverInv content (⟨.new,.new,⟨lastProcessed,[]⟩,lastProcessed⟩ :
      CommitObserver ctx) s :=
    ⟨hl,.new hi.observer.transactions.stored hn,fun i p hp => by
      simp [CommitSolidifier.new] at hp⟩
  have hb : s.lastSolidCommitIndex = 0 := by
    unfold lastSolidCommitIndex
    rw [lastSolidSubdagBase_new hn]
  have hle := (recoverAndSend_effect hgn hst rfl hf ho).1
  obtain ⟨hsl,-,-,hpg⟩ := recoverAndSend_solidInv hgn hst rfl hf
    (by omega) (fun i hm => absurd hm not_mem_empty) (Nat.zero_le _) (.inr rfl)
    ho
  refine ⟨⟨(recoverAndSend_inv hgn hst rfl hf ho).2.1,hsl⟩,
    hpg _ (by rw [← hin,hs]; exact hor.1) fun o1 s1 hr => ?_⟩
  refine resendUnprocessed_progress hst rfl hin.symm hle
    (by rw [← hin,hs]; exact hor.1) (fun x hx g hg => ?_) hr
  rw [hs] at hx
  exact (hor.2 x hx g hg).find hs

end Restart

theorem LastSolidInv.initial {ownIndex cachedRounds : Nat} (h : Initial ownIndex cachedRounds c) :
    LastSolidInv content c := by
  have ho : ObserverInv content c.commitObserver c.dag := (DeliveryInv.initial h).observer
  obtain ⟨hd,-,hn,-⟩ := h
  have hb : c.dag.lastSolidCommitIndex = 0 := by
    unfold lastSolidCommitIndex
    rw [lastSolidSubdagBase_new hd]
  have hnt : ¬NextWaits c.commitObserver := by
    rw [hn]
    exact not_mem_empty
  refine ⟨ho,⟨by omega,?_,?_,fun hw => absurd hw hnt,fun hw => absurd hw hnt,
    fun hw => absurd hw hnt,?_⟩⟩
  · rw [hn]
    exact Nat.zero_le _
  · rw [hn]
    exact fun i hm => absurd hm not_mem_empty
  · rw [hn]
    exact fun _ => rfl

theorem LastSolidInv.exec (hg : ∀ g, g.round = genesisRound → content g = [])
    (hi : LastSolidInv content c) {op : CoreOp} (hop : Permitted content c op)
    (ho : Orderly c op) (h : c.exec op = .ok c') : LastSolidInv content c' ∧
      c.dag.lastSolidCommitIndex ≤ c'.dag.lastSolidCommitIndex := by
  cases op with
  | dag op =>
    obtain ⟨s,hs,rfl⟩ := map_eq_ok.mp h
    have hqt := hop.1.quiet hop.2 hs
    exact ⟨hi.quiet hqt rfl,hqt.lastSolidCommitIndex.ge⟩
  | addTransactions transactions source =>
    obtain ⟨pending,hc⟩ := addTransactions_commits content h
    have hqt := Quiet.addTransactions c.dag hop source
    have had : LastSolidInv content { c with
        dag := transactions.foldl (fun s t => s.addTransactions t source) c.dag } :=
      hi.quiet hqt rfl
    obtain ⟨hi',hm⟩ := had.commits hc
    exact ⟨hi',hqt.lastSolidCommitIndex.ge.trans hm⟩
  | tryCommit => exact hi.tryCommit h
  | subscribe g subscribers =>
    cases h
    exact ⟨⟨hi.observer,hi.solid⟩,le_rfl⟩
  | fastSync output => exact hi.fastSync hop ho h
  | reinitializeComponents refOrder slotOrder headers => exact hi.reinitialize hg h
  | restart refOrder slotOrder lastProcessed => exact hi.restart hg ho h

/-- In every run with orderly fast syncs and restarts the last solid sub-dag never moves back. -/
theorem lastSolid_nondecreasing (hgenesis : ∀ g, g.round = genesisRound → content g = [])
    {ownIndex cachedRounds : Nat} (h : Machine.Reached (Initial ownIndex cachedRounds) exec
      (fun c op => Permitted content c op ∧ Orderly c op) c) {op : CoreOp}
    (hop : Permitted content c op) (horderly : Orderly c op) (hs : c.exec op = .ok c') :
    c.dag.lastSolidCommitIndex ≤ c'.dag.lastSolidCommitIndex := by
  have hi : LastSolidInv content c := by
    clear hs horderly hop
    induction h with
    | init hin => exact .initial hin
    | step _ hop hs ih => exact (ih.exec hgenesis hop.1 hop.2 hs).1
  exact (hi.exec hgenesis hop horderly hs).2

section Concrete

/-- The transactions of the first header of the chain arrive. -/
def arriveOp : CoreOp :=
  .addTransactions [verifiedTransactions firstContent (.transactionRef ⟨1,0,0⟩)]
    .transactionSynchronizer

theorem permitted_arriveOp (c : Core syncContext) : Permitted firstContent c arriveOp := by
  intro t ht g hg
  obtain rfl := mem_singleton.mp ht
  cases hg
  rfl

/-- Two leaders are committed, and the transactions of the second commit are missing. -/
def overtakenOps : List CoreOp := [acceptOp 1,acceptOp 2,acceptOp 3,acceptOp 4,.tryCommit]

/-- The second and the third commit, as made by a node that is further on. -/
def laterCommits : List TrustedCommit :=
  match runFrom syncContext 1 5 waitingOps with
  | .ok c => c.dag.store.scanCommits 2 3
  | .error _ => []

end Concrete

/-- A batch that ends with the third commit overtakes the second one, which waits: as soon as the
second one is solid the last solid sub-dag moves back to it. -/
theorem lastSolid_moves_back : ∃ c c' : Core syncContext,
    Machine.Reached (Initial 1 5) exec (Permitted firstContent) c ∧
    Permitted firstContent c arriveOp ∧ c.exec arriveOp = .ok c' ∧
    c.dag.lastSolidCommitIndex = 3 ∧ c'.dag.lastSolidCommitIndex = 2 := by
  obtain ⟨c1,h1,hft,c,h,ht,c',h',htw⟩ :
      ∃ c1, runFrom syncContext 1 5 overtakenOps = .ok c1 ∧ fetchable c1.dag 2 laterCommits ∧
      ∃ c, c1.exec (.fastSync (fetchOutput firstContent laterCommits)) = .ok c ∧
        c.dag.lastSolidCommitIndex = 3 ∧
      ∃ c', c.exec arriveOp = .ok c' ∧ c'.dag.lastSolidCommitIndex = 2 := by decide +kernel
  have hr : Machine.Reached (Initial 1 5) exec (Permitted firstContent) c1 :=
    reached_runFrom (fun op hop => permitted_of_plain (all_eq_true.mp rfl op hop)) h1
  have hf : Permitted firstContent c1 (.fastSync (fetchOutput firstContent laterCommits)) :=
    fetched_of_fetchable rfl (by decide) hft
  exact ⟨c,c',hr.step hf h,permitted_arriveOp c,h',ht,htw⟩

/-- A batch that ends before the last commit: the sub-dags in wait catch up and go on. -/
theorem lastSolid_nondecreasing_synced : ∃ c c' : Core syncContext,
    Machine.Reached (Initial 1 5) exec
      (fun c op => Permitted firstContent c op ∧ Orderly c op) c ∧
    c.exec arriveOp = .ok c' ∧ c.dag.lastSolidCommitIndex = 2 ∧ c'.dag.lastSolidCommitIndex = 3 ∧
    c.dag.lastSolidCommitIndex ≤ c'.dag.lastSolidCommitIndex := by
  obtain ⟨c1,h1,hft,hw,c,h,htw,c',h',ht⟩ :
      ∃ c1, runFrom syncContext 1 5 waitingOps = .ok c1 ∧
        fetchable c1.dag 2 (c1.dag.store.scanCommits 2 2) ∧
        (∀ d ∈ (fetchOutput firstContent
            (c1.dag.store.scanCommits 2 2)).committedSubdags.getLast?,
          c1.dag.lastSolidCommitIndex ≤ d.commitRef.index ∧
            d.commitRef.index ≤ c1.dag.lastCommitIndex) ∧
      ∃ c, c1.exec (fetchOp 2 c1) = .ok c ∧ c.dag.lastSolidCommitIndex = 2 ∧
      ∃ c', c.exec arriveOp = .ok c' ∧ c'.dag.lastSolidCommitIndex = 3 := by decide +kernel
  have hp : ∀ op ∈ waitingOps, ∀ c : Core syncContext,
      Permitted firstContent c op ∧ Orderly c op := by
    intro op hop c
    have hop := all_eq_true.mp (show waitingOps.all plain = true from rfl) op hop
    refine ⟨permitted_of_plain hop c,?_⟩
    unfold plain at hop
    split at hop
    · trivial
    · trivial
    · cases hop
  have hr : Machine.Reached (Initial 1 5) exec
      (fun c op => Permitted firstContent c op ∧ Orderly c op) c1 := reached_runFrom hp h1
  have hf : Permitted firstContent c1 (fetchOp 2 c1) := fetched_of_fetchable rfl (by decide) hft
  have ho : Orderly c1 (fetchOp 2 c1) := by
    intro d hd
    exact ⟨(hw d hd).1,fun _ => (hw d hd).2⟩
  have hr' := hr.step ⟨hf,ho⟩ h
  exact ⟨c,c',hr',h',htw,ht,
    lastSolid_nondecreasing firstContent_genesis hr' (permitted_arriveOp c) trivial h'⟩

end Core
end Iota.Starfish
