import Iota.Starfish.Linearizer.Run

/-! The trackers of the linearizer hold, above the round they were evicted up to, exactly the
authors of the committed headers that acknowledge a reference. A reference is therefore put out in
the commit that brings its acknowledgments to a quorum, and in no other. -/
namespace Iota.Starfish
open BlockVerifier Except Linearizer List Universe VerifiedBlockHeader
variable {ctx : Context} {U : Universe ctx}

/-- The acknowledgments of a header, none when they are out of range. -/
def VerifiedBlockHeader.ackList (h : VerifiedBlockHeader) : List BlockRef :=
  match h.acknowledgments with
  | .ok acks => acks
  | .error _ => []

/-- A header acknowledges a reference at most the depth below it. -/
def Context.Acks (ctx : Context) (h : VerifiedBlockHeader) (r : BlockRef) : Prop :=
  r ∈ h.ackList ∧ h.round - ctx.protocolConfig.gcDepth ≤ r.round

instance (h : VerifiedBlockHeader) (r : BlockRef) : Decidable (ctx.Acks h r) :=
  inferInstanceAs (Decidable (_ ∧ _))

/-- The distinct authors among `headers` that acknowledge a reference. -/
def Context.ackers (ctx : Context) (headers : List VerifiedBlockHeader) (r : BlockRef) :
    Finset Nat :=
  ((headers.filter fun h => ctx.Acks h r).map author).toFinset

/-- The header of a reference is among `headers`, where the protocol asks for it. -/
def Context.Traversed (ctx : Context) (headers : List VerifiedBlockHeader) (r : BlockRef) : Prop :=
  ctx.protocolConfig.consensusCommitTransactionsOnlyForTraversedHeaders = true →
    r ∈ headers.map reference

section Ackers
variable {headers others : List VerifiedBlockHeader} {r : BlockRef}

theorem mem_ackers {a : Nat} :
    a ∈ ctx.ackers headers r ↔ ∃ h ∈ headers, ctx.Acks h r ∧ h.author = a := by
  simp [Context.ackers,and_assoc]

theorem ackers_singleton (h : VerifiedBlockHeader) :
    ctx.ackers [h] r = if ctx.Acks h r then {h.author} else ∅ := by
  unfold Context.ackers
  by_cases ha : ctx.Acks h r
  · simp [ha]
  · simp [ha]

theorem ackers_append :
    ctx.ackers (headers ++ others) r = ctx.ackers headers r ∪ ctx.ackers others r := by
  simp [Context.ackers]

theorem ackers_mono (h : headers ⊆ others) : ctx.ackers headers r ⊆ ctx.ackers others r := by
  intro a ha
  obtain ⟨x,hx,hac,rfl⟩ := mem_ackers.mp ha
  exact mem_ackers.mpr ⟨x,h hx,hac,rfl⟩

theorem ackers_eq_empty (h : ∀ x ∈ headers, ¬ctx.Acks x r) : ctx.ackers headers r = ∅ := by
  refine Finset.eq_empty_of_forall_notMem fun a ha => ?_
  obtain ⟨x,hx,hac,-⟩ := mem_ackers.mp ha
  exact h x hx hac

end Ackers

variable {s : DagState ctx}
namespace Linearizer
variable {l l' l'' : Linearizer ctx} {headers : List VerifiedBlockHeader} {r : BlockRef}

/-- The authors whose acknowledgments of a reference are tracked. -/
def voters (l : Linearizer ctx) (r : BlockRef) : Finset Nat := (l.votesFor r).votes

theorem voters_addAck (a : Nat) (r r' : BlockRef) :
    (l.addAck a r).2.voters r' = if r = r' then insert a (l.voters r') else l.voters r' := by
  unfold voters votesFor addAck
  rw [Std.ExtTreeMap.getElem?_insert_eq]
  split
  · next heq =>
    subst heq
    exact StakeAggregator.votes_add _ a
  · rfl

/-- Acknowledgments were added, and the references that reached a quorum with them are `committed`,
each once. -/
structure Adds (l : Linearizer ctx) (committed : List BlockRef) (l' : Linearizer ctx) : Prop where
  traversed : l'.traversedHeadersTracker = l.traversedHeadersTracker
  mono : ∀ r, l.voters r ⊆ l'.voters r
  mem_iff : ∀ r, r ∈ committed ↔ ¬ctx.committee.IsQuorum (l.voters r) ∧
    ctx.committee.IsQuorum (l'.voters r) ∧ l.committable r
  nodup : committed.Nodup

theorem Adds.refl (l : Linearizer ctx) : Adds l [] l where
  traversed := rfl
  mono _ := Finset.Subset.refl _
  mem_iff _ := by
    constructor
    · intro h
      cases h
    · intro h
      exact absurd h.2.1 h.1
  nodup := nodup_nil

theorem Adds.committable_eq {committed : List BlockRef} (h : Adds l committed l') (r : BlockRef) :
    l'.committable r = l.committable r := by
  unfold committable
  rw [h.traversed]

theorem Adds.trans {committed others : List BlockRef} (h : Adds l committed l')
    (h' : Adds l' others l'') : Adds l (committed ++ others) l'' where
  traversed := h'.traversed.trans h.traversed
  mono r := (h.mono r).trans (h'.mono r)
  mem_iff r := by
    have hm := fun hq : ctx.committee.IsQuorum (l.voters r) => hq.mono (h.mono r)
    have hm' := fun hq : ctx.committee.IsQuorum (l'.voters r) => hq.mono (h'.mono r)
    rw [mem_append,h.mem_iff,h'.mem_iff,h.committable_eq]
    tauto
  nodup := by
    refine nodup_append'.mpr ⟨h.nodup,h'.nodup,fun r hr hr' => ?_⟩
    exact ((h'.mem_iff r).mp hr').1 ((h.mem_iff r).mp hr).2.1

theorem Adds.addAck (l : Linearizer ctx) (a : Nat) (r : BlockRef) :
    Adds l (if (l.addAck a r).1 then [r] else []) (l.addAck a r).2 where
  traversed := rfl
  mono r' := by
    rw [voters_addAck]
    split
    · exact Finset.subset_insert _ _
    · exact Finset.Subset.refl _
  mem_iff r' := by
    have hf : (l.addAck a r).1 = true ↔ ¬ctx.committee.IsQuorum (l.voters r) ∧
        ctx.committee.IsQuorum (insert a (l.voters r)) ∧ l.committable r := by
      have hb := StakeAggregator.reachedThreshold_iff (l.votesFor r)
      have ha := StakeAggregator.reachedThreshold_iff ((l.votesFor r).add a)
      rw [StakeAggregator.votes_add] at ha
      show (((l.votesFor r).add a).reachedThreshold && !(l.votesFor r).reachedThreshold &&
        l.committable r) = true ↔ _
      rw [Bool.and_eq_true,Bool.and_eq_true,ha,Bool.not_eq_true',← Bool.not_eq_true,hb]
      tauto
    rw [voters_addAck]
    by_cases heq : r = r'
    · subst heq
      rw [if_pos rfl,← hf]
      split
      · next h => simp [h]
      · next h => simp [h]
    rw [if_neg heq]
    constructor
    · intro h
      split at h
      · exact absurd (mem_singleton.mp h).symm heq
      · cases h
    · intro h
      exact absurd h.2.1 h.1
  nodup := by
    split
    · exact nodup_singleton r
    · exact nodup_nil

theorem Adds.addCommittedTransactionAcks (round a : Nat) (l : Linearizer ctx)
    (acks : List BlockRef) :
    Adds l (addCommittedTransactionAcks round a l acks).1
      (addCommittedTransactionAcks round a l acks).2 := by
  induction acks generalizing l with
  | nil => exact .refl l
  | cons r rest ih =>
    unfold Linearizer.addCommittedTransactionAcks
    split
    · exact ih l
    have ht := (Adds.addAck l a r).trans (ih (l.addAck a r).2)
    dsimp only
    split at ht
    · next h => rwa [if_pos h]
    · next h => rwa [if_neg h]

theorem Adds.addAcksOf {committed : List BlockRef} (h : l.addAcksOf headers = .ok (committed,l')) :
    Adds l committed l' := by
  induction headers generalizing l committed with
  | nil =>
    cases h
    exact .refl _
  | cons header rest ih =>
    obtain ⟨acks,h⟩ := ok_of_bind h
    obtain ⟨⟨others,l1⟩,hr,h⟩ := of_bind h
    cases h
    exact (Adds.addCommittedTransactionAcks header.round header.author l acks).trans (ih hr)

theorem voters_addCommittedTransactionAcks (round a : Nat) (l : Linearizer ctx)
    (acks : List BlockRef) (r : BlockRef) :
    (addCommittedTransactionAcks round a l acks).2.voters r =
      if r ∈ acks ∧ round - ctx.protocolConfig.gcDepth ≤ r.round then insert a (l.voters r)
      else l.voters r := by
  induction acks generalizing l with
  | nil => simp [addCommittedTransactionAcks]
  | cons r' rest ih =>
    unfold addCommittedTransactionAcks
    split
    · next ho =>
      rw [ih]
      by_cases heq : r = r'
      · subst heq
        rw [if_neg (by omega),if_neg (by omega)]
      · simp [heq]
    · next hw =>
      rw [ih,voters_addAck]
      by_cases heq : r' = r
      · subst heq
        have hle : round - ctx.protocolConfig.gcDepth ≤ r'.round := Nat.le_of_not_lt hw
        by_cases hr : r' ∈ rest
        · simp [hr,hle]
        · simp [hr,hle]
      · simp [heq,Ne.symm heq]

theorem voters_addAcksOf {committed : List BlockRef}
    (h : l.addAcksOf headers = .ok (committed,l')) (r : BlockRef) :
    l'.voters r = l.voters r ∪ ctx.ackers headers r := by
  induction headers generalizing l committed with
  | nil =>
    cases h
    simp [Context.ackers]
  | cons header rest ih =>
    obtain ⟨acks,ha,h⟩ := of_bind h
    obtain ⟨⟨others,l1⟩,hr,h⟩ := of_bind h
    cases h
    have hacks_iff : ctx.Acks header r ↔
        r ∈ acks ∧ header.round - ctx.protocolConfig.gcDepth ≤ r.round := by
      unfold Context.Acks ackList
      rw [ha]
    rw [ih hr,voters_addCommittedTransactionAcks,← singleton_append,ackers_append,
      ackers_singleton]
    simp only [hacks_iff]
    split
    · rw [Finset.insert_union,Finset.singleton_union,Finset.union_insert]
    · rw [Finset.empty_union]

/-- Above `bound` the trackers know the acknowledgments of `headers`, and the headers themselves
where this matters. -/
structure Tracks (l : Linearizer ctx) (bound : Nat) (headers : List VerifiedBlockHeader) :
    Prop where
  voters_eq : ∀ r, bound < r.round → l.voters r = ctx.ackers headers r
  traversed_iff : ctx.protocolConfig.consensusCommitTransactionsOnlyForTraversedHeaders = true →
    ∀ r, bound < r.round →
      (r ∈ l.traversedHeadersTracker ↔ r ∈ headers.map reference)

theorem Tracks.new : Tracks (new : Linearizer ctx) 0 [] where
  voters_eq r _ := by
    unfold voters votesFor Linearizer.new
    simp [Context.ackers]
  traversed_iff _ r _ := by
    simp [Linearizer.new]

variable {bound : Nat}

theorem Tracks.committable_iff (ht : Tracks l bound headers) (hr : bound < r.round) :
    l.committable r = true ↔ ctx.Traversed headers r := by
  unfold committable Context.Traversed
  cases hf : ctx.protocolConfig.consensusCommitTransactionsOnlyForTraversedHeaders with
  | false => simp
  | true =>
    have hi := ht.traversed_iff hf r hr
    simpa using hi

theorem Tracks.evictLinearizer (ht : Tracks l bound headers) (round : Nat) :
    Tracks (l.evictLinearizer round) (max bound (round - ctx.protocolConfig.gcDepth * 2))
      headers where
  voters_eq r hr := by
    rw [← ht.voters_eq r (lt_of_le_of_lt (le_max_left _ _) hr)]
    have ha : round - ctx.protocolConfig.gcDepth * 2 + 1 ≤ r.round :=
      lt_of_le_of_lt (le_max_right _ _) hr
    unfold voters votesFor Linearizer.evictLinearizer
    rw [Std.ExtTreeMap.getElem?_splitOff,if_pos ((BlockRef.isLE_compare_lowest _ r).mpr ha)]
  traversed_iff hflag r hr := by
    rw [← ht.traversed_iff hflag r (lt_of_le_of_lt (le_max_left _ _) hr)]
    have ha : round - ctx.protocolConfig.gcDepth * 2 + 1 ≤ r.round :=
      lt_of_le_of_lt (le_max_right _ _) hr
    unfold Linearizer.evictLinearizer
    dsimp only
    rw [if_pos hflag,Std.ExtTreeSet.mem_splitOff,BlockRef.isLE_compare_lowest]
    exact and_iff_left ha

theorem voters_recordTraversedHeaders (l : Linearizer ctx) (headers : List VerifiedBlockHeader)
    (r : BlockRef) : (l.recordTraversedHeaders headers).voters r = l.voters r := by
  unfold recordTraversedHeaders
  split
  · rfl
  · rfl

theorem mem_recordTraversedHeaders
    (hf : ctx.protocolConfig.consensusCommitTransactionsOnlyForTraversedHeaders = true) :
    r ∈ (l.recordTraversedHeaders headers).traversedHeadersTracker ↔
      r ∈ l.traversedHeadersTracker ∨ r ∈ headers.map reference := by
  unfold recordTraversedHeaders
  rw [if_pos hf]
  simp [Std.ExtTreeSet.mem_insertMany_list]

variable {others : List VerifiedBlockHeader} {committed : List BlockRef}

theorem Tracks.addAcksOf (ht : Tracks l bound headers)
    (h : (l.recordTraversedHeaders others).addAcksOf others = .ok (committed,l')) :
    Tracks l' bound (headers ++ others) where
  voters_eq r hr := by
    rw [voters_addAcksOf h,voters_recordTraversedHeaders,ht.voters_eq r hr,ackers_append]
  traversed_iff hf r hr := by
    rw [(Adds.addAcksOf h).traversed,mem_recordTraversedHeaders hf,
      ht.traversed_iff hf r hr,map_append,mem_append]

theorem Tracks.mem_committed_iff (ht : Tracks l bound headers)
    (h : (l.recordTraversedHeaders others).addAcksOf others = .ok (committed,l'))
    (hr : bound < r.round ∨ ∀ x ∈ others, ¬ctx.Acks x r) :
    r ∈ committed ↔ ¬ctx.committee.IsQuorum (ctx.ackers headers r) ∧
      ctx.committee.IsQuorum (ctx.ackers (headers ++ others) r) ∧
      ctx.Traversed (headers ++ others) r := by
  rw [(Adds.addAcksOf h).mem_iff,voters_recordTraversedHeaders]
  rcases hr with hr | hn
  · have ht' := ht.addAcksOf h
    rw [ht.voters_eq r hr,ht'.voters_eq r hr,← (Adds.addAcksOf h).committable_eq,
      ht'.committable_iff hr]
  -- votes that are not tracked any more do not change
  rw [voters_addAcksOf h,voters_recordTraversedHeaders,ackers_append,
    ackers_eq_empty hn,Finset.union_empty,Finset.union_empty]
  tauto

/-- The reference under which the transactions of a header are committed. -/
def transactionRef (U : Universe ctx) (r : BlockRef) : Option GenericTransactionRef :=
  if ctx.protocolConfig.consensusFastCommitSync then
    (U.get r).map fun h => .transactionRef ⟨r.round,r.author,h.transactionsCommitment⟩
  else some (.blockRef r)

theorem genericTransactionRefs_ok (hv : View U s)
    {refs : List GenericTransactionRef} (h : genericTransactionRefs s committed = .ok refs) :
    refs.map some = committed.map (transactionRef U) := by
  unfold genericTransactionRefs DagState.getTransactionsCommitmentsBatch at h
  unfold transactionRef
  split at h
  · next hf =>
    simp only [hf,if_true]
    induction committed generalizing refs with
    | nil =>
      cases h
      rfl
    | cons r rest ih =>
      rw [map_cons,zip_cons_cons,mapM_cons] at h
      obtain ⟨ref,hr,h⟩ := of_bind h
      obtain ⟨others,ho,h⟩ := of_bind h
      cases h
      rw [map_cons,map_cons,ih ho]
      split at hr
      · next commitment hcm =>
        cases hr
        split at hcm
        · cases hcm
        obtain ⟨x,hx,hc⟩ := Option.map_eq_some_iff.mp hcm
        have hg := hv.sound hx
        rw [hg,← hc]
        rfl
      · cases hr
  · next hf =>
    cases h
    simp [hf]

end Linearizer

def LinearizerOp.Uninterrupted : LinearizerOp → Prop
  | .restart _ _ => False
  | _ => True

namespace LinearizerState

def headersOf (output : List PendingSubDag) : List VerifiedBlockHeader :=
  output.flatMap fun d => d.headers

theorem headersOf_append_singleton (output : List PendingSubDag) (d : PendingSubDag) :
    headersOf (output ++ [d]) = headersOf output ++ d.headers := by
  simp [headersOf]

/-- The acknowledgments of a reference reach a quorum with the sub-dag `d`, when its header is
committed where the protocol asks for it. -/
def ReachesQuorum (ctx : Context) (before : List PendingSubDag) (d : PendingSubDag) (r : BlockRef) :
    Prop :=
  ¬ctx.committee.IsQuorum (ctx.ackers (headersOf before) r) ∧
    ctx.committee.IsQuorum (ctx.ackers (headersOf (before ++ [d])) r) ∧
    ctx.Traversed (headersOf (before ++ [d])) r

structure CommitsRefs (U : Universe ctx) (before : List PendingSubDag) (d : PendingSubDag)
    (refs : List BlockRef) : Prop where
  refs_eq : d.committedTransactionRefs.map some = refs.map (transactionRef U)
  nodup : refs.Nodup
  mem_iff : ∀ r, 0 < r.round → (r ∈ refs ↔ ReachesQuorum ctx before d r)

/-- The trackers were evicted up to a round no commit looks at again. -/
def Evicted (s : DagState ctx) (bound : Nat) : Prop :=
  bound = 0 ∨ bound + ctx.protocolConfig.gcDepth * 2 ≤ s.lastCommitRound

structure AckInv (U : Universe ctx) (st : LinearizerState ctx) : Prop where
  inv : Inv U st
  tracks : ∃ bound, Evicted st.dag bound ∧ Tracks st.linearizer bound (headersOf st.output)
  commits : ∀ before d after, st.output = before ++ d :: after → ∃ refs, CommitsRefs U before d refs

variable {st st' : LinearizerState ctx}

theorem Evicted.lt_of_acks {bound : Nat} (hb : Evicted s bound)
    {output : List PendingSubDag} {leader x : VerifiedBlockHeader} {d : PendingSubDag}
    (hd : IsSubDag U output leader d) (hrn : s.lastCommitRound < leader.round)
    (hx : x ∈ d.headers) {r : BlockRef} (hr : 0 < r.round) (ha : ctx.Acks x r) :
    bound < r.round := by
  have hl := ((hd.mem_iff x).mp hx).lowest_le
  have hw := ha.2
  rcases hb with h0 | hle
  · omega
  · omega

theorem AckInv.commitLeader (hi : AckInv U st) {leader : VerifiedBlockHeader}
    {scores : List (Nat × Nat)} (hh : st.dag.getVerifiedBlockHeader leader.reference = some leader)
    (hp : 0 < leader.round) {subDag : PendingSubDag} {l' : Linearizer ctx} {s' : DagState ctx}
    (h : st.linearizer.commitLeader st.dag leader scores = .ok (subDag,l',s')) :
    AckInv U ⟨s',l',st.output ++ [subDag]⟩ := by
  have hin := hi.inv.commitLeader hh hp h
  obtain ⟨headers,timestampMs,committed,refs,hc,rfl,had,rfl⟩ := commitLeader_cases h
  have hrn := lastCommitRound_lt hp had
  have hs := hi.inv.isSubDag hh hrn hc.linearized timestampMs refs scores
  obtain ⟨bound,hb,ht⟩ := hi.tracks
  refine ⟨hin,⟨bound,?_,?_⟩,?_⟩
  · have hl : (st.dag.appendCommit (newCommit st.dag leader headers timestampMs refs
        scores)).lastCommitRound = leader.round := rfl
    unfold Evicted at hb ⊢
    rw [hl]
    omega
  · rw [headersOf_append_singleton]
    exact ht.addAcksOf hc.acks
  intro before d after heq
  rcases eq_append_singleton heq with ⟨rfl,rfl⟩ | ⟨rest,ho⟩
  · refine ⟨committed,genericTransactionRefs_ok hi.inv.causal.view hc.refs_eq,hc.nodup,?_⟩
    intro r hr
    unfold ReachesQuorum
    rw [headersOf_append_singleton]
    refine ht.mem_committed_iff hc.acks ?_
    by_cases hlt : bound < r.round
    · exact .inl hlt
    · exact .inr fun x hx ha => hlt (hb.lt_of_acks hs hrn hx hr ha)
  · exact hi.commits before d rest ho

theorem AckInv.keptByCommits : KeptByCommits (AckInv U) :=
  fun _ _ _ _ _ _ hi hh hp h => hi.commitLeader hh hp h

theorem AckInv.exec (hi : AckInv U st) {op : LinearizerOp} (hop : Permitted U st op)
    (hlv : op.Uninterrupted) (h : st.exec op = .ok st') : AckInv U st' := by
  have hin := hi.inv.exec hop h
  cases op with
  | dag op =>
    obtain ⟨s',hs,h⟩ := of_bind h
    cases h
    obtain ⟨hl,-⟩ := ordinary_exec hop.1 hi.inv.watermark.log hi.inv.noFlag hs
    obtain ⟨bound,hb,ht⟩ := hi.tracks
    refine ⟨hin,⟨bound,?_,ht⟩,hi.commits⟩
    unfold Evicted DagState.lastCommitRound at hb ⊢
    rwa [hl]
  | getPendingSubDags schedule leaders => exact AckInv.keptByCommits.getPendingSubDags hi hop h
  | evictLinearizer round =>
    cases h
    obtain ⟨bound,hb,ht⟩ := hi.tracks
    refine ⟨hin,⟨_,?_,ht.evictLinearizer round⟩,hi.commits⟩
    have hr : round ≤ st.dag.lastCommitRound := hop
    unfold Evicted at hb ⊢
    dsimp only
    omega
  | restart refOrder slotOrder => exact hlv.elim

variable {ownIndex cachedRounds : Nat}

def ReachedLive (U : Universe ctx) (ownIndex cachedRounds : Nat) : LinearizerState ctx → Prop :=
  Machine.Reached (Initial ownIndex cachedRounds) exec
    fun st op => Permitted U st op ∧ op.Uninterrupted

theorem ReachedLive.start (h : DagState.Initial ownIndex cachedRounds s) :
    ReachedLive U ownIndex cachedRounds ⟨s,.new,[]⟩ :=
  .init ⟨h,rfl,rfl⟩

section Commit
variable (hst : ReachedLive U ownIndex cachedRounds st) (schedule : LeaderSchedule)
  (leaders : List VerifiedBlockHeader)
  (hr : (st.dag.lastCommitRound :: leaders.map round).Pairwise (· < ·))
  (hh : ∀ leader ∈ leaders, st.dag.getVerifiedBlockHeader leader.reference = some leader)
include hst hr hh

theorem ReachedLive.commit {subDags : List PendingSubDag} {l' : Linearizer ctx} {s' : DagState ctx}
    (h : st.linearizer.getPendingSubDags schedule st.dag leaders = .ok (subDags,l',s')) :
    ReachedLive U ownIndex cachedRounds ⟨s',l',st.output ++ subDags⟩ := by
  have hp : Permitted U st (.getPendingSubDags schedule leaders) := ⟨hr,hh⟩
  exact .step hst ⟨hp,trivial⟩ (exec_commit h)

theorem ReachedLive.exists_commit {β : Type} (f : List PendingSubDag → β) (b : β)
    (h : (st.linearizer.getPendingSubDags schedule st.dag leaders).map (fun p => f p.1) = .ok b) :
    ∃ st' subDags, ReachedLive U ownIndex cachedRounds st' ∧ st'.output = st.output ++ subDags ∧
      f subDags = b := by
  obtain ⟨⟨subDags,l',s'⟩,hg,hb⟩ := map_eq_ok.mp h
  exact ⟨_,subDags,hst.commit schedule leaders hr hh hg,rfl,hb⟩

end Commit

theorem ReachedLive.evictLinearizer (hst : ReachedLive U ownIndex cachedRounds st) {round : Nat}
    (hr : round ≤ st.dag.lastCommitRound) :
    ReachedLive U ownIndex cachedRounds
      { st with linearizer := st.linearizer.evictLinearizer round } := by
  have hp : Permitted U st (.evictLinearizer round) := hr
  exact .step hst ⟨hp,trivial⟩ rfl

theorem ReachedLive.chain {acks : Nat → List BlockRef} {st : LinearizerState soleContext}
    {cachedRounds n : Nat} {p : VerifiedBlockHeader} {s' : DagState soleContext}
    (hst : ReachedLive (ackingChain acks) 0 cachedRounds st)
    (hp : st.dag.getVerifiedBlockHeader ⟨n,0,0⟩ = some p)
    (ha : st.dag.acceptBlockHeader (ackingHeader acks (n+1)) = .ok s') :
    ReachedLive (ackingChain acks) 0 cachedRounds { st with dag := s' } :=
  .step hst ⟨permitted_chain hp,trivial⟩ (exec_dag ha)

theorem AckInv.initial (h : Initial ownIndex cachedRounds st) : AckInv U st := by
  obtain ⟨-,hn,ho⟩ := id h
  refine ⟨Inv.initial h,⟨0,.inl rfl,?_⟩,?_⟩
  · rw [hn,ho]
    exact Tracks.new
  intro before d after heq
  rw [ho] at heq
  exact absurd heq.symm (by simp)

theorem ReachedLive.ackInv (h : ReachedLive U ownIndex cachedRounds st) : AckInv U st :=
  h.invariant (fun _ => AckInv.initial) fun _ _ _ hi hop hs => hi.exec hop.1 hop.2 hs

theorem ReachesQuorum.not_later {output : List PendingSubDag} {d d' : PendingSubDag} {i j : Nat}
    (hd : output[i]? = some d) (hlt : i < j) {r : BlockRef}
    (h : ReachesQuorum ctx (output.take i) d r) : ¬ReachesQuorum ctx (output.take j) d' r := by
  intro h'
  have hm : d ∈ output.take j := by
    refine mem_of_getElem? (i := i) ?_
    rw [List.getElem?_take,if_pos hlt]
    exact hd
  have ht : output.take i ⊆ output.take j := (take_prefix_take_left hlt.le).subset
  refine h'.1 (h.2.1.mono (ackers_mono ?_))
  rw [headersOf_append_singleton]
  refine append_subset.mpr ⟨fun x hx => ?_,fun x hx => ?_⟩
  · obtain ⟨e,he,hx⟩ := mem_flatMap.mp hx
    exact mem_flatMap.mpr ⟨e,ht he,hx⟩
  · exact mem_flatMap.mpr ⟨d,hm,hx⟩

theorem AckInv.exists_refs (hi : AckInv U st) (i : Nat) : ∃ refs, ∀ d, st.output[i]? = some d →
    CommitsRefs U (st.output.take i) d refs := by
  cases hg : st.output[i]? with
  | none => exact ⟨[],fun d hd => absurd hd (by simp)⟩
  | some d =>
    obtain ⟨hlt,hd⟩ := List.getElem?_eq_some_iff.mp hg
    have heq : st.output = st.output.take i ++ d :: st.output.drop (i+1) := by
      rw [← hd,cons_getElem_drop_succ,take_append_drop]
    obtain ⟨refs,hr⟩ := hi.commits _ _ _ heq
    refine ⟨refs,fun d' hd' => ?_⟩
    cases hd'
    exact hr

end LinearizerState
open LinearizerState in
/-- In every run without a restart, with evictions at leaders already committed: a reference above
genesis is put out by exactly the commit with which the authors of committed headers acknowledging it
reach a quorum, and by no two commits. -/
theorem linearizer_acks_once {ownIndex cachedRounds : Nat} {st : LinearizerState ctx}
    (hst : ReachedLive U ownIndex cachedRounds st) :
    ∃ committed : Nat → List BlockRef,
      (∀ i d, st.output[i]? = some d → CommitsRefs U (st.output.take i) d (committed i)) ∧
      ∀ i j r, i < st.output.length → j < st.output.length → 0 < r.round → r ∈ committed i →
        r ∈ committed j → i = j := by
  have hi := hst.ackInv
  choose committed hc using hi.exists_refs
  refine ⟨committed,hc,?_⟩
  have hne : ∀ i j r, i < st.output.length → j < st.output.length → 0 < r.round →
      r ∈ committed i → r ∈ committed j → ¬i < j := by
    intro i j r hil hj hr hri hrj hlt
    have hd := List.getElem?_eq_getElem hil
    have hq := ((hc i _ hd).mem_iff r hr).mp hri
    have hq' := ((hc j _ (List.getElem?_eq_getElem hj)).mem_iff r hr).mp hrj
    exact hq.not_later hd hlt hq'
  intro i j r hil hj hr hri hrj
  have hij := hne i j r hil hj hr hri hrj
  have hji := hne j i r hj hil hr hrj hri
  omega

open LinearizerState in
/-- On the chain of a sole authority whose third header acknowledges the second: the transactions of
the second are committed with the third. -/
theorem linearizer_acks_once_soleChain : ∃ st : LinearizerState soleContext,
    ReachedLive (ackingChain fun n => if n = 3 then [⟨2,0,0⟩] else []) 0 5 st ∧
    st.output.map (fun d => d.committedTransactionRefs) = [[],[.blockRef ⟨2,0,0⟩]] ∧
    ∃ committed : Nat → List BlockRef,
      (∀ i d, st.output[i]? = some d →
        CommitsRefs (ackingChain fun n => if n = 3 then [⟨2,0,0⟩] else []) (st.output.take i) d
          (committed i)) ∧
      ∀ i j r, i < st.output.length → j < st.output.length → 0 < r.round → r ∈ committed i →
        r ∈ committed j → i = j := by
  have h0 : ReachedLive (ackingChain fun n => if n = 3 then [⟨2,0,0⟩] else []) 0 5 _ := .start rfl
  have h1 := ReachedLive.chain (n := 0) h0 rfl rfl
  have h2 := ReachedLive.chain (n := 1) h1 rfl rfl
  have h3 := ReachedLive.chain (n := 2) h2 rfl rfl
  have h4 := h3.commit (.new .default) [ackingHeader _ 1,ackingHeader _ 3] (by decide)
    (forall_mem_cons.mpr ⟨rfl,forall_mem_singleton.mpr rfl⟩) rfl
  exact ⟨_,h4,rfl,linearizer_acks_once h4⟩

open LinearizerState in
/-- A genesis reference is put out again after an eviction: the bound of the eviction is at least
round 1, while acknowledgments of genesis still count. -/
theorem linearizer_commits_genesis_twice : ∃ st : LinearizerState soleContext,
    ReachedLive (ackingChain fun _ => [⟨0,0,0⟩]) 0 5 st ∧
    st.output.map (fun d => d.committedTransactionRefs) =
      [[.blockRef ⟨0,0,0⟩],[.blockRef ⟨0,0,0⟩]] := by
  have h0 : ReachedLive (ackingChain fun _ => [⟨0,0,0⟩]) 0 5 _ := .start rfl
  have h1 := ReachedLive.chain (n := 0) h0 rfl rfl
  have h2 := ReachedLive.chain (n := 1) h1 rfl rfl
  have h3 := h2.commit (.new .default) [ackingHeader (fun _ => [⟨0,0,0⟩]) 1] (by decide)
    (forall_mem_singleton.mpr rfl) rfl
  have h4 := h3.evictLinearizer (by decide : 1 ≤ _)
  obtain ⟨st,subDags,h5,ho,ht⟩ := h4.exists_commit (.new .default)
    [ackingHeader (fun _ => [⟨0,0,0⟩]) 2] (by decide) (forall_mem_singleton.mpr rfl)
    (List.map fun d => d.committedTransactionRefs) [[.blockRef ⟨0,0,0⟩]] (by decide +kernel)
  refine ⟨st,h5,?_⟩
  rw [ho,map_append,ht]
  rfl

end Iota.Starfish
