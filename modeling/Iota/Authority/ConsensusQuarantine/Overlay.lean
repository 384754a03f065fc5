import Iota.Authority.ConsensusQuarantine.Commit

/-! Reads through the quarantine see the tables with every pushed output written to them in order,
however far the outputs have been moved to the tables; the tables themselves hold the state after a
prefix of the outputs. -/
namespace Iota.Authority
open Except List Std.ExtTreeMap
open Std (ExtTreeMap)
variable {gasPriceFeedback : Bool}

/-- A run of the store, with the outputs that count as pushed and the versions that lookups wrote
to the tables directly. After a restart the outputs that were lost no longer count. -/
structure QuarantineRun where
  store : EpochStore
  base : OutputTables
  pushed : List ConsensusCommitOutput

namespace QuarantineRun

def step (gasPriceFeedback : Bool) (r : QuarantineRun) (event : EpochStore.Event) :
    Except QuarantineFailure QuarantineRun := do
  let store ← r.store.step gasPriceFeedback event
  match event with
  | .pushed output => return { r with store := store, pushed := r.pushed ++ [output] }
  | .versionsRead currentVersion objectsToInit =>
    let written := r.store.quarantine.versionsToWrite currentVersion r.store.tables.toOutputTables
      objectsToInit
    return { r with
      store := store
      base := { r.base with
        nextSharedObjectVersions :=
          written.foldl (fun t e => t.insert e.1 e.2) r.base.nextSharedObjectVersions } }
  | .restarted _ =>
    return { r with
      store := store
      pushed := r.pushed.take (r.pushed.length - r.store.quarantine.outputQueue.length) }
  | _ => return { r with store := store }

def Fresh (r : QuarantineRun) : Prop :=
  ∃ tables highest, tables.toOutputTables = {} ∧ r = ⟨.new tables highest,{},[]⟩

/-- What holds of the output of a commit: the statistics are set, the keys that became active
carry its round, rounds increase, and no entry is deferred under a key that was loaded. -/
structure FromHandler (r : QuarantineRun) (output : ConsensusCommitOutput) : Prop where
  round : ∃ round, output.getRound = some round ∧ (∀ j ∈ output.activeJwks, j.1 = round) ∧
    ∀ earlier ∈ r.pushed, ∀ round', earlier.getRound = some round' → round' < round
  deferred : ∀ e ∈ output.deferredTxns, e.1 ∉ output.deletedDeferredTxns

def Allowed (r : QuarantineRun) : EpochStore.Event → Prop
  | .pushed output => r.FromHandler output
  | _ => True

structure Overlaid (gasPriceFeedback : Bool) (r : QuarantineRun) : Prop where
  shadowing : r.store.quarantine.Shadowing r.store.quarantine.outputQueue
  moved : ∃ committed, r.pushed = committed ++ r.store.quarantine.outputQueue ∧
    r.store.tables.toOutputTables = applied gasPriceFeedback committed r.base
  rounds : r.pushed.Pairwise fun a b =>
    ∀ round round', a.getRound = some round → b.getRound = some round' → round < round'
  jwks : ∀ output ∈ r.pushed, ∃ round, output.getRound = some round ∧
    ∀ j ∈ output.activeJwks, j.1 = round
  base : r.base = { nextSharedObjectVersions := r.base.nextSharedObjectVersions }
  cache : r.store.cache = .new (applied gasPriceFeedback r.pushed r.base)

end QuarantineRun

variable {output : ConsensusCommitOutput}

theorem ConsensusOutputCache.record_new {tables : OutputTables}
    (h : ∀ e ∈ output.deferredTxns, e.1 ∉ output.deletedDeferredTxns) :
    (ConsensusOutputCache.new tables).record gasPriceFeedback output =
      .new (output.writes gasPriceFeedback tables) := by
  have hv1 : ∀ e ∈ output.deferredTxnsV1, e.1 ∉ output.deletedDeferredTxns := by
    intro e he
    obtain ⟨e',he',rfl⟩ := mem_map.mp he
    exact h e' he'
  cases gasPriceFeedback with
  | true =>
    simp [record,new,ConsensusCommitOutput.writes,foldl_erase_foldl_insert _ _ _ h]
  | false =>
    simp [record,new,ConsensusCommitOutput.writes,foldl_erase_foldl_insert _ _ _ hv1]

theorem applied_withNextVersions (outputs : List ConsensusCommitOutput) (tables : OutputTables)
    (versions : ExtTreeMap ObjectID SequenceNumber) :
    applied gasPriceFeedback outputs { tables with nextSharedObjectVersions := versions } =
      { applied gasPriceFeedback outputs tables with
        nextSharedObjectVersions :=
          (outputs.flatMap (·.nextVersions)).foldl (fun t e => t.insert e.1 e.2) versions } := by
  induction outputs generalizing tables versions with
  | nil => rfl
  | cons output outputs ih =>
    rw [applied_cons,applied_cons,flatMap_cons,foldl_append]
    exact ih (output.writes gasPriceFeedback tables) _

variable {q : ConsensusOutputQuarantine} {currentVersion : ObjectID → Option SequenceNumber}
variable {objectsToInit : List (ObjectID × SequenceNumber)}
namespace ConsensusOutputQuarantine

theorem getElem?_of_mem_versionsToWrite {tables : OutputTables} {e : ObjectID × SequenceNumber}
    (he : e ∈ q.versionsToWrite currentVersion tables objectsToInit) :
    tables.nextSharedObjectVersions[e.1]? = none := by
  obtain ⟨e',he',rfl⟩ := mem_map.mp he
  obtain ⟨⟨v,o⟩,hz,hv⟩ := mem_filterMap.mp he'
  have hr : v = (q.sharedObjectNextVersions.get o.1).or tables.nextSharedObjectVersions[o.1]? := by
    unfold getNextSharedObjectVersions doFallbackLookup at hz
    nth_rewrite 2 [← map_id objectsToInit] at hz
    rw [zip_map'] at hz
    obtain ⟨a,-,heq⟩ := mem_map.mp hz
    cases heq
    rfl
  cases v with
  | some v => cases hv
  | none =>
    cases hv
    exact (Option.or_eq_none_iff.mp hr.symm).2

end ConsensusOutputQuarantine

theorem ConsensusOutputQuarantine.Shadowing.commit_moved
    {tables : AuthorityEpochTables} {base : OutputTables}
    {pushed committed : List ConsensusCommitOutput}
    {r : ConsensusOutputQuarantine × AuthorityEpochTables} (h : q.Shadowing q.outputQueue)
    (hp : pushed = committed ++ q.outputQueue)
    (ht : tables.toOutputTables = applied gasPriceFeedback committed base)
    (hr : q.commitWithBatch gasPriceFeedback tables = .ok r) :
    r.1.Shadowing r.1.outputQueue ∧ ∃ committed, pushed = committed ++ r.1.outputQueue ∧
      r.2.toOutputTables = applied gasPriceFeedback committed base := by
  obtain ⟨hs,moved,hqq,hm⟩ := h.commitWithBatch.of_ok hr
  refine ⟨hs,committed ++ moved,?_,?_⟩
  · rw [hp,hqq,append_assoc]
  · rw [hm,ht,applied_append]

namespace QuarantineRun
variable {r r' : QuarantineRun}

theorem Overlaid.init (h : r.Fresh) : r.Overlaid gasPriceFeedback := by
  obtain ⟨tables,highest,ht,rfl⟩ := h
  refine ⟨ConsensusOutputQuarantine.shadowing_new highest,⟨[],rfl,ht⟩,.nil,nofun,rfl,?_⟩
  simp only [EpochStore.new,ht]
  rfl

section
variable (h : r.Overlaid gasPriceFeedback)

include h

theorem Overlaid.pushed
    (ha : r.FromHandler output) (hr : r.step gasPriceFeedback (.pushed output) = .ok r') :
    r'.Overlaid gasPriceFeedback := by
  obtain ⟨store,hs,hr⟩ := of_bind hr
  obtain ⟨res,hp,hs⟩ := of_bind hs
  cases hs
  cases hr
  obtain ⟨committed,hps,ht⟩ := h.moved
  have hqq : r.pushed ++ [output] =
      committed ++ (r.store.quarantine.outputQueue ++ [output]) := by
    rw [hps,append_assoc]
  have hsh : (r.store.quarantine.enqueue output).Shadowing
      (r.store.quarantine.outputQueue ++ [output]) := h.shadowing.enqueue output
  have hc := ConsensusOutputQuarantine.Shadowing.commit_moved hsh hqq ht hp
  obtain ⟨round,hrn,hj,hl⟩ := ha.round
  refine ⟨hc.1,hc.2,?_,?_,h.base,?_⟩
  · refine pairwise_append.mpr ⟨h.rounds,pairwise_singleton _ _,?_⟩
    intro a haa b hb ra rb hra hrb
    rw [mem_singleton.mp hb,hrn] at hrb
    cases hrb
    exact hl a haa ra hra
  · intro o ho
    obtain ho | ho := mem_append.mp ho
    · exact h.jwks o ho
    · rw [mem_singleton.mp ho]
      exact ⟨round,hrn,hj⟩
  change r.store.cache.record gasPriceFeedback output = _
  rw [h.cache,ConsensusOutputCache.record_new ha.deferred,applied_append]
  rfl

theorem Overlaid.versionsRead
    (hr : r.step gasPriceFeedback (.versionsRead currentVersion objectsToInit) = .ok r') :
    r'.Overlaid gasPriceFeedback := by
  obtain ⟨store,hs,hr⟩ := of_bind hr
  cases hs
  cases hr
  obtain ⟨committed,hp,ht⟩ := h.moved
  refine ⟨h.shadowing,⟨committed,hp,?_⟩,h.rounds,h.jwks,?_,?_⟩
  · -- what was written directly is about objects that no committed output wrote
    have hf : ∀ e ∈ committed.flatMap (·.nextVersions),
        ∀ e' ∈ r.store.quarantine.versionsToWrite currentVersion r.store.tables.toOutputTables
          objectsToInit, e'.1 ≠ e.1 := by
      intro e he e' he' heq
      have hn := ConsensusOutputQuarantine.getElem?_of_mem_versionsToWrite he'
      rw [ht,applied_nextSharedObjectVersions,
        getElem?_foldl_insert Prod.fst Prod.snd,Option.or_eq_none_iff,
        Option.map_eq_none_iff,List.find?_eq_none] at hn
      exact hn.1 e (mem_reverse.mpr he) (by simp [heq])
    rw [applied_withNextVersions,foldl_insert_comm _ _ _ hf,
      ← applied_nextSharedObjectVersions,← ht]
    rfl
  · rw [h.base]
  · rw [applied_withNextVersions]
    exact h.cache

theorem Overlaid.committed {res : ConsensusOutputQuarantine × AuthorityEpochTables}
    (hr : q.commitWithBatch gasPriceFeedback r.store.tables = .ok res)
    (hq : q.Shadowing r.store.quarantine.outputQueue)
    (hqq : q.outputQueue = r.store.quarantine.outputQueue) :
    { r with store := ⟨res.1,res.2,r.store.cache⟩ : QuarantineRun }.Overlaid
      gasPriceFeedback := by
  obtain ⟨committed,hp,ht⟩ := h.moved
  rw [← hqq] at hq hp
  have hc := hq.commit_moved hp ht hr
  exact ⟨hc.1,hc.2,h.rounds,h.jwks,h.base,h.cache⟩

theorem Overlaid.restarted {highest : CheckpointSequenceNumber}
    (hr : r.step gasPriceFeedback (.restarted highest) = .ok r') :
    r'.Overlaid gasPriceFeedback := by
  obtain ⟨store,hst,hr⟩ := of_bind hr
  cases hst
  cases hr
  obtain ⟨committed,hp,ht⟩ := h.moved
  have htk : r.pushed.take (r.pushed.length - r.store.quarantine.outputQueue.length) =
      committed := by
    rw [hp,length_append,Nat.add_sub_cancel,take_left']
    rfl
  have hs : committed.Sublist r.pushed := by
    rw [hp]
    exact sublist_append_left _ _
  rw [htk]
  refine ⟨ConsensusOutputQuarantine.shadowing_new highest,
    ⟨committed,(append_nil _).symm,ht⟩,h.rounds.sublist hs,
    fun output ho => h.jwks output (hs.subset ho),h.base,?_⟩
  change ConsensusOutputCache.new r.store.tables.toOutputTables = _
  rw [ht]

theorem Overlaid.step {event : EpochStore.Event}
    (ha : r.Allowed event) (hr : r.step gasPriceFeedback event = .ok r') :
    r'.Overlaid gasPriceFeedback := by
  cases event with
  | pushed output => exact h.pushed ha hr
  | versionsRead currentVersion objectsToInit => exact h.versionsRead hr
  | restarted highest => exact h.restarted hr
  | built commitHeight contentInfo =>
    obtain ⟨store,hs,hr⟩ := of_bind hr
    obtain ⟨res,hrs,hs⟩ := of_bind hs
    cases hs
    cases hr
    obtain ⟨summaries,digests,hsm⟩ := r.store.quarantine.insertChunks_same commitHeight contentInfo
    rw [ConsensusOutputQuarantine.processConstructedCheckpoint,hsm] at hrs
    exact h.committed hrs (h.shadowing.congr _ rfl rfl rfl rfl) rfl
  | executed checkpoint =>
    obtain ⟨store,hs,hr⟩ := of_bind hr
    obtain ⟨res,hrs,hs⟩ := of_bind hs
    cases hs
    cases hr
    exact h.committed hrs (h.shadowing.congr _ rfl rfl rfl rfl) rfl

end

def reference (gasPriceFeedback : Bool) (r : QuarantineRun) : OutputTables :=
  applied gasPriceFeedback r.pushed r.base

section
variable (h : r.Overlaid gasPriceFeedback)

include h

theorem Overlaid.reference_eq :
    r.reference gasPriceFeedback =
      applied gasPriceFeedback r.store.quarantine.outputQueue r.store.tables.toOutputTables := by
  obtain ⟨committed,hp,ht⟩ := h.moved
  rw [reference,ht,← applied_append,← hp]

end

/-- The output of a round that sets the next version of object 7. -/
def versionOutput (round version : Nat) : ConsensusCommitOutput where
  consensusRound := round
  consensusCommitStats := some ⟨round,round,0⟩
  nextSharedObjectVersions := some [(7,version)]
  pendingCheckpoints := [⟨[],⟨0,false,2 * round⟩⟩]

theorem versionOutput_fromHandler {round version : Nat}
    (h : ∀ earlier ∈ r.pushed, ∀ round', earlier.getRound = some round' → round' < round) :
    r.FromHandler (versionOutput round version) :=
  ⟨⟨round,rfl,by simp [versionOutput],h⟩,by simp [versionOutput]⟩

def emptySummary (seq : Nat) : CheckpointSummary :=
  ⟨0,seq,0,0,none,⟨0,0,0,0,0⟩,0,[],none,[]⟩

end QuarantineRun
end Iota.Authority
