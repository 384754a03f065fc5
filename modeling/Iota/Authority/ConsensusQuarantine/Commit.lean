import Iota.Authority.ConsensusQuarantine
import Iota.Lib.Run

/-! The maps in memory stand for the writes of the queued outputs; committing moves a front part of
the queue to the tables and never misses a next version. -/
namespace Iota.Authority
open ConsensusCommitOutput List
open Std (ExtTreeMap)
variable {gasPriceFeedback : Bool}

/-- The tables after outputs have been written to them in order. -/
def applied (gasPriceFeedback : Bool) (outputs : List ConsensusCommitOutput)
    (tables : OutputTables) : OutputTables :=
  outputs.foldl (fun t output => output.writes gasPriceFeedback t) tables

section applied
variable (outputs : List ConsensusCommitOutput) (tables : OutputTables)

theorem applied_append (first rest : List ConsensusCommitOutput) :
    applied gasPriceFeedback (first ++ rest) tables =
      applied gasPriceFeedback rest (applied gasPriceFeedback first tables) :=
  foldl_append

theorem applied_cons (output : ConsensusCommitOutput) :
    applied gasPriceFeedback (output :: outputs) tables =
      applied gasPriceFeedback outputs (output.writes gasPriceFeedback tables) := rfl

theorem applied_foldl {F ι : Type} (field : OutputTables → F)
    {entries : ConsensusCommitOutput → List ι} {add : F → ι → F}
    (hw : ∀ output t,
      field (output.writes gasPriceFeedback t) = (entries output).foldl add (field t)) :
    field (applied gasPriceFeedback outputs tables) =
      (outputs.flatMap entries).foldl add (field tables) := by
  induction outputs generalizing tables with
  | nil => rfl
  | cons output outputs ih =>
    rw [applied_cons,ih,flatMap_cons,foldl_append,hw]

theorem applied_nextSharedObjectVersions :
    (applied gasPriceFeedback outputs tables).nextSharedObjectVersions =
      (outputs.flatMap (·.nextVersions)).foldl (fun t e => t.insert e.1 e.2)
        tables.nextSharedObjectVersions :=
  applied_foldl outputs tables (·.nextSharedObjectVersions) fun _ _ => rfl

end applied

theorem ConsensusCommitOutput.writeToBatch_satisfies (output : ConsensusCommitOutput)
    (tables : OutputTables) :
    (output.writeToBatch gasPriceFeedback tables).Satisfies (· ≠ .nextVersionNotFound)
      (· = output.writes gasPriceFeedback tables) := by
  unfold writeToBatch
  split
  · nofun
  split
  · exact rfl
  · nofun

namespace ConsensusOutputQuarantine

/-- The four maps in memory stand for the writes of a queue of outputs. -/
structure Shadowing (q : ConsensusOutputQuarantine) (queue : List ConsensusCommitOutput) :
    Prop where
  nextVersions : q.sharedObjectNextVersions.Shadows (queue.flatMap (·.nextVersions))
  debts : q.congestionControlObjectDebts.Shadows (queue.flatMap (·.objectDebts))
  randomnessDebts :
    q.congestionControlRandomnessObjectDebts.Shadows (queue.flatMap (·.randomnessObjectDebts))
  processed : q.processedConsensusMessages.Shadows
    (queue.flatMap fun output => output.consensusMessagesProcessed.map fun key => (key,()))

/-- The builder's part of the quarantine and the watermark are the same. -/
structure SameBuilder (q' q : ConsensusOutputQuarantine) : Prop where
  summaries : q'.builderCheckpointSummary = q.builderCheckpointSummary
  digests : q'.builderDigestToCheckpoint = q.builderDigestToCheckpoint
  watermark : q'.highestExecutedCheckpoint = q.highestExecutedCheckpoint

section Shadowing
variable {q q' : ConsensusOutputQuarantine} {queue : List ConsensusCommitOutput}
  {output : ConsensusCommitOutput} {tables tables' : AuthorityEpochTables}

theorem SameBuilder.trans {q'' : ConsensusOutputQuarantine} (h : q''.SameBuilder q')
    (h' : q'.SameBuilder q) : q''.SameBuilder q :=
  ⟨h.summaries.trans h'.summaries,h.digests.trans h'.digests,h.watermark.trans h'.watermark⟩

theorem shadowing_new (highest : CheckpointSequenceNumber) : (new highest).Shadowing [] :=
  ⟨RefCountedMap.shadows_empty,RefCountedMap.shadows_empty,RefCountedMap.shadows_empty,
    RefCountedMap.shadows_empty⟩

theorem Shadowing.congr (h : q.Shadowing queue) (q' : ConsensusOutputQuarantine)
    (hn : q'.sharedObjectNextVersions = q.sharedObjectNextVersions)
    (hd : q'.congestionControlObjectDebts = q.congestionControlObjectDebts)
    (hr : q'.congestionControlRandomnessObjectDebts =
      q.congestionControlRandomnessObjectDebts)
    (hp : q'.processedConsensusMessages = q.processedConsensusMessages) : q'.Shadowing queue := by
  refine ⟨?_,?_,?_,?_⟩
  · rw [hn]; exact h.nextVersions
  · rw [hd]; exact h.debts
  · rw [hr]; exact h.randomnessDebts
  · rw [hp]; exact h.processed

theorem Shadowing.enqueue (h : q.Shadowing queue) (output : ConsensusCommitOutput) :
    (q.enqueue output).Shadowing (queue ++ [output]) := by
  refine ⟨?_,?_,?_,?_⟩
  · rw [flatMap_append,flatMap_singleton]
    exact h.nextVersions.insertAll _
  · rw [flatMap_append,flatMap_singleton]
    exact h.debts.insertAll _
  · rw [flatMap_append,flatMap_singleton]
    exact h.randomnessDebts.insertAll _
  · rw [flatMap_append,flatMap_singleton]
    exact h.processed.insertAll _

theorem foldlM_removeNextVersion {m : RefCountedHashMap SequenceNumber}
    {olds writes : List (ObjectID × SequenceNumber)} (h : m.Shadows (olds ++ writes)) :
    ∃ m', (olds.map Prod.fst).foldlM removeNextVersion m = .ok m' ∧ m'.Shadows writes := by
  induction olds generalizing m with
  | nil => exact ⟨m,rfl,h⟩
  | cons w olds ih =>
    obtain ⟨hf,hr⟩ := h.remove
    obtain ⟨m',hm',hs⟩ := ih hr
    refine ⟨m',?_,hs⟩
    have hst : removeNextVersion m w.1 = .ok (m.remove w.1).2 := by
      unfold removeNextVersion
      split
      · next he => rw [he]
      · next he => rw [he] at hf; cases hf
    rw [map_cons,foldlM_cons,hst,Except.ok_bind,hm']

theorem Shadowing.removeNext (h : q.Shadowing (output :: queue)) :
    ∃ m, q.removeSharedObjectNextVersions output = .ok { q with sharedObjectNextVersions := m } ∧
      m.Shadows (queue.flatMap (·.nextVersions)) := by
  obtain ⟨m,hm,hs⟩ := foldlM_removeNextVersion (h.nextVersions)
  refine ⟨m,?_,hs⟩
  rw [removeSharedObjectNextVersions,hm]
  rfl

theorem Shadowing.commitOutput (h : q.Shadowing (output :: queue)) :
    (q.commitOutput output gasPriceFeedback tables).Satisfies (· ≠ .nextVersionNotFound)
      fun r => (r.1.Shadowing queue ∧ r.1.SameBuilder q) ∧
        r.2 = { tables with
          toOutputTables := output.writes gasPriceFeedback tables.toOutputTables } := by
  obtain ⟨m,hm,hs⟩ := h.removeNext
  refine Except.Satisfies.bind_ok hm ?_
  refine (output.writeToBatch_satisfies tables.toOutputTables).bind ?_
  rintro _ rfl
  refine ⟨⟨⟨hs,?_,?_,?_⟩,rfl,rfl,rfl⟩,rfl⟩
  · have hd : output.congestionControlObjectDebts.map Prod.fst =
        output.objectDebts.map Prod.fst := by
      simp [objectDebts]
    have := h.debts.removeAll
    rwa [← hd] at this
  · have hr : output.congestionControlRandomnessObjectDebts.map Prod.fst =
        output.randomnessObjectDebts.map Prod.fst := by
      simp [randomnessObjectDebts]
    have := h.randomnessDebts.removeAll
    rwa [← hr] at this
  have hp : (output.consensusMessagesProcessed.map fun key => (key,())).map Prod.fst =
      output.consensusMessagesProcessed := by
    simp [Function.comp_def]
  have := h.processed.removeAll
  rwa [hp] at this

/-- What the loop over the queue does: it moves a front part of it to the tables. -/
structure Moved (gasPriceFeedback : Bool) (committed : CheckpointHeight)
    (q : ConsensusOutputQuarantine) (tables : AuthorityEpochTables)
    (queue : List ConsensusCommitOutput)
    (r : ConsensusOutputQuarantine × AuthorityEpochTables) (moved : List ConsensusCommitOutput) :
    Prop where
  queue_eq : queue = moved ++ r.1.outputQueue
  heights : ∀ output ∈ moved,
    ∃ highest ≤ committed, output.getHighestPendingCheckpointHeight = some highest
  shadowing : r.1.Shadowing r.1.outputQueue
  tables_eq : r.2 =
    { tables with toOutputTables := applied gasPriceFeedback moved tables.toOutputTables }
  builder : r.1.SameBuilder q

theorem Shadowing.commitOutputs (h : q.Shadowing queue) (committed : CheckpointHeight) :
    (commitOutputs gasPriceFeedback committed queue q tables).Satisfies (· ≠ .nextVersionNotFound)
      fun r => ∃ moved, Moved gasPriceFeedback committed q tables queue r moved := by
  induction queue generalizing q tables with
  | nil =>
    exact ⟨[],rfl,nofun,h.congr _ rfl rfl rfl rfl,rfl,rfl,rfl,rfl⟩
  | cons output queue ih =>
    have hs : ∃ moved, Moved gasPriceFeedback committed q tables (output :: queue)
        ({ q with outputQueue := output :: queue },tables) moved :=
      ⟨[],rfl,nofun,h.congr _ rfl rfl rfl rfl,rfl,rfl,rfl,rfl⟩
    unfold ConsensusOutputQuarantine.commitOutputs
    cases hh : output.getHighestPendingCheckpointHeight with
    | none => exact hs
    | some highest =>
      by_cases hle : highest ≤ committed
      · simp only [if_pos hle]
        refine h.commitOutput.bind ?_
        rintro ⟨q1,-⟩ ⟨⟨hq1,hf⟩,rfl⟩
        refine (ih hq1).mono ?_
        rintro r ⟨moved,hm⟩
        refine ⟨output :: moved,?_,?_,hm.shadowing,?_,hm.builder.trans hf⟩
        · rw [hm.queue_eq,cons_append]
        · intro o ho
          obtain rfl | ho := mem_cons.mp ho
          · exact ⟨highest,hle,hh⟩
          · exact hm.heights o ho
        · rw [hm.tables_eq]; rfl
      · simp only [if_neg hle]
        exact hs

/-- Committing built checkpoints leaves what consensus wrote alone. -/
structure Committing.SameOutput (s' s : Committing) : Prop where
  queue : s'.q.outputQueue = s.q.outputQueue
  nextVersions : s'.q.sharedObjectNextVersions = s.q.sharedObjectNextVersions
  debts : s'.q.congestionControlObjectDebts = s.q.congestionControlObjectDebts
  randomnessDebts :
    s'.q.congestionControlRandomnessObjectDebts = s.q.congestionControlRandomnessObjectDebts
  processed : s'.q.processedConsensusMessages = s.q.processedConsensusMessages
  watermark : s'.q.highestExecutedCheckpoint = s.q.highestExecutedCheckpoint
  tables : s'.tables.toOutputTables = s.tables.toOutputTables

theorem removeDigest_satisfies (seq : CheckpointSequenceNumber)
    (m : ExtTreeMap TransactionDigest CheckpointSequenceNumber) (digest : TransactionDigest) :
    (removeDigest seq m digest).Satisfies (· ≠ .nextVersionNotFound) fun _ => True := by
  unfold removeDigest
  split
  · nofun
  split
  · trivial
  · nofun

theorem commitSummary_satisfies (s : Committing)
    (e : CheckpointSequenceNumber × BuilderCheckpointSummary × CheckpointContents) :
    (commitSummary s e).Satisfies (· ≠ .nextVersionNotFound) (·.SameOutput s) := by
  have hd : (e.2.2.foldlM (removeDigest e.1) s.q.builderDigestToCheckpoint).Satisfies
      (· ≠ .nextVersionNotFound) fun _ => True :=
    foldlM_satisfies (fun _ _ => True)
      (fun digest _ m _ => removeDigest_satisfies e.1 m digest) trivial
  refine hd.bind ?_
  intro digests _
  split
  · nofun
  split
  · exact ⟨rfl,rfl,rfl,rfl,rfl,rfl,rfl⟩
  · nofun

theorem ready_satisfies (s : Committing)
    (ready : List (CheckpointSequenceNumber × BuilderCheckpointSummary × CheckpointContents)) :
    (ready.foldlM commitSummary s).Satisfies (· ≠ .nextVersionNotFound) (·.SameOutput s) := by
  refine foldlM_satisfies (fun _ (s' : Committing) => s'.SameOutput s) ?_ ⟨rfl,rfl,rfl,rfl,rfl,rfl,rfl⟩
  intro e _ s1 h
  refine (commitSummary_satisfies s1 e).mono fun s2 h' => ⟨h'.queue.trans h.queue,
    h'.nextVersions.trans h.nextVersions,h'.debts.trans h.debts,
    h'.randomnessDebts.trans h.randomnessDebts,h'.processed.trans h.processed,
    h'.watermark.trans h.watermark,h'.tables.trans h.tables⟩

theorem Shadowing.commitWithBatch (h : q.Shadowing q.outputQueue) :
    (q.commitWithBatch gasPriceFeedback tables).Satisfies (· ≠ .nextVersionNotFound)
      fun r => r.1.Shadowing r.1.outputQueue ∧ ∃ moved, q.outputQueue = moved ++ r.1.outputQueue ∧
        r.2.toOutputTables = applied gasPriceFeedback moved tables.toOutputTables := by
  refine (ready_satisfies ⟨q,tables,none⟩ q.ready).bind ?_
  intro s hs
  have hsh : s.q.Shadowing s.q.outputQueue := by
    rw [hs.queue]
    exact h.congr _ hs.nextVersions hs.debts hs.randomnessDebts hs.processed
  split
  · exact ⟨hsh,[],hs.queue.symm,hs.tables⟩
  refine (hsh.commitOutputs _).mono ?_
  rintro r ⟨moved,hm⟩
  refine ⟨hm.shadowing,moved,?_,?_⟩
  · rw [← hm.queue_eq,hs.queue]
  · rw [hm.tables_eq,← hs.tables]

theorem insertChunks_same (q : ConsensusOutputQuarantine) (commitHeight : CheckpointHeight)
    (contentInfo : List (CheckpointSummary × CheckpointContents)) :
    ∃ summaries digests, q.insertChunks commitHeight contentInfo =
      { q with builderCheckpointSummary := summaries, builderDigestToCheckpoint := digests } := by
  unfold insertChunks
  generalize contentInfo.zipIdx = chunks
  induction chunks generalizing q with
  | nil => exact ⟨_,_,rfl⟩
  | cons e chunks ih =>
    obtain ⟨summaries,digests,h⟩ := ih (q.insertBuilderSummary e.1.1.sequenceNumber
      ⟨e.1.1,some commitHeight,e.2⟩ e.1.2)
    exact ⟨summaries,digests,by rw [foldl_cons,h]; rfl⟩

end Shadowing
end ConsensusOutputQuarantine
end Iota.Authority
