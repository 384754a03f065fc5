import Iota.Checkpoints.Builder

/-! The chunks are the sorted list cut into pieces within the limits, and the contents of the
created checkpoints are the chunks, the last one with the transaction that advances the epoch. -/
namespace Iota.Checkpoints
open Iota.Authority List
namespace BuilderEnv
variable {env : BuilderEnv}

/-- A chunk within the limits; one transaction alone may be too large. -/
def Fits (env : BuilderEnv) (chunk : List TransactionEffects) : Prop :=
  (0 < env.maxTransactionsPerCheckpoint → chunk.length ≤ env.maxTransactionsPerCheckpoint) ∧
    ((chunk.map env.size).sum ≤ env.maxCheckpointSizeBytes ∨ chunk.length = 1)

/-- The chunks so far are those of the effects that have been added. -/
structure ChunksOf (env : BuilderEnv) (effects : List TransactionEffects) (c : Chunks) : Prop where
  flatten : c.chunks.flatten ++ c.chunk = effects
  chunkSize : c.chunkSize = (c.chunk.map env.size).sum
  fits : ∀ chunk ∈ c.chunks, Fits env chunk
  fit : Fits env c.chunk

theorem fits_singleton (e : TransactionEffects) : Fits env [e] :=
  ⟨fun h => h,.inr rfl⟩

theorem ChunksOf.add {effects : List TransactionEffects} {c : Chunks} (h : ChunksOf env effects c)
    (e : TransactionEffects) : ChunksOf env (effects ++ [e]) (env.addToChunk c e) := by
  unfold addToChunk
  dsimp only
  split
  · -- the chunk is closed
    refine ⟨by simp [← h.flatten],by simp,?_,fits_singleton e⟩
    intro chunk hc
    obtain hol | hnw := mem_append.mp hc
    · exact h.fits chunk hol
    · rw [mem_singleton.mp hnw]
      exact h.fit
  · next ho =>
    refine ⟨by rw [← h.flatten,append_assoc],by simp [h.chunkSize],h.fits,?_⟩
    by_cases hn : c.chunk = []
    · rw [hn]
      exact fits_singleton e
    have hl : c.chunk.length ≠ env.maxTransactionsPerCheckpoint ∧
        c.chunkSize + env.size e ≤ env.maxCheckpointSizeBytes := by
      rw [not_and_or,not_or,not_lt] at ho
      exact ho.resolve_right fun hne => hne hn
    refine ⟨fun hp => ?_,.inl ?_⟩
    · rw [length_append,length_singleton]
      exact Nat.lt_of_le_of_ne (h.fit.1 hp) hl.1
    · rw [map_append,sum_append,← h.chunkSize]
      simpa using hl.2

theorem chunksOf_foldl (effects : List TransactionEffects) :
    ChunksOf env effects (effects.foldl env.addToChunk {}) := by
  have hg : ∀ (done rest : List TransactionEffects) (c : Chunks), ChunksOf env done c →
      ChunksOf env (done ++ rest) (rest.foldl env.addToChunk c) := by
    intro done rest
    induction rest generalizing done with
    | nil => simp
    | cons e rest ih =>
      intro c hc
      have := ih (done ++ [e]) _ (hc.add e)
      rwa [append_assoc,singleton_append] at this
  refine hg [] effects {} ⟨rfl,rfl,forall_mem_nil _,fun _ => Nat.zero_le _,.inl ?_⟩
  exact Nat.zero_le _

theorem splitCheckpointChunks_flatten (effects : List TransactionEffects) :
    (env.splitCheckpointChunks effects).flatten = effects := by
  have h : _ = effects := (chunksOf_foldl effects : ChunksOf env effects _).flatten
  unfold splitCheckpointChunks
  dsimp only
  split
  · rw [flatten_append,flatten_singleton,h]
  · next hn =>
    rw [not_or,ne_eq,not_not] at hn
    rw [hn.1,append_nil] at h
    exact h

theorem splitCheckpointChunks_fits (effects : List TransactionEffects) :
    ∀ chunk ∈ env.splitCheckpointChunks effects, Fits env chunk := by
  have h : ChunksOf env effects _ := chunksOf_foldl effects
  unfold splitCheckpointChunks
  dsimp only
  split
  · intro chunk hc
    obtain ho | hn := mem_append.mp hc
    · exact h.fits chunk ho
    · rw [mem_singleton.mp hn]
      exact h.fit
  · exact h.fits

/-- The transactions of the chunks, with more in the last checkpoint. -/
def contentsOf (more : List TransactionDigest) :
    List (List TransactionEffects) → List CheckpointContents
  | [] => []
  | [chunk] => [chunk.map (·.transactionDigest) ++ more]
  | chunk :: rest => chunk.map (·.transactionDigest) :: contentsOf more rest

variable {chunks : List (List TransactionEffects)}

theorem contentsOf_flatten (more : List TransactionDigest) (h : chunks ≠ []) :
    (contentsOf more chunks).flatten = chunks.flatten.map (·.transactionDigest) ++ more := by
  induction chunks with
  | nil => exact absurd rfl h
  | cons chunk rest ih =>
    cases rest with
    | nil => simp [contentsOf]
    | cons next rest =>
      rw [contentsOf,flatten_cons,ih (cons_ne_nil _ _),flatten_cons (l := chunk),
        map_append,append_assoc]
      exact cons_ne_nil _ _

def Augments (env : BuilderEnv) (details : PendingCheckpointInfo)
    (more : List TransactionDigest) : Prop :=
  if details.lastOfEpoch then
    ∃ gas timestamp seq scores,
      more = [(env.advanceEpoch gas timestamp seq scores).1.transactionDigest]
  else more = []

theorem createFrom_contents (scores : List Nat) (details : PendingCheckpointInfo)
    (last : Option CheckpointSummary) (h : chunks ≠ []) :
    ∃ more, Augments env details more ∧
      (env.createFrom scores details last chunks).map Prod.snd = contentsOf more chunks := by
  induction chunks generalizing last with
  | nil => exact absurd rfl h
  | cons chunk rest ih =>
    cases rest with
    | nil =>
      unfold Augments
      cases hl : details.lastOfEpoch with
      | false =>
        refine ⟨[],rfl,?_⟩
        simp [createFrom,createCheckpoint,contentsOf,hl]
      | true =>
        refine ⟨[(env.advanceEpoch (env.getEpochTotalGasCost last chunk)
          (env.timestampAfter last details.timestampMs) (nextSequenceNumber last)
          (env.scoresOf scores)).1.transactionDigest],⟨_,_,_,_,rfl⟩,?_⟩
        simp only [createFrom,createCheckpoint,contentsOf,hl,isEmpty_nil,Bool.and_self,
          if_true,Option.map_some,Option.toList_some,map_append,map_cons,
          map_nil]
    | cons next rest =>
      obtain ⟨more,ha,hm⟩ := ih (some (env.createCheckpoint scores details last false chunk).1)
        (cons_ne_nil _ _)
      refine ⟨more,ha,?_⟩
      unfold createFrom
      rw [map_cons,contentsOf,← hm]
      · simp [createCheckpoint]
      · exact cons_ne_nil _ _

end BuilderEnv
end Iota.Checkpoints
