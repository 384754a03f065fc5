import Iota.Authority.ConsensusQuarantine.Commit

/-! Built checkpoints move from memory to the tables in the order of their numbers once they have
been executed. When each has a height of its own, committing runs through. -/
namespace Iota.Authority
open AuthorityEpochTables Except List Option Std.ExtTreeMap
open Std (ExtTreeMap)
namespace EpochStore
variable {seq : CheckpointSequenceNumber}

/-- A checkpoint with a height that the builder has made, in memory or in the tables. -/
def IsBuilt (s : EpochStore) (seq : CheckpointSequenceNumber) (height : CheckpointHeight) : Prop :=
  (∃ e, s.quarantine.builderCheckpointSummary[seq]? = some e ∧
    e.1.checkpointHeight = some height) ∨
  ∃ summary, s.tables.builderCheckpointSummary[seq]? = some summary ∧
    summary.checkpointHeight = some height

end EpochStore
namespace ConsensusOutputQuarantine

def memoryHeight (q : ConsensusOutputQuarantine) (seq : CheckpointSequenceNumber) :
    Option CheckpointHeight :=
  q.builderCheckpointSummary[seq]?.bind fun e => e.1.checkpointHeight

end ConsensusOutputQuarantine

def AuthorityEpochTables.tableHeight (tables : AuthorityEpochTables)
    (seq : CheckpointSequenceNumber) : Option CheckpointHeight :=
  tables.builderCheckpointSummary[seq]?.bind BuilderCheckpointSummary.checkpointHeight

theorem EpochStore.isBuilt_iff {s : EpochStore} {seq : CheckpointSequenceNumber}
    {height : CheckpointHeight} : s.IsBuilt seq height ↔
      s.quarantine.memoryHeight seq = some height ∨ s.tables.tableHeight seq = some height := by
  simp only [IsBuilt,ConsensusOutputQuarantine.memoryHeight,tableHeight,bind_eq_some_iff]

namespace ConsensusOutputQuarantine

/-- Built checkpoints in memory follow those in the tables, heights increase with numbers, and
what is in the tables has been executed. -/
structure Ordered (q : ConsensusOutputQuarantine) (tables : AuthorityEpochTables)
    (executed : CheckpointSequenceNumber) : Prop where
  height : ∀ (seq : Nat) e, q.builderCheckpointSummary[seq]? = some e →
    e.1.checkpointHeight.isSome
  increasing : ∀ seq seq' height height', q.memoryHeight seq = some height →
    q.memoryHeight seq' = some height' → seq < seq' → height < height'
  nodup : ∀ (seq : Nat) e, q.builderCheckpointSummary[seq]? = some e → e.2.Nodup
  digests : ∀ (seq : Nat) e, q.builderCheckpointSummary[seq]? = some e →
    ∀ digest ∈ e.2, q.builderDigestToCheckpoint[digest]? = some seq
  numbers : ∀ (seq seq' : Nat) e e', tables.builderCheckpointSummary[seq]? = some e →
    q.builderCheckpointSummary[seq']? = some e' → seq < seq'
  heights : ∀ seq seq' height height', tables.tableHeight seq = some height →
    q.memoryHeight seq' = some height' → height < height'
  executed : ∀ seq height, tables.tableHeight seq = some height → seq ≤ executed

theorem exists_foldlM_removeDigest {seq : CheckpointSequenceNumber} {contents : CheckpointContents}
    {m : ExtTreeMap TransactionDigest CheckpointSequenceNumber} (hn : contents.Nodup)
    (hm : ∀ digest ∈ contents, m[digest]? = some seq) :
    ∃ m', contents.foldlM (removeDigest seq) m = .ok m' ∧
      ∀ digest ∉ contents, m'[digest]? = m[digest]? := by
  induction contents generalizing m with
  | nil => exact ⟨m,rfl,fun _ _ => rfl⟩
  | cons d contents ih =>
    obtain ⟨hd,hn⟩ := nodup_cons.mp hn
    have hs : removeDigest seq m d = .ok (m.erase d) := by
      simp [removeDigest,hm d mem_cons_self]
    obtain ⟨m',hm',ho⟩ := ih hn <| by
      intro digest hdg
      have hne : d ≠ digest := fun h => hd (h ▸ hdg)
      rw [getElem?_erase_eq,if_neg hne]
      exact hm digest (.tail _ hdg)
    refine ⟨m',?_,?_⟩
    · rw [foldlM_cons,hs,ok_bind,hm']
    intro digest hdg
    rw [mem_cons,not_or] at hdg
    rw [ho digest hdg.2,getElem?_erase_eq,if_neg (Ne.symm hdg.1)]

/-- The state of the loop over the built checkpoints, with those still to be committed. -/
structure InLoop (start : Committing) (executed : CheckpointSequenceNumber)
    (rest : List (CheckpointSequenceNumber × BuilderCheckpointSummary × CheckpointContents))
    (s : Committing) : Prop where
  ordered : s.q.Ordered s.tables executed
  inMemory : ∀ e ∈ rest, s.q.builderCheckpointSummary[e.1]? = some e.2
  covers : ∀ (seq : Nat) v, s.q.builderCheckpointSummary[seq]? = some v →
    (seq,v) ∈ rest ∨ s.q.highestExecutedCheckpoint < seq
  sorted : rest.Pairwise fun a b => a.1 < b.1
  below : ∀ e ∈ rest, e.1 ≤ s.q.highestExecutedCheckpoint
  watermark : s.q.highestExecutedCheckpoint ≤ executed
  highest : ∀ height, s.highestCommittedHeight = some height →
    ∃ seq, s.tables.tableHeight seq = some height
  grows : ∀ seq height, start.tables.tableHeight seq = some height →
    s.tables.tableHeight seq = some height

section loop
variable {start s : Committing} {executed : CheckpointSequenceNumber}
  {e : CheckpointSequenceNumber × BuilderCheckpointSummary × CheckpointContents}
  {rest : List (CheckpointSequenceNumber × BuilderCheckpointSummary × CheckpointContents)}

variable {v : BuilderCheckpointSummary × CheckpointContents}

theorem InLoop.first (h : InLoop start executed (e :: rest) s)
    (hv : s.q.builderCheckpointSummary[seq]? = some v) (hne : seq ≠ e.1) : e.1 < seq := by
  obtain hm | hlt := h.covers seq v hv
  · obtain heq | hm := mem_cons.mp hm
    · exact absurd (congrArg Prod.fst heq) hne
    · exact rel_of_pairwise_cons h.sorted hm
  · exact Nat.lt_of_le_of_lt (h.below e mem_cons_self) hlt

variable {digests : ExtTreeMap TransactionDigest CheckpointSequenceNumber}
    {height : CheckpointHeight}

theorem memoryHeight_moveSummary (seq : CheckpointSequenceNumber) :
    (s.moveSummary e digests height).q.memoryHeight seq =
      if e.1 = seq then none else s.q.memoryHeight seq := by
  unfold memoryHeight Committing.moveSummary
  rw [getElem?_erase_eq]
  split <;> rfl

theorem tableHeight_moveSummary (seq : CheckpointSequenceNumber) :
    (s.moveSummary e digests height).tables.tableHeight seq =
      if e.1 = seq then e.2.1.checkpointHeight else s.tables.tableHeight seq := by
  unfold tableHeight Committing.moveSummary
  rw [getElem?_insert_eq]
  split <;> rfl

theorem getElem?_moveSummary
    (hv : (s.moveSummary e digests height).q.builderCheckpointSummary[seq]? = some v) :
    e.1 ≠ seq ∧ s.q.builderCheckpointSummary[seq]? = some v := by
  unfold Committing.moveSummary at hv
  rw [getElem?_erase_eq] at hv
  split at hv
  · cases hv
  · next hne => exact ⟨hne,hv⟩

theorem memoryHeight_of_moveSummary {height' : CheckpointHeight}
    (hv : (s.moveSummary e digests height).q.memoryHeight seq = some height') :
    e.1 ≠ seq ∧ s.q.memoryHeight seq = some height' := by
  rw [memoryHeight_moveSummary] at hv
  split at hv
  · cases hv
  · next hne => exact ⟨hne,hv⟩

theorem InLoop.ordered_moveSummary (h : InLoop start executed (e :: rest) s)
    (hh : e.2.1.checkpointHeight = some height)
    (hot : ∀ digest ∉ e.2.2, digests[digest]? = s.q.builderDigestToCheckpoint[digest]?) :
    (s.moveSummary e digests height).q.Ordered (s.moveSummary e digests height).tables
      executed := by
  have hm := h.inMemory e mem_cons_self
  have hmr : s.q.memoryHeight e.1 = some height := by
    rw [memoryHeight,hm,bind_some,hh]
  refine ⟨?_,?_,?_,?_,?_,?_,?_⟩
  · intro seq v hv
    exact h.ordered.height seq v (getElem?_moveSummary hv).2
  · intro seq seq' a b ha hb hlt
    exact h.ordered.increasing seq seq' a b (memoryHeight_of_moveSummary ha).2
      (memoryHeight_of_moveSummary hb).2 hlt
  · intro seq v hv
    exact h.ordered.nodup seq v (getElem?_moveSummary hv).2
  · intro seq v hv digest hd
    obtain ⟨hne,hv⟩ := getElem?_moveSummary hv
    have ho := h.ordered.digests seq v hv digest hd
    -- a transaction of the moved checkpoint is filed under that checkpoint
    have hn : digest ∉ e.2.2 := by
      intro hin
      rw [h.ordered.digests e.1 e.2 hm digest hin] at ho
      exact hne (some.inj ho)
    exact (hot digest hn).trans ho
  · intro seq seq' v v' hv hv'
    obtain ⟨hne,hv'⟩ := getElem?_moveSummary hv'
    change (s.tables.builderCheckpointSummary.insert e.1 e.2.1)[seq]? = some v at hv
    rw [getElem?_insert_eq] at hv
    split at hv
    · next heq => exact heq ▸ h.first hv' hne.symm
    · exact h.ordered.numbers seq seq' v v' hv hv'
  · intro seq seq' a b ha hb
    obtain ⟨hne,hb⟩ := memoryHeight_of_moveSummary hb
    rw [tableHeight_moveSummary] at ha
    split at ha
    · rw [hh] at ha
      cases ha
      obtain ⟨v,hv,-⟩ := bind_eq_some_iff.mp hb
      exact h.ordered.increasing e.1 seq' height b hmr hb (h.first hv hne.symm)
    · exact h.ordered.heights seq seq' a b ha hb
  · intro seq a ha
    rw [tableHeight_moveSummary] at ha
    split at ha
    · next heq =>
      rw [← heq]
      exact (h.below e mem_cons_self).trans h.watermark
    · exact h.ordered.executed seq a ha

theorem InLoop.commitSummary (h : InLoop start executed (e :: rest) s) :
    ∃ s', commitSummary s e = .ok s' ∧ InLoop start executed rest s' := by
  have hm := h.inMemory e mem_cons_self
  obtain ⟨digests,hd,hot⟩ :=
    exists_foldlM_removeDigest (h.ordered.nodup e.1 e.2 hm) (h.ordered.digests e.1 e.2 hm)
  obtain ⟨height,hh⟩ := isSome_iff_exists.mp (h.ordered.height e.1 e.2 hm)
  have hmr : s.q.memoryHeight e.1 = some height := by
    rw [memoryHeight,hm,bind_some,hh]
  have hab : s.highestCommittedHeight.all (fun highest => highest < height) = true := by
    cases hc : s.highestCommittedHeight with
    | none => rfl
    | some highest =>
      obtain ⟨seq,hs⟩ := h.highest highest hc
      simpa using h.ordered.heights seq e.1 highest height hs hmr
  have hn : ∀ v, s.tables.builderCheckpointSummary[e.1]? ≠ some v :=
    fun v hv => Nat.lt_irrefl _ (h.ordered.numbers e.1 e.1 v e.2 hv hm)
  refine ⟨s.moveSummary e digests height,?_,?_⟩
  · simp only [ConsensusOutputQuarantine.commitSummary,hd,ok_bind,hh,hab,if_true]
  refine ⟨h.ordered_moveSummary hh hot,?_,?_,h.sorted.of_cons,
    fun e' he' => h.below e' (.tail _ he'),h.watermark,?_,?_⟩
  · intro e' he'
    have hne : e.1 ≠ e'.1 := Nat.ne_of_lt (rel_of_pairwise_cons h.sorted he')
    change (s.q.builderCheckpointSummary.erase e.1)[e'.1]? = some e'.2
    rw [getElem?_erase_eq,if_neg hne]
    exact h.inMemory e' (.tail _ he')
  · intro seq v hv
    obtain ⟨hne,hv⟩ := getElem?_moveSummary hv
    obtain hin | hlt := h.covers seq v hv
    · obtain heq | hin := mem_cons.mp hin
      · exact absurd (congrArg Prod.fst heq).symm hne
      · exact .inl hin
    · exact .inr hlt
  · intro a ha
    obtain rfl : height = a := some.inj ha
    exact ⟨e.1,by rw [tableHeight_moveSummary,if_pos rfl,hh]⟩
  intro seq a ha
  have ho := h.grows seq a ha
  have hne : e.1 ≠ seq := by
    rintro rfl
    obtain ⟨v,hv,-⟩ := bind_eq_some_iff.mp ho
    exact hn v hv
  rw [tableHeight_moveSummary,if_neg hne,ho]

theorem InLoop.foldlM (h : InLoop start executed rest s) :
    ∃ s', rest.foldlM ConsensusOutputQuarantine.commitSummary s = .ok s' ∧
      InLoop start executed [] s' := by
  induction rest generalizing s with
  | nil => exact ⟨s,rfl,h⟩
  | cons e rest ih =>
    obtain ⟨s1,h1,hl⟩ := h.commitSummary
    obtain ⟨s',hs',he⟩ := ih hl
    exact ⟨s',by rw [foldlM_cons,h1,ok_bind,hs'],he⟩

end loop
section commit
variable {gasPriceFeedback : Bool} {q : ConsensusOutputQuarantine} {tables : AuthorityEpochTables}
  {executed : CheckpointSequenceNumber}

theorem mem_takeWhile_of_sorted {α : Type} {l : List (Nat × α)} {bound : Nat} {e : Nat × α}
    (hs : l.Pairwise fun a b => a.1 < b.1) (he : e ∈ l) (hle : e.1 ≤ bound) :
    e ∈ l.takeWhile fun x => x.1 ≤ bound := by
  induction l with
  | nil => cases he
  | cons x l ih =>
    have hx : x.1 ≤ bound := by
      obtain rfl | he := mem_cons.mp he
      · exact hle
      · exact (rel_of_pairwise_cons hs he).le.trans hle
    rw [takeWhile_cons,if_pos (decide_eq_true hx),mem_cons]
    obtain rfl | he := mem_cons.mp he
    · exact .inl rfl
    · exact .inr (ih hs.of_cons he)

theorem Ordered.inLoop (h : q.Ordered tables executed)
    (hw : q.highestExecutedCheckpoint ≤ executed) :
    InLoop ⟨q,tables,none⟩ executed q.ready ⟨q,tables,none⟩ := by
  have hs : q.builderCheckpointSummary.toList.Pairwise fun a b => a.1 < b.1 :=
    q.builderCheckpointSummary.ordered_keys_toList.imp Nat.compare_eq_lt.mp
  have hsb : q.ready.Sublist q.builderCheckpointSummary.toList := takeWhile_sublist _
  refine ⟨h,?_,?_,hs.sublist hsb,?_,hw,nofun,fun _ _ h => h⟩
  · intro e he
    exact mem_toList_iff_getElem?_eq_some.mp (hsb.subset he)
  · intro seq v hv
    by_cases hle : seq ≤ q.highestExecutedCheckpoint
    · exact .inl (mem_takeWhile_of_sorted hs (mem_toList_iff_getElem?_eq_some.mpr hv) hle)
    · exact .inr (Nat.lt_of_not_le hle)
  · intro e he
    simpa using mem_takeWhile_imp he

def Writable (output : ConsensusCommitOutput) : Prop :=
  ∃ round, output.getRound = some round ∧ ∀ j ∈ output.activeJwks, j.1 = round

theorem Writable.writeToBatch {output : ConsensusCommitOutput} (h : Writable output)
    (tables : OutputTables) : output.writeToBatch gasPriceFeedback tables =
      .ok (output.writes gasPriceFeedback tables) := by
  obtain ⟨round,hr,hj⟩ := h
  obtain ⟨stats,hs,rfl⟩ := map_eq_some_iff.mp hr
  simp only [ConsensusCommitOutput.writeToBatch,hs,if_pos hj]

theorem exists_commitOutputs {queue : List ConsensusCommitOutput} (h : q.Shadowing queue)
    (hqq : ∀ output ∈ queue, Writable output) (gasPriceFeedback : Bool)
    (tables : AuthorityEpochTables) (committed : CheckpointHeight) :
    ∃ r, commitOutputs gasPriceFeedback committed queue q tables = .ok r := by
  induction queue generalizing q tables with
  | nil => exact ⟨_,rfl⟩
  | cons output queue ih =>
    unfold ConsensusOutputQuarantine.commitOutputs
    split
    · exact ⟨_,rfl⟩
    split
    · obtain ⟨m,hm,-⟩ := h.removeNext
      have hok : ∃ r, q.commitOutput output gasPriceFeedback tables = .ok r := by
        unfold ConsensusOutputQuarantine.commitOutput
        rw [hm,ok_bind,(hqq output mem_cons_self).writeToBatch,ok_bind]
        exact ⟨_,rfl⟩
      obtain ⟨r,hr⟩ := hok
      rw [hr,ok_bind]
      exact ih (h.commitOutput.of_ok hr).1.1 (fun o ho => hqq o (.tail _ ho)) _
    · exact ⟨_,rfl⟩

/-- What a commit leaves: the order of the built checkpoints, and outputs that were moved only up
to the height of a checkpoint in the tables. -/
structure Committed (executed : CheckpointSequenceNumber) (q : ConsensusOutputQuarantine)
    (tables : AuthorityEpochTables) (r : ConsensusOutputQuarantine × AuthorityEpochTables) :
    Prop where
  ordered : r.1.Ordered r.2 executed
  watermark : r.1.highestExecutedCheckpoint = q.highestExecutedCheckpoint
  grows : ∀ seq height, tables.tableHeight seq = some height → r.2.tableHeight seq = some height
  moved : ∃ moved, q.outputQueue = moved ++ r.1.outputQueue ∧
    ∀ output ∈ moved, ∃ seq height highest, r.2.tableHeight seq = some height ∧
      highest ≤ height ∧ output.getHighestPendingCheckpointHeight = some highest

theorem Ordered.congr {q' : ConsensusOutputQuarantine} {tables' : AuthorityEpochTables}
    (h : q.Ordered tables executed) (hq : q'.SameBuilder q)
    (ht : tables'.builderCheckpointSummary = tables.builderCheckpointSummary) :
    q'.Ordered tables' executed := by
  obtain ⟨h1,h2,h3,h4,h5,h6,h7⟩ := h
  refine ⟨?_,?_,?_,?_,?_,?_,?_⟩ <;>
    simpa only [hq.summaries,hq.digests,ht,memoryHeight,tableHeight]

theorem Ordered.commitWithBatch (h : q.Ordered tables executed)
    (hw : q.highestExecutedCheckpoint ≤ executed) (hsh : q.Shadowing q.outputQueue)
    (hqq : ∀ output ∈ q.outputQueue, Writable output) :
    ∃ r, q.commitWithBatch gasPriceFeedback tables = .ok r ∧ Committed executed q tables r := by
  obtain ⟨s,hs,he⟩ := (h.inLoop hw).foldlM
  have hsm := (ready_satisfies ⟨q,tables,none⟩ q.ready).of_ok hs
  unfold ConsensusOutputQuarantine.commitWithBatch
  rw [hs,ok_bind]
  cases hc : s.highestCommittedHeight with
  | none =>
    exact ⟨_,rfl,he.ordered,hsm.watermark,he.grows,[],hsm.queue.symm,nofun⟩
  | some committed =>
    have hs' : s.q.Shadowing s.q.outputQueue := by
      rw [hsm.queue]
      exact hsh.congr _ hsm.nextVersions hsm.debts hsm.randomnessDebts hsm.processed
    obtain ⟨r,hr⟩ := exists_commitOutputs hs' (fun o ho => hqq o (hsm.queue ▸ ho))
      gasPriceFeedback s.tables committed
    obtain ⟨moved,hm⟩ := (hs'.commitOutputs committed).of_ok hr
    have ht : r.2.builderCheckpointSummary = s.tables.builderCheckpointSummary := by
      rw [hm.tables_eq]
    have hh : ∀ seq, r.2.tableHeight seq = s.tables.tableHeight seq := by
      intro seq
      rw [tableHeight,ht]
      rfl
    obtain ⟨seq,hsq⟩ := he.highest committed hc
    refine ⟨r,hr,he.ordered.congr hm.builder ht,
      hm.builder.watermark.trans hsm.watermark,?_,moved,?_,?_⟩
    · intro seq' height hh'
      rw [hh]
      exact he.grows seq' height hh'
    · rw [← hm.queue_eq,hsm.queue]
    intro output ho
    obtain ⟨highest,hle,hhg⟩ := hm.heights output ho
    exact ⟨seq,committed,highest,by rw [hh,hsq],hle,hhg⟩

end commit

theorem Ordered.insertBuilderSummary {q : ConsensusOutputQuarantine}
    {tables : AuthorityEpochTables} {executed seq : CheckpointSequenceNumber}
    {summary : BuilderCheckpointSummary} {contents : CheckpointContents}
    {commitHeight : CheckpointHeight} (h : q.Ordered tables executed)
    (hh : summary.checkpointHeight = some commitHeight)
    (hmr : ∀ seq' height, q.memoryHeight seq' = some height → height < commitHeight)
    (ht : ∀ seq' height, tables.tableHeight seq' = some height → height < commitHeight)
    (hafterMemory : ∀ (seq' : Nat) e, q.builderCheckpointSummary[seq']? = some e → seq' < seq)
    (hafterTables : ∀ (seq' : Nat) e, tables.builderCheckpointSummary[seq']? = some e →
      seq' < seq)
    (hnd : contents.Nodup) (hf : ∀ digest ∈ contents, q.builderDigestToCheckpoint[digest]? = none) :
    (q.insertBuilderSummary seq summary contents).Ordered tables executed := by
  have hg : ∀ seq' : Nat,
      (q.insertBuilderSummary seq summary contents).builderCheckpointSummary[seq']? =
        if seq = seq' then some (summary,contents) else q.builderCheckpointSummary[seq']? :=
    fun seq' => getElem?_insert_eq _ _ _ _
  have hm : ∀ seq', (q.insertBuilderSummary seq summary contents).memoryHeight seq' =
      if seq = seq' then some commitHeight else q.memoryHeight seq' := by
    intro seq'
    rw [memoryHeight,hg]
    split
    · exact hh
    · rfl
  have hdg : ∀ digest : Nat,
      (q.insertBuilderSummary seq summary contents).builderDigestToCheckpoint[digest]? =
        if digest ∈ contents then some seq else q.builderDigestToCheckpoint[digest]? := by
    intro digest
    change (contents.foldl (fun t d => t.insert d seq) q.builderDigestToCheckpoint)[digest]? = _
    rw [getElem?_foldl_insert (fun d => d) fun _ => seq]
    split
    · next hin =>
      obtain ⟨d,hd⟩ : ∃ d, contents.reverse.find? (fun d => d = digest) = some d := by
        rw [← isSome_iff_exists,List.find?_isSome]
        exact ⟨digest,mem_reverse.mpr hin,by simp⟩
      simp [hd]
    · next hn =>
      have hnn : contents.reverse.find? (fun d => d = digest) = none := by
        rw [List.find?_eq_none]
        intro d hd heq
        exact hn (of_decide_eq_true heq ▸ mem_reverse.mp hd)
      rw [hnn]
      rfl
  refine ⟨?_,?_,?_,?_,?_,?_,h.executed⟩
  · intro seq' e he
    rw [hg] at he
    split at he
    · cases he; simp [hh]
    · exact h.height seq' e he
  · intro a b ha hb hma hmb hlt
    rw [hm] at hma hmb
    split at hmb
    · cases hmb
      split at hma
      · next heq heq' => exact absurd hlt (by rw [← heq,← heq']; exact Nat.lt_irrefl _)
      · exact hmr a ha hma
    split at hma
    · next hne heq =>
      obtain ⟨e,he,-⟩ := bind_eq_some_iff.mp hmb
      exact absurd (hafterMemory b e he) (by rw [heq]; exact Nat.not_lt.mpr hlt.le)
    · exact h.increasing a b ha hb hma hmb hlt
  · intro seq' e he
    rw [hg] at he
    split at he
    · cases he; exact hnd
    · exact h.nodup seq' e he
  · intro seq' e he digest hd
    rw [hg] at he
    rw [hdg]
    split at he
    · next heq => cases he; rw [if_pos hd,heq]
    have ho := h.digests seq' e he digest hd
    have hn : digest ∉ contents := by
      intro hin
      rw [hf digest hin] at ho
      cases ho
    rw [if_neg hn,ho]
  · intro a b e e' he he'
    rw [hg] at he'
    split at he'
    · next heq => exact heq ▸ hafterTables a e he
    · exact h.numbers a b e e' he he'
  · intro a b ha hb hta hmb
    rw [hm] at hmb
    split at hmb
    · cases hmb; exact ht a ha hta
    · exact h.heights a b ha hb hta hmb

end ConsensusOutputQuarantine
end Iota.Authority
