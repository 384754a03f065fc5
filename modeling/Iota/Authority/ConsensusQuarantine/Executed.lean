import Iota.Authority.ConsensusQuarantine.Builder
import Iota.Authority.ConsensusQuarantine.Overlay

/-! As long as every pending checkpoint becomes one checkpoint, committing never fails an assertion
and an output reaches the tables only when every checkpoint built from it has been executed. A
pending checkpoint that is split breaks both: its chunks share a height. -/
namespace Iota.Authority
open ConsensusOutputQuarantine Except List
open Std (ExtTreeMap)

/-- The checkpoints a pending checkpoint went into: those of the least height at or above its own,
since the builder merges pending checkpoints up to that height. -/
def EpochStore.BuiltFrom (s : EpochStore) (pending : CheckpointHeight)
    (seq : CheckpointSequenceNumber) : Prop :=
  ∃ height, s.IsBuilt seq height ∧ pending ≤ height ∧
    ∀ seq' height', s.IsBuilt seq' height' → pending ≤ height' → height ≤ height'

structure BuilderRun where
  run : QuarantineRun
  executed : CheckpointSequenceNumber

namespace BuilderRun

def step (gasPriceFeedback : Bool) (r : BuilderRun) (event : EpochStore.Event) :
    Except QuarantineFailure BuilderRun := do
  let run ← r.run.step gasPriceFeedback event
  match event with
  | .executed checkpoint => return ⟨run,max r.executed checkpoint⟩
  | _ => return ⟨run,r.executed⟩

/-- The start of an epoch: the only built checkpoint there can be is the genesis one. -/
def Fresh (r : BuilderRun) : Prop :=
  r.run.Fresh ∧ r.executed = r.run.store.quarantine.highestExecutedCheckpoint ∧
    ∀ seq height, ¬ r.run.store.IsBuilt seq height

/-- The pending checkpoints of an output follow those of the earlier outputs. -/
structure NextPending (r : BuilderRun) (output : ConsensusCommitOutput) : Prop where
  increasing : (output.pendingCheckpoints.map PendingCheckpoint.height).Pairwise (· < ·)
  later : ∀ earlier ∈ r.run.pushed, ∀ cp ∈ earlier.pendingCheckpoints,
    ∀ cp' ∈ output.pendingCheckpoints, cp.height < cp'.height

/-- What the builder hands over: checkpoints that follow the built ones in number, for a height
that follows theirs, with transactions that are in no other checkpoint in memory. -/
structure NextBuilt (r : BuilderRun) (commitHeight : CheckpointHeight)
    (contentInfo : List (CheckpointSummary × CheckpointContents)) : Prop where
  nonempty : contentInfo ≠ []
  heights : ∀ seq height, r.run.store.IsBuilt seq height → height < commitHeight
  increasing : (contentInfo.map fun c => c.1.sequenceNumber).Pairwise (· < ·)
  afterMemory : ∀ c ∈ contentInfo,
    ∀ (seq : Nat) e, r.run.store.quarantine.builderCheckpointSummary[seq]? = some e →
      seq < c.1.sequenceNumber
  afterTables : ∀ c ∈ contentInfo,
    ∀ (seq : Nat) e, r.run.store.tables.builderCheckpointSummary[seq]? = some e →
      seq < c.1.sequenceNumber
  nodup : (contentInfo.flatMap Prod.snd).Nodup
  fresh : ∀ c ∈ contentInfo, ∀ digest ∈ c.2,
    r.run.store.quarantine.builderDigestToCheckpoint[digest]? = none

def Allowed (r : BuilderRun) : EpochStore.Event → Prop
  | .pushed output => r.run.FromHandler output ∧ r.NextPending output
  | .built commitHeight contentInfo => r.NextBuilt commitHeight contentInfo
  | .restarted highest => highest ≤ r.executed
  | _ => True

def NotSplit : EpochStore.Event → Prop
  | .built _ contentInfo => contentInfo.length = 1
  | _ => True

end BuilderRun

variable {output : ConsensusCommitOutput}

theorem ConsensusCommitOutput.height_le_highest
    (h : (output.pendingCheckpoints.map PendingCheckpoint.height).Pairwise (· < ·))
    {cp : PendingCheckpoint} (hcp : cp ∈ output.pendingCheckpoints) {highest : CheckpointHeight}
    (hh : output.getHighestPendingCheckpointHeight = some highest) : cp.height ≤ highest := by
  obtain ⟨last,hl,rfl⟩ := Option.map_eq_some_iff.mp hh
  obtain ⟨init,hi⟩ := List.getLast?_eq_some_iff.mp hl
  rw [hi,map_append,pairwise_append] at h
  rw [hi] at hcp
  obtain hcp | hcp := mem_append.mp hcp
  · exact (h.2.2 _ (mem_map_of_mem hcp) _ (by simp)).le
  · rw [mem_singleton.mp hcp]

namespace BuilderRun
variable {gasPriceFeedback : Bool} {r r' : BuilderRun}

/-- The heights of pending checkpoints, in the order of the outputs. -/
def pendingHeights (outputs : List ConsensusCommitOutput) : List CheckpointHeight :=
  outputs.flatMap fun output => output.pendingCheckpoints.map PendingCheckpoint.height

/-- The pending checkpoints of an output are at or below a checkpoint in the tables. -/
def Covered (tables : AuthorityEpochTables) (output : ConsensusCommitOutput) : Prop :=
  ∀ cp ∈ output.pendingCheckpoints, ∃ seq height, tables.tableHeight seq = some height ∧
    cp.height ≤ height

structure Safe (gasPriceFeedback : Bool) (r : BuilderRun) : Prop where
  overlaid : r.run.Overlaid gasPriceFeedback
  ordered : r.run.store.quarantine.Ordered r.run.store.tables r.executed
  watermark : r.run.store.quarantine.highestExecutedCheckpoint ≤ r.executed
  covered : ∃ committed, r.run.pushed = committed ++ r.run.store.quarantine.outputQueue ∧
    ∀ output ∈ committed, Covered r.run.store.tables output
  pending : (pendingHeights r.run.pushed).Pairwise (· < ·)

theorem pairwise_pending {outputs : List ConsensusCommitOutput}
    (h : (pendingHeights outputs).Pairwise (· < ·)) (ho : output ∈ outputs) :
    (output.pendingCheckpoints.map PendingCheckpoint.height).Pairwise (· < ·) :=
  (pairwise_flatMap.mp h).1 output ho

theorem ordered_new {tables : AuthorityEpochTables} {executed : CheckpointSequenceNumber}
    (highest : CheckpointSequenceNumber)
    (hex : ∀ seq height, tables.tableHeight seq = some height → seq ≤ executed) :
    (new highest).Ordered tables executed := by
  have hn : ∀ (seq : Nat) e,
      (new highest).builderCheckpointSummary[seq]? ≠ some e := by
    intro seq e he
    simp [ConsensusOutputQuarantine.new] at he
  have hm : ∀ seq height,
      (ConsensusOutputQuarantine.new highest).memoryHeight seq ≠ some height := by
    intro seq height hhg
    simp [ConsensusOutputQuarantine.new,ConsensusOutputQuarantine.memoryHeight] at hhg
  exact ⟨fun seq e he => absurd he (hn seq e),
    fun seq _ height _ hh => absurd hh (hm seq height),
    fun seq e he => absurd he (hn seq e),fun seq e he => absurd he (hn seq e),
    fun _ seq' _ e' _ he' => absurd he' (hn seq' e'),
    fun _ seq' _ height' _ hh => absurd hh (hm seq' height'),hex⟩

theorem Safe.init (h : r.Fresh) : r.Safe gasPriceFeedback := by
  obtain ⟨hf,he,hb⟩ := h
  obtain ⟨run,executed⟩ := r
  have ho : run.Overlaid gasPriceFeedback := .init hf
  obtain ⟨tables,highest,-,rfl⟩ := hf
  refine ⟨ho,ordered_new highest ?_,he.ge,⟨[],rfl,nofun⟩,.nil⟩
  exact fun seq height hh => absurd (EpochStore.isBuilt_iff.mpr (.inr hh)) (hb seq height)

theorem Covered.mono {tables tables' : AuthorityEpochTables} (h : Covered tables output)
    (hg : ∀ seq height, tables.tableHeight seq = some height →
      tables'.tableHeight seq = some height) : Covered tables' output := by
  intro cp hcp
  obtain ⟨seq,height,hh,hle⟩ := h cp hcp
  exact ⟨seq,height,hg seq height hh,hle⟩

theorem exists_commit (gasPriceFeedback : Bool) {q : ConsensusOutputQuarantine} {tables : AuthorityEpochTables}
    {executed : CheckpointSequenceNumber} {pushed committed : List ConsensusCommitOutput}
    (hor : q.Ordered tables executed) (hw : q.highestExecutedCheckpoint ≤ executed)
    (hs : q.Shadowing q.outputQueue) (hp : pushed = committed ++ q.outputQueue)
    (hwr : ∀ output ∈ pushed, Writable output) (hpn : (pendingHeights pushed).Pairwise (· < ·))
    (hcv : ∀ output ∈ committed, Covered tables output) :
    ∃ res, q.commitWithBatch gasPriceFeedback tables = .ok res ∧ res.1.Ordered res.2 executed ∧
      res.1.highestExecutedCheckpoint ≤ executed ∧
      ∃ committed, pushed = committed ++ res.1.outputQueue ∧
        ∀ output ∈ committed, Covered res.2 output := by
  obtain ⟨res,hr,hc⟩ : ∃ res, q.commitWithBatch gasPriceFeedback tables = .ok res ∧
      Committed executed q tables res :=
    hor.commitWithBatch hw hs fun o ho =>
      hwr o (by rw [hp]; exact mem_append_right _ ho)
  obtain ⟨moved,hqq,hm⟩ := hc.moved
  refine ⟨res,hr,hc.ordered,hc.watermark ▸ hw,committed ++ moved,?_,?_⟩
  · rw [hp,hqq,append_assoc]
  intro output ho
  obtain ho | ho := mem_append.mp ho
  · exact (hcv output ho).mono hc.grows
  obtain ⟨seq,height,highest,hh,hle,hhg⟩ := hm output ho
  have hin : output ∈ pushed := by
    rw [hp,hqq]
    exact mem_append_right _ (mem_append_left _ ho)
  intro cp hcp
  exact ⟨seq,height,hh,(ConsensusCommitOutput.height_le_highest
    (pairwise_pending hpn hin) hcp hhg).trans hle⟩

section
variable (h : r.Safe gasPriceFeedback)

include h

theorem Safe.pushed (hf : r.run.FromHandler output) (hn : r.NextPending output) :
    ∃ r', r.step gasPriceFeedback (.pushed output) = .ok r' ∧ r'.Safe gasPriceFeedback := by
  obtain ⟨committed,hps,hc⟩ := h.covered
  have hp : (pendingHeights (r.run.pushed ++ [output])).Pairwise (· < ·) := by
    rw [pendingHeights,flatMap_append,flatMap_singleton,pairwise_append]
    refine ⟨h.pending,hn.increasing,?_⟩
    intro a ha b hb
    obtain ⟨earlier,he,ha⟩ := mem_flatMap.mp ha
    obtain ⟨cp,hcp,rfl⟩ := mem_map.mp ha
    obtain ⟨cp',hcp',rfl⟩ := mem_map.mp hb
    exact hn.later earlier he cp hcp cp' hcp'
  have hwr : ∀ o ∈ r.run.pushed ++ [output], Writable o := by
    intro o ho
    obtain ho | ho := mem_append.mp ho
    · exact h.overlaid.jwks o ho
    rw [mem_singleton.mp ho]
    obtain ⟨round,hrn,hj,-⟩ := hf.round
    exact ⟨round,hrn,hj⟩
  have hqq : r.run.pushed ++ [output] =
      committed ++ (r.run.store.quarantine.enqueue output).outputQueue := by
    rw [hps,append_assoc]
    rfl
  have hor : (r.run.store.quarantine.enqueue output).Ordered r.run.store.tables r.executed :=
    h.ordered.congr ⟨rfl,rfl,rfl⟩ rfl
  obtain ⟨res,hr,hor,hw,hm⟩ := exists_commit gasPriceFeedback hor h.watermark
    (h.overlaid.shadowing.enqueue output) hqq hwr hp hc
  have hs : r.run.step gasPriceFeedback (.pushed output) = .ok { r.run with
      store := ⟨res.1,res.2,r.run.store.cache.record gasPriceFeedback output⟩
      pushed := r.run.pushed ++ [output] } := by
    simp only [QuarantineRun.step,EpochStore.step,pushConsensusOutput,hr,ok_bind]
    rfl
  refine ⟨_,by rw [BuilderRun.step,hs]; rfl,?_⟩
  exact ⟨h.overlaid.pushed hf hs,hor,hw,hm,hp⟩

theorem Safe.versionsRead (currentVersion : ObjectID → Option SequenceNumber)
    (objectsToInit : List (ObjectID × SequenceNumber)) :
    ∃ r', r.step gasPriceFeedback (.versionsRead currentVersion objectsToInit) = .ok r' ∧
      r'.Safe gasPriceFeedback := by
  refine ⟨_,rfl,h.overlaid.versionsRead rfl,?_,h.watermark,h.covered,h.pending⟩
  exact h.ordered.congr ⟨rfl,rfl,rfl⟩ rfl

theorem Safe.restarted {highest : CheckpointSequenceNumber} (hle : highest ≤ r.executed) :
    ∃ r', r.step gasPriceFeedback (.restarted highest) = .ok r' ∧ r'.Safe gasPriceFeedback := by
  obtain ⟨committed,hps,hc⟩ := h.covered
  have ht : r.run.pushed.take
      (r.run.pushed.length - r.run.store.quarantine.outputQueue.length) = committed := by
    rw [hps,length_append,Nat.add_sub_cancel,take_left']
    rfl
  refine ⟨_,rfl,h.overlaid.restarted rfl,ordered_new highest h.ordered.executed,hle,
    ⟨committed,?_,hc⟩,?_⟩
  · exact ht.trans (append_nil _).symm
  have hp := h.pending
  rw [hps,pendingHeights,flatMap_append,pairwise_append] at hp
  exact ht ▸ hp.1

theorem Safe.committed {q : ConsensusOutputQuarantine}
    {executed : CheckpointSequenceNumber} (ho : q.Ordered r.run.store.tables executed)
    (hw : q.highestExecutedCheckpoint ≤ executed)
    (hs : q.Shadowing r.run.store.quarantine.outputQueue)
    (hqq : q.outputQueue = r.run.store.quarantine.outputQueue) :
    ∃ res, q.commitWithBatch gasPriceFeedback r.run.store.tables = .ok res ∧
      Safe gasPriceFeedback ⟨{ r.run with store := ⟨res.1,res.2,r.run.store.cache⟩ },executed⟩ := by
  obtain ⟨committed,hp,hc⟩ := h.covered
  have hs' := hs
  rw [← hqq] at hs' hp
  obtain ⟨res,hr,ho,hw,hm⟩ := exists_commit gasPriceFeedback ho hw hs'
    hp h.overlaid.jwks h.pending hc
  exact ⟨res,hr,h.overlaid.committed hr hs hqq,ho,hw,hm,h.pending⟩

theorem Safe.executed (checkpoint : CheckpointSequenceNumber) :
    ∃ r', r.step gasPriceFeedback (.executed checkpoint) = .ok r' ∧
      r'.Safe gasPriceFeedback := by
  have ho : { r.run.store.quarantine with
      highestExecutedCheckpoint := checkpoint : ConsensusOutputQuarantine }.Ordered
        r.run.store.tables (max r.executed checkpoint) := by
    obtain ⟨h1,h2,h3,h4,h5,h6,h7⟩ := h.ordered
    exact ⟨h1,h2,h3,h4,h5,h6,fun seq height hh => (h7 seq height hh).trans (le_max_left _ _)⟩
  obtain ⟨res,hr,hs⟩ := h.committed ho (le_max_right _ _)
    (h.overlaid.shadowing.congr _ rfl rfl rfl rfl) rfl
  refine ⟨_,?_,hs⟩
  simp only [step,QuarantineRun.step,EpochStore.step,
    updateHighestExecutedCheckpoint,hr,ok_bind]
  rfl

theorem Safe.built {commitHeight : CheckpointHeight}
    {c : CheckpointSummary × CheckpointContents} (hb : r.NextBuilt commitHeight [c]) :
    ∃ r', r.step gasPriceFeedback (.built commitHeight [c]) = .ok r' ∧
      r'.Safe gasPriceFeedback := by
  have hn : c.2.Nodup := by simpa using hb.nodup
  have ho : (r.run.store.quarantine.insertChunks commitHeight [c]).Ordered
      r.run.store.tables r.executed :=
    h.ordered.insertBuilderSummary rfl
      (fun seq height hh => hb.heights seq height (EpochStore.isBuilt_iff.mpr (.inl hh)))
      (fun seq height hh => hb.heights seq height (EpochStore.isBuilt_iff.mpr (.inr hh)))
      (hb.afterMemory c mem_cons_self) (hb.afterTables c mem_cons_self) hn
      (hb.fresh c mem_cons_self)
  obtain ⟨res,hr,hs⟩ := h.committed ho h.watermark
    (h.overlaid.shadowing.congr _ rfl rfl rfl rfl) rfl
  refine ⟨_,?_,hs⟩
  simp only [step,QuarantineRun.step,EpochStore.step,processConstructedCheckpoint,hr,ok_bind]
  rfl

theorem Safe.step {event : EpochStore.Event} (ha : r.Allowed event) (hn : NotSplit event) :
    ∃ r', r.step gasPriceFeedback event = .ok r' ∧ r'.Safe gasPriceFeedback := by
  cases event with
  | pushed output => exact h.pushed ha.1 ha.2
  | versionsRead currentVersion objectsToInit =>
    exact h.versionsRead currentVersion objectsToInit
  | built commitHeight contentInfo =>
    obtain ⟨c,rfl⟩ := length_eq_one_iff.mp hn
    exact h.built ha
  | executed checkpoint => exact h.executed checkpoint
  | restarted highest => exact h.restarted ha

end

theorem safe_of_reached (h : Machine.Reached Fresh (step gasPriceFeedback)
    (fun r event => r.Allowed event ∧ NotSplit event) r) : r.Safe gasPriceFeedback :=
  h.invariant (fun _ => Safe.init) fun r event r' h ha hr => by
    obtain ⟨r'',hr'',hs⟩ := h.step ha.1 ha.2
    rw [hr] at hr''
    cases hr''
    exact hs

/-- What is in memory is above what is in the tables, so a pending checkpoint at or below a
checkpoint in the tables went into checkpoints in the tables. -/
theorem Safe.executed_of_builtFrom (h : r.Safe gasPriceFeedback)
    (hc : Covered r.run.store.tables output) {cp : PendingCheckpoint}
    (hcp : cp ∈ output.pendingCheckpoints) :
    (∃ seq, r.run.store.BuiltFrom cp.height seq) ∧
      ∀ seq, r.run.store.BuiltFrom cp.height seq → seq ≤ r.executed := by
  obtain ⟨seq,height,hh,hle⟩ := hc cp hcp
  constructor
  · -- the least built height at or above the pending one
    have hex : ∃ height, (∃ seq, r.run.store.IsBuilt seq height) ∧ cp.height ≤ height :=
      ⟨height,⟨seq,EpochStore.isBuilt_iff.mpr (.inr hh)⟩,hle⟩
    classical
    obtain ⟨⟨seq',hbl⟩,hle'⟩ := Nat.find_spec hex
    exact ⟨seq',Nat.find hex,hbl,hle',fun seq'' height'' hb hle'' =>
      Nat.find_min' hex ⟨⟨seq'',hb⟩,hle''⟩⟩
  rintro seq' ⟨height',hbl,-,hl⟩
  have hmn := hl seq height (EpochStore.isBuilt_iff.mpr (.inr hh)) hle
  obtain hm | ht := EpochStore.isBuilt_iff.mp hbl
  · exact absurd (h.ordered.heights seq seq' height height' hh hm) (Nat.not_lt.mpr hmn)
  · exact h.ordered.executed seq' height' ht

theorem Safe.pairwise_getPendingCheckpoints (h : r.Safe gasPriceFeedback)
    (last : Option CheckpointHeight) :
    (r.run.store.quarantine.getPendingCheckpoints last).Pairwise fun a b => a.1 < b.1 := by
  obtain ⟨committed,hps,-⟩ := h.covered
  have hp := h.pending
  rw [hps,pendingHeights,flatMap_append,pairwise_append] at hp
  have hs : ∀ queue : List ConsensusCommitOutput,
      ((queue.flatMap fun output =>
        (output.getPendingCheckpoints last).map fun cp => (cp.height,cp)).map Prod.fst).Sublist
          (pendingHeights queue) := by
    intro queue
    induction queue with
    | nil => exact List.Sublist.slnil
    | cons output queue ih =>
      rw [pendingHeights,flatMap_cons,flatMap_cons,map_append,map_map]
      exact List.Sublist.append (filter_sublist.map _) ih
  exact pairwise_map.mp (hp.2.1.sublist (hs _))

/-- In runs in which no pending checkpoint is split no assertion fails, and the tables hold the
outputs of a prefix all of whose checkpoints have been built and executed. -/
theorem outputs_moved_after_execution (gasPriceFeedback : Bool) {r : BuilderRun}
    (hr : Machine.Reached Fresh (step gasPriceFeedback)
      (fun r event => r.Allowed event ∧ NotSplit event) r) :
    (∀ event, r.Allowed event → NotSplit event → ∃ r', r.step gasPriceFeedback event = .ok r') ∧
    (∀ last, (r.run.store.quarantine.getPendingCheckpoints last).Pairwise
      fun a b => a.1 < b.1) ∧
    ∃ committed, r.run.pushed = committed ++ r.run.store.quarantine.outputQueue ∧
      r.run.store.tables.toOutputTables = applied gasPriceFeedback committed r.run.base ∧
      ∀ output ∈ committed, ∀ cp ∈ output.pendingCheckpoints,
        (∃ seq, r.run.store.BuiltFrom cp.height seq) ∧
          ∀ seq, r.run.store.BuiltFrom cp.height seq → seq ≤ r.executed := by
  have h := safe_of_reached hr
  refine ⟨?_,h.pairwise_getPendingCheckpoints,?_⟩
  · intro event ha hn
    obtain ⟨r',hr',-⟩ := h.step ha hn
    exact ⟨r',hr'⟩
  obtain ⟨committed,hp,hc⟩ := h.covered
  obtain ⟨committed',hp',ht⟩ := h.overlaid.moved
  obtain rfl : committed = committed' := append_cancel_right (hp.symm.trans hp')
  exact ⟨committed,hp,ht,fun output ho cp hcp =>
    h.executed_of_builtFrom (hc output ho) hcp⟩

def atStart : BuilderRun := ⟨⟨.new {} 0,{},[]⟩,0⟩

theorem atStart_fresh : atStart.Fresh := by
  refine ⟨⟨{},0,rfl,rfl⟩,rfl,?_⟩
  intro seq height hb
  obtain h | h := EpochStore.isBuilt_iff.mp hb
  · simp [atStart,EpochStore.new,ConsensusOutputQuarantine.new,memoryHeight] at h
  · simp [atStart,EpochStore.new,AuthorityEpochTables.tableHeight] at h

theorem atStart_allowed_pushed (round version : Nat) :
    atStart.Allowed (.pushed (QuarantineRun.versionOutput round version)) :=
  ⟨QuarantineRun.versionOutput_fromHandler (forall_mem_nil _),
    by simp [QuarantineRun.versionOutput],forall_mem_nil _⟩

def afterPush (gasPriceFeedback : Bool) (output : ConsensusCommitOutput) : BuilderRun :=
  ⟨⟨⟨(new 0).enqueue output,{},
    (ConsensusOutputCache.new {}).record gasPriceFeedback output⟩,{},[output]⟩,0⟩

theorem atStart_step_pushed (output : ConsensusCommitOutput) :
    atStart.step gasPriceFeedback (.pushed output) = .ok (afterPush gasPriceFeedback output) := by
  have hr : ((ConsensusOutputQuarantine.new 0).enqueue output).ready = [] := by
    simp [ready,enqueue,
      insertProcessedConsensusMessages,
      insertCongestionControlDebts,
      ConsensusOutputQuarantine.insertSharedObjectNextVersions,ConsensusOutputQuarantine.new]
  have hc : ((new 0).enqueue output).commitWithBatch
      gasPriceFeedback {} = .ok ((new 0).enqueue output,{}) := by
    rfl
  rfl

theorem afterPush_nextBuilt (output : ConsensusCommitOutput) (commitHeight : CheckpointHeight)
    {contentInfo : List (CheckpointSummary × CheckpointContents)} (hnn : contentInfo ≠ [])
    (hi : (contentInfo.map fun c => c.1.sequenceNumber).Pairwise (· < ·))
    (hn : (contentInfo.flatMap Prod.snd).Nodup) :
    (afterPush gasPriceFeedback output).NextBuilt commitHeight contentInfo := by
  have hem : ∀ seq : Nat,
      (∅ : ExtTreeMap Nat (BuilderCheckpointSummary × CheckpointContents))[seq]? = none :=
    fun seq => ExtTreeMap.getElem?_empty
  have he' : ∀ seq : Nat, (∅ : ExtTreeMap Nat BuilderCheckpointSummary)[seq]? = none :=
    fun seq => ExtTreeMap.getElem?_empty
  refine ⟨hnn,?_,hi,?_,?_,hn,?_⟩
  · rintro seq - (⟨e,he,-⟩ | ⟨e,he,-⟩)
    · cases (hem seq).symm.trans he
    · cases (he' seq).symm.trans he
  · intro c _ seq e he
    cases (hem seq).symm.trans he
  · intro c _ seq e he
    cases (he' seq).symm.trans he
  · intro c _ digest _
    exact ExtTreeMap.getElem?_empty

/-- An output whose only checkpoint has been executed is in the tables. -/
theorem outputs_moved_after_execution_one :
    ∃ r, Machine.Reached Fresh (step false) (fun r event => r.Allowed event ∧ NotSplit event) r ∧
      r.run.pushed = [QuarantineRun.versionOutput 1 5] ∧
      r.run.store.quarantine.outputQueue = [] ∧ r.executed = 1 ∧
      (∃ seq, r.run.store.BuiltFrom 2 seq) ∧
      ∀ seq, r.run.store.BuiltFrom 2 seq → seq ≤ 1 := by
  obtain ⟨r1,h1,r,h2,hp,hqq,he⟩ : ∃ r1,
      step false (afterPush false (QuarantineRun.versionOutput 1 5))
        (.built 2 [(QuarantineRun.emptySummary 1,[10])]) = .ok r1 ∧
      ∃ r, step false r1 (.executed 1) = .ok r ∧
        r.run.pushed = [QuarantineRun.versionOutput 1 5] ∧
        r.run.store.quarantine.outputQueue = [] ∧ r.executed = 1 := by decide +kernel
  have hr : Machine.Reached Fresh (step false)
      (fun r event => r.Allowed event ∧ NotSplit event) r := by
    refine .step (.step (.step (.init atStart_fresh) ?_ (atStart_step_pushed _)) ?_ h1) ?_ h2
    · exact ⟨atStart_allowed_pushed 1 5,trivial⟩
    · exact ⟨afterPush_nextBuilt _ _ (by decide) (by decide) (by decide),rfl⟩
    · exact ⟨trivial,trivial⟩
  obtain ⟨-,-,committed,hc,-,ha⟩ := outputs_moved_after_execution false hr
  rw [hp,hqq,append_nil] at hc
  have hb := ha (QuarantineRun.versionOutput 1 5) (by simp [← hc]) ⟨[],⟨0,false,2⟩⟩ (by decide)
  rw [he] at hb
  exact ⟨r,hr,hp,hqq,he,hb⟩

/-- A pending checkpoint of height 2 is split in two. When both chunks have been executed by the
time the quarantine commits, the assertion on heights fails; when only the first has been executed,
the output is moved although the second chunk, built from it, has not been executed. -/
theorem split_checkpoint_breaks_quarantine :
    ∃ r, Machine.Reached Fresh (step false) Allowed r ∧
      r.step false (.executed 2) = .error .heightNotIncreasing ∧
      ∃ r', r.step false (.executed 1) = .ok r' ∧
        r'.run.pushed = [QuarantineRun.versionOutput 1 5] ∧
        r'.run.store.quarantine.outputQueue = [] ∧
        r'.run.store.BuiltFrom 2 2 ∧ r'.executed = 1 := by
  obtain ⟨r,hr,hb,r',hr',hp,hqq,hm,he⟩ : ∃ r,
      step false (afterPush false (QuarantineRun.versionOutput 1 5)) (.built 2
        [(QuarantineRun.emptySummary 1,[10]),(QuarantineRun.emptySummary 2,[11])]) = .ok r ∧
        r.step false (.executed 2) = .error .heightNotIncreasing ∧
      ∃ r', r.step false (.executed 1) = .ok r' ∧
        r'.run.pushed = [QuarantineRun.versionOutput 1 5] ∧
        r'.run.store.quarantine.outputQueue = [] ∧
        r'.run.store.quarantine.memoryHeight 2 = some 2 ∧ r'.executed = 1 := by decide +kernel
  have hrc : Machine.Reached Fresh (step false) Allowed r := by
    refine .step (.step (.init atStart_fresh) (atStart_allowed_pushed 1 5)
      (atStart_step_pushed _)) ?_ hr
    exact afterPush_nextBuilt _ _ (by decide) (by decide) (by decide)
  refine ⟨r,hrc,hb,r',hr',hp,hqq,?_,he⟩
  exact ⟨2,EpochStore.isBuilt_iff.mpr (.inl hm),le_rfl,fun _ _ _ hle => hle⟩

end BuilderRun
end Iota.Authority
