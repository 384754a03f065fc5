import Iota.Checkpoints.Boundaries
import Iota.Checkpoints.Chunks
import Iota.Checkpoints.Contents

/-! Over an epoch every transaction that a pending checkpoint needs is in exactly one checkpoint,
after its dependencies, however pending checkpoints are grouped. -/
namespace Iota.Checkpoints
open BuilderEnv Except Iota.Authority List
namespace Builder
variable {env : BuilderEnv} {pendings : List PendingCheckpoint} {rank : TransactionDigest → Nat}
variable {last : PendingCheckpoint} {c : List BuiltCheckpoint}

def contents (built : List BuiltCheckpoint) : List TransactionDigest :=
  built.flatMap (·.contents)

/-- The checkpoints of a group of pending checkpoints: the sorted transactions of each, its
prologue first, cut into chunks within the limits. -/
structure GroupOf (env : BuilderEnv) (group : List PendingCheckpoint)
    (new : List BuiltCheckpoint) (lists : List (List TransactionEffects))
    (more : List TransactionDigest) : Prop where
  prologue : List.Forall₂ (fun p sorted => ∀ d, prologueOf env p = some d →
    sorted.head?.map (·.transactionDigest) = some d) group lists
  chunks : ∃ chunks : List (List TransactionEffects), chunks.flatten = lists.flatten ∧
    (∀ chunk ∈ chunks, env.Fits chunk) ∧ new.map (·.contents) = contentsOf more chunks

variable {lists : List (List TransactionEffects)}

theorem GroupOf.contents_eq {group : List PendingCheckpoint} {new : List BuiltCheckpoint}
    {more : List TransactionDigest} (h : GroupOf env group new lists more) (hne : new ≠ []) :
    contents new = lists.flatten.map (·.transactionDigest) ++ more := by
  obtain ⟨chunks,hf,-,hn⟩ := h.chunks
  have hc : chunks ≠ [] := by
    rintro rfl
    exact hne (map_eq_nil_iff.mp hn)
  rw [contents,flatMap_def,hn,contentsOf_flatten more hc,hf]

/-- The pending checkpoints `ps` have been put into checkpoints, `rest` have not. After the last
one of the epoch the transaction that advances the epoch has been added. -/
structure Covers (env : BuilderEnv) (pendings ps rest : List PendingCheckpoint)
    (c : List BuiltCheckpoint) (done more : List TransactionDigest) : Prop where
  split : pendings = ps ++ rest
  left : getPendingCheckpoints pendings (ofBuilt c).lastHeight = rest
  contents : contents c = done ++ more
  done : Done env ps done
  more : more = [] ∨ rest = [] ∧ ∃ gas timestamp seq scores,
    more = [(env.advanceEpoch gas timestamp seq scores).1.transactionDigest]

theorem included_iff (c : List BuiltCheckpoint) (d : TransactionDigest) :
    (ofBuilt c).included d = true ↔ d ∈ contents c := by
  simp [included,ofBuilt,contents]

theorem contents_append (c new : List BuiltCheckpoint) :
    contents (c ++ new) = contents c ++ contents new := flatMap_append

theorem map_contents_entries (height : CheckpointHeight)
    (created : List (CheckpointSummary × CheckpointContents)) :
    (entries height created).map (·.contents) = created.map Prod.snd := by
  have : (entries height created).map (·.contents) = (created.zipIdx.map Prod.fst).map Prod.snd := by
    rw [entries,map_map,map_map]
    rfl
  rw [this,zipIdx_map_fst]

theorem exists_loadLast (hc : Consistent env pendings rank) {c : List BuiltCheckpoint}
    (hp : env.genesis.toList <+: c) :
    ∃ last, (ofBuilt c).loadLastBuiltCheckpointSummary env = .ok last := by
  unfold loadLastBuiltCheckpointSummary
  cases hl : (ofBuilt c).built.getLast? with
  | some x => exact ⟨_,rfl⟩
  | none =>
    have hn : c = [] := List.getLast?_eq_none_iff.mp hl
    rw [hn] at hp
    dsimp only
    split
    · exact ⟨_,rfl⟩
    · next he =>
      have hg : env.genesis = none := by simpa using prefix_nil.mp hp
      obtain ⟨summary,hs⟩ := Option.isSome_iff_exists.mp (hc.previous hg he)
      rw [hs]
      exact ⟨_,rfl⟩

variable {ps front rest : List PendingCheckpoint}

theorem Covers.createCheckpoints (hc : Consistent env pendings rank)
    {done : List TransactionDigest} {more : List TransactionDigest}
    (h : Covers env pendings ps (front ++ last :: rest) c done more)
    (hpr : env.genesis.toList <+: c) (w : WakeUp) :
    ∃ created, (ofBuilt c).createCheckpoints env w (front ++ [last]) last.details = .ok created ∧
      ∃ lists more', Augments env last.details more' ∧
        GroupOf env (front ++ [last]) (entries last.height created) lists more' ∧
        Done env (ps ++ (front ++ [last])) (done ++ lists.flatten.map (·.transactionDigest)) := by
  have hn : more = [] := h.more.resolve_right fun hl => by simp at hl
  have ht : Tracks (ofBuilt c).included [] done := by
    intro d
    rw [included_iff,h.contents,hn,append_nil]
    simp
  have hs : pendings = ps ++ (front ++ [last]) ++ rest := by
    rw [h.split]
    simp
  obtain ⟨lists,hls,hd,hpl⟩ :
      ∃ lists, env.resolveAll w.order (ofBuilt c).included (front ++ [last]) [] = .ok lists ∧ _ :=
    hc.resolveAll hs h.done ht
  obtain ⟨prev,hp⟩ := exists_loadLast hc hpr
  have hne : env.splitCheckpointChunks lists.flatten ≠ [] := splitCheckpointChunks_ne_nil _
  obtain ⟨more',ha,hcn⟩ := createFrom_contents w.currentScores last.details prev hne
  refine ⟨_,?_,lists,more',ha,⟨hpl,_,splitCheckpointChunks_flatten _,
    splitCheckpointChunks_fits _,(map_contents_entries _ _).trans hcn⟩,hd⟩
  unfold Builder.createCheckpoints
  rw [hls,ok_bind,hp]
  rfl

def Builds (env : BuilderEnv) (pendings : List PendingCheckpoint) (c c' : List BuiltCheckpoint) :
    Prop :=
  ∃ front last rest w created,
    getPendingCheckpoints pendings (ofBuilt c).lastHeight = front ++ last :: rest ∧
    (ofBuilt c).createCheckpoints env w (front ++ [last]) last.details = .ok created ∧
    c' = c ++ entries last.height created

def BuiltBy (env : BuilderEnv) (pendings : List PendingCheckpoint) (c : List BuiltCheckpoint) :
    Prop :=
  Relation.ReflTransGen (Builds env pendings) env.genesis.toList c

theorem Builds.adds {c c' : List BuiltCheckpoint} (h : Builds env pendings c c') :
    ∃ last new, c' = c ++ new ∧ Adds env pendings c last new := by
  obtain ⟨front,last,rest,w,created,hl,hc,rfl⟩ := h
  exact ⟨last,_,rfl,adds_of_created (by rw [hl]; simp) hc⟩

theorem BuiltBy.prefix_genesis {c : List BuiltCheckpoint} (h : BuiltBy env pendings c) :
    env.genesis.toList <+: c := by
  induction h with
  | refl => exact prefix_rfl
  | tail _ hs ih =>
    obtain ⟨last,-,rfl,-⟩ := hs.adds
    exact ih.trans (prefix_append _ _)

inductive Groups (env : BuilderEnv) : List PendingCheckpoint → List BuiltCheckpoint → Prop
  | genesis : Groups env [] env.genesis.toList
  | group {ps front last c new lists more} : Groups env ps c →
      Augments env last.details more → GroupOf env (front ++ [last]) new lists more →
      Groups env (ps ++ (front ++ [last])) (c ++ new)

def Covered (env : BuilderEnv) (pendings : List PendingCheckpoint) (c : List BuiltCheckpoint) :
    Prop :=
  ∃ ps rest done more, Covers env pendings ps rest c done more ∧ Groups env ps c

section
variable (hc : Consistent env pendings rank)

include hc

theorem covered_genesis : Covered env pendings env.genesis.toList := by
  refine ⟨[],pendings,genesisContents env,[],⟨rfl,?_,?_,⟨hc.genesis.1,?_,?_⟩,.inl rfl⟩, .genesis⟩
  · have hn : (ofBuilt env.genesis.toList).lastHeight = none := by
      cases hg : env.genesis with
      | none => rfl
      | some g => exact hc.genesisHeight g hg
    rw [hn]
    exact filter_eq_self.mpr fun _ _ => rfl
  · rw [append_nil]
    rfl
  · intro before d after hs e he dep hdp _
    obtain ⟨e',he',hds⟩ := hc.genesis.2 d (by rw [hs]; simp)
    rw [he] at he'
    cases he'
    rw [hds] at hdp
    cases hdp
  intro d
  constructor
  · exact .inl
  rintro (hd | hd)
  · exact hd
  exfalso
  induction hd with
  | root hp => cases hp
  | dependency _ _ _ _ ih => exact ih

section
variable (hheights : pendings.Pairwise fun p q => p.height < q.height)

include hheights

theorem Covers.add {c new : List BuiltCheckpoint} {done more more' : List TransactionDigest}
    (h : Covers env pendings ps (front ++ last :: rest) c done more)
    (had : Adds env pendings c last new) (ha : Augments env last.details more')
    (hg : GroupOf env (front ++ [last]) new lists more')
    (hd : Done env (ps ++ (front ++ [last])) (done ++ lists.flatten.map (·.transactionDigest))) :
    Covers env pendings (ps ++ (front ++ [last])) rest (c ++ new)
      (done ++ lists.flatten.map (·.transactionDigest)) more' := by
  have hn : more = [] := h.more.resolve_right fun hl => by simp at hl
  have hs : pendings = ps ++ (front ++ [last]) ++ rest := by
    rw [h.split]
    simp
  refine ⟨hs,?_,?_,hd,?_⟩
  · rw [lastHeight_append had]
    exact getPending_rest hheights h.left
  · rw [contents_append,h.contents,hn,append_nil,hg.contents_eq had.ne_nil,append_assoc]
  unfold Augments at ha
  split at ha
  · next hl => exact .inr ⟨hc.last (ps ++ front) last rest (by simpa using hs) hl,ha⟩
  · exact .inl ha

theorem Covered.of_created {front rest : List PendingCheckpoint}
    (hp : env.genesis.toList <+: c) (h : Covered env pendings c)
    (hl : getPendingCheckpoints pendings (ofBuilt c).lastHeight = front ++ last :: rest)
    (w : WakeUp) :
    ∃ created, (ofBuilt c).createCheckpoints env w (front ++ [last]) last.details = .ok created ∧
      Covered env pendings (c ++ entries last.height created) := by
  obtain ⟨ps,rest',done,more,hcv,hgr⟩ := h
  obtain rfl : rest' = front ++ last :: rest := hcv.left.symm.trans hl
  obtain ⟨created,hcr,lists,more',ha,hg,hd⟩ := hcv.createCheckpoints hc hp w
  have had := adds_of_created (by rw [hl]; simp) hcr
  exact ⟨created,hcr,_,rest,_,more',hcv.add hc hheights had ha hg hd,.group hgr ha hg⟩

theorem BuiltBy.covered (h : BuiltBy env pendings c) : Covered env pendings c := by
  induction h with
  | refl => exact covered_genesis hc
  | tail hc' hs ih =>
    obtain ⟨front,last,rest,w,created,hl,hcr,rfl⟩ := hs
    obtain ⟨created',hcr',hcv⟩ := ih.of_created hc hheights (BuiltBy.prefix_genesis hc') hl w
    rw [hcr] at hcr'
    cases hcr'
    exact hcv

end
end

theorem writeComputed_keeps (b : Builder)
    (created : List (CheckpointSummary × CheckpointContents)) :
    (b.writeComputed created).Satisfies (· = .differentResult) fun b' =>
      b'.built = b.built ∧ b'.executed = b.executed := by
  unfold writeComputed
  split
  · rfl
  · exact ⟨rfl,rfl⟩

variable {done more : List TransactionDigest}
section
variable (hc : Consistent env pendings rank)
  (hheights : pendings.Pairwise fun p q => p.height < q.height)
include hc hheights

theorem BuiltBy.group {w : WakeUp} {arrived : Nat} {lastTimestamp : Option Nat} {b : Builder}
    (h : BuiltBy env pendings b.built) {group rest : List PendingCheckpoint}
    {last : PendingCheckpoint}
    (hg : firstGroup env lastTimestamp
      (getPendingCheckpoints (pendings.take arrived) b.lastHeight) [] = some (group,last,rest)) :
    ∃ created, b.createCheckpoints env w group last.details = .ok created ∧
      BuiltBy env pendings (b.built ++ entries last.height created) ∧
      (ofBuilt (b.built ++ entries last.height created)).lastHeight = some last.height := by
  obtain ⟨front,hl,rfl⟩ := firstGroup_split hg
  have hp : getPendingCheckpoints (pendings.take arrived) b.lastHeight <+:
      getPendingCheckpoints pendings b.lastHeight := ( take_prefix _ _).filter _
  obtain ⟨later,hlt⟩ := hp
  have hl' : getPendingCheckpoints pendings (ofBuilt b.built).lastHeight =
      front ++ last :: (rest ++ later) := by
    rw [hl,append_assoc,cons_append] at hlt
    exact hlt.symm
  obtain ⟨created,hcr,-⟩ := (h.covered hc hheights).of_created hc hheights h.prefix_genesis hl' w
  refine ⟨created,hcr,h.tail ⟨front,last,_,w,created,hl',hcr,rfl⟩,?_⟩
  exact lastHeight_append (adds_of_created (by rw [hl']; simp) hcr)

/-- A wake-up builds groups; it fails only if it had built a checkpoint differently before. When it
is not cut off, no group is left. -/
theorem BuiltBy.buildLoop {w : WakeUp} {arrived builds : Nat} (lastTimestamp : Option Nat)
    {b : Builder} (h : BuiltBy env pendings b.built) :
    (Builder.buildLoop env w (getPendingCheckpoints (pendings.take arrived) b.lastHeight)
        lastTimestamp [] builds b).Satisfies (· = .differentResult) fun b' =>
      BuiltBy env pendings b'.built ∧ b'.executed = b.executed ∧
      ((getPendingCheckpoints (pendings.take arrived) b.lastHeight).length ≤ builds →
        ∃ t, firstGroup env t
          (getPendingCheckpoints (pendings.take arrived) b'.lastHeight) [] = none) := by
  induction builds generalizing b lastTimestamp with
  | zero =>
    rw [buildLoop_eq]
    cases hg : firstGroup env lastTimestamp
        (getPendingCheckpoints (pendings.take arrived) b.lastHeight) [] with
    | none => exact ⟨h,rfl,fun _ => ⟨_,hg⟩⟩
    | some g =>
      have hln : ¬ (getPendingCheckpoints (pendings.take arrived) b.lastHeight).length ≤ 0 := by
        obtain ⟨front,hl,-⟩ := firstGroup_split hg
        rw [hl]
        simp
      dsimp only
      split
      · obtain ⟨created,hcr,-⟩ := h.group hc hheights hg
        rw [hcr]
        refine (writeComputed_keeps b created).mono fun b' hb' => ⟨?_,hb'.2,?_⟩
        · rw [hb'.1]
          exact h
        · exact fun hle => absurd hle hln
      · exact ⟨h,rfl,fun hle => absurd hle hln⟩
  | succ builds ih =>
    rw [buildLoop_eq]
    cases hg : firstGroup env lastTimestamp
        (getPendingCheckpoints (pendings.take arrived) b.lastHeight) [] with
    | none => exact ⟨h,rfl,fun _ => ⟨_,hg⟩⟩
    | some g =>
      obtain ⟨group,last,rest⟩ := g
      obtain ⟨created,hcr,hb,hh⟩ := h.group hc hheights hg
      obtain ⟨front,hl,-⟩ := firstGroup_split hg
      have hr := getPending_rest (hheights.sublist (take_sublist arrived _)) hl
      dsimp only [makeCheckpoint]
      rw [hcr]
      refine Except.Satisfies.bind (p := fun b' => b'.executed = b.executed ∧
        b'.built = b.built ++ entries last.height created) ?_ ?_
      · exact (writeComputed_keeps b created).bind fun b' hb' =>
          ⟨hb'.2,congrArg (· ++ entries last.height created) hb'.1⟩
      rintro b' ⟨he,hb'⟩
      have hls : b'.lastHeight = some last.height := by
        change (ofBuilt b'.built).lastHeight = _
        rw [hb',hh]
      have hbl' : BuiltBy env pendings b'.built := hb' ▸ hb
      have hlp := ih (some last.details.timestampMs) hbl'
      rw [hls,hr] at hlp
      refine hlp.mono fun b'' hb'' => ⟨hb''.1,hb''.2.1.trans he,fun hle => hb''.2.2 ?_⟩
      rw [hl,length_append,length_cons] at hle
      omega

end

end Builder
end Iota.Checkpoints
