import Iota.Checkpoints.Grouping

/-! Every builder moves along one chain of groups, as long as the timestamps it remembers are those
it stores, the scores that enter the last checkpoint are the same, and a restart does not keep a
part of a split checkpoint only. -/
namespace Iota.Checkpoints
open Except List Machine
open Std (ExtTreeMap)
open Iota.Authority
namespace Builder
variable {env : BuilderEnv} {pendings : List PendingCheckpoint} {scores : List Nat}

theorem splitCheckpointChunks_ne_nil (effects : List TransactionEffects) :
    env.splitCheckpointChunks effects ≠ [] := by
  unfold BuilderEnv.splitCheckpointChunks
  dsimp only
  split
  · simp
  · next h => exact fun hn => h (.inr hn)

variable {details : PendingCheckpointInfo}

theorem createFrom_ne_nil {last : Option CheckpointSummary}
    {chunks : List (List TransactionEffects)} (h : chunks ≠ []) :
    env.createFrom scores details last chunks ≠ [] := by
  cases chunks with
  | nil => exact absurd rfl h
  | cons chunk rest => exact cons_ne_nil _ _

theorem createFrom_sequenceNumber (details : PendingCheckpointInfo)
    (last : Option CheckpointSummary) (chunks : List (List TransactionEffects)) :
    (env.createFrom scores details last chunks).map (·.1.sequenceNumber) =
      range' (BuilderEnv.nextSequenceNumber last) chunks.length := by
  induction chunks generalizing last with
  | nil => rfl
  | cons chunk rest ih =>
    unfold BuilderEnv.createFrom
    rw [map_cons,ih,length_cons,range'_succ]
    rfl

theorem createFrom_timestamp {last : Option CheckpointSummary}
    (h : env.consensusMedianTimestampWithCheckpointEnforcement = false ∨
      ∀ l ∈ last, l.timestampMs ≤ details.timestampMs) (chunks : List (List TransactionEffects)) :
    ∀ c ∈ env.createFrom scores details last chunks, c.1.timestampMs = details.timestampMs := by
  induction chunks generalizing last with
  | nil => exact forall_mem_nil _
  | cons chunk rest ih =>
    have hts : env.timestampAfter last details.timestampMs = details.timestampMs := by
      cases last with
      | none => rfl
      | some l =>
        refine if_neg ?_
        rw [Bool.and_eq_true_iff,decide_eq_true_iff]
        rintro ⟨hgt,hf⟩
        obtain ho | hle := h
        · rw [ho] at hf
          cases hf
        · exact absurd (hle l rfl) (Nat.not_le.mpr hgt)
    refine forall_mem_cons.mpr ⟨hts,ih (.inr ?_)⟩
    rintro l hl
    cases hl
    exact hts.le

variable {height : CheckpointHeight} {created : List (CheckpointSummary × CheckpointContents)}

theorem mem_entries {x : BuiltCheckpoint} (h : x ∈ entries height created) :
    x.height = some height ∧ (x.summary,x.contents) ∈ created := by
  obtain ⟨⟨c,i⟩,hc,rfl⟩ := mem_map.mp h
  exact ⟨rfl,fst_mem_of_mem_zipIdx hc⟩

theorem map_entries {α : Type} (f : CheckpointSummary → α) (height : CheckpointHeight)
    (created : List (CheckpointSummary × CheckpointContents)) :
    (entries height created).map (fun x => f x.summary) = created.map fun c => f c.1 := by
  have : (entries height created).map (fun x => f x.summary) =
      (created.zipIdx.map Prod.fst).map fun c => f c.1 := by
    rw [entries,map_map,map_map]
    rfl
  rw [this,zipIdx_map_fst]

theorem entries_ne_nil (h : created ≠ []) : entries height created ≠ [] := by
  intro hn
  have := map_entries (fun _ => ()) height created
  rw [hn] at this
  exact h (map_eq_nil_iff.mp this.symm)

structure Adds (env : BuilderEnv) (pendings : List PendingCheckpoint)
    (c : List BuiltCheckpoint) (last : PendingCheckpoint) (new : List BuiltCheckpoint) : Prop where
  ne_nil : new ≠ []
  mem : last ∈ getPendingCheckpoints pendings (ofBuilt c).lastHeight
  height : ∀ x ∈ new, x.height = some last.height
  sequenceNumbers : (new.map (·.summary.sequenceNumber)).Pairwise (· < ·)
  later : ∀ l, c.getLast? = some l → ∀ x ∈ new, l.summary.sequenceNumber < x.summary.sequenceNumber

variable {last : PendingCheckpoint} {c : List BuiltCheckpoint} {w : WakeUp}

theorem adds_of_created {group : List PendingCheckpoint}
    {created : List (CheckpointSummary × CheckpointContents)}
    (hm : last ∈ getPendingCheckpoints pendings (ofBuilt c).lastHeight)
    (hc : (ofBuilt c).createCheckpoints env w group last.details = .ok created) :
    Adds env pendings c last (entries last.height created) := by
  obtain ⟨sorted,hc⟩ := ok_of_bind hc
  obtain ⟨prev,hp,hc⟩ := of_bind hc
  cases hc
  have hs : (env.createFrom w.currentScores last.details prev
      (env.splitCheckpointChunks sorted.flatten)).map (·.1.sequenceNumber) = range'
        (BuilderEnv.nextSequenceNumber prev) (env.splitCheckpointChunks sorted.flatten).length :=
    createFrom_sequenceNumber _ _ _
  refine ⟨entries_ne_nil (createFrom_ne_nil (splitCheckpointChunks_ne_nil _)),hm,
    fun x hx => (mem_entries hx).1,?_,?_⟩
  · rw [map_entries CheckpointSummary.sequenceNumber,hs]
    exact pairwise_lt_range' _
  intro l hl x hx
  have hp' : prev = some l.summary := by
    have hb : (ofBuilt c).built.getLast? = some l := hl
    rw [loadLastBuiltCheckpointSummary,hb] at hp
    exact (ok.inj hp).symm
  have hm := mem_map_of_mem (f := fun c => c.1.sequenceNumber) (mem_entries hx).2
  rw [hs,hp',mem_range'_1] at hm
  exact hm.1

theorem adds_of_advances {c c' : List BuiltCheckpoint} (h : Advances env pendings scores c c') :
    ∃ last new, c' = c ++ new ∧ Adds env pendings c last new := by
  obtain ⟨group,last,rest,order,created,hg,hc,rfl⟩ := h
  exact ⟨last,_,rfl,adds_of_created (firstGroup_mem hg) hc⟩

theorem lastHeight_append {c new : List BuiltCheckpoint}
    (h : Adds env pendings c last new) : (ofBuilt (c ++ new)).lastHeight = some last.height := by
  have hl : (c ++ new).getLast? = some (new.getLast h.ne_nil) := by
    rw [getLast?_append_of_ne_nil _ h.ne_nil,getLast?_eq_some_getLast h.ne_nil]
  change ((c ++ new).getLast?).bind _ = _
  rw [hl]
  exact h.height _ (getLast_mem h.ne_nil)

theorem Chain.sequenceNumbers (h : Chain env pendings scores c) :
    (c.map (·.summary.sequenceNumber)).Pairwise (· < ·) := by
  induction h with
  | refl => cases env.genesis <;> simp
  | @tail c c' _ hs ih =>
    obtain ⟨last,new,rfl,ha⟩ := adds_of_advances hs
    rw [map_append,pairwise_append]
    refine ⟨ih,ha.sequenceNumbers,?_⟩
    intro m hm n hn
    obtain ⟨x,hx,rfl⟩ := mem_map.mp hm
    obtain ⟨y,hy,rfl⟩ := mem_map.mp hn
    have hne : c ≠ [] := ne_nil_of_mem hx
    have hl := ha.later _ (getLast?_eq_some_getLast hne) y hy
    refine lt_of_le_of_lt ?_ hl
    -- the last one has the greatest number
    rw [← dropLast_append_getLast hne] at hx
    obtain hx | hx := mem_append.mp hx
    · rw [← dropLast_append_getLast hne,map_append,pairwise_append] at ih
      exact (ih.2.2 _ (mem_map_of_mem hx) _ (by simp)).le
    · rw [mem_singleton.mp hx]

theorem Chain.eq_of_sequenceNumber {c c' : List BuiltCheckpoint}
    (h : Chain env pendings scores c) (h' : Chain env pendings scores c') {x x' : BuiltCheckpoint}
    (hx : x ∈ c) (hx' : x' ∈ c')
    (heq : x.summary.sequenceNumber = x'.summary.sequenceNumber) : x = x' := by
  have hi : ∀ {c : List BuiltCheckpoint}, Chain env pendings scores c → x ∈ c → x' ∈ c →
      x = x' := by
    intro c hc hx hx'
    have hn : (c.map (·.summary.sequenceNumber)).Nodup := hc.sequenceNumbers.imp Nat.ne_of_lt
    exact inj_on_of_nodup_map hn hx hx' heq
  obtain hp | hp := h.comparable h'
  · exact hi h' (hp.subset hx) hx'
  · exact hi h hx (hp.subset hx')

theorem take_of_adds {R : List BuiltCheckpoint → List BuiltCheckpoint → Prop}
    (hR : ∀ c c', R c c' → ∃ last new, c' = c ++ new ∧ Adds env pendings c last new)
    (h : Relation.ReflTransGen R env.genesis.toList c) {n : Nat}
    (hn : env.genesis.toList.length ≤ n)
    (hct : ∀ x ∈ c.take n, ∀ y ∈ c.drop n, x.height ≠ y.height) :
    Relation.ReflTransGen R env.genesis.toList (c.take n) := by
  induction h with
  | refl => rw [take_of_length_le hn]
  | @tail c c' hc hs ih =>
    have hf := hc.tail hs
    obtain ⟨last,new,rfl,ha⟩ := hR c c' hs
    by_cases hle : n ≤ c.length
    · rw [take_append_of_le_length hle] at hct ⊢
      refine ih fun x hx y hy => hct x hx y ?_
      rw [drop_append_of_le_length hle]
      exact mem_append_left _ hy
    obtain ⟨k,rfl⟩ : ∃ k, n = c.length + (k+1) := ⟨n - c.length - 1,by omega⟩
    by_cases hal : new.length ≤ k+1
    · rw [take_of_length_le (by rw [length_append]; omega)]
      exact hf
    exfalso
    rw [take_length_add_append,drop_length_add_append] at hct
    have ht : new.take (k+1) ≠ [] := by
      intro hnl
      have := congrArg length hnl
      rw [length_take,length_nil] at this
      omega
    have hd : new.drop (k+1) ≠ [] := by
      intro hnl
      have := congrArg length hnl
      rw [length_drop,length_nil] at this
      omega
    obtain ⟨x,hx⟩ := exists_mem_of_ne_nil _ ht
    obtain ⟨y,hy⟩ := exists_mem_of_ne_nil _ hd
    refine hct x (mem_append_right _ hx) y hy ?_
    rw [ha.height x (mem_of_mem_take hx),ha.height y (mem_of_mem_drop hy)]

/-- The timestamp that the first checkpoint of the epoch comes after. -/
def startTimestamp (env : BuilderEnv) : Option Nat :=
  match env.genesis with
  | some g => some g.summary.timestampMs
  | none => if env.epoch = 0 then none else env.epochLastCheckpoint.map (·.timestampMs)

/-- Timestamps may decrease, or they never do: neither from one pending checkpoint to the next nor
below the last checkpoint of the previous epoch. -/
def Steady (env : BuilderEnv) (pendings : List PendingCheckpoint) : Prop :=
  env.consensusMedianTimestampWithCheckpointEnforcement = false ∨
    (pendings.Pairwise fun p q => p.details.timestampMs ≤ q.details.timestampMs) ∧
      ∀ t ∈ startTimestamp env, ∀ p ∈ pendings, t ≤ p.details.timestampMs

theorem Pairwise.of_height {p q : PendingCheckpoint}
    (hheights : pendings.Pairwise fun p q => p.height < q.height)
    (ht : pendings.Pairwise fun p q => p.details.timestampMs ≤ q.details.timestampMs)
    (hp : p ∈ pendings) (hq : q ∈ pendings) (h : p.height < q.height) :
    p.details.timestampMs ≤ q.details.timestampMs := by
  induction pendings with
  | nil => cases hp
  | cons a l ih =>
    rw [pairwise_cons] at hheights ht
    obtain heq | hpl := mem_cons.mp hp
    · obtain heq' | hql := mem_cons.mp hq
      · rw [heq,heq'] at h
        exact absurd h (Nat.lt_irrefl _)
      · rw [heq]
        exact ht.1 q hql
    obtain heq' | hql := mem_cons.mp hq
    · rw [heq'] at h
      exact absurd h (Nat.lt_asymm (hheights.1 p hpl))
    · exact ih hheights.2 ht.2 hpl hql

/-- The last checkpoint is not later than what is pending. -/
def Timely (env : BuilderEnv) (pendings : List PendingCheckpoint) (c : List BuiltCheckpoint) :
    Prop :=
  env.consensusMedianTimestampWithCheckpointEnforcement = false ∨
    ∀ l, (ofBuilt c).loadLastBuiltCheckpointSummary env = .ok (some l) →
      ∀ p ∈ getPendingCheckpoints pendings (ofBuilt c).lastHeight,
        l.timestampMs ≤ p.details.timestampMs

theorem timestamp_of_created {group rest : List PendingCheckpoint}
    {created : List (CheckpointSummary × CheckpointContents)} (ht : Timely env pendings c)
    (hg : firstGroup env (ofBuilt c).lastTimestamp
      (getPendingCheckpoints pendings (ofBuilt c).lastHeight) [] = some (group,last,rest))
    (hc : (ofBuilt c).createCheckpoints env w group last.details = .ok created) :
    ∀ x ∈ entries last.height created, x.summary.timestampMs = last.details.timestampMs := by
  have ha := adds_of_created (firstGroup_mem hg) hc
  obtain ⟨sorted,hc⟩ := ok_of_bind hc
  obtain ⟨prev,hp,hc⟩ := of_bind hc
  cases hc
  intro x hx
  refine createFrom_timestamp ?_ _ _ (mem_entries hx).2
  obtain ho | hle := ht
  · exact .inl ho
  refine .inr fun l hl => hle l ?_ last ha.mem
  rw [Option.mem_def.mp hl] at hp
  exact hp

theorem last_entry {c new : List BuiltCheckpoint} (hne : new ≠ []) :
    ∃ x ∈ new, (c ++ new).getLast? = some x :=
  ⟨new.getLast hne,getLast_mem hne,by
    rw [getLast?_append_of_ne_nil _ hne,getLast?_eq_some_getLast hne]⟩

theorem timely_of_advance {c new : List BuiltCheckpoint}
    (hsteady : Steady env pendings) (hheights : pendings.Pairwise fun p q => p.height < q.height)
    (ha : Adds env pendings c last new)
    (hts : ∀ x ∈ new, x.summary.timestampMs = last.details.timestampMs) :
    Timely env pendings (c ++ new) := by
  obtain ho | ⟨ht,-⟩ := hsteady
  · exact .inl ho
  refine .inr fun l hl p hp => ?_
  obtain ⟨x,hx,hls⟩ := last_entry (c := c) ha.ne_nil
  have hlx : x.summary = l := by
    change (match (c ++ new).getLast? with
      | some c => Except.ok (some c.summary)
      | none => _) = _ at hl
    rw [hls] at hl
    exact Option.some.inj (ok.inj hl)
  rw [lastHeight_append ha] at hp
  obtain ⟨hpm,hph⟩ := mem_filter.mp hp
  rw [← hlx,hts x hx]
  exact Pairwise.of_height hheights ht (mem_filter.mp ha.mem).1 hpm (by simpa using hph)

theorem Chain.timely (h : Chain env pendings scores c)
    (hsteady : Steady env pendings) (hheights : pendings.Pairwise fun p q => p.height < q.height) :
    Timely env pendings c := by
  induction h with
  | refl =>
    obtain ho | ⟨-,hst⟩ := hsteady
    · exact .inl ho
    refine .inr fun l hl p hp => hst _ ?_ p (mem_filter.mp hp).1
    unfold startTimestamp
    cases hg : env.genesis with
    | some g =>
      rw [hg] at hl
      cases hl
      rfl
    | none =>
      rw [hg] at hl
      unfold loadLastBuiltCheckpointSummary at hl
      dsimp only [ofBuilt,Option.toList_none,getLast?_nil] at hl ⊢
      split at hl
      · cases hl
      · next he =>
        rw [if_neg he]
        split at hl
        · next summary hsm =>
          cases hl
          rw [hsm]
          rfl
        · cases hl
  | tail _ hs ih =>
    obtain ⟨group,last,rest,order,created,hgr,hc,rfl⟩ := hs
    exact timely_of_advance hsteady hheights (adds_of_created (firstGroup_mem hgr) hc)
      (timestamp_of_created ih hgr hc)

/-- Where a builder is: on the chain, with summaries of the chain in the checkpoint store. -/
structure OnChain (env : BuilderEnv) (pendings : List PendingCheckpoint) (scores : List Nat)
    (b : Builder) : Prop where
  chain : Chain env pendings scores b.built
  executed : env.genesis.toList.length ≤ b.executed
  computed : ∀ (seq : CheckpointSequenceNumber) summary, b.locallyComputed[seq]? = some summary →
    ∃ c, Chain env pendings scores c ∧ ∃ x ∈ c, x.summary = summary ∧
      summary.sequenceNumber = seq

variable {b : Builder}

theorem createCheckpoints_ofBuilt {group : List PendingCheckpoint}
    (hs : env.scoresOf w.currentScores = env.scoresOf scores) :
    b.createCheckpoints env w group details =
      (ofBuilt b.built).createCheckpoints env (wakeUpOf w.order scores) group details := by
  unfold createCheckpoints
  simp only [createFrom_scores hs]
  rfl

theorem OnChain.writeComputed (h : OnChain env pendings scores b)
    (hch : Chain env pendings scores (b.built ++ entries height created)) :
    ∃ b', b.writeComputed created = .ok b' ∧ b'.built = b.built ∧
      OnChain env pendings scores b' := by
  have he : ∀ c ∈ created, ∃ x ∈ b.built ++ entries height created, x.summary = c.1 := by
    intro c hc
    have hm := mem_map_of_mem (f := Prod.fst) hc
    rw [← map_entries (fun s => s) height created] at hm
    obtain ⟨x,hx,hsu⟩ := mem_map.mp hm
    exact ⟨x,mem_append_right _ hx,hsu⟩
  have hsm : ¬ (created.any fun c =>
      (b.locallyComputed[c.1.sequenceNumber]?).any (· ≠ c.1)) = true := by
    rw [any_eq_true]
    rintro ⟨c,hc,ha⟩
    cases hg : b.locallyComputed[c.1.sequenceNumber]? with
    | none =>
      rw [hg] at ha
      cases ha
    | some summary =>
      rw [hg,Option.any_some,decide_eq_true_iff] at ha
      obtain ⟨c',hc',y,hy,rfl,hs⟩ := h.computed _ _ hg
      obtain ⟨x,hx,hxc⟩ := he c hc
      rw [← hxc] at hs ha
      exact ha (congrArg BuiltCheckpoint.summary (hc'.eq_of_sequenceNumber hch hy hx hs))
  refine ⟨_,if_neg hsm,rfl,h.chain,h.executed,?_⟩
  intro seq summary hg
  rw [ExtTreeMap.getElem?_foldl_insert (fun c : CheckpointSummary × CheckpointContents =>
    c.1.sequenceNumber) Prod.fst] at hg
  cases hf : created.reverse.find? fun c => c.1.sequenceNumber = seq with
  | none =>
    rw [hf] at hg
    exact h.computed seq summary hg
  | some c =>
    rw [hf] at hg
    cases hg
    obtain ⟨x,hx,hxc⟩ := he c (mem_reverse.mp (mem_of_find?_eq_some hf))
    exact ⟨_,hch,x,hx,hxc,by simpa using find?_some hf⟩

theorem getPending_rest {arrived front rest : List PendingCheckpoint}
    {height : Option CheckpointHeight} (hheights : arrived.Pairwise fun p q => p.height < q.height)
    (hl : getPendingCheckpoints arrived height = front ++ last :: rest) :
    getPendingCheckpoints arrived (some last.height) = rest := by
  have hsb : ∀ p, p ∈ arrived → last.height < p.height → height.all (· < p.height) = true := by
    intro p _ hlt
    have hls : last ∈ getPendingCheckpoints arrived height := by
      rw [hl]
      simp
    cases height with
    | none => rfl
    | some h =>
      have hle : h < last.height := by simpa using (mem_filter.mp hls).2
      simpa using hle.trans hlt
  have hsm : getPendingCheckpoints arrived (some last.height) =
      (getPendingCheckpoints arrived height).filter fun p => last.height < p.height := by
    unfold getPendingCheckpoints
    rw [filter_filter]
    refine filter_congr fun p hp => ?_
    rw [Bool.eq_iff_iff,Bool.and_eq_true_iff]
    constructor
    · intro hlt
      have hlt' : last.height < p.height := by simpa using hlt
      exact ⟨decide_eq_true hlt',hsb p hp hlt'⟩
    · intro hb
      simpa using hb.1
  have hs := hheights.sublist (filter_sublist (p := fun p : PendingCheckpoint =>
    height.all (· < p.height)))
  change (getPendingCheckpoints arrived height).Pairwise _ at hs
  rw [hl,pairwise_append,pairwise_cons] at hs
  rw [hsm,hl,filter_append,filter_cons_of_neg (by simp),
    filter_eq_nil_iff.mpr,nil_append,filter_eq_self]
  · intro p hp
    exact decide_eq_true (hs.2.1.1 p hp)
  · intro p hp hlt
    exact Nat.lt_asymm (hs.2.2 p hp last mem_cons_self) (of_decide_eq_true hlt)

section
variable (hsteady : Steady env pendings)
  (hheights : pendings.Pairwise fun p q => p.height < q.height)
include hsteady hheights

theorem OnChain.group (h : OnChain env pendings scores b)
    (hs : env.scoresOf w.currentScores = env.scoresOf scores) {arrived : Nat}
    {group rest : List PendingCheckpoint} {created : List (CheckpointSummary × CheckpointContents)}
    (hg : firstGroup env b.lastTimestamp
      (getPendingCheckpoints (pendings.take arrived) b.lastHeight) [] = some (group,last,rest))
    (hc : b.createCheckpoints env w group last.details = .ok created) :
    Chain env pendings scores (b.built ++ entries last.height created) ∧
      (ofBuilt (b.built ++ entries last.height created)).lastHeight = some last.height ∧
      (ofBuilt (b.built ++ entries last.height created)).lastTimestamp =
        some last.details.timestampMs := by
  have hp : getPendingCheckpoints (pendings.take arrived) b.lastHeight <+:
      getPendingCheckpoints pendings b.lastHeight := ( take_prefix _ _).filter _
  obtain ⟨rest',hg'⟩ := firstGroup_of_prefix hp hg
  rw [createCheckpoints_ofBuilt hs] at hc
  have ha := adds_of_created (firstGroup_mem hg') hc
  refine ⟨h.chain.tail ⟨group,last,rest',w.order,created,hg',hc,rfl⟩, lastHeight_append ha,?_⟩
  obtain ⟨x,hx,hl⟩ := last_entry ha.ne_nil
  have hts := timestamp_of_created (h.chain.timely hsteady hheights) hg' hc x hx
  change ((b.built ++ entries last.height created).getLast?).map _ = _
  rw [hl,← hts]
  rfl

theorem OnChain.buildLoop
    (hs : env.scoresOf w.currentScores = env.scoresOf scores) {arrived builds : Nat}
    (h : OnChain env pendings scores b) :
    (buildLoop env w (getPendingCheckpoints (pendings.take arrived) b.lastHeight) b.lastTimestamp []
        builds b).Satisfies (· ≠ .differentResult) fun b' => OnChain env pendings scores b' ∧
      ((getPendingCheckpoints (pendings.take arrived) b.lastHeight).length ≤ builds →
        firstGroup env b'.lastTimestamp
          (getPendingCheckpoints (pendings.take arrived) b'.lastHeight) [] = none) := by
  induction builds generalizing b with
  | zero =>
    rw [buildLoop_eq]
    cases hg : firstGroup env b.lastTimestamp
        (getPendingCheckpoints (pendings.take arrived) b.lastHeight) [] with
    | none => exact ⟨h,fun _ => hg⟩
    | some g =>
      obtain ⟨group,last,rest⟩ := g
      have hln : ¬ (getPendingCheckpoints (pendings.take arrived) b.lastHeight).length ≤ 0 := by
        obtain ⟨front,hl,-⟩ := firstGroup_split hg
        rw [hl]
        simp
      dsimp only
      split
      · cases hcr : b.createCheckpoints env w group last.details with
        | error f => exact BuildFailure.noConfusion
        | ok created =>
          obtain ⟨hc,-,-⟩ := h.group hsteady hheights hs hg hcr
          obtain ⟨b',hw,-,hon⟩ := h.writeComputed hc
          change (b.writeComputed created).Satisfies _ _
          rw [hw]
          exact ⟨hon,fun hle => absurd hle hln⟩
      · exact ⟨h,fun hle => absurd hle hln⟩
  | succ builds ih =>
    rw [buildLoop_eq]
    cases hg : firstGroup env b.lastTimestamp
        (getPendingCheckpoints (pendings.take arrived) b.lastHeight) [] with
    | none => exact ⟨h,fun _ => hg⟩
    | some g =>
      obtain ⟨group,last,rest⟩ := g
      dsimp only [makeCheckpoint]
      cases hcr : b.createCheckpoints env w group last.details with
      | error f => exact BuildFailure.noConfusion
      | ok created =>
        obtain ⟨hc,hh,ht⟩ := h.group hsteady hheights hs hg hcr
        obtain ⟨b',hw,hb,hon⟩ := h.writeComputed hc
        have hn : OnChain env pendings scores
            (b'.processConstructed last.details.checkpointHeight created) := by
          refine ⟨?_,hon.executed,hon.computed⟩
          change Chain env pendings scores (b'.built ++ entries last.height created)
          rw [hb]
          exact hc
        obtain ⟨front,hl,-⟩ := firstGroup_split hg
        have hr := getPending_rest (hheights.sublist (take_sublist arrived _)) hl
        have hlastHeight :
            (b'.processConstructed last.details.checkpointHeight created).lastHeight =
              some last.height := by
          change (ofBuilt (b'.built ++ entries last.height created)).lastHeight = _
          rw [hb,hh]
        have hlastTime :
            (b'.processConstructed last.details.checkpointHeight created).lastTimestamp =
              some last.details.timestampMs := by
          change (ofBuilt (b'.built ++ entries last.height created)).lastTimestamp = _
          rw [hb,ht]
        have hlp := ih hn
        rw [hlastHeight,hlastTime,hr] at hlp
        change ((b.writeComputed created >>= fun b => pure
          (b.processConstructed last.details.checkpointHeight created)) >>= _).Satisfies _ _
        rw [hw]
        refine hlp.mono fun b'' hb'' => ⟨hb''.1,fun hle => hb''.2 ?_⟩
        rw [hl,length_append,length_cons] at hle
        omega

end

/-- The scores are the agreed ones if they are passed on, and a restart does not lose a checkpoint
that was built from the same pending checkpoints as one that stays. -/
def Allowed (env : BuilderEnv) (scores : List Nat) (b : Builder) : Event → Prop
  | .wakeUp w => env.passCalculatedValidatorScoresToAdvanceEpoch = true → w.currentScores = scores
  | .executed => True
  | .restart => ∀ x ∈ b.built.take b.executed, ∀ y ∈ b.built.drop b.executed, x.height ≠ y.height

/-- All pending checkpoints have arrived and the wake-up is not cut off. -/
def WakeUp.Complete (pendings : List PendingCheckpoint) (w : WakeUp) : Prop :=
  pendings.length ≤ w.arrived ∧ pendings.length ≤ w.builds

theorem scoresOf_eq (h : env.passCalculatedValidatorScoresToAdvanceEpoch = true →
    w.currentScores = scores) : env.scoresOf w.currentScores = env.scoresOf scores := by
  unfold BuilderEnv.scoresOf
  split
  · next hp => rw [h hp]
  · rfl

theorem onChain_new : OnChain env pendings scores (new env) := by
  refine ⟨.refl,le_rfl,fun seq summary hg => ?_⟩
  cases hg

theorem onChain_of_reached (hsteady : Steady env pendings)
    (hheights : pendings.Pairwise fun p q => p.height < q.height)
    (h : Reached (· = new env) (step env pendings) (Allowed env scores) b) :
    OnChain env pendings scores b := by
  refine h.invariant (fun _ hb => hb ▸ onChain_new) ?_
  intro b event b' hon ha hs
  cases event with
  | wakeUp w => exact ((hon.buildLoop hsteady hheights (scoresOf_eq ha)).of_ok hs).1
  | executed =>
    cases hs
    refine ⟨hon.chain,?_,hon.computed⟩
    have hl := (prefix_of_advances hon.chain).length_le
    exact le_min (hon.executed.trans (Nat.le_succ _)) hl
  | restart =>
    cases hs
    exact ⟨take_of_adds (fun _ _ => adds_of_advances) hon.chain hon.executed ha,hon.executed,
      hon.computed⟩

theorem terminal_of_complete (hsteady : Steady env pendings)
    (hheights : pendings.Pairwise fun p q => p.height < q.height) {b b' : Builder}
    (h : OnChain env pendings scores b) (hsc : env.scoresOf w.currentScores = env.scoresOf scores)
    (hw : WakeUp.Complete pendings w) (hs : b.maybeBuildCheckpoints env pendings w = .ok b')
    (c : List BuiltCheckpoint) : ¬ Advances env pendings scores b'.built c := by
  rintro ⟨group,last,rest,-,-,hg,-⟩
  obtain ⟨-,hn⟩ := (h.buildLoop hsteady hheights hsc).of_ok hs
  rw [take_of_length_le hw.1] at hn
  have hle : (getPendingCheckpoints pendings b.lastHeight).length ≤ w.builds :=
    (length_filter_le _ _).trans hw.2
  have hg' : firstGroup env b'.lastTimestamp (getPendingCheckpoints pendings b'.lastHeight) [] =
    some (group,last,rest) := hg
  rw [hn hle] at hg'
  cases hg'

/-- Any two builders agree on what both have built, after complete wake-ups they have built the
same, and no builder finds that it had built a checkpoint differently before. -/
theorem boundaries_independent_of_scheduling (hsteady : Steady env pendings)
    (hheights : pendings.Pairwise fun p q => p.height < q.height) {b b' : Builder}
    (h : Reached (· = new env) (step env pendings) (Allowed env scores) b)
    (h' : Reached (· = new env) (step env pendings) (Allowed env scores) b') :
    (b.built <+: b'.built ∨ b'.built <+: b.built) ∧
      (∀ w w' c c', Allowed env scores b (.wakeUp w) → Allowed env scores b' (.wakeUp w') →
        WakeUp.Complete pendings w → WakeUp.Complete pendings w' →
        b.step env pendings (.wakeUp w) = .ok c → b'.step env pendings (.wakeUp w') = .ok c' →
        c.built = c'.built) ∧
      ∀ w, Allowed env scores b (.wakeUp w) →
        b.step env pendings (.wakeUp w) ≠ .error .differentResult := by
  have hon := onChain_of_reached hsteady hheights h
  have hon' := onChain_of_reached hsteady hheights h'
  refine ⟨hon.chain.comparable hon'.chain,?_,?_⟩
  · intro w w' c c' ha ha' hw hw' hs hs'
    have hc := onChain_of_reached hsteady hheights (h.step ha hs)
    have hc' := onChain_of_reached hsteady hheights (h'.step ha' hs')
    have he := terminal_of_complete hsteady hheights hon (scoresOf_eq ha) hw hs
    have he' := terminal_of_complete hsteady hheights hon' (scoresOf_eq ha') hw' hs'
    obtain hto | hto :=
      Relation.ReflTransGen.total_of_right_unique advances_rightUnique hc.chain hc'.chain
    · obtain heq | ⟨d,hd,-⟩ := hto.cases_head
      · exact heq
      · exact absurd hd (he d)
    obtain heq | ⟨d,hd,-⟩ := hto.cases_head
    · exact heq.symm
    · exact absurd hd (he' d)
  · intro w ha her
    exact (hon.buildLoop hsteady hheights (scoresOf_eq ha)).of_error her rfl

def insertionOrder : HashOrder := ⟨fun l => l,fun _ => .refl _⟩

def wakeUpAt (arrived : Nat) (currentScores : List Nat) : WakeUp :=
  ⟨arrived,9,false,insertionOrder,currentScores⟩

def previousSummary (timestampMs : Nat) : CheckpointSummary :=
  ⟨0,6,0,0,none,⟨0,0,0,0,0⟩,timestampMs,[],none,[]⟩

/-- Epoch 1 with an interval of 200 ms, one transaction a checkpoint and transactions 11 and 12. -/
def secondEpoch (previousMs : Nat) (passScores : Bool) : BuilderEnv where
  epoch := 1
  minCheckpointIntervalMs := 200
  consensusMedianTimestampWithCheckpointEnforcement := true
  passCalculatedValidatorScoresToAdvanceEpoch := passScores
  maxTransactionsPerCheckpoint := 1
  maxCheckpointSizeBytes := 100
  numMembers := 1
  executedDigest
    | .digest d => some d
    | .randomnessRound .. => none
  executed := [⟨11,1,[],[],⟨0,0,0,0,0⟩⟩,⟨12,1,[11],[],⟨0,0,0,0,0⟩⟩]
  executedInCurEpoch d := d = 11 || d = 12
  isPrologue _ := false
  randomnessRound _ := none
  size _ := 1
  contentsDigest := sum
  summaryDigest summary := summary.sequenceNumber
  versionSpecificData rounds := rounds
  epochLastCheckpoint := some (previousSummary previousMs)
  genesis := none
  advanceEpoch _ _ _ scores := (⟨100 + scores.sum,1,[],[],⟨0,0,0,0,0⟩⟩,⟨[],1,[],0⟩)

def emptyPending (timestampMs height : Nat) (lastOfEpoch : Bool) : PendingCheckpoint :=
  ⟨[],⟨timestampMs,lastOfEpoch,height⟩⟩

/-- The first commit has timestamp 0, below the last checkpoint of the epoch before. -/
def zeroFirst : List PendingCheckpoint :=
  [emptyPending 0 2 false,emptyPending 1050 4 false,emptyPending 1250 6 false]

/-- A pending checkpoint with two transactions, which is split, and one without. -/
def splitFirst : List PendingCheckpoint :=
  [⟨[.digest 12],⟨500,false,2⟩⟩,emptyPending 800 4 false]

/-- Builders disagree when the first timestamp is raised and they are woken up differently, when
the scores of the last checkpoint differ, and a builder that restarts between the parts of a split
checkpoint stops at its own earlier checkpoint. -/
theorem boundaries_depend_on_scheduling :
    (∃ b b', (foldlM (step (secondEpoch 1000 false) zeroFirst) (new (secondEpoch 1000 false))
        [.wakeUp (wakeUpAt 3 [])]) = .ok b ∧
      (foldlM (step (secondEpoch 1000 false) zeroFirst) (new (secondEpoch 1000 false))
        [.wakeUp (wakeUpAt 1 []),.wakeUp (wakeUpAt 3 [])]) = .ok b' ∧
      b.built.map (·.height) = [some 2,some 4,some 6] ∧
      b'.built.map (·.height) = [some 2,some 6]) ∧
    (∃ b b', (foldlM (step (secondEpoch 0 true) [emptyPending 0 2 true])
        (new (secondEpoch 0 true)) [.wakeUp (wakeUpAt 1 [1])]) = .ok b ∧
      (foldlM (step (secondEpoch 0 true) [emptyPending 0 2 true])
        (new (secondEpoch 0 true)) [.wakeUp (wakeUpAt 1 [2])]) = .ok b' ∧
      b.built.map (·.contents) = [[101]] ∧ b'.built.map (·.contents) = [[102]]) ∧
    foldlM (step (secondEpoch 0 false) splitFirst) (new (secondEpoch 0 false))
      [.wakeUp (wakeUpAt 1 []),.executed,.restart,.wakeUp (wakeUpAt 2 [])] =
        .error .differentResult := by
  refine ⟨?_,?_,?_⟩
  · obtain ⟨b,hb,hp,b',hb',hp'⟩ : ∃ b,
        foldlM (step (secondEpoch 1000 false) zeroFirst) (new (secondEpoch 1000 false))
          [.wakeUp (wakeUpAt 3 [])] = .ok b ∧ b.built.map (·.height) = [some 2,some 4,some 6] ∧
      ∃ b', foldlM (step (secondEpoch 1000 false) zeroFirst) (new (secondEpoch 1000 false))
          [.wakeUp (wakeUpAt 1 []),.wakeUp (wakeUpAt 3 [])] = .ok b' ∧
        b'.built.map (·.height) = [some 2,some 6] := by decide +kernel
    exact ⟨b,b',hb,hb',hp,hp'⟩
  · obtain ⟨b,hb,hp,b',hb',hp'⟩ : ∃ b,
        foldlM (step (secondEpoch 0 true) [emptyPending 0 2 true]) (new (secondEpoch 0 true))
          [.wakeUp (wakeUpAt 1 [1])] = .ok b ∧ b.built.map (·.contents) = [[101]] ∧
      ∃ b', foldlM (step (secondEpoch 0 true) [emptyPending 0 2 true]) (new (secondEpoch 0 true))
          [.wakeUp (wakeUpAt 1 [2])] = .ok b' ∧ b'.built.map (·.contents) = [[102]] := by
      decide +kernel
    exact ⟨b,b',hb,hb',hp,hp'⟩
  · rfl

theorem steady_splitFirst : Steady (secondEpoch 0 false) splitFirst := by
  refine .inr ⟨by decide,?_⟩
  rintro t ht p -
  cases ht
  exact Nat.zero_le _

/-- A builder that restarts after both parts of the split checkpoint were executed, and one that
sees everything at once. -/
theorem boundaries_independent_of_scheduling_split :
    ∃ b b', Reached (· = new (secondEpoch 0 false)) (step (secondEpoch 0 false) splitFirst)
        (Allowed (secondEpoch 0 false) []) b ∧
      Reached (· = new (secondEpoch 0 false)) (step (secondEpoch 0 false) splitFirst)
        (Allowed (secondEpoch 0 false) []) b' ∧
      b.built.map (·.contents) = [[11],[12]] ∧ b'.built.map (·.contents) = [[11],[12],[]] ∧
      (b.built <+: b'.built ∨ b'.built <+: b.built) := by
  obtain ⟨b,hb,hc,hex,b',hb',hc'⟩ : ∃ b,
      foldlM (step (secondEpoch 0 false) splitFirst) (new (secondEpoch 0 false))
        [.wakeUp (wakeUpAt 1 []),.executed,.executed] = .ok b ∧
        b.built.map (·.contents) = [[11],[12]] ∧ b.executed = 2 ∧
      ∃ b', foldlM (step (secondEpoch 0 false) splitFirst) (new (secondEpoch 0 false))
        [.wakeUp (wakeUpAt 2 [])] = .ok b' ∧
        b'.built.map (·.contents) = [[11],[12],[]] := by decide +kernel
  have hl : b.built.length = 2 := by
    rw [← length_map,hc]
    rfl
  have hrs : b.restart.built = b.built := take_of_length_le (by omega)
  have hr : Reached (· = new (secondEpoch 0 false))
      (step (secondEpoch 0 false) splitFirst) (Allowed (secondEpoch 0 false) []) b.restart := by
    refine .step (i := .restart) (Reached.foldlM ?_ (.init rfl) hb) ?_ rfl
    · intro event he s
      simp only [mem_cons,not_mem_nil,or_false] at he
      obtain rfl | rfl | rfl := he
      · exact nofun
      · trivial
      · trivial
    intro x _ y hy
    rw [drop_eq_nil_of_le (by omega)] at hy
    cases hy
  have hr' : Reached (· = new (secondEpoch 0 false))
      (step (secondEpoch 0 false) splitFirst) (Allowed (secondEpoch 0 false) []) b' := by
    refine Reached.foldlM ?_ (.init rfl) hb'
    intro event he s
    rw [mem_singleton.mp he]
    exact nofun
  exact ⟨b.restart,b',hr,hr',hrs ▸ hc,hc',
    (boundaries_independent_of_scheduling steady_splitFirst (by decide) hr hr').1⟩

end Builder
end Iota.Checkpoints
