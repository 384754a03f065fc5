import Iota.Checkpoints.Complete

/-! A group of pending checkpoints adds the transactions they need and that are in no checkpoint
yet, each once and after its dependencies. -/
namespace Iota.Checkpoints
open CausalOrder Except Iota.Authority List
variable {env : BuilderEnv} {order : HashOrder} {included : TransactionDigest → Bool}
  {existing : List TransactionDigest} {rank : TransactionDigest → Nat}
  {pendings : List PendingCheckpoint}

/-- The prologue of a pending checkpoint: its first root, if that is one. -/
def prologueOf (env : BuilderEnv) (pending : PendingCheckpoint) : Option TransactionDigest :=
  (pending.roots.head?.bind env.executedDigest).filter env.isPrologue

def genesisContents (env : BuilderEnv) : CheckpointContents :=
  env.genesis.toList.flatMap (·.contents)

/-- The transactions of the epoch that pending checkpoints are about: their roots, and what these
depend on. -/
inductive Due (env : BuilderEnv) (ps : List PendingCheckpoint) : TransactionDigest → Prop
  | root {p key d} : p ∈ ps → key ∈ p.roots → env.executedDigest key = some d →
      env.executedInCurEpoch d = true → Due env ps d
  | dependency {e d} : Due env ps e.transactionDigest →
      env.getExecutedEffects e.transactionDigest = some e → d ∈ e.dependencies →
      env.executedInCurEpoch d = true → Due env ps d

/-- Causally consistent effects: every root is executed, dependencies and readers of overwritten
versions come first in some order, and a prologue depends on earlier pending checkpoints only, which
do not depend on it. -/
structure Consistent (env : BuilderEnv) (pendings : List PendingCheckpoint)
    (rank : TransactionDigest → Nat) : Prop where
  roots : ∀ p ∈ pendings, ∀ key ∈ p.roots, ∃ d e, env.executedDigest key = some d ∧
    env.getExecutedEffects d = some e
  epoch : ∀ d e, env.getExecutedEffects d = some e → e.executedEpoch ≤ env.epoch
  executed : ∀ d, env.executedInCurEpoch d = true ↔
    ∃ e, env.getExecutedEffects d = some e ∧ e.executedEpoch = env.epoch
  dependency : ∀ e ∈ env.executed, ∀ d ∈ e.dependencies, rank d < rank e.transactionDigest
  reader : ∀ writer ∈ env.executed, ∀ reader ∈ env.executed, Overwrites writer reader →
    rank reader.transactionDigest < rank writer.transactionDigest
  prologue : ∀ before p after d, pendings = before ++ p :: after → prologueOf env p = some d →
    env.executedInCurEpoch d = true ∧ d ∉ genesisContents env ∧ ¬ Due env before d ∧
      ∀ e, env.getExecutedEffects d = some e → ∀ dep ∈ e.dependencies,
        env.executedInCurEpoch dep = true → dep ∈ genesisContents env ∨ Due env before dep
  genesis : (genesisContents env).Nodup ∧ ∀ d ∈ genesisContents env,
    ∃ e, env.getExecutedEffects d = some e ∧ e.dependencies = []
  genesisHeight : ∀ g ∈ env.genesis, g.height = none
  previous : env.genesis = none → env.epoch ≠ 0 → env.epochLastCheckpoint.isSome = true
  last : ∀ before p after, pendings = before ++ p :: after → p.details.lastOfEpoch = true →
    after = []
  fresh : ∀ gas timestamp seq scores, ∀ e ∈ env.executed,
    (env.advanceEpoch gas timestamp seq scores).1.transactionDigest ≠ e.transactionDigest

def CausallyClosed (env : BuilderEnv) (l : List TransactionDigest) : Prop :=
  ∀ before d after, l = before ++ d :: after → ∀ e, env.getExecutedEffects d = some e →
    ∀ dep ∈ e.dependencies, env.executedInCurEpoch dep = true → dep ∈ before

variable {e : TransactionEffects} {l : List TransactionDigest}

theorem CausallyClosed.mem (h : CausallyClosed env l) {d dep : TransactionDigest} (hd : d ∈ l)
    (he : env.getExecutedEffects d = some e) (hdp : dep ∈ e.dependencies)
    (hex : env.executedInCurEpoch dep = true) : dep ∈ l := by
  obtain ⟨before,after,rfl⟩ := append_of_mem hd
  exact mem_append_left _ (h before d after rfl e he dep hdp hex)

theorem CausallyClosed.append (h : CausallyClosed env l) {sorted : List TransactionEffects}
    (hst : ∀ e ∈ sorted, env.getExecutedEffects e.transactionDigest = some e)
    (hf : ∀ before e after, sorted = before ++ e :: after → ∀ dep ∈ e.dependencies,
      env.executedInCurEpoch dep = true → dep ∈ l ∨ dep ∈ before.map (·.transactionDigest)) :
    CausallyClosed env (l ++ sorted.map (·.transactionDigest)) := by
  intro before d after hsp e he dep hd hex
  obtain ⟨rest,hbf,hr⟩ | ⟨rest,hl,hr⟩ := append_eq_append_iff.mp hsp
  · -- the transaction is one of the new ones
    obtain ⟨front,back,hs,hfr,hb⟩ := map_eq_append_iff.mp hr
    obtain ⟨x,after',rfl,hx,-⟩ := map_eq_cons_iff.mp hb
    have hs' := hst x (by rw [hs]; simp)
    rw [hx,he] at hs'
    cases hs'
    rw [hbf,← hfr,mem_append]
    exact hf front e after' hs dep hd hex
  cases rest with
  | nil =>
    rw [append_nil] at hl
    subst hl
    obtain ⟨x,after',hs,hx,-⟩ := map_eq_cons_iff.mp hr.symm
    have hs' := hst x (by rw [hs]; simp)
    rw [hx,he] at hs'
    cases hs'
    obtain ho | hn := hf [] e after' hs dep hd hex
    · exact ho
    · cases hn
  | cons y rest =>
    cases hr
    exact h before d rest hl e he dep hd hex

variable {d : TransactionDigest}

/-- The transactions that are in a checkpoint already, or in the one that is being made. -/
def Tracks (included : TransactionDigest → Bool) (existing done : List TransactionDigest) : Prop :=
  ∀ d, d ∈ done ↔ included d = true ∨ d ∈ existing

theorem Tracks.append {done more existing' : List TransactionDigest}
    (h : Tracks included existing done) (hm : ∀ d, d ∈ existing' ↔ d ∈ existing ∨ d ∈ more) :
    Tracks included existing' (done ++ more) := by
  intro d
  rw [mem_append,h d,hm d,or_assoc]

theorem stored_iff (h : env.getExecutedEffects d = some e) :
    env.getExecutedEffects e.transactionDigest = some e := by
  rw [getExecutedEffects_digest h,h]

section
variable (hc : Consistent env pendings rank)
include hc

theorem Consistent.exists_effects (d : TransactionDigest)
    (hd : env.executedInCurEpoch d = true) : ∃ e, env.getExecutedEffects d = some e := by
  obtain ⟨e,he,-⟩ := (hc.executed d).mp hd
  exact ⟨e,he⟩

theorem Consistent.skips_eq_false {done : List TransactionDigest}
    (ht : Tracks included existing done)
    (he : env.getExecutedEffects e.transactionDigest = some e) :
    Visit.skips env included existing e = false ↔
      e.transactionDigest ∉ done ∧ env.executedInCurEpoch e.transactionDigest = true := by
  have hep : ¬ e.executedEpoch < env.epoch ↔
      env.executedInCurEpoch e.transactionDigest = true := by
    rw [hc.executed,not_lt]
    constructor
    · intro hle
      exact ⟨e,he,le_antisymm (hc.epoch _ e he) hle⟩
    rintro ⟨e',he',heq⟩
    rw [he] at he'
    cases he'
    exact heq.ge
  rw [ht,not_or,← hep]
  simp only [Visit.skips,Bool.or_eq_false_iff,decide_eq_false_iff_not,Bool.not_eq_true]
  rw [contains_eq_mem,decide_eq_false_iff_not]
  tauto

theorem Consistent.rankedBy {out : List TransactionEffects} (ho : ∀ e ∈ out, e ∈ env.executed) :
    RankedBy rank out where
  dependency e he d hd _ := hc.dependency e (ho e he) d hd
  reader w hw r hr := hc.reader w (ho w hw) r (ho r hr)

variable {done : List TransactionDigest} {roots out : List TransactionEffects}

theorem Consistent.sorted (ht : Tracks included existing done) (hn : done.Nodup)
    (hcl : CausallyClosed env done)
    (hrt : ∀ e ∈ roots, env.getExecutedEffects e.transactionDigest = some e)
    (hok : env.completeCheckpointEffects order included roots existing = .ok out) :
    (done ++ (causalSort out).map (·.transactionDigest)).Nodup ∧
      CausallyClosed env (done ++ (causalSort out).map (·.transactionDigest)) ∧
      ∀ e, e ∈ causalSort out ↔
        Needed env (Visit.skips env included existing) roots e := by
  have hm : ∀ e, e ∈ out ↔ Needed env (Visit.skips env included existing) roots e :=
    fun e => mem_completeCheckpointEffects hrt hok
  have hst : ∀ e ∈ out, env.getExecutedEffects e.transactionDigest = some e :=
    fun e he => ((hm e).mp he).stored hrt
  have hf := functional_of_complete hrt hok
  have hr := hc.rankedBy fun e he => mem_executed_of_get (hst e he)
  have hsr : ∀ e, e ∈ causalSort out ↔ e ∈ out := fun e => mem_causalSort hf hr
  refine ⟨?_,hcl.append (fun e he => hst e ((hsr e).mp he)) ?_,fun e => (hsr e).trans (hm e)⟩
  · rw [nodup_append]
    refine ⟨hn,nodup_causalSort hf hr,?_⟩
    rintro d hd _ hd' rfl
    obtain ⟨e,he,rfl⟩ := mem_map.mp hd'
    have het := (hsr e).mp he
    have hs := ((hm e).mp het).skip_eq
    exact ((hc.skips_eq_false ht (hst e het)).mp hs).1 hd
  intro before e after hsp dep hdp hex
  by_cases hin : dep ∈ done
  · exact .inl hin
  refine .inr (dependencies_first hf hr hsp (.inl hdp) ?_)
  have he : e ∈ out := (hsr e).mp (by rw [hsp]; simp)
  obtain ⟨e',he'⟩ := hc.exists_effects dep hex
  have hdg := getExecutedEffects_digest he'
  have hs : Visit.skips env included existing e' = false := by
    rw [hc.skips_eq_false ht (stored_iff he'),hdg]
    exact ⟨hin,hex⟩
  rw [← hdg]
  exact mem_map_of_mem ((hm e').mpr (((hm e).mp he).dependency hdp hex he' hs))

end

/-- What has been put into checkpoints for the pending checkpoints `ps`. -/
structure Done (env : BuilderEnv) (ps : List PendingCheckpoint) (done : List TransactionDigest) :
    Prop where
  nodup : done.Nodup
  closed : CausallyClosed env done
  mem : ∀ d, d ∈ done ↔ d ∈ genesisContents env ∨ Due env ps d

theorem Due.mono {ps ps' : List PendingCheckpoint} (h : ∀ p ∈ ps, p ∈ ps')
    (hd : Due env ps d) : Due env ps' d := by
  induction hd with
  | root hp hk hdg hex => exact .root (h _ hp) hk hdg hex
  | dependency _ he hdp hex ih => exact .dependency ih he hdp hex

theorem Due.executed {ps : List PendingCheckpoint}
    (h : Due env ps d) : env.executedInCurEpoch d = true := by
  cases h with
  | root _ _ _ he => exact he
  | dependency _ _ _ he => exact he

theorem Due.subset {ps : List PendingCheckpoint} {S : List TransactionDigest}
    (hr : ∀ p ∈ ps, ∀ key ∈ p.roots, ∀ d, env.executedDigest key = some d → d ∈ S)
    (hd : ∀ e ∈ env.executed, e.transactionDigest ∈ S → ∀ d ∈ e.dependencies, d ∈ S)
    (h : Due env ps d) : d ∈ S := by
  induction h with
  | root hp hk hdg _ => exact hr _ hp _ hk _ hdg
  | dependency _ he hdp _ ih => exact hd _ (mem_executed_of_get he) ih _ hdp

theorem exists_rootDigests {roots : List TransactionKey}
    (h : ∀ key ∈ roots, ∃ d e, env.executedDigest key = some d ∧
      env.getExecutedEffects d = some e) :
    ∃ digests effects, env.notifyReadExecutedDigests roots = .ok digests ∧
      env.multiGetExecutedEffects digests .notExecuted = .ok effects ∧
      roots.map env.executedDigest = digests.map some := by
  induction roots with
  | nil => exact ⟨[],[],rfl,rfl,rfl⟩
  | cons key roots ih =>
    obtain ⟨d,e,hd,he⟩ := h key mem_cons_self
    obtain ⟨ds,es,hds,hes,hmap⟩ := ih fun k hk => h k (.tail _ hk)
    refine ⟨d :: ds,e :: es,?_,?_,?_⟩
    · unfold BuilderEnv.notifyReadExecutedDigests at hds ⊢
      rw [mapM_cons,hd,hds]
      rfl
    · unfold BuilderEnv.multiGetExecutedEffects at hes ⊢
      rw [mapM_cons,he,hes]
      rfl
    · rw [map_cons,map_cons,hd,hmap]

section
variable {p : PendingCheckpoint} {digests : List TransactionDigest}
  {effects : List TransactionEffects} {failure : CreateFailure}
  (hmap : p.roots.map env.executedDigest = digests.map some)
  (hget : env.multiGetExecutedEffects digests failure = .ok effects)
include hmap hget

theorem mem_rootEffects :
    e ∈ effects ↔ ∃ key ∈ p.roots, ∃ d, env.executedDigest key = some d ∧
      env.getExecutedEffects d = some e := by
  have hs : e ∈ effects ↔ some e ∈ digests.map env.getExecutedEffects := by
    rw [mem_of_multiGet hget]
    simp
  have hdg : ∀ d, d ∈ digests ↔ some d ∈ p.roots.map env.executedDigest := by
    intro d
    rw [hmap]
    simp
  rw [hs,mem_map]
  constructor
  · rintro ⟨d,hd,he⟩
    obtain ⟨key,hk,hkd⟩ := mem_map.mp ((hdg d).mp hd)
    exact ⟨key,hk,d,hkd,he⟩
  · rintro ⟨key,hk,d,hkd,he⟩
    exact ⟨d,(hdg d).mpr (mem_map.mpr ⟨key,hk,hkd⟩),he⟩

theorem extract_eq : (env.extractConsensusCommitPrologue digests effects).map
    (·.transactionDigest) = prologueOf env p := by
  have hm' := mem_of_multiGet hget
  unfold prologueOf
  cases hr : p.roots with
  | nil =>
    rw [hr] at hmap
    obtain rfl : digests = [] := map_eq_nil_iff.mp hmap.symm
    rfl
  | cons key keys =>
    rw [hr,map_cons] at hmap
    obtain ⟨d,ds,rfl,hd,-⟩ := map_eq_cons_iff.mp hmap.symm
    obtain ⟨e,-,rfl,he,-⟩ := map_eq_cons_iff.mp hm'.symm
    unfold BuilderEnv.extractConsensusCommitPrologue
    rw [List.head?_cons,Option.bind_some,← hd]
    dsimp only
    split
    · next hc =>
      rw [Option.map_some,getExecutedEffects_digest he.symm,Option.filter_some,if_pos hc]
    · next hc =>
      rw [Option.map_none,Option.filter_some,if_neg hc]

end
variable {ps rest : List PendingCheckpoint} {p : PendingCheckpoint} {done : List TransactionDigest}

section
variable (hc : Consistent env pendings rank)

include hc

variable {prologue : Option TransactionEffects}

theorem Consistent.completePrologue (hsp : pendings = ps ++ p :: rest) (hd : Done env ps done)
    (ht : Tracks included existing done)
    (hst : ∀ e ∈ prologue, env.getExecutedEffects e.transactionDigest = some e)
    (hp : prologue.map (·.transactionDigest) = prologueOf env p) :
    ∃ out, env.completePrologue order included prologue existing = .ok out ∧
      Tracks included out (done ++ prologue.toList.map (·.transactionDigest)) ∧
      (done ++ prologue.toList.map (·.transactionDigest)).Nodup ∧
      CausallyClosed env (done ++ prologue.toList.map (·.transactionDigest)) := by
  cases prologue with
  | none =>
    refine ⟨existing,rfl,?_,?_,?_⟩
    · simpa using ht
    · simpa using hd.nodup
    · simpa using hd.closed
  | some ccp =>
    have hget := hst ccp rfl
    obtain ⟨hex,hg,hdd,hds⟩ := hc.prologue ps p rest _ hsp hp.symm
    have hn : ccp.transactionDigest ∉ done := by
      rw [hd.mem,not_or]
      exact ⟨hg,hdd⟩
    have hdepsDone : ∀ dep ∈ ccp.dependencies, env.executedInCurEpoch dep = true → dep ∈ done :=
      fun dep hdp he => (hd.mem dep).mpr (hds ccp hget dep hdp he)
    have hs : env.completeCheckpointEffects order included [ccp] existing = .ok [ccp] := by
      refine complete_single hc.exists_effects ((hc.skips_eq_false ht hget).mpr ⟨hn,hex⟩) ?_
      intro dep hdp he e' he'
      rw [← Bool.not_eq_false,hc.skips_eq_false ht (stored_iff he'),getExecutedEffects_digest he']
      exact fun h => h.1 (hdepsDone dep hdp he)
    refine ⟨existing ++ [ccp.transactionDigest],?_,ht.append fun d => mem_append,?_,?_⟩
    · simp only [BuilderEnv.completePrologue,hs,ok_bind]
      rfl
    · rw [nodup_append]
      refine ⟨hd.nodup,nodup_singleton _,?_⟩
      rintro d hin _ hin' rfl
      rw [mem_singleton.mp hin'] at hin
      exact hn hin
    refine hd.closed.append (fun e he => ?_) ?_
    · rw [mem_singleton.mp he]
      exact hget
    intro before e after ho dep hdp he
    have hm : e ∈ [ccp] := by
      have : e ∈ before ++ e :: after := by simp
      rw [← ho] at this
      exact this
    rw [mem_singleton.mp hm] at hdp
    exact .inl (hdepsDone dep hdp he)

theorem Consistent.due_of_needed
    {ps : List PendingCheckpoint} {done digests : List TransactionDigest}
    (ht : Tracks included existing done) {effects : List TransactionEffects}
    {failure : CreateFailure} (hmap : p.roots.map env.executedDigest = digests.map some)
    (hget : env.multiGetExecutedEffects digests failure = .ok effects)
    (hnd : Needed env (Visit.skips env included existing) effects e) :
    Due env (ps ++ [p]) e.transactionDigest := by
  have hr := stored_of_multiGet hget
  induction hnd with
  | root he hk =>
    obtain ⟨key,hky,d,hd,hg⟩ := (mem_rootEffects hmap hget).mp he
    rw [← getExecutedEffects_digest hg] at hd
    exact .root (by simp) hky hd ((hc.skips_eq_false ht (stored_iff hg)).mp hk).2
  | dependency hn hdp he hg hk ih =>
    rw [getExecutedEffects_digest hg]
    exact .dependency ih (hn.stored hr) hdp he

theorem Consistent.mem_resolved (hsp : pendings = ps ++ p :: rest) (hd : Done env ps done)
    (ht : Tracks included existing (done ++ prologue.toList.map (·.transactionDigest)))
    {digests : List TransactionDigest} {effects sorted : List TransactionEffects}
    {failure : CreateFailure} (hmap : p.roots.map env.executedDigest = digests.map some)
    (hget : env.multiGetExecutedEffects digests failure = .ok effects)
    (hp : prologue.map (·.transactionDigest) = prologueOf env p)
    (hcl : CausallyClosed env (done ++ prologue.toList.map (·.transactionDigest) ++
      sorted.map (·.transactionDigest)))
    (hm : ∀ e, e ∈ sorted ↔ Needed env (Visit.skips env included existing) effects e) :
    ∀ d, d ∈ done ++ prologue.toList.map (·.transactionDigest) ++
        sorted.map (·.transactionDigest) ↔
      d ∈ genesisContents env ∨ Due env (ps ++ [p]) d := by
  have hmn : ∀ d, Due env ps d → Due env (ps ++ [p]) d :=
    fun d => Due.mono fun q => mem_append_left _
  intro d
  constructor
  · intro hin
    obtain hin | hin := mem_append.mp hin
    · obtain hin | hin := mem_append.mp hin
      · exact ((hd.mem d).mp hin).imp_right (hmn d)
      -- the prologue is a root
      obtain ⟨ccp,hcp,rfl⟩ := mem_map.mp hin
      rw [Option.mem_toList.mp hcp,Option.map_some] at hp
      obtain ⟨hex,-⟩ := hc.prologue ps p rest _ hsp hp.symm
      obtain ⟨hf,-⟩ := Option.filter_eq_some_iff.mp hp.symm
      obtain ⟨key,hk,hdg⟩ := Option.bind_eq_some_iff.mp hf
      exact .inr (.root (by simp) (mem_of_mem_head? hk) hdg hex)
    · obtain ⟨e,he,rfl⟩ := mem_map.mp hin
      exact .inr (hc.due_of_needed ht hmap hget ((hm e).mp he))
  · rintro (hg | hdd)
    · rw [append_assoc]
      exact mem_append_left _ ((hd.mem d).mpr (.inl hg))
    induction hdd with
    | @root q key d hq hk hdg hex =>
      obtain hq | hq := mem_append.mp hq
      · rw [append_assoc]
        exact mem_append_left _ ((hd.mem d).mpr (.inr (.root hq hk hdg hex)))
      rw [mem_singleton.mp hq] at hk
      by_cases hin : d ∈ done ++ prologue.toList.map (·.transactionDigest)
      · exact mem_append_left _ hin
      obtain ⟨e,he⟩ := hc.exists_effects d hex
      have hed := getExecutedEffects_digest he
      have hs : Visit.skips env included existing e = false := by
        rw [hc.skips_eq_false ht (stored_iff he),hed]
        exact ⟨hin,hex⟩
      have hr := (mem_rootEffects hmap hget).mpr ⟨key,hk,d,hdg,he⟩
      rw [← hed]
      exact mem_append_right _ (mem_map_of_mem ((hm e).mpr (.root hr hs)))
    | dependency _ he hdp hex ih => exact hcl.mem ih he hdp hex

/-- A pending checkpoint is resolved: its transactions are those that are due and in no checkpoint
yet, the prologue first. -/
theorem Consistent.resolve (hs : pendings = ps ++ p :: rest) (hd : Done env ps done)
    (ht : Tracks included existing done) :
    ∃ sorted out, env.resolveCheckpointTransactions order included p.roots existing =
        .ok (sorted,out) ∧
      Done env (ps ++ [p]) (done ++ sorted.map (·.transactionDigest)) ∧
      Tracks included out (done ++ sorted.map (·.transactionDigest)) ∧
      ∀ d, prologueOf env p = some d → sorted.head?.map (·.transactionDigest) = some d := by
  have hp : p ∈ pendings := by
    rw [hs]
    simp
  obtain ⟨digests,effects,hdg,hef,hmap⟩ := exists_rootDigests (hc.roots p hp)
  have hr := stored_of_multiGet hef
  have hpr := extract_eq hmap hef
  set prologue := env.extractConsensusCommitPrologue digests effects with het
  obtain ⟨ex,hex,ht1,hn1,hc1⟩ := hc.completePrologue hs hd ht
    (fun e he => hr e (extract_mem he)) hpr
  obtain ⟨unsorted,hu⟩ : ∃ unsorted,
      env.completeCheckpointEffects order included effects ex = .ok unsorted :=
    exists_complete hc.exists_effects effects
  obtain ⟨hn,hcl,hm⟩ := hc.sorted ht1 hn1 hc1 hr hu
  refine ⟨prologue.toList ++ causalSort unsorted,
    ex ++ unsorted.map (·.transactionDigest),?_,⟨?_,?_,?_⟩,?_,?_⟩
  · unfold BuilderEnv.resolveCheckpointTransactions
    rw [hdg,ok_bind,hef,ok_bind]
    dsimp only
    rw [← het,hex,ok_bind,hu]
    rfl
  · rw [map_append,← append_assoc]
    exact hn
  · rw [map_append,← append_assoc]
    exact hcl
  · rw [map_append,← append_assoc]
    exact hc.mem_resolved hs hd ht1 hmap hef hpr hcl hm
  · rw [map_append,← append_assoc]
    refine ht1.append fun d => ?_
    rw [mem_append,mem_map,mem_map]
    have hsm : ∀ e, e ∈ unsorted ↔ e ∈ causalSort unsorted :=
      fun e => (mem_completeCheckpointEffects hr hu).trans (hm e).symm
    simp only [hsm]
  intro d hpd
  rw [← hpr] at hpd
  obtain ⟨ccp,hcp,rfl⟩ := Option.map_eq_some_iff.mp hpd
  rw [hcp]
  rfl

theorem Consistent.resolveAll
    {ps group rest : List PendingCheckpoint} (hs : pendings = ps ++ group ++ rest)
    (hd : Done env ps done) (ht : Tracks included existing done) :
    ∃ lists, env.resolveAll order included group existing = .ok lists ∧
      Done env (ps ++ group) (done ++ lists.flatten.map (·.transactionDigest)) ∧
      List.Forall₂ (fun p sorted => ∀ d, prologueOf env p = some d →
        sorted.head?.map (·.transactionDigest) = some d) group lists := by
  induction group generalizing ps existing done with
  | nil =>
    refine ⟨[],rfl,?_,.nil⟩
    simpa using hd
  | cons p group ih =>
    have hs' : pendings = ps ++ p :: (group ++ rest) := by simpa using hs
    obtain ⟨sorted,out,hr,hd',ht',hf⟩ :
        ∃ sorted out, env.resolveCheckpointTransactions order included p.roots existing =
            .ok (sorted,out) ∧ _ := hc.resolve hs' hd ht
    obtain ⟨lists,hl,hd'',ha⟩ := ih (by simpa using hs) hd' ht'
    refine ⟨sorted :: lists,?_,?_,.cons hf ha⟩
    · unfold BuilderEnv.resolveAll
      rw [hr,ok_bind]
      dsimp only
      rw [hl]
      rfl
    · rw [flatten_cons,map_append,← append_assoc]
      rwa [append_assoc,singleton_append] at hd''

end
end Iota.Checkpoints
