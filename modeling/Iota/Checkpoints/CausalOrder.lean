import Iota.Authority.ConsensusQuarantine
import Iota.Lib.DepthFirst
import Iota.Lib.Multimap

/-! The effects of a pending checkpoint are sorted so that each transaction stands after those it
depends on, and a transaction that overwrites a version of a shared object after those that read it.
Among independent transactions digests decide. -/
namespace Iota.Checkpoints
open Std (ExtTreeMap ExtTreeSet)
open DepthFirst Iota.Authority List

structure ObjectKey where
  id : ObjectID
  version : SequenceNumber
deriving DecidableEq, Repr

inductive InputSharedObject
  | mutate (key : ObjectKey)
  | readOnly (key : ObjectKey)
  | readDeleted (key : ObjectKey)
  | mutateDeleted (key : ObjectKey)
  | cancelled (key : ObjectKey)
deriving DecidableEq, Repr

namespace InputSharedObject

/-- The version a transaction reads without writing the object. -/
def read : InputSharedObject → Option ObjectKey
  | .readOnly key => some key
  | .readDeleted key => some key
  | _ => none

def overwritten : InputSharedObject → Option ObjectKey
  | .mutate key => some key
  | .mutateDeleted key => some key
  | _ => none

end InputSharedObject

/-- The parts of the effects of a transaction that the checkpoint builder reads. -/
structure TransactionEffects where
  transactionDigest : TransactionDigest
  executedEpoch : Nat
  dependencies : List TransactionDigest
  inputSharedObjects : List InputSharedObject := []
  gasCostSummary : GasCostSummary := ⟨0,0,0,0,0⟩
deriving DecidableEq

/-- The two hash maps, as functions to the lists they hold. -/
structure RWLockDependencyBuilder where
  readVersion : ObjectKey → List TransactionDigest
  overwriteVersions : TransactionDigest → List ObjectKey

namespace RWLockDependencyBuilder

def fromEffects (effects : List TransactionEffects) : RWLockDependencyBuilder where
  readVersion key := effects.flatMap fun e =>
    (e.inputSharedObjects.filter fun kind => kind.read = some key).map fun _ => e.transactionDigest
  overwriteVersions digest :=
    (effects.filter fun e => e.transactionDigest = digest).flatMap fun e =>
      e.inputSharedObjects.filterMap InputSharedObject.overwritten

def addDependenciesFor (builder : RWLockDependencyBuilder) (digest : TransactionDigest)
    (v : ExtTreeSet TransactionDigest) : ExtTreeSet TransactionDigest :=
  v.insertMany ((builder.overwriteVersions digest).flatMap builder.readVersion)

end RWLockDependencyBuilder

structure TransactionDependencies where
  digest : TransactionDigest
  dependencies : ExtTreeSet TransactionDigest
  effects : TransactionEffects

namespace TransactionDependencies

def fromEffects (builder : RWLockDependencyBuilder) (effects : TransactionEffects) :
    TransactionDependencies where
  digest := effects.transactionDigest
  dependencies := builder.addDependenciesFor effects.transactionDigest
    (ExtTreeSet.ofList effects.dependencies)
  effects := effects

/-- `InsertState` pops the dependencies from the end of the ascending vector. -/
def popOrder (transaction : TransactionDependencies) : List TransactionDigest :=
  transaction.dependencies.toList.reverse

end TransactionDependencies
namespace CausalOrder

def notSeen (effects : List TransactionEffects) :
    ExtTreeMap TransactionDigest TransactionDependencies :=
  (effects.map (.fromEffects (.fromEffects effects))).foldl
    (fun m (e : TransactionDependencies) => m.insert e.digest e) ∅

def causalSort (effects : List TransactionEffects) : List TransactionEffects :=
  (sort TransactionDependencies.popOrder (notSeen effects)).map
    TransactionDependencies.effects

end CausalOrder

/-- A transaction reads a version that another overwrites. -/
def Overwrites (writer reader : TransactionEffects) : Prop :=
  ∃ key, (∃ kind ∈ writer.inputSharedObjects, kind.overwritten = some key) ∧
    ∃ kind ∈ reader.inputSharedObjects, kind.read = some key

def Functional (effects : List TransactionEffects) : Prop :=
  ∀ e ∈ effects, ∀ e' ∈ effects, e.transactionDigest = e'.transactionDigest → e = e'

variable {d : TransactionDigest}

theorem mem_readVersion {effects : List TransactionEffects} {key : ObjectKey} :
    d ∈ (RWLockDependencyBuilder.fromEffects effects).readVersion key ↔
      ∃ reader ∈ effects, (∃ kind ∈ reader.inputSharedObjects, kind.read = some key) ∧
        reader.transactionDigest = d := by
  simp [RWLockDependencyBuilder.fromEffects,eq_comm (a := d)]

theorem mem_overwriteVersions {effects : List TransactionEffects} {digest : TransactionDigest}
    {key : ObjectKey} :
    key ∈ (RWLockDependencyBuilder.fromEffects effects).overwriteVersions digest ↔
      ∃ writer ∈ effects, writer.transactionDigest = digest ∧
        ∃ kind ∈ writer.inputSharedObjects, kind.overwritten = some key := by
  simp [RWLockDependencyBuilder.fromEffects,and_assoc]

variable {e : TransactionEffects}

theorem mem_dependencies {effects : List TransactionEffects} :
    d ∈ (TransactionDependencies.fromEffects (.fromEffects effects) e).dependencies ↔
      d ∈ e.dependencies ∨ ∃ writer ∈ effects, writer.transactionDigest = e.transactionDigest ∧
        ∃ reader ∈ effects, Overwrites writer reader ∧ reader.transactionDigest = d := by
  rw [TransactionDependencies.fromEffects,RWLockDependencyBuilder.addDependenciesFor,
    ExtTreeSet.mem_insertMany_list,ExtTreeSet.mem_ofList,contains_iff_mem,
    contains_iff_mem,mem_flatMap]
  refine or_congr_right ?_
  constructor
  · rintro ⟨key,hk,hd⟩
    obtain ⟨writer,hw,hdg,ho⟩ := mem_overwriteVersions.mp hk
    obtain ⟨reader,hrd,hr,rfl⟩ := mem_readVersion.mp hd
    exact ⟨writer,hw,hdg,reader,hrd,⟨key,ho,hr⟩,rfl⟩
  rintro ⟨writer,hw,hdg,reader,hrd,⟨key,ho,hr⟩,rfl⟩
  exact ⟨key,mem_overwriteVersions.mpr ⟨writer,hw,hdg,ho⟩,
    mem_readVersion.mpr ⟨reader,hrd,hr,rfl⟩⟩

namespace CausalOrder
variable {effects effects' : List TransactionEffects}

theorem notSeen_eq_some (hf : Functional effects) {t : TransactionDependencies} :
    (notSeen effects)[d]? = some t ↔ ∃ e ∈ effects, e.transactionDigest = d ∧
      t = .fromEffects (.fromEffects effects) e := by
  rw [notSeen,ExtTreeMap.getElem?_foldl_insert TransactionDependencies.digest fun e => e,
    ExtTreeMap.getElem?_empty,Option.or_none,Option.map_id']
  constructor
  · intro hfn
    have hd : t.digest = d := by simpa using List.find?_some hfn
    obtain ⟨e,he,rfl⟩ := mem_map.mp (mem_reverse.mp (mem_of_find?_eq_some hfn))
    exact ⟨e,he,hd,rfl⟩
  rintro ⟨e,he,rfl,rfl⟩
  have hm := mem_reverse.mpr
    (mem_map_of_mem (f := TransactionDependencies.fromEffects (.fromEffects effects)) he)
  cases hfn : (effects.map (TransactionDependencies.fromEffects
      (.fromEffects effects))).reverse.find? fun c => c.digest = e.transactionDigest with
  | none =>
    have hne := List.find?_eq_none.mp hfn _ hm
    exact absurd (decide_eq_true rfl) hne
  | some t =>
    have hd : t.digest = e.transactionDigest := by simpa using List.find?_some hfn
    obtain ⟨e',he',rfl⟩ := mem_map.mp (mem_reverse.mp (mem_of_find?_eq_some hfn))
    rw [hf e' he' e he hd]

theorem causalSort_congr (hf : Functional effects) (h : ∀ e, e ∈ effects ↔ e ∈ effects') :
    causalSort effects = causalSort effects' := by
  have hf' : Functional effects' := fun e he e' he' heq =>
    hf e ((h e).mpr he) e' ((h e').mpr he') heq
  have hd : ∀ e, TransactionDependencies.fromEffects (.fromEffects effects) e =
      .fromEffects (.fromEffects effects') e := by
    intro e
    have hs : (TransactionDependencies.fromEffects (.fromEffects effects) e).dependencies =
        (TransactionDependencies.fromEffects (.fromEffects effects') e).dependencies := by
      apply ExtTreeSet.ext_mem
      intro d
      simp only [mem_dependencies,h]
    exact congrArg (fun set => TransactionDependencies.mk e.transactionDigest set e) hs
  have hm : notSeen effects = notSeen effects' := by
    apply ExtTreeMap.ext_getElem?
    intro d
    apply Option.ext
    intro t
    rw [notSeen_eq_some hf,notSeen_eq_some hf']
    simp only [h,hd]
  rw [causalSort,causalSort,hm]

/-- A rank below which everything stands that a transaction of the list depends on. -/
structure RankedBy (rank : TransactionDigest → Nat) (effects : List TransactionEffects) : Prop where
  dependency : ∀ e ∈ effects, ∀ d ∈ e.dependencies, d ∈ effects.map (·.transactionDigest) →
    rank d < rank e.transactionDigest
  reader : ∀ writer ∈ effects, ∀ reader ∈ effects, Overwrites writer reader →
    rank reader.transactionDigest < rank writer.transactionDigest

section
variable (hf : Functional effects)

include hf

theorem mem_notSeen : d ∈ notSeen effects ↔ d ∈ effects.map (·.transactionDigest) := by
  rw [ExtTreeMap.mem_iff_isSome_getElem?,Option.isSome_iff_exists,mem_map]
  constructor
  · rintro ⟨t,ht⟩
    obtain ⟨e,he,hd,-⟩ := (notSeen_eq_some hf).mp ht
    exact ⟨e,he,hd⟩
  · rintro ⟨e,he,hd⟩
    exact ⟨_,(notSeen_eq_some hf).mpr ⟨e,he,hd,rfl⟩⟩

variable {rank : TransactionDigest → Nat}

theorem ranked_notSeen (hr : RankedBy rank effects) :
    Ranked TransactionDependencies.popOrder TransactionDependencies.digest rank
      (notSeen effects) := by
  refine ⟨fun d t ht => ?_,fun d t ht d' hd' hm => ?_⟩
  · obtain ⟨e,-,rfl,rfl⟩ := (notSeen_eq_some hf).mp ht
    rfl
  obtain ⟨e,he,rfl,rfl⟩ := (notSeen_eq_some hf).mp ht
  rw [TransactionDependencies.popOrder,mem_reverse,ExtTreeSet.mem_toList,mem_dependencies] at hd'
  obtain hd | ⟨writer,hw,hdg,reader,hrd,ho,rfl⟩ := hd'
  · exact hr.dependency e he d' hd ((mem_notSeen hf).mp hm)
  · rw [← hdg]
    exact hr.reader writer hw reader hrd ho

theorem mem_causalSort (hr : RankedBy rank effects) : e ∈ causalSort effects ↔ e ∈ effects := by
  obtain ⟨hp,-⟩ := sort_spec (ranked_notSeen hf hr)
  rw [causalSort,mem_map]
  constructor
  · rintro ⟨t,ht,rfl⟩
    obtain ⟨⟨d,t'⟩,hm,rfl⟩ := mem_map.mp (hp.subset ht)
    obtain ⟨e,he,-,rfl⟩ :=
      (notSeen_eq_some hf).mp (ExtTreeMap.mem_toList_iff_getElem?_eq_some.mp hm)
    exact he
  intro he
  have hg := (notSeen_eq_some hf).mpr ⟨e,he,rfl,rfl⟩
  have hm := mem_map_of_mem (f := Prod.snd) (ExtTreeMap.mem_toList_iff_getElem?_eq_some.mpr hg)
  exact ⟨_,hp.symm.subset hm,rfl⟩

theorem nodup_causalSort
    (hr : RankedBy rank effects) : ((causalSort effects).map (·.transactionDigest)).Nodup := by
  obtain ⟨hp,-⟩ := sort_spec (ranked_notSeen hf hr)
  have hk : ((notSeen effects).toList.map Prod.snd).map (·.effects.transactionDigest) =
      (notSeen effects).toList.map Prod.fst := by
    rw [map_map]
    refine map_congr_left fun e he => ?_
    obtain ⟨e',-,hd,ht⟩ :=
      (notSeen_eq_some hf).mp (ExtTreeMap.mem_toList_iff_getElem?_eq_some.mp he)
    rw [Function.comp_apply,ht]
    exact hd
  rw [causalSort,map_map]
  refine ((hp.map _).nodup_iff).mpr ?_
  rw [Function.comp_def,hk]
  exact ExtTreeMap.nodup_map_fst_toList _

theorem dependencies_first (hr : RankedBy rank effects) {before after : List TransactionEffects}
    (hs : causalSort effects = before ++ e :: after)
    (hd : d ∈ e.dependencies ∨ ∃ x ∈ effects, Overwrites e x ∧ x.transactionDigest = d)
    (hmm : d ∈ effects.map (·.transactionDigest)) : d ∈ before.map (·.transactionDigest) := by
  obtain ⟨hp,hc⟩ := sort_spec (ranked_notSeen hf hr)
  obtain ⟨tbefore,trest,hts,hb,hrs⟩ := map_eq_append_iff.mp hs
  obtain ⟨t,tafter,rfl,ht,-⟩ := map_eq_cons_iff.mp hrs
  have hst : ∀ t ∈ sort TransactionDependencies.popOrder (notSeen effects),
      t = .fromEffects (.fromEffects effects) t.effects := by
    intro t ht
    obtain ⟨⟨k,t'⟩,hm,rfl⟩ := mem_map.mp (hp.subset ht)
    obtain ⟨e',-,-,heq⟩ :=
      (notSeen_eq_some hf).mp (ExtTreeMap.mem_toList_iff_getElem?_eq_some.mp hm)
    rw [show t' = _ from heq]
    rfl
  have hdp : d ∈ t.popOrder := by
    rw [hst t (by rw [hts]; simp),TransactionDependencies.popOrder,mem_reverse,
      ExtTreeSet.mem_toList,mem_dependencies,ht]
    have he : e ∈ effects := (mem_causalSort hf hr).mp (by rw [hs]; simp)
    exact hd.imp_right fun h => ⟨e,he,rfl,h⟩
  obtain ⟨t',ht',hdg⟩ := mem_map.mp (hc tbefore t tafter hts d hdp ((mem_notSeen hf).mpr hmm))
  rw [← hb,map_map]
  refine mem_map.mpr ⟨t',ht',?_⟩
  rw [← hdg,hst t' (by rw [hts]; simp [ht'])]
  rfl

end

/-- A transaction of the list that another one depends on, or of which it overwrites a version. -/
def Precedes (effects : List TransactionEffects) (d d' : TransactionDigest) : Prop :=
  ∃ x ∈ effects, ∃ e ∈ effects, x.transactionDigest = d ∧ e.transactionDigest = d' ∧
    (d ∈ e.dependencies ∨ Overwrites e x)

theorem exists_rankedBy (ha : ∀ d, ¬Relation.TransGen (Precedes effects) d d) :
    ∃ rank, RankedBy rank effects := by
  obtain ⟨rank,hrn⟩ := exists_rank_of_acyclic
    (effects.map (·.transactionDigest)).toFinset
    (fun d d' ⟨x,hx,_,_,hd,_⟩ => mem_toFinset.mpr (mem_map.mpr ⟨x,hx,hd⟩)) ha
  refine ⟨rank,fun e he d hd hm => ?_,fun writer hw reader hr ho => ?_⟩
  · obtain ⟨x,hx,rfl⟩ := mem_map.mp hm
    exact hrn _ _ ⟨x,hx,e,he,rfl,rfl,.inl hd⟩
  · exact hrn _ _ ⟨reader,hr,writer,hw,rfl,rfl,.inr ho⟩

theorem functional_of_nodup (h : (effects.map (·.transactionDigest)).Nodup) : Functional effects :=
  fun _ he _ he' heq => inj_on_of_nodup_map h he he' heq

/-- The sorted list has the effects, each after those it depends on and after those that read a
version it overwrites, and the order of the input does not matter. -/
theorem causalSort_correct (hdistinct : (effects.map (·.transactionDigest)).Nodup)
    (hacyclic : ∀ d, ¬Relation.TransGen (Precedes effects) d d) :
    (causalSort effects).Perm effects ∧
      (∀ before e after, causalSort effects = before ++ e :: after → ∀ x ∈ effects,
        x.transactionDigest ∈ e.dependencies ∨ Overwrites e x → x ∈ before) ∧
      ∀ effects', effects'.Perm effects → causalSort effects' = causalSort effects := by
  obtain ⟨rank,hr⟩ := exists_rankedBy hacyclic
  have hf := functional_of_nodup hdistinct
  refine ⟨?_,fun before e after hs x hx he => ?_,fun effects' hp => ?_⟩
  · exact (perm_ext_iff_of_nodup (nodup_causalSort hf hr).of_map hdistinct.of_map).mpr
      fun e => mem_causalSort hf hr
  · have hd : x.transactionDigest ∈ before.map (·.transactionDigest) :=
      dependencies_first hf hr hs (he.imp_right fun h => ⟨x,hx,h,rfl⟩) (mem_map_of_mem hx)
    obtain ⟨x',hx',hdg⟩ := mem_map.mp hd
    have hin : x' ∈ effects := (mem_causalSort hf hr).mp (by rw [hs]; simp [hx'])
    rwa [← hf x' hin x hx hdg]
  · exact (causalSort_congr hf fun e => hp.mem_iff.symm).symm

/-- A transaction that reads a version and one, with a smaller digest, that overwrites it. -/
def readAndOverwrite : List TransactionEffects :=
  [{ transactionDigest := 0, executedEpoch := 0, dependencies := []
     inputSharedObjects := [.mutate ⟨0,0⟩] },
   { transactionDigest := 1, executedEpoch := 0, dependencies := []
     inputSharedObjects := [.readOnly ⟨0,0⟩] }]

theorem causalSort_readAndOverwrite :
    (causalSort readAndOverwrite).Perm readAndOverwrite ∧
      causalSort readAndOverwrite.reverse = causalSort readAndOverwrite := by
  have hs : ∀ d d', Precedes readAndOverwrite d d' → d = 1 ∧ d' = 0 := by
    rintro d - ⟨x,hx,e,he,rfl,rfl,h⟩
    simp only [readAndOverwrite,mem_cons,not_mem_nil,or_false] at hx he
    rcases hx with rfl | rfl <;> rcases he with rfl | rfl <;>
      simp [Overwrites,InputSharedObject.read,InputSharedObject.overwritten] at h ⊢
  have h := @causalSort_correct readAndOverwrite (by decide) fun d hd => by
    obtain ⟨_,hh,-⟩ := Relation.TransGen.head'_iff.mp hd
    obtain ⟨_,-,ht⟩ := Relation.TransGen.tail'_iff.mp hd
    exact absurd ((hs _ _ hh).1.symm.trans (hs _ _ ht).2) (by decide)
  exact ⟨h.1,h.2.2 _ (reverse_perm _)⟩

end CausalOrder
end Iota.Checkpoints
