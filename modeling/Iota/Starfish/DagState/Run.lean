import Iota.Lib.Run
import Iota.Starfish.DagState.Write
import Iota.Starfish.View

/-! Every way the other components change a DAG state, and what holds of the headers and commits it
keeps in every run. -/
namespace Iota.Starfish
open List Std.ExtTreeMap Universe
open Std (ExtTreeMap ExtTreeSet)

/-- The changes of a DAG state. A restart builds the state anew from what was flushed. -/
inductive DagOp
  | acceptBlockHeader (header : VerifiedBlockHeader)
  | addTransactions (transactions : VerifiedTransactions) (source : DataSource)
  | addCommit (commit : TrustedCommit)
  | addScoringSubdags (subdags : List SubDagBase)
  | persistScores (scores : ReputationScores)
  | updateLastSolidSubdagBase (base : SubDagBase)
  | updatePendingCommitVotes (refs : List CommitRef)
  | takeCommitVotes (limit : Nat)
  | takeAcknowledgments (limit : Nat)
  | setFastSyncOngoingFlag (flag : Bool)
  | flush
  | reinitializeCaches
  | restart

namespace DagState
variable {ctx : Context}

def exec (s : DagState ctx) : DagOp → Except Panic (DagState ctx)
  | .acceptBlockHeader header => s.acceptBlockHeader header
  | .addTransactions transactions source => .ok (s.addTransactions transactions source)
  | .addCommit commit => s.addCommit commit
  | .addScoringSubdags subdags => s.addScoringSubdags subdags
  | .persistScores scores => s.clearScoringSubdag.addCommitInfo scores
  | .updateLastSolidSubdagBase base => .ok (s.updateLastSolidSubdagBase base)
  | .updatePendingCommitVotes refs => .ok (s.updatePendingCommitVotes refs)
  | .takeCommitVotes limit => .ok (s.takeCommitVotes limit).2
  | .takeAcknowledgments limit => .ok (s.takeAcknowledgments limit).2
  | .setFastSyncOngoingFlag flag => .ok (s.setFastSyncOngoingFlag flag)
  | .flush => .ok s.flush
  | .reinitializeCaches => s.reinitializeCaches
  | .restart => DagState.new ctx s.ownIndex s.cachedRounds s.store

/-- The first state of an authority: built from an empty store. -/
def Initial (ownIndex cachedRounds : Nat) (s : DagState ctx) : Prop :=
  DagState.new ctx ownIndex cachedRounds .empty = .ok s

/-- The part of a state that commits and stored data are read from. -/
structure CommitPart where
  ownIndex : Nat
  cachedRounds : Nat
  lastCommit : Option TrustedCommit
  rounds : Nat → Nat
  commitsToWrite : List TrustedCommit
  infoToWrite : List (CommitRef × CommitInfo)
  store : Store

/-- The part of a state that headers and commits are read from. -/
structure HeaderPart extends CommitPart where
  recent : ExtTreeMap BlockRef VerifiedBlockHeader
  refs : Nat → ExtTreeSet BlockRef
  headersToWrite : List VerifiedBlockHeader

def commitPart (s : DagState ctx) : CommitPart where
  ownIndex := s.ownIndex
  cachedRounds := s.cachedRounds
  lastCommit := s.lastCommit
  rounds := s.lastCommittedRounds
  commitsToWrite := s.commitsToWrite
  infoToWrite := s.commitInfoToWrite
  store := s.store

def headerPart (s : DagState ctx) : HeaderPart where
  toCommitPart := s.commitPart
  recent := s.recentBlockHeaders
  refs := s.recentHeadersRefsByAuthority
  headersToWrite := s.blockHeadersToWrite

section WithoutTransactions
variable (s : DagState ctx)

/-- The state apart from transactions, acknowledgments and commit votes. -/
def withoutTransactions : DagState ctx :=
  { s with
    recentTransactionsByAuthority := fun _ => ∅
    pendingCommitVotes := []
    pendingAcknowledgments := ∅
    transactionsToWrite := [] }

theorem withoutTransactions_addPendingAcknowledgment (t : TransactionRef)
    (blockDigest : Option Nat) :
    (s.addPendingAcknowledgment t blockDigest).withoutTransactions = s.withoutTransactions := by
  unfold addPendingAcknowledgment
  cases blockDigest with
  | some digest => rfl
  | none =>
    cases s.resolveBlockRef t with
    | some r => rfl
    | none => rfl

theorem withoutTransactions_updateTransactionMetadata (t : VerifiedTransactions)
    (source : DataSource) :
    (s.updateTransactionMetadata t source).withoutTransactions = s.withoutTransactions := by
  unfold updateTransactionMetadata
  cases t.genericRef ctx with
  | none => rfl
  | some g =>
    simp only
    split
    · rw [withoutTransactions_addPendingAcknowledgment]
      rfl
    · rfl

theorem withoutTransactions_addTransactions (t : VerifiedTransactions) (source : DataSource) :
    (s.addTransactions t source).withoutTransactions = s.withoutTransactions := by
  unfold addTransactions
  cases t.genericRef ctx with
  | none => rfl
  | some g =>
    simp only
    split
    · rfl
    · exact withoutTransactions_updateTransactionMetadata s t source

theorem withoutTransactions_takeAcknowledgments (limit : Nat) :
    (s.takeAcknowledgments limit).2.withoutTransactions = s.withoutTransactions := by
  unfold takeAcknowledgments
  simp only
  split
  · rfl
  · rfl

variable {s} in
theorem headerPart_eq {s' : DagState ctx} (h : s'.withoutTransactions = s.withoutTransactions) :
    s'.headerPart = s.headerPart := by
  have hp : s'.withoutTransactions.headerPart = s.withoutTransactions.headerPart := by rw [h]
  exact hp

theorem headerPart_updateTransactionMetadata (t : VerifiedTransactions) (source : DataSource) :
    (s.updateTransactionMetadata t source).headerPart = s.headerPart :=
  headerPart_eq (s.withoutTransactions_updateTransactionMetadata t source)

theorem headerPart_addTransactions (t : VerifiedTransactions) (source : DataSource) :
    (s.addTransactions t source).headerPart = s.headerPart :=
  headerPart_eq (s.withoutTransactions_addTransactions t source)

theorem headerPart_takeAcknowledgments (limit : Nat) :
    (s.takeAcknowledgments limit).2.headerPart = s.headerPart :=
  headerPart_eq (s.withoutTransactions_takeAcknowledgments limit)

end WithoutTransactions

theorem headerPart_addScoringSubdags {s s' : DagState ctx} {subdags : List SubDagBase}
    (h : s.addScoringSubdags subdags = .ok s') : s'.headerPart = s.headerPart := by
  obtain ⟨scoring,-,rfl⟩ := Except.map_eq_ok.mp h
  rfl

section CommitPart

theorem proj_foldl {α β : Type} (p : DagState ctx → β) {f : DagState ctx → α → DagState ctx}
    (hf : ∀ s x, p (f s x) = p s) (xs : List α) (s : DagState ctx) : p (xs.foldl f s) = p s := by
  induction xs generalizing s with
  | nil => rfl
  | cons x xs ih => rw [foldl_cons,ih,hf]

theorem proj_loadCachedData {β : Type} (p : DagState ctx → β) (source : DataSource)
    (he : ∀ (s : DagState ctx) rounds, p { s with evictedRounds := rounds } = p s)
    (hh : ∀ s h, p (updateBlockHeaderMetadata s h) = p s)
    (ht : ∀ s t, p (updateTransactionMetadata s t source) = p s)
    (authorities : List Nat) (s : DagState ctx) :
    p (authorities.foldl (loadCachedDataForAuthority source) s) = p s := by
  refine proj_foldl p (fun s a => ?_) authorities s
  unfold loadCachedDataForAuthority loadCachedHeaders
  rw [proj_foldl p ht,proj_foldl p hh,he]

theorem commitPart_loadCachedData (source : DataSource) (authorities : List Nat)
    (s : DagState ctx) :
    (authorities.foldl (loadCachedDataForAuthority source) s).commitPart = s.commitPart :=
  proj_loadCachedData commitPart source (fun _ _ => rfl) (fun _ _ => rfl) (fun s t =>
    congrArg HeaderPart.toCommitPart (headerPart_updateTransactionMetadata s t source)) _ s

theorem commitPart_evictHeaders (s : DagState ctx) : s.evictHeaders.commitPart = s.commitPart :=
  proj_foldl commitPart (f := evictHeadersOf) (fun _ _ => rfl) _ s

end CommitPart

theorem acceptBlockHeader_cases {s s' : DagState ctx} {h : VerifiedBlockHeader}
    (hs : s.acceptBlockHeader h = .ok s') :
    s' = s ∨ h.round ≠ genesisRound ∧ s' = { s.updateBlockHeaderMetadata h with
      blockHeadersToWrite := s.blockHeadersToWrite ++ [h] } := by
  unfold acceptBlockHeader at hs
  split at hs
  · cases hs
  · next h0 =>
    split at hs
    · exact .inl (Except.ok.inj hs).symm
    split at hs
    · cases hs
    · exact .inr ⟨h0,(Except.ok.inj hs).symm⟩

/-- Cache, references by author, write buffer and store agree with each other and with `U`. -/
structure Coherent (U : Universe ctx) (s : DagState ctx) : Prop where
  recent_get : ∀ {r : BlockRef} {h}, s.recentBlockHeaders[r]? = some h →
    U.get r = some h ∧ r.round ≠ genesisRound
  store_get : ∀ {r : BlockRef} {h}, s.store.blockHeaders[r]? = some h →
    U.get r = some h ∧ r.round ≠ genesisRound
  refs : ∀ {a} {r : BlockRef}, r ∈ s.recentHeadersRefsByAuthority a ↔
    r ∈ s.recentBlockHeaders ∧ r.author = a
  buffered : ∀ {h}, h ∈ s.blockHeadersToWrite → s.recentBlockHeaders[h.reference]? = some h
  written : ∀ {r : BlockRef} {h}, s.recentBlockHeaders[r]? = some h →
    h ∈ s.blockHeadersToWrite ∨ s.store.blockHeaders[r]? = some h

/-- The stored headers of an authority above its eviction round are cached. -/
def CachedFor (s : DagState ctx) (a : Nat) : Prop :=
  ∀ (r : BlockRef) (h), s.store.blockHeaders[r]? = some h → r.author = a →
    s.calculateAuthorityEvictionRound a < r.round → s.recentBlockHeaders[r]? = some h

theorem Coherent.congr {U : Universe ctx} {s s' : DagState ctx} (hc : Coherent U s)
    (h : s'.headerPart = s.headerPart) : Coherent U s' := by
  have hr : s'.recentBlockHeaders = s.recentBlockHeaders := congrArg HeaderPart.recent h
  have hrf : s'.recentHeadersRefsByAuthority = s.recentHeadersRefsByAuthority :=
    congrArg HeaderPart.refs h
  have hb : s'.blockHeadersToWrite = s.blockHeadersToWrite := congrArg HeaderPart.headersToWrite h
  have hs : s'.store = s.store := congrArg (fun p => p.store) h
  constructor
  · rw [hr]
    exact hc.recent_get
  · rw [hs]
    exact hc.store_get
  · rw [hr,hrf]
    exact hc.refs
  · rw [hr,hb]
    exact hc.buffered
  · rw [hr,hb,hs]
    exact hc.written

theorem CachedFor.congr {s s' : DagState ctx} {a : Nat} (hc : CachedFor s a)
    (h : s'.headerPart = s.headerPart) : CachedFor s' a := by
  have hr : s'.recentBlockHeaders = s.recentBlockHeaders := congrArg HeaderPart.recent h
  have hs : s'.store = s.store := congrArg (fun p => p.store) h
  have hrn : s'.lastCommittedRounds = s.lastCommittedRounds := congrArg (fun p => p.rounds) h
  have hcc : s'.cachedRounds = s.cachedRounds := congrArg (fun p => p.cachedRounds) h
  unfold CachedFor calculateAuthorityEvictionRound
  rw [hr,hs,hrn,hcc]
  exact hc

section Insert
variable {U : Universe ctx} {s : DagState ctx} (hc : Coherent U s) {h : VerifiedBlockHeader}

theorem recent_updateBlockHeaderMetadata (s : DagState ctx) (h : VerifiedBlockHeader)
    (r : BlockRef) : (s.updateBlockHeaderMetadata h).recentBlockHeaders[r]? =
      if h.reference = r then some h else s.recentBlockHeaders[r]? :=
  getElem?_insert_eq _ _ _ _

include hc

theorem Coherent.eq_of_recent {x : VerifiedBlockHeader} (hU : h ∈ U)
    (hx : s.recentBlockHeaders[h.reference]? = some x) : x = h :=
  Option.some.inj ((hc.recent_get hx).1.symm.trans hU)

theorem Coherent.recent_mono (hU : h ∈ U) {r : BlockRef} {x : VerifiedBlockHeader}
    (hx : s.recentBlockHeaders[r]? = some x) :
    (s.updateBlockHeaderMetadata h).recentBlockHeaders[r]? = some x := by
  rw [recent_updateBlockHeaderMetadata]
  split
  · next he =>
    subst he
    rw [hc.eq_of_recent hU hx]
  · exact hx

theorem Coherent.insert (hU : h ∈ U) (h0 : h.round ≠ genesisRound)
    {buffer : List VerifiedBlockHeader} (hs : ∀ x ∈ s.blockHeadersToWrite, x ∈ buffer)
    (hb : ∀ x ∈ buffer, x ∈ s.blockHeadersToWrite ∨ x = h)
    (hw : h ∈ buffer ∨ s.store.blockHeaders[h.reference]? = some h) :
    Coherent U { s.updateBlockHeaderMetadata h with blockHeadersToWrite := buffer } := by
  constructor
  · intro r x hx
    rw [recent_updateBlockHeaderMetadata] at hx
    split at hx
    · next he =>
      subst he
      cases hx
      exact ⟨hU,h0⟩
    · exact hc.recent_get hx
  · exact hc.store_get
  · intro a r
    have hm : r ∈ s.recentBlockHeaders.insert h.reference h ↔
        h.reference = r ∨ r ∈ s.recentBlockHeaders := by
      rw [mem_insert,Std.LawfulEqCmp.compare_eq_iff_eq]
    show r ∈ Function.update s.recentHeadersRefsByAuthority h.reference.author
      ((s.recentHeadersRefsByAuthority h.reference.author).insert h.reference) a ↔
      r ∈ s.recentBlockHeaders.insert h.reference h ∧ r.author = a
    rw [hm]
    by_cases ha : a = h.reference.author
    · subst ha
      rw [Function.update_self,ExtTreeSet.mem_insert,Std.LawfulEqCmp.compare_eq_iff_eq,hc.refs]
      constructor
      · rintro (rfl | ⟨hr,ha⟩)
        · exact ⟨.inl rfl,rfl⟩
        · exact ⟨.inr hr,ha⟩
      rintro ⟨rfl | hr,ha⟩
      · exact .inl rfl
      · exact .inr ⟨hr,ha⟩
    · rw [Function.update_of_ne ha,hc.refs]
      constructor
      · exact fun hr => ⟨.inr hr.1,hr.2⟩
      rintro ⟨rfl | hr,hra⟩
      · exact absurd hra.symm ha
      · exact ⟨hr,hra⟩
  · intro x hx
    rw [recent_updateBlockHeaderMetadata]
    rcases hb x hx with hx | rfl
    · have := hc.recent_mono hU (hc.buffered hx)
      rwa [recent_updateBlockHeaderMetadata] at this
    · rw [if_pos rfl]
  · intro r x hx
    rw [recent_updateBlockHeaderMetadata] at hx
    split at hx
    · next he =>
      subst he
      cases hx
      exact hw
    rcases hc.written hx with hx | hx
    · exact .inl (hs x hx)
    · exact .inr hx

theorem CachedFor.insert (hU : h ∈ U) {a : Nat} (ha : CachedFor s a) :
    CachedFor (s.updateBlockHeaderMetadata h) a := by
  intro r x hx hra hr
  exact hc.recent_mono hU (ha r x hx hra hr)

end Insert
section Load
variable {U : Universe ctx} {s : DagState ctx}

theorem Coherent.foldl_updateBlockHeaderMetadata (hc : Coherent U s)
    {headers : List VerifiedBlockHeader}
    (hs : ∀ h ∈ headers, s.store.blockHeaders[h.reference]? = some h) :
    Coherent U (headers.foldl updateBlockHeaderMetadata s) ∧
      (headers.foldl updateBlockHeaderMetadata s).commitPart = s.commitPart ∧
      (headers.foldl updateBlockHeaderMetadata s).blockHeadersToWrite = s.blockHeadersToWrite ∧
      (∀ h ∈ headers, (headers.foldl updateBlockHeaderMetadata s).recentBlockHeaders[h.reference]? =
        some h) ∧
      ∀ {r : BlockRef} {h}, s.recentBlockHeaders[r]? = some h →
        (headers.foldl updateBlockHeaderMetadata s).recentBlockHeaders[r]? = some h := by
  induction headers generalizing s with
  | nil => exact ⟨hc,rfl,rfl,by simp,id⟩
  | cons h headers ih =>
    have hh := hs h mem_cons_self
    have hU : h ∈ U := mem_of_get (hc.store_get hh).1
    have hc' : Coherent U (s.updateBlockHeaderMetadata h) :=
      hc.insert hU (hc.store_get hh).2 (fun _ => id) (fun _ => .inl) (.inr hh)
    obtain ⟨h1,h2,h3,h4,h5⟩ := ih hc' fun x hx => hs x (.tail _ hx)
    refine ⟨h1,h2,h3,fun x hx => ?_,fun hx => h5 (hc.recent_mono hU hx)⟩
    cases hx with
    | head => exact h5 (by rw [recent_updateBlockHeaderMetadata,if_pos rfl])
    | tail _ hx => exact h4 x hx

theorem headerPart_foldl_updateTransactionMetadata (source : DataSource)
    (transactions : List VerifiedTransactions) (s : DagState ctx) :
    (transactions.foldl (fun s t => s.updateTransactionMetadata t source) s).headerPart =
      s.headerPart :=
  proj_foldl headerPart (fun s t => headerPart_updateTransactionMetadata s t source) _ s

theorem Coherent.mem_scan (hc : Coherent U s) {a start : Nat} {h : VerifiedBlockHeader} :
    h ∈ s.store.scanBlockHeadersByAuthor a start ↔
      s.store.blockHeaders[h.reference]? = some h ∧ h.author = a ∧ start ≤ h.round := by
  simp only [Store.scanBlockHeadersByAuthor,mem_map,mem_filter,Prod.exists,
    decide_eq_true_eq,mem_toList_iff_getElem?_eq_some]
  constructor
  · rintro ⟨r,h',⟨hr,ha,hrn⟩,rfl⟩
    obtain rfl := U.reference_eq (hc.store_get hr).1
    exact ⟨hr,ha,hrn⟩
  · rintro ⟨hr,ha,hrn⟩
    exact ⟨h.reference,h,⟨hr,ha,hrn⟩,rfl⟩

theorem Coherent.loadCachedHeaders (hc : Coherent U s) (a : Nat) :
    Coherent U (s.loadCachedHeaders a) ∧ (s.loadCachedHeaders a).commitPart = s.commitPart ∧
      (s.loadCachedHeaders a).blockHeadersToWrite = s.blockHeadersToWrite ∧
      CachedFor (s.loadCachedHeaders a) a ∧
      ∀ b, CachedFor s b → CachedFor (s.loadCachedHeaders a) b := by
  have hc1 : Coherent U { s with
      evictedRounds := Function.update s.evictedRounds a (s.calculateAuthorityEvictionRound a) } :=
    hc.congr rfl
  have hsc : ∀ h ∈ s.store.scanBlockHeadersByAuthor a (s.calculateAuthorityEvictionRound a + 1),
      s.store.blockHeaders[h.reference]? = some h := fun h hh => (hc.mem_scan.mp hh).1
  obtain ⟨hc2,hcm,hbf,hin,hk⟩ := hc1.foldl_updateBlockHeaderMetadata hsc
  have hs : (s.loadCachedHeaders a).store = s.store := congrArg CommitPart.store hcm
  have hr : ∀ b, (s.loadCachedHeaders a).calculateAuthorityEvictionRound b =
      s.calculateAuthorityEvictionRound b := by
    intro b
    have h1 := congrArg CommitPart.rounds hcm
    have h2 := congrArg CommitPart.cachedRounds hcm
    exact congrArg₂ evictionRound (congrFun h1 b) h2
  refine ⟨hc2,hcm,hbf,?_,?_⟩
  · intro r h hh hra hlt
    rw [hs] at hh
    rw [hr] at hlt
    obtain rfl := U.reference_eq (hc.store_get hh).1
    exact hin h (hc.mem_scan.mpr ⟨hh,hra,hlt⟩)
  intro b hb r h hh hrb hlt
  rw [hs] at hh
  rw [hr] at hlt
  exact hk (hb r h hh hrb hlt)

theorem headerPart_loadCachedDataForAuthority (source : DataSource) (s : DagState ctx) (a : Nat) :
    (s.loadCachedDataForAuthority source a).headerPart = (s.loadCachedHeaders a).headerPart :=
  headerPart_foldl_updateTransactionMetadata _ _ _

theorem Coherent.foldl_load (hc : Coherent U s) (source : DataSource) (authorities : List Nat) :
    Coherent U (authorities.foldl (loadCachedDataForAuthority source) s) ∧
      (authorities.foldl (loadCachedDataForAuthority source) s).commitPart = s.commitPart ∧
      (authorities.foldl (loadCachedDataForAuthority source) s).blockHeadersToWrite =
        s.blockHeadersToWrite ∧
      ∀ a, a ∈ authorities ∨ CachedFor s a →
        CachedFor (authorities.foldl (loadCachedDataForAuthority source) s) a := by
  induction authorities generalizing s with
  | nil => exact ⟨hc,rfl,rfl,fun a ha => ha.resolve_left not_mem_nil⟩
  | cons a authorities ih =>
    have hp := headerPart_loadCachedDataForAuthority source s a
    obtain ⟨hc1,hcm1,hb1,hcc,hk⟩ := hc.loadCachedHeaders a
    obtain ⟨hc2,hcm2,hb2,hcc2⟩ := ih (hc1.congr hp)
    have hcm := (congrArg HeaderPart.toCommitPart hp).trans hcm1
    have hbf := (congrArg HeaderPart.headersToWrite hp).trans hb1
    refine ⟨hc2,hcm2.trans hcm,hb2.trans hbf,fun b hb => hcc2 b ?_⟩
    by_cases hba : b ∈ authorities
    · exact .inl hba
    refine .inr (CachedFor.congr ?_ hp)
    rcases hb with hb | hb
    · obtain rfl := (mem_cons.mp hb).resolve_right hba
      exact hcc
    · exact hk b hb

end Load
section Evict
variable {U : Universe ctx} {s : DagState ctx} (hc : Coherent U s)

include hc

theorem Coherent.mem_toKeep {a n : Nat} {r : BlockRef} :
    r ∈ (s.recentHeadersRefsByAuthority a).splitOff ⟨n,a,0⟩ ↔
      (r ∈ s.recentBlockHeaders ∧ r.author = a) ∧ n ≤ r.round := by
  rw [ExtTreeSet.mem_splitOff,hc.refs]
  refine and_congr_right fun hr => ?_
  rw [BlockRef.isLE_compare_mk_zero n r hr.2.ge]

theorem Coherent.recent_evictHeadersOf (a : Nat) (r : BlockRef) :
    (s.evictHeadersOf a).recentBlockHeaders[r]? =
      if r.author = a ∧ r.round ≤ s.calculateAuthorityEvictionRound a then none
      else s.recentBlockHeaders[r]? := by
  have hm : r ∈ (s.recentHeadersRefsByAuthority a).toList.filter (fun r =>
      r ∉ (s.recentHeadersRefsByAuthority a).splitOff
        ⟨s.calculateAuthorityEvictionRound a + 1,a,0⟩) ↔
      (r ∈ s.recentBlockHeaders ∧ r.author = a) ∧
        r.round ≤ s.calculateAuthorityEvictionRound a := by
    rw [mem_filter,ExtTreeSet.mem_toList,decide_eq_true_eq,hc.mem_toKeep,hc.refs]
    refine and_congr_right fun hr => ?_
    constructor
    · intro h
      by_contra hn
      exact h ⟨hr,by omega⟩
    · intro h h'
      omega
  show (List.foldl _ _ _)[r]? = _
  rw [getElem?_foldl_erase,if_congr hm rfl rfl]
  by_cases hr : r ∈ s.recentBlockHeaders
  · simp [hr]
  · simp [hr]

theorem Coherent.evictHeadersOf (he : s.blockHeadersToWrite = []) (a : Nat) :
    Coherent U (s.evictHeadersOf a) := by
  have hs : ∀ {r : BlockRef} {h}, (s.evictHeadersOf a).recentBlockHeaders[r]? = some h →
      s.recentBlockHeaders[r]? = some h := by
    intro r h hh
    rw [hc.recent_evictHeadersOf] at hh
    split at hh
    · cases hh
    · exact hh
  constructor
  · exact fun hh => hc.recent_get (hs hh)
  · exact hc.store_get
  · intro b r
    have hi : r ∈ (s.evictHeadersOf a).recentBlockHeaders ↔ r ∈ s.recentBlockHeaders ∧
        ¬(r.author = a ∧ r.round ≤ s.calculateAuthorityEvictionRound a) := by
      rw [mem_iff_isSome_getElem?,mem_iff_isSome_getElem?,hc.recent_evictHeadersOf]
      split
      · next h => simp [h]
      · next h => simp [h]
    rw [hi]
    show r ∈ Function.update s.recentHeadersRefsByAuthority a _ b ↔ _
    by_cases hb : b = a
    · subst hb
      rw [Function.update_self,hc.mem_toKeep]
      constructor
      · rintro ⟨⟨hr,ha⟩,hrn⟩
        exact ⟨⟨hr,fun h => by omega⟩,ha⟩
      · rintro ⟨⟨hr,hrn⟩,ha⟩
        exact ⟨⟨hr,ha⟩,by by_contra hn; exact hrn ⟨ha,by omega⟩⟩
    rw [Function.update_of_ne hb,hc.refs]
    constructor
    · rintro ⟨hr,hrb⟩
      exact ⟨⟨hr,fun h => hb (hrb.symm.trans h.1)⟩,hrb⟩
    · rintro ⟨⟨hr,-⟩,hrb⟩
      exact ⟨hr,hrb⟩
  · intro h hh
    rw [show (s.evictHeadersOf a).blockHeadersToWrite = [] from he] at hh
    cases hh
  · exact fun hh => hc.written (hs hh)

theorem CachedFor.evictHeadersOf {b : Nat} (hb : CachedFor s b) (a : Nat) :
    CachedFor (s.evictHeadersOf a) b := by
  intro r h hh hrb hlt
  rw [hc.recent_evictHeadersOf,if_neg]
  · exact hb r h hh hrb hlt
  rintro ⟨ha,hr⟩
  have heq : s.calculateAuthorityEvictionRound b = s.calculateAuthorityEvictionRound a := by
    rw [← hrb,ha]
  have hlt' : s.calculateAuthorityEvictionRound b < r.round := hlt
  omega

theorem Coherent.foldl_evict (he : s.blockHeadersToWrite = []) (authorities : List Nat) :
    Coherent U (authorities.foldl DagState.evictHeadersOf s) ∧
      (authorities.foldl DagState.evictHeadersOf s).commitPart = s.commitPart ∧
      (authorities.foldl DagState.evictHeadersOf s).blockHeadersToWrite = [] ∧
      ∀ a, CachedFor s a → CachedFor (authorities.foldl DagState.evictHeadersOf s) a := by
  induction authorities generalizing s with
  | nil => exact ⟨hc,rfl,he,fun _ => id⟩
  | cons a authorities ih =>
    obtain ⟨h1,h2,h3,h4⟩ := ih (hc.evictHeadersOf he a) he
    exact ⟨h1,h2,h3,fun b hb => h4 b (CachedFor.evictHeadersOf hc hb a)⟩

theorem Coherent.evictHeaders (he : s.blockHeadersToWrite = []) :
    Coherent U s.evictHeaders ∧ s.evictHeaders.commitPart = s.commitPart ∧
      s.evictHeaders.blockHeadersToWrite = [] ∧ ∀ a, CachedFor s a → CachedFor s.evictHeaders a :=
  hc.foldl_evict he (List.range ctx.committee.size)

end Evict
section Flush
variable {U : Universe ctx} {s : DagState ctx} (hc : Coherent U s)

include hc

theorem Coherent.store_writeBuffers {r : BlockRef} {h : VerifiedBlockHeader} :
    s.writeBuffers.store.blockHeaders[r]? = some h ↔
      s.recentBlockHeaders[r]? = some h ∨ s.store.blockHeaders[r]? = some h := by
  have heq : s.writeBuffers.store.blockHeaders[r]? =
      ((s.blockHeadersToWrite.reverse.find? fun h => h.reference = r).map id).or
        s.store.blockHeaders[r]? := getElem?_foldl_insert _ id _ _ _
  rw [heq,Option.map_id]
  cases hf : s.blockHeadersToWrite.reverse.find? fun h => h.reference = r with
  | some x =>
    have hx : x.reference = r := by simpa using List.find?_some hf
    have hm : x ∈ s.blockHeadersToWrite := mem_reverse.mp (mem_of_find?_eq_some hf)
    have hrc := hc.buffered hm
    rw [hx] at hrc
    constructor
    · intro hh
      exact .inl ((Option.some.inj hh) ▸ hrc)
    rintro (hh | hh)
    · exact hrc.symm.trans hh
    have hxU := (hc.recent_get hrc).1
    have hhU := (hc.store_get hh).1
    exact hxU.symm.trans hhU
  | none =>
    constructor
    · exact .inr
    rintro (hh | hh)
    · rcases hc.written hh with hm | hh'
      · -- a buffered header with this reference would have been found
        have hr := U.reference_eq (hc.recent_get hh).1
        have hno := List.find?_eq_none.mp hf h (mem_reverse.mpr hm)
        simp [hr] at hno
      · exact hh'
    · exact hh

theorem Coherent.writeBuffers : Coherent U s.writeBuffers := by
  constructor
  · exact hc.recent_get
  · intro r h hh
    rcases hc.store_writeBuffers.mp hh with hh | hh
    · exact hc.recent_get hh
    · exact hc.store_get hh
  · exact hc.refs
  · intro h hh
    cases hh
  · intro r h hh
    exact .inr (hc.store_writeBuffers.mpr (.inl hh))

theorem CachedFor.writeBuffers {a : Nat} (ha : CachedFor s a) : CachedFor s.writeBuffers a := by
  intro r h hh hra hlt
  rcases hc.store_writeBuffers.mp hh with hh | hh
  · exact hh
  · exact ha r h hh hra hlt

omit hc in
theorem flush_cases (s : DagState ctx) :
    s.flush = s ∨ s.flush.headerPart = s.writeBuffers.evictHeaders.headerPart := by
  unfold flush
  split
  · exact .inl rfl
  · exact .inr rfl

end Flush
end DagState
end Iota.Starfish
