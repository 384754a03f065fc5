import Iota.Starfish.CommitSolidifier
import Iota.Starfish.DagState.Stored

/-! Transactions are found under the references they were added with, and once here they stay until
a restart. -/
namespace Iota.Starfish
open Except List
open Std (ExtTreeMap)
variable {g : GenericTransactionRef}

/-- Transactions `t` are those of a reference, with the contents it stands for. -/
def Attached (content : GenericTransactionRef → List Nat) (g : GenericTransactionRef)
    (t : VerifiedTransactions) : Prop :=
  t.transactions = content g ∧ match g with
    | .transactionRef r => t.transactionRef = r
    | .blockRef r => t.blockRef = some r

namespace DagState
variable {ctx : Context} {s s' : DagState ctx} {content : GenericTransactionRef → List Nat}

structure TransactionPart where
  recent : Nat → ExtTreeMap GenericTransactionRef VerifiedTransactions
  toWrite : List VerifiedTransactions
  stored : ExtTreeMap GenericTransactionRef VerifiedTransactions

def transactionPart (s : DagState ctx) : TransactionPart where
  recent := s.recentTransactionsByAuthority
  toWrite := s.transactionsToWrite
  stored := s.store.transactions

/-- Cache, write buffer and store keep transactions under their own references, and what is cached
is buffered or stored. -/
structure TransactionInv (content : GenericTransactionRef → List Nat) (s : DagState ctx) :
    Prop where
  cached : ∀ a g t, (s.recentTransactionsByAuthority a)[g]? = some t →
    t.genericRef ctx = some g ∧ t.transactions = content g
  buffered : ∀ t ∈ s.transactionsToWrite, ∀ g, t.genericRef ctx = some g →
    t.transactions = content g
  stored : ∀ g t, s.store.transactions[g]? = some t →
    t.genericRef ctx = some g ∧ t.transactions = content g
  written : ∀ a g, g ∈ s.recentTransactionsByAuthority a →
    (∃ t ∈ s.transactionsToWrite, t.genericRef ctx = some g) ∨ g ∈ s.store.transactions

theorem TransactionInv.congr (hi : TransactionInv content s)
    (h : s'.transactionPart = s.transactionPart) : TransactionInv content s' := by
  have hr : s'.recentTransactionsByAuthority = s.recentTransactionsByAuthority :=
    congrArg TransactionPart.recent h
  have hb : s'.transactionsToWrite = s.transactionsToWrite := congrArg TransactionPart.toWrite h
  have hs : s'.store.transactions = s.store.transactions := congrArg TransactionPart.stored h
  constructor
  · rw [hr]
    exact hi.cached
  · rw [hb]
    exact hi.buffered
  · rw [hs]
    exact hi.stored
  · rw [hr,hb,hs]
    exact hi.written

section Lookup

variable {t : VerifiedTransactions}

theorem attached_of_genericRef {g : GenericTransactionRef}
    (hg : t.genericRef ctx = some g) (hc : t.transactions = content g) : Attached content g t := by
  refine ⟨hc,?_⟩
  unfold VerifiedTransactions.genericRef at hg
  split at hg
  · cases hg
    rfl
  · obtain ⟨r,hr,rfl⟩ := Option.map_eq_some_iff.mp hg
    exact hr

theorem attached_genesis (hg : ∀ g, g.round = genesisRound → content g = [])
    {g : GenericTransactionRef} (h0 : g.round = genesisRound)
    (h : ctx.genesisTransactions g = some t) : Attached content g t := by
  cases g with
  | blockRef r =>
    obtain ⟨x,hx,rfl⟩ := Option.map_eq_some_iff.mp h
    have hr : x.reference = r := by simpa using List.find?_some hx
    exact ⟨(hg _ h0).symm,congrArg some hr⟩
  | transactionRef r =>
    unfold Context.genesisTransactions at h
    dsimp only at h
    split at h
    · next x hx =>
      have hm : x ∈ [x] := mem_singleton_self x
      rw [← hx] at hm
      obtain ⟨hrn,ha,hc⟩ := of_decide_eq_true (mem_filter.mp hm).2
      cases h
      refine ⟨(hg _ h0).symm,?_⟩
      cases r
      simp only [VerifiedBlockHeader.genesisTransactions]
      simp_all
    · cases h

theorem TransactionInv.attached (hi : TransactionInv content s)
    (hgn : ∀ g, g.round = genesisRound → content g = [])
    (h : s.findTransactions g = some t) : Attached content g t := by
  unfold findTransactions at h
  split at h
  · next h0 => exact attached_genesis hgn h0 h
  split at h
  · next x hx =>
    cases h
    obtain ⟨hg,hc⟩ := hi.cached _ _ _ hx
    exact attached_of_genericRef hg hc
  cases g with
  | transactionRef r =>
    obtain ⟨x,hx,rfl⟩ := Option.map_eq_some_iff.mp h
    exact ⟨(hi.stored _ _ hx).2,rfl⟩
  | blockRef r =>
    unfold Store.readVerifiedTransactions at h
    dsimp only at h
    split at h
    · next header x hh hx =>
      cases h
      exact ⟨(hi.stored _ _ hx).2,rfl⟩
    · cases h

theorem containsTransaction_iff (h0 : g.round ≠ genesisRound) :
    s.containsTransaction g = true ↔
      g ∈ s.recentTransactionsByAuthority g.author ∨ g ∈ s.store.transactions := by
  unfold containsTransaction
  rw [if_neg h0,Bool.or_eq_true,ExtTreeMap.contains_iff_mem,ExtTreeMap.contains_iff_mem]

theorem containsTransaction_of_find
    (h : s.findTransactions g = some t) : s.containsTransaction g = true := by
  by_cases h0 : g.round = genesisRound
  · unfold findTransactions at h
    unfold containsTransaction
    rw [if_pos h0] at h ⊢
    rw [h]
    rfl
  rw [containsTransaction_iff h0]
  unfold findTransactions at h
  rw [if_neg h0] at h
  split at h
  · next x hx => exact .inl (ExtTreeMap.mem_iff_isSome_getElem?.mpr (by rw [hx]; rfl))
  refine .inr (ExtTreeMap.mem_iff_isSome_getElem?.mpr ?_)
  cases g with
  | transactionRef r =>
    obtain ⟨x,hx,-⟩ := Option.map_eq_some_iff.mp h
    rw [hx]
    rfl
  | blockRef r =>
    unfold Store.readVerifiedTransactions at h
    dsimp only at h
    split at h
    · next header x hh hx =>
      rw [hx]
      rfl
    · cases h

theorem exists_find_of_contains {r : TransactionRef}
    (h : s.containsTransaction (.transactionRef r) = true) :
    ∃ t, s.findTransactions (.transactionRef r) = some t := by
  unfold findTransactions
  split
  · next h0 =>
    unfold containsTransaction at h
    rw [if_pos h0] at h
    exact Option.isSome_iff_exists.mp h
  · next h0 =>
    split
    · next x hx => exact ⟨x,rfl⟩
    · next hn =>
      rcases (containsTransaction_iff h0).mp h with hm | hm
      · rw [ExtTreeMap.mem_iff_isSome_getElem?,hn] at hm
        cases hm
      · obtain ⟨x,hx⟩ := Option.isSome_iff_exists.mp (ExtTreeMap.mem_iff_isSome_getElem?.mp hm)
        exact ⟨_,congrArg (Option.map _) hx⟩

end Lookup
section Updates

theorem transactionPart_addPendingAcknowledgment (s : DagState ctx) (t : TransactionRef)
    (blockDigest : Option Nat) :
    (s.addPendingAcknowledgment t blockDigest).transactionPart = s.transactionPart := by
  unfold addPendingAcknowledgment
  cases blockDigest with
  | some digest => rfl
  | none =>
    cases s.resolveBlockRef t with
    | some r => rfl
    | none => rfl

variable {t : VerifiedTransactions}

theorem transactionPart_updateTransactionMetadata (s : DagState ctx)
    {g : GenericTransactionRef} (hg : t.genericRef ctx = some g) (source : DataSource) :
    (s.updateTransactionMetadata t source).transactionPart =
      { s.transactionPart with
        recent := Function.update s.recentTransactionsByAuthority t.transactionRef.author
          ((s.recentTransactionsByAuthority t.transactionRef.author).insert g t) } := by
  unfold updateTransactionMetadata
  rw [hg]
  dsimp only
  split
  · rw [transactionPart_addPendingAcknowledgment]
    rfl
  · rfl

theorem addTransactions_cases (s : DagState ctx) (t : VerifiedTransactions) (source : DataSource) :
    s.addTransactions t source = s ∨ ∃ g, t.genericRef ctx = some g ∧
      (s.addTransactions t source).transactionPart =
        { s.transactionPart with
          recent := Function.update s.recentTransactionsByAuthority t.transactionRef.author
            ((s.recentTransactionsByAuthority t.transactionRef.author).insert g t)
          toWrite := s.transactionsToWrite ++ [t] } := by
  unfold addTransactions
  cases hg : t.genericRef ctx with
  | none => exact .inl rfl
  | some g =>
    dsimp only
    split
    · exact .inl rfl
    refine .inr ⟨g,rfl,?_⟩
    have hp := transactionPart_updateTransactionMetadata s hg source
    have hb : (s.updateTransactionMetadata t source).transactionsToWrite =
        s.transactionsToWrite := congrArg TransactionPart.toWrite hp
    unfold transactionPart at hp ⊢
    rw [hb,show (s.updateTransactionMetadata t source).recentTransactionsByAuthority = _ from
      congrArg TransactionPart.recent hp,
      show (s.updateTransactionMetadata t source).store.transactions = _ from
      congrArg TransactionPart.stored hp]

variable {recent : Nat → ExtTreeMap GenericTransactionRef VerifiedTransactions}

theorem getElem?_update_insert {a b : Nat} {g x : GenericTransactionRef} :
    (Function.update recent b ((recent b).insert g t) a)[x]? =
      if a = b ∧ g = x then some t else (recent a)[x]? := by
  by_cases hab : a = b
  · subst hab
    rw [Function.update_self,ExtTreeMap.getElem?_insert_eq]
    simp only [true_and]
  · rw [Function.update_of_ne hab,if_neg fun h => hab h.1]

theorem mem_update_insert {a b : Nat} {g x : GenericTransactionRef} :
    x ∈ Function.update recent b ((recent b).insert g t) a ↔ a = b ∧ g = x ∨ x ∈ recent a := by
  rw [ExtTreeMap.mem_iff_isSome_getElem?,getElem?_update_insert,ExtTreeMap.mem_iff_isSome_getElem?]
  split
  · next h => simp [h]
  · next h => simp [h]

theorem TransactionInv.addTransactions (hi : TransactionInv content s)
    (ht : ∀ g, t.genericRef ctx = some g → t.transactions = content g) (source : DataSource) :
    TransactionInv content (s.addTransactions t source) := by
  rcases addTransactions_cases s t source with heq | ⟨g,hg,hp⟩
  · rw [heq]
    exact hi
  refine TransactionInv.congr (s := { s with
    recentTransactionsByAuthority := Function.update s.recentTransactionsByAuthority
      t.transactionRef.author
      ((s.recentTransactionsByAuthority t.transactionRef.author).insert g t)
    transactionsToWrite := s.transactionsToWrite ++ [t] }) ?_ hp
  constructor
  · intro a x y hy
    rw [getElem?_update_insert] at hy
    split at hy
    · next h =>
      cases hy
      exact ⟨h.2 ▸ hg,h.2 ▸ ht g hg⟩
    · exact hi.cached a x y hy
  · intro y hy
    rcases mem_append.mp hy with hy | hy
    · exact hi.buffered y hy
    · rw [mem_singleton.mp hy]
      exact ht
  · exact hi.stored
  intro a x hx
  rcases mem_update_insert.mp hx with ⟨-,rfl⟩ | hx
  · exact .inl ⟨t,mem_append.mpr (.inr (mem_singleton_self t)),hg⟩
  rcases hi.written a x hx with ⟨y,hy,hyg⟩ | hs
  · exact .inl ⟨y,mem_append.mpr (.inl hy),hyg⟩
  · exact .inr hs

theorem TransactionInv.load (hi : TransactionInv content s) {g : GenericTransactionRef}
    (hs : s.store.transactions[g]? = some t) (source : DataSource) :
    TransactionInv content (s.updateTransactionMetadata t source) := by
  obtain ⟨hg,hc⟩ := hi.stored g t hs
  refine TransactionInv.congr (s := { s with
    recentTransactionsByAuthority := Function.update s.recentTransactionsByAuthority
      t.transactionRef.author
      ((s.recentTransactionsByAuthority t.transactionRef.author).insert g t) }) ?_
    (transactionPart_updateTransactionMetadata s hg source)
  constructor
  · intro a x y hy
    rw [getElem?_update_insert] at hy
    split at hy
    · next h =>
      cases hy
      exact ⟨h.2 ▸ hg,h.2 ▸ hc⟩
    · exact hi.cached a x y hy
  · exact hi.buffered
  · exact hi.stored
  intro a x hx
  rcases mem_update_insert.mp hx with ⟨-,rfl⟩ | hx
  · exact .inr (ExtTreeMap.mem_iff_isSome_getElem?.mpr (by rw [hs]; rfl))
  · exact hi.written a x hx

end Updates
section Flush

theorem getElem?_writeTransactions (transactions : List VerifiedTransactions)
    (m : ExtTreeMap GenericTransactionRef VerifiedTransactions) (x : GenericTransactionRef) :
    (transactions.foldl (fun m t => match t.genericRef ctx with
      | some g => m.insert g t
      | none => m) m)[x]? =
      (transactions.reverse.find? fun t => t.genericRef ctx = some x).or m[x]? := by
  induction transactions generalizing m with
  | nil => rfl
  | cons t rest ih =>
    rw [foldl_cons,ih,reverse_cons,List.find?_append,Option.or_assoc]
    congr 1
    cases hg : t.genericRef ctx with
    | none => simp [hg]
    | some g =>
      rw [ExtTreeMap.getElem?_insert_eq]
      by_cases hx : g = x
      · simp [hg,hx]
      · simp [hg,hx]

theorem stored_writeBuffers {g : GenericTransactionRef} {t : VerifiedTransactions}
    (h : s.writeBuffers.store.transactions[g]? = some t) :
    t ∈ s.transactionsToWrite ∧ t.genericRef ctx = some g ∨ s.store.transactions[g]? = some t := by
  rw [show s.writeBuffers.store.transactions[g]? = _ from
    getElem?_writeTransactions s.transactionsToWrite s.store.transactions g] at h
  cases hf : s.transactionsToWrite.reverse.find? fun t => t.genericRef ctx = some g with
  | some x =>
    rw [hf] at h
    cases h
    exact .inl ⟨mem_reverse.mp (mem_of_find?_eq_some hf),by simpa using List.find?_some hf⟩
  | none =>
    rw [hf] at h
    exact .inr h

theorem mem_stored_writeBuffers {g : GenericTransactionRef}
    (h : (∃ t ∈ s.transactionsToWrite, t.genericRef ctx = some g) ∨ g ∈ s.store.transactions) :
    g ∈ s.writeBuffers.store.transactions := by
  rw [ExtTreeMap.mem_iff_isSome_getElem?,show s.writeBuffers.store.transactions[g]? = _ from
    getElem?_writeTransactions s.transactionsToWrite s.store.transactions g]
  cases hf : s.transactionsToWrite.reverse.find? fun t => t.genericRef ctx = some g with
  | some x => rfl
  | none =>
    rcases h with ⟨t,ht,hg⟩ | hm
    · have := List.find?_eq_none.mp hf t (mem_reverse.mpr ht)
      simp [hg] at this
    · exact ExtTreeMap.mem_iff_isSome_getElem?.mp hm

theorem flush_transactions (s : DagState ctx) :
    s.flush.transactionsToWrite = [] ∧
    s.flush.store.transactions = s.writeBuffers.store.transactions ∧
    ∀ (a : Nat) (g : GenericTransactionRef) t,
      (s.flush.recentTransactionsByAuthority a)[g]? = some t →
      (s.recentTransactionsByAuthority a)[g]? = some t := by
  have hs : s.flush.store = s.writeBuffers.store := congrArg CommitPart.store (commitPart_flush s)
  refine ⟨?_,congrArg Store.transactions hs,?_⟩
  · unfold flush
    split
    · next h => exact h.1
    · exact proj_foldl transactionsToWrite (f := evictHeadersOf) (fun _ _ => rfl) _ s.writeBuffers
  intro a g t h
  unfold flush at h
  split at h
  · exact h
  have hr : s.writeBuffers.evictHeaders.recentTransactionsByAuthority =
      s.recentTransactionsByAuthority :=
    proj_foldl recentTransactionsByAuthority (f := evictHeadersOf) (fun _ _ => rfl) _ s.writeBuffers
  have he : (s.writeBuffers.evictHeaders.evictTransactions.recentTransactionsByAuthority
      a)[g]? = some t := h
  unfold evictTransactions at he
  dsimp only at he
  rw [hr] at he
  split at he
  · rw [ExtTreeMap.getElem?_splitOff] at he
    split at he
    · exact he
    · cases he
  · exact he

theorem TransactionInv.flush (hi : TransactionInv content s) : TransactionInv content s.flush := by
  obtain ⟨hb,hs,hr⟩ := flush_transactions s
  constructor
  · exact fun a g t h => hi.cached a g t (hr a g t h)
  · intro t ht
    rw [hb] at ht
    cases ht
  · intro g t h
    rw [hs] at h
    rcases stored_writeBuffers h with ⟨hm,hg⟩ | h
    · exact ⟨hg,hi.buffered t hm g hg⟩
    · exact hi.stored g t h
  intro a g hg
  obtain ⟨t,ht⟩ := Option.isSome_iff_exists.mp (ExtTreeMap.mem_iff_isSome_getElem?.mp hg)
  rw [hs]
  refine .inr (mem_stored_writeBuffers (hi.written a g ?_))
  rw [ExtTreeMap.mem_iff_isSome_getElem?,hr a g t ht]
  rfl

end Flush
section Load

theorem mem_scanTransactionsByAuthor {store : Store} {fast : Bool} {author startRound : Nat}
    {t : VerifiedTransactions} (h : t ∈ store.scanTransactionsByAuthor fast author startRound) :
    ∃ g : GenericTransactionRef, store.transactions[g]? = some t := by
  unfold Store.scanTransactionsByAuthor at h
  split at h
  · obtain ⟨p,hp,rfl⟩ := mem_map.mp h
    exact ⟨p.1,ExtTreeMap.mem_toList_iff_getElem?_eq_some.mp (mem_filter.mp hp).1⟩
  · obtain ⟨x,-,hx⟩ := mem_filterMap.mp h
    exact ⟨_,hx⟩

theorem transactionPart_loadCachedHeaders (s : DagState ctx) (a : Nat) :
    (s.loadCachedHeaders a).transactionPart = s.transactionPart :=
  proj_foldl transactionPart (f := updateBlockHeaderMetadata) (fun _ _ => rfl) _ _

theorem TransactionInv.loadCachedData (hi : TransactionInv content s) (source : DataSource)
    (authorities : List Nat) :
    TransactionInv content (authorities.foldl (loadCachedDataForAuthority source) s) := by
  induction authorities generalizing s with
  | nil => exact hi
  | cons a rest ih =>
    refine ih ?_
    have hp := transactionPart_loadCachedHeaders s a
    have hl : ∀ (transactions : List VerifiedTransactions) (x : DagState ctx),
        TransactionInv content x → x.store.transactions = s.store.transactions →
        (∀ t ∈ transactions, ∃ g : GenericTransactionRef, s.store.transactions[g]? = some t) →
        TransactionInv content
          (transactions.foldl (fun x t => x.updateTransactionMetadata t source) x) := by
      intro transactions
      induction transactions with
      | nil => exact fun x hx _ _ => hx
      | cons t rest ih =>
        intro x hx hs hst
        obtain ⟨g,hg⟩ := hst t mem_cons_self
        rw [← hs] at hg
        refine ih _ (hx.load hg source) ?_ fun y hy => hst y (.tail _ hy)
        rw [← hs]
        exact congrArg TransactionPart.stored
          (transactionPart_updateTransactionMetadata x (hx.stored g t hg).1 source)
    exact hl _ _ (hi.congr hp) (congrArg TransactionPart.stored hp) fun t ht =>
      mem_scanTransactionsByAuthor ht

theorem TransactionInv.reinitializeCaches (hi : TransactionInv content s)
    (hs : s.reinitializeCaches = .ok s') : TransactionInv content s' := by
  have hc : TransactionInv content s.clearCaches := by
    constructor
    · intro a g t h
      simp [clearCaches] at h
    · exact hi.buffered
    · exact hi.stored
    · intro a g h
      simp [clearCaches] at h
  have hl := hc.loadCachedData .fastCommitSyncer (List.range ctx.committee.size)
  unfold DagState.reinitializeCaches rebuildScoringSubdagFromStore at hs
  split at hs
  · cases hs
    exact hl
  obtain ⟨subdags,-,ha⟩ := of_bind hs
  obtain ⟨scoring,-,rfl⟩ := map_eq_ok.mp ha
  exact hl.congr rfl

theorem TransactionInv.new {ownIndex cachedRounds : Nat} {store : Store}
    (hs : ∀ (g : GenericTransactionRef) t, store.transactions[g]? = some t →
      t.genericRef ctx = some g ∧ t.transactions = content g)
    (h : DagState.new ctx ownIndex cachedRounds store = .ok s) : TransactionInv content s := by
  obtain ⟨subdags,h⟩ := ok_of_bind h
  obtain ⟨scoring,h⟩ := ok_of_bind h
  cases h
  apply TransactionInv.loadCachedData
  constructor
  · intro a g t ht
    simp [recovered] at ht
  · intro t ht
    cases ht
  · exact hs
  · intro a g hg
    simp [recovered] at hg

end Load
section Run

def Transacting : DagOp → Prop
  | .addTransactions _ _ | .flush | .reinitializeCaches | .restart => True
  | _ => False

variable {op : DagOp}

theorem transactionPart_exec (hop : ¬Transacting op) (hs : s.exec op = .ok s') :
    s'.transactionPart = s.transactionPart := by
  cases op with
  | acceptBlockHeader h =>
    rcases acceptBlockHeader_cases hs with rfl | ⟨-,rfl⟩
    · rfl
    · rfl
  | addCommit c =>
    rcases addCommit_cases hs with ⟨rfl,-⟩ | ⟨-,-,rfl⟩
    · rfl
    · rfl
  | addScoringSubdags subdags =>
    obtain ⟨scoring,-,rfl⟩ := map_eq_ok.mp hs
    rfl
  | persistScores scores =>
    obtain ⟨last,-,rfl⟩ := addCommitInfo_cases hs
    rfl
  | takeAcknowledgments limit =>
    cases hs
    unfold takeAcknowledgments
    dsimp only
    split
    · rfl
    · rfl
  | updateLastSolidSubdagBase base =>
    cases hs
    rfl
  | updatePendingCommitVotes refs =>
    cases hs
    rfl
  | takeCommitVotes limit =>
    cases hs
    rfl
  | setFastSyncOngoingFlag flag =>
    cases hs
    rfl
  | addTransactions t source => exact absurd trivial hop
  | flush => exact absurd trivial hop
  | reinitializeCaches => exact absurd trivial hop
  | restart => exact absurd trivial hop

/-- The contents of added transactions are those of their reference. -/
def Contents (content : GenericTransactionRef → List Nat) (ctx : Context) : DagOp → Prop
  | .addTransactions t _ => ∀ g, t.genericRef ctx = some g → t.transactions = content g
  | _ => True

theorem TransactionInv.exec (hi : TransactionInv content s)
    (hop : Contents content ctx op) (hs : s.exec op = .ok s') : TransactionInv content s' := by
  cases op with
  | addTransactions t source =>
    cases hs
    exact hi.addTransactions hop source
  | flush =>
    cases hs
    exact hi.flush
  | reinitializeCaches => exact hi.reinitializeCaches hs
  | restart => exact .new hi.stored hs
  | _ => exact hi.congr (transactionPart_exec id hs)

theorem store_reinitializeCaches (hs : s.reinitializeCaches = .ok s') : s'.store = s.store :=
  congrArg CommitPart.store (commitPart_reinitializeCaches hs)

theorem TransactionInv.contains_exec (hi : TransactionInv content s)
    (hrs : op ≠ .restart) (hr : op = .reinitializeCaches → s.transactionsToWrite = [])
    (hs : s.exec op = .ok s') {g : GenericTransactionRef} (hg : s.containsTransaction g = true) :
    s'.containsTransaction g = true := by
  by_cases h0 : g.round = genesisRound
  · unfold containsTransaction at hg ⊢
    rw [if_pos h0] at hg ⊢
    exact hg
  rw [containsTransaction_iff h0] at hg ⊢
  have hk : s'.transactionPart = s.transactionPart →
      g ∈ s'.recentTransactionsByAuthority g.author ∨ g ∈ s'.store.transactions := by
    intro hp
    rw [show s'.recentTransactionsByAuthority = s.recentTransactionsByAuthority from
      congrArg TransactionPart.recent hp,show s'.store.transactions = s.store.transactions from
      congrArg TransactionPart.stored hp]
    exact hg
  cases op with
  | addTransactions t source =>
    cases hs
    rcases addTransactions_cases s t source with heq | ⟨x,-,hp⟩
    · rw [heq]
      exact hg
    rw [show (s.addTransactions t source).recentTransactionsByAuthority = _ from
      congrArg TransactionPart.recent hp,
      show (s.addTransactions t source).store.transactions = s.store.transactions from
      congrArg TransactionPart.stored hp]
    exact hg.imp_left fun h => mem_update_insert.mpr (.inr h)
  | flush =>
    cases hs
    rw [(flush_transactions s).2.1]
    exact .inr (mem_stored_writeBuffers (hg.elim (hi.written _ _) .inr))
  | reinitializeCaches =>
    rw [store_reinitializeCaches hs]
    refine .inr (hg.elim (fun hc => ?_) id)
    rcases hi.written _ _ hc with ⟨t,ht,-⟩ | hst
    · rw [hr rfl] at ht
      cases ht
    · exact hst
  | restart => exact absurd rfl hrs
  | _ => exact hk (transactionPart_exec id hs)

/-- A change that a running node makes: transactions have the contents of their references, and the
caches are reloaded with an empty buffer. -/
def Lasting (content : GenericTransactionRef → List Nat) (s : DagState ctx) (op : DagOp) : Prop :=
  op ≠ .restart ∧ (op = .reinitializeCaches → s.transactionsToWrite = []) ∧
    Contents content ctx op

/-- States that a running node passes through one after the other. -/
def Extends (content : GenericTransactionRef → List Nat) : DagState ctx → DagState ctx → Prop :=
  Relation.ReflTransGen fun s s' => ∃ op, Lasting content s op ∧ s.exec op = .ok s'

theorem Extends.refl (content : GenericTransactionRef → List Nat) (s : DagState ctx) :
    Extends content s s := Relation.ReflTransGen.refl

theorem Extends.trans {s1 s2 s3 : DagState ctx} (h1 : Extends content s1 s2)
    (h2 : Extends content s2 s3) : Extends content s1 s3 := Relation.ReflTransGen.trans h1 h2

theorem Extends.single (hop : Lasting content s op) (hs : s.exec op = .ok s') :
    Extends content s s' := Relation.ReflTransGen.single ⟨op,hop,hs⟩

variable {c : TrustedCommit}
section
variable (h : Extends content s s')

include h

theorem Extends.commitLog (hl : CommitLog s) : CommitLog s' := by
  induction h with
  | refl => exact hl
  | tail _ hst ih =>
    obtain ⟨op,-,hs⟩ := hst
    exact ih.exec hs

theorem Extends.transactionInv (hi : TransactionInv content s) : TransactionInv content s' := by
  induction h with
  | refl => exact hi
  | tail _ hst ih =>
    obtain ⟨op,hop,hs⟩ := hst
    exact ih.exec hop.2.2 hs

theorem Extends.logged (hl : CommitLog s) (hc : s.Logged c) : s'.Logged c := by
  induction h with
  | refl => exact hc
  | tail hr hst ih =>
    obtain ⟨op,hop,hs⟩ := hst
    exact (Extends.commitLog hr hl).logged_exec hop.1 hs ih

theorem Extends.contains (hi : TransactionInv content s)
    {g : GenericTransactionRef} (hg : s.containsTransaction g = true) :
    s'.containsTransaction g = true := by
  induction h with
  | refl => exact hg
  | tail hr hst ih =>
    obtain ⟨op,hop,hs⟩ := hst
    exact (Extends.transactionInv hr hi).contains_exec hop.1 hop.2.1 hs ih

theorem Extends.logged_of_le (hl : CommitLog s)
    (hc : s'.Logged c) (hle : c.index ≤ s.lastCommitIndex) : s.Logged c := by
  have hl' := h.commitLog hl
  obtain ⟨x,hx,hi⟩ := hl.exists_index (hl'.index_pos hc) hle
  rw [hl'.index_inj hc (h.logged hl hx) hi.symm]
  exact hx

end

structure Uncommitting (content : GenericTransactionRef → List Nat) (s s' : DagState ctx) :
    Prop where
  extended : Extends content s s'
  lastCommit : s'.lastCommit = s.lastCommit
  flushed : s.commitsToWrite = [] → s'.commitsToWrite = []

theorem Uncommitting.refl (content : GenericTransactionRef → List Nat) (s : DagState ctx) :
    Uncommitting content s s := ⟨.refl content s,rfl,id⟩

theorem Uncommitting.trans {s1 s2 s3 : DagState ctx} (h : Uncommitting content s1 s2)
    (h' : Uncommitting content s2 s3) : Uncommitting content s1 s3 where
  extended := h.extended.trans h'.extended
  lastCommit := h'.lastCommit.trans h.lastCommit
  flushed he := h'.flushed (h.flushed he)

theorem Uncommitting.lastCommitIndex (h : Uncommitting content s s') :
    s'.lastCommitIndex = s.lastCommitIndex := by
  unfold DagState.lastCommitIndex
  rw [h.lastCommit]

theorem Uncommitting.logged (h : Uncommitting content s s') (hl : CommitLog s) :
    s'.Logged c ↔ s.Logged c := by
  refine ⟨fun hc => h.extended.logged_of_le hl hc ?_,h.extended.logged hl⟩
  rw [← h.lastCommitIndex]
  exact (h.extended.commitLog hl).index_le_last hc

end Run
end DagState
end Iota.Starfish
