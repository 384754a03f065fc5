import Iota.ExecutionCache.ObjectLocks

/-! The entries of the map are held by the calls in progress: each entry is counted at least as
often as it is held, and agrees with the table. So an object reference that is locked in the table
stays locked by the same transaction. -/
namespace Iota.ExecutionCache
open Except Function List

/-- What a call has established: it holds its own lock on each input it is through with, and has
locked all inputs in the table once it succeeds. -/
def Call.Ok (table : ObjectRef → Option LockDetails) (c : Call) : Prop :=
  match c.phase with
  | .locking todo locks => (∀ e ∈ locks, e.2 = c.transaction.digest) ∧
      ∀ o ∈ c.transaction.ownedInputObjects, o ∈ todo ∨ (o,c.transaction.digest) ∈ locks
  | .writing locks => (∀ e ∈ locks, e.2 = c.transaction.digest) ∧
      ∀ o ∈ c.transaction.ownedInputObjects, (o,c.transaction.digest) ∈ locks
  | .clearing _ result | .returned result => result = .ok () →
      ∀ o ∈ c.transaction.ownedInputObjects, table o = some c.transaction.digest

namespace LockState

/-- The map counts the holders of each entry, at least, and all of them hold its lock. -/
def Covers (locked : ObjectRef → Option (Nat × LockDetails))
    (held : List (ObjectRef × LockDetails)) : Prop :=
  ∀ o, held.countP (fun e => e.1 = o) ≤ (locked o).elim 0 Prod.fst ∧
    ∀ e ∈ held, e.1 = o → (locked o).map Prod.snd = some e.2

def Agrees (locked : ObjectRef → Option (Nat × LockDetails))
    (table : ObjectRef → Option LockDetails) : Prop :=
  ∀ o n lock, locked o = some (n,lock) → ∀ lock', table o = some lock' → lock' = lock

def Extends (table table' : ObjectRef → Option LockDetails) : Prop :=
  ∀ o lock, table o = some lock → table' o = some lock

variable {o : ObjectRef} {lock : LockDetails}
section Covers
variable {locked : ObjectRef → Option (Nat × LockDetails)}
  {held held' : List (ObjectRef × LockDetails)} {table : ObjectRef → Option LockDetails}

theorem Covers.perm (h : Covers locked held) (hp : held'.Perm held) : Covers locked held' := by
  intro o
  obtain ⟨hc,hl⟩ := h o
  rw [hp.countP_eq]
  exact ⟨hc,fun e he => hl e (hp.mem_iff.mp he)⟩

theorem Covers.sublist (h : Covers locked held) (hs : held'.Sublist held) :
    Covers locked held' := by
  intro o
  obtain ⟨hc,hl⟩ := h o
  exact ⟨hs.countP_le.trans hc,fun e he => hl e (hs.subset he)⟩

theorem covers_none : Covers (fun _ => none) [] := by
  intro o
  simp

theorem Covers.set {n : Nat} (h : Covers locked held)
    (hc : (locked o).elim 0 Prod.fst ≤ n) (hl : ∀ e, locked o = some e → e.2 = lock) :
    Covers (update locked o (some (n+1,lock))) ((o,lock) :: held) := by
  intro o'
  obtain ⟨hc',hl'⟩ := h o'
  by_cases heq : o = o'
  · subst heq
    rw [update_self,countP_cons_of_pos (by simp)]
    refine ⟨Nat.succ_le_succ (hc'.trans hc),?_⟩
    intro e he heo
    obtain rfl | he := mem_cons.mp he
    · rfl
    obtain ⟨entry,hen,hs⟩ := Option.map_eq_some_iff.mp (hl' e he heo)
    rw [← hs,hl entry hen]
    rfl
  · rw [update_of_ne (Ne.symm heq),countP_cons_of_neg (by simpa using heq)]
    refine ⟨hc',?_⟩
    intro e he heo
    obtain rfl | he := mem_cons.mp he
    · exact absurd heo heq
    · exact hl' e he heo

theorem Covers.clear (h : Covers locked ((o,lock) :: held)) :
    ∃ n, locked o = some (n,lock) ∧
      Covers (update locked o (if n - 1 = 0 then none else some (n - 1,lock))) held := by
  obtain ⟨hc,hl⟩ := h o
  obtain ⟨⟨n,lock'⟩,hen,rfl⟩ := Option.map_eq_some_iff.mp (hl (o,lock) mem_cons_self rfl)
  rw [hen,countP_cons_of_pos (by simp),Option.elim_some] at hc
  refine ⟨n,hen,?_⟩
  intro o'
  by_cases heq : o = o'
  · subst heq
    rw [update_self]
    have ho : ∀ e ∈ held, e.1 = o → e.2 = lock' := by
      intro e he heo
      have := hl e (.tail _ he) heo
      rw [hen] at this
      exact (Option.some.inj this).symm
    split
    · next hn =>
      have hz : held.countP (fun e => e.1 = o) = 0 := by omega
      rw [hz]
      refine ⟨Nat.zero_le _,?_⟩
      intro e he heo
      exact absurd heo (by simpa using countP_eq_zero.mp hz e he)
    refine ⟨by simpa using Nat.le_sub_one_of_lt hc,?_⟩
    intro e he heo
    rw [ho e he heo]
    rfl
  · obtain ⟨hc',hl'⟩ := h o'
    rw [countP_cons_of_neg (by simpa using heq)] at hc'
    rw [update_of_ne (Ne.symm heq)]
    exact ⟨hc',fun e he => hl' e (.tail _ he)⟩

theorem Agrees.update {entry : Option (Nat × LockDetails)} (h : Agrees locked table)
    (he : ∀ e, entry = some e → ∀ lock, table o = some lock → lock = e.2) :
    Agrees (update locked o entry) table := by
  intro o' n lock hg lock' ht
  by_cases heq : o = o'
  · subst heq
    rw [update_self] at hg
    exact he _ hg lock' ht
  · rw [update_of_ne (Ne.symm heq)] at hg
    exact h o' n lock hg lock' ht

theorem agrees_none : Agrees (fun _ => none) table := nofun

end Covers

section Step
variable {s s' : LockState} {held : List (ObjectRef × LockDetails)}

theorem trySetTransactionLock_spec (hc : Covers s.lockedTransactions held)
    (ha : Agrees s.lockedTransactions s.ownedObjectLockedTransactions)
    (o : ObjectRef) (newLock : LockDetails) (db : Storage) :
    ∃ result locked,
      s.trySetTransactionLock o newLock db = (result,{ s with lockedTransactions := locked }) ∧
      Agrees locked s.ownedObjectLockedTransactions ∧ Covers locked held ∧
      (result = .ok () → Covers locked ((o,newLock) :: held)) := by
  have hs : ∀ n lock, (s.lockedTransactions o).elim 0 Prod.fst ≤ n →
      (∀ e, s.lockedTransactions o = some e → e.2 = lock) →
      (∀ lock', s.ownedObjectLockedTransactions o = some lock' → lock' = lock) →
      let locked := update s.lockedTransactions o (some (n+1,lock))
      Agrees locked s.ownedObjectLockedTransactions ∧ Covers locked held ∧
        ((if lock ≠ newLock then .error (.objectLockConflict o lock) else .ok () :
          Except LockError Unit) = .ok () → Covers locked ((o,newLock) :: held)) := by
    intro n lock hcn hl ht locked
    have hc' : Covers locked ((o,lock) :: held) := hc.set hcn hl
    refine ⟨ha.update ?_,hc'.sublist (sublist_cons_self _ _),?_⟩
    · intro e he
      cases he
      exact ht
    intro hok
    split at hok
    · cases hok
    · next heq =>
      rw [not_not.mp heq] at hc'
      exact hc'
  unfold trySetTransactionLock
  cases hen : s.lockedTransactions o with
  | none =>
    rw [hen] at hs
    dsimp only
    by_cases hdb : db = .ok
    · rw [if_neg (not_ne_iff.mpr hdb)]
      cases ht : s.ownedObjectLockedTransactions o with
      | none =>
        rw [ht] at hs
        exact ⟨_,_,rfl,hs 0 newLock (Nat.le_refl 0) nofun nofun⟩
      | some lock =>
        rw [ht] at hs
        exact ⟨_,_,rfl,hs 0 lock (Nat.le_refl 0) nofun fun _ h => (Option.some.inj h).symm⟩
    · rw [if_pos hdb]
      exact ⟨_,s.lockedTransactions,rfl,ha,hc,nofun⟩
  | some entry =>
    obtain ⟨n,lock⟩ := entry
    refine ⟨_,_,rfl,hs n lock ?_ ?_ ?_⟩
    · rw [hen]
      exact Nat.le_refl n
    · intro e he
      rw [hen] at he
      cases he
      rfl
    · exact ha o n lock hen

theorem clearCachedLock_spec (hc : Covers s.lockedTransactions ((o,lock) :: held))
    (ha : Agrees s.lockedTransactions s.ownedObjectLockedTransactions) :
    ∃ locked, s.clearCachedLock o lock = .ok { s with lockedTransactions := locked } ∧
      Agrees locked s.ownedObjectLockedTransactions ∧ Covers locked held := by
  obtain ⟨n,hen,hc'⟩ := hc.clear
  refine ⟨_,?_,ha.update ?_,hc'⟩
  · unfold clearCachedLock
    rw [hen]
    exact if_pos rfl
  intro e he
  split at he
  · cases he
  · cases he
    exact ha o n lock hen

variable {locks : List (ObjectRef × LockDetails)}

theorem foldl_update_apply
    (hl : ∀ e ∈ locks, e.2 = lock) (table : ObjectRef → Option LockDetails) (o : ObjectRef) :
    (locks.foldl (fun (table : ObjectRef → Option LockDetails) e =>
        update table e.1 (some e.2)) table) o =
      if o ∈ locks.map Prod.fst then some lock else table o := by
  induction locks generalizing table with
  | nil => simp
  | cons e locks ih =>
    rw [foldl_cons,ih (fun e he => hl e (.tail _ he)),hl e mem_cons_self]
    by_cases hm : o ∈ locks.map Prod.fst
    · simp [hm]
    by_cases heq : o = e.1
    · simp [heq]
    · simp [hm,heq]

theorem writeTransactionLocks_spec {tx : SignedTransaction} (hlc : ∀ e ∈ locks, e.2 = tx.digest)
    (hc : Covers s.lockedTransactions (locks ++ held))
    (hag : Agrees s.lockedTransactions s.ownedObjectLockedTransactions)
    (hs : s' = s.writeTransactionLocks tx locks) :
    Extends s.ownedObjectLockedTransactions s'.ownedObjectLockedTransactions ∧
      (∀ o, (o,tx.digest) ∈ locks → s'.ownedObjectLockedTransactions o = some tx.digest) ∧
      Agrees s.lockedTransactions s'.ownedObjectLockedTransactions := by
  subst hs
  have ha := foldl_update_apply hlc s.ownedObjectLockedTransactions
  -- an entry that is held has the lock that is written
  have hen : ∀ o ∈ locks.map Prod.fst, ∃ n, s.lockedTransactions o = some (n,tx.digest) := by
    intro o ho
    obtain ⟨e,he,rfl⟩ := mem_map.mp ho
    have hl := (hc e.1).2 e (mem_append_left _ he) rfl
    obtain ⟨⟨n,lock⟩,hg,hsn⟩ := Option.map_eq_some_iff.mp hl
    rw [hlc e he] at hsn
    exact ⟨n,hg.trans (congrArg (fun l => some (n,l)) hsn)⟩
  refine ⟨?_,?_,?_⟩
  · intro o lock hl
    refine (ha o).trans ?_
    split
    · next ho =>
      obtain ⟨n,hg⟩ := hen o ho
      rw [hag o n tx.digest hg lock hl]
    · exact hl
  · intro o ho
    exact (ha o).trans (if_pos (mem_map_of_mem ho))
  intro o n lock hg lock' ht
  have ht := (ha o).symm.trans ht
  split at ht
  · next ho =>
    obtain ⟨m,hg'⟩ := hen o ho
    rw [hg] at hg'
    cases hg'
    exact (Option.some.inj ht).symm
  · exact hag o n lock hg lock' ht

theorem Extends.refl (table : ObjectRef → Option LockDetails) : Extends table table :=
  fun _ _ h => h

theorem Call.Ok.mono {table table' : ObjectRef → Option LockDetails} {c : Call} (h : c.Ok table)
    (he : Extends table table') : c.Ok table' := by
  unfold Call.Ok at h ⊢
  split at h
  · exact h
  · exact h
  · exact fun hok o ho => he o _ (h hok o ho)
  · exact fun hok o ho => he o _ (h hok o ho)

/-- The transactions that a step records as signed have all their inputs locked. -/
def Records (s s' : LockState) (tx : SignedTransaction) : Prop :=
  s'.signedTransactions = s.signedTransactions ∨
    (s'.signedTransactions = update s.signedTransactions tx.digest (some tx) ∧
      ∀ o ∈ tx.ownedInputObjects, s'.ownedObjectLockedTransactions o = some tx.digest)

/-- What a step of a call does, while other calls hold some locks. -/
structure Advances (others : List (ObjectRef × LockDetails)) (s : LockState) (c : Call)
    (s' : LockState) (c' : Call) : Prop where
  transaction : c'.transaction = c.transaction
  calls : s'.calls = s.calls
  covers : Covers s'.lockedTransactions (c'.held ++ others)
  agrees : Agrees s'.lockedTransactions s'.ownedObjectLockedTransactions
  tables : Extends s.ownedObjectLockedTransactions s'.ownedObjectLockedTransactions
  ok : c'.Ok s'.ownedObjectLockedTransactions
  records : Records s s' c.transaction

theorem advances_write {others locks : List (ObjectRef × LockDetails)} {tx : SignedTransaction}
    (hc : Covers s.lockedTransactions (locks ++ others))
    (hag : Agrees s.lockedTransactions s.ownedObjectLockedTransactions)
    (hok : Call.Ok s.ownedObjectLockedTransactions ⟨tx,.writing locks⟩) {phase : Phase}
    (hh : (Call.mk tx phase).held.Sublist locks)
    (hp : (∃ todo result, phase = .clearing todo result) ∨ ∃ result, phase = .returned result) :
    Advances others s ⟨tx,.writing locks⟩ (s.writeTransactionLocks tx locks) ⟨tx,phase⟩ := by
  obtain ⟨he,hw,ha'⟩ := writeTransactionLocks_spec hok.1 hc hag rfl
  have ha : ∀ o ∈ tx.ownedInputObjects,
      (s.writeTransactionLocks tx locks).ownedObjectLockedTransactions o = some tx.digest :=
    fun o ho => hw o (hok.2 o ho)
  refine ⟨rfl,rfl,hc.sublist (hh.append_right _),ha',he,?_,.inr ⟨rfl,ha⟩⟩
  obtain ⟨todo,result,rfl⟩ | ⟨result,rfl⟩ := hp
  · exact fun _ => ha
  · exact fun _ => ha

theorem advance_spec {others : List (ObjectRef × LockDetails)} {c : Call}
    (hc : Covers s.lockedTransactions (c.held ++ others))
    (ha : Agrees s.lockedTransactions s.ownedObjectLockedTransactions)
    (hok : c.Ok s.ownedObjectLockedTransactions) (db : Storage) :
    ∃ phase s', s.advance c.transaction db c.phase = .ok (phase,s') ∧
      Advances others s c s' { c with phase := phase } := by
  obtain ⟨tx,phase⟩ := c
  cases phase with
  | locking todo locks =>
    cases todo with
    | nil =>
      refine ⟨_,_,rfl,rfl,rfl,hc,ha,.refl _,⟨hok.1,?_⟩,.inl rfl⟩
      intro o ho
      exact (hok.2 o ho).resolve_left not_mem_nil
    | cons o todo =>
      obtain ⟨result,locked,hs,ha',hc',hn⟩ := trySetTransactionLock_spec hc ha o tx.digest db
      cases result with
      | ok =>
        refine ⟨.locking todo (locks ++ [(o,tx.digest)]),{ s with lockedTransactions := locked },
          ?_,rfl,rfl,?_,ha',.refl _,⟨?_,?_⟩,.inl rfl⟩
        · simp only [advance,hs]
        · refine (hn rfl).perm ?_
          exact (perm_append_singleton _ _).append_right _
        · intro e he
          obtain he | he := mem_append.mp he
          · exact hok.1 e he
          · rw [mem_singleton.mp he]
        intro o' ho'
        obtain hm | hm := hok.2 o' ho'
        · obtain rfl | hm := mem_cons.mp hm
          · exact .inr (mem_append_right _ mem_cons_self)
          · exact .inl hm
        · exact .inr (mem_append_left _ hm)
      | error e =>
        refine ⟨.clearing locks (.error e),{ s with lockedTransactions := locked },?_,rfl,rfl,
          hc',ha',.refl _,nofun,.inl rfl⟩
        simp only [advance,hs]
  | writing locks =>
    cases db with
    | ok => exact ⟨_,_,rfl,advances_write hc ha hok (.refl _) (.inl ⟨_,_,rfl⟩)⟩
    | failed persisted =>
      cases persisted with
      | true =>
        exact ⟨_,_,rfl,advances_write hc ha hok (nil_sublist _) (.inr ⟨_,rfl⟩)⟩
      | false =>
        exact ⟨_,_,rfl,rfl,rfl,hc.sublist (sublist_append_right _ _),ha, .refl _,nofun,.inl rfl⟩
  | clearing todo result =>
    cases todo with
    | nil => exact ⟨_,_,rfl,rfl,rfl,hc,ha,.refl _,hok,.inl rfl⟩
    | cons e todo =>
      obtain ⟨locked,hcl,ha',hc'⟩ := clearCachedLock_spec hc ha
      refine ⟨.clearing todo result,{ s with lockedTransactions := locked },?_,rfl,rfl,
        hc',ha',.refl _,hok,.inl rfl⟩
      simp only [advance,hcl,ok_bind]
  | returned result => exact ⟨_,_,rfl,rfl,rfl,hc,ha,.refl _,hok,.inl rfl⟩

end Step

section Run
variable {s s' : LockState}

structure Safe (s : LockState) : Prop where
  covers : Covers s.lockedTransactions (s.calls.flatMap Call.held)
  agrees : Agrees s.lockedTransactions s.ownedObjectLockedTransactions
  calls : ∀ c ∈ s.calls, c.Ok s.ownedObjectLockedTransactions
  signed : ∀ d tx, s.signedTransactions d = some tx →
    ∀ o ∈ tx.ownedInputObjects, s.ownedObjectLockedTransactions o = some tx.digest

theorem Safe.of_initial (h : Initial s) : Safe s := by
  obtain ⟨hl,-,hs,hc⟩ := h
  refine ⟨?_,?_,?_,?_⟩
  · rw [hc,funext hl]
    exact covers_none
  · rw [funext hl]
    exact agrees_none
  · rw [hc]
    nofun
  intro d tx hg
  rw [hs d] at hg
  cases hg

theorem mem_of_checkedInputs {cache : ObjectID → Option LiveObject} {owned todo : List ObjectRef}
    (h : checkedInputs cache owned = .ok todo) (ho : o ∈ owned) : o ∈ todo := by
  obtain ⟨liveObjects,h⟩ := ok_of_bind h
  obtain ⟨-,-,h⟩ := of_bind h
  cases h
  exact (mem_insertionSort _).mpr ho

section Held
variable {calls : List Call} {c : Call} {i : Nat}

theorem held_call (h : c.held = []) :
    (calls ++ [c]).flatMap Call.held = calls.flatMap Call.held := by
  simp [h]

theorem held_perm (hc : calls[i]? = some c) :
    (calls.flatMap Call.held).Perm (c.held ++ (calls.eraseIdx i).flatMap Call.held) := by
  obtain ⟨hi,rfl⟩ := List.getElem?_eq_some_iff.mp hc
  rw [← flatMap_cons]
  exact (getElem_cons_eraseIdx_perm hi).symm.flatMap_right _

theorem held_set_perm (hc : calls[i]? = some c) (c' : Call) :
    ((calls.set i c').flatMap Call.held).Perm
      (c'.held ++ (calls.eraseIdx i).flatMap Call.held) := by
  obtain ⟨hi,-⟩ := List.getElem?_eq_some_iff.mp hc
  exact (set_perm_cons_eraseIdx hi _).flatMap_right _

theorem held_of_returned (h : ∀ c ∈ calls, ∃ result, c.phase = .returned result) :
    calls.flatMap Call.held = [] := by
  rw [flatMap_eq_nil_iff]
  intro c hc
  obtain ⟨result,hp⟩ := h c hc
  rw [Call.held,hp]

end Held

theorem Safe.call (h : Safe s) (tx : SignedTransaction) (cache : ObjectID → Option LiveObject) :
    ∃ s', s.exec (.call tx cache) = .ok s' ∧ Safe s' ∧
      Extends s.ownedObjectLockedTransactions s'.ownedObjectLockedTransactions := by
  have hn : ∀ phase, (Call.mk tx phase).held = [] →
      (Call.mk tx phase).Ok s.ownedObjectLockedTransactions →
      Safe { s with calls := s.calls ++ [⟨tx,phase⟩] } := by
    intro phase hh hok
    refine ⟨?_,h.agrees,?_,h.signed⟩
    · rw [held_call hh]
      exact h.covers
    intro c hc
    obtain hc | hc := mem_append.mp hc
    · exact h.calls c hc
    · rw [mem_singleton.mp hc]
      exact hok
  refine ⟨_,rfl,hn _ ?_ ?_,.refl _⟩
  · split <;> rfl
  split
  · next todo hi => exact ⟨nofun,fun o ho => .inl (mem_of_checkedInputs hi ho)⟩
  · nofun

theorem Safe.advance (h : Safe s) (i : Nat) (db : Storage) :
    ∃ s', s.exec (.advance i db) = .ok s' ∧ Safe s' ∧
      Extends s.ownedObjectLockedTransactions s'.ownedObjectLockedTransactions := by
  cases hc : s.calls[i]? with
  | none =>
    refine ⟨s,?_,h,.refl _⟩
    simp only [exec,hc]
  | some c =>
    obtain ⟨phase,s1,ha,hs⟩ := advance_spec (h.covers.perm (held_perm hc).symm)
      h.agrees (h.calls c (mem_of_getElem? hc)) db
    refine ⟨{ s1 with calls := s1.calls.set i { c with phase := phase } },?_,⟨?_,hs.agrees,
      ?_,?_⟩,hs.tables⟩
    · simp only [exec,hc,ha,ok_bind]
    · rw [hs.calls]
      exact hs.covers.perm (held_set_perm hc _)
    · intro c' hc'
      rw [hs.calls] at hc'
      obtain hc' | rfl := mem_or_eq_of_mem_set hc'
      · exact Call.Ok.mono (h.calls c' hc') hs.tables
      · exact hs.ok
    intro d tx htx o ho
    obtain hsm | ⟨hn,hal⟩ := hs.records
    · rw [hsm] at htx
      exact hs.tables o _ (h.signed d tx htx o ho)
    rw [hn] at htx
    by_cases hd : d = c.transaction.digest
    · rw [hd,update_self] at htx
      cases htx
      exact hal o ho
    · rw [update_of_ne hd] at htx
      exact hs.tables o _ (h.signed d tx htx o ho)

theorem Safe.exec (h : Safe s) {e : Event} (ha : Allowed s e) :
    ∃ s', s.exec e = .ok s' ∧ Safe s' ∧
      Extends s.ownedObjectLockedTransactions s'.ownedObjectLockedTransactions := by
  cases e with
  | call tx cache => exact h.call tx cache
  | advance i db => exact h.advance i db
  | clear =>
    refine ⟨_,rfl,⟨?_,agrees_none,h.calls,h.signed⟩,.refl _⟩
    rw [held_of_returned ha]
    exact covers_none
  | crash => exact ⟨_,rfl,⟨covers_none,agrees_none,nofun,h.signed⟩,.refl _⟩

theorem safe_of_reached (hs : Machine.Reached Initial LockState.exec Allowed s) : Safe s := by
  refine hs.invariant (fun s => .of_initial) ?_
  intro s e s' hsf ha he
  obtain ⟨s1,he1,hs1,-⟩ := hsf.exec ha
  cases he.symm.trans he1
  exact hs1

theorem Safe.later (h : Safe s) (hs : Machine.Reached (· = s) LockState.exec Allowed s') :
    Safe s' ∧ Extends s.ownedObjectLockedTransactions s'.ownedObjectLockedTransactions := by
  induction hs with
  | init hi =>
    cases hi
    exact ⟨h,.refl _⟩
  | step _ ha he ih =>
    obtain ⟨s1,he1,hs1,hex1⟩ := ih.1.exec ha
    cases he.symm.trans he1
    exact ⟨hs1,fun o lock ho => hex1 o lock (ih.2 o lock ho)⟩

/-- In every run of an epoch, with calls in any interleaving, failures at any step and crashes: no
step panics; an object reference that is locked in the table is never locked by another transaction
later; a call that succeeds has locked all its inputs; and two transactions recorded as signed, now
or later, share no input unless they are the same. -/
theorem locks_exclusive (hs : Machine.Reached Initial LockState.exec Allowed s) :
    (∀ e, Allowed s e → ∃ s', s.exec e = .ok s') ∧
    (∀ c ∈ s.calls, c.phase = .returned (.ok ()) → ∀ o ∈ c.transaction.ownedInputObjects,
      s.ownedObjectLockedTransactions o = some c.transaction.digest) ∧
    ∀ s', Machine.Reached (· = s) LockState.exec Allowed s' →
      (∀ o lock lock', s.ownedObjectLockedTransactions o = some lock →
        s'.ownedObjectLockedTransactions o = some lock' → lock' = lock) ∧
      ∀ d tx d' tx', s.signedTransactions d = some tx → s'.signedTransactions d' = some tx' →
        (∃ o ∈ tx.ownedInputObjects, o ∈ tx'.ownedInputObjects) → tx'.digest = tx.digest := by
  have hsf := safe_of_reached hs
  refine ⟨?_,?_,?_⟩
  · intro e ha
    obtain ⟨s',hex,-⟩ := hsf.exec ha
    exact ⟨s',hex⟩
  · intro c hc hp
    have hok := hsf.calls c hc
    rw [Call.Ok,hp] at hok
    exact hok rfl
  intro s' hs'
  obtain ⟨hsf',he⟩ := hsf.later hs'
  constructor
  · intro o lock lock' hl hl'
    rw [he o lock hl] at hl'
    exact (Option.some.inj hl').symm
  intro d tx d' tx' htx htx' ⟨o,ho,ho'⟩
  have hl := he o _ (hsf.signed d tx htx o ho)
  rw [hsf'.signed d' tx' htx' o ho'] at hl
  exact Option.some.inj hl

/-- Two transactions for one object: the first takes both its locks and writes them while the second
fails. -/
def contended : List Event :=
  let cache : ObjectID → Option LiveObject := fun _ => some ⟨1,0⟩
  [.call ⟨1,[⟨5,1,0⟩,⟨4,1,0⟩]⟩ cache,.call ⟨2,[⟨5,1,0⟩]⟩ cache] ++
    [0,0,1,0,0,1,0,1,0,0].map fun i => .advance i .ok

theorem locks_exclusive_contended : ∃ s : LockState,
    s.ownedObjectLockedTransactions ⟨5,1,0⟩ = some 1 ∧
    ∀ s', Machine.Reached (· = s) LockState.exec Allowed s' → ∀ lock,
      s'.ownedObjectLockedTransactions ⟨5,1,0⟩ = some lock → lock = 1 := by
  let start : LockState := ⟨fun _ => none,fun _ => none,fun _ => none,[]⟩
  obtain ⟨s,hrn,hl⟩ : ∃ s, contended.foldlM LockState.exec start = .ok s ∧
      s.ownedObjectLockedTransactions ⟨5,1,0⟩ = some 1 := by decide +kernel
  have ha : ∀ e ∈ contended, ∀ s, Allowed s e := by
    simp [contended,Allowed]
  have hr : Machine.Reached Initial LockState.exec Allowed s :=
    .foldlM ha (.init ⟨fun _ => rfl,fun _ => rfl,fun _ => rfl,rfl⟩) hrn
  refine ⟨s,hl,?_⟩
  intro s' hs' lock
  exact ((locks_exclusive hr).2.2 s' hs').1 _ 1 lock hl

end Run
end LockState
end Iota.ExecutionCache
