import Iota.ExecutionCache.ObjectLocks.Exclusive

/-! A call that meets the lock of another transaction counts the entry of that lock and never gives
it back, and so does a call whose batch is not written. In runs without either, the map counts
exactly the entries that the calls in progress hold. -/
namespace Iota.ExecutionCache.LockState
open Except Function List
variable {s s' : LockState}

/-- The transaction that has an object reference, in the map or else in the table. -/
def currentLock (s : LockState) (o : ObjectRef) : Option LockDetails :=
  ((s.lockedTransactions o).map Prod.snd).or (s.ownedObjectLockedTransactions o)

/-- A call in this phase meets no lock of another transaction, and its batch is written. -/
def Phase.Undisputed (s : LockState) (tx : SignedTransaction) (db : Storage) : Phase → Prop
  | .locking (o :: _) _ => (s.currentLock o).all (· = tx.digest)
  | .writing _ => db = .ok
  | _ => True

/-- Every event that is allowed, if no lock is disputed in it. -/
def Undisputed (s : LockState) : Event → Prop
  | .advance i db => ∀ c ∈ s.calls[i]?, Phase.Undisputed s c.transaction db c.phase
  | e => Allowed s e

def Balanced (locked : ObjectRef → Option (Nat × LockDetails))
    (held : List (ObjectRef × LockDetails)) : Prop :=
  ∀ o, (locked o).elim 0 Prod.fst = held.countP (fun e => e.1 = o) ∧
    ∀ e, locked o = some e → 0 < e.1

section Balanced
variable {locked : ObjectRef → Option (Nat × LockDetails)}
  {held held' : List (ObjectRef × LockDetails)} {o : ObjectRef} {lock : LockDetails}

theorem Balanced.perm (h : Balanced locked held) (hp : held'.Perm held) :
    Balanced locked held' := by
  intro o
  rw [hp.countP_eq]
  exact h o

theorem balanced_none : Balanced (fun _ => none) [] := by
  intro o
  simp

theorem Balanced.eq_none (h : Balanced locked []) (o : ObjectRef) : locked o = none := by
  obtain ⟨hc,hp⟩ := h o
  cases he : locked o with
  | none => rfl
  | some e =>
    have hz : e.1 = 0 := by simpa [he] using hc
    exact absurd (hp e he) (by omega)

theorem Balanced.set (h : Balanced locked held) (o : ObjectRef) (lock lock' : LockDetails) :
    Balanced (update locked o (some ((locked o).elim 0 Prod.fst + 1,lock)))
      ((o,lock') :: held) := by
  intro o'
  by_cases heq : o = o'
  · subst heq
    simp [(h o).1]
  · rw [update_of_ne (Ne.symm heq),countP_cons_of_neg (by simpa using heq)]
    exact h o'

theorem Balanced.clear {n : Nat} {lock' : LockDetails} (h : Balanced locked ((o,lock) :: held))
    (he : locked o = some (n,lock')) :
    Balanced (update locked o (if n - 1 = 0 then none else some (n - 1,lock'))) held := by
  intro o'
  obtain ⟨hc,hp⟩ := h o'
  by_cases heq : o = o'
  · subst heq
    have hn : n = held.countP (fun e => e.1 = o) + 1 := by simpa [he] using hc
    rw [update_self]
    split
    · next hz => exact ⟨by simp; omega,nofun⟩
    · next hne =>
      refine ⟨by simp [hn],?_⟩
      rintro e ⟨⟩
      exact Nat.pos_of_ne_zero hne
  · rw [countP_cons_of_neg (by simpa using heq)] at hc
    rw [update_of_ne (Ne.symm heq)]
    exact ⟨hc,hp⟩

end Balanced

theorem trySetTransactionLock_undisputed {o : ObjectRef} {lock : LockDetails}
    (h : (s.currentLock o).all (· = lock)) (db : Storage) :
    s.trySetTransactionLock o lock db = (.error .storage,s) ∨
    s.trySetTransactionLock o lock db = (.ok (),
      { s with
        lockedTransactions := update s.lockedTransactions o
          (some ((s.lockedTransactions o).elim 0 Prod.fst + 1,lock)) }) := by
  unfold currentLock at h
  unfold trySetTransactionLock
  cases he : s.lockedTransactions o with
  | none =>
    by_cases hdb : db = .ok
    · right
      cases ht : s.ownedObjectLockedTransactions o with
      | none => simp [hdb]
      | some lock' =>
        have heq : lock' = lock := by simpa [he,ht] using h
        simp [hdb,heq]
    · exact .inl (if_pos hdb)
  | some e =>
    have heq : e.2 = lock := by simpa [he] using h
    simp [heq]

theorem Balanced.advance {others : List (ObjectRef × LockDetails)} {c : Call} {db : Storage}
    {phase : Phase} (h : Balanced s.lockedTransactions (c.held ++ others))
    (hu : Phase.Undisputed s c.transaction db c.phase)
    (ha : s.advance c.transaction db c.phase = .ok (phase,s')) :
    Balanced s'.lockedTransactions ((Call.mk c.transaction phase).held ++ others) ∧
      s'.calls = s.calls := by
  obtain ⟨tx,current⟩ := c
  cases current with
  | locking todo locks =>
    cases todo with
    | nil =>
      cases ha
      exact ⟨h,rfl⟩
    | cons o todo =>
      obtain hs | hs := trySetTransactionLock_undisputed hu db
      · simp only [LockState.advance,hs] at ha
        cases ha
        exact ⟨h,rfl⟩
      simp only [LockState.advance,hs] at ha
      cases ha
      refine ⟨(h.set o tx.digest tx.digest).perm ?_,rfl⟩
      exact (perm_append_singleton _ _).append_right _
  | writing locks =>
    cases hu
    cases ha
    exact ⟨h,rfl⟩
  | clearing todo result =>
    cases todo with
    | nil =>
      cases ha
      exact ⟨h,rfl⟩
    | cons e todo =>
      obtain ⟨s1,hc,hn⟩ := of_bind ha
      cases hn
      unfold clearCachedLock at hc
      split at hc
      · cases hc
      · next n lock he =>
        split at hc
        · cases hc
          exact ⟨Balanced.clear h he,rfl⟩
        · cases hc
  | returned result =>
    cases ha
    exact ⟨h,rfl⟩

theorem balanced_of_reached (hs : Machine.Reached Initial LockState.exec Undisputed s) :
    Balanced s.lockedTransactions (s.calls.flatMap Call.held) := by
  induction hs with
  | init hi =>
    obtain ⟨hl,-,-,hcl⟩ := hi
    rw [hcl,funext hl]
    exact balanced_none
  | @step s e s' _ hu he h =>
    cases e with
    | call tx cache =>
      cases he
      dsimp only
      rw [held_call (by split <;> rfl)]
      exact h
    | advance i db =>
      cases hc : s.calls[i]? with
      | none =>
        simp only [LockState.exec,hc] at he
        cases he
        exact h
      | some c =>
        simp only [LockState.exec,hc] at he
        obtain ⟨⟨phase,s1⟩,ha,hn⟩ := of_bind he
        cases hn
        have hbf := h.perm (held_perm hc).symm
        obtain ⟨hb,hcl⟩ := hbf.advance (hu c hc) ha
        dsimp only
        rw [hcl]
        exact hb.perm (held_set_perm hc _)
    | clear =>
      cases he
      dsimp only
      rw [held_of_returned hu]
      exact balanced_none
    | crash =>
      cases he
      exact balanced_none

/-- In every run in which no call meets the lock of another transaction and no batch fails: once all
calls have returned the map is empty, and every reference that is not locked in the table can be
locked by any transaction. -/
theorem locks_given_back (hs : Machine.Reached Initial LockState.exec Undisputed s)
    (hreturned : ∀ c ∈ s.calls, ∃ result, c.phase = .returned result) :
    (∀ o, s.lockedTransactions o = none) ∧
    ∀ o, s.ownedObjectLockedTransactions o = none →
      ∀ lock, (s.trySetTransactionLock o lock .ok).1 = .ok () := by
  have hb := balanced_of_reached hs
  rw [held_of_returned hreturned] at hb
  refine ⟨hb.eq_none,?_⟩
  intro o ht lock
  simp [trySetTransactionLock,hb.eq_none o,ht]

/-- The first of two references is locked, the table cannot be read for the second, and the first is
given back. -/
theorem locks_given_back_failed : ∃ s : LockState,
    (∃ tx, s.calls = [⟨tx,.returned (.error .storage)⟩]) ∧
    (s.trySetTransactionLock ⟨4,1,0⟩ 2 .ok).1 = .ok () := by
  let start : LockState := ⟨fun _ => none,fun _ => none,fun _ => none,[]⟩
  have hs : Machine.Reached Initial LockState.exec Undisputed start :=
    .init ⟨fun _ => rfl,fun _ => rfl,fun _ => rfl,rfl⟩
  have hcl := hs.step (i := Event.call ⟨1,[⟨5,1,0⟩,⟨4,1,0⟩]⟩ fun _ => some ⟨1,0⟩) trivial rfl
  have hl := hcl.step (i := Event.advance 0 .ok) (by rintro c ⟨⟩; rfl) rfl
  have hf := hl.step (i := Event.advance 0 (.failed false)) (by rintro c ⟨⟩; rfl) rfl
  have hcr := hf.step (i := Event.advance 0 .ok) (by rintro c ⟨⟩; trivial) rfl
  have hr := hcr.step (i := Event.advance 0 .ok) (by rintro c ⟨⟩; trivial) rfl
  refine ⟨_,⟨_,rfl⟩,(locks_given_back hr ?_).2 _ rfl 2⟩
  intro c hc
  cases mem_singleton.mp hc
  exact ⟨_,rfl⟩

/-- The first transaction has object 4 and the third one object 5. The second fails on object 4 and
the first on object 5. When all have returned, object 4 is locked by nobody in the table, but in the
map it still is by the first transaction, so that the second fails again. -/
theorem conflict_leaves_lock : ∃ s : LockState,
    Machine.Reached Initial LockState.exec Allowed s ∧
    (∀ c ∈ s.calls, ∃ result, c.phase = .returned result) ∧
    s.ownedObjectLockedTransactions ⟨4,1,0⟩ = none ∧
    s.lockedTransactions ⟨4,1,0⟩ = some (1,1) ∧
    (s.trySetTransactionLock ⟨4,1,0⟩ 2 .ok).1 = .error (.objectLockConflict ⟨4,1,0⟩ 1) := by
  let start : LockState := ⟨fun _ => none,fun _ => none,fun _ => none,[]⟩
  let cache : ObjectID → Option LiveObject := fun _ => some ⟨1,0⟩
  let events : List Event := [.call ⟨1,[⟨4,1,0⟩,⟨5,1,0⟩]⟩ cache,.call ⟨2,[⟨4,1,0⟩]⟩ cache,
    .call ⟨3,[⟨5,1,0⟩]⟩ cache] ++ [0,1,1,2,0,0,0,2,2,2,2].map fun i => .advance i .ok
  obtain ⟨s,hrn,hr,ht,hl⟩ : ∃ s, events.foldlM LockState.exec start = .ok s ∧
      (∀ c ∈ s.calls, (match c.phase with | .returned _ => true | _ => false) = true) ∧
      s.ownedObjectLockedTransactions ⟨4,1,0⟩ = none ∧
      s.lockedTransactions ⟨4,1,0⟩ = some (1,1) := by decide +kernel
  have ha : ∀ e ∈ events, ∀ s, Allowed s e := by
    simp [events,Allowed]
  refine ⟨s,.foldlM ha (.init ⟨fun _ => rfl,fun _ => rfl,fun _ => rfl,rfl⟩) hrn,
    fun c hc => ?_,ht,hl,?_⟩
  · have hp := hr c hc
    split at hp
    · next result heq => exact ⟨result,heq⟩
    · cases hp
  · simp [trySetTransactionLock,hl]

end Iota.ExecutionCache.LockState
