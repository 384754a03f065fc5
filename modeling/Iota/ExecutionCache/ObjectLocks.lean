import Iota.Lib.Run
import Iota.Types.Basic
import Mathlib.Data.List.Perm.Basic
import Mathlib.Data.List.Sort
import Mathlib.Logic.Function.Basic

/-! Calls of `acquire_transaction_locks` run at the same time. Each takes its locks one by one in a
map of reference-counted entries, writes them to the table of the epoch in one batch, and gives the
entries back one by one. A failed call gives back what it took before its failure. -/
namespace Iota.ExecutionCache

structure ObjectRef where
  id : ObjectID
  version : Nat
  digest : Nat
deriving DecidableEq, Repr

abbrev LockDetails := TransactionDigest

/-- The parts of a live object that a reference is compared with. -/
structure LiveObject where
  version : Nat
  digest : Nat
deriving DecidableEq, Repr

/-- A signed transaction with the references of its owned inputs. -/
structure SignedTransaction where
  digest : TransactionDigest
  ownedInputObjects : List ObjectRef
deriving DecidableEq, Repr

inductive LockError
  | objectNotFound (id : ObjectID)
  | versionUnavailableForConsumption (objRef : ObjectRef) (currentVersion : Nat)
  | invalidObjectDigest (id : ObjectID) (expectedDigest : Nat)
  | objectLockConflict (objRef : ObjectRef) (pendingTransaction : LockDetails)
  /-- an error of the database, or the tables of the epoch are closed -/
  | storage
deriving DecidableEq, Repr

/-- The assertions of `clear_cached_locks`. The first is a `debug_fatal!`. -/
inductive LockPanic
  | lockMustExist
  | lockChanged
deriving DecidableEq, Repr

def verifyLiveObject (objRef : ObjectRef) (liveObject : LiveObject) : Except LockError Unit :=
  if objRef.version ≠ liveObject.version then
    .error (.versionUnavailableForConsumption objRef liveObject.version)
  else if objRef.digest ≠ liveObject.digest then
    .error (.invalidObjectDigest objRef.id liveObject.digest)
  else .ok ()

def multiGetObjectsMustExist (cache : ObjectID → Option LiveObject) (ids : List ObjectID) :
    Except LockError (List LiveObject) :=
  ids.mapM fun id => match cache id with
    | some object => .ok object
    | none => .error (.objectNotFound id)

/-- The checks before the first lock, and the references in the order they are locked. -/
def checkedInputs (cache : ObjectID → Option LiveObject) (ownedInputObjects : List ObjectRef) :
    Except LockError (List ObjectRef) := do
  let liveObjects ← multiGetObjectsMustExist cache (ownedInputObjects.map ObjectRef.id)
  (ownedInputObjects.zip liveObjects).forM fun p => verifyLiveObject p.1 p.2
  .ok (ownedInputObjects.insertionSort fun a b => a.id ≤ b.id)

/-- Where a call stands. Its locks are given back after a failure as well as after the write. -/
inductive Phase
  | locking (todo : List ObjectRef) (locksToWrite : List (ObjectRef × LockDetails))
  | writing (locksToWrite : List (ObjectRef × LockDetails))
  | clearing (todo : List (ObjectRef × LockDetails)) (result : Except LockError Unit)
  | returned (result : Except LockError Unit)

structure Call where
  transaction : SignedTransaction
  phase : Phase

def Call.held (c : Call) : List (ObjectRef × LockDetails) :=
  match c.phase with
  | .locking _ locks | .writing locks | .clearing locks _ => locks
  | .returned _ => []

/-- The map of `ObjectLocks`, the tables of the epoch store, and the calls. -/
structure LockState where
  lockedTransactions : ObjectRef → Option (Nat × LockDetails)
  ownedObjectLockedTransactions : ObjectRef → Option LockDetails
  signedTransactions : TransactionDigest → Option SignedTransaction
  calls : List Call

/-- What the database does in a step: a batch is written as a whole or not at all, and may be
written although an error is returned. -/
inductive Storage
  | ok
  | failed (persisted : Bool)
deriving DecidableEq, Repr

namespace LockState
variable (s : LockState)

def trySetTransactionLock (objRef : ObjectRef) (newLock : LockDetails) (db : Storage) :
    Except LockError Unit × LockState :=
  let check (prevLock : LockDetails) : Except LockError Unit :=
    if prevLock ≠ newLock then .error (.objectLockConflict objRef prevLock) else .ok ()
  let set (refCount : Nat) (lock : LockDetails) : LockState :=
    { s with lockedTransactions :=
      Function.update s.lockedTransactions objRef (some (refCount,lock)) }
  match s.lockedTransactions objRef with
  | none =>
    if db ≠ .ok then (.error .storage,s)
    else match s.ownedObjectLockedTransactions objRef with
      | some lockDetails => (check lockDetails,set 1 lockDetails)
      | none => (check newLock,set 1 newLock)
  | some (refCount,prevLock) => (check prevLock,set (refCount+1) prevLock)

def clearCachedLock (objRef : ObjectRef) (lock : LockDetails) : Except LockPanic LockState :=
  match s.lockedTransactions objRef with
  | none => .error .lockMustExist
  | some (refCount,held) =>
    if held = lock then
      let entry := if refCount - 1 = 0 then none else some (refCount - 1,held)
      .ok { s with lockedTransactions := Function.update s.lockedTransactions objRef entry }
    else .error .lockChanged

def writeTransactionLocks (transaction : SignedTransaction)
    (locksToWrite : List (ObjectRef × LockDetails)) : LockState :=
  { s with
    ownedObjectLockedTransactions := locksToWrite.foldl
      (fun table e => Function.update table e.1 (some e.2)) s.ownedObjectLockedTransactions
    signedTransactions :=
      Function.update s.signedTransactions transaction.digest (some transaction) }

/-- The next atomic step of a call, with the phase after it. -/
def advance (transaction : SignedTransaction) (db : Storage) :
    Phase → Except LockPanic (Phase × LockState)
  | .locking [] locksToWrite => .ok (.writing locksToWrite,s)
  | .locking (objRef :: todo) locksToWrite =>
    match s.trySetTransactionLock objRef transaction.digest db with
    | (.ok (),s) => .ok (.locking todo (locksToWrite ++ [(objRef,transaction.digest)]),s)
    | (.error e,s) => .ok (.clearing locksToWrite (.error e),s)
  | .writing locksToWrite =>
    match db with
    | .ok => .ok (.clearing locksToWrite (.ok ()),s.writeTransactionLocks transaction locksToWrite)
    -- the error is returned at once, the entries of the map stay
    | .failed true =>
      .ok (.returned (.error .storage),s.writeTransactionLocks transaction locksToWrite)
    | .failed false => .ok (.returned (.error .storage),s)
  | .clearing [] result => .ok (.returned result,s)
  | .clearing ((objRef,lock) :: todo) result => do
    let s ← s.clearCachedLock objRef lock
    .ok (.clearing todo result,s)
  | .returned result => .ok (.returned result,s)

inductive Event
  | call (transaction : SignedTransaction) (cache : ObjectID → Option LiveObject)
  | advance (i : Nat) (db : Storage)
  | clear
  | crash

def exec : Event → Except LockPanic LockState
  | .call transaction cache =>
    let phase := match checkedInputs cache transaction.ownedInputObjects with
      | .ok todo => .locking todo []
      | .error e => .returned (.error e)
    .ok { s with calls := s.calls ++ [⟨transaction,phase⟩] }
  | .advance i db =>
    match s.calls[i]? with
    | none => .ok s
    | some c => do
      let (phase,s) ← s.advance c.transaction db c.phase
      .ok { s with calls := s.calls.set i { c with phase := phase } }
  | .clear => .ok { s with lockedTransactions := fun _ => none }
  | .crash => .ok { s with lockedTransactions := fun _ => none, calls := [] }

/-- The map is cleared under the write guard of the execution lock, of which every call has a read
guard. -/
def Allowed (s : LockState) : Event → Prop
  | .clear => ∀ c ∈ s.calls, ∃ result, c.phase = .returned result
  | _ => True

def Initial (s : LockState) : Prop :=
  (∀ o, s.lockedTransactions o = none) ∧ (∀ o, s.ownedObjectLockedTransactions o = none) ∧
    (∀ t, s.signedTransactions t = none) ∧ s.calls = []

end LockState
end Iota.ExecutionCache
