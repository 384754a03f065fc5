import Iota.Starfish.DagState.Write

/-! A sub-dag is solid once the transactions it commits are all available. Pending sub-dags wait
until they and all earlier ones are solid. -/
namespace Iota.Starfish
open Std (ExtTreeMap ExtTreeSet)

structure CommittedSubDag extends SubDagBase where
  transactions : List VerifiedTransactions
deriving DecidableEq

/-- The transactions of a genesis block: none, under the references of its header. -/
def VerifiedBlockHeader.genesisTransactions (h : VerifiedBlockHeader) : VerifiedTransactions :=
  ⟨[],⟨h.round,h.author,h.transactionsCommitment⟩,some h.digest⟩

def Context.genesisTransactions (ctx : Context) :
    GenericTransactionRef → Option VerifiedTransactions
  | .blockRef r => (ctx.genesisHeaders.find? fun h => h.reference = r).map
      VerifiedBlockHeader.genesisTransactions
  | .transactionRef t =>
    match ctx.genesisHeaders.filter fun h => h.round = t.round ∧ h.author = t.author ∧
      h.transactionsCommitment = t.transactionsCommitment with
    | [h] => some h.genesisTransactions
    | _ => none

namespace Store

/-- One reference of `read_verified_transactions`. A block reference is only found together with its
header. -/
def readVerifiedTransactions (store : Store) : GenericTransactionRef → Option VerifiedTransactions
  | .transactionRef t => store.transactions[GenericTransactionRef.transactionRef t]?.map fun x =>
      ⟨x.transactions,t,none⟩
  | .blockRef r =>
    match store.blockHeaders[r]?, store.transactions[GenericTransactionRef.blockRef r]? with
    | some h, some x =>
      some ⟨x.transactions,⟨r.round,r.author,h.transactionsCommitment⟩,some r.digest⟩
    | _, _ => none

def checkRefConsistency : List GenericTransactionRef → Bool
  | [] => true
  | first :: rest => rest.all fun g => g.variantIndex = first.variantIndex

end Store
namespace DagState
variable {ctx : Context} (s : DagState ctx)

/-- Transactions are looked up in genesis, then in the cache, then in the store. -/
def findTransactions (g : GenericTransactionRef) : Option VerifiedTransactions :=
  if g.round = genesisRound then ctx.genesisTransactions g
  else match (s.recentTransactionsByAuthority g.author)[g]? with
    | some t => some t
    | none => s.store.readVerifiedTransactions g

/-- The references that only the store can know; it refuses to look up both kinds at once. -/
def uncachedRefs (refs : List GenericTransactionRef) : List GenericTransactionRef :=
  refs.filter fun g => g.round ≠ genesisRound ∧ g ∉ s.recentTransactionsByAuthority g.author

def getVerifiedTransactions (refs : List GenericTransactionRef) :
    Except Panic (List (Option VerifiedTransactions)) :=
  if Store.checkRefConsistency (s.uncachedRefs refs) then .ok (refs.map s.findTransactions)
  else .error .inconsistentTransactionRefs

/-- All transactions, or the references of the missing ones. -/
def tryGetAllVerifiedTransactions (refs : List GenericTransactionRef) :
    Except Panic (Except (List GenericTransactionRef) (List VerifiedTransactions)) := do
  let results ← s.getVerifiedTransactions refs
  let missing := refs.filter fun g => s.findTransactions g = none
  if missing = [] then .ok (.ok (results.filterMap id)) else .ok (.error missing)

def containsTransaction (g : GenericTransactionRef) : Bool :=
  if g.round = genesisRound then (ctx.genesisTransactions g).isSome
  else (s.recentTransactionsByAuthority g.author).contains g || s.store.transactions.contains g

def containsTransactions (refs : List GenericTransactionRef) : Except Panic (List Bool) :=
  if Store.checkRefConsistency (s.uncachedRefs refs) then .ok (refs.map s.containsTransaction)
  else .error .inconsistentTransactionRefs

/-- The references of a sub-dag whose transactions are not here. -/
def missingTransactions (refs : List GenericTransactionRef) :
    Except Panic (List GenericTransactionRef) := do
  let contained ← s.containsTransactions refs
  .ok ((refs.zip contained).filterMap fun p => if p.2 then none else some p.1)

end DagState

/-- Sub-dags in wait by commit index, and the last index handed out. -/
structure CommitSolidifier where
  pendingSubdags : ExtTreeMap Nat PendingSubDag
  lastSolidCommittedIndex : Nat

namespace CommitSolidifier
variable {ctx : Context}

def new : CommitSolidifier := ⟨∅,0⟩

def setLastSolidCommittedIndex (c : CommitSolidifier) (index : Nat) : CommitSolidifier :=
  { c with lastSolidCommittedIndex := index }

def tryGetOneSolidSubDag (s : DagState ctx) (subdag : PendingSubDag) :
    Except Panic (Except (List GenericTransactionRef) CommittedSubDag) := do
  let transactions ← s.tryGetAllVerifiedTransactions subdag.committedTransactionRefs
  .ok (transactions.map fun transactions => ⟨subdag.toSubDagBase,transactions⟩)

def addPending (pending : ExtTreeMap Nat PendingSubDag) (subdags : List PendingSubDag) :
    ExtTreeMap Nat PendingSubDag :=
  subdags.foldl (fun m d => m.insertIfNew d.commitRef.index d) pending

/-- The loop of `try_get_solid_sub_dags`: sub-dags leave in the order of their indices. -/
def takeSolid (s : DagState ctx) : Nat → CommitSolidifier →
    Except Panic (List CommittedSubDag × CommitSolidifier)
  | 0, _ => .error .outOfFuel
  | fuel+1, c =>
    let nextIndex := c.lastSolidCommittedIndex+1
    match c.pendingSubdags[nextIndex]? with
    | none => .ok ([],c)
    | some subdag => do
      match ← tryGetOneSolidSubDag s subdag with
      | .error _ => .ok ([],c)
      | .ok solid =>
        let (rest,c) ← takeSolid s fuel ⟨c.pendingSubdags.erase nextIndex,nextIndex⟩
        .ok (solid :: rest, c)

/-- The missing references of new sub-dags that stay in wait; no two commit the same. -/
def missingOf (c : CommitSolidifier) (s : DagState ctx) (subdags : List PendingSubDag) :
    Except Panic (ExtTreeSet GenericTransactionRef) := do
  let missing ← (subdags.filter fun d => c.lastSolidCommittedIndex < d.commitRef.index).mapM
    fun d => s.missingTransactions d.committedTransactionRefs
  if missing.flatten.Nodup then .ok (.ofList missing.flatten) else .error .duplicateMissingRef

/-- `try_get_solid_sub_dags`: the solid sub-dags are voted for. -/
def tryGetSolidSubDags (c : CommitSolidifier) (s : DagState ctx) (subdags : List PendingSubDag) :
    Except Panic (List CommittedSubDag × ExtTreeSet GenericTransactionRef × CommitSolidifier ×
      DagState ctx) := do
  let pending := addPending c.pendingSubdags subdags
  let (solid,c) ← takeSolid s (pending.size+1) { c with pendingSubdags := pending }
  let s := s.updatePendingCommitVotes (solid.map fun d => d.commitRef)
  let missing ← c.missingOf s subdags
  .ok (solid,missing,c,s)

end CommitSolidifier
end Iota.Starfish
