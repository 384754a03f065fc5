import Iota.Starfish.DagState.Write

/-! Headers wait until their ancestors are in the DAG, and the transactions of blocks wait for their
headers. Metrics and the received rounds they report are left out. -/
namespace Iota.Starfish
open Std (ExtTreeMap ExtTreeSet)

/-- The assertions of the block manager, and the panics of the DAG state it writes to. -/
inductive BlockManagerPanic
  | notSuspended
  | dependencyNotMissing
  | outOfFuel
  | dagState (panic : Panic)
deriving DecidableEq, Repr

structure VerifiedBlock where
  verifiedBlockHeader : VerifiedBlockHeader
  verifiedTransactions : VerifiedTransactions
deriving DecidableEq

def VerifiedBlock.reference (b : VerifiedBlock) : BlockRef := b.verifiedBlockHeader.reference

structure SuspendedBlockHeader where
  blockHeader : VerifiedBlockHeader
  missingAncestors : ExtTreeSet BlockRef

structure BlockSuspender where
  suspendedHeaders : ExtTreeMap BlockRef SuspendedBlockHeader
  missingAncestors : ExtTreeMap BlockRef (ExtTreeSet BlockRef)
  headersToFetch : ExtTreeMap BlockRef (ExtTreeSet Nat)

namespace BlockSuspender

def new : BlockSuspender := ⟨∅,∅,∅⟩

variable (s : BlockSuspender)

def isBlockRefSuspended (r : BlockRef) : Bool := s.suspendedHeaders.contains r

def registerSuspendedBlock (header : VerifiedBlockHeader) (missing : ExtTreeSet BlockRef) :
    BlockSuspender :=
  { s with
    suspendedHeaders := s.suspendedHeaders.insert header.reference
      (match s.suspendedHeaders[header.reference]? with
        | none => ⟨header,missing⟩
        | some b => { b with
            missingAncestors := b.missingAncestors.insertMany missing.toList }) }

def registerMissingAncestor (r ancestor : BlockRef) : BlockSuspender :=
  { s with
    missingAncestors := s.missingAncestors.insert ancestor
      ((s.missingAncestors[ancestor]?.getD ∅).insert r) }

def registerBlockToFetch (missingAncestor : BlockRef) (childAuthor : Nat) : BlockSuspender :=
  { s with
    headersToFetch := s.headersToFetch.insert missingAncestor
      (match s.headersToFetch[missingAncestor]? with
        | none => .ofList [missingAncestor.author,childAuthor]
        | some authorities => authorities.insert childAuthor) }

/-- One missing ancestor of a suspended header. It is to be fetched if it is neither suspended nor
in the batch. -/
def suspendFor (incoming : List BlockRef) (header : VerifiedBlockHeader)
    (acc : BlockSuspender × ExtTreeSet BlockRef) (ancestor : BlockRef) :
    BlockSuspender × ExtTreeSet BlockRef :=
  let s := acc.1.registerMissingAncestor header.reference ancestor
  if s.suspendedHeaders.contains ancestor = false ∧ ancestor ∉ incoming then
    (s.registerBlockToFetch ancestor header.author,acc.2.insert ancestor)
  else (s,acc.2)

/-- The suspender, the resolved headers and the ancestors to fetch so far. -/
structure Resolving where
  suspender : BlockSuspender
  fullyResolvedHeaders : List VerifiedBlockHeader := []
  ancestorsToFetch : ExtTreeSet BlockRef := ∅

def resolveOrSuspendHeader (incoming : List BlockRef) (acc : Resolving)
    (entry : VerifiedBlockHeader × ExtTreeSet BlockRef) : Resolving :=
  let s := { acc.suspender with
    headersToFetch := acc.suspender.headersToFetch.erase entry.1.reference }
  if entry.2.isEmpty then
    { acc with
      suspender := s
      fullyResolvedHeaders := acc.fullyResolvedHeaders ++ [entry.1] }
  else
    let (s,toFetch) := entry.2.toList.foldl (suspendFor incoming entry.1)
      (s.registerSuspendedBlock entry.1 entry.2,acc.ancestorsToFetch)
    { acc with suspender := s, ancestorsToFetch := toFetch }

def resolveOrSuspendHeaders
    (missingAncestorsMap : List (VerifiedBlockHeader × ExtTreeSet BlockRef)) : Resolving :=
  missingAncestorsMap.foldl
    (resolveOrSuspendHeader (missingAncestorsMap.map fun e => e.1.reference)) { suspender := s }

def unsuspendIfReady (r resolvedDependency : BlockRef) :
    Except BlockManagerPanic (Option VerifiedBlockHeader × BlockSuspender) :=
  match s.suspendedHeaders[r]? with
  | none => .error .notSuspended
  | some b =>
    if resolvedDependency ∈ b.missingAncestors then
      let missing := b.missingAncestors.erase resolvedDependency
      if missing.isEmpty then
        .ok (some b.blockHeader,{ s with suspendedHeaders := s.suspendedHeaders.erase r })
      else
        .ok (none,{ s with
          suspendedHeaders := s.suspendedHeaders.insert r
            { b with missingAncestors := missing } })
    else .error .dependencyNotMissing

/-- The suspender, the stack with its top first, and the headers that are ready. -/
structure Unsuspending where
  suspender : BlockSuspender
  stack : List BlockRef
  readyBlocks : List VerifiedBlockHeader := []

def unsuspendDependent (resolved : BlockRef) (u : Unsuspending) (r : BlockRef) :
    Except BlockManagerPanic Unsuspending := do
  match ← u.suspender.unsuspendIfReady r resolved with
  | (some header,s) => return ⟨s,header.reference :: u.stack,u.readyBlocks ++ [header]⟩
  | (none,s) => return { u with suspender := s }

/-- The loop over the stack. Every reference pushed was suspended. -/
def unsuspendLoop : Nat → Unsuspending → Except BlockManagerPanic Unsuspending
  | 0, _ => .error .outOfFuel
  | fuel+1, u =>
    match u.stack with
    | [] => .ok u
    | popped :: stack =>
      match u.suspender.missingAncestors[popped]? with
      | none => unsuspendLoop fuel { u with stack }
      | some dependents => do
        let s := { u.suspender with
          missingAncestors := u.suspender.missingAncestors.erase popped }
        let u ← dependents.toList.foldlM (unsuspendDependent popped)
          { u with suspender := s, stack }
        unsuspendLoop fuel u

def recursivelyUnsuspendDependents (resolved : BlockRef) :
    Except BlockManagerPanic (List VerifiedBlockHeader × BlockSuspender) := do
  let u ← unsuspendLoop (s.suspendedHeaders.size+2) ⟨s,[resolved],[]⟩
  return (u.readyBlocks,u.suspender)

def acceptResolved (acc : List VerifiedBlockHeader × BlockSuspender)
    (header : VerifiedBlockHeader) :
    Except BlockManagerPanic (List VerifiedBlockHeader × BlockSuspender) := do
  let (unsuspended,s) ← acc.2.recursivelyUnsuspendDependents header.reference
  return (acc.1 ++ header :: unsuspended, s)

def acceptOrSuspendReceivedHeaders
    (missingAncestorsMap : List (VerifiedBlockHeader × ExtTreeSet BlockRef)) :
    Except BlockManagerPanic
      (List VerifiedBlockHeader × ExtTreeSet BlockRef × BlockSuspender) := do
  let resolving := s.resolveOrSuspendHeaders missingAncestorsMap
  let (accepted,s) ← resolving.fullyResolvedHeaders.foldlM acceptResolved
    ([],resolving.suspender)
  return (accepted,resolving.ancestorsToFetch,s)

end BlockSuspender

structure BlockManager where
  suspendedTransactions : ExtTreeMap BlockRef VerifiedTransactions
  blockSuspender : BlockSuspender

namespace BlockManager

def new : BlockManager := ⟨∅,.new⟩

variable {ctx : Context} (m : BlockManager) (dag : DagState ctx)

def presentHeaderAndAncestorRefsInDagState (headers : List VerifiedBlockHeader) :
    ExtTreeSet BlockRef :=
  .ofList ((headers.flatMap fun h => h.reference :: h.ancestors).filter dag.containsBlockHeader)

def filterOutAlreadyProcessedAndSort (headers : List VerifiedBlockHeader)
    (present : ExtTreeSet BlockRef) : List VerifiedBlockHeader :=
  (headers.filter fun h =>
    !(present.contains h.reference || m.blockSuspender.isBlockRefSuspended h.reference)).mergeSort
      fun a b => a.round ≤ b.round

/-- The map is ordered by all fields of a header; the order is left open. -/
def findMissingAncestors (order : HashOrder VerifiedBlockHeader)
    (headers : List VerifiedBlockHeader) (present : ExtTreeSet BlockRef) :
    List (VerifiedBlockHeader × ExtTreeSet BlockRef) :=
  (order.iter headers.toFinset).map fun h =>
    (h,.ofList (h.ancestors.filter fun a => !present.contains a))

/-- The accepted headers, the ancestors to fetch and the manager. -/
def processBlockHeaders (order : HashOrder VerifiedBlockHeader)
    (headers : List VerifiedBlockHeader) (present : ExtTreeSet BlockRef) :
    Except BlockManagerPanic
      (List VerifiedBlockHeader × ExtTreeSet BlockRef × BlockManager) := do
  let headers := m.filterOutAlreadyProcessedAndSort headers present
  let (accepted,toFetch,s) ←
    m.blockSuspender.acceptOrSuspendReceivedHeaders (findMissingAncestors order headers present)
  return (accepted,toFetch,{ m with blockSuspender := s })

/-- The transactions that waited for a header that is accepted now. -/
def releaseTransactions (acc : List VerifiedTransactions × BlockManager) (r : BlockRef) :
    List VerifiedTransactions × BlockManager :=
  match acc.2.suspendedTransactions[r]? with
  | none => acc
  | some t => (acc.1 ++ [t],
      { acc.2 with suspendedTransactions := acc.2.suspendedTransactions.erase r })

/-- The transactions of a block that was given. Empty ones are not kept. -/
def receiveTransactions (accepted present : ExtTreeSet BlockRef)
    (acc : List VerifiedTransactions × BlockManager) (b : VerifiedBlock) :
    List VerifiedTransactions × BlockManager :=
  if accepted.contains b.reference || present.contains b.reference then
    (acc.1 ++ [b.verifiedTransactions],acc.2)
  else if b.verifiedTransactions.hasTransactions then
    (acc.1,{ acc.2 with
      suspendedTransactions :=
        acc.2.suspendedTransactions.insert b.reference b.verifiedTransactions })
  else acc

def resolveTransactions (acceptedHeaders : List VerifiedBlockHeader)
    (present : ExtTreeSet BlockRef) (blocks : Option (List VerifiedBlock)) :
    List VerifiedTransactions × BlockManager :=
  let accepted := ExtTreeSet.ofList (acceptedHeaders.map (·.reference))
  let acc := accepted.toList.foldl releaseTransactions ([],m)
  match blocks with
  | none => acc
  | some blocks => blocks.foldl (receiveTransactions accepted present) acc

structure Outcome where
  acceptedHeaders : List VerifiedBlockHeader
  ancestorsToFetch : ExtTreeSet BlockRef
  acceptedTransactions : List VerifiedTransactions
  manager : BlockManager

/-- The body that `try_accept_blocks` and `try_accept_block_headers` share, before the write. -/
def resolve (order : HashOrder VerifiedBlockHeader) (headers : List VerifiedBlockHeader)
    (blocks : Option (List VerifiedBlock)) : Except BlockManagerPanic Outcome := do
  let present := presentHeaderAndAncestorRefsInDagState dag headers
  let (accepted,toFetch,m) ← m.processBlockHeaders order headers present
  let (transactions,m) := m.resolveTransactions accepted present blocks
  return ⟨accepted,toFetch,transactions,m⟩

def writeBlockHeadersAndTransactionsToDagState (headers : List VerifiedBlockHeader)
    (transactions : List VerifiedTransactions) (source : DataSource) :
    Except Panic (DagState ctx) := do
  let dag ← headers.foldlM DagState.acceptBlockHeader dag
  return transactions.foldl (fun dag t => dag.addTransactions t source) dag

inductive Delivery
  | blocks (blocks : List VerifiedBlock)
  | headers (headers : List VerifiedBlockHeader)

namespace Delivery

def headersOf : Delivery → List VerifiedBlockHeader
  | blocks bs => bs.map (·.verifiedBlockHeader)
  | headers hs => hs

def blocksOf : Delivery → Option (List VerifiedBlock)
  | blocks bs => some bs
  | headers _ => none

end Delivery

def tryAccept (order : HashOrder VerifiedBlockHeader) (d : Delivery) (source : DataSource) :
    Except BlockManagerPanic (Outcome × DagState ctx) := do
  let outcome ← m.resolve dag order d.headersOf d.blocksOf
  let dag ← (writeBlockHeadersAndTransactionsToDagState dag outcome.acceptedHeaders
    outcome.acceptedTransactions source).mapError .dagState
  return (outcome,dag)

def tryAcceptBlocks (order : HashOrder VerifiedBlockHeader) (blocks : List VerifiedBlock)
    (source : DataSource) : Except BlockManagerPanic (Outcome × DagState ctx) :=
  m.tryAccept dag order (.blocks blocks) source

def tryAcceptBlockHeaders (order : HashOrder VerifiedBlockHeader)
    (headers : List VerifiedBlockHeader) (source : DataSource) :
    Except BlockManagerPanic (Outcome × DagState ctx) :=
  m.tryAccept dag order (.headers headers) source

end BlockManager
end Iota.Starfish
