import Iota.Starfish.Core.Run

/-! The consumer receives the commits after its replay point in order, once and complete, in every
run in which a fast sync ends with nothing left to send. -/
namespace Iota.Starfish
open DagState Except
open Std (ExtTreeMap)
open CommitObserver
variable {ctx : Context} {content : GenericTransactionRef → List Nat}

theorem DagOp.Direct.quiet {op : DagOp} (hop : op.Direct) {s s' : DagState ctx}
    (hc : Contents content ctx op) (hs : s.exec op = .ok s') : Quiet content s s' := by
  have ha : ¬Advancing op := by
    cases op <;> first | exact id | exact absurd hop id
  refine .exec ha ⟨?_,?_,hc⟩ hs
  · rintro rfl
    exact hop
  · rintro rfl
    exact hop.elim

namespace Core
variable {c c' : Core ctx}

/-- Observer and DAG state agree, and what the consumer was sent is in order and complete. -/
structure DeliveryInv (content : GenericTransactionRef → List Nat) (c : Core ctx) : Prop where
  observer : ObserverInv content c.commitObserver c.dag
  delivered : Delivered content c.commitObserver c.dag

theorem DeliveryInv.extends (hi : DeliveryInv content c)
    (h : Extends content c.dag c'.dag) (hs : c'.commitObserver = c.commitObserver) :
    DeliveryInv content c' := by
  constructor
  · exact hi.observer.extends h (by rw [hs])
  · rw [hs]
    exact hi.delivered.extends hi.observer h

theorem Commits.pending_effect {pending : List PendingSubDag} (h : Commits content c pending c') :
    ∃ s1 solid s2, Extends content c.dag s1 ∧
      s1.lastSolidSubdagBase = c.dag.lastSolidSubdagBase ∧
      s1.lastCommitIndex = c.dag.lastCommitIndex + pending.length ∧
      pending.map (fun p => p.commitRef.index) =
        List.range' (c.dag.lastCommitIndex+1) pending.length ∧
      (CommitLog c.dag → ∀ p ∈ pending, FromLog s1 p) ∧
      Solidifying content c.commitObserver s1 pending solid c'.commitObserver s2 ∧
      Quiet content s2 c'.dag := by
  obtain ⟨s1,solid,s2,⟨l',leaders,hg⟩,hs,hqt⟩ := h.solidifying
  obtain ⟨he,hb,hl,hr,hf⟩ := Linearizer.commitLeaders_effect content hg
  exact ⟨s1,solid,s2,he,hb,hl,hr,hf,hs,hqt⟩

theorem DeliveryInv.commits (hgenesis : ∀ g, g.round = genesisRound → content g = [])
    (hi : DeliveryInv content c) {pending : List PendingSubDag}
    (h : Commits content c pending c') : DeliveryInv content c' := by
  obtain ⟨s1,solid,s2,he,-,-,-,hf,hs,hqt⟩ := h.pending_effect
  have hi1 := hi.observer.extends he rfl
  have hn := hf hi.observer.log
  have hi2 := hs.observerInv hi1 hn
  have hd2 := hs.delivered hgenesis hi1 hn (hi.delivered.extends hi.observer he)
  exact ⟨hi2.extends hqt.extended rfl,hd2.extends hi2 hqt.extended⟩

theorem DeliveryInv.tryCommit (hgenesis : ∀ g, g.round = genesisRound → content g = [])
    (hi : DeliveryInv content c) (h : c.tryCommit = .ok c') : DeliveryInv content c' := by
  obtain ⟨committed,c1,t,hl,-,rfl⟩ := tryCommit_effect h
  have hi1 : DeliveryInv content c1 := by
    refine tryCommitLoop_inv content (fun c _ => DeliveryInv content c) ?_ ?_ ?_ hi hl
    · intro c c' _ hi hu
      obtain ⟨schedule,s',hqt,rfl⟩ := updateScheduleIfDue_effect content hu
      exact hi.extends hqt.extended rfl
    · exact fun _ _ _ hi => ⟨hi.observer,hi.delivered⟩
    · exact fun _ _ _ _ hi hc => hi.commits hgenesis hc
  exact ⟨hi1.observer,hi1.delivered⟩

theorem DeliveryInv.fastSync {output : FastSyncOutput} (hi : DeliveryInv content c)
    (hf : Fetched content c.dag output) (h : c.handleCommittedSubDagsFromFastSync output = .ok c') :
    DeliveryInv content c' := by
  obtain ⟨first,s,hs⟩ := fastSync_synced hf hi.observer.log hi.observer.transactions h
  obtain ⟨l,hsn⟩ := hs.send
  obtain ⟨sent,hst⟩ := sendSubDags_sent hsn
  have he := hs.finalized.extended
  have hi' : ObserverInv content c'.commitObserver s :=
    hi.observer.extends hs.extended hst.solidifier
  refine ⟨hi'.extends he rfl,?_⟩
  have hd := hi.delivered.extends hi.observer (hs.extended.trans he)
  have hsm : Delivered content ({ c.commitObserver with linearizer := l } : CommitObserver ctx)
      c'.dag := ⟨hd.last,hd.order,hd.complete⟩
  exact hsm.send (fun d hm => (hs.complete d hm).extends he hi'.log hi'.transactions) hsn

variable {refOrder : HashOrder BlockRef} {slotOrder : HashOrder Slot}

section
variable (hgenesis : ∀ g, g.round = genesisRound → content g = [])

include hgenesis

theorem DeliveryInv.reinitialize {headers : List VerifiedBlockHeader} (hi : DeliveryInv content c)
    (hs : c.commitObserver.lastSentCommitIndex = c.dag.lastCommitIndex)
    (h : c.reinitializeComponents refOrder slotOrder headers = .ok c') :
    DeliveryInv content c' := by
  obtain ⟨s,schedule,hqt,hf,-,-,ho,-⟩ := reinitialize_effect content h
  have hi1 := hi.observer.extends hqt.extended rfl
  have hd := hi.delivered.extends hi.observer hqt.extended
  rw [← hs] at ho
  have hst : ObserverInv content ({ c.commitObserver with
      linearizer := c.commitObserver.linearizer.clearState } : CommitObserver ctx) s :=
    ⟨hi1.log,hi1.transactions,hi1.pending⟩
  obtain ⟨-,hi',hdl⟩ := recoverAndSend_inv hgenesis hst rfl hf ho
  exact ⟨hi',hdl ⟨hd.last,hd.order,hd.complete⟩⟩

theorem DeliveryInv.new
    {schedule : LeaderSchedule} {lastProcessed : Nat} {s : DagState ctx} (hl : CommitLog s)
    (ht : TransactionInv content s) (hf : s.commitsToWrite = [])
    (h : CommitObserver.new refOrder slotOrder schedule s lastProcessed =
      .ok (c'.commitObserver,c'.dag)) : DeliveryInv content c' := by
  have hs : ObserverInv content (⟨.new,.new,⟨lastProcessed,[]⟩,lastProcessed⟩ :
      CommitObserver ctx) s := ⟨hl,ht,fun i p hp => by simp [CommitSolidifier.new] at hp⟩
  obtain ⟨-,hi',hd⟩ := recoverAndSend_inv hgenesis hs rfl hf h
  exact ⟨hi',hd ⟨rfl,rfl,nofun⟩⟩

theorem DeliveryInv.restart {lastProcessed : Nat}
    (hi : DeliveryInv content c) (h : c.restart refOrder slotOrder lastProcessed = .ok c') :
    DeliveryInv content c' := by
  obtain ⟨s,schedule,hn,ho,-⟩ := restart_effect h
  obtain ⟨scoring,hp⟩ := commitPart_new hn
  exact .new hgenesis (hi.observer.log.restart hn) (.new hi.observer.transactions.stored hn)
    (congrArg CommitPart.commitsToWrite hp) ho

end

theorem DeliveryInv.initial {ownIndex cachedRounds : Nat} (h : Initial ownIndex cachedRounds c) :
    DeliveryInv content c := by
  obtain ⟨hd,-,ho,-⟩ := h
  have hl : CommitLog c.dag := (CommitLog.empty ctx).restart hd
  have htr : TransactionInv content c.dag := .new (fun g t ht => by simp [Store.empty] at ht) hd
  constructor
  · refine ⟨hl,htr,fun i p hp => ?_⟩
    rw [ho] at hp
    simp [CommitSolidifier.new] at hp
  · rw [ho]
    exact ⟨rfl,rfl,List.forall_mem_nil _⟩

/-- A fast sync ends with everything committed so far sent. -/
def AllSent (c : Core ctx) : CoreOp → Prop
  | .reinitializeComponents _ _ _ => c.commitObserver.lastSentCommitIndex = c.dag.lastCommitIndex
  | _ => True

theorem DeliveryInv.exec (hgenesis : ∀ g, g.round = genesisRound → content g = [])
    (hi : DeliveryInv content c) {op : CoreOp} (hop : Permitted content c op)
    (hsn : AllSent c op) (h : c.exec op = .ok c') : DeliveryInv content c' := by
  cases op with
  | dag op =>
    obtain ⟨s,hs,rfl⟩ := map_eq_ok.mp h
    exact hi.extends (hop.1.quiet hop.2 hs).extended rfl
  | addTransactions transactions source =>
    obtain ⟨pending,hc⟩ := addTransactions_commits content h
    have had : DeliveryInv content { c with
        dag := transactions.foldl (fun s t => s.addTransactions t source) c.dag } :=
      hi.extends (Quiet.addTransactions c.dag hop source).extended rfl
    exact had.commits hgenesis hc
  | tryCommit => exact hi.tryCommit hgenesis h
  | subscribe g subscribers =>
    cases h
    exact ⟨hi.observer,hi.delivered⟩
  | fastSync output => exact hi.fastSync hop h
  | reinitializeComponents refOrder slotOrder headers => exact hi.reinitialize hgenesis hsn h
  | restart refOrder slotOrder lastProcessed => exact hi.restart hgenesis h

/-- In every run in which each fast sync ends with all commits sent, the consumer has received the
commits after its replay point in order, once and complete. -/
theorem delivery_in_order (hgenesis : ∀ g, g.round = genesisRound → content g = [])
    {ownIndex cachedRounds : Nat} (h : Machine.Reached (Initial ownIndex cachedRounds) exec
      (fun c op => Permitted content c op ∧ AllSent c op) c) :
    Delivered content c.commitObserver c.dag := by
  have hi : DeliveryInv content c := by
    induction h with
    | init hin => exact .initial hin
    | step _ hop hs ih => exact ih.exec hgenesis hop.1 hop.2 hs
  exact hi.delivered

section Concrete

def firstContent : GenericTransactionRef → List Nat
  | .transactionRef ⟨1,0,0⟩ => [7]
  | _ => []

theorem firstContent_genesis (g : GenericTransactionRef) (h : g.round = genesisRound) :
    firstContent g = [] := by
  unfold firstContent
  split
  · cases h
  · rfl

/-- The second header of the chain acknowledges the transactions of the first. -/
def acceptOp (n : Nat) : CoreOp :=
  .dag (.acceptBlockHeader (ackingHeader (fun n => if n = 2 then [⟨1,0,0⟩] else []) n))

/-- Three leaders are committed, and the transactions of the second commit are missing. -/
def waitingOps : List CoreOp :=
  [acceptOp 1,acceptOp 2,acceptOp 3,acceptOp 4,acceptOp 5,.tryCommit]

def endOp : CoreOp := .reinitializeComponents (.sorted compare) (.sorted Slot.cmp) []

def receivedIndices {ctx : Context} (c : Core ctx) : List Nat :=
  c.commitObserver.consumer.received.map fun d => d.commitRef.index

theorem allSent_of_plain {op : CoreOp} (h : plain op = true) (c : Core ctx) : AllSent c op := by
  unfold plain at h
  split at h
  · trivial
  · trivial
  · cases h

/-- The commits in wait from the second to a last one are fetched. -/
def fetchOp (last : Nat) (c : Core syncContext) : CoreOp :=
  .fastSync (fetchOutput firstContent (c.dag.store.scanCommits 2 last))

/-- The fetched commits are handled, the fast sync ends, and a fourth leader is committed. -/
def resume (last : Nat) (c : Core syncContext) : Except Panic (Core syncContext) :=
  c.exec (fetchOp last c) >>= fun c => c.exec endOp >>= fun c =>
    [acceptOp 6,.tryCommit].foldlM exec c

theorem reached_resume {allowed : Core syncContext → CoreOp → Prop}
    (hp : ∀ op, plain op = true → ∀ c, allowed c op) {last : Nat} {c1 c : Core syncContext}
    (h1 : runFrom syncContext 1 5 waitingOps = .ok c1) (hf : allowed c1 (fetchOp last c1))
    (he : ∀ c2, c1.exec (fetchOp last c1) = .ok c2 → allowed c2 endOp)
    (h : resume last c1 = .ok c) : Machine.Reached (Initial 1 5) exec allowed c := by
  obtain ⟨c2,h2,h⟩ := of_bind h
  obtain ⟨c3,h3,h⟩ := of_bind h
  have hr1 : Machine.Reached (Initial 1 5) exec allowed c1 :=
    reached_runFrom (fun op hop => hp op (List.all_eq_true.mp rfl op hop)) h1
  have hr : ([acceptOp 6,.tryCommit] : List CoreOp).all plain = true := rfl
  exact .foldlM (fun op hop => hp op (List.all_eq_true.mp hr op hop))
    ((hr1.step hf h2).step (he c2 h2) h3) h

end Concrete

/-- A fast sync that fetches the second commit only ends while the third one still waits: it is never
sent, and the fourth one is. -/
theorem delivery_skips_commit : ∃ c : Core syncContext,
    Machine.Reached (Initial 1 5) exec (Permitted firstContent) c ∧
    c.commitObserver.consumer.lastProcessedCommitIndex = 0 ∧ receivedIndices c = [1,2,4] ∧
    ¬Delivered firstContent c.commitObserver c.dag := by
  obtain ⟨c1,h1,hft,c,h,hs,hi⟩ :
      ∃ c1, runFrom syncContext 1 5 waitingOps = .ok c1 ∧
        fetchable c1.dag 2 (c1.dag.store.scanCommits 2 2) ∧
      ∃ c, resume 2 c1 = .ok c ∧ c.commitObserver.consumer.lastProcessedCommitIndex = 0 ∧
        receivedIndices c = [1,2,4] := by decide +kernel
  have hf : Permitted firstContent c1 (fetchOp 2 c1) := fetched_of_fetchable rfl (by decide) hft
  refine ⟨c,reached_resume (fun _ => permitted_of_plain) h1 hf (fun _ _ => trivial) h,
    hs,hi,fun hd => ?_⟩
  have ho := hd.order
  rw [hs,← List.length_map fun d => d.commitRef.index] at ho
  change receivedIndices c = List.range' (0+1) (receivedIndices c).length at ho
  rw [hi] at ho
  exact absurd ho (by decide)

/-- When both commits in wait are fetched nothing is left to send, and all four arrive. -/
theorem delivery_in_order_resumed : ∃ c : Core syncContext, receivedIndices c = [1,2,3,4] ∧
    Delivered firstContent c.commitObserver c.dag := by
  obtain ⟨c1,h1,hft,c2,h2,hs,c,h,hr⟩ :
      ∃ c1, runFrom syncContext 1 5 waitingOps = .ok c1 ∧
        fetchable c1.dag 2 (c1.dag.store.scanCommits 2 3) ∧
      ∃ c2, c1.exec (fetchOp 3 c1) = .ok c2 ∧
        c2.commitObserver.lastSentCommitIndex = c2.dag.lastCommitIndex ∧
      ∃ c, resume 3 c1 = .ok c ∧ receivedIndices c = [1,2,3,4] := by decide +kernel
  have hf : Permitted firstContent c1 (fetchOp 3 c1) := fetched_of_fetchable rfl (by decide) hft
  refine ⟨c,hr,delivery_in_order firstContent_genesis (reached_resume
    (fun op hop c => ⟨permitted_of_plain hop c,allSent_of_plain hop c⟩) h1 ⟨hf,trivial⟩
    (fun c' h' => ⟨trivial,?_⟩) h)⟩
  cases h2.symm.trans h'
  exact hs

end Core
end Iota.Starfish
