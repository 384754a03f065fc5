import Iota.Checkpoints.Builder

/-! What the loop over roots and their dependencies gives: the transactions that are needed and in
no checkpoint yet, whatever the order of the hash set. -/
namespace Iota.Checkpoints
open BuilderEnv Except List Visit
open Std (ExtTreeMap)
open Iota.Authority
variable {env : BuilderEnv} {order : HashOrder} {included : TransactionDigest → Bool}
  {existing : List TransactionDigest}

theorem getExecutedEffects_digest {d : TransactionDigest} {e : TransactionEffects}
    (h : env.getExecutedEffects d = some e) : e.transactionDigest = d := by
  simpa using List.find?_some h

/-- The transactions that are reached from the roots through dependencies executed in the epoch,
without going through those that are skipped. -/
inductive Needed (env : BuilderEnv) (skip : TransactionEffects → Bool)
    (roots : List TransactionEffects) : TransactionEffects → Prop
  | root {e} : e ∈ roots → skip e = false → Needed env skip roots e
  | dependency {e d e'} : Needed env skip roots e → d ∈ e.dependencies →
      env.executedInCurEpoch d = true → env.getExecutedEffects d = some e' → skip e' = false →
      Needed env skip roots e'

/-- The loop in the middle of an iteration, with the effects still to be visited. -/
structure Visiting (env : BuilderEnv) (skip : TransactionEffects → Bool)
    (roots todo : List TransactionEffects) (v : Visit) : Prop where
  results : ∀ e ∈ v.results, Needed env skip roots e
  stored : ∀ e ∈ todo, env.getExecutedEffects e.transactionDigest = some e
  needed : ∀ e ∈ todo, skip e = false → Needed env skip roots e
  pending : ∀ d ∈ v.pending, env.executedInCurEpoch d = true ∧
    ∃ e, Needed env skip roots e ∧ d ∈ e.dependencies
  covered : ∀ e ∈ roots, skip e = false → e ∈ v.results ∨ e ∈ todo
  seen : ∀ d ∈ v.seen, ∀ e, env.getExecutedEffects d = some e → skip e = false →
    e ∈ v.results ∨ e ∈ todo ∨ d ∈ v.pending
  dependencies : ∀ e ∈ v.results, ∀ d ∈ e.dependencies, env.executedInCurEpoch d = true →
    d ∈ v.seen

variable {e : TransactionEffects}

structure Added (env : BuilderEnv) (dependencies : List TransactionDigest) (v v' : Visit) :
    Prop where
  results : v'.results = v.results
  pending_sub : ∀ d ∈ v.pending, d ∈ v'.pending
  pending : ∀ d ∈ v'.pending, d ∈ v.pending ∨
    (d ∈ dependencies ∧ env.executedInCurEpoch d = true)
  seen_sub : ∀ d ∈ v.seen, d ∈ v'.seen
  seen : ∀ d ∈ v'.seen, d ∈ v.seen ∨ d ∈ v'.pending
  all : ∀ d ∈ dependencies, env.executedInCurEpoch d = true → d ∈ v'.seen

theorem added_foldl (dependencies : List TransactionDigest) (v : Visit) :
    Added env dependencies v (dependencies.foldl (addDependency env) v) := by
  induction dependencies generalizing v with
  | nil => exact ⟨rfl,fun _ h => h,fun _ h => .inl h,fun _ h => h,fun _ h => .inl h,nofun⟩
  | cons d ds ih =>
    rw [foldl_cons]
    have h := ih (addDependency env v d)
    unfold addDependency at h ⊢
    split at h
    · next hn =>
      rw [if_pos hn]
      have hexec : env.executedInCurEpoch d = true := (Bool.and_eq_true_iff.mp hn).1
      refine ⟨h.results,fun x hx => h.pending_sub x (mem_append_left _ hx),?_,
        fun x hx => h.seen_sub x (.tail _ hx),?_,?_⟩
      · intro x hx
        obtain hx | ⟨hx,he⟩ := h.pending x hx
        · obtain hx | hx := mem_append.mp hx
          · exact .inl hx
          · rw [mem_singleton.mp hx]
            exact .inr ⟨mem_cons_self,hexec⟩
        · exact .inr ⟨mem_cons_of_mem _ hx,he⟩
      · intro x hx
        obtain hx | hx := h.seen x hx
        · obtain rfl | hx := mem_cons.mp hx
          · exact .inr (h.pending_sub x (by simp))
          · exact .inl hx
        · exact .inr hx
      intro x hx he
      obtain rfl | hx := mem_cons.mp hx
      · exact h.seen_sub x mem_cons_self
      · exact h.all x hx he
    · next ho =>
      rw [if_neg ho]
      refine ⟨h.results,h.pending_sub,?_,h.seen_sub,h.seen,?_⟩
      · intro x hx
        obtain hx | ⟨hx,he⟩ := h.pending x hx
        · exact .inl hx
        · exact .inr ⟨mem_cons_of_mem _ hx,he⟩
      intro x hx he
      obtain rfl | hx := mem_cons.mp hx
      · refine h.seen_sub x ?_
        simpa [he] using ho
      · exact h.all x hx he

section
variable {skip : TransactionEffects → Bool} {roots todo : List TransactionEffects} {v : Visit}

theorem Visiting.drop {e : TransactionEffects} (h : Visiting env skip roots (e :: todo) v)
    (hs : skip e = true) :
    Visiting env skip roots todo { v with seen := e.transactionDigest :: v.seen } := by
  have hne : ∀ e', skip e' = false → e' ≠ e := by
    rintro e' he' rfl
    rw [hs] at he'
    cases he'
  refine ⟨h.results,fun x hx => h.stored x (.tail _ hx),
    fun x hx => h.needed x (.tail _ hx),h.pending,?_,?_,?_⟩
  · intro x hx hk
    obtain hr | ht := h.covered x hx hk
    · exact .inl hr
    · exact .inr ((mem_cons.mp ht).resolve_left (hne x hk))
  · intro d hd x hx hk
    obtain rfl | hd := mem_cons.mp hd
    · rw [h.stored e mem_cons_self] at hx
      exact absurd (Option.some.inj hx).symm (hne x hk)
    obtain hr | ht | hp := h.seen d hd x hx hk
    · exact .inl hr
    · exact .inr (.inl ((mem_cons.mp ht).resolve_left (hne x hk)))
    · exact .inr (.inr hp)
  · intro x hx d hd he
    exact mem_cons_of_mem _ (h.dependencies x hx d hd he)

theorem Visiting.take {e : TransactionEffects} (h : Visiting env skip roots (e :: todo) v)
    (hs : skip e = false) {v' : Visit}
    (ha : Added env e.dependencies { v with seen := e.transactionDigest :: v.seen } v') :
    Visiting env skip roots todo { v' with results := v'.results ++ [e] } := by
  have hnd := h.needed e mem_cons_self hs
  have hrs : v'.results = v.results := ha.results
  refine ⟨?_,fun x hx => h.stored x (.tail _ hx), fun x hx => h.needed x (.tail _ hx),?_,?_,?_,?_⟩
  · intro x hx
    rw [hrs] at hx
    obtain hx | hx := mem_append.mp hx
    · exact h.results x hx
    · rw [mem_singleton.mp hx]
      exact hnd
  · intro d hd
    obtain ho | ⟨hdp,hexec⟩ := ha.pending d hd
    · exact h.pending d ho
    · exact ⟨hexec,e,hnd,hdp⟩
  · intro x hx hk
    rw [hrs]
    obtain hr | ht := h.covered x hx hk
    · exact .inl (mem_append_left _ hr)
    obtain rfl | ht := mem_cons.mp ht
    · exact .inl (by simp)
    · exact .inr ht
  · intro d hd x hx hk
    rw [hrs]
    obtain ho | hp := ha.seen d hd
    · obtain rfl | ho := mem_cons.mp ho
      · rw [h.stored e mem_cons_self] at hx
        cases hx
        exact .inl (by simp)
      obtain hr | ht | hp := h.seen d ho x hx hk
      · exact .inl (mem_append_left _ hr)
      · obtain rfl | ht := mem_cons.mp ht
        · exact .inl (by simp)
        · exact .inr (.inl ht)
      · exact .inr (.inr (ha.pending_sub d hp))
    · exact .inr (.inr hp)
  · intro x hx d hd he
    rw [hrs] at hx
    obtain hx | hx := mem_append.mp hx
    · exact ha.seen_sub d (mem_cons_of_mem _ (h.dependencies x hx d hd he))
    · rw [mem_singleton.mp hx] at hd
      exact ha.all d hd he

end

theorem Visiting.visit {roots todo : List TransactionEffects} {v : Visit} {e : TransactionEffects}
    (h : Visiting env (skips env included existing) roots (e :: todo) v) :
    Visiting env (skips env included existing) roots todo
      (visit env included existing v e) := by
  unfold Visit.visit
  split
  · next hs => exact h.drop hs
  · next hs => exact h.take (by simpa using hs) (added_foldl _ _)

theorem Visiting.foldl {roots todo : List TransactionEffects} {v : Visit}
    (h : Visiting env (skips env included existing) roots todo v) :
    Visiting env (skips env included existing) roots []
      (todo.foldl (Visit.visit env included existing) v) := by
  induction todo generalizing v with
  | nil => exact h
  | cons e todo ih => exact ih h.visit

variable {digests : List TransactionDigest} {effects : List TransactionEffects}

theorem mem_of_multiGet {failure : CreateFailure}
    (h : env.multiGetExecutedEffects digests failure = .ok effects) :
    digests.map env.getExecutedEffects = effects.map some := by
  induction digests generalizing effects with
  | nil =>
    cases h
    rfl
  | cons d ds ih =>
    rw [multiGetExecutedEffects,mapM_cons] at h
    obtain ⟨e,he,h⟩ := of_bind h
    obtain ⟨es,hes,h⟩ := of_bind h
    cases h
    rw [map_cons,map_cons,ih hes]
    split at he
    · next hg =>
      cases he
      rw [hg]
    · cases he

theorem Visiting.next {roots effects : List TransactionEffects} {v : Visit}
    (h : Visiting env (skips env included existing) roots [] v)
    (hg : env.multiGetExecutedEffects (order.iter v.pending) .missingEffects = .ok effects) :
    Visiting env (skips env included existing) roots effects
      { seen := v.seen, results := v.results } := by
  have hmp := mem_of_multiGet hg
  have hs : ∀ e ∈ effects, ∃ d ∈ v.pending, env.getExecutedEffects d = some e := by
    intro e he
    have hm : some e ∈ (order.iter v.pending).map env.getExecutedEffects := by
      rw [hmp]
      exact mem_map_of_mem he
    obtain ⟨d,hd,hde⟩ := mem_map.mp hm
    exact ⟨d,(order.perm _).mem_iff.mp hd,hde⟩
  refine ⟨h.results,?_,?_,nofun,?_,?_,h.dependencies⟩
  · intro e he
    obtain ⟨d,-,hde⟩ := hs e he
    rw [getExecutedEffects_digest hde,hde]
  · intro e he hk
    obtain ⟨d,hd,hde⟩ := hs e he
    obtain ⟨hexec,e',hnd,hdp⟩ := h.pending d hd
    exact hnd.dependency hdp hexec hde hk
  · intro e he hk
    obtain hr | ht := h.covered e he hk
    · exact .inl hr
    · cases ht
  intro d hd e he hk
  obtain hr | ht | hp := h.seen d hd e he hk
  · exact .inl hr
  · cases ht
  have hm : some e ∈ effects.map some := by
    rw [← hmp,← he]
    exact mem_map_of_mem ((order.perm _).mem_iff.mpr hp)
  obtain ⟨e',he',heq⟩ := mem_map.mp hm
  cases heq
  exact .inr (.inl he')

variable {roots : List TransactionEffects}

theorem Visiting.mem_iff {v : Visit}
    (h : Visiting env (skips env included existing) roots [] v) (hn : v.pending = []) :
    e ∈ v.results ↔ Needed env (skips env included existing) roots e := by
  refine ⟨h.results e,fun hnd => ?_⟩
  induction hnd with
  | root he hk =>
    obtain hr | ht := h.covered _ he hk
    · exact hr
    · cases ht
  | dependency _ hd hexec hg hk ih =>
    obtain hr | ht | hp := h.seen _ (h.dependencies _ ih _ hd hexec) _ hg hk
    · exact hr
    · cases ht
    · rw [hn] at hp
      cases hp

variable {seen : List TransactionDigest}

theorem mem_completeLoop {fuel : Nat} {roots todo results : List TransactionEffects}
    {out : List TransactionEffects}
    (h : Visiting env (skips env included existing) roots todo { seen, results })
    (hok : env.completeLoop order included existing fuel todo seen results = .ok out) :
    e ∈ out ↔ Needed env (skips env included existing) roots e := by
  induction fuel generalizing todo seen results with
  | zero => cases hok
  | succ fuel ih =>
    unfold completeLoop at hok
    dsimp only at hok
    split at hok
    · next hn =>
      cases hok
      exact h.foldl.mem_iff (isEmpty_iff.mp hn)
    · obtain ⟨effects,hg,hok⟩ := of_bind hok
      exact ih (h.foldl.next hg) hok

theorem mem_completeCheckpointEffects {roots out : List TransactionEffects}
    (hr : ∀ e ∈ roots, env.getExecutedEffects e.transactionDigest = some e)
    (hok : env.completeCheckpointEffects order included roots existing = .ok out) :
    e ∈ out ↔ Needed env (skips env included existing) roots e := by
  refine mem_completeLoop ⟨forall_mem_nil _,hr,fun _ he hk => .root he hk,
    forall_mem_nil _,fun _ he _ => .inr he,forall_mem_nil _,forall_mem_nil _⟩ hok

theorem Needed.stored {skip : TransactionEffects → Bool}
    (hr : ∀ e ∈ roots, env.getExecutedEffects e.transactionDigest = some e)
    (h : Needed env skip roots e) : env.getExecutedEffects e.transactionDigest = some e := by
  cases h with
  | root he _ => exact hr e he
  | dependency _ _ _ hg _ => rw [getExecutedEffects_digest hg,hg]

theorem Needed.skip_eq {skip : TransactionEffects → Bool}
    (h : Needed env skip roots e) : skip e = false := by
  cases h with
  | root _ hk => exact hk
  | dependency _ _ _ _ hk => exact hk

section
variable {order' : HashOrder} {existing' : List TransactionDigest}

theorem skips_congr (h : ∀ d, d ∈ existing ↔ d ∈ existing') :
    skips env included existing = skips env included existing' := by
  funext e
  have hc : existing.contains e.transactionDigest =
      existing'.contains e.transactionDigest := by
    rw [Bool.eq_iff_iff,contains_iff_mem,contains_iff_mem,h]
  rw [skips,skips,hc]

theorem complete_congr {roots out out' : List TransactionEffects}
    (hr : ∀ e ∈ roots, env.getExecutedEffects e.transactionDigest = some e)
    (h : ∀ d, d ∈ existing ↔ d ∈ existing')
    (hok : env.completeCheckpointEffects order included roots existing = .ok out)
    (hok' : env.completeCheckpointEffects order' included roots existing' = .ok out')
    (e : TransactionEffects) : e ∈ out ↔ e ∈ out' := by
  rw [mem_completeCheckpointEffects hr hok,mem_completeCheckpointEffects hr hok',skips_congr h]

theorem functional_of_complete {roots out : List TransactionEffects}
    (hr : ∀ e ∈ roots, env.getExecutedEffects e.transactionDigest = some e)
    (hok : env.completeCheckpointEffects order included roots existing = .ok out) :
    Functional out := by
  intro e he e' he' heq
  have hs := ((mem_completeCheckpointEffects hr hok).mp he).stored hr
  have hs' := ((mem_completeCheckpointEffects hr hok).mp he').stored hr
  rw [heq,hs'] at hs
  exact (Option.some.inj hs).symm

theorem stored_of_multiGet {failure : CreateFailure}
    (h : env.multiGetExecutedEffects digests failure = .ok effects) :
    ∀ e ∈ effects, env.getExecutedEffects e.transactionDigest = some e := by
  intro e he
  have hm : some e ∈ digests.map env.getExecutedEffects := by
    rw [mem_of_multiGet h]
    exact mem_map_of_mem he
  obtain ⟨d,-,hd⟩ := mem_map.mp hm
  rw [getExecutedEffects_digest hd,hd]

theorem extract_mem {rootDigests : List TransactionDigest} {rootEffects : List TransactionEffects}
    {ccp : TransactionEffects}
    (h : env.extractConsensusCommitPrologue rootDigests rootEffects = some ccp) :
    ccp ∈ rootEffects := by
  unfold extractConsensusCommitPrologue at h
  split at h
  · split at h
    · cases h
      exact mem_cons_self
    · cases h
  · cases h

variable {out out' : List TransactionDigest}

theorem completePrologue_congr {prologue : Option TransactionEffects}
    (hr : ∀ e ∈ prologue, env.getExecutedEffects e.transactionDigest = some e)
    (h : ∀ d, d ∈ existing ↔ d ∈ existing')
    (hok : env.completePrologue order included prologue existing = .ok out)
    (hok' : env.completePrologue order' included prologue existing' = .ok out')
    (d : TransactionDigest) : d ∈ out ↔ d ∈ out' := by
  cases prologue with
  | none =>
    cases hok
    cases hok'
    exact h d
  | some ccp =>
    obtain ⟨unsorted,hc,hok⟩ := of_bind hok
    obtain ⟨unsorted',hc',hok'⟩ := of_bind hok'
    have hcp : ∀ e ∈ [ccp], env.getExecutedEffects e.transactionDigest = some e := by
      intro e he
      exact hr e (by rw [mem_singleton.mp he]; rfl)
    have hs := complete_congr hcp h hc hc'
    split at hok
    · cases hok
    split at hok'
    · cases hok'
    cases hok
    cases hok'
    simp only [mem_append,mem_map,h,hs]

theorem resolve_congr {roots : List TransactionKey} {sorted sorted' : List TransactionEffects}
    (h : ∀ d, d ∈ existing ↔ d ∈ existing')
    (hok : env.resolveCheckpointTransactions order included roots existing = .ok (sorted,out))
    (hok' : env.resolveCheckpointTransactions order' included roots existing' =
      .ok (sorted',out')) : sorted = sorted' ∧ ∀ d, d ∈ out ↔ d ∈ out' := by
  obtain ⟨rootDigests,hd,hok⟩ := of_bind hok
  obtain ⟨rootDigests',hd',hok'⟩ := of_bind hok'
  cases hd.symm.trans hd'
  obtain ⟨rootEffects,hef,hok⟩ := of_bind hok
  obtain ⟨rootEffects',he',hok'⟩ := of_bind hok'
  cases hef.symm.trans he'
  obtain ⟨ex,hex,hok⟩ := of_bind hok
  obtain ⟨ex',hex',hok'⟩ := of_bind hok'
  obtain ⟨unsorted,hu,hok⟩ := of_bind hok
  obtain ⟨unsorted',hu',hok'⟩ := of_bind hok'
  cases hok
  cases hok'
  have hr := stored_of_multiGet hef
  have hp := completePrologue_congr (fun e he => hr e (extract_mem he)) h hex hex'
  have hs := complete_congr hr hp hu hu'
  refine ⟨?_,fun d => by simp only [mem_append,mem_map,hp,hs]⟩
  rw [CausalOrder.causalSort_congr (functional_of_complete hr hu) hs]

theorem resolveAll_congr {pendings : List PendingCheckpoint}
    {lists lists' : List (List TransactionEffects)} (h : ∀ d, d ∈ existing ↔ d ∈ existing')
    (hok : env.resolveAll order included pendings existing = .ok lists)
    (hok' : env.resolveAll order' included pendings existing' = .ok lists') : lists = lists' := by
  induction pendings generalizing existing existing' lists lists' with
  | nil =>
    cases hok
    cases hok'
    rfl
  | cons pending rest ih =>
    obtain ⟨⟨sorted,out⟩,hs,hok⟩ := of_bind hok
    obtain ⟨⟨sorted',out'⟩,hs',hok'⟩ := of_bind hok'
    obtain ⟨others,ho,hok⟩ := of_bind hok
    obtain ⟨others',ho',hok'⟩ := of_bind hok'
    cases hok
    cases hok'
    obtain ⟨rfl,hot⟩ := resolve_congr h hs hs'
    rw [ih hot ho ho']

end

/-- What an iteration has seen, with nothing pending that had been seen before it. -/
structure Grows (env : BuilderEnv) (seen : List TransactionDigest) (v : Visit) : Prop where
  sub : ∀ d ∈ seen, d ∈ v.seen
  pending : ∀ d ∈ v.pending, env.executedInCurEpoch d = true ∧ d ∈ v.seen ∧ d ∉ seen

theorem Grows.addDependency {v : Visit} (h : Grows env seen v)
    (d : TransactionDigest) : Grows env seen (addDependency env v d) := by
  unfold Visit.addDependency
  split
  · next hn =>
    rw [Bool.and_eq_true_iff,Bool.not_eq_true',Bool.eq_false_iff,ne_eq,contains_iff_mem] at hn
    refine ⟨fun x hx => mem_cons_of_mem _ (h.sub x hx),fun x hx => ?_⟩
    obtain hx | hx := mem_append.mp hx
    · obtain ⟨hexec,hs,hnt⟩ := h.pending x hx
      exact ⟨hexec,mem_cons_of_mem _ hs,hnt⟩
    · rw [mem_singleton.mp hx]
      exact ⟨hn.1,mem_cons_self,fun hin => hn.2 (h.sub d hin)⟩
  · exact h

theorem Grows.visit {v : Visit} (h : Grows env seen v)
    (e : TransactionEffects) : Grows env seen (visit env included existing v e) := by
  have hs : Grows env seen { v with seen := e.transactionDigest :: v.seen } :=
    ⟨fun x hx => mem_cons_of_mem _ (h.sub x hx),fun x hx =>
      ⟨(h.pending x hx).1,mem_cons_of_mem _ (h.pending x hx).2.1,(h.pending x hx).2.2⟩⟩
  unfold Visit.visit
  split
  · exact hs
  have hd : Grows env seen (e.dependencies.foldl (Visit.addDependency env)
      { v with seen := e.transactionDigest :: v.seen }) :=
    List.foldlRecOn _ _ hs fun v hv d _ => hv.addDependency d
  exact ⟨hd.sub,hd.pending⟩

theorem grows_foldl (seen : List TransactionDigest) (results roots : List TransactionEffects) :
    Grows env seen (roots.foldl (visit env included existing) { seen, results }) :=
  List.foldlRecOn _ _ ⟨fun _ h => h,forall_mem_nil _⟩ fun _ hv e _ => hv.visit e

def unseen (env : BuilderEnv) (seen : List TransactionDigest) : Finset TransactionDigest :=
  (env.executed.map (·.transactionDigest)).toFinset \ seen.toFinset

theorem mem_executed_of_get {d : TransactionDigest} {e : TransactionEffects}
    (h : env.getExecutedEffects d = some e) : e ∈ env.executed := mem_of_find?_eq_some h

theorem exists_multiGet (failure : CreateFailure)
    (h : ∀ d ∈ digests, ∃ e, env.getExecutedEffects d = some e) :
    ∃ effects, env.multiGetExecutedEffects digests failure = .ok effects := by
  induction digests with
  | nil => exact ⟨[],rfl⟩
  | cons d ds ih =>
    obtain ⟨e,he⟩ := h d mem_cons_self
    obtain ⟨es,hes⟩ := ih fun x hx => h x (.tail _ hx)
    refine ⟨e :: es,?_⟩
    unfold multiGetExecutedEffects at hes ⊢
    rw [mapM_cons,he,hes]
    rfl

section
variable (hexec : ∀ d, env.executedInCurEpoch d = true → ∃ e, env.getExecutedEffects d = some e)
include hexec

theorem Grows.card_lt {v : Visit} (h : Grows env seen v)
    (hne : v.pending ≠ []) : (unseen env v.seen).card < (unseen env seen).card := by
  obtain ⟨d,hd⟩ := exists_mem_of_ne_nil _ hne
  obtain ⟨he,hs,hn⟩ := h.pending d hd
  obtain ⟨e,hg⟩ := hexec d he
  refine Finset.card_lt_card (Finset.ssubset_iff_subset_ne.mpr ⟨?_,fun heq => ?_⟩)
  · refine Finset.sdiff_subset_sdiff le_rfl fun x hx => ?_
    exact mem_toFinset.mpr (h.sub x (mem_toFinset.mp hx))
  have hm : d ∈ unseen env seen := by
    refine Finset.mem_sdiff.mpr ⟨?_,fun hin => hn (mem_toFinset.mp hin)⟩
    rw [mem_toFinset,← getExecutedEffects_digest hg]
    exact mem_map_of_mem (mem_executed_of_get hg)
  rw [← heq] at hm
  exact (Finset.mem_sdiff.mp hm).2 (mem_toFinset.mpr hs)

theorem exists_completeLoop {fuel : Nat} {roots results : List TransactionEffects}
    (hf : (unseen env seen).card ≤ fuel) :
    ∃ out, env.completeLoop order included existing (fuel+1) roots seen results = .ok out := by
  induction fuel generalizing roots results seen with
  | zero =>
    unfold completeLoop
    dsimp only
    split
    · exact ⟨_,rfl⟩
    · next hne =>
      have hlt := (grows_foldl seen results roots).card_lt hexec fun hn => hne (isEmpty_iff.mpr hn)
      omega
  | succ fuel ih =>
    unfold completeLoop
    dsimp only
    split
    · exact ⟨_,rfl⟩
    · next hne =>
      have hlt := (grows_foldl seen results roots).card_lt hexec fun hn => hne (isEmpty_iff.mpr hn)
      obtain ⟨effects,he⟩ := exists_multiGet .missingEffects fun d hd =>
        hexec d (((grows_foldl seen results roots).pending d ((order.perm _).mem_iff.mp hd)).1)
      rw [he,ok_bind]
      exact ih (by omega)

theorem exists_complete (roots : List TransactionEffects) :
    ∃ out, env.completeCheckpointEffects order included roots existing = .ok out := by
  refine exists_completeLoop hexec ?_
  calc (unseen env []).card
    _ ≤ (env.executed.map (·.transactionDigest)).toFinset.card :=
      Finset.card_le_card Finset.sdiff_subset
    _ ≤ (env.executed.map (·.transactionDigest)).length := toFinset_card_le _
    _ = env.executed.length := length_map _

omit hexec in
theorem foldl_visit_of_skips {roots : List TransactionEffects} {v : Visit}
    (h : ∀ e ∈ roots, skips env included existing e = true) :
    (roots.foldl (visit env included existing) v).pending = v.pending ∧
      (roots.foldl (visit env included existing) v).results = v.results := by
  induction roots generalizing v with
  | nil => exact ⟨rfl,rfl⟩
  | cons e roots ih =>
    obtain ⟨he,hr⟩ := forall_mem_cons.mp h
    have hv : visit env included existing v e =
        { v with seen := e.transactionDigest :: v.seen } := if_pos he
    rw [foldl_cons,hv]
    exact ih hr

theorem complete_single {e : TransactionEffects} (hs : skips env included existing e = false)
    (hdp : ∀ d ∈ e.dependencies, env.executedInCurEpoch d = true → ∀ e',
      env.getExecutedEffects d = some e' → skips env included existing e' = true) :
    env.completeCheckpointEffects order included [e] existing = .ok [e] := by
  set v := e.dependencies.foldl (addDependency env) { seen := [e.transactionDigest], results := [] }
  have had : Added env e.dependencies { seen := [e.transactionDigest], results := [] } v :=
    added_foldl _ _
  have hv : [e].foldl (visit env included existing) { seen := [], results := [] } =
      { v with results := [e] } := by
    have hon : visit env included existing { seen := [], results := [] } e =
        { v with results := v.results ++ [e] } := if_neg (by simp [hs])
    rw [foldl_cons,foldl_nil,hon,had.results]
    rfl
  unfold completeCheckpointEffects completeLoop
  rw [hv]
  dsimp only
  split
  · rfl
  · next hne =>
    have hp : ∀ d ∈ v.pending, d ∈ e.dependencies ∧ env.executedInCurEpoch d = true := by
      intro d hd
      obtain ho | hnw := had.pending d hd
      · cases ho
      · exact hnw
    obtain ⟨effects,he⟩ := exists_multiGet .missingEffects fun d hd =>
      hexec d (hp d ((order.perm v.pending).mem_iff.mp hd)).2
    have hsk : ∀ e' ∈ effects, skips env included existing e' = true := by
      intro e' he'
      have hm : some e' ∈ (order.iter v.pending).map env.getExecutedEffects := by
        rw [mem_of_multiGet he]
        exact mem_map_of_mem he'
      obtain ⟨d,hd,hg⟩ := mem_map.mp hm
      obtain ⟨hde,hd'⟩ := hp d ((order.perm v.pending).mem_iff.mp hd)
      exact hdp d hde hd' e' hg
    -- there is an executed dependency, so fuel is left for the second iteration
    obtain ⟨d,hd⟩ := exists_mem_of_ne_nil _ fun hn => hne (isEmpty_iff.mpr hn)
    obtain ⟨e',hg⟩ := hexec d (hp d hd).2
    obtain ⟨k,hk⟩ : ∃ k, env.executed.length = k+1 :=
      ⟨env.executed.length - 1,(Nat.succ_pred_eq_of_pos
        (length_pos_of_mem (mem_executed_of_get hg))).symm⟩
    rw [he,ok_bind,hk]
    obtain ⟨hn,hr⟩ := foldl_visit_of_skips hsk
    unfold completeLoop
    rw [if_pos (by rw [hn]; rfl),hr]
    rfl

end
end Iota.Checkpoints
