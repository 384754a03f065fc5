import Iota.Authority.ConsensusHandler

/-! The deferred certificates as one map, whichever table holds them, and what the loop over the
certificates of a commit does with each of them. -/
namespace Iota.Authority
open DeferredTransaction List
open Std (ExtTreeMap)
namespace ConsensusOutputCache

def view (gasPriceFeedback : Bool) (cache : ConsensusOutputCache) :
    ExtTreeMap DeferralKey (List VerifiedSequencedConsensusTransaction) :=
  if gasPriceFeedback then
    cache.deferredTransactionsV2.map fun _ txs => txs.map transaction
  else cache.deferredTransactions

theorem view_record (gasPriceFeedback : Bool) (cache : ConsensusOutputCache)
    (output : ConsensusCommitOutput) :
    (cache.record gasPriceFeedback output).view gasPriceFeedback =
      output.deletedDeferredTxns.foldl (fun t k => t.erase k)
        (output.deferredTxnsV1.foldl (fun t e => t.insert e.1 e.2)
          (cache.view gasPriceFeedback)) := by
  cases gasPriceFeedback with
  | false => rfl
  | true =>
    apply ExtTreeMap.ext_getElem?
    intro key
    simp only [view,record,if_true,ExtTreeMap.getElem?_map,ExtTreeMap.getElem?_foldl_erase,
      ExtTreeMap.getElem?_foldl_insert,ConsensusCommitOutput.deferredTxnsV1]
    split
    · rfl
    · rw [← map_reverse,List.find?_map,Option.map_map,Option.map_or,Option.map_map]
      rfl

end ConsensusOutputCache
namespace HandlerState
variable (cfg : HandlerConfig) (s : HandlerState)

def deferred : ExtTreeMap DeferralKey (List VerifiedSequencedConsensusTransaction) :=
  s.cache.view cfg.congestionControlGasPriceFeedbackMechanism

theorem map_loadDeferredTransactions (lo hi : DeferralKey) :
    (s.loadDeferredTransactions cfg lo hi).map
        (fun e => (e.1,e.2.map transaction)) =
      (s.deferred cfg).range lo hi := by
  unfold loadDeferredTransactions deferred ConsensusOutputCache.view
  split
  · unfold ExtTreeMap.range
    rw [ExtTreeMap.toList_map,filter_map]
    rfl
  rw [map_map]
  conv_rhs => rw [← map_id (ExtTreeMap.range _ _ _)]
  refine map_congr_left fun e _ => ?_
  simp [Function.comp_def]

theorem deferredTransactionsEmpty_iff (cache : ConsensusOutputCache) :
    deferredTransactionsEmpty cfg cache = true ↔
      ∀ key : DeferralKey,
        (cache.view cfg.congestionControlGasPriceFeedbackMechanism)[key]? = none := by
  unfold deferredTransactionsEmpty ConsensusOutputCache.view
  split
  · simp only [ExtTreeMap.isEmpty_iff_getElem?_eq_none,ExtTreeMap.getElem?_map,
      Option.map_eq_none_iff]
  · rw [ExtTreeMap.isEmpty_iff_getElem?_eq_none]

end HandlerState

namespace Collected
variable {f : VerifiedSequencedConsensusTransaction → ConsensusCertificateResult}

/-- What has been collected from the certificates in `done`. -/
structure Of (f : VerifiedSequencedConsensusTransaction → ConsensusCertificateResult)
    (done : List VerifiedSequencedConsensusTransaction) (c : Collected) : Prop where
  processed : c.processed = done.filter fun tx => f tx ≠ .ignored
  bag : (c.deferredTxns.flat.map transaction ++ c.scheduled ++
    c.cancelledTxns).Perm c.processed
  nonempty : ∀ (key : DeferralKey) txs, c.deferredTxns[key]? = some txs → txs ≠ []
  keys : ∀ (key : DeferralKey) txs, c.deferredTxns[key]? = some txs → ∀ tx ∈ txs,
    tx.transaction ∈ done ∧ f tx.transaction = .deferred key tx.suggestedGasPrice
  cancelled : ∀ tx ∈ c.cancelledTxns, tx ∈ done

theorem Of.nil : Of f [] {} := by
  refine ⟨rfl,?_,?_,?_,nofun⟩
  · simp [ExtTreeMap.flat]
  · intro key txs h
    simp at h
  · intro key txs h
    simp at h

theorem Of.add {done : List VerifiedSequencedConsensusTransaction} {c : Collected}
    (h : Of f done c) {tx : VerifiedSequencedConsensusTransaction}
    (hn : tx.digest ∉ done.map (·.digest)) :
    ∃ c', c.add tx (f tx) = .ok c' ∧ Of f (done ++ [tx]) c' := by
  have hk : ∀ (key : DeferralKey) txs, c.deferredTxns[key]? = some txs → ∀ t ∈ txs,
      t.transaction ∈ done ++ [tx] ∧ f t.transaction = .deferred key t.suggestedGasPrice :=
    fun key txs hg t ht => ⟨mem_append_left _ (h.keys key txs hg t ht).1,
      (h.keys key txs hg t ht).2⟩
  have hc : ∀ t ∈ c.cancelledTxns, t ∈ done ++ [tx] :=
    fun t ht => mem_append_left _ (h.cancelled t ht)
  have hp : f tx ≠ .ignored →
      c.processed ++ [tx] = (done ++ [tx]).filter fun t => f t ≠ .ignored := by
    intro hf
    rw [filter_append,← h.processed]
    simp [hf]
  cases hf : f tx with
  | ignored =>
    refine ⟨c,rfl,?_,h.bag,h.nonempty,hk,hc⟩
    rw [filter_append,← h.processed]
    simp [hf]
  | scheduled start =>
    refine ⟨_,rfl,hp (by simp [hf]),?_,h.nonempty,hk,hc⟩
    have hb := h.bag.append_right [tx]
    refine List.Perm.trans ?_ hb
    simp only [append_assoc]
    exact (perm_append_comm.append_left _).append_left _
  | deferred key price =>
    refine ⟨_,rfl,hp (by simp [hf]),?_,?_,?_,hc⟩
    · have hfl := (c.deferredTxns.flat_pushAt key ⟨tx,price⟩).map transaction
      have hb := h.bag.append_right [tx]
      refine List.Perm.trans ?_ hb
      refine ((hfl.append_right _).append_right _).trans ?_
      exact (perm_append_singleton tx _).symm
    · intro key' txs hg
      rw [ExtTreeMap.getElem?_pushAt] at hg
      split at hg
      · cases hg
        simp
      · exact h.nonempty key' txs hg
    intro key' txs hg t ht
    rw [ExtTreeMap.getElem?_pushAt] at hg
    split at hg
    · next heq =>
      cases hg
      subst heq
      obtain ht | ht := mem_append.mp ht
      · cases ho : c.deferredTxns[key]? with
        | none => rw [ho] at ht; cases ht
        | some old =>
          rw [ho] at ht
          exact hk key old ho t ht
      · rw [mem_singleton.mp ht]
        exact ⟨mem_append_right _ mem_cons_self,hf⟩
    · exact hk key' txs hg t ht
  | cancelled reason =>
    have hfr : tx.digest ∉ c.cancelledTxns.map (·.digest) := by
      intro hm
      obtain ⟨t,ht,hd⟩ := mem_map.mp hm
      exact hn (hd ▸ mem_map_of_mem (h.cancelled t ht))
    refine ⟨{ c with
      cancelledTxns := c.cancelledTxns ++ [tx]
      processed := c.processed ++ [tx] },if_neg hfr,hp (by simp [hf]),?_,
      h.nonempty,hk,?_⟩
    · rw [← append_assoc]
      exact h.bag.append_right [tx]
    intro t ht
    obtain ht | ht := mem_append.mp ht
    · exact hc t ht
    · exact mem_append_right _ ht

theorem Of.foldlM {done txs : List VerifiedSequencedConsensusTransaction} {c : Collected}
    (h : Of f done c) (hn : ((done ++ txs).map (·.digest)).Nodup) :
    ∃ c', txs.foldlM (fun c tx => c.add tx (f tx)) c = .ok c' ∧ Of f (done ++ txs) c' := by
  induction txs generalizing done c with
  | nil => exact ⟨c,rfl,by simpa using h⟩
  | cons tx txs ih =>
    have hnw : tx.digest ∉ done.map (·.digest) := by
      intro hm
      rw [map_append,nodup_append] at hn
      exact hn.2.2 _ hm _ (by simp) rfl
    obtain ⟨c1,h1,hof⟩ := h.add hnw
    obtain ⟨c',hc',hof'⟩ := ih hof (by simpa using hn)
    refine ⟨c',?_,by simpa using hof'⟩
    rw [foldlM_cons,h1,Except.ok_bind,hc']

end Collected
end Iota.Authority
