import Iota.Lib.Simulation
import Mathlib

/-! The max heap of the framework. A vector has its length in its type: every index that the source
reads or swaps is below the length it was compared with. -/
namespace Iota.Framework
variable {T : Type} {n : Nat}

structure Entry (T : Type) where
  priority : Nat
  value : T

structure PriorityQueue (T : Type) where
  entries : Array (Entry T)

namespace PriorityQueue
open Machine

def ePopFromEmptyHeap : Nat := 0

/-- The node with the highest priority among `i` and its two children. -/
def maxOfFamily (v : Vector (Entry T) n) (i : Fin n) : Fin n :=
  let max : Fin n :=
    if h : i.1 * 2 + 1 < n then
      if v[i].priority < v[i.1 * 2 + 1].priority then ⟨i.1 * 2 + 1,h⟩ else i
    else i
  if h : i.1 * 2 + 2 < n then
    if v[max].priority < v[i.1 * 2 + 2].priority then ⟨i.1 * 2 + 2,h⟩ else max
  else max

theorem maxOfFamily_cases (v : Vector (Entry T) n) (i : Fin n) :
    (maxOfFamily v i).1 = i.1 ∨ (maxOfFamily v i).1 = i.1 * 2 + 1 ∨
      (maxOfFamily v i).1 = i.1 * 2 + 2 := by
  unfold maxOfFamily
  grind

def maxHeapifyRecursive (v : Vector (Entry T) n) (i : Nat) : Except Nat (Vector (Entry T) n) :=
  if n = 0 then .ok v
  else if hi : i < n then
    let max := maxOfFamily v ⟨i,hi⟩
    if max.1 ≠ i then maxHeapifyRecursive (v.swap max i) max.1 else .ok v
  else .error 1
termination_by n - i
decreasing_by
  have := maxOfFamily_cases v ⟨i,hi⟩
  grind

def restoreHeapRecursive (v : Vector (Entry T) n) (i : Fin n) : Vector (Entry T) n :=
  if i.1 = 0 then v
  else
    let parent := (i.1 - 1) / 2
    if v[parent].priority < v[i].priority then
      restoreHeapRecursive (v.swap i parent) ⟨parent,by omega⟩
    else v
termination_by i.1

/-- The loop of `new`, from the node below `i` down to the root. -/
def heapifyBelow (v : Vector (Entry T) n) : Nat → Except Nat (Vector (Entry T) n)
  | 0 => .ok v
  | i+1 => do
    let v ← maxHeapifyRecursive v i
    heapifyBelow v i

def new (entries : Array (Entry T)) : Except Nat (PriorityQueue T) := do
  let v ← heapifyBelow entries.toVector (entries.size / 2)
  .ok ⟨v.toArray⟩

def popMax (pq : PriorityQueue T) : Except Nat (Entry T × PriorityQueue T) :=
  if h : 0 < pq.entries.size then do
    -- `swap_remove(0)`
    let rest := (pq.entries.toVector.swap 0 (pq.entries.size - 1)).pop
    let v ← maxHeapifyRecursive rest 0
    .ok (pq.entries[0],⟨v.toArray⟩)
  else .error ePopFromEmptyHeap

def insert (pq : PriorityQueue T) (priority : Nat) (value : T) : PriorityQueue T :=
  let v := pq.entries.toVector.push ⟨priority,value⟩
  ⟨(restoreHeapRecursive v (Fin.last _)).toArray⟩

inductive QueueOp (T : Type)
  | insert (priority : Nat) (value : T)
  | popMax

def exec (pq : PriorityQueue T) : QueueOp T → Except Nat (Option (Entry T) × PriorityQueue T)
  | .insert priority value => .ok (none,pq.insert priority value)
  | .popMax => do
    let (e,pq) ← pq.popMax
    .ok (some e,pq)

def inserted (ops : List (QueueOp T)) : List (Entry T) :=
  ops.filterMap fun
    | .insert priority value => some ⟨priority,value⟩
    | .popMax => none

def popped (results : List (Except Nat (Option (Entry T)))) : List (Entry T) :=
  results.filterMap fun
    | .ok e => e
    | .error _ => none

def prio (v : Vector (Entry T) n) (k : Nat) : Nat := (v[k]?.map Entry.priority).getD 0

/-- The order of the heap at the nodes with a parent from `lo` on. -/
def HeapFrom (lo : Nat) (f : Nat → Nat) : Prop :=
  ∀ k, 0 < k → lo ≤ (k - 1) / 2 → f k ≤ f ((k - 1) / 2)

/-- The order but for the children of `i`, which are below the parent of `i`. -/
structure SiftDown (lo i : Nat) (f : Nat → Nat) : Prop where
  off : ∀ k, 0 < k → lo ≤ (k - 1) / 2 → (k - 1) / 2 ≠ i → f k ≤ f ((k - 1) / 2)
  below : ∀ k, 0 < k → (k - 1) / 2 = i → 0 < i → lo ≤ (i - 1) / 2 → f k ≤ f ((i - 1) / 2)

/-- The order but for `i` itself, whose children are below its parent. -/
structure SiftUp (i : Nat) (f : Nat → Nat) : Prop where
  off : ∀ k, 0 < k → k ≠ i → f k ≤ f ((k - 1) / 2)
  below : ∀ k, 0 < k → (k - 1) / 2 = i → 0 < i → f k ≤ f ((i - 1) / 2)

section Sift
variable {lo i j m : Nat} {f g : Nat → Nat} {v w : Vector (Entry T) n}

theorem SiftDown.step (h : SiftDown lo i f) (hm : m = i * 2 + 1 ∨ m = i * 2 + 2)
    (h1 : f (i * 2 + 1) ≤ f m) (h2 : f (i * 2 + 2) ≤ f m) (hi : f i ≤ f m)
    (hg : ∀ k, g k = if k = m then f i else if k = i then f m else f k) : SiftDown lo m g := by
  constructor
  · intro k hk hlo hne
    have := h.off k hk hlo
    have := h.below m
    grind
  intro k hk hp hm0 hlo
  have := h.off k hk
  grind

theorem SiftDown.heapFrom (h : SiftDown lo i f) (h1 : f (i * 2 + 1) ≤ f i)
    (h2 : f (i * 2 + 2) ≤ f i) : HeapFrom lo f := by
  intro k hk hlo
  have := h.off k hk hlo
  have : (k - 1) / 2 = i → k = i * 2 + 1 ∨ k = i * 2 + 2 := by omega
  grind

theorem SiftUp.step (h : SiftUp i f) (hi : 0 < i) (hlt : f ((i - 1) / 2) < f i)
    (hg : ∀ k, g k = if k = i then f ((i - 1) / 2) else if k = (i - 1) / 2 then f i else f k) :
    SiftUp ((i - 1) / 2) g := by
  constructor
  · intro k hk hne
    have := h.off k hk
    have := h.below k hk
    grind
  intro k hk hp hm0
  have := h.off k hk
  have := h.off ((i - 1) / 2) hm0
  grind

theorem prio_swap {hi : i < n} {hj : j < n} (k : Nat) : prio (v.swap i j) k =
    if k = i then prio v j else if k = j then prio v i else prio v k := by
  unfold prio
  grind

theorem prio_of_lt {k : Nat} (h : k < n) : prio v k = v[k].priority := by
  simp [prio,h]

theorem prio_of_le {k : Nat} (h : n ≤ k) : prio v k = 0 := by
  simp [prio,h]

theorem prio_le_maxOfFamily (i : Fin n) : prio v i ≤ prio v (maxOfFamily v i) ∧
    prio v (i.1 * 2 + 1) ≤ prio v (maxOfFamily v i) ∧
    prio v (i.1 * 2 + 2) ≤ prio v (maxOfFamily v i) := by
  unfold prio maxOfFamily
  grind

theorem maxHeapifyRecursive_ok (hin : n ≠ 0 → i < n) (h : SiftDown lo i (prio v)) :
    ∃ w, maxHeapifyRecursive v i = .ok w ∧ w.Perm v ∧ HeapFrom lo (prio w) := by
  induction v, i using maxHeapifyRecursive.induct with
  | case1 v i =>
    subst n
    rw [maxHeapifyRecursive,if_pos rfl]
    have hz k : prio v k = 0 := prio_of_le (Nat.zero_le k)
    exact ⟨v,rfl,.refl v,h.heapFrom (by simp [hz]) (by simp [hz])⟩
  | case2 v i hn hi max hne ih =>
    rw [maxHeapifyRecursive,if_neg hn,dif_pos hi,if_pos hne]
    obtain ⟨hm,h1,h2⟩ := prio_le_maxOfFamily (v := v) ⟨i,hi⟩
    have hc := (maxOfFamily_cases v ⟨i,hi⟩).resolve_left hne
    obtain ⟨w,hw,hp,hf⟩ := ih (fun _ => max.2) (h.step hc h1 h2 hm prio_swap)
    exact ⟨w,hw,hp.trans (Vector.swap_perm ..),hf⟩
  | case3 v i hn hi max he =>
    rw [maxHeapifyRecursive,if_neg hn,dif_pos hi,if_neg he]
    obtain ⟨-,h1,h2⟩ := prio_le_maxOfFamily (v := v) ⟨i,hi⟩
    rw [not_not.mp he] at h1 h2
    exact ⟨v,rfl,.refl v,h.heapFrom h1 h2⟩
  | case4 v i hn hni => exact absurd (hin hn) hni

theorem restoreHeapRecursive_spec (i : Fin n) (h : SiftUp i (prio v)) :
    (restoreHeapRecursive v i).Perm v ∧ HeapFrom 0 (prio (restoreHeapRecursive v i)) := by
  induction v, i using restoreHeapRecursive.induct with
  | case1 v i hi =>
    rw [restoreHeapRecursive,if_pos hi]
    exact ⟨.refl v,fun k hk _ => h.off k hk (by omega)⟩
  | case2 v i hi parent hlt ih =>
    rw [restoreHeapRecursive,if_neg hi,if_pos hlt]
    have hlt' : prio v parent < prio v i := by rwa [prio_of_lt,prio_of_lt]
    obtain ⟨hp,hf⟩ := ih (h.step (Nat.pos_of_ne_zero hi) hlt' prio_swap)
    exact ⟨hp.trans (Vector.swap_perm ..),hf⟩
  | case3 v i hi parent hle =>
    rw [restoreHeapRecursive,if_neg hi,if_neg hle]
    refine ⟨.refl v,fun k hk _ => ?_⟩
    by_cases he : k = i
    · subst he
      rw [prio_of_lt i.2,prio_of_lt (by omega)]
      exact Nat.le_of_not_lt hle
    · exact h.off k hk he

theorem heapifyBelow_ok (hi : i ≤ n) (h : HeapFrom i (prio v)) :
    ∃ w, heapifyBelow v i = .ok w ∧ w.Perm v ∧ HeapFrom 0 (prio w) := by
  induction i generalizing v with
  | zero => exact ⟨v,rfl,.refl v,h⟩
  | succ i ih =>
    have hs : SiftDown i i (prio v) :=
      ⟨fun k hk hlo hne => h k hk (by omega),fun k hk he h0 hlo => by omega⟩
    obtain ⟨u,hu,hpu,hfu⟩ := maxHeapifyRecursive_ok (fun _ => hi) hs
    obtain ⟨w,hw,hpw,hfw⟩ := ih (Nat.le_of_succ_le hi) hfu
    refine ⟨w,?_,hpw.trans hpu,hfw⟩
    rw [heapifyBelow,hu]
    exact hw

theorem HeapFrom.le_root (h : HeapFrom 0 f) (k : Nat) : f k ≤ f 0 := by
  induction k using Nat.strong_induction_on with
  | _ k ih =>
    rcases Nat.eq_zero_or_pos k with rfl | hk
    · exact le_rfl
    · exact (h k hk (Nat.zero_le _)).trans (ih _ (by omega))

end Sift
variable {pq pq' : PriorityQueue T}

def HeapOrder (pq : PriorityQueue T) : Prop :=
  ∀ k (h : k < pq.entries.size), 0 < k →
    pq.entries[k].priority ≤ pq.entries[(k - 1) / 2].priority

theorem HeapOrder.heapFrom (h : pq.HeapOrder) : HeapFrom 0 (prio pq.entries.toVector) := by
  intro k hk _
  by_cases hn : k < pq.entries.size
  · rw [prio_of_lt hn,prio_of_lt (by omega)]
    exact h k hn hk
  · rw [prio_of_le (Nat.le_of_not_lt hn)]
    exact Nat.zero_le _

theorem HeapFrom.heapOrder {v : Vector (Entry T) n} (h : HeapFrom 0 (prio v)) :
    HeapOrder ⟨v.toArray⟩ := by
  intro k hk h0
  have hkn : k < n := by simpa using hk
  have := h k h0 (Nat.zero_le _)
  rwa [prio_of_lt hkn,prio_of_lt (by omega)] at this

theorem new_ok (entries : Array (Entry T)) :
    ∃ pq, new entries = .ok pq ∧ pq.HeapOrder ∧ pq.entries.toList.Perm entries.toList := by
  have hf : HeapFrom (entries.size / 2) (prio entries.toVector) := by
    intro k hk hlo
    rw [prio_of_le (by omega)]
    exact Nat.zero_le _
  obtain ⟨w,hw,hp,hf⟩ := heapifyBelow_ok (Nat.div_le_self _ _) hf
  refine ⟨⟨w.toArray⟩,?_,hf.heapOrder,hp.toArray.toList⟩
  rw [new,hw]
  rfl

theorem insert_spec (h : pq.HeapOrder) (priority : Nat) (value : T) :
    (pq.insert priority value).HeapOrder ∧ (pq.insert priority value).entries.toList.Perm
      (pq.entries.toList ++ [⟨priority,value⟩]) := by
  have hs : SiftUp pq.entries.size (prio (pq.entries.toVector.push ⟨priority,value⟩)) := by
    have hf := h.heapFrom
    unfold HeapFrom prio at hf
    constructor
    · intro k hk hne
      have := hf k hk
      unfold prio
      grind
    intro k hk he _
    rw [prio_of_le (by omega)]
    exact Nat.zero_le _
  obtain ⟨hp,hf⟩ := restoreHeapRecursive_spec (Fin.last _) hs
  refine ⟨hf.heapOrder,hp.toArray.toList.trans ?_⟩
  simp

theorem popMax_ok (h : pq.HeapOrder) (hn : 0 < pq.entries.size) :
    ∃ pq', pq.popMax = .ok (pq.entries[0],pq') ∧ pq'.HeapOrder ∧
      pq.entries.toList.Perm (pq.entries[0] :: pq'.entries.toList) := by
  let v := pq.entries.toVector.swap 0 (pq.entries.size - 1)
  have hs : SiftDown 0 0 (prio v.pop) := by
    have hf := h.heapFrom
    refine ⟨fun k hk _ hne => ?_,fun k _ _ h0 => absurd h0 (lt_irrefl 0)⟩
    have := hf k hk
    unfold prio at *
    grind
  obtain ⟨w,hw,hp,hf⟩ := maxHeapifyRecursive_ok (fun h => Nat.pos_of_ne_zero h) hs
  refine ⟨⟨w.toArray⟩,?_,hf.heapOrder,?_⟩
  · rw [popMax,dif_pos hn]
    show (maxHeapifyRecursive v.pop 0 >>= _) = _
    rw [hw]
    rfl
  have hl : v.toList = v.pop.toList ++ [pq.entries[0]] := by
    refine List.ext_getElem (by simp; omega) fun k hk hk' => ?_
    grind
  have hv : v.toList.Perm pq.entries.toList := (Vector.swap_perm ..).toArray.toList
  rw [hl] at hv
  exact hv.symm.trans (List.perm_append_comm.trans (hp.toArray.toList.symm.cons _))

theorem popMax_empty (hn : ¬0 < pq.entries.size) : pq.popMax = .error ePopFromEmptyHeap :=
  dif_neg hn

theorem call_spec (h : pq.HeapOrder) (op : QueueOp T) :
    (call exec pq op).2.HeapOrder ∧
      ((call exec pq op).2.entries.toList ++ popped [(call exec pq op).1]).Perm
        (pq.entries.toList ++ inserted [op]) := by
  unfold call exec
  cases op with
  | insert priority value =>
    obtain ⟨hi,hp⟩ := insert_spec h priority value
    exact ⟨hi,by simpa [popped,inserted] using hp⟩
  | popMax =>
    by_cases hn : 0 < pq.entries.size
    · obtain ⟨pq',he,ho,hp⟩ := popMax_ok h hn
      rw [he]
      refine ⟨ho,?_⟩
      simpa [popped,inserted] using List.perm_append_comm.trans hp.symm
    · rw [popMax_empty hn]
      exact ⟨h,.refl _⟩

theorem calls_spec (h : pq.HeapOrder) (ops : List (QueueOp T)) :
    (calls exec pq ops).2.HeapOrder ∧
      ((calls exec pq ops).2.entries.toList ++ popped (calls exec pq ops).1).Perm
        (pq.entries.toList ++ inserted ops) := by
  induction ops generalizing pq with
  | nil => exact ⟨h,.refl _⟩
  | cons op ops ih =>
    obtain ⟨ho,hp⟩ := call_spec h op
    obtain ⟨ho',hp'⟩ := ih ho
    have hr : popped (calls exec pq (op :: ops)).1 =
        popped [(call exec pq op).1] ++ popped (calls exec (call exec pq op).2 ops).1 :=
      List.filterMap_append (l := [_])
    have hi : inserted (op :: ops) = inserted [op] ++ inserted ops :=
      List.filterMap_append (l := [op])
    refine ⟨ho',?_⟩
    rw [hr,hi,← List.append_assoc pq.entries.toList]
    refine .trans ?_ (hp.append_right _)
    rw [List.append_assoc]
    refine (List.perm_append_comm.append_left _).trans ?_
    rw [← List.append_assoc]
    refine (hp'.append_right _).trans ?_
    rw [List.append_assoc]
    exact List.perm_append_comm.append_left _

/-- After `new` and any calls: the order of the heap, the entries that were put in and not popped,
and the answer of a further `pop_max`. -/
theorem priorityQueue_calls (entries : Array (Entry T)) (ops : List (QueueOp T)) :
    ∃ pq results pq', new entries = .ok pq ∧ calls exec pq ops = (results,pq') ∧
      pq'.HeapOrder ∧
      (pq'.entries.toList ++ popped results).Perm (entries.toList ++ inserted ops) ∧
      match pq'.popMax with
      | .ok (e,_) => e ∈ pq'.entries ∧ ∀ x ∈ pq'.entries, x.priority ≤ e.priority
      | .error code => code = ePopFromEmptyHeap ∧ pq'.entries = #[] := by
  obtain ⟨pq,hn,ho,hp⟩ := new_ok entries
  obtain ⟨ho',hp'⟩ := calls_spec ho ops
  refine ⟨pq,_,_,hn,rfl,ho',hp'.trans (hp.append_right _),?_⟩
  generalize (calls exec pq ops).2 = pq' at ho'
  by_cases hs : 0 < pq'.entries.size
  · obtain ⟨pq'',he,-⟩ := popMax_ok ho' hs
    rw [he]
    refine ⟨Array.getElem_mem hs,fun x hx => ?_⟩
    obtain ⟨k,hk,rfl⟩ := Array.mem_iff_getElem.mp hx
    have := ho'.heapFrom.le_root k
    rwa [prio_of_lt hk,prio_of_lt hs] at this
  · rw [popMax_empty hs]
    exact ⟨rfl,Array.eq_empty_of_size_eq_zero (Nat.eq_zero_of_not_pos hs)⟩

theorem HeapOrder.drained (h : pq.HeapOrder) :
    let es := popped (calls exec pq (.replicate pq.entries.size .popMax)).1
    es.Pairwise (·.priority ≥ ·.priority) ∧ es.Perm pq.entries.toList := by
  generalize hn : pq.entries.size = n
  induction n generalizing pq with
  | zero =>
    obtain rfl : pq = ⟨#[]⟩ := congrArg mk (Array.eq_empty_of_size_eq_zero hn)
    exact ⟨.nil,.refl _⟩
  | succ n ih =>
    have hs : 0 < pq.entries.size := by omega
    obtain ⟨pq',he,ho,hp⟩ := popMax_ok h hs
    have hl : pq'.entries.size = n := by simpa [hn] using hp.length_eq.symm
    obtain ⟨hi,hpi⟩ := ih ho hl
    have hc : call exec pq .popMax = (.ok (some pq.entries[0]),pq') := by
      rw [call,exec,he]
      rfl
    rw [List.replicate_succ,calls,hc]
    refine ⟨List.pairwise_cons.mpr ⟨fun x hx => ?_,hi⟩,(hpi.cons _).trans hp.symm⟩
    obtain ⟨k,hk,rfl⟩ :=
      Array.mem_iff_getElem.mp (Array.mem_toList_iff.mp (hp.symm.subset (.tail _ (hpi.subset hx))))
    have := h.heapFrom.le_root k
    rwa [prio_of_lt hk,prio_of_lt hs] at this

/-- After `new` and any calls, as many calls of `pop_max` as there are entries give all of them, in
descending order of their priorities. -/
theorem popMax_sorts (entries : Array (Entry T)) (ops : List (QueueOp T)) : ∃ pq,
    new entries = .ok pq ∧
      let pq' := (calls exec pq ops).2
      let es := popped (calls exec pq' (.replicate pq'.entries.size .popMax)).1
      es.Pairwise (·.priority ≥ ·.priority) ∧
        (es ++ popped (calls exec pq ops).1).Perm (entries.toList ++ inserted ops) := by
  obtain ⟨pq,hn,ho,hp⟩ := new_ok entries
  obtain ⟨ho',hp'⟩ := calls_spec ho ops
  obtain ⟨hs,hd⟩ := ho'.drained
  exact ⟨pq,hn,hs,(hd.append_right _).trans (hp'.trans (hp.append_right _))⟩

end PriorityQueue
end Iota.Framework
