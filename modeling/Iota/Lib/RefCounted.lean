import Iota.Lib.BTree

/-! A map that keeps an entry until it has been removed as often as it was inserted, and always
holds the value inserted last. Laid over a table it stands for a queue of writes: the queue is
written to the table from the front, while reads see the whole of it. -/
open Std (ExtTreeMap TransCmp LawfulEqCmp)
namespace Std.ExtTreeMap
variable {α β : Type} {cmp : α → α → Ordering} [TransCmp cmp] [LawfulEqCmp cmp] [DecidableEq α]

theorem find?_reverse_eq_none {l : List (α × β)} {key : α} (h : ∀ e ∈ l, e.1 ≠ key) :
    l.reverse.find? (fun e => e.1 = key) = none := by
  rw [List.find?_eq_none]
  intro e he hk
  exact h e (List.mem_reverse.mp he) (of_decide_eq_true hk)

theorem foldl_erase_foldl_insert (keys : List α) (l : List (α × β)) (m : ExtTreeMap α β cmp)
    (h : ∀ e ∈ l, e.1 ∉ keys) :
    keys.foldl (fun t k => t.erase k) (l.foldl (fun t e => t.insert e.1 e.2) m) =
      l.foldl (fun t e => t.insert e.1 e.2) (keys.foldl (fun t k => t.erase k) m) := by
  apply ext_getElem?
  intro key
  rw [getElem?_foldl_erase,getElem?_foldl_insert,getElem?_foldl_insert,getElem?_foldl_erase]
  split
  · next hky =>
    have hn : l.reverse.find? (fun e => e.1 = key) = none :=
      find?_reverse_eq_none fun e he hk => h e he (hk ▸ hky)
    rw [hn]
    rfl
  · rfl

theorem foldl_insert_comm (l l' : List (α × β)) (m : ExtTreeMap α β cmp)
    (h : ∀ e ∈ l, ∀ e' ∈ l', e'.1 ≠ e.1) :
    l.foldl (fun t e => t.insert e.1 e.2) (l'.foldl (fun t e => t.insert e.1 e.2) m) =
      l'.foldl (fun t e => t.insert e.1 e.2) (l.foldl (fun t e => t.insert e.1 e.2) m) := by
  apply ext_getElem?
  intro key
  simp only [getElem?_foldl_insert]
  by_cases hky : ∃ e ∈ l, e.1 = key
  · obtain ⟨e,he,rfl⟩ := hky
    rw [find?_reverse_eq_none (h e he)]
    simp
  have hn : l.reverse.find? (fun e => e.1 = key) = none :=
    find?_reverse_eq_none fun e he hk => hky ⟨e,he,hk⟩
  rw [hn]
  simp

end Std.ExtTreeMap

structure RefCountedMap (α β : Type) (cmp : α → α → Ordering) where
  map : ExtTreeMap α (Nat × β) cmp

namespace RefCountedMap
variable {α β : Type} {cmp : α → α → Ordering} [TransCmp cmp] [LawfulEqCmp cmp] [DecidableEq α]

def empty : RefCountedMap α β cmp := ⟨∅⟩

def insert (m : RefCountedMap α β cmp) (key : α) (value : β) : RefCountedMap α β cmp :=
  match m.map[key]? with
  | some (refCount,_) => ⟨m.map.insert key (refCount+1,value)⟩
  | none => ⟨m.map.insert key (1,value)⟩

variable {m : RefCountedMap α β cmp} {writes : List (α × β)}

/-- Whether the key was present, and the map after the removal. -/
def remove (m : RefCountedMap α β cmp) (key : α) : Bool × RefCountedMap α β cmp :=
  match m.map[key]? with
  | some (refCount,v) =>
    if refCount - 1 = 0 then (true,⟨m.map.erase key⟩)
    else (true,⟨m.map.insert key (refCount - 1,v)⟩)
  | none => (false,m)

def get (m : RefCountedMap α β cmp) (key : α) : Option β := m.map[key]?.map Prod.snd

/-- What a queue of writes leaves at a key: how many there are, and the last of them. -/
def pendingAt (writes : List (α × β)) (key : α) : Option (Nat × β) :=
  let values := writes.filter fun w => w.1 = key
  values.getLast?.map fun w => (values.length,w.2)

def Shadows (m : RefCountedMap α β cmp) (writes : List (α × β)) : Prop :=
  ∀ key, m.map[key]? = pendingAt writes key

section pendingAt

theorem pendingAt_nil (key : α) : pendingAt ([] : List (α × β)) key = none := rfl

theorem pendingAt_concat (writes : List (α × β)) (k key : α) (v : β) :
    pendingAt (writes ++ [(k,v)]) key =
      if k = key then some (((pendingAt writes key).map Prod.fst).getD 0 + 1,v)
      else pendingAt writes key := by
  unfold pendingAt
  by_cases hk : k = key
  · cases hl : writes.filter (fun w => w.1 = key) with
    | nil => simp [hk,hl]
    | cons w ws => simp [hk,hl,List.getLast?_cons]
  · simp [hk]

theorem pendingAt_cons (writes : List (α × β)) (k key : α) (v : β) :
    pendingAt ((k,v) :: writes) key =
      if k = key then
        some ((pendingAt writes key).elim (1,v) fun e => (e.1+1,e.2))
      else pendingAt writes key := by
  unfold pendingAt
  by_cases hk : k = key
  · cases hl : writes.filter (fun w => w.1 = key) with
    | nil => simp [hk,hl]
    | cons w ws => simp [hk,hl,List.getLast?_cons]
  · simp [hk]

theorem pendingAt_pos {writes : List (α × β)} {key : α} {n : Nat} {v : β}
    (h : pendingAt writes key = some (n,v)) : 0 < n := by
  obtain ⟨w,hw,he⟩ := Option.map_eq_some_iff.mp h
  cases he
  exact List.length_pos_of_mem (List.mem_of_getLast? hw)

theorem pendingAt_snd (writes : List (α × β)) (key : α) :
    (pendingAt writes key).map Prod.snd =
      (writes.reverse.find? fun w => w.1 = key).map Prod.snd := by
  unfold pendingAt
  rw [Option.map_map,← List.head?_reverse,← List.filter_reverse,List.head?_filter]
  rfl

end pendingAt

omit [LawfulEqCmp cmp] in
theorem shadows_empty : Shadows (empty : RefCountedMap α β cmp) [] := by
  intro key
  simp [empty,pendingAt_nil]

theorem Shadows.insert {m : RefCountedMap α β cmp} {writes : List (α × β)} (h : m.Shadows writes)
    (k : α) (v : β) : (m.insert k v).Shadows (writes ++ [(k,v)]) := by
  intro key
  rw [pendingAt_concat]
  unfold RefCountedMap.insert
  have hk := h k
  split
  · next n _ hm =>
    rw [hm] at hk
    rw [ExtTreeMap.getElem?_insert_eq]
    split
    · next he => subst he; rw [← hk]; rfl
    · exact h key
  · next hm =>
    rw [hm] at hk
    rw [ExtTreeMap.getElem?_insert_eq]
    split
    · next he => subst he; rw [← hk]; rfl
    · exact h key

theorem Shadows.remove {k : α} {v : β} (h : m.Shadows ((k,v) :: writes)) :
    (m.remove k).1 = true ∧ (m.remove k).2.Shadows writes := by
  have ho : ∀ key, ¬k = key → m.map[key]? = pendingAt writes key := by
    intro key hne
    rw [h key,pendingAt_cons,if_neg hne]
  have hk := h k
  rw [pendingAt_cons,if_pos rfl] at hk
  cases hp : pendingAt writes k with
  | none =>
    -- the last write of the key: the entry goes
    rw [hp,Option.elim_none] at hk
    simp only [RefCountedMap.remove,hk,if_true,true_and]
    intro key
    rw [ExtTreeMap.getElem?_erase_eq]
    split
    · next he => rw [← he,hp]
    · next hne => exact ho key hne
  | some e =>
    have hps : 0 < e.1 := pendingAt_pos hp
    rw [hp,Option.elim_some] at hk
    have hc : ¬(e.1 + 1 - 1 = 0) := by omega
    simp only [RefCountedMap.remove,hk,if_neg hc,true_and]
    intro key
    rw [ExtTreeMap.getElem?_insert_eq]
    split
    · next he => rw [← he,hp]; rfl
    · next hne => exact ho key hne

omit [LawfulEqCmp cmp] in
theorem Shadows.get (h : m.Shadows writes)
    (key : α) : m.get key = (writes.reverse.find? fun w => w.1 = key).map Prod.snd := by
  rw [RefCountedMap.get,h key,pendingAt_snd]

def insertAll (m : RefCountedMap α β cmp) (writes : List (α × β)) : RefCountedMap α β cmp :=
  writes.foldl (fun m w => m.insert w.1 w.2) m

def removeAll (m : RefCountedMap α β cmp) (keys : List α) : RefCountedMap α β cmp :=
  keys.foldl (fun m key => (m.remove key).2) m

theorem Shadows.insertAll (h : m.Shadows writes) (news : List (α × β)) :
    (m.insertAll news).Shadows (writes ++ news) := by
  induction news generalizing m writes with
  | nil => simpa [RefCountedMap.insertAll] using h
  | cons w news ih =>
    have := ih (h.insert w.1 w.2)
    rwa [List.append_assoc] at this

theorem Shadows.removeAll {writes olds : List (α × β)}
    (h : m.Shadows (olds ++ writes)) : (m.removeAll (olds.map Prod.fst)).Shadows writes := by
  induction olds generalizing m with
  | nil => exact h
  | cons w olds ih => exact ih h.remove.2

end RefCountedMap
