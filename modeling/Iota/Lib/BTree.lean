import Mathlib

/-! The operations of ordered maps and sets that the tree types of the standard library lack:
splitting at a key, as lookups see it, and the last key in a form that evaluates. -/
namespace Std
variable {α β : Type*} {cmp : α → α → Ordering} [TransCmp cmp] [LawfulEqCmp cmp]

namespace ExtTreeMap

def splitOff (m : ExtTreeMap α β cmp) (k : α) : ExtTreeMap α β cmp :=
  m.filter fun x _ => (cmp k x).isLE

@[simp] theorem getElem?_splitOff (m : ExtTreeMap α β cmp) (k x : α) :
    (m.splitOff k)[x]? = if (cmp k x).isLE then m[x]? else none := by
  unfold splitOff
  rw [getElem?_filter']
  cases m[x]? <;> simp [Option.filter]

theorem getElem?_insert_eq [DecidableEq α] (m : ExtTreeMap α β cmp) (k x : α) (v : β) :
    (m.insert k v)[x]? = if k = x then some v else m[x]? := by
  rw [getElem?_insert]
  simp only [LawfulEqCmp.compare_eq_iff_eq]

theorem getElem?_foldl_insert [DecidableEq α] {γ : Type*} (key : γ → α) (val : γ → β) (l : List γ)
    (m : ExtTreeMap α β cmp) (x : α) :
    (l.foldl (fun m c => m.insert (key c) (val c)) m)[x]? =
      ((l.reverse.find? fun c => key c = x).map val).or m[x]? := by
  induction l generalizing m with
  | nil => simp
  | cons c l ih =>
    rw [List.foldl_cons,ih,List.reverse_cons,List.find?_append,getElem?_insert_eq]
    cases hf : l.reverse.find? fun c => key c = x with
    | some d => simp
    | none =>
      by_cases hk : key c = x
      · simp [hk]
      · simp [hk]

theorem getElem?_foldl_erase [DecidableEq α] (l : List α) (m : ExtTreeMap α β cmp) (x : α) :
    (l.foldl (fun m k => m.erase k) m)[x]? = if x ∈ l then none else m[x]? := by
  induction l generalizing m with
  | nil => simp
  | cons k l ih =>
    rw [List.foldl_cons,ih,getElem?_erase]
    by_cases hx : x ∈ l
    · simp [hx]
    by_cases hk : k = x
    · simp [hk]
    · simp [hx,hk,Ne.symm hk]

theorem getElem?_erase_eq [DecidableEq α] (m : ExtTreeMap α β cmp) (k x : α) :
    (m.erase k)[x]? = if k = x then none else m[x]? := by
  rw [getElem?_erase]
  simp only [LawfulEqCmp.compare_eq_iff_eq]

variable {m : ExtTreeMap α β cmp}

theorem nodup_toList : m.toList.Nodup := by
  refine m.distinct_keys_toList.imp fun h hab => h ?_
  rw [hab]
  exact ReflCmp.compare_self

theorem toList_perm_cons_erase [DecidableEq α] {k : α} {v : β}
    (h : m[k]? = some v) : m.toList.Perm ((k,v) :: (m.erase k).toList) := by
  refine (List.perm_ext_iff_of_nodup nodup_toList ?_).mpr ?_
  · rw [List.nodup_cons,mem_toList_iff_getElem?_eq_some,getElem?_erase_eq,if_pos rfl]
    exact ⟨nofun,nodup_toList⟩
  rintro ⟨a,b⟩
  rw [List.mem_cons,mem_toList_iff_getElem?_eq_some,mem_toList_iff_getElem?_eq_some,
    getElem?_erase_eq]
  by_cases hk : k = a
  · subst hk
    simp [h,eq_comm]
  · simp [hk,Ne.symm hk]

theorem toList_insert_perm [DecidableEq α] {k : α} {v : β}
    (h : m[k]? = none) : (m.insert k v).toList.Perm ((k,v) :: m.toList) := by
  have hv : (m.insert k v)[k]? = some v := by rw [getElem?_insert_eq,if_pos rfl]
  have he : (m.insert k v).erase k = m := by
    apply ext_getElem?
    intro a
    rw [getElem?_erase_eq,getElem?_insert_eq]
    split
    · next hk => rw [← hk,h]
    · rfl
  have := toList_perm_cons_erase hv
  rwa [he] at this

theorem toList_map_eq {γ : Type*} {m m' : ExtTreeMap α β cmp} {g : β → γ}
    (h : ∀ a : α, m'[a]?.map g = m[a]?.map g) :
    m'.toList.map (fun e => g e.2) = m.toList.map fun e => g e.2 := by
  have hm : m'.map (fun _ v => g v) = m.map fun _ v => g v := by
    apply ext_getElem?
    intro a
    rw [getElem?_map,getElem?_map]
    exact h a
  have hl := congrArg (fun t => t.toList.map Prod.snd) hm
  simpa [toList_map,Function.comp_def] using hl

def lastKey? (m : ExtTreeMap α β cmp) : Option α := m.keys.getLast?

theorem lastKey?_eq_some_iff {k : α} : m.lastKey? = some k ↔ k ∈ m ∧ ∀ x ∈ m, (cmp x k).isLE := by
  rw [lastKey?,← maxKey?_eq_getLast?_keys]
  exact maxKey?_eq_some_iff_mem_and_forall

omit [LawfulEqCmp cmp] in
theorem lastKey?_eq_none_iff : m.lastKey? = none ↔ m = ∅ := by
  rw [lastKey?,← maxKey?_eq_getLast?_keys]
  exact maxKey?_eq_none_iff

end ExtTreeMap
namespace ExtTreeSet

def splitOff (s : ExtTreeSet α cmp) (k : α) : ExtTreeSet α cmp :=
  s.filter fun x => (cmp k x).isLE

@[simp] theorem mem_splitOff (s : ExtTreeSet α cmp) (k x : α) :
    x ∈ s.splitOff k ↔ x ∈ s ∧ (cmp k x).isLE := by
  simp [splitOff]

def last? (s : ExtTreeSet α cmp) : Option α := s.toList.getLast?

theorem last?_eq_some_iff {s : ExtTreeSet α cmp} {k : α} :
    s.last? = some k ↔ k ∈ s ∧ ∀ x ∈ s, (cmp x k).isLE := by
  rw [last?,← max?_eq_getLast?_toList]
  exact max?_eq_some_iff_mem_and_forall

omit [LawfulEqCmp cmp] in
theorem last?_eq_none_iff {s : ExtTreeSet α cmp} : s.last? = none ↔ s = ∅ := by
  rw [last?,← max?_eq_getLast?_toList]
  exact max?_eq_none_iff

end ExtTreeSet
end Std
