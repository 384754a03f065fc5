import Iota.Lib.BTree

/-! A map from keys to lists of values, as a bag of values: what insertions under new keys, pushes
under any key and removals of keys do to the values it holds. -/
namespace Std.ExtTreeMap
variable {α β γ : Type} {cmp : α → α → Ordering} [TransCmp cmp]

def flat (m : ExtTreeMap α (List β) cmp) : List β := m.toList.flatMap Prod.snd

def pushAt (m : ExtTreeMap α (List β) cmp) (k : α) (v : β) : ExtTreeMap α (List β) cmp :=
  m.insert k (m[k]?.getD [] ++ [v])

/-- The entries with a key from `lo` up to `hi`, which is excluded. -/
def range (m : ExtTreeMap α β cmp) (lo hi : α) : List (α × β) :=
  m.toList.filter fun e => (cmp lo e.1).isLE && (cmp e.1 hi).isLT

variable [LawfulEqCmp cmp]

theorem mem_range {m : ExtTreeMap α β cmp} {lo hi k : α} {v : β} :
    (k,v) ∈ m.range lo hi ↔
      m[k]? = some v ∧ (cmp lo k).isLE = true ∧ (cmp k hi).isLT = true := by
  simp [range,mem_toList_iff_getElem?_eq_some]

variable {m : ExtTreeMap α (List β) cmp}

theorem mem_flat {v : β} : v ∈ m.flat ↔ ∃ (k : α) (vs : List β), m[k]? = some vs ∧ v ∈ vs := by
  simp [flat,mem_toList_iff_getElem?_eq_some]

omit [LawfulEqCmp cmp] in
theorem isEmpty_iff_getElem?_eq_none {m : ExtTreeMap α β cmp} :
    m.isEmpty = true ↔ ∀ k : α, m[k]? = none := by
  rw [isEmpty_iff,eq_empty_iff_forall_not_mem]
  refine forall_congr' fun k => ?_
  rw [mem_iff_isSome_getElem?,Bool.not_eq_true,Option.isSome_eq_false_iff,Option.isNone_iff_eq_none]

theorem nodup_map_fst_toList (m : ExtTreeMap α β cmp) : (m.toList.map Prod.fst).Nodup := by
  rw [map_fst_toList_eq_keys]
  refine m.distinct_keys.imp fun h hab => h ?_
  rw [hab]
  exact ReflCmp.compare_self

theorem nodup_range (m : ExtTreeMap α β cmp) (lo hi : α) : ((m.range lo hi).map Prod.fst).Nodup :=
  m.nodup_map_fst_toList.sublist (List.filter_sublist.map _)

variable [DecidableEq α]

theorem flat_insert_of_none {k : α} (h : m[k]? = none)
    (vs : List β) : (m.insert k vs).flat.Perm (vs ++ m.flat) := by
  simpa [flat] using (toList_insert_perm h).flatMap_right Prod.snd

theorem flat_perm_erase (m : ExtTreeMap α (List β) cmp) (k : α) :
    m.flat.Perm (m[k]?.getD [] ++ (m.erase k).flat) := by
  cases h : m[k]? with
  | none =>
    have : m.erase k = m := by
      apply ext_getElem?
      intro a
      rw [getElem?_erase_eq]
      split
      · next hk => rw [← hk,h]
      · rfl
    rw [this]
    exact .refl _
  | some vs => simpa [flat] using (toList_perm_cons_erase h).flatMap_right Prod.snd

theorem flat_perm_foldl_erase {keys : List α} (hn : keys.Nodup) (m : ExtTreeMap α (List β) cmp) :
    m.flat.Perm ((keys.flatMap fun k => m[k]?.getD []) ++
      (keys.foldl (fun t k => t.erase k) m).flat) := by
  induction keys generalizing m with
  | nil => exact .refl _
  | cons k keys ih =>
    obtain ⟨hk,hn⟩ := List.nodup_cons.mp hn
    have hs : (keys.flatMap fun k' => (m.erase k)[k']?.getD []) =
        keys.flatMap fun k' => m[k']?.getD [] := by
      refine List.flatMap_congr fun k' hk' => ?_
      have hne : k ≠ k' := fun h => hk (h ▸ hk')
      rw [getElem?_erase_eq,if_neg hne]
    have hr := ih hn (m.erase k)
    rw [hs] at hr
    rw [List.flatMap_cons,List.foldl_cons,List.append_assoc]
    exact (m.flat_perm_erase k).trans (hr.append_left _)

theorem flat_foldl_insert {l : List (α × List β)} (hn : (l.map Prod.fst).Nodup)
    (hnw : ∀ e ∈ l, m[e.1]? = none) :
    (l.foldl (fun t e => t.insert e.1 e.2) m).flat.Perm (l.flatMap Prod.snd ++ m.flat) := by
  induction l generalizing m with
  | nil => exact .refl _
  | cons e l ih =>
    obtain ⟨he,hn⟩ := List.nodup_cons.mp hn
    have hn' : ∀ e' ∈ l, (m.insert e.1 e.2)[e'.1]? = none := by
      intro e' he'
      have hne : e.1 ≠ e'.1 := fun h => he (h ▸ List.mem_map_of_mem he')
      rw [getElem?_insert_eq,if_neg hne]
      exact hnw e' (.tail _ he')
    have hf := flat_insert_of_none (hnw e List.mem_cons_self) e.2
    calc (l.foldl (fun t e => t.insert e.1 e.2) (m.insert e.1 e.2)).flat
      _ |>.Perm (l.flatMap Prod.snd ++ (m.insert e.1 e.2).flat) := ih hn hn'
      _ |>.Perm (l.flatMap Prod.snd ++ (e.2 ++ m.flat)) := hf.append_left _
      _ |>.Perm (e.2 ++ l.flatMap Prod.snd ++ m.flat) := by
        rw [← List.append_assoc]
        exact List.perm_append_comm.append_right _

theorem getElem?_foldl_insert_toList (n : ExtTreeMap α β cmp) (f : β → γ)
    (m : ExtTreeMap α γ cmp) (x : α) :
    ((n.toList.map fun e => (e.1,f e.2)).foldl (fun t e => t.insert e.1 e.2) m)[x]? =
      (n[x]?.map f).or m[x]? := by
  rw [getElem?_foldl_insert Prod.fst Prod.snd,← List.map_reverse,List.find?_map,Option.map_map]
  congr 1
  cases hg : n[x]? with
  | none =>
    rw [Option.map_none,Option.map_eq_none_iff,List.find?_eq_none]
    rintro ⟨k,v⟩ he hk
    have hkv := mem_toList_iff_getElem?_eq_some.mp (List.mem_reverse.mp he)
    have hk : k = x := of_decide_eq_true hk
    rw [hk,hg] at hkv
    cases hkv
  | some v =>
    have hm := List.mem_reverse.mpr (mem_toList_iff_getElem?_eq_some.mpr hg)
    cases hf : n.toList.reverse.find? ((fun w => decide (w.1 = x)) ∘ fun e => (e.1,f e.2)) with
    | none => exact absurd (by simp) (List.find?_eq_none.mp hf (x,v) hm)
    | some e =>
      have hk : e.1 = x := by simpa using List.find?_some hf
      have he := mem_toList_iff_getElem?_eq_some.mp
        (List.mem_reverse.mp (List.mem_of_find?_eq_some hf))
      rw [hk,hg] at he
      cases he
      rfl

theorem flat_pushAt (m : ExtTreeMap α (List β) cmp) (k : α) (v : β) :
    (m.pushAt k v).flat.Perm (v :: m.flat) := by
  have he : (m.pushAt k v).erase k = m.erase k := by
    apply ext_getElem?
    intro a
    rw [getElem?_erase_eq,getElem?_erase_eq,pushAt,getElem?_insert_eq]
    split <;> rfl
  have hg : (m.pushAt k v)[k]? = some (m[k]?.getD [] ++ [v]) := by
    rw [pushAt,getElem?_insert_eq,if_pos rfl]
  have hp := (m.pushAt k v).flat_perm_erase k
  rw [hg,he,Option.getD_some] at hp
  refine hp.trans ?_
  rw [List.append_assoc]
  exact List.perm_middle.trans ((m.flat_perm_erase k).symm.cons v)

theorem getElem?_pushAt (m : ExtTreeMap α (List β) cmp) (k x : α) (v : β) :
    (m.pushAt k v)[x]? = if k = x then some (m[k]?.getD [] ++ [v]) else m[x]? :=
  getElem?_insert_eq _ _ _ _

end Std.ExtTreeMap
