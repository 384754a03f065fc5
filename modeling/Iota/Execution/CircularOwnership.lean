import Iota.Lib.BTree
import Iota.Lib.Except
import Iota.Types.Basic

/-! `check_circular_ownership` on the transfers of a transaction: each new owner is followed up
through the transfers before it. -/
namespace Iota.Execution
open Except List Relation Std

inductive Owner
  | addressOwner (address : Nat)
  | objectOwner (object : ObjectID)
  | shared (initialSharedVersion : Nat)
  | immutable
deriving DecidableEq, Repr

inductive OwnershipError
  | circularObjectOwnership (object : ObjectID)
  | outOfFuel
deriving DecidableEq, Repr

def followOwners (owners : ExtTreeMap ObjectID ObjectID) (id : ObjectID) :
    Nat → ObjectID → Except OwnershipError Unit
  | 0, _ => .error .outOfFuel
  | fuel+1, cur =>
    if cur = id then .error (.circularObjectOwnership cur)
    else match owners[cur]? with
      | some parent => followOwners owners id fuel parent
      | none => .ok ()

def transfer (fuel : Nat) (owners : ExtTreeMap ObjectID ObjectID) :
    ObjectID × Owner → Except OwnershipError (ExtTreeMap ObjectID ObjectID)
  | (id,.objectOwner newOwner) => do
    let owners := owners.erase id
    followOwners owners id fuel newOwner
    .ok (owners.insert id newOwner)
  | (id,_) => .ok (owners.erase id)

def checkCircularOwnership (fuel : Nat) (transfers : List (ObjectID × Owner)) :
    Except OwnershipError Unit := do
  let _ ← transfers.foldlM (transfer fuel) ∅
  .ok ()

def Owns (transfers : List (ObjectID × Owner)) (x y : ObjectID) : Prop :=
  (x,.objectOwner y) ∈ transfers

def Acyclic (r : ObjectID → ObjectID → Prop) : Prop := ∀ x, ¬TransGen r x x

variable {owners : ExtTreeMap ObjectID ObjectID} {r r' : ObjectID → ObjectID → Prop}
  {done transfers : List (ObjectID × Owner)} {cur id o x y : ObjectID} {fuel : Nat}

theorem transGen_insert (hr : ∀ x y, r' x y → r x y ∨ x = id ∧ y = o) (h : TransGen r' x y) :
    TransGen r x y ∨ ReflTransGen r x id ∧ ReflTransGen r o y := by
  induction h with
  | single h =>
    rcases hr _ _ h with h | ⟨rfl,rfl⟩
    · exact .inl (.single h)
    · exact .inr ⟨.refl,.refl⟩
  | tail _ h ih =>
    rcases hr _ _ h with h | ⟨rfl,rfl⟩
    · exact ih.imp (.tail · h) fun hp => ⟨hp.1,hp.2.tail h⟩
    · exact .inr ⟨ih.elim TransGen.to_reflTransGen And.left,.refl⟩

theorem Acyclic.insert (ha : Acyclic r) (hr : ∀ x y, r' x y → r x y ∨ x = id ∧ y = o)
    (ho : ¬ReflTransGen r o id) : Acyclic r' := by
  intro x hx
  rcases transGen_insert hr hx with hx | ⟨hx,hy⟩
  · exact ha x hx
  · exact ho (hy.trans hx)

theorem followOwners_cases (hr : ∀ x y, owners[x]? = some y ↔ r x y) (ha : Acyclic r)
    (keys : Finset ObjectID) (hk : ∀ x y, ReflTransGen r cur x → r x y → x ∈ keys)
    (hf : keys.card < fuel) :
    followOwners owners id fuel cur = .ok () ∧ ¬ReflTransGen r cur id ∨
      followOwners owners id fuel cur = .error (.circularObjectOwnership id) ∧
        ReflTransGen r cur id := by
  induction fuel generalizing cur keys with
  | zero => exact absurd hf (Nat.not_lt_zero _)
  | succ fuel ih =>
    unfold followOwners
    split
    · next he => exact .inr ⟨he ▸ rfl,he ▸ .refl⟩
    next hne =>
    cases hg : owners[cur]? with
    | none =>
      refine .inl ⟨rfl,fun hp => ?_⟩
      obtain rfl | ⟨z,hz,-⟩ := hp.cases_head
      · exact hne rfl
      · rw [← hr,hg] at hz
        cases hz
    | some parent =>
      have hp := (hr _ _).mp hg
      have hmem := hk _ _ .refl hp
      have hpath : ReflTransGen r cur id ↔ ReflTransGen r parent id := by
        refine ⟨fun h => ?_,.head hp⟩
        obtain rfl | ⟨z,hz,hzi⟩ := h.cases_head
        · exact absurd rfl hne
        rw [← hr,hg] at hz
        cases hz
        exact hzi
      rw [hpath]
      refine ih (keys.erase cur) (fun x y hx hxy => ?_) ?_
      · refine Finset.mem_erase.mpr ⟨fun he => ?_,hk x y (.head hp hx) hxy⟩
        subst he
        exact ha _ (.head' hp hx)
      · exact (Finset.card_erase_lt_of_mem hmem).trans_le (Nat.le_of_lt_succ hf)

/-- One transfer of an object without an entry so far: the map goes on to hold the relation, or
the relation gets a cycle. -/
theorem transfer_cases {t : ObjectID × Owner} (hr : ∀ x y, owners[x]? = some y ↔ Owns done x y)
    (ha : Acyclic (Owns done)) (hn : t.1 ∉ done.map Prod.fst) (hf : done.length < fuel) :
    (∃ owners', transfer fuel owners t = .ok owners' ∧
      (∀ x y, owners'[x]? = some y ↔ Owns (done ++ [t]) x y) ∧ Acyclic (Owns (done ++ [t]))) ∨
    transfer fuel owners t = .error (.circularObjectOwnership t.1) ∧
      ¬Acyclic (Owns (done ++ [t])) := by
  obtain ⟨id,owner⟩ := t
  have hmem {x y} (h : Owns done x y) : x ∈ done.map Prod.fst := mem_map_of_mem (f := Prod.fst) h
  have hno y : ¬Owns done id y := fun h => hn (hmem h)
  have hr' x y : (owners.erase id)[x]? = some y ↔ Owns done x y := by
    rw [ExtTreeMap.getElem?_erase_eq]
    split
    · next he => exact ⟨nofun,fun h => absurd h (he ▸ hno y)⟩
    · exact hr x y
  have heq (h : ∀ o, owner ≠ .objectOwner o) : Owns (done ++ [(id,owner)]) = Owns done := by
    funext x y
    simp [Owns,(h _).symm]
  cases owner with
  | objectOwner o =>
    have hi x y : Owns (done ++ [(id,.objectOwner o)]) x y ↔ Owns done x y ∨ x = id ∧ y = o := by
      simp [Owns]
    have hk : ∀ x y, ReflTransGen (Owns done) o x → Owns done x y →
        x ∈ (done.map Prod.fst).toFinset := fun x y _ h => mem_toFinset.mpr (hmem h)
    have hc : (done.map Prod.fst).toFinset.card < fuel :=
      ((toFinset_card_le _).trans (length_map _).le).trans_lt hf
    have ht : transfer fuel owners (id,.objectOwner o) =
        followOwners (owners.erase id) id fuel o >>= fun _ =>
          .ok ((owners.erase id).insert id o) := rfl
    rw [ht]
    rcases followOwners_cases hr' ha _ hk hc with ⟨hf',hp⟩ | ⟨hf',hp⟩
    · rw [hf']
      refine .inl ⟨_,rfl,fun x y => ?_,ha.insert (fun x y => (hi x y).mp) hp⟩
      rw [ExtTreeMap.getElem?_insert_eq,hi]
      split
      · next he =>
        subst he
        simp [hno,eq_comm]
      · next he => simp [hr',Ne.symm he]
    rw [hf']
    refine .inr ⟨rfl,fun h => h id (.head' ((hi id o).mpr (.inr ⟨rfl,rfl⟩)) ?_)⟩
    exact ReflTransGen.mono (fun x y h => (hi x y).mpr (.inl h)) _ _ hp
  | _ =>
    rw [heq nofun]
    exact .inl ⟨_,rfl,hr',ha⟩

theorem foldlM_transfer (hr : ∀ x y, owners[x]? = some y ↔ Owns done x y)
    (ha : Acyclic (Owns done)) (hn : ((done ++ transfers).map Prod.fst).Nodup)
    (hf : (done ++ transfers).length ≤ fuel) :
    (∃ owners', transfers.foldlM (transfer fuel) owners = .ok owners') ∧
      Acyclic (Owns (done ++ transfers)) ∨
    (∃ id, transfers.foldlM (transfer fuel) owners = .error (.circularObjectOwnership id)) ∧
      ¬Acyclic (Owns (done ++ transfers)) := by
  induction transfers generalizing done owners with
  | nil =>
    rw [append_nil]
    exact .inl ⟨⟨_,rfl⟩,ha⟩
  | cons t transfers ih =>
    have hnt : t.1 ∉ done.map Prod.fst := by
      rw [map_append,map_cons,nodup_append_comm,cons_append,nodup_cons] at hn
      exact fun h => hn.1 (mem_append_right _ h)
    have hlt : done.length < fuel := by
      rw [length_append,length_cons] at hf
      omega
    rw [foldlM_cons,append_cons]
    rw [append_cons] at hn hf
    rcases transfer_cases hr ha hnt hlt with ⟨owners',ht,hr',ha'⟩ | ⟨ht,hc⟩
    · rw [ht]
      exact ih hr' ha' hn hf
    rw [ht]
    refine .inr ⟨⟨_,rfl⟩,fun h => hc fun x hx => h x (TransGen.mono (fun y z hy => ?_) _ _ hx)⟩
    exact mem_append_left _ hy

theorem checkCircularOwnership_error_iff (hn : (transfers.map Prod.fst).Nodup)
    (hf : transfers.length ≤ fuel) :
    checkCircularOwnership fuel transfers ≠ .error .outOfFuel ∧
    ((∃ e, checkCircularOwnership fuel transfers = .error e) ↔
      ∃ x, TransGen (Owns transfers) x x) := by
  have ha : Acyclic (Owns []) := fun x h => by
    obtain ⟨_,hy,-⟩ := TransGen.head'_iff.mp h
    cases hy
  unfold checkCircularOwnership
  have hr (x y) : (∅ : ExtTreeMap ObjectID ObjectID)[x]? = some y ↔ Owns [] x y := by simp [Owns]
  rcases foldlM_transfer hr ha hn hf with ⟨⟨_,ht⟩,ha'⟩ | ⟨⟨id,ht⟩,ha'⟩
  · rw [ht]
    exact ⟨nofun,⟨nofun,fun ⟨x,hx⟩ => absurd hx (ha' x)⟩⟩
  rw [ht]
  refine ⟨nofun,⟨fun _ => ?_,fun _ => ⟨_,rfl⟩⟩⟩
  unfold Acyclic at ha'
  push Not at ha'
  exact ha'

theorem checkCircularOwnership_error_iff_pair :
    (∃ e, checkCircularOwnership 2 [(1,.objectOwner 2),(2,.objectOwner 1)] = .error e) ∧
    ∃ x, TransGen (Owns [(1,.objectOwner 2),(2,.objectOwner 1)]) x x := by
  have h : checkCircularOwnership 2 [(1,.objectOwner 2),(2,.objectOwner 1)] =
    .error (.circularObjectOwnership 2) := rfl
  exact ⟨⟨_,h⟩,(checkCircularOwnership_error_iff (by decide) (by decide)).2.mp ⟨_,h⟩⟩

end Iota.Execution
