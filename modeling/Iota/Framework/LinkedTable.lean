import Iota.Lib.Move
import Iota.Lib.Simulation
import Mathlib.Data.List.Nodup

/-! `LinkedTable` of the framework. Its nodes are dynamic fields of its id, here a map from keys. A
call that aborts is taken back with its transaction. -/
namespace Iota.Framework
open Move

inductive LinkedTableError
  | fieldAlreadyExists
  | fieldDoesNotExist
  | tableIsEmpty
  | optionNotSet
deriving DecidableEq, Repr

abbrev Result := Except (Abort LinkedTableError)

structure Node (K V : Type) where
  prev : Option K
  next : Option K
  value : V

abbrev Fields (K V : Type) := K → Option (Node K V)

structure LinkedTable (K V : Type) where
  fields : Fields K V
  size : Nat
  head : Option K
  tail : Option K

inductive Call (K V : Type)
  | pushFront (k : K) (value : V)
  | pushBack (k : K) (value : V)
  | popFront
  | popBack
  | remove (k : K)
  | borrow (k : K)
  /-- A value is written through the reference. -/
  | borrowMut (k : K) (value : V)

inductive Returned (K V : Type)
  | unit
  | value (v : V)
  | entry (e : K × V)

variable {K V : Type} [DecidableEq K]

namespace Fields

def add (fs : Fields K V) (k : K) (node : Node K V) : Result (Fields K V) :=
  match fs k with
  | some _ => .error (.code .fieldAlreadyExists)
  | none => .ok (Function.update fs k (some node))

def borrow (fs : Fields K V) (k : K) : Result (Node K V) :=
  match fs k with
  | some node => .ok node
  | none => .error (.code .fieldDoesNotExist)

/-- Changes the node of a key through `borrow_mut`, if there is a key. -/
def modify (fs : Fields K V) (k : Option K) (f : Node K V → Node K V) : Result (Fields K V) :=
  match k with
  | some k => do
    let node ← borrow fs k
    pure (Function.update fs k (some (f node)))
  | none => pure fs

end Fields

def borrowKey (k : Option K) : Result K :=
  match k with
  | some k => .ok k
  | none => .error (.code .optionNotSet)

namespace LinkedTable

def new : LinkedTable K V := ⟨fun _ => none,0,none,none⟩

def pushFront (t : LinkedTable K V) (k : K) (value : V) : Result (LinkedTable K V) := do
  let fields ← t.fields.modify t.head ({ · with prev := some k })
  let fields ← fields.add k ⟨none,t.head,value⟩
  let size ← add t.size 1
  pure { fields, size, head := some k, tail := t.tail.or (some k) }

def pushBack (t : LinkedTable K V) (k : K) (value : V) : Result (LinkedTable K V) := do
  let fields ← t.fields.modify t.tail ({ · with next := some k })
  let fields ← fields.add k ⟨t.tail,none,value⟩
  let size ← add t.size 1
  pure { fields, size, head := t.head.or (some k), tail := some k }

def borrow (t : LinkedTable K V) (k : K) : Result V := do
  return (← t.fields.borrow k).value

def borrowMut (t : LinkedTable K V) (k : K) (value : V) : Result (LinkedTable K V) := do
  return { t with fields := ← t.fields.modify (some k) ({ · with value }) }

def prev (t : LinkedTable K V) (k : K) : Result (Option K) := do
  return (← t.fields.borrow k).prev

def next (t : LinkedTable K V) (k : K) : Result (Option K) := do
  return (← t.fields.borrow k).next

def remove (t : LinkedTable K V) (k : K) : Result (V × LinkedTable K V) := do
  let ⟨prev,next,value⟩ ← t.fields.borrow k
  let fields := Function.update t.fields k none
  let size ← sub t.size 1
  let fields ← Fields.modify fields prev ({ · with next })
  let fields ← Fields.modify fields next ({ · with prev })
  let front ← borrowKey t.head
  let head := if front = k then next else t.head
  let back ← borrowKey t.tail
  let tail := if back = k then prev else t.tail
  pure (value,{ fields, size, head, tail })

def popFront (t : LinkedTable K V) : Result ((K × V) × LinkedTable K V) := do
  assert t.head.isSome .tableIsEmpty
  let head ← borrowKey t.head
  let (value,t) ← t.remove head
  pure ((head,value),t)

def popBack (t : LinkedTable K V) : Result ((K × V) × LinkedTable K V) := do
  assert t.tail.isSome .tableIsEmpty
  let tail ← borrowKey t.tail
  let (value,t) ← t.remove tail
  pure ((tail,value),t)

def exec (t : LinkedTable K V) : Call K V → Result (Returned K V × LinkedTable K V)
  | .pushFront k value => do return (.unit,← t.pushFront k value)
  | .pushBack k value => do return (.unit,← t.pushBack k value)
  | .popFront => do
    let (e,t) ← t.popFront
    return (.entry e,t)
  | .popBack => do
    let (e,t) ← t.popBack
    return (.entry e,t)
  | .remove k => do
    let (v,t) ← t.remove k
    return (.value v,t)
  | .borrow k => do return (.value (← t.borrow k),t)
  | .borrowMut k value => do return (.unit,← t.borrowMut k value)

end LinkedTable

/-- What a linked table stands for: its entries in order. -/
abbrev Entries (K V : Type) := List (K × V)

variable {k : K}
namespace Entries

def keys (l : Entries K V) : List K := l.map Prod.fst

def find (l : Entries K V) (k : K) : Result V :=
  match l.find? (·.1 = k) with
  | some e => .ok e.2
  | none => .error (.code .fieldDoesNotExist)

def prev (l : Entries K V) (k : K) : Result (Option K) := do
  let _ ← find l k
  pure (keys (l.takeWhile (·.1 ≠ k))).getLast?

def next (l : Entries K V) (k : K) : Result (Option K) := do
  let _ ← find l k
  pure (keys (l.dropWhile (·.1 ≠ k)).tail).head?

/-- A key can be added once, and the length is a `u64`. -/
def checkNew (l : Entries K V) (k : K) : Result Unit := do
  assert (k ∉ keys l) .fieldAlreadyExists
  let _ ← add l.length 1

def exec (l : Entries K V) : Call K V → Result (Returned K V × Entries K V)
  | .pushFront k value => do
    checkNew l k
    pure (.unit,(k,value) :: l)
  | .pushBack k value => do
    checkNew l k
    pure (.unit,l ++ [(k,value)])
  | .popFront =>
    match l with
    | [] => .error (.code .tableIsEmpty)
    | e :: l => pure (.entry e,l)
  | .popBack =>
    match l.getLast? with
    | none => .error (.code .tableIsEmpty)
    | some e => pure (.entry e,l.dropLast)
  | .remove k => do return (.value (← find l k),l.filter (·.1 ≠ k))
  | .borrow k => do return (.value (← find l k),l)
  | .borrowMut k value => do
    let _ ← find l k
    pure (.unit,l.map fun e => if e.1 = k then (k,value) else e)

omit [DecidableEq K] in
theorem not_mem_keys {l : Entries K V} : k ∉ keys l ↔ ∀ e ∈ l, e.1 ≠ k := by
  simp only [keys,List.mem_map,not_exists,not_and,ne_eq]

end Entries
open Entries

/-- The nodes of consecutive entries, after the key `p` and before the key `n`. -/
def Segment (fs : Fields K V) (n : Option K) : Option K → Entries K V → Prop
  | _, [] => True
  | p, (k,v) :: l => fs k = some ⟨p,(keys l).head?.or n,v⟩ ∧ Segment fs n (some k) l

variable {a b : Entries K V}
namespace Segment
variable {fs gs : Fields K V} {n p : Option K} {l : Entries K V}

omit [DecidableEq K] in
theorem frame (h : Segment fs n p l) (he : ∀ k ∈ keys l, gs k = fs k) : Segment gs n p l := by
  induction l generalizing p with
  | nil => trivial
  | cons e l ih =>
    refine ⟨(he _ (.head _)).trans h.1,ih h.2 fun k hk => he k (.tail _ hk)⟩

omit [DecidableEq K] in
theorem append : Segment fs n p (a ++ b) ↔
    Segment fs ((keys b).head?.or n) p a ∧ Segment fs n ((keys a).getLast?.or p) b := by
  induction a generalizing p with
  | nil => simp [Segment,keys]
  | cons e a ih =>
    rw [List.cons_append,Segment,Segment,ih,and_assoc]
    simp [keys,Option.or_assoc,List.getLast?_cons]

theorem update (h : Segment fs n p l) (hk : k ∉ keys l) (x : Option (Node K V)) :
    Segment (Function.update fs k x) n p l :=
  h.frame fun _ hx => Function.update_of_ne (ne_of_mem_of_not_mem hx hk) _ _

omit [DecidableEq K] in
theorem exists_of_mem (h : Segment fs n p l) (hk : k ∈ keys l) : ∃ node, fs k = some node := by
  induction l generalizing p with
  | nil => cases hk
  | cons e l ih =>
    cases hk with
    | head => exact ⟨_,h.1⟩
    | tail _ hk => exact ih h.2 hk

theorem modify_some {node : Node K V} (h : fs k = some node) (f : Node K V → Node K V) :
    fs.modify (some k) f = .ok (Function.update fs k (some (f node))) := by
  simp only [Fields.modify,Fields.borrow,h]
  rfl

theorem modify_first (q : Option K) (h : Segment fs n p l) (hl : (keys l).Nodup) :
    ∃ gs, fs.modify (keys l).head? ({ · with prev := q }) = .ok gs ∧ Segment gs n q l ∧
      ∀ k ∉ keys l, gs k = fs k := by
  cases l with
  | nil => exact ⟨fs,rfl,trivial,fun _ _ => rfl⟩
  | cons e l =>
    refine ⟨_,modify_some h.1 _,⟨Function.update_self ..,?_⟩,fun k hk => ?_⟩
    · exact h.2.update (List.nodup_cons.mp hl).1 _
    · exact Function.update_of_ne (List.ne_of_not_mem_cons hk) _ _

theorem modify_last (m : Option K) (h : Segment fs n p l) (hl : (keys l).Nodup) :
    ∃ gs, fs.modify (keys l).getLast? ({ · with next := m }) = .ok gs ∧ Segment gs m p l ∧
      ∀ k ∉ keys l, gs k = fs k := by
  rcases l.eq_nil_or_concat' with rfl | ⟨a,e,rfl⟩
  · exact ⟨fs,rfl,trivial,fun _ _ => rfl⟩
  have hky : keys (a ++ [e]) = keys a ++ [e.1] := List.map_append
  rw [hky] at hl ⊢
  obtain ⟨ha,he⟩ := append.mp h
  have hk : e.1 ∉ keys a := fun hk => List.disjoint_of_nodup_append hl hk (.head _)
  rw [List.getLast?_concat]
  refine ⟨_,modify_some he.1 _,append.mpr ⟨ha.update hk _,?_,trivial⟩,fun k hk => ?_⟩
  · exact Function.update_self ..
  · exact Function.update_of_ne (by rintro rfl; simp at hk) _ _

end Segment

/-- The table of some entries. -/
structure LinkedTable.Represents (t : LinkedTable K V) (l : Entries K V) : Prop where
  nodup : (keys l).Nodup
  head : t.head = (keys l).head?
  tail : t.tail = (keys l).getLast?
  size : t.size = l.length
  nodes : Segment t.fields none none l
  outside : ∀ k ∉ keys l, t.fields k = none

namespace LinkedTable.Represents
open Machine
variable {t : LinkedTable K V} {l : Entries K V}

theorem push (h : t.Represents l) {fs : Fields K V} {n p : Option K} (hs : Segment fs n p l)
    (ho : ∀ k ∉ keys l, fs k = t.fields k) {node : Node K V} {l' : Entries K V}
    {mk : Fields K V → Nat → LinkedTable K V}
    (hmk : k ∉ keys l → (mk (Function.update fs k (some node)) (l.length+1)).Represents l') :
    Agree Represents
      ((do
        let fields ← fs.add k node
        let size ← add t.size 1
        pure (mk fields size)) >>= fun t => pure ((.unit : Returned K V),t))
      (checkNew l k >>= fun _ => pure (.unit,l')) := by
  simp only [Fields.add,checkNew,assert,h.size]
  by_cases hk : k ∈ keys l
  · obtain ⟨node,hn⟩ := hs.exists_of_mem hk
    simp only [hn,hk,not_true,if_false]
    exact .error
  simp only [ho k hk,h.outside k hk,hk,not_false_eq_true,if_true,Except.ok_bind,add]
  split
  · exact .ok (hmk hk)
  · exact .error

theorem pushFront (h : t.Represents l) (k : K) (v : V) :
    Agree Represents (t.exec (.pushFront k v)) (Entries.exec l (.pushFront k v)) := by
  obtain ⟨fs,hfs,hs,ho⟩ := h.nodes.modify_first (some k) h.nodup
  simp only [LinkedTable.exec,LinkedTable.pushFront,Entries.exec,h.head,hfs,Except.ok_bind]
  refine h.push hs ho fun hk => ⟨?_,rfl,?_,rfl,⟨?_,hs.update hk _⟩,fun x hx => ?_⟩
  · exact List.nodup_cons.mpr ⟨hk,h.nodup⟩
  · simp [h.tail,keys,List.getLast?_cons]
  · simp
  · obtain ⟨hne,hx⟩ := not_or.mp (mt List.mem_cons.mpr hx)
    exact (Function.update_of_ne hne _ _).trans ((ho x hx).trans (h.outside x hx))

theorem pushBack (h : t.Represents l) (k : K) (v : V) :
    Agree Represents (t.exec (.pushBack k v)) (Entries.exec l (.pushBack k v)) := by
  obtain ⟨fs,hfs,hs,ho⟩ := h.nodes.modify_last (some k) h.nodup
  simp only [LinkedTable.exec,LinkedTable.pushBack,Entries.exec,h.tail,hfs,Except.ok_bind]
  have hky : keys (l ++ [(k,v)]) = keys l ++ [k] := List.map_append
  refine h.push hs ho fun hk => ⟨?_,?_,?_,?_,?_,fun x hx => ?_⟩
  · rw [hky]
    exact (List.perm_append_singleton k _).nodup_iff.mpr (List.nodup_cons.mpr ⟨hk,h.nodup⟩)
  · simp [h.head,hky]
  · simp [hky]
  · simp
  · refine Segment.append.mpr ⟨hs.update hk _,?_,trivial⟩
    simp [keys]
  rw [hky] at hx
  obtain ⟨hx,hne⟩ := not_or.mp (mt List.mem_append.mpr hx)
  refine (Function.update_of_ne ?_ _ _).trans ((ho x hx).trans (h.outside x hx))
  simpa using hne

omit [DecidableEq K] in
theorem middle {e : K × V} (h : t.Represents (a ++ e :: b)) :
    e.1 ∉ keys a ∧ e.1 ∉ keys b ∧ (keys a ++ keys b).Nodup := by
  have hky : keys (a ++ e :: b) = keys a ++ e.1 :: keys b := List.map_append
  obtain ⟨hk,hab⟩ := List.nodup_cons.mp (List.nodup_middle.mp (hky ▸ h.nodup))
  obtain ⟨hka,hkb⟩ := not_or.mp (mt List.mem_append.mpr hk)
  exact ⟨hka,hkb,hab⟩

/-- An entry in the middle of the list is spliced out. -/
theorem remove {v : V} (h : t.Represents (a ++ (k,v) :: b)) :
    ∃ t', t.remove k = .ok (v,t') ∧ t'.Represents (a ++ b) := by
  have hk : keys (a ++ (k,v) :: b) = keys a ++ k :: keys b := List.map_append
  have hap : keys (a ++ b) = keys a ++ keys b := List.map_append
  obtain ⟨hka,hkb,hab⟩ := h.middle
  have hd := List.disjoint_of_nodup_append hab
  obtain ⟨ha,hn,hb⟩ := Segment.append.mp h.nodes
  simp only [Option.or_none] at hn
  -- the neighbours of the entry are linked to each other
  obtain ⟨fs,hfs,ha,hfo⟩ := (ha.update hka none).modify_last (keys b).head? hab.of_append_left
  have hb := (hb.update hkb none).frame fun x hx => hfo x fun hxa => hd hxa hx
  obtain ⟨gs,hgs,hb,hgo⟩ := hb.modify_first (keys a).getLast? hab.of_append_right
  have ha := ha.frame fun x hx => hgo x (hd hx)
  have hh : ∃ x, t.head = some x ∧
      (if x = k then (keys b).head? else t.head) = (keys (a ++ b)).head? := by
    rw [h.head]
    cases a with
    | nil => exact ⟨k,rfl,if_pos rfl⟩
    | cons e a => exact ⟨e.1,rfl,if_neg (List.ne_of_not_mem_cons hka).symm⟩
  have ht : ∃ x, t.tail = some x ∧
      (if x = k then (keys a).getLast? else t.tail) = (keys (a ++ b)).getLast? := by
    rw [h.tail,hk,hap]
    rcases b.eq_nil_or_concat' with rfl | ⟨b,e,rfl⟩
    · exact ⟨k,by simp [keys],by simp [keys]⟩
    have hne : e.1 ≠ k := ne_of_mem_of_not_mem (by simp [keys]) hkb
    exact ⟨e.1,by simp [keys,List.getLast?_append,List.getLast?_cons],by
      simp [keys,List.getLast?_append,List.getLast?_cons,hne]⟩
  obtain ⟨x,hx,hh⟩ := hh
  obtain ⟨y,hy,ht⟩ := ht
  refine ⟨⟨gs,(a ++ b).length,(keys (a ++ b)).head?,(keys (a ++ b)).getLast?⟩,?_,?_⟩
  · simp only [LinkedTable.remove,Fields.borrow,hn,Except.ok_bind,hfs,hgs,← hh,← ht]
    simp [borrowKey,hx,hy,sub,h.size]
    rfl
  refine ⟨hap ▸ hab,rfl,rfl,rfl,Segment.append.mpr ⟨?_,?_⟩,fun x hx => ?_⟩
  · simpa using ha
  · simpa using hb
  rw [hap] at hx
  obtain ⟨hxa,hxb⟩ := not_or.mp (mt List.mem_append.mpr hx)
  refine (hgo x hxb).trans ((hfo x hxa).trans ?_)
  by_cases hxk : x = k
  · rw [hxk,Function.update_self]
  · rw [Function.update_of_ne hxk]
    exact h.outside x (by simp [hk,hxa,hxb,hxk])

/-- What both sides have at a key. -/
theorem entry (h : t.Represents l) (k : K) :
    (t.fields k = none ∧ find l k = .error (.code .fieldDoesNotExist)) ∨
      ∃ a v b, l = a ++ (k,v) :: b ∧ (∀ e ∈ a, e.1 ≠ k) ∧ (∀ e ∈ b, e.1 ≠ k) ∧
        t.fields k = some ⟨(keys a).getLast?,(keys b).head?,v⟩ ∧ find l k = .ok v := by
  by_cases hk : k ∈ keys l
  · obtain ⟨e,he,rfl⟩ := List.mem_map.mp hk
    obtain ⟨a,b,rfl⟩ := List.append_of_mem he
    obtain ⟨hna,hnb,-⟩ := h.middle
    have ha := not_mem_keys.mp hna
    refine .inr ⟨a,e.2,b,rfl,ha,not_mem_keys.mp hnb,?_,?_⟩
    · simpa using (Segment.append.mp h.nodes).2.1
    · have hn : a.find? (·.1 = e.1) = none := by simpa using ha
      simp [find,hn]
  refine .inl ⟨h.outside k hk,?_⟩
  have hn : l.find? (·.1 = k) = none := by simpa using not_mem_keys.mp hk
  simp only [find,hn]

theorem setValue {v : V} (h : t.Represents (a ++ (k,v) :: b)) (w : V) :
    Represents
      { t with
        fields := Function.update t.fields k (some ⟨(keys a).getLast?,(keys b).head?,w⟩) }
      (a ++ (k,w) :: b) := by
  have hk : keys (a ++ (k,w) :: b) = keys (a ++ (k,v) :: b) := by simp [keys]
  obtain ⟨hka,hkb,-⟩ := h.middle
  obtain ⟨ha,-,hb⟩ := Segment.append.mp h.nodes
  refine ⟨hk ▸ h.nodup,hk ▸ h.head,hk ▸ h.tail,?_,?_,fun x hx => ?_⟩
  · simpa using h.size
  · refine Segment.append.mpr ⟨ha.update hka _,?_,hb.update hkb _⟩
    simp
  rw [hk] at hx
  refine (Function.update_of_ne ?_ _ _).trans (h.outside x hx)
  rintro rfl
  simp [keys] at hx

theorem lookups (h : t.Represents l) (k : K) : t.prev k = Entries.prev l k ∧
    t.next k = Entries.next l k ∧ t.borrow k = find l k := by
  simp only [LinkedTable.prev,LinkedTable.next,LinkedTable.borrow,Entries.prev,Entries.next,
    Fields.borrow]
  rcases h.entry k with ⟨hn,hf⟩ | ⟨a,v,b,rfl,ha,-,hn,hf⟩
  · simp only [hn,hf]
    exact ⟨rfl,rfl,rfl⟩
  have ha : ∀ e ∈ a, decide (e.1 ≠ k) = true := by simpa using ha
  simp only [hn,hf,List.takeWhile_append_of_pos ha,List.dropWhile_append_of_pos ha]
  simp

theorem exec (h : t.Represents l) (c : Call K V) :
    Agree Represents (t.exec c) (Entries.exec l c) := by
  cases c with
  | pushFront k v => exact h.pushFront k v
  | pushBack k v => exact h.pushBack k v
  | popFront =>
    cases l with
    | nil =>
      simp [LinkedTable.exec,LinkedTable.popFront,h.head,keys,assert]
      exact .error
    | cons e l =>
      obtain ⟨t',ht,hr⟩ := remove (a := []) h
      simp [LinkedTable.exec,LinkedTable.popFront,h.head,keys,assert,borrowKey,ht]
      exact .ok hr
  | popBack =>
    rcases l.eq_nil_or_concat' with rfl | ⟨l,e,rfl⟩
    · simp [LinkedTable.exec,LinkedTable.popBack,h.tail,keys,assert]
      exact .error
    obtain ⟨t',ht,hr⟩ := remove (b := []) h
    simp [LinkedTable.exec,Entries.exec,LinkedTable.popBack,h.tail,keys,assert,borrowKey,ht]
    exact .ok (by simpa using hr)
  | remove k =>
    rcases h.entry k with ⟨hn,hf⟩ | ⟨a,v,b,rfl,ha,hb,-,hf⟩
    · simp [LinkedTable.exec,LinkedTable.remove,Entries.exec,Fields.borrow,hn,hf]
      exact .error
    obtain ⟨t',ht,hr⟩ := h.remove
    have hfl : (a ++ (k,v) :: b).filter (·.1 ≠ k) = a ++ b := by
      rw [List.filter_append,List.filter_cons_of_neg (by simp),
        List.filter_eq_self.mpr (by simpa using ha),List.filter_eq_self.mpr (by simpa using hb)]
    simp only [LinkedTable.exec,Entries.exec,ht,hf,hfl]
    exact .ok hr
  | borrow k =>
    simp only [LinkedTable.exec,Entries.exec,(h.lookups k).2.2]
    cases find l k with
    | error e => exact .error
    | ok v => exact .ok h
  | borrowMut k v =>
    rcases h.entry k with ⟨hn,hf⟩ | ⟨a,w,b,rfl,ha,hb,hn,hf⟩
    · simp only [LinkedTable.exec,LinkedTable.borrowMut,Entries.exec,Fields.modify,
        Fields.borrow,hn,hf]
      exact .error
    have hid {m : Entries K V} (hm : ∀ e ∈ m, e.1 ≠ k) :
        (m.map fun e => if e.1 = k then (k,v) else e) = m :=
      (List.map_congr_left fun e he => if_neg (hm e he)).trans (List.map_id _)
    simp only [LinkedTable.exec,LinkedTable.borrowMut,Entries.exec,Segment.modify_some hn,hf,
      List.map_append,List.map_cons,if_true,hid ha,hid hb]
    exact .ok (h.setValue v)

omit [DecidableEq K] in
theorem empty_iff (h : t.Represents l) : (∀ k, t.fields k = none) ↔ t.size = 0 := by
  rw [h.size]
  cases l with
  | nil => exact iff_of_true (fun k => h.outside k List.not_mem_nil) rfl
  | cons e l => exact iff_of_false (fun hn => nomatch (hn e.1).symm.trans h.nodes.1) nofun

end LinkedTable.Represents

/-- A linked table answers every sequence of calls as a list of entries with distinct keys does, and
is linked as that list is ordered. -/
theorem LinkedTable.refines_entries (cs : List (Call K V)) :
    let t := (Machine.calls LinkedTable.exec (new : LinkedTable K V) cs).2
    let l := (Machine.calls Entries.exec ([] : Entries K V) cs).2
    (Machine.calls LinkedTable.exec (new : LinkedTable K V) cs).1 =
        (Machine.calls Entries.exec [] cs).1 ∧
      (keys l).Nodup ∧ t.head = (keys l).head? ∧ t.tail = (keys l).getLast? ∧
      t.size = l.length ∧
      (∀ k, t.prev k = Entries.prev l k ∧ t.next k = Entries.next l k ∧ t.borrow k = find l k) ∧
      ((∀ k, t.fields k = none) ↔ t.size = 0) := by
  have hn : (new : LinkedTable K V).Represents [] := ⟨.nil,rfl,rfl,rfl,trivial,fun _ _ => rfl⟩
  obtain ⟨hr,h⟩ := Machine.calls_agree (fun _ _ c h => Represents.exec h c) cs hn
  exact ⟨hr,h.nodup,h.head,h.tail,h.size,h.lookups,h.empty_iff⟩

end Iota.Framework
