import Mathlib.Data.List.DropRight
import Mathlib.Data.List.Nodup
import Mathlib.Logic.Function.Basic

/-!
This module contains doubly linked lists whose nodes keep their identity. An iterator is the name of
a node, so it stays valid while the node is moved to another place. `values` is the sequence that the
list stands for.
-/

structure NodeList (α : Type) where
  order : List Nat
  value : Nat → α
  fresh : Nat
  nodup : order.Nodup
  lt_fresh : ∀ n ∈ order, n < fresh

namespace NodeList

variable {α β : Type} {f : β → α → β} {g : α → α} {b : β}

def empty [Inhabited α] : NodeList α where
  order := []
  value _ := default
  fresh := 0
  nodup := List.nodup_nil
  lt_fresh _ h := absurd h List.not_mem_nil

def values (l : NodeList α) : List α := l.order.map l.value

def size (l : NodeList α) : Nat := l.order.length

abbrev Iter (l : NodeList α) : Type := { n : Nat // n ∈ l.order }

def begin? (l : NodeList α) : Option l.Iter :=
  if h : l.order = [] then none else some ⟨l.order.head h, List.head_mem h⟩

def pushBack (l : NodeList α) (a : α) : NodeList α where
  order := l.order ++ [l.fresh]
  value := Function.update l.value l.fresh a
  fresh := l.fresh + 1
  nodup := by
    refine List.nodup_append.mpr ⟨l.nodup, List.nodup_singleton _, ?_⟩
    intro n hn m hm heq
    rw [heq, List.mem_singleton.mp hm] at hn
    exact Nat.lt_irrefl _ (l.lt_fresh _ hn)
  lt_fresh := by
    intro n hn
    rcases List.mem_append.mp hn with hold | hnew
    . exact Nat.lt_succ_of_lt (l.lt_fresh n hold)
    . rw [List.mem_singleton.mp hnew]
      exact Nat.lt_succ_self _

-- moves the node of the iterator behind all others
def spliceEnd (l : NodeList α) (iter : l.Iter) : NodeList α where
  order := l.order.erase iter.val ++ [iter.val]
  value := l.value
  fresh := l.fresh
  nodup := by
    refine List.nodup_append.mpr ⟨l.nodup.erase _, List.nodup_singleton _, ?_⟩
    intro n hn m hm heq
    rw [heq, List.mem_singleton.mp hm] at hn
    exact l.nodup.not_mem_erase hn
  lt_fresh := by
    intro n hn
    rcases List.mem_append.mp hn with hold | hnew
    . exact l.lt_fresh n (List.mem_of_mem_erase hold)
    . rw [List.mem_singleton.mp hnew]
      exact l.lt_fresh _ iter.property

def spliced (l : NodeList α) (iter : l.Iter) : (l.spliceEnd iter).Iter :=
  ⟨iter.val, List.mem_append_right _ List.mem_cons_self⟩

def modify (l : NodeList α) (n : Nat) (g : α → α) : NodeList α :=
  { l with value := Function.update l.value n (g (l.value n)) }

-- a loop over references to the nodes: `f` reads each node before `g` changes it
def forEach (l : NodeList α) (f : β → α → β) (g : α → α) (b : β) : β × NodeList α :=
  l.order.foldl (fun p n => (f p.1 (p.2.value n), p.2.modify n g)) (b, l)

@[simp]
theorem values_empty [Inhabited α] : (empty : NodeList α).values = [] := rfl

theorem length_values (l : NodeList α) : l.values.length = l.size := by
  simp [values, size]

theorem begin?_of_values_cons {l : NodeList α} {a : α} {as : List α} (h : l.values = a :: as)
    : ∃ iter : l.Iter,
        l.begin? = some iter ∧ l.value iter.val = a ∧
        (l.order.erase iter.val).map l.value = as := by
  rcases List.map_eq_cons_iff.mp h with ⟨n, ns, hcons, hvalue, hrest⟩
  have hne : l.order ≠ [] := by simp [hcons]
  have hhead : l.order.head hne = n := by simp [hcons]
  refine ⟨⟨l.order.head hne, List.head_mem hne⟩, dif_neg hne, ?_, ?_⟩
  . dsimp only
    rw [hhead, hvalue]
  . dsimp only
    rw [hhead, hcons]
    rw [List.erase_cons_head, hrest]

@[simp]
theorem values_pushBack (l : NodeList α) (a : α) : (l.pushBack a).values = l.values ++ [a] := by
  have hold : l.order.map (Function.update l.value l.fresh a) = l.order.map l.value := by
    apply List.map_congr_left
    intro n hn
    rw [Function.update_of_ne]
    exact Nat.ne_of_lt (l.lt_fresh n hn)
  unfold values pushBack
  rw [List.map_append, hold]
  simp

theorem values_modify_spliced (l : NodeList α) (iter : l.Iter) (g : α → α)
    : ((l.spliceEnd iter).modify (l.spliced iter).val g).values
        =
      (l.order.erase iter.val).map l.value ++ [g (l.value iter.val)] := by
  have hrest : (l.order.erase iter.val).map
      (Function.update l.value iter.val (g (l.value iter.val)))
        =
      (l.order.erase iter.val).map l.value := by
    apply List.map_congr_left
    intro n hn
    rw [Function.update_of_ne]
    intro heq
    rw [heq] at hn
    exact l.nodup.not_mem_erase hn
  unfold values modify spliced spliceEnd
  simp only [List.map_append, List.map_cons, List.map_nil, Function.update_self]
  rw [hrest]

theorem order_foldl_modify (ns : List Nat) (l : NodeList α) (b : β)
    : (ns.foldl (fun p n => (f p.1 (p.2.value n), p.2.modify n g)) (b, l)).2.order = l.order := by
  induction ns generalizing b l with
  | nil => rfl
  | cons n ns ih =>
    rw [List.foldl_cons, ih]
    rfl

theorem value_foldl_modify (ns : List Nat) (hns : ns.Nodup) (l : NodeList α) (b : β)
    : (ns.foldl (fun p n => (f p.1 (p.2.value n), p.2.modify n g)) (b, l)).1
        =
      (ns.map l.value).foldl f b ∧
      ∀ m, (ns.foldl (fun p n => (f p.1 (p.2.value n), p.2.modify n g)) (b, l)).2.value m
        =
      if m ∈ ns then g (l.value m) else l.value m := by
  induction ns generalizing b l with
  | nil => simp
  | cons n ns ih =>
    rcases List.nodup_cons.mp hns with ⟨hn, hns⟩
    rcases ih hns (l.modify n g) (f b (l.value n)) with ⟨hfold, hvalue⟩
    have hother : ns.map (l.modify n g).value = ns.map l.value := by
      apply List.map_congr_left
      intro m hm
      have hne : m ≠ n := fun heq => hn (heq ▸ hm)
      exact Function.update_of_ne hne _ _
    rw [List.foldl_cons]
    refine ⟨?_, ?_⟩
    . rw [hfold, hother]
      rfl
    . intro m
      rw [hvalue]
      by_cases hm : m = n
      . subst hm
        simp [hn, modify]
      . simp [hm, modify]

/--
A loop over the nodes sees the values in their order and changes each of them once.
-/
theorem forEach_fst (l : NodeList α) (b : β) : (l.forEach f g b).1 = l.values.foldl f b := by
  apply (value_foldl_modify l.order l.nodup l b).1

theorem values_forEach (l : NodeList α) (b : β)
    : (l.forEach f g b).2.values = l.values.map g := by
  have hvalue := (value_foldl_modify (f := f) (g := g) l.order l.nodup l b).2
  have horder := order_foldl_modify (f := f) (g := g) l.order l b
  unfold values forEach
  rw [horder, List.map_map]
  apply List.map_congr_left
  intro n hn
  rw [hvalue, if_pos hn]
  rfl

end NodeList
