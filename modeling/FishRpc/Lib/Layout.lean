import Mathlib.Data.List.Perm.Basic

/-!
This module contains messages that are laid out in places: each place holds some of the messages one
after another and nothing else, and each message is in one place once.
-/

namespace Layout

variable {α : Type}

def Laid (places messages : List (List α)) : Prop :=
  ∃ layout : List (List (List α)),
    places = layout.map List.flatten ∧ layout.flatten.Perm messages

variable {places places' messages : List (List α)} {x y message : List α}

theorem Laid.extend (h : Laid (places ++ [x]) messages)
    : Laid (places ++ [x ++ message]) (messages ++ [message]) := by
  rcases h with ⟨layout, hplaces, hperm⟩
  rcases List.map_eq_append_iff.mp hplaces.symm with ⟨front, back, rfl, hfront, hback⟩
  rcases List.map_eq_singleton_iff.mp hback with ⟨last, rfl, hlast⟩
  refine ⟨front ++ [last ++ [message]], ?_, ?_⟩
  . simp [hfront, hlast]
  . have happend := hperm.append_right [message]
    simpa using happend

theorem Laid.add (h : Laid places messages)
    : Laid (places ++ [message]) (messages ++ [message]) := by
  rcases h with ⟨layout, hplaces, hperm⟩
  refine ⟨layout ++ [[message]], ?_, ?_⟩
  . simp [hplaces]
  . have happend := hperm.append_right [message]
    simpa using happend

theorem Laid.merge (h : Laid (x :: (places ++ y :: places')) messages)
    : Laid ((x ++ y) :: (places ++ places')) messages := by
  rcases h with ⟨layout, hplaces, hperm⟩
  rcases List.map_eq_cons_iff.mp hplaces.symm with ⟨first, rest, rfl, hfirst, hrest⟩
  rcases List.map_eq_append_iff.mp hrest with ⟨front, back, rfl, hfront, hback⟩
  rcases List.map_eq_cons_iff.mp hback with ⟨middle, back, rfl, hmiddle, hback⟩
  refine ⟨(first ++ middle) :: (front ++ back), ?_, ?_⟩
  . simp [hfirst, hmiddle, hfront, hback]
  . refine List.Perm.trans ?_ hperm
    simp only [List.flatten_cons, List.flatten_append, List.append_assoc]
    apply List.Perm.append_left first
    rw [← List.append_assoc, ← List.append_assoc]
    apply List.Perm.append_right
    apply List.perm_append_comm

-- the first place goes behind the others and an empty one is opened
theorem Laid.close (h : Laid (x :: (places ++ places')) messages)
    : Laid ([] :: ((places ++ [x]) ++ places')) messages := by
  rcases h with ⟨layout, hplaces, hperm⟩
  rcases List.map_eq_cons_iff.mp hplaces.symm with ⟨first, rest, rfl, hfirst, hrest⟩
  rcases List.map_eq_append_iff.mp hrest with ⟨front, back, rfl, hfront, hback⟩
  refine ⟨[] :: ((front ++ [first]) ++ back), ?_, ?_⟩
  . simp [hfirst, hfront, hback]
  . refine List.Perm.trans ?_ hperm
    simp only [List.flatten_cons, List.flatten_append, List.flatten_nil, List.nil_append,
      List.append_nil, ← List.append_assoc]
    apply List.Perm.append_right
    apply List.perm_append_comm

end Layout
