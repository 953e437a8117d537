import Mathlib.Data.List.Nodup

/-!
This module contains the walk of an iterator through a doubly linked list with a sentinel, during
which elements are taken and some of these are erased. After an erase the iterator is at the
following element and is then advanced once more, so that element is skipped, and behind the last
element it is advanced from `end()` to `begin()`.
-/

namespace EraseWalk

variable {α : Type} (take keep : α → Bool)

-- one round: the elements taken, the elements left, and whether the iterator is at `begin()` again
def round : List α → List α × List α × Bool
  | [] => ([], [], false)
  | p :: ps =>
    if take p then
      if keep p then
        let (taken, left, again) := round ps
        (p :: taken, p :: left, again)
      else
        match ps with
        | [] => ([p], [], true)
        | q :: qs =>
          let (taken, left, again) := round qs
          (p :: taken, q :: left, again)
    else
      let (taken, left, again) := round ps
      (taken, p :: left, again)

def walk : Nat → List α → List α × List α
  | 0, l => ([], l)
  | fuel + 1, l =>
    let (taken, left, again) := round take keep l
    if again then
      let (taken', left') := walk fuel left
      (taken ++ taken', left')
    else
      (taken, left)

variable {take keep}

theorem round_left_sublist (l : List α) : (round take keep l).2.1.Sublist l := by
  fun_induction round take keep l with
  | case1 => apply List.nil_sublist
  | case2 p ps _ _ taken left again hround ih =>
    rw [hround] at ih
    apply ih.cons_cons
  | case3 => apply List.nil_sublist
  | case4 p _ _ q ps taken left again hround ih =>
    rw [hround] at ih
    apply (ih.cons_cons q).cons
  | case5 p ps _ taken left again hround ih =>
    rw [hround] at ih
    apply ih.cons_cons

theorem mem_of_mem_round_taken {p : α} {l : List α} (h : p ∈ (round take keep l).1)
    : p ∈ l ∧ take p = true := by
  fun_induction round take keep l with
  | case1 => cases h
  | case2 q ps htake _ taken left again hround ih =>
    rw [hround] at ih
    rcases List.mem_cons.mp h with rfl | h
    . exact ⟨List.mem_cons_self, htake⟩
    . exact ⟨List.mem_cons_of_mem _ (ih h).1, (ih h).2⟩
  | case3 q htake =>
    rw [List.mem_singleton] at h
    subst h
    exact ⟨List.mem_cons_self, htake⟩
  | case4 q htake _ r ps taken left again hround ih =>
    rw [hround] at ih
    rcases List.mem_cons.mp h with rfl | h
    . exact ⟨List.mem_cons_self, htake⟩
    . exact ⟨List.mem_cons_of_mem _ (List.mem_cons_of_mem _ (ih h).1), (ih h).2⟩
  | case5 q ps _ taken left again hround ih =>
    rw [hround] at ih
    exact ⟨List.mem_cons_of_mem _ (ih h).1, (ih h).2⟩

theorem mem_round_left {p : α} {l : List α} (hp : p ∈ l) (hkeep : keep p = true)
    : p ∈ (round take keep l).2.1 := by
  fun_induction round take keep l with
  | case1 => cases hp
  | case2 q ps _ _ taken left again hround ih =>
    rw [hround] at ih
    rcases List.mem_cons.mp hp with rfl | hp
    . apply List.mem_cons_self
    . apply List.mem_cons_of_mem _ (ih hp)
  | case3 q _ hq =>
    rw [List.mem_singleton] at hp
    subst hp
    exact absurd hkeep hq
  | case4 q _ hq r ps taken left again hround ih =>
    rw [hround] at ih
    rcases List.mem_cons.mp hp with rfl | hp
    . exact absurd hkeep hq
    . rcases List.mem_cons.mp hp with rfl | hp
      . apply List.mem_cons_self
      . apply List.mem_cons_of_mem _ (ih hp)
  | case5 q ps _ taken left again hround ih =>
    rw [hround] at ih
    rcases List.mem_cons.mp hp with rfl | hp
    . apply List.mem_cons_self
    . apply List.mem_cons_of_mem _ (ih hp)

-- an iterator that starts again has erased an element
theorem length_round_left_lt {l : List α} (h : (round take keep l).2.2 = true)
    : (round take keep l).2.1.length < l.length := by
  fun_induction round take keep l with
  | case1 => cases h
  | case2 p ps _ _ taken left again hround ih =>
    rw [hround] at ih
    apply Nat.succ_lt_succ (ih h)
  | case3 => apply Nat.succ_pos
  | case4 p _ _ q ps taken left again hround ih =>
    rw [hround] at ih
    apply Nat.lt_succ_of_lt (Nat.succ_lt_succ (ih h))
  | case5 p ps _ taken left again hround ih =>
    rw [hround] at ih
    apply Nat.succ_lt_succ (ih h)

theorem walk_succ (fuel : Nat) (l : List α)
    : walk take keep (fuel + 1) l
        =
      let r := round take keep l
      if r.2.2 then
        (r.1 ++ (walk take keep fuel r.2.1).1, (walk take keep fuel r.2.1).2)
      else
        (r.1, r.2.1) := rfl

theorem walk_left_sublist (fuel : Nat) (l : List α)
    : (walk take keep fuel l).2.Sublist l := by
  induction fuel generalizing l with
  | zero => apply List.Sublist.refl
  | succ fuel ih =>
    rw [walk_succ]
    simp only
    split
    . apply (ih _).trans (round_left_sublist l)
    . apply round_left_sublist

theorem mem_of_mem_walk_taken {p : α} {fuel : Nat} {l : List α}
    (h : p ∈ (walk take keep fuel l).1) : p ∈ l ∧ take p = true := by
  induction fuel generalizing l with
  | zero => cases h
  | succ fuel ih =>
    rw [walk_succ] at h
    simp only at h
    split at h
    . rcases List.mem_append.mp h with h | h
      . apply mem_of_mem_round_taken h
      . exact ⟨(round_left_sublist l).mem (ih h).1, (ih h).2⟩
    . apply mem_of_mem_round_taken h

theorem mem_walk_left {p : α} (fuel : Nat) {l : List α} (hp : p ∈ l) (hkeep : keep p = true)
    : p ∈ (walk take keep fuel l).2 := by
  induction fuel generalizing l with
  | zero => apply hp
  | succ fuel ih =>
    rw [walk_succ]
    simp only
    split
    . apply ih (mem_round_left hp hkeep)
    . apply mem_round_left hp hkeep

-- an element that is not kept is either taken, and thereby erased, or left
theorem count_round [DecidableEq α] {p : α} (h : keep p = false) (l : List α)
    : (round take keep l).1.count p + (round take keep l).2.1.count p = l.count p := by
  fun_induction round take keep l with
  | case1 => rfl
  | case2 q ps _ hkeep taken left again hround ih =>
    rw [hround] at ih
    have hne : q ≠ p := by
      rintro rfl
      rw [hkeep] at h
      cases h
    rw [List.count_cons_of_ne hne, List.count_cons_of_ne hne, List.count_cons_of_ne hne]
    exact ih
  | case3 => rfl
  | case4 q _ _ r ps taken left again hround ih =>
    rw [hround] at ih
    simp only [List.count_cons] at ih ⊢
    omega
  | case5 q ps _ taken left again hround ih =>
    rw [hround] at ih
    simp only [List.count_cons] at ih ⊢
    omega

theorem count_walk [DecidableEq α] {p : α} (h : keep p = false) (fuel : Nat) (l : List α)
    : (walk take keep fuel l).1.count p + (walk take keep fuel l).2.count p = l.count p := by
  induction fuel generalizing l with
  | zero => simp [walk]
  | succ fuel ih =>
    have hround : (round take keep l).1.count p + (round take keep l).2.1.count p = l.count p :=
      count_round h l
    rw [walk_succ]
    simp only
    split
    . rw [List.count_append, Nat.add_assoc, ih]
      exact hround
    . exact hround

/--
One round for each element and one more are enough for the walk to end.
-/
theorem walk_fuel {fuel : Nat} {l : List α} (h : l.length < fuel)
    : walk take keep (fuel + 1) l = walk take keep fuel l := by
  induction fuel generalizing l with
  | zero => cases h
  | succ fuel ih =>
    rw [walk_succ (fuel + 1) l]
    rw [walk_succ fuel l]
    simp only
    by_cases hagain : (round take keep l).2.2 = true
    . have hlt := length_round_left_lt hagain
      rw [ih (by omega)]
    . rw [if_neg hagain]
      rw [if_neg hagain]

theorem walk_singleton (fuel : Nat) (p : α)
    : walk take keep (fuel + 2) [p]
        =
      if take p then ([p], if keep p then [p] else []) else ([], [p]) := by
  cases ht : take p with
  | false => simp [walk_succ, round, ht]
  | true =>
    cases hk : keep p with
    | false => simp [walk_succ, round, ht, hk]
    | true => simp [walk_succ, round, ht, hk]

/-! ### Elements that wait -/

-- the elements in front of `p` that can be erased
def ahead [DecidableEq α] (keep : α → Bool) (p : α) : List α → Nat
  | [] => 0
  | q :: l => if q = p then 0 else (if keep q then 0 else 1) + ahead keep p l

section

variable [DecidableEq α] {p : α}

theorem ahead_cons_self (l : List α) : ahead keep p (p :: l) = 0 := if_pos rfl

theorem ahead_cons_of_ne {q : α} (h : q ≠ p) (l : List α)
    : ahead keep p (q :: l) = (if keep q then 0 else 1) + ahead keep p l := if_neg h

theorem ahead_append {l : List α} (h : p ∈ l) (l' : List α)
    : ahead keep p (l ++ l') = ahead keep p l := by
  induction l with
  | nil => cases h
  | cons q l ih =>
    by_cases hq : q = p
    . rw [hq, List.cons_append, ahead_cons_self, ahead_cons_self]
    . rw [List.cons_append, ahead_cons_of_ne hq, ahead_cons_of_ne hq, ih]
      exact (List.mem_cons.mp h).resolve_left (Ne.symm hq)

theorem ahead_congr {keep' : α → Bool} {l : List α} (h : ∀ q ∈ l, keep' q = keep q)
    : ahead keep' p l = ahead keep p l := by
  induction l with
  | nil => rfl
  | cons q l ih =>
    unfold ahead
    rw [h q List.mem_cons_self, ih fun r hr => h r (List.mem_cons_of_mem q hr)]

-- an element that is to be taken and is left has been skipped, behind one that has been erased
theorem ahead_round_lt (htake : take p = true) (hkeep : keep p = false) {l : List α}
    (hnodup : l.Nodup) (hp : p ∈ (round take keep l).2.1)
    : ahead keep p (round take keep l).2.1 < ahead keep p l := by
  fun_induction round take keep l with
  | case1 => cases hp
  | case2 q ps _ hq taken left again hround ih =>
    rw [hround] at ih
    have hne : q ≠ p := by
      rintro rfl
      rw [hkeep] at hq
      cases hq
    have hlt : ahead keep p left < ahead keep p ps :=
      ih hnodup.of_cons ((List.mem_cons.mp hp).resolve_left (Ne.symm hne))
    rw [ahead_cons_of_ne hne, ahead_cons_of_ne hne]
    omega
  | case3 => cases hp
  | case4 q _ hq r ps taken left again hround ih =>
    have hne : q ≠ p := by
      rintro rfl
      have hsub := (@round_left_sublist α take keep ps).cons_cons r
      rw [hround] at hsub
      exact (List.nodup_cons.mp hnodup).1 (hsub.mem hp)
    rw [hround] at ih
    rw [ahead_cons_of_ne hne, if_neg hq]
    by_cases hr : r = p
    . rw [hr, ahead_cons_self]
      omega
    . have hlt : ahead keep p left < ahead keep p ps :=
        ih hnodup.of_cons.of_cons ((List.mem_cons.mp hp).resolve_left (Ne.symm hr))
      rw [ahead_cons_of_ne hr, ahead_cons_of_ne hr]
      omega
  | case5 q ps hq taken left again hround ih =>
    rw [hround] at ih
    have hne : q ≠ p := by
      rintro rfl
      exact hq htake
    have hlt : ahead keep p left < ahead keep p ps :=
      ih hnodup.of_cons ((List.mem_cons.mp hp).resolve_left (Ne.symm hne))
    rw [ahead_cons_of_ne hne, ahead_cons_of_ne hne]
    omega

theorem ahead_walk_le (htake : take p = true) (hkeep : keep p = false) (fuel : Nat) {l : List α}
    (hnodup : l.Nodup) (hp : p ∈ (walk take keep fuel l).2)
    : ahead keep p (walk take keep fuel l).2 ≤ ahead keep p l := by
  induction fuel generalizing l with
  | zero => apply Nat.le_refl
  | succ fuel ih =>
    rw [walk_succ] at hp ⊢
    simp only at hp ⊢
    split at hp
    . rename_i hagain
      have hround := ahead_round_lt htake hkeep hnodup ((walk_left_sublist fuel _).mem hp)
      have hwalk := ih ((round_left_sublist l).nodup hnodup) hp
      rw [if_pos hagain]
      exact Nat.le_of_lt (Nat.lt_of_le_of_lt hwalk hround)
    . rename_i hagain
      rw [if_neg hagain]
      exact Nat.le_of_lt (ahead_round_lt htake hkeep hnodup hp)

/--
Each walk that leaves an element behind that it is to take has erased one in front of it.
-/
theorem ahead_walk_lt (htake : take p = true) (hkeep : keep p = false) (fuel : Nat) {l : List α}
    (hnodup : l.Nodup) (hp : p ∈ (walk take keep (fuel + 1) l).2)
    : ahead keep p (walk take keep (fuel + 1) l).2 < ahead keep p l := by
  rw [walk_succ] at hp ⊢
  simp only at hp ⊢
  split at hp
  . rename_i hagain
    have hround := ahead_round_lt htake hkeep hnodup ((walk_left_sublist fuel _).mem hp)
    have hwalk := ahead_walk_le htake hkeep fuel ((round_left_sublist l).nodup hnodup) hp
    rw [if_pos hagain]
    exact Nat.lt_of_le_of_lt hwalk hround
  . rename_i hagain
    rw [if_neg hagain]
    exact ahead_round_lt htake hkeep hnodup hp

end

/-! ### Rounds that skip nothing -/

-- whatever is erased stands directly in front of an element that is not taken
def Followed (take keep : α → Bool) : List α → Prop
  | [] => True
  | [p] => take p = true → keep p = true
  | p :: q :: l =>
    (take p = true → keep p = false → take q = false) ∧ Followed take keep (q :: l)

instance decidableFollowed : (l : List α) → Decidable (Followed take keep l)
  | [] => isTrue trivial
  | [p] => inferInstanceAs (Decidable (take p = true → keep p = true))
  | p :: q :: l =>
    have := decidableFollowed (q :: l)
    inferInstanceAs (Decidable ((take p = true → keep p = false → take q = false) ∧ _))

theorem Followed.tail {p : α} {l : List α} (h : Followed take keep (p :: l))
    : Followed take keep l := by
  cases l with
  | nil => exact trivial
  | cons q l => exact h.2

theorem followed_cons {p : α} {l : List α} (hp : take p = true → keep p = true)
    (h : Followed take keep l) : Followed take keep (p :: l) := by
  cases l with
  | nil => exact hp
  | cons q l =>
    refine ⟨?_, h⟩
    intro htake hkeep
    rw [hp htake] at hkeep
    cases hkeep

theorem round_taken_sublist (l : List α) : (round take keep l).1.Sublist (l.filter take) := by
  fun_induction round take keep l with
  | case1 => apply List.Sublist.refl
  | case2 p ps htake _ taken left again hround ih =>
    rw [hround] at ih
    rw [List.filter_cons_of_pos htake]
    apply ih.cons_cons
  | case3 p htake =>
    rw [List.filter_cons_of_pos htake]
    apply List.Sublist.refl
  | case4 p htake _ q qs taken left again hround ih =>
    rw [hround] at ih
    rw [List.filter_cons_of_pos htake]
    apply (ih.trans ((List.sublist_cons_self q qs).filter take)).cons_cons
  | case5 p ps htake taken left again hround ih =>
    rw [hround] at ih
    rw [List.filter_cons_of_neg htake]
    apply ih

theorem round_of_followed {l : List α} (h : Followed take keep l)
    : round take keep l = (l.filter take, l.filter fun p => !take p || keep p, false) := by
  fun_induction round take keep l with
  | case1 => rfl
  | case2 p ps htake hkeep taken left again hround ih =>
    have hps := ih h.tail
    rw [hround] at hps
    simp only [Prod.mk.injEq] at hps
    simp [htake, hkeep, hps]
  | case3 p htake hkeep => exact absurd (h htake) hkeep
  | case4 p htake hkeep q qs taken left again hround ih =>
    have hq : take q = false := h.1 htake (Bool.eq_false_iff.mpr hkeep)
    have hqs := ih h.tail.tail
    rw [hround] at hqs
    simp only [Prod.mk.injEq] at hqs
    simp [htake, hkeep, hq, hqs]
  | case5 p ps htake taken left again hround ih =>
    have hps := ih h.tail
    rw [hround] at hps
    simp only [Prod.mk.injEq] at hps
    simp [htake, hps]

theorem followed_of_round {l : List α} (hagain : (round take keep l).2.2 = false)
    (htaken : (round take keep l).1 = l.filter take) : Followed take keep l := by
  fun_induction round take keep l with
  | case1 => exact trivial
  | case2 p ps htake hkeep taken left again hround ih =>
    rw [hround] at ih
    rw [List.filter_cons_of_pos htake] at htaken
    exact followed_cons (fun _ => hkeep) (ih hagain (List.cons.inj htaken).2)
  | case3 => cases hagain
  | case4 p htake hkeep q qs taken left again hround ih =>
    have hsub := @round_taken_sublist α take keep qs
    rw [hround] at ih hsub
    rw [List.filter_cons_of_pos htake] at htaken
    have hrest := (List.cons.inj htaken).2
    cases hq : take q with
    | false =>
      rw [List.filter_cons_of_neg (by simp [hq])] at hrest
      refine ⟨fun _ _ => hq, followed_cons ?_ (ih hagain hrest)⟩
      intro htrue
      rw [hq] at htrue
      cases htrue
    | true =>
      -- the skipped element is missing
      rw [List.filter_cons_of_pos hq] at hrest
      have hlen := hsub.length_le
      rw [hrest, List.length_cons] at hlen
      omega
  | case5 p ps htake taken left again hround ih =>
    rw [hround] at ih
    rw [List.filter_cons_of_neg htake] at htaken
    refine followed_cons ?_ (ih hagain htaken)
    intro htrue
    exact absurd htrue htake

/--
A round takes everything that it is to take and stays in the list exactly when each element that it
erases is directly followed by one that it does not take.
-/
theorem round_iff {l : List α}
    : (round take keep l).2.2 = false ∧ (round take keep l).1 = l.filter take
        ↔
      Followed take keep l := by
  constructor
  . rintro ⟨hagain, htaken⟩
    apply followed_of_round hagain htaken
  . intro h
    rw [round_of_followed h]
    exact ⟨rfl, rfl⟩

end EraseWalk
