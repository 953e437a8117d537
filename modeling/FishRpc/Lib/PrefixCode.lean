import Mathlib.Data.List.Basic

/-!
This module contains words that are spelled along a path of letters. The letters come from outside
in, and a letter that counts `twice` is followed by two copies of what is inside. If the innermost
word is a single letter that occurs on no path, words can be read off without separators.
-/

namespace PrefixCode

variable {α : Type} (twice : α → Bool)

def spell : List α → List α → List α
  | [], inner => inner
  | c :: path, inner =>
    if twice c then
      c :: (spell path inner ++ spell path inner)
    else
      c :: spell path inner

-- some words can follow the two such that they become equal
def Overlap (u v : List α) : Prop :=
  u <+: v ∨ v <+: u

theorem overlap_comm {u v : List α} : Overlap u v ↔ Overlap v u :=
  Or.comm

theorem overlap_iff {u v : List α} : Overlap u v ↔ ∃ r s, u ++ r = v ++ s := by
  constructor
  . rintro (⟨r, hr⟩ | ⟨s, hs⟩)
    . exact ⟨r, [], by rw [hr, List.append_nil]⟩
    . exact ⟨[], s, by rw [hs, List.append_nil]⟩
  . rintro ⟨r, s, heq⟩
    apply List.prefix_or_prefix_of_prefix (List.prefix_append u r)
    rw [heq]
    apply List.prefix_append

variable {twice}

theorem path_prefix_spell (path inner : List α) : path ++ inner <+: spell twice path inner := by
  induction path with
  | nil => apply List.prefix_rfl
  | cons c path ih =>
    unfold spell
    split
    . exact (List.prefix_cons_inj c).mpr (ih.trans (List.prefix_append _ _))
    . exact (List.prefix_cons_inj c).mpr ih

theorem mem_spell {path inner : List α} {x : α} (h : x ∈ spell twice path inner)
    : x ∈ path ∨ x ∈ inner := by
  induction path with
  | nil => exact Or.inr h
  | cons c path ih =>
    have hcases : x = c ∨ x ∈ spell twice path inner := by
      unfold spell at h
      split at h
      . simpa using h
      . simpa using h
    rcases hcases with hc | hrest
    . rw [hc]
      exact Or.inl List.mem_cons_self
    . rcases ih hrest with hpath | hinner
      . exact Or.inl (List.mem_cons_of_mem c hpath)
      . exact Or.inr hinner

/--
Words that end in single letters are equal only if they are spelled along the same path, whatever
follows them.
-/
theorem spell_inj {path path' : List α} {x y : α} {r s : List α} (hx : x ∉ path')
    (hy : y ∉ path) (h : spell twice path [x] ++ r = spell twice path' [y] ++ s)
    : path = path' ∧ x = y ∧ r = s := by
  induction path generalizing path' r s with
  | nil =>
    cases path' with
    | nil => simpa [spell] using h
    | cons d path' =>
      have hhead := congrArg List.head? h
      unfold spell at hhead
      have hd : x = d := by split at hhead <;> simpa [spell] using hhead
      exact absurd (hd ▸ List.mem_cons_self) hx
  | cons c path ih =>
    cases path' with
    | nil =>
      have hhead := congrArg List.head? h
      unfold spell at hhead
      have hc : y = c := by split at hhead <;> simpa [spell, eq_comm] using hhead
      exact absurd (hc ▸ List.mem_cons_self) hy
    | cons d path' =>
      have hx' : x ∉ path' := fun hmem => hx (List.mem_cons_of_mem d hmem)
      have hy' : y ∉ path := fun hmem => hy (List.mem_cons_of_mem c hmem)
      have hhead := congrArg List.head? h
      have hcd : c = d := by
        unfold spell at hhead
        split at hhead <;> split at hhead <;> simpa using hhead
      subst hcd
      unfold spell at h
      split at h
      . simp only [List.cons_append, List.append_assoc, List.cons.injEq, true_and] at h
        rcases ih hx' hy' h with ⟨hpath, hxy, hrest⟩
        rcases ih hx' hy' hrest with ⟨_, _, hrs⟩
        exact ⟨by rw [hpath], hxy, hrs⟩
      . simp only [List.cons_append, List.cons.injEq, true_and] at h
        rcases ih hx' hy' h with ⟨hpath, hxy, hrs⟩
        exact ⟨by rw [hpath], hxy, hrs⟩

theorem overlap_spell_iff {path path' : List α} {x y : α} (hx : x ∉ path') (hy : y ∉ path)
    : Overlap (spell twice path [x]) (spell twice path' [y]) ↔ path = path' ∧ x = y := by
  rw [overlap_iff]
  constructor
  . rintro ⟨r, s, h⟩
    rcases spell_inj hx hy h with ⟨hpath, hxy, _⟩
    exact ⟨hpath, hxy⟩
  . rintro ⟨hpath, hxy⟩
    rw [hpath, hxy]
    exact ⟨[], [], rfl⟩

/--
A word that ends in nothing overlaps one that ends in a letter if it is a beginning of its path.
-/
theorem overlap_spell_nil_iff {path path' : List α} {y : α} (hy : y ∉ path)
    : Overlap (spell twice path []) (spell twice path' [y]) ↔ spell twice path [] <+: path' := by
  have hpath' : path' ++ [y] <+: spell twice path' [y] := path_prefix_spell path' [y]
  have hfree : y ∉ spell twice path [] := by
    intro hmem
    rcases mem_spell hmem with hpath | hnil
    . exact hy hpath
    . cases hnil
  constructor
  . rintro (hshort | hlong)
    . rcases List.prefix_or_prefix_of_prefix hshort hpath' with hle | hge
      . rcases List.prefix_concat_iff.mp hle with heq | hprefix
        . exact absurd (by rw [heq]; simp) hfree
        . exact hprefix
      . exact absurd (hge.subset (by simp)) hfree
    . exact absurd ((hpath'.trans hlong).subset (by simp)) hfree
  . intro h
    exact Or.inl ((h.trans (List.prefix_append path' [y])).trans hpath')

end PrefixCode
