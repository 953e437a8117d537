import Mathlib.Logic.Basic

/-!
This module contains the tie between the owner of a lock and those who are inside the section that it
protects: the owner is inside and nobody else is. `inside` can be any predicate, for example one on the
places of threads or on the flags of guards.
-/

namespace Ownership

variable {T : Type} {owner : Option T} {inside inside' : T → Prop} {t u : T}

def Held (owner : Option T) (inside : T → Prop) : Prop := ∀ t, owner = some t ↔ inside t

theorem held_none (h : ∀ t, ¬inside t) : Held none inside :=
  fun t => iff_of_false nofun (h t)

theorem Held.unique (h : Held owner inside) (ht : inside t) (hu : inside u) : t = u := by
  have howner := (h t).mpr ht
  rw [(h u).mpr hu] at howner
  exact (Option.some.inj howner).symm

theorem Held.free (h : Held none inside) (t : T) : ¬inside t := by
  rw [← h t]
  nofun

theorem Held.congr (h : Held owner inside) (hiff : ∀ t, inside' t ↔ inside t)
    : Held owner inside' :=
  fun t => (h t).trans (hiff t).symm

theorem Held.lock (h : Held none inside) (ht : inside' t)
    (hother : ∀ u, u ≠ t → (inside' u ↔ inside u)) : Held (some t) inside' := by
  intro u
  by_cases hu : u = t
  . subst hu
    exact iff_of_true rfl ht
  . refine iff_of_false ?_ ?_
    . exact fun heq => hu (Option.some.inj heq).symm
    . rw [hother u hu]
      apply h.free

theorem Held.unlock (h : Held owner inside) (ht : inside t) (hout : ¬inside' t)
    (hother : ∀ u, u ≠ t → (inside' u ↔ inside u)) : Held none inside' := by
  apply held_none
  intro u hu
  by_cases heq : u = t
  . rw [heq] at hu
    exact hout hu
  . exact heq (h.unique ((hother u heq).mp hu) ht)

end Ownership
