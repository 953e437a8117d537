import Mathlib.Data.List.Basic
import Mathlib.Logic.Function.Iterate

/-!
This module contains computations that read a state and, besides it, a stream of letters that they
have no control over, and that may end in a `Fault`. What such a computation `Yields` depends on the
stream, unless it is `Determined`. A computation is `Fading` if it stops depending on the state only
by leaving it behind: once it depends on the stream, nothing is left of the state but its end, from
which everything can be yielded that could be yielded before.
-/

-- an exception ends the computation, or nothing at all is known of how it goes on
inductive Fault where
  | thrown
  | undefined
  deriving DecidableEq

abbrev Noisy (σ ι α : Type) := σ → (Nat → ι) → Except Fault (α × σ × (Nat → ι))

namespace Noisy

variable {σ ι α β : Type}

def ret (a : α) : Noisy σ ι α :=
  fun s f => .ok (a, s, f)

def bind (r : Noisy σ ι α) (k : α → Noisy σ ι β) : Noisy σ ι β :=
  fun s f =>
    match r s f with
    | .ok (a, s, f) => k a s f
    | .error fault => .error fault

def loop (r : Noisy σ ι α) (store : α → β → β) : Nat → β → Noisy σ ι β
  | 0, v => ret v
  | n + 1, v => bind r fun x => loop r store n (store x v)

-- numbers beyond the limit are refused
def bounded (limit : Nat) (size : Noisy σ ι Nat) : Noisy σ ι Nat :=
  bind size fun n s f => if limit < n then .error .thrown else .ok (n, s, f)

def Yields (r : Noisy σ ι α) (s : σ) (a : α) (s' : σ) : Prop :=
  ∃ f g, r s f = .ok (a, s', g)

def Safe (r : Noisy σ ι α) (s : σ) : Prop :=
  ∀ f, r s f ≠ .error .undefined

def Determined (r : Noisy σ ι α) (s : σ) : Prop :=
  ∀ a b s₁ s₂, Yields r s a s₁ → Yields r s b s₂ → a = b ∧ s₁ = s₂

-- only a beginning of the stream is read, and the rest of it is left
def Local (r : Noisy σ ι α) : Prop :=
  ∀ s f, ∃ n, ∀ g, (∀ i < n, g i = f i) →
    r s g = (r s f).map fun x => (x.1, x.2.1, fun i => g (i + n))

structure Fading (e : σ) (r : Noisy σ ι α) : Prop where
  isLocal : Local r
  safe : Safe r e
  live : ∃ a, Yields r e a e
  stays : ∀ a s', Yields r e a s' → s' = e
  drains : ∀ s, Determined r s ∨ ∀ a s', Yields r s a s' → s' = e
  covers : ∀ s a s', Yields r s a s' → Yields r e a e

variable {r : Noisy σ ι α} {k : α → Noisy σ ι β} {s s' : σ} {a : α} {e : σ}

theorem bind_ok {f g : Nat → ι} (h : r s f = .ok (a, s', g)) : bind r k s f = k a s' g := by
  unfold bind
  rw [h]

theorem bind_error {f : Nat → ι} {fault : Fault} (h : r s f = .error fault)
    : bind r k s f = .error fault := by
  unfold bind
  rw [h]

theorem exists_ne_of_not_determined (h : ¬Determined r s)
    : ∃ a s₁ b s₂, Yields r s a s₁ ∧ Yields r s b s₂ ∧ ¬(a = b ∧ s₁ = s₂) := by
  apply Classical.byContradiction
  intro hnone
  apply h
  intro a b s₁ s₂ ha hb
  apply Classical.byContradiction
  intro hne
  exact hnone ⟨a, s₁, b, s₂, ha, hb, hne⟩

-- whatever is yielded can be yielded such that any stream is left
theorem Local.yields (h : Local r) (hy : Yields r s a s') (g : Nat → ι)
    : ∃ f, r s f = .ok (a, s', g) := by
  rcases hy with ⟨f, left, hf⟩
  rcases h s f with ⟨n, hn⟩
  refine ⟨fun i => if i < n then f i else g (i - n), ?_⟩
  rw [hn _ fun i hi => if_pos hi]
  rw [hf]
  have hrest : (fun i => if i + n < n then f (i + n) else g (i + n - n)) = g := by
    funext i
    rw [if_neg (by omega), Nat.add_sub_cancel]
  simp only [Except.map]
  rw [hrest]

theorem yields_bind (h : Local r) {b : β}
    : Yields (bind r k) s b s' ↔ ∃ a s₁, Yields r s a s₁ ∧ Yields (k a) s₁ b s' := by
  constructor
  . rintro ⟨f, g, hbind⟩
    cases hr : r s f with
    | error fault =>
      rw [bind_error hr] at hbind
      cases hbind
    | ok x =>
      rw [bind_ok hr] at hbind
      exact ⟨_, _, ⟨f, _, hr⟩, _, g, hbind⟩
  . rintro ⟨a, s₁, hfirst, f, g, hk⟩
    rcases h.yields hfirst f with ⟨f', hf'⟩
    refine ⟨f', g, ?_⟩
    rw [bind_ok hf']
    exact hk

theorem safe_bind (h : Local r)
    : Safe (bind r k) s ↔ Safe r s ∧ ∀ a s', Yields r s a s' → Safe (k a) s' := by
  constructor
  . intro hsafe
    constructor
    . intro f hf
      exact hsafe f (bind_error hf)
    . intro a s' hy f hf
      rcases h.yields hy f with ⟨f', hf'⟩
      apply hsafe f'
      rw [bind_ok hf']
      exact hf
  . rintro ⟨hr, hk⟩ f
    cases hf : r s f with
    | error fault =>
      rw [bind_error hf]
      intro hfault
      cases hfault
      exact hr f hf
    | ok x =>
      rw [bind_ok hf]
      exact hk _ _ ⟨f, _, hf⟩ _

theorem Local.bind (hr : Local r) (hk : ∀ a, Local (k a)) : Local (bind r k) := by
  intro s f
  rcases hr s f with ⟨n, hn⟩
  cases hf : r s f with
  | error fault =>
    refine ⟨n, ?_⟩
    intro g hg
    have hfirst := hn g hg
    rw [hf] at hfirst
    rw [bind_error hf, bind_error hfirst]
    rfl
  | ok x =>
    rcases hk x.1 x.2.1 x.2.2 with ⟨m, hm⟩
    have hshift : x.2.2 = fun i => f (i + n) := by
      have hself := hn f fun _ _ => rfl
      rw [hf] at hself
      exact congrArg (fun y => y.2.2) (Except.ok.inj hself)
    refine ⟨n + m, ?_⟩
    intro g hg
    have hfirst := hn g fun i hi => hg i (by omega)
    rw [hf] at hfirst
    have hsecond := hm (fun i => g (i + n)) fun i hi => by
      rw [hshift]
      apply hg (i + n) (by omega)
    rw [bind_ok hf, bind_ok hfirst, hsecond]
    simp only [Nat.add_assoc, Nat.add_comm n m]

-- behind a determined computation everything depends on what comes next
theorem determined_bind_iff (hr : Local r) (h : Determined r s)
    : Determined (bind r k) s ↔ ∀ a s', Yields r s a s' → Determined (k a) s' := by
  constructor
  . intro hbind a s' hy b c s₁ s₂ hb hc
    exact hbind b c s₁ s₂ ((yields_bind hr).mpr ⟨a, s', hy, hb⟩)
      ((yields_bind hr).mpr ⟨a, s', hy, hc⟩)
  . intro hk b c s₁ s₂ hb hc
    rcases (yields_bind hr).mp hb with ⟨a, t, hy, hb⟩
    rcases (yields_bind hr).mp hc with ⟨a', t', hy', hc⟩
    rcases h a a' t t' hy hy' with ⟨ha, ht⟩
    rw [← ha, ← ht] at hc
    exact hk a t hy b c s₁ s₂ hb hc

theorem yields_ret [Inhabited ι] {b : α}
    : Yields (ret a : Noisy σ ι α) s b s' ↔ a = b ∧ s = s' := by
  constructor
  . rintro ⟨f, g, hret⟩
    cases hret
    exact ⟨rfl, rfl⟩
  . rintro ⟨ha, hs⟩
    rw [← ha, ← hs]
    exact ⟨default, default, rfl⟩

theorem determined_ret (a : α) (s : σ) : Determined (ret a : Noisy σ ι α) s := by
  rintro b c s₁ s₂ ⟨f, g, hb⟩ ⟨f', g', hc⟩
  cases hb
  cases hc
  exact ⟨rfl, rfl⟩

theorem safe_ret (a : α) (s : σ) : Safe (ret a : Noisy σ ι α) s := by
  intro f hf
  cases hf

theorem Fading.bind (hr : Fading e r) (hk : ∀ a, Fading e (k a)) : Fading e (bind r k) where
  isLocal := hr.isLocal.bind fun a => (hk a).isLocal
  safe := by
    rw [safe_bind hr.isLocal]
    refine ⟨hr.safe, ?_⟩
    intro a s' hy
    rw [hr.stays a s' hy]
    exact (hk a).safe
  live := by
    rcases hr.live with ⟨a, ha⟩
    rcases (hk a).live with ⟨b, hb⟩
    exact ⟨b, (yields_bind hr.isLocal).mpr ⟨a, e, ha, hb⟩⟩
  stays b s' hy := by
    rcases (yields_bind hr.isLocal).mp hy with ⟨a, s₁, hfirst, hsecond⟩
    rw [hr.stays a s₁ hfirst] at hsecond
    apply (hk a).stays b s' hsecond
  drains s := by
    rcases hr.drains s with hdetermined | hdrained
    . by_cases hnext : ∀ a s', Yields r s a s' → Determined (k a) s'
      . exact Or.inl ((determined_bind_iff hr.isLocal hdetermined).mpr hnext)
      . right
        -- what follows depends on the stream, so it leaves nothing
        simp only [not_forall] at hnext
        rcases hnext with ⟨a, s₁, hfirst, hnot⟩
        intro b s' hy
        rcases (yields_bind hr.isLocal).mp hy with ⟨a', s₁', hfirst', hsecond⟩
        rcases hdetermined a a' s₁ s₁' hfirst hfirst' with ⟨ha, hs⟩
        rw [← ha, ← hs] at hsecond
        apply ((hk a).drains s₁).resolve_left hnot b s' hsecond
    . right
      intro b s' hy
      rcases (yields_bind hr.isLocal).mp hy with ⟨a, s₁, hfirst, hsecond⟩
      rw [hdrained a s₁ hfirst] at hsecond
      apply (hk a).stays b s' hsecond
  covers s b s' hy := by
    rcases (yields_bind hr.isLocal).mp hy with ⟨a, s₁, hfirst, hsecond⟩
    have hsecond := (hk a).covers s₁ b s' hsecond
    exact (yields_bind hr.isLocal).mpr ⟨a, e, hr.covers s a s₁ hfirst, hsecond⟩

theorem safe_pair_iff {q : Noisy σ ι β} (hr : Local r) (hq : Local q)
    : Safe (Noisy.bind r fun a => Noisy.bind q fun b => ret (a, b)) s
        ↔
      Safe r s ∧ ∀ a s', Yields r s a s' → Safe q s' := by
  have hafter (a : α) (s' : σ) : Safe (Noisy.bind q fun b => ret (a, b)) s' ↔ Safe q s' := by
    rw [safe_bind hq]
    exact and_iff_left fun b s₁ _ => safe_ret (a, b) s₁
  rw [safe_bind hr]
  simp only [hafter]

theorem safe_bounded {size : Noisy σ ι Nat} (hsize : Local size) {limit : Nat}
    : Safe (bounded limit size) s ↔ Safe size s := by
  unfold bounded
  rw [safe_bind hsize]
  apply and_iff_left
  intro n s' _ f hf
  split at hf
  . cases hf
  . cases hf

theorem Local.bounded {size : Noisy σ ι Nat} (hsize : Local size) {limit : Nat}
    : Local (bounded limit size) := by
  apply hsize.bind
  intro n s f
  refine ⟨0, ?_⟩
  intro g _
  by_cases hlt : limit < n
  . simp only [hlt, ↓reduceIte]
    rfl
  . simp only [hlt, ↓reduceIte]
    rfl

section

variable [Inhabited ι]

theorem Fading.ret (e : σ) (a : α) : Fading e (ret a : Noisy σ ι α) where
  isLocal _ _ := ⟨0, fun _ _ => rfl⟩
  safe := safe_ret a e
  live := ⟨a, yields_ret.mpr ⟨rfl, rfl⟩⟩
  stays _ _ hy := (yields_ret.mp hy).2.symm
  drains s := Or.inl (determined_ret a s)
  covers _ _ _ hy := yields_ret.mpr ⟨(yields_ret.mp hy).1, rfl⟩

-- what is kept of both computations shows what either of them depends on
theorem determined_pair_iff {q : Noisy σ ι β} (hr : Fading e r) (hq : Fading e q)
    : Determined (Noisy.bind r fun a => Noisy.bind q fun b => ret (a, b)) s
        ↔
      Determined r s ∧ ∀ a s', Yields r s a s' → Determined q s' := by
  have hyields {a : α} {p : α × β} {s s' : σ}
      : Yields (Noisy.bind q fun b => ret (a, b)) s p s' ↔ Yields q s p.2 s' ∧ a = p.1 := by
    simp only [yields_bind hq.isLocal, yields_ret]
    constructor
    . rintro ⟨b, s₁, hb, hp, hs⟩
      rw [← hp, ← hs]
      exact ⟨hb, rfl⟩
    . rintro ⟨hb, ha⟩
      exact ⟨p.2, s', hb, Prod.ext ha rfl, rfl⟩
  have hafter (a : α) (s : σ)
      : Determined (Noisy.bind q fun b => ret (a, b)) s ↔ Determined q s := by
    constructor
    . intro h b c s₁ s₂ hb hc
      have heq := h (a, b) (a, c) s₁ s₂ (hyields.mpr ⟨hb, rfl⟩) (hyields.mpr ⟨hc, rfl⟩)
      exact ⟨congrArg Prod.snd heq.1, heq.2⟩
    . intro h b c s₁ s₂ hb hc
      rw [hyields] at hb hc
      have heq := h b.2 c.2 s₁ s₂ hb.1 hc.1
      exact ⟨Prod.ext (hb.2.symm.trans hc.2) heq.1, heq.2⟩
  have hfirst (h : Determined (Noisy.bind r fun a => Noisy.bind q fun b => ret (a, b)) s)
      : Determined r s := by
    rcases hr.drains s with hdetermined | hdrained
    . exact hdetermined
    . intro a b s₁ s₂ ha hb
      have hs₁ := hdrained a s₁ ha
      have hs₂ := hdrained b s₂ hb
      rw [hs₁] at ha
      rw [hs₂] at hb
      rcases hq.live with ⟨c, hc⟩
      have heq := h (a, c) (b, c) e e
        ((yields_bind hr.isLocal).mpr ⟨a, e, ha, hyields.mpr ⟨hc, rfl⟩⟩)
        ((yields_bind hr.isLocal).mpr ⟨b, e, hb, hyields.mpr ⟨hc, rfl⟩⟩)
      exact ⟨congrArg Prod.fst heq.1, hs₁.trans hs₂.symm⟩
  constructor
  . intro h
    have hr' := hfirst h
    rw [determined_bind_iff hr.isLocal hr'] at h
    simp only [hafter] at h
    exact ⟨hr', h⟩
  . rintro ⟨hr', hq'⟩
    rw [determined_bind_iff hr.isLocal hr']
    simp only [hafter]
    exact hq'

theorem Fading.loop (hr : Fading e r) (store : α → β → β) (n : Nat) (v : β)
    : Fading e (loop r store n v) := by
  induction n generalizing v with
  | zero => apply Fading.ret
  | succ n ih => exact hr.bind fun x => ih (store x v)

theorem yields_bounded {size : Noisy σ ι Nat} (hsize : Local size) {limit n : Nat}
    : Yields (bounded limit size) s n s' ↔ n ≤ limit ∧ Yields size s n s' := by
  unfold bounded
  rw [yields_bind hsize]
  constructor
  . rintro ⟨m, s₁, hm, f, g, hk⟩
    split at hk
    . cases hk
    next hle =>
      cases hk
      exact ⟨Nat.le_of_not_lt hle, hm⟩
  . rintro ⟨hle, hn⟩
    exact ⟨n, s', hn, default, default, if_neg (Nat.not_lt_of_le hle)⟩

theorem determined_bounded {size : Noisy σ ι Nat} (hsize : Local size) {limit : Nat}
    (h : Determined size s) : Determined (bounded limit size) s := by
  intro n m s₁ s₂ hn hm
  rw [yields_bounded hsize] at hn hm
  apply h n m s₁ s₂ hn.2 hm.2

theorem Fading.bounded {size : Noisy σ ι Nat} (hsize : Fading e size) {limit : Nat}
    (hzero : Yields size e 0 e) : Fading e (bounded limit size) where
  isLocal := hsize.isLocal.bounded
  safe := (safe_bounded hsize.isLocal).mpr hsize.safe
  live := ⟨0, (yields_bounded hsize.isLocal).mpr ⟨Nat.zero_le limit, hzero⟩⟩
  stays n s' hy := hsize.stays n s' ((yields_bounded hsize.isLocal).mp hy).2
  drains s := by
    rcases hsize.drains s with hdetermined | hdrained
    . exact Or.inl (determined_bounded hsize.isLocal hdetermined)
    . right
      intro n s' hy
      apply hdrained n s' ((yields_bounded hsize.isLocal).mp hy).2
  covers s n s' hy := by
    rw [yields_bounded hsize.isLocal] at hy ⊢
    exact ⟨hy.1, hsize.covers s n s' hy.2⟩

end

/-! ### Letters of a list -/

section

-- short of letters in the list the others are those of the stream
def filled (width : Nat) (l : List ι) (f : Nat → ι) : List ι :=
  l.take width ++ ((List.range width).map f).drop l.length

def letters (width : Nat) (value : List ι → α) : Noisy (List ι) ι α :=
  fun l f => .ok (value (filled width l f), l.drop width, fun i => f (i + width))

variable {width : Nat} {value : List ι → α} {l : List ι}

theorem length_filled (width : Nat) (l : List ι) (f : Nat → ι)
    : (filled width l f).length = width := by
  unfold filled
  simp only [List.length_append, List.length_take, List.length_drop, List.length_map,
    List.length_range]
  omega

theorem filled_of_le (h : width ≤ l.length) (f : Nat → ι) : filled width l f = l.take width := by
  unfold filled
  rw [List.drop_eq_nil_of_le]
  . apply List.append_nil
  . rw [List.length_map, List.length_range]
    exact h

theorem exists_filled_iff [Inhabited ι] {l' : List ι}
    : (∃ f, filled width l f = l') ↔ l'.length = width ∧ l.take width <+: l' := by
  constructor
  . rintro ⟨f, hf⟩
    rw [← hf]
    exact ⟨length_filled width l f, List.prefix_append _ _⟩
  . rintro ⟨hwidth, hprefix⟩
    refine ⟨fun i => l'.getD i default, ?_⟩
    by_cases hle : width ≤ l.length
    . rw [filled_of_le hle]
      apply hprefix.eq_of_length
      rw [hwidth, List.length_take_of_le hle]
    . have hall : (List.range width).map (fun i => l'.getD i default) = l' := by
        apply List.ext_getElem
        . rw [List.length_map, List.length_range, hwidth]
        . intro i hi hi'
          rw [List.getElem_map, List.getElem_range, List.getD_eq_getElem?_getD]
          rw [List.getElem?_eq_getElem hi', Option.getD_some]
      rw [List.take_of_length_le (by omega)] at hprefix
      rcases hprefix with ⟨rest, hrest⟩
      unfold filled
      rw [hall, List.take_of_length_le (by omega), ← hrest, List.drop_left]

theorem yields_letters [Inhabited ι] {s : List ι}
    : Yields (letters width value) l a s
        ↔
      ∃ l', (l'.length = width ∧ l.take width <+: l') ∧ value l' = a ∧ l.drop width = s := by
  simp only [← exists_filled_iff]
  constructor
  . rintro ⟨f, g, hf⟩
    cases hf
    exact ⟨_, ⟨f, rfl⟩, rfl, rfl⟩
  . rintro ⟨l', ⟨f, hf⟩, ha, hs⟩
    refine ⟨f, fun i => f (i + width), ?_⟩
    rw [← ha, ← hf, ← hs]
    rfl

theorem safe_letters (width : Nat) (value : List ι → α) (l : List ι)
    : Safe (letters width value) l := by
  intro f hf
  cases hf

theorem yields_letters_of_le [Inhabited ι] (h : width ≤ l.length) {s : List ι}
    : Yields (letters width value) l a s ↔ value (l.take width) = a ∧ l.drop width = s := by
  rw [yields_letters]
  constructor
  . rintro ⟨l', ⟨hwidth, hprefix⟩, ha, hs⟩
    have htake : l.take width = l' := by
      apply hprefix.eq_of_length
      rw [hwidth, List.length_take_of_le h]
    rw [htake]
    exact ⟨ha, hs⟩
  . rintro ⟨ha, hs⟩
    exact ⟨_, ⟨List.length_take_of_le h, List.prefix_refl _⟩, ha, hs⟩

theorem determined_letters [Inhabited ι] (h : width ≤ l.length)
    : Determined (letters width value) l := by
  intro a b s₁ s₂ ha hb
  rw [yields_letters_of_le h] at ha hb
  exact ⟨ha.1.symm.trans hb.1, ha.2.symm.trans hb.2⟩

theorem Fading.letters [Inhabited ι] (width : Nat) (value : List ι → α)
    : Fading [] (letters width value) where
  isLocal l f := by
    refine ⟨width, ?_⟩
    intro g hg
    have hmap : (List.range width).map g = (List.range width).map f := by
      apply List.map_congr_left
      intro i hi
      apply hg i (List.mem_range.mp hi)
    unfold Noisy.letters filled
    rw [hmap]
    rfl
  safe := safe_letters width value []
  live := ⟨_, yields_letters.mpr
    ⟨_, ⟨length_filled width [] default, List.prefix_append _ _⟩, rfl, List.drop_nil⟩⟩
  stays a s hy := by
    rcases yields_letters.mp hy with ⟨_, _, _, hs⟩
    rw [← hs, List.drop_nil]
  drains l := by
    by_cases hle : width ≤ l.length
    . exact Or.inl (determined_letters hle)
    . right
      intro a s hy
      rcases yields_letters.mp hy with ⟨_, _, _, hs⟩
      rw [← hs, List.drop_eq_nil_of_le (by omega)]
  covers l a s hy := by
    rcases yields_letters.mp hy with ⟨l', ⟨hwidth, _⟩, ha, _⟩
    refine yields_letters.mpr ⟨l', ⟨hwidth, ?_⟩, ha, List.drop_nil⟩
    rw [List.take_nil]
    apply List.nil_prefix

-- the last letter always matters, so none may be missing
theorem determined_letters_iff [Inhabited ι]
    (hvalue : ∀ pre, pre.length + 1 = width → ∃ x y, value (pre ++ [x]) ≠ value (pre ++ [y]))
    : Determined (letters width value) l ↔ width ≤ l.length := by
  constructor
  . intro h
    apply Classical.byContradiction
    intro hlt
    have hpad : (l ++ List.replicate (width - 1 - l.length) default).length + 1 = width := by
      rw [List.length_append, List.length_replicate]
      omega
    rcases hvalue _ hpad with ⟨x, y, hxy⟩
    have hyields (z : ι) : Yields (letters width value) l
        (value (l ++ List.replicate (width - 1 - l.length) default ++ [z])) (l.drop width) := by
      refine yields_letters.mpr ⟨_, ⟨?_, ?_⟩, rfl, rfl⟩
      . rw [List.length_append, List.length_singleton]
        exact hpad
      . rw [List.take_of_length_le (by omega), List.append_assoc]
        apply List.prefix_append
    exact absurd (h _ _ _ _ (hyields x) (hyields y)).1 hxy
  . exact determined_letters

end

/-! ### Loops that store what they read in a list -/

-- the state is safe in every iteration
def LoopSafe (safe : σ → Prop) (r : Noisy σ ι α) : Nat → σ → Prop
  | 0, _ => True
  | n + 1, s => safe s ∧ ∀ x s', Yields r s x s' → LoopSafe safe r n s'

theorem safe_loop_iff (hr : Local r) {safe : σ → Prop} (hsafe : ∀ s, Safe r s ↔ safe s)
    (store : α → β → β) (n : Nat) (v : β) (s : σ)
    : Safe (loop r store n v) s ↔ LoopSafe safe r n s := by
  induction n generalizing v s with
  | zero => exact iff_of_true (safe_ret v s) trivial
  | succ n ih =>
    show Safe (bind r fun x => loop r store n (store x v)) s ↔ _
    unfold LoopSafe
    rw [safe_bind hr, hsafe]
    simp only [ih]

-- an element is left out or becomes one of the elements of the list
def Storing (store : α → List α → List α) : Prop :=
  ∀ x l, store x l = l ∨ (store x l).Perm (x :: l)

theorem Storing.iterate {store : α → List α → List α} (h : Storing store) (x : α) (n : Nat)
    (l : List α)
    : ∃ k, ((store x)^[n] l).Perm (List.replicate k x ++ l) ∧ (k = 0 → n = 0 ∨ store x l = l) := by
  induction n generalizing l with
  | zero => exact ⟨0, .refl l, fun _ => Or.inl rfl⟩
  | succ n ih =>
    rw [Function.iterate_succ_apply]
    rcases h x l with hsame | hperm
    . rcases ih l with ⟨k, hk, _⟩
      rw [hsame]
      exact ⟨k, hk, fun _ => Or.inr rfl⟩
    . rcases ih (store x l) with ⟨k, hk, _⟩
      refine ⟨k + 1, hk.trans ?_, fun hzero => absurd hzero (Nat.succ_ne_zero k)⟩
      have hmiddle : (List.replicate k x ++ x :: l).Perm (List.replicate (k + 1) x ++ l) := by
        rw [List.replicate_succ]
        apply List.perm_middle
      exact (hperm.append_left _).trans hmiddle

-- lists that are the same after storing different elements have stored neither
theorem Storing.eq_of_iterate_eq {store : α → List α → List α} (h : Storing store) {x y : α}
    (hxy : x ≠ y) {n m : Nat} (hn : n ≠ 0) {l : List α} (heq : (store x)^[n] l = (store y)^[m] l)
    : store x l = l := by
  rcases h.iterate x n l with ⟨k, hk, hkeep⟩
  rcases h.iterate y m l with ⟨j, hj, _⟩
  rw [heq] at hk
  have hreplicate : (List.replicate k x).Perm (List.replicate j y) :=
    (List.perm_append_right_iff l).mp (hk.symm.trans hj)
  cases k with
  | zero => exact (hkeep rfl).resolve_left hn
  | succ k =>
    have hmem := hreplicate.subset (List.mem_replicate.mpr ⟨Nat.succ_ne_zero k, rfl⟩)
    exact absurd (List.eq_of_mem_replicate hmem) hxy

theorem Storing.eq_of_iterate_self {store : α → List α → List α} (h : Storing store) {x : α}
    {n : Nat} (hn : n ≠ 0) {l : List α} (heq : (store x)^[n] l = l) : store x l = l := by
  rcases h.iterate x n l with ⟨k, hk, hkeep⟩
  rw [heq] at hk
  have hlength := hk.length_eq
  rw [List.length_append, List.length_replicate] at hlength
  exact (hkeep (by omega)).resolve_left hn

variable {store : α → List α → List α} {l : List α} {n : Nat}

-- nothing that is yielded from here on is stored
def Idle (r : Noisy σ ι α) (store : α → List α → List α) (l : List α) (s : σ) : Prop :=
  ∀ x s', Yields r s x s' → store x l = l

theorem exists_other (h : ¬Determined r s) (hdrained : ∀ a s', Yields r s a s' → s' = e) (y : α)
    : ∃ z, z ≠ y ∧ Yields r s z e := by
  rcases exists_ne_of_not_determined h with ⟨a, s₁, b, s₂, ha, hb, hne⟩
  have hs₁ := hdrained a s₁ ha
  have hs₂ := hdrained b s₂ hb
  rw [hs₁] at ha
  rw [hs₂] at hb
  by_cases hay : a = y
  . refine ⟨b, ?_, hb⟩
    intro hby
    exact hne ⟨hay.trans hby.symm, hs₁.trans hs₂.symm⟩
  . exact ⟨a, hay, ha⟩

variable [Inhabited ι]

theorem Idle.loop (h : Idle r store l e) (hr : Fading e r) (n : Nat) {l' : List α}
    (hy : Yields (loop r store n l) e l' s') : l' = l ∧ s' = e := by
  induction n with
  | zero =>
    rcases yields_ret.mp hy with ⟨hl, hs⟩
    exact ⟨hl.symm, hs.symm⟩
  | succ n ih =>
    rcases (yields_bind hr.isLocal).mp hy with ⟨x, s₁, hx, hrest⟩
    have hkept := h x s₁ hx
    rw [hr.stays x s₁ hx, hkept] at hrest
    apply ih hrest

theorem yields_loop_iterate (hr : Local r) {x : α} (hx : Yields r e x e) (n : Nat) (l : List α)
    : Yields (loop r store n l) e ((store x)^[n] l) e := by
  induction n generalizing l with
  | zero => exact yields_ret.mpr ⟨rfl, rfl⟩
  | succ n ih => exact (yields_bind hr).mpr ⟨x, e, hx, ih (store x l)⟩

theorem determined_loop_of_not (hr : Fading e r) (hstore : Storing store) (h : ¬Determined r s)
    : Determined (loop r store (n + 1) l) s
        ↔
      Idle r store l s ∧ (n = 0 ∨ Idle r store l e) := by
  have hdrained := (hr.drains s).resolve_left h
  constructor
  . intro hloop
    -- the loop may read one element first and then another one over and over again
    have hyields {x y : α} (hx : Yields r s x e) (hy : Yields r e y e)
        : Yields (loop r store (n + 1) l) s ((store y)^[n] (store x l)) e :=
      (yields_bind hr.isLocal).mpr ⟨x, e, hx, yields_loop_iterate hr.isLocal hy n (store x l)⟩
    have hidle : Idle r store l s := by
      intro y s' hy
      rw [hdrained y s' hy] at hy
      rcases exists_other h hdrained y with ⟨z, hzy, hz⟩
      have heq := (hloop _ _ _ _ (hyields hy (hr.covers s y e hy))
        (hyields hz (hr.covers s z e hz))).1
      rw [← Function.iterate_succ_apply, ← Function.iterate_succ_apply] at heq
      apply hstore.eq_of_iterate_eq hzy.symm (Nat.succ_ne_zero n) heq
    refine ⟨hidle, ?_⟩
    rcases Nat.eq_zero_or_pos n with hzero | hpos
    . exact Or.inl hzero
    . right
      intro y s' hy
      rw [hr.stays y s' hy] at hy
      rcases exists_other h hdrained y with ⟨x, _, hx⟩
      have hkept := hidle x e hx
      have heq := (hloop _ _ _ _ (hyields hx hy) (hyields hx (hr.covers s x e hx))).1
      rw [hkept, Function.iterate_fixed hkept] at heq
      apply hstore.eq_of_iterate_self (Nat.ne_of_gt hpos) heq
  . rintro ⟨hidle, hrest⟩
    have hall {b : List α} {s' : σ} (hy : Yields (loop r store (n + 1) l) s b s')
        : b = l ∧ s' = e := by
      rcases (yields_bind hr.isLocal).mp hy with ⟨x, s₁, hx, hloop⟩
      have hkept := hidle x s₁ hx
      rw [hkept, hdrained x s₁ hx] at hloop
      rcases hrest with hzero | hidle
      . rw [hzero] at hloop
        rcases yields_ret.mp hloop with ⟨hb, hs'⟩
        exact ⟨hb.symm, hs'.symm⟩
      . apply hidle.loop hr n hloop
    intro b c s₁ s₂ hb hc
    rcases hall hb with ⟨hbl, hs₁⟩
    rcases hall hc with ⟨hcl, hs₂⟩
    exact ⟨hbl.trans hcl.symm, hs₁.trans hs₂.symm⟩

-- every element that is stored depends on the state alone
def LoopSettled (settled : σ → Prop) (e : σ) (r : Noisy σ ι α) (store : α → List α → List α)
    : Nat → List α → σ → Prop
  | 0, _, _ => True
  | n + 1, l, s =>
    (settled s ∧
        ∀ x s', Yields r s x s' → LoopSettled settled e r store n (store x l) s') ∨
      (¬settled s ∧ Idle r store l s ∧ (n = 0 ∨ Idle r store l e))

/--
A loop that stores the elements it reads is determined exactly if all of them are, or if those that
are not are not stored.
-/
theorem determined_loop_iff (hr : Fading e r) (hstore : Storing store) {settled : σ → Prop}
    (hsettled : ∀ s, Determined r s ↔ settled s) (n : Nat) (l : List α) (s : σ)
    : Determined (loop r store n l) s ↔ LoopSettled settled e r store n l s := by
  induction n generalizing l s with
  | zero => exact iff_of_true (determined_ret l s) trivial
  | succ n ih =>
    unfold LoopSettled
    simp only [← hsettled, ← ih]
    by_cases h : Determined r s
    . simp only [h, true_and, not_true_eq_false, false_and, or_false]
      apply determined_bind_iff hr.isLocal h
    . simp only [h, false_and, not_false_eq_true, true_and, false_or]
      apply determined_loop_of_not hr hstore h

/-! ### Loops that read their length first -/

theorem yields_loop_add (hr : Local r) (n m : Nat) {b : List α}
    : Yields (loop r store (n + m) l) s b s'
        ↔
      ∃ c s₁, Yields (loop r store n l) s c s₁ ∧ Yields (loop r store m c) s₁ b s' := by
  induction n generalizing l s with
  | zero =>
    rw [Nat.zero_add]
    constructor
    . intro hy
      exact ⟨l, s, yields_ret.mpr ⟨rfl, rfl⟩, hy⟩
    . rintro ⟨c, s₁, hret, hy⟩
      rcases yields_ret.mp hret with ⟨hl, hs⟩
      rw [hl, hs]
      exact hy
  | succ n ih =>
    rw [Nat.succ_add]
    show Yields (bind r fun x => loop r store (n + m) (store x l)) s b s' ↔
      ∃ c s₁, Yields (bind r fun x => loop r store n (store x l)) s c s₁ ∧ _
    simp only [yields_bind hr, ih]
    constructor
    . rintro ⟨x, s₁, hx, c, s₂, hfirst, hsecond⟩
      exact ⟨c, s₂, ⟨x, s₁, hx, hfirst⟩, hsecond⟩
    . rintro ⟨c, s₂, ⟨x, s₁, hx, hfirst⟩, hsecond⟩
      exact ⟨x, s₁, hx, c, s₂, hfirst, hsecond⟩

/--
A loop whose length depends on the stream is determined exactly if the shortest one is and what the
others read in addition is not stored.
-/
theorem determined_counted_iff (hr : Fading e r) (hstore : Storing store) {size : Noisy σ ι Nat}
    (hsize : Local size) (hdrained : ∀ n s', Yields size s n s' → s' = e) {n : Nat}
    (hn : Yields size s n e) (hmin : ∀ m s', Yields size s m s' → n ≤ m)
    : Determined (bind size fun n => loop r store n l) s
        ↔
      Determined (loop r store n l) e ∧
        ((∃ m, n < m ∧ Yields size s m e) →
          ∀ c, Yields (loop r store n l) e c e → Idle r store c e) := by
  have hloops := hr.loop store n l
  constructor
  . intro hcounted
    have hyields {m : Nat} {b : List α} {s' : σ} (hm : Yields size s m e)
        (hb : Yields (loop r store m l) e b s')
        : Yields (bind size fun n => loop r store n l) s b s' :=
      (yields_bind hsize).mpr ⟨m, e, hm, hb⟩
    constructor
    . intro a b s₁ s₂ ha hb
      apply hcounted _ _ _ _ (hyields hn ha) (hyields hn hb)
    . rintro ⟨m, hlt, hm⟩ c hc x s' hx
      rw [hr.stays x s' hx] at hx
      rcases Nat.exists_eq_add_of_lt hlt with ⟨d, hd⟩
      rw [hd, Nat.add_assoc] at hm
      have hmore := (yields_loop_add hr.isLocal n (d + 1)).mpr
        ⟨c, e, hc, yields_loop_iterate hr.isLocal hx (d + 1) c⟩
      have heq := (hcounted _ _ _ _ (hyields hm hmore) (hyields hn hc)).1
      apply hstore.eq_of_iterate_self (Nat.succ_ne_zero d) heq
  . rintro ⟨hloop, hidle⟩
    rcases hloops.live with ⟨c, hc⟩
    have hall {b : List α} {s' : σ} (hy : Yields (bind size fun n => loop r store n l) s b s')
        : b = c ∧ s' = e := by
      rcases (yields_bind hsize).mp hy with ⟨m, s₁, hm, hb⟩
      have hle := hmin m s₁ hm
      have hs₁ := hdrained m s₁ hm
      rw [hs₁] at hm hb
      rcases Nat.lt_or_eq_of_le hle with hlt | heq
      . rw [← Nat.add_sub_cancel' hle] at hb
        rcases (yields_loop_add hr.isLocal n (m - n)).mp hb with ⟨c', s₂, hfirst, hsecond⟩
        rcases hloop c' c s₂ e hfirst hc with ⟨hc', hs₂⟩
        rw [hc', hs₂] at hsecond
        apply (hidle ⟨m, hlt, hm⟩ c hc).loop hr _ hsecond
      . rw [← heq] at hb
        apply hloop b c s' e hb hc
    intro b b' s₁ s₂ hb hb'
    rcases hall hb with ⟨hb, hs₁⟩
    rcases hall hb' with ⟨hb', hs₂⟩
    exact ⟨hb.trans hb'.symm, hs₁.trans hs₂.symm⟩

end Noisy
