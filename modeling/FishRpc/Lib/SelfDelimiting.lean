import Mathlib.Data.List.Basic

/-!
This module contains self-delimiting encodings: whatever follows the encoding of a valid value, the
value and where its encoding ends can be told from the symbols. Values put one behind the other and
lists behind their length are self-delimiting if their parts are.
-/

def SelfDelimiting {α β : Type} (valid : α → Prop) (encode : α → List β) : Prop :=
  ∀ v w r s, valid v → valid w → encode v ++ r = encode w ++ s → v = w ∧ r = s

namespace SelfDelimiting

variable {α α' β : Type} {valid : α → Prop} {valid' : α' → Prop} {encode : α → List β}
  {encode' : α' → List β}

theorem of_length {n : Nat} (hlength : ∀ v, (encode v).length = n)
    (hinj : ∀ v w, valid v → valid w → encode v = encode w → v = w)
    : SelfDelimiting valid encode := by
  intro v w r s hv hw h
  have hlen : (encode v).length = (encode w).length := by rw [hlength, hlength]
  rcases List.append_inj h hlen with ⟨hencode, hrest⟩
  exact ⟨hinj v w hv hw hencode, hrest⟩

theorem singleton : SelfDelimiting (fun _ : β => True) (fun x => [x]) := by
  apply of_length (n := 1) (fun _ => rfl)
  intro v w _ _ h
  exact List.singleton_inj.mp h

-- the first separators of two words are at the same place
theorem append_cons_inj {sep : β} {x y r s : List β} (hx : sep ∉ x) (hy : sep ∉ y)
    (h : x ++ sep :: r = y ++ sep :: s) : x = y ∧ r = s := by
  induction x generalizing y with
  | nil =>
    cases y with
    | nil => exact ⟨rfl, (List.cons.inj h).2⟩
    | cons b y => exact absurd (List.cons.inj h).1 fun hb => hy (hb ▸ List.mem_cons_self)
  | cons a x ih =>
    cases y with
    | nil => exact absurd (List.cons.inj h).1 fun ha => hx (ha ▸ List.mem_cons_self)
    | cons b y =>
      have htail := ih (fun hmem => hx (List.mem_cons_of_mem a hmem))
        (fun hmem => hy (List.mem_cons_of_mem b hmem)) (List.cons.inj h).2
      exact ⟨by rw [(List.cons.inj h).1, htail.1], htail.2⟩

-- words that do not contain the separator behind them
theorem terminated {sep : β} (hsep : ∀ v, valid v → sep ∉ encode v)
    (hinj : ∀ v w, valid v → valid w → encode v = encode w → v = w)
    : SelfDelimiting valid (fun v => encode v ++ [sep]) := by
  intro v w r s hv hw heq
  rw [List.append_assoc, List.append_assoc] at heq
  rcases append_cons_inj (hsep v hv) (hsep w hw) heq with ⟨hencode, hrest⟩
  exact ⟨hinj v w hv hw hencode, hrest⟩

theorem pair (h : SelfDelimiting valid encode) (h' : SelfDelimiting valid' encode')
    : SelfDelimiting (fun v : α × α' => valid v.1 ∧ valid' v.2)
        (fun v => encode v.1 ++ encode' v.2) := by
  intro v w r s hv hw heq
  rw [List.append_assoc, List.append_assoc] at heq
  rcases h v.1 w.1 _ _ hv.1 hw.1 heq with ⟨hfst, heq⟩
  rcases h' v.2 w.2 _ _ hv.2 hw.2 heq with ⟨hsnd, heq⟩
  exact ⟨Prod.ext hfst hsnd, heq⟩

theorem flatMap (h : SelfDelimiting valid encode) {v w : List α} {r s : List β}
    (hlength : v.length = w.length) (hv : ∀ x ∈ v, valid x) (hw : ∀ x ∈ w, valid x)
    (heq : v.flatMap encode ++ r = w.flatMap encode ++ s) : v = w ∧ r = s := by
  induction v generalizing w with
  | nil =>
    cases w with
    | nil => exact ⟨rfl, heq⟩
    | cons y w => simp at hlength
  | cons x v ih =>
    cases w with
    | nil => simp at hlength
    | cons y w =>
      rw [List.flatMap_cons, List.flatMap_cons, List.append_assoc, List.append_assoc] at heq
      rcases h x y _ _ (hv x List.mem_cons_self) (hw y List.mem_cons_self) heq with ⟨hhead, heq⟩
      have htail := ih (by simpa using hlength) (fun z hz => hv z (List.mem_cons_of_mem x hz))
        (fun z hz => hw z (List.mem_cons_of_mem y hz)) heq
      exact ⟨by rw [hhead, htail.1], htail.2⟩

theorem counted {small : Nat → Prop} {size : Nat → List β} (hsize : SelfDelimiting small size)
    (h : SelfDelimiting valid encode)
    : SelfDelimiting (fun v : List α => small v.length ∧ ∀ x ∈ v, valid x)
        (fun v => size v.length ++ v.flatMap encode) := by
  intro v w r s hv hw heq
  rw [List.append_assoc, List.append_assoc] at heq
  rcases hsize v.length w.length _ _ hv.1 hw.1 heq with ⟨hlength, heq⟩
  apply h.flatMap hlength hv.2 hw.2 heq

-- values of several types, the reader knows which type comes next
theorem stream {ι : Type} {V : ι → Type} {valid : (i : ι) → V i → Prop}
    {encode : (i : ι) → V i → List β} (h : ∀ i, SelfDelimiting (valid i) (encode i))
    {v w : List (Sigma V)} {r s : List β} (htypes : v.map Sigma.fst = w.map Sigma.fst)
    (hv : ∀ x ∈ v, valid x.1 x.2) (hw : ∀ x ∈ w, valid x.1 x.2)
    (heq : v.flatMap (fun x => encode x.1 x.2) ++ r = w.flatMap (fun x => encode x.1 x.2) ++ s)
    : v = w ∧ r = s := by
  induction v generalizing w with
  | nil =>
    cases w with
    | nil => exact ⟨rfl, heq⟩
    | cons y w => simp at htypes
  | cons x v ih =>
    cases w with
    | nil => simp at htypes
    | cons y w =>
      obtain ⟨i, x⟩ := x
      obtain ⟨j, y⟩ := y
      rw [List.map_cons, List.map_cons, List.cons.injEq] at htypes
      obtain ⟨rfl, htypes⟩ := htypes
      rw [List.flatMap_cons, List.flatMap_cons, List.append_assoc, List.append_assoc] at heq
      rcases h i x y _ _ (hv _ List.mem_cons_self) (hw _ List.mem_cons_self) heq with ⟨hhead, heq⟩
      have htail := ih htypes (fun z hz => hv z (List.mem_cons_of_mem _ hz))
        (fun z hz => hw z (List.mem_cons_of_mem _ hz)) heq
      exact ⟨by rw [hhead, htail.1], htail.2⟩

theorem mono {valid' : α → Prop} (h : SelfDelimiting valid encode)
    (hvalid : ∀ v, valid' v → valid v) : SelfDelimiting valid' encode :=
  fun v w r s hv hw heq => h v w r s (hvalid v hv) (hvalid w hw) heq

end SelfDelimiting
