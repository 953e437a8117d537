import FishRpc.Rpc.Lemmas.SerializerReencode

/-!
This module contains the decoding of entries that come in any order. The bytes of an unordered
container are those of the ordered one up to the order of the elements, so a peer with another hash
order reads the same container, and of several entries with the same key the first one is kept.
-/

namespace Fish
namespace Serializer

-- `shr` takes exactly these bytes away and gives a value with the property `P`
def Decodes (h : Placement) (t : CppType p) (bytes : List Byte) (P : t.carrier → Prop) : Prop :=
  ∀ (s : Serializer) (rest : List Byte), s.bytes = bytes ++ rest →
    P (shr h t t.default s).1 ∧ (shr h t t.default s).2.bytes = rest

theorem Decodes.of_encode {h : Placement} {t u : CppType .type} {v : u.carrier}
    {P : t.carrier → Prop} (hencode : Decodes h t (encode u v) P)
    : Decodes h t (written u v) P := by
  rw [written_eq]
  exact hencode

def SamePair (a b : CppType .type) (x y : a.carrier × b.carrier) : Prop :=
  a.Same x.1 y.1 ∧ b.Same x.2 y.2

def firstEntry (a b : CppType .type) (k : a.carrier) (l : List (a.carrier × b.carrier))
    : Option (a.carrier × b.carrier) :=
  l.find? fun x => a.equal x.1 k

theorem firstEntry_same {a b : CppType .type} (hkey : a.keyable = true)
    {l l' : List (a.carrier × b.carrier)}
    (hsame : List.Forall₂ (SamePair a b) l l') (k : a.carrier)
    : Option.Rel (SamePair a b) (firstEntry a b k l) (firstEntry a b k l') := by
  unfold firstEntry
  induction hsame with
  | nil => exact .none
  | @cons x y l l' hxy _ ih =>
    have hxy' := a.eq_of_same (a.comparable_of_keyable hkey) x.1 y.1 hxy.1
    rw [List.find?_cons, List.find?_cons, hxy']
    cases a.equal y.1 k with
    | true => exact .some hxy
    | false => exact ih

theorem distinct_of_arranged {α κ : Type} {less equal : κ → κ → Bool}
    (hequal : ∀ x y, equal x y = true ↔ x = y) {key : α → κ} {l : List α}
    (h : CppType.Arranged true false less equal key l) : l.Pairwise fun x y => key x ≠ key y := by
  apply List.Pairwise.imp _ h
  intro x y hxy heq
  rw [(hequal _ _).mpr heq] at hxy
  cases hxy

theorem arranged_of_sorted {α κ : Type} {less equal : κ → κ → Bool} (hless : LawfulLess less)
    (hequal : ∀ x y, equal x y = true ↔ x = y) {key : α → κ} {l : List α}
    (h : CppType.Arranged true true less equal key l)
    : CppType.Arranged true false less equal key l := by
  apply List.Pairwise.imp _ h
  intro x y hxy
  cases heq : equal (key x) (key y) with
  | true =>
    rw [(hequal _ _).mp heq, hless.irrefl] at hxy
    cases hxy
  | false => rfl

section Map

variable (h : Placement) {a b : CppType .type} (hkey : a.keyable = true)
  (ha : a.stringFree = true) (hb : b.stringFree = true)

include ha hb

theorem map_reads (k : MapKind) {l : List (a.carrier × b.carrier)} (hlen : l.length < 2 ^ 64)
    (hwf : ∀ x ∈ l, a.Wf x.1 ∧ b.Wf x.2) (old : List (a.carrier × b.carrier)) {s : Serializer}
    {rest : List Byte} (hs : s.bytes = encode (.seq .list (.pair a b)) l ++ rest)
    : ∃ l', List.Forall₂ (SamePair a b) l l' ∧
        (shr h (.map k a b) old s).1
          =
        l'.foldl (fun m x => h.insert k.unique k.ordered a.less a.equal Prod.fst x m) old
        ∧
        (shr h (.map k a b) old s).2.bytes = rest :=
  readAll_reads _ (h.insert k.unique k.ordered a.less a.equal Prod.fst) _ _ l hlen
    (fun x hx =>
      Reads.pair (shr_reads h a ha x.1 (hwf x hx).1) (shr_reads h b hb x.2 (hwf x hx).2))
    (fun _ => old) s rest hs

include hkey

theorem map_of_unorderedMap {v : List (a.carrier × b.carrier)}
    (hv : (CppType.map .unorderedMap a b).Wf v)
    : Decodes h (.map .map a b) (encode (.map .unorderedMap a b) v)
        fun m => (CppType.map .unorderedMap a b).Same v m := by
  intro s rest hs
  rcases map_reads h ha hb .map hv.1 hv.2.1 [] hs with ⟨v', hsame, hm, hrest⟩
  refine ⟨⟨v', hsame, ?_⟩, hrest⟩
  have hkey' (x y : a.carrier × b.carrier) (hxy : SamePair a b x y) : x.1 = y.1 :=
    a.eq_of_same (a.comparable_of_keyable hkey) x.1 y.1 hxy.1
  have hkeys := CppType.keys_eq hkey' hsame
  have hdistinct := distinct_of_arranged (a.equal_iff hkey) hv.2.2
  have hdistinct' : v'.Pairwise fun x y => x.1 ≠ y.1 := by
    rw [← List.pairwise_map] at hdistinct ⊢
    rwa [← hkeys]
  have hperm := foldl_insertUnique_perm (a.less_lawful hkey) v' List.Pairwise.nil hdistinct'
  rw [List.nil_append] at hperm
  exact hm ▸ hperm.symm

theorem unorderedMap_of_map {v : List (a.carrier × b.carrier)} (hv : (CppType.map .map a b).Wf v)
    : Decodes h (.map .unorderedMap a b) (encode (.map .map a b) v)
        fun m => (CppType.map .unorderedMap a b).Same v m := by
  have harranged := arranged_of_sorted (a.less_lawful hkey) (a.equal_iff hkey) hv.2.2
  apply shr_map_reads h .unorderedMap a b (a.comparable_of_keyable hkey) v hv.1 harranged
  . intro x hx
    apply shr_reads h a ha x.1 (hv.2.1 x hx).1
  . intro x hx
    apply shr_reads h b hb x.2 (hv.2.1 x hx).2

theorem map_of_pairs {l : List (a.carrier × b.carrier)} (hlen : l.length < 2 ^ 64)
    (hwf : ∀ x ∈ l, a.Wf x.1 ∧ b.Wf x.2)
    : Decodes h (.map .map a b) (encode (.seq .list (.pair a b)) l)
        fun (m : List (a.carrier × b.carrier)) =>
          CppType.Arranged true true a.less a.equal Prod.fst m ∧
          ∀ k, Option.Rel (SamePair a b) (firstEntry a b k l) (firstEntry a b k m) := by
  intro s rest hs
  rcases map_reads h ha hb .map hlen hwf [] hs with ⟨l', hsame, hm, hrest⟩
  have hlawful := a.less_lawful hkey
  refine ⟨?_, hrest⟩
  show CppType.Arranged true true a.less a.equal Prod.fst (shr h (.map .map a b) [] s).1 ∧
    ∀ k, Option.Rel (SamePair a b) (firstEntry a b k l)
      (firstEntry a b k (shr h (.map .map a b) [] s).1)
  rw [hm]
  constructor
  . exact foldl_insertUnique_pairwise hlawful l' List.Pairwise.nil
  . intro k
    have hfirst : firstEntry a b k (l'.foldl (fun m x => insertUnique a.less Prod.fst x m) [])
        = firstEntry a b k l' :=
      find?_foldl_insertUnique hlawful l' List.Pairwise.nil (a.equal_iff hkey) k
    exact hfirst ▸ firstEntry_same hkey hsame k

end Map

section Set

variable (h : Placement) {t : Scalar} (ht : t.isFloat = false)

theorem set_reads (k : SetKind) {l : List t.carrier} (hlen : l.length < 2 ^ 64)
    (old : List t.carrier) {s : Serializer} {rest : List Byte}
    (hs : s.bytes = encode (.seq .list (.scalar t)) l ++ rest)
    : (shr h (.set k (.scalar t)) old s).1
          =
        l.foldl (fun m x => h.insert k.unique k.ordered t.less t.equal id x m) old
        ∧
        (shr h (.set k (.scalar t)) old s).2.bytes = rest := by
  rcases readAll_reads _ (h.insert k.unique k.ordered t.less t.equal id) Eq t.bytes l hlen
    (fun x _ => scalar_reads t x t.default) (fun _ => old) s rest hs with ⟨l', hsame, hm, hrest⟩
  rw [List.forall₂_eq_eq_eq] at hsame
  subst hsame
  exact ⟨hm, hrest⟩

include ht

theorem set_of_unorderedSet {v : List t.carrier} (hv : (CppType.set .unorderedSet (.scalar t)).Wf v)
    : Decodes h (.set .set (.scalar t)) (encode (.set .unorderedSet (.scalar t)) v)
        fun m => (CppType.set .unorderedSet (.scalar t)).Same v m := by
  intro s rest hs
  have hread := set_reads h .set hv.1 [] hs
  have hdistinct : v.Pairwise fun x y => id x ≠ id y :=
    distinct_of_arranged (t.equal_iff ht) hv.2.2
  have hperm := foldl_insertUnique_perm (t.less_lawful ht) v List.Pairwise.nil hdistinct
  rw [List.nil_append] at hperm
  refine ⟨⟨v, List.forall₂_same.mpr fun _ _ => rfl, ?_⟩, hread.2⟩
  exact hread.1 ▸ hperm.symm

theorem unorderedSet_of_set {v : List t.carrier} (hv : (CppType.set .set (.scalar t)).Wf v)
    : Decodes h (.set .unorderedSet (.scalar t)) (encode (.set .set (.scalar t)) v)
        fun m => (CppType.set .unorderedSet (.scalar t)).Same v m := by
  have harranged := arranged_of_sorted (t.less_lawful ht) (t.equal_iff ht) hv.2.2
  apply shr_set_reads h .unorderedSet (.scalar t) v hv.1 harranged
  intro x _
  apply scalar_reads t x t.default

theorem set_of_elements {l : List t.carrier} (hlen : l.length < 2 ^ 64)
    : Decodes h (.set .set (.scalar t)) (encode (.seq .list (.scalar t)) l)
        fun (m : List t.carrier) =>
          CppType.Arranged true true t.less t.equal id m ∧ ∀ x, x ∈ m ↔ x ∈ l := by
  intro s rest hs
  have hread := set_reads h .set hlen [] hs
  have hlawful := t.less_lawful ht
  have hequal := t.equal_iff ht
  have hset : (shr h (.set .set (.scalar t)) [] s).1
      = l.foldl (fun m x => insertUnique t.less id x m) [] := hread.1
  refine ⟨?_, hread.2⟩
  simp only [CppType.default, hset]
  constructor
  . exact foldl_insertUnique_pairwise hlawful l List.Pairwise.nil
  . intro x
    have hfind : (l.foldl (fun m x => insertUnique t.less id x m) []).find? (fun y => t.equal y x)
        = l.find? fun y => t.equal y x :=
      find?_foldl_insertUnique hlawful l List.Pairwise.nil hequal x
    have hmem (l : List t.carrier) : x ∈ l ↔ (l.find? fun y => t.equal y x).isSome := by
      simp [List.find?_isSome, hequal]
    rw [hmem l, ← hfind]
    exact hmem _

end Set

/--
Ordered and unordered containers read each other's bytes, in whatever order the entries are written.
-/
theorem decodes_any_order (h : Placement) {a b : CppType .type} (hkey : a.keyable = true)
    (ha : a.stringFree = true) (hb : b.stringFree = true) {t : Scalar} (ht : t.isInteger = true)
    : (∀ v, (CppType.map .unorderedMap a b).Wf v →
        Decodes h (.map .map a b) (written (.map .unorderedMap a b) v)
          fun m => (CppType.map .unorderedMap a b).Same v m)
        ∧
      (∀ v, (CppType.map .map a b).Wf v →
        Decodes h (.map .unorderedMap a b) (written (.map .map a b) v)
          fun m => (CppType.map .unorderedMap a b).Same v m)
        ∧
      (∀ l : List (a.carrier × b.carrier), l.length < 2 ^ 64 → (∀ x ∈ l, a.Wf x.1 ∧ b.Wf x.2) →
        Decodes h (.map .map a b) (written (.seq .list (.pair a b)) l)
          fun (m : List (a.carrier × b.carrier)) =>
            CppType.Arranged true true a.less a.equal Prod.fst m ∧
            ∀ k, Option.Rel (SamePair a b) (firstEntry a b k l) (firstEntry a b k m))
        ∧
      (∀ v, (CppType.set .unorderedSet (.scalar t)).Wf v →
        Decodes h (.set .set (.scalar t)) (written (.set .unorderedSet (.scalar t)) v)
          fun m => (CppType.set .unorderedSet (.scalar t)).Same v m)
        ∧
      (∀ v, (CppType.set .set (.scalar t)).Wf v →
        Decodes h (.set .unorderedSet (.scalar t)) (written (.set .set (.scalar t)) v)
          fun m => (CppType.set .unorderedSet (.scalar t)).Same v m)
        ∧
      (∀ l : List t.carrier, l.length < 2 ^ 64 →
        Decodes h (.set .set (.scalar t)) (written (.seq .list (.scalar t)) l)
          fun (m : List t.carrier) =>
            CppType.Arranged true true t.less t.equal id m ∧ ∀ x, x ∈ m ↔ x ∈ l) := by
  have hfloat : t.isFloat = false := by
    cases t with
    | float | double => cases ht
    | _ => rfl
  exact ⟨fun v hv => .of_encode (map_of_unorderedMap h hkey ha hb hv),
    fun v hv => .of_encode (unorderedMap_of_map h hkey ha hb hv),
    fun l hlen hwf => .of_encode (map_of_pairs h hkey ha hb hlen hwf),
    fun v hv => .of_encode (set_of_unorderedSet h hfloat hv),
    fun v hv => .of_encode (unorderedSet_of_set h hfloat hv),
    fun l hlen => .of_encode (set_of_elements h hfloat hlen)⟩

-- the entries of a hash table in no order, and a stream with two values for the key 1
theorem decodes_any_order_entries
    : let int8 : CppType .type := .scalar .int8
      let v : List (BitVec 8 × BitVec 8) := [(2, 20), (1, 10)]
      let l : List (BitVec 8 × BitVec 8) := [(1, 30), (0, 5), (1, 40)]
      Decodes .front (.map .map int8 int8) (written (.map .unorderedMap int8 int8) v)
        (fun m => (CppType.map .unorderedMap int8 int8).Same v m) ∧
      Decodes .front (.map .map int8 int8) (written (.seq .list (.pair int8 int8)) l)
        fun (m : List (BitVec 8 × BitVec 8)) =>
          CppType.Arranged true true int8.less int8.equal Prod.fst m ∧
          ∀ k, Option.Rel (SamePair int8 int8) (firstEntry int8 int8 k l)
            (firstEntry int8 int8 k m) := by
  intro int8 v l
  have hwf : ∀ x : BitVec 8 × BitVec 8, int8.Wf x.1 ∧ int8.Wf x.2 := fun _ => ⟨trivial, trivial⟩
  have hdistinct : v.Pairwise fun x y => (x.1 == y.1) = false := by decide
  have hall := @decodes_any_order .front int8 int8 rfl rfl rfl .int32 rfl
  exact ⟨hall.1 v ⟨by decide, fun x _ => hwf x, hdistinct⟩,
    hall.2.2.1 l (by decide) fun x _ => hwf x⟩

end Serializer
end Fish
