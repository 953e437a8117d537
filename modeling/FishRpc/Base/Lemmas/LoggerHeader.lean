import FishRpc.Base.Lemmas.Logger
import FishRpc.Lib.SelfDelimiting

/-!
This module contains what can be told from the header of a line: the texts of two times of one day
are ordered like the times, and no two headers of one day are alike.
-/

namespace Fish

namespace TimePoint

variable {count count' : Int}

-- the day at UTC+8
def day (count : Int) : Int := (count.tdiv 1000000 + 8 * 3600) / 86400

def secondOfDay (count : Int) : Nat := (count.toNat / 1000000 + 8 * 3600) % 86400

theorem pad_eq_fixed {k n : Nat} (hk : 0 < k) (h : n < 10 ^ k)
    : LogFile.pad 48 k (Decimal.magnitude n) = Decimal.fixed k n :=
  Decimal.replicate_append_magnitude hk h

theorem numeral_natCast (n : Nat) : Decimal.numeral n = Decimal.magnitude n := by
  unfold Decimal.numeral
  rw [if_neg (by omega)]
  rfl

theorem toLogString_eq (h : 0 ≤ count)
    : TimePoint.toLogString count
        =
      Decimal.fixed 2 (secondOfDay count / 3600) ++
        (58 :: Decimal.fixed 2 (secondOfDay count / 60 % 60) ++
          (58 :: Decimal.fixed 2 (secondOfDay count % 60) ++
            (46 :: Decimal.fixed 6 (count.toNat % 1000000) ++ List.replicate 49 0))) := by
  rcases Int.eq_ofNat_of_zero_le h with ⟨n, rfl⟩
  have htwo {v : Int} {k : Nat} (hv : v = k) (hk : k < 100)
      : LogFile.pad 48 2 (Decimal.numeral v) = Decimal.fixed 2 k := by
    rw [hv, numeral_natCast, pad_eq_fixed (by decide) hk]
  have hday : secondOfDay n < 86400 := Nat.mod_lt _ (by decide)
  have hvalue : ((n : Int).tdiv 1000000 + 8 * 3600) % 86400 = secondOfDay n := by
    unfold secondOfDay
    rw [Int.tdiv_eq_ediv_of_nonneg h]
    omega
  have hmicro : (n : Int).tmod 1000000 = (n % 1000000 : Nat) := by
    rw [Int.tmod_eq_emod_of_nonneg h]
    omega
  have hhour := htwo (v := (secondOfDay n : Int) / 3600) (k := secondOfDay n / 3600)
    (by omega) (by omega)
  have hmin := htwo (v := (secondOfDay n : Int) / 60 % 60) (k := secondOfDay n / 60 % 60)
    (by omega) (by omega)
  have hsec := htwo (v := (secondOfDay n : Int) % 60) (k := secondOfDay n % 60)
    (by omega) (by omega)
  have hsix : LogFile.pad 48 6 (Decimal.magnitude (n % 1000000)) = Decimal.fixed 6 (n % 1000000) :=
    pad_eq_fixed (by decide) (Nat.mod_lt _ (by decide))
  unfold TimePoint.toLogString
  simp only [hvalue, hmicro, hhour, hmin, hsec]
  rw [if_neg (by omega), Int.natAbs_natCast, hsix]
  simp only [List.length_append, List.length_cons, Decimal.length_fixed, List.append_assoc,
    List.cons_append]
  rfl

-- what a field contributes to the order of two texts
theorem field_lt_iff {k n m : Nat} {sep : Byte} {s t : List Byte} (hn : n < 10 ^ k)
    (hm : m < 10 ^ k)
    : Decimal.fixed k n ++ sep :: s < Decimal.fixed k m ++ sep :: t ↔ n < m ∨ n = m ∧ s < t := by
  rw [Decimal.append_lt_append_iff (by rw [Decimal.length_fixed, Decimal.length_fixed])]
  rw [Decimal.fixed_lt_iff hn hm, Decimal.fixed_inj hn hm, List.cons_lt_cons_iff]
  have hirrefl : ¬sep < sep := BitVec.lt_irrefl sep
  tauto

theorem last_lt_iff {k n m : Nat} {s : List Byte} (hn : n < 10 ^ k) (hm : m < 10 ^ k)
    : Decimal.fixed k n ++ s < Decimal.fixed k m ++ s ↔ n < m := by
  rw [Decimal.append_lt_append_iff (by rw [Decimal.length_fixed, Decimal.length_fixed])]
  rw [Decimal.fixed_lt_iff hn hm]
  have hirrefl : ¬s < s := List.lt_irrefl s
  tauto

/--
The texts of one day are ordered like the times they stand for.
-/
theorem toLogString_lt_iff (h : 0 ≤ count) (h' : 0 ≤ count') (hday : day count = day count')
    : TimePoint.toLogString count < TimePoint.toLogString count' ↔ count < count' := by
  have hlt (c : Int) : secondOfDay c < 86400 := Nat.mod_lt _ (by decide)
  have hsecond := hlt count
  have hsecond' := hlt count'
  rw [toLogString_eq h, toLogString_eq h']
  simp only [List.cons_append]
  rw [field_lt_iff (by omega) (by omega)]
  rw [field_lt_iff (by omega) (by omega)]
  rw [field_lt_iff (by omega) (by omega)]
  rw [last_lt_iff (by omega) (by omega)]
  -- the texts tell the second of the day and the microsecond, in this order
  have hsame (c : Int) (hc : 0 ≤ c)
      : c = (day c * 86400 + secondOfDay c - 8 * 3600) * 1000000 + (c.toNat % 1000000 : Nat) := by
    unfold day secondOfDay
    rw [Int.tdiv_eq_ediv_of_nonneg hc]
    omega
  have hcount := hsame count h
  have hcount' := hsame count' h'
  have hmicro : count.toNat % 1000000 < 1000000 := Nat.mod_lt _ (by decide)
  have hmicro' : count'.toNat % 1000000 < 1000000 := Nat.mod_lt _ (by decide)
  rw [← hday] at hcount'
  generalize secondOfDay count = u at *
  generalize secondOfDay count' = v at *
  generalize count.toNat % 1000000 = x at *
  generalize count'.toNat % 1000000 = y at *
  omega

-- a microsecond before ten o'clock and ten o'clock of the first day
theorem toLogString_lt_iff_ten
    : TimePoint.toLogString 7199999999 < TimePoint.toLogString 7200000000 ↔
        (7199999999 : Int) < 7200000000 :=
  toLogString_lt_iff (by decide) (by decide) (by decide)

theorem toLogString_inj (h : 0 ≤ count) (h' : 0 ≤ count') (hday : day count = day count')
    (htext : TimePoint.toLogString count = TimePoint.toLogString count') : count = count' := by
  have hirrefl : ¬TimePoint.toLogString count' < TimePoint.toLogString count' := List.lt_irrefl _
  have hle : ¬count < count' := by
    rw [← toLogString_lt_iff h h' hday, htext]
    exact hirrefl
  have hge : ¬count' < count := by
    rw [← toLogString_lt_iff h' h hday.symm, htext]
    exact hirrefl
  omega

end TimePoint

namespace Logger

open LogStream (Piece)

variable {call call' : LogCall}

theorem tab_notMem_numeral (v : Int) : 9 ∉ Decimal.numeral v := by
  have hdigit {n : Nat} : 9 ∉ Decimal.magnitude n := by
    intro hmem
    unfold Decimal.magnitude at hmem
    rw [List.mem_reverse, List.mem_map] at hmem
    rcases hmem with ⟨d, hd, heq⟩
    have hlt := Decimal.lt_of_mem_digits hd
    have hvalue := Decimal.toNat_digit hlt
    rw [heq] at hvalue
    have hnine : (9 : Byte).toNat = 9 := rfl
    omega
  unfold Decimal.numeral
  split
  . rw [List.mem_cons, not_or]
    exact ⟨by decide, hdigit⟩
  . exact hdigit

theorem numeral_selfDelimiting
    : SelfDelimiting (fun _ => True) (fun v : Int => Decimal.numeral v ++ tab) := by
  apply SelfDelimiting.terminated
  . intro v _
    apply tab_notMem_numeral
  . intro v w _ _ heq
    have hv := (Decimal.numeral_numeral v).value
    rw [heq, (Decimal.numeral_numeral w).value] at hv
    exact (Option.some.inj hv).symm

theorem header_append (call : LogCall) (r : List Byte)
    : header call ++ r
        =
      TimePoint.toLogString call.count ++ (tab ++ (Decimal.numeral call.tid.val ++ tab ++
        (column (baseName call.fileName.val) ++ (tab ++ (Decimal.numeral call.line.val ++ tab ++
          (column call.funName.val ++ (tab ++ (levelToStr ++ r)))))))) := by
  have htid := bytes_int call.tid
  have hline := bytes_int call.line
  unfold header headerPieces bytes
  simp only [List.flatMap_cons, List.flatMap_nil, htid, hline, List.append_assoc, List.nil_append]
  rfl

theorem column_inj {name name' r r' : List Byte} (h : column name ++ r = column name' ++ r')
    : column name = column name' ∧ r = r' :=
  List.append_inj h (by rw [length_column, length_column])

theorem int_inj {v v' : IntType.int.Value} {r r' : List Byte}
    (h : Decimal.numeral v.val ++ tab ++ r = Decimal.numeral v'.val ++ tab ++ r')
    : v = v' ∧ r = r' := by
  rcases numeral_selfDelimiting v.val v'.val r r' trivial trivial h with ⟨hval, hrest⟩
  exact ⟨Subtype.ext hval, hrest⟩

/--
The time, the thread, the line and both columns can be told from what a line begins with, and so can
where the message begins.
-/
theorem header_unique {r r' : List Byte} (h : 0 ≤ call.count) (h' : 0 ≤ call'.count)
    (hday : TimePoint.day call.count = TimePoint.day call'.count)
    (heq : header call ++ r = header call' ++ r')
    : (call.count = call'.count ∧ call.tid = call'.tid ∧ call.line = call'.line) ∧
        (column (baseName call.fileName.val) = column (baseName call'.fileName.val) ∧
          column call.funName.val = column call'.funName.val) ∧ r = r' := by
  rw [header_append, header_append] at heq
  rcases List.append_inj heq (by rw [length_toLogString, length_toLogString]) with ⟨htime, heq⟩
  have hcount := TimePoint.toLogString_inj h h' hday htime
  rcases int_inj (List.append_cancel_left heq) with ⟨htid, heq⟩
  rcases column_inj heq with ⟨hfile, heq⟩
  rcases int_inj (List.append_cancel_left heq) with ⟨hline, heq⟩
  rcases column_inj heq with ⟨hfun, heq⟩
  have hrest := List.append_cancel_left (List.append_cancel_left heq)
  exact ⟨⟨hcount, htid, hline⟩, ⟨hfile, hfun⟩, hrest⟩

-- "/src/a.cpp": the file of the same name in another directory
def elsewhere : LogCall :=
  { hello with fileName := ⟨[47, 115, 114, 99, 47, 97, 46, 99, 112, 112], by decide⟩ }

theorem header_elsewhere : header elsewhere = header hello := by
  have hname : baseName elsewhere.fileName.val = baseName hello.fileName.val := by decide
  unfold header headerPieces
  rw [hname]
  rfl

-- the same header in front of two messages that are written in different pieces
theorem header_unique_elsewhere
    : (elsewhere.count = hello.count ∧ elsewhere.tid = hello.tid ∧ elsewhere.line = hello.line) ∧
        (column (baseName elsewhere.fileName.val) = column (baseName hello.fileName.val) ∧
          column elsewhere.funName.val = column hello.funName.val) ∧
        bytes [.cstr (some [104, 105])] = bytes [.cstr (some [104]), .cstr (some [105])] := by
  apply header_unique
  . decide
  . decide
  . rfl
  . rw [header_elsewhere]
    rfl

end Logger
end Fish
