import Mathlib.Algebra.Order.Ring.Nat
import Mathlib.Tactic.Ring

/-!
This module contains the little endian representation of natural numbers as lists of bytes: the
least significant byte comes first and `toBytes n` cuts off what does not fit into `n` bytes.
-/

abbrev Byte := BitVec 8

namespace LittleEndian

def toBytes : Nat → Nat → List Byte
  | 0, _ => []
  | n + 1, v => BitVec.ofNat 8 v :: toBytes n (v / 256)

def ofBytes : List Byte → Nat
  | [] => 0
  | b :: bs => b.toNat + 256 * ofBytes bs

@[simp]
theorem length_toBytes (n v : Nat) : (toBytes n v).length = n := by
  induction n generalizing v with
  | zero => rfl
  | succ n ih => simp [toBytes, ih]

theorem ofBytes_toBytes (n v : Nat) : ofBytes (toBytes n v) = v % 256 ^ n := by
  induction n generalizing v with
  | zero => simp [toBytes, ofBytes, Nat.mod_one]
  | succ n ih =>
    have hsplit : v % 256 ^ (n + 1) = v % 256 + 256 * (v / 256 % 256 ^ n) := by
      rw [Nat.pow_succ']
      rw [Nat.mod_mul]
    simp only [toBytes, ofBytes, ih, BitVec.toNat_ofNat]
    rw [hsplit]

theorem ofBytes_toBytes_of_lt {n v : Nat} (h : v < 256 ^ n) : ofBytes (toBytes n v) = v := by
  rw [ofBytes_toBytes]
  apply Nat.mod_eq_of_lt h

theorem ofBytes_lt (bs : List Byte) : ofBytes bs < 256 ^ bs.length := by
  induction bs with
  | nil => simp [ofBytes]
  | cons b bs ih =>
    have hb : b.toNat < 256 := b.isLt
    simp only [ofBytes, List.length_cons]
    rw [Nat.pow_succ']
    omega

theorem ofBytes_append (bs bs' : List Byte)
    : ofBytes (bs ++ bs') = ofBytes bs + 256 ^ bs.length * ofBytes bs' := by
  induction bs with
  | nil => simp [ofBytes]
  | cons b bs ih =>
    simp only [List.cons_append, ofBytes, List.length_cons, ih]
    ring

theorem ofBytes_replicate_zero (n : Nat) : ofBytes (List.replicate n 0#8) = 0 := by
  induction n with
  | zero => rfl
  | succ n ih => simp [List.replicate_succ, ofBytes, ih]

theorem toBytes_ofBytes (bs : List Byte) : toBytes bs.length (ofBytes bs) = bs := by
  induction bs with
  | nil => rfl
  | cons b bs ih =>
    have hb : b.toNat < 256 := b.isLt
    have hdiv : (b.toNat + 256 * ofBytes bs) / 256 = ofBytes bs := by omega
    have hhead : BitVec.ofNat 8 (b.toNat + 256 * ofBytes bs) = b := by
      apply BitVec.eq_of_toNat_eq
      rw [BitVec.toNat_ofNat]
      omega
    simp only [List.length_cons, toBytes, ofBytes]
    rw [hdiv, ih, hhead]

theorem ofBytes_inj {bs bs' : List Byte} (hlength : bs.length = bs'.length)
    (h : ofBytes bs = ofBytes bs') : bs = bs' := by
  rw [← toBytes_ofBytes bs, ← toBytes_ofBytes bs']
  rw [hlength, h]

theorem ofNat_ofBytes_inj {n : Nat} {bs bs' : List Byte} (hbs : bs.length = n)
    (hbs' : bs'.length = n)
    (h : BitVec.ofNat (8 * n) (ofBytes bs) = BitVec.ofNat (8 * n) (ofBytes bs')) : bs = bs' := by
  have hlt {bs : List Byte} (hbs : bs.length = n) : ofBytes bs < 2 ^ (8 * n) := by
    rw [Nat.pow_mul, ← hbs]
    apply ofBytes_lt
  have h := congrArg BitVec.toNat h
  rw [BitVec.toNat_ofNat, BitVec.toNat_ofNat] at h
  rw [Nat.mod_eq_of_lt (hlt hbs), Nat.mod_eq_of_lt (hlt hbs')] at h
  apply ofBytes_inj (hbs.trans hbs'.symm) h

theorem ofBytes_take (bs : List Byte) (k : Nat) : ofBytes (bs.take k) = ofBytes bs % 256 ^ k := by
  induction k generalizing bs with
  | zero => simp [ofBytes, Nat.mod_one]
  | succ k ih =>
    cases bs with
    | nil => simp [ofBytes]
    | cons b bs =>
      have hb : b.toNat < 256 := b.isLt
      have hmod : (b.toNat + 256 * ofBytes bs) % 256 = b.toNat := by omega
      have hdiv : (b.toNat + 256 * ofBytes bs) / 256 = ofBytes bs := by omega
      simp only [List.take_succ_cons, ofBytes, ih]
      rw [Nat.pow_succ']
      rw [Nat.mod_mul]
      rw [hmod, hdiv]

theorem getD_toBytes {n i : Nat} (v : Nat) (h : i < n)
    : (toBytes n v).getD i 0 = BitVec.ofNat 8 (v / 256 ^ i) := by
  induction n generalizing i v with
  | zero => omega
  | succ n ih =>
    cases i with
    | zero => simp [toBytes]
    | succ i =>
      have hdiv : v / 256 / 256 ^ i = v / 256 ^ (i + 1) := by
        rw [Nat.div_div_eq_div_mul]
        rw [Nat.pow_succ']
      simp only [toBytes, List.getD_cons_succ]
      rw [ih _ (by omega)]
      rw [hdiv]

end LittleEndian
