import FishRpc.Lib.Run
import FishRpc.Rpc.Impl.ProtocolFactory
import FishRpc.Rpc.Lemmas.Protocol

/-!
This module contains the two lengths in the header of a message that is put together by its setters.
They are computed in `uint32_t` and stored in 8 bits, and nothing keeps them inside `msgStr`.
-/

namespace Fish
namespace Protocol

section

variable (p : Protocol) {off n : Nat} (v : BitVec (8 * n))

theorem field_setField_same (h : off + n ≤ 16) : (p.setField off n v).msg.field off n = v :=
  p.msg.field_setField_same v h

theorem field_setField_of_disjoint {off' n' : Nat} (h : off' + n' ≤ 16)
    (hdisjoint : off' + n' ≤ off ∨ off + n ≤ off')
    : (p.setField off n v).msg.field off' n' = p.msg.field off' n' :=
  p.msg.field_setField_of_disjoint v h hdisjoint

end

theorem setAppendLength_totalLength (p : Protocol) (adLength : BitVec 32)
    : (p.setAppendLength adLength).totalLength.toNat
        =
      (p.headLength.toNat + adLength.toNat) % 256 := by
  have hlt := p.headLength.isLt
  unfold setAppendLength totalLength setTotalLength
  rw [field_setField_same _ _ (by omega)]
  simp only [BitVec.toNat_setWidth, BitVec.toNat_add]
  omega

theorem setAppendLength_headLength (p : Protocol) (adLength : BitVec 32)
    : (p.setAppendLength adLength).headLength = p.headLength :=
  field_setField_of_disjoint p _ (by omega) (Or.inr (by omega))

theorem setLength_eq (p : Protocol) (length : BitVec 32)
    : p.setLength length
        =
      (p.setTotalLength ((p.totalLength.setWidth 32 + (length - p.headLength.setWidth 32)).setWidth
        8)).setHeadLength (length.setWidth 8) := by
  unfold setLength
  simp only
  rw [if_neg (by omega)]

theorem setLength_totalLength {p : Protocol} (h : p.headLength.toNat ≤ p.totalLength.toNat)
    (length : BitVec 32)
    : (p.setLength length).totalLength.toNat
        =
      (length.toNat + (p.totalLength.toNat - p.headLength.toNat)) % 256 := by
  have hlt := p.totalLength.isLt
  rw [setLength_eq]
  unfold totalLength setHeadLength setTotalLength at *
  rw [field_setField_of_disjoint _ _ (by omega) (Or.inl (by omega))]
  rw [field_setField_same _ _ (by omega)]
  simp only [BitVec.toNat_setWidth, BitVec.toNat_add, BitVec.toNat_sub]
  omega

theorem setLength_headLength (p : Protocol) (length : BitVec 32)
    : (p.setLength length).headLength.toNat = length.toNat % 256 := by
  rw [setLength_eq]
  unfold headLength setHeadLength
  rw [field_setField_same _ _ (by omega)]
  simp only [BitVec.toNat_setWidth]

theorem getAppendLength_toNat {p : Protocol} (h : p.headLength.toNat ≤ p.totalLength.toNat)
    : p.getAppendLength.toNat = p.totalLength.toNat - p.headLength.toNat := by
  have hlt := p.totalLength.isLt
  unfold getAppendLength
  simp only [BitVec.toNat_setWidth, BitVec.toNat_sub]
  omega

/-! ### Sequences of setters -/

-- a message and what `setAppendLength` was last called with
structure Lengths where
  protocol : Protocol
  given : Option (BitVec 32)

namespace Lengths

def start (raw : HeadMsg) : Lengths := ⟨.new raw, none⟩

def set (s : Lengths) (call : Setter) : Lengths :=
  { protocol := s.protocol.set call
    given :=
      match call with
      | .appendLength adLength => some adLength
      | _ => s.given }

structure Sound (s : Lengths) : Prop where
  le : s.protocol.headLength.toNat ≤ s.protocol.totalLength.toNat
  -- the bytes that `result` copies are in `msgStr`
  fits : s.protocol.totalLength.toNat ≤ 16
  given : ∀ adLength, s.given = some adLength → s.protocol.getAppendLength = adLength

-- what a call leaves behind, and `setLength` keeps the append length
structure Keeps (s : Lengths) (call : Setter) : Prop where
  sound : (s.set call).Sound
  length : ∀ length, call = .length length →
    (s.set call).protocol.getAppendLength = s.protocol.getAppendLength

-- the new header has room in `msgStr`
def Fits (s : Lengths) : Setter → Prop
  | .appendLength adLength => s.protocol.headLength.toNat + adLength.toNat ≤ 16
  | .length length =>
    length.toNat % 256 + (s.protocol.totalLength.toNat - s.protocol.headLength.toNat) ≤ 16
  | _ => True

theorem sound_start (raw : HeadMsg) : Sound (start raw) where
  le := by
    show (new raw).headLength.toNat ≤ (new raw).totalLength.toNat
    rw [new_headLength, new_totalLength]
  fits := by
    show (new raw).totalLength.toNat ≤ 16
    rw [new_totalLength]
    decide
  given _ h := by cases h

variable {s : Lengths}

theorem appendLength_iff (s : Lengths) (adLength : BitVec 32)
    : Keeps s (.appendLength adLength) ↔ Fits s (.appendLength adLength) := by
  have htotal := setAppendLength_totalLength s.protocol adLength
  have hhead := setAppendLength_headLength s.protocol adLength
  unfold Fits
  constructor
  . intro hkeeps
    have hle : (s.protocol.setAppendLength adLength).headLength.toNat ≤ _ := hkeeps.sound.le
    have hgiven := congrArg BitVec.toNat (hkeeps.sound.given adLength rfl)
    have hfits : (s.protocol.setAppendLength adLength).totalLength.toNat ≤ 16 := hkeeps.sound.fits
    have happend : _ = adLength.toNat := (getAppendLength_toNat hle).symm.trans hgiven
    rw [hhead] at hle happend
    omega
  . intro hfits
    have hle : (s.protocol.setAppendLength adLength).headLength.toNat
        ≤ (s.protocol.setAppendLength adLength).totalLength.toNat := by
      rw [hhead]
      omega
    refine ⟨⟨hle, ?_, ?_⟩, ?_⟩
    . show (s.protocol.setAppendLength adLength).totalLength.toNat ≤ 16
      omega
    . intro adLength' heq
      cases heq
      apply BitVec.eq_of_toNat_eq
      refine (getAppendLength_toNat hle).trans ?_
      rw [hhead]
      omega
    . intro _ heq
      cases heq

theorem Sound.length_iff (h : Sound s) (length : BitVec 32)
    : Keeps s (.length length) ↔ Fits s (.length length) := by
  have htotal := setLength_totalLength h.le length
  have hhead := setLength_headLength s.protocol length
  have hold := getAppendLength_toNat h.le
  unfold Fits
  constructor
  . intro hkeeps
    have hle : (s.protocol.setLength length).headLength.toNat ≤ _ := hkeeps.sound.le
    have hfits : (s.protocol.setLength length).totalLength.toNat ≤ 16 := hkeeps.sound.fits
    have hlength := congrArg BitVec.toNat (hkeeps.length length rfl)
    have hnew := (getAppendLength_toNat hle).symm.trans hlength
    rw [hold] at hnew
    omega
  . intro hfits
    have hle : (s.protocol.setLength length).headLength.toNat
        ≤ (s.protocol.setLength length).totalLength.toNat := by
      omega
    have hsame : (s.protocol.setLength length).getAppendLength = s.protocol.getAppendLength := by
      apply BitVec.eq_of_toNat_eq
      rw [getAppendLength_toNat hle]
      omega
    refine ⟨⟨hle, ?_, ?_⟩, ?_⟩
    . show (s.protocol.setLength length).totalLength.toNat ≤ 16
      omega
    . intro adLength hgiven
      exact hsame.trans (h.given adLength hgiven)
    . intro _ _
      exact hsame

theorem Sound.other (h : Sound s) {call : Setter}
    (htotal : (s.protocol.set call).totalLength = s.protocol.totalLength)
    (hhead : (s.protocol.set call).headLength = s.protocol.headLength)
    (hgiven : (s.set call).given = s.given) : Keeps s call := by
  have hsame : (s.protocol.set call).getAppendLength = s.protocol.getAppendLength := by
    unfold getAppendLength
    rw [htotal, hhead]
  refine ⟨⟨?_, ?_, ?_⟩, fun _ _ => hsame⟩
  . show (s.protocol.set call).headLength.toNat ≤ (s.protocol.set call).totalLength.toNat
    rw [htotal, hhead]
    apply h.le
  . show (s.protocol.set call).totalLength.toNat ≤ 16
    rw [htotal]
    apply h.fits
  . intro adLength hadLength
    rw [hgiven] at hadLength
    exact hsame.trans (h.given adLength hadLength)

theorem Sound.keeps_iff (h : Sound s) (call : Setter) : Keeps s call ↔ Fits s call := by
  cases call with
  | appendLength adLength => exact appendLength_iff s adLength
  | length length => exact h.length_iff length
  | magic magic =>
    refine iff_of_true (h.other ?_ ?_ rfl) trivial
    . exact field_setField_of_disjoint _ _ (by omega) (Or.inr (by omega))
    . exact field_setField_of_disjoint _ _ (by omega) (Or.inr (by omega))
  | version | msgType | sFormat | msgId | content =>
    refine iff_of_true (h.other ?_ ?_ rfl) trivial
    . exact field_setField_of_disjoint _ _ (by omega) (Or.inl (by omega))
    . exact field_setField_of_disjoint _ _ (by omega) (Or.inl (by omega))

/--
The lengths stay inside the header and are what they were set to exactly as long as every new header
has room in `msgStr`.
-/
theorem keeps_iff_fits (raw : HeadMsg) (calls : List Setter)
    : Run.Each Lengths.set Keeps (start raw) calls
        ↔
      Run.Each Lengths.set Fits (start raw) calls := by
  apply Run.each_congr (fun s call hs => hs.keeps_iff call) _ (sound_start raw)
  intro s call hs hfits
  apply ((hs.keeps_iff call).mpr hfits).sound

-- `totalLength_` becomes 17, so `result` copies a byte from behind `msgStr`
theorem not_keeps_appendLength
    : ¬Run.Each Lengths.set Keeps (start ⟨fun _ => 0⟩) [.appendLength 2] := by
  intro h
  have hfits := h.1.sound.fits
  revert hfits
  decide

end Lengths
end Protocol
end Fish
