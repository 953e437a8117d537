import FishRpc.Net.Lemmas.TcpAddrText

/-!
This module contains the way of an address through a socket: the `sockaddr_in` that
`createConnection` fills in from an address, and the address that is made from it on the other side.
-/

namespace Fish
namespace TcpAddr

open CString (cStr)

-- `fd_addr` in `createConnection`, it is zero before `inet_pton` writes to it
def connectAddr (addr : TcpAddr) : Sockaddr where
  sinAddr i := ((inetPton (cStr addr.ip)).getD []).getD i 0
  sinPort := addr.sinPort

def octetValue (n : Nat) (text : List Byte) : Nat :=
  text.foldl (fun n b => n * 10 + (b.toNat - 48)) n

theorem le_octetValue (n : Nat) (text : List Byte) : n * 10 ^ text.length ≤ octetValue n text := by
  induction text generalizing n with
  | nil => exact Nat.le_of_eq (Nat.mul_one n)
  | cons b text ih =>
    have hrest := ih (n * 10 + (b.toNat - 48))
    rw [List.length_cons, Nat.pow_succ']
    calc
      n * (10 * 10 ^ text.length) = n * 10 * 10 ^ text.length := (Nat.mul_assoc _ _ _).symm
      _ ≤ (n * 10 + (b.toNat - 48)) * 10 ^ text.length := Nat.mul_le_mul_right _ (by omega)
      _ ≤ octetValue n (b :: text) := hrest

structure Octet (text : List Byte) (b : Byte) : Prop where
  nonempty : text ≠ []
  digits : ∀ c ∈ text, 48 ≤ c.toNat ∧ c.toNat ≤ 57
  leading : 1 < text.length → text.head? ≠ some (digit 0)
  le : octetValue 0 text ≤ 255
  value : b = BitVec.ofNat 8 (octetValue 0 text)

theorem octet_spec {text : List Byte} {b : Byte} (h : octet text = some b) : Octet text b := by
  unfold octet at h
  simp only at h
  split at h
  . cases h
  . rename_i hdigits
    rw [not_or, not_not, List.all_eq_true] at hdigits
    split at h
    . cases h
    . rename_i hleading
      split at h
      . cases h
      . rename_i hle
        refine ⟨hdigits.1, ?_, ?_, Nat.le_of_not_lt hle, (Option.some.inj h).symm⟩
        . intro c hc
          simpa using hdigits.2 c hc
        . intro hlen hhead
          exact hleading ⟨hlen, hhead⟩

theorem Octet.head_pos {c : Byte} {text : List Byte} {b : Byte} (h : Octet (c :: text) b)
    (hlen : 0 < text.length) : 49 ≤ c.toNat := by
  have hc := (h.digits c List.mem_cons_self).1
  have hne : c ≠ digit 0 := by
    intro heq
    apply h.leading (by simpa using hlen)
    rw [heq]
    rfl
  by_contra hlt
  apply hne
  apply BitVec.eq_of_toNat_eq
  have hzero : (digit 0).toNat = 48 := rfl
  omega

theorem Octet.length_le {text : List Byte} {b : Byte} (h : Octet text b) : text.length ≤ 3 := by
  cases text with
  | nil => exact Nat.zero_le 3
  | cons c text =>
    by_contra hlen
    rw [List.length_cons] at hlen
    have hpos := h.head_pos (by omega)
    have hle : octetValue (c.toNat - 48) text ≤ 255 := by simpa [octetValue] using h.le
    have hpow : 10 ^ 3 ≤ 10 ^ text.length := Nat.pow_le_pow_right (by decide) (by omega)
    have hvalue := le_octetValue (c.toNat - 48) text
    have hmul : 1 * 10 ^ 3 ≤ (c.toNat - 48) * 10 ^ text.length :=
      Nat.mul_le_mul (by omega) hpow
    omega

theorem eq_digit {c : Byte} {d : Nat} (hd : d < 10) (h : c.toNat = 48 + d) : c = digit d := by
  apply BitVec.eq_of_toNat_eq
  unfold digit
  rw [BitVec.toNat_ofNat]
  omega

/--
There is only one way to write a byte that `inet_pton` accepts.
-/
theorem eq_decimal_of_octet {text : List Byte} {b : Byte} (h : octet text = some b)
    : text = decimal b := by
  have h := octet_spec h
  have hlen := h.length_le
  have hb : b.toNat = octetValue 0 text := by
    have hle := h.le
    rw [h.value, BitVec.toNat_ofNat]
    omega
  unfold decimal
  simp only [hb]
  match text, h with
  | [], h => exact absurd rfl h.nonempty
  | [x], h =>
    have hx := h.digits x (by simp)
    have hvalue : octetValue 0 [x] = x.toNat - 48 := by simp [octetValue]
    have hdigit : x = digit (x.toNat - 48) := eq_digit (by omega) (by omega)
    rw [hvalue, if_pos (by omega), ← hdigit]
  | [x, y], h =>
    have hx := h.head_pos (by simp)
    have hx' := h.digits x (by simp)
    have hy := h.digits y (by simp)
    have hvalue : octetValue 0 [x, y] = (x.toNat - 48) * 10 + (y.toNat - 48) := by
      simp [octetValue]
    rw [hvalue, if_neg (by omega), if_pos (by omega)]
    rw [← eq_digit (c := x) (by omega) (by omega), ← eq_digit (c := y) (by omega) (by omega)]
  | [x, y, z], h =>
    have hx := h.head_pos (by simp)
    have hx' := h.digits x (by simp)
    have hy := h.digits y (by simp)
    have hz := h.digits z (by simp)
    have hvalue : octetValue 0 [x, y, z]
        = ((x.toNat - 48) * 10 + (y.toNat - 48)) * 10 + (z.toNat - 48) := by
      simp [octetValue]
    rw [hvalue, if_neg (by omega), if_neg (by omega)]
    rw [← eq_digit (c := x) (by omega) (by omega), ← eq_digit (c := y) (by omega) (by omega),
      ← eq_digit (c := z) (by omega) (by omega)]
  | _ :: _ :: _ :: _ :: _, _ =>
    simp only [List.length_cons] at hlen
    omega

theorem eq_map_decimal {parts : List (List Byte)} {bytes : List Byte}
    (h : parts.mapM octet = some bytes) : parts = bytes.map decimal := by
  induction parts generalizing bytes with
  | nil =>
    cases h
    rfl
  | cons part parts ih =>
    rw [List.mapM_cons] at h
    rcases Option.bind_eq_some_iff.mp h with ⟨b, hb, hrest⟩
    rcases Option.bind_eq_some_iff.mp hrest with ⟨bs, hbs, heq⟩
    cases heq
    rw [List.map_cons, ← eq_decimal_of_octet hb, ← ih hbs]

/--
`inet_ntop` writes what `inet_pton` reads, there is no other text for the same address.
-/
theorem inetNtop_inetPton {text bytes : List Byte} (h : inetPton text = some bytes)
    : inetNtop (fun i => bytes.getD i 0) = text := by
  unfold inetPton at h
  simp only [Option.ite_none_right_eq_some] at h
  rcases h with ⟨hlen, hbytes⟩
  have hparts := eq_map_decimal hbytes
  have hfour : bytes.length = 4 := by
    rw [← hlen, hparts, List.length_map]
  have hofFn : List.ofFn (fun i : Fin 4 => bytes.getD i 0) = bytes := by
    match bytes, hfour with
    | [_, _, _, _], _ => rfl
  unfold inetNtop
  rw [hofFn, ← hparts]
  apply List.intercalate_splitOn

theorem ntohs_sinPort {a : TcpAddr} (hpos : 1 ≤ a.port) (hle : a.port ≤ 65535)
    : ((ntohs a.sinPort).toNat : Int) = a.port :=
  (bound_of_le hpos hle).sent

theorem htons_ntohs (x : BitVec 16) : htons (ntohs x) = x := ntohs_htons x

theorem eq_of_ofSockaddr {addr : Sockaddr} {a : TcpAddr} (h : ofSockaddr addr = some a)
    : avlid a.ip a.port = true ∧
        a = { ip := inetNtop addr.sinAddr, port := (ntohs addr.sinPort).toNat } := by
  unfold ofSockaddr at h
  simp only [Option.ite_none_right_eq_some, Option.some.injEq] at h
  rcases h with ⟨havlid, rfl⟩
  exact ⟨havlid, rfl⟩

theorem connectAddr_ofSockaddr {addr : Sockaddr} {a : TcpAddr} (h : ofSockaddr addr = some a)
    : a.connectAddr = addr := by
  rw [(eq_of_ofSockaddr h).2]
  have haddr : (fun i : Fin 4 => (List.ofFn addr.sinAddr).getD i 0) = addr.sinAddr := by
    funext i
    match i with
    | 0 | 1 | 2 | 3 => rfl
  unfold connectAddr sinPort
  simp only
  rw [CString.cStr_eq_self (zero_notMem_inetNtop _), inetPton_inetNtop]
  rw [Option.getD_some, haddr]
  rw [BitVec.ofInt_natCast, BitVec.ofNat_toNat, BitVec.setWidth_eq, htons_ntohs]

theorem ofSockaddr_connectAddr {a : TcpAddr} (havlid : avlid a.ip a.port = true)
    (hzero : 0 ∉ a.ip) (hle : a.port ≤ 65535) : ofSockaddr a.connectAddr = some a := by
  rcases (avlid_iff a.ip a.port).mp havlid with ⟨hip, hpos, _⟩
  have hport := ntohs_sinPort hpos hle
  rw [CString.cStr_eq_self hzero] at hip
  rcases Option.ne_none_iff_exists'.mp hip with ⟨bytes, hbytes⟩
  have htext : inetNtop a.connectAddr.sinAddr = a.ip := by
    unfold connectAddr
    simp only
    rw [CString.cStr_eq_self hzero, hbytes, Option.getD_some]
    apply inetNtop_inetPton hbytes
  have hsin : a.connectAddr.sinPort = a.sinPort := rfl
  rw [ofSockaddr_eq (by rw [hsin]; omega)]
  rw [htext, hsin, hport]

-- the text that the last constructor takes
def text (a : TcpAddr) : List Byte := a.ip ++ colon :: Decimal.numeral a.port

theorem ofString_text {a : TcpAddr} (havlid : avlid a.ip a.port = true) (hzero : 0 ∉ a.ip)
    : ofString a.text = some a := by
  rcases (avlid_iff a.ip a.port).mp havlid with ⟨hip, hpos, hle⟩
  rw [CString.cStr_eq_self hzero] at hip
  have hnumeral : Decimal.readDigits (Decimal.numeral a.port) = some a.port.toNat := by
    unfold Decimal.numeral
    rw [if_neg (by omega), Decimal.readDigits_magnitude]
    congr 1
    omega
  have hport : CString.atoi (cStr (Decimal.numeral a.port)) = a.port := by
    rw [CString.cStr_eq_self (CString.zero_notMem_of_readDigits hnumeral)]
    rw [CString.atoi_of_readDigits hnumeral (by omega)]
    omega
  unfold text
  rw [ofString_eq (colon_notMem_of_inetPton hip), hport]
  apply ofIpPort_eq havlid

/--
The addresses made from socket addresses are exactly those with a valid text and a port of 16 bits,
connecting to one of them fills in the socket address it was made from, and its text is read as the
same address.
-/
theorem ofSockaddr_eq_some_iff (addr : Sockaddr) (a : TcpAddr)
    : ofSockaddr addr = some a
        ↔
      (avlid a.ip a.port = true ∧ 0 ∉ a.ip ∧ a.port ≤ 65535) ∧ a.connectAddr = addr ∧
        ofString a.text = some a := by
  constructor
  . intro h
    rcases eq_of_ofSockaddr h with ⟨havlid, ha⟩
    have hzero : 0 ∉ a.ip := by
      rw [ha]
      apply zero_notMem_inetNtop
    exact ⟨⟨havlid, hzero, (ofSockaddr_bound addr h).le⟩, connectAddr_ofSockaddr h,
      ofString_text havlid hzero⟩
  . rintro ⟨⟨havlid, hzero, hle⟩, rfl, _⟩
    apply ofSockaddr_connectAddr havlid hzero hle

end TcpAddr
end Fish
