import FishRpc.Net.Impl.TcpAddr

/-!
This module contains the addresses that are made from a `sockaddr_in`.
-/

namespace Fish
namespace TcpAddr

theorem octet_decimal : ∀ b : Byte, octet (decimal b) = some b := by
  decide +kernel

theorem dot_not_mem_decimal : ∀ b : Byte, dot ∉ decimal b := by
  decide +kernel

theorem splitOn_inetNtop (sinAddr : Fin 4 → Byte)
    : (inetNtop sinAddr).splitOn dot = (List.ofFn sinAddr).map decimal := by
  apply List.splitOn_intercalate dot
  . intro text htext
    rcases List.mem_map.mp htext with ⟨b, _, rfl⟩
    apply dot_not_mem_decimal
  . simp

/--
`inet_pton` reads what `inet_ntop` writes.
-/
theorem inetPton_inetNtop (sinAddr : Fin 4 → Byte)
    : inetPton (inetNtop sinAddr) = some (List.ofFn sinAddr) := by
  unfold inetPton
  rw [splitOn_inetNtop]
  simp [octet_decimal]

theorem zero_notMem_decimal : ∀ b : Byte, 0#8 ∉ decimal b := by
  decide +kernel

theorem zero_notMem_inetNtop (sinAddr : Fin 4 → Byte) : 0 ∉ inetNtop sinAddr := by
  have hdot : 0#8 ≠ dot := by decide
  simp [inetNtop, List.ofFn_succ, zero_notMem_decimal, hdot]

theorem ofSockaddr_eq {addr : Sockaddr} (h : 0 < (ntohs addr.sinPort).toNat)
    : ofSockaddr addr
        =
      some { ip := inetNtop addr.sinAddr, port := (ntohs addr.sinPort).toNat } := by
  have havlid : avlid (inetNtop addr.sinAddr) (ntohs addr.sinPort).toNat = true := by
    have hlt : (ntohs addr.sinPort).toNat < 2 ^ 16 := (ntohs addr.sinPort).isLt
    unfold avlid
    rw [CString.cStr_eq_self (zero_notMem_inetNtop _)]
    rw [inetPton_inetNtop, if_neg (by simp), if_neg (by omega)]
  unfold ofSockaddr
  simp only [havlid, if_true]

theorem port_pos {addr : Sockaddr} {a : TcpAddr} (h : ofSockaddr addr = some a) : 0 < a.port := by
  unfold ofSockaddr at h
  simp only [Option.ite_none_right_eq_some] at h
  rcases h with ⟨havlid, hport⟩
  cases hport
  by_contra hpos
  have hbad : ((ntohs addr.sinPort).toNat : Int) > 65536 ∨ ((ntohs addr.sinPort).toNat : Int) ≤ 0 :=
    Or.inr (Int.not_lt.mp hpos)
  unfold avlid at havlid
  rw [if_pos hbad] at havlid
  simp at havlid

end TcpAddr
end Fish
