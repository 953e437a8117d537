import FishRpc.Net.Lemmas.TcpAddr

/-!
This module contains the ports of the addresses that the constructors accept. The bound of `avlid` is
one too high, and `atoi` reads a port from texts that are no numerals.
-/

namespace Fish
namespace TcpAddr

open CString (cStr atoi)

variable {ip rest str : List Byte} {port : Int} {a : TcpAddr}

-- the port of the address is one, and the socket is given the same one
structure Bound (a : TcpAddr) : Prop where
  pos : 1 ≤ a.port
  le : a.port ≤ 65535
  sent : ((ntohs a.sinPort).toNat : Int) = a.port

theorem ntohs_htons (x : BitVec 16) : ntohs (htons x) = x := by
  unfold ntohs htons
  apply BitVec.eq_of_getLsbD_eq
  intro i hi
  simp only [BitVec.getLsbD_append, BitVec.getLsbD_extractLsb']
  grind

theorem bound_of_le (hpos : 1 ≤ port) (hle : port ≤ 65535)
    : Bound { ip := ip, port := port } := by
  refine ⟨hpos, hle, ?_⟩
  unfold sinPort
  rw [ntohs_htons, BitVec.toNat_ofInt]
  simp only
  omega

theorem avlid_iff (ip : List Byte) (port : Int)
    : avlid ip port = true ↔ inetPton (cStr ip) ≠ none ∧ 1 ≤ port ∧ port ≤ 65536 := by
  unfold avlid
  split
  . simp_all
  . split
    . simp only [Bool.false_eq_true, false_iff]
      omega
    . simp_all
      omega

theorem mem_of_octet {text : List Byte} {n : Byte} (h : octet text = some n)
    : ∀ b ∈ text, CString.isDigit b = true := by
  unfold octet at h
  simp only at h
  split at h
  . cases h
  . rename_i hdigits
    simp only [not_or, not_not, List.all_eq_true] at hdigits
    intro b hb
    exact hdigits.2 b hb

theorem mem_intercalate {b x : Byte} {ls : List (List Byte)} (h : b ∈ [x].intercalate ls)
    : b = x ∨ ∃ l ∈ ls, b ∈ l := by
  induction ls with
  | nil => simp at h
  | cons l ls ih =>
    cases ls with
    | nil => exact Or.inr ⟨l, List.mem_cons_self, by simpa using h⟩
    | cons l' ls =>
      rw [List.intercalate_cons_cons] at h
      rcases List.mem_append.mp h with hhead | htail
      . rcases List.mem_append.mp hhead with hl | hx
        . exact Or.inr ⟨l, List.mem_cons_self, hl⟩
        . exact Or.inl (List.mem_singleton.mp hx)
      . rcases ih htail with hx | ⟨l'', hl'', hb⟩
        . exact Or.inl hx
        . exact Or.inr ⟨l'', List.mem_cons_of_mem _ hl'', hb⟩

theorem mem_of_mapM_octet {parts : List (List Byte)} (h : parts.mapM octet ≠ none)
    {text : List Byte} (htext : text ∈ parts) : octet text ≠ none := by
  induction parts with
  | nil => cases htext
  | cons part parts ih =>
    rw [List.mapM_cons] at h
    rcases List.mem_cons.mp htext with rfl | hrest
    . intro hnone
      simp [hnone] at h
    . apply ih _ hrest
      intro hnone
      simp [hnone] at h

theorem mem_of_inetPton (h : inetPton ip ≠ none) {b : Byte} (hb : b ∈ ip)
    : b = dot ∨ CString.isDigit b = true := by
  unfold inetPton at h
  simp only at h
  split at h
  . have hjoin : [dot].intercalate (ip.splitOn dot) = ip := List.intercalate_splitOn dot
    rw [← hjoin] at hb
    rcases mem_intercalate hb with hdot | ⟨part, hpart, hmem⟩
    . exact Or.inl hdot
    . rcases Option.ne_none_iff_exists'.mp (mem_of_mapM_octet h hpart) with ⟨n, hn⟩
      exact Or.inr (mem_of_octet hn b hmem)
  . exact absurd rfl h

theorem colon_notMem_of_inetPton (h : inetPton ip ≠ none) : colon ∉ ip := by
  intro hmem
  exact absurd (mem_of_inetPton h hmem) (by decide)

theorem zero_notMem_of_inetPton (h : inetPton ip ≠ none) : 0 ∉ ip := by
  intro hmem
  exact absurd (mem_of_inetPton h hmem) (by decide)

/-! ### The text of an address -/

-- an address, a ':' and a numeral from 1 to 65535
def Written (str : List Byte) : Prop :=
  ∃ ip rest n,
    str = ip ++ colon :: rest ∧ inetPton ip ≠ none ∧ Decimal.readDigits rest = some n ∧
    1 ≤ n ∧ n ≤ 65535

-- what `atoi` reads an admitted port from is its numeral, and the address does not go on behind a
-- zero byte
def PlainPort (str : List Byte) : Prop :=
  ∀ ip rest,
    str = ip ++ colon :: rest → colon ∉ ip → inetPton (cStr ip) ≠ none →
    1 ≤ atoi (cStr rest) → atoi (cStr rest) ≤ 65536 →
    0 ∉ ip ∧ ∃ n, Decimal.readDigits rest = some n ∧ n ≤ 65535

theorem ofString_eq (h : colon ∉ ip) (rest : List Byte)
    : ofString (ip ++ colon :: rest) = ofIpPort ip (atoi (cStr rest)) := by
  unfold ofString ofIpPort
  simp only
  rw [CString.findIdx_append_cons h, if_pos]
  . have hdrop : (ip ++ colon :: rest).drop (ip.length + 1) = rest := by
      rw [← List.drop_drop, List.drop_left]
      rfl
    rw [List.take_left, hdrop]
  . simp

theorem ofString_of_notMem (h : colon ∉ str) : ofString str = none := by
  unfold ofString
  simp [CString.findIdx_of_notMem h]

theorem ofIpPort_eq (h : avlid ip port = true)
    : ofIpPort ip port = some { ip := ip, port := port } := if_pos h

theorem ofIpPort_of_not (h : ¬avlid ip port = true) : ofIpPort ip port = none := if_neg h

theorem append_colon_inj {ip' rest' : List Byte} (h : colon ∉ ip) (h' : colon ∉ ip')
    (heq : ip ++ colon :: rest = ip' ++ colon :: rest') : ip = ip' ∧ rest = rest' := by
  have hlen := congrArg (List.findIdx fun b => b == colon) heq
  rw [CString.findIdx_append_cons h, CString.findIdx_append_cons h'] at hlen
  have hsplit := List.append_inj heq hlen
  exact ⟨hsplit.1, (List.cons.inj hsplit.2).2⟩

theorem written_iff (h : colon ∉ ip) (rest : List Byte)
    : Written (ip ++ colon :: rest)
        ↔
      inetPton ip ≠ none ∧ ∃ n, Decimal.readDigits rest = some n ∧ 1 ≤ n ∧ n ≤ 65535 := by
  constructor
  . rintro ⟨ip', rest', n, heq, hip, hn, hpos, hle⟩
    rcases append_colon_inj h (colon_notMem_of_inetPton hip) heq with ⟨rfl, rfl⟩
    exact ⟨hip, n, hn, hpos, hle⟩
  . rintro ⟨hip, n, hn, hpos, hle⟩
    exact ⟨ip, rest, n, rfl, hip, hn, hpos, hle⟩

/-! ### The constructors -/

theorem ofIpPort_bound_iff (ip : List Byte) (port : Int)
    : (∀ a, ofIpPort ip port = some a → Bound a)
        ↔
      ¬(inetPton (cStr ip) ≠ none ∧ port = 65536) := by
  by_cases h : avlid ip port = true
  . rcases (avlid_iff ip port).mp h with ⟨hip, hpos, hle⟩
    rw [ofIpPort_eq h]
    constructor
    . rintro hall ⟨_, rfl⟩
      have hbound : (65536 : Int) ≤ 65535 := (hall _ rfl).le
      omega
    . rintro hne a ha
      cases ha
      apply bound_of_le hpos
      have hport : port ≠ 65536 := fun heq => hne ⟨hip, heq⟩
      omega
  . rw [ofIpPort_of_not h]
    refine iff_of_true nofun ?_
    rintro ⟨hip, rfl⟩
    exact h ((avlid_iff ip 65536).mpr ⟨hip, by decide, by decide⟩)

theorem ofSockaddr_bound (addr : Sockaddr) (h : ofSockaddr addr = some a) : Bound a := by
  have hpos := port_pos h
  have hlt : (ntohs addr.sinPort).toNat < 2 ^ 16 := (ntohs addr.sinPort).isLt
  unfold ofSockaddr at h
  simp only [Option.ite_none_right_eq_some] at h
  rcases h with ⟨_, ha⟩
  cases ha
  simp only at hpos
  apply bound_of_le
  . omega
  . omega

theorem plainPort_iff (h : colon ∉ ip) (rest : List Byte)
    : PlainPort (ip ++ colon :: rest)
        ↔
      (avlid ip (atoi (cStr rest)) = true →
        0 ∉ ip ∧ ∃ n, Decimal.readDigits rest = some n ∧ n ≤ 65535) := by
  constructor
  . intro hplain havlid
    rcases (avlid_iff ip _).mp havlid with ⟨hip, hpos, hle⟩
    exact hplain ip rest rfl h hip hpos hle
  . intro hplain ip' rest' heq h' hip hpos hle
    rcases append_colon_inj h h' heq with ⟨rfl, rfl⟩
    exact hplain ((avlid_iff ip _).mpr ⟨hip, hpos, hle⟩)

theorem atoi_of_written {n : Nat} (hn : Decimal.readDigits rest = some n) (hle : n ≤ 65535)
    : atoi (cStr rest) = n := by
  rw [CString.cStr_eq_self (CString.zero_notMem_of_readDigits hn)]
  apply CString.atoi_of_readDigits hn
  omega

theorem ofString_written_iff (str : List Byte)
    : (∀ a, ofString str = some a → Bound a) ∧ (ofString str ≠ none ↔ Written str)
        ↔
      PlainPort str := by
  by_cases hmem : colon ∈ str
  . rcases List.eq_append_cons_of_mem hmem with ⟨ip, rest, rfl, hip⟩
    rw [ofString_eq hip, written_iff hip, plainPort_iff hip]
    by_cases h : avlid ip (atoi (cStr rest)) = true
    . rcases (avlid_iff ip _).mp h with ⟨hne, hpos, hle⟩
      rw [ofIpPort_eq h]
      constructor
      . rintro ⟨_, hiff⟩ _
        rcases hiff.mp (by simp) with ⟨hip', n, hn, _, hle'⟩
        exact ⟨zero_notMem_of_inetPton hip', n, hn, hle'⟩
      . intro hplain
        rcases hplain h with ⟨hzero, n, hn, hle'⟩
        have hatoi := atoi_of_written hn hle'
        refine ⟨?_, iff_of_true (by simp) ⟨?_, n, hn, by omega, hle'⟩⟩
        . intro a ha
          cases ha
          apply bound_of_le hpos
          omega
        . rw [CString.cStr_eq_self hzero] at hne
          exact hne
    . rw [ofIpPort_of_not h]
      refine iff_of_true ⟨nofun, iff_of_false (fun hne => hne rfl) ?_⟩ fun havlid => absurd havlid h
      rintro ⟨hip', n, hn, hpos, hle⟩
      apply h
      rw [avlid_iff, atoi_of_written hn hle]
      rw [CString.cStr_eq_self (zero_notMem_of_inetPton hip')]
      exact ⟨hip', by omega, by omega⟩
  . rw [ofString_of_notMem hmem]
    refine iff_of_true ⟨nofun, iff_of_false (fun hne => hne rfl) ?_⟩ ?_
    . rintro ⟨ip, rest, n, rfl, _⟩
      exact hmem (List.mem_append_right _ List.mem_cons_self)
    . intro ip rest heq
      rw [heq] at hmem
      exact absurd (List.mem_append_right _ List.mem_cons_self) hmem

/--
The addresses have a port from 1 to 65535 unless it is given as 65536, and exactly the addresses in
their written form are accepted unless `atoi` reads a port from something else.
-/
theorem constructors_iff (ip : List Byte) (port : Int) (addr : Sockaddr) (str : List Byte)
    : ((∀ a, ofIpPort ip port = some a → Bound a)
        ↔
      ¬(inetPton (cStr ip) ≠ none ∧ port = 65536)) ∧
      (∀ a, ofSockaddr addr = some a → Bound a) ∧
      ((∀ a, ofString str = some a → Bound a) ∧ (ofString str ≠ none ↔ Written str)
        ↔
      PlainPort str) :=
  ⟨ofIpPort_bound_iff ip port, fun _ ha => ofSockaddr_bound addr ha, ofString_written_iff str⟩

-- "1.1.1.1"
def ones : List Byte := [49, 46, 49, 46, 49, 46, 49]

/--
The port 65536 is accepted, and so are characters behind a port.
-/
theorem not_bound_overflow
    : ¬((∀ ip port a, ofIpPort ip port = some a → Bound a) ∧
        ∀ str, ofString str ≠ none ↔ Written str) := by
  rintro ⟨hbound, _⟩
  exact (ofIpPort_bound_iff ones 65536).mp (hbound ones 65536) ⟨by decide, rfl⟩

-- "1.1.1.1: 80a"
example : ofString (ones ++ [58, 32, 56, 48, 97]) = some { ip := ones, port := 80 } := by decide

end TcpAddr
end Fish
