import FishRpc.Lib.Coder
import FishRpc.Rpc.Lemmas.Serializer

/-!
This module contains the behaviour of a `Serializer` under interleaved `<<` and `>>` calls, where
every `>>` reads into a default constructed target: it is a queue of values.
-/

namespace Fish
namespace Serializer

def coder (h : Placement) : Coder (CppType .type) CppType.carrier Byte Serializer where
  encode := encode
  buffer := bytes
  write := shl
  read t s := shr h t t.default s

def Supported (t : CppType .type) (v : t.carrier) : Prop :=
  t.stringFree = true ∧ t.Wf v

theorem coder_lawful (h : Placement) : (coder h).Lawful Supported CppType.Same where
  buffer_write := shl_bytes
  read_encode t v s rest hv hs := shr_reads h t hv.1 v hv.2 s rest hs

theorem interleaving_fifo (h : Placement) (s : Serializer)
    (calls : List (Coder.Call (CppType .type) CppType.carrier)) (hempty : s.bytes = [])
    (hsupported : ∀ v ∈ Coder.Call.writes calls, Supported v.1 v.2)
    (hkeep : Coder.Call.KeepUp [] calls)
    : ∀ pre, pre <+: calls →
        List.Forall₂ (Coder.Agree CppType.Same)
          ((Coder.Call.writes calls).take (Coder.Call.reads pre).length)
          ((coder h).run s pre).2
          ∧
        ((coder h).run s pre).1.bytes
          =
        (coder h).encodeAll ((Coder.Call.writes pre).drop (Coder.Call.reads pre).length) := by
  intro pre hpre
  have hwrites : Coder.Call.writes pre <+: Coder.Call.writes calls := Coder.Call.writes_prefix hpre
  have hrun := (coder_lawful h).run_interleaving s pre hempty
    (fun v hv => hsupported v (hwrites.mem hv)) (hkeep.of_prefix hpre)
  have hlen : (Coder.Call.reads pre).length ≤ (Coder.Call.writes pre).length := by
    have := (hkeep pre hpre).length_le
    simpa using this
  have htake : (Coder.Call.writes calls).take (Coder.Call.reads pre).length
      = (Coder.Call.writes pre).take (Coder.Call.reads pre).length := by
    obtain ⟨rest, hrest⟩ := hwrites
    rw [← hrest]
    apply List.take_append_of_le_length hlen
  rw [htake]
  exact hrun

theorem interleaving_fifo_map_behind_int
    : let ages : CppType .type := .map .map (.scalar .int8) (.seq .list (.scalar .uint16))
      let calls : List (Coder.Call (CppType .type) CppType.carrier) :=
        [.write (.scalar .int32) (7#32 : BitVec 32), .write ages [(255#8, [1#16]), (3#8, [])],
         .read (.scalar .int32), .read ages]
      ∀ pre, pre <+: calls →
        List.Forall₂ (Coder.Agree CppType.Same)
          ((Coder.Call.writes calls).take (Coder.Call.reads pre).length)
          ((coder Placement.front).run (new fun _ => 0#8) pre).2
          ∧
        ((coder Placement.front).run (new fun _ => 0#8) pre).1.bytes
          =
        (coder Placement.front).encodeAll
          ((Coder.Call.writes pre).drop (Coder.Call.reads pre).length) := by
  intro ages calls
  apply interleaving_fifo
  . rfl
  . intro v hv
    simp only [calls, Coder.Call.writes, List.mem_cons, List.not_mem_nil, or_false] at hv
    rcases hv with rfl | rfl
    . exact ⟨rfl, trivial⟩
    . refine ⟨rfl, by decide, ?_, ?_⟩
      . intro x hx
        rcases List.mem_cons.mp hx with rfl | hx
        . exact ⟨trivial, by decide, fun _ _ => trivial⟩
        . obtain rfl := List.mem_singleton.mp hx
          exact ⟨trivial, by decide, fun _ _ => trivial⟩
      . exact List.pairwise_pair.mpr rfl
  . decide

end Serializer
end Fish
