import ChunkMem.Properties.Strings
import ChunkMem.Session.Spots

/-!
# Addresses and chunk pointers

A place in a chunk has an address and a chunk pointer.  As every chunk shows its own
number and no chunk is larger than the 12 bits of an offset can count, each is found from
the other.
-/

namespace ChunkMem

open Foundation

/-- In every session with an uncompressed index, each chunk shows its own number; an
aligned address behind its base and in front of its virgin mark is encoded as a chunk
pointer with this number and the distance from the base, and found again from it; and a
chunk pointer into it is found again from the address and chunk it designates. -/
theorem Reach.encoding_exact {env : Env} {s : Session} (h : Reach env CarefulCall s)
    (hflag : s.world.index.compressed = false) {i : Nat} (hi : i < s.world.index.chkNum) :
    load (s.world.index.chkAddr i) ChkMetadata.no s.world = .ok (i, s.world) ∧
    (forall (a : Ptr) (size : Nat), a.blk = (s.world.index.chkAddr i).blk ->
      (s.world.index.chkAddr i).off < a.off ->
      a.off < (s.world.index.chkAddr i).off + chkSize (s.world.virginOf i) -> a.off % 4 = 0 ->
      exists p, chkAddrchk2ptr ⟨a, s.world.index.chkAddr i⟩ size s.world = .ok (p, s.world) ∧
        p.chkNo = i ∧ (s.world.index.chkAddr i).off + chkOffset p.offset = a.off ∧
        chkPtr2addrchk p s.world = .ok (⟨a, s.world.index.chkAddr i⟩, s.world)) ∧
    forall (p : ChkPtr) (size : Nat), p.chkNo = i -> 0 < chkOffset p.offset ->
      chkOffset p.offset < chkSize (s.world.virginOf i) ->
      exists a q, chkPtr2addrchk p s.world = .ok (a, s.world) ∧
        chkAddrchk2ptr a size s.world = .ok (q, s.world) ∧ q.chkNo = p.chkNo ∧
        q.offset = p.offset := by
  rcases h.careful with ⟨c, L, hv⟩
  have hu := hv.stored.uncompressed hflag
  rw [hu.num] at hi
  rw [hu.virginOf_eq hi]
  have hbase := hu.place.off_eq hi
  simp only [chkSize, chkOffset]
  refine ⟨hu.load_no hi, ?_, ?_⟩
  · intro a size hblk hlo hhi halign
    have hsplit : a = (s.world.index.chkAddr i).add
        (4 * ((a.off - (s.world.index.chkAddr i).off) / 4)) := by
      cases a
      simp only [Ptr.add, Ptr.mk.injEq] at *
      omega
    generalize (a.off - (s.world.index.chkAddr i).off) / 4 = o at hsplit
    subst hsplit
    simp only [Ptr.add] at hlo hhi
    have hencode := hu.encode_ok hi (o := o) (by omega) (by omega) size
    have hdecode := hu.tracks.chkPtr2addrchk_ok (p := ⟨i, o, setChkSize size % 2 ^ 9⟩) hi
    rw [chkOffset, Nat.mul_comm] at hdecode
    refine ⟨_, hencode, rfl, ?_, hdecode⟩
    simp only [Ptr.add]
    omega
  · rintro p size rfl hlo hhi
    have hdecode := hu.tracks.chkPtr2addrchk_ok hi
    rw [chkOffset, Nat.mul_comm] at hdecode
    exact ⟨_, _, hdecode, hu.encode_ok hi (by omega) (by omega) size, rfl, rfl⟩

/-- The first place behind the header. -/
theorem Reach.encoding_exact_sample : exists p,
    chkAddrchk2ptr ⟨(packed.world.index.chkAddr 0).add 40, packed.world.index.chkAddr 0⟩ 0
        packed.world = .ok (p, packed.world) ∧ p.chkNo = 0 := by
  have hfacts : packed.world.index.compressed = false ∧ 0 < packed.world.index.chkNum ∧
      (packed.world.index.chkAddr 0).off = 0 ∧ 40 < chkSize (packed.world.virginOf 0) := by
    decide +kernel
  rcases hfacts with ⟨hflag, hnum, hbase, hvirgin⟩
  have hplaces := (Reach.encoding_exact packed_reach hflag hnum).2.1
  generalize packed.world = w at hplaces hbase hvirgin ⊢
  have halign : ((w.index.chkAddr 0).add 40).off % 4 = 0 := by
    simp only [Ptr.add]
    omega
  rcases hplaces ((w.index.chkAddr 0).add 40) 0 rfl (Nat.lt_add_of_pos_right (by decide))
    (Nat.add_lt_add_left hvirgin _) halign with ⟨p, hencode, hno, -⟩
  exact ⟨p, hencode, hno⟩

end ChunkMem
