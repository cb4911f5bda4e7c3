import ChunkMem.Properties.Owner
import ChunkMem.Properties.RoundTrip

/-!
# Addresses and chunk pointers

An address inside a block and the chunk pointer to it determine each other, and moving one
by some bytes moves the other by as many.
-/

namespace ChunkMem

open Foundation

namespace ChkPtr

def sub (p : ChkPtr) (offset : Nat) : ChkPtr :=
  { p with offset := (p.offset + (2 ^ 12 - setChkOffset offset % 2 ^ 12)) % 2 ^ 12 }

end ChkPtr

def chkPtrValid (p : ChkPtr) : M Bool := do
  let idx <- getIndex
  if p.chkNo < idx.chkNum then do
    let chk <- chkPtr2chk p
    let virgin <- load chk ChkMetadata.virgin
    pure (decide (chkOffset p.offset < chkSize virgin))
  else pure false

def chkAddr2ptr (addr : Ptr) (size : Nat) : M ChkPtr := do
  let chkMeta <- chkAddr2chk addr
  if chkMeta = Ptr.null then pure chkNull
  else chkAddrchk2ptr ⟨addr, chkMeta⟩ size

theorem ChkPtr.sub_add {p : ChkPtr} (hp : p.offset < 2 ^ 12) (n : Nat) :
    (p.add n).sub n = p := by
  unfold ChkPtr.add ChkPtr.sub
  cases p with
  | mk no off size =>
      simp only [ChkPtr.mk.injEq, true_and, and_true] at *
      omega

namespace Open

variable {env : Env} {s : Session} {l : Live} {i : Nat}

theorem add_offset (h : Open env s) (hl : l ∈ s.live) (hin : i < 8 * l.ptr.size) :
    l.ptr.add i = ⟨l.ptr.chkNo, l.ptr.offset + i / 4, l.ptr.size⟩ := by
  rcases h with ⟨-, c, L, hv⟩
  have hbound := hv.wf.tiling.block_bound (Valid.mem_block hl) (hv.pos l hl)
  have hvirgin := hv.wf.tiling.virgin_le _ hbound.1
  have hoff : l.ptr.offset = 2 * l.block.start := by
    rw [hv.ptr l hl, blockPtr_offset]
  have hlen : l.block.len = l.ptr.size := rfl
  have hlt : l.ptr.offset + i / 4 < 2 ^ 12 := by omega
  unfold ChkPtr.add setChkOffset
  rw [Nat.mod_eq_of_lt hlt]

end Open

/-- In every session with an uncompressed index, for every block and every fourth byte of it,
if no kilobyte inside the chunk begins like a header: the chunk pointer of the block moved by
some bytes leads to its address moved by as many, `chk_addr2ptr` of this address gives the
moved pointer back, with the size that is asked for, the pointer is valid, and moved back it is
that of the block. -/
theorem Reach.pointers_return {env : Env} {s : Session} (h : Reach env CarefulCall s)
    (hflag : s.world.index.compressed = false) {l : Live} (hl : l ∈ s.live)
    (hlone : s.world.Lone l.ptr.chkNo) {i : Nat} (hword : i % 4 = 0) (hin : i < 8 * l.ptr.size)
    (size : Nat) :
    exists a, chkPtr2addr l.ptr s.world = .ok (a, s.world) ∧
      chkPtr2addr (l.ptr.add i) s.world = .ok (a.add i, s.world) ∧
      chkAddr2ptr (a.add i) size s.world =
        .ok (⟨l.ptr.chkNo, (l.ptr.add i).offset, setChkSize size % 2 ^ 9⟩, s.world) ∧
      chkPtrValid (l.ptr.add i) s.world = .ok (true, s.world) ∧
      (l.ptr.add i).sub i = l.ptr := by
  have hopen := h.isOpen hflag
  have hadd := hopen.add_offset hl hin
  have hno := hopen.chkNo_lt hl
  rcases hopen.2 with ⟨c, L, hv⟩
  have hu := hv.stored.uncompressed hflag
  have hbound := hv.wf.tiling.block_bound (Valid.mem_block hl) (hv.pos l hl)
  have hoff : l.ptr.offset = 2 * l.block.start := by
    rw [hv.ptr l hl, blockPtr_offset]
  have hlen : l.block.len = l.ptr.size := rfl
  have hspace : l.block.space = l.ptr.chkNo := rfl
  have hreserved := Content.reserved_ge l.block.space
  rw [hspace] at hbound hreserved
  have haddr : (s.world.addrOf l.ptr).add i =
      (s.world.index.chkAddr l.ptr.chkNo).add (4 * (l.ptr.offset + i / 4)) := by
    rw [Open.addrOf_add]
    congr 1
    omega
  refine ⟨s.world.addrOf l.ptr, hopen.chkPtr2addr_ok hno, ?_, ?_, ?_, ?_⟩
  · have hdecode := hopen.chkPtr2addr_ok
      (p := ⟨l.ptr.chkNo, l.ptr.offset + i / 4, l.ptr.size⟩) hno
    unfold World.addrOf at hdecode
    simp only [chkOffset] at hdecode
    rw [hadd, haddr, hdecode, Nat.mul_comm]
  · have hcovers : s.world.Covers l.ptr.chkNo ((s.world.addrOf l.ptr).add i) := by
      refine ⟨hno, 4 * (l.ptr.offset + i / 4), by omega, ?_, haddr⟩
      rw [hu.virginOf_eq hbound.1]
      omega
    have hne : s.world.index.chkAddr l.ptr.chkNo ≠ Ptr.null := hu.chkAddr_ne_null hbound.1 0
    unfold chkAddr2ptr
    rw [Exec.bind_of_ok (hu.chkAddr2chk_ok hcovers hlone),
      if_neg hne, haddr, hadd]
    exact hu.encode_ok hbound.1 (by omega) (by omega) size
  · have hvalid : chkOffset (l.ptr.offset + i / 4) < chkSize (c.body l.ptr.chkNo).virgin := by
      simp only [chkOffset, chkSize]
      omega
    have hchk : chkPtr2chk ⟨l.ptr.chkNo, l.ptr.offset + i / 4, l.ptr.size⟩ s.world =
        .ok (s.world.index.chkAddr l.ptr.chkNo, s.world) := hu.tracks.chkPtr2chk_ok hbound.1
    unfold chkPtrValid
    rw [Exec.bind_of_ok (getIndex_apply _), hadd, if_pos hno,
      Exec.bind_of_ok hchk, Exec.bind_of_ok (hu.load_virgin hbound.1), Exec.pure_apply,
      decide_eq_true hvalid]
  · exact ChkPtr.sub_add (hopen.offset_lt hl) i

/-- The second word of the block of 24 bytes. -/
theorem Reach.pointers_return_sample : exists a,
    chkPtr2addr ⟨0, 10, 3⟩ packed.world = .ok (a, packed.world) ∧
    chkAddr2ptr (a.add 4) 0 packed.world = .ok (⟨0, 11, 0⟩, packed.world) := by
  have hlive : (⟨⟨0, 10, 3⟩, 24⟩ : Live) ∈ packed.live := by decide +kernel
  have hlone : packed.world.Lone 0 := by
    unfold World.Lone
    decide +kernel
  rcases Reach.pointers_return packed_reach (by decide +kernel) hlive hlone
    (i := 4) (by decide) (by decide) 0 with ⟨a, ha, -, hback, -, -⟩
  exact ⟨a, ha, hback⟩

end ChunkMem
