import ChunkMem.Session.Regions

/-!
# Blocks do not overlap

In every session with an uncompressed index the headers, the memory manager, the
blocks of the program and the blocks of the free lists are disjoint regions of
memory below the virgin marks.
-/

namespace ChunkMem

open Foundation

namespace Session

/-- The blocks of a session lie apart from each other, each in its chunk, and the
program was given what it asked for. -/
structure Separated (env : Env) (s : Session) (free : Fin 3 -> List ChkPtr) : Prop where
  linked : forall i, s.world.FreeList i (free i)
  apart : ((s.blocks env free).map s.world.region).Pairwise Extent.Disjoint
  inside : forall b, b ∈ s.blocks env free -> b.space < s.world.index.chkNum ∧
    b.start + b.len ≤ s.world.virginOf b.space
  marks : forall k, k < s.world.index.chkNum ->
    s.world.virginOf k ≤ 128 * s.world.capacityOf k ∧ s.world.capacityOf k ≤ 16
  asked : forall l, l ∈ s.live -> l.size ≤ (s.world.region l.block).len ∧
    (s.world.region l.block).start % 8 = 0 ∧
    chkPtr2addr l.ptr s.world = .ok (⟨(s.world.region l.block).space,
      (s.world.region l.block).start⟩, s.world)

end Session

namespace Valid

variable {env : Env} {s : Session} {c : Content} {L : Layout}

theorem separated (h : Valid env s c L) (hflag : s.world.index.compressed = false) :
    s.Separated env (links c) := by
  have hu := h.stored.uncompressed hflag
  refine ⟨h.freeList hflag, h.regions_disjoint hflag, ?_, ?_, ?_⟩
  · intro b hb
    have hbound := h.blocks_bound hflag hb
    rw [hu.num, hu.virginOf_eq hbound.2.1]
    exact hbound.2
  · intro k hk
    rw [hu.num] at hk
    rw [hu.virginOf_eq hk, hu.capacityOf_eq hk]
    exact ⟨hu.fits.virgin_le k hk, hu.fits.cap_le k hk⟩
  · intro l hl
    have hbound := h.wf.tiling.block_bound (mem_block hl) (h.pos l hl)
    have hsize := h.size l hl
    have hoff := hu.place.off_eq hbound.1
    have haddr := hu.tracks.chkPtr2addr_ok (p := l.ptr) hbound.1
    have hstart : chkOffset l.ptr.offset = 8 * l.block.start := by
      rw [h.ptr l hl]
      simp only [blockPtr, chkOffset]
      omega
    refine ⟨?_, ?_, ?_⟩
    · show l.size ≤ ((8 * l.ptr.size : Nat) : Int)
      omega
    · show ((s.world.index.chkAddr l.block.space).off + 8 * l.block.start) % 8 = 0
      omega
    · rw [haddr, hstart]
      rfl

theorem succeeds (h : Valid env s c L) (hok : env.AllOk) (hcls : env.ClassesNonzero)
    {call : Call} (hcall : SafeCall env s call) (hsize : forall n, call = .alloc n -> 1 ≤ n) :
    exists r s', call.perform env s = .ok (r, s') := by
  have hnone : forall e, ¬CallFault env call e := by
    rintro e (he | ⟨-, n, hn, hle⟩)
    · exact not_expected hok hcls e he
    · have := hsize n hn
      omega
  rcases (h.perform hcall.1 hcall.2).exists_ok hnone with ⟨r, s', hrun, -⟩
  exact ⟨r, s', hrun⟩

end Valid

/-- Whatever a program does that shrinks only where the last chunk owns its
allocation: while the index is not compressed no two blocks overlap, and no call
fails as long as memory and size classes are in order. -/
theorem Reach.no_two_blocks_overlap {env : Env} {s : Session} (h : Reach env CarefulCall s) :
    (s.world.index.compressed = false -> exists free, s.Separated env free) ∧
    (env.AllOk -> env.ClassesNonzero -> forall call, CarefulCall s call ->
      (forall n, call = .alloc n -> 1 ≤ n) ->
      exists r s', call.perform env s = .ok (r, s')) := by
  rcases h.careful with ⟨c, L, hv⟩
  exact ⟨fun hflag => ⟨_, hv.separated hflag⟩,
    fun hok hcls call hcall hsize => hv.succeeds hok hcls hcall.safe hsize⟩

/-- Two blocks handed out, one freed and a larger one in its place. -/
theorem Reach.no_two_blocks_overlap_sample :
    (Call.after Env.plain [.alloc 24, .alloc 40, .free ⟨0, 16, 5⟩, .alloc 130]
      ⟨World.boot, []⟩).live = [⟨⟨0, 16, 17⟩, 130⟩, ⟨⟨0, 10, 3⟩, 24⟩] ∧
    exists free, (Call.after Env.plain [.alloc 24, .alloc 40, .free ⟨0, 16, 5⟩, .alloc 130]
      ⟨World.boot, []⟩).Separated Env.plain free :=
  ⟨by decide +kernel,
    (Reach.no_two_blocks_overlap (.after (.start World.boot_fresh) (by decide +kernel))).1
      (by decide +kernel)⟩

end ChunkMem
