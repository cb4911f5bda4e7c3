import ChunkMem.Session.Regions

/-!
# The content of an index in memory

Two machine states that store one content without compression agree on all that a
program can see through the index: the marks of every chunk, the counters, the free
lists, and the bytes below the virgin marks, wherever the chunks lie.  Only the
total of capacities depends on the layout.
-/

namespace ChunkMem

open Foundation

/-- The bits of chunk `k` with virgin mark `v` that belong to the content: behind the
header, below the mark, and not in `_total_capacity`. -/
def ContentBit (k v j : Nat) : Prop :=
  128 ≤ j ∧ j < 64 * v ∧ ¬(k = 0 ∧ mgrPos + 64 ≤ j ∧ j < mgrPos + 80)

namespace World

structure SameContent (w w' : World) : Prop where
  num : w'.index.chkNum = w.index.chkNum
  no : forall k, k < w.index.chkNum -> w'.noOf k = w.noOf k
  used : forall k, k < w.index.chkNum -> w'.usedOf k = w.usedOf k
  virgin : forall k, k < w.index.chkNum -> w'.virginOf k = w.virginOf k
  bits : forall k j, k < w.index.chkNum -> ContentBit k (w.virginOf k) j ->
    w'.chunkBits k j = w.chunkBits k j
  totalUsed : 0 < w.index.chkNum -> w'.totalUsed = w.totalUsed
  totalFree : 0 < w.index.chkNum -> w'.totalFree = w.totalFree
  lists : forall i l, w'.FreeList i l <-> w.FreeList i l
  /-- A chunk pointer designates the same bytes. -/
  targets : forall p, p.chkNo < w.index.chkNum ->
    exists a a', chkPtr2addr p w = .ok (a, w) ∧ chkPtr2addr p w' = .ok (a', w') ∧
      forall j, ContentBit p.chkNo (w.virginOf p.chkNo) (32 * p.offset + j) ->
        w'.view a' j = w.view a j

theorem view_add (w : World) (p : Ptr) (o j : Nat) :
    w.view (p.add o) j = w.view p (8 * o + j) := by
  unfold view
  simp only [Bits.drop_apply, Ptr.add]
  congr 1
  omega

end World

namespace Uncompressed

variable {env : Env} {w w' : World} {c : Content} {L L' : Layout} {bs : List Block}

/-- The memory manager is determined by the content but for the total of
capacities. -/
theorem mgr_bits (h : Uncompressed env w c L) (h' : Uncompressed env w' c L') (hpos : 0 < c.num)
    {j : Nat} (h1 : mgrPos ≤ j) (h2 : j < mgrPos + 192)
    (h3 : j < mgrPos + 64 ∨ mgrPos + 80 ≤ j) : w'.chunkBits 0 j = w.chunkBits 0 j := by
  have hm := h.mgr hpos
  have hm' := h'.mgr hpos
  have hbit : forall a n, (w'.chunkBits 0).read a n = (w.chunkBits 0).read a n ->
      a ≤ j -> j < a + n -> w'.chunkBits 0 j = w.chunkBits 0 j := by
    intro a n hread ha hn
    have hone := Bits.bit_eq_of_read_eq (i := j - a) hread (by omega)
    rw [Nat.add_sub_cancel' ha] at hone
    exact hone
  by_cases hu : j < mgrPos + 32
  · exact hbit mgrPos 32 (hm'.totalUsed.trans hm.totalUsed.symm) h1 (by omega)
  by_cases hf : j < mgrPos + 64
  · exact hbit (mgrPos + 32) 32 (hm'.totalFree.trans hm.totalFree.symm) (by omega) (by omega)
  by_cases h0 : j < mgrPos + 84
  · exact hbit (mgrPos + 80) 4 (hm'.free0.trans hm.free0.symm) (by omega) (by omega)
  by_cases h4 : j < mgrPos + 89
  · exact hbit (mgrPos + 84) 5 (hm'.free1.trans hm.free1.symm) (by omega) (by omega)
  by_cases h9 : j < mgrPos + 96
  · exact hbit (mgrPos + 89) 7 (hm'.free2.trans hm.free2.symm) (by omega) (by omega)
  · -- one of the three list heads
    have hhead : forall i : Fin 3, mgrPos + 96 + 32 * i ≤ j -> j < mgrPos + 96 + 32 * i + 32 ->
        w'.chunkBits 0 j = w.chunkBits 0 j := by
      intro i ha hn
      have hptr := (hm'.lists i).trans (hm.lists i).symm
      unfold Bits.readPtr at hptr
      simp only [ChkPtr.mk.injEq] at hptr
      rcases hptr with ⟨hno, hoff, hsize⟩
      by_cases hj1 : j < mgrPos + 96 + 32 * i + 11
      · exact hbit _ 11 hno ha hj1
      by_cases hj2 : j < mgrPos + 96 + 32 * i + 23
      · exact hbit _ 12 hoff (by omega) (by omega)
      · exact hbit _ 9 hsize (by omega) (by omega)
    by_cases hi0 : j < mgrPos + 128
    · exact hhead 0 (by simp only [Fin.val_zero]; omega) (by simp only [Fin.val_zero]; omega)
    by_cases hi1 : j < mgrPos + 160
    · exact hhead 1 (by simp only [Fin.val_one]; omega) (by simp only [Fin.val_one]; omega)
    · exact hhead 2 (by simp only [Fin.val_two]; omega) (by simp only [Fin.val_two]; omega)

theorem content_bits (h : Uncompressed env w c L) (h' : Uncompressed env w' c L') {k j : Nat}
    (hk : k < c.num) (hj : ContentBit k (c.body k).virgin j) :
    w'.chunkBits k j = w.chunkBits k j := by
  rcases hj with ⟨hlo, hhi, hskip⟩
  by_cases hres : j < 64 * reserved k
  · -- only the first chunk has content in front of its user memory
    have hk0 : k = 0 := by
      by_contra hk0
      unfold reserved at hres
      rw [if_neg hk0] at hres
      omega
    subst hk0
    have hr : reserved 0 = 5 := rfl
    exact h.mgr_bits h' hk (by unfold mgrPos; omega) (by unfold mgrPos; omega) (by omega)
  · have hv := h.fits.virgin_le k hk
    have hv' := h'.fits.virgin_le k hk
    have hreach := env.le_reach (h.fits.cap_le k hk)
    have hreach' := env.le_reach (h'.fits.cap_le k hk)
    rw [(h.image k hk).data j (by omega) (by omega),
      (h'.image k hk).data j (by omega) (by omega)]

theorem sameContent (h : Uncompressed env w c L) (ht : Content.Tiling env.freeSize bs c)
    (h' : Uncompressed env w' c L') : w.SameContent w' := by
  have hnum := h.num
  have hnum' := h'.num
  have hbits : forall k j, k < c.num -> ContentBit k (w.virginOf k) j ->
      w'.chunkBits k j = w.chunkBits k j := by
    intro k j hk hj
    rw [h.virginOf_eq hk] at hj
    exact h.content_bits h' hk hj
  refine ⟨by omega, ?_, ?_, ?_, ?_, ?_, ?_, ?_, ?_⟩
  · intro k hk
    rw [h.noOf_eq (by omega), h'.noOf_eq (by omega)]
  · intro k hk
    rw [h.usedOf_eq (by omega), h'.usedOf_eq (by omega)]
  · intro k hk
    rw [h.virginOf_eq (by omega), h'.virginOf_eq (by omega)]
  · intro k j hk hj
    exact hbits k j (by omega) hj
  · intro hpos
    have heq : w.totalUsed = c.totalUsed := (h.mgr (by omega)).totalUsed
    have heq' : w'.totalUsed = c.totalUsed := (h'.mgr (by omega)).totalUsed
    rw [heq, heq']
  · intro hpos
    have heq : w.totalFree = c.totalFree := (h.mgr (by omega)).totalFree
    have heq' : w'.totalFree = c.totalFree := (h'.mgr (by omega)).totalFree
    rw [heq, heq']
  · intro i l
    by_cases hz : c.num = 0
    · unfold World.FreeList
      rw [if_pos (by omega), if_pos (by omega)]
    · have hlist := h.freeList_links ht (by omega) i
      have hlist' := h'.freeList_links ht (by omega) i
      unfold World.FreeList at hlist hlist' ⊢
      rw [if_neg (by omega)] at hlist hlist' ⊢
      rw [if_neg (by omega)]
      constructor
      · intro hl
        rw [hl.unique hlist']
        exact hlist
      · intro hl
        rw [hl.unique hlist]
        exact hlist'
  · intro p hp
    rw [hnum] at hp
    refine ⟨_, _, h.tracks.chkPtr2addr_ok hp, h'.tracks.chkPtr2addr_ok hp, ?_⟩
    intro j hj
    have hpos : 8 * chkOffset p.offset = 32 * p.offset := by
      simp only [chkOffset]
      omega
    rw [World.view_add, World.view_add, hpos]
    exact hbits p.chkNo _ hp hj

end Uncompressed

end ChunkMem
