import ChunkMem.Refinement.Access

/-!
# The pool refines the pool on contents

`ChkMemMgr::free` and `ChkMemMgr::alloc` go through chunk pointers,
link words and list heads in memory; on contents they work on lists of slots.
-/

namespace ChunkMem

open Foundation

/-- The machine represents the content, with allocations and index as in `w0`. -/
structure Tracks (env : Env) (L : Layout) (w0 w : World) (c : Content) : Prop where
  rep : Uncompressed env w c L
  index : w.index = w0.index
  sys : w.sys = w0.sys

namespace Uncompressed

theorem tracks {env : Env} {w : World} {c : Content} {L : Layout}
    (h : Uncompressed env w c L) : Tracks env L w w c :=
  ⟨h, rfl, rfl⟩

end Uncompressed

namespace Tracks

variable {env : Env} {L : Layout} {w0 w : World} {c : Content}

theorem step (h : Tracks env L w0 w c) {k : Nat} {m : Bits} {c' : Content}
    (hrep : Uncompressed env (w.setChunk k m) c' L) :
    Tracks env L w0 (w.setChunk k m) c' :=
  ⟨hrep, h.index, h.sys⟩

def mgrAddr (w : World) : Ptr := (w.index.chkAddr 0).add 16

/-!
## Chunk pointers
-/

theorem chkPtr2chk_ok (h : Tracks env L w0 w c) {p : ChkPtr} (hp : p.chkNo < c.num) :
    chkPtr2chk p w = .ok (w0.index.chkAddr p.chkNo, w) := by
  have hnum := h.rep.fits.num_le
  have hnull : ¬p.IsNull := by
    unfold ChkPtr.IsNull
    simp only [chkMaxChkNum]
    omega
  unfold chkPtr2chk
  rw [if_neg hnull, h.rep.readChkAddr_ok hp, h.index]

theorem chkPtr2addr_ok (h : Tracks env L w0 w c) {p : ChkPtr} (hp : p.chkNo < c.num) :
    chkPtr2addr p w = .ok ((w0.index.chkAddr p.chkNo).add (chkOffset p.offset), w) := by
  have hnum := h.rep.fits.num_le
  have hnull : ¬p.IsNull := by
    unfold ChkPtr.IsNull
    simp only [chkMaxChkNum]
    omega
  unfold chkPtr2addr
  rw [if_neg hnull, Exec.bind_of_ok (h.chkPtr2chk_ok hp)]
  rfl

theorem chkPtr2addrchk_ok (h : Tracks env L w0 w c) {p : ChkPtr} (hp : p.chkNo < c.num) :
    chkPtr2addrchk p w =
      .ok (⟨(w0.index.chkAddr p.chkNo).add (chkOffset p.offset),
        w0.index.chkAddr p.chkNo⟩, w) := by
  unfold chkPtr2addrchk
  rw [Exec.bind_of_ok (h.chkPtr2addr_ok hp), Exec.bind_of_ok (h.chkPtr2chk_ok hp)]
  rfl

theorem chkAddrchk2ptr_ok (h : Tracks env L w0 w c) {k u : Nat} (size : Nat) (hk : k < c.num)
    (hpos : 0 < u) (hu : u < (c.body k).virgin) :
    chkAddrchk2ptr ⟨(w0.index.chkAddr k).add (8 * u), w0.index.chkAddr k⟩ size w =
      .ok (⟨k, 2 * u, setChkSize size % 2 ^ 9⟩, w) := by
  have hv := h.rep.fits.virgin_le k hk
  have hcap := h.rep.fits.cap_le k hk
  have hadd : ((w0.index.chkAddr k).add (8 * u)).off - (w0.index.chkAddr k).off = 8 * u := by
    simp [Ptr.add]
  have hblk : ((w0.index.chkAddr k).add (8 * u)).blk = (w0.index.chkAddr k).blk := rfl
  have hoff : setChkOffset (8 * u) % 2 ^ 12 = 2 * u := by
    simp only [setChkOffset]
    omega
  have hin : (((w0.index.chkAddr k).add (8 * u)).off - (w0.index.chkAddr k).off) % 4 = 0 ∧
      (w0.index.chkAddr k).off < ((w0.index.chkAddr k).add (8 * u)).off ∧
      ((w0.index.chkAddr k).add (8 * u)).off - (w0.index.chkAddr k).off <
        chkSize (c.body k).virgin := by
    simp only [Ptr.add, chkSize]
    omega
  have hno := h.rep.load_no hk
  have hvirgin := h.rep.load_virgin hk
  rw [h.index] at hno hvirgin
  unfold chkAddrchk2ptr
  rw [Exec.bind_of_ok hno, Exec.bind_of_ok hvirgin,
    Exec.bind_of_ok (Exec.require_of hblk _ _), Exec.bind_of_ok (Exec.require_of hin _ _),
    Exec.pure_apply, hadd, hoff]

/-!
## Heads of the free lists
-/

theorem loadHead (h : Tracks env L w0 w c) (hpos : 0 < c.num) (i : Fin 3) :
    loadPtr (ChkMemMgr.freeList (mgrAddr w0) i) w = .ok (headLink (c.lists i), w) := by
  have hcap := h.rep.cap_pos hpos
  have hi := i.isLt
  have haddr : ChkMemMgr.freeList (mgrAddr w0) i =
      (w.index.chkAddr 0).add (16 + (12 + 4 * i)) := by
    rw [h.index]
    simp [ChkMemMgr.freeList, mgrAddr, Ptr.add, ChkMemMgr.freeListOff, Nat.add_assoc]
  rw [haddr, h.rep.loadPtr_ok hpos (by omega), ← (h.rep.mgr hpos).lists i]
  unfold mgrPos
  congr 3
  omega

theorem storeHead (h : Tracks env L w0 w c) (hpos : 0 < c.num) {i : Fin 3} {l : List Slot}
    {p : ChkPtr} (hp : p = headLink l) (h1 : p.chkNo < 2 ^ 11) (h2 : p.offset < 2 ^ 12)
    (h3 : p.size < 2 ^ 9) :
    exists w', storePtr (ChkMemMgr.freeList (mgrAddr w0) i) p w = .ok ((), w') ∧
      Tracks env L w0 w' (c.setList i l) := by
  have hcap := h.rep.cap_pos hpos
  have hi := i.isLt
  have haddr : ChkMemMgr.freeList (mgrAddr w0) i =
      (w.index.chkAddr 0).add (16 + (12 + 4 * i)) := by
    rw [h.index]
    simp [ChkMemMgr.freeList, mgrAddr, Ptr.add, ChkMemMgr.freeListOff, Nat.add_assoc]
  have hbit : 8 * (16 + (12 + 4 * (i : Nat))) = mgrPos + 96 + 32 * i := by
    unfold mgrPos
    omega
  refine ⟨_, ?_, h.step (h.rep.setHead hpos hp h1 h2 h3)⟩
  rw [haddr, h.rep.storePtr_ok hpos (by omega), hbit]

theorem isEmpty_ok (h : Tracks env L w0 w c) (hpos : 0 < c.num)
    (i : Fin 3) (hbound : forall s, s ∈ c.lists i -> s.no < c.num) :
    ChkSList.isEmpty (ChkMemMgr.freeList (mgrAddr w0) i) w =
      .ok (decide (c.lists i = []), w) := by
  have hnum := h.rep.fits.num_le
  unfold ChkSList.isEmpty
  rw [Exec.bind_of_ok (h.loadHead hpos i), Exec.pure_apply]
  congr 3
  cases hl : c.lists i with
  | nil =>
      simp [headLink, chkNull, ChkPtr.IsNull]
  | cons s rest =>
      have hs := hbound s (by rw [hl]; exact List.mem_cons_self)
      simp only [headLink, Slot.link, ChkPtr.IsNull, chkMaxChkNum, reduceCtorEq]
      have hne : ¬s.no = 2 ^ 11 - 1 := by omega
      exact eq_false hne

theorem loadFreeSize_ok (h : Tracks env L w0 w c) (hpos : 0 < c.num) :
    ChkMemMgr.loadFreeSize (mgrAddr w0) w = .ok (env.freeSize, w) := by
  have haddr : mgrAddr w0 = (w.index.chkAddr 0).add 16 := by
    rw [h.index]
    rfl
  have hm := h.rep.mgr hpos
  unfold ChkMemMgr.loadFreeSize
  rw [haddr,
    Exec.bind_of_ok (h.rep.load_mgr hpos ChkMemMgr.free0 (by simp [ChkMemMgr.free0])),
    Exec.bind_of_ok (h.rep.load_mgr hpos ChkMemMgr.free1 (by simp [ChkMemMgr.free1])),
    Exec.bind_of_ok (h.rep.load_mgr hpos ChkMemMgr.free2 (by simp [ChkMemMgr.free2])),
    Exec.pure_apply]
  congr 2
  funext i
  match i with
  | 0 => exact hm.free0
  | 1 => exact hm.free1
  | 2 => exact hm.free2

/-!
## Changes of user memory
-/

theorem setUser (h : Tracks env L w0 w c) {k : Nat} (hk : k < c.num) {m b : Bits}
    (lo n : Nat) (hlo : 64 * reserved k ≤ lo) (hn : lo + n ≤ 8192 * L.cap k)
    (hm : forall j, j < lo ∨ lo + n ≤ j -> m j = w.chunkBits k j)
    (hb : forall j, j < lo ∨ lo + n ≤ j -> b j = (c.body k).bits j)
    (hmb : forall j, lo ≤ j -> j < lo + n -> m j = b j) :
    Tracks env L w0 (w.setChunk k m) (c.setBits k b) :=
  h.step (h.rep.setUser hk lo n hlo hn hm hb hmb)

theorem clear (h : Tracks env L w0 w c) {k u n : Nat} (hk : k < c.num)
    (hlo : reserved k ≤ u) (hhi : u + n ≤ (c.body k).virgin) :
    exists w', bzero ((w0.index.chkAddr k).add (8 * u)) (8 * n) w = .ok ((), w') ∧
      Tracks env L w0 w'
        (c.setBits k ((c.body k).bits.clear (64 * u) (64 * n))) := by
  have hv := h.rep.fits.virgin_le k hk
  refine ⟨_, ?_, h.setUser (m := (w.chunkBits k).clear (8 * (8 * u)) (8 * (8 * n)))
    hk (64 * u) (64 * n) (by omega) (by omega) ?_ ?_ ?_⟩
  · rw [← h.index, h.rep.bzero_ok hk (by omega)]
  · intro j hj
    exact Bits.clear_outside (by omega)
  · intro j hj
    exact Bits.clear_outside (by omega)
  · intro j hj1 hj2
    rw [Bits.clear_inside (by omega) (by omega), Bits.clear_inside (by omega) (by omega)]

theorem link (h : Tracks env L w0 w c) {k u : Nat} (hk : k < c.num)
    (hlo : reserved k ≤ u) (hhi : u < (c.body k).virgin) (p : ChkPtr) :
    exists w', storePtr ((w0.index.chkAddr k).add (8 * u)) p w = .ok ((), w') ∧
      Tracks env L w0 w' (c.setBits k ((c.body k).bits.writePtr (64 * u) p)) := by
  have hv := h.rep.fits.virgin_le k hk
  refine ⟨_, ?_, h.setUser (m := (w.chunkBits k).writePtr (8 * (8 * u)) p)
    hk (64 * u) 32 (by omega) (by omega) ?_ ?_ ?_⟩
  · rw [← h.index, h.rep.storePtr_ok hk (by omega)]
  · intro j hj
    exact Bits.writePtr_outside (by omega)
  · intro j hj
    exact Bits.writePtr_outside (by omega)
  · intro j hj1 hj2
    rw [show 8 * (8 * u) = 64 * u by omega]
    exact Bits.writePtr_inside _ _ hj1 (by omega)

theorem unmark (h : Tracks env L w0 w c) {k u : Nat} (hk : k < c.num)
    (hlo : reserved k ≤ u) (hhi : u < (c.body k).virgin) :
    exists w', setNull ((w0.index.chkAddr k).add (8 * u)) w = .ok ((), w') ∧
      Tracks env L w0 w'
        (c.setBits k ((c.body k).bits.write (64 * u) 11 chkMaxChkNum)) := by
  have hv := h.rep.fits.virgin_le k hk
  refine ⟨_, ?_, h.setUser (m := (w.chunkBits k).write (8 * (8 * u) + 0) 11 chkMaxChkNum)
    hk (64 * u) 11 (by omega) (by omega) ?_ ?_ ?_⟩
  · unfold setNull
    rw [← h.index, h.rep.store_ok hk (by simp only; omega)]
  · intro j hj
    exact Bits.write_outside (by omega)
  · intro j hj
    exact Bits.write_outside (by omega)
  · intro j hj1 hj2
    rw [show 8 * (8 * u) + 0 = 64 * u by omega, Bits.write_inside hj1 hj2,
      Bits.write_inside hj1 hj2]

theorem loadLink (h : Tracks env L w0 w c) {k u : Nat} (hk : k < c.num)
    (hlo : reserved k ≤ u) (hhi : u < (c.body k).virgin) :
    loadPtr ((w0.index.chkAddr k).add (8 * u)) w =
      .ok ((c.body k).bits.readPtr (64 * u), w) := by
  have hv := h.rep.fits.virgin_le k hk
  rw [← h.index, h.rep.loadPtr_ok hk (by omega)]
  congr 2
  apply Bits.readPtr_congr
  intro j hj
  rw [show 8 * (8 * u) = 64 * u by omega]
  have hreach := env.le_reach (h.rep.fits.cap_le k hk)
  exact (h.rep.image k hk).data _ (by omega) (by omega)

/-!
## Handing blocks to the pool
-/

theorem push (h : Tracks env L w0 w c) {s : Slot} (len : Nat) (i : Fin 3)
    (hk : s.no < c.num) (hlo : reserved s.no ≤ s.off)
    (hhi : s.off + len ≤ (c.body s.no).virgin) (hlt : s.off < (c.body s.no).virgin) :
    exists w' w'', bzero ((w0.index.chkAddr s.no).add (8 * s.off)) (8 * len) w =
        .ok ((), w') ∧
      ChkSList.push ⟨(w0.index.chkAddr s.no).add (8 * s.off), w0.index.chkAddr s.no⟩
        (ChkMemMgr.freeList (mgrAddr w0) i) w' = .ok ((), w'') ∧
      Tracks env L w0 w'' (c.push i s len) := by
  have hpos : 0 < c.num := by omega
  have hnum := h.rep.fits.num_le
  have hv := h.rep.fits.virgin_le s.no hk
  have hcap := h.rep.fits.cap_le s.no hk
  have hr := Content.reserved_ge s.no
  rcases h.clear hk hlo hhi with ⟨w₁, hbzero, h₁⟩
  have hm₁ := Content.SameMarks.setBits c s.no
    ((c.body s.no).bits.clear (64 * s.off) (64 * len))
  have hlt₁ := hlt
  rw [← hm₁.virgin] at hlt₁
  rcases h₁.link hk hlo hlt₁ (headLink (c.lists i)) with ⟨w₂, hlink, h₂⟩
  rw [Content.setBits_bits, if_pos rfl, Content.setBits_setBits] at h₂
  generalize hm : ((c.body s.no).bits.clear (64 * s.off) (64 * len)).writePtr
    (64 * s.off) (headLink (c.lists i)) = m at h₂
  have hlt₂ := hlt
  rw [← (Content.SameMarks.setBits c s.no m).virgin] at hlt₂
  have hptr := h₂.chkAddrchk2ptr_ok 0 hk (by omega) hlt₂
  rcases h₂.storeHead hpos (i := i) (l := s :: c.lists i) (p := s.link) rfl
    (by simp only [Slot.link]; omega) (by simp only [Slot.link]; omega)
    (by simp only [Slot.link]; omega) with ⟨w₃, hhead, h₃⟩
  refine ⟨w₁, w₃, hbzero, ?_, ?_⟩
  · unfold ChkSList.push
    refine (Exec.bind_of_ok (h₁.loadHead hpos i)).trans ?_
    refine (Exec.bind_of_ok hlink).trans ?_
    exact (Exec.bind_of_ok hptr).trans hhead
  · unfold Content.push
    rw [hm]
    exact h₃

end Tracks

/-- The loop of `ChkMemMgr::free` refines the loop on contents, also when
it does not end. -/
theorem freeLoop_simulates {env : Env} {L : Layout} {w0 : World} :
    forall (fuel : Nat) (s : Slot) (left : Nat) (p : ChkPtr) (w : World) (c : Content),
      Tracks env L w0 w c -> p.chkNo = s.no -> p.offset = 2 * s.off % 2 ^ 12 ->
      s.no < c.num -> reserved s.no ≤ s.off -> s.off + left ≤ (c.body s.no).virgin ->
      0 < env.freeSize 0 ->
      Exec.Simulates (Tracks env L w0)
        (ChkMemMgr.freeLoop (Tracks.mgrAddr w0) env.freeSize fuel p left w)
        (Content.freeLoop env.freeSize fuel s left c) := by
  intro fuel
  induction fuel with
  | zero =>
      intro s left p w c _ _ _ _ _ _ _
      exact .error
  | succ fuel ih =>
      intro s left p w c h hno hoff hk hlo hhi hcls
      have hv := h.rep.fits.virgin_le s.no hk
      have hcap := h.rep.fits.cap_le s.no hk
      unfold ChkMemMgr.freeLoop Content.freeLoop
      rw [Exec.ite_apply, Exec.ite_apply]
      split
      · next hle =>
          have hpick := Content.pickClass_le hle
          have hsize := env.freeSize_lt (ChkMemMgr.pickClass env.freeSize left)
          generalize ChkMemMgr.pickClass env.freeSize left = i at *
          have hoff' : p.offset = 2 * s.off := by omega
          have haddr := h.chkPtr2addrchk_ok
            (p := { p with size := env.freeSize i % 2 ^ 9 }) (by simp only; omega)
          simp only [hno, hoff', chkOffset] at haddr
          rw [show 2 * s.off * 4 = 8 * s.off by omega] at haddr
          rcases h.push (env.freeSize i) i hk hlo (by omega) (by omega)
            with ⟨w₁, w₂, hbzero, hpush, h₂⟩
          have hmarks := Content.push_sameMarks c i s (env.freeSize i)
          have hfit : env.freeSize i % 2 ^ 9 * 8 = 8 * env.freeSize i := by
            omega
          simp only [hno, hoff', chkSize, chkSize2Offset]
          rw [Exec.bind_of_ok haddr]
          simp only [hfit]
          rw [Exec.bind_of_ok hbzero, Exec.bind_of_ok hpush,
            Exec.bind_of_ok (Exec.update_apply _ _)]
          apply ih
          · exact h₂
          · rfl
          · simp only
            omega
          · exact hk
          · simp only
            omega
          · rw [hmarks.virgin]
            simp only
            omega
          · exact hcls
      · exact .ok h

section Simulation

variable {env : Env} {L : Layout} {w0 w : World} {c : Content} {bs : List Block}

theorem poolFree_simulates (h : Tracks env L w0 w c) {s : Slot} {p : ChkPtr}
    (hno : p.chkNo = s.no) (hoff : p.offset = 2 * s.off % 2 ^ 12) (hk : s.no < c.num)
    (hlo : reserved s.no ≤ s.off) (hhi : s.off + p.size ≤ (c.body s.no).virgin) :
    Exec.Simulates (Tracks env L w0) (ChkMemMgr.free (Tracks.mgrAddr w0) p w)
      (Content.poolFree env.freeSize s p.size c) := by
  unfold ChkMemMgr.free Content.poolFree
  rw [Exec.bind_of_ok (h.loadFreeSize_ok (by omega))]
  by_cases hzero : env.freeSize 0 ≠ 0
  · rw [Exec.bind_of_ok (Exec.require_of hzero _ _),
      Exec.bind_of_ok (Exec.require_of hzero _ _)]
    exact freeLoop_simulates _ _ _ _ _ _ h hno hoff hk hlo hhi (by omega)
  · rw [Exec.bind_of_error (Exec.require_of_not hzero _ _),
      Exec.bind_of_error (Exec.require_of_not hzero _ _)]
    exact .error

/-!
## Taking blocks from the pool
-/

theorem Tracks.pop (h : Tracks env L w0 w c) (ht : Content.Tiling env.freeSize bs c)
    {i : Fin 3} {s : Slot} {rest : List Slot} (hl : c.lists i = s :: rest) :
    exists w', ChkSList.pop (ChkMemMgr.freeList (mgrAddr w0) i) w =
        .ok (⟨(w0.index.chkAddr s.no).add (8 * s.off), w0.index.chkAddr s.no⟩, w') ∧
      Tracks env L w0 w' (c.unlink i s rest) := by
  have hmem : s ∈ c.lists i := by
    rw [hl]
    exact List.mem_cons_self
  have hslot := ht.slot_bound hmem
  have hnum := h.rep.fits.num_le
  have hpos : 0 < c.num := by omega
  have hfits := ht.link_fits (i := i) (l := rest) fun t ht' => by
    rw [hl]
    exact List.mem_cons_of_mem _ ht'
  have hchain := ht.chain i
  rw [hl] at hchain
  have hhead := h.loadHead hpos i
  rw [hl] at hhead
  have haddr := h.chkPtr2addr_ok (p := s.link) hslot.2.1
  have hoff : chkOffset s.link.offset = 8 * s.off := by
    simp only [chkOffset, Slot.link]
    omega
  rw [hoff] at haddr
  have hchk := h.chkPtr2chk_ok (p := s.link) hslot.2.1
  have hlink := h.loadLink hslot.2.1 hslot.2.2.1 (by omega)
  rw [hchain.1] at hlink
  rcases h.storeHead hpos (i := i) (l := rest) rfl hfits.1 hfits.2.1 hfits.2.2
    with ⟨w₁, hstore, h₁⟩
  rcases h₁.unmark (k := s.no) (u := s.off) hslot.2.1 hslot.2.2.1
    (by simp only [Content.setList_body]; omega) with ⟨w₂, hnull, h₂⟩
  have hnotnull : ¬(headLink (s :: rest)).IsNull := by
    unfold ChkPtr.IsNull
    simp only [headLink, Slot.link, chkMaxChkNum]
    omega
  have herase : ChkSList.eraseNode (ChkMemMgr.freeList (mgrAddr w0) i)
      ((w0.index.chkAddr s.no).add (8 * s.off)) w = .ok ((), w₂) := by
    unfold ChkSList.eraseNode
    refine (Exec.bind_of_ok hlink).trans ?_
    exact (Exec.bind_of_ok hstore).trans hnull
  refine ⟨w₂, ?_, h₂⟩
  unfold ChkSList.pop
  rw [Exec.bind_of_ok hhead, if_neg hnotnull]
  refine (Exec.bind_of_ok haddr).trans ?_
  refine (Exec.bind_of_ok hchk).trans ?_
  exact (Exec.bind_of_ok herase).trans rfl

theorem wrapInt_of_lt {x : Int} (h0 : 0 ≤ x) (h1 : x < 2 ^ 31) : wrapInt x = x := by
  unfold wrapInt
  omega

theorem toSizeT_ofNat {n : Nat} (h : n < 2 ^ 64) : toSizeT (n : Int) = n := by
  unfold toSizeT
  omega

/-- The body of the loop of `ChkMemMgr::alloc` refines taking a block. -/
theorem takeFrom_simulates (h : Tracks env L w0 w c)
    (ht : Content.Tiling env.freeSize bs c) {i : Fin 3} {len : Nat}
    (hne : c.lists i ≠ []) (hle : len ≤ env.freeSize i) :
    Exec.Simulates (Tracks env L w0)
      (ChkMemMgr.takeFrom (Tracks.mgrAddr w0) env.freeSize len i w)
      (Content.poolTake env.freeSize i len c) := by
  have hsize := env.freeSize_lt i
  cases hl : c.lists i with
  | nil =>
      exact absurd hl hne
  | cons s rest =>
      have hmem : s ∈ c.lists i := by
        rw [hl]
        exact List.mem_cons_self
      have hslot := ht.slot_bound hmem
      have hr := Content.reserved_ge s.no
      have hv := ht.virgin_le s.no hslot.2.1
      have hmarks := Content.unlink_sameMarks c i s rest
      rcases h.pop ht hl with ⟨w₁, hpop, h₁⟩
      have hlt : s.off < ((c.unlink i s rest).body s.no).virgin := by
        rw [hmarks.virgin]
        omega
      have hbytes : toSizeT (wrapInt ((len : Int) * 8)) = len * 8 := by
        rw [wrapInt_of_lt (by omega) (by omega)]
        exact toSizeT_ofNat (n := len * 8) (by omega)
      have hptr := h₁.chkAddrchk2ptr_ok (len * 8) hslot.2.1 (by omega) hlt
      have hlen : setChkSize (len * 8) % 2 ^ 9 = len := by
        simp only [setChkSize]
        omega
      rw [hlen] at hptr
      unfold ChkMemMgr.takeFrom Content.poolTake
      rw [Exec.bind_of_ok hpop, hbytes, Exec.bind_of_ok hptr,
        Exec.bind_of_ok (Exec.state_apply _)]
      simp only [hl]
      rw [Exec.bind_of_ok (Exec.update_apply _ _)]
      by_cases hrest : len < env.freeSize i
      · have hpos : (env.freeSize i : Int) - len > 0 := by omega
        have hsz : toSizeT ((env.freeSize i : Int) - len) % 2 ^ 9 = env.freeSize i - len := by
          unfold toSizeT
          omega
        rw [if_pos hpos, if_pos hrest, hsz]
        refine Exec.Simulates.bind ?_ fun _ _ _ _ hst => .ok hst
        have hadd : (ChkPtr.add ⟨s.no, 2 * s.off, len⟩ (len * 8)).offset =
            2 * (s.off + len) % 2 ^ 12 := by
          simp only [ChkPtr.add, setChkOffset]
          omega
        apply poolFree_simulates h₁ (s := ⟨s.no, s.off + len⟩)
          (p := { (ChkPtr.add ⟨s.no, 2 * s.off, len⟩ (len * 8)) with
            size := env.freeSize i - len })
        · rfl
        · exact hadd
        · exact hslot.2.1
        · simp only
          omega
        · rw [hmarks.virgin]
          simp only
          omega
      · have hnot : ¬((env.freeSize i : Int) - len > 0) := by omega
        rw [if_neg hnot, if_neg hrest]
        exact .ok h₁

theorem allocLoop_simulates (h : Tracks env L w0 w c)
    (ht : Content.Tiling env.freeSize bs c) (hpos : 0 < c.num) (len : Nat) :
    forall l : List (Fin 3), Exec.Simulates (Tracks env L w0)
      (ChkMemMgr.allocLoop (Tracks.mgrAddr w0) env.freeSize len l w)
      ((match l.find? fun i => decide (len ≤ env.freeSize i ∧ c.lists i ≠ []) with
        | none => pure chkNull
        | some i => Content.poolTake env.freeSize i len : Exec Content Fault ChkPtr) c) := by
  intro l
  induction l with
  | nil =>
      exact .ok h
  | cons i rest ih =>
      unfold ChkMemMgr.allocLoop
      rw [Exec.bind_of_ok (h.isEmpty_ok hpos i fun s hs => (ht.slot_bound hs).2.1)]
      by_cases hfit : len ≤ env.freeSize i ∧ c.lists i ≠ []
      · have hcond : (len : Int) ≤ env.freeSize i ∧ decide (c.lists i = []) = false :=
          ⟨by omega, decide_eq_false hfit.2⟩
        rw [if_pos hcond, List.find?_cons_of_pos (by simpa using hfit)]
        exact takeFrom_simulates h ht hfit.2 hfit.1
      · have hcond : ¬((len : Int) ≤ env.freeSize i ∧ decide (c.lists i = []) = false) := by
          rintro ⟨hle, hne⟩
          exact hfit ⟨by omega, of_decide_eq_false hne⟩
        rw [if_neg hcond, List.find?_cons_of_neg (by simpa using hfit)]
        exact ih

theorem poolAlloc_simulates (h : Tracks env L w0 w c)
    (ht : Content.Tiling env.freeSize bs c) (hpos : 0 < c.num) (len : Nat) :
    Exec.Simulates (Tracks env L w0)
      (ChkMemMgr.alloc (Tracks.mgrAddr w0) ((8 * len : Nat) : Int) w)
      (Content.poolAlloc env.freeSize len c) := by
  have hlen : ((8 * len : Nat) : Int) / 8 = len := by omega
  unfold ChkMemMgr.alloc Content.poolAlloc
  rw [Exec.bind_of_ok (h.loadFreeSize_ok hpos), hlen, Exec.bind_of_ok (Exec.state_apply _)]
  exact allocLoop_simulates h ht hpos len [0, 1, 2]

end Simulation

end ChunkMem
