import ChunkMem.Refinement.Pool

/-!
# Blocks and counters

Bumping and rolling back the virgin mark, the counters, and
`ChkIndex::free` on an index that is not compressed.
-/

namespace ChunkMem

open Foundation

theorem ChkIndex.uncompress_open {env : Env} {w : World} (h : w.index.compressed = false) :
    ChkIndex.uncompress env w = .ok (0, w) := by
  unfold ChkIndex.uncompress
  rw [Exec.bind_of_ok (getIndex_apply w), if_pos h]
  rfl

namespace Tracks

variable {env : Env} {L : Layout} {w0 w : World} {c : Content}

/-!
## Counters of the memory manager
-/

theorem memMgr_ok (h : Tracks env L w0 w c) (hpos : 0 < c.num) :
    ChkIndex.memMgr w = .ok (mgrAddr w0, w) := by
  rw [h.rep.memMgr_ok hpos, h.index]
  rfl

theorem loadMgr (h : Tracks env L w0 w c) (hpos : 0 < c.num) (f : Field)
    (hf : f.pos + f.width ≤ 192) :
    load (mgrAddr w0) f w = .ok ((w.chunkBits 0).read (mgrPos + f.pos) f.width, w) := by
  unfold mgrAddr
  rw [← h.index, h.rep.load_mgr hpos f hf]

theorem storeMgr (h : Tracks env L w0 w c) (hpos : 0 < c.num) (f : Field)
    (hf : f.pos + f.width ≤ 192) (v : Nat) :
    store (mgrAddr w0) f v w = .ok ((), w.setChunk 0
      ((w.chunkBits 0).write (mgrPos + f.pos) f.width (v % 2 ^ f.width))) := by
  have hcap := h.rep.cap_pos hpos
  unfold mgrAddr
  rw [← h.index, h.rep.store_ok hpos (by omega), ← Bits.write_mod]
  rfl

theorem changeMgr (h : Tracks env L w0 w c) (hpos : 0 < c.num) (f : Field)
    (hf : f.pos + f.width ≤ 192) (g : Nat -> Nat) {c' : Content}
    (hrep : Uncompressed env (w.setChunk 0 ((w.chunkBits 0).write (mgrPos + f.pos) f.width
      (g ((w.chunkBits 0).read (mgrPos + f.pos) f.width) % 2 ^ f.width))) c' L) :
    exists w', (do
        let mgr <- ChkIndex.memMgr
        let v <- load mgr f
        store mgr f (g v) : M Unit) w = .ok ((), w') ∧ Tracks env L w0 w' c' := by
  refine ⟨_, ?_, h.step hrep⟩
  rw [Exec.bind_of_ok (h.memMgr_ok hpos), Exec.bind_of_ok (h.loadMgr hpos f hf),
    h.storeMgr hpos f hf]

theorem addFree (h : Tracks env L w0 w c) (hpos : 0 < c.num) {n : Nat}
    (hn : c.totalFree + n < 2 ^ 32) :
    exists w', ChkIndex.addMgr ChkMemMgr.totalFree n w = .ok ((), w') ∧
      Tracks env L w0 w' (c.addFree n) := by
  apply h.changeMgr hpos ChkMemMgr.totalFree (by decide) (fun v => v + n)
  have hv := (h.rep.mgr hpos).totalFree
  have hset := h.rep.setTotalFree hpos hn
  simp only [ChkMemMgr.totalFree, hv, Nat.mod_eq_of_lt hn]
  exact hset

theorem subFree (h : Tracks env L w0 w c) (hpos : 0 < c.num) {n : Nat}
    (hn : n ≤ c.totalFree) (hlt : c.totalFree < 2 ^ 32) :
    exists w', ChkIndex.subMgr ChkMemMgr.totalFree n w = .ok ((), w') ∧
      Tracks env L w0 w' (c.subFree n) := by
  apply h.changeMgr hpos ChkMemMgr.totalFree (by decide) (fun v => v + 2 ^ 32 - n)
  have hv := (h.rep.mgr hpos).totalFree
  have hset := h.rep.setTotalFree hpos (v := c.totalFree - n) (by omega)
  have hmod : (c.totalFree + 2 ^ 32 - n) % 2 ^ 32 = c.totalFree - n := by omega
  simp only [ChkMemMgr.totalFree, hv, hmod]
  exact hset

theorem addUsed (h : Tracks env L w0 w c) (hpos : 0 < c.num) {n : Nat}
    (hn : c.totalUsed + n < 2 ^ 32) :
    exists w', ChkIndex.addMgr ChkMemMgr.totalUsed n w = .ok ((), w') ∧
      Tracks env L w0 w' { c with totalUsed := c.totalUsed + n } := by
  apply h.changeMgr hpos ChkMemMgr.totalUsed (by decide) (fun v => v + n)
  have hv := (h.rep.mgr hpos).totalUsed
  have hset := h.rep.setTotalUsed hpos hn
  simp only [ChkMemMgr.totalUsed, Nat.add_zero, hv, Nat.mod_eq_of_lt hn]
  exact hset

theorem subUsed (h : Tracks env L w0 w c) (hpos : 0 < c.num) {n : Nat}
    (hn : n ≤ c.totalUsed) (hlt : c.totalUsed < 2 ^ 32) :
    exists w', ChkIndex.subMgr ChkMemMgr.totalUsed n w = .ok ((), w') ∧
      Tracks env L w0 w' { c with totalUsed := c.totalUsed - n } := by
  apply h.changeMgr hpos ChkMemMgr.totalUsed (by decide) (fun v => v + 2 ^ 32 - n)
  have hv := (h.rep.mgr hpos).totalUsed
  have hset := h.rep.setTotalUsed hpos (v := c.totalUsed - n) (by omega)
  have hmod : (c.totalUsed + 2 ^ 32 - n) % 2 ^ 32 = c.totalUsed - n := by omega
  simp only [ChkMemMgr.totalUsed, Nat.add_zero, hv, hmod]
  exact hset

/-!
## Header fields
-/

theorem loadUsed (h : Tracks env L w0 w c) {k : Nat} (hk : k < c.num) :
    load (w0.index.chkAddr k) ChkMetadata.used w = .ok ((c.body k).used, w) := by
  rw [← h.index]
  exact h.rep.load_used hk

theorem loadVirgin (h : Tracks env L w0 w c) {k : Nat} (hk : k < c.num) :
    load (w0.index.chkAddr k) ChkMetadata.virgin w = .ok ((c.body k).virgin, w) := by
  rw [← h.index]
  exact h.rep.load_virgin hk

theorem loadNo (h : Tracks env L w0 w c) {k : Nat} (hk : k < c.num) :
    load (w0.index.chkAddr k) ChkMetadata.no w = .ok (k, w) := by
  rw [← h.index]
  exact h.rep.load_no hk

theorem loadCapacity (h : Tracks env L w0 w c) {k : Nat} (hk : k < c.num) :
    load (w0.index.chkAddr k) ChkMetadata.capacity w = .ok (L.cap k, w) := by
  rw [← h.index]
  exact h.rep.load_capacity hk

theorem capacityBytes_ok (h : Tracks env L w0 w c) {k : Nat} (hk : k < c.num) :
    ChkMetadata.capacityBytes (w0.index.chkAddr k) w = .ok (L.cap k * 1024, w) := by
  rw [← h.index]
  exact h.rep.capacityBytes_ok hk

theorem storeUsed (h : Tracks env L w0 w c) {k v u : Nat} (hk : k < c.num)
    (hv : v % 2 ^ 12 = u) :
    exists w', store (w0.index.chkAddr k) ChkMetadata.used v w = .ok ((), w') ∧
      Tracks env L w0 w' (c.setUsed k u) := by
  have hcap := h.rep.cap_pos hk
  subst hv
  refine ⟨_, ?_, h.step (h.rep.setUsed hk (Nat.mod_lt _ (by decide)))⟩
  rw [← Bits.write_mod, ← h.index]
  exact h.rep.store_ok (o := 0) (f := ChkMetadata.used) hk
    (by simp only [ChkMetadata.used]; omega) v

theorem storeVirgin (h : Tracks env L w0 w c) {k v : Nat} (hk : k < c.num)
    (hv : v ≤ 128 * L.cap k) :
    exists w', store (w0.index.chkAddr k) ChkMetadata.virgin v w = .ok ((), w') ∧
      Tracks env L w0 w' (c.setVirgin k v) := by
  have hcap := h.rep.cap_pos hk
  refine ⟨_, ?_, h.step (h.rep.setVirgin hk hv)⟩
  rw [← h.index]
  exact h.rep.store_ok (o := 0) (f := ChkMetadata.virgin) hk
    (by simp only [ChkMetadata.virgin]; omega) v

theorem countUsed (h : Tracks env L w0 w c) {p : ChkPtr} (hk : p.chkNo < c.num)
    (hused : (c.body p.chkNo).used + p.size < 2 ^ 12)
    (htotal : c.totalUsed + p.size < 2 ^ 32) :
    exists w', ChkIndex.countUsed (w0.index.chkAddr p.chkNo) p w = .ok (p, w') ∧
      Tracks env L w0 w' (c.countUsed p.chkNo p.size) := by
  rcases h.storeUsed hk (Nat.mod_eq_of_lt hused) with ⟨w₁, hstore, h₁⟩
  rcases h₁.addUsed (n := p.size) (by simp only [Content.setUsed, Content.setBody_num]; omega)
    htotal with ⟨w₂, hadd, h₂⟩
  refine ⟨w₂, ?_, h₂⟩
  unfold ChkIndex.countUsed
  rw [Exec.bind_of_ok (h.loadUsed hk), Exec.bind_of_ok hstore, Exec.bind_of_ok hadd]
  rfl

/-!
## The virgin mark
-/

theorem chkAlignDef_mul {n : Nat} (h : n < 2 ^ 32) : chkAlignDef (8 * n) = 8 * n := by
  unfold chkAlignDef
  omega

theorem bump (h : Tracks env L w0 w c) {k n : Nat} (hk : k < c.num) (hpos : 0 < n)
    (hlen : n ≤ 511) (hfits : (c.body k).virgin + n ≤ 128 * L.cap k) :
    exists w', ChkMetadata.alloc (w0.index.chkAddr k) (8 * n) w =
        .ok (blockPtr (c.bumpBlock k n), w') ∧
      Tracks env L w0 w' (c.bump k n) := by
  have hcap := h.rep.fits.cap_le k hk
  rcases h.storeVirgin hk hfits with ⟨w₁, hstore, h₁⟩
  refine ⟨w₁, ?_, h₁⟩
  unfold ChkMetadata.alloc
  rw [chkAlignDef_mul (by omega), if_neg (by simp only [chkMaxContinusLen, chkSize]; omega),
    Exec.bind_of_ok (h.loadVirgin hk), Exec.bind_of_ok (h.loadCapacity hk),
    if_neg (by simp only [chkSize, chkCapacity]; omega), Exec.bind_of_ok (h.loadNo hk)]
  have hptr : (⟨k, chkSize2Offset (c.body k).virgin % 2 ^ 12,
      setChkSize (8 * n) % 2 ^ 9⟩ : ChkPtr) = blockPtr (c.bumpBlock k n) := by
    simp only [blockPtr, Content.bumpBlock, ChkPtr.mk.injEq, chkSize2Offset, setChkSize,
      true_and]
    omega
  rw [hptr]
  exact (Exec.bind_of_ok hstore).trans rfl

theorem bump_full (h : Tracks env L w0 w c) {k len : Nat} (hk : k < c.num)
    (hlen : len ≤ 511) (hfull : ¬(c.body k).virgin + len ≤ 128 * L.cap k) :
    ChkMetadata.alloc (w0.index.chkAddr k) (8 * len) w = .ok (chkNull, w) := by
  unfold ChkMetadata.alloc
  rw [chkAlignDef_mul (by omega), if_neg (by simp only [chkMaxContinusLen, chkSize]; omega),
    Exec.bind_of_ok (h.loadVirgin hk), Exec.bind_of_ok (h.loadCapacity hk),
    if_pos (by simp only [chkSize, chkCapacity]; omega)]
  rfl

/-- `ChkMetadata::free`: only the topmost block goes back to the chunk. -/
theorem rollback (h : Tracks env L w0 w c) {b : Block} (hk : b.space < c.num)
    (hpos : 0 < b.len) :
    exists w', ChkMetadata.free (w0.index.chkAddr b.space) (blockPtr b) w =
        .ok (decide (b.start + b.len = (c.body b.space).virgin), w') ∧
      Tracks env L w0 w' (if b.start + b.len = (c.body b.space).virgin then
        c.setVirgin b.space ((c.body b.space).virgin - b.len) else c) := by
  have hv := h.rep.fits.virgin_le b.space hk
  have hreq : (blockPtr b).chkNo = b.space ∧ (blockPtr b).size ≠ 0 :=
    ⟨rfl, by simp only [blockPtr]; omega⟩
  have hoff : chkOffset2Size (blockPtr b).offset + (blockPtr b).size = b.start + b.len := by
    simp only [chkOffset2Size, blockPtr]
    omega
  unfold ChkMetadata.free
  rw [Exec.bind_of_ok (h.loadNo hk), Exec.bind_of_ok (Exec.require_of hreq _ _),
    Exec.bind_of_ok (h.loadVirgin hk), hoff]
  by_cases htop : b.start + b.len = (c.body b.space).virgin
  · rcases h.storeVirgin (v := (c.body b.space).virgin - b.len) hk (by omega)
      with ⟨w₁, hstore, h₁⟩
    rw [if_pos htop, if_pos htop, decide_eq_true htop]
    exact ⟨w₁, (Exec.bind_of_ok hstore).trans rfl, h₁⟩
  · rw [if_neg htop, if_neg htop, decide_eq_false htop]
    exact ⟨w, rfl, h⟩

/-!
## Releasing a block
-/

theorem countFreed (h : Tracks env L w0 w c) {k n : Nat} (hk : k < c.num)
    (hused : n ≤ (c.body k).used) (hlt : (c.body k).used < 2 ^ 12)
    (htotal : n ≤ c.totalUsed) (htlt : c.totalUsed < 2 ^ 32) :
    exists w', (do
        let u <- load (w0.index.chkAddr k) ChkMetadata.used
        store (w0.index.chkAddr k) ChkMetadata.used (u + 2 ^ 12 - n)
        ChkIndex.subMgr ChkMemMgr.totalUsed n : M Unit) w = .ok ((), w') ∧
      Tracks env L w0 w' (c.countFreed k n) := by
  rcases h.storeUsed (v := (c.body k).used + 2 ^ 12 - n) (u := (c.body k).used - n) hk
    (by omega) with ⟨w₁, hstore, h₁⟩
  rcases h₁.subUsed (n := n) (by simp only [Content.setUsed, Content.setBody_num]; omega)
    htotal htlt with ⟨w₂, hsub, h₂⟩
  refine ⟨w₂, ?_, h₂⟩
  rw [Exec.bind_of_ok (h.loadUsed hk), Exec.bind_of_ok hstore]
  exact hsub

theorem uncompress_ok (h : Tracks env L w0 w c) : ChkIndex.uncompress env w = .ok (0, w) :=
  ChkIndex.uncompress_open h.rep.flag

theorem free_simulates {bs : List Block} (h : Tracks env L w0 w c)
    (hwf : Content.WF env.freeSize bs c) {b : Block} (hb : b ∈ bs) (hpos : 0 < b.len) :
    Exec.Simulates (Tracks env L w0) (ChkIndex.free env (blockPtr b) 0 w)
      (Content.free env.freeSize b c) := by
  have hbound := hwf.tiling.block_bound hb hpos
  have hv := hwf.tiling.virgin_le b.space hbound.1
  have hnum : 0 < c.num := by omega
  have htotals := hwf.totals_le
  have hle := hwf.used_le hbound.1
  have hused := hwf.accounts.used_erase hb hbound.1
  rw [Extent.lenIn_cons, if_pos rfl] at hused
  have htotal := hwf.accounts.totalUsed_eq
  have hsum := le_sumTo (fun k => (c.body k).used) hbound.1
  have haddr := h.chkPtr2addr_ok (p := blockPtr b) hbound.1
  have hoff : chkOffset (2 * b.start) = 8 * b.start := by
    simp only [chkOffset]
    omega
  rw [blockPtr_offset, blockPtr_chkNo, hoff] at haddr
  rcases h.clear (k := b.space) (u := b.start) (n := b.len) hbound.1 hbound.2.1 hbound.2.2
    with ⟨w₁, hbzero, h₁⟩
  have hmarks := Content.SameMarks.setBits c b.space
    ((c.body b.space).bits.clear (64 * b.start) (64 * b.len))
  have htiling := (Content.clear_tiling hwf.tiling hb).perm (List.perm_cons_erase hb)
  generalize hc₁ : c.setBits b.space
    ((c.body b.space).bits.clear (64 * b.start) (64 * b.len)) = c₁ at *
  have hchk := h₁.chkPtr2chk_ok (p := blockPtr b) (hmarks.num ▸ hbound.1)
  rw [blockPtr_chkNo] at hchk
  have hsize : chkSize b.len = 8 * b.len := by
    simp only [chkSize]
    omega
  have hk₁ : b.space < c₁.num := hmarks.num ▸ hbound.1
  rcases h₁.rollback (b := b) hk₁ hpos with ⟨w₂, hroll, h₂⟩
  -- the counters are changed in the same way on both paths
  have hcount : forall w' c', Tracks env L w0 w' c' -> c'.num = c.num ->
      (c'.body b.space).used = (c.body b.space).used -> c'.totalUsed = c.totalUsed ->
      exists w'', (do
        let u <- load (w0.index.chkAddr b.space) ChkMetadata.used
        store (w0.index.chkAddr b.space) ChkMetadata.used (u + 2 ^ 12 - b.len)
        ChkIndex.subMgr ChkMemMgr.totalUsed b.len : M Unit) w' = .ok ((), w'') ∧
      Tracks env L w0 w'' (c'.countFreed b.space b.len) := by
    intro w' c' h' hn hu ht
    apply h'.countFreed <;> omega
  unfold ChkIndex.free Content.free
  rw [Exec.bind_of_ok h.uncompress_ok, if_neg (by decide), if_neg (by decide)]
  simp only [blockPtr_size]
  rw [Exec.bind_of_ok haddr, hsize, Exec.bind_of_ok hbzero, Exec.bind_of_ok hchk,
    Exec.bind_of_ok hroll, Exec.bind_of_ok (Exec.update_apply _ _), hc₁,
    Exec.bind_of_ok (Exec.state_apply _)]
  by_cases htop : b.start + b.len = (c₁.body b.space).virgin
  · rw [if_pos htop] at h₂
    rcases hcount w₂ _ h₂ hmarks.num ((Content.setVirgin_used _ _ _ _).trans (hmarks.used _))
      hmarks.totalUsed with ⟨w₃, hrun, h₃⟩
    rw [decide_eq_true htop, if_neg (by decide), if_pos htop, hrun]
    exact .ok h₃
  · rw [if_neg htop] at h₂
    rw [decide_eq_false htop, if_pos rfl, if_neg htop]
    rcases h₂.addFree (n := b.len) (by omega) (by rw [hmarks.totalFree]; omega)
      with ⟨w₃, hadd, h₃⟩
    have hpool := poolFree_simulates h₃ (s := ⟨b.space, b.start⟩) (p := blockPtr b) rfl
      (by simp only [blockPtr_offset]; omega) hk₁ hbound.2.1
      (by
        show b.start + b.len ≤ (c₁.body b.space).virgin
        rw [hmarks.virgin]
        exact hbound.2.2)
    have hpooled := Content.poolFree_ensures ⟨b.space, b.start⟩ b.len
      (htiling.addFree b.len)
    rw [Exec.bind_of_ok hadd, Exec.bind_of_ok (h₃.memMgr_ok (by
      show 0 < c₁.num
      omega)), Exec.bind_of_ok (Exec.update_apply _ _)]
    refine Exec.Simulates.bind hpool ?_
    intro _ w₄ c₄ hc₄ h₄
    have hm := (hpooled.of_ok hc₄).2.marks
    rcases hcount w₄ c₄ h₄ (hm.num.trans hmarks.num)
      ((hm.used _).trans (hmarks.used _)) (hm.totalUsed.trans hmarks.totalUsed)
      with ⟨w₅, hrun, h₅⟩
    rw [hrun]
    exact .ok h₅

end Tracks

end ChunkMem
