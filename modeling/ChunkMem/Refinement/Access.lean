import ChunkMem.Index.Alloc
import ChunkMem.Refinement.Layout

/-!
# Loads and stores inside a chunk

Every access of the library goes through the address of a chunk and an offset
into it.  Such a load returns what the bits of the chunk say; such a store
replaces the bits of that chunk and of no other.
-/

namespace ChunkMem

open Foundation

namespace Uncompressed

variable {env : Env} {w : World} {c : Content} {L : Layout}

/-!
## Liveness
-/

theorem holds (h : Uncompressed env w c L) {k : Nat} (hk : k < c.num) : exists size,
    w.sys.allocs (w.index.chkAddr k).blk = some ⟨.chunk, size⟩ ∧
      1024 * L.base k + 1024 * L.cap k ≤ size :=
  h.place.holds h.fits.shared_pos (fun hm _ hk' => h.fits.own_le hm hk') hk

theorem inside (h : Uncompressed env w c L) {k o n : Nat} (hk : k < c.num)
    (hn : 8 * o + n ≤ 8192 * L.cap k) :
    w.sys.Inside ((w.index.chkAddr k).add o) n := by
  rcases h.holds hk with ⟨size, halloc, hsize⟩
  refine ⟨⟨.chunk, size⟩, halloc, ?_⟩
  have hoff := h.place.off_eq hk
  simp only [Ptr.add]
  omega

theorem chkAddr_ne_null (h : Uncompressed env w c L) {k : Nat} (hk : k < c.num) (o : Nat) :
    (w.index.chkAddr k).add o ≠ Ptr.null := by
  rcases h.holds hk with ⟨size, halloc, _⟩
  intro heq
  have hblk : (w.index.chkAddr k).blk = 0 := congrArg Ptr.blk heq
  rw [hblk, h.sane.null] at halloc
  cases halloc

theorem readChkAddr_ok (h : Uncompressed env w c L) {k : Nat} (hk : k < c.num) :
    readChkAddr k w = .ok (w.index.chkAddr k, w) := by
  have hsize := h.size
  exact readChkAddr_of (by omega)

/-!
## Loads and stores
-/

theorem load_ok (h : Uncompressed env w c L) {k o : Nat} {f : Field} (hk : k < c.num)
    (hf : 8 * o + (f.pos + f.width) ≤ 8192 * L.cap k) :
    load ((w.index.chkAddr k).add o) f w =
      .ok ((w.chunkBits k).read (8 * o + f.pos) f.width, w) :=
  load_at (h.inside hk hf)

theorem loadPtr_ok (h : Uncompressed env w c L) {k o : Nat} (hk : k < c.num)
    (hf : 8 * o + 32 ≤ 8192 * L.cap k) :
    loadPtr ((w.index.chkAddr k).add o) w =
      .ok ((w.chunkBits k).readPtr (8 * o), w) :=
  loadPtr_at (h.inside hk hf)

theorem loadBytes_ok (h : Uncompressed env w c L) {k o n : Nat} (hk : k < c.num)
    (hf : 8 * o + 8 * n ≤ 8192 * L.cap k) :
    loadBytes ((w.index.chkAddr k).add o) n w =
      .ok ((w.chunkBits k).bytes o n, w) :=
  loadBytes_at (h.inside hk hf)

theorem store_ok (h : Uncompressed env w c L) {k o : Nat} {f : Field} (hk : k < c.num)
    (hf : 8 * o + (f.pos + f.width) ≤ 8192 * L.cap k) (v : Nat) :
    store ((w.index.chkAddr k).add o) f v w =
      .ok ((), w.setChunk k ((w.chunkBits k).write (8 * o + f.pos) f.width v)) :=
  store_at (h.inside hk hf) v

theorem storePtr_ok (h : Uncompressed env w c L) {k o : Nat} (hk : k < c.num)
    (hf : 8 * o + 32 ≤ 8192 * L.cap k) (p : ChkPtr) :
    storePtr ((w.index.chkAddr k).add o) p w =
      .ok ((), w.setChunk k ((w.chunkBits k).writePtr (8 * o) p)) :=
  storePtr_at (h.inside hk hf) p

theorem bzero_ok (h : Uncompressed env w c L) {k o n : Nat} (hk : k < c.num)
    (hf : 8 * o + 8 * n ≤ 8192 * L.cap k) :
    bzero ((w.index.chkAddr k).add o) n w =
      .ok ((), w.setChunk k ((w.chunkBits k).clear (8 * o) (8 * n))) :=
  bzero_at (h.inside hk hf)

theorem storeBytes_ok (h : Uncompressed env w c L) {k o : Nat} {l : List Byte}
    (hk : k < c.num) (hf : 8 * o + 8 * l.length ≤ 8192 * L.cap k) :
    storeBytes ((w.index.chkAddr k).add o) l w =
      .ok ((), w.setChunk k ((w.chunkBits k).writeBytes o l)) :=
  storeBytes_at (h.inside hk hf)

/-!
## What a store does to the content
-/

/-- A chunk is replaced by an image of its new body; the chunks keep their
places.  In the first chunk the capacity total may change as well. -/
theorem setChunk_total (h : Uncompressed env w c L) {k t : Nat} (hk : k < c.num) {m : Bits}
    {c' : Content} (hin : forall j, 8192 * L.cap k ≤ j -> m j = w.chunkBits k j)
    (hnum : c'.num = c.num)
    (himage : ChunkImage (c'.body k) (L.cap k) k (env.reach (L.cap k)) m)
    (hown : m.read 75 16 = L.own k)
    (hmgr : k = 0 -> MgrImage env.freeSize c' m ∧
      m.read (mgrPos + 64) 16 = t)
    (hvirgin : (c'.body k).virgin ≤ 128 * L.cap k)
    (hbody : forall k', k' ≠ k -> c'.body k' = c.body k')
    (hrest : k ≠ 0 -> c'.totalUsed = c.totalUsed ∧ c'.totalFree = c.totalFree ∧
      c'.lists = c.lists ∧ t = L.total) :
    Uncompressed env (w.setChunk k m) c' (L.setTotal t) := by
  have hother : forall k', k' < c.num -> k' ≠ k -> forall j, j < env.reach (L.cap k') ->
      (w.setChunk k m).chunkBits k' j = w.chunkBits k' j :=
    fun k' hk' hne j hj => setChunk_chunkBits_other h.place h.fits.split hk hk' hne hin hj
  have hcap : forall k', k' < c.num -> 8192 ≤ env.reach (L.cap k') := by
    intro k' hk'
    have hone := h.fits.one_le k' hk'
    have hreach := env.le_reach (h.fits.cap_le k' hk')
    omega
  constructor
  · exact h.num.trans hnum.symm
  · exact h.flag
  · exact h.type
  · rw [hnum]
    exact h.size
  · exact h.size_le
  · exact h.sane
  · intro b n m' hb
    have hout := h.outer b n m' hb
    refine ⟨hout.1, ?_⟩
    rw [setChunk_bits_other]
    · exact hout.2
    · intro heq
      rcases h.holds hk with ⟨size, halloc, _⟩
      rw [← heq, hout.1] at halloc
      cases halloc
  · have hf := h.fits
    refine ⟨?_, ?_, ?_, ?_, ?_, hf.shared_pos, ?_, hf.split⟩
    · rw [hnum]
      exact hf.num_le
    · rw [hnum]
      exact hf.one_le
    · rw [hnum]
      exact hf.cap_le
    · intro k' hk'
      by_cases hne : k' = k
      · rw [hne]
        exact hvirgin
      · rw [hbody k' hne]
        exact hf.virgin_le k' (hnum ▸ hk')
    · rw [hnum]
      exact hf.first
    · rw [hnum]
      exact hf.shared_le
  · rw [hnum]
    exact ⟨h.place.addr, h.place.alloc, h.place.distinct, h.place.all⟩
  · intro k' hk'
    rw [hnum] at hk'
    by_cases hne : k' = k
    · subst hne
      rw [setChunk_chunkBits_self]
      exact himage
    · rw [hbody k' hne]
      have := hcap k' hk'
      exact (h.image k' hk').congr (by omega) (hother k' hk' hne)
  · intro k' hk'
    rw [hnum] at hk'
    by_cases hne : k' = k
    · subst hne
      rw [setChunk_chunkBits_self]
      exact hown
    · show _ = L.own k'
      rw [← h.own k' hk']
      have := hcap k' hk'
      exact Bits.read_congr fun i hi => hother k' hk' hne _ (by omega)
  · intro hpos
    rw [hnum] at hpos
    by_cases hz : k = 0
    · subst hz
      rw [setChunk_chunkBits_self]
      exact (hmgr rfl).1
    · have hr := hrest hz
      have := hcap 0 hpos
      apply (h.mgr hpos).congr hr.1 hr.2.1 hr.2.2.1
      intro j hj1 hj2
      unfold mgrPos at hj1 hj2
      exact hother 0 hpos (Ne.symm hz) _ (by omega)
  · intro hpos
    rw [hnum] at hpos
    by_cases hz : k = 0
    · subst hz
      rw [setChunk_chunkBits_self]
      exact (hmgr rfl).2
    · show _ = t
      rw [(hrest hz).2.2.2, ← h.total hpos]
      have := hcap 0 hpos
      unfold mgrPos
      exact Bits.read_congr fun i hi => hother 0 hpos (Ne.symm hz) _ (by omega)

theorem setChunk (h : Uncompressed env w c L) {k : Nat} (hk : k < c.num) {m : Bits}
    {c' : Content} (hin : forall j, 8192 * L.cap k ≤ j -> m j = w.chunkBits k j)
    (hnum : c'.num = c.num)
    (himage : ChunkImage (c'.body k) (L.cap k) k (env.reach (L.cap k)) m)
    (hown : m.read 75 16 = L.own k)
    (hmgr : k = 0 -> MgrImage env.freeSize c' m ∧
      m.read (mgrPos + 64) 16 = L.total)
    (hvirgin : (c'.body k).virgin ≤ 128 * L.cap k)
    (hbody : forall k', k' ≠ k -> c'.body k' = c.body k')
    (hrest : k ≠ 0 -> c'.totalUsed = c.totalUsed ∧ c'.totalFree = c.totalFree ∧
      c'.lists = c.lists) :
    Uncompressed env (w.setChunk k m) c' L :=
  h.setChunk_total (t := L.total) hk hin hnum himage hown hmgr hvirgin hbody fun hz =>
    ⟨(hrest hz).1, (hrest hz).2.1, (hrest hz).2.2, rfl⟩

theorem setUser (h : Uncompressed env w c L) {k : Nat} (hk : k < c.num) {m b : Bits}
    (lo n : Nat) (hlo : 64 * reserved k ≤ lo) (hn : lo + n ≤ 8192 * L.cap k)
    (hm : forall j, j < lo ∨ lo + n ≤ j -> m j = w.chunkBits k j)
    (hb : forall j, j < lo ∨ lo + n ≤ j -> b j = (c.body k).bits j)
    (hmb : forall j, lo ≤ j -> j < lo + n -> m j = b j) :
    Uncompressed env (w.setChunk k m) (c.setBits k b) L := by
  have hr := Content.reserved_ge k
  have himage := h.image k hk
  have hmarks := Content.SameMarks.setBits c k b
  apply h.setChunk hk
  · intro j hj
    exact hm j (by omega)
  · rfl
  · apply himage.user
    · intro j hj
      exact hm j (by omega)
    · exact hmarks.used k
    · exact hmarks.virgin k
    · intro j hj1 hj2
      rw [Content.setBits_bits, if_pos rfl]
      by_cases hj : lo ≤ j ∧ j < lo + n
      · exact hmb j hj.1 hj.2
      · rw [hm j (by omega), hb j (by omega)]
        exact himage.data j hj1 hj2
  · rw [← h.own k hk]
    exact Bits.read_congr fun i hi => hm _ (by omega)
  · intro hz
    subst hz
    have hr0 : reserved 0 = 5 := rfl
    refine ⟨(h.mgr hk).congr rfl rfl rfl ?_, ?_⟩
    · intro j _ hj2
      unfold mgrPos at hj2
      exact hm j (by omega)
    · rw [← h.total hk]
      unfold mgrPos
      exact Bits.read_congr fun i hi => hm _ (by omega)
  · rw [hmarks.virgin]
    exact h.fits.virgin_le k hk
  · intro k' hk'
    exact Content.setBody_other _ _ hk'
  · intro _
    exact ⟨rfl, rfl, rfl⟩

/-!
## Header fields and counters
-/

theorem cap_pos (h : Uncompressed env w c L) {k : Nat} (hk : k < c.num) :
    8192 ≤ 8192 * L.cap k := by
  have := h.fits.one_le k hk
  omega

theorem load_virgin (h : Uncompressed env w c L) {k : Nat} (hk : k < c.num) :
    load (w.index.chkAddr k) ChkMetadata.virgin w = .ok ((c.body k).virgin, w) := by
  have hcap := h.cap_pos hk
  rw [← (h.image k hk).virgin]
  exact h.load_ok (o := 0) (f := ChkMetadata.virgin) hk (by simp [ChkMetadata.virgin]; omega)

theorem load_used (h : Uncompressed env w c L) {k : Nat} (hk : k < c.num) :
    load (w.index.chkAddr k) ChkMetadata.used w = .ok ((c.body k).used, w) := by
  have hcap := h.cap_pos hk
  rw [← (h.image k hk).used]
  exact h.load_ok (o := 0) (f := ChkMetadata.used) hk (by simp [ChkMetadata.used]; omega)

theorem load_no (h : Uncompressed env w c L) {k : Nat} (hk : k < c.num) :
    load (w.index.chkAddr k) ChkMetadata.no w = .ok (k, w) := by
  have hcap := h.cap_pos hk
  have hno := (h.image k hk).no
  conv_rhs => rw [← hno]
  exact h.load_ok (o := 0) (f := ChkMetadata.no) hk (by simp [ChkMetadata.no]; omega)

theorem load_capacity (h : Uncompressed env w c L) {k : Nat} (hk : k < c.num) :
    load (w.index.chkAddr k) ChkMetadata.capacity w = .ok (L.cap k, w) := by
  have hcap := h.cap_pos hk
  rw [← (h.image k hk).capacity]
  exact h.load_ok (o := 0) (f := ChkMetadata.capacity) hk
    (by simp [ChkMetadata.capacity]; omega)

theorem load_allocCapacity (h : Uncompressed env w c L) {k : Nat} (hk : k < c.num) :
    load (w.index.chkAddr k) ChkMetadata.allocCapacity w = .ok (L.own k, w) := by
  have hcap := h.cap_pos hk
  rw [← h.own k hk]
  exact h.load_ok (o := 0) (f := ChkMetadata.allocCapacity) hk
    (by simp [ChkMetadata.allocCapacity]; omega)

theorem capacityBytes_ok (h : Uncompressed env w c L) {k : Nat} (hk : k < c.num) :
    ChkMetadata.capacityBytes (w.index.chkAddr k) w = .ok (L.cap k * 1024, w) := by
  unfold ChkMetadata.capacityBytes
  rw [Exec.bind_of_ok (h.load_capacity hk)]
  rfl

theorem canEnlarge_ok (h : Uncompressed env w c L) {k : Nat} (hk : k < c.num) :
    ChkMetadata.canEnlarge (w.index.chkAddr k) w =
      .ok (decide (L.own k ≠ 0 ∧ L.cap k < 16), w) := by
  unfold ChkMetadata.canEnlarge
  rw [Exec.bind_of_ok (h.load_allocCapacity hk), Exec.bind_of_ok (h.load_capacity hk),
    Exec.pure_apply]
  have heq : (L.own k ≠ 0 ∧ chkCapacity (L.cap k) < chkMaxChksize) <->
      (L.own k ≠ 0 ∧ L.cap k < 16) := by
    simp only [chkCapacity, chkMaxChksize]
    omega
  rw [decide_eq_decide.mpr heq]

theorem memMgr_ok (h : Uncompressed env w c L) (hpos : 0 < c.num) :
    ChkIndex.memMgr w = .ok ((w.index.chkAddr 0).add 16, w) := by
  have hnum := h.num
  unfold ChkIndex.memMgr
  rw [Exec.bind_of_ok (getIndex_apply w), if_neg (by omega),
    Exec.bind_of_ok (h.readChkAddr_ok hpos)]
  rfl

theorem load_mgr (h : Uncompressed env w c L) (hpos : 0 < c.num) (f : Field)
    (hf : f.pos + f.width ≤ 192) :
    load ((w.index.chkAddr 0).add 16) f w =
      .ok ((w.chunkBits 0).read (mgrPos + f.pos) f.width, w) := by
  have hcap := h.cap_pos hpos
  exact h.load_ok hpos (by omega)

theorem setHeader (h : Uncompressed env w c L) {k a n v : Nat} (hk : k < c.num) {b : Body}
    (ha : a + n ≤ 75)
    (himage : ChunkImage b (L.cap k) k (env.reach (L.cap k)) ((w.chunkBits k).write a n v))
    (hvirgin : b.virgin ≤ 128 * L.cap k) :
    Uncompressed env (w.setChunk k ((w.chunkBits k).write a n v)) (c.setBody k b) L := by
  have hcap := h.cap_pos hk
  apply h.setChunk hk
  · intro j hj
    exact Bits.write_outside (by omega)
  · rfl
  · rw [Content.setBody_self]
    exact himage
  · rw [Bits.read_write_disjoint (by omega)]
    exact h.own k hk
  · intro hz
    subst hz
    refine ⟨(h.mgr hk).congr rfl rfl rfl ?_, ?_⟩
    · intro j hj1 _
      unfold mgrPos at hj1
      exact Bits.write_outside (by omega)
    · rw [Bits.read_write_disjoint (by unfold mgrPos; omega)]
      exact h.total hk
  · rw [Content.setBody_self]
    exact hvirgin
  · intro k' hk'
    exact Content.setBody_other _ _ hk'
  · intro _
    exact ⟨rfl, rfl, rfl⟩

theorem setUsed (h : Uncompressed env w c L) {k u : Nat} (hk : k < c.num)
    (hu : u < 2 ^ 12) :
    Uncompressed env (w.setChunk k ((w.chunkBits k).write 40 12 u)) (c.setUsed k u) L :=
  h.setHeader hk (by omega) ((h.image k hk).setUsed hu) (h.fits.virgin_le k hk)

theorem setVirgin (h : Uncompressed env w c L) {k v : Nat} (hk : k < c.num)
    (hv : v ≤ 128 * L.cap k) :
    Uncompressed env (w.setChunk k ((w.chunkBits k).write 52 12 v)) (c.setVirgin k v) L := by
  have hcap := h.fits.cap_le k hk
  exact h.setHeader hk (by omega) ((h.image k hk).setVirgin (by omega)) hv

theorem setMgr (h : Uncompressed env w c L) (hpos : 0 < c.num) {m : Bits} {c' : Content}
    (hm : forall j, j < mgrPos ∨ mgrPos + 192 ≤ j -> m j = w.chunkBits 0 j)
    (hmgr : MgrImage env.freeSize c' m)
    (htotal : m.read (mgrPos + 64) 16 = (w.chunkBits 0).read (mgrPos + 64) 16)
    (hnum : c'.num = c.num) (hbody : c'.body = c.body) :
    Uncompressed env (w.setChunk 0 m) c' L := by
  have hcap := h.cap_pos hpos
  have hpos' : mgrPos = 128 := rfl
  apply h.setChunk hpos
  · intro j hj
    exact hm j (by omega)
  · exact hnum
  · rw [hbody]
    exact (h.image 0 hpos).mgr rfl hm
  · rw [← h.own 0 hpos]
    exact Bits.read_congr fun i hi => hm _ (by omega)
  · intro _
    refine ⟨hmgr, ?_⟩
    rw [htotal, h.total hpos]
  · rw [hbody]
    exact h.fits.virgin_le 0 hpos
  · intro k' _
    rw [hbody]
  · intro hne
    exact absurd rfl hne

theorem setTotalUsed (h : Uncompressed env w c L) (hpos : 0 < c.num) {v : Nat}
    (hv : v < 2 ^ 32) :
    Uncompressed env (w.setChunk 0 ((w.chunkBits 0).write mgrPos 32 v))
      { c with totalUsed := v } L :=
  h.setMgr hpos (fun j hj => Bits.write_outside (by omega))
    ((h.mgr hpos).setTotalUsed hv) (Bits.read_write_disjoint (by omega)) rfl rfl

theorem setTotalFree (h : Uncompressed env w c L) (hpos : 0 < c.num) {v : Nat}
    (hv : v < 2 ^ 32) :
    Uncompressed env (w.setChunk 0 ((w.chunkBits 0).write (mgrPos + 32) 32 v))
      { c with totalFree := v } L :=
  h.setMgr hpos (fun j hj => Bits.write_outside (by omega))
    ((h.mgr hpos).setTotalFree hv) (Bits.read_write_disjoint (by omega)) rfl rfl

theorem setHead (h : Uncompressed env w c L) (hpos : 0 < c.num) {i : Fin 3}
    {l : List Slot} {p : ChkPtr} (hp : p = headLink l) (h1 : p.chkNo < 2 ^ 11)
    (h2 : p.offset < 2 ^ 12) (h3 : p.size < 2 ^ 9) :
    Uncompressed env
      (w.setChunk 0 ((w.chunkBits 0).writePtr (mgrPos + 96 + 32 * i) p))
      (c.setList i l) L := by
  have hi := i.isLt
  exact h.setMgr hpos (fun j hj => Bits.writePtr_outside (by omega))
    ((h.mgr hpos).setList hp h1 h2 h3) (Bits.read_writePtr_disjoint (by omega)) rfl rfl

theorem setTotal (h : Uncompressed env w c L) (hpos : 0 < c.num) {v : Nat}
    (hv : v < 2 ^ 16) :
    Uncompressed env (w.setChunk 0 ((w.chunkBits 0).write (mgrPos + 64) 16 v)) c
      (L.setTotal v) := by
  have hcap := h.cap_pos hpos
  have hpos' : mgrPos = 128 := rfl
  apply h.setChunk_total hpos
  · intro j hj
    exact Bits.write_outside (by omega)
  · rfl
  · exact (h.image 0 hpos).mgr rfl fun j hj => Bits.write_outside (by omega)
  · rw [Bits.read_write_disjoint (by omega)]
    exact h.own 0 hpos
  · intro _
    exact ⟨(h.mgr hpos).setTotalCapacity v, Bits.read_write_of_lt hv⟩
  · exact h.fits.virgin_le 0 hpos
  · intro _ _
    rfl
  · intro hne
    exact absurd rfl hne

end Uncompressed

end ChunkMem
