import ChunkMem.Refinement.Blocks

/-!
# A fresh chunk

The header `ChkMetadata::enlarge` writes into a new chunk, and the memory
manager that the first chunk gets behind it.
-/

namespace ChunkMem

open Foundation

/-- A new chunk of 16 KB behind its header, before it has a number. -/
def freshBits : Bits :=
  ((((((Bits.zero.clear 0 128).write 0 32 chkMagic).write 96 32 chkPadding).write 40 12
    2).write 52 12 2).write 32 5 16).write 75 16 16

def freshChunk (k : Nat) : Bits := freshBits.write 64 11 k

theorem freshBits_outside {j : Nat} (h : 128 ≤ j) : freshBits j = false := by
  unfold freshBits
  rw [Bits.write_outside (by omega), Bits.write_outside (by omega),
    Bits.write_outside (by omega), Bits.write_outside (by omega),
    Bits.write_outside (by omega), Bits.write_outside (by omega),
    Bits.clear_outside (by omega)]
  rfl

theorem freshChunk_image {k : Nat} (hk : k < 2 ^ 11) (hi : Nat) :
    ChunkImage ⟨2, 2, Bits.zero⟩ 16 k hi (freshChunk k) := by
  have hr := Content.reserved_ge k
  unfold freshChunk
  constructor
  · unfold freshBits
    rw [Bits.read_write_disjoint (by omega), Bits.read_write_disjoint (by omega),
      Bits.read_write_disjoint (by omega), Bits.read_write_disjoint (by omega),
      Bits.read_write_disjoint (by omega), Bits.read_write_disjoint (by omega),
      Bits.read_write_of_lt (by decide)]
  · unfold freshBits
    rw [Bits.read_write_disjoint (by omega), Bits.read_write_disjoint (by omega),
      Bits.read_write_disjoint (by omega), Bits.read_write_disjoint (by omega),
      Bits.read_write_disjoint (by omega), Bits.read_write_of_lt (by decide)]
  · unfold freshBits
    rw [Bits.read_write_disjoint (by omega), Bits.read_write_disjoint (by omega),
      Bits.read_write_of_lt (by decide)]
  · unfold freshBits
    rw [Bits.read_write_disjoint (by omega), Bits.read_write_disjoint (by omega),
      Bits.read_write_disjoint (by omega), Bits.read_write_disjoint (by omega),
      Bits.read_write_of_lt (by decide)]
  · unfold freshBits
    rw [Bits.read_write_disjoint (by omega), Bits.read_write_disjoint (by omega),
      Bits.read_write_disjoint (by omega), Bits.read_write_of_lt (by decide)]
  · rw [Bits.read_write_of_lt hk]
  · intro j hj1 _
    rw [Bits.write_outside (by omega), freshBits_outside (by omega)]
    rfl

theorem freshChunk_own (k : Nat) : (freshChunk k).read 75 16 = 16 := by
  unfold freshChunk freshBits
  rw [Bits.read_write_disjoint (by omega), Bits.read_write_of_lt (by decide)]

section

variable {env : Env} {w : World}

/-!
## Accesses to a fresh allocation
-/

theorem store_fresh {kind : AllocKind} {size o : Nat} {m : Bits} {f : Field}
    (h : 8 * o + (f.pos + f.width) ≤ 8 * size) (v : Nat) :
    store (w.freshPtr.add o) f v (w.obtained kind size m) =
      .ok ((), w.obtained kind size (m.write (8 * o + f.pos) f.width v)) := by
  rw [store_at (w.obtained_inside kind size m h), World.obtained_setView,
    World.view_obtained_self]

theorem load_fresh {kind : AllocKind} {size o : Nat} {m : Bits} {f : Field}
    (h : 8 * o + (f.pos + f.width) ≤ 8 * size) :
    load (w.freshPtr.add o) f (w.obtained kind size m) =
      .ok (m.read (8 * o + f.pos) f.width, w.obtained kind size m) := by
  rw [load_at (w.obtained_inside kind size m h), World.view_obtained_self]

theorem bzero_fresh {kind : AllocKind} {size o n : Nat} {m : Bits}
    (h : 8 * o + 8 * n ≤ 8 * size) :
    bzero (w.freshPtr.add o) n (w.obtained kind size m) =
      .ok ((), w.obtained kind size (m.clear (8 * o) (8 * n))) := by
  rw [bzero_at (w.obtained_inside kind size m h), World.obtained_setView,
    World.view_obtained_self]

theorem store_head {kind : AllocKind} {size : Nat} {m : Bits} {f : Field}
    (h : f.pos + f.width ≤ 8 * size) (v : Nat) :
    store w.freshPtr f v (w.obtained kind size m) =
      .ok ((), w.obtained kind size (m.write f.pos f.width v)) := by
  have hstore : store (w.freshPtr.add 0) f v (w.obtained kind size m) = _ :=
    store_fresh (by omega) v
  rw [Nat.mul_zero, Nat.zero_add] at hstore
  exact hstore

theorem load_head {kind : AllocKind} {size : Nat} {m : Bits} {f : Field}
    (h : f.pos + f.width ≤ 8 * size) :
    load w.freshPtr f (w.obtained kind size m) =
      .ok (m.read f.pos f.width, w.obtained kind size m) := by
  have hload : load (w.freshPtr.add 0) f (w.obtained kind size m) = _ :=
    load_fresh (by omega)
  rw [Nat.mul_zero, Nat.zero_add] at hload
  exact hload

theorem load_head_of {kind : AllocKind} {size v : Nat} {m : Bits} {f : Field}
    (h : f.pos + f.width ≤ 8 * size) (hv : m.read f.pos f.width = v) :
    load w.freshPtr f (w.obtained kind size m) = .ok (v, w.obtained kind size m) := by
  rw [load_head h, hv]

/-!
## Header of a new chunk
-/

theorem chunkBufSize_max (env : Env) : env.chunkBufSize chkMaxChksize = 16384 := by
  unfold Env.chunkBufSize
  split <;> rfl

theorem initHeader_fresh :
    ChkMetadata.initHeader w.freshPtr (w.obtained .chunk 16384 Bits.zero) =
      .ok ((), w.obtained .chunk 16384 (((((Bits.zero.clear 0 128).write 0 32
        chkMagic).write 96 32 chkPadding).write 40 12 2).write 52 12 2)) := by
  unfold ChkMetadata.initHeader
  have hbzero : bzero w.freshPtr ChkMetadata.sizeOf (w.obtained .chunk 16384 Bits.zero) =
      .ok ((), w.obtained .chunk 16384 (Bits.zero.clear 0 128)) :=
    bzero_fresh (o := 0) (by decide)
  rw [Exec.bind_of_ok hbzero,
    Exec.bind_of_ok (store_head (by decide) _),
    Exec.bind_of_ok (store_head (by decide) _),
    Exec.bind_of_ok (store_head (by decide) _),
    Exec.bind_of_ok (load_head (by decide)), store_head (by decide)]
  simp only [ChkMetadata.used]
  rw [Bits.read_write_of_lt (by decide)]
  rfl

theorem reallocate_null {size : Nat} (hsize : env.memalign = true -> size ≤ chkMaxChksize) :
    reallocate env Ptr.null 0 size w = allocate env size w := by
  unfold reallocate
  rw [Exec.bind_of_ok (Exec.require_of hsize _ _), if_pos rfl]

theorem enlarge_new_ensures (hw : Sane w.sys) :
    Exec.Ensures (ChkMetadata.enlarge env Ptr.null .max w)
      (fun p w' => (p = w.freshPtr ∧ w' = w.obtained .chunk 16384 freshBits) ∨
        (p = Ptr.null ∧ ¬env.AllOk ∧ w' = w.skipped))
      (Tolerated env) := by
  have hsize : env.memalign = true -> chkMaxChksize ≤ chkMaxChksize := fun _ => Nat.le_refl _
  have halloc := allocate_ensures hw hsize
  rw [← reallocate_null hsize, chunkBufSize_max] at halloc
  unfold ChkMetadata.enlarge ChkMetadata.capacityLevel
  simp only [if_true]
  rw [Exec.bind_of_ok (Exec.pure_apply _ _), if_neg (by decide),
    Exec.bind_of_ok (Exec.pure_apply _ _), Exec.bind_of_ok (Exec.pure_apply _ _)]
  refine Exec.Ensures.bind halloc ?_
  rintro p w' (⟨rfl, rfl⟩ | ⟨rfl, hfail, rfl⟩)
  · rw [if_neg hw.freshPtr_ne_null, Exec.bind_of_ok initHeader_fresh,
      Exec.bind_of_ok (store_head (by decide) _),
      Exec.bind_of_ok (load_head (by decide)),
      Exec.bind_of_ok (store_head (by decide) _)]
    refine Or.inl ⟨rfl, ?_⟩
    simp only [ChkMetadata.capacity]
    rw [Bits.read_write_of_lt (by decide)]
    rfl
  · exact Or.inr ⟨rfl, hfail, rfl⟩

/-!
## The memory manager of the first chunk
-/

def firstChunk (env : Env) : Bits :=
  ((((((((((freshChunk 0).write 52 12 5).write 40 12 5).clear mgrPos 192).write (mgrPos + 80)
    4 (env.freeSizePreset 0)).write (mgrPos + 84) 5 (env.freeSizePreset 1)).write
    (mgrPos + 89) 7 (env.freeSizePreset 2)).write (mgrPos + 96) 11 chkMaxChkNum).write
    (mgrPos + 128) 11 chkMaxChkNum).write (mgrPos + 160) 11 chkMaxChkNum)

theorem construct_fresh {size : Nat} {m : Bits} (hsize : 40 ≤ size) :
    ChkMemMgr.construct env (w.freshPtr.add 16) (w.obtained .chunk size m) =
      .ok ((), w.obtained .chunk size
        (((((((m.clear mgrPos 192).write (mgrPos + 80)
          4 (env.freeSizePreset 0)).write (mgrPos + 84) 5 (env.freeSizePreset 1)).write
          (mgrPos + 89) 7 (env.freeSizePreset 2)).write (mgrPos + 96) 11 chkMaxChkNum).write
          (mgrPos + 128) 11 chkMaxChkNum).write (mgrPos + 160) 11 chkMaxChkNum)) := by
  have hinit : forall (i : Fin 3) (m' : Bits),
      ChkSList.init (ChkMemMgr.freeList (w.freshPtr.add 16) i) (w.obtained .chunk size m') =
        .ok ((), w.obtained .chunk size
          (m'.write (mgrPos + 96 + 32 * i) 11 chkMaxChkNum)) := by
    intro i m'
    have hi := i.isLt
    have haddr : ChkMemMgr.freeList (w.freshPtr.add 16) i =
        w.freshPtr.add (16 + (12 + 4 * i)) := by
      simp [ChkMemMgr.freeList, Ptr.add, ChkMemMgr.freeListOff, Nat.add_assoc]
    have hpos : 8 * (16 + (12 + 4 * (i : Nat))) + 0 = mgrPos + 96 + 32 * i := by
      unfold mgrPos
      omega
    unfold ChkSList.init setNull
    rw [haddr, store_fresh (by simp only; omega), hpos]
  unfold ChkMemMgr.construct
  rw [Exec.bind_of_ok (bzero_fresh (by simp only [ChkMemMgr.sizeOf]; omega)),
    Exec.bind_of_ok (store_fresh (by simp only [ChkMemMgr.free0]; omega) _),
    Exec.bind_of_ok (store_fresh (by simp only [ChkMemMgr.free1]; omega) _),
    Exec.bind_of_ok (store_fresh (by simp only [ChkMemMgr.free2]; omega) _),
    Exec.bind_of_ok (hinit 0 _), Exec.bind_of_ok (hinit 1 _), hinit 2 _]
  rfl

theorem initMemMgr_fresh (env : Env) (haddr : w.index.chkAddr 0 = w.freshPtr)
    (hsize : 0 < w.index.chkAddrSize) :
    ChkIndex.initMemMgr env w.freshPtr (w.obtained .chunk 16384 (freshChunk 0)) =
      .ok ((), w.obtained .chunk 16384 (firstChunk env)) := by
  have himage := freshChunk_image (k := 0) (by decide) 0
  have halloc : ChkMetadata.alloc w.freshPtr ChkMemMgr.sizeOf
      (w.obtained .chunk 16384 (freshChunk 0)) =
      .ok (⟨0, 4, 3⟩, w.obtained .chunk 16384 ((freshChunk 0).write 52 12 5)) := by
    have hvirgin : load w.freshPtr ChkMetadata.virgin
        (w.obtained .chunk 16384 (freshChunk 0)) =
        .ok (2, w.obtained .chunk 16384 (freshChunk 0)) :=
      load_head_of (by decide) himage.virgin
    have hcapacity : load w.freshPtr ChkMetadata.capacity
        (w.obtained .chunk 16384 (freshChunk 0)) =
        .ok (16, w.obtained .chunk 16384 (freshChunk 0)) :=
      load_head_of (by decide) himage.capacity
    have hno : load w.freshPtr ChkMetadata.no
        (w.obtained .chunk 16384 (freshChunk 0)) =
        .ok (0, w.obtained .chunk 16384 (freshChunk 0)) :=
      load_head_of (by decide) himage.no
    unfold ChkMetadata.alloc
    rw [if_neg (by decide), Exec.bind_of_ok hvirgin, Exec.bind_of_ok hcapacity,
      if_neg (by decide), Exec.bind_of_ok hno]
    exact (Exec.bind_of_ok (store_head (by decide) _)).trans rfl
  have hptr : chkPtr2addr ⟨0, 4, 3⟩ (w.obtained .chunk 16384
      (((freshChunk 0).write 52 12 5).write 40 12 5)) =
      .ok (w.freshPtr.add 16, w.obtained .chunk 16384
      (((freshChunk 0).write 52 12 5).write 40 12 5)) := by
    have hread : readChkAddr 0 (w.obtained .chunk 16384
        (((freshChunk 0).write 52 12 5).write 40 12 5)) = .ok (w.freshPtr,
        w.obtained .chunk 16384 (((freshChunk 0).write 52 12 5).write 40 12 5)) := by
      rw [← haddr]
      exact readChkAddr_of hsize
    unfold chkPtr2addr chkPtr2chk
    rw [if_neg (by decide), if_neg (by decide)]
    exact (Exec.bind_of_ok hread).trans rfl
  unfold ChkIndex.initMemMgr
  rw [Exec.bind_of_ok halloc, Exec.bind_of_ok (Exec.require_of (by decide) _ _),
    Exec.bind_of_ok (load_head (by decide))]
  simp only [ChkMetadata.used]
  rw [Bits.read_write_disjoint (by omega), himage.used,
    Exec.bind_of_ok (store_head (by decide) _), Exec.bind_of_ok hptr]
  exact construct_fresh (by decide)

def firstBody : Body := ⟨5, 5, Bits.zero⟩

theorem firstChunk_outside {j : Nat} (h : j < mgrPos ∨ mgrPos + 192 ≤ j) :
    firstChunk env j = (((freshChunk 0).write 52 12 5).write 40 12 5) j := by
  unfold firstChunk
  rw [Bits.write_outside (by omega), Bits.write_outside (by omega),
    Bits.write_outside (by omega), Bits.write_outside (by omega),
    Bits.write_outside (by omega), Bits.write_outside (by omega),
    Bits.clear_outside (by omega)]

theorem firstChunk_image (hi : Nat) :
    ChunkImage firstBody 16 0 hi (firstChunk env) := by
  have hfresh := freshChunk_image (k := 0) (by decide) hi
  have hvirgin := hfresh.setVirgin (v := 5) (by decide)
  have hused := hvirgin.setUsed (u := 5) (by decide)
  exact hused.mgr rfl fun j hj => firstChunk_outside hj

theorem firstChunk_own : (firstChunk env).read 75 16 = 16 := by
  have hsame : (firstChunk env).read 75 16 = (freshChunk 0).read 75 16 := by
    apply Bits.read_congr
    intro i hi
    rw [firstChunk_outside (by unfold mgrPos; omega), Bits.write_outside (by omega),
      Bits.write_outside (by omega)]
  rw [hsame, freshChunk_own]

theorem firstChunk_clear {a n : Nat} (h1 : mgrPos ≤ a) (h2 : a + n ≤ mgrPos + 80) :
    (firstChunk env).read a n = 0 := by
  apply Bits.read_eq_zero
  intro i hi
  unfold firstChunk
  rw [Bits.write_outside (by omega), Bits.write_outside (by omega),
    Bits.write_outside (by omega), Bits.write_outside (by omega),
    Bits.write_outside (by omega), Bits.write_outside (by omega),
    Bits.clear_inside (by omega) (by omega)]

theorem readPtr_head {m : Bits} {a : Nat} (h0 : forall i, i < 32 -> m (a + i) = false) :
    (m.write a 11 chkMaxChkNum).readPtr a = chkNull := by
  have hz : m.readPtr a = ⟨0, 0, 0⟩ := by
    unfold Bits.readPtr
    rw [Bits.read_eq_zero fun i hi => h0 i (by omega),
      Bits.read_eq_zero fun i hi => by rw [Nat.add_assoc]; exact h0 _ (by omega),
      Bits.read_eq_zero fun i hi => by rw [Nat.add_assoc]; exact h0 _ (by omega)]
  rw [Bits.readPtr_write_chkNo (by decide), hz]
  rfl

theorem firstChunk_mgr {c : Content} (hused : c.totalUsed = 0) (hfree : c.totalFree = 0)
    (hlists : forall i, c.lists i = []) : MgrImage env.freeSize c (firstChunk env) := by
  constructor
  · rw [hused]
    exact firstChunk_clear (Nat.le_refl _) (by omega)
  · rw [hfree]
    exact firstChunk_clear (by omega) (by omega)
  · unfold firstChunk
    rw [Bits.read_write_disjoint (by omega), Bits.read_write_disjoint (by omega),
      Bits.read_write_disjoint (by omega), Bits.read_write_disjoint (by omega),
      Bits.read_write_disjoint (by omega), Bits.read_write_same]
    rfl
  · unfold firstChunk
    rw [Bits.read_write_disjoint (by omega), Bits.read_write_disjoint (by omega),
      Bits.read_write_disjoint (by omega), Bits.read_write_disjoint (by omega),
      Bits.read_write_same]
    rfl
  · unfold firstChunk
    rw [Bits.read_write_disjoint (by omega), Bits.read_write_disjoint (by omega),
      Bits.read_write_disjoint (by omega), Bits.read_write_same]
    rfl
  · intro i
    rw [hlists]
    show _ = chkNull
    -- around the head everything else is clear
    generalize hm : ((((((freshChunk 0).write 52 12 5).write 40 12 5).clear mgrPos
      192).write (mgrPos + 80) 4 (env.freeSizePreset 0)).write (mgrPos + 84) 5
      (env.freeSizePreset 1)).write (mgrPos + 89) 7 (env.freeSizePreset 2) = m
    have hclear : forall j, mgrPos + 96 ≤ j -> j < mgrPos + 192 -> m j = false := by
      intro j hj1 hj2
      rw [← hm, Bits.write_outside (by omega), Bits.write_outside (by omega),
        Bits.write_outside (by omega), Bits.clear_inside (by omega) (by omega)]
    have hfirst : firstChunk env = ((m.write (mgrPos + 96) 11 chkMaxChkNum).write
        (mgrPos + 128) 11 chkMaxChkNum).write (mgrPos + 160) 11 chkMaxChkNum := by
      rw [← hm]
      rfl
    rw [hfirst]
    match i with
    | 0 =>
        refine (Bits.readPtr_congr fun j hj => ?_).trans
          (readPtr_head fun j hj => hclear (mgrPos + 96 + j) (by omega) (by omega))
        rw [Bits.write_outside (by simp; omega), Bits.write_outside (by simp; omega)]
        rfl
    | 1 =>
        refine (Bits.readPtr_congr fun j hj => ?_).trans
          (readPtr_head fun j hj => hclear (mgrPos + 128 + j) (by omega) (by omega))
        rw [Bits.write_outside (by simp; omega)]
        apply Bits.write_congr
        intro hout
        rw [Bits.write_outside (by simp; omega)]
    | 2 =>
        refine (Bits.readPtr_congr fun j hj => ?_).trans
          (readPtr_head fun j hj => hclear (mgrPos + 160 + j) (by omega) (by omega))
        apply Bits.write_congr
        intro hout
        rw [Bits.write_outside (by simp; omega), Bits.write_outside (by simp; omega)]

end

end ChunkMem
