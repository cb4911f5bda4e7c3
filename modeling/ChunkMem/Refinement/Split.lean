import ChunkMem.Refinement.Destruct

/-!
# One buffer split into chunks of their own

`split_continuous_chunk` copies the chunks of one buffer, first to last,
into allocations of their own and releases the buffer.  The loop invariant says
which chunks were moved; the others still lie back to back.
-/

namespace ChunkMem

open Foundation

/-- The bits of chunk `k` a buffer holds: the last chunk ends at its virgin mark. -/
def extent (c : Content) (L : Layout) (k : Nat) : Nat :=
  if k + 1 < c.num then 8192 * L.cap k else 64 * (c.body k).virgin

def Layout.apart (L : Layout) : Layout := { L with shared := 1 }

/-- The chunks from `i` on lie back to back in the buffer `org`, those in front
were moved out of it. -/
structure Joint (env : Env) (kind : AllocKind) (org : Ptr) (w : World) (c : Content)
    (L : Layout) (i : Nat) : Prop where
  num : w.index.chkNum = c.num
  flag : w.index.compressed = false
  type : w.index.memAllocType = .max
  size : c.num ≤ w.index.chkAddrSize
  size_le : w.index.chkAddrSize ≤ 4094
  sane : Sane w.sys
  outer : Outer L w
  fits : Fits env c L.apart
  off : org.off = 0
  moved_off : forall k, k < i -> (w.index.chkAddr k).off = 0
  moved_alloc : forall k, k < i -> exists size,
    w.sys.allocs (w.index.chkAddr k).blk = some ⟨.chunk, size⟩ ∧
      env.chunkBufSize (1024 * L.cap k) ≤ size
  moved_ne : forall k, k < i -> (w.index.chkAddr k).blk ≠ org.blk
  distinct : forall k k', k < i -> k' < i ->
    (w.index.chkAddr k).blk = (w.index.chkAddr k').blk -> k = k'
  stays : forall k, i ≤ k -> k < c.num -> w.index.chkAddr k = ⟨org.blk, 1024 * L.start k⟩
  kind_ne : kind ≠ .caller
  buffer : exists size, w.sys.allocs org.blk = some ⟨kind, size⟩ ∧
    1024 * L.start (c.num - 1) + 8 * (c.body (c.num - 1)).virgin ≤ size
  all : forall b a, w.sys.allocs b = some a -> a.kind ≠ .caller ->
    b = org.blk ∨ exists k, k < i ∧ (w.index.chkAddr k).blk = b
  image_moved : forall k, k < i ->
    ChunkImage (c.body k) (L.cap k) k (env.reach (L.cap k)) (w.chunkBits k)
  own_moved : forall k, k < i -> (w.chunkBits k).read 75 16 = L.cap k
  image_stays : forall k, i ≤ k -> k < c.num ->
    ChunkImage (c.body k) (L.cap k) k (extent c L k) (w.chunkBits k)
  owner : (w.bits org.blk).read 75 16 = L.start c.num
  mgr : MgrImage env.freeSize c (w.chunkBits 0)
  total : (w.chunkBits 0).read (mgrPos + 64) 16 = L.total

namespace Joint

variable {env : Env} {kind : AllocKind} {org : Ptr} {w : World} {c : Content} {L : Layout}
  {bs : List Block} {i : Nat}

theorem inside (h : Joint env kind org w c L i) {k o n : Nat} (hk : i ≤ k) (hlt : k < c.num)
    (hn : 8 * o + n ≤ extent c L k) : w.sys.Inside ((w.index.chkAddr k).add o) n := by
  rcases h.buffer with ⟨size, halloc, hsize⟩
  have hle : 8192 * L.start k + extent c L k ≤ 8 * size := by
    unfold extent
    split
    · next hnext =>
        have hstart := Layout.start_add_le (L := L) (k := k) (n := c.num - 1) (by omega)
        omega
    · next hlast =>
        rw [show c.num - 1 = k by omega] at hsize
        omega
  rw [h.stays k hk hlt]
  refine ⟨_, halloc, ?_⟩
  simp only [Ptr.add]
  omega

theorem extent_ge (h : Joint env kind org w c L i) (ht : Content.Tiling env.freeSize bs c)
    {k : Nat} (hk : k < c.num) : 64 * reserved k ≤ extent c L k := by
  have hone := h.fits.one_le k hk
  have hr := ht.reserved_le k hk
  have hr5 := Content.reserved_le_five k
  have hcap : 1 ≤ L.cap k := hone
  unfold extent
  split <;> omega

theorem virgin_le_extent (h : Joint env kind org w c L i) {k : Nat} (hk : k < c.num) :
    64 * (c.body k).virgin ≤ extent c L k := by
  have hfit := h.fits.virgin_le k hk
  have hfit' : (c.body k).virgin ≤ 128 * L.cap k := hfit
  unfold extent
  split <;> omega

theorem load_ok (h : Joint env kind org w c L i) (ht : Content.Tiling env.freeSize bs c)
    {k : Nat} (hk : i ≤ k) (hlt : k < c.num) {f : Field} (hf : f.pos + f.width ≤ 128) :
    load (w.index.chkAddr k) f w = .ok ((w.chunkBits k).read f.pos f.width, w) := by
  have hext := h.extent_ge ht hlt
  have hr := Content.reserved_ge k
  have hload := load_at (w := w) (p := w.index.chkAddr k) (o := 0) (f := f)
    (h.inside hk hlt (by omega))
  rw [Nat.mul_zero, Nat.zero_add] at hload
  exact hload

theorem capacityBytes_ok (h : Joint env kind org w c L i)
    (ht : Content.Tiling env.freeSize bs c) {k : Nat} (hk : i ≤ k) (hlt : k < c.num) :
    ChkMetadata.capacityBytes (w.index.chkAddr k) w = .ok (L.cap k * 1024, w) := by
  unfold ChkMetadata.capacityBytes
  rw [Exec.bind_of_ok (h.load_ok ht hk hlt (by decide))]
  have hcap := (h.image_stays k hk hlt).capacity
  simp only [ChkMetadata.capacity]
  rw [hcap]
  rfl

theorem blk_ne_next (h : Joint env kind org w c L i) : org.blk ≠ w.sys.next := by
  rcases h.buffer with ⟨size, halloc, _⟩
  exact h.sane.ne_next halloc

theorem moved_ne_next (h : Joint env kind org w c L i) {k : Nat} (hk : k < i) :
    (w.index.chkAddr k).blk ≠ w.sys.next := by
  rcases h.moved_alloc k hk with ⟨size, halloc, _⟩
  exact h.sane.ne_next halloc

/-!
### The copy
-/

/-- The bits of a chunk that was copied out of the buffer and owns its allocation. -/
def movedBits (w : World) (c : Content) (L : Layout) (i : Nat) : Bits :=
  (Bits.zero.copy 0 (w.chunkBits i) 0 (extent c L i)).write 75 16 (L.cap i)

theorem movedBits_read {a x : Nat} (ha : a + x ≤ extent c L i) (hout : x + a ≤ 75 ∨ 91 ≤ a) :
    (movedBits w c L i).read a x = (w.chunkBits i).read a x := by
  unfold movedBits
  rw [Bits.read_write_disjoint (by omega), Bits.read_copied ha]

theorem movedBits_own (h : Joint env kind org w c L i) (hi : i < c.num) :
    (movedBits w c L i).read 75 16 = L.cap i := by
  have hcap : L.cap i ≤ 16 := h.fits.cap_le i hi
  exact Bits.read_write_of_lt (by omega)

theorem movedBits_image (h : Joint env kind org w c L i) (ht : Content.Tiling env.freeSize bs c)
    (hi : i < c.num) :
    ChunkImage (c.body i) (L.cap i) i (env.reach (L.cap i)) (movedBits w c L i) :=
  ((h.image_stays i (Nat.le_refl i) hi).copied (ht.reserved_le i hi) (h.virgin_le_extent hi)
    (Nat.le_refl _) (ht.above i hi) (env.reach (L.cap i))).setAllocCapacity (L.cap i)

theorem movedBits_mgr (h : Joint env kind org w c L 0) (ht : Content.Tiling env.freeSize bs c)
    (hpos : 0 < c.num) :
    MgrImage env.freeSize c (movedBits w c L 0) ∧
      (movedBits w c L 0).read (mgrPos + 64) 16 = L.total := by
  have hext := h.extent_ge ht hpos
  have hr0 : reserved 0 = 5 := rfl
  constructor
  · refine (h.mgr.copied (n := extent c L 0) (by unfold mgrPos; omega)).congr rfl rfl rfl ?_
    intro j hj1 _
    unfold mgrPos at hj1
    exact Bits.write_outside (by omega)
  · rw [movedBits_read (by unfold mgrPos; omega) (by unfold mgrPos; omega)]
    exact h.total

/-!
### A chunk enters
-/

theorem entered_chkAddr {k size : Nat} {m : Bits} (hk : k ≠ i) :
    ((w.obtained .chunk size m).placed i w.freshPtr).index.chkAddr k = w.index.chkAddr k :=
  Function.update_of_ne hk ..

theorem entered_self {size : Nat} {m : Bits} :
    ((w.obtained .chunk size m).placed i w.freshPtr).index.chkAddr i = w.freshPtr :=
  Function.update_self ..

theorem entered_bits_self {size : Nat} {m : Bits} :
    ((w.obtained .chunk size m).placed i w.freshPtr).chunkBits i = m := by
  unfold World.chunkBits
  rw [entered_self]
  exact World.view_obtained_self w .chunk size m

theorem entered_bits (h : Joint env kind org w c L i) {k size : Nat} {m : Bits} (hne : k ≠ i)
    (hk : k < c.num) :
    ((w.obtained .chunk size m).placed i w.freshPtr).chunkBits k = w.chunkBits k := by
  have hold : forall b, b ≠ w.sys.next ->
      ((w.obtained .chunk size m).placed i w.freshPtr).bits b = w.bits b :=
    fun b hb => World.obtained_bits_other w .chunk size m hb
  unfold World.chunkBits World.view
  rw [entered_chkAddr hne]
  by_cases hmoved : k < i
  · rw [hold _ (h.moved_ne_next hmoved)]
  · rw [h.stays k (by omega) hk, hold org.blk h.blk_ne_next]

theorem entered_distinct (h : Joint env kind org w c L i) {k k' size : Nat} {m : Bits}
    (hk : k < i + 1) (hk' : k' < i + 1)
    (hblk : (((w.obtained .chunk size m).placed i w.freshPtr).index.chkAddr k).blk =
      (((w.obtained .chunk size m).placed i w.freshPtr).index.chkAddr k').blk) : k = k' := by
  by_cases hne : k = i
  · by_cases hne' : k' = i
    · omega
    · rw [hne, entered_self, entered_chkAddr hne'] at hblk
      exact absurd hblk.symm (h.moved_ne_next (by omega))
  · by_cases hne' : k' = i
    · rw [hne', entered_self, entered_chkAddr hne] at hblk
      exact absurd hblk (h.moved_ne_next (by omega))
    · rw [entered_chkAddr hne, entered_chkAddr hne'] at hblk
      exact h.distinct k k' (by omega) (by omega) hblk

theorem step (h : Joint env kind org w c L i) (ht : Content.Tiling env.freeSize bs c)
    (hi : i < c.num) {size : Nat} (hsize : env.chunkBufSize (1024 * L.cap i) ≤ size) :
    Joint env kind org ((w.obtained .chunk size (movedBits w c L i)).placed i w.freshPtr)
      c L (i + 1) := by
  have himage := h.movedBits_image ht hi
  have hown := h.movedBits_own hi
  have hmgr : i = 0 -> MgrImage env.freeSize c (movedBits w c L i) ∧
      (movedBits w c L i).read (mgrPos + 64) 16 = L.total := by
    rintro rfl
    exact h.movedBits_mgr ht hi
  generalize movedBits w c L i = m at himage hown hmgr ⊢
  have hself : ((w.obtained .chunk size m).placed i w.freshPtr).index.chkAddr i = w.freshPtr :=
    entered_self
  have haddr : forall k, k ≠ i ->
      ((w.obtained .chunk size m).placed i w.freshPtr).index.chkAddr k = w.index.chkAddr k :=
    fun k hk => entered_chkAddr hk
  have hchunk : ((w.obtained .chunk size m).placed i w.freshPtr).chunkBits i = m :=
    entered_bits_self
  have hchunks : forall k, k ≠ i -> k < c.num ->
      ((w.obtained .chunk size m).placed i w.freshPtr).chunkBits k = w.chunkBits k :=
    fun k hne hk => h.entered_bits hne hk
  have halloc : forall b, b ≠ w.sys.next ->
      ((w.obtained .chunk size m).placed i w.freshPtr).sys.allocs b = w.sys.allocs b :=
    fun b hb => World.obtained_allocs_other w .chunk size m hb
  constructor
  · exact h.num
  · exact h.flag
  · exact h.type
  · exact h.size
  · exact h.size_le
  · exact h.sane.obtained .chunk size m
  · intro b n m' hb
    have hout := h.outer b n m' hb
    have hne := h.sane.ne_next hout.1
    rw [halloc b hne]
    exact ⟨hout.1, (World.obtained_bits_other w .chunk size m hne).trans hout.2⟩
  · exact h.fits
  · exact h.off
  · intro k hk
    by_cases hne : k = i
    · rw [hne, hself]
      rfl
    · rw [haddr k hne]
      exact h.moved_off k (by omega)
  · intro k hk
    by_cases hne : k = i
    · rw [hne, hself]
      exact ⟨size, World.obtained_allocs_self w .chunk size m, hsize⟩
    · rw [haddr k hne, halloc _ (h.moved_ne_next (by omega))]
      exact h.moved_alloc k (by omega)
  · intro k hk
    by_cases hne : k = i
    · rw [hne, hself]
      exact Ne.symm h.blk_ne_next
    · rw [haddr k hne]
      exact h.moved_ne k (by omega)
  · intro k k' hk hk' hblk
    exact h.entered_distinct hk hk' hblk
  · intro k hk hlt
    rw [haddr k (by omega)]
    exact h.stays k (by omega) hlt
  · exact h.kind_ne
  · rw [halloc _ h.blk_ne_next]
    exact h.buffer
  · intro b a hb hkind
    by_cases hnew : b = w.sys.next
    · exact Or.inr ⟨i, by omega, by rw [hself, hnew]; rfl⟩
    · rw [halloc b hnew] at hb
      rcases h.all b a hb hkind with horg | ⟨k, hk, hblk⟩
      · exact Or.inl horg
      · exact Or.inr ⟨k, by omega, by rw [haddr k (by omega)]; exact hblk⟩
  · intro k hk
    by_cases hne : k = i
    · rw [hne, hchunk]
      exact himage
    · rw [hchunks k hne (by omega)]
      exact h.image_moved k (by omega)
  · intro k hk
    by_cases hne : k = i
    · rw [hne, hchunk, hown]
    · rw [hchunks k hne (by omega)]
      exact h.own_moved k (by omega)
  · intro k hk hlt
    rw [hchunks k (by omega) hlt]
    exact h.image_stays k (by omega) hlt
  · exact (congrArg (fun b => b.read 75 16)
      (World.obtained_bits_other w .chunk size m h.blk_ne_next)).trans h.owner
  · by_cases hz : i = 0
    · rw [hz] at hchunk hmgr ⊢
      rw [hchunk]
      exact (hmgr rfl).1
    · rw [hchunks 0 (by omega) (by omega)]
      exact h.mgr
  · by_cases hz : i = 0
    · rw [hz] at hchunk hmgr ⊢
      rw [hchunk]
      exact (hmgr rfl).2
    · rw [hchunks 0 (by omega) (by omega)]
      exact h.total

/-!
## The loop
-/

theorem obtained_view (h : Joint env kind org w c L i) (hi : i < c.num)
    (kind' : AllocKind) (size : Nat) (m : Bits) :
    (w.obtained kind' size m).view (w.index.chkAddr i) = w.chunkBits i := by
  unfold World.chunkBits World.view
  rw [World.obtained_bits_other]
  rw [h.stays i (Nat.le_refl i) hi]
  exact h.blk_ne_next

theorem obtained_inside (h : Joint env kind org w c L i) (hi : i < c.num) {n : Nat}
    (hn : n ≤ extent c L i) (kind' : AllocKind) (size : Nat) (m : Bits) :
    (w.obtained kind' size m).sys.Inside (w.index.chkAddr i) n := by
  rcases h.inside (o := 0) (n := n) (Nat.le_refl i) hi (by omega) with ⟨a, ha, hroom⟩
  refine ⟨a, ?_, hroom⟩
  rw [World.obtained_allocs_other _ _ _ _
    (h.sane.ne_next (show w.sys.allocs (w.index.chkAddr i).blk = some a from ha))]
  exact ha

/-- One round: a chunk is copied, stamped with its own capacity and entered. -/
theorem copy_ok (h : Joint env kind org w c L i) (ht : Content.Tiling env.freeSize bs c)
    (hi : i < c.num) {n : Nat} (hn : 8 * n = extent c L i) :
    exists w', memcpy w.freshPtr (w.index.chkAddr i) n
        (w.obtained .chunk (env.chunkBufSize (L.cap i * 1024)) Bits.zero) = .ok ((), w') ∧
      (do
        let c <- load w.freshPtr ChkMetadata.capacity
        store w.freshPtr ChkMetadata.allocCapacity c
        writeChkAddr i w.freshPtr : M Unit) w' =
        .ok ((), (w.obtained .chunk (env.chunkBufSize (L.cap i * 1024))
          (movedBits w c L i)).placed i w.freshPtr) := by
  have hext := h.extent_ge ht hi
  have hr2 := Content.reserved_ge i
  have hcap16 : L.cap i ≤ 16 := h.fits.cap_le i hi
  have hfit : (c.body i).virgin ≤ 128 * L.cap i := h.fits.virgin_le i hi
  have hle : extent c L i ≤ 8192 * L.cap i := by
    unfold extent
    split <;> omega
  have hcap1 : 1 ≤ L.cap i := h.fits.one_le i hi
  have hbuf := env.le_chunkBufSize (n := L.cap i * 1024) fun _ => by omega
  generalize env.chunkBufSize (L.cap i * 1024) = size at *
  have hcopy := memcpy_at (p := w.freshPtr)
    (h.obtained_inside hi (n := 8 * n) (by omega) .chunk size Bits.zero)
    (w.obtained_inside (o := 0) (n := 8 * n) .chunk size Bits.zero (by omega))
  rw [World.view_obtained_self, h.obtained_view hi, World.obtained_setView, hn] at hcopy
  refine ⟨_, hcopy, ?_⟩
  have hload : load w.freshPtr ChkMetadata.capacity (w.obtained .chunk size
      (Bits.zero.copy 0 (w.chunkBits i) 0 (extent c L i))) =
      .ok (L.cap i, w.obtained .chunk size
        (Bits.zero.copy 0 (w.chunkBits i) 0 (extent c L i))) := by
    apply load_head_of
    · simp only [ChkMetadata.capacity]
      omega
    · simp only [ChkMetadata.capacity]
      rw [Bits.read_copied (by omega)]
      exact (h.image_stays i (Nat.le_refl i) hi).capacity
  rw [Exec.bind_of_ok hload, Exec.bind_of_ok (store_head (by
    simp only [ChkMetadata.allocCapacity]
    omega) _)]
  exact writeChkAddr_of (by
    have hsize := h.size
    show i < w.index.chkAddrSize
    omega) _

theorem splitLoop_ensures (ht : Content.Tiling env.freeSize bs c) :
    forall (k i : Nat) (w : World), i + k = c.num -> Joint env kind org w c L i ->
      Exec.Ensures (ChkIndex.splitLoop env c.num k i w)
        (fun _ w' => Joint env kind org w' c L c.num) (Tolerated env) := by
  intro k
  induction k with
  | zero =>
      intro i w hik h
      rw [Nat.add_zero] at hik
      rw [hik] at h
      exact h
  | succ k ih =>
      intro i w hik h
      have hi : i < c.num := by omega
      have hsize := h.size
      have hcap16 : L.cap i ≤ 16 := h.fits.cap_le i hi
      have hread : readChkAddr i w = .ok (w.index.chkAddr i, w) := readChkAddr_of (by omega)
      unfold ChkIndex.splitLoop
      rw [Exec.bind_of_ok hread,
        Exec.bind_of_ok (h.capacityBytes_ok ht (Nat.le_refl i) hi)]
      refine Exec.Ensures.bind (allocate_ensures h.sane (by
        intro _
        simp only [chkMaxChksize]
        omega)) ?_
      rintro q w₁ (⟨rfl, rfl⟩ | ⟨rfl, hfail, rfl⟩)
      · rw [Exec.bind_of_ok (Exec.require_of h.sane.freshPtr_ne_null _ _)]
        have hsame : env.chunkBufSize (1024 * L.cap i) ≤
            env.chunkBufSize (L.cap i * 1024) := by rw [Nat.mul_comm]
        have hnext := h.step ht hi hsame
        by_cases hlast : i < c.num - 1
        · rw [if_pos hlast]
          rcases h.copy_ok ht hi (n := L.cap i * 1024) (by
            unfold extent
            rw [if_pos (by omega)]
            omega) with ⟨w₂, hcopy, hrun⟩
          rw [Exec.bind_of_ok hcopy]
          have hround := ih (i + 1) _ (by omega) hnext
          rw [← Exec.bind_of_ok (f := fun _ => ChkIndex.splitLoop env c.num k (i + 1)) hrun,
            Exec.bind_assoc] at hround
          simp only [Exec.bind_assoc] at hround
          exact hround
        · rw [if_neg hlast]
          have hext := h.extent_ge ht hi
          have hr2 := Content.reserved_ge i
          have hload := load_at (o := 0) (f := ChkMetadata.virgin)
            (h.obtained_inside hi (n := 64) (by omega) .chunk
              (env.chunkBufSize (L.cap i * 1024)) Bits.zero)
          rw [h.obtained_view hi] at hload
          simp only [ChkMetadata.virgin, Nat.mul_zero, Nat.zero_add] at hload
          rw [(h.image_stays i (Nat.le_refl i) hi).virgin] at hload
          rcases h.copy_ok ht hi (n := chkSize (c.body i).virgin) (by
            unfold extent
            rw [if_neg (by omega)]
            simp only [chkSize]
            omega) with ⟨w₂, hcopy, hrun⟩
          refine Exec.Ensures.bind (P := fun v w' => v = (c.body i).virgin ∧
            w' = w.obtained .chunk (env.chunkBufSize (L.cap i * 1024)) Bits.zero)
            (Exec.Ensures.of_eq hload ⟨rfl, rfl⟩) ?_
          rintro _ _ ⟨rfl, rfl⟩
          rw [Exec.bind_of_ok hcopy]
          have hround := ih (i + 1) _ (by omega) hnext
          rw [← Exec.bind_of_ok (f := fun _ => ChkIndex.splitLoop env c.num k (i + 1)) hrun,
            Exec.bind_assoc] at hround
          simp only [Exec.bind_assoc] at hround
          exact hround
      · rw [Exec.bind_of_error (Exec.require_of_not (fun hne => hne rfl) _ _)]
        exact ⟨rfl, hfail⟩

/-!
## Giving the buffer back
-/

theorem finish (h : Joint env kind org w c L c.num) :
    w.sys.Owns kind org ∧ Uncompressed env (w.released org.blk) c L.apart := by
  have hpos1 : 1 ≤ L.apart.shared := Nat.le_refl 1
  have halone : forall k, L.apart.shared ≤ max 1 k := fun k => Nat.le_max_left 1 k
  have hholder : forall k, L.apart.holder k = k := fun k => L.apart.holder_alone (halone k)
  have hbase : forall k, L.apart.base k = 0 := fun k => L.apart.base_alone (halone k)
  have hown : forall k, L.apart.own k = L.cap k := fun k => L.apart.own_alone hpos1 (halone k)
  have halloc : forall k, k < c.num ->
      (w.released org.blk).sys.allocs (w.index.chkAddr k).blk =
        w.sys.allocs (w.index.chkAddr k).blk :=
    fun k hk => World.released_allocs_other w (h.moved_ne k hk)
  refine ⟨?_, ?_⟩
  · rcases h.buffer with ⟨size, hbuf, _⟩
    refine ⟨h.off, ?_⟩
    rw [hbuf]
    rfl
  · refine ⟨h.num, h.flag, h.type, h.size, h.size_le, h.sane.released _, ?_, h.fits, ?_,
      h.image_moved, ?_, fun _ => h.mgr, fun _ => h.total⟩
    · intro b n m hb
      have hout := h.outer b n m hb
      refine ⟨?_, hout.2⟩
      rw [World.released_allocs_other]
      · exact hout.1
      · intro heq
        rcases h.buffer with ⟨size, hbuf, _⟩
        rw [← heq, hout.1] at hbuf
        cases hbuf
        exact h.kind_ne rfl
    · constructor
      · intro k hk
        rw [hholder, hbase]
        have hoff := h.moved_off k hk
        show w.index.chkAddr k = ⟨(w.index.chkAddr k).blk, 0⟩
        rw [← hoff]
      · intro k hk _
        rw [hown]
        rcases h.moved_alloc k hk with ⟨size, hblk, hsize⟩
        exact ⟨size, (halloc k hk).trans hblk, hsize⟩
      · intro k k' hk hk' _ _ hblk
        exact h.distinct k k' hk hk' hblk
      · intro b a hb hkind
        by_cases horg : b = org.blk
        · rw [horg, World.released_allocs_self] at hb
          cases hb
        · rw [World.released_allocs_other w horg] at hb
          rcases (h.all b a hb hkind).resolve_left horg with ⟨k, hk, hblk⟩
          exact ⟨k, hk, hholder k, hblk⟩
    · intro k hk
      rw [hown]
      exact h.own_moved k hk

theorem first (h : Joint env kind org w c L 0) (hpos : 0 < c.num) :
    w.index.chkAddr 0 = org ∧ w.chunkBits 0 = w.bits org.blk := by
  have haddr := h.stays 0 (Nat.le_refl 0) hpos
  have horg : org = ⟨org.blk, 0⟩ := by rw [← h.off]
  have hfirst : w.index.chkAddr 0 = org := by
    rw [haddr, horg]
    rfl
  refine ⟨hfirst, ?_⟩
  unfold World.chunkBits World.view
  rw [hfirst, h.off]
  funext j
  rw [Bits.drop_apply, Nat.mul_zero, Nat.zero_add]

end Joint

theorem isContinuous_of {w : World} {n t o : Nat} (hnum : w.index.chkNum = n) (hn : 1 < n)
    (hsize : 0 < w.index.chkAddrSize)
    (ht : load ((w.index.chkAddr 0).add 16) ChkMemMgr.totalCapacity w = .ok (t, w))
    (ho : load (w.index.chkAddr 0) ChkMetadata.allocCapacity w = .ok (o, w)) :
    ChkIndex.isContinuousChunk w = .ok (decide (t = o), w) := by
  have hread : readChkAddr 0 w = .ok (w.index.chkAddr 0, w) := readChkAddr_of hsize
  have hmgr : ChkIndex.memMgr w = .ok ((w.index.chkAddr 0).add 16, w) := by
    unfold ChkIndex.memMgr
    rw [Exec.bind_of_ok (getIndex_apply w), if_neg (by omega), Exec.bind_of_ok hread]
    rfl
  unfold ChkIndex.isContinuousChunk
  rw [Exec.bind_of_ok (getIndex_apply w), if_pos (by omega), Exec.bind_of_ok hmgr,
    Exec.bind_of_ok ht, Exec.bind_of_ok hread, Exec.bind_of_ok ho]
  rfl

namespace Joint

variable {env : Env} {kind : AllocKind} {org : Ptr} {w : World} {c : Content} {L : Layout}
  {bs : List Block}

theorem isContinuous_ok (h : Joint env kind org w c L 0)
    (ht : Content.Tiling env.freeSize bs c) (hset : Settled c L) (hn : 1 < c.num) :
    ChkIndex.isContinuousChunk w = .ok (true, w) := by
  have hsize := h.size
  have hext := h.extent_ge ht (k := 0) (by omega)
  have hr0 : reserved 0 = 5 := rfl
  have hfirst := h.first (by omega)
  have htotal := load_at (w := w) (p := w.index.chkAddr 0) (o := 16)
    (f := ChkMemMgr.totalCapacity) (h.inside (Nat.le_refl 0) (by omega) (by
      simp only [ChkMemMgr.totalCapacity]
      omega))
  have hread : (w.view (w.index.chkAddr 0)).read (8 * 16 + ChkMemMgr.totalCapacity.pos)
      ChkMemMgr.totalCapacity.width = L.total := h.total
  rw [hread] at htotal
  have hown := h.load_ok ht (Nat.le_refl 0) (k := 0) (by omega) (f := ChkMetadata.allocCapacity)
    (by decide)
  rw [hfirst.2] at hown
  simp only [ChkMetadata.allocCapacity] at hown
  rw [h.owner] at hown
  rw [isContinuous_of h.num hn (by omega) htotal hown,
    decide_eq_true (show L.total = L.start c.num from hset)]

theorem split_ensures (h : Joint env kind org w c L 0)
    (ht : Content.Tiling env.freeSize bs c) (hset : Settled c L) (hn : 1 < c.num)
    (hkind : kind = if env.uncompressSplit = true then .system else .chunk) :
    Exec.Ensures (ChkIndex.splitContinuousChunk env w)
      (fun r w' => r = 0 ∧ Uncompressed env w' c L.apart) (Tolerated env) := by
  have hsize := h.size
  have hread : readChkAddr 0 w = .ok (org, w) := by
    have hrun := readChkAddr_of (w := w) (i := 0) (by omega)
    rw [(h.first (by omega)).1] at hrun
    exact hrun
  unfold ChkIndex.splitContinuousChunk
  rw [Exec.bind_of_ok (h.isContinuous_ok ht hset hn), if_neg (by decide),
    Exec.bind_of_ok (getIndex_apply w), Exec.bind_of_ok hread, h.num]
  refine Exec.Ensures.bind (splitLoop_ensures ht c.num 0 w (by omega) h) ?_
  intro _ w₁ h₁
  rcases h₁.finish with ⟨howns, h₂⟩
  by_cases hs : env.uncompressSplit = true
  · rw [if_pos hs] at hkind ⊢
    subst hkind
    have hfree : sysFree org w₁ = .ok ((), w₁.released org.blk) := release_ok howns
    rw [Exec.bind_of_ok hfree]
    exact ⟨rfl, h₂⟩
  · rw [if_neg hs] at hkind ⊢
    subst hkind
    have hm : ¬env.memalign = true := fun hm => hs (env.split_of_memalign hm)
    have hone : 1 ≤ L.cap 0 := h.fits.one_le 0 (by omega)
    have hstart := Layout.start_add_le (L := L) (k := 0) (n := c.num) (by omega)
    have hroom : w₁.sys.Inside (org.add 0) 91 := by
      rcases h₁.buffer with ⟨size, hbuf, hle⟩
      have hstart' := Layout.start_add_le (L := L) (k := 0) (n := c.num - 1) (by omega)
      refine ⟨_, hbuf, ?_⟩
      simp only [Ptr.add, h.off]
      omega
    have hload := load_at (f := ChkMetadata.allocCapacity) hroom
    have hown : (w₁.view org).read (8 * 0 + ChkMetadata.allocCapacity.pos)
        ChkMetadata.allocCapacity.width = L.start c.num := by
      rw [← h₁.owner]
      unfold World.view
      rw [h.off, Bits.read_drop]
      simp only [ChkMetadata.allocCapacity]
    rw [hown] at hload
    have hdestruct : ChkMetadata.destruct env org w₁ = .ok ((), w₁.released org.blk) := by
      have hload' : load org ChkMetadata.allocCapacity w₁ = .ok (L.start c.num, w₁) := hload
      unfold ChkMetadata.destruct
      rw [Exec.bind_of_ok hload', if_pos (by omega)]
      exact dellocate_ok howns fun hm' => absurd hm' hm
    rw [Exec.bind_of_ok hdestruct]
    exact ⟨rfl, h₂⟩

end Joint

namespace Uncompressed

variable {env : Env} {w : World} {c : Content} {L : Layout} {bs : List Block}

/-- The total is the capacity of the first allocation exactly when all chunks
share it. -/
theorem start_eq_iff (h : Uncompressed env w c L) (hn : 1 < c.num) :
    L.start c.num = L.start L.shared <-> L.shared = c.num := by
  have hshared := h.fits.shared_le
  constructor
  · intro heq
    by_contra hne
    have hone := h.fits.one_le L.shared (by omega)
    have hstart := Layout.start_add_le (L := L) (k := L.shared) (n := c.num) (by omega)
    omega
  · intro heq
    rw [heq]

theorem isContinuous_ok (h : Uncompressed env w c L) (hset : Settled c L) :
    ChkIndex.isContinuousChunk w = .ok (decide (1 < c.num ∧ L.shared = c.num), w) := by
  have hsize := h.size
  by_cases hn : 1 < c.num
  · have htotal := h.load_mgr (by omega) ChkMemMgr.totalCapacity (by decide)
    have hread : (w.chunkBits 0).read (mgrPos + ChkMemMgr.totalCapacity.pos)
        ChkMemMgr.totalCapacity.width = L.total := h.total (by omega)
    rw [hread] at htotal
    have hown := h.load_allocCapacity (k := 0) (by omega)
    rw [isContinuous_of h.num hn (by omega) htotal hown]
    have hiff : (L.total = L.own 0) <-> (1 < c.num ∧ L.shared = c.num) := by
      rw [hset, L.own_zero, h.start_eq_iff hn]
      exact ⟨fun heq => ⟨hn, heq⟩, fun hand => hand.2⟩
    rw [decide_eq_decide.mpr hiff]
  · unfold ChkIndex.isContinuousChunk
    rw [Exec.bind_of_ok (getIndex_apply w), h.num, if_neg (by omega),
      decide_eq_false fun hand => hn hand.1]
    rfl

theorem joint (h : Uncompressed env w c L) (hn : 1 < c.num) (hshared : L.shared = c.num) :
    Joint env .chunk (w.index.chkAddr 0) w c L 0 := by
  have hf := h.fits
  have hself : L.holder 0 = 0 := L.holder_of_shared (by omega)
  have hholder : forall k, k < c.num -> L.holder k = 0 :=
    fun k hk => L.holder_of_shared (by omega)
  have hoff : (w.index.chkAddr 0).off = 0 := by
    rw [h.place.off_eq (by omega), L.base_of_shared (by omega)]
    rfl
  refine ⟨h.num, h.flag, h.type, h.size, h.size_le, h.sane, h.outer, ?_, hoff,
    fun k hk => by omega, fun k hk => by omega, fun k hk => by omega,
    fun k k' hk => by omega, ?_, by decide, ?_, ?_, fun k hk => by omega,
    fun k hk => by omega, ?_, ?_, h.mgr (by omega), h.total (by omega)⟩
  · exact ⟨hf.num_le, hf.one_le, hf.cap_le, hf.virgin_le, hf.first, Nat.le_refl 1,
      Nat.le_max_left 1 _, fun _ => rfl⟩
  · intro k _ hk
    rw [h.place.addr k hk, hholder k hk, L.base_of_shared (by omega)]
  · rcases h.place.alloc 0 (by omega) hself with ⟨size, halloc, hsize⟩
    refine ⟨size, halloc, ?_⟩
    have hfit := hf.virgin_le (c.num - 1) (by omega)
    have hown : L.own 0 = L.start (c.num - 1) + L.cap (c.num - 1) := by
      rw [L.own_zero, ← L.start_succ, hshared]
      congr 1
      omega
    have hbuf := env.le_chunkBufSize (n := 1024 * L.own 0) fun hm => hf.own_le hm (by omega)
    omega
  · intro b a hb hkind
    rcases h.place.all b a hb hkind with ⟨k, hk, hkself, hblk⟩
    rw [hholder k hk] at hkself
    exact Or.inl (by rw [← hblk, ← hkself])
  · intro k _ hk
    apply (h.image k hk).mono
    have hcap := hf.cap_le k hk
    have hreach := env.le_reach hcap
    have hfit := hf.virgin_le k hk
    unfold extent
    split <;> omega
  · have hown := h.own 0 (by omega)
    rw [L.own_zero, hshared] at hown
    rw [← hown]
    unfold World.chunkBits World.view
    rw [hoff, Bits.read_drop]

theorem split_ensures (h : Uncompressed env w c L) (ht : Content.Tiling env.freeSize bs c)
    (hset : Settled c L) :
    Exec.Ensures (ChkIndex.splitContinuousChunk env w)
      (fun r w' => r = 0 ∧
        ((1 < c.num ∧ L.shared = c.num ∧ Uncompressed env w' c L.apart) ∨
          (¬(1 < c.num ∧ L.shared = c.num) ∧ w' = w)))
      (Tolerated env) := by
  by_cases hall : 1 < c.num ∧ L.shared = c.num
  · refine ((h.joint hall.1 hall.2).split_ensures ht hset hall.1 ?_).mono ?_ (fun _ he => he)
    · by_contra hne
      split at hne
      · next hs =>
          have := h.fits.split hs
          omega
      · exact hne rfl
    · rintro r w' ⟨hr, h'⟩
      exact ⟨hr, Or.inl ⟨hall.1, hall.2, h'⟩⟩
  · unfold ChkIndex.splitContinuousChunk
    rw [Exec.bind_of_ok (h.isContinuous_ok hset), decide_eq_false hall, if_pos rfl]
    exact ⟨rfl, Or.inr ⟨hall, rfl⟩⟩

end Uncompressed

end ChunkMem
