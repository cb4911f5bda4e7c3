import ChunkMem.Refinement.Growth

/-!
# The last chunk changes its capacity

`ChkMetadata::enlarge` and `ChkMetadata::shrink` move the last chunk
into an allocation of another size, or change its header where it lies.  The
content stays what it was: the copy reaches up to the virgin mark at least, and
above it user memory is clear.
-/

namespace ChunkMem

open Foundation

/-!
## Copies of a chunk
-/

theorem ChunkImage.copied {b : Body} {cap k hi n : Nat} {m : Bits}
    (h : ChunkImage b cap k hi m) (hr : reserved k ≤ b.virgin) (hn : 64 * b.virgin ≤ n)
    (hle : n ≤ hi) (habove : forall j, 64 * b.virgin ≤ j -> b.bits j = false) (hi' : Nat) :
    ChunkImage b cap k hi' (Bits.zero.copy 0 m 0 n) := by
  have hr2 := Content.reserved_ge k
  have hsame : forall j, j < n -> Bits.zero.copy 0 m 0 n j = m j := by
    intro j hj
    rw [Bits.copy_inside (by omega) (by omega)]
    congr 1
    omega
  refine h.user ?_ rfl rfl ?_
  · intro j hj
    exact hsame j (by omega)
  · intro j hj1 hj2
    by_cases hj : j < n
    · rw [hsame j hj]
      exact h.data j hj1 (by omega)
    · rw [Bits.copy_outside (by omega), habove j (by omega)]
      rfl

theorem MgrImage.copied {cls : Fin 3 -> Nat} {c : Content} {m : Bits} {n : Nat}
    (h : MgrImage cls c m) (hn : mgrPos + 192 ≤ n) :
    MgrImage cls c (Bits.zero.copy 0 m 0 n) := by
  apply h.congr rfl rfl rfl
  intro j hj1 hj2
  rw [Bits.copy_inside (by omega) (by omega)]
  congr 1
  omega

theorem Foundation.Bits.read_copied {m : Bits} {n a x : Nat} (h : a + x ≤ n) :
    (Bits.zero.copy 0 m 0 n).read a x = m.read a x := by
  apply Bits.read_congr
  intro i hi
  rw [Bits.copy_inside (by omega) (by omega)]
  congr 1
  omega

def stamped (m : Bits) (v : Nat) : Bits := (m.write 32 5 v).write 75 16 v

theorem stamped_own {m : Bits} {v : Nat} (hv : v < 2 ^ 16) : (stamped m v).read 75 16 = v :=
  Bits.read_write_of_lt hv

theorem stamped_outside {m : Bits} {v j : Nat} (hj : j < 32 ∨ 91 ≤ j) : stamped m v j = m j := by
  unfold stamped
  rw [Bits.write_outside (by omega), Bits.write_outside (by omega)]

theorem ChunkImage.stamp {b : Body} {cap k hi v : Nat} {m : Bits}
    (h : ChunkImage b cap k hi m) (hv : v < 2 ^ 5) : ChunkImage b v k hi (stamped m v) :=
  (h.setCapacity hv).setAllocCapacity v

theorem stamp_ok {w : World} {p : Ptr} {v : Nat} (hv : v < 2 ^ 5)
    (h : w.sys.Inside p 128) :
    (do
        store p ChkMetadata.capacity v
        let c <- load p ChkMetadata.capacity
        store p ChkMetadata.allocCapacity c
        pure p : M Ptr) w = .ok (p, w.setView p (stamped (w.view p) v)) := by
  have hin : forall n, n ≤ 128 -> w.sys.Inside (p.add 0) n := by
    intro n hn
    rcases h with ⟨a, ha, hle⟩
    exact ⟨a, ha, by simp only [Ptr.add]; omega⟩
  have hstore : store p ChkMetadata.capacity v w =
      .ok ((), w.setView p ((w.view p).write 32 5 v)) :=
    store_at (o := 0) (f := ChkMetadata.capacity) (hin _ (by decide)) v
  generalize hw₁ : w.setView p ((w.view p).write 32 5 v) = w₁ at hstore
  have hview : w₁.view p = (w.view p).write 32 5 v := by
    rw [← hw₁, World.view_setView]
  have hload : load p ChkMetadata.capacity w₁ = .ok (v, w₁) := by
    have hload := load_at (w := w₁) (p := p) (o := 0) (f := ChkMetadata.capacity)
      (by rw [← hw₁]; exact hin _ (by decide))
    rw [hview] at hload
    simp only [ChkMetadata.capacity, Nat.mul_zero, Nat.zero_add] at hload
    rw [Bits.read_write_of_lt hv] at hload
    exact hload
  have hstamp : store p ChkMetadata.allocCapacity v w₁ =
      .ok ((), w₁.setView p ((w₁.view p).write 75 16 v)) :=
    store_at (o := 0) (f := ChkMetadata.allocCapacity)
      (by rw [← hw₁]; exact hin _ (by decide)) v
  rw [Exec.bind_of_ok hstore, Exec.bind_of_ok hload, Exec.bind_of_ok hstamp, hview, ← hw₁,
    World.setView_setView]
  rfl

/-!
## The last chunk in its new place
-/

/-- Chunk `k` lies at `q` now, in an allocation of the given size; the table does
not show it yet. -/
structure Moved (w w' : World) (k : Nat) (q : Ptr) (size : Nat) : Prop where
  index : w'.index = w.index
  off : q.off = 0
  fresh : q.blk = (w.index.chkAddr k).blk ∨ w.sys.allocs q.blk = none
  alloc : w'.sys.allocs q.blk = some ⟨.chunk, size⟩
  gone : q.blk ≠ (w.index.chkAddr k).blk -> w'.sys.allocs (w.index.chkAddr k).blk = none
  allocs : forall b, b ≠ q.blk -> b ≠ (w.index.chkAddr k).blk ->
    w'.sys.allocs b = w.sys.allocs b
  bits : forall b, b ≠ q.blk -> b ≠ (w.index.chkAddr k).blk -> w'.bits b = w.bits b
  sane : Sane w'.sys

/-- The table shows chunk `k` at `q`. -/
def World.placed (w : World) (k : Nat) (q : Ptr) : World :=
  { w with index := { w.index with chkAddr := Function.update w.index.chkAddr k q } }

theorem Moved.setView {w w' : World} {k size : Nat} {q : Ptr} (h : Moved w w' k q size)
    (m : Bits) : Moved w (w'.setView q m) k q size :=
  ⟨h.index, h.off, h.fresh, h.alloc, h.gone, h.allocs, fun b hb hb' => by
    rw [World.setView_bits_other w' q m hb, h.bits b hb hb'], h.sane⟩

namespace Uncompressed

variable {env : Env} {w : World} {c : Content} {L : Layout} {bs : List Block}

theorem placed_putLast (h : Uncompressed env w c L) {k : Nat} (hk : k + 1 = c.num)
    (halone : L.shared ≤ max 1 k) {w₁ : World} {q : Ptr} {size : Nat}
    (hmoved : Moved w w₁ k q size) :
    PutLast w (w₁.placed k q) k (w.index.chkAddr k).blk q size where
  num := by
    have hnum := h.num
    rw [← hmoved.index, ← hk] at hnum
    exact hnum
  flag := by
    rw [← hmoved.index]
    rfl
  type := by
    rw [← hmoved.index]
    rfl
  addrSize := by
    rw [← hmoved.index]
    rfl
  addr := Function.update_self ..
  addrs := by
    intro i hi
    rw [← hmoved.index]
    exact Function.update_of_ne (Nat.ne_of_lt hi) ..
  off := hmoved.off
  sane := hmoved.sane
  alloc := hmoved.alloc
  gone := hmoved.gone
  fresh := hmoved.fresh
  caller := by
    intro n hn
    rcases h.holds (k := k) (by omega) with ⟨s, halloc, -⟩
    rw [hn] at halloc
    cases halloc
  front := by
    intro i hi heq
    have hle := L.holder_le i
    have hself := L.holder_alone halone
    rw [h.place.addr i (by omega)] at heq
    have hsame := h.place.distinct (L.holder i) k (by omega) (by omega) (L.holder_holder i)
      hself heq
    omega
  last := fun _ => rfl
  allocs := hmoved.allocs
  bits := hmoved.bits

theorem resizeLast (h : Uncompressed env w c L) {k : Nat} (hk : k + 1 = c.num)
    (halone : L.shared ≤ max 1 k) {w₁ : World} {q : Ptr} {size v cap : Nat} {m : Bits}
    (hmoved : Moved w w₁ k q size) (hv1 : 1 ≤ v) (hv16 : v ≤ 16)
    (hvirgin : (c.body k).virgin ≤ 128 * v) (hsize : env.chunkBufSize (1024 * v) ≤ size)
    (hview : w₁.view q = stamped m v)
    (himage : ChunkImage (c.body k) cap k (env.reach v) m)
    (hmgr : k = 0 -> MgrImage env.freeSize c m ∧ m.read (mgrPos + 64) 16 = L.total) :
    Uncompressed env (w₁.placed k q) c (L.setCap k v) := by
  have hput := h.placed_putLast hk halone hmoved
  have hchunk : (w₁.placed k q).chunkBits k = stamped m v := by
    unfold World.chunkBits
    rw [hput.addr]
    exact hview
  have hnum := h.fits.num_le
  have hroom := h.size
  refine hput.uncompressed h (by omega) (by omega) (by omega) (by omega) halone
    (fun h1 => h.fits.first (by omega)) hv1 hv16 hsize hk.symm (fun _ _ => rfl)
    (fun _ => ⟨rfl, rfl, rfl⟩) hvirgin ?_ ?_ ?_
  · rw [hchunk]
    exact himage.stamp (by omega)
  · rw [hchunk]
    exact stamped_own (by omega)
  · intro hz
    rw [hchunk]
    constructor
    · apply (hmgr hz).1.congr rfl rfl rfl
      intro j hj _
      unfold mgrPos at hj
      exact stamped_outside (by omega)
    · refine Eq.trans (Bits.read_congr fun i _ => ?_) (hmgr hz).2
      unfold mgrPos
      exact stamped_outside (by omega)

/-!
## Moving
-/

/-- The memory of chunk `k` was carried to `q`, where it may have the capacity
`v`. -/
structure Carried (env : Env) (w : World) (c : Content) (L : Layout) (k v : Nat) (q : Ptr)
    (w' : World) : Prop where
  ne_null : q ≠ Ptr.null
  moved : exists size, Moved w w' k q size ∧ env.chunkBufSize (1024 * v) ≤ size ∧
    1024 * v ≤ size
  image : ChunkImage (c.body k) (L.cap k) k (env.reach v) (w'.view q)
  mgr : k = 0 -> MgrImage env.freeSize c (w'.view q) ∧
    (w'.view q).read (mgrPos + 64) 16 = L.total

theorem owns_alone (h : Uncompressed env w c L) {k : Nat} (hk : k < c.num)
    (halone : L.shared ≤ max 1 k) : w.sys.Owns .chunk (w.index.chkAddr k) := by
  rcases h.holds hk with ⟨size, halloc, _⟩
  have hoff := h.place.off_eq hk
  rw [L.base_alone halone] at hoff
  refine ⟨by omega, ?_⟩
  rw [halloc]
  rfl

theorem not_owns_shared (h : Uncompressed env w c L) {k : Nat} (hk : k < c.num)
    (hz : k ≠ 0) (hshared : k < L.shared) : ¬w.sys.Owns .chunk (w.index.chkAddr k) := by
  intro howns
  have hoff := h.place.off_eq hk
  have hone := h.fits.one_le 0 (by omega)
  have hstart := Layout.start_le (L := L) (show 1 ≤ k by omega)
  have h1 : L.start 1 = L.cap 0 := by
    rw [show (1 : Nat) = 0 + 1 from rfl, L.start_succ]
    exact Nat.zero_add _
  rw [howns.1, Layout.base_of_shared hshared] at hoff
  omega

theorem chunkBits_obtained (h : Uncompressed env w c L) {k : Nat} (hk : k < c.num)
    (kind : AllocKind) (size : Nat) (m : Bits) :
    (w.obtained kind size m).view (w.index.chkAddr k) = w.chunkBits k := by
  unfold World.chunkBits World.view
  rw [World.obtained_bits_other _ _ _ _ (h.blk_ne_next hk)]

theorem inside_obtained (h : Uncompressed env w c L) {k n : Nat} (hk : k < c.num)
    (hn : n ≤ 8192 * L.cap k) (kind : AllocKind) (size : Nat) (m : Bits) :
    (w.obtained kind size m).sys.Inside (w.index.chkAddr k) n := by
  rcases h.inside (o := 0) (n := n) hk (by omega) with ⟨a, ha, hle⟩
  refine ⟨a, ?_, hle⟩
  rw [World.obtained_allocs_other _ _ _ _ (h.blk_ne_next hk)]
  exact ha

/-- Copying the first `n` bytes of the last chunk into a fresh allocation and
releasing the old one. -/
theorem relocate_ok (h : Uncompressed env w c L) {k n size : Nat} (orgSize : Nat) (hk : k < c.num)
    (halone : L.shared ≤ max 1 k) (hn : 8 * n ≤ 8192 * L.cap k) (hle : n ≤ size)
    (horg : env.memalign = true -> orgSize ≤ chkMaxChksize) :
    memcpy w.freshPtr (w.index.chkAddr k) n (w.obtained .chunk size Bits.zero) =
        .ok ((), w.obtained .chunk size (Bits.zero.copy 0 (w.chunkBits k) 0 (8 * n))) ∧
      dellocate env (w.index.chkAddr k) orgSize
          (w.obtained .chunk size (Bits.zero.copy 0 (w.chunkBits k) 0 (8 * n))) =
        .ok ((), (w.obtained .chunk size
          (Bits.zero.copy 0 (w.chunkBits k) 0 (8 * n))).released (w.index.chkAddr k).blk) := by
  have hcopy := memcpy_at (w := w.obtained .chunk size Bits.zero) (p := w.freshPtr)
    (h.inside_obtained hk hn .chunk size Bits.zero)
    (w.obtained_inside (o := 0) .chunk size Bits.zero (by omega))
  rw [World.view_obtained_self, h.chunkBits_obtained hk, World.obtained_setView] at hcopy
  have howns : (w.obtained .chunk size (Bits.zero.copy 0 (w.chunkBits k) 0
      (8 * n))).sys.Owns .chunk (w.index.chkAddr k) := by
    have hold := h.owns_alone hk halone
    refine ⟨hold.1, ?_⟩
    rw [World.obtained_allocs_other _ _ _ _ (h.blk_ne_next hk)]
    exact hold.2
  exact ⟨hcopy, dellocate_ok howns horg⟩

theorem relocate_carried (h : Uncompressed env w c L)
    (ht : Content.Tiling env.freeSize bs c) {k n v size : Nat} (hk : k < c.num)
    (hv : 64 * (c.body k).virgin ≤ 8 * n) (hn : 8 * n ≤ 8192 * L.cap k)
    (hsize : env.chunkBufSize (1024 * v) ≤ size) (hv16 : v ≤ 16) :
    Carried env w c L k v w.freshPtr ((w.obtained .chunk size
      (Bits.zero.copy 0 (w.chunkBits k) 0 (8 * n))).released (w.index.chkAddr k).blk) := by
  have hne := h.blk_ne_next hk
  have hr := ht.reserved_le k hk
  have hreach := env.le_reach (h.fits.cap_le k hk)
  have hview : ((w.obtained .chunk size (Bits.zero.copy 0 (w.chunkBits k) 0
      (8 * n))).released (w.index.chkAddr k).blk).view w.freshPtr =
      Bits.zero.copy 0 (w.chunkBits k) 0 (8 * n) :=
    World.view_obtained_self w .chunk size _
  constructor
  · exact h.sane.freshPtr_ne_null
  · refine ⟨size, ⟨rfl, rfl, Or.inr (h.sane.fresh _ (Nat.le_refl _)), ?_, ?_, ?_, ?_, ?_⟩,
      hsize, ?_⟩
    · rw [World.released_allocs_other _ (show w.freshPtr.blk ≠ _ from Ne.symm hne)]
      exact World.obtained_allocs_self w .chunk size _
    · intro _
      exact World.released_allocs_self _ _
    · intro b hb hb'
      rw [World.released_allocs_other _ hb']
      exact World.obtained_allocs_other w .chunk size _ hb
    · intro b hb _
      exact World.obtained_bits_other w .chunk size _ hb
    · exact (h.sane.obtained _ _ _).released _
    · have hbuf := env.le_chunkBufSize (n := 1024 * v) fun _ => by omega
      omega
  · rw [hview]
    exact (h.image k hk).copied hr hv (by omega) (ht.above k hk) _
  · intro hz
    subst hz
    have hr0 : reserved 0 = 5 := rfl
    rw [hview]
    refine ⟨(h.mgr hk).copied (by unfold mgrPos; omega), ?_⟩
    rw [Bits.read_copied (by unfold mgrPos; omega)]
    exact h.total hk

theorem reallocate_ensures (h : Uncompressed env w c L)
    (ht : Content.Tiling env.freeSize bs c) {k v : Nat} (hk : k < c.num)
    (halone : L.shared ≤ max 1 k) (hv16 : v ≤ 16) (hvirgin : (c.body k).virgin ≤ 128 * v) :
    Exec.Ensures (reallocate env (w.index.chkAddr k) (L.cap k * 1024) (v * 1024) w)
      (fun q w' => (q = Ptr.null ∧ ¬env.AllOk ∧ w' = w.skipped) ∨
        Carried env w c L k v q w')
      (Tolerated env) := by
  have hcap := h.fits.cap_le k hk
  have hfit := h.fits.virgin_le k hk
  have hne : w.index.chkAddr k ≠ Ptr.null := h.chkAddr_ne_null hk 0
  have hsize : env.memalign = true -> v * 1024 ≤ chkMaxChksize := by
    intro _
    simp only [chkMaxChksize]
    omega
  unfold reallocate
  rw [Exec.bind_of_ok (Exec.require_of hsize _ _), if_neg hne,
    Exec.bind_of_ok (Exec.state_apply _),
    Exec.bind_of_ok (Exec.require_of (h.owns_alone hk halone) _ _)]
  by_cases hm : env.memalign = true
  · -- the pool hands the old block back
    rw [if_pos hm]
    rcases h.place.alloc k hk (L.holder_alone halone) with ⟨size, halloc, hbuf⟩
    have hreach : env.reach v = env.reach (L.cap k) := by
      unfold Env.reach
      rw [if_pos hm, if_pos hm]
    have hbuf' : env.chunkBufSize (1024 * v) ≤ size := by
      unfold Env.chunkBufSize at hbuf ⊢
      rw [if_pos hm] at hbuf ⊢
      exact hbuf
    refine Or.inr ⟨hne, ⟨size, ⟨rfl, (h.owns_alone hk halone).1, Or.inl rfl, halloc,
      fun hne => absurd rfl hne, fun _ _ _ => rfl, fun _ _ _ => rfl, h.sane⟩, hbuf', ?_⟩, ?_, ?_⟩
    · have hle := env.le_chunkBufSize (n := 1024 * v) fun _ => by omega
      omega
    · rw [hreach]
      exact h.image k hk
    · intro hz
      subst hz
      exact ⟨h.mgr hk, h.total hk⟩
  · rw [if_neg hm]
    have hbuf : env.chunkBufSize (1024 * v) = v * 1024 := by
      unfold Env.chunkBufSize
      rw [if_neg hm, Nat.mul_comm]
    rcases obtain_cases env w .chunk (v * 1024) Bits.zero with hrun | ⟨hfail, hrun⟩
    · rw [Exec.bind_of_ok hrun, if_neg h.sane.freshPtr_ne_null]
      have hload : load (w.index.chkAddr k) ChkMetadata.capacity
          (w.obtained .chunk (v * 1024) Bits.zero) =
          .ok (L.cap k, w.obtained .chunk (v * 1024) Bits.zero) := by
        have hcap1 := h.fits.one_le k hk
        have hload := load_at (p := w.index.chkAddr k) (o := 0) (f := ChkMetadata.capacity)
          (h.inside_obtained hk (n := 37) (by omega) .chunk (v * 1024) Bits.zero)
        rw [h.chunkBits_obtained hk] at hload
        rw [← (h.image k hk).capacity]
        exact hload
      rw [Exec.bind_of_ok hload]
      have hle : min (v * 1024) (chkCapacity (L.cap k)) ≤ v * 1024 := Nat.min_le_left _ _
      have hle' : min (v * 1024) (chkCapacity (L.cap k)) ≤ L.cap k * 1024 :=
        Nat.min_le_right _ _
      have hge : 8 * (c.body k).virgin ≤ min (v * 1024) (chkCapacity (L.cap k)) :=
        Nat.le_min.mpr ⟨by omega, by simp only [chkCapacity]; omega⟩
      rcases h.relocate_ok (L.cap k * 1024) hk halone (by omega) hle
        (fun hm' => absurd hm' hm) with ⟨hcopy, hdell⟩
      rw [Exec.bind_of_ok hcopy, Exec.bind_of_ok hdell]
      refine Or.inr ?_
      exact h.relocate_carried ht hk (by omega) (by omega) (by omega) hv16
    · rw [Exec.bind_of_ok hrun, if_pos rfl]
      exact Or.inl ⟨rfl, hfail, rfl⟩

theorem Carried.finish (h : Uncompressed env w c L) {k v : Nat} (hk : k + 1 = c.num)
    (halone : L.shared ≤ max 1 k) {q : Ptr} {w₁ : World} (hc : Carried env w c L k v q w₁)
    (hv1 : 1 ≤ v) (hv16 : v ≤ 16) (hvirgin : (c.body k).virgin ≤ 128 * v) :
    exists w₂, (do
        store q ChkMetadata.capacity v
        let c <- load q ChkMetadata.capacity
        store q ChkMetadata.allocCapacity c
        pure q : M Ptr) w₁ = .ok (q, w₂) ∧ q ≠ Ptr.null ∧
      writeChkAddr k q w₂ = .ok ((), w₂.placed k q) ∧
      Uncompressed env (w₂.placed k q) c (L.setCap k v) := by
  rcases hc.moved with ⟨size, hmoved, hbuf, hsize⟩
  have hin : w₁.sys.Inside q 128 := ⟨_, hmoved.alloc, by rw [hmoved.off]; simp only; omega⟩
  have hkn := h.size
  refine ⟨_, stamp_ok (by omega) hin, hc.ne_null, ?_, ?_⟩
  · exact writeChkAddr_of (by
      show k < w₁.index.chkAddrSize
      rw [hmoved.index]
      omega) q
  · exact h.resizeLast hk halone (hmoved.setView _) hv1 hv16 hvirgin hbuf
      (World.view_setView _ _ _) hc.image hc.mgr

end Uncompressed

/-- Chunk `k` gets the capacity `v`, and the total follows. -/
def Layout.resize (L : Layout) (k v : Nat) : Layout :=
  (L.setCap k v).setTotal (L.total + v - L.cap k)

theorem Layout.resize_settled {c : Content} {L : Layout} (h : Settled c L) {k : Nat}
    (hk : k + 1 = c.num) (v : Nat) : Settled c (L.resize k v) := by
  show L.total + v - L.cap k = (L.setCap k v).start c.num
  unfold Settled at h
  rw [h, ← hk, start_succ, start_succ, L.setCap_start _ (Nat.le_refl _), L.setCap_self]
  omega

namespace Uncompressed

variable {env : Env} {w : World} {c : Content} {L : Layout} {bs : List Block}

/-!
## Growing
-/

theorem enlargeLast_ensures (h : Uncompressed env w c L)
    (ht : Content.Tiling env.freeSize bs c) (hset : Settled c L) {k : Nat}
    (hk : k + 1 = c.num) (hown : L.own k ≠ 0) (hcap : L.cap k < 16) :
    Exec.Ensures (ChkIndex.enlargeLast env (w.index.chkAddr k) w)
      (fun r w' => (r = 0 ∧ Uncompressed env w' c (L.resize k 16)) ∨
        (r = -1 ∧ ¬env.AllOk ∧ Uncompressed env w' c L))
      (Tolerated env) := by
  have hn := h.num
  have hstart := h.fits.start_bound
  have hle := h.fits.num_le
  have hshared := h.fits.shared_le
  have halone : L.shared ≤ max 1 k := by
    by_contra hcon
    exact hown (L.own_of_shared (by omega) (by omega))
  have hvirgin := ht.virgin_le k (by omega)
  have hne : w.index.chkAddr k ≠ Ptr.null := h.chkAddr_ne_null (k := k) (by omega) 0
  have hcan := h.canEnlarge_ok (k := k) (by omega)
  rw [decide_eq_true ⟨hown, hcap⟩] at hcan
  unfold ChkIndex.enlargeLast ChkMetadata.enlarge ChkMetadata.capacityLevel
  rw [Exec.bind_of_ok (getIndex_apply w), Exec.bind_of_ok (h.capacityBytes_ok (by omega)),
    h.type, hn]
  simp only [if_neg hne]
  have hbytes := h.capacityBytes_ok (k := k) (by omega)
  -- the chunk is carried over, stamped and entered
  refine Exec.Ensures.bind (P := fun q w' => (q = Ptr.null ∧ ¬env.AllOk ∧ w' = w.skipped) ∨
    (q ≠ Ptr.null ∧ writeChkAddr k q w' = .ok ((), w'.placed k q) ∧
      Uncompressed env (w'.placed k q) c (L.setCap k 16))) ?_ ?_
  · rw [Exec.bind_of_ok hcan, if_neg (by decide), Exec.bind_of_ok (Exec.pure_apply _ _),
      Exec.bind_of_ok hbytes]
    refine Exec.Ensures.bind (h.reallocate_ensures (v := 16) ht (by omega) halone
      (Nat.le_refl _) (by omega)) ?_
    rintro q w₁ (⟨rfl, hfail, rfl⟩ | hcarried)
    · rw [if_pos rfl]
      exact Or.inl ⟨rfl, hfail, rfl⟩
    · rcases hcarried.finish h hk halone (by decide) (by decide) (by omega)
        with ⟨w₂, hrun, hq, hwrite, h₂⟩
      rw [if_neg hq]
      exact Exec.Ensures.of_eq hrun (Or.inr ⟨hq, hwrite, h₂⟩)
  · rintro q w₂ (⟨rfl, hfail, rfl⟩ | ⟨hq, hwrite, h₂⟩)
    · rw [if_pos rfl]
      exact Or.inr ⟨rfl, hfail, h.skipped⟩
    · have haddr : (w₂.placed k q).index.chkAddr k = q := Function.update_self ..
      have hbytes₂ := h₂.capacityBytes_ok (k := k) (by omega)
      rw [haddr, L.setCap_self] at hbytes₂
      have hdiff : setChkCapacity (16 * 1024 - L.cap k * 1024) = 16 - L.cap k := by
        simp only [setChkCapacity]
        omega
      rcases h₂.addTotal (n := 16 - L.cap k) (by omega) (by
        show L.total + _ < _
        rw [hset]
        omega) with ⟨w₃, hadd, h₃, -, -⟩
      rw [if_neg hq, ← hk, Nat.add_sub_cancel, Exec.bind_of_ok hwrite,
        Exec.bind_of_ok hbytes₂, hdiff, Exec.bind_of_ok hadd]
      refine Or.inl ⟨rfl, ?_⟩
      have htotal : (L.setCap k 16).total + (16 - L.cap k) = L.total + 16 - L.cap k := by
        show L.total + _ = _
        omega
      rw [htotal] at h₃
      exact h₃

/-!
## Shrinking
-/

/-- The capacity `ChkMetadata::shrink` leaves to a chunk. -/
def shrunk (virgin : Nat) : Nat := (virgin + 127) / 128

theorem metadataShrink_eq (h : Uncompressed env w c L) {k n : Nat} (hk : k < c.num)
    (hn : shrunk (c.body k).virgin = n) :
    ChkMetadata.shrink env (w.index.chkAddr k) w =
      (if L.cap k = n then pure Ptr.null
        else do
          let new <-
            if L.cap k - n < n then
              reallocate env (w.index.chkAddr k) (L.cap k * 1024) (chkCapacity n)
            else do
              let q <- allocate env (chkCapacity n)
              if q = Ptr.null then pure q
              else do
                memcpy q (w.index.chkAddr k) (chkSize (c.body k).virgin)
                dellocate env (w.index.chkAddr k) (L.cap k * 1024)
                pure q
          if new = Ptr.null then pure Ptr.null
          else do
            store new ChkMetadata.capacity n
            let c <- load new ChkMetadata.capacity
            store new ChkMetadata.allocCapacity c
            pure new : M Ptr) w := by
  have hfit := h.fits.virgin_le k hk
  have hvirgin := h.load_virgin hk
  generalize (c.body k).virgin = v at *
  unfold shrunk at hn
  have hreset : setChkCapacity (L.cap k * 1024 - chkSize v) = L.cap k - n := by
    simp only [setChkCapacity, chkSize]
    omega
  unfold ChkMetadata.shrink
  rw [Exec.bind_of_ok (h.capacityBytes_ok hk), Exec.bind_of_ok hvirgin,
    Exec.bind_of_ok (Exec.require_of (by simp only [chkSize]; omega) _ _)]
  simp only [hreset]
  by_cases hz : L.cap k = n
  · rw [if_pos hz, if_pos (by omega)]
  · have hkept : L.cap k - (L.cap k - n) = n := by omega
    rw [if_neg hz, if_neg (by omega), Exec.bind_of_ok (h.load_capacity hk)]
    simp only [hkept]

theorem shrink_eq (h : Uncompressed env w c L) {k : Nat} (hk : k + 1 = c.num) :
    ChkIndex.shrink env w =
      (do
        let new <- ChkMetadata.shrink env (w.index.chkAddr k)
        if new = Ptr.null then pure ()
        else do
          writeChkAddr k new
          let bytes <- ChkMetadata.capacityBytes new
          ChkIndex.subMgr ChkMemMgr.totalCapacity
            (setChkCapacity (L.cap k * 1024 - bytes)) : M Unit)
        w := by
  unfold ChkIndex.shrink
  rw [Exec.bind_of_ok (getIndex_apply w), if_neg (by rw [h.num]; omega), h.num, ← hk,
    Nat.add_sub_cancel, Exec.bind_of_ok (h.readChkAddr_ok (by omega)),
    Exec.bind_of_ok (h.capacityBytes_ok (by omega))]

/-- The last chunk was left alone, or moved to an allocation of `n` kilobytes that the index
does not name yet. -/
def CutDown (env : Env) (c : Content) (L : Layout) (k n : Nat) (q : Ptr) (w : World) : Prop :=
  (q = Ptr.null ∧ (n = L.cap k ∨ ¬env.AllOk) ∧ Uncompressed env w c L) ∨
    (q ≠ Ptr.null ∧ writeChkAddr k q w = .ok ((), w.placed k q) ∧
      Uncompressed env (w.placed k q) c (L.setCap k n))

theorem stampCut_ensures (h : Uncompressed env w c L) {k n : Nat} (hk : k + 1 = c.num)
    (halone : L.shared ≤ max 1 k) (hn1 : 1 ≤ n) (hn16 : n ≤ 16)
    (hvirgin : (c.body k).virgin ≤ 128 * n) {q : Ptr} {u : World}
    (hnew : (q = Ptr.null ∧ ¬env.AllOk ∧ u = w.skipped) ∨ Carried env w c L k n q u) :
    Exec.Ensures ((if q = Ptr.null then pure Ptr.null
      else do
        store q ChkMetadata.capacity n
        let c <- load q ChkMetadata.capacity
        store q ChkMetadata.allocCapacity c
        pure q : M Ptr) u) (CutDown env c L k n) (Tolerated env) := by
  rcases hnew with ⟨rfl, hfail, rfl⟩ | hcarried
  · rw [if_pos rfl]
    exact Or.inl ⟨rfl, Or.inr hfail, h.skipped⟩
  · rcases hcarried.finish h hk halone hn1 hn16 hvirgin with ⟨w₂, hrun, hq, hwrite, h₂⟩
    rw [if_neg hq]
    exact Exec.Ensures.of_eq hrun (Or.inr ⟨hq, hwrite, h₂⟩)

/-- A chunk that gives back at least what it keeps is copied into a new allocation. -/
theorem copyCut_ensures (h : Uncompressed env w c L) (ht : Content.Tiling env.freeSize bs c)
    {k n : Nat} (hk : k < c.num) (halone : L.shared ≤ max 1 k) (hn16 : n ≤ 16)
    (hvirgin : (c.body k).virgin ≤ 128 * n) (hlt : n < L.cap k) {f : Ptr -> M Ptr}
    {Q : Ptr -> World -> Prop}
    (hf : forall q w₁, (q = Ptr.null ∧ ¬env.AllOk ∧ w₁ = w.skipped) ∨ Carried env w c L k n q w₁ ->
      Exec.Ensures (f q w₁) Q (Tolerated env)) :
    Exec.Ensures ((do
        let q <- allocate env (chkCapacity n)
        if q = Ptr.null then do
          let new <- pure q
          f new
        else do
          memcpy q (w.index.chkAddr k) (chkSize (c.body k).virgin)
          dellocate env (w.index.chkAddr k) (L.cap k * 1024)
          let new <- pure q
          f new : M Ptr) w) Q (Tolerated env) := by
  have hcap := h.fits.cap_le k hk
  have hbuf := env.le_chunkBufSize (n := chkCapacity n) fun _ => by
    simp only [chkCapacity]
    omega
  refine Exec.Ensures.bind (allocate_ensures h.sane (by
    intro _
    simp only [chkCapacity, chkMaxChksize]
    omega)) ?_
  rintro q w₁ (⟨rfl, rfl⟩ | ⟨rfl, hfail, rfl⟩)
  · have hroom : chkSize (c.body k).virgin ≤ env.chunkBufSize (chkCapacity n) := by
      simp only [chkCapacity, chkSize] at hbuf ⊢
      omega
    rcases h.relocate_ok (L.cap k * 1024) (k := k) hk halone (by simp only [chkSize]; omega)
      hroom (by
        intro _
        simp only [chkMaxChksize]
        omega) with ⟨hcopy, hdell⟩
    rw [if_neg h.sane.freshPtr_ne_null, Exec.bind_of_ok hcopy, Exec.bind_of_ok hdell,
      Exec.bind_of_ok (Exec.pure_apply _ _)]
    refine hf _ _ (Or.inr (h.relocate_carried ht hk ?_ ?_ ?_ hn16))
    · simp only [chkSize]
      omega
    · simp only [chkSize]
      omega
    · rw [chkCapacity, Nat.mul_comm]
  · rw [if_pos rfl, Exec.bind_of_ok (Exec.pure_apply _ _)]
    exact hf _ _ (Or.inl ⟨rfl, hfail, rfl⟩)

theorem metadataShrink_ensures (h : Uncompressed env w c L)
    (ht : Content.Tiling env.freeSize bs c) {k : Nat} (hk : k + 1 = c.num)
    (halone : L.shared ≤ max 1 k) :
    Exec.Ensures (ChkMetadata.shrink env (w.index.chkAddr k) w)
      (CutDown env c L k (shrunk (c.body k).virgin)) (Tolerated env) := by
  have hcap := h.fits.cap_le k (by omega)
  have hfit := h.fits.virgin_le k (by omega)
  have hr := ht.reserved_le k (by omega)
  have hr2 := Content.reserved_ge k
  have hbounds : 1 ≤ shrunk (c.body k).virgin ∧ shrunk (c.body k).virgin ≤ L.cap k ∧
      (c.body k).virgin ≤ 128 * shrunk (c.body k).virgin := by
    unfold shrunk
    omega
  rw [h.metadataShrink_eq (k := k) (by omega) rfl]
  generalize shrunk (c.body k).virgin = n at hbounds ⊢
  by_cases hz : L.cap k = n
  · rw [if_pos hz]
    exact Or.inl ⟨rfl, Or.inl hz.symm, h⟩
  · rw [if_neg hz]
    have hend := fun q w' => h.stampCut_ensures (q := q) hk halone hbounds.1 (by omega)
      hbounds.2.2 (u := w')
    dsimp only
    split
    · exact (h.reallocate_ensures ht (by omega) halone (by omega) hbounds.2.2).bind hend
    · exact h.copyCut_ensures ht (by omega) halone (by omega) hbounds.2.2 (by omega) hend

theorem countCut_ok {k n : Nat} (h : Uncompressed env w c (L.setCap k n)) (hset : Settled c L)
    (hsmall : L.start c.num < 2 ^ 16) (hk : k + 1 = c.num) (hle : n ≤ L.cap k) :
    exists w', ChkIndex.subMgr ChkMemMgr.totalCapacity (L.cap k - n) w = .ok ((), w') ∧
      Uncompressed env w' c (L.resize k n) := by
  have htotal : L.total = L.start k + L.cap k := by
    unfold Settled at hset
    rw [hset, ← hk, Layout.start_succ]
  unfold Settled at hset
  rcases h.subTotal (n := L.cap k - n) (by omega) (by
    show _ ≤ L.total
    omega) (by
    show L.total < _
    omega) with ⟨w', hsub, h', -, -⟩
  refine ⟨w', hsub, ?_⟩
  have hsum : (L.setCap k n).total - (L.cap k - n) = L.total + n - L.cap k := by
    show L.total - _ = _
    omega
  rw [hsum] at h'
  exact h'

/-- A chunk in an allocation of its own may be cut down to its virgin mark. -/
theorem shrink_ensures (h : Uncompressed env w c L)
    (ht : Content.Tiling env.freeSize bs c) (hset : Settled c L) {k : Nat}
    (hk : k + 1 = c.num) (hown : L.own k ≠ 0) :
    Exec.Ensures (ChkIndex.shrink env w)
      (fun _ w' => (Uncompressed env w' c (L.resize k (shrunk (c.body k).virgin))) ∨
        (¬env.AllOk ∧ Uncompressed env w' c L))
      (Tolerated env) := by
  have hcap := h.fits.cap_le k (by omega)
  have hfit := h.fits.virgin_le k (by omega)
  have hstart := h.fits.start_bound
  have hnum := h.fits.num_le
  have hshared := h.fits.shared_le
  have halone : L.shared ≤ max 1 k := by
    by_contra hcon
    exact hown (L.own_of_shared (by omega) (by omega))
  have hle : shrunk (c.body k).virgin ≤ L.cap k := by
    unfold shrunk
    omega
  rw [h.shrink_eq hk]
  refine Exec.Ensures.bind (h.metadataShrink_ensures ht hk halone) ?_
  generalize shrunk (c.body k).virgin = n at hle ⊢
  rintro q w₂ (⟨rfl, hsame | hfail, h₂⟩ | ⟨hq, hwrite, h₂⟩)
  · rw [if_pos rfl]
    have hL : L.resize k n = L := by
      unfold Layout.resize Layout.setCap Layout.setTotal
      rw [hsame, Function.update_eq_self]
      simp only [Nat.add_sub_cancel]
    refine Or.inl ?_
    rw [hL]
    exact h₂
  · rw [if_pos rfl]
    exact Or.inr ⟨hfail, h₂⟩
  · have haddr : (w₂.placed k q).index.chkAddr k = q := Function.update_self ..
    have hbytes := h₂.capacityBytes_ok (k := k) (by omega)
    rw [haddr, L.setCap_self] at hbytes
    have hdiff : setChkCapacity (L.cap k * 1024 - n * 1024) = L.cap k - n := by
      simp only [setChkCapacity]
      omega
    rcases h₂.countCut_ok hset (by omega) hk hle with ⟨w₃, hsub, h₃⟩
    rw [if_neg hq, Exec.bind_of_ok hwrite, Exec.bind_of_ok hbytes, hdiff]
    exact Exec.Ensures.of_eq hsub (Or.inl h₃)

/-- A last chunk inside the shared allocation is handed to the allocator
although it does not own its memory, unless there is less than a kilobyte to
give back or the copy finds no memory. -/
theorem shrink_shared (h : Uncompressed env w c L) {k : Nat} (hk : k + 1 = c.num)
    (hown : L.own k = 0) :
    ChkIndex.shrink env w =
      if L.cap k = shrunk (c.body k).virgin then .ok ((), w)
      else if L.cap k - shrunk (c.body k).virgin < shrunk (c.body k).virgin ∨
          env.ok w.sys.tick = true then .error .badRelease
      else .ok ((), w.skipped) := by
  have hcap := h.fits.cap_le k (by omega)
  have hone := h.fits.one_le k (by omega)
  have hfit := h.fits.virgin_le k (by omega)
  have hlt : k ≠ 0 ∧ k < L.shared := by
    have hpos := h.fits.shared_pos
    have hshared := h.fits.shared_le
    by_contra hcon
    have := L.own_alone hpos (k := k) (by omega)
    omega
  have hm : ¬env.memalign = true := by
    intro hm
    have := h.fits.split (env.split_of_memalign hm)
    omega
  have hnot := h.not_owns_shared (k := k) (by omega) hlt.1 hlt.2
  have hne : w.index.chkAddr k ≠ Ptr.null := h.chkAddr_ne_null (k := k) (by omega) 0
  have hmeta := h.metadataShrink_eq (k := k) (by omega) rfl
  generalize hv : (c.body k).virgin = v at *
  generalize hnew : shrunk v = n at *
  unfold shrunk at hnew
  rw [h.shrink_eq hk, Exec.bind_apply, hmeta]
  by_cases hz : L.cap k = n
  · rw [if_pos hz, if_pos hz]
    rfl
  · rw [if_neg hz, if_neg hz]
    dsimp only
    by_cases hbranch : L.cap k - n < n
    · have hbad : reallocate env (w.index.chkAddr k) (L.cap k * 1024) (chkCapacity n) w =
          .error .badRelease := by
        unfold reallocate
        rw [Exec.bind_of_ok (Exec.require_of (fun hm' => absurd hm' hm) _ _), if_neg hne,
          Exec.bind_of_ok (Exec.state_apply _),
          Exec.bind_of_error (Exec.require_of_not hnot _ _)]
      rw [if_pos hbranch, if_pos (Or.inl hbranch), Exec.bind_of_error hbad]
    · rw [if_neg hbranch]
      by_cases hok : env.ok w.sys.tick = true
      · have hrun := allocate_plain w hm (chkCapacity n)
        rw [if_pos hok] at hrun
        have hbuf : 8 * chkSize v ≤ 8 * env.chunkBufSize (chkCapacity n) := by
          have hbuf := env.le_chunkBufSize (n := chkCapacity n) fun hm' => absurd hm' hm
          simp only [chkCapacity, chkSize] at hbuf ⊢
          omega
        have hcopy := memcpy_at
          (w := w.obtained .chunk (env.chunkBufSize (chkCapacity n)) Bits.zero) (p := w.freshPtr)
          (h.inside_obtained (k := k) (n := 8 * chkSize v) (by omega)
            (by simp only [chkSize]; omega) .chunk _ _)
          (w.obtained_inside (o := 0) .chunk (env.chunkBufSize (chkCapacity n)) Bits.zero
            (by omega))
        rw [World.obtained_setView] at hcopy
        have hnot' : forall m, ¬(w.obtained .chunk (env.chunkBufSize (chkCapacity n))
            m).sys.Owns .chunk (w.index.chkAddr k) := by
          intro m howns
          refine hnot ⟨howns.1, ?_⟩
          rw [← World.obtained_allocs_other _ _ _ _ (h.blk_ne_next (k := k) (by omega))]
          exact howns.2
        have hbad : forall m, dellocate env (w.index.chkAddr k) (L.cap k * 1024)
            (w.obtained .chunk (env.chunkBufSize (chkCapacity n)) m) =
            .error .badRelease := by
          intro m
          unfold dellocate
          rw [Exec.bind_of_ok (Exec.require_of (fun hm' => absurd hm' hm) _ _)]
          exact release_bad (hnot' m)
        rw [if_pos (Or.inr hok), Exec.bind_of_ok hrun, if_neg h.sane.freshPtr_ne_null,
          Exec.bind_of_ok hcopy, Exec.bind_of_error (hbad _)]
      · have hrun := allocate_plain w hm (chkCapacity n)
        rw [if_neg hok] at hrun
        rw [if_neg (by
          rintro (h1 | h2)
          · exact hbranch h1
          · exact hok h2), Exec.bind_of_ok hrun, if_pos rfl]
        rfl

/-!
## The two halves of chk_enlarge
-/

theorem extend_ensures (h : Uncompressed env w c L)
    (ht : Content.Tiling env.freeSize bs c) (hset : Settled c L) :
    Exec.Ensures (ChkIndex.chkEnlarge env true w)
      (fun r w' =>
        (r = 0 ∧ (c.num ≠ 0 -> L.own (c.num - 1) ≠ 0 -> L.cap (c.num - 1) = 16) ∧ w' = w) ∨
        (r = 0 ∧ c.num ≠ 0 ∧ L.own (c.num - 1) ≠ 0 ∧
          Uncompressed env w' c (L.resize (c.num - 1) 16)) ∨
        (r = -1 ∧ ¬env.AllOk ∧ Uncompressed env w' c L))
      (Tolerated env) := by
  have hn := h.num
  unfold ChkIndex.chkEnlarge
  rw [Exec.bind_of_ok (getIndex_apply w), hn]
  by_cases hz : c.num = 0
  · rw [if_neg (by omega), if_pos rfl]
    exact Or.inl ⟨rfl, fun hne => absurd hz hne, rfl⟩
  · have hcap := h.fits.cap_le (c.num - 1) (by omega)
    rw [if_pos hz, Exec.bind_of_ok (h.readChkAddr_ok (by omega)),
      Exec.bind_of_ok (h.canEnlarge_ok (by omega))]
    by_cases hcan : L.own (c.num - 1) ≠ 0 ∧ L.cap (c.num - 1) < 16
    · rw [decide_eq_true hcan, if_pos rfl]
      refine (h.enlargeLast_ensures ht hset (by omega) hcan.1 hcan.2).mono ?_ (fun _ he => he)
      rintro r w' (⟨hr, h'⟩ | ⟨hr, hfail, h'⟩)
      · exact Or.inr (Or.inl ⟨hr, hz, hcan.1, h'⟩)
      · exact Or.inr (Or.inr ⟨hr, hfail, h'⟩)
    · rw [decide_eq_false hcan, if_neg (by decide), if_pos rfl]
      refine Or.inl ⟨rfl, fun _ hown => ?_, rfl⟩
      by_contra hne
      exact hcan ⟨hown, by omega⟩

/-- `ChkIndex::chk_enlarge` when the last chunk, if any, cannot grow. -/
theorem chkEnlarge_full (h : Uncompressed env w c L)
    (hfull : c.num ≠ 0 -> ¬(L.own (c.num - 1) ≠ 0 ∧ L.cap (c.num - 1) < 16)) :
    ChkIndex.chkEnlarge env false w = ChkIndex.appendChunk env w := by
  have hn := h.num
  unfold ChkIndex.chkEnlarge
  rw [Exec.bind_of_ok (getIndex_apply w), hn]
  by_cases hz : c.num = 0
  · rw [if_neg (by omega), if_neg (by decide)]
  · rw [if_pos hz, Exec.bind_of_ok (h.readChkAddr_ok (by omega)),
      Exec.bind_of_ok (h.canEnlarge_ok (by omega)), decide_eq_false (hfull hz),
      if_neg (by decide), if_neg (by decide)]

end Uncompressed

end ChunkMem
