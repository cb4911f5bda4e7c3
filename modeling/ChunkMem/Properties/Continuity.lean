import ChunkMem.Properties.Ownership

/-!
# The continuous-layout test is exact

`is_continuous_chunk` compares two capacity numbers.  In every session with
an uncompressed index they are equal exactly when all chunks, two at least, lie
back to back in the allocation of the first one.
-/

namespace ChunkMem

open Foundation

/-- All chunks, two at least, lie back to back, in index order, in one allocation,
which chunk 0 starts and owns. -/
structure World.Continuous (w : World) : Prop where
  two : 2 ≤ w.index.chkNum
  base : (w.index.chkAddr 0).off = 0
  next : forall k, k + 1 < w.index.chkNum ->
    w.index.chkAddr (k + 1) = (w.index.chkAddr k).add (1024 * w.capacityOf k)
  holds : exists size, w.sys.allocs (w.index.chkAddr 0).blk = some ⟨.chunk, size⟩ ∧
    1024 * sumTo w.index.chkNum w.capacityOf ≤ size
  owner : forall k, k < w.index.chkNum -> (w.allocCapacityOf k ≠ 0 <-> k = 0)

namespace Uncompressed

variable {env : Env} {w : World} {c : Content} {L : Layout}

theorem continuous (h : Uncompressed env w c L) (hn : 1 < c.num) (hshared : L.shared = c.num) :
    w.Continuous := by
  have hnum := h.num
  have hzero : L.holder 0 = 0 := L.holder_of_shared (by omega)
  have haddr : forall k, k < c.num -> w.index.chkAddr k =
      ⟨(w.index.chkAddr 0).blk, 1024 * L.start k⟩ := by
    intro k hk
    have hplace := h.place.addr k hk
    rw [L.holder_of_shared (by omega), L.base_of_shared (by omega)] at hplace
    exact hplace
  have hcaps : sumTo c.num w.capacityOf = L.start c.num :=
    sumTo_congr fun k hk => h.capacityOf_eq hk
  refine ⟨by omega, ?_, ?_, ?_, ?_⟩
  · rw [haddr 0 (by omega)]
    rfl
  · intro k hk
    rw [haddr (k + 1) (by omega), haddr k (by omega), h.capacityOf_eq (by omega)]
    simp only [Ptr.add, L.start_succ, Nat.mul_add]
  · rcases h.place.alloc 0 (by omega) hzero with ⟨size, halloc, hsize⟩
    refine ⟨size, halloc, ?_⟩
    have hbuf := env.le_chunkBufSize (n := 1024 * L.own 0) fun hm => by
      have := h.fits.own_le hm (k := 0) (by omega)
      omega
    rw [L.own_zero, hshared] at hbuf hsize
    rw [hnum, hcaps]
    omega
  · intro k hk
    rw [hnum] at hk
    rw [h.allocCapacityOf_eq hk]
    constructor
    · intro hne
      by_contra hk0
      exact hne (L.own_of_shared hk0 (by omega))
    · rintro rfl
      have hone := h.fits.one_le 0 (by omega)
      have hle := L.start_add_le (k := 0) (n := L.shared) (by omega)
      rw [L.own_zero]
      omega

theorem shared_of_continuous (h : Uncompressed env w c L) (hw : w.Continuous) :
    L.shared = c.num := by
  have hnum := h.num
  have htwo := hw.two
  have hpos := h.fits.shared_pos
  have hle := h.fits.shared_le
  have hblk : forall k, k < c.num -> (w.index.chkAddr k).blk = (w.index.chkAddr 0).blk := by
    intro k
    induction k with
    | zero =>
        intro _
        rfl
    | succ k ih =>
        intro hk
        rw [hw.next k (by omega)]
        exact ih (by omega)
  by_contra hne
  have hlast : L.holder (c.num - 1) = c.num - 1 := L.holder_of_alone (by omega)
  have hfirst : L.holder 0 = 0 := L.holder_of_shared (by omega)
  have heq := h.place.distinct (c.num - 1) 0 (by omega) (by omega) hlast hfirst
    (hblk _ (by omega))
  omega

end Uncompressed

/-- Every session of a run is valid, however the program shrinks: an unsafe
`shrink` ends the run. -/
theorem Reach.allowed {env : Env} {s : Session}
    (h : Reach env (fun s call => call.Allowed s) s) : exists c L, Valid env s c L := by
  induction h with
  | start hw => exact ⟨_, _, hw.valid env⟩
  | step _ hcall hrun ih =>
      rcases ih with ⟨c, L, hv⟩
      have hsafe := (hv.perform_releases_iff hcall).mp (by rw [hrun]; nofun)
      rcases (hv.perform hsafe.1 hsafe.2).of_ok hrun with ⟨c', L', hv', -⟩
      exact ⟨c', L', hv'⟩

/-- In every session a program reaches with an uncompressed index, however it
shrinks, the test returns true exactly when the chunks are continuous. -/
theorem Reach.continuous_test_exact {env : Env} {s : Session}
    (h : Reach env (fun s call => call.Allowed s) s)
    (hflag : s.world.index.compressed = false) :
    exists b, ChkIndex.isContinuousChunk s.world = .ok (b, s.world) ∧
      (b = true <-> s.world.Continuous) := by
  rcases h.allowed with ⟨c, L, hv⟩
  have hu := hv.stored.uncompressed hflag
  refine ⟨_, hu.isContinuous_ok hv.settled, ?_⟩
  rw [decide_eq_true_iff]
  constructor
  · rintro ⟨hn, hshared⟩
    exact hu.continuous hn hshared
  · intro hw
    have hnum := hu.num
    have htwo := hw.two
    exact ⟨by omega, hu.shared_of_continuous hw⟩

section Sample

/-- A compressor that does not expand leaves an index of several chunks compressed, and
without a split they come back in one buffer. -/
theorem Reach.joins {env : Env} {s : Session} (h : Reach env CarefulCall s)
    (hflag : s.world.index.compressed = false) (hok : env.AllOk)
    (hsplit : env.uncompressSplit = false)
    (hsnappy : forall data, (env.snappy.compress data).length ≤ data.length)
    (htwo : 1 < s.world.index.chkNum) :
    exists w₁ w₂ c L, ChkIndex.compress env 200 s.world = .ok (0, w₁) ∧
      ChkIndex.uncompress env w₁ = .ok (0, w₂) ∧ Reach env CarefulCall ⟨w₂, s.live⟩ ∧
      Uncompressed env w₂ c L ∧ Settled c L ∧ 1 < c.num ∧ L.shared = c.num := by
  rcases h.careful with ⟨c, L, hv⟩
  have hu := hv.stored.uncompressed hflag
  have ht := hv.wf.tiling
  rw [hu.num] at htwo
  have hlen := hu.streamLength_le (by omega)
  have hlt := hu.streamLength_lt (by omega)
  have hpos := hu.fits.one_le 0 (by omega)
  have hle := Layout.start_add_le (L := L) (k := 0) (n := c.num) (by omega)
  have hbound := hu.fits.start_bound
  have hnum := hu.fits.num_le
  have hset : L.total = L.start c.num := hv.settled
  have hfew : forall data, data.length = streamLength c L ->
      ((env.snappy.compress data).length + 4) * 100 % 2 ^ 64 ≤
        toSizeT 200 * chkCapacity L.total % 2 ^ 64 := by
    intro data hdata
    have hfew := hsnappy data
    have hpercent : toSizeT 200 = 200 := by decide
    rw [hpercent]
    simp only [chkCapacity]
    rw [Nat.mod_eq_of_lt (by omega), Nat.mod_eq_of_lt (by omega)]
    omega
  rcases hu.compress_ok ht hv.settled hok (by omega) hfew with ⟨w₁, hcompress, hc⟩
  rcases hc.reopen_cases ht with ⟨w₂, hopen⟩ | ⟨-, -, -, hfail, -⟩ | ⟨e, he, -⟩
  · have hjoined : L.restored env c = L.joined c := if_neg (by rw [hsplit]; decide)
    have hrep := hopen.rep
    have hset' := L.restored_settled c env hc.pos
    rw [hjoined] at hrep hset'
    have hfirst : (Call.compress 200).run env s.world = .ok (.code 0, w₁) :=
      (Exec.bind_of_ok hcompress).trans rfl
    have hsecond : Call.uncompress.run env w₁ = .ok (.code 0, w₂) :=
      (Exec.bind_of_ok hopen.run).trans rfl
    have hcareful : CarefulCall s (.compress 200) := ⟨trivial, nofun⟩
    have hcareful' : CarefulCall ⟨w₁, s.live⟩ .uncompress := ⟨trivial, nofun⟩
    have hone := h.step hcareful (Call.perform_of_run hfirst)
    have htwice := hone.step hcareful' (Call.perform_of_run hsecond)
    exact ⟨w₁, w₂, c, _, hcompress, hopen.run, htwice, hrep, hset', htwo, rfl⟩
  · exact absurd hok hfail
  · exact absurd hok he.2

def fourBlocks : Session :=
  Call.after Env.plain [.alloc 4088, .alloc 4088, .alloc 4088, .alloc 4088] ⟨World.boot, []⟩

theorem fourBlocks_reach : Reach Env.plain CarefulCall fourBlocks := by
  unfold fourBlocks
  exact .after (.start World.boot_fresh) (by decide +kernel)

theorem fourBlocks_joins :
    exists w₁ w₂ c L, ChkIndex.compress Env.plain 200 fourBlocks.world = .ok (0, w₁) ∧
      ChkIndex.uncompress Env.plain w₁ = .ok (0, w₂) ∧
      Reach Env.plain CarefulCall ⟨w₂, fourBlocks.live⟩ ∧ Uncompressed Env.plain w₂ c L ∧
      Settled c L ∧ 1 < c.num ∧ L.shared = c.num :=
  fourBlocks_reach.joins (by decide +kernel) Env.plain_allOk rfl
    (fun data => Nat.le_refl data.length) (by decide +kernel)

/-- Two chunks that were compressed and came back lie in one allocation. -/
theorem Reach.continuous_test_exact_sample :
    exists w₁ w₂, ChkIndex.compress Env.plain 200 fourBlocks.world = .ok (0, w₁) ∧
      ChkIndex.uncompress Env.plain w₁ = .ok (0, w₂) ∧
      ChkIndex.isContinuousChunk w₂ = .ok (true, w₂) ∧ w₂.Continuous := by
  rcases fourBlocks_joins with ⟨w₁, w₂, c, L, hcompress, hrun, hreach, hu, -, htwo, hshared⟩
  have hallowed := hreach.mono (Q := fun s call => call.Allowed s) fun _ _ hcall => hcall.1
  rcases Reach.continuous_test_exact hallowed hu.flag with ⟨b, htest, hiff⟩
  have hjoined := hu.continuous htwo hshared
  rw [hiff.mpr hjoined] at htest
  exact ⟨w₁, w₂, hcompress, hrun, htest, hjoined⟩

end Sample

end ChunkMem
