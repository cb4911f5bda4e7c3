import ChunkMem.Refinement.Fresh

/-!
# Growing and shrinking the chunk table

A chunk is added behind the others, or the last chunk moves into an allocation
of another size.  Either way the content stays what it was, but for the new
chunk.
-/

namespace ChunkMem

open Foundation

/-- The index after chunk `k` was entered behind the others. -/
def World.entered (w : World) (k : Nat) (p : Ptr) : World :=
  { w with
    index :=
      { w.index with
        chkNum := k + 1
        chkAddr := Function.update w.index.chkAddr k p } }

namespace Uncompressed

variable {env : Env} {w : World} {c : Content} {L : Layout}

theorem skipped (h : Uncompressed env w c L) : Uncompressed env w.skipped c L :=
  ⟨h.num, h.flag, h.type, h.size, h.size_le, h.sane.skipped, h.outer, h.fits,
    ⟨h.place.addr, h.place.alloc, h.place.distinct, h.place.all⟩, h.image, h.own, h.mgr,
    h.total⟩

theorem blk_ne_next (h : Uncompressed env w c L) {k : Nat} (hk : k < c.num) :
    (w.index.chkAddr k).blk ≠ w.sys.next := by
  rcases h.holds hk with ⟨size, halloc, _⟩
  exact h.sane.ne_next halloc

end Uncompressed

/-!
## The last chunk in an allocation of its own
-/

/-- Chunk `k`, which is the last one, lies at `q` now; the block `dead` that may have held
it before is gone.  The chunks in front of it are where they were. -/
structure PutLast (w w' : World) (k dead : Nat) (q : Ptr) (size : Nat) : Prop where
  num : w'.index.chkNum = k + 1
  flag : w'.index.compressed = w.index.compressed
  type : w'.index.memAllocType = w.index.memAllocType
  addrSize : w'.index.chkAddrSize = w.index.chkAddrSize
  addr : w'.index.chkAddr k = q
  addrs : forall i, i < k -> w'.index.chkAddr i = w.index.chkAddr i
  off : q.off = 0
  sane : Sane w'.sys
  alloc : w'.sys.allocs q.blk = some ⟨.chunk, size⟩
  gone : q.blk ≠ dead -> w'.sys.allocs dead = none
  fresh : q.blk = dead ∨ w.sys.allocs q.blk = none
  caller : forall n, w.sys.allocs dead ≠ some ⟨.caller, n⟩
  front : forall i, i < k -> (w.index.chkAddr i).blk ≠ dead
  last : k < w.index.chkNum -> (w.index.chkAddr k).blk = dead
  allocs : forall b, b ≠ q.blk -> b ≠ dead -> w'.sys.allocs b = w.sys.allocs b
  bits : forall b, b ≠ q.blk -> b ≠ dead -> w'.bits b = w.bits b

theorem Fits.putLast {env : Env} {c c' : Content} {L : Layout} {k v : Nat} (h : Fits env c L)
    (hk : k ≤ c.num) (hmax : k < 2047) (hnum : c'.num = k + 1)
    (hbody : forall i, i < k -> c'.body i = c.body i) (halone : L.shared ≤ max 1 k)
    (hfull : k = 1 -> L.cap 0 = 16) (hv1 : 1 ≤ v) (hv16 : v ≤ 16)
    (hvirgin : (c'.body k).virgin ≤ 128 * v) : Fits env c' (L.setCap k v) := by
  refine ⟨by omega, ?_, ?_, ?_, ?_, h.shared_pos, ?_, h.split⟩
  · intro i hi
    by_cases hne : i = k
    · rw [hne, L.setCap_self]
      exact hv1
    · rw [L.setCap_other _ hne]
      exact h.one_le i (by omega)
  · intro i hi
    by_cases hne : i = k
    · rw [hne, L.setCap_self]
      exact hv16
    · rw [L.setCap_other _ hne]
      exact h.cap_le i (by omega)
  · intro i hi
    by_cases hne : i = k
    · rw [hne, L.setCap_self]
      exact hvirgin
    · rw [L.setCap_other _ hne, hbody i (by omega)]
      exact h.virgin_le i (by omega)
  · intro h2
    rw [L.setCap_other _ (by omega)]
    by_cases h1 : k = 1
    · exact hfull h1
    · exact h.first (by omega)
  · show L.shared ≤ _
    omega

namespace PutLast

variable {env : Env} {w w' : World} {c : Content} {L : Layout} {k v dead size : Nat} {q : Ptr}

theorem front_ne (hp : PutLast w w' k dead q size) (h : Uncompressed env w c L) {i : Nat}
    (hik : i < k) (hi : i < c.num) : (w.index.chkAddr i).blk ≠ q.blk := by
  intro heq
  rcases h.holds hi with ⟨n, halloc, -⟩
  rcases hp.fresh with hold | hnone
  · exact hp.front i hik (heq.trans hold)
  · rw [heq, hnone] at halloc
    cases halloc

theorem front_bits (hp : PutLast w w' k dead q size) (h : Uncompressed env w c L) {i : Nat}
    (hik : i < k) (hi : i < c.num) : w'.chunkBits i = w.chunkBits i := by
  unfold World.chunkBits World.view
  rw [hp.addrs i hik, hp.bits _ (hp.front_ne h hik hi) (hp.front i hik)]

theorem front_allocs (hp : PutLast w w' k dead q size) (h : Uncompressed env w c L) {i : Nat}
    (hik : i < k) (hi : i < c.num) :
    w'.sys.allocs (w'.index.chkAddr i).blk = w.sys.allocs (w.index.chkAddr i).blk := by
  rw [hp.addrs i hik, hp.allocs _ (hp.front_ne h hik hi) (hp.front i hik)]

theorem outer (hp : PutLast w w' k dead q size) (h : Outer L w) : Outer (L.setCap k v) w' := by
  intro b n m hb
  have hout := h b n m hb
  have hold : b ≠ dead := fun heq => hp.caller n (heq ▸ hout.1)
  have hnew : b ≠ q.blk := by
    intro heq
    rcases hp.fresh with hq | hnone
    · exact hold (heq.trans hq)
    · rw [← heq, hout.1] at hnone
      cases hnone
  rw [hp.allocs b hnew hold, hp.bits b hnew hold]
  exact hout

theorem placement (hp : PutLast w w' k dead q size) (h : Uncompressed env w c L)
    (hk : k ≤ c.num) (hle : c.num ≤ k + 1) (halone : L.shared ≤ max 1 k)
    (hsize : env.chunkBufSize (1024 * v) ≤ size) :
    Placement env w' (k + 1) (L.setCap k v) := by
  have hholder : forall i, (L.setCap k v).holder i = L.holder i := fun _ => rfl
  have hself := L.holder_alone halone
  constructor
  · intro i hi
    by_cases hne : i = k
    · rw [hne, hholder, hself, hp.addr, L.setCap_base _ (Nat.le_refl _), L.base_alone halone]
      show q = ⟨q.blk, 0⟩
      rw [← hp.off]
    · have hholder_le := L.holder_le i
      rw [hholder, hp.addrs i (by omega), hp.addrs _ (by omega), L.setCap_base _ (by omega)]
      exact h.place.addr i (by omega)
  · intro i hi hi'
    by_cases hne : i = k
    · have hown := (L.setCap k v).own_alone h.fits.shared_pos halone
      rw [hne, hp.addr, hown, L.setCap_self]
      exact ⟨size, hp.alloc, hsize⟩
    · rw [hp.front_allocs h (by omega) (by omega), L.setCap_own _ halone hne (by omega)]
      exact h.place.alloc i (by omega) hi'
  · intro i j hi hj hi' hj' hblk
    by_cases hne : i = k
    · by_cases hne' : j = k
      · omega
      · rw [hne, hp.addr, hp.addrs j (by omega)] at hblk
        exact absurd hblk.symm (hp.front_ne h (by omega) (by omega))
    · by_cases hne' : j = k
      · rw [hne', hp.addr, hp.addrs i (by omega)] at hblk
        exact absurd hblk (hp.front_ne h (by omega) (by omega))
      · rw [hp.addrs i (by omega), hp.addrs j (by omega)] at hblk
        exact h.place.distinct i j (by omega) (by omega) hi' hj' hblk
  · intro b a hb hkind
    by_cases hnew : b = q.blk
    · exact ⟨k, by omega, hself, by rw [hp.addr, hnew]⟩
    · have hold : b ≠ dead := by
        intro heq
        rw [heq, hp.gone fun hq => hnew (heq.trans hq.symm)] at hb
        cases hb
      rw [hp.allocs b hnew hold] at hb
      rcases h.place.all b a hb hkind with ⟨i, hi, hi', hblk⟩
      have hne : i ≠ k := by
        rintro rfl
        have hlast := hp.last (by rw [h.num]; exact hi)
        exact hold (hblk.symm.trans hlast)
      exact ⟨i, by omega, hi', by rw [hp.addrs i (by omega)]; exact hblk⟩

theorem uncompressed (hp : PutLast w w' k dead q size) (h : Uncompressed env w c L)
    {c' : Content} (hk : k ≤ c.num) (hle : c.num ≤ k + 1) (hmax : k < 2047)
    (hroom : k < w.index.chkAddrSize) (halone : L.shared ≤ max 1 k)
    (hfull : k = 1 -> L.cap 0 = 16) (hv1 : 1 ≤ v) (hv16 : v ≤ 16)
    (hsize : env.chunkBufSize (1024 * v) ≤ size) (hnum : c'.num = k + 1)
    (hbody : forall i, i < k -> c'.body i = c.body i)
    (hrest : k ≠ 0 -> c'.totalUsed = c.totalUsed ∧ c'.totalFree = c.totalFree ∧
      c'.lists = c.lists)
    (hvirgin : (c'.body k).virgin ≤ 128 * v)
    (himage : ChunkImage (c'.body k) v k (env.reach v) (w'.chunkBits k))
    (hown : (w'.chunkBits k).read 75 16 = v)
    (hmgr : k = 0 -> MgrImage env.freeSize c' (w'.chunkBits k) ∧
      (w'.chunkBits k).read (mgrPos + 64) 16 = L.total) :
    Uncompressed env w' c' (L.setCap k v) := by
  have hf := h.fits.putLast hk hmax hnum hbody halone hfull hv1 hv16 hvirgin
  constructor
  · rw [hp.num, hnum]
  · rw [hp.flag]
    exact h.flag
  · rw [hp.type]
    exact h.type
  · rw [hp.addrSize, hnum]
    exact hroom
  · rw [hp.addrSize]
    exact h.size_le
  · exact hp.sane
  · exact hp.outer h.outer
  · exact hf
  · rw [hnum]
    exact hp.placement h hk hle halone hsize
  · intro i hi
    by_cases hne : i = k
    · rw [hne, L.setCap_self]
      exact himage
    · rw [L.setCap_other _ hne, hbody i (by omega), hp.front_bits h (by omega) (by omega)]
      exact h.image i (by omega)
  · intro i hi
    by_cases hne : i = k
    · rw [hne, (L.setCap k v).own_alone h.fits.shared_pos halone, L.setCap_self]
      exact hown
    · rw [hp.front_bits h (by omega) (by omega), L.setCap_own _ halone hne (by omega)]
      exact h.own i (by omega)
  · intro _
    by_cases hz : k = 0
    · have hm := (hmgr hz).1
      rw [hz] at hm
      exact hm
    · have hr := hrest hz
      rw [hp.front_bits h (by omega) (by omega)]
      exact (h.mgr (by omega)).congr hr.1 hr.2.1 hr.2.2 fun _ _ _ => rfl
  · intro _
    by_cases hz : k = 0
    · have hm := (hmgr hz).2
      rw [hz] at hm
      exact hm
    · rw [hp.front_bits h (by omega) (by omega)]
      exact h.total (by omega)

end PutLast

namespace Uncompressed

variable {env : Env} {w : World} {c : Content} {L : Layout}

theorem entered_putLast (h : Uncompressed env w c L) (m : Bits) :
    PutLast w ((w.entered c.num w.freshPtr).obtained .chunk 16384 m) c.num w.sys.next
      w.freshPtr 16384 where
  num := rfl
  flag := rfl
  type := rfl
  addrSize := rfl
  addr := Function.update_self ..
  addrs := fun i hi => Function.update_of_ne (Nat.ne_of_lt hi) ..
  off := rfl
  sane := Sane.obtained (w := w.entered c.num w.freshPtr) h.sane _ _ _
  alloc := World.obtained_allocs_self (w.entered c.num w.freshPtr) _ _ _
  gone := fun hne => absurd rfl hne
  fresh := Or.inl rfl
  caller := fun n hn => h.sane.ne_next hn rfl
  front := fun i hi => h.blk_ne_next hi
  last := fun hlt => absurd hlt (by rw [h.num]; exact Nat.lt_irrefl _)
  allocs := fun b hb _ => World.obtained_allocs_other (w.entered c.num w.freshPtr) _ _ _ hb
  bits := fun b hb _ => World.obtained_bits_other (w.entered c.num w.freshPtr) _ _ _ hb

theorem extend (h : Uncompressed env w c L) (c' : Content) (hnum : c.num < 2047)
    (hsize : c.num < w.index.chkAddrSize) (hfull : c.num = 1 -> L.cap 0 = 16)
    {m : Bits} {b : Body} (hnum' : c'.num = c.num + 1)
    (hbody : forall k, c'.body k = if k = c.num then b else c.body k)
    (hrest : c.num ≠ 0 -> c'.totalUsed = c.totalUsed ∧ c'.totalFree = c.totalFree ∧
      c'.lists = c.lists)
    (hvirgin : b.virgin ≤ 2048) (himage : ChunkImage b 16 c.num (env.reach 16) m)
    (hown : m.read 75 16 = 16)
    (hmgr : c.num = 0 -> MgrImage env.freeSize c' m ∧
      m.read (mgrPos + 64) 16 = L.total) :
    Uncompressed env ((w.entered c.num w.freshPtr).obtained .chunk 16384 m) c'
      (L.setCap c.num 16) := by
  have hbody_new : c'.body c.num = b := by rw [hbody, if_pos rfl]
  have hbody_old : forall k, k < c.num -> c'.body k = c.body k := by
    intro k hk
    rw [hbody, if_neg (by omega)]
  have hput := h.entered_putLast m
  have hbits : ((w.entered c.num w.freshPtr).obtained .chunk 16384 m).chunkBits c.num = m := by
    unfold World.chunkBits
    rw [hput.addr]
    exact World.view_obtained_self (w.entered c.num w.freshPtr) _ _ _
  refine hput.uncompressed h (Nat.le_refl _) (Nat.le_succ _) hnum hsize h.fits.shared_le hfull
    (by omega) (by omega) ?_ hnum' hbody_old hrest ?_ ?_ ?_ ?_
  · rw [show 1024 * 16 = chkMaxChksize from rfl, chunkBufSize_max]
  · rw [hbody_new]
    exact hvirgin
  · rw [hbody_new, hbits]
    exact himage
  · rw [hbits]
    exact hown
  · rw [hbits]
    exact hmgr

/-!
## The capacity total
-/

theorem changeTotal (h : Uncompressed env w c L) (hpos : 0 < c.num) (g : Nat -> Nat)
    {v : Nat} (hv : g L.total % 2 ^ 16 = v) :
    exists w', (do
        let mgr <- ChkIndex.memMgr
        let t <- load mgr ChkMemMgr.totalCapacity
        store mgr ChkMemMgr.totalCapacity (g t) : M Unit) w = .ok ((), w') ∧
      Uncompressed env w' c (L.setTotal v) ∧ w'.index = w.index ∧ w'.sys = w.sys := by
  have htracks := h.tracks
  have ht := h.total hpos
  have hset := h.setTotal hpos (v := v) (by rw [← hv]; exact Nat.mod_lt _ (by decide))
  refine ⟨_, ?_, hset, rfl, rfl⟩
  rw [Exec.bind_of_ok (htracks.memMgr_ok hpos),
    Exec.bind_of_ok (htracks.loadMgr hpos ChkMemMgr.totalCapacity (by decide)),
    htracks.storeMgr hpos ChkMemMgr.totalCapacity (by decide)]
  simp only [ChkMemMgr.totalCapacity]
  rw [ht, hv]

theorem addTotal (h : Uncompressed env w c L) (hpos : 0 < c.num) {n : Nat}
    (hn : L.total + n < 2 ^ 16) :
    exists w', ChkIndex.addMgr ChkMemMgr.totalCapacity n w = .ok ((), w') ∧
      Uncompressed env w' c (L.setTotal (L.total + n)) ∧ w'.index = w.index ∧
      w'.sys = w.sys :=
  h.changeTotal hpos (fun t => t + n) (Nat.mod_eq_of_lt hn)

theorem subTotal (h : Uncompressed env w c L) (hpos : 0 < c.num) {n : Nat}
    (hn : n ≤ L.total) (hlt : L.total < 2 ^ 16) :
    exists w', ChkIndex.subMgr ChkMemMgr.totalCapacity n w = .ok ((), w') ∧
      Uncompressed env w' c (L.setTotal (L.total - n)) ∧ w'.index = w.index ∧
      w'.sys = w.sys :=
  h.changeTotal hpos (fun t => t + 2 ^ 16 - n) (by omega)

/-!
## One more chunk
-/

theorem setAddrSize (h : Uncompressed env w c L) {n : Nat} (hn : c.num ≤ n)
    (hle : n ≤ 4094) :
    Uncompressed env { w with index := { w.index with chkAddrSize := n } } c L :=
  ⟨h.num, h.flag, h.type, hn, hle, h.sane, h.outer, h.fits,
    ⟨h.place.addr, h.place.alloc, h.place.distinct, h.place.all⟩, h.image, h.own, h.mgr,
    h.total⟩

theorem reserve_ensures (h : Uncompressed env w c L) (hnum : c.num < 2047) :
    Exec.Ensures (ChkIndex.reserveChkAddr env w)
      (fun _ w' => Uncompressed env w' c L ∧ c.num < w'.index.chkAddrSize ∧
        w'.index.chkAddr = w.index.chkAddr)
      (Tolerated env) := by
  have hn := h.num
  have hsize := h.size
  unfold ChkIndex.reserveChkAddr
  rw [Exec.bind_of_ok (getIndex_apply w)]
  by_cases hfull : w.index.chkNum = w.index.chkAddrSize
  · rw [if_pos hfull]
    rcases sysCall_cases env w with hrun | ⟨hfail, hrun⟩
    · rw [Exec.bind_of_ok hrun, Exec.bind_of_ok (Exec.require_of rfl _ _)]
      have hgrown : c.num < (if w.index.chkAddrSize ≠ 0 then w.index.chkAddrSize * 2
          else 1) % 2 ^ 16 ∧ (if w.index.chkAddrSize ≠ 0 then w.index.chkAddrSize * 2
          else 1) % 2 ^ 16 ≤ 4094 := by
        split <;> omega
      exact ⟨h.skipped.setAddrSize (Nat.le_of_lt hgrown.1) hgrown.2, hgrown.1, rfl⟩
    · rw [Exec.bind_of_ok hrun, Exec.bind_of_error (Exec.require_of_not (by decide) _ _)]
      exact ⟨rfl, hfail⟩
  · rw [if_neg hfull]
    exact ⟨h, by omega, rfl⟩

end Uncompressed

namespace Layout

def grow (L : Layout) (num : Nat) : Layout := (L.setCap num 16).setTotal (L.total + 16)

theorem grow_settled {c : Content} {L : Layout} (h : Settled c L) :
    Settled c.addChunk (L.grow c.num) := by
  show L.total + 16 = (L.setCap c.num 16).start c.addChunk.num
  rw [Content.addChunk_num, start_succ, L.setCap_start _ (Nat.le_refl _), L.setCap_self, h]

end Layout

namespace Uncompressed

variable {env : Env} {w : World} {c : Content} {L : Layout}

/-- The new chunk is in the table; the totals do not show it yet. -/
def bareChunk (c : Content) : Content :=
  { c.addChunk with
    totalUsed := if c.num = 0 then 0 else c.totalUsed }

theorem bareChunk_body (c : Content) (k : Nat) :
    (bareChunk c).body k =
      if k = c.num then ⟨reserved c.num, reserved c.num, Bits.zero⟩ else c.body k := by
  show c.addChunk.body k = _
  rw [Content.addChunk_body]
  split
  · next hk => rw [hk]
  · rfl

theorem enter_ok (w : World) {k : Nat} (hnum : w.index.chkNum = k)
    (hsize : k < w.index.chkAddrSize) :
    store w.freshPtr ChkMetadata.no k (w.obtained .chunk 16384 freshBits) =
        .ok ((), w.obtained .chunk 16384 (freshChunk k)) ∧
      exists w', writeChkAddr k w.freshPtr (w.obtained .chunk 16384 (freshChunk k)) =
          .ok ((), w') ∧
        modifyIndex (fun x => { x with chkNum := x.chkNum + 1 }) w' =
          .ok ((), (w.entered k w.freshPtr).obtained .chunk 16384 (freshChunk k)) := by
  refine ⟨store_head (by decide) _, _,
    writeChkAddr_of (w := w.obtained .chunk 16384 (freshChunk k)) hsize _, ?_⟩
  subst hnum
  rfl

theorem enter_next (h : Uncompressed env w c L) (hnum : c.num < 2047) (hz : c.num ≠ 0)
    (hsize : c.num < w.index.chkAddrSize) (hfull : c.num = 1 -> L.cap 0 = 16) :
    Uncompressed env
      ((w.entered c.num w.freshPtr).obtained .chunk 16384 (freshChunk c.num))
      (bareChunk c) (L.setCap c.num 16) := by
  have hr : reserved c.num = 2 := by
    unfold reserved
    rw [if_neg hz]
  have htotals := Content.addChunk_totals c hz
  have hnum' : (bareChunk c).num = c.num + 1 := Content.addChunk_num c
  apply h.extend _ (b := ⟨2, 2, Bits.zero⟩) hnum hsize hfull hnum'
  · intro k
    rw [bareChunk_body, hr]
  · intro _
    refine ⟨?_, htotals.2.1, htotals.2.2⟩
    show (if c.num = 0 then 0 else c.totalUsed) = _
    rw [if_neg hz]
  · decide
  · exact freshChunk_image (by omega) _
  · exact freshChunk_own c.num
  · intro h0
    exact absurd h0 hz

theorem enter_first (h : Uncompressed env w c L) (hset : Settled c L) (hz : c.num = 0)
    (hsize : 0 < w.index.chkAddrSize) :
    Uncompressed env ((w.entered 0 w.freshPtr).obtained .chunk 16384 (firstChunk env))
      (bareChunk c) (L.setCap 0 16) := by
  have htotals := Content.addChunk_totals_first c hz
  have hext := h.extend (bareChunk c) (b := firstBody) (m := firstChunk env)
    (by omega) (by omega) (by omega) (Content.addChunk_num c)
    (by
      intro k
      rw [bareChunk_body, hz]
      rfl)
    (fun hne => absurd hz hne) (by decide)
    (by
      rw [hz]
      exact firstChunk_image _)
    firstChunk_own
    (by
      intro _
      refine ⟨firstChunk_mgr ?_ htotals.2.1 fun i => congrFun htotals.2.2 i, ?_⟩
      · show (if c.num = 0 then 0 else c.totalUsed) = 0
        rw [if_pos hz]
      · rw [hset, hz]
        exact firstChunk_clear (by omega) (by omega))
  rw [hz] at hext
  exact hext

theorem enter_totals (h : Uncompressed env w (bareChunk c) (L.setCap c.num 16))
    (hlt : L.total + 16 < 2 ^ 16) (hused : c.totalUsed + 5 < 2 ^ 32) :
    exists w', (do
        let bytes <- ChkMetadata.capacityBytes (w.index.chkAddr c.num)
        ChkIndex.addMgr ChkMemMgr.totalCapacity (setChkCapacity bytes)
        let u <- load (w.index.chkAddr c.num) ChkMetadata.used
        ChkIndex.addMgr ChkMemMgr.totalUsed u
        pure 0 : M Int) w = .ok (0, w') ∧
      Uncompressed env w' c.addChunk (L.grow c.num) ∧ w'.index = w.index := by
  have hn : (bareChunk c).num = c.num + 1 := Content.addChunk_num c
  have hr := Content.reserved_le_five c.num
  have hbytes := h.capacityBytes_ok (k := c.num) (by omega)
  rw [L.setCap_self] at hbytes
  rcases h.addTotal (n := 16) (by omega) hlt with ⟨w₁, hadd, h₁, hidx₁, hsys₁⟩
  have hload := h₁.load_used (k := c.num) (by omega)
  rw [bareChunk_body, if_pos rfl, hidx₁] at hload
  have hsum : (bareChunk c).totalUsed + reserved c.num < 2 ^ 32 := by
    show (if c.num = 0 then 0 else c.totalUsed) + _ < _
    split <;> omega
  rcases h₁.tracks.addUsed (by omega) hsum with ⟨w₂, haddUsed, h₂⟩
  refine ⟨w₂, ?_, ?_, h₂.index.trans hidx₁⟩
  · rw [Exec.bind_of_ok hbytes]
    refine (Exec.bind_of_ok hadd).trans ?_
    rw [Exec.bind_of_ok hload, Exec.bind_of_ok haddUsed]
    rfl
  · have hc : { bareChunk c with
        totalUsed := (bareChunk c).totalUsed + reserved c.num } = c.addChunk := by
      have htotal : (bareChunk c).totalUsed + reserved c.num = c.addChunk.totalUsed := by
        show (if c.num = 0 then 0 else c.totalUsed) + _ = _
        by_cases hz : c.num = 0
        · rw [if_pos hz, (Content.addChunk_totals_first c hz).1, hz]
          rfl
        · rw [if_neg hz, (Content.addChunk_totals c hz).1]
          unfold reserved
          rw [if_neg hz]
      rw [htotal]
      rfl
    rw [hc] at h₂
    exact h₂.rep

/-- `ChkIndex::chk_enlarge` with a last chunk that cannot grow, or none. -/
theorem appendChunk_ensures (h : Uncompressed env w c L) (hset : Settled c L)
    (hfull : c.num = 1 -> L.cap 0 = 16) (hused : c.totalUsed + 5 < 2 ^ 32) :
    Exec.Ensures (ChkIndex.appendChunk env w)
      (fun r w' => (r = 0 ∧ c.num < 2047 ∧ Uncompressed env w' c.addChunk (L.grow c.num) ∧
          forall k, k < c.num -> w'.index.chkAddr k = w.index.chkAddr k) ∨
        (r = -1 ∧ (c.num = 2047 ∨ ¬env.AllOk) ∧ Uncompressed env w' c L ∧
          w'.index.chkAddr = w.index.chkAddr))
      (Tolerated env) := by
  have hn := h.num
  have hle := h.fits.num_le
  have hstart := h.fits.start_bound
  unfold ChkIndex.appendChunk
  rw [Exec.bind_of_ok (getIndex_apply w), hn, h.type]
  by_cases hmax : c.num ≥ chkMaxChkNum
  · rw [if_pos hmax]
    simp only [chkMaxChkNum] at hmax
    exact Or.inr ⟨rfl, Or.inl (by omega), h, rfl⟩
  · rw [if_neg hmax]
    simp only [chkMaxChkNum] at hmax
    refine Exec.Ensures.bind (h.reserve_ensures (by omega)) ?_
    rintro _ w₁ ⟨h₁, hsize, haddr⟩
    refine Exec.Ensures.bind (enlarge_new_ensures h₁.sane) ?_
    rintro p w₂ (⟨rfl, rfl⟩ | ⟨rfl, hfail, rfl⟩)
    · rcases enter_ok w₁ h₁.num hsize with ⟨hstore, w₃, hwrite, hmodify⟩
      rw [if_neg h₁.sane.freshPtr_ne_null, Exec.bind_of_ok hstore, Exec.bind_of_ok hwrite,
        Exec.bind_of_ok hmodify]
      have hlt : L.total + 16 < 2 ^ 16 := by
        rw [hset]
        omega
      have hself : forall kind size m, ((w₁.entered c.num w₁.freshPtr).obtained kind size
          m).index.chkAddr c.num = w₁.freshPtr := fun _ _ _ => Function.update_self ..
      have hold : forall w' : World, w'.index.chkAddr =
          Function.update w₁.index.chkAddr c.num w₁.freshPtr -> forall k, k < c.num ->
          w'.index.chkAddr k = w.index.chkAddr k := by
        intro w' hw' k hk
        rw [hw', Function.update_of_ne (by omega), haddr]
      by_cases hz : c.num = 0
      · have hentered : (w₁.entered 0 w₁.freshPtr).index.chkAddr 0 = w₁.freshPtr := by
          simp [World.entered]
        have hsize₀ : 0 < (w₁.entered 0 w₁.freshPtr).index.chkAddrSize := by
          show 0 < w₁.index.chkAddrSize
          omega
        have hinit := initMemMgr_fresh (w := w₁.entered 0 w₁.freshPtr) env hentered hsize₀
        have h₄ := h₁.enter_first hset hz (by omega)
        have h₅ := h₄
        rw [← hz] at h₅
        rcases h₅.enter_totals hlt hused with ⟨w₅, hrun, h₆, hidx⟩
        rw [hself, hz] at hrun
        rw [if_pos hz]
        refine Exec.Ensures.of_eq ((Exec.bind_of_ok (by rw [hz]; exact hinit)).trans hrun) ?_
        exact Or.inl ⟨rfl, by omega, h₆, hold _ (by rw [hidx]; rfl)⟩
      · have h₄ := h₁.enter_next (by omega) hz hsize hfull
        rcases h₄.enter_totals hlt hused with ⟨w₅, hrun, h₅, hidx⟩
        rw [hself] at hrun
        rw [if_neg hz]
        refine Exec.Ensures.of_eq hrun ?_
        exact Or.inl ⟨rfl, by omega, h₅, hold _ (by rw [hidx]; rfl)⟩
    · rw [if_pos rfl]
      exact Or.inr ⟨rfl, Or.inr hfail, h₁.skipped, haddr⟩

end Uncompressed

end ChunkMem
