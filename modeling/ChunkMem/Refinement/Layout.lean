import ChunkMem.Memory.Calls
import ChunkMem.Refinement.Image

/-!
# Where the chunks lie

After `uncompress` the chunks lie back to back in one allocation that the
first chunk owns; chunks added later have allocations of their own.  A layout
says how many chunks share the first allocation and how large each chunk is.
From it follow the address of every chunk, the own capacity its header must
show, and that no two chunks overlap.
-/

namespace ChunkMem

open Foundation

/-- The bits of chunk `k`, from its first byte on. -/
def World.chunkBits (w : World) (k : Nat) : Bits := w.view (w.index.chkAddr k)

/-- Replace the memory from the first byte of chunk `k` on. -/
def World.setChunk (w : World) (k : Nat) (m : Bits) : World :=
  w.setView (w.index.chkAddr k) m

structure Layout where
  /-- The number of chunks in the allocation of the first one. -/
  shared : Nat
  /-- Capacities, in kilobytes. -/
  cap : Nat -> Nat
  /-- `_total_capacity`. -/
  total : Nat
  /-- Memory of the calling program: sizes and contents. -/
  outer : Nat -> Option (Nat × Bits)

namespace Layout

variable (L : Layout)

/-- The kilobytes in front of chunk `k` when all chunks lie back to back. -/
def start (k : Nat) : Nat := sumTo k L.cap

/-- The chunk that owns the allocation of chunk `k`. -/
def holder (k : Nat) : Nat := if k < L.shared then 0 else k

/-- The kilobytes in front of chunk `k` in its allocation. -/
def base (k : Nat) : Nat := if k < L.shared then L.start k else 0

/-- `_alloc_capacity` of chunk `k`: only an owner shows one. -/
def own (k : Nat) : Nat :=
  if k = 0 then L.start L.shared else if k < L.shared then 0 else L.cap k

def setCap (k v : Nat) : Layout := { L with cap := Function.update L.cap k v }

def setTotal (t : Nat) : Layout := { L with total := t }

end Layout

/-- The bits of a chunk that are accounted for: all of its capacity, and with the
pool the whole block it lies in. -/
def Env.reach (env : Env) (cap : Nat) : Nat :=
  if env.memalign then 131072 else 8192 * cap

theorem Env.le_reach (env : Env) {cap : Nat} (h : cap ≤ 16) : 8192 * cap ≤ env.reach cap := by
  unfold reach
  split <;> omega

structure Fits (env : Env) (c : Content) (L : Layout) : Prop where
  num_le : c.num ≤ 2047
  one_le : forall k, k < c.num -> 1 ≤ L.cap k
  cap_le : forall k, k < c.num -> L.cap k ≤ 16
  virgin_le : forall k, k < c.num -> (c.body k).virgin ≤ 128 * L.cap k
  first : 2 ≤ c.num -> L.cap 0 = 16
  shared_pos : 1 ≤ L.shared
  shared_le : L.shared ≤ max 1 c.num
  split : env.uncompressSplit = true -> L.shared = 1

def Settled (c : Content) (L : Layout) : Prop := L.total = L.start c.num

def Outer (L : Layout) (w : World) : Prop :=
  forall b n m, L.outer b = some (n, m) ->
    w.sys.allocs b = some ⟨.caller, n⟩ ∧ w.bits b = m

/-- The first `num` chunks lie where the layout says, and the index has no other
allocation. -/
structure Placement (env : Env) (w : World) (num : Nat) (L : Layout) : Prop where
  addr : forall k, k < num ->
    w.index.chkAddr k = ⟨(w.index.chkAddr (L.holder k)).blk, 1024 * L.base k⟩
  alloc : forall k, k < num -> L.holder k = k -> exists size,
    w.sys.allocs (w.index.chkAddr k).blk = some ⟨.chunk, size⟩ ∧
      env.chunkBufSize (1024 * L.own k) ≤ size
  distinct : forall k k', k < num -> k' < num -> L.holder k = k -> L.holder k' = k' ->
    (w.index.chkAddr k).blk = (w.index.chkAddr k').blk -> k = k'
  all : forall b a, w.sys.allocs b = some a -> a.kind ≠ .caller ->
    exists k, k < num ∧ L.holder k = k ∧ (w.index.chkAddr k).blk = b

/-- The machine state of an index that is not compressed. -/
structure Uncompressed (env : Env) (w : World) (c : Content) (L : Layout) : Prop where
  num : w.index.chkNum = c.num
  flag : w.index.compressed = false
  type : w.index.memAllocType = .max
  size : c.num ≤ w.index.chkAddrSize
  size_le : w.index.chkAddrSize ≤ 4094
  sane : Sane w.sys
  outer : Outer L w
  fits : Fits env c L
  place : Placement env w c.num L
  image : forall k, k < c.num ->
    ChunkImage (c.body k) (L.cap k) k (env.reach (L.cap k)) (w.chunkBits k)
  own : forall k, k < c.num -> (w.chunkBits k).read 75 16 = L.own k
  mgr : 0 < c.num -> MgrImage env.freeSize c (w.chunkBits 0)
  total : 0 < c.num -> (w.chunkBits 0).read (mgrPos + 64) 16 = L.total

/-!
## Geometry
-/

namespace Layout

variable {L : Layout}

theorem holder_le (L : Layout) (k : Nat) : L.holder k ≤ k := by
  unfold holder
  split <;> omega

theorem holder_holder (L : Layout) (k : Nat) : L.holder (L.holder k) = L.holder k := by
  by_cases h : k < L.shared
  · have h0 : L.holder k = 0 := if_pos h
    rw [h0]
    exact if_pos (by omega)
  · have hk : L.holder k = k := if_neg h
    rw [hk, hk]

theorem holder_of_shared {k : Nat} (h : k < L.shared) : L.holder k = 0 := if_pos h

theorem holder_of_alone {k : Nat} (h : L.shared ≤ k) : L.holder k = k :=
  if_neg (by omega)

theorem base_of_shared {k : Nat} (h : k < L.shared) : L.base k = L.start k := if_pos h

theorem base_of_alone {k : Nat} (h : L.shared ≤ k) : L.base k = 0 := if_neg (by omega)

theorem own_zero (L : Layout) : L.own 0 = L.start L.shared := if_pos rfl

theorem own_of_shared {k : Nat} (hk : k ≠ 0) (h : k < L.shared) : L.own k = 0 := by
  unfold own
  rw [if_neg hk, if_pos h]

theorem own_of_alone {k : Nat} (hk : k ≠ 0) (h : L.shared ≤ k) : L.own k = L.cap k := by
  unfold own
  rw [if_neg hk, if_neg (by omega)]

theorem start_succ (L : Layout) (k : Nat) : L.start (k + 1) = L.start k + L.cap k :=
  sumTo_succ k L.cap

theorem start_le {k n : Nat} (h : k ≤ n) : L.start k ≤ L.start n :=
  sumTo_le_of_le L.cap h

theorem start_add_le {k n : Nat} (h : k < n) : L.start k + L.cap k ≤ L.start n :=
  sumTo_add_le L.cap h

theorem base_add_le (hpos : 1 ≤ L.shared) (k : Nat) :
    L.base k + L.cap k ≤ L.own (L.holder k) := by
  by_cases h : k < L.shared
  · rw [base_of_shared h, holder_of_shared h, own_zero]
    exact start_add_le h
  · rw [base_of_alone (by omega), holder_of_alone (by omega),
      own_of_alone (by omega) (by omega)]
    omega

theorem base_apart {k k' : Nat} (h : L.holder k = L.holder k') (hlt : k < k') :
    L.base k + L.cap k ≤ L.base k' := by
  by_cases hk : k' < L.shared
  · rw [base_of_shared (by omega), base_of_shared hk]
    exact start_add_le hlt
  · rw [holder_of_alone (k := k') (by omega)] at h
    have := L.holder_le k
    omega

/-!
## Changing one capacity
-/

theorem setCap_self (L : Layout) (k v : Nat) : (L.setCap k v).cap k = v := by
  simp [setCap]

theorem setCap_other (L : Layout) {k k' : Nat} (v : Nat) (h : k' ≠ k) :
    (L.setCap k v).cap k' = L.cap k' := by
  simp [setCap, h]

theorem setCap_start (L : Layout) {k k' : Nat} (v : Nat) (h : k' ≤ k) :
    (L.setCap k v).start k' = L.start k' :=
  sumTo_congr fun i hi => L.setCap_other v (by omega)

theorem setCap_base (L : Layout) {k k' : Nat} (v : Nat) (h : k' ≤ k) :
    (L.setCap k v).base k' = L.base k' := by
  show (if k' < L.shared then (L.setCap k v).start k' else 0) = _
  rw [L.setCap_start v h]
  rfl

/-- A change of a chunk that has its own allocation does not show elsewhere. -/
theorem setCap_own (L : Layout) {k k' : Nat} (v : Nat) (hk : L.shared ≤ max 1 k)
    (hne : k' ≠ k) (hlt : k' < k) : (L.setCap k v).own k' = L.own k' := by
  show (if k' = 0 then (L.setCap k v).start L.shared
    else if k' < L.shared then 0 else (L.setCap k v).cap k') = _
  rw [L.setCap_start v (by omega), L.setCap_other v hne]
  rfl

theorem own_alone (L : Layout) {k : Nat} (h1 : 1 ≤ L.shared) (hk : L.shared ≤ max 1 k) :
    L.own k = L.cap k := by
  by_cases hz : k = 0
  · subst hz
    rw [own_zero, show L.shared = 1 by omega]
    show sumTo 1 L.cap = _
    rw [sumTo_succ, sumTo_zero, Nat.zero_add]
  · exact own_of_alone hz (by omega)

theorem holder_alone (L : Layout) {k : Nat} (hk : L.shared ≤ max 1 k) : L.holder k = k := by
  unfold holder
  split <;> omega

theorem base_alone (L : Layout) {k : Nat} (hk : L.shared ≤ max 1 k) : L.base k = 0 := by
  unfold base
  split
  · next h =>
      rw [show k = 0 by omega]
      rfl
  · rfl

end Layout

theorem Env.le_chunkBufSize (env : Env) {n : Nat} (h : env.memalign = true -> n ≤ 16384) :
    n ≤ env.chunkBufSize n := by
  unfold Env.chunkBufSize
  split
  · next hm => exact h hm
  · exact Nat.le_refl n

namespace Fits

variable {env : Env} {c : Content} {L : Layout}

theorem own_le (h : Fits env c L) (hm : env.memalign = true) {k : Nat} (hk : k < c.num) :
    1024 * L.own k ≤ 16384 := by
  have hone := h.split (env.split_of_memalign hm)
  have hcap := h.cap_le k hk
  by_cases hz : k = 0
  · subst hz
    rw [Layout.own_zero, hone]
    unfold Layout.start
    rw [sumTo_succ, sumTo_zero]
    omega
  · rw [Layout.own_of_alone hz (by omega)]
    omega

theorem start_bound (h : Fits env c L) : L.start c.num ≤ 16 * c.num := by
  have hle := sumTo_le (n := c.num) (b := 16) (f := L.cap) h.cap_le
  unfold Layout.start
  omega

end Fits

namespace Placement

variable {env : Env} {w : World} {num : Nat} {L : Layout}

theorem holds (h : Placement env w num L) (hpos : 1 ≤ L.shared)
    (hown : env.memalign = true -> forall k, k < num -> 1024 * L.own k ≤ 16384)
    {k : Nat} (hk : k < num) : exists size,
    w.sys.allocs (w.index.chkAddr k).blk = some ⟨.chunk, size⟩ ∧
      1024 * L.base k + 1024 * L.cap k ≤ size := by
  have hle := L.holder_le k
  rcases h.alloc (L.holder k) (by omega) (L.holder_holder k) with ⟨size, halloc, hsize⟩
  refine ⟨size, ?_, ?_⟩
  · rw [h.addr k hk]
    exact halloc
  · have hbase := L.base_add_le hpos k
    have hbuf := env.le_chunkBufSize (n := 1024 * L.own (L.holder k))
      fun hm => hown hm _ (by omega)
    omega

theorem off_eq (h : Placement env w num L) {k : Nat} (hk : k < num) :
    (w.index.chkAddr k).off = 1024 * L.base k := by
  rw [h.addr k hk]

theorem apart (h : Placement env w num L) {k k' : Nat} (hk : k < num) (hk' : k' < num)
    (hne : k ≠ k') (hblk : (w.index.chkAddr k).blk = (w.index.chkAddr k').blk) :
    L.base k + L.cap k ≤ L.base k' ∨ L.base k' + L.cap k' ≤ L.base k := by
  have hle := L.holder_le k
  have hle' := L.holder_le k'
  have hholder : L.holder k = L.holder k' := by
    apply h.distinct _ _ (by omega) (by omega) (L.holder_holder k) (L.holder_holder k')
    rw [h.addr k hk, h.addr k' hk'] at hblk
    exact hblk
  rcases Nat.lt_or_gt_of_ne hne with hlt | hlt
  · exact Or.inl (Layout.base_apart hholder hlt)
  · exact Or.inr (Layout.base_apart hholder.symm hlt)

end Placement

/-!
## Replacing the memory of one chunk
-/

section SetChunk

variable (w : World) (k : Nat) (m : Bits)

@[simp] theorem setChunk_sys : (w.setChunk k m).sys = w.sys := rfl

@[simp] theorem setChunk_index : (w.setChunk k m).index = w.index := rfl

@[simp] theorem setChunk_chunkBits_self : (w.setChunk k m).chunkBits k = m :=
  World.view_setView w _ m

theorem setChunk_bits_other {b : Nat} (hb : b ≠ (w.index.chkAddr k).blk) :
    (w.setChunk k m).bits b = w.bits b :=
  World.setView_bits_other w _ m hb

end SetChunk

theorem setChunk_chunkBits_other {env : Env} {w : World} {num : Nat} {L : Layout}
    (h : Placement env w num L) (hsplit : env.uncompressSplit = true -> L.shared = 1)
    {k k' : Nat} (hk : k < num) (hk' : k' < num) (hne : k' ≠ k) {m : Bits}
    (hin : forall j, 8192 * L.cap k ≤ j -> m j = w.chunkBits k j) {j : Nat}
    (hj : j < env.reach (L.cap k')) :
    (w.setChunk k m).chunkBits k' j = w.chunkBits k' j := by
  apply World.view_setView_apart hin
  by_cases hblk : (w.index.chkAddr k').blk = (w.index.chkAddr k).blk
  · have hoff := h.off_eq hk
    have hoff' := h.off_eq hk'
    have hapart := h.apart hk' hk hne hblk
    unfold Env.reach at hj
    split at hj
    · next hm =>
        -- with the pool no two chunks share a block
        have hone := hsplit (env.split_of_memalign hm)
        have hself := fun i => L.holder_alone (k := i) (by omega)
        exact absurd (h.distinct k' k hk' hk (hself k') (hself k) hblk) hne
    · simp only [setChunk_index]
      omega
  · exact Or.inl hblk

end ChunkMem
