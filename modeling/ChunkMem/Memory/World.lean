import ChunkMem.Foundation.Exec
import ChunkMem.Memory.Layout

/-!
# Allocations and raw memory

The machine below the library: live allocations with their contents, the
allocator entry points that `ChkMetadata` calls through function pointers,
and checked loads and stores.  An address is an allocation together with a byte
offset.  Reading or writing outside a live allocation is a fault, and so is
releasing anything but the base of a live allocation of the matching allocator.

System calls that may fail draw their verdict from `Env.ok`, one number per
call, so that a statement about every environment covers every pattern of
failures.
-/

namespace ChunkMem

open Foundation

inductive Fault where
  /-- An `assert` of the source fails. -/
  | assertion
  /-- A null pointer is dereferenced. -/
  | nullDeref
  /-- An access outside live memory, for instance through a stale pointer. -/
  | badAccess
  /-- A release of something that is not the base of a matching allocation. -/
  | badRelease
  /-- A loop of the source does not end. -/
  | diverge
deriving DecidableEq, Repr

/-- The allocator an allocation was obtained from. -/
inductive AllocKind where
  /-- `ChkMetadata::_allocate` and `_reallocate`. -/
  | chunk
  /-- `ChkMetadata::_unalign_allocate` and `_unalign_reallocate`. -/
  | unalign
  /-- `::malloc`. -/
  | system
  /-- Memory of the calling program, which the library never releases. -/
  | caller
deriving DecidableEq, Repr

structure Allocation where
  kind : AllocKind
  size : Nat
deriving DecidableEq, Repr

/-- An address: an allocation and a byte offset into it.  Allocation zero is
never handed out, so that `null` designates nothing. -/
structure Ptr where
  blk : Nat
  off : Nat
deriving DecidableEq, Repr

namespace Ptr

def null : Ptr := ⟨0, 0⟩

def add (p : Ptr) (n : Nat) : Ptr := ⟨p.blk, p.off + n⟩

end Ptr

/-!
## Environment
-/

/-- The compressor, as far as the index relies on it. -/
structure Snappy where
  compress : List Byte -> List Byte
  uncompress : List Byte -> Option (List Byte)
  uncompressedLength : List Byte -> Option Nat
  /-- How many bytes are taken from the source at once, at most, after a given
  number of bytes. -/
  cut : Nat -> Nat
  uncompress_compress : forall l, uncompress (compress l) = some l
  uncompressedLength_compress :
    forall l, uncompressedLength (compress l) = some l.length
  length_compress_le :
    forall l, (compress l).length ≤ 32 + l.length + l.length / 6
  cut_pos : forall k, 0 < cut k

def Snappy.maxCompressedLength (n : Nat) : Nat := 32 + n + n / 6

/-- What the program sets up once, and the behaviour of the system. -/
structure Env where
  /-- The `ChkMemalign` pool is installed. -/
  memalign : Bool
  /-- `ChkIndex::UNCOMPRESS_SPLIT`. -/
  uncompressSplit : Bool
  /-- `ChkMemMgr::free_size_preset`. -/
  freeSizePreset : Fin 3 -> Nat
  snappy : Snappy
  /-- Whether the system call with a given number succeeds. -/
  ok : Nat -> Bool
  /-- What freshly obtained memory holds that nobody cleared. -/
  junk : Nat -> Bits
  /-- Installing the pool sets `UNCOMPRESS_SPLIT`. -/
  split_of_memalign : memalign = true -> uncompressSplit = true

namespace Env

def AllOk (env : Env) : Prop := forall k, env.ok k = true

/-- The size classes as the bit fields of `ChkMemMgr` keep them. -/
def freeSize (env : Env) : Fin 3 -> Nat
  | 0 => env.freeSizePreset 0 % 2 ^ 4
  | 1 => env.freeSizePreset 1 % 2 ^ 5
  | 2 => env.freeSizePreset 2 % 2 ^ 7

theorem freeSize_lt (env : Env) (i : Fin 3) : env.freeSize i < 2 ^ 7 := by
  match i with
  | 0 => exact Nat.lt_of_lt_of_le (Nat.mod_lt _ (by decide)) (by decide)
  | 1 => exact Nat.lt_of_lt_of_le (Nat.mod_lt _ (by decide)) (by decide)
  | 2 => exact Nat.mod_lt _ (by decide)

def ClassesNonzero (env : Env) : Prop := forall i, 0 < env.freeSize i

/-- What the chunk allocator really hands out for a request: the pool knows
blocks of 16 KB only. -/
def chunkBufSize (env : Env) (size : Nat) : Nat :=
  if env.memalign then chkMaxChksize else size

end Env

/-!
## Allocation table
-/

structure Sys where
  allocs : Nat -> Option Allocation
  /-- The next allocation to hand out. -/
  next : Nat
  /-- The number of system calls made so far. -/
  tick : Nat

namespace Sys

def init : Sys := ⟨fun _ => none, 1, 0⟩

def skip (s : Sys) : Sys := { s with tick := s.tick + 1 }

def obtain (s : Sys) (kind : AllocKind) (size : Nat) : Sys where
  allocs := Function.update s.allocs s.next (some ⟨kind, size⟩)
  next := s.next + 1
  tick := s.tick + 1

/-- The allocation at `p` may be released by the allocator `kind`. -/
def Owns (s : Sys) (kind : AllocKind) (p : Ptr) : Prop :=
  p.off = 0 ∧ (s.allocs p.blk).map Allocation.kind = some kind

instance (s : Sys) (kind : AllocKind) (p : Ptr) : Decidable (s.Owns kind p) :=
  inferInstanceAs (Decidable (_ ∧ _))

def erase (s : Sys) (blk : Nat) : Sys :=
  { s with allocs := Function.update s.allocs blk none }

/-- The bits `[lo, hi)` counted from `p` lie in a live allocation. -/
def Inside (s : Sys) (p : Ptr) (hi : Nat) : Prop :=
  exists a, s.allocs p.blk = some a ∧ 8 * p.off + hi ≤ 8 * a.size

instance (s : Sys) (p : Ptr) (hi : Nat) : Decidable (s.Inside p hi) :=
  match h : s.allocs p.blk with
  | none => isFalse (by rintro ⟨a, ha, _⟩; rw [h] at ha; cases ha)
  | some a =>
      if hle : 8 * p.off + hi ≤ 8 * a.size then isTrue ⟨a, h, hle⟩
      else isFalse (by
        rintro ⟨b, hb, hb'⟩
        rw [h] at hb
        cases hb
        exact hle hb')

end Sys

/-!
## Machine state
-/

/-- `CHK_MEM_ALLOC_TYPE`. -/
inductive MemAllocType where
  | max
  | need
deriving DecidableEq, Repr

/-- `ChkIndex`: the chunk table and its flags. -/
structure ChkIndex where
  chkNum : Nat
  memAllocType : MemAllocType
  compressed : Bool
  chkAddrSize : Nat
  chkAddr : Nat -> Ptr

/-- The machine state: allocations, their contents and the index. -/
structure World where
  sys : Sys
  bits : Nat -> Bits
  index : ChkIndex

abbrev M := Exec World Fault

/-!
## Loads and stores
-/

/-- The fault raised by an access through `p` that is not inside live memory. -/
def Ptr.accessFault (p : Ptr) : Fault :=
  if p = Ptr.null then Fault.nullDeref else Fault.badAccess

/-- Require the first `hi` bits from `p` on to be live. -/
def access (p : Ptr) (hi : Nat) : M Unit := fun w =>
  if w.sys.Inside p hi then .ok ((), w) else .error p.accessFault

def World.setBits (w : World) (blk : Nat) (m : Bits) : World :=
  { w with bits := Function.update w.bits blk m }

def load (p : Ptr) (f : Field) : M Nat := do
  access p (f.pos + f.width)
  let w <- Exec.state
  pure ((w.bits p.blk).read (8 * p.off + f.pos) f.width)

def store (p : Ptr) (f : Field) (v : Nat) : M Unit := do
  access p (f.pos + f.width)
  Exec.update fun w =>
    w.setBits p.blk ((w.bits p.blk).write (8 * p.off + f.pos) f.width v)

def loadPtr (p : Ptr) : M ChkPtr := do
  access p 32
  let w <- Exec.state
  pure ((w.bits p.blk).readPtr (8 * p.off))

def storePtr (p : Ptr) (v : ChkPtr) : M Unit := do
  access p 32
  Exec.update fun w =>
    w.setBits p.blk ((w.bits p.blk).writePtr (8 * p.off) v)

/-- `ChkPtr::set_null` on the link at `p`: only the chunk number changes. -/
def setNull (p : Ptr) : M Unit := store p ⟨0, 11⟩ chkMaxChkNum

def bzero (p : Ptr) (n : Nat) : M Unit := do
  access p (8 * n)
  Exec.update fun w =>
    w.setBits p.blk ((w.bits p.blk).clear (8 * p.off) (8 * n))

def loadBytes (p : Ptr) (n : Nat) : M (List Byte) := do
  access p (8 * n)
  let w <- Exec.state
  pure ((w.bits p.blk).bytes p.off n)

def storeBytes (p : Ptr) (l : List Byte) : M Unit := do
  access p (8 * l.length)
  Exec.update fun w =>
    w.setBits p.blk ((w.bits p.blk).writeBytes p.off l)

/-- `memcpy` between two places that do not overlap. -/
def memcpy (dst src : Ptr) (n : Nat) : M Unit := do
  access src (8 * n)
  access dst (8 * n)
  Exec.update fun w =>
    w.setBits dst.blk
      ((w.bits dst.blk).copy (8 * dst.off) (w.bits src.blk) (8 * src.off) (8 * n))

def getIndex : M ChkIndex := do
  let w <- Exec.state
  pure w.index

def modifyIndex (f : ChkIndex -> ChkIndex) : M Unit :=
  Exec.update fun w => { w with index := f w.index }

/-- Read `_chk_addr[i]`. -/
def readChkAddr (i : Nat) : M Ptr := do
  let idx <- getIndex
  Exec.require (i < idx.chkAddrSize) .badAccess
  pure (idx.chkAddr i)

/-- Write `_chk_addr[i]`. -/
def writeChkAddr (i : Nat) (p : Ptr) : M Unit := do
  let idx <- getIndex
  Exec.require (i < idx.chkAddrSize) .badAccess
  modifyIndex fun x => { x with chkAddr := Function.update x.chkAddr i p }

/-!
## System calls
-/

section Env

variable (env : Env)

def sysCall : M Bool := fun w =>
  .ok (env.ok w.sys.tick, { w with sys := w.sys.skip })

/-- One call of a system allocator; null when it fails. -/
def obtain (kind : AllocKind) (size : Nat) (content : Bits) : M Ptr := fun w =>
  if env.ok w.sys.tick then
    .ok (⟨w.sys.next, 0⟩,
      { (w.setBits w.sys.next content) with sys := w.sys.obtain kind size })
  else .ok (Ptr.null, { w with sys := w.sys.skip })

/-- Give an allocation back to the allocator it came from. -/
def release (kind : AllocKind) (p : Ptr) : M Unit := do
  let w <- Exec.state
  Exec.require (w.sys.Owns kind p) .badRelease
  Exec.update fun w => { w with sys := w.sys.erase p.blk }

def malloc (size : Nat) : M Ptr := do
  let w <- Exec.state
  obtain env .system size (env.junk w.sys.next)

/-- `::free` on a chunk buffer. -/
def sysFree (p : Ptr) : M Unit := release .system p

/-- `ChkMetadata::_allocate`: `allocate_wrap`, or `_allocate_func`
once the pool is installed.  Both clear what they return.  A refill of the pool
that finds no memory trips its own assertion. -/
def allocate (size : Nat) : M Ptr := do
  Exec.require (env.memalign = true -> size ≤ chkMaxChksize) .assertion
  let p <- obtain env .chunk (env.chunkBufSize size) Bits.zero
  Exec.require (env.memalign = true -> p ≠ Ptr.null) .assertion
  pure p

/-- `ChkMetadata::_dellocate`. -/
def dellocate (p : Ptr) (size : Nat) : M Unit := do
  Exec.require (env.memalign = true -> size ≤ chkMaxChksize) .assertion
  release .chunk p

/-- `ChkMetadata::_reallocate`: `realloc_wrap`, or `_realloc_func`
once the pool is installed, which hands the old block back unchanged. -/
def reallocate (p : Ptr) (orgSize size : Nat) : M Ptr := do
  Exec.require (env.memalign = true -> size ≤ chkMaxChksize) .assertion
  if p = Ptr.null then allocate env size
  else do
    let w <- Exec.state
    Exec.require (w.sys.Owns .chunk p) .badRelease
    if env.memalign then pure p
    else do
      let q <- obtain env .chunk size Bits.zero
      if q = Ptr.null then pure q
      else do
        let capacity <- load p ChkMetadata.capacity
        memcpy q p (min size (chkCapacity capacity))
        dellocate env p orgSize
        pure q

/-- `ChkMetadata::_unalign_allocate`.  Its two implementations differ in
whether they clear the memory. -/
def unalignAllocate (size : Nat) : M Ptr := do
  let w <- Exec.state
  obtain env .unalign size (env.junk w.sys.next)

/-- `ChkMetadata::_unalign_dellocate`. -/
def unalignDellocate (p : Ptr) : M Unit := release .unalign p

/-- `ChkMetadata::_unalign_reallocate`: on failure the old block stays. -/
def unalignReallocate (p : Ptr) (orgSize size : Nat) : M Ptr := do
  let w <- Exec.state
  Exec.require (w.sys.Owns .unalign p) .badRelease
  let q <- obtain env .unalign size (env.junk w.sys.next)
  if q = Ptr.null then pure q
  else do
    memcpy q p (min orgSize size)
    release .unalign p
    pure q

end Env

end ChunkMem
