import ChunkMem.Foundation.Clients
import ChunkMem.Memory.Memalign

/-!
# Chunk memory out of the pool

The functions that `ChkMemalign::init` installs as `ChkMetadata::_allocate`,
`_dellocate` and `_reallocate`, on the regions of the pool and their contents, and
what code that keeps chunks asks of such functions.
-/

namespace ChunkMem

open Foundation

/-!
## The installed functions
-/

/-- The pool, and what its regions hold. -/
structure PoolMem where
  pool : ChkMemalign
  bits : Nat -> Bits

namespace PoolMem

def regionSize (s : PoolMem) (blk : Nat) : Nat :=
  if blk = 0 then 0 else s.pool.regions.getD (blk - 1) 0

/-- A function of the pool.  A region that `__memalign_sys` obtains is cleared. -/
def ofPool {α : Type} (x : PoolProg α) : Exec PoolMem Fault α := fun s =>
  match x s.pool with
  | .ok (a, m) =>
      .ok (a, ⟨m, fun b => if s.pool.regions.length < b then Bits.zero else s.bits b⟩)
  | .error e => .error e

/-- Memory of the pool may be used from one end of a region to the other. -/
def access (p : Ptr) (n : Nat) : Exec PoolMem Fault Unit := fun s =>
  if p.off + n ≤ s.regionSize p.blk then .ok ((), s) else .error p.accessFault

def setBits (s : PoolMem) (blk : Nat) (m : Bits) : PoolMem :=
  { s with bits := Function.update s.bits blk m }

def loadBytes (p : Ptr) (n : Nat) : Exec PoolMem Fault (List Byte) := do
  access p n
  let s <- Exec.state
  pure ((s.bits p.blk).bytes p.off n)

def storeBytes (p : Ptr) (l : List Byte) : Exec PoolMem Fault Unit := do
  access p l.length
  Exec.update fun s => s.setBits p.blk ((s.bits p.blk).writeBytes p.off l)

def bzero (p : Ptr) (n : Nat) : Exec PoolMem Fault Unit := do
  access p n
  Exec.update fun s => s.setBits p.blk ((s.bits p.blk).clear (8 * p.off) (8 * n))

/-- `_allocate_func`.  Whether the system has memory for the next region may depend on
how many it gave. -/
def allocateFunc (available : Nat -> Bool) (size : Nat) : Exec PoolMem Fault Ptr := do
  Exec.require (size ≤ chkMaxChksize) .assertion
  let s <- Exec.state
  let p <- ofPool (ChkMemalign.alloc (available s.pool.regions.length))
  if p = Ptr.null then pure p
  else do
    bzero p chkMaxChksize
    pure p

def dellocateFunc (p : Ptr) (size : Nat) : Exec PoolMem Fault Unit := do
  Exec.require (size ≤ chkMaxChksize) .assertion
  ofPool (ChkMemalign.dellocate p)

def reallocFunc (available : Nat -> Bool) (p : Ptr) (_orgSize size : Nat) :
    Exec PoolMem Fault Ptr := do
  Exec.require (size ≤ chkMaxChksize) .assertion
  if p = Ptr.null then allocateFunc available size
  else pure p

end PoolMem

/-!
## Code that keeps chunks
-/

/-- The function pointers of `ChkMetadata`, and access to the memory they return. -/
structure ChunkAllocator (σ : Type) where
  allocate : Nat -> Exec σ Fault Ptr
  dellocate : Ptr -> Nat -> Exec σ Fault Unit
  reallocate : Ptr -> Nat -> Nat -> Exec σ Fault Ptr
  loadBytes : Ptr -> Nat -> Exec σ Fault (List Byte)
  storeBytes : Ptr -> List Byte -> Exec σ Fault Unit

/-- What `ChkMemalign::init` installs. -/
def PoolMem.allocator (available : Nat -> Bool) : ChunkAllocator PoolMem where
  allocate := PoolMem.allocateFunc available
  dellocate := PoolMem.dellocateFunc
  reallocate := PoolMem.reallocFunc available
  loadBytes := PoolMem.loadBytes
  storeBytes := PoolMem.storeBytes

def World.allocator (env : Env) : ChunkAllocator World where
  allocate := ChunkMem.allocate env
  dellocate := ChunkMem.dellocate env
  reallocate := ChunkMem.reallocate env
  loadBytes := ChunkMem.loadBytes
  storeBytes := ChunkMem.storeBytes

/-- A request names the results of earlier ones by their number. -/
inductive ChunkRequest where
  | allocate (size : Nat)
  | dellocate (k size : Nat)
  | reallocate (k : Option Nat) (orgSize size : Nat)
  | load (k off n : Nat)
  | store (k off : Nat) (l : List Byte)

/-- What code learns from a request.  The value of an address is not part of it. -/
inductive ChunkAnswer where
  | done
  | bytes (l : List Byte)
deriving DecidableEq

/-- A machine and the addresses obtained on it, in order. -/
structure Held (σ : Type) where
  machine : σ
  places : List Ptr

namespace ChunkAllocator

variable {σ α : Type}

def onMachine (x : Exec σ Fault α) : Exec (Held σ) Fault α := fun h =>
  match x h.machine with
  | .ok (a, s) => .ok (a, { h with machine := s })
  | .error e => .error e

def place (k : Nat) : Exec (Held σ) Fault Ptr := fun h =>
  match h.places[k]? with
  | some p => .ok (p, h)
  | none => .error .badAccess

def keep (p : Ptr) : Exec (Held σ) Fault ChunkAnswer := do
  Exec.update fun h => { h with places := h.places ++ [p] }
  pure .done

def serve (A : ChunkAllocator σ) : ChunkRequest -> Exec (Held σ) Fault ChunkAnswer
  | .allocate size => do
      let p <- onMachine (A.allocate size)
      keep p
  | .dellocate k size => do
      let p <- place k
      onMachine (A.dellocate p size)
      pure .done
  | .reallocate none orgSize size => do
      let p <- onMachine (A.reallocate Ptr.null orgSize size)
      keep p
  | .reallocate (some k) orgSize size => do
      let p <- place k
      let q <- onMachine (A.reallocate p orgSize size)
      keep q
  | .load k off n => do
      let p <- place k
      let l <- onMachine (A.loadBytes (p.add off) n)
      pure (.bytes l)
  | .store k off l => do
      let p <- place k
      onMachine (A.storeBytes (p.add off) l)
      pure .done

end ChunkAllocator

end ChunkMem
