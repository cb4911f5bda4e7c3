import ChunkMem.Memory.World

/-!
# The allocator that counts

`ChkDefaultMemAlloc` stands behind `ChkMetadata::_unalign_allocate`,
`_unalign_dellocate` and `_unalign_reallocate` once it is installed, and counts the
bytes that pass through it.
-/

namespace ChunkMem

open Foundation

/-- `ChkDefaultMemAlloc`, with the memory of the process. -/
structure ChkDefaultMemAlloc where
  world : World
  allocSize : Nat
  reallocFix : Bool

abbrev CountProg (α : Type) := Exec ChkDefaultMemAlloc Fault α

namespace ChkDefaultMemAlloc

variable (env : Env)

def mem {α : Type} (x : M α) : CountProg α := fun m =>
  match x m.world with
  | .ok (a, w) => .ok (a, { m with world := w })
  | .error e => .error e

/-- `_alloc_size += size` on a `size_t`. -/
def addSize (size : Nat) : CountProg Unit :=
  Exec.update fun m => { m with allocSize := (m.allocSize + size) % 2 ^ 64 }

/-- `_alloc_size -= size` on a `size_t`. -/
def subSize (size : Nat) : CountProg Unit :=
  Exec.update fun m => { m with allocSize := (m.allocSize + (2 ^ 64 - size % 2 ^ 64)) % 2 ^ 64 }

/-- `::free`, which takes null. -/
def freePtr (p : Ptr) : M Unit := if p = Ptr.null then pure () else sysFree p

/-- `memcpy`, which uses neither pointer where there is nothing to copy. -/
def copyBytes (dst src : Ptr) (n : Nat) : M Unit :=
  if n = 0 then pure () else memcpy dst src n

/-- `::realloc`: null is obtained anew, the size zero gives the memory back, and on failure
the old memory stays. -/
def sysRealloc (p : Ptr) (size : Nat) : M Ptr :=
  if p = Ptr.null then malloc env size
  else do
    let w <- Exec.state
    Exec.require (w.sys.Owns .system p) .badRelease
    if size = 0 then do
      sysFree p
      pure Ptr.null
    else do
      let q <- malloc env size
      if q = Ptr.null then pure q
      else do
        memcpy q p (min (((w.sys.allocs p.blk).map Allocation.size).getD 0) size)
        sysFree p
        pure q

/-- `ChkDefaultMemAlloc::init`: nothing happens while the count is not zero. -/
def init (reallocFix : Bool) : CountProg Unit :=
  Exec.update fun m => if 0 < m.allocSize then m else { m with reallocFix := reallocFix }

def alloc (size : Nat) : CountProg Ptr := do
  let p <- mem (malloc env size)
  Exec.require (p ≠ Ptr.null) .assertion
  addSize size
  pure p

/-- The copy that `reallocate` makes with `_realloc_fix`. -/
def reallocFixed (p : Ptr) (orgSize size : Nat) : CountProg Ptr := do
  if size = 0 then do
    mem (freePtr p)
    pure Ptr.null
  else do
    let q <- mem (malloc env size)
    Exec.require (q ≠ Ptr.null) .assertion
    mem (copyBytes q p (min orgSize size))
    mem (freePtr p)
    pure q

/-- `new_ptr` of `reallocate`. -/
def newPtr (p : Ptr) (orgSize size : Nat) : CountProg Ptr := do
  let m <- Exec.state
  if m.reallocFix then reallocFixed env p orgSize size
  else mem (sysRealloc env p size)

def reallocate (p : Ptr) (orgSize size : Nat) : CountProg Ptr := do
  let q <- newPtr env p orgSize size
  addSize size
  subSize orgSize
  pure q

def dellocate (p : Ptr) (size : Nat) : CountProg Unit := do
  mem (freePtr p)
  subSize size

end ChkDefaultMemAlloc

end ChunkMem
