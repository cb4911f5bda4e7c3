import ChunkMem.Memory.World

/-!
# The pool of whole chunks

`ChkMemalign` cuts regions of the system into blocks of `CHK_MAX_CHKSIZE` bytes
and keeps those that are not in use in a vector.
-/

namespace ChunkMem

open Foundation

/-- `ChkMemalign`, and the sizes of the regions the system gave: the first one is
allocation one, and so on. -/
structure ChkMemalign where
  confChunks : Int
  usedChunks : Int
  /-- `_free_chunks`, its back first. -/
  freeChunks : List Ptr
  regions : List Nat

abbrev PoolProg (α : Type) := Exec ChkMemalign Fault α

namespace ChkMemalign

/-- `__memalign_sys`, when the system has memory or has none. -/
def memalignSys (available : Bool) (size : Nat) : PoolProg Ptr := fun m =>
  if available = true then
    .ok (⟨m.regions.length + 1, 0⟩, { m with regions := m.regions ++ [size] })
  else .ok (Ptr.null, m)

/-- The loop of `refill_chunks`. -/
def pushChunks : Nat -> Ptr -> List Ptr -> List Ptr
  | 0, _, free => free
  | n + 1, initMem, free => pushChunks n (initMem.add chkMaxChksize) (initMem :: free)

def refillChunks (available : Bool) (chunkNum : Int) : PoolProg Unit := do
  let initMem <- memalignSys available (toSizeT (chkMaxChksize * chunkNum))
  Exec.require (initMem ≠ Ptr.null) .assertion
  Exec.update fun m =>
    { m with freeChunks := pushChunks chunkNum.toNat initMem m.freeChunks }

/-- `_free_chunks.reserve(_conf_chunks * 3 / 2)` leaves the vector as it is.  Where the
product is negative as an `int`, it throws, and nobody catches that. -/
def reserve (confChunks : Int) : PoolProg Unit :=
  Exec.require (0 ≤ (wrapInt (confChunks * 3)).tdiv 2) .assertion

def init (available : Bool) (confChunks : Int) : PoolProg Unit := do
  let m <- Exec.state
  if 0 < m.confChunks then pure ()
  else do
    Exec.update fun m => { m with confChunks := confChunks, usedChunks := 0 }
    Exec.require (8 ≤ confChunks) .assertion
    reserve confChunks
    refillChunks available confChunks

/-- `ChkMemalign::alloc` on a vector that is not empty; one without a back has no
element to read. -/
def popChunk : PoolProg Ptr := do
  let m <- Exec.state
  match m.freeChunks with
  | [] => Exec.fault .badAccess
  | p :: free => do
      Exec.update fun m =>
        { m with freeChunks := free, usedChunks := wrapInt (m.usedChunks + 1) }
      pure p

def alloc (available : Bool) : PoolProg Ptr := do
  let m <- Exec.state
  if m.freeChunks = [] then do
    refillChunks available (m.confChunks / 4)
    popChunk
  else popChunk

def dellocate (p : Ptr) : PoolProg Unit :=
  Exec.update fun m =>
    { m with freeChunks := p :: m.freeChunks, usedChunks := wrapInt (m.usedChunks - 1) }

end ChkMemalign

end ChunkMem
