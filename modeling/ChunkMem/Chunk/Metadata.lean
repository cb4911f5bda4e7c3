import ChunkMem.Memory.World

/-!
# Chunk metadata

The member functions of `ChkMetadata`, each given the address of the chunk
as its first argument.
-/

namespace ChunkMem
namespace ChkMetadata

open Foundation

/-- `ChkMetadata::capacity()`, in bytes. -/
def capacityBytes (chk : Ptr) : M Nat := do
  let capacity <- load chk capacity
  pure (chkCapacity capacity)

def canEnlarge (chk : Ptr) : M Bool := do
  let allocCapacity <- load chk allocCapacity
  let capacity <- load chk capacity
  pure (decide (allocCapacity ≠ 0 ∧ chkCapacity capacity < chkMaxChksize))

/-- `std::upper_bound` on the size table. -/
def upperBound (bytes : Nat) : Option Nat := chkMemSizes.find? fun s => bytes < s

/-- The capacity a chunk is enlarged to.  In the `CHK_MEM_ALLOC_NEED` mode
the old chunk is read even when there is none. -/
def capacityLevel (old : Ptr) (allocType : MemAllocType) : M Nat :=
  match allocType with
  | .max => pure chkMaxChksize
  | .need => do
      let bytes <- capacityBytes old
      match upperBound bytes with
      | some level => pure level
      | none => Exec.fault .assertion

/-- The header of a chunk that has just been allocated. -/
def initHeader (chk : Ptr) : M Unit := do
  bzero chk sizeOf
  store chk magic chkMagic
  store chk padding3 chkPadding
  store chk used (setChkSize (chkAlignDef sizeOf))
  let u <- load chk used
  store chk virgin u

/-- `ChkMetadata::enlarge`; a null `old` allocates a new chunk. -/
def enlarge (env : Env) (old : Ptr) (allocType : MemAllocType) : M Ptr := do
  let can <- if old = Ptr.null then pure true else canEnlarge old
  if can = false then pure Ptr.null
  else do
    let level <- capacityLevel old allocType
    let orgSize <- if old = Ptr.null then pure 0 else capacityBytes old
    let new <- reallocate env old orgSize level
    if new = Ptr.null then pure Ptr.null
    else do
      if old = Ptr.null then initHeader new else pure ()
      store new capacity (setChkCapacity level)
      let c <- load new capacity
      store new allocCapacity c
      pure new

/-- `ChkMetadata::shrink`; null when there is nothing to give back or no
memory. -/
def shrink (env : Env) (old : Ptr) : M Ptr := do
  let bytes <- capacityBytes old
  let v <- load old virgin
  Exec.require (chkSize v ≤ bytes) .assertion
  let resetChk := setChkCapacity (bytes - chkSize v)
  if resetChk = 0 then pure Ptr.null
  else do
    let c <- load old capacity
    let newCapacity := c - resetChk
    let new <-
      if resetChk < newCapacity then
        reallocate env old bytes (chkCapacity newCapacity)
      else do
        let q <- allocate env (chkCapacity newCapacity)
        if q = Ptr.null then pure q
        else do
          memcpy q old (chkSize v)
          dellocate env old bytes
          pure q
    if new = Ptr.null then pure Ptr.null
    else do
      store new capacity newCapacity
      let c <- load new capacity
      store new allocCapacity c
      pure new

/-- `ChkMetadata::alloc`: bump the virgin mark. -/
def alloc (chk : Ptr) (size : Nat) : M ChkPtr := do
  let size := chkAlignDef size
  if size > chkMaxContinusLen then pure chkNull
  else do
    let v <- load chk virgin
    let c <- load chk capacity
    if chkSize v + size > chkCapacity c then pure chkNull
    else do
      let n <- load chk no
      let chkPtr : ChkPtr :=
        ⟨n, chkSize2Offset v % 2 ^ 12, setChkSize size % 2 ^ 9⟩
      store chk virgin (v + chkPtr.size)
      pure chkPtr

/-- `ChkMetadata::free`: roll the virgin mark back over the topmost block.
True stands for the return value 0. -/
def free (chk : Ptr) (chkPtr : ChkPtr) : M Bool := do
  let n <- load chk no
  Exec.require (chkPtr.chkNo = n ∧ chkPtr.size ≠ 0) .assertion
  let v <- load chk virgin
  if chkOffset2Size chkPtr.offset + chkPtr.size = v then do
    store chk virgin (v - chkPtr.size)
    pure true
  else pure false

/-- `ChkMetadata::destruct`: only a chunk that owns its allocation is
released. -/
def destruct (env : Env) (old : Ptr) : M Unit := do
  let a <- load old allocCapacity
  if a ≠ 0 then dellocate env old (chkCapacity a) else pure ()

end ChkMetadata
end ChunkMem
