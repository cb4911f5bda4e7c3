import ChunkMem.Index.Compress

/-!
# Allocation and release of blocks
-/

namespace ChunkMem
namespace ChkIndex

open Foundation

variable (env : Env)

def enlarge : M Int := do
  let r <- uncompress env
  if r ≠ 0 then pure (-1)
  else do
    let r <- splitContinuousChunk env
    if r ≠ 0 then pure (-2)
    else do
      let r <- chkEnlarge env true
      if r ≠ 0 then pure (-3) else pure 0

/-- The rest of a chunk that just lost its place as the last one goes to the
pool. -/
def collectRest (chk : Ptr) : M Unit := do
  let bytes <- ChkMetadata.capacityBytes chk
  let v <- load chk ChkMetadata.virgin
  let resetSize : Int := (bytes : Int) - chkSize v
  if resetSize > 0 then do
    let collectPtr <- ChkMetadata.alloc chk (toSizeT resetSize)
    let mgr <- memMgr
    ChkMemMgr.free mgr collectPtr
    addMgr ChkMemMgr.totalFree (setChkSize resetSize.toNat)
  else pure ()

/-- The `try_again` loop of `ChkIndex::alloc`: the chunk and the block
cut from it, or a null pointer.  `oldChkNum` is read once before the loop,
as in the source. -/
def tryAgain (size : Int) (oldChkNum : Nat) : Nat -> M (Ptr × ChkPtr)
  | 0 => Exec.fault .diverge
  | fuel + 1 => do
      let idx <- getIndex
      let chk <- readChkAddr (idx.chkNum - 1)
      let chkPtr <- ChkMetadata.alloc chk (toSizeT size)
      if chkPtr.IsNull then do
        let r <- chkEnlarge env false
        if r < 0 then pure (chk, chkPtr)
        else do
          let idx <- getIndex
          if oldChkNum ≠ idx.chkNum then collectRest chk else pure ()
          tryAgain size oldChkNum fuel
      else pure (chk, chkPtr)

def countUsed (chk : Ptr) (chkPtr : ChkPtr) : M ChkPtr := do
  let u <- load chk ChkMetadata.used
  store chk ChkMetadata.used (u + chkPtr.size)
  addMgr ChkMemMgr.totalUsed chkPtr.size
  pure chkPtr

/-- The rounds `try_again` can take: a chunk grows at most five times, and
there are at most 2047 chunks. -/
def tryAgainFuel : Nat := 6 * 2048

/-- `ChkIndex::alloc` once there is a chunk. -/
def allocBlock (size : Int) : M ChkPtr := do
  let idx <- getIndex
  Exec.require (idx.chkNum ≠ 0) .assertion
  let last <- readChkAddr (idx.chkNum - 1)
  let can <- ChkMetadata.canEnlarge last
  if idx.memAllocType = .max ∧ can = true then pure chkNull
  else do
    let mgr <- memMgr
    let chkPtr <- ChkMemMgr.alloc mgr size
    if ¬chkPtr.IsNull then do
      let chk <- chkPtr2chk chkPtr
      subMgr ChkMemMgr.totalFree chkPtr.size
      countUsed chk chkPtr
    else do
      let (chk, chkPtr) <- tryAgain env size idx.chkNum tryAgainFuel
      if chkPtr.IsNull then pure chkPtr else countUsed chk chkPtr

def alloc (size : Int) : M ChkPtr := do
  Exec.require (size > 0) .assertion
  let size := chkAlignDefInt size
  if size > chkMaxContinusLen then pure chkNull
  else do
    let r <- uncompress env
    if r ≠ 0 then pure chkNull
    else do
      let idx <- getIndex
      if idx.chkNum = 0 then do
        let r <- chkEnlarge env false
        if r < 0 then pure chkNull else allocBlock env size
      else allocBlock env size

/-- `ChkIndex::free`; a size of zero stands for the default argument. -/
def free (chkPtr : ChkPtr) (size : Int) : M Unit := do
  let r <- uncompress env
  if r ≠ 0 then pure ()
  else do
    let chkPtr : ChkPtr :=
      if size > 0 then { chkPtr with size := toSizeT (size / 8) % 2 ^ 9 }
      else chkPtr
    let freeMem <- chkPtr2addr chkPtr
    bzero freeMem (chkSize chkPtr.size)
    let chk <- chkPtr2chk chkPtr
    let rolledBack <- ChkMetadata.free chk chkPtr
    if rolledBack = false then do
      addMgr ChkMemMgr.totalFree chkPtr.size
      let mgr <- memMgr
      ChkMemMgr.free mgr chkPtr
    else pure ()
    let u <- load chk ChkMetadata.used
    store chk ChkMetadata.used (u + 2 ^ 12 - chkPtr.size)
    subMgr ChkMemMgr.totalUsed chkPtr.size

end ChkIndex
end ChunkMem
