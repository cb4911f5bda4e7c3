import ChunkMem.Chunk.Metadata
import ChunkMem.Chunk.MemMgr

/-!
# The chunk table

Growing, shrinking, splitting and tearing down the table of chunks of a
`ChkIndex`.
-/

namespace ChunkMem
namespace ChkIndex

open Foundation

/-- `ChkIndex::mem_mgr`: null without a chunk, else right behind the header
of the first one. -/
def memMgr : M Ptr := do
  let idx <- getIndex
  if idx.chkNum = 0 then pure Ptr.null
  else do
    let chk <- readChkAddr 0
    pure (chk.add (chkAlignDef ChkMetadata.sizeOf))

def addMgr (f : Field) (n : Nat) : M Unit := do
  let mgr <- memMgr
  let v <- load mgr f
  store mgr f (v + n)

/-- Subtract from a counter of the memory manager, with wrap-around. -/
def subMgr (f : Field) (n : Nat) : M Unit := do
  let mgr <- memMgr
  let v <- load mgr f
  store mgr f (v + 2 ^ f.width - n)

variable (env : Env)

/-- The first half of `ChkIndex::chk_enlarge`: the last chunk grows. -/
def enlargeLast (last : Ptr) : M Int := do
  let idx <- getIndex
  let old <- ChkMetadata.capacityBytes last
  let new <- ChkMetadata.enlarge env last idx.memAllocType
  if new = Ptr.null then pure (-1)
  else do
    writeChkAddr (idx.chkNum - 1) new
    let bytes <- ChkMetadata.capacityBytes new
    addMgr ChkMemMgr.totalCapacity (setChkCapacity (bytes - old))
    pure 0

/-- Make room for one more entry of `_chk_addr`. -/
def reserveChkAddr : M Unit := do
  let idx <- getIndex
  if idx.chkNum = idx.chkAddrSize then do
    let size := (if idx.chkAddrSize ≠ 0 then idx.chkAddrSize * 2 else 1) % 2 ^ 16
    let ok <- sysCall env
    Exec.require (ok = true) .assertion
    modifyIndex fun x => { x with chkAddrSize := size }
  else pure ()

def initMemMgr (chk : Ptr) : M Unit := do
  let chkPtr <- ChkMetadata.alloc chk ChkMemMgr.sizeOf
  Exec.require (¬chkPtr.IsNull) .assertion
  let u <- load chk ChkMetadata.used
  store chk ChkMetadata.used (u + chkPtr.size)
  let mgr <- chkPtr2addr chkPtr
  ChkMemMgr.construct env mgr

/-- The second half of `ChkIndex::chk_enlarge`: one more chunk. -/
def appendChunk : M Int := do
  let idx <- getIndex
  if idx.chkNum ≥ chkMaxChkNum then pure (-1)
  else do
    reserveChkAddr env
    let new <- ChkMetadata.enlarge env Ptr.null idx.memAllocType
    if new = Ptr.null then pure (-1)
    else do
      store new ChkMetadata.no idx.chkNum
      writeChkAddr idx.chkNum new
      modifyIndex fun x => { x with chkNum := x.chkNum + 1 }
      if idx.chkNum = 0 then initMemMgr env new else pure ()
      let bytes <- ChkMetadata.capacityBytes new
      addMgr ChkMemMgr.totalCapacity (setChkCapacity bytes)
      let u <- load new ChkMetadata.used
      addMgr ChkMemMgr.totalUsed u
      pure 0

def chkEnlarge (justExtChk : Bool) : M Int := do
  let idx <- getIndex
  if idx.chkNum ≠ 0 then do
    let last <- readChkAddr (idx.chkNum - 1)
    let can <- ChkMetadata.canEnlarge last
    if can = true then enlargeLast env last
    else if justExtChk = true then pure 0
    else appendChunk env
  else if justExtChk = true then pure 0
  else appendChunk env

def shrink : M Unit := do
  let idx <- getIndex
  if idx.chkNum = 0 then pure ()
  else do
    let last <- readChkAddr (idx.chkNum - 1)
    let old <- ChkMetadata.capacityBytes last
    let new <- ChkMetadata.shrink env last
    if new = Ptr.null then pure ()
    else do
      writeChkAddr (idx.chkNum - 1) new
      let bytes <- ChkMetadata.capacityBytes new
      subMgr ChkMemMgr.totalCapacity (setChkCapacity (old - bytes))

/-- The loop of `ChkIndex::destruct`, from the last chunk to the first. -/
def destructLoop : Nat -> M Unit
  | 0 => pure ()
  | i + 1 => do
      let chk <- readChkAddr i
      ChkMetadata.destruct env chk
      writeChkAddr i Ptr.null
      destructLoop i

def destruct : M Unit := do
  let idx <- getIndex
  if idx.chkNum = 0 then pure ()
  else do
    if idx.compressed = true then do
      let bytes <- readChkAddr 0
      let _ <- load bytes ⟨0, 32⟩
      unalignDellocate bytes
    else destructLoop env idx.chkNum
    modifyIndex fun x => { x with chkNum := 0, compressed := false }

/-- `ChkIndex::is_continuous_chunk`: guessed from two capacity numbers. -/
def isContinuousChunk : M Bool := do
  let idx <- getIndex
  if idx.chkNum > 1 then do
    let mgr <- memMgr
    let total <- load mgr ChkMemMgr.totalCapacity
    let chk <- readChkAddr 0
    let own <- load chk ChkMetadata.allocCapacity
    pure (decide (total = own))
  else pure false

/-- The loop of `ChkIndex::split_continuous_chunk`; the first argument
counts the chunks still to be moved, the second is the loop variable. -/
def splitLoop (chkNum : Nat) : Nat -> Nat -> M Unit
  | 0, _ => pure ()
  | k + 1, i => do
      let chk <- readChkAddr i
      let bytes <- ChkMetadata.capacityBytes chk
      let new <- allocate env bytes
      Exec.require (new ≠ Ptr.null) .assertion
      if i < chkNum - 1 then memcpy new chk bytes
      else do
        let v <- load chk ChkMetadata.virgin
        memcpy new chk (chkSize v)
      let c <- load new ChkMetadata.capacity
      store new ChkMetadata.allocCapacity c
      writeChkAddr i new
      splitLoop chkNum k (i + 1)

def splitContinuousChunk : M Int := do
  let continuous <- isContinuousChunk
  if continuous = false then pure 0
  else do
    let idx <- getIndex
    let org <- readChkAddr 0
    splitLoop env idx.chkNum idx.chkNum 0
    if env.uncompressSplit = true then sysFree org
    else ChkMetadata.destruct env org
    pure 0

end ChkIndex
end ChunkMem
