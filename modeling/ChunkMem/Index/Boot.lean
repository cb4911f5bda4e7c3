import ChunkMem.Index.Alloc

/-!
# The boot block

The first block of the first chunk lies at a fixed distance from the base of the chunk,
so that a program finds it without a pointer.
-/

namespace ChunkMem
namespace ChkIndex

open Foundation

/-- The distance of the boot block from the base of the first chunk. -/
def bootOffset : Nat := chkAlignDef ChkMetadata.sizeOf + chkAlignDef ChkMemMgr.sizeOf

variable (env : Env)

def initBoot (bootSize : Int) : M Int := do
  let chkPtr <- alloc env bootSize
  if chkPtr.IsNull then pure (-1)
  else if chkPtr.chkNo ≠ 0 ∨ chkOffset chkPtr.offset ≠ bootOffset then do
    free env chkPtr 0
    pure (-2)
  else pure 0

def bootAddr : M Ptr := do
  let r <- uncompress env
  if r ≠ 0 then pure Ptr.null
  else do
    let idx <- getIndex
    if idx.chkNum = 0 then pure Ptr.null
    else do
      let chk <- readChkAddr 0
      pure (chk.add bootOffset)

end ChkIndex
end ChunkMem
