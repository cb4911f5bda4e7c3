import ChunkMem.Chunk.SList

/-!
# The pool of freed blocks

`ChkMemMgr` keeps three free lists, one for each size class.  It lives in
the first chunk, right behind the chunk header.
-/

namespace ChunkMem
namespace ChkMemMgr

open Foundation

/-- `_free_0`, `_free_1`, `_free_2` as local array. -/
def loadFreeSize (mgr : Ptr) : M (Fin 3 -> Nat) := do
  let f0 <- load mgr free0
  let f1 <- load mgr free1
  let f2 <- load mgr free2
  pure fun
    | 0 => f0
    | 1 => f1
    | 2 => f2

/-- Address of `_free_list[i]`. -/
def freeList (mgr : Ptr) (i : Fin 3) : Ptr := mgr.add (freeListOff i)

/-- `ChkMemMgr::ChkMemMgr()`. -/
def construct (env : Env) (mgr : Ptr) : M Unit := do
  bzero mgr sizeOf
  store mgr free0 (env.freeSizePreset 0)
  store mgr free1 (env.freeSizePreset 1)
  store mgr free2 (env.freeSizePreset 2)
  ChkSList.init (freeList mgr 0)
  ChkSList.init (freeList mgr 1)
  ChkSList.init (freeList mgr 2)

/-- `max_presets`, in bytes. -/
def maxPresets : Fin 3 -> Int := ![127, 255, 1023]

/-- `ChkMemMgr::preset_free_sizes`: the bits of the values it leaves in
`free_size_preset`, which are negative where the presets are. -/
def presetFreeSizes (presets : Fin 3 -> Int) (i : Fin 3) : Nat :=
  (chkAlignDefInt (min (maxPresets i) (presets i)) / 8 % 2 ^ 32).toNat

/-- The class a rest of `left` units is cut to: the inner loop of
`ChkMemMgr::free` tries the classes from the last to the first. -/
def pickClass (freeSize : Fin 3 -> Nat) (left : Nat) : Fin 3 :=
  if freeSize 2 ≤ left then 2 else if freeSize 1 ≤ left then 1 else 0

/-- The outer loop of `ChkMemMgr::free`, cut off after `fuel` rounds. -/
def freeLoop (mgr : Ptr) (freeSize : Fin 3 -> Nat) :
    Nat -> ChkPtr -> Nat -> M Unit
  | 0, _, _ => Exec.fault .diverge
  | fuel + 1, chkPtr, left =>
      if freeSize 0 ≤ left then do
        let i := pickClass freeSize left
        let piece : ChkPtr := { chkPtr with size := freeSize i % 2 ^ 9 }
        let addrChk <- chkPtr2addrchk piece
        bzero addrChk.addr (chkSize piece.size)
        ChkSList.push addrChk (freeList mgr i)
        freeLoop mgr freeSize fuel
          { piece with
            offset := (piece.offset + chkSize2Offset (freeSize i)) % 2 ^ 12 }
          (left - freeSize i)
      else pure ()

/-- `ChkMemMgr::free`.  Each round of the loop takes a class size off, so
`size + 1` rounds are enough unless a class of size zero is picked, which the
source repeats for ever. -/
def free (mgr : Ptr) (chkPtr : ChkPtr) : M Unit := do
  let freeSize <- loadFreeSize mgr
  Exec.require (freeSize 0 ≠ 0) .assertion
  freeLoop mgr freeSize (chkPtr.size + 1) chkPtr chkPtr.size

/-- The body of the loop in `ChkMemMgr::alloc` once class `i` is chosen. -/
def takeFrom (mgr : Ptr) (freeSize : Fin 3 -> Nat) (size : Int) (i : Fin 3) :
    M ChkPtr := do
  let addrChk <- ChkSList.pop (freeList mgr i)
  let chkPtr <- chkAddrchk2ptr addrChk (toSizeT (wrapInt (size * 8)))
  let restSize : Int := freeSize i - size
  if restSize > 0 then do
    let rest := chkPtr.add (toSizeT (wrapInt (size * 8)))
    free mgr { rest with size := toSizeT restSize % 2 ^ 9 }
    pure chkPtr
  else pure chkPtr

/-- The loop of `ChkMemMgr::alloc` over the classes still to be tried. -/
def allocLoop (mgr : Ptr) (freeSize : Fin 3 -> Nat) (size : Int) :
    List (Fin 3) -> M ChkPtr
  | [] => pure chkNull
  | i :: rest => do
      let empty <- ChkSList.isEmpty (freeList mgr i)
      if size ≤ freeSize i ∧ empty = false then takeFrom mgr freeSize size i
      else allocLoop mgr freeSize size rest

/-- `ChkMemMgr::alloc`; the size is an `int` in bytes. -/
def alloc (mgr : Ptr) (size : Int) : M ChkPtr := do
  let freeSize <- loadFreeSize mgr
  allocLoop mgr freeSize (size / 8) [0, 1, 2]

end ChkMemMgr
end ChunkMem
