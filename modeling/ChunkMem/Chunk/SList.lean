import ChunkMem.Memory.World

/-!
# Chunk pointers and singly linked lists

Conversions between chunk pointers and addresses, and the list operations of
`chk_list.h` that the free lists are threaded with.
-/

namespace ChunkMem

open Foundation

/-- `ChkAddrChk`: an address and the chunk it lies in. -/
structure ChkAddrChk where
  addr : Ptr
  chk : Ptr
deriving DecidableEq

def chkPtr2chk (p : ChkPtr) : M Ptr :=
  if p.IsNull then pure Ptr.null else readChkAddr p.chkNo

def chkPtr2addr (p : ChkPtr) : M Ptr :=
  if p.IsNull then pure Ptr.null
  else do
    let chk <- chkPtr2chk p
    pure (chk.add (chkOffset p.offset))

def chkPtr2addrchk (p : ChkPtr) : M ChkAddrChk := do
  let addr <- chkPtr2addr p
  let chk <- chkPtr2chk p
  pure ⟨addr, chk⟩

/-- `chk_addrchk2ptr`, with its assertion on the natural offset. -/
def chkAddrchk2ptr (a : ChkAddrChk) (size : Nat) : M ChkPtr := do
  let n <- load a.chk ChkMetadata.no
  let v <- load a.chk ChkMetadata.virgin
  Exec.require (a.addr.blk = a.chk.blk) .badAccess
  let natureOffset := a.addr.off - a.chk.off
  Exec.require
    (natureOffset % 4 = 0 ∧ a.chk.off < a.addr.off ∧ natureOffset < chkSize v)
    .assertion
  pure ⟨n, setChkOffset natureOffset % 2 ^ 12, setChkSize size % 2 ^ 9⟩

namespace ChkSList

def init (slist : Ptr) : M Unit := setNull slist

/-- `chk_slist_empty`. -/
def isEmpty (slist : Ptr) : M Bool := do
  let next <- loadPtr slist
  pure (decide next.IsNull)

def push (addrchk : ChkAddrChk) (slist : Ptr) : M Unit := do
  let next <- loadPtr slist
  storePtr addrchk.addr next
  let p <- chkAddrchk2ptr addrchk 0
  storePtr slist p

def eraseNode (preNode targetNode : Ptr) : M Unit := do
  let next <- loadPtr targetNode
  storePtr preNode next
  setNull targetNode

def pop (slist : Ptr) : M ChkAddrChk := do
  let next <- loadPtr slist
  if next.IsNull then pure ⟨Ptr.null, Ptr.null⟩
  else do
    let poped <- chkPtr2addr next
    let chk <- chkPtr2chk next
    eraseNode slist poped
    pure ⟨poped, chk⟩

end ChkSList

end ChunkMem
