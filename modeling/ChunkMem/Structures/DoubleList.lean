import ChunkMem.Foundation.Rings
import ChunkMem.Session.Spots

/-!
# Doubly linked lists in an index

The second half of `chk_list.h`.  A node is two chunk pointers, the next one
first; the head of a list is a node of its ring.  Nodes are named by an address and
the chunk it lies in, links by chunk pointers, and each step encodes the one as the
other.
-/

namespace ChunkMem

open Foundation

namespace ChkListNode

def next (node : Ptr) : Ptr := node

def prev (node : Ptr) : Ptr := node.add 4

end ChkListNode

/-- `ChkPtr::operator==`: the sizes do not count. -/
def ChkPtr.Same (p q : ChkPtr) : Prop := p.chkNo = q.chkNo ∧ p.offset = q.offset

instance (p q : ChkPtr) : Decidable (p.Same q) := inferInstanceAs (Decidable (_ ∧ _))

namespace ChkList

open ChkListNode

def init (a : ChkAddrChk) : M Unit := do
  let p <- chkAddrchk2ptr a 0
  storePtr (next a.addr) p
  let n <- loadPtr (next a.addr)
  storePtr (prev a.addr) n

/-- `chk_list_empty`. -/
def isEmpty (a : ChkAddrChk) : M Bool := do
  let n <- loadPtr (next a.addr)
  let p <- chkAddrchk2ptr a 0
  pure (decide (n.Same p))

/-- `chk_list_node_reset`: the two links are marked null. -/
def nodeReset (node : Ptr) : M Unit := do
  setNull (prev node)
  setNull (next node)

def nodeUnlinked (node : Ptr) : M Bool := do
  let p <- loadPtr (prev node)
  if p.IsNull then pure true
  else do
    let n <- loadPtr (next node)
    pure (decide n.IsNull)

def insert (newNode prevNode nextNode : ChkAddrChk) : M Unit := do
  let p <- chkAddrchk2ptr newNode 0
  storePtr (prev nextNode.addr) p
  let n <- chkAddrchk2ptr nextNode 0
  storePtr (next newNode.addr) n
  let q <- chkAddrchk2ptr prevNode 0
  storePtr (prev newNode.addr) q
  let r <- loadPtr (prev nextNode.addr)
  storePtr (next prevNode.addr) r

def add (newNode head : ChkAddrChk) : M Unit := do
  let nextPtr <- loadPtr (next head.addr)
  let nextNode <- chkPtr2addrchk nextPtr
  insert newNode head nextNode

def addTail (newNode head : ChkAddrChk) : M Unit := do
  let prevPtr <- loadPtr (prev head.addr)
  let prevNode <- chkPtr2addrchk prevPtr
  insert newNode prevNode head

/-- `__chk_list_del`. -/
def delBetween (prevNode nextNode : ChkAddrChk) : M Unit := do
  let p <- chkAddrchk2ptr prevNode 0
  storePtr (prev nextNode.addr) p
  let n <- chkAddrchk2ptr nextNode 0
  storePtr (next prevNode.addr) n

def del (entry : ChkAddrChk) : M Unit := do
  let unlinked <- nodeUnlinked entry.addr
  if unlinked = true then pure ()
  else do
    let p <- loadPtr (prev entry.addr)
    let prevNode <- chkPtr2addrchk p
    let n <- loadPtr (next entry.addr)
    let nextNode <- chkPtr2addrchk n
    delBetween prevNode nextNode
    nodeReset entry.addr

def splice (source target : ChkAddrChk) : M Unit := do
  let empty <- isEmpty source
  if empty = true then pure ()
  else do
    let f <- loadPtr (next source.addr)
    let first <- chkPtr2addrchk f
    let l <- loadPtr (prev source.addr)
    let last <- chkPtr2addrchk l
    let t <- loadPtr (prev target.addr)
    let at' <- chkPtr2addrchk t
    let a <- chkAddrchk2ptr at' 0
    storePtr (prev first.addr) a
    let b <- chkAddrchk2ptr first 0
    storePtr (next at'.addr) b
    let c <- chkAddrchk2ptr target 0
    storePtr (next last.addr) c
    let d <- chkAddrchk2ptr last 0
    storePtr (prev target.addr) d
    init source

/-- `__chk_list_for_each`, with the place of the link that is followed: the pairs
of a chunk pointer and an address that the loop runs through. -/
def forEachFrom (link : Ptr -> Ptr) (list : Ptr) : Nat -> ChkPtr -> M (List (ChkPtr × Ptr))
  | 0, _ => Exec.fault .diverge
  | fuel + 1, chkptr => do
      let pos <- chkPtr2addr chkptr
      if pos = list then pure []
      else do
        let following <- loadPtr (link pos)
        let rest <- forEachFrom link list fuel following
        pure ((chkptr, pos) :: rest)

def forEachAlong (link : Ptr -> Ptr) (list : Ptr) (fuel : Nat) : M (List (ChkPtr × Ptr)) := do
  let chkptr <- loadPtr (link list)
  forEachFrom link list fuel chkptr

def forEach (list : Ptr) (fuel : Nat) : M (List (ChkPtr × Ptr)) := forEachAlong next list fuel

def forEachR (list : Ptr) (fuel : Nat) : M (List (ChkPtr × Ptr)) := forEachAlong prev list fuel

/-- The loop of `__chk_list_for_each_safe`: the cursors `chkptr`, `pos`,
`tmp_ptr` and `tmp` move on after the body, and the link behind `tmp` is read
then.  The result is what the body is run on. -/
def forEachSafeFrom (link : Ptr -> Ptr) (list : Ptr) (body : ChkPtr -> M Unit) :
    Nat -> ChkPtr -> Ptr -> ChkPtr -> Ptr -> M (List (ChkPtr × Ptr))
  | 0, _, _, _, _ => Exec.fault .diverge
  | fuel + 1, chkptr, pos, tmpPtr, tmp =>
      if pos = list then pure []
      else do
        body chkptr
        let followingPtr <- loadPtr (link tmp)
        let following <- chkPtr2addr followingPtr
        let rest <- forEachSafeFrom link list body fuel tmpPtr tmp followingPtr following
        pure ((chkptr, pos) :: rest)

def forEachSafeAlong (link : Ptr -> Ptr) (list : Ptr) (body : ChkPtr -> M Unit) (fuel : Nat) :
    M (List (ChkPtr × Ptr)) := do
  let chkptr <- loadPtr (link list)
  let pos <- chkPtr2addr chkptr
  let tmpPtr <- loadPtr (link pos)
  let tmp <- chkPtr2addr tmpPtr
  forEachSafeFrom link list body fuel chkptr pos tmpPtr tmp

def forEachSafe (list : Ptr) (body : ChkPtr -> M Unit) (fuel : Nat) :
    M (List (ChkPtr × Ptr)) :=
  forEachSafeAlong next list body fuel

def forEachSafeR (list : Ptr) (body : ChkPtr -> M Unit) (fuel : Nat) :
    M (List (ChkPtr × Ptr)) :=
  forEachSafeAlong prev list body fuel

def delSome (doomed : ChkPtr -> Bool) (chkptr : ChkPtr) : M Unit :=
  if doomed chkptr = true then do
    let node <- chkPtr2addrchk chkptr
    del node
  else pure ()

end ChkList

end ChunkMem
