import ChunkMem.Structures.DoubleList

/-!
# Merging two sorted lists

`chk_list_merge` and the iterator it walks with.
-/

namespace ChunkMem

open Foundation

/-- `chk_addr2chk`: the headers at the kilobytes in front of an address are tried.
The allocations of chunks begin at a multiple of a kilobyte. -/
def addr2chkFrom (aligned : Ptr) : List Nat -> M Ptr
  | [] => pure Ptr.null
  | i :: rest => do
      Exec.require (chkCapacity i ≤ aligned.off) .badAccess
      let chk : Ptr := ⟨aligned.blk, aligned.off - chkCapacity i⟩
      let magic <- load chk ChkMetadata.magic
      let padding <- load chk ChkMetadata.padding3
      let capacity <- load chk ChkMetadata.capacity
      if magic = chkMagic ∧ padding = chkPadding ∧ capacity ≤ 16 ∧ i ≤ capacity then pure chk
      else addr2chkFrom aligned rest

def chkAddr2chk (addr : Ptr) : M Ptr :=
  addr2chkFrom ⟨addr.blk, chkAlignCapaicty addr.off⟩ (List.range' 1 16)

def chkListnode2chk (listnode : Ptr) : M Ptr := do
  let p <- loadPtr (ChkListNode.prev listnode)
  if p.IsNull then chkAddr2chk listnode
  else do
    let prevNode <- chkPtr2addr p
    let n <- loadPtr (ChkListNode.next prevNode)
    chkPtr2chk n

/-- `ChkListIterator`, without the index and the list, which never change. -/
structure ChkListIterator where
  linkPtr : ChkPtr
  linkOffset : Nat
  pnode : Ptr

namespace ChkListIterator

def ofLink (linkOffset : Nat) (linkPtr : ChkPtr) : M ChkListIterator :=
  if linkPtr.IsNull then pure ⟨linkPtr, linkOffset, Ptr.null⟩
  else do
    let pnode <- chkPtr2addr linkPtr
    pure ⟨linkPtr, linkOffset, pnode⟩

/-- The constructor from a node, which serves as the end of a list. -/
def ofNode (node : Ptr) : ChkListIterator := ⟨chkNull, 0, node⟩

/-- `operator*`: the object the node is a member of. -/
def container (it : ChkListIterator) : Ptr := ⟨it.pnode.blk, it.pnode.off - it.linkOffset⟩

/-- `operator++`. -/
def advance (it : ChkListIterator) : M ChkListIterator := do
  let linkPtr <- loadPtr (ChkListNode.next it.pnode)
  let pnode <- chkPtr2addr linkPtr
  pure ⟨linkPtr, it.linkOffset, pnode⟩

/-- `operator--`. -/
def retreat (it : ChkListIterator) : M ChkListIterator := do
  let linkPtr <- loadPtr (ChkListNode.prev it.pnode)
  let pnode <- chkPtr2addr linkPtr
  pure ⟨linkPtr, it.linkOffset, pnode⟩

end ChkListIterator

namespace ChkList

/-- The loop of `chk_list_merge`. -/
def mergeLoop (cmpFunc : Ptr -> Ptr -> M Int) (endLf endRh : ChkListIterator) :
    Nat -> ChkListIterator -> ChkListIterator -> M Unit
  | 0, _, _ => Exec.fault .diverge
  | fuel + 1, iterLf, iterRh =>
      if iterLf.pnode = endLf.pnode ∨ iterRh.pnode = endRh.pnode then pure ()
      else do
        let cmpRet <- cmpFunc iterLf.container iterRh.container
        if cmpRet < 0 then do
          let iterLf <- iterLf.advance
          mergeLoop cmpFunc endLf endRh fuel iterLf iterRh
        else do
          let tmpRh := iterRh
          let iterRh <- iterRh.advance
          let chk <- chkPtr2chk tmpRh.linkPtr
          let newNode : ChkAddrChk := ⟨tmpRh.pnode, chk⟩
          del newNode
          if cmpRet = 0 then do
            let iterLf <- iterLf.advance
            mergeLoop cmpFunc endLf endRh fuel iterLf iterRh
          else do
            let tmpLf <- iterLf.retreat
            let preChk <- chkPtr2chk tmpLf.linkPtr
            let nextChk <- chkPtr2chk iterLf.linkPtr
            insert newNode ⟨tmpLf.pnode, preChk⟩ ⟨iterLf.pnode, nextChk⟩
            mergeLoop cmpFunc endLf endRh fuel tmpRh iterRh

def merge (cmpFunc : Ptr -> Ptr -> M Int) (lf rh : Ptr) (linkOffset fuel : Nat) : M Unit := do
  let b <- loadPtr (ChkListNode.next lf)
  let iterLf <- ChkListIterator.ofLink linkOffset b
  let c <- loadPtr (ChkListNode.next rh)
  let iterRh <- ChkListIterator.ofLink linkOffset c
  let rhChk <- chkListnode2chk rh
  mergeLoop cmpFunc (ChkListIterator.ofNode lf) (ChkListIterator.ofNode rh) fuel iterLf iterRh
  let empty <- isEmpty ⟨rh, rhChk⟩
  if empty = true then pure ()
  else do
    let lfChk <- chkListnode2chk lf
    splice ⟨rh, rhChk⟩ ⟨lf, lfChk⟩

/-!
## Rounds of the loop
-/

section Rounds

variable {cmpFunc : Ptr -> Ptr -> M Int} {e f i j i' j' k : ChkListIterator} {n : Nat}
variable {w w₁ w₂ : World} {r : Int} {chk preChk nextChk : Ptr}

theorem mergeLoop_end (hend : i.pnode = e.pnode ∨ j.pnode = f.pnode) :
    mergeLoop cmpFunc e f (n + 1) i j w = .ok ((), w) := by
  unfold mergeLoop
  rw [if_pos hend, Exec.pure_apply]

/-- The node of the first list is smaller: the first iterator goes on. -/
theorem mergeLoop_less (hend : ¬(i.pnode = e.pnode ∨ j.pnode = f.pnode))
    (hcmp : cmpFunc i.container j.container w = .ok (r, w)) (hr : r < 0)
    (hi : i.advance w = .ok (i', w)) :
    mergeLoop cmpFunc e f (n + 1) i j w = mergeLoop cmpFunc e f n i' j w := by
  conv_lhs => unfold mergeLoop
  rw [if_neg hend, Exec.bind_of_ok hcmp, if_pos hr, Exec.bind_of_ok hi]

/-- The nodes are equal: the one of the second list is taken out, and both iterators go
on. -/
theorem mergeLoop_equal (hend : ¬(i.pnode = e.pnode ∨ j.pnode = f.pnode))
    (hcmp : cmpFunc i.container j.container w = .ok (r, w)) (hr : r = 0)
    (hj : j.advance w = .ok (j', w)) (hchk : chkPtr2chk j.linkPtr w = .ok (chk, w))
    (hdel : del ⟨j.pnode, chk⟩ w = .ok ((), w₁)) (hi : i.advance w₁ = .ok (i', w₁)) :
    mergeLoop cmpFunc e f (n + 1) i j w = mergeLoop cmpFunc e f n i' j' w₁ := by
  conv_lhs => unfold mergeLoop
  rw [if_neg hend, Exec.bind_of_ok hcmp, if_neg (by omega)]
  rw [Exec.bind_of_ok hj, Exec.bind_of_ok hchk, Exec.bind_of_ok hdel, if_pos hr,
    Exec.bind_of_ok hi]

/-- The node of the second list is smaller: it goes in front of the other one, and the
first iterator goes back to it. -/
theorem mergeLoop_greater (hend : ¬(i.pnode = e.pnode ∨ j.pnode = f.pnode))
    (hcmp : cmpFunc i.container j.container w = .ok (r, w)) (hr : 0 < r)
    (hj : j.advance w = .ok (j', w)) (hchk : chkPtr2chk j.linkPtr w = .ok (chk, w))
    (hdel : del ⟨j.pnode, chk⟩ w = .ok ((), w₁)) (hi : i.retreat w₁ = .ok (k, w₁))
    (hpre : chkPtr2chk k.linkPtr w₁ = .ok (preChk, w₁))
    (hnext : chkPtr2chk i.linkPtr w₁ = .ok (nextChk, w₁))
    (hinsert : insert ⟨j.pnode, chk⟩ ⟨k.pnode, preChk⟩ ⟨i.pnode, nextChk⟩ w₁ =
      .ok ((), w₂)) :
    mergeLoop cmpFunc e f (n + 1) i j w = mergeLoop cmpFunc e f n j j' w₂ := by
  conv_lhs => unfold mergeLoop
  rw [if_neg hend, Exec.bind_of_ok hcmp, if_neg (by omega)]
  rw [Exec.bind_of_ok hj, Exec.bind_of_ok hchk, Exec.bind_of_ok hdel, if_neg (by omega),
    Exec.bind_of_ok hi, Exec.bind_of_ok hpre, Exec.bind_of_ok hnext, Exec.bind_of_ok hinsert]

end Rounds

end ChkList

end ChunkMem
