import ChunkMem.Foundation.Kept
import ChunkMem.Index.Alloc

/-!
# What an allocation keeps of the index

Functions that work on memory leave the index alone.  Those that `alloc` is made of
change its table of chunks and may count one more chunk, but nothing else.
-/

namespace ChunkMem

open Foundation

abbrev KeepsIndex {α : Type} (Q : ChkIndex -> Prop) (x : M α) : Prop :=
  Exec.Keeps (fun w => Q w.index) x

section

open Exec

variable {Q : ChkIndex -> Prop}

/-!
## Memory
-/

theorem access_keeps (p : Ptr) (hi : Nat) : KeepsIndex Q (access p hi) := by
  intro w a w' hw hrun
  unfold access at hrun
  split at hrun
  · cases hrun
    exact hw
  · cases hrun

theorem setBits_keeps (blk : World -> Nat) (m : World -> Bits) :
    KeepsIndex Q (Exec.update fun w => w.setBits (blk w) (m w)) :=
  Keeps.update fun _ hw => hw

theorem load_keeps (p : Ptr) (f : Field) : KeepsIndex Q (load p f) :=
  (access_keeps _ _).bind fun _ => Keeps.state.bind fun _ => Keeps.pure _

theorem store_keeps (p : Ptr) (f : Field) (v : Nat) : KeepsIndex Q (store p f v) :=
  (access_keeps _ _).bind fun _ => setBits_keeps _ _

theorem loadPtr_keeps (p : Ptr) : KeepsIndex Q (loadPtr p) :=
  (access_keeps _ _).bind fun _ => Keeps.state.bind fun _ => Keeps.pure _

theorem storePtr_keeps (p : Ptr) (v : ChkPtr) : KeepsIndex Q (storePtr p v) :=
  (access_keeps _ _).bind fun _ => setBits_keeps _ _

theorem setNull_keeps (p : Ptr) : KeepsIndex Q (setNull p) := store_keeps _ _ _

theorem bzero_keeps (p : Ptr) (n : Nat) : KeepsIndex Q (bzero p n) :=
  (access_keeps _ _).bind fun _ => setBits_keeps _ _

theorem memcpy_keeps (dst src : Ptr) (n : Nat) : KeepsIndex Q (memcpy dst src n) :=
  (access_keeps _ _).bind fun _ => (access_keeps _ _).bind fun _ => setBits_keeps _ _

theorem getIndex_keeps : KeepsIndex Q getIndex := Keeps.state.bind fun _ => Keeps.pure _

theorem readChkAddr_keeps (i : Nat) : KeepsIndex Q (readChkAddr i) :=
  getIndex_keeps.bind fun _ => (Keeps.require _ _).bind fun _ => Keeps.pure _

/-!
## System calls
-/

variable (env : Env)

theorem sysCall_keeps : KeepsIndex Q (sysCall env) := by
  intro w a w' hw hrun
  cases hrun
  exact hw

theorem obtain_keeps (kind : AllocKind) (size : Nat) (m : Bits) :
    KeepsIndex Q (obtain env kind size m) := by
  intro w a w' hw hrun
  unfold obtain at hrun
  split at hrun
  · cases hrun
    exact hw
  · cases hrun
    exact hw

theorem release_keeps (kind : AllocKind) (p : Ptr) : KeepsIndex Q (release kind p) :=
  Keeps.state.bind fun _ => (Keeps.require _ _).bind fun _ => Keeps.update fun _ hw => hw

theorem allocate_keeps (size : Nat) : KeepsIndex Q (allocate env size) :=
  (Keeps.require _ _).bind fun _ => (obtain_keeps env _ _ _).bind fun _ =>
    (Keeps.require _ _).bind fun _ => Keeps.pure _

theorem dellocate_keeps (p : Ptr) (size : Nat) : KeepsIndex Q (dellocate env p size) :=
  (Keeps.require _ _).bind fun _ => release_keeps _ _

theorem reallocate_keeps (p : Ptr) (orgSize size : Nat) :
    KeepsIndex Q (reallocate env p orgSize size) := by
  refine (Keeps.require _ _).bind fun _ => Keeps.ite _ (allocate_keeps env size) ?_
  refine Keeps.state.bind fun _ => (Keeps.require _ _).bind fun _ => Keeps.ite _ (Keeps.pure _) ?_
  refine (obtain_keeps env _ _ _).bind fun _ => Keeps.ite _ (Keeps.pure _) ?_
  exact (load_keeps _ _).bind fun _ => (memcpy_keeps _ _ _).bind fun _ =>
    (dellocate_keeps env _ _).bind fun _ => Keeps.pure _

/-!
## Chunk pointers and free lists
-/

theorem chkPtr2chk_keeps (p : ChkPtr) : KeepsIndex Q (chkPtr2chk p) :=
  Keeps.ite _ (Keeps.pure _) (readChkAddr_keeps _)

theorem chkPtr2addr_keeps (p : ChkPtr) : KeepsIndex Q (chkPtr2addr p) :=
  Keeps.ite _ (Keeps.pure _) ((chkPtr2chk_keeps p).bind fun _ => Keeps.pure _)

theorem chkPtr2addrchk_keeps (p : ChkPtr) : KeepsIndex Q (chkPtr2addrchk p) :=
  (chkPtr2addr_keeps p).bind fun _ => (chkPtr2chk_keeps p).bind fun _ => Keeps.pure _

theorem chkAddrchk2ptr_keeps (a : ChkAddrChk) (size : Nat) :
    KeepsIndex Q (chkAddrchk2ptr a size) :=
  (load_keeps _ _).bind fun _ => (load_keeps _ _).bind fun _ => (Keeps.require _ _).bind fun _ =>
    (Keeps.require _ _).bind fun _ => Keeps.pure _

theorem ChkSList.isEmpty_keeps (slist : Ptr) : KeepsIndex Q (ChkSList.isEmpty slist) :=
  (loadPtr_keeps _).bind fun _ => Keeps.pure _

theorem ChkSList.push_keeps (a : ChkAddrChk) (slist : Ptr) :
    KeepsIndex Q (ChkSList.push a slist) :=
  (loadPtr_keeps _).bind fun _ => (storePtr_keeps _ _).bind fun _ =>
    (chkAddrchk2ptr_keeps _ _).bind fun _ => storePtr_keeps _ _

theorem ChkSList.eraseNode_keeps (preNode targetNode : Ptr) :
    KeepsIndex Q (ChkSList.eraseNode preNode targetNode) :=
  (loadPtr_keeps _).bind fun _ => (storePtr_keeps _ _).bind fun _ => setNull_keeps _

theorem ChkSList.pop_keeps (slist : Ptr) : KeepsIndex Q (ChkSList.pop slist) := by
  refine (loadPtr_keeps _).bind fun _ => Keeps.ite _ (Keeps.pure _) ?_
  exact (chkPtr2addr_keeps _).bind fun _ => (chkPtr2chk_keeps _).bind fun _ =>
    (ChkSList.eraseNode_keeps _ _).bind fun _ => Keeps.pure _

/-!
## Chunks
-/

namespace ChkMetadata

theorem capacityBytes_keeps (chk : Ptr) : KeepsIndex Q (capacityBytes chk) :=
  (load_keeps _ _).bind fun _ => Keeps.pure _

theorem canEnlarge_keeps (chk : Ptr) : KeepsIndex Q (canEnlarge chk) :=
  (load_keeps _ _).bind fun _ => (load_keeps _ _).bind fun _ => Keeps.pure _

theorem capacityLevel_keeps (old : Ptr) (allocType : MemAllocType) :
    KeepsIndex Q (capacityLevel old allocType) := by
  cases allocType with
  | max => exact Keeps.pure _
  | need =>
      refine (capacityBytes_keeps old).bind fun bytes => ?_
      cases upperBound bytes with
      | some level => exact Keeps.pure _
      | none => exact Keeps.fault _

theorem initHeader_keeps (chk : Ptr) : KeepsIndex Q (initHeader chk) :=
  (bzero_keeps _ _).bind fun _ => (store_keeps _ _ _).bind fun _ =>
    (store_keeps _ _ _).bind fun _ => (store_keeps _ _ _).bind fun _ =>
      (load_keeps _ _).bind fun _ => store_keeps _ _ _

theorem enlarge_keeps (old : Ptr) (allocType : MemAllocType) :
    KeepsIndex Q (enlarge env old allocType) := by
  have hheader : forall chk level, KeepsIndex Q (do
      store chk capacity (setChkCapacity level)
      let c <- load chk capacity
      store chk allocCapacity c
      pure chk) := fun _ _ =>
    (store_keeps _ _ _).bind fun _ => (load_keeps _ _).bind fun _ =>
      (store_keeps _ _ _).bind fun _ => Keeps.pure _
  have hnew : forall orgSize level, KeepsIndex Q (do
      let new <- reallocate env old orgSize level
      if new = Ptr.null then pure Ptr.null
      else do
        if old = Ptr.null then initHeader new else pure ()
        store new capacity (setChkCapacity level)
        let c <- load new capacity
        store new allocCapacity c
        pure new) := fun _ _ =>
    (reallocate_keeps env _ _ _).bind fun _ => Keeps.ite _ (Keeps.pure _)
      (Keeps.ite _ ((initHeader_keeps _).bind fun _ => hheader _ _) (hheader _ _))
  have hlevel : forall can : Bool, KeepsIndex Q (do
      if can = false then pure Ptr.null
      else do
        let level <- capacityLevel old allocType
        let orgSize <- if old = Ptr.null then pure 0 else capacityBytes old
        let new <- reallocate env old orgSize level
        if new = Ptr.null then pure Ptr.null
        else do
          if old = Ptr.null then initHeader new else pure ()
          store new capacity (setChkCapacity level)
          let c <- load new capacity
          store new allocCapacity c
          pure new) := fun _ =>
    Keeps.ite _ (Keeps.pure _) ((capacityLevel_keeps _ _).bind fun _ =>
      Keeps.ite _ (hnew _ _) ((capacityBytes_keeps _).bind fun _ => hnew _ _))
  exact Keeps.ite _ (hlevel _) ((canEnlarge_keeps _).bind fun can => hlevel can)

theorem alloc_keeps (chk : Ptr) (size : Nat) : KeepsIndex Q (alloc chk size) := by
  refine Keeps.ite _ (Keeps.pure _) ?_
  refine (load_keeps _ _).bind fun _ => (load_keeps _ _).bind fun _ => Keeps.ite _ (Keeps.pure _) ?_
  exact (load_keeps _ _).bind fun _ => (store_keeps _ _ _).bind fun _ => Keeps.pure _

end ChkMetadata

/-!
## The pool
-/

namespace ChkMemMgr

theorem loadFreeSize_keeps (mgr : Ptr) : KeepsIndex Q (loadFreeSize mgr) :=
  (load_keeps _ _).bind fun _ => (load_keeps _ _).bind fun _ => (load_keeps _ _).bind fun _ =>
    Keeps.pure _

theorem construct_keeps (mgr : Ptr) : KeepsIndex Q (construct env mgr) :=
  (bzero_keeps _ _).bind fun _ => (store_keeps _ _ _).bind fun _ =>
    (store_keeps _ _ _).bind fun _ => (store_keeps _ _ _).bind fun _ =>
      (setNull_keeps _).bind fun _ => (setNull_keeps _).bind fun _ => setNull_keeps _

theorem freeLoop_keeps (mgr : Ptr) (freeSize : Fin 3 -> Nat) (fuel : Nat) :
    forall (p : ChkPtr) (left : Nat), KeepsIndex Q (freeLoop mgr freeSize fuel p left) := by
  induction fuel with
  | zero => exact fun _ _ => Keeps.fault _
  | succ fuel ih =>
      intro p left
      refine Keeps.ite _ ?_ (Keeps.pure _)
      exact (chkPtr2addrchk_keeps _).bind fun _ => (bzero_keeps _ _).bind fun _ =>
        (ChkSList.push_keeps _ _).bind fun _ => ih _ _

theorem free_keeps (mgr : Ptr) (p : ChkPtr) : KeepsIndex Q (free mgr p) :=
  (loadFreeSize_keeps _).bind fun _ => (Keeps.require _ _).bind fun _ => freeLoop_keeps _ _ _ _ _

theorem takeFrom_keeps (mgr : Ptr) (freeSize : Fin 3 -> Nat) (size : Int) (i : Fin 3) :
    KeepsIndex Q (takeFrom mgr freeSize size i) :=
  (ChkSList.pop_keeps _).bind fun _ => (chkAddrchk2ptr_keeps _ _).bind fun _ =>
    Keeps.ite _ ((free_keeps _ _).bind fun _ => Keeps.pure _) (Keeps.pure _)

theorem alloc_keeps (mgr : Ptr) (size : Int) : KeepsIndex Q (alloc mgr size) := by
  refine (loadFreeSize_keeps _).bind fun freeSize => ?_
  generalize [(0 : Fin 3), 1, 2] = l
  induction l with
  | nil => exact Keeps.pure _
  | cons i rest ih =>
      exact (ChkSList.isEmpty_keeps _).bind fun _ => Keeps.ite _ (takeFrom_keeps _ _ _ _) ih

end ChkMemMgr

/-!
## The index
-/

/-- The condition survives a change of the table and one more chunk. -/
structure Steady (Q : ChkIndex -> Prop) : Prop where
  addr : forall idx a, Q idx -> Q { idx with chkAddr := a }
  size : forall idx n, Q idx -> Q { idx with chkAddrSize := n }
  more : forall idx, Q idx -> Q { idx with chkNum := idx.chkNum + 1 }

namespace ChkIndex

theorem memMgr_keeps : KeepsIndex Q memMgr :=
  getIndex_keeps.bind fun _ =>
    Keeps.ite _ (Keeps.pure _) ((readChkAddr_keeps _).bind fun _ => Keeps.pure _)

theorem addMgr_keeps (f : Field) (n : Nat) : KeepsIndex Q (addMgr f n) :=
  memMgr_keeps.bind fun _ => (load_keeps _ _).bind fun _ => store_keeps _ _ _

theorem subMgr_keeps (f : Field) (n : Nat) : KeepsIndex Q (subMgr f n) :=
  memMgr_keeps.bind fun _ => (load_keeps _ _).bind fun _ => store_keeps _ _ _

theorem countUsed_keeps (chk : Ptr) (p : ChkPtr) : KeepsIndex Q (countUsed chk p) :=
  (load_keeps _ _).bind fun _ => (store_keeps _ _ _).bind fun _ => (addMgr_keeps _ _).bind fun _ =>
    Keeps.pure _

theorem collectRest_keeps (chk : Ptr) : KeepsIndex Q (collectRest chk) := by
  refine (ChkMetadata.capacityBytes_keeps _).bind fun _ => (load_keeps _ _).bind fun _ =>
    Keeps.ite _ ?_ (Keeps.pure _)
  exact (ChkMetadata.alloc_keeps _ _).bind fun _ => memMgr_keeps.bind fun _ =>
    (ChkMemMgr.free_keeps _ _).bind fun _ => addMgr_keeps _ _

theorem initMemMgr_keeps (chk : Ptr) : KeepsIndex Q (initMemMgr env chk) :=
  (ChkMetadata.alloc_keeps _ _).bind fun _ => (Keeps.require _ _).bind fun _ =>
    (load_keeps _ _).bind fun _ => (store_keeps _ _ _).bind fun _ =>
      (chkPtr2addr_keeps _).bind fun _ => ChkMemMgr.construct_keeps env _

theorem writeChkAddr_keeps (hQ : Steady Q) (i : Nat) (p : Ptr) : KeepsIndex Q (writeChkAddr i p) :=
  getIndex_keeps.bind fun _ => (Keeps.require _ _).bind fun _ =>
    Keeps.update fun w hw => hQ.addr w.index _ hw

theorem enlargeLast_keeps (hQ : Steady Q) (last : Ptr) : KeepsIndex Q (enlargeLast env last) := by
  refine getIndex_keeps.bind fun _ => (ChkMetadata.capacityBytes_keeps _).bind fun _ =>
    (ChkMetadata.enlarge_keeps env _ _).bind fun _ => Keeps.ite _ (Keeps.pure _) ?_
  exact (writeChkAddr_keeps hQ _ _).bind fun _ => (ChkMetadata.capacityBytes_keeps _).bind fun _ =>
    (addMgr_keeps _ _).bind fun _ => Keeps.pure _

theorem reserveChkAddr_keeps (hQ : Steady Q) : KeepsIndex Q (reserveChkAddr env) := by
  refine getIndex_keeps.bind fun _ => Keeps.ite _ ?_ (Keeps.pure _)
  exact (sysCall_keeps env).bind fun _ => (Keeps.require _ _).bind fun _ =>
    Keeps.update fun w hw => hQ.size w.index _ hw

theorem appendChunk_keeps (hQ : Steady Q) : KeepsIndex Q (appendChunk env) := by
  refine getIndex_keeps.bind fun _ => Keeps.ite _ (Keeps.pure _) ?_
  refine (reserveChkAddr_keeps env hQ).bind fun _ =>
    (ChkMetadata.enlarge_keeps env _ _).bind fun _ => Keeps.ite _ (Keeps.pure _) ?_
  refine (store_keeps _ _ _).bind fun _ => (writeChkAddr_keeps hQ _ _).bind fun _ =>
    (Keeps.update fun w hw => hQ.more w.index hw).bind fun _ => ?_
  have hrest : forall chk, KeepsIndex Q (do
      let bytes <- ChkMetadata.capacityBytes chk
      addMgr ChkMemMgr.totalCapacity (setChkCapacity bytes)
      let u <- load chk ChkMetadata.used
      addMgr ChkMemMgr.totalUsed u
      pure (0 : Int)) := fun _ =>
    (ChkMetadata.capacityBytes_keeps _).bind fun _ => (addMgr_keeps _ _).bind fun _ =>
      (load_keeps _ _).bind fun _ => (addMgr_keeps _ _).bind fun _ => Keeps.pure _
  exact Keeps.ite _ ((initMemMgr_keeps env _).bind fun _ => hrest _) (hrest _)

theorem chkEnlarge_keeps (hQ : Steady Q) (justExtChk : Bool) :
    KeepsIndex Q (chkEnlarge env justExtChk) := by
  refine getIndex_keeps.bind fun _ => Keeps.ite _ ?_
    (Keeps.ite _ (Keeps.pure _) (appendChunk_keeps env hQ))
  exact (readChkAddr_keeps _).bind fun _ => (ChkMetadata.canEnlarge_keeps _).bind fun _ =>
    Keeps.ite _ (enlargeLast_keeps env hQ _)
      (Keeps.ite _ (Keeps.pure _) (appendChunk_keeps env hQ))

theorem tryAgain_keeps (hQ : Steady Q) (size : Int) (oldChkNum fuel : Nat) :
    KeepsIndex Q (tryAgain env size oldChkNum fuel) := by
  induction fuel with
  | zero => exact Keeps.fault _
  | succ fuel ih =>
      refine getIndex_keeps.bind fun _ => (readChkAddr_keeps _).bind fun _ =>
        (ChkMetadata.alloc_keeps _ _).bind fun _ => Keeps.ite _ ?_ (Keeps.pure _)
      refine (chkEnlarge_keeps env hQ _).bind fun _ => Keeps.ite _ (Keeps.pure _) ?_
      exact getIndex_keeps.bind fun _ =>
        Keeps.ite _ ((collectRest_keeps _).bind fun _ => ih) ih

theorem allocBlock_keeps (hQ : Steady Q) (size : Int) : KeepsIndex Q (allocBlock env size) := by
  refine getIndex_keeps.bind fun _ => (Keeps.require _ _).bind fun _ =>
    (readChkAddr_keeps _).bind fun _ => (ChkMetadata.canEnlarge_keeps _).bind fun _ =>
      Keeps.ite _ (Keeps.pure _) ?_
  refine memMgr_keeps.bind fun _ => (ChkMemMgr.alloc_keeps _ _).bind fun _ => Keeps.ite _ ?_ ?_
  · exact (chkPtr2chk_keeps _).bind fun _ => (subMgr_keeps _ _).bind fun _ => countUsed_keeps _ _
  · refine (tryAgain_keeps env hQ _ _ _).bind fun cut => ?_
    exact Keeps.ite _ (Keeps.pure _) (countUsed_keeps _ _)

end ChkIndex

end

end ChunkMem
