import ChunkMem.Session.Spots

/-!
# Hash lists in an index

`ChkHashSList` is one chunk pointer: the head of its only list, or, when the size
bits are set, a block of list heads.  The pointer and the local list head of
`resize_buckets` are variables of the program; the nodes and the blocks lie in the
index.
-/

namespace ChunkMem

open Foundation

/-- A session with the variables of a program that works on a hash list. -/
structure HashState where
  session : Session
  /-- `list.next` and `buckets`. -/
  list : ChkPtr
  /-- `single_list.next`. -/
  single : ChkPtr

abbrev HashProg (α : Type) := Exec HashState Fault α

/-- A `ChkSlistNode*`. -/
inductive SlistPtr where
  | list
  | single
  | mem (p : Ptr)
deriving DecidableEq

namespace HashProg

def mem {α : Type} (x : M α) : HashProg α := fun st =>
  match x st.session.world with
  | .ok (a, w') => .ok (a, { st with session := ⟨w', st.session.live⟩ })
  | .error e => .error e

def run {α : Type} (x : Prog α) : HashProg α := fun st =>
  match x st.session with
  | .ok (a, s') => .ok (a, { st with session := s' })
  | .error e => .error e

theorem mem_bind {α β : Type} (x : M α) (f : α -> M β) :
    mem (x >>= f) = mem x >>= fun a => mem (f a) := by
  funext st
  rw [Exec.bind_apply]
  unfold mem
  rw [Exec.bind_apply]
  cases x st.session.world with
  | error e => rfl
  | ok aw => rfl

end HashProg

namespace SlistPtr

/-- `slist->next`. -/
def next : SlistPtr -> HashProg ChkPtr
  | list => fun st => .ok (st.list, st)
  | single => fun st => .ok (st.single, st)
  | mem p => HashProg.mem (loadPtr p)

/-- `slist->next = v`. -/
def setNext (v : ChkPtr) : SlistPtr -> HashProg Unit
  | list => Exec.update fun st => { st with list := v }
  | single => Exec.update fun st => { st with single := v }
  | mem p => HashProg.mem (storePtr p v)

/-- `chk_slist_init`. -/
def init : SlistPtr -> HashProg Unit
  | list => Exec.update fun st => { st with list := { st.list with chkNo := chkMaxChkNum } }
  | single =>
      Exec.update fun st => { st with single := { st.single with chkNo := chkMaxChkNum } }
  | mem p => HashProg.mem (setNull p)

/-- `chk_slist_push`. -/
def push (addrchk : ChkAddrChk) (slist : SlistPtr) : HashProg Unit := do
  let n <- slist.next
  HashProg.mem (storePtr addrchk.addr n)
  let p <- HashProg.mem (chkAddrchk2ptr addrchk 0)
  slist.setNext p

/-- `chk_slist_erase_node`. -/
def eraseNode (preNode : SlistPtr) (targetNode : Ptr) : HashProg Unit := do
  let n <- HashProg.mem (loadPtr targetNode)
  preNode.setNext n
  HashProg.mem (setNull targetNode)

/-- `chk_slist_pop`. -/
def pop (slist : SlistPtr) : HashProg ChkAddrChk := do
  let n <- slist.next
  if n.IsNull then pure ⟨Ptr.null, Ptr.null⟩
  else do
    let poped <- HashProg.mem (chkPtr2addr n)
    let chk <- HashProg.mem (chkPtr2chk n)
    eraseNode slist poped
    pure ⟨poped, chk⟩

/-- The loop of `chk_slist_for_each_pre`: what its body sees, as `pre`,
`chkptr` and `pos`. -/
def forEachPreFrom : Nat -> SlistPtr -> ChkPtr -> HashProg (List (SlistPtr × ChkPtr × Ptr))
  | 0, _, _ => Exec.fault .diverge
  | fuel + 1, pre, chkptr => do
      let pos <- HashProg.mem (chkPtr2addr chkptr)
      if pos = Ptr.null then pure []
      else do
        let n <- HashProg.mem (loadPtr pos)
        let rest <- forEachPreFrom fuel (.mem pos) n
        pure ((pre, chkptr, pos) :: rest)

/-- `chk_slist_for_each_pre`. -/
def forEachPre (fuel : Nat) (slist : SlistPtr) : HashProg (List (SlistPtr × ChkPtr × Ptr)) := do
  let n <- slist.next
  forEachPreFrom fuel slist n

/-- The loop of `chk_slist_erase`. -/
def eraseFrom (addr : Ptr) : Nat -> SlistPtr -> ChkPtr -> HashProg Int
  | 0, _, _ => Exec.fault .diverge
  | fuel + 1, pre, chkptr => do
      let pos <- HashProg.mem (chkPtr2addr chkptr)
      if pos = Ptr.null then pure (-1)
      else if pos = addr then do
        eraseNode pre pos
        pure 0
      else do
        let n <- HashProg.mem (loadPtr pos)
        eraseFrom addr fuel (.mem pos) n

/-- `chk_slist_erase`. -/
def erase (addr : Ptr) (fuel : Nat) (slist : SlistPtr) : HashProg Int := do
  let n <- slist.next
  eraseFrom addr fuel slist n

/-!
On a list in memory the functions are those the free lists are threaded with.
-/

theorem init_mem (p : Ptr) : (mem p).init = HashProg.mem (ChkSList.init p) := rfl

theorem push_mem (a : ChkAddrChk) (p : Ptr) :
    (mem p).push a = HashProg.mem (ChkSList.push a p) := by
  unfold ChkSList.push
  simp only [HashProg.mem_bind]
  rfl

theorem eraseNode_mem (p target : Ptr) :
    (mem p).eraseNode target = HashProg.mem (ChkSList.eraseNode p target) := by
  unfold ChkSList.eraseNode
  simp only [HashProg.mem_bind]
  rfl

theorem pop_mem (p : Ptr) : (mem p).pop = HashProg.mem (ChkSList.pop p) := by
  unfold ChkSList.pop pop
  simp only [HashProg.mem_bind, eraseNode_mem]
  refine congrArg _ (funext fun n => ?_)
  split
  · rfl
  · simp only [HashProg.mem_bind]
    rfl

end SlistPtr

namespace ChkHashSList

def maxBuckets : Nat := chkMaxContinusLen / 4

def init : HashProg Unit := do
  SlistPtr.init .list
  Exec.update fun st => { st with list := { st.list with size := 0 } }

def bucketSize (list : ChkPtr) : Nat := if list.size = 0 then 1 else chkSize list.size / 4

def getList (keyHash : Nat) : HashProg SlistPtr := do
  let st <- Exec.state
  let bucketNum := bucketSize st.list
  if bucketNum = 1 then pure .list
  else do
    let addr <- HashProg.mem (chkPtr2addr st.list)
    pure (.mem (addr.add (4 * (keyHash % bucketNum))))

/-- The loop of `ChkHashSList::find`; the container of a node begins
`container_offset` bytes in front of it. -/
def findFrom (eqFunc : Ptr -> M Bool) (containerOffset : Nat) :
    Nat -> SlistPtr -> ChkPtr -> HashProg (ChkPtr × Option SlistPtr)
  | 0, _, _ => Exec.fault .diverge
  | fuel + 1, pre, chkptr => do
      let pos <- HashProg.mem (chkPtr2addr chkptr)
      if pos = Ptr.null then pure (chkNull, none)
      else do
        let equal <- HashProg.mem (eqFunc ⟨pos.blk, pos.off - containerOffset⟩)
        if equal = true then pure (chkptr, some pre)
        else do
          let n <- HashProg.mem (loadPtr pos)
          findFrom eqFunc containerOffset fuel (.mem pos) n

def find (eqFunc : Ptr -> M Bool) (containerOffset keyHash fuel : Nat) :
    HashProg (ChkPtr × Option SlistPtr) := do
  let targetList <- getList keyHash
  let n <- targetList.next
  findFrom eqFunc containerOffset fuel targetList n

def insert (newNode : ChkAddrChk) (keyHash : Nat) : HashProg Unit := do
  let targetList <- getList keyHash
  targetList.push newNode

def erase (node : ChkAddrChk) (keyHash fuel : Nat) : HashProg Int := do
  let targetList <- getList keyHash
  targetList.erase node.addr fuel

def bucketAt (newBuckets : SlistPtr) (i : Nat) : SlistPtr :=
  match newBuckets with
  | .mem p => .mem (p.add (4 * i))
  | l => l

/-- `for (int i = first; i < first + count; ++i)`. -/
def forUp (body : Nat -> HashProg Unit) : Nat -> Nat -> HashProg Unit
  | _, 0 => pure ()
  | first, count + 1 => do
      body first
      forUp body (first + 1) count

def initBuckets (newBuckets : SlistPtr) (newSize : Nat) : HashProg Unit :=
  forUp (fun i => SlistPtr.init (bucketAt newBuckets i)) 0 newSize

/-- `pos ? pos->next : CHK_NULL`. -/
def nextOrNull (pos : Ptr) : HashProg ChkPtr :=
  if pos = Ptr.null then pure chkNull else HashProg.mem (loadPtr pos)

/-- The loop over one of the old lists, `chk_slist_for_each_safe`. -/
def moveFrom (hashFunc : Ptr -> M Nat) (containerOffset : Nat) (newBuckets : SlistPtr)
    (newSize : Nat) : Nat -> ChkPtr -> Ptr -> ChkPtr -> Ptr -> HashProg Unit
  | 0, _, _, _, _ => Exec.fault .diverge
  | fuel + 1, ptrIter, pos, ptrTmp, tmp =>
      if pos = Ptr.null then pure ()
      else do
        let keyHash <- HashProg.mem (hashFunc ⟨pos.blk, pos.off - containerOffset⟩)
        let addrChk <- HashProg.mem (chkPtr2addrchk ptrIter)
        SlistPtr.push addrChk (bucketAt newBuckets (keyHash % newSize))
        let n <- nextOrNull tmp
        let following <- HashProg.mem (chkPtr2addr n)
        moveFrom hashFunc containerOffset newBuckets newSize fuel ptrTmp tmp n following

def moveList (hashFunc : Ptr -> M Nat) (containerOffset : Nat) (newBuckets : SlistPtr)
    (newSize fuel : Nat) (oldList : SlistPtr) : HashProg Unit := do
  let ptrIter <- oldList.next
  let pos <- HashProg.mem (chkPtr2addr ptrIter)
  let ptrTmp <- nextOrNull pos
  let tmp <- HashProg.mem (chkPtr2addr ptrTmp)
  moveFrom hashFunc containerOffset newBuckets newSize fuel ptrIter pos ptrTmp tmp

def moveLists (hashFunc : Ptr -> M Nat) (containerOffset : Nat) (newBuckets : SlistPtr)
    (newSize fuel bucketNum : Nat) : HashProg Unit :=
  forUp (fun i => do
    let oldList <- getList i
    moveList hashFunc containerOffset newBuckets newSize fuel oldList) 0 bucketNum

variable (env : Env)

/-- The first part of `resize_buckets`: `new_ptr`, `new_buckets` and the
number of new lists, or nothing when there is no block for them.  What `single_list`
holds before it is initialised is `junk`. -/
def newBuckets (newSize : Nat) (junk : ChkPtr) :
    HashProg (Option (ChkPtr × SlistPtr × Nat)) := do
  Exec.update fun st => { st with single := junk }
  if newSize > 1 then do
    let newPtr <- HashProg.run (Prog.alloc env (newSize * 4))
    if newPtr.IsNull then pure none
    else do
      let newSize := chkSize newPtr.size / 4
      let addr <- HashProg.mem (chkPtr2addr newPtr)
      initBuckets (.mem addr) newSize
      pure (some (newPtr, .mem addr, newSize))
  else do
    SlistPtr.init .single
    pure (some (chkNull, .single, newSize))

/-- `if (bucket_num > 1) chk_index->free(buckets)`. -/
def freeBuckets (bucketNum : Nat) (buckets : ChkPtr) : HashProg Unit :=
  if bucketNum > 1 then HashProg.run (Prog.free env buckets) else pure ()

def uninit : HashProg Unit := do
  let st <- Exec.state
  if st.list.size > 0 then HashProg.run (Prog.free env st.list) else pure ()

def resizeBuckets (newSize : Nat) (hashFunc : Ptr -> M Nat) (containerOffset fuel : Nat)
    (junk : ChkPtr) : HashProg Int := do
  let st <- Exec.state
  let bucketNum := bucketSize st.list
  if bucketNum = newSize then pure 0
  else do
    Exec.require (0 < newSize) .assertion
    let new <- newBuckets env newSize junk
    match new with
    | none => pure (-1)
    | some (newPtr, lists, newSize) => do
        moveLists hashFunc containerOffset lists newSize fuel bucketNum
        freeBuckets env bucketNum st.list
        if newSize > 1 then Exec.update fun st => { st with list := newPtr }
        else do
          Exec.update fun st => { st with list := st.single }
          Exec.update fun st => { st with list := { st.list with size := 0 } }
        pure 0

theorem moveFrom_succ {hashFunc : Ptr -> M Nat} {o m n k : Nat} {lists : SlistPtr}
    {st st' : HashState} {v u u' : ChkPtr} {pos t t' : Ptr} {a : ChkAddrChk}
    (hpos : pos ≠ Ptr.null)
    (hkey : HashProg.mem (hashFunc ⟨pos.blk, pos.off - o⟩) st = .ok (k, st))
    (haddr : HashProg.mem (chkPtr2addrchk v) st = .ok (a, st))
    (hpush : SlistPtr.push a (bucketAt lists (k % m)) st = .ok ((), st'))
    (hnext : nextOrNull t st' = .ok (u', st'))
    (hdecode : HashProg.mem (chkPtr2addr u') st' = .ok (t', st')) :
    moveFrom hashFunc o lists m (n + 1) v pos u t st =
      moveFrom hashFunc o lists m n u t u' t' st' := by
  conv_lhs => unfold moveFrom
  rw [if_neg hpos, Exec.bind_of_ok hkey, Exec.bind_of_ok haddr, Exec.bind_of_ok hpush,
    Exec.bind_of_ok hnext, Exec.bind_of_ok hdecode]

end ChkHashSList

end ChunkMem
