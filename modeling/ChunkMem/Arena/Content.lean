import ChunkMem.Foundation.Cover
import ChunkMem.Chunk.MemMgr

/-!
# Contents of an index, apart from where they lie

What an index stores, without addresses: for each chunk its two marks and its
user memory, the free lists as lists, the two totals.  Allocation and release of
blocks are stated on this level with 8-byte units throughout; where the chunks
lie and who owns their memory is added by the arena.
-/

namespace ChunkMem

open Foundation

abbrev Block := Extent Nat

structure Slot where
  no : Nat
  off : Nat
deriving DecidableEq, Repr

namespace Slot

def block (s : Slot) (len : Nat) : Block := ⟨s.no, s.off, len⟩

def link (s : Slot) : ChkPtr := ⟨s.no, 2 * s.off, 0⟩

end Slot

def blockPtr (b : Block) : ChkPtr := ⟨b.space, 2 * b.start, b.len⟩

@[simp] theorem blockPtr_chkNo (b : Block) : (blockPtr b).chkNo = b.space := rfl
@[simp] theorem blockPtr_offset (b : Block) : (blockPtr b).offset = 2 * b.start := rfl
@[simp] theorem blockPtr_size (b : Block) : (blockPtr b).size = b.len := rfl

/-- The link word that stands in front of the rest of a free list. -/
def headLink : List Slot -> ChkPtr
  | [] => chkNull
  | s :: _ => s.link

/-- Units at the start of a chunk that no block may use: the header, and the
memory manager behind it in the first chunk. -/
def reserved (k : Nat) : Nat := if k = 0 then 5 else 2

structure Body where
  used : Nat
  virgin : Nat
  bits : Bits

structure Content where
  num : Nat
  body : Nat -> Body
  totalUsed : Nat
  totalFree : Nat
  lists : Fin 3 -> List Slot

namespace Content

def empty : Content := ⟨0, fun _ => ⟨0, 0, Bits.zero⟩, 0, 0, fun _ => []⟩

def setBody (c : Content) (k : Nat) (b : Body) : Content :=
  { c with body := Function.update c.body k b }

def setBits (c : Content) (k : Nat) (m : Bits) : Content :=
  c.setBody k { c.body k with bits := m }

def setVirgin (c : Content) (k v : Nat) : Content :=
  c.setBody k { c.body k with virgin := v }

def setUsed (c : Content) (k u : Nat) : Content :=
  c.setBody k { c.body k with used := u }

def setList (c : Content) (i : Fin 3) (l : List Slot) : Content :=
  { c with lists := Function.update c.lists i l }

def freeBlocks (cls : Fin 3 -> Nat) (c : Content) : List Block :=
  (c.lists 0).map (fun s => s.block (cls 0)) ++
    ((c.lists 1).map (fun s => s.block (cls 1)) ++
      (c.lists 2).map (fun s => s.block (cls 2)))

/-!
## The pool
-/

/-- Clear a piece and put it in front of the list of its class. -/
def push (c : Content) (i : Fin 3) (s : Slot) (len : Nat) : Content :=
  (c.setBits s.no
    ((((c.body s.no).bits).clear (64 * s.off) (64 * len)).writePtr (64 * s.off)
      (headLink (c.lists i)))).setList i (s :: c.lists i)

def freeLoop (cls : Fin 3 -> Nat) : Nat -> Slot -> Nat -> Exec Content Fault Unit
  | 0, _, _ => Exec.fault .diverge
  | fuel + 1, s, left =>
      if cls 0 ≤ left then do
        let i := ChkMemMgr.pickClass cls left
        Exec.update fun c => c.push i s (cls i)
        freeLoop cls fuel ⟨s.no, s.off + cls i⟩ (left - cls i)
      else pure ()

def poolFree (cls : Fin 3 -> Nat) (s : Slot) (len : Nat) : Exec Content Fault Unit := do
  Exec.require (cls 0 ≠ 0) .assertion
  freeLoop cls (len + 1) s len

def unlink (c : Content) (i : Fin 3) (s : Slot) (rest : List Slot) : Content :=
  (c.setBits s.no
    ((c.body s.no).bits.write (64 * s.off) 11 chkMaxChkNum)).setList i rest

/-- Take a block of class `i`, keep its first `len` units and hand the rest
back. -/
def poolTake (cls : Fin 3 -> Nat) (i : Fin 3) (len : Nat) :
    Exec Content Fault ChkPtr := do
  let c <- Exec.state
  match c.lists i with
  | [] => pure chkNull
  | s :: rest => do
      Exec.update fun c => c.unlink i s rest
      if len < cls i then poolFree cls ⟨s.no, s.off + len⟩ (cls i - len)
      else pure ()
      pure (blockPtr (s.block len))

def fitClass (cls : Fin 3 -> Nat) (c : Content) (len : Nat) : Option (Fin 3) :=
  [0, 1, 2].find? fun i => decide (len ≤ cls i ∧ c.lists i ≠ [])

def poolAlloc (cls : Fin 3 -> Nat) (len : Nat) : Exec Content Fault ChkPtr := do
  let c <- Exec.state
  match fitClass cls c len with
  | none => pure chkNull
  | some i => poolTake cls i len

/-!
## Blocks
-/

/-- Cut a block off above the virgin mark of chunk `k`. -/
def bump (c : Content) (k len : Nat) : Content :=
  c.setVirgin k ((c.body k).virgin + len)

/-- The block a bump of chunk `k` yields. -/
def bumpBlock (c : Content) (k len : Nat) : Block := ⟨k, (c.body k).virgin, len⟩

def countUsed (c : Content) (k len : Nat) : Content :=
  { (c.setUsed k ((c.body k).used + len)) with totalUsed := c.totalUsed + len }

def countFreed (c : Content) (k len : Nat) : Content :=
  { (c.setUsed k ((c.body k).used - len)) with totalUsed := c.totalUsed - len }

def addFree (c : Content) (len : Nat) : Content :=
  { c with totalFree := c.totalFree + len }

def subFree (c : Content) (len : Nat) : Content :=
  { c with totalFree := c.totalFree - len }

/-- The rest of chunk `k` up to `limit` goes to the pool. -/
def collect (cls : Fin 3 -> Nat) (k limit : Nat) : Exec Content Fault Unit := do
  let c <- Exec.state
  let v := (c.body k).virgin
  if v < limit then do
    Exec.update fun c => c.bump k (limit - v)
    poolFree cls ⟨k, v⟩ (limit - v)
    Exec.update fun c => c.addFree (limit - v)
  else pure ()

/-- Cut a block off the top of chunk `k` and count it. -/
def cutTop (k len : Nat) : Exec Content Fault ChkPtr := do
  let c <- Exec.state
  Exec.update fun c => (c.bump k len).countUsed k len
  pure (blockPtr (c.bumpBlock k len))

/-- Release a block: roll the virgin mark back over it when it is the topmost
one of its chunk, else hand it to the pool. -/
def free (cls : Fin 3 -> Nat) (b : Block) : Exec Content Fault Unit := do
  Exec.update fun c =>
    c.setBits b.space ((c.body b.space).bits.clear (64 * b.start) (64 * b.len))
  let c <- Exec.state
  if b.start + b.len = (c.body b.space).virgin then
    Exec.update fun c => c.setVirgin b.space ((c.body b.space).virgin - b.len)
  else do
    Exec.update fun c => c.addFree b.len
    poolFree cls ⟨b.space, b.start⟩ b.len
  Exec.update fun c => c.countFreed b.space b.len

def addChunk (c : Content) : Content :=
  if c.num = 0 then
    { num := 1
      body := Function.update c.body 0 ⟨5, 5, Bits.zero⟩
      totalUsed := 5
      totalFree := 0
      lists := fun _ => [] }
  else
    { c with
      num := c.num + 1
      body := Function.update c.body c.num ⟨2, 2, Bits.zero⟩
      totalUsed := c.totalUsed + 2 }

/-- Allocate with at least one chunk there: from the pool, else from the rest of
the last chunk up to `limit`, else from a fresh chunk, after the rest of the one
before went to the pool. -/
def allocBlock (cls : Fin 3 -> Nat) (limit len : Nat) : Exec Content Fault ChkPtr := do
  let p <- poolAlloc cls len
  if p.IsNull then do
    let c <- Exec.state
    let k := c.num - 1
    if (c.body k).virgin + len ≤ limit then cutTop k len
    else if c.num ≥ chkMaxChkNum then pure chkNull
    else do
      Exec.update addChunk
      collect cls k limit
      cutTop c.num len
  else do
    Exec.update fun c => (c.subFree len).countUsed p.chkNo len
    pure p

/-- Allocate `len` units; `limit` is the capacity of the last chunk, if any. -/
def alloc (cls : Fin 3 -> Nat) (limit len : Nat) : Exec Content Fault ChkPtr := do
  let c <- Exec.state
  if c.num = 0 then do
    Exec.update addChunk
    allocBlock cls 2048 len
  else allocBlock cls limit len

def write (c : Content) (b : Block) (at_ : Nat) (data : List Byte) : Content :=
  c.setBits b.space
    ((c.body b.space).bits.writeBytes (8 * b.start + at_) data)

/-!
## Projections
-/

section

variable (c : Content)

@[simp] theorem setBody_num (k : Nat) (b : Body) : (c.setBody k b).num = c.num := rfl
@[simp] theorem setBody_lists (k : Nat) (b : Body) :
    (c.setBody k b).lists = c.lists := rfl
@[simp] theorem setBody_totalUsed (k : Nat) (b : Body) :
    (c.setBody k b).totalUsed = c.totalUsed := rfl
@[simp] theorem setBody_totalFree (k : Nat) (b : Body) :
    (c.setBody k b).totalFree = c.totalFree := rfl
@[simp] theorem setBody_self (k : Nat) (b : Body) : (c.setBody k b).body k = b := by
  simp [setBody]

theorem setBody_other {k k' : Nat} (b : Body) (h : k' ≠ k) :
    (c.setBody k b).body k' = c.body k' := by
  simp [setBody, h]

theorem setBody_body (k k' : Nat) (b : Body) :
    (c.setBody k b).body k' = if k' = k then b else c.body k' := by
  simp [setBody, Function.update_apply]

@[simp] theorem setList_num (i : Fin 3) (l : List Slot) :
    (c.setList i l).num = c.num := rfl
@[simp] theorem setList_body (i : Fin 3) (l : List Slot) :
    (c.setList i l).body = c.body := rfl
@[simp] theorem setList_totalUsed (i : Fin 3) (l : List Slot) :
    (c.setList i l).totalUsed = c.totalUsed := rfl
@[simp] theorem setList_totalFree (i : Fin 3) (l : List Slot) :
    (c.setList i l).totalFree = c.totalFree := rfl

theorem setBits_setBits (k : Nat) (m m' : Bits) :
    (c.setBits k m).setBits k m' = c.setBits k m' := by
  unfold setBits
  rw [setBody_self]
  unfold setBody
  simp only [Function.update_idem]

theorem setList_lists (i i' : Fin 3) (l : List Slot) :
    (c.setList i l).lists i' = if i' = i then l else c.lists i' := by
  simp [setList, Function.update_apply]

end

theorem mem_freeBlocks {cls : Fin 3 -> Nat} {c : Content} {b : Block} :
    b ∈ c.freeBlocks cls <->
      exists i, exists s, s ∈ c.lists i ∧ s.block (cls i) = b := by
  unfold freeBlocks
  simp only [List.mem_append, List.mem_map]
  constructor
  · rintro (⟨s, hs, hb⟩ | ⟨s, hs, hb⟩ | ⟨s, hs, hb⟩)
    · exact ⟨0, s, hs, hb⟩
    · exact ⟨1, s, hs, hb⟩
    · exact ⟨2, s, hs, hb⟩
  · rintro ⟨i, s, hs, hb⟩
    match i with
    | 0 => exact Or.inl ⟨s, hs, hb⟩
    | 1 => exact Or.inr (Or.inl ⟨s, hs, hb⟩)
    | 2 => exact Or.inr (Or.inr ⟨s, hs, hb⟩)

/-- Linking one more block adds it to the free blocks, whatever its class. -/
theorem freeBlocks_setList_cons (cls : Fin 3 -> Nat) (c : Content) (i : Fin 3)
    (s : Slot) (rest : List Slot) :
    ((c.setList i (s :: rest)).freeBlocks cls).Perm
      (s.block (cls i) :: (c.setList i rest).freeBlocks cls) := by
  unfold freeBlocks
  match i with
  | 0 =>
      simp only [setList_lists]
      exact List.Perm.refl _
  | 1 =>
      simp only [setList_lists]
      exact List.perm_middle
  | 2 =>
      simp only [setList_lists]
      rw [← List.append_assoc, ← List.append_assoc]
      exact List.perm_middle

theorem setList_self {c : Content} {i : Fin 3} {l : List Slot}
    (h : c.lists i = l) : c.setList i l = c := by
  unfold setList
  rw [← h, Function.update_eq_self]

theorem freeBlocks_congr {cls : Fin 3 -> Nat} (c c' : Content)
    (h : c.lists = c'.lists) : c.freeBlocks cls = c'.freeBlocks cls := by
  unfold freeBlocks
  rw [h]

end Content
end ChunkMem
