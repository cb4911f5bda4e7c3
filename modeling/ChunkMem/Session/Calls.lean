import ChunkMem.Refinement.Stored

/-!
# Programs that use an index

A program works with one index through calls.  A session is the machine state
together with the blocks the program holds; a call runs the function of the
library and keeps the list of blocks.  Which calls a program may make is stated
apart from what they do.
-/

namespace ChunkMem

open Foundation

namespace World

variable (w : World)

/-- `_chk_addr[k]->_capacity`. -/
def capacityOf (k : Nat) : Nat := (w.chunkBits k).read 32 5

/-- `_chk_addr[k]->_used`. -/
def usedOf (k : Nat) : Nat := (w.chunkBits k).read 40 12

/-- `_chk_addr[k]->_virgin`. -/
def virginOf (k : Nat) : Nat := (w.chunkBits k).read 52 12

/-- `_chk_addr[k]->_no`. -/
def noOf (k : Nat) : Nat := (w.chunkBits k).read 64 11

/-- `_chk_addr[k]->_alloc_capacity`. -/
def allocCapacityOf (k : Nat) : Nat := (w.chunkBits k).read 75 16

/-- `mem_mgr()->_total_used`. -/
def totalUsed : Nat := (w.chunkBits 0).read mgrPos 32

/-- `mem_mgr()->_total_free`. -/
def totalFree : Nat := (w.chunkBits 0).read (mgrPos + 32) 32

/-- `mem_mgr()->_total_capacity`. -/
def totalCapacity : Nat := (w.chunkBits 0).read (mgrPos + 64) 16

/-- `mem_mgr()->_free_list[i]`. -/
def freeHead (i : Fin 3) : ChkPtr := (w.chunkBits 0).readPtr (mgrPos + 96 + 32 * i)

def LastOwns : Prop := w.index.chkNum = 0 ∨ w.allocCapacityOf (w.index.chkNum - 1) ≠ 0

def AllOwn : Prop := forall k, k < w.index.chkNum -> w.allocCapacityOf k ≠ 0

/-- An index nobody used yet; the calling program may have memory of its own. -/
structure Fresh : Prop where
  num : w.index.chkNum = 0
  flag : w.index.compressed = false
  type : w.index.memAllocType = .max
  size : w.index.chkAddrSize = 0
  sane : Sane w.sys
  all : forall b a, w.sys.allocs b = some a -> a.kind = .caller

/-- The machine state after `ChkIndex::ChkIndex`. -/
def boot : World where
  sys := Sys.init
  bits := fun _ => Bits.zero
  index := ⟨0, .max, false, 0, fun _ => Ptr.null⟩

end World

theorem World.boot_fresh : World.boot.Fresh :=
  ⟨rfl, rfl, rfl, rfl, ⟨rfl, Nat.one_pos, fun _ _ => rfl⟩, fun _ _ ha => by cases ha⟩

/-- A block the program holds: its pointer and the size that was asked for. -/
structure Live where
  ptr : ChkPtr
  size : Int
deriving DecidableEq, Repr

namespace Live

def block (l : Live) : Block := ⟨l.ptr.chkNo, l.ptr.offset / 2, l.ptr.size⟩

end Live

structure Session where
  world : World
  /-- The blocks that were handed out and not freed since. -/
  live : List Live

inductive Call where
  | alloc (size : Int)
  | free (p : ChkPtr)
  /-- The program stores bytes into a block of its own. -/
  | write (p : ChkPtr) (pos : Nat) (data : List Byte)
  | enlarge
  | compress (targetCompressPercent : Int)
  | uncompress
  | shrink
  | destruct
deriving DecidableEq

inductive Result where
  | block (p : ChkPtr)
  | code (r : Int)
  | done
deriving DecidableEq, Repr

/-- A store of the program through `chk_ptr2addr`. -/
def writeBlock (p : ChkPtr) (pos : Nat) (data : List Byte) : M Unit := do
  let addr <- chkPtr2addr p
  storeBytes (addr.add pos) data

namespace Call

variable (env : Env)

def run : Call -> M Result
  | alloc size => do
      let p <- ChkIndex.alloc env size
      pure (.block p)
  | free p => do
      ChkIndex.free env p 0
      pure .done
  | write p pos data => do
      writeBlock p pos data
      pure .done
  | enlarge => do
      let r <- ChkIndex.enlarge env
      pure (.code r)
  | compress percent => do
      let r <- ChkIndex.compress env percent
      pure (.code r)
  | uncompress => do
      let r <- ChkIndex.uncompress env
      pure (.code r)
  | shrink => do
      ChkIndex.shrink env
      pure .done
  | destruct => do
      ChkIndex.destruct env
      pure .done

/-- The blocks the program holds after a call.  A `free` that could not
uncompress and a `destruct` that found no chunk to release leave a
compressed index as it was, with its blocks. -/
def holds (live : List Live) (w' : World) : Call -> Result -> List Live
  | alloc size, .block p => if p.IsNull then live else ⟨p, size⟩ :: live
  | free p, _ => if w'.index.compressed = true then live
      else live.eraseP fun l => decide (l.ptr = p)
  | destruct, _ => if w'.index.compressed = true then live else []
  | _, _ => live

section

variable (live : List Live) (w' : World)

theorem holds_alloc (n : Int) (p : ChkPtr) :
    (alloc n).holds live w' (.block p) = if p.IsNull then live else ⟨p, n⟩ :: live := rfl

theorem holds_free (p : ChkPtr) (r : Result) :
    (free p).holds live w' r = if w'.index.compressed = true then live
      else live.eraseP fun l => decide (l.ptr = p) := rfl

theorem holds_destruct (r : Result) :
    destruct.holds live w' r = if w'.index.compressed = true then live else [] := rfl

end

def perform (call : Call) (s : Session) : Except Fault (Result × Session) :=
  match call.run env s.world with
  | .ok (r, w') => .ok (r, ⟨w', call.holds s.live w' r⟩)
  | .error e => .error e

def performAll : List Call -> Session -> Except Fault (List Result × Session)
  | [], s => .ok ([], s)
  | call :: rest, s =>
      match call.perform env s with
      | .error e => .error e
      | .ok (r, s') =>
          match performAll rest s' with
          | .error e => .error e
          | .ok (rs, t) => .ok (r :: rs, t)

/-- What a program may ask for: blocks of any size that can be rounded up in an
`int`, release of blocks it holds, stores into them while the index is not
compressed. -/
def Allowed (s : Session) : Call -> Prop
  | alloc size => size < 2 ^ 31 - 7
  | free p => exists l, l ∈ s.live ∧ l.ptr = p
  | write p pos data => s.world.index.compressed = false ∧
      exists l, l ∈ s.live ∧ l.ptr = p ∧ pos + data.length ≤ 8 * p.size
  | _ => True

end Call

/-- The sessions a program can reach when each of its calls meets a condition. -/
inductive Reach (env : Env) (P : Session -> Call -> Prop) : Session -> Prop where
  | start {w : World} : w.Fresh -> Reach env P ⟨w, []⟩
  | step {s s' : Session} {call : Call} {r : Result} : Reach env P s -> P s call ->
      call.perform env s = .ok (r, s') -> Reach env P s'

theorem Reach.mono {env : Env} {P Q : Session -> Call -> Prop} {s : Session}
    (h : Reach env P s) (hPQ : forall s call, P s call -> Q s call) : Reach env Q s := by
  induction h with
  | start hw => exact .start hw
  | step _ hcall hrun ih => exact .step ih (hPQ _ _ hcall) hrun

def Call.AllMeet (env : Env) (P : Session -> Call -> Prop) : List Call -> Session -> Prop
  | [], _ => True
  | call :: rest, s => P s call ∧
      match call.perform env s with
      | .ok (_, s') => AllMeet env P rest s'
      | .error _ => True

theorem Reach.performAll {env : Env} {P : Session -> Call -> Prop} {calls : List Call} :
    forall {s t : Session} {rs : List Result}, Reach env P s -> Call.AllMeet env P calls s ->
      Call.performAll env calls s = .ok (rs, t) -> Reach env P t := by
  induction calls with
  | nil =>
      intro s t rs h _ hrun
      cases hrun
      exact h
  | cons call rest ih =>
      intro s t rs h hmeet hrun
      unfold Call.performAll at hrun
      unfold Call.AllMeet at hmeet
      cases hcall : call.perform env s with
      | error e =>
          rw [hcall] at hrun
          cases hrun
      | ok rs' =>
          rw [hcall] at hrun hmeet
          cases hrest : Call.performAll env rest rs'.2 with
          | error e =>
              simp only [hrest] at hrun
              cases hrun
          | ok rt =>
              simp only [hrest] at hrun
              cases hrun
              exact ih (.step h hmeet.1 hcall) hmeet.2 hrest

/-- The calls of a program that shrinks only where the last chunk owns its
allocation. -/
def CarefulCall (s : Session) (call : Call) : Prop :=
  call.Allowed s ∧ (call = .shrink -> s.world.LastOwns)

/-- The calls of a program that shrinks only where every chunk has an allocation
of its own. -/
def CautiousCall (s : Session) (call : Call) : Prop :=
  call.Allowed s ∧ (call = .shrink -> s.world.AllOwn)

/-!
## Sessions that can be computed
-/

section Decide

instance (s : Session) (call : Call) : Decidable (call.Allowed s) :=
  match call with
  | .alloc _ => inferInstanceAs (Decidable (_ < _))
  | .free p => inferInstanceAs (Decidable (exists l, l ∈ s.live ∧ l.ptr = p))
  | .write p pos data => inferInstanceAs (Decidable (s.world.index.compressed = false ∧
      exists l, l ∈ s.live ∧ l.ptr = p ∧ pos + data.length ≤ 8 * p.size))
  | .enlarge | .compress _ | .uncompress | .shrink | .destruct =>
      inferInstanceAs (Decidable True)

instance (w : World) : Decidable w.LastOwns := inferInstanceAs (Decidable (_ ∨ _))

instance (w : World) : Decidable w.AllOwn :=
  inferInstanceAs (Decidable (forall k, k < w.index.chkNum -> w.allocCapacityOf k ≠ 0))

instance (s : Session) (call : Call) : Decidable (CarefulCall s call) :=
  inferInstanceAs (Decidable (_ ∧ _))

instance (s : Session) (call : Call) : Decidable (CautiousCall s call) :=
  inferInstanceAs (Decidable (_ ∧ _))

theorem Call.allMeet_cons {env : Env} {P : Session -> Call -> Prop} {call : Call}
    {rest : List Call} {s : Session} :
    Call.AllMeet env P (call :: rest) s <-> P s call ∧
      match call.perform env s with
      | .ok (_, s') => Call.AllMeet env P rest s'
      | .error _ => True := Iff.rfl

theorem Call.AllMeet.of_forall {env : Env} {P : Session -> Call -> Prop} {calls : List Call}
    (h : forall call, call ∈ calls -> forall s, P s call) {s : Session} :
    Call.AllMeet env P calls s := by
  induction calls generalizing s with
  | nil => trivial
  | cons call rest ih =>
      rw [Call.allMeet_cons]
      refine ⟨h call List.mem_cons_self s, ?_⟩
      split
      · exact ih fun call' hmem => h call' (List.mem_cons_of_mem _ hmem)
      · trivial

instance decidableAllMeet (env : Env) (P : Session -> Call -> Prop)
    [forall s call, Decidable (P s call)] :
    forall (calls : List Call) (s : Session), Decidable (Call.AllMeet env P calls s)
  | [], _ => isTrue trivial
  | call :: rest, s =>
      match hcall : call.perform env s with
      | .ok (_, s') =>
          let := decidableAllMeet env P rest s'
          decidable_of_iff (P s call ∧ Call.AllMeet env P rest s') (by
            rw [Call.allMeet_cons, hcall])
      | .error _ => decidable_of_iff (P s call) (by
            rw [Call.allMeet_cons, hcall]
            exact (and_iff_left trivial).symm)

/-- The session after some calls; the one before where they fail. -/
def Call.after (env : Env) (calls : List Call) (s : Session) : Session :=
  match Call.performAll env calls s with
  | .ok (_, t) => t
  | .error _ => s

theorem Reach.after {env : Env} {P : Session -> Call -> Prop} {calls : List Call} {s : Session}
    (h : Reach env P s) (hmeet : Call.AllMeet env P calls s) :
    Reach env P (Call.after env calls s) := by
  unfold Call.after
  cases hrun : Call.performAll env calls s with
  | error e => exact h
  | ok rt => exact h.performAll hmeet hrun

/-- A compressor that stores its input, taken in blocks of 64 KB. -/
def Snappy.storing : Snappy where
  compress := id
  uncompress := some
  uncompressedLength := fun l => some l.length
  cut := fun _ => 65536
  uncompress_compress := fun _ => rfl
  uncompressedLength_compress := fun _ => rfl
  length_compress_le := fun l => by
    simp only [id_eq]
    omega
  cut_pos := fun _ => by decide

def Env.plain : Env where
  memalign := false
  uncompressSplit := false
  freeSizePreset := ![15, 31, 102]
  snappy := Snappy.storing
  ok := fun _ => true
  junk := fun _ => Bits.zero
  split_of_memalign := nofun

theorem Env.plain_allOk : Env.plain.AllOk := fun _ => rfl

theorem Env.plain_classesNonzero : Env.plain.ClassesNonzero := by
  intro i
  match i with
  | 0 => decide
  | 1 => decide
  | 2 => decide

end Decide

end ChunkMem
