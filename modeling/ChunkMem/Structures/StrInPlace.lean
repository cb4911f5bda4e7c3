import ChunkMem.Session.Addresses
import ChunkMem.Structures.StrNode

/-!
# Changing a string that lies in the index

`set_data` and its companions on a string at the beginning of a block.  They keep the
address of the string across `alloc` and `free`, and this is right because neither
moves a chunk.
-/

namespace ChunkMem

open Foundation

namespace ChkStr

/-- `init`, of the string at an address. -/
def initAt (str : Ptr) : M Unit := bzero str 8

/-- The last part of `set_data` with a new block. -/
def placeAt (str : Ptr) (newPtr : ChkPtr) (buf : List Byte) : M Unit := do
  storePtr str newPtr
  ChunkMem.store str ⟨32, 13⟩ buf.length
  let strAddr <- cStrAt str
  storeBytes strAddr buf
  storeBytes (strAddr.add buf.length) [0]

/-- `set_data` in the block that is there. -/
def rewriteAt (str : Ptr) (buf : List Byte) : M Unit := do
  let strAddr <- cStrAt str
  storeBytes strAddr buf
  ChunkMem.store str ⟨32, 13⟩ buf.length
  storeBytes (strAddr.add buf.length) [0]

variable (env : Env)

def freeAt (str : Ptr) : Prog Unit := do
  let p <- Prog.mem (loadPtr str)
  Prog.free env p

/-- `uninit`, of the string at an address. -/
def uninitAt (str : Ptr) : Prog Unit := do
  let flag <- Prog.mem (load str ⟨56, 8⟩)
  if flag ≠ 0 then freeAt env str else pure ()

/-- `set_data` of seven bytes at most. -/
def setShortAt (str : Ptr) (buf : List Byte) : Prog Int := do
  let flag <- Prog.mem (load str ⟨56, 8⟩)
  (if flag ≠ 0 then do
    freeAt env str
    Prog.mem (ChunkMem.store str ⟨56, 8⟩ 0)
  else pure ())
  Prog.mem (storeBytes str buf)
  Prog.mem (storeBytes (str.add buf.length) [0])
  pure 0

/-- `set_data` with a new block of the given size. -/
def setNewAt (str : Ptr) (buf : List Byte) (size : Int) : Prog Int := do
  let newPtr <- Prog.alloc env size
  if newPtr.IsNull then pure (-1)
  else do
    let flag <- Prog.mem (load str ⟨56, 8⟩)
    (if flag ≠ 0 then freeAt env str else Prog.mem (ChunkMem.store str ⟨56, 8⟩ 1))
    Prog.mem (placeAt str newPtr buf)
    pure 0

/-- `set_data`, of the string at an address. -/
def setDataAt (str : Ptr) (buf : List Byte) : Prog Int :=
  if buf.length ≤ 7 then setShortAt env str buf
  else do
    let flag <- Prog.mem (load str ⟨56, 8⟩)
    let strLen <- Prog.mem (load str ⟨32, 13⟩)
    if flag ≠ 0 ∧ strLen ≥ buf.length then do
      Prog.mem (rewriteAt str buf)
      pure 0
    else setNewAt env str buf (wrapInt (buf.length + 1))

end ChkStr

/-- The beginning of the block `b` was changed to `m`, and nothing else. -/
structure HeaderSet (env : Env) (s : Session) (b : Live) (m : Bits) (w' : World) : Prop where
  isOpen : Open env ⟨w', s.live⟩
  index : w'.index = s.world.index
  target : w'.target b.ptr = m
  rest : forall j, 64 ≤ j -> m j = s.world.target b.ptr j
  others : forall l, l ∈ s.live -> l.ptr ≠ b.ptr -> World.KeepsBlock s.world w' l.ptr

namespace HeaderSet

variable {env : Env} {s : Session} {b : Live} {m : Bits} {w' : World}

theorem addr_eq (h : HeaderSet env s b m w') (p : ChkPtr) : w'.addrOf p = s.world.addrOf p := by
  unfold World.addrOf
  rw [h.index]

theorem str_eq (h : HeaderSet env s b m w') : w'.str b.ptr = ⟨m⟩ := congrArg ChkStr.mk h.target

theorem trans {w₁ : World} {m₁ : Bits} (h : HeaderSet env s b m₁ w₁)
    (h' : HeaderSet env ⟨w₁, s.live⟩ b m w') : HeaderSet env s b m w' := by
  refine ⟨h'.isOpen, h'.index.trans h.index, h'.target, fun j hj => ?_, fun l hl hne j hj => ?_⟩
  · rw [h'.rest j hj]
    change w₁.target b.ptr j = _
    rw [h.target, h.rest j hj]
  · exact (h'.others l hl hne j hj).trans (h.others l hl hne j hj)

end HeaderSet

namespace Open

variable {env : Env} {s : Session} {b : Live}

theorem setHeader (h : Open env s) (hb : b ∈ s.live) {m : Bits}
    (hm : forall j, j < 32 * b.ptr.offset ∨ 32 * b.ptr.offset + 64 ≤ j ->
      m j = s.world.chunkBits b.ptr.chkNo j) :
    HeaderSet env s b (m.drop (32 * b.ptr.offset)) (s.world.setChunk b.ptr.chkNo m) := by
  have hpos := h.size_pos hb
  have hchange := h.change hb (32 * b.ptr.offset) 64 (Nat.le_refl _) (by omega) hm
  refine ⟨hchange.1, rfl, ?_, fun j hj => ?_, fun l hl hne j hj => ?_⟩
  · unfold World.target
    rw [setChunk_chunkBits_self]
  · unfold World.target
    rw [Bits.drop_apply, Bits.drop_apply, hm _ (by omega)]
  · unfold World.target
    rw [Bits.drop_apply, Bits.drop_apply, hchange.2 l hl _ (by omega) (by omega)]
    split
    · next hno =>
        have hout := h.apart hb hl hne hno (j := 32 * l.ptr.offset + j)
        rw [hno]
        exact hm _ (by omega)
    · rfl

theorem addrOf_eq (w : World) (p : ChkPtr) :
    w.addrOf p = (w.index.chkAddr p.chkNo).add (4 * p.offset) := addrOf_add w p 0

theorem store_header (h : Open env s) (hb : b ∈ s.live) {f : Field} (hf : f.pos + f.width ≤ 64)
    (v : Nat) : exists w', store (s.world.addrOf b.ptr) f v s.world = .ok ((), w') ∧
      HeaderSet env s b ((s.world.target b.ptr).write f.pos f.width v) w' := by
  have hpos := h.size_pos hb
  have hin := h.inside hb (o := 4 * b.ptr.offset) (n := f.pos + f.width) (by omega)
  have hset := h.setHeader hb
    (m := (s.world.chunkBits b.ptr.chkNo).write (32 * b.ptr.offset + f.pos) f.width v)
    fun j hj => Bits.write_outside (by omega)
  rw [Bits.drop_write] at hset
  refine ⟨_, ?_, hset⟩
  rw [addrOf_eq, store_at hin, show 8 * (4 * b.ptr.offset) = 32 * b.ptr.offset by omega]
  rfl

theorem storePtr_header (h : Open env s) (hb : b ∈ s.live) (v : ChkPtr) :
    exists w', storePtr (s.world.addrOf b.ptr) v s.world = .ok ((), w') ∧
      HeaderSet env s b ((s.world.target b.ptr).writePtr 0 v) w' := by
  have hpos := h.size_pos hb
  have hin := h.inside hb (o := 4 * b.ptr.offset) (n := 32) (by omega)
  have hset := h.setHeader hb (m := (s.world.chunkBits b.ptr.chkNo).writePtr
    (32 * b.ptr.offset + 0) v) fun j hj => Bits.writePtr_outside (by omega)
  rw [Bits.drop_writePtr] at hset
  refine ⟨_, ?_, hset⟩
  rw [addrOf_eq, storePtr_at hin, show 8 * (4 * b.ptr.offset) = 32 * b.ptr.offset by omega]
  rfl

theorem storeBytes_header (h : Open env s) (hb : b ∈ s.live) {a : Nat} {d : List Byte}
    (hle : a + d.length ≤ 8) :
    exists w', storeBytes ((s.world.addrOf b.ptr).add a) d s.world = .ok ((), w') ∧
      HeaderSet env s b ((s.world.target b.ptr).writeBytes a d) w' := by
  have hpos := h.size_pos hb
  rcases h.storeBytes_ok hb (a := a) (d := d) (by omega) with
    ⟨w', hrun, hopen, hindex, htarget, hothers⟩
  exact ⟨w', hrun, hopen, hindex, htarget, fun j hj => Bits.writeBytes_outside (by omega), hothers⟩

/-!
## Allocation and release around the string
-/

theorem free_stays (h : Open env s) (hb : b ∈ s.live) :
    Exec.Ensures (Prog.free env b.ptr s)
      (fun _ s' => FreePost env s b s' ∧ s'.world.index = s.world.index)
      (Content.PoolFault env.freeSize) := by
  have hfree := h.free_ensures hb
  rcases h with ⟨hflag, c, L, hv⟩
  cases hrun : Prog.free env b.ptr s with
  | error e =>
      rw [hrun] at hfree
      exact hfree
  | ok rs =>
      rw [hrun] at hfree
      refine ⟨hfree, ?_⟩
      unfold Prog.free at hrun
      cases hcode : ChkIndex.free env b.ptr 0 s.world with
      | error e =>
          rw [hcode] at hrun
          cases hrun
      | ok uw =>
          rw [hcode] at hrun
          cases hrun
          exact (hv.stored.uncompressed hflag).free_index hcode

theorem alloc_stays (h : Open env s) {n : Int} (hpos : 0 < n) (hn : n < 2 ^ 31 - 7) :
    Exec.Ensures (Prog.alloc env n s)
      (fun p s' => AllocPost env s n p s' ∧ forall l, l ∈ s.live ->
        s'.world.addrOf l.ptr = s.world.addrOf l.ptr) (Expected env) := by
  have halloc := h.alloc_ensures hpos hn
  cases hrun : Prog.alloc env n s with
  | error e =>
      rw [hrun] at halloc
      exact halloc
  | ok ps =>
      rw [hrun] at halloc
      refine ⟨halloc, fun l hl => ?_⟩
      unfold Prog.alloc at hrun
      cases hcode : ChkIndex.alloc env n s.world with
      | error e =>
          rw [hcode] at hrun
          cases hrun
      | ok pw =>
          rw [hcode] at hrun
          cases hrun
          unfold World.addrOf
          rw [(h.alloc_still hn hcode).2.2 _ (h.chkNo_lt hl)]

theorem storeShort_ok (h : Open env s) (hb : b ∈ s.live)
    (hflag : (s.world.str b.ptr).flag = 0) {l : List Byte} (hlen : l.length ≤ 7) :
    exists m w', (do
        Prog.mem (storeBytes (s.world.addrOf b.ptr) l)
        Prog.mem (storeBytes ((s.world.addrOf b.ptr).add l.length) [0])
        pure 0 : Prog Int) s = .ok (0, ⟨w', s.live⟩) ∧ HeaderSet env s b m w' ∧
      (w'.str b.ptr).flag = 0 ∧ (w'.str b.ptr).Shows ⟨w', s.live⟩ l := by
  rcases h.storeBytes_header hb (a := 0) (d := l) (by omega) with ⟨w₁, hrun₁, h₁⟩
  have haddr := h₁.addr_eq b.ptr
  rcases h₁.isOpen.storeBytes_header hb (a := l.length) (d := [0]) (by simp; omega) with
    ⟨w₂, hrun₂, h₂⟩
  have hrun₁' : storeBytes (s.world.addrOf b.ptr) l s.world = .ok ((), w₁) := hrun₁
  have hrun₂' : storeBytes ((s.world.addrOf b.ptr).add l.length) [0] w₁ = .ok ((), w₂) :=
    haddr ▸ hrun₂
  have hstr : w₂.str b.ptr = ((s.world.str b.ptr).store 0 l).store l.length [0] := by
    rw [h₂.str_eq]
    change (⟨(w₁.target b.ptr).writeBytes l.length [0]⟩ : ChkStr) = _
    rw [h₁.target]
    rfl
  have hshows := ChkStr.store_shows ⟨w₂, s.live⟩ hflag hlen
  rw [← hstr] at hshows
  refine ⟨_, w₂, ?_, h₁.trans h₂, ?_, hshows⟩
  · rw [Exec.bind_of_ok (Prog.mem_of_ok hrun₁'), Exec.bind_of_ok (Prog.mem_of_ok hrun₂')]
    rfl
  · cases hshows with
    | short _ hzero _ => exact hzero
    | long hcon _ _ _ _ _ _ => omega

end Open

/-- What `set_data` leaves when the string lies in the block `b`. -/
structure PlacedPost (env : Env) (s : Session) (b : Live) (l : List Byte) (r : Int)
    (s' : Session) : Prop where
  isOpen : Open env s'
  /-- No block moves. -/
  addr : forall c, c ∈ s.live -> s'.world.addrOf c.ptr = s.world.addrOf c.ptr
  /-- The block behind the string is as it was. -/
  rest : forall j, 64 ≤ j -> j < 64 * b.ptr.size ->
    s'.world.target b.ptr j = s.world.target b.ptr j
  others : forall c, c ∈ s.live -> (s.world.str b.ptr).owned ≠ some c.ptr -> c ∈ s'.live ∧
    (c.ptr ≠ b.ptr -> World.KeepsBlock s.world s'.world c.ptr)
  outcome : (r = 0 ∧ (s'.world.str b.ptr).Shows s' l ∧
      (forall c, c ∈ s'.live -> c ∈ s.live ∧ (s.world.str b.ptr).owned ≠ some c.ptr ∨
        (s'.world.str b.ptr).owned = some c.ptr) ∧
      forall c, c ∈ s.live -> (s'.world.str b.ptr).owned = some c.ptr ->
        (s.world.str b.ptr).owned = some c.ptr) ∨
    (r = -1 ∧ s'.live = s.live ∧ forall c, c ∈ s.live ->
      World.KeepsBlock s.world s'.world c.ptr)

namespace Open

variable {env : Env} {s : Session} {b : Live} {l lx : List Byte}

theorem setShortAt_ensures (h : Open env s) (hb : b ∈ s.live)
    (hx : (s.world.str b.ptr).Shows s lx) (hown : (s.world.str b.ptr).owned ≠ some b.ptr)
    (hlen : l.length ≤ 7) :
    Exec.Ensures (ChkStr.setShortAt env (s.world.addrOf b.ptr) l s) (PlacedPost env s b l)
      (Expected env) := by
  have hpos := h.size_pos hb
  have hflag₀ : load (s.world.addrOf b.ptr) ⟨56, 8⟩ s.world =
    .ok ((s.world.str b.ptr).flag, s.world) := h.load_block hb (by decide)
  unfold ChkStr.setShortAt
  rw [Exec.bind_of_ok (Prog.mem_of_ok hflag₀)]
  rcases hx.cases_flag with ⟨hflag, hnone⟩ | ⟨c, hc, hflag, hptr, hsome, -⟩
  · rcases h.storeShort_ok hb hflag hlen with ⟨m, w', hrun, hset, hflag', hshows⟩
    rw [if_neg (by omega), Exec.bind_of_ok (Exec.pure_apply _ _)]
    refine Exec.Ensures.of_eq hrun ⟨hset.isOpen, fun c _ => hset.addr_eq c.ptr, ?_, ?_,
      Or.inl ⟨rfl, hshows, ?_, ?_⟩⟩
    · intro j hj _
      rw [hset.target, hset.rest j hj]
    · exact fun d hd _ => ⟨hd, hset.others d hd⟩
    · intro d hd
      rw [hnone]
      exact Or.inl ⟨hd, nofun⟩
    · intro d _ hcon
      rw [ChkStr.owned_short hflag'] at hcon
      cases hcon
  · have hne : c.ptr ≠ b.ptr := fun heq => hown (by rw [hsome, heq])
    have hload : loadPtr (s.world.addrOf b.ptr) s.world = .ok (c.ptr, s.world) := by
      rw [h.loadPtr_block hb]
      exact congrArg (fun p => Except.ok (p, s.world)) hptr
    rw [if_pos (by omega)]
    unfold ChkStr.freeAt
    rw [Exec.bind_assoc, Exec.bind_assoc, Exec.bind_of_ok (Prog.mem_of_ok hload)]
    refine Exec.Ensures.bind ((h.free_stays hc).mono (fun _ _ hq => hq)
      fun _ he => Or.inr he) ?_
    rintro _ s₁ ⟨hpost, hindex⟩
    have hb₁ : b ∈ s₁.live := (hpost.mem_iff h hc).mpr ⟨hb, fun heq => hne heq.symm⟩
    have haddr : forall p : ChkPtr, s₁.world.addrOf p = s.world.addrOf p := fun p => by
      unfold World.addrOf
      rw [hindex]
    have hkept₁ := hpost.kept b hb₁
    rcases hpost.isOpen.store_header hb₁ (f := ⟨56, 8⟩) (by decide) 0 with ⟨w₂, hstore, hset₂⟩
    rw [haddr] at hstore
    have hflag₂ : (w₂.str b.ptr).flag = 0 := by
      rw [hset₂.str_eq]
      exact Bits.read_write_of_lt (by decide)
    have haddr₂ := (hset₂.addr_eq b.ptr).trans (haddr b.ptr)
    rcases hset₂.isOpen.storeShort_ok hb₁ hflag₂ hlen with ⟨m, w', hrun, hset, hflag', hshows⟩
    change (do
      Prog.mem (storeBytes (w₂.addrOf b.ptr) l)
      Prog.mem (storeBytes ((w₂.addrOf b.ptr).add l.length) [0])
      pure 0 : Prog Int) _ = _ at hrun
    rw [haddr₂] at hrun
    have hall := hset₂.trans hset
    rw [Exec.bind_of_ok (Prog.mem_of_ok hstore)]
    refine Exec.Ensures.of_eq hrun ⟨hset.isOpen,
      fun c _ => (hall.addr_eq c.ptr).trans (haddr c.ptr), ?_, ?_,
      Or.inl ⟨rfl, hshows, ?_, ?_⟩⟩
    · intro j hj hj'
      rw [hall.target, hall.rest j hj]
      exact hkept₁ j hj'
    · intro d hd hdne
      rw [hsome] at hdne
      have hd₁ : d ∈ s₁.live := (hpost.mem_iff h hc).mpr ⟨hd, fun heq => hdne (by rw [heq])⟩
      refine ⟨hd₁, fun hdb j hj => ?_⟩
      rw [hall.others d hd₁ hdb j hj, hpost.kept d hd₁ j hj]
    · intro d hd
      have hmem := (hpost.mem_iff h hc).mp hd
      refine Or.inl ⟨hmem.1, fun heq => hmem.2 ?_⟩
      rw [hsome] at heq
      exact (Option.some.inj heq).symm
    · intro d _ hcon
      rw [ChkStr.owned_short hflag'] at hcon
      cases hcon

theorem cStrAt_long (h : Open env s) (hb : b ∈ s.live) (hflag : (s.world.str b.ptr).flag = 1)
    {c : Live} (hc : c ∈ s.live) (hptr : (s.world.str b.ptr).dataPtr = c.ptr) :
    ChkStr.cStrAt (s.world.addrOf b.ptr) s.world = .ok (s.world.addrOf c.ptr, s.world) := by
  have hload : load (s.world.addrOf b.ptr) ⟨56, 8⟩ s.world =
    .ok ((s.world.str b.ptr).flag, s.world) := h.load_block hb (by decide)
  have hptr' : (s.world.target b.ptr).readPtr 0 = c.ptr := hptr
  unfold ChkStr.cStrAt
  rw [Exec.bind_of_ok hload, if_pos (by omega), Exec.bind_of_ok (h.loadPtr_block hb), hptr']
  exact h.chkPtr2addr_ok (h.chkNo_lt hc)

end Open

/-- A string and its zero in a block that is left alone between the two stores. -/
theorem Foundation.Bits.bytes_finished {m₁ m₂ : Bits} {l : List Byte} {n : Nat}
    (hl : l.length + 1 ≤ 8 * n) (hsame : forall j, j < 64 * n -> m₂ j = m₁.writeBytes 0 l j) :
    (m₂.writeBytes l.length [0]).bytes 0 (l.length + 1) = l ++ [0] := by
  rw [← Bits.bytes_terminated m₁ l]
  apply Bits.bytes_congr
  intro j hj
  by_cases hin : 8 * l.length ≤ 8 * 0 + j
  · rw [Bits.writeBytes_inside (by omega) (by simp; omega),
      Bits.writeBytes_inside (by omega) (by simp; omega)]
  · rw [Bits.writeBytes_outside (by omega), Bits.writeBytes_outside (by omega)]
    exact hsame _ (by omega)

/-- The string in the block `b` has `l` in the block `c` now. -/
structure LongSet (env : Env) (s : Session) (b c : Live) (l : List Byte) (w' : World) : Prop where
  isOpen : Open env ⟨w', s.live⟩
  index : w'.index = s.world.index
  shows : (w'.str b.ptr).Shows ⟨w', s.live⟩ l
  owned : (w'.str b.ptr).owned = some c.ptr
  rest : forall j, 64 ≤ j -> j < 64 * b.ptr.size ->
    w'.target b.ptr j = s.world.target b.ptr j
  others : forall d, d ∈ s.live -> d.ptr ≠ b.ptr -> d.ptr ≠ c.ptr ->
    World.KeepsBlock s.world w' d.ptr

theorem LongSet.addr_eq {env : Env} {s : Session} {b c : Live} {l : List Byte} {w' : World}
    (h : LongSet env s b c l w') (p : ChkPtr) : w'.addrOf p = s.world.addrOf p := by
  unfold World.addrOf
  rw [h.index]

namespace Open

variable {env : Env} {s : Session} {b c : Live} {l lx : List Byte}

theorem rewriteAt_ok (h : Open env s) (hb : b ∈ s.live) (hc : c ∈ s.live) (hne : c.ptr ≠ b.ptr)
    (hflag : (s.world.str b.ptr).flag = 1) (hptr : (s.world.str b.ptr).dataPtr = c.ptr)
    (hlen : 8 ≤ l.length) (hmax : l.length < 2 ^ 13) (hfit : l.length + 1 ≤ 8 * c.ptr.size) :
    exists w', ChkStr.rewriteAt (s.world.addrOf b.ptr) l s.world = .ok ((), w') ∧
      LongSet env s b c l w' := by
  have hpos := h.size_pos hb
  rcases h.storeBytes_ok hc (a := 0) (d := l) (by omega) with
    ⟨w₁, hrun₁, h₁, hindex₁, htarget₁, hothers₁⟩
  have haddr₁ : forall p : ChkPtr, w₁.addrOf p = s.world.addrOf p := fun p => by
    unfold World.addrOf
    rw [hindex₁]
  rcases h₁.store_header hb (f := ⟨32, 13⟩) (by decide) l.length with ⟨w₂, hrun₂, h₂⟩
  have haddr₂ : forall p : ChkPtr, w₂.addrOf p = s.world.addrOf p :=
    fun p => (h₂.addr_eq p).trans (haddr₁ p)
  rcases h₂.isOpen.storeBytes_ok hc (a := l.length) (d := [0]) (by simp; omega) with
    ⟨w₃, hrun₃, h₃, hindex₃, htarget₃, hothers₃⟩
  change HeaderSet env ⟨w₁, s.live⟩ b ((w₁.target b.ptr).write 32 13 l.length) w₂ at h₂
  change store (w₁.addrOf b.ptr) ⟨32, 13⟩ l.length w₁ = .ok ((), w₂) at hrun₂
  change storeBytes ((w₂.addrOf c.ptr).add l.length) [0] w₂ = .ok ((), w₃) at hrun₃
  have hrun₁' : storeBytes (s.world.addrOf c.ptr) l s.world = .ok ((), w₁) := hrun₁
  rw [haddr₁] at hrun₂
  rw [haddr₂] at hrun₃
  -- the eight bytes at the end
  have hbne : b.ptr ≠ c.ptr := fun heq => hne heq.symm
  have hkept₁ := (hothers₁ b hb hbne).same hpos
  have hkept₃ := World.KeepsBlock.same (hothers₃ b hb hbne) hpos
  have hflag₃ : (w₃.str b.ptr).flag = 1 := by
    rw [hkept₃.flag_eq, h₂.str_eq, ← hflag, ← hkept₁.flag_eq]
    exact Bits.read_write_disjoint (by omega)
  have hptr₃ : (w₃.str b.ptr).dataPtr = c.ptr := by
    rw [hkept₃.dataPtr_eq, h₂.str_eq, ← hptr, ← hkept₁.dataPtr_eq]
    exact Bits.readPtr_congr fun i hi => Bits.write_outside (by omega)
  have hstr₃ : (w₃.str b.ptr).strLen = l.length := by
    rw [hkept₃.strLen_eq, h₂.str_eq]
    exact Bits.read_write_of_lt hmax
  have hbytes : (w₃.target c.ptr).bytes 0 (l.length + 1) = l ++ [0] := by
    rw [htarget₃]
    have hsame : forall j, j < 64 * c.ptr.size ->
        w₂.target c.ptr j = (s.world.target c.ptr).writeBytes 0 l j :=
      fun j hj => (h₂.others c hc hne j hj).trans (congrFun htarget₁ j)
    exact Bits.bytes_finished hfit hsame
  refine ⟨w₃, ?_, h₃, hindex₃.trans (h₂.index.trans hindex₁),
    .long hlen hflag₃ hptr₃ hc hstr₃ hfit hbytes, ?_, ?_, ?_⟩
  · unfold ChkStr.rewriteAt
    rw [Exec.bind_of_ok (h.cStrAt_long hb hflag hc hptr), Exec.bind_of_ok hrun₁',
      Exec.bind_of_ok hrun₂, hrun₃]
  · rw [ChkStr.owned_long hflag₃, hptr₃]
  · intro j hj hj'
    refine (hothers₃ b hb hbne j hj').trans ?_
    change w₂.target b.ptr j = _
    rw [h₂.target, h₂.rest j hj]
    exact hothers₁ b hb hbne j hj'
  · intro d hd hdb hdc j hj
    exact (hothers₃ d hd hdc j hj).trans ((h₂.others d hd hdb j hj).trans
      (hothers₁ d hd hdc j hj))

theorem placeAt_ok (h : Open env s) (hb : b ∈ s.live) (hc : c ∈ s.live) (hne : c.ptr ≠ b.ptr)
    (hflag : (s.world.str b.ptr).flag = 1) (hlen : 8 ≤ l.length)
    (hfit : l.length + 1 ≤ 8 * c.ptr.size) (hsize : c.ptr.size < 2 ^ 9) :
    exists w', ChkStr.placeAt (s.world.addrOf b.ptr) c.ptr l s.world = .ok ((), w') ∧
      LongSet env s b c l w' := by
  have hpos := h.size_pos hb
  have hno := h.chkNo_lt hc
  have hnum := h.chkNum_le
  rcases h.storePtr_header hb c.ptr with ⟨w₁, hrun₁, h₁⟩
  rcases h₁.isOpen.store_header hb (f := ⟨32, 13⟩) (by decide) l.length with ⟨w₂, hrun₂, h₂⟩
  have haddr₂ : forall p : ChkPtr, w₂.addrOf p = s.world.addrOf p :=
    fun p => (h₂.addr_eq p).trans (h₁.addr_eq p)
  change store (w₁.addrOf b.ptr) ⟨32, 13⟩ l.length w₁ = .ok ((), w₂) at hrun₂
  rw [h₁.addr_eq] at hrun₂
  have hplaced := ChkStr.placed (x := s.world.str b.ptr) hflag (p := c.ptr) (n := l.length)
    (by omega) (h.offset_lt hc) hsize (by omega)
  have hstr₂ : w₂.str b.ptr = ((s.world.str b.ptr).setDataPtr c.ptr).setStrLen l.length := by
    rw [h₂.str_eq]
    change (⟨(w₁.target b.ptr).write 32 13 l.length⟩ : ChkStr) = _
    rw [h₁.target]
    rfl
  rw [← hstr₂] at hplaced
  rcases hplaced with ⟨hflag₂, hptr₂, hlen₂⟩
  have hcStr := h₂.isOpen.cStrAt_long hb hflag₂ hc hptr₂
  change ChkStr.cStrAt (w₂.addrOf b.ptr) w₂ = .ok (w₂.addrOf c.ptr, w₂) at hcStr
  rcases h₂.isOpen.storeBytes_ok hc (a := 0) (d := l) (by omega) with
    ⟨w₃, hrun₃, h₃, hindex₃, htarget₃, hothers₃⟩
  rcases h₃.storeBytes_ok hc (a := l.length) (d := [0]) (by simp; omega) with
    ⟨w₄, hrun₄, h₄, hindex₄, htarget₄, hothers₄⟩
  have haddr₃ : w₃.addrOf c.ptr = w₂.addrOf c.ptr := by
    unfold World.addrOf
    rw [hindex₃]
  change storeBytes (w₂.addrOf c.ptr) l w₂ = .ok ((), w₃) at hrun₃
  change storeBytes ((w₃.addrOf c.ptr).add l.length) [0] w₃ = .ok ((), w₄) at hrun₄
  rw [haddr₃] at hrun₄
  rw [haddr₂ b.ptr] at hcStr
  have hbne : b.ptr ≠ c.ptr := fun heq => hne heq.symm
  have hkept : World.KeepsBlock w₂ w₄ b.ptr :=
    fun j hj => (hothers₄ b hb hbne j hj).trans (hothers₃ b hb hbne j hj)
  have hsame := hkept.same hpos
  have hflag₄ := hsame.flag_eq.trans hflag₂
  have hptr₄ := hsame.dataPtr_eq.trans hptr₂
  have hbytes : (w₄.target c.ptr).bytes 0 (l.length + 1) = l ++ [0] := by
    have hsame : forall j, j < 64 * c.ptr.size ->
        w₃.target c.ptr j = (w₂.target c.ptr).writeBytes 0 l j :=
      fun j _ => congrFun htarget₃ j
    rw [htarget₄]
    exact Bits.bytes_finished hfit hsame
  refine ⟨w₄, ?_, h₄, hindex₄.trans (hindex₃.trans (h₂.index.trans h₁.index)),
    .long hlen hflag₄ hptr₄ hc (hsame.strLen_eq.trans hlen₂) hfit hbytes, ?_, ?_, ?_⟩
  · unfold ChkStr.placeAt
    rw [Exec.bind_of_ok hrun₁, Exec.bind_of_ok hrun₂, Exec.bind_of_ok hcStr,
      Exec.bind_of_ok hrun₃, hrun₄]
  · rw [ChkStr.owned_long hflag₄, hptr₄]
  · intro j hj hj'
    rw [hkept j hj', h₂.target, h₂.rest j hj]
    change w₁.target b.ptr j = _
    rw [h₁.target, h₁.rest j hj]
  · intro d hd hdb hdc j hj
    exact (hothers₄ d hd hdc j hj).trans ((hothers₃ d hd hdc j hj).trans
      ((h₂.others d hd hdb j hj).trans (h₁.others d hd hdb j hj)))

structure Handed (env : Env) (s s₁ : Session) (p : ChkPtr) (n : Int) : Prop where
  isOpen : Open env s₁
  kept : forall c, c ∈ s.live -> World.KeepsBlock s.world s₁.world c.ptr
  addr : forall c, c ∈ s.live -> s₁.world.addrOf c.ptr = s.world.addrOf c.ptr
  live : s₁.live = ⟨p, n⟩ :: s.live
  fit : n ≤ 8 * p.size
  size : p.size < 2 ^ 9
  fresh : forall c, c ∈ s.live -> c.ptr ≠ p

namespace Handed

variable {s₁ : Session} {p : ChkPtr} {n : Int}

theorem self_mem (h : Handed env s s₁ p n) : (⟨p, n⟩ : Live) ∈ s₁.live := by
  rw [h.live]
  exact List.mem_cons_self

theorem mem_of (h : Handed env s s₁ p n) {c : Live} (hc : c ∈ s.live) : c ∈ s₁.live := by
  rw [h.live]
  exact List.mem_cons_of_mem _ hc

theorem placeNew_ensures (h : Handed env s s₁ p n) (hb : b ∈ s.live)
    (hflag : (s.world.str b.ptr).owned = none) (hlen : 8 ≤ l.length)
    (hn : n = l.length + 1) :
    Exec.Ensures ((do
        Prog.mem (store (s.world.addrOf b.ptr) ⟨56, 8⟩ 1)
        Prog.mem (ChkStr.placeAt (s.world.addrOf b.ptr) p l)
        pure 0 : Prog Int) s₁) (PlacedPost env s b l) (Expected env) := by
  have hb₁ := h.mem_of hb
  have haddrb := h.addr b hb
  have hfit := h.fit
  rcases h.isOpen.store_header hb₁ (f := ⟨56, 8⟩) (by decide) 1 with ⟨w₂, hstore, h₂⟩
  rw [haddrb] at hstore
  have haddr₂ := (h₂.addr_eq b.ptr).trans haddrb
  have hflag₂ : (w₂.str b.ptr).flag = 1 := by
    rw [h₂.str_eq]
    exact Bits.read_write_of_lt (by decide)
  rcases h₂.isOpen.placeAt_ok hb₁ h.self_mem (fun heq => h.fresh b hb heq.symm) hflag₂ hlen
    (by simp only; omega) h.size with ⟨w₃, hplace, h₃⟩
  change ChkStr.placeAt (w₂.addrOf b.ptr) p l w₂ = .ok ((), w₃) at hplace
  rw [haddr₂] at hplace
  rw [Exec.bind_of_ok (Prog.mem_of_ok hstore), Exec.bind_of_ok (Prog.mem_of_ok hplace)]
  refine ⟨h₃.isOpen, ?_, ?_, ?_, Or.inl ⟨rfl, h₃.shows, ?_, ?_⟩⟩
  · intro d hd
    rw [h₃.addr_eq]
    exact (h₂.addr_eq d.ptr).trans (h.addr d hd)
  · intro j hj hj'
    rw [h₃.rest j hj hj']
    change w₂.target b.ptr j = _
    rw [h₂.target, h₂.rest j hj]
    exact h.kept b hb j hj'
  · refine fun d hd _ => ⟨h.mem_of hd, fun hdb j hj => ?_⟩
    rw [h₃.others d (h.mem_of hd) hdb (h.fresh d hd) j hj]
    exact (h₂.others d (h.mem_of hd) hdb j hj).trans (h.kept d hd j hj)
  · intro d hd
    change d ∈ s₁.live at hd
    rw [h.live] at hd
    rcases List.mem_cons.mp hd with rfl | hd
    · exact Or.inr h₃.owned
    · rw [hflag]
      exact Or.inl ⟨hd, nofun⟩
  · intro d hd heq
    rw [h₃.owned] at heq
    exact absurd (Option.some.inj heq).symm (h.fresh d hd)

theorem replaceOld_ensures (h : Handed env s s₁ p n) (hopen : Open env s) (hb : b ∈ s.live)
    {c : Live} (hc : c ∈ s.live) (hcne : c.ptr ≠ b.ptr) (hflag : (s.world.str b.ptr).flag = 1)
    (hptr : (s.world.str b.ptr).dataPtr = c.ptr)
    (hsome : (s.world.str b.ptr).owned = some c.ptr) (hlen : 8 ≤ l.length)
    (hn : n = l.length + 1) :
    Exec.Ensures ((do
        ChkStr.freeAt env (s.world.addrOf b.ptr)
        Prog.mem (ChkStr.placeAt (s.world.addrOf b.ptr) p l)
        pure 0 : Prog Int) s₁) (PlacedPost env s b l) (Expected env) := by
  have hpos := hopen.size_pos hb
  have hfit := h.fit
  have hc₁ := h.mem_of hc
  have hsame₁ := (h.kept b hb).same hpos
  have hload : loadPtr (s.world.addrOf b.ptr) s₁.world = .ok (c.ptr, s₁.world) := by
    rw [← h.addr b hb, h.isOpen.loadPtr_block (h.mem_of hb)]
    exact congrArg (fun p => Except.ok (p, s₁.world)) (hsame₁.dataPtr_eq.trans hptr)
  unfold ChkStr.freeAt
  rw [Exec.bind_assoc, Exec.bind_of_ok (Prog.mem_of_ok hload)]
  refine Exec.Ensures.bind ((h.isOpen.free_stays hc₁).mono (fun _ _ hq => hq)
    fun _ he => Or.inr he) ?_
  rintro _ s₂ ⟨hpost, hindex⟩
  have hmem₂ : forall d, d ∈ s₂.live <-> d ∈ s₁.live ∧ d.ptr ≠ c.ptr :=
    fun d => hpost.mem_iff h.isOpen hc₁
  have hb₂ := (hmem₂ b).mpr ⟨h.mem_of hb, fun heq => hcne heq.symm⟩
  have hself₂ := (hmem₂ _).mpr ⟨h.self_mem, fun heq => h.fresh c hc heq.symm⟩
  have hsame₂ := World.KeepsBlock.same (hpost.kept b hb₂) hpos
  have haddr₂ : forall d, d ∈ s.live -> s₂.world.addrOf d.ptr = s.world.addrOf d.ptr := by
    intro d hd
    have hd₁ := h.addr d hd
    unfold World.addrOf at hd₁ ⊢
    rw [hindex]
    exact hd₁
  have hflag₂ : (s₂.world.str b.ptr).flag = 1 :=
    hsame₂.flag_eq.trans (hsame₁.flag_eq.trans hflag)
  rcases hpost.isOpen.placeAt_ok hb₂ hself₂ (fun heq => h.fresh b hb heq.symm) hflag₂ hlen
    (by simp only; omega) h.size with ⟨w₃, hplace, h₃⟩
  change ChkStr.placeAt (s₂.world.addrOf b.ptr) p l s₂.world = .ok ((), w₃) at hplace
  rw [haddr₂ b hb] at hplace
  rw [Exec.bind_of_ok (Prog.mem_of_ok hplace)]
  refine ⟨h₃.isOpen, ?_, ?_, ?_, Or.inl ⟨rfl, h₃.shows, ?_, ?_⟩⟩
  · intro d hd
    rw [h₃.addr_eq]
    exact haddr₂ d hd
  · intro j hj hj'
    rw [h₃.rest j hj hj', hpost.kept b hb₂ j hj']
    exact h.kept b hb j hj'
  · intro d hd hdne
    have hdc : d.ptr ≠ c.ptr := fun heq => hdne (by rw [hsome, heq])
    have hd₂ := (hmem₂ d).mpr ⟨h.mem_of hd, hdc⟩
    refine ⟨hd₂, fun hdb j hj => ?_⟩
    rw [h₃.others d hd₂ hdb (h.fresh d hd) j hj, hpost.kept d hd₂ j hj]
    exact h.kept d hd j hj
  · intro d hd
    change d ∈ s₂.live at hd
    have hmem := (hmem₂ d).mp hd
    rw [h.live] at hmem
    rcases List.mem_cons.mp hmem.1 with rfl | hd
    · exact Or.inr h₃.owned
    · rw [hsome]
      exact Or.inl ⟨hd, fun heq => hmem.2 (Option.some.inj heq).symm⟩
  · intro d hd heq
    rw [h₃.owned] at heq
    exact absurd (Option.some.inj heq).symm (h.fresh d hd)

end Handed

theorem setNewAt_ensures (h : Open env s) (hb : b ∈ s.live)
    (hx : (s.world.str b.ptr).Shows s lx) (hown : (s.world.str b.ptr).owned ≠ some b.ptr)
    (hlen : 8 ≤ l.length) (hmax : l.length < 2 ^ 31 - 16) {n : Int} (hn : n = l.length + 1) :
    Exec.Ensures (ChkStr.setNewAt env (s.world.addrOf b.ptr) l n s) (PlacedPost env s b l)
      (Expected env) := by
  unfold ChkStr.setNewAt
  refine Exec.Ensures.bind (h.alloc_stays (by omega) (by omega)) ?_
  rintro p s₁ ⟨⟨h₁, hkept₁, hout⟩, haddr₁⟩
  rcases hout with ⟨hnull, hlive⟩ | ⟨hnull, hlive, hfit, hsize, hfresh⟩
  · -- refused
    rw [if_pos hnull]
    refine ⟨h₁, haddr₁, fun j _ hj => hkept₁ b hb j hj, ?_, Or.inr ⟨rfl, hlive, hkept₁⟩⟩
    exact fun c hc _ => ⟨hlive ▸ hc, fun _ => hkept₁ c hc⟩
  · have hhanded : Handed env s s₁ p n := ⟨h₁, hkept₁, haddr₁, hlive, hfit, hsize, hfresh⟩
    have hsame₁ := (hkept₁ b hb).same (h.size_pos hb)
    have hflag₁ : load (s.world.addrOf b.ptr) ⟨56, 8⟩ s₁.world =
        .ok ((s.world.str b.ptr).flag, s₁.world) := by
      rw [← haddr₁ b hb, ← hsame₁.flag_eq]
      exact h₁.load_block (hhanded.mem_of hb) (by decide)
    rw [if_neg hnull, Exec.bind_of_ok (Prog.mem_of_ok hflag₁)]
    rcases hx.cases_flag with ⟨hflag, hnone⟩ | ⟨c, hc, hflag, hptr, hsome, -⟩
    · rw [if_neg (by omega)]
      exact hhanded.placeNew_ensures hb hnone hlen hn
    · rw [if_pos (by omega)]
      exact hhanded.replaceOld_ensures h hb hc (fun heq => hown (by rw [hsome, heq])) hflag hptr
        hsome hlen hn

theorem setDataAt_ensures (h : Open env s) (hb : b ∈ s.live)
    (hx : (s.world.str b.ptr).Shows s lx) (hown : (s.world.str b.ptr).owned ≠ some b.ptr)
    (hmax : l.length < 2 ^ 31 - 16) :
    Exec.Ensures (ChkStr.setDataAt env (s.world.addrOf b.ptr) l s) (PlacedPost env s b l)
      (Expected env) := by
  have hflag₀ : load (s.world.addrOf b.ptr) ⟨56, 8⟩ s.world =
    .ok ((s.world.str b.ptr).flag, s.world) := h.load_block hb (by decide)
  have hlen₀ : load (s.world.addrOf b.ptr) ⟨32, 13⟩ s.world =
    .ok ((s.world.str b.ptr).strLen, s.world) := h.load_block hb (by decide)
  have hrun₀ : Prog.mem (load (s.world.addrOf b.ptr) ⟨56, 8⟩) s =
    .ok ((s.world.str b.ptr).flag, s) := Prog.mem_of_ok hflag₀
  have hrun₁ : Prog.mem (load (s.world.addrOf b.ptr) ⟨32, 13⟩) s =
    .ok ((s.world.str b.ptr).strLen, s) := Prog.mem_of_ok hlen₀
  have hwrap : wrapInt ((l.length : Int) + 1) = (l.length : Int) + 1 :=
    wrapInt_of_lt (by omega) (by omega)
  unfold ChkStr.setDataAt
  generalize wrapInt ((l.length : Int) + 1) = n at hwrap ⊢
  by_cases hshort : l.length ≤ 7
  · rw [if_pos hshort]
    exact h.setShortAt_ensures hb hx hown hshort
  · rw [if_neg hshort, Exec.bind_of_ok hrun₀, Exec.bind_of_ok hrun₁]
    by_cases hplace : (s.world.str b.ptr).flag ≠ 0 ∧ (s.world.str b.ptr).strLen ≥ l.length
    · rw [if_pos hplace]
      rcases hx.cases_flag with ⟨hflag, -⟩ | ⟨c, hc, hflag, hptr, hsome, hstr, hfit, -⟩
      · exact absurd hflag hplace.1
      · have hcne : c.ptr ≠ b.ptr := fun heq => hown (by rw [hsome, heq])
        have hbound : (s.world.str b.ptr).strLen < 2 ^ 13 := Bits.read_lt _ _ _
        rcases h.rewriteAt_ok hb hc hcne hflag hptr (l := l) (by omega) (by omega) (by omega) with
          ⟨w', hrun, hset⟩
        rw [Exec.bind_of_ok (Prog.mem_of_ok hrun)]
        refine ⟨hset.isOpen, ?_, hset.rest, ?_, Or.inl ⟨rfl, hset.shows, ?_, ?_⟩⟩
        · exact fun d _ => hset.addr_eq d.ptr
        · intro d hd hdne
          rw [hsome] at hdne
          exact ⟨hd, fun hdb => hset.others d hd hdb fun heq => hdne (by rw [heq])⟩
        · intro d hd
          rw [hsome, hset.owned]
          by_cases heq : d.ptr = c.ptr
          · exact Or.inr (by rw [heq])
          · exact Or.inl ⟨hd, fun hcon => heq (Option.some.inj hcon).symm⟩
        · intro d _ heq
          rw [hsome, ← hset.owned]
          exact heq
    · rw [if_neg hplace]
      exact h.setNewAt_ensures hb hx hown (by omega) hmax hwrap

/-- `uninit` gives the block of the string back; its eight bytes stay. -/
theorem uninitAt_ensures (h : Open env s) (hb : b ∈ s.live)
    (hx : (s.world.str b.ptr).Shows s lx) :
    Exec.Ensures (ChkStr.uninitAt env (s.world.addrOf b.ptr) s)
      (fun _ s' => Open env s' ∧ s'.world.index = s.world.index ∧
        (forall d, d ∈ s'.live <-> d ∈ s.live ∧ (s.world.str b.ptr).owned ≠ some d.ptr) ∧
        forall d, d ∈ s'.live -> World.KeepsBlock s.world s'.world d.ptr)
      (Content.PoolFault env.freeSize) := by
  have hload : load (s.world.addrOf b.ptr) ⟨56, 8⟩ s.world =
    .ok ((s.world.str b.ptr).flag, s.world) := h.load_block hb (by decide)
  unfold ChkStr.uninitAt
  rw [Exec.bind_of_ok (Prog.mem_of_ok hload)]
  rcases hx.cases_flag with ⟨hflag, hnone⟩ | ⟨c, hc, hflag, hptr, hsome, -⟩
  · rw [if_neg (by omega), hnone]
    exact ⟨h, rfl, fun d => ⟨fun hd => ⟨hd, nofun⟩, fun hd => hd.1⟩, fun _ _ _ _ => rfl⟩
  · have hptr' : loadPtr (s.world.addrOf b.ptr) s.world = .ok (c.ptr, s.world) := by
      rw [h.loadPtr_block hb]
      exact congrArg (fun p => Except.ok (p, s.world)) hptr
    rw [if_pos (by omega), hsome]
    unfold ChkStr.freeAt
    rw [Exec.bind_of_ok (Prog.mem_of_ok hptr')]
    refine (h.free_stays hc).mono ?_ fun _ he => he
    rintro _ s₁ ⟨hpost, hindex⟩
    refine ⟨hpost.isOpen, hindex, fun d => ?_, hpost.kept⟩
    rw [hpost.mem_iff h hc]
    constructor
    · exact fun hd => ⟨hd.1, fun heq => hd.2 (Option.some.inj heq).symm⟩
    · exact fun hd => ⟨hd.1, fun heq => hd.2 (by rw [heq])⟩

end Open

end ChunkMem
