import ChunkMem.Memory.Calls
import ChunkMem.Memory.DefaultMemAlloc
import ChunkMem.Session.Calls

/-!
# What the count says

`_alloc_size` of `ChkDefaultMemAlloc` is the memory that is out, in both modes of
`reallocate`, but for the calls of `::realloc` that failed.
-/

namespace ChunkMem

open Foundation

/-- Memory that is out, and the bytes that are known from its beginning on. -/
structure CountedBlock where
  ptr : Ptr
  size : Nat
  data : List Byte
deriving DecidableEq

namespace CountedBlock

/-- What `reallocate` leaves of a block when it returns `q`. -/
def moved (b : CountedBlock) (q : Ptr) (size : Nat) : List CountedBlock :=
  if size = 0 then []
  else if q = Ptr.null then [b]
  else [⟨q, size, b.data.take size⟩]

/-- What `reallocate` counts although it failed. -/
def missed (b : CountedBlock) (q : Ptr) (size : Nat) : Int :=
  if size ≠ 0 ∧ q = Ptr.null then (size : Int) - b.size else 0

/-- What is known after a store.  Behind bytes nobody wrote it adds nothing. -/
def written (b : CountedBlock) (pos : Nat) (l : List Byte) : CountedBlock :=
  if pos ≤ b.data.length then
    { b with data := b.data.take pos ++ l ++ b.data.drop (pos + l.length) }
  else b

section Written

variable (b : CountedBlock) (pos : Nat) (l : List Byte)

@[simp] theorem written_ptr : (b.written pos l).ptr = b.ptr := by
  unfold written
  split <;> rfl

@[simp] theorem written_size : (b.written pos l).size = b.size := by
  unfold written
  split <;> rfl

end Written

end CountedBlock

/-- The runs of a program that gives the sizes of its blocks as it obtained them: the blocks that
are out, and what was counted for calls that failed. -/
inductive CountReach (env : Env) (m₀ : ChkDefaultMemAlloc) :
    ChkDefaultMemAlloc -> List CountedBlock -> Int -> Prop where
  | start : CountReach env m₀ m₀ [] 0
  | init {m m' : ChkDefaultMemAlloc} {blocks : List CountedBlock} {drift : Int} {fix : Bool} :
      CountReach env m₀ m blocks drift -> ChkDefaultMemAlloc.init fix m = .ok ((), m') ->
      CountReach env m₀ m' blocks drift
  | alloc {m m' : ChkDefaultMemAlloc} {blocks : List CountedBlock} {drift : Int} {size : Nat}
      {p : Ptr} :
      CountReach env m₀ m blocks drift -> ChkDefaultMemAlloc.alloc env size m = .ok (p, m') ->
      CountReach env m₀ m' (⟨p, size, []⟩ :: blocks) drift
  | reallocate {m m' : ChkDefaultMemAlloc} {l₁ l₂ : List CountedBlock} {b : CountedBlock}
      {drift : Int} {size : Nat} {q : Ptr} :
      CountReach env m₀ m (l₁ ++ b :: l₂) drift ->
      ChkDefaultMemAlloc.reallocate env b.ptr b.size size m = .ok (q, m') ->
      CountReach env m₀ m' (l₁ ++ (b.moved q size ++ l₂)) (drift + b.missed q size)
  | dellocate {m m' : ChkDefaultMemAlloc} {l₁ l₂ : List CountedBlock} {b : CountedBlock}
      {drift : Int} :
      CountReach env m₀ m (l₁ ++ b :: l₂) drift ->
      ChkDefaultMemAlloc.dellocate b.ptr b.size m = .ok ((), m') ->
      CountReach env m₀ m' (l₁ ++ l₂) drift
  | store {m m' : ChkDefaultMemAlloc} {l₁ l₂ : List CountedBlock} {b : CountedBlock}
      {drift : Int} {pos : Nat} {l : List Byte} :
      CountReach env m₀ m (l₁ ++ b :: l₂) drift -> pos + l.length ≤ b.size ->
      ChkDefaultMemAlloc.mem (storeBytes (b.ptr.add pos) l) m = .ok ((), m') ->
      CountReach env m₀ m' (l₁ ++ b.written pos l :: l₂) drift

/-!
## The memory
-/

/-- The blocks are those that came to the memory of `w₀`, and hold their bytes. -/
structure HeapInv (w₀ w : World) (blocks : List CountedBlock) : Prop where
  sane : Sane w.sys
  owned : forall b, b ∈ blocks -> b.ptr.off = 0 ∧
    w.sys.allocs b.ptr.blk = some ⟨.system, b.size⟩ ∧ w₀.sys.allocs b.ptr.blk = none
  once : (blocks.map fun b => b.ptr.blk).Nodup
  data : forall b, b ∈ blocks -> b.data.length ≤ b.size ∧
    (w.bits b.ptr.blk).bytes 0 b.data.length = b.data
  all : forall k a, w.sys.allocs k = some a ->
    w₀.sys.allocs k = some a ∨ exists b, b ∈ blocks ∧ b.ptr.blk = k
  base : forall k a, w₀.sys.allocs k = some a ->
    w.sys.allocs k = some a ∧ w.bits k = w₀.bits k
  later : w₀.sys.next ≤ w.sys.next

theorem CountedBlock.written_data (b : CountedBlock) {m : Bits} {pos : Nat} {l : List Byte}
    (hlen : b.data.length ≤ b.size) (hl : pos + l.length ≤ b.size)
    (hdata : m.bytes 0 b.data.length = b.data) :
    (b.written pos l).data.length ≤ b.size ∧
      (m.writeBytes pos l).bytes 0 (b.written pos l).data.length = (b.written pos l).data := by
  unfold written
  by_cases hpos : pos ≤ b.data.length
  · rw [if_pos hpos]
    have hhead : b.data.take pos = m.bytes 0 pos := by
      rw [← hdata, Bits.take_bytes, Nat.min_eq_left hpos]
    have htail : b.data.drop (pos + l.length) =
        m.bytes (pos + l.length) (b.data.length - (pos + l.length)) := by
      rcases Nat.le_total (pos + l.length) b.data.length with hle | hle
      · have hall := Bits.bytes_append m 0 (pos + l.length) (b.data.length - (pos + l.length))
        rw [Nat.add_sub_cancel' hle, hdata, Nat.zero_add] at hall
        exact (congrArg (List.drop (pos + l.length)) hall).trans
          (List.drop_left' (Bits.length_bytes _ _ _))
      · rw [List.drop_eq_nil_of_le hle, Nat.sub_eq_zero_of_le hle]
        rfl
    have hlength : (b.data.take pos ++ l ++ b.data.drop (pos + l.length)).length =
        pos + l.length + (b.data.length - (pos + l.length)) := by
      rw [List.length_append, List.length_append, List.length_take, List.length_drop,
        Nat.min_eq_left hpos]
    refine ⟨?_, ?_⟩
    · rw [hlength]
      omega
    · rw [hlength, Bits.bytes_append, Bits.bytes_append, Nat.zero_add, Nat.zero_add,
        Bits.bytes_writeBytes, Bits.bytes_writeBytes_outside (Or.inl (by omega)),
        Bits.bytes_writeBytes_outside (Or.inr (by omega)), ← hhead, ← htail]
  · rw [if_neg hpos]
    refine ⟨hlen, ?_⟩
    rw [Bits.bytes_writeBytes_outside (Or.inl (by omega))]
    exact hdata

theorem World.view_of_off {w : World} {p : Ptr} (h : p.off = 0) : w.view p = w.bits p.blk := by
  funext j
  unfold World.view
  rw [h, Bits.drop_apply, Nat.mul_zero, Nat.zero_add]

namespace HeapInv

variable {env : Env} {w₀ w : World} {blocks blocks' : List CountedBlock} {b : CountedBlock}

theorem start (h : Sane w.sys) : HeapInv w w [] := by
  refine ⟨h, fun b hb => ?_, List.nodup_nil, fun b hb => ?_, fun k a hk => Or.inl hk,
    fun k a hk => ⟨hk, rfl⟩, Nat.le_refl _⟩
  all_goals cases hb

theorem perm (h : HeapInv w₀ w blocks) (hp : blocks.Perm blocks') : HeapInv w₀ w blocks' := by
  refine ⟨h.sane, fun b hb => h.owned b (hp.mem_iff.mpr hb), (hp.map _).nodup_iff.mp h.once,
    fun b hb => h.data b (hp.mem_iff.mpr hb), fun k a hk => (h.all k a hk).imp_right ?_, h.base,
    h.later⟩
  rintro ⟨b, hb, heq⟩
  exact ⟨b, hp.mem_iff.mp hb, heq⟩

theorem skip (h : HeapInv w₀ w blocks) : HeapInv w₀ w.skipped blocks :=
  ⟨h.sane.skipped, h.owned, h.once, h.data, h.all, h.base, h.later⟩

theorem more (h : HeapInv w₀ w blocks) (h₀ : Sane w₀.sys) {size : Nat} {m : Bits}
    {data : List Byte} (hlen : data.length ≤ size) (hdata : m.bytes 0 data.length = data) :
    HeapInv w₀ (w.obtained .system size m) (⟨w.freshPtr, size, data⟩ :: blocks) := by
  have hne : forall b, b ∈ blocks -> b.ptr.blk ≠ w.sys.next :=
    fun b hb => h.sane.ne_next (h.owned b hb).2.1
  have hnew := World.obtained_allocs_self w .system size m
  have hold := fun {k : Nat} => World.obtained_allocs_other w .system size m (b := k)
  have hbits := fun {k : Nat} => World.obtained_bits_other w .system size m (b := k)
  refine ⟨h.sane.obtained _ _ _, ?_, ?_, ?_, ?_, ?_, Nat.le_succ_of_le h.later⟩
  · intro b hb
    rcases List.mem_cons.mp hb with rfl | hb
    · exact ⟨rfl, hnew, h₀.fresh _ h.later⟩
    · rw [hold (hne b hb)]
      exact h.owned b hb
  · refine List.nodup_cons.mpr ⟨fun hmem => ?_, h.once⟩
    rcases List.mem_map.mp hmem with ⟨b, hb, heq⟩
    exact hne b hb heq
  · intro b hb
    rcases List.mem_cons.mp hb with rfl | hb
    · refine ⟨hlen, ?_⟩
      have hself : (w.obtained .system size m).bits w.freshPtr.blk = m :=
        World.obtained_bits_self w .system size m
      rw [hself]
      exact hdata
    · rw [hbits (hne b hb)]
      exact h.data b hb
  · intro k a hk
    by_cases heq : k = w.sys.next
    · exact Or.inr ⟨_, List.mem_cons_self, heq.symm⟩
    · rw [hold heq] at hk
      refine (h.all k a hk).imp_right ?_
      rintro ⟨b, hb, hblk⟩
      exact ⟨b, List.mem_cons_of_mem _ hb, hblk⟩
  · intro k a hk
    rcases h.base k a hk with ⟨hk', hsame⟩
    have hne' := h.sane.ne_next hk'
    rw [hold hne', hbits hne']
    exact ⟨hk', hsame⟩

theorem less (h : HeapInv w₀ w (b :: blocks)) : HeapInv w₀ (w.released b.ptr.blk) blocks := by
  have hne : forall c, c ∈ blocks -> c.ptr.blk ≠ b.ptr.blk :=
    fun c hc heq => (List.nodup_cons.mp h.once).1
      (List.mem_map.mpr ⟨c, hc, heq⟩)
  have hb := h.owned b List.mem_cons_self
  refine ⟨h.sane.released _, ?_, (List.nodup_cons.mp h.once).2, ?_, ?_, ?_, h.later⟩
  · intro c hc
    rw [World.released_allocs_other w (hne c hc)]
    exact h.owned c (List.mem_cons_of_mem b hc)
  · exact fun c hc => h.data c (List.mem_cons_of_mem b hc)
  · intro k a hk
    by_cases heq : k = b.ptr.blk
    · rw [heq, World.released_allocs_self] at hk
      cases hk
    · rw [World.released_allocs_other w heq] at hk
      refine (h.all k a hk).imp_right ?_
      rintro ⟨c, hc, hblk⟩
      rcases List.mem_cons.mp hc with rfl | hc
      · exact absurd hblk.symm heq
      · exact ⟨c, hc, hblk⟩
  · intro k a hk
    have hne' : k ≠ b.ptr.blk := by
      rintro rfl
      rw [hb.2.2] at hk
      cases hk
    rw [World.released_allocs_other w hne']
    exact h.base k a hk

theorem write (h : HeapInv w₀ w (b :: blocks)) {pos : Nat} {l : List Byte}
    (hl : pos + l.length ≤ b.size) :
    HeapInv w₀ (w.setView b.ptr ((w.view b.ptr).writeBytes pos l))
      (b.written pos l :: blocks) := by
  have hb := h.owned b List.mem_cons_self
  have hne : forall c, c ∈ blocks -> c.ptr.blk ≠ b.ptr.blk :=
    fun c hc heq => (List.nodup_cons.mp h.once).1 (List.mem_map.mpr ⟨c, hc, heq⟩)
  refine ⟨h.sane, ?_, ?_, ?_, ?_, ?_, h.later⟩
  · intro c hc
    rcases List.mem_cons.mp hc with rfl | hc
    · rw [CountedBlock.written_ptr, CountedBlock.written_size]
      exact hb
    · exact h.owned c (List.mem_cons_of_mem b hc)
  · rw [List.map_cons, CountedBlock.written_ptr]
    exact h.once
  · intro c hc
    rcases List.mem_cons.mp hc with rfl | hc
    · rcases h.data b List.mem_cons_self with ⟨hlen, hdata⟩
      have hview : (w.setView b.ptr ((w.view b.ptr).writeBytes pos l)).bits b.ptr.blk =
          (w.view b.ptr).writeBytes pos l := by
        rw [← World.view_of_off hb.1, World.view_setView]
      rw [← World.view_of_off hb.1] at hdata
      rw [CountedBlock.written_ptr, CountedBlock.written_size, hview]
      exact b.written_data hlen hl hdata
    · rw [World.setView_bits_other w b.ptr _ (hne c hc)]
      exact h.data c (List.mem_cons_of_mem b hc)
  · intro k a hk
    refine (h.all k a hk).imp_right ?_
    rintro ⟨c, hc, hblk⟩
    rcases List.mem_cons.mp hc with rfl | hc
    · exact ⟨_, List.mem_cons_self, by rw [CountedBlock.written_ptr]; exact hblk⟩
    · exact ⟨c, List.mem_cons_of_mem _ hc, hblk⟩
  · intro k a hk
    have hne' : k ≠ b.ptr.blk := by
      rintro rfl
      rw [hb.2.2] at hk
      cases hk
    rw [World.setView_bits_other w b.ptr _ hne']
    exact h.base k a hk

theorem inside (h : HeapInv w₀ w blocks) (hb : b ∈ blocks) {pos n : Nat}
    (hn : pos + n ≤ b.size) : w.sys.Inside (b.ptr.add pos) (8 * n) := by
  rcases h.owned b hb with ⟨hoff, halloc, -⟩
  refine ⟨_, halloc, ?_⟩
  simp only [Ptr.add, hoff]
  omega

theorem ne_null (h : HeapInv w₀ w blocks) (hb : b ∈ blocks) : b.ptr ≠ Ptr.null := by
  intro heq
  rcases h.owned b hb with ⟨-, halloc, -⟩
  rw [heq, show Ptr.null.blk = 0 from rfl, h.sane.null] at halloc
  cases halloc

theorem owns (h : HeapInv w₀ w blocks) (hb : b ∈ blocks) : w.sys.Owns .system b.ptr := by
  rcases h.owned b hb with ⟨hoff, halloc, -⟩
  refine ⟨hoff, ?_⟩
  rw [halloc]
  rfl

theorem free_ok (h : HeapInv w₀ w (b :: blocks)) :
    ChkDefaultMemAlloc.freePtr b.ptr w = .ok ((), w.released b.ptr.blk) := by
  unfold ChkDefaultMemAlloc.freePtr
  rw [if_neg (h.ne_null List.mem_cons_self)]
  exact release_ok (h.owns List.mem_cons_self)

/-- The bytes of a block are copied to memory that was just obtained, and the block is given
back. -/
theorem move (h : HeapInv w₀ w (b :: blocks)) (h₀ : Sane w₀.sys) (size : Nat) (junk : Bits) :
    exists m, memcpy w.freshPtr b.ptr (min b.size size) (w.obtained .system size junk) =
        .ok ((), w.obtained .system size m) ∧
      HeapInv w₀ (w.obtained .system size m)
        (b :: ⟨w.freshPtr, size, b.data.take size⟩ :: blocks) := by
  have hb := h.owned b List.mem_cons_self
  rcases h.data b List.mem_cons_self with ⟨hlen, hdata⟩
  have hne := h.sane.ne_next hb.2.1
  have hsrc : (w.obtained .system size junk).sys.Inside b.ptr (8 * min b.size size) := by
    refine ⟨⟨.system, b.size⟩, ?_, ?_⟩
    · rw [World.obtained_allocs_other w .system size junk hne]
      exact hb.2.1
    · rw [hb.1]
      simp only
      omega
  have hdst : (w.obtained .system size junk).sys.Inside w.freshPtr (8 * min b.size size) :=
    World.obtained_inside w .system size junk (o := 0) (by omega)
  have hrun := memcpy_at hsrc hdst
  rw [World.view_obtained_self, World.obtained_setView] at hrun
  refine ⟨_, hrun, HeapInv.perm ?_ (List.Perm.swap _ _ _)⟩
  refine h.more h₀ ?_ ?_
  · rw [List.length_take]
    exact Nat.min_le_left _ _
  · rw [World.view_of_off hb.1, World.obtained_bits_other w .system size junk hne]
    have hbytes := Bits.take_bytes (w.bits b.ptr.blk) 0 b.data.length size
    rw [hdata] at hbytes
    rw [hbytes, Bits.length_bytes]
    refine Bits.bytes_congr fun i hi => ?_
    rw [Bits.copy_inside (by omega) (by omega)]
    congr 1
    omega

end HeapInv

/-!
## The functions
-/

namespace ChkDefaultMemAlloc

variable {env : Env} {w₀ : World} {m m' : ChkDefaultMemAlloc} {blocks : List CountedBlock}
variable {b : CountedBlock}

theorem mem_ok {α : Type} {x : M α} {a : α} {w : World} (h : x m.world = .ok (a, w)) :
    mem x m = .ok (a, { m with world := w }) := by
  unfold mem
  rw [h]

theorem malloc_cases (env : Env) (w : World) (size : Nat) :
    malloc env size w = .ok (w.freshPtr, w.obtained .system size (env.junk w.sys.next)) ∨
      (¬env.AllOk ∧ malloc env size w = .ok (Ptr.null, w.skipped)) := by
  unfold malloc
  rw [Exec.bind_of_ok (Exec.state_apply w)]
  exact obtain_cases env w .system size _

theorem alloc_ensures (h : HeapInv w₀ m.world blocks) (h₀ : Sane w₀.sys) (size : Nat) :
    Exec.Ensures (alloc env size m)
      (fun p m' => HeapInv w₀ m'.world (⟨p, size, []⟩ :: blocks) ∧
        m'.allocSize = (m.allocSize + size) % 2 ^ 64) (Tolerated env) := by
  unfold alloc
  rcases malloc_cases env m.world size with hrun | ⟨hfail, hrun⟩
  · rw [Exec.bind_of_ok (mem_ok hrun),
      Exec.bind_of_ok (Exec.require_of h.sane.freshPtr_ne_null _ _)]
    exact ⟨h.more h₀ (Nat.zero_le _) rfl, rfl⟩
  · rw [Exec.bind_of_ok (mem_ok hrun),
      Exec.bind_of_error (Exec.require_of_not (fun hne => hne rfl) _ _)]
    exact ⟨rfl, hfail⟩

theorem dellocate_ok (h : HeapInv w₀ m.world (b :: blocks)) :
    exists m', dellocate b.ptr b.size m = .ok ((), m') ∧ HeapInv w₀ m'.world blocks ∧
      m'.allocSize = (m.allocSize + (2 ^ 64 - b.size % 2 ^ 64)) % 2 ^ 64 := by
  unfold dellocate
  rw [Exec.bind_of_ok (mem_ok h.free_ok)]
  exact ⟨_, rfl, h.less, rfl⟩

/-- The body of `reallocate` in one of its modes. -/
def Moves (env : Env) (w₀ : World) (m : ChkDefaultMemAlloc) (b : CountedBlock)
    (blocks : List CountedBlock) (size : Nat) (q : Ptr) (m' : ChkDefaultMemAlloc) : Prop :=
  HeapInv w₀ m'.world (b.moved q size ++ blocks) ∧ m'.allocSize = m.allocSize ∧
    (size ≠ 0 -> q = Ptr.null -> ¬env.AllOk)

theorem moves_gone (h : HeapInv w₀ m.world (b :: blocks)) {size : Nat} (hzero : size = 0) :
    Moves env w₀ m b blocks size Ptr.null { m with world := m.world.released b.ptr.blk } := by
  have hmoved : b.moved Ptr.null size = [] := if_pos hzero
  refine ⟨?_, rfl, fun hne => absurd hzero hne⟩
  rw [hmoved]
  exact h.less

theorem moves_moved (h : HeapInv w₀ m.world (b :: blocks)) {size : Nat} {bits : Bits}
    (hsize : size ≠ 0) (hmove : HeapInv w₀ (m.world.obtained .system size bits)
      (b :: ⟨m.world.freshPtr, size, b.data.take size⟩ :: blocks)) :
    Moves env w₀ m b blocks size m.world.freshPtr
      { m with world := (m.world.obtained .system size bits).released b.ptr.blk } := by
  have hnull := h.sane.freshPtr_ne_null
  have hmoved : b.moved m.world.freshPtr size =
      [⟨m.world.freshPtr, size, b.data.take size⟩] := (if_neg hsize).trans (if_neg hnull)
  refine ⟨?_, rfl, fun _ heq => absurd heq hnull⟩
  rw [hmoved]
  exact hmove.less

theorem access_ok_same {p : Ptr} {n : Nat} {w w' : World} {u : Unit}
    (h : access p n w = .ok (u, w')) : w' = w := by
  unfold access at h
  split at h
  · cases h
    rfl
  · cases h

theorem memcpy_zero {p q : Ptr} {w w' : World} (h : memcpy p q 0 w = .ok ((), w')) : w' = w := by
  rcases Exec.ok_of_bind h with ⟨_, w₁, hsrc, hrest⟩
  rcases Exec.ok_of_bind hrest with ⟨_, w₂, hdst, hlast⟩
  cases access_ok_same hsrc
  cases access_ok_same hdst
  cases hlast
  have hcopy : (w.bits p.blk).copy (8 * p.off) (w.bits q.blk) (8 * q.off) (8 * 0) =
      w.bits p.blk :=
    funext fun j => Bits.copy_outside (by omega)
  change w.setBits p.blk _ = w
  rw [hcopy]
  unfold World.setBits
  rw [Function.update_eq_self]

theorem copyBytes_of_memcpy {p q : Ptr} {n : Nat} {w w' : World}
    (h : memcpy p q n w = .ok ((), w')) : copyBytes p q n w = .ok ((), w') := by
  unfold copyBytes
  by_cases hn : n = 0
  · subst hn
    rw [if_pos rfl, memcpy_zero h]
    rfl
  · rw [if_neg hn]
    exact h

theorem reallocFixed_ensures (h : HeapInv w₀ m.world (b :: blocks)) (h₀ : Sane w₀.sys)
    (size : Nat) : Exec.Ensures (reallocFixed env b.ptr b.size size m)
      (Moves env w₀ m b blocks size) (Tolerated env) := by
  unfold reallocFixed
  by_cases hsize : size = 0
  · rw [if_pos hsize, Exec.bind_of_ok (mem_ok h.free_ok)]
    exact moves_gone h hsize
  · rw [if_neg hsize]
    rcases malloc_cases env m.world size with hrun | ⟨hfail, hrun⟩
    · rcases h.move h₀ size (env.junk m.world.sys.next) with ⟨bits, hcopy, hmove⟩
      rw [Exec.bind_of_ok (mem_ok hrun),
        Exec.bind_of_ok (Exec.require_of h.sane.freshPtr_ne_null _ _)]
      rw [Exec.bind_of_ok (mem_ok (copyBytes_of_memcpy hcopy)),
        Exec.bind_of_ok (mem_ok hmove.free_ok)]
      exact moves_moved h hsize hmove
    · rw [Exec.bind_of_ok (mem_ok hrun),
        Exec.bind_of_error (Exec.require_of_not (fun hne => hne rfl) _ _)]
      exact ⟨rfl, hfail⟩

theorem sysRealloc_ensures (h : HeapInv w₀ m.world (b :: blocks)) (h₀ : Sane w₀.sys)
    (size : Nat) : Exec.Ensures (mem (sysRealloc env b.ptr size) m)
      (Moves env w₀ m b blocks size) (Tolerated env) := by
  have hown := h.owns List.mem_cons_self
  have halloc := (h.owned b List.mem_cons_self).2.1
  have hcode : forall q w, (if size = 0 then do
        sysFree b.ptr
        pure Ptr.null
      else do
        let q <- malloc env size
        if q = Ptr.null then pure q
        else do
          memcpy q b.ptr (min b.size size)
          sysFree b.ptr
          pure q : M Ptr) m.world = .ok (q, w) ->
      mem (sysRealloc env b.ptr size) m = .ok (q, { m with world := w }) := by
    intro q w hrun
    refine mem_ok ?_
    unfold sysRealloc
    rw [if_neg (h.ne_null List.mem_cons_self), Exec.bind_of_ok (Exec.state_apply _),
      Exec.bind_of_ok (Exec.require_of hown _ _), halloc]
    exact hrun
  by_cases hsize : size = 0
  · refine Exec.Ensures.of_eq (hcode _ _ ?_) (moves_gone h hsize)
    rw [if_pos hsize]
    exact (Exec.bind_of_ok (release_ok hown)).trans rfl
  · rcases malloc_cases env m.world size with hrun | ⟨hfail, hrun⟩
    · rcases h.move h₀ size (env.junk m.world.sys.next) with ⟨bits, hcopy, hmove⟩
      refine Exec.Ensures.of_eq (hcode _ _ ?_) (moves_moved h hsize hmove)
      rw [if_neg hsize, Exec.bind_of_ok hrun, if_neg h.sane.freshPtr_ne_null,
        Exec.bind_of_ok hcopy]
      exact (Exec.bind_of_ok (release_ok (hmove.owns List.mem_cons_self))).trans rfl
    · refine Exec.Ensures.of_eq (hcode Ptr.null m.world.skipped ?_) ?_
      · rw [if_neg hsize, Exec.bind_of_ok hrun, if_pos rfl]
        rfl
      · have hmoved : b.moved Ptr.null size = [b] := (if_neg hsize).trans (if_pos rfl)
        refine ⟨?_, rfl, fun _ _ => hfail⟩
        rw [hmoved]
        exact h.skip

theorem reallocate_ensures (h : HeapInv w₀ m.world (b :: blocks)) (h₀ : Sane w₀.sys)
    (size : Nat) : Exec.Ensures (reallocate env b.ptr b.size size m)
      (fun q m' => HeapInv w₀ m'.world (b.moved q size ++ blocks) ∧
        m'.allocSize = ((m.allocSize + size) % 2 ^ 64 + (2 ^ 64 - b.size % 2 ^ 64)) % 2 ^ 64 ∧
        (size ≠ 0 -> q = Ptr.null -> ¬env.AllOk)) (Tolerated env) := by
  have hbody : Exec.Ensures (newPtr env b.ptr b.size size m) (Moves env w₀ m b blocks size)
      (Tolerated env) := by
    unfold newPtr
    rw [Exec.bind_of_ok (Exec.state_apply m)]
    by_cases hfix : m.reallocFix = true
    · rw [if_pos hfix]
      exact reallocFixed_ensures h h₀ size
    · rw [if_neg hfix]
      exact sysRealloc_ensures h h₀ size
  unfold reallocate
  refine Exec.Ensures.bind hbody ?_
  rintro q m₁ ⟨hheap, hcount, hnull⟩
  rw [← hcount]
  exact ⟨hheap, rfl, hnull⟩

end ChkDefaultMemAlloc

/-!
## Runs
-/

def CountedBlock.total (blocks : List CountedBlock) : Nat :=
  (blocks.map fun b => b.size).sum

theorem CountedBlock.total_perm {blocks blocks' : List CountedBlock}
    (h : blocks.Perm blocks') : total blocks = total blocks' := (h.map _).sum_eq

theorem CountedBlock.total_cons (b : CountedBlock) (blocks : List CountedBlock) :
    total (b :: blocks) = b.size + total blocks := rfl

/-- What `reallocate` adds and subtracts is the change of what is out, but for what was
missed. -/
theorem CountedBlock.total_moved (b : CountedBlock) (q : Ptr) (size : Nat)
    (blocks : List CountedBlock) :
    (total (b.moved q size ++ blocks) : Int) + b.missed q size =
      total (b :: blocks) + size - b.size := by
  rw [total_cons]
  unfold moved missed
  by_cases hsize : size = 0
  · rw [if_pos hsize, if_neg (fun hcon => hcon.1 hsize), List.nil_append]
    omega
  · rw [if_neg hsize]
    by_cases hnull : q = Ptr.null
    · rw [if_pos hnull, if_pos ⟨hsize, hnull⟩, List.singleton_append, total_cons]
      omega
    · rw [if_neg hnull, if_neg (fun hcon => hnull hcon.2), List.singleton_append, total_cons]
      simp only
      omega

structure CountInv (env : Env) (w₀ : World) (m : ChkDefaultMemAlloc)
    (blocks : List CountedBlock) (drift : Int) : Prop where
  heap : HeapInv w₀ m.world blocks
  count : (m.allocSize : Int) = (CountedBlock.total blocks + drift) % 2 ^ 64
  exact : env.AllOk -> drift = 0

theorem CountReach.inv {env : Env} {m₀ m : ChkDefaultMemAlloc} {blocks : List CountedBlock}
    {drift : Int} (h₀ : Sane m₀.world.sys) (hzero : m₀.allocSize = 0)
    (h : CountReach env m₀ m blocks drift) : CountInv env m₀.world m blocks drift := by
  induction h with
  | start =>
      refine ⟨.start h₀, ?_, fun _ => rfl⟩
      rw [hzero]
      rfl
  | @init m m' blocks drift fix _ hrun ih =>
      cases hrun
      change CountInv env m₀.world (if 0 < m.allocSize then m else { m with reallocFix := fix })
        blocks drift
      by_cases hpos : 0 < m.allocSize
      · rw [if_pos hpos]
        exact ih
      · rw [if_neg hpos]
        exact ⟨ih.heap, ih.count, ih.exact⟩
  | alloc _ hrun ih =>
      rcases (ChkDefaultMemAlloc.alloc_ensures ih.heap h₀ _).of_ok hrun with ⟨hheap, hcount⟩
      refine ⟨hheap, ?_, ih.exact⟩
      have hold := ih.count
      rw [hcount, CountedBlock.total_cons]
      simp only
      omega
  | @reallocate m m' l₁ l₂ b drift size q _ hrun ih =>
      have hperm : (l₁ ++ b :: l₂).Perm (b :: (l₁ ++ l₂)) := List.perm_middle
      rcases (ChkDefaultMemAlloc.reallocate_ensures (ih.heap.perm hperm) h₀ size).of_ok hrun with
        ⟨hheap, hcount, hnull⟩
      have hswap : (b.moved q size ++ (l₁ ++ l₂)).Perm (l₁ ++ (b.moved q size ++ l₂)) := by
        rw [← List.append_assoc, ← List.append_assoc]
        exact List.perm_append_comm.append_right l₂
      refine ⟨hheap.perm hswap, ?_, fun hok => ?_⟩
      · have hold := ih.count
        have htotal := b.total_moved q size (l₁ ++ l₂)
        rw [CountedBlock.total_perm hperm] at hold
        rw [hcount, ← CountedBlock.total_perm hswap]
        omega
      · unfold CountedBlock.missed
        rw [if_neg fun hcon => hnull hcon.1 hcon.2 hok, ih.exact hok]
        rfl
  | @dellocate m m' l₁ l₂ b drift _ hrun ih =>
      have hperm : (l₁ ++ b :: l₂).Perm (b :: (l₁ ++ l₂)) := List.perm_middle
      rcases ChkDefaultMemAlloc.dellocate_ok (ih.heap.perm hperm) with ⟨m₁, hrun₁, hheap, hcount⟩
      cases hrun₁.symm.trans hrun
      refine ⟨hheap, ?_, ih.exact⟩
      have hold := ih.count
      rw [CountedBlock.total_perm hperm, CountedBlock.total_cons] at hold
      rw [hcount]
      omega
  | @store m m' l₁ l₂ b drift pos l _ hlen hrun ih =>
      have hperm : (l₁ ++ b :: l₂).Perm (b :: (l₁ ++ l₂)) := List.perm_middle
      have hperm' : (l₁ ++ b.written pos l :: l₂).Perm (b.written pos l :: (l₁ ++ l₂)) :=
        List.perm_middle
      have hheap := ih.heap.perm hperm
      have hstore := storeBytes_at (l := l) (hheap.inside List.mem_cons_self hlen)
      cases (ChkDefaultMemAlloc.mem_ok hstore).symm.trans hrun
      refine ⟨(hheap.write hlen).perm hperm'.symm, ?_, ih.exact⟩
      have hold := ih.count
      rw [CountedBlock.total_perm hperm, CountedBlock.total_cons] at hold
      rw [CountedBlock.total_perm hperm', CountedBlock.total_cons, CountedBlock.written_size]
      exact hold

/-- In every run of `alloc`, `reallocate`, `dellocate`, stores and `init`, in
both modes of `reallocate`: the count is what is out, up to what was counted for calls of
`::realloc` that failed, and this is nothing where no call fails; the blocks that are out
hold their bytes, of which `reallocate` keeps the first; they are all that the process has
beyond the memory it began with, and that is unchanged; and the functions on a block that is out
stop at most at the assertion that memory was obtained. -/
theorem CountReach.counts {env : Env} {m₀ m : ChkDefaultMemAlloc} {blocks : List CountedBlock}
    {drift : Int} (h₀ : Sane m₀.world.sys) (hzero : m₀.allocSize = 0)
    (h : CountReach env m₀ m blocks drift) :
    ((m.allocSize : Int) = (CountedBlock.total blocks + drift) % 2 ^ 64 ∧
      (env.AllOk -> drift = 0)) ∧
    (forall b, b ∈ blocks ->
      ChkDefaultMemAlloc.mem (loadBytes b.ptr b.data.length) m = .ok (b.data, m) ∧
      (exists m', ChkDefaultMemAlloc.dellocate b.ptr b.size m = .ok ((), m')) ∧
      forall size, Exec.Ensures (ChkDefaultMemAlloc.reallocate env b.ptr b.size size m)
        (fun _ _ => True) (Tolerated env)) ∧
    (blocks.map fun b => b.ptr.blk).Nodup ∧
    (forall k a, m.world.sys.allocs k = some a ->
      m₀.world.sys.allocs k = some a ∨ exists b, b ∈ blocks ∧ b.ptr.blk = k) ∧
    forall k a, m₀.world.sys.allocs k = some a ->
      m.world.sys.allocs k = some a ∧ m.world.bits k = m₀.world.bits k := by
  have hinv := h.inv h₀ hzero
  refine ⟨⟨hinv.count, hinv.exact⟩, fun b hb => ?_, hinv.heap.once, hinv.heap.all, hinv.heap.base⟩
  have hheap := hinv.heap.perm (List.perm_cons_erase hb)
  rcases hinv.heap.data b hb with ⟨hlen, hdata⟩
  rcases ChkDefaultMemAlloc.dellocate_ok hheap with ⟨m', hrun, -, -⟩
  refine ⟨?_, ⟨m', hrun⟩, fun size => ?_⟩
  · have hload := loadBytes_at (hinv.heap.inside hb (show 0 + b.data.length ≤ b.size by omega))
    rw [World.view_of_off (hinv.heap.owned b hb).1, hdata] at hload
    exact ChkDefaultMemAlloc.mem_ok hload
  · exact (ChkDefaultMemAlloc.reallocate_ensures hheap h₀ size).mono (fun _ _ _ => trivial)
      fun _ he => he

/-- A call of `::realloc` fails, and 76 bytes too many are counted. -/
theorem CountReach.counts_sample : exists (m : ChkDefaultMemAlloc) (b : CountedBlock) (drift : Int),
    b.size = 24 ∧ drift = 76 ∧ (m.allocSize : Int) = (CountedBlock.total [b] + drift) % 2 ^ 64 := by
  let env : Env := { Env.plain with ok := fun k => k == 0 }
  have hcode : ((do
      let p <- ChkDefaultMemAlloc.alloc env 24
      let q <- ChkDefaultMemAlloc.reallocate env p 24 100
      pure (decide (q = Ptr.null)) : CountProg Bool) ⟨World.boot, 0, false⟩).toOption.map
        Prod.fst = some true := by decide +kernel
  generalize hprog : ((do
      let p <- ChkDefaultMemAlloc.alloc env 24
      let q <- ChkDefaultMemAlloc.reallocate env p 24 100
      pure (decide (q = Ptr.null)) : CountProg Bool) ⟨World.boot, 0, false⟩) = x at hcode
  cases x with
  | error e => cases hcode
  | ok r =>
      rcases r with ⟨failed, m₂⟩
      rcases Exec.ok_of_bind hprog with ⟨p, m₁, halloc, hrest⟩
      rcases Exec.ok_of_bind hrest with ⟨q, m₂', hrealloc, hlast⟩
      cases hlast
      have hnull : q = Ptr.null := of_decide_eq_true (Option.some.inj hcode)
      subst hnull
      have hfirst : CountReach env _ m₁ ([] ++ ⟨p, 24, []⟩ :: []) 0 := .alloc .start halloc
      have hnext := CountReach.reallocate hfirst hrealloc
      exact ⟨m₂, ⟨p, 24, []⟩, 76, rfl, rfl,
        (CountReach.counts World.boot_fresh.sane rfl hnext).1.1⟩

end ChunkMem
