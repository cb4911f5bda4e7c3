import ChunkMem.Session.Contents

/-!
# Programs over the blocks they hold

Code that keeps data structures in an index allocates and frees blocks and works on
their memory.  Such code runs in sessions, so that the blocks it holds are known;
what it may rely on is stated here, apart from contents and layouts.
-/

namespace ChunkMem

open Foundation

abbrev Prog (α : Type) := Exec Session Fault α

namespace Prog

def mem {α : Type} (x : M α) : Prog α := fun s =>
  match x s.world with
  | .ok (a, w') => .ok (a, ⟨w', s.live⟩)
  | .error e => .error e

variable (env : Env)

/-- `chk_index->alloc`. -/
def alloc (n : Int) : Prog ChkPtr := fun s =>
  match ChkIndex.alloc env n s.world with
  | .ok (p, w') => .ok (p, ⟨w', (Call.alloc n).holds s.live w' (.block p)⟩)
  | .error e => .error e

/-- `chk_index->free`. -/
def free (p : ChkPtr) : Prog Unit := fun s =>
  match ChkIndex.free env p 0 s.world with
  | .ok (_, w') => .ok ((), ⟨w', (Call.free p).holds s.live w' .done⟩)
  | .error e => .error e

variable {env} {α : Type} {s : Session}

theorem mem_of_ok {x : M α} {a : α} {w' : World} (h : x s.world = .ok (a, w')) :
    mem x s = .ok (a, ⟨w', s.live⟩) := by
  unfold mem
  rw [h]

end Prog

/-- The memory a chunk pointer designates, from its first bit on. -/
def World.target (w : World) (p : ChkPtr) : Bits := (w.chunkBits p.chkNo).drop (32 * p.offset)

def World.addrOf (w : World) (p : ChkPtr) : Ptr :=
  (w.index.chkAddr p.chkNo).add (chkOffset p.offset)

def World.KeepsBlock (w w' : World) (p : ChkPtr) : Prop :=
  forall j, j < 64 * p.size -> w'.target p j = w.target p j

/-- The blocks of a session are in order, and the index is not compressed. -/
def Open (env : Env) (s : Session) : Prop :=
  s.world.index.compressed = false ∧ exists c L, Valid env s c L

/-!
## Blocks and contents
-/

theorem Live.mem_eraseP {live : List Live} {l l' : Live} (hnodup : (live.map Live.ptr).Nodup)
    (hl : l ∈ live) :
    l' ∈ live.eraseP (fun x => decide (x.ptr = l.ptr)) <-> l' ∈ live ∧ l'.ptr ≠ l.ptr := by
  induction live with
  | nil => simp at hl
  | cons x rest ih =>
      rw [List.map_cons, List.nodup_cons] at hnodup
      by_cases hx : x.ptr = l.ptr
      · rw [List.eraseP_cons_of_pos (by simpa using hx)]
        constructor
        · intro hmem
          refine ⟨List.mem_cons_of_mem _ hmem, fun heq => hnodup.1 ?_⟩
          rw [hx, ← heq]
          exact List.mem_map_of_mem hmem
        · rintro ⟨hmem, hne⟩
          rcases List.mem_cons.mp hmem with rfl | hmem
          · exact absurd hx hne
          · exact hmem
      · rw [List.eraseP_cons_of_neg (by simpa using hx), List.mem_cons, List.mem_cons]
        have hl' : l ∈ rest := (List.mem_cons.mp hl).resolve_left fun heq => hx (by rw [heq])
        rw [ih hnodup.2 hl']
        constructor
        · rintro (rfl | ⟨hmem, hne⟩)
          · exact ⟨Or.inl rfl, hx⟩
          · exact ⟨Or.inr hmem, hne⟩
        · rintro ⟨rfl | hmem, hne⟩
          · exact Or.inl rfl
          · exact Or.inr ⟨hmem, hne⟩

namespace Valid

variable {env : Env} {s s' : Session} {c c' : Content} {L L' : Layout} {l : Live}

theorem target_bit (h : Valid env s c L) (hflag : s.world.index.compressed = false)
    (hl : l ∈ s.live) {j : Nat} (hj : j < 64 * l.ptr.size) :
    s.world.target l.ptr j = (c.body l.ptr.chkNo).bits (32 * l.ptr.offset + j) := by
  have hu := h.stored.uncompressed hflag
  have hbound := h.wf.tiling.block_bound (mem_block hl) (h.pos l hl)
  have hfit := hu.fits.virgin_le _ hbound.1
  have hreach := env.le_reach (hu.fits.cap_le _ hbound.1)
  have hptr := h.ptr l hl
  have hlen : l.block.len = l.ptr.size := rfl
  have hoff : 32 * l.ptr.offset = 64 * l.block.start := by
    rw [hptr, blockPtr_offset]
    omega
  exact (hu.image _ hbound.1).data _ (by omega) (by omega)

theorem keepsBlock {bs : List Block} (h : Valid env s c L) (h' : Valid env s' c' L')
    (hflag : s.world.index.compressed = false) (hflag' : s'.world.index.compressed = false)
    (hkept : Content.KeepsBits bs c c') (hl : l ∈ s.live) (hl' : l ∈ s'.live)
    (hmem : l.block ∈ bs) : World.KeepsBlock s.world s'.world l.ptr := by
  intro j hj
  have hlen : l.block.len = l.ptr.size := rfl
  have hoff : 32 * l.ptr.offset = 64 * l.block.start := by
    rw [h.ptr l hl, blockPtr_offset]
    omega
  have hcov := Extent.covers_le_cover hmem l.block.space ((32 * l.ptr.offset + j) / 64)
  have hself := Extent.covers_of (e := l.block) (u := (32 * l.ptr.offset + j) / 64) (by omega)
    (by omega)
  rw [h.target_bit hflag hl hj, h'.target_bit hflag' hl' hj]
  exact hkept l.block.space ((32 * l.ptr.offset + j) / 64) (by omega) _ (by omega) (by omega)

theorem change (h : Valid env s c L) (hflag : s.world.index.compressed = false)
    (hl : l ∈ s.live) (lo n : Nat) (hlo : 32 * l.ptr.offset ≤ lo)
    (hn : lo + n ≤ 32 * l.ptr.offset + 64 * l.ptr.size) {m : Bits}
    (hm : forall j, j < lo ∨ lo + n ≤ j -> m j = s.world.chunkBits l.ptr.chkNo j) :
    exists b : Bits, Valid env ⟨s.world.setChunk l.ptr.chkNo m, s.live⟩
        (c.setBits l.ptr.chkNo b) L ∧
      (forall j, j < lo ∨ lo + n ≤ j -> b j = (c.body l.ptr.chkNo).bits j) ∧
      forall j, lo ≤ j -> j < lo + n -> m j = b j := by
  have hu := h.stored.uncompressed hflag
  have hbound := h.wf.tiling.block_bound (mem_block hl) (h.pos l hl)
  have hspace : l.block.space = l.ptr.chkNo := rfl
  have hlen : l.block.len = l.ptr.size := rfl
  have hoff : 32 * l.ptr.offset = 64 * l.block.start := by
    rw [h.ptr l hl, blockPtr_offset]
    omega
  have hfit := hu.fits.virgin_le _ hbound.1
  rw [hspace] at hbound hfit
  let b : Bits := fun j => if lo ≤ j ∧ j < lo + n then m j else (c.body l.ptr.chkNo).bits j
  have hb : forall j, j < lo ∨ lo + n ≤ j -> b j = (c.body l.ptr.chkNo).bits j :=
    fun j hj => if_neg (by omega)
  have hbm : forall j, lo ≤ j -> j < lo + n -> m j = b j :=
    fun j hj1 hj2 => (if_pos ⟨hj1, hj2⟩).symm
  have h' := hu.setUser (k := l.ptr.chkNo) (m := m) (b := b) hbound.1 lo n (by omega) (by omega)
    hm hb hbm
  have hwf' : Content.WF env.freeSize (s.live.map Live.block) (c.setBits l.ptr.chkNo b) := by
    refine ⟨h.wf.tiling.setBits ?_, h.wf.accounts.setBits _ _⟩
    intro j hne
    have hcov := Extent.covers_le_cover (mem_block hl) l.ptr.chkNo (j / 64)
    have hin : lo ≤ j ∧ j < lo + n := by
      by_contra hcon
      exact hne (hb j (by omega))
    have hself := Extent.covers_of (e := l.block) (u := j / 64) (by omega) (by omega)
    rw [hspace] at hself
    omega
  exact ⟨b, ⟨Or.inl h', h.settled, hwf', h.ptr, h.pos, h.size⟩, hb, hbm⟩

theorem nodup (h : Valid env s c L) : (s.live.map Live.ptr).Nodup := by
  have hblocks : (s.live.map Live.block).Nodup := by
    rw [List.nodup_iff_count_le_one]
    intro b
    by_contra hcon
    have hpos : b ∈ s.live.map Live.block := List.count_pos_iff.mp (by omega)
    rcases List.mem_map.mp hpos with ⟨l, hl, rfl⟩
    have hlen : 0 < l.block.len := h.pos l hl
    have hmem : l.block ∈ (s.live.map Live.block).erase l.block := by
      apply List.count_pos_iff.mp
      rw [List.count_erase_self]
      omega
    have hone := h.wf.tiling.cover_le_one l.block.space l.block.start
    rw [Extent.cover_erase hpos] at hone
    have hself := Extent.covers_of (e := l.block) (Nat.le_refl _) (by omega)
    have hmore := Extent.covers_le_cover hmem l.block.space l.block.start
    omega
  have hmap : (s.live.map Live.ptr).map (fun p => (⟨p.chkNo, p.offset / 2, p.size⟩ : Block)) =
      s.live.map Live.block := by
    rw [List.map_map]
    rfl
  rw [← hmap] at hblocks
  exact hblocks.of_map _

end Valid

/-!
## What a program relies on
-/

namespace Open

variable {env : Env} {s : Session} {l : Live}

theorem nodup (h : Open env s) : (s.live.map Live.ptr).Nodup := by
  rcases h.2 with ⟨c, L, hv⟩
  exact hv.nodup

theorem size_pos (h : Open env s) (hl : l ∈ s.live) : 0 < l.ptr.size := by
  rcases h.2 with ⟨c, L, hv⟩
  exact hv.pos l hl

/-- What `alloc` leaves. -/
structure AllocPost (env : Env) (s : Session) (n : Int) (p : ChkPtr) (s' : Session) : Prop where
  isOpen : Open env s'
  kept : forall l, l ∈ s.live -> World.KeepsBlock s.world s'.world l.ptr
  outcome : (p.IsNull ∧ s'.live = s.live) ∨
    (¬p.IsNull ∧ s'.live = ⟨p, n⟩ :: s.live ∧ n ≤ 8 * p.size ∧ p.size < 2 ^ 9 ∧
      forall l, l ∈ s.live -> l.ptr ≠ p)

theorem alloc_ensures (h : Open env s) {n : Int} (hpos : 0 < n) (hn : n < 2 ^ 31 - 7) :
    Exec.Ensures (Prog.alloc env n s) (AllocPost env s n) (Expected env) := by
  rcases h with ⟨hflag, c, L, hv⟩
  have hu := hv.stored.uncompressed hflag
  have hkept : forall {s'} {c' L'}, Valid env s' c' L' -> s'.world.index.compressed = false ->
      (forall l, l ∈ s.live -> l ∈ s'.live) ->
      Content.KeepsBits (s.live.map Live.block) c c' ->
      forall l, l ∈ s.live -> World.KeepsBlock s.world s'.world l.ptr := by
    intro s' c' L' hv' hflag' hsub hbits l hl
    exact hv.keepsBlock hv' hflag hflag' hbits hl (hsub l hl) (Valid.mem_block hl)
  unfold Prog.alloc
  by_cases hsmall : n ≤ 4088
  · have hout := hu.content_alloc_ensures hv.wf hpos hsmall
    have hrun := hu.alloc_ensures hv.wf hv.settled hpos hsmall
    have hnull : chkNull.IsNull := rfl
    cases hw : ChkIndex.alloc env n s.world with
    | error e =>
        rw [hw] at hrun
        exact hrun
    | ok pw =>
        rcases pw with ⟨p, w'⟩
        rw [hw] at hrun
        have hsame : forall {L'}, p = chkNull -> Uncompressed env w' c L' -> Settled c L' ->
            AllocPost env s n p ⟨w', (Call.alloc n).holds s.live w' (.block p)⟩ := by
          intro L' hp h' hset'
          rw [hp, Call.holds_alloc, if_pos hnull]
          have hv' : Valid env ⟨w', s.live⟩ c L' :=
            ⟨Or.inl h', hset', hv.wf, hv.ptr, hv.pos, hv.size⟩
          exact ⟨⟨h'.flag, c, L', hv'⟩, hkept hv' h'.flag (fun _ hl => hl) (.refl _ _),
            Or.inl ⟨hnull, rfl⟩⟩
        rcases hrun with ⟨-, -, -, hp, rfl⟩ | ⟨c', L', hc', h', hset', -⟩ | ⟨hp, -, h'⟩
        · exact hsame hp hu hv.settled
        · rcases hout.of_ok hc' with ⟨hp, -, rfl⟩ | ⟨b, rfl, hb, hwf', hbits⟩
          · exact hsame hp h' hset'
          · rcases hv.cons hpos hb h' hset' hwf' with ⟨hp, hv'⟩
            have hnodup := hv'.nodup
            simp only [List.map_cons, List.nodup_cons] at hnodup
            simp only [Call.holds_alloc, if_neg hp]
            refine ⟨⟨h'.flag, c', L', hv'⟩, hkept hv' h'.flag
              (fun _ hl => List.mem_cons_of_mem _ hl) hbits, Or.inr ⟨hp, rfl, ?_, ?_, ?_⟩⟩
            · exact hv'.size _ List.mem_cons_self
            · have hlen := Uncompressed.units_bound hpos hsmall
              rw [blockPtr_size]
              omega
            · intro l hl heq
              apply hnodup.1
              rw [← heq]
              exact List.mem_map_of_mem hl
        · exact hsame hp h' hv.settled
  · have hnull : chkNull.IsNull := rfl
    rw [Stored.alloc_large (by omega) hn]
    simp only [Exec.ensures_ok, Call.holds_alloc, if_pos hnull]
    exact ⟨⟨hflag, c, L, hv⟩, fun _ _ _ _ => rfl, Or.inl ⟨hnull, rfl⟩⟩

/-- What `free` leaves. -/
structure FreePost (env : Env) (s : Session) (l : Live) (s' : Session) : Prop where
  isOpen : Open env s'
  live : s'.live = s.live.eraseP fun x => decide (x.ptr = l.ptr)
  kept : forall l', l' ∈ s'.live -> World.KeepsBlock s.world s'.world l'.ptr

theorem FreePost.mem_iff {s' : Session} (h : Open env s) (hpost : FreePost env s l s')
    (hl : l ∈ s.live) {l' : Live} : l' ∈ s'.live <-> l' ∈ s.live ∧ l'.ptr ≠ l.ptr := by
  rw [hpost.live]
  exact Live.mem_eraseP h.nodup hl

theorem free_ensures (h : Open env s) (hl : l ∈ s.live) :
    Exec.Ensures (Prog.free env l.ptr s) (fun _ s' => FreePost env s l s')
      (Content.PoolFault env.freeSize) := by
  have hopen := h
  rcases h with ⟨hflag, c, L, hv⟩
  have hu := hv.stored.uncompressed hflag
  have hfree := hu.free_ensures hv.wf (Valid.mem_block hl) (hv.pos l hl)
  rw [← hv.ptr l hl] at hfree
  unfold Prog.free
  cases hw : ChkIndex.free env l.ptr 0 s.world with
  | error e =>
      rw [hw] at hfree
      exact hfree
  | ok rw' =>
      rcases rw' with ⟨u, w'⟩
      rw [hw] at hfree
      rcases hfree with ⟨c', -, h', hwf', hbits, hnum⟩
      have hset' : Settled c' L := by
        unfold Settled
        rw [hnum]
        exact hv.settled
      have hv' := hv.erase hl h' hset' hwf'
      rw [Exec.ensures_ok, Call.holds_free, if_neg (by rw [h'.flag]; decide)]
      refine ⟨⟨h'.flag, c', L, hv'⟩, rfl, fun l' hl' => ?_⟩
      have hmem := (Live.mem_eraseP hopen.nodup hl).mp hl'
      refine hv.keepsBlock hv' hflag h'.flag hbits hmem.1 hl' ?_
      refine (List.mem_erase_of_ne ?_).mpr (Valid.mem_block hmem.1)
      intro heq
      exact hmem.2 ((hv.block_iff hl hmem.1).mpr heq)

/-!
### Memory of blocks
-/

theorem apart (h : Open env s) {l' : Live} (hl : l ∈ s.live) (hl' : l' ∈ s.live)
    (hne : l'.ptr ≠ l.ptr) (hno : l'.ptr.chkNo = l.ptr.chkNo) {j : Nat}
    (hj : 32 * l.ptr.offset ≤ j ∧ j < 32 * l.ptr.offset + 64 * l.ptr.size) :
    ¬(32 * l'.ptr.offset ≤ j ∧ j < 32 * l'.ptr.offset + 64 * l'.ptr.size) := by
  rintro ⟨hlo, hhi⟩
  rcases h.2 with ⟨c, L, hv⟩
  have hoff : 32 * l.ptr.offset = 64 * l.block.start := by
    rw [hv.ptr l hl, blockPtr_offset]
    omega
  have hoff' : 32 * l'.ptr.offset = 64 * l'.block.start := by
    rw [hv.ptr l' hl', blockPtr_offset]
    omega
  have hlen : l.block.len = l.ptr.size := rfl
  have hlen' : l'.block.len = l'.ptr.size := rfl
  have hmem : l'.block ∈ (s.live.map Live.block).erase l.block := by
    refine (List.mem_erase_of_ne fun heq => hne ?_).mpr (Valid.mem_block hl')
    exact (hv.block_iff hl hl').mpr heq
  have hone := hv.wf.tiling.cover_le_one l.block.space (j / 64)
  rw [Extent.cover_erase (Valid.mem_block hl)] at hone
  have hself := Extent.covers_of (e := l.block) (u := j / 64) (by omega) (by omega)
  have hother := Extent.covers_of (e := l'.block) (u := j / 64) (by omega) (by omega)
  have hmore := Extent.covers_le_cover hmem l'.block.space (j / 64)
  have hspace : l'.block.space = l.block.space := hno
  rw [hspace] at hother hmore
  omega

theorem chkNo_lt (h : Open env s) (hl : l ∈ s.live) :
    l.ptr.chkNo < s.world.index.chkNum := by
  rcases h.2 with ⟨c, L, hv⟩
  rw [(hv.stored.uncompressed h.1).num]
  exact (hv.wf.tiling.block_bound (Valid.mem_block hl) (hv.pos l hl)).1

theorem chkNum_le (h : Open env s) : s.world.index.chkNum ≤ 2047 := by
  rcases h.2 with ⟨c, L, hv⟩
  rw [(hv.stored.uncompressed h.1).num]
  exact hv.wf.tiling.num_le

theorem offset_lt (h : Open env s) (hl : l ∈ s.live) : l.ptr.offset < 2 ^ 12 := by
  rcases h.2 with ⟨c, L, hv⟩
  have hbound := hv.wf.tiling.block_bound (Valid.mem_block hl) (hv.pos l hl)
  have hvirgin := hv.wf.tiling.virgin_le _ hbound.1
  have hpos := hv.pos l hl
  have hlen : l.block.len = l.ptr.size := rfl
  rw [hv.ptr l hl, blockPtr_offset]
  omega

theorem chkPtr2addr_ok (h : Open env s) {p : ChkPtr} (hp : p.chkNo < s.world.index.chkNum) :
    chkPtr2addr p s.world = .ok (s.world.addrOf p, s.world) := by
  rcases h.2 with ⟨c, L, hv⟩
  have hu := hv.stored.uncompressed h.1
  rw [hu.num] at hp
  exact hu.tracks.chkPtr2addr_ok hp

theorem change (h : Open env s) (hl : l ∈ s.live) (lo n : Nat) (hlo : 32 * l.ptr.offset ≤ lo)
    (hn : lo + n ≤ 32 * l.ptr.offset + 64 * l.ptr.size) {m : Bits}
    (hm : forall j, j < lo ∨ lo + n ≤ j -> m j = s.world.chunkBits l.ptr.chkNo j) :
    Open env ⟨s.world.setChunk l.ptr.chkNo m, s.live⟩ ∧
    forall l', l' ∈ s.live -> forall j, 32 * l'.ptr.offset ≤ j ->
      j < 32 * l'.ptr.offset + 64 * l'.ptr.size ->
      (s.world.setChunk l.ptr.chkNo m).chunkBits l'.ptr.chkNo j =
        if l'.ptr.chkNo = l.ptr.chkNo then m j else s.world.chunkBits l'.ptr.chkNo j := by
  have hflag := h.1
  rcases h.2 with ⟨c, L, hv⟩
  rcases hv.change hflag hl lo n hlo hn hm with ⟨b, hv', hb, hbm⟩
  refine ⟨⟨hflag, _, L, hv'⟩, ?_⟩
  intro l' hl' j hj1 hj2
  have hoff' : 32 * l'.ptr.offset = 64 * l'.block.start := by
    rw [hv.ptr l' hl', blockPtr_offset]
    omega
  have hbit := hv.target_bit hflag hl' (j := j - 32 * l'.ptr.offset) (by omega)
  have hbit' := hv'.target_bit hflag hl' (j := j - 32 * l'.ptr.offset) (by omega)
  unfold World.target at hbit hbit'
  rw [Bits.drop_apply, show 32 * l'.ptr.offset + (j - 32 * l'.ptr.offset) = j by omega]
    at hbit hbit'
  rw [hbit', Content.setBits_bits]
  split
  · next heq =>
      by_cases hin : lo ≤ j ∧ j < lo + n
      · exact (hbm j hin.1 hin.2).symm
      · rw [hb j (by omega), hm j (by omega), ← heq, hbit]
  · exact hbit.symm

theorem inside (h : Open env s) (hl : l ∈ s.live) {o n : Nat}
    (hn : 8 * o + n ≤ 32 * l.ptr.offset + 64 * l.ptr.size) :
    s.world.sys.Inside ((s.world.index.chkAddr l.ptr.chkNo).add o) n := by
  rcases h.2 with ⟨c, L, hv⟩
  have hu := hv.stored.uncompressed h.1
  have hbound := hv.wf.tiling.block_bound (Valid.mem_block hl) (hv.pos l hl)
  have hoff : 32 * l.ptr.offset = 64 * l.block.start := by
    rw [hv.ptr l hl, blockPtr_offset]
    omega
  have hlen : l.block.len = l.ptr.size := rfl
  have hfit := hu.fits.virgin_le _ hbound.1
  exact hu.inside (k := l.block.space) hbound.1 (by omega)

theorem addrOf_add (w : World) (p : ChkPtr) (n : Nat) :
    (w.addrOf p).add n = (w.index.chkAddr p.chkNo).add (4 * p.offset + n) := by
  unfold World.addrOf
  simp only [Ptr.add, chkOffset]
  congr 1
  omega

theorem loadBytes_ok (h : Open env s) (hl : l ∈ s.live) {a n : Nat}
    (hle : a + n ≤ 8 * l.ptr.size) :
    loadBytes ((s.world.addrOf l.ptr).add a) n s.world =
      .ok ((s.world.target l.ptr).bytes a n, s.world) := by
  have hin := h.inside hl (o := 4 * l.ptr.offset + a) (n := 8 * n) (by omega)
  have hload := loadBytes_at hin
  rw [addrOf_add, hload]
  congr 2
  apply Bits.bytes_congr
  intro i hi
  unfold World.target
  rw [Bits.drop_apply]
  congr 1
  omega

theorem storeBytes_ok (h : Open env s) (hl : l ∈ s.live) {a : Nat} {d : List Byte}
    (hle : a + d.length ≤ 8 * l.ptr.size) :
    exists w', storeBytes ((s.world.addrOf l.ptr).add a) d s.world = .ok ((), w') ∧
      Open env ⟨w', s.live⟩ ∧ w'.index = s.world.index ∧
      w'.target l.ptr = (s.world.target l.ptr).writeBytes a d ∧
      forall l', l' ∈ s.live -> l'.ptr ≠ l.ptr -> World.KeepsBlock s.world w' l'.ptr := by
  have hin := h.inside hl (o := 4 * l.ptr.offset + a) (n := 8 * d.length) (by omega)
  have hchange := h.change hl (8 * (4 * l.ptr.offset + a)) (8 * d.length) (by omega)
    (by omega) (m := (s.world.chunkBits l.ptr.chkNo).writeBytes (4 * l.ptr.offset + a) d)
    fun j hj => Bits.writeBytes_outside (by omega)
  refine ⟨_, ?_, hchange.1, rfl, ?_, ?_⟩
  · rw [addrOf_add]
    exact storeBytes_at hin
  · unfold World.target
    rw [setChunk_chunkBits_self]
    funext j
    rw [Bits.drop_apply]
    by_cases hj : 8 * a ≤ j ∧ j < 8 * a + 8 * d.length
    · rw [Bits.writeBytes_inside (by omega) (by omega),
        Bits.writeBytes_inside (by omega) (by omega)]
      congr 1
      omega
    · rw [Bits.writeBytes_outside (by omega), Bits.writeBytes_outside (by omega),
        Bits.drop_apply]
  · intro l' hl' hne j hj
    unfold World.target
    rw [Bits.drop_apply, Bits.drop_apply, hchange.2 l' hl' _ (by omega) (by omega)]
    split
    · next hno =>
        have hout := h.apart hl' hl (fun heq => hne heq.symm) hno.symm
          (j := 32 * l'.ptr.offset + j) (by omega)
        rw [Bits.writeBytes_outside (by omega), hno]
    · rfl

end Open

end ChunkMem
