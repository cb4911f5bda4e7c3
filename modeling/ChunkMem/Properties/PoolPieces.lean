import ChunkMem.Arena.Pieces
import ChunkMem.Properties.Room
import ChunkMem.Properties.RoundTrip

/-!
# Freeing and reusing pool blocks tiles memory exactly

What the pool of an index does to its free lists, for any nonzero size classes: a block
that comes back is cut into pieces, a block that is taken is cut down to what was asked
for, and nothing else in the lists changes.
-/

namespace ChunkMem

open Foundation

/-- An index that is not compressed, the blocks that are out, and what its free lists link. -/
def Pool (env : Env) (w : World) (bs : List Block) (lists : Fin 3 -> List Slot) : Prop :=
  w.index.chkNum ≠ 0 ∧ (forall i, w.FreeList i ((lists i).map Slot.link)) ∧
    exists c L, Uncompressed env w c L ∧ Content.Tiling env.freeSize bs c

theorem Slot.link_inj {s t : Slot} (h : s.link = t.link) : s = t := by
  cases s
  cases t
  simp only [Slot.link, ChkPtr.mk.injEq, and_true] at h
  simp only [Slot.mk.injEq]
  omega

namespace Pool

variable {env : Env} {w : World} {bs : List Block} {lists : Fin 3 -> List Slot}

theorem content (h : Pool env w bs lists) : exists c L, Uncompressed env w c L ∧
    Content.Tiling env.freeSize bs c ∧ 0 < c.num ∧ c.lists = lists := by
  rcases h with ⟨hnum, hlists, c, L, hu, ht⟩
  have hpos : 0 < c.num := by
    rw [← hu.num]
    omega
  refine ⟨c, L, hu, ht, hpos, funext fun i => ?_⟩
  have hmine := hu.freeList_links ht hpos i
  have hlinks := hlists i
  unfold World.FreeList at hmine hlinks
  rw [if_neg hnum] at hmine hlinks
  exact List.map_injective_iff.mpr (fun _ _ => Slot.link_inj) (hmine.unique hlinks)

theorem of_content {c : Content} {L : Layout} (h : Uncompressed env w c L)
    (ht : Content.Tiling env.freeSize bs c) (hpos : 0 < c.num) : Pool env w bs c.lists := by
  have hnum : w.index.chkNum ≠ 0 := by
    rw [h.num]
    omega
  exact ⟨hnum, h.freeList_links ht hpos, c, L, h, ht⟩

theorem freeHead_null_iff (h : Pool env w bs lists) (i : Fin 3) :
    (w.freeHead i).IsNull <-> lists i = [] := by
  rcases h.content with ⟨c, L, hu, ht, hpos, rfl⟩
  exact hu.freeHead_null_iff ht (Nat.ne_of_gt hpos) i

theorem free (h : Pool env w bs lists) (hcls : env.ClassesNonzero) {b : Block} (hb : b ∈ bs)
    (hlen : 1 ≤ b.len) :
    exists w' ps, ChkMemMgr.free (Tracks.mgrAddr w) (blockPtr b) w = .ok ((), w') ∧
      Piece.Tile env.freeSize ps b ∧ Pool env w' (bs.erase b) (Piece.push ps lists) := by
  rcases h.content with ⟨c, L, hu, ht, hpos, rfl⟩
  have hbound := ht.block_bound hb hlen
  have hsplit : Content.Tiling env.freeSize
      ((⟨b.space, b.start⟩ : Slot).block b.len :: bs.erase b) c :=
    ht.perm (List.perm_cons_erase hb)
  have hv := ht.virgin_le b.space hbound.1
  have hoff : (blockPtr b).offset = 2 * b.start % 2 ^ 12 := by
    rw [blockPtr_offset]
    omega
  have hsim := poolFree_simulates hu.tracks (s := ⟨b.space, b.start⟩) (p := blockPtr b) rfl hoff
    hbound.1 hbound.2.1 hbound.2.2
  rcases Content.poolFree_pieces hcls ⟨b.space, b.start⟩ b.len c with
    ⟨ps, c', hrun, htile, hlists⟩
  have hlen' : (blockPtr b).size = b.len := rfl
  rcases (Content.poolFree_ensures _ _ hsplit).of_ok hrun with ⟨ht', hpooled⟩
  rw [hlen', hrun] at hsim
  have hpos' : 0 < c'.num := by
    rw [hpooled.marks.num]
    exact hpos
  generalize hx : ChkMemMgr.free (Tracks.mgrAddr w) (blockPtr b) w = x at hsim
  cases hsim with
  | ok htracks =>
      refine ⟨_, ps, rfl, htile, ?_⟩
      rw [← hlists]
      exact of_content htracks.rep ht' hpos'

/-- A request is refused and the lists stay as they are, or one block leaves them and the
pieces of its rest come back. -/
theorem alloc (h : Pool env w bs lists) (hcls : env.ClassesNonzero) (len : Nat) :
    exists p w', ChkMemMgr.alloc (Tracks.mgrAddr w) ((8 * len : Nat) : Int) w = .ok (p, w') ∧
      ((p = chkNull ∧ (forall i, len ≤ env.freeSize i -> lists i = []) ∧ Pool env w' bs lists) ∨
      (¬p.IsNull ∧ exists i s rest ps, len ≤ env.freeSize i ∧ lists i = s :: rest ∧
        p = blockPtr (s.block len) ∧
        Piece.Tile env.freeSize ps ((⟨s.no, s.off + len⟩ : Slot).block (env.freeSize i - len)) ∧
        Pool env w' (s.block len :: bs) (Piece.push ps (Function.update lists i rest)))) := by
  rcases h.content with ⟨c, L, hu, ht, hpos, rfl⟩
  have hsim := poolAlloc_simulates hu.tracks ht hpos len
  have hensures := Content.poolAlloc_ensures len ht
  generalize hx : ChkMemMgr.alloc (Tracks.mgrAddr w) ((8 * len : Nat) : Int) w = x at hsim
  rcases Content.poolAlloc_pieces hcls c len with ⟨hrun, hnone⟩ |
    ⟨i, s, rest, ps, c', hi, hl, hrun, htile, hlists⟩
  · rw [hrun] at hsim
    cases hsim with
    | ok htracks => exact ⟨_, _, rfl, Or.inl ⟨rfl, hnone, of_content htracks.rep ht hpos⟩⟩
  · rw [hrun] at hsim
    have hmem : s ∈ c.lists i := by
      rw [hl]
      exact List.mem_cons_self
    have hnum := (ht.slot_bound hmem).2.1
    have hle := ht.num_le
    have hnull : ¬(blockPtr (s.block len)).IsNull := by
      unfold ChkPtr.IsNull
      simp only [blockPtr_chkNo, Slot.block, chkMaxChkNum]
      omega
    rcases hensures.of_ok hrun with ⟨hcon, -⟩ | ⟨-, b, hb, hlen, htaken⟩
    · exact absurd hcon hnull
    · have hblock : b = s.block len := (Valid.blockPtr_inj hb).symm
      subst hblock
      have hpos' : 0 < c'.num := by
        rw [htaken.marks.num]
        exact hpos
      cases hsim with
      | ok htracks =>
          refine ⟨_, _, rfl, Or.inr ⟨hnull, i, s, rest, ps, hi, hl, rfl, htile, ?_⟩⟩
          rw [← hlists]
          exact of_content htracks.rep htaken.tiling hpos'

end Pool

theorem Reach.pool {env : Env} {s : Session} (h : Reach env CarefulCall s)
    (hflag : s.world.index.compressed = false) (hnum : s.world.index.chkNum ≠ 0) :
    exists lists, Pool env s.world (s.live.map Live.block) lists := by
  rcases h.careful with ⟨c, L, hv⟩
  have hu := hv.stored.uncompressed hflag
  have hpos : 0 < c.num := by
    rw [← hu.num]
    omega
  exact ⟨c.lists, .of_content hu hv.wf.tiling hpos⟩

/-- `ChkMemMgr::free` pushes disjoint pieces that tile a prefix of the block, each on
the list of its class; `ChkMemMgr::alloc` refuses exactly when no class that is large
enough has a block, and else takes one and pushes the pieces of its rest. -/
theorem Pool.tiles {env : Env} {w : World} {bs : List Block} {lists : Fin 3 -> List Slot}
    (h : Pool env w bs lists) (hcls : env.ClassesNonzero) :
    (forall b, b ∈ bs -> 1 ≤ b.len -> b.len ≤ 511 -> exists w' ps,
      ChkMemMgr.free (Tracks.mgrAddr w) (blockPtr b) w = .ok ((), w') ∧
      Piece.Tile env.freeSize ps b ∧
      (ps.map (Piece.block env.freeSize)).Pairwise Extent.Disjoint ∧
      Pool env w' (bs.erase b) (Piece.push ps lists)) ∧
    forall len : Nat, exists p w',
      ChkMemMgr.alloc (Tracks.mgrAddr w) ((8 * len : Nat) : Int) w = .ok (p, w') ∧
      (p = chkNull <-> forall i, len ≤ env.freeSize i -> lists i = []) ∧
      (p = chkNull -> Pool env w' bs lists) ∧
      (p ≠ chkNull -> exists i s rest ps, len ≤ env.freeSize i ∧ lists i = s :: rest ∧
        p = blockPtr (s.block len) ∧
        Piece.Tile env.freeSize ps ((⟨s.no, s.off + len⟩ : Slot).block (env.freeSize i - len)) ∧
        (ps.map (Piece.block env.freeSize)).Pairwise Extent.Disjoint ∧
        Pool env w' (s.block len :: bs) (Piece.push ps (Function.update lists i rest))) := by
  refine ⟨fun b hb hlen _ => ?_, fun len => ?_⟩
  · rcases h.free hcls hb hlen with ⟨w', ps, hrun, htile, hpool⟩
    exact ⟨w', ps, hrun, htile, htile.disjoint hcls, hpool⟩
  · rcases h.alloc hcls len with ⟨p, w', hrun, ⟨hp, hnone, hpool⟩ |
      ⟨hnull, i, s, rest, ps, hi, hl, hp, htile, hpool⟩⟩
    · exact ⟨p, w', hrun, ⟨fun _ => hnone, fun _ => hp⟩, fun _ => hpool,
        fun hne => absurd hp hne⟩
    · have hne : p ≠ chkNull := by
        rintro rfl
        exact hnull rfl
      refine ⟨p, w', hrun, ⟨fun heq => absurd heq hne, fun hnone => ?_⟩,
        fun heq => absurd heq hne,
        fun _ => ⟨i, s, rest, ps, hi, hl, hp, htile, htile.disjoint hcls, hpool⟩⟩
      rw [hnone i hi] at hl
      cases hl

section Sample

def longBlock : Session := Call.after Env.plain [.alloc 1280, .alloc 24] ⟨World.boot, []⟩

theorem longBlock_reach : Reach Env.plain CarefulCall longBlock := by
  unfold longBlock
  exact .after (.start World.boot_fresh) (by decide +kernel)

def World.pooled (w : World) (b : Block) : World :=
  match ChkMemMgr.free (Tracks.mgrAddr w) (blockPtr b) w with
  | .ok (_, w') => w'
  | .error _ => w

/-- The 160 units are cut into pieces of all three classes, and a request for 50 units cuts
the piece of 102 again. -/
theorem Pool.tiles_sample : exists lists ps w₁,
    ChkMemMgr.free (Tracks.mgrAddr longBlock.world) (blockPtr ⟨0, 5, 160⟩) longBlock.world =
        .ok ((), w₁) ∧
      Piece.Tile Env.plain.freeSize ps ⟨0, 5, 160⟩ ∧
      Pool Env.plain w₁ ((longBlock.live.map Live.block).erase ⟨0, 5, 160⟩)
        (Piece.push ps lists) ∧
      (forall i, Piece.push ps lists i ≠ []) ∧
      exists (p : ChkPtr) (w₂ : World) (i : Fin 3) (s : Slot) (qs : List Piece),
        ChkMemMgr.alloc (Tracks.mgrAddr w₁) 400 w₁ = .ok (p, w₂) ∧
        p = blockPtr (s.block 50) ∧ 50 ≤ Env.plain.freeSize i ∧ qs ≠ [] ∧
        Piece.Tile Env.plain.freeSize qs
          ((⟨s.no, s.off + 50⟩ : Slot).block (Env.plain.freeSize i - 50)) := by
  have hfacts : longBlock.world.index.compressed = false ∧ longBlock.world.index.chkNum ≠ 0 ∧
      (⟨0, 5, 160⟩ : Block) ∈ longBlock.live.map Live.block ∧
      forall i, ¬((longBlock.world.pooled ⟨0, 5, 160⟩).freeHead i).IsNull := by
    decide +kernel
  have hreach := longBlock_reach
  generalize longBlock = s at hreach hfacts ⊢
  rcases hfacts with ⟨hopen, hnum, hmem, hheads⟩
  rcases hreach.pool hopen hnum with ⟨lists, hpool⟩
  rcases (Pool.tiles hpool Env.plain_classesNonzero).1 ⟨0, 5, 160⟩ hmem (by decide)
    (by decide) with ⟨w₁, ps, hrun, htile, -, hfreed⟩
  have hpooled : s.world.pooled ⟨0, 5, 160⟩ = w₁ := by
    unfold World.pooled
    rw [hrun]
  rw [hpooled] at hheads
  have hlists : forall i, Piece.push ps lists i ≠ [] :=
    fun i hnil => hheads i ((hfreed.freeHead_null_iff i).mpr hnil)
  rcases (Pool.tiles hfreed Env.plain_classesNonzero).2 50 with ⟨p, w₂, halloc, hnone, -, hsome⟩
  have hp : p ≠ chkNull := fun heq => hlists 2 (hnone.mp heq 2 (by decide))
  rcases hsome hp with ⟨i, t, rest, qs, hi, -, hblock, hrest, -, -⟩
  refine ⟨lists, ps, w₁, hrun, htile, hfreed, hlists, p, w₂, i, t, qs, halloc, hblock, hi, ?_,
    hrest⟩
  -- only the third class has 50 units, and 52 are left of it
  rintro rfl
  have htail := hrest.tail
  have hclass : forall i, 50 ≤ Env.plain.freeSize i -> 65 ≤ Env.plain.freeSize i := by decide
  have hthree := hclass i hi
  have hzero : Env.plain.freeSize 0 = 15 := by decide
  simp only [Slot.block, List.map_nil, Extent.total_nil, hzero] at htail
  omega

end Sample

end ChunkMem
