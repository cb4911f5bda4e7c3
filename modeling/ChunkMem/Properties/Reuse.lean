import ChunkMem.Session.Regions

/-!
# Freed memory stays allocatable

What `free` returns can be handed out again when it is in the free lists or
above the virgin mark of the last chunk, the only chunk `alloc` cuts from.
A block on top of an earlier chunk is lost: `free` rolls the virgin mark of
that chunk back, and nothing is ever cut from there again.
-/

namespace ChunkMem

open Foundation

namespace World

def pool (env : Env) (free : Fin 3 -> List ChkPtr) : List Block :=
  freeBlocks (env.freeSize 0) (free 0) ++
    (freeBlocks (env.freeSize 1) (free 1) ++ freeBlocks (env.freeSize 2) (free 2))

/-- Later allocations can use the unit `u` of chunk `k`. -/
def Available (env : Env) (w : World) (free : Fin 3 -> List ChkPtr) (k u : Nat) : Prop :=
  0 < Extent.cover (pool env free) k u ∨ (k + 1 = w.index.chkNum ∧ w.virginOf k ≤ u)

/-- All units of a freed block can be used again, but for a tail shorter than the
smallest class. -/
def Reusable (env : Env) (w : World) (b : Block) : Prop :=
  exists free, (forall i, w.FreeList i (free i)) ∧
    exists n, n ≤ b.len ∧ b.len < n + env.freeSize 0 ∧
      forall u, b.start ≤ u -> u < b.start + n -> w.Available env free b.space u

/-- The block is the topmost one of a chunk that is not the last one, and not
shorter than the smallest class. -/
def Stranded (env : Env) (w : World) (b : Block) : Prop :=
  b.space + 1 ≠ w.index.chkNum ∧ b.start + b.len = w.virginOf b.space ∧
    env.freeSize 0 ≤ b.len

instance (env : Env) (w : World) (b : Block) : Decidable (w.Stranded env b) :=
  inferInstanceAs (Decidable (_ ∧ _))

end World

namespace Uncompressed

variable {env : Env} {w w' : World} {c c' : Content} {L : Layout} {bs : List Block}

/-- The lists found in memory cover what the free lists of the content cover. -/
theorem cover_pool (h : Uncompressed env w c L) (ht : Content.Tiling env.freeSize bs c)
    (hpos : 0 < c.num) {free : Fin 3 -> List ChkPtr} (hfree : forall i, w.FreeList i (free i))
    (k u : Nat) :
    Extent.cover (World.pool env free) k u = Extent.cover (c.freeBlocks env.freeSize) k u := by
  have hlists : forall i, free i = (c.lists i).map Slot.link := by
    intro i
    have hmine := hfree i
    have hlinks := h.freeList_links ht hpos i
    unfold World.FreeList at hmine hlinks
    rw [if_neg (by rw [h.num]; omega)] at hmine hlinks
    exact hmine.unique hlinks
  unfold World.pool
  rw [hlists 0, hlists 1, hlists 2, Content.freeBlocks_links]

/-- What a released block leaves is of use again unless it was stranded. -/
theorem reusable_iff (h : Uncompressed env w c L) (hwf : Content.WF env.freeSize bs c)
    (hcls : env.ClassesNonzero) {b : Block} (hb : b ∈ bs) (hpos : 0 < b.len)
    (h' : Uncompressed env w' c' L) (hwf' : Content.WF env.freeSize (bs.erase b) c')
    (hrel : Content.Released env.freeSize b c c') :
    w'.Reusable env b <-> ¬w.Stranded env b := by
  have hbound := hwf.tiling.block_bound hb hpos
  have hnum : 0 < c'.num := by rw [hrel.num]; omega
  have hspace : b.space < c'.num := by rw [hrel.num]; exact hbound.1
  have hcls0 := hcls 0
  rcases hrel.lists with ⟨n, hn, hcase, hcover⟩
  have hvirgin := hrel.virgin
  constructor
  · rintro ⟨free, hfree, n', hn', hlt, hall⟩ ⟨hlast, htop, hle⟩
    rw [h.virginOf_eq hbound.1] at htop
    rw [if_pos htop] at hcase
    -- the first unit of the block is in no list, now as before
    rcases hall b.start (Nat.le_refl _) (by omega) with hcov | ⟨heq, -⟩
    · rw [h'.cover_pool hwf'.tiling hnum hfree, hcover, hcase,
        Extent.covers_eq_zero_of_len rfl, Nat.zero_add] at hcov
      have hone := hwf.tiling.cover_le_one b.space b.start
      have hself := Extent.covers_le_cover hb b.space b.start
      rw [Extent.covers_of (Nat.le_refl _) (by omega)] at hself
      omega
    · apply hlast
      rw [heq, h'.num, h.num, hrel.num]
  · intro hnot
    refine ⟨Valid.links c', fun i => h'.freeList_links hwf'.tiling hnum i, ?_⟩
    have hpool := h'.cover_pool hwf'.tiling hnum
      (fun i => h'.freeList_links hwf'.tiling hnum i)
    by_cases htop : b.start + b.len = (c.body b.space).virgin
    · rw [if_pos htop] at hcase hvirgin
      by_cases hlast : b.space + 1 = c.num
      · refine ⟨b.len, Nat.le_refl _, by omega, fun u hu _ => Or.inr ⟨?_, ?_⟩⟩
        · rw [h'.num, hrel.num]
          exact hlast
        · rw [h'.virginOf_eq hspace, hvirgin]
          exact hu
      · refine ⟨0, Nat.zero_le _, ?_, fun u hu1 hu2 => by omega⟩
        by_contra hle
        apply hnot
        refine ⟨?_, ?_, by omega⟩
        · rw [h.num]
          exact hlast
        · rw [h.virginOf_eq hbound.1]
          exact htop
    · rw [if_neg htop] at hcase
      refine ⟨n, hn, hcase, fun u hu1 hu2 => Or.inl ?_⟩
      have hself := Extent.covers_of (e := (⟨b.space, b.start, n⟩ : Block)) hu1 hu2
      have hthis := hpool b.space u
      rw [hcover, hself] at hthis
      have hpos' : 0 < Extent.cover (World.pool env (fun i => (c'.lists i).map Slot.link))
          b.space u := by
        rw [hthis]
        omega
      exact hpos'

end Uncompressed

/-- Releasing a block of a session succeeds, and its units can be used again exactly
when it was not stranded. -/
theorem Valid.freed_reusable {env : Env} {s : Session} {c : Content} {L : Layout}
    (h : Valid env s c L) (hcls : env.ClassesNonzero)
    (hflag : s.world.index.compressed = false) {l : Live} (hl : l ∈ s.live) :
    exists s', (Call.free l.ptr).perform env s = .ok (.done, s') ∧
      (s'.world.Reusable env l.block <-> ¬s.world.Stranded env l.block) := by
  have hu := h.stored.uncompressed hflag
  have hmem := Valid.mem_block hl
  have hpos := h.pos l hl
  have hnone : forall e, ¬Content.PoolFault env.freeSize e := fun e he => he.2 hcls
  rcases (hu.free_ensures h.wf hmem hpos).exists_ok hnone with
    ⟨_, w', hrun, c', hcontent, h', hwf', -, -⟩
  rw [← h.ptr l hl] at hrun
  refine ⟨⟨w', (Call.free l.ptr).holds s.live w' .done⟩, ?_, ?_⟩
  · unfold Call.perform Call.run
    simp only
    rw [Exec.bind_of_ok hrun]
    rfl
  · exact hu.reusable_iff h.wf hcls hmem hpos h' hwf'
      ((Content.free_released h.wf hmem hpos).of_ok hcontent)

/-- In every session a program reaches with an uncompressed index: releasing a
block succeeds, and its units can be used again exactly when the block was not the
topmost one of a chunk before the last, of at least the smallest class. -/
theorem Reach.freed_reusable_iff {env : Env} {s : Session} (h : Reach env CarefulCall s)
    (hcls : env.ClassesNonzero) (hflag : s.world.index.compressed = false) {l : Live}
    (hl : l ∈ s.live) :
    exists s', (Call.free l.ptr).perform env s = .ok (.done, s') ∧
      (s'.world.Reusable env l.block <-> ¬s.world.Stranded env l.block) := by
  rcases h.careful with ⟨c, L, hv⟩
  exact hv.freed_reusable hcls hflag hl

section Sample

/-- The rest of the first chunk went to the pool when the second chunk was opened;
the last block of it, 102 units, is handed out. -/
def strandingCalls : List Call :=
  [.alloc 4088, .alloc 4088, .alloc 4088, .alloc 4088, .alloc 816]

/-- That block is lost when it is freed. -/
theorem stranded_block_lost :
    Call.AllMeet Env.plain CarefulCall strandingCalls ⟨World.boot, []⟩ ∧
    exists s', (Call.free ⟨0, 3892, 102⟩).perform Env.plain
        (Call.after Env.plain strandingCalls ⟨World.boot, []⟩) = .ok (.done, s') ∧
      ¬s'.world.Reusable Env.plain ⟨0, 1946, 102⟩ := by
  have hmeet : Call.AllMeet Env.plain CarefulCall strandingCalls ⟨World.boot, []⟩ := by
    decide +kernel
  refine ⟨hmeet, ?_⟩
  rcases (Reach.after (.start World.boot_fresh) hmeet).careful with ⟨c, L, hv⟩
  rcases hv.freed_reusable (l := ⟨⟨0, 3892, 102⟩, 816⟩) Env.plain_classesNonzero
    (by decide +kernel) (by decide +kernel) with ⟨s', hrun, hiff⟩
  refine ⟨s', hrun, fun hreuse => hiff.mp hreuse ?_⟩
  decide +kernel

/-- A block in the middle of the first chunk goes to the free lists. -/
theorem Reach.freed_reusable_iff_sample :
    exists s', (Call.free ⟨0, 10, 38⟩).perform Env.plain
        (Call.after Env.plain [.alloc 300, .alloc 40] ⟨World.boot, []⟩) = .ok (.done, s') ∧
      (s'.world.Reusable Env.plain ⟨0, 5, 38⟩ <->
        ¬(Call.after Env.plain [.alloc 300, .alloc 40] ⟨World.boot, []⟩).world.Stranded
          Env.plain ⟨0, 5, 38⟩) :=
  Reach.freed_reusable_iff (l := ⟨⟨0, 10, 38⟩, 300⟩)
    (.after (.start World.boot_fresh) (by decide +kernel)) Env.plain_classesNonzero
    (by decide +kernel) (by decide +kernel)

end Sample

end ChunkMem
