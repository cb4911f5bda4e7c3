import ChunkMem.Session.Regions

/-!
# Accounting is conserved

The counters of the chunk headers and of the memory manager, as they stand in
memory, agree with each other in every session with an uncompressed index.
-/

namespace ChunkMem

open Foundation

namespace World

def freeUnits (env : Env) (free : Fin 3 -> List ChkPtr) : Nat :=
  Extent.total (freeBlocks (env.freeSize 0) (free 0)) +
    (Extent.total (freeBlocks (env.freeSize 1) (free 1)) +
      Extent.total (freeBlocks (env.freeSize 2) (free 2)))

structure Accounted (env : Env) (w : World) (free : Fin 3 -> List ChkPtr) : Prop where
  linked : forall i, w.FreeList i (free i)
  used : w.totalUsed = sumTo w.index.chkNum w.usedOf
  virgin : sumTo w.index.chkNum w.virginOf = w.totalUsed + w.totalFree
  free_le : freeUnits env free ≤ w.totalFree
  capacity : w.totalCapacity = sumTo w.index.chkNum w.capacityOf

end World

namespace Valid

variable {env : Env} {s : Session} {c : Content} {L : Layout}

theorem freeUnits_links (env : Env) (c : Content) :
    World.freeUnits env (links c) = Extent.total (c.freeBlocks env.freeSize) := by
  rw [← Content.freeBlocks_links, Extent.total_append, Extent.total_append]
  rfl

theorem accounted (h : Valid env s c L) (hflag : s.world.index.compressed = false)
    (hpos : 0 < s.world.index.chkNum) : s.world.Accounted env (links c) := by
  have hu := h.stored.uncompressed hflag
  have hn := hu.num
  rw [hn] at hpos
  have hm := hu.mgr hpos
  have ha := h.wf.accounts
  have hused : s.world.totalUsed = c.totalUsed := hm.totalUsed
  have hfree : s.world.totalFree = c.totalFree := hm.totalFree
  refine ⟨h.freeList hflag, ?_, ?_, ?_, ?_⟩
  · rw [hused, hn, ha.totalUsed_eq]
    exact sumTo_congr fun k hk => (hu.usedOf_eq hk).symm
  · rw [hused, hfree, hn, ← ha.virgin_eq]
    exact sumTo_congr fun k hk => hu.virginOf_eq hk
  · rw [hfree, freeUnits_links]
    exact ha.free_le
  · have hcap : s.world.totalCapacity = L.total := hu.total hpos
    rw [hcap, h.settled, hn]
    exact sumTo_congr fun k hk => (hu.capacityOf_eq hk).symm

end Valid

/-- In every session whose index has a memory manager and is not compressed the
counters agree; the units in the free lists are covered by the free total, so
that no counter runs below zero. -/
theorem Reach.accounting_conserved {env : Env} {s : Session} (h : Reach env CarefulCall s)
    (hflag : s.world.index.compressed = false) (hpos : 0 < s.world.index.chkNum) :
    exists free, s.world.Accounted env free := by
  rcases h.careful with ⟨c, L, hv⟩
  exact ⟨_, hv.accounted hflag hpos⟩

/-- A block is freed into the pool and part of it comes back. -/
theorem Reach.accounting_conserved_sample :
    (Call.after Env.plain [.alloc 300, .alloc 40, .free ⟨0, 10, 38⟩, .alloc 100]
      ⟨World.boot, []⟩).world.totalFree = 25 ∧
    exists free, (Call.after Env.plain [.alloc 300, .alloc 40, .free ⟨0, 10, 38⟩, .alloc 100]
      ⟨World.boot, []⟩).world.Accounted Env.plain free :=
  ⟨by decide +kernel, Reach.accounting_conserved
    (.after (.start World.boot_fresh) (by decide +kernel)) (by decide +kernel)
    (by decide +kernel)⟩

end ChunkMem
