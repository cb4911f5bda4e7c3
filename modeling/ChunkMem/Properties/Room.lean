import ChunkMem.Arena.Room
import ChunkMem.Properties.Reuse

/-!
# alloc finds room whenever it may

On an index that is empty or whose last chunk cannot grow, `alloc` hands out
a block of the rounded size unless the free lists and the last chunk have no room
and the table of chunks is full.
-/

namespace ChunkMem

open Foundation

namespace World

/-- `can_enlarge` of the last chunk is false, or there is no chunk. -/
def LastFull (w : World) : Prop :=
  w.index.chkNum = 0 ∨ w.allocCapacityOf (w.index.chkNum - 1) = 0 ∨
    16 ≤ w.capacityOf (w.index.chkNum - 1)

/-- A free list or the rest of the last chunk can serve `len` units. -/
def CanServe (env : Env) (w : World) (len : Nat) : Prop :=
  (exists i, len ≤ env.freeSize i ∧ ¬(w.freeHead i).IsNull) ∨
    w.virginOf (w.index.chkNum - 1) + len ≤ 128 * w.capacityOf (w.index.chkNum - 1)

/-- The rest of chunk `k` went to the free lists, but for a tail shorter than the
smallest class. -/
def RestPooled (env : Env) (w w' : World) (k : Nat) : Prop :=
  w'.virginOf k = 128 * w.capacityOf k ∧
    exists free, (forall i, w'.FreeList i (free i)) ∧
      exists m, m ≤ 128 * w.capacityOf k - w.virginOf k ∧
        128 * w.capacityOf k - w.virginOf k < m + env.freeSize 0 ∧
        forall u, w.virginOf k ≤ u -> u < w.virginOf k + m ->
          0 < Extent.cover (pool env free) k u

instance (w : World) : Decidable w.LastFull := inferInstanceAs (Decidable (_ ∨ _ ∨ _))

instance (env : Env) (w : World) (len : Nat) : Decidable (w.CanServe env len) :=
  inferInstanceAs (Decidable (_ ∨ _))

end World

namespace Uncompressed

variable {env : Env} {w : World} {c : Content} {L : Layout} {bs : List Block}

theorem freeHead_null_iff (h : Uncompressed env w c L) (ht : Content.Tiling env.freeSize bs c)
    (hz : c.num ≠ 0) (i : Fin 3) : (w.freeHead i).IsNull <-> c.lists i = [] := by
  have hlink : w.freeHead i = headLink (c.lists i) := (h.mgr (by omega)).lists i
  rw [hlink]
  cases hl : c.lists i with
  | nil => exact ⟨fun _ => rfl, fun _ => rfl⟩
  | cons s rest =>
      have hslot := ht.slot_bound (i := i) (s := s) (by
        rw [hl]
        exact List.mem_cons_self)
      have hnum := ht.num_le
      refine ⟨fun hnull => ?_, fun hcon => by cases hcon⟩
      unfold ChkPtr.IsNull at hnull
      simp only [headLink, Slot.link, chkMaxChkNum] at hnull
      omega

theorem canServe_iff (h : Uncompressed env w c L) (ht : Content.Tiling env.freeSize bs c)
    (hz : c.num ≠ 0) (len : Nat) :
    w.CanServe env len <-> Content.fitClass env.freeSize c len ≠ none ∨
      c.FitsLast (128 * L.cap (c.num - 1)) len := by
  have hhead := h.freeHead_null_iff ht hz
  have hclass : (exists i, len ≤ env.freeSize i ∧ ¬(w.freeHead i).IsNull) <->
      Content.fitClass env.freeSize c len ≠ none := by
    unfold Content.fitClass
    rw [Ne, List.find?_eq_none]
    push Not
    constructor
    · rintro ⟨i, hle, hne⟩
      have hall : forall i : Fin 3, i ∈ [0, 1, 2] := by decide
      exact ⟨i, hall i, by simpa using ⟨hle, fun hnil => hne ((hhead i).mpr hnil)⟩⟩
    · rintro ⟨i, -, hi⟩
      have hboth : len ≤ env.freeSize i ∧ c.lists i ≠ [] := by simpa using hi
      exact ⟨i, hboth.1, fun hnull => hboth.2 ((hhead i).mp hnull)⟩
  unfold World.CanServe Content.FitsLast
  rw [hclass, h.num, h.virginOf_eq (by omega), h.capacityOf_eq (by omega)]

theorem restPooled {w' : World} {c' : Content} {L' : Layout} {bs' : List Block}
    (h : Uncompressed env w c L) (h' : Uncompressed env w' c' L')
    (ht' : Content.Tiling env.freeSize bs' c') {k : Nat} (hk : k < c.num) (hnum : c.num ≤ c'.num)
    (hcol : Content.Collected env.freeSize k (128 * L.cap k) c c') :
    World.RestPooled env w w' k := by
  have hlists := fun i => h'.freeList_links ht' (by omega) i
  unfold World.RestPooled
  rw [h'.virginOf_eq (by omega), h.capacityOf_eq hk, h.virginOf_eq hk]
  refine ⟨hcol.virgin, _, hlists, ?_⟩
  rcases hcol.lists with ⟨m, hm, hlt, hcover⟩
  refine ⟨m, hm, hlt, fun u hu1 hu2 => ?_⟩
  rw [h'.cover_pool ht' (by omega) hlists, hcover]
  have hself := Extent.covers_of (e := (⟨k, (c.body k).virgin, m⟩ : Block)) hu1 hu2
  simp only at hself
  omega

end Uncompressed

/-- In every session with an uncompressed index that is empty or whose last chunk
cannot grow, with memory and size classes in order: `alloc` returns after at
most one new chunk; it returns null only when the table of chunks is full and
nothing serves, else a block of the rounded size; when a chunk is added the rest of
the one before went to the free lists. -/
theorem Reach.alloc_finds_room {env : Env} {s : Session} (h : Reach env CarefulCall s)
    (hok : env.AllOk) (hcls : env.ClassesNonzero) (hflag : s.world.index.compressed = false)
    (hfull : s.world.LastFull) {n : Int} (hpos : 1 ≤ n) (hn : n ≤ 4088) :
    exists p w', ChkIndex.alloc env n s.world = .ok (p, w') ∧
      w'.index.chkNum ≤ s.world.index.chkNum + 1 ∧
      (if s.world.index.chkNum = 2047 ∧ ¬s.world.CanServe env (Uncompressed.units n)
        then p = chkNull
        else ¬p.IsNull ∧ p.size = Uncompressed.units n) ∧
      (s.world.index.chkNum ≠ 0 -> w'.index.chkNum ≠ s.world.index.chkNum ->
        World.RestPooled env s.world w' (s.world.index.chkNum - 1)) := by
  rcases h.careful with ⟨c, L, hv⟩
  have hu := hv.stored.uncompressed hflag
  have hnum := hu.num
  have hlen : 0 < Uncompressed.units n ∧ Uncompressed.units n ≤ 511 := by
    unfold Uncompressed.units
    omega
  have hnone : forall e, ¬Expected env e := not_expected hok hcls
  rcases (hu.alloc_ensures hv.wf hv.settled (by omega) hn).exists_ok hnone with
    ⟨p, w', hrun, ⟨hne, hown, hcap, -⟩ | ⟨c', L', hcontent, h', -, -⟩ | ⟨-, hfail, -⟩⟩
  · unfold World.LastFull at hfull
    rw [hnum, hu.allocCapacityOf_eq (by omega), hu.capacityOf_eq (by omega)] at hfull
    omega
  · refine ⟨p, w', hrun, ?_⟩
    rw [hnum, h'.num]
    by_cases hz : c.num = 0
    · rcases (Content.alloc_first_room hv.wf (hcls 0) hz hlen.2).of_ok hcontent with
        ⟨hp, hsize, hone⟩
      refine ⟨by omega, ?_, fun hne => absurd hz hne⟩
      rw [if_neg (by omega)]
      exact ⟨hp, hsize⟩
    · have hk : c.num - 1 < c.num := by omega
      have hvirgin := hu.fits.virgin_le _ hk
      have hcap := hu.fits.cap_le _ hk
      have hserve := hu.canServe_iff hv.wf.tiling hz (Uncompressed.units n)
      unfold Content.alloc at hcontent
      rw [Exec.bind_of_ok (Exec.state_apply _), if_neg hz] at hcontent
      have hlimit : 128 * L.cap (c.num - 1) ≤ 2048 := by omega
      have hroom := (Content.allocBlock_room hv.wf (hcls 0) hz hvirgin hlimit).of_ok hcontent
      have hpost := (Content.allocBlock_ensures hv.wf hz hlen.1 hlen.2 hlimit).of_ok hcontent
      cases hroom with
      | refused hp hmax hfit hnot hsame =>
          refine ⟨by rw [hsame]; omega, ?_, fun _ hne => absurd (by rw [hsame]) hne⟩
          have hnot' : ¬s.world.CanServe env (Uncompressed.units n) := by
            rw [hserve]
            exact fun hcon => hcon.elim (fun hne => hne hfit) hnot
          rw [if_pos ⟨hmax, hnot'⟩]
          exact hp
      | served hp hsize hwhere hsame =>
          refine ⟨by omega, ?_, fun _ hne => absurd hsame hne⟩
          rw [if_neg fun hcon => hcon.2 (hserve.mpr hwhere)]
          exact ⟨hp, hsize⟩
      | grown hp hsize hlt hfit hnot hgrown hcol =>
          refine ⟨by omega, ?_, fun _ _ => ?_⟩
          · rw [if_neg (by omega)]
            exact ⟨hp, hsize⟩
          · rcases hpost with ⟨hnull, hmax, -⟩ | ⟨b, -, -, hwf', -⟩
            · omega
            · exact hu.restPooled h' hwf'.tiling hk (by omega) hcol
  · exact absurd hok hfail

/-- Three large blocks, and a fourth that opens the second chunk. -/
def threeBlocks : Session :=
  Call.after Env.plain [.alloc 4088, .alloc 4088, .alloc 4088] ⟨World.boot, []⟩

theorem threeBlocks_reach : Reach Env.plain CarefulCall threeBlocks := by
  unfold threeBlocks
  exact .after (.start World.boot_fresh) (by decide +kernel)

theorem Reach.alloc_finds_room_sample :
    exists p w', ChkIndex.alloc Env.plain 4088 threeBlocks.world = .ok (p, w') ∧
      w'.index.chkNum ≤ threeBlocks.world.index.chkNum + 1 ∧
      (if threeBlocks.world.index.chkNum = 2047 ∧
          ¬threeBlocks.world.CanServe Env.plain (Uncompressed.units 4088)
        then p = chkNull
        else ¬p.IsNull ∧ p.size = Uncompressed.units 4088) ∧
      (threeBlocks.world.index.chkNum ≠ 0 ->
        w'.index.chkNum ≠ threeBlocks.world.index.chkNum ->
        World.RestPooled Env.plain threeBlocks.world w' (threeBlocks.world.index.chkNum - 1)) :=
  Reach.alloc_finds_room threeBlocks_reach Env.plain_allOk Env.plain_classesNonzero
    (by decide +kernel) (by decide +kernel) (by decide) (by decide)

end ChunkMem
