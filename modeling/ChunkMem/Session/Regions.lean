import ChunkMem.Session.Runs

/-!
# Regions of memory

The blocks of a session as regions of memory: the chunk headers, the memory
manager, the blocks the program holds and the blocks of the free lists, which
are found by following the links in memory.  Blocks of a content that share no
unit become regions that share no byte.
-/

namespace ChunkMem

open Foundation

namespace World

/-- The free list that starts with the link `p`: every block carries the link to
the next one. -/
inductive Linked (w : World) : ChkPtr -> List ChkPtr -> Prop where
  | nil {p : ChkPtr} : p.IsNull -> Linked w p []
  | cons {p : ChkPtr} {l : List ChkPtr} : ¬p.IsNull ->
      Linked w ((w.chunkBits p.chkNo).readPtr (32 * p.offset)) l -> Linked w p (p :: l)

/-- The links of `_free_list[i]`; without a chunk there are none. -/
def FreeList (w : World) (i : Fin 3) (l : List ChkPtr) : Prop :=
  if w.index.chkNum = 0 then l = [] else w.Linked (w.freeHead i) l

def region (w : World) (b : Block) : Extent Nat :=
  ⟨(w.index.chkAddr b.space).blk, (w.index.chkAddr b.space).off + 8 * b.start, 8 * b.len⟩

def headers (w : World) : List Block :=
  (List.range w.index.chkNum).map fun k => ⟨k, 0, 2⟩

def manager (w : World) : List Block :=
  if w.index.chkNum = 0 then [] else [⟨0, 2, 3⟩]

/-- The blocks of one free list, each of the size of its class. -/
def freeBlocks (cls : Nat) (l : List ChkPtr) : List Block :=
  l.map fun p => ⟨p.chkNo, p.offset / 2, cls⟩

theorem Linked.unique {w : World} {p : ChkPtr} {l l' : List ChkPtr} (h : w.Linked p l)
    (h' : w.Linked p l') : l = l' := by
  induction h generalizing l' with
  | nil hp =>
      cases h' with
      | nil => rfl
      | cons hp' _ => exact absurd hp hp'
  | cons hp _ ih =>
      cases h' with
      | nil hp' => exact absurd hp' hp
      | cons _ hrest => rw [ih hrest]

end World

namespace Session

/-- All blocks of a session, given the links of the free lists. -/
def blocks (env : Env) (s : Session) (free : Fin 3 -> List ChkPtr) : List Block :=
  s.world.headers ++ (s.world.manager ++ (s.live.map Live.block ++
    (World.freeBlocks (env.freeSize 0) (free 0) ++
      (World.freeBlocks (env.freeSize 1) (free 1) ++
        World.freeBlocks (env.freeSize 2) (free 2)))))

end Session

/-!
## Links
-/

namespace Uncompressed

variable {env : Env} {w : World} {c : Content} {L : Layout} {bs : List Block}

theorem linked (h : Uncompressed env w c L) (ht : Content.Tiling env.freeSize bs c) {i : Fin 3} :
    forall l : List Slot, (forall s, s ∈ l -> s ∈ c.lists i) -> c.Chain l ->
      w.Linked (headLink l) (l.map Slot.link) := by
  intro l
  induction l with
  | nil =>
      intro _ _
      exact .nil rfl
  | cons s rest ih =>
      intro hmem hchain
      have hslot := ht.slot_bound (hmem s List.mem_cons_self)
      have hnum := ht.num_le
      have hv := h.fits.virgin_le s.no hslot.2.1
      have hreach := env.le_reach (h.fits.cap_le s.no hslot.2.1)
      have himage := h.image s.no hslot.2.1
      have hlink : (w.chunkBits s.link.chkNo).readPtr (32 * s.link.offset) = headLink rest := by
        rw [← hchain.1, show 32 * s.link.offset = 64 * s.off by
          simp only [Slot.link]
          omega]
        apply Bits.readPtr_congr
        intro j hj
        exact himage.data _ (by omega) (by omega)
      refine .cons ?_ ?_
      · unfold ChkPtr.IsNull
        simp only [headLink, Slot.link, chkMaxChkNum]
        omega
      · show w.Linked _ (rest.map Slot.link)
        have hrest := ih (fun t ht => hmem t (List.mem_cons_of_mem _ ht)) hchain.2
        rw [← hlink] at hrest
        exact hrest

theorem freeList_links (h : Uncompressed env w c L) (ht : Content.Tiling env.freeSize bs c)
    (hpos : 0 < c.num) (i : Fin 3) : w.FreeList i ((c.lists i).map Slot.link) := by
  unfold World.FreeList
  rw [if_neg (by rw [h.num]; omega)]
  have hhead : w.freeHead i = headLink (c.lists i) := (h.mgr hpos).lists i
  rw [hhead]
  exact h.linked ht (c.lists i) (fun _ hs => hs) (ht.chain i)

end Uncompressed

/-!
## Disjointness
-/

theorem cover_headers (n k u : Nat) :
    Extent.cover ((List.range n).map fun k => (⟨k, 0, 2⟩ : Block)) k u ≤
      if k < n ∧ u < 2 then 1 else 0 := by
  induction n with
  | zero => exact Nat.zero_le _
  | succ n ih =>
      rw [List.range_succ, List.map_append, Extent.cover_append]
      simp only [List.map_cons, List.map_nil, Extent.cover_cons, Extent.cover_nil,
        Extent.covers_mk] at ih ⊢
      split at ih <;> split <;> split <;> omega

namespace Content

variable {cls : Fin 3 -> Nat} {bs : List Block} {c : Content}

theorem freeBlocks_links (cls : Fin 3 -> Nat) (c : Content) :
    World.freeBlocks (cls 0) ((c.lists 0).map Slot.link) ++
      (World.freeBlocks (cls 1) ((c.lists 1).map Slot.link) ++
        World.freeBlocks (cls 2) ((c.lists 2).map Slot.link)) = c.freeBlocks cls := by
  have hone : forall (n : Nat) (l : List Slot),
      World.freeBlocks n (l.map Slot.link) = l.map fun s => s.block n := by
    intro n l
    unfold World.freeBlocks
    rw [List.map_map]
    apply List.map_congr_left
    intro s _
    simp only [Function.comp_apply, Slot.link, Slot.block]
    congr 1
    omega
  rw [hone, hone, hone]
  rfl

end Content

namespace Valid

variable {env : Env} {s : Session} {c : Content} {L : Layout}

def links (c : Content) (i : Fin 3) : List ChkPtr := (c.lists i).map Slot.link

theorem blocks_eq (s : Session) (c : Content) : s.blocks env (links c) =
    s.world.headers ++ (s.world.manager ++ (s.live.map Live.block ++
      c.freeBlocks env.freeSize)) := by
  unfold Session.blocks links
  rw [Content.freeBlocks_links]

theorem freeList (h : Valid env s c L) (hflag : s.world.index.compressed = false)
    (i : Fin 3) : s.world.FreeList i (links c i) := by
  have hu := h.stored.uncompressed hflag
  by_cases hz : c.num = 0
  · unfold World.FreeList links
    rw [if_pos (by rw [hu.num]; exact hz)]
    cases hl : c.lists i with
    | nil => rfl
    | cons t rest =>
        have hslot := h.wf.tiling.slot_bound (i := i) (s := t) (by
          rw [hl]
          exact List.mem_cons_self)
        omega
  · exact hu.freeList_links h.wf.tiling (by omega) i

theorem cover_blocks (h : Valid env s c L) (hflag : s.world.index.compressed = false)
    (k u : Nat) : Extent.cover (s.blocks env (links c)) k u ≤ 1 := by
  have hu := h.stored.uncompressed hflag
  have htile := h.wf.tiling.cover_le k u
  have hhead : Extent.cover s.world.headers k u ≤ if k < c.num ∧ u < 2 then 1 else 0 := by
    rw [← hu.num]
    exact cover_headers _ k u
  have hmgr : Extent.cover s.world.manager k u ≤
      if k = 0 ∧ 2 ≤ u ∧ u < 5 then 1 else 0 := by
    unfold World.manager
    split
    · exact Nat.zero_le _
    · rw [Extent.cover_cons, Extent.cover_nil, Extent.covers_mk]
      split <;> split <;> omega
  have hr : reserved k = if k = 0 then 5 else 2 := rfl
  rw [blocks_eq, Extent.cover_append, Extent.cover_append, Extent.cover_append]
  split at htile <;> split at hhead <;> split at hmgr <;> split at hr <;> omega

/-- Every block lies below the virgin mark of its chunk and is not empty. -/
theorem blocks_bound (h : Valid env s c L) (hflag : s.world.index.compressed = false)
    {b : Block} (hb : b ∈ s.blocks env (links c)) :
    0 < b.len ∧ b.space < c.num ∧ b.start + b.len ≤ (c.body b.space).virgin := by
  have hu := h.stored.uncompressed hflag
  have hr : forall k, k < c.num -> (if k = 0 then 5 else 2) ≤ (c.body k).virgin :=
    h.wf.tiling.reserved_le
  rw [blocks_eq] at hb
  rcases List.mem_append.mp hb with hb | hb
  · rcases List.mem_map.mp hb with ⟨k, hk, rfl⟩
    rw [List.mem_range, hu.num] at hk
    have hrk := hr k hk
    simp only
    split at hrk <;> omega
  · rcases List.mem_append.mp hb with hb | hb
    · unfold World.manager at hb
      rw [hu.num] at hb
      split at hb
      · cases hb
      · have hr0 := hr 0 (by omega)
        rw [if_pos rfl] at hr0
        rw [List.mem_singleton.mp hb]
        simp only
        omega
    · rcases List.mem_append.mp hb with hb | hb
      · rcases List.mem_map.mp hb with ⟨l, hl, rfl⟩
        have hbound := h.wf.tiling.block_bound (mem_block hl) (h.pos l hl)
        exact ⟨h.pos l hl, hbound.1, hbound.2.2⟩
      · rcases Content.mem_freeBlocks.mp hb with ⟨i, t, ht, rfl⟩
        have hslot := h.wf.tiling.slot_bound ht
        exact ⟨hslot.1, hslot.2.1, hslot.2.2.2⟩

theorem region_disjoint (h : Valid env s c L) (hflag : s.world.index.compressed = false)
    {b b' : Block} (hb : b ∈ s.blocks env (links c)) (hb' : b' ∈ s.blocks env (links c))
    (hdisj : b.Disjoint b') : (s.world.region b).Disjoint (s.world.region b') := by
  have hu := h.stored.uncompressed hflag
  have hbound := h.blocks_bound hflag hb
  have hbound' := h.blocks_bound hflag hb'
  have hfit := hu.fits.virgin_le _ hbound.2.1
  have hfit' := hu.fits.virgin_le _ hbound'.2.1
  by_cases hspace : b.space = b'.space
  · unfold World.region Extent.Disjoint
    unfold Extent.Disjoint at hdisj
    rw [hspace]
    simp only
    omega
  · by_cases hblk : (s.world.index.chkAddr b.space).blk = (s.world.index.chkAddr b'.space).blk
    · have hapart := hu.place.apart hbound.2.1 hbound'.2.1 hspace hblk
      have hoff := hu.place.off_eq hbound.2.1
      have hoff' := hu.place.off_eq hbound'.2.1
      unfold World.region Extent.Disjoint
      simp only
      omega
    · exact Or.inl hblk

theorem regions_disjoint (h : Valid env s c L) (hflag : s.world.index.compressed = false) :
    ((s.blocks env (links c)).map s.world.region).Pairwise Extent.Disjoint := by
  have hpair := Extent.pairwise_disjoint_of_cover_le_one
    (fun b hb => (h.blocks_bound hflag hb).1) (h.cover_blocks hflag)
  rw [List.pairwise_map]
  exact hpair.imp_of_mem fun hb hb' hdisj => h.region_disjoint hflag hb hb' hdisj

end Valid

end ChunkMem
