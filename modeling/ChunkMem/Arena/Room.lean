import ChunkMem.Arena.Operations

/-!
# Where an allocation finds room

A request is served from the free lists, else from the rest of the last chunk,
else from a fresh chunk; it is refused only when there can be no further chunk.
Before a chunk loses its place as the last one its rest goes to the free lists.
-/

namespace ChunkMem

open Foundation

namespace Content

section Room

variable {cls : Fin 3 -> Nat} {bs : List Block} {c : Content}

def FitsLast (c : Content) (limit len : Nat) : Prop :=
  (c.body (c.num - 1)).virgin + len ≤ limit

/-- The rest of chunk `k` up to `limit` went to the free lists, but for a tail
shorter than the smallest class. -/
structure Collected (cls : Fin 3 -> Nat) (k limit : Nat) (c c' : Content) : Prop where
  virgin : (c'.body k).virgin = limit
  lists : exists m, m ≤ limit - (c.body k).virgin ∧ limit - (c.body k).virgin < m + cls 0 ∧
    forall k' u, Extent.cover (c'.freeBlocks cls) k' u =
      (⟨k, (c.body k).virgin, m⟩ : Block).covers k' u + Extent.cover (c.freeBlocks cls) k' u

theorem collect_collected (h : WF cls bs c) (hpos : 0 < cls 0) {k limit : Nat}
    (hk : k < c.num) (hv : (c.body k).virgin ≤ limit) (hlimit : limit ≤ 2048) :
    Exec.Ensures (collect cls k limit c) (fun _ c' => Collected cls k limit c c')
      (PoolFault cls) := by
  unfold collect
  rw [Exec.bind_of_ok (Exec.state_apply _)]
  by_cases hlt : (c.body k).virgin < limit
  · simp only [hlt, if_true]
    rw [Exec.bind_of_ok (Exec.update_apply _ _)]
    have htiling := bump_tiling h.tiling (limit - (c.body k).virgin) hk (by omega)
    refine Exec.Ensures.bind ((poolFree_ensures ⟨k, (c.body k).virgin⟩ _
      htiling).mono (fun _ _ hq => hq) (fun _ he => he)) ?_
    rintro _ c' ⟨-, hpooled⟩
    refine ⟨?_, ?_⟩
    · show (c'.body k).virgin = limit
      rw [hpooled.marks.virgin]
      unfold bump
      rw [setVirgin_virgin, if_pos rfl]
      omega
    · rcases hpooled.taken with ⟨m, hm, hlt', hcover, -⟩
      refine ⟨m, hm, hlt', fun k' u => ?_⟩
      have hfree : (c'.addFree (limit - (c.body k).virgin)).freeBlocks cls =
          c'.freeBlocks cls := freeBlocks_congr _ _ rfl
      have hbump : (c.bump k (limit - (c.body k).virgin)).freeBlocks cls =
          c.freeBlocks cls := freeBlocks_congr _ _ rfl
      rw [hfree, hcover, hbump]
      rfl
  · simp only [hlt, if_false]
    refine ⟨?_, 0, Nat.zero_le _, by omega, fun k' u => ?_⟩
    · show (c.body k).virgin = limit
      omega
    · show Extent.cover (c.freeBlocks cls) k' u = _
      rw [Extent.covers_eq_zero_of_len rfl, Nat.zero_add]

inductive Room (cls : Fin 3 -> Nat) (limit len : Nat) (c : Content) (p : ChkPtr)
    (c' : Content) : Prop where
  | refused : p = chkNull -> c.num = 2047 -> fitClass cls c len = none ->
      ¬c.FitsLast limit len -> c' = c -> Room cls limit len c p c'
  | served : ¬p.IsNull -> p.size = len -> fitClass cls c len ≠ none ∨ c.FitsLast limit len ->
      c'.num = c.num -> Room cls limit len c p c'
  | grown : ¬p.IsNull -> p.size = len -> c.num < 2047 -> fitClass cls c len = none ->
      ¬c.FitsLast limit len -> c'.num = c.num + 1 -> Collected cls (c.num - 1) limit c c' ->
      Room cls limit len c p c'

theorem blockPtr_not_null {b : Block} (h : b.space < 2047) : ¬(blockPtr b).IsNull := by
  unfold ChkPtr.IsNull
  simp only [blockPtr_chkNo, chkMaxChkNum]
  omega

theorem poolAlloc_none_iff (h : Tiling cls bs c) {len : Nat} {p : ChkPtr} {c' : Content}
    (hrun : poolAlloc cls len c = .ok (p, c')) : p.IsNull <-> fitClass cls c len = none := by
  have hensures := (poolAlloc_ensures len h).of_ok hrun
  cases hfit : fitClass cls c len with
  | none =>
      unfold poolAlloc at hrun
      rw [Exec.bind_of_ok (Exec.state_apply _), hfit] at hrun
      cases hrun
      exact ⟨fun _ => rfl, fun _ => rfl⟩
  | some i =>
      refine ⟨fun hnull => ?_, fun hcon => by cases hcon⟩
      have hi := fitClass_some hfit
      cases hl : c.lists i with
      | nil => exact absurd hl hi.2
      | cons s rest =>
          have hslot := h.slot_bound (i := i) (s := s) (by
            rw [hl]
            exact List.mem_cons_self)
          have hnum := h.num_le
          have htake : poolAlloc cls len c = poolTake cls i len c := by
            unfold poolAlloc
            rw [Exec.bind_of_ok (Exec.state_apply _), hfit]
          rw [htake] at hrun
          have hp := ((poolTake_ensures h hl hi.1).of_ok hrun).1
          rw [hp] at hnull
          exact absurd hnull (blockPtr_not_null (by
            simp only [Slot.block]
            omega))

theorem allocBlock_room (h : WF cls bs c) (hpos0 : 0 < cls 0) {limit len : Nat}
    (hz : c.num ≠ 0) (hv : (c.body (c.num - 1)).virgin ≤ limit) (hlimit : limit ≤ 2048) :
    Exec.Ensures (allocBlock cls limit len c) (Room cls limit len c) (PoolFault cls) := by
  have hnum := h.tiling.num_le
  unfold allocBlock
  have hpool := poolAlloc_ensures len h.tiling
  have hiff : forall p c', poolAlloc cls len c = .ok (p, c') ->
      (p.IsNull <-> fitClass cls c len = none) := fun p c' => poolAlloc_none_iff h.tiling
  cases hrun : poolAlloc cls len c with
  | error e =>
      rw [hrun] at hpool
      rw [Exec.bind_of_error hrun]
      exact hpool
  | ok pc =>
      have hnone := hiff pc.1 pc.2 hrun
      rw [Exec.bind_of_ok hrun]
      rcases hpool.of_ok hrun with ⟨hnull, hsame⟩ | ⟨hnull, b, hp, hb, htaken⟩
      · have hfit := hnone.mp hnull
        simp only [hnull, if_true, hsame]
        rw [Exec.bind_of_ok (Exec.state_apply _)]
        by_cases hfits : (c.body (c.num - 1)).virgin + len ≤ limit
        · simp only [hfits, if_true]
          exact .served (blockPtr_not_null (by
            simp only [bumpBlock]
            omega)) rfl (Or.inr hfits) rfl
        · simp only [hfits, if_false]
          by_cases hfull : c.num ≥ chkMaxChkNum
          · simp only [hfull, if_true]
            rw [chkMaxChkNum] at hfull
            exact .refused rfl (by omega) hfit hfits rfl
          · simp only [hfull, if_false]
            rw [chkMaxChkNum] at hfull
            rw [Exec.bind_of_ok (Exec.update_apply _ _)]
            have hwf := addChunk_wf h (by omega)
            have hbody : c.addChunk.body (c.num - 1) = c.body (c.num - 1) := by
              rw [addChunk_body, if_neg (by omega)]
            have hlists : c.addChunk.lists = c.lists := by
              unfold addChunk
              rw [if_neg hz]
            have hlast : c.num - 1 < c.addChunk.num := by
              rw [addChunk_num]
              omega
            have hcollect := (collect_ensures hwf hlast hlimit).and
              (collect_collected hwf hpos0 hlast (by rw [hbody]; exact hv) hlimit)
            refine Exec.Ensures.bind (hcollect.mono (fun _ _ hq => hq) (fun _ he => he.1)) ?_
            rintro _ c' ⟨⟨-, -, hnum', -⟩, hcollected⟩
            rw [addChunk_num] at hnum'
            refine .grown (blockPtr_not_null ?_) rfl (by omega) hfit hfits hnum' ⟨?_, ?_⟩
            · simp only [bumpBlock]
              omega
            · show (((c'.bump c.num len).countUsed c.num len).body (c.num - 1)).virgin = limit
              rw [countUsed_body, if_neg (by omega), ← hcollected.virgin]
              unfold bump
              rw [setVirgin_virgin, if_neg (by omega)]
            · rcases hcollected.lists with ⟨m, hm, hlt, hcover⟩
              rw [hbody] at hm hlt hcover
              refine ⟨m, hm, hlt, fun k' u => ?_⟩
              have hfree : ((c'.bump c.num len).countUsed c.num len).freeBlocks cls =
                  c'.freeBlocks cls := freeBlocks_congr _ _ rfl
              have hold : c.addChunk.freeBlocks cls = c.freeBlocks cls :=
                freeBlocks_congr _ _ hlists
              rw [hfree, hcover, hold]
      · simp only [hnull, if_false]
        rw [Exec.bind_of_ok (Exec.update_apply _ _)]
        refine .served hnull ?_ (Or.inl fun hfit => hnull (hnone.mpr hfit)) htaken.marks.num
        rw [hp, blockPtr_size]
        exact hb

theorem alloc_first_room (h : WF cls bs c) (hpos0 : 0 < cls 0) {limit len : Nat}
    (hz : c.num = 0) (hlen : len ≤ 511) :
    Exec.Ensures (alloc cls limit len c)
      (fun p c' => ¬p.IsNull ∧ p.size = len ∧ c'.num = 1) (PoolFault cls) := by
  have hwf := addChunk_wf h (by omega)
  have hnum := addChunk_num c
  have hbody : (c.addChunk.body 0).virgin = 5 := by
    rw [addChunk_body, hz, if_pos rfl]
    rfl
  unfold alloc
  rw [Exec.bind_of_ok (Exec.state_apply _), if_pos hz, Exec.bind_of_ok (Exec.update_apply _ _)]
  have hlast : c.addChunk.num - 1 = 0 := by omega
  have hfits : c.addChunk.FitsLast 2048 len := by
    unfold FitsLast
    rw [hlast, hbody]
    omega
  refine (allocBlock_room hwf hpos0 (by omega) (by rw [hlast, hbody]; omega)
    (Nat.le_refl 2048)).mono ?_ (fun _ he => he)
  intro p c' hroom
  cases hroom with
  | refused _ hfull => omega
  | served hp hsize _ hnum' => exact ⟨hp, hsize, by omega⟩
  | grown _ _ _ _ hnot => exact absurd hfits hnot

theorem alloc_first_place (cls : Fin 3 -> Nat) {limit len : Nat} (hz : c.num = 0)
    (hlen : len ≤ 511) :
    exists c', alloc cls limit len c = .ok (blockPtr ⟨0, 5, len⟩, c') := by
  have hadd : c.addChunk = ⟨1, Function.update c.body 0 ⟨5, 5, Bits.zero⟩, 5, 0, fun _ => []⟩ :=
    if_pos hz
  have hpool : poolAlloc cls len c.addChunk = .ok (chkNull, c.addChunk) := by
    have hnone : fitClass cls c.addChunk len = none := by
      rw [hadd]
      unfold fitClass
      simp
    unfold poolAlloc
    rw [Exec.bind_of_ok (Exec.state_apply _)]
    simp only [hnone]
    rfl
  have hvirgin : (c.addChunk.body (c.addChunk.num - 1)).virgin = 5 := by
    rw [hadd]
    simp
  have hblock : c.addChunk.bumpBlock (c.addChunk.num - 1) len = ⟨0, 5, len⟩ := by
    unfold bumpBlock
    rw [hvirgin, hadd, Nat.sub_self]
  have hnull : chkNull.IsNull := rfl
  unfold alloc allocBlock
  rw [Exec.bind_of_ok (Exec.state_apply _), if_pos hz, Exec.bind_of_ok (Exec.update_apply _ _),
    Exec.bind_of_ok hpool, if_pos hnull, Exec.bind_of_ok (Exec.state_apply _),
    if_pos (by rw [hvirgin]; omega), ← hblock]
  exact ⟨_, rfl⟩

end Room

end Content
end ChunkMem
