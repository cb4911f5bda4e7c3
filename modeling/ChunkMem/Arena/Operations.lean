import ChunkMem.Arena.Blocks

/-!
# The operations on contents

`alloc`, `free` and the writes of the program keep the invariant, and
each leaves the bytes of the other blocks alone.
-/

namespace ChunkMem

open Foundation

namespace Content

variable {cls : Fin 3 -> Nat} {bs : List Block} {c : Content}

/-!
## Counting
-/

theorem Taken.uncounted {b : Block} {c' : Content} (h : Taken cls bs b c c')
    (ha : Accounts cls bs c) : Uncounted cls bs b.len (c'.subFree b.len) := by
  have htotal := h.total
  have hfree := ha.free_le
  constructor
  · intro k hk
    show (c'.body k).used = _
    rw [h.marks.used]
    exact ha.used_eq k (h.marks.num ▸ hk)
  · show c'.totalUsed = sumTo c'.num fun k => (c'.body k).used
    rw [h.marks.totalUsed, h.marks.num, ha.totalUsed_eq]
    exact sumTo_congr fun k _ => (h.marks.used k).symm
  · show (sumTo c'.num fun k => (c'.body k).virgin) =
      c'.totalUsed + (c'.totalFree - b.len) + b.len
    have hsum : (sumTo c'.num fun k => (c'.body k).virgin) =
        sumTo c.num fun k => (c.body k).virgin := by
      rw [h.marks.num]
      exact sumTo_congr fun k _ => h.marks.virgin k
    rw [hsum, ha.virgin_eq, h.marks.totalUsed, h.marks.totalFree]
    omega
  · show Extent.total (c'.freeBlocks cls) ≤ c'.totalFree - b.len
    rw [h.marks.totalFree]
    omega

theorem Accounts.bump (ha : Accounts cls bs c) {k : Nat} (len : Nat) (hk : k < c.num) :
    Uncounted cls bs len (c.bump k len) := by
  constructor
  · intro k' hk'
    have hu := ha.used_eq k' hk'
    unfold Content.bump
    rw [setVirgin_used]
    exact hu
  · have hsum := bump_used_sum (c := c) k len
    show c.totalUsed = _
    rw [hsum]
    exact ha.totalUsed_eq
  · have hsum := bump_virgin_sum (c := c) len hk
    rw [hsum, ha.virgin_eq]
    rfl
  · exact ha.free_le

/-- The counters before a block that is already back is counted. -/
structure Overcounted (cls : Fin 3 -> Nat) (bs : List Block) (b : Block) (c : Content) :
    Prop where
  used_eq : forall k, k < c.num ->
    (c.body k).used = reserved k + Extent.lenIn (b :: bs) k
  totalUsed_eq : c.totalUsed = sumTo c.num fun k => (c.body k).used
  virgin_eq :
    (sumTo c.num fun k => (c.body k).virgin) + b.len = c.totalUsed + c.totalFree
  free_le : Extent.total (c.freeBlocks cls) ≤ c.totalFree

theorem Overcounted.counted {b : Block} (h : Overcounted cls bs b c)
    (hb : b.space < c.num) : Accounts cls bs (c.countFreed b.space b.len) := by
  have hused := h.used_eq b.space hb
  rw [Extent.lenIn_cons, if_pos rfl] at hused
  have hle := le_sumTo (fun k => (c.body k).used) hb
  have htotal := h.totalUsed_eq
  constructor
  · intro k hk
    rw [countFreed_body]
    have hu := h.used_eq k hk
    rw [Extent.lenIn_cons] at hu
    split
    · next heq =>
        subst heq
        show (c.body b.space).used - b.len = _
        omega
    · next hne =>
        rw [if_neg (Ne.symm hne)] at hu
        omega
  · have hchange := sumTo_change (n := c.num) (f := fun k => (c.body k).used)
      (g := fun k => ((c.countFreed b.space b.len).body k).used) hb (by
        intro k _ hk
        rw [countFreed_body, if_neg hk])
    have hself : ((c.countFreed b.space b.len).body b.space).used =
        (c.body b.space).used - b.len := by
      rw [countFreed_body, if_pos rfl]
    show c.totalUsed - b.len = sumTo c.num _
    omega
  · have hv := h.virgin_eq
    have hsame : (sumTo c.num fun k => ((c.countFreed b.space b.len).body k).virgin) =
        sumTo c.num fun k => (c.body k).virgin := by
      apply sumTo_congr
      intro k _
      rw [countFreed_body]
      split
      · next hk => rw [hk]
      · rfl
    show sumTo c.num _ = c.totalUsed - b.len + c.totalFree
    rw [hsame]
    omega
  · exact h.free_le

/-!
## Cutting blocks off the top
-/

theorem bump_keepsBits (bs : List Block) (c : Content) (k len : Nat) :
    KeepsBits bs c (c.bump k len) := by
  intro k' u _ j _ _
  unfold bump
  rw [setVirgin_bits]

theorem countUsed_bits (c : Content) (k len k' : Nat) :
    ((c.countUsed k len).body k').bits = (c.body k').bits := by
  rw [countUsed_body]
  split
  · next hk => rw [hk]
  · rfl

theorem countFreed_bits (c : Content) (k len k' : Nat) :
    ((c.countFreed k len).body k').bits = (c.body k').bits := by
  rw [countFreed_body]
  split
  · next hk => rw [hk]
  · rfl

theorem cutTop_ensures (h : WF cls bs c) {k len : Nat} (hk : k < c.num)
    (hle : (c.body k).virgin + len ≤ 2048) :
    Exec.Ensures (cutTop k len c)
      (fun p c' => p = blockPtr (c.bumpBlock k len) ∧
        WF cls (c.bumpBlock k len :: bs) c' ∧ KeepsBits bs c c' ∧ c'.num = c.num)
      (PoolFault cls) := by
  refine ⟨rfl, ⟨?_, ?_⟩, ?_, rfl⟩
  · exact countUsed_tiling (bump_tiling h.tiling len hk hle) k len
  · exact (h.accounts.bump len hk).counted (b := c.bumpBlock k len) hk
  · intro k' u hu j hj1 hj2
    rw [countUsed_bits]
    exact bump_keepsBits bs c k len k' u hu j hj1 hj2

/-!
## A new chunk
-/

theorem addChunk_body (c : Content) (k : Nat) :
    (c.addChunk.body k) =
      if k = c.num then ⟨reserved k, reserved k, Bits.zero⟩ else c.body k := by
  unfold addChunk
  by_cases hz : c.num = 0
  · rw [if_pos hz]
    simp only [Function.update_apply, hz]
    split
    · next hk => rw [hk]; rfl
    · rfl
  · rw [if_neg hz]
    simp only [Function.update_apply]
    split
    · next hk =>
        have hr : reserved k = 2 := by
          unfold reserved
          rw [if_neg (by omega)]
        rw [hr]
    · rfl

theorem addChunk_num (c : Content) : c.addChunk.num = c.num + 1 := by
  unfold addChunk
  split
  · next hz => rw [hz]
  · rfl

theorem addChunk_lists_subset (c : Content) (i : Fin 3) {s : Slot}
    (hs : s ∈ c.addChunk.lists i) : s ∈ c.lists i ∧ c.num ≠ 0 := by
  unfold addChunk at hs
  split at hs
  · simp at hs
  · next hz => exact ⟨hs, hz⟩

theorem addChunk_totals (c : Content) (hz : c.num ≠ 0) :
    c.addChunk.totalUsed = c.totalUsed + 2 ∧ c.addChunk.totalFree = c.totalFree ∧
      c.addChunk.lists = c.lists := by
  unfold addChunk
  rw [if_neg hz]
  exact ⟨rfl, rfl, rfl⟩

theorem addChunk_totals_first (c : Content) (hz : c.num = 0) :
    c.addChunk.totalUsed = 5 ∧ c.addChunk.totalFree = 0 ∧
      c.addChunk.lists = fun _ => [] := by
  unfold addChunk
  rw [if_pos hz]
  exact ⟨rfl, rfl, rfl⟩

theorem addChunk_keepsBits (h : Tiling cls bs c) : KeepsBits bs c c.addChunk := by
  intro k u hu j _ _
  have hb := h.bound (k := k) (u := u) (by omega)
  rw [addChunk_body, if_neg (by omega)]

theorem addChunk_tiling (h : Tiling cls bs c) (hnum : c.num < 2047) :
    Tiling cls bs c.addChunk := by
  have hbits : forall i s, s ∈ c.addChunk.lists i -> forall j,
      64 * s.off ≤ j -> j < 64 * s.off + 32 ->
      (c.addChunk.body s.no).bits j = (c.body s.no).bits j := by
    intro i s hs j _ _
    have hmem := addChunk_lists_subset c i hs
    have hb := h.slot_bound hmem.1
    rw [addChunk_body, if_neg (by omega)]
  have hfree : forall k u, Extent.cover (c.addChunk.freeBlocks cls) k u ≤
      Extent.cover (c.freeBlocks cls) k u := by
    intro k u
    by_cases hz : c.num = 0
    · rw [freeBlocks_congr (c.addChunk) (empty) (addChunk_totals_first c hz).2.2]
      exact Nat.zero_le _
    · rw [freeBlocks_congr (c.addChunk) (c) (addChunk_totals c hz).2.2]
  constructor
  · rw [addChunk_num]
    omega
  · intro k hk
    rw [addChunk_num] at hk
    rw [addChunk_body]
    split
    · have hr := reserved_le_five k
      show reserved k ≤ 2048
      omega
    · exact h.virgin_le k (by omega)
  · intro k hk
    rw [addChunk_num] at hk
    rw [addChunk_body]
    split
    · exact Nat.le_refl _
    · exact h.reserved_le k (by omega)
  · intro k u
    have hone := h.cover_le_one k u
    have hle := hfree k u
    apply le_ite_one
    · omega
    · intro hpos
      have hb := h.bound (k := k) (u := u) (by omega)
      rw [addChunk_num, addChunk_body, if_neg (by omega)]
      exact ⟨by omega, hb.2⟩
  · intro i hne
    rcases List.exists_mem_of_ne_nil _ hne with ⟨s, hs⟩
    exact h.class_pos i (List.ne_nil_of_mem (addChunk_lists_subset c i hs).1)
  · intro i
    by_cases hz : c.num = 0
    · rw [(addChunk_totals_first c hz).2.2]
      trivial
    · have hlists := (addChunk_totals c hz).2.2
      have hold := h.chain i
      rw [← congrFun hlists i] at hold
      exact hold.congr (hbits i)
  · intro k hk j hj
    rw [addChunk_num] at hk
    rw [addChunk_body] at hj ⊢
    split at hj
    · next heq =>
        rw [if_pos heq]
        rfl
    · next hne =>
        rw [if_neg hne]
        exact h.above k (by omega) j hj

theorem addChunk_accounts (h : WF cls bs c) : Accounts cls bs c.addChunk := by
  -- no block lies in the new chunk
  have hlen : Extent.lenIn bs c.num = 0 := by
    unfold Extent.lenIn
    apply List.sum_eq_zero
    intro n hn
    rcases List.mem_map.mp hn with ⟨b, hb, rfl⟩
    split
    · next heq =>
        by_contra hpos
        have hbound := h.tiling.block_bound hb (Nat.pos_of_ne_zero hpos)
        omega
    · rfl
  have hused : forall k, k < c.num + 1 ->
      (c.addChunk.body k).used = reserved k + Extent.lenIn bs k := by
    intro k hk
    rw [addChunk_body]
    split
    · next heq =>
        rw [heq, hlen]
        rfl
    · exact h.accounts.used_eq k (by omega)
  have hsum : forall f : Body -> Nat,
      (sumTo (c.num + 1) fun k => f (c.addChunk.body k)) =
        (sumTo c.num fun k => f (c.body k)) +
          f ⟨reserved c.num, reserved c.num, Bits.zero⟩ := by
    intro f
    rw [sumTo_succ, addChunk_body, if_pos rfl]
    congr 1
    apply sumTo_congr
    intro k hk
    rw [addChunk_body, if_neg (by omega)]
  have hu := hsum Body.used
  have hv := hsum Body.virgin
  by_cases hz : c.num = 0
  · have htotals := addChunk_totals_first c hz
    rw [hz] at hu hv
    simp only [reserved, sumTo_zero] at hu hv
    constructor
    · rw [addChunk_num]
      exact hused
    · rw [addChunk_num, htotals.1, hz]
      exact hu.symm
    · rw [addChunk_num, htotals.1, htotals.2.1, hz]
      exact hv
    · rw [freeBlocks_congr (c.addChunk) (empty) htotals.2.2]
      exact Nat.zero_le _
  · have htotals := addChunk_totals c hz
    have hr : reserved c.num = 2 := by
      unfold reserved
      rw [if_neg hz]
    simp only [hr] at hu hv
    constructor
    · rw [addChunk_num]
      exact hused
    · rw [addChunk_num, htotals.1, h.accounts.totalUsed_eq]
      exact hu.symm
    · rw [addChunk_num, htotals.1, htotals.2.1]
      have hold := h.accounts.virgin_eq
      omega
    · rw [freeBlocks_congr (c.addChunk) (c) htotals.2.2, htotals.2.1]
      exact h.accounts.free_le

theorem addChunk_wf (h : WF cls bs c) (hnum : c.num < 2047) : WF cls bs c.addChunk :=
  ⟨addChunk_tiling h.tiling hnum, addChunk_accounts h⟩

/-!
## Collecting the rest of a chunk
-/

theorem Tiling.addFree (h : Tiling cls bs c) (len : Nat) : Tiling cls bs (c.addFree len) :=
  h.congr (c.addFree len) rfl (fun _ => rfl) (fun _ => rfl) rfl

theorem Uncounted.pooled {s : Slot} {len : Nat} {c' : Content}
    (h : Uncounted cls bs len c) (hp : Pooled cls s len c c') :
    Accounts cls bs (c'.addFree len) := by
  rcases hp.taken with ⟨n, hn, _, _, htotal⟩
  have hfree := h.free_le
  constructor
  · intro k hk
    show (c'.body k).used = _
    rw [hp.marks.used]
    exact h.used_eq k (hp.marks.num ▸ hk)
  · show c'.totalUsed = sumTo c'.num fun k => (c'.body k).used
    rw [hp.marks.totalUsed, hp.marks.num, h.totalUsed_eq]
    exact sumTo_congr fun k _ => (hp.marks.used k).symm
  · show (sumTo c'.num fun k => (c'.body k).virgin) =
      c'.totalUsed + (c'.totalFree + len)
    have hsum : (sumTo c'.num fun k => (c'.body k).virgin) =
        sumTo c.num fun k => (c.body k).virgin := by
      rw [hp.marks.num]
      exact sumTo_congr fun k _ => hp.marks.virgin k
    rw [hsum, h.virgin_eq, hp.marks.totalUsed, hp.marks.totalFree]
    omega
  · show Extent.total (c'.freeBlocks cls) ≤ c'.totalFree + len
    rw [htotal, hp.marks.totalFree]
    omega

theorem collect_ensures (h : WF cls bs c) {k n : Nat} (hk : k < c.num)
    (hlimit : n ≤ 2048) :
    Exec.Ensures (collect cls k n c)
      (fun _ c' => WF cls bs c' ∧ KeepsBits bs c c' ∧ c'.num = c.num ∧
        forall k', k' ≠ k -> (c'.body k').virgin = (c.body k').virgin)
      (PoolFault cls) := by
  unfold collect
  rw [Exec.bind_of_ok (Exec.state_apply _)]
  by_cases hlt : (c.body k).virgin < n
  · simp only [hlt, if_true]
    rw [Exec.bind_of_ok (Exec.update_apply _ _)]
    have htiling := bump_tiling h.tiling (n - (c.body k).virgin) hk (by omega)
    refine Exec.Ensures.bind ((poolFree_ensures ⟨k, (c.body k).virgin⟩ _
      htiling).mono (fun _ _ hq => hq) (fun _ he => he)) ?_
    rintro _ c' ⟨htiling', hpooled⟩
    refine ⟨⟨htiling'.addFree _, ?_⟩, ?_, hpooled.marks.num, ?_⟩
    · exact (h.accounts.bump _ hk).pooled hpooled
    · exact (bump_keepsBits bs c k _).trans (hpooled.keepsBits htiling)
    · intro k' hk'
      show (c'.body k').virgin = _
      rw [hpooled.marks.virgin]
      unfold bump
      rw [setVirgin_virgin, if_neg hk']
  · simp only [hlt, if_false]
    exact ⟨h, KeepsBits.refl bs c, rfl, fun _ _ => rfl⟩

/-!
## Allocation
-/

/-- What an allocation does: nothing when it is refused, else one more block is
out and the others keep their bytes. -/
def AllocPost (cls : Fin 3 -> Nat) (bs : List Block) (len : Nat) (c : Content)
    (p : ChkPtr) (c' : Content) : Prop :=
  (p = chkNull ∧ c.num = 2047 ∧ c' = c) ∨
    exists b : Block, p = blockPtr b ∧ b.len = len ∧ WF cls (b :: bs) c' ∧
      KeepsBits bs c c' ∧ (c'.num = c.num ∨ c'.num = c.num + 1)

theorem AllocPost.of_cutTop {len k : Nat} {p : ChkPtr} {c' c'' : Content}
    (hp : p = blockPtr (c'.bumpBlock k len)) (hwf : WF cls (c'.bumpBlock k len :: bs) c'')
    (hkept : KeepsBits bs c c'') (hnum : c''.num = c.num ∨ c''.num = c.num + 1) :
    AllocPost cls bs len c p c'' :=
  Or.inr ⟨c'.bumpBlock k len, hp, rfl, hwf, hkept, hnum⟩

theorem allocBlock_ensures (h : WF cls bs c) {limit len : Nat} (hz : c.num ≠ 0)
    (hpos : 0 < len) (hlen : len ≤ 511) (hlimit : limit ≤ 2048) :
    Exec.Ensures (allocBlock cls limit len c) (AllocPost cls bs len c)
      (PoolFault cls) := by
  have hnum := h.tiling.num_le
  unfold allocBlock
  refine Exec.Ensures.bind ((poolAlloc_ensures len h.tiling).mono
    (fun _ _ hq => hq) (fun _ he => he)) ?_
  rintro p c' (⟨hnull, rfl⟩ | ⟨hnull, b, rfl, rfl, htaken⟩)
  · simp only [hnull, if_true]
    rw [Exec.bind_of_ok (Exec.state_apply _)]
    by_cases hfits : (c'.body (c'.num - 1)).virgin + len ≤ limit
    · simp only [hfits, if_true]
      refine (cutTop_ensures h (by omega) (by omega)).mono ?_ (fun _ he => he)
      rintro _ c'' ⟨hp, hwf, hkept, hnum''⟩
      exact .of_cutTop hp hwf hkept (Or.inl hnum'')
    · simp only [hfits, if_false]
      by_cases hfull : c'.num ≥ chkMaxChkNum
      · simp only [hfull, if_true]
        rw [chkMaxChkNum] at hfull
        exact Or.inl ⟨rfl, by omega, rfl⟩
      · simp only [hfull, if_false]
        rw [chkMaxChkNum] at hfull
        rw [Exec.bind_of_ok (Exec.update_apply _ _)]
        have hwf := addChunk_wf h (by omega)
        have hcollect := collect_ensures (k := c'.num - 1) hwf
          (by rw [addChunk_num]; omega) hlimit
        refine Exec.Ensures.bind (hcollect.mono (fun _ _ hq => hq) (fun _ he => he)) ?_
        rintro _ c'' ⟨hwf'', hkept, hnum'', hvirgin⟩
        -- the new chunk is still empty, so the block fits
        have hnew : (c''.body c'.num).virgin ≤ 5 := by
          rw [hvirgin c'.num (by omega), addChunk_body, if_pos rfl]
          exact reserved_le_five _
        rw [addChunk_num] at hnum''
        refine (cutTop_ensures hwf'' (by omega) (by omega)).mono ?_ (fun _ he => he)
        rintro _ c₃ ⟨hp, hwf₃, hkept₃, hnum₃⟩
        exact .of_cutTop hp hwf₃
          ((addChunk_keepsBits h.tiling).trans (hkept.trans hkept₃)) (by omega)
  · simp only [hnull, if_false]
    rw [Exec.bind_of_ok (Exec.update_apply _ _)]
    have hspace : b.space < c'.num :=
      (htaken.tiling.block_bound List.mem_cons_self hpos).1
    have htiling : Tiling cls (b :: bs) (c'.subFree b.len) :=
      htaken.tiling.congr (c'.subFree b.len) rfl (fun _ => rfl) (fun _ => rfl) rfl
    refine Or.inr ⟨b, rfl, rfl, ⟨countUsed_tiling htiling _ _, ?_⟩, ?_,
      Or.inl htaken.marks.num⟩
    · exact (htaken.uncounted h.accounts).counted hspace
    · intro k u hu j hj1 hj2
      rw [countUsed_bits]
      exact htaken.kept k u hu j hj1 hj2

theorem alloc_first (hz : c.num = 0) (limit limit' len : Nat) :
    alloc cls limit len c = alloc cls limit' len c := by
  unfold alloc
  rw [Exec.bind_of_ok (Exec.state_apply _), Exec.bind_of_ok (Exec.state_apply _), if_pos hz,
    if_pos hz]

theorem alloc_ensures (h : WF cls bs c) {limit len : Nat} (hpos : 0 < len)
    (hlen : len ≤ 511) (hlimit : limit ≤ 2048) :
    Exec.Ensures (alloc cls limit len c)
      (fun p c' => (p = chkNull ∧ c.num = 2047 ∧ c' = c) ∨
        exists b : Block, p = blockPtr b ∧ b.len = len ∧ WF cls (b :: bs) c' ∧
          KeepsBits bs c c')
      (PoolFault cls) := by
  unfold alloc
  rw [Exec.bind_of_ok (Exec.state_apply _)]
  by_cases hz : c.num = 0
  · simp only [hz, if_true]
    rw [Exec.bind_of_ok (Exec.update_apply _ _)]
    have hwf := addChunk_wf h (by omega)
    have hnum := addChunk_num c
    refine (allocBlock_ensures hwf (by omega) hpos hlen (Nat.le_refl _)).mono ?_
      (fun _ he => he)
    rintro p c' (⟨_, hfull, _⟩ | ⟨b, hp, hb, hwf', hkept, _⟩)
    · omega
    · exact Or.inr ⟨b, hp, hb, hwf', (addChunk_keepsBits h.tiling).trans hkept⟩
  · simp only [hz, if_false]
    refine (allocBlock_ensures h hz hpos hlen hlimit).mono ?_ (fun _ he => he)
    rintro p c' (hrefused | ⟨b, hp, hb, hwf', hkept, _⟩)
    · exact Or.inl hrefused
    · exact Or.inr ⟨b, hp, hb, hwf', hkept⟩

/-!
## Release
-/

/-- The units of a block are out of the way once its bits are clear and the
virgin mark is rolled back over it. -/
theorem rollback_tiling {b : Block} (h : Tiling cls (b :: bs) c) (hpos : 0 < b.len)
    (htop : b.start + b.len = (c.body b.space).virgin)
    (hclear : forall j, 64 * b.start ≤ j -> j < 64 * (b.start + b.len) ->
      (c.body b.space).bits j = false) :
    Tiling cls bs (c.setVirgin b.space ((c.body b.space).virgin - b.len)) := by
  have hbound := h.block_bound List.mem_cons_self hpos
  have hfree : (c.setVirgin b.space ((c.body b.space).virgin - b.len)).freeBlocks cls =
      c.freeBlocks cls := freeBlocks_congr _ _ rfl
  constructor
  · exact h.num_le
  · intro k hk
    have hv := h.virgin_le k hk
    rw [setVirgin_virgin]
    split
    · next heq =>
        rw [← heq]
        omega
    · exact hv
  · intro k hk
    rw [setVirgin_virgin]
    split
    · next heq =>
        rw [heq]
        omega
    · exact h.reserved_le k hk
  · intro k u
    have hone := h.cover_le_one k u
    rw [hfree]
    rw [Extent.cover_cons] at hone
    apply le_ite_one
    · omega
    · intro hcov
      have hb := h.bound (k := k) (u := u) (by rw [Extent.cover_cons]; omega)
      rw [setVirgin_virgin]
      refine ⟨hb.1, hb.2.1, ?_⟩
      split
      · next heq =>
          subst heq
          -- the units above the rolled back mark belonged to the block
          by_contra hcon
          have hcov' := Extent.covers_of (e := b) (u := u) (by omega) (by omega)
          omega
      · exact hb.2.2
  · exact h.class_pos
  · intro i
    exact (h.chain i).of_bits fun k => setVirgin_bits _ _ _ _
  · intro k hk j hj
    rw [setVirgin_bits]
    rw [setVirgin_virgin] at hj
    split at hj
    · next heq =>
        subst heq
        by_cases hlow : j < 64 * (b.start + b.len)
        · exact hclear j (by omega) hlow
        · exact h.above _ hk j (by omega)
    · exact h.above k hk j hj

theorem clear_tiling {b : Block} (h : Tiling cls bs c) (hb : b ∈ bs) :
    Tiling cls bs (c.setBits b.space
      ((c.body b.space).bits.clear (64 * b.start) (64 * b.len))) := by
  apply h.setBits
  intro j hne
  have hcov := Extent.covers_le_cover hb b.space (j / 64)
  have hin : 64 * b.start ≤ j ∧ j < 64 * b.start + 64 * b.len := by
    by_contra hcon
    exact hne (Bits.clear_outside (by omega))
  rw [Extent.covers_of (by omega) (by omega)] at hcov
  omega

theorem clear_outside (c : Content) (b : Block) :
    SameBitsOutside ⟨b.space, b.start⟩ b.len c (c.setBits b.space
      ((c.body b.space).bits.clear (64 * b.start) (64 * b.len))) := by
  apply SameBitsOutside.setBits (s := ⟨b.space, b.start⟩)
  intro j hj
  simp only at hj
  exact Bits.clear_outside (by omega)

theorem clear_clears (c : Content) (b : Block) {j : Nat} (h1 : 64 * b.start ≤ j)
    (h2 : j < 64 * (b.start + b.len)) :
    ((c.setBits b.space ((c.body b.space).bits.clear (64 * b.start)
      (64 * b.len))).body b.space).bits j = false := by
  rw [setBits_bits, if_pos rfl]
  exact Bits.clear_inside h1 (by omega)

/-- The counters before a block is released, with the block listed first. -/
theorem Accounts.used_erase (ha : Accounts cls bs c) {b : Block} (hb : b ∈ bs) {k : Nat}
    (hk : k < c.num) :
    (c.body k).used = reserved k + Extent.lenIn (b :: bs.erase b) k := by
  rw [ha.used_eq k hk, Extent.lenIn_cons, Extent.lenIn_erase hb]

theorem Accounts.rollback {b : Block} {c' : Content} (ha : Accounts cls bs c)
    (hb : b ∈ bs) (hspace : b.space < c.num) (hle : b.len ≤ (c'.body b.space).virgin)
    (hm : SameMarks c c') (hlists : c'.lists = c.lists) :
    Overcounted cls (bs.erase b) b
      (c'.setVirgin b.space ((c'.body b.space).virgin - b.len)) := by
  constructor
  · intro k hk
    rw [setVirgin_used, hm.used]
    exact ha.used_erase hb (hm.num ▸ hk)
  · show c'.totalUsed = sumTo c'.num _
    rw [hm.totalUsed, hm.num, ha.totalUsed_eq]
    apply sumTo_congr
    intro k _
    rw [setVirgin_used, hm.used]
  · have hchange := sumTo_change (n := c.num) (f := fun k => (c.body k).virgin)
      (g := fun k => ((c'.setVirgin b.space
        ((c'.body b.space).virgin - b.len)).body k).virgin) hspace (by
        intro k _ hk
        rw [setVirgin_virgin, if_neg hk, hm.virgin])
    rw [setVirgin_virgin, if_pos rfl] at hchange
    have hv := ha.virgin_eq
    have hsame := hm.virgin b.space
    show sumTo c'.num _ + b.len = c'.totalUsed + c'.totalFree
    rw [hm.num, hm.totalUsed, hm.totalFree]
    omega
  · have hfree : (c'.setVirgin b.space ((c'.body b.space).virgin - b.len)).freeBlocks cls =
        c.freeBlocks cls := freeBlocks_congr _ _ hlists
    show _ ≤ c'.totalFree
    rw [hfree, hm.totalFree]
    exact ha.free_le

theorem Accounts.pooled {b : Block} {c' c'' : Content} (ha : Accounts cls bs c)
    (hb : b ∈ bs) (hm : SameMarks c c') (hlists : c'.lists = c.lists)
    (hp : Pooled cls ⟨b.space, b.start⟩ b.len (c'.addFree b.len) c'') :
    Overcounted cls (bs.erase b) b c'' := by
  have hnum : c''.num = c.num := hp.marks.num.trans hm.num
  have hused : forall k, (c''.body k).used = (c.body k).used :=
    fun k => (hp.marks.used k).trans (hm.used k)
  have hvirgin : forall k, (c''.body k).virgin = (c.body k).virgin :=
    fun k => (hp.marks.virgin k).trans (hm.virgin k)
  have htotalUsed : c''.totalUsed = c.totalUsed := hp.marks.totalUsed.trans hm.totalUsed
  have htotalFree : c''.totalFree = c.totalFree + b.len := by
    rw [hp.marks.totalFree, ← hm.totalFree]
    rfl
  constructor
  · intro k hk
    rw [hused]
    exact ha.used_erase hb (hnum ▸ hk)
  · rw [htotalUsed, hnum, ha.totalUsed_eq]
    exact sumTo_congr fun k _ => (hused k).symm
  · have hsum : (sumTo c''.num fun k => (c''.body k).virgin) =
        sumTo c.num fun k => (c.body k).virgin := by
      rw [hnum]
      exact sumTo_congr fun k _ => hvirgin k
    rw [hsum, ha.virgin_eq, htotalUsed, htotalFree]
    omega
  · rcases hp.taken with ⟨n, hn, _, _, htotal⟩
    have hfree : (c'.addFree b.len).freeBlocks cls = c.freeBlocks cls :=
      freeBlocks_congr (c'.addFree b.len) c hlists
    have hle := ha.free_le
    rw [htotal, hfree, htotalFree]
    omega

theorem free_ensures (h : WF cls bs c) {b : Block} (hb : b ∈ bs) (hpos : 0 < b.len) :
    Exec.Ensures (free cls b c)
      (fun _ c' => WF cls (bs.erase b) c' ∧ KeepsBits (bs.erase b) c c' ∧
        c'.num = c.num)
      (PoolFault cls) := by
  have hbound := h.tiling.block_bound hb hpos
  have hmarks := SameMarks.setBits c b.space
    ((c.body b.space).bits.clear (64 * b.start) (64 * b.len))
  have hout := clear_outside c b
  have hclears := fun j => clear_clears c b (j := j)
  have htiling := (clear_tiling h.tiling hb).perm (List.perm_cons_erase hb)
  unfold free
  rw [Exec.bind_of_ok (Exec.update_apply _ _)]
  generalize hc' : c.setBits b.space
    ((c.body b.space).bits.clear (64 * b.start) (64 * b.len)) = c' at *
  have hlists : c'.lists = c.lists := by rw [← hc']; rfl
  have hkept : KeepsBits (bs.erase b) c c' :=
    hout.keepsBits fun u h1 h2 => htiling.apart h1 h2
  rw [Exec.bind_of_ok (Exec.state_apply _)]
  by_cases htop : b.start + b.len = (c'.body b.space).virgin
  · simp only [htop, if_true]
    rw [Exec.bind_of_ok (Exec.update_apply _ _)]
    have hover := h.accounts.rollback hb hbound.1 (by omega) hmarks hlists
    have hspace : b.space < c'.num := by rw [hmarks.num]; exact hbound.1
    refine ⟨⟨?_, hover.counted hspace⟩, ?_, hmarks.num⟩
    · apply countFreed_tiling
      exact rollback_tiling htiling hpos htop hclears
    · intro k u hu j hj1 hj2
      rw [countFreed_bits, setVirgin_bits]
      exact hkept k u hu j hj1 hj2
  · simp only [htop, if_false]
    have hpool := poolFree_ensures ⟨b.space, b.start⟩ b.len
      (htiling.addFree b.len)
    rw [Exec.bind_of_ok (Exec.update_apply _ _)]
    refine Exec.Ensures.bind (hpool.mono (fun _ _ hq => hq) (fun _ he => he)) ?_
    rintro _ c'' ⟨htiling'', hpooled⟩
    have hover := h.accounts.pooled hb hmarks hlists hpooled
    have hnum : c''.num = c.num := hpooled.marks.num.trans hmarks.num
    refine ⟨⟨?_, hover.counted (by rw [hnum]; exact hbound.1)⟩, ?_, hnum⟩
    · exact countFreed_tiling htiling'' _ _
    · intro k u hu j hj1 hj2
      have hkept'' := hpooled.keepsBits (htiling.addFree b.len) k u hu j hj1 hj2
      rw [countFreed_bits, hkept'']
      exact hkept k u hu j hj1 hj2

/-- What releasing a block did: either the virgin mark moved down to the start of
the block, or the free lists took over all of its units but a tail. -/
structure Released (cls : Fin 3 -> Nat) (b : Block) (c c' : Content) : Prop where
  num : c'.num = c.num
  totalUsed : c'.totalUsed = c.totalUsed - b.len
  virgin : (c'.body b.space).virgin =
    if b.start + b.len = (c.body b.space).virgin then b.start else (c.body b.space).virgin
  lists : exists n, n ≤ b.len ∧
    (if b.start + b.len = (c.body b.space).virgin then n = 0 else b.len < n + cls 0) ∧
    forall k u, Extent.cover (c'.freeBlocks cls) k u =
      (⟨b.space, b.start, n⟩ : Block).covers k u + Extent.cover (c.freeBlocks cls) k u

theorem free_released (h : WF cls bs c) {b : Block} (hb : b ∈ bs) (hpos : 0 < b.len) :
    Exec.Ensures (free cls b c) (fun _ c' => Released cls b c c') (PoolFault cls) := by
  have hbound := h.tiling.block_bound hb hpos
  have hmarks := SameMarks.setBits c b.space
    ((c.body b.space).bits.clear (64 * b.start) (64 * b.len))
  have htiling := (clear_tiling h.tiling hb).perm (List.perm_cons_erase hb)
  unfold free
  rw [Exec.bind_of_ok (Exec.update_apply _ _)]
  generalize hc' : c.setBits b.space
    ((c.body b.space).bits.clear (64 * b.start) (64 * b.len)) = c' at *
  have hlists : c'.lists = c.lists := by rw [← hc']; rfl
  have hvirgin := hmarks.virgin b.space
  rw [Exec.bind_of_ok (Exec.state_apply _)]
  by_cases htop : b.start + b.len = (c'.body b.space).virgin
  · simp only [htop, if_true]
    rw [Exec.bind_of_ok (Exec.update_apply _ _)]
    refine ⟨hmarks.num, ?_, ?_, 0, by omega, ?_, ?_⟩
    · show c'.totalUsed - b.len = _
      rw [hmarks.totalUsed]
    · rw [if_pos (htop.trans hvirgin), countFreed_body, if_pos rfl]
      show ((c'.setVirgin b.space ((c'.body b.space).virgin - b.len)).body b.space).virgin = _
      rw [setVirgin_virgin, if_pos rfl]
      omega
    · rw [if_pos (htop.trans hvirgin)]
    · intro k u
      have hfree : ((c'.setVirgin b.space ((c'.body b.space).virgin - b.len)).countFreed
          b.space b.len).freeBlocks cls = c.freeBlocks cls := freeBlocks_congr _ _ hlists
      rw [hfree, Extent.covers_eq_zero_of_len rfl, Nat.zero_add]
  · simp only [htop, if_false]
    have hpool := poolFree_ensures ⟨b.space, b.start⟩ b.len (htiling.addFree b.len)
    rw [Exec.bind_of_ok (Exec.update_apply _ _)]
    refine Exec.Ensures.bind (hpool.mono (fun _ _ hq => hq) (fun _ he => he)) ?_
    rintro _ c'' ⟨-, hpooled⟩
    have hne : b.start + b.len ≠ (c.body b.space).virgin := fun heq =>
      htop (heq.trans hvirgin.symm)
    rcases hpooled.taken with ⟨n, hn, hlt, hcover, -⟩
    refine ⟨hpooled.marks.num.trans hmarks.num, ?_, ?_, n, hn, ?_, ?_⟩
    · show c''.totalUsed - b.len = _
      rw [hpooled.marks.totalUsed, ← hmarks.totalUsed]
      rfl
    · rw [if_neg hne, countFreed_body, if_pos rfl]
      exact (hpooled.marks.virgin b.space).trans hvirgin
    · rw [if_neg hne]
      exact hlt
    · intro k u
      have hfree : (c''.countFreed b.space b.len).freeBlocks cls = c''.freeBlocks cls :=
        freeBlocks_congr _ _ rfl
      have hsame : (c'.addFree b.len).freeBlocks cls = c.freeBlocks cls :=
        freeBlocks_congr _ _ hlists
      rw [hfree, hcover k u, hsame]
      rfl

/-!
## Writes of the program
-/

theorem Accounts.setBits (ha : Accounts cls bs c) (k : Nat) (m : Bits) :
    Accounts cls bs (c.setBits k m) := by
  have hm := SameMarks.setBits c k m
  constructor
  · intro k' hk'
    rw [hm.used]
    exact ha.used_eq k' hk'
  · rw [hm.totalUsed, hm.num, ha.totalUsed_eq]
    exact sumTo_congr fun k' _ => (hm.used k').symm
  · rw [hm.totalUsed, hm.totalFree, hm.num, ← ha.virgin_eq]
    exact sumTo_congr fun k' _ => hm.virgin k'
  · exact ha.free_le

theorem write_wf (h : WF cls bs c) {b : Block} (hb : b ∈ bs) {at_ : Nat}
    {data : List Byte} (hle : at_ + data.length ≤ 8 * b.len) :
    WF cls bs (c.write b at_ data) := by
  refine ⟨?_, h.accounts.setBits _ _⟩
  apply h.tiling.setBits
  intro j hne
  have hcov := Extent.covers_le_cover hb b.space (j / 64)
  have hin : 8 * (8 * b.start + at_) ≤ j ∧
      j < 8 * (8 * b.start + at_) + 8 * data.length := by
    by_contra hcon
    exact hne (Bits.writeBytes_outside (by omega))
  rw [Extent.covers_of (by omega) (by omega)] at hcov
  omega

end Content
end ChunkMem
