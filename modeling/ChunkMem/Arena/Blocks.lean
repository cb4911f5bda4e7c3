import ChunkMem.Arena.Accounts

/-!
# Allocation and release keep the invariant

What `alloc`, `free` and the operations they are made of do to the
tiling, the counters and the bytes of the blocks that stay out.
-/

namespace ChunkMem

open Foundation

namespace Content

variable {cls : Fin 3 -> Nat} {bs : List Block} {c : Content}

/-!
## Blocks that are out
-/

theorem Tiling.apart {b : Block} (h : Tiling cls (b :: bs) c) {u : Nat}
    (h1 : b.start ≤ u) (h2 : u < b.start + b.len) :
    Extent.cover bs b.space u = 0 := by
  have hone := h.cover_le_one b.space u
  have hcov := Extent.covers_of h1 h2
  rw [Extent.cover_cons] at hone
  omega

/-- The order in which the blocks that are out are listed does not matter. -/
theorem Tiling.perm {bs' : List Block} (h : Tiling cls bs c) (hp : bs.Perm bs') :
    Tiling cls bs' c :=
  h.weaken fun k u => by rw [Extent.cover_perm hp]

theorem Tiling.setBits (h : Tiling cls bs c) {k : Nat} {m : Bits}
    (hout : forall j, m j ≠ (c.body k).bits j -> 0 < Extent.cover bs k (j / 64)) :
    Tiling cls bs (c.setBits k m) := by
  have hmarks := SameMarks.setBits c k m
  have hfree : (c.setBits k m).freeBlocks cls = c.freeBlocks cls := freeBlocks_congr _ _ rfl
  -- a bit that changed lies in a block that is out
  have hsame : forall k' j, Extent.cover bs k' (j / 64) = 0 ->
      ((c.setBits k m).body k').bits j = (c.body k').bits j := by
    intro k' j hz
    rw [setBits_bits]
    split
    · next hk =>
        subst hk
        by_contra hne
        have hpos := hout j hne
        omega
    · rfl
  constructor
  · exact h.num_le
  · intro k' hk'
    rw [hmarks.virgin]
    exact h.virgin_le k' hk'
  · intro k' hk'
    rw [hmarks.virgin]
    exact h.reserved_le k' hk'
  · intro k' u
    rw [hfree, hmarks.virgin]
    exact h.cover_le k' u
  · exact h.class_pos
  · intro i
    apply (h.chain i).congr
    intro s hs j hj1 hj2
    apply hsame
    by_contra hne
    have hb := h.slot_bound hs
    exact h.not_free_of_out (Nat.pos_of_ne_zero hne) hs ⟨rfl, by omega, by omega⟩
  · intro k' hk' j hj
    rw [hmarks.virgin] at hj
    rw [hsame]
    · exact h.above k' hk' j hj
    · by_contra hne
      have hb := h.bound (k := k') (u := j / 64) (by omega)
      omega

/-!
## Taking a block out of the pool
-/

/-- A block `b` came out of the pool. -/
structure Taken (cls : Fin 3 -> Nat) (bs : List Block) (b : Block) (c c' : Content) :
    Prop where
  tiling : Tiling cls (b :: bs) c'
  marks : SameMarks c c'
  kept : KeepsBits bs c c'
  total : Extent.total (c'.freeBlocks cls) + b.len ≤ Extent.total (c.freeBlocks cls)

theorem unlink_sameMarks (c : Content) (i : Fin 3) (s : Slot) (rest : List Slot) :
    SameMarks c (c.unlink i s rest) := by
  unfold unlink
  exact (SameMarks.setBits _ _ _).trans (SameMarks.setList _ _ _)

theorem unlink_lists (c : Content) (i : Fin 3) (s : Slot) (rest : List Slot) :
    (c.unlink i s rest).lists = Function.update c.lists i rest := rfl

theorem unlink_perm (cls : Fin 3 -> Nat) {i : Fin 3} {s : Slot} {rest : List Slot}
    (hl : c.lists i = s :: rest) :
    (c.freeBlocks cls).Perm
      (s.block (cls i) :: (c.unlink i s rest).freeBlocks cls) := by
  have hperm := freeBlocks_setList_cons cls c i s rest
  rw [setList_self hl] at hperm
  have hlists : (c.unlink i s rest).freeBlocks cls = (c.setList i rest).freeBlocks cls :=
    freeBlocks_congr _ _ rfl
  rw [hlists]
  exact hperm

theorem unlink_outside (c : Content) (i : Fin 3) (s : Slot) (rest : List Slot)
    {len : Nat} (hlen : 0 < len) : SameBitsOutside s len c (c.unlink i s rest) := by
  have h : SameBitsOutside s len c
      (c.setBits s.no ((c.body s.no).bits.write (64 * s.off) 11 chkMaxChkNum)) := by
    apply SameBitsOutside.setBits
    intro j hj
    exact Bits.write_outside (by omega)
  exact h

theorem unlink_cover (cls : Fin 3 -> Nat) {i : Fin 3} {s : Slot} {rest : List Slot}
    (hl : c.lists i = s :: rest) (k : Nat) (u : Nat) :
    Extent.cover (c.freeBlocks cls) k u =
      (s.block (cls i)).covers k u +
        Extent.cover ((c.unlink i s rest).freeBlocks cls) k u := by
  rw [Extent.cover_perm (unlink_perm cls hl), Extent.cover_cons]

theorem mem_of_unlink {i i' : Fin 3} {s t : Slot} {rest : List Slot}
    (hl : c.lists i = s :: rest) (ht : t ∈ (c.unlink i s rest).lists i') : t ∈ c.lists i' := by
  rw [unlink_lists, Function.update_apply] at ht
  split at ht
  · next heq =>
      rw [heq, hl]
      exact List.mem_cons_of_mem _ ht
  · exact ht

theorem unlink_apart {i : Fin 3} {s : Slot} {rest : List Slot} (h : Tiling cls bs c)
    (hl : c.lists i = s :: rest) {i' : Fin 3} {t : Slot}
    (ht : t ∈ (c.unlink i s rest).lists i') {j : Nat} (hj1 : 64 * t.off ≤ j)
    (hj2 : j < 64 * t.off + 32) :
    ((c.unlink i s rest).body t.no).bits j = (c.body t.no).bits j := by
  have hslot := h.slot_bound (i := i) (s := s) (by
    rw [hl]
    exact List.mem_cons_self)
  apply unlink_outside c i s rest hslot.1
  rintro ⟨hno, hlo, hhi⟩
  have hmem : t.block (cls i') ∈ (c.unlink i s rest).freeBlocks cls :=
    mem_freeBlocks.mpr ⟨i', t, ht, rfl⟩
  have hbound := h.slot_bound (mem_of_unlink hl ht)
  have h1 : (t.block (cls i')).covers s.no t.off = 1 := by
    rw [← hno]
    exact Extent.covers_of (Nat.le_refl _) (by simp only [Slot.block]; omega)
  have h2 : (s.block (cls i)).covers s.no t.off = 1 := by
    apply Extent.covers_of <;> simp only [Slot.block] <;> omega
  have h3 := Extent.covers_le_cover hmem s.no t.off
  have h4 := h.cover_le_one s.no t.off
  have h5 := unlink_cover cls hl s.no t.off
  omega

theorem unlink_tiling {i : Fin 3} {s : Slot} {rest : List Slot} (h : Tiling cls bs c)
    (hl : c.lists i = s :: rest) :
    Tiling cls (s.block (cls i) :: bs) (c.unlink i s rest) := by
  have hslot := h.slot_bound (i := i) (s := s) (by
    rw [hl]
    exact List.mem_cons_self)
  have hmarks := unlink_sameMarks c i s rest
  constructor
  · exact h.num_le
  · intro k hk
    rw [hmarks.virgin]
    exact h.virgin_le k hk
  · intro k hk
    rw [hmarks.virgin]
    exact h.reserved_le k hk
  · intro k u
    have hle := h.cover_le k u
    have hc := unlink_cover cls hl k u
    rw [hmarks.num, hmarks.virgin, Extent.cover_cons]
    omega
  · intro i' hne
    rw [unlink_lists, Function.update_apply] at hne
    split at hne
    · next heq =>
        rw [heq]
        exact hslot.1
    · exact h.class_pos i' hne
  · intro i'
    have hrest : c.Chain ((c.unlink i s rest).lists i') := by
      rw [unlink_lists, Function.update_apply]
      split
      · have hchain := h.chain i
        rw [hl] at hchain
        exact hchain.2
      · exact h.chain i'
    exact hrest.congr fun t ht j hj1 hj2 => unlink_apart h hl ht hj1 hj2
  · intro k hk j hj
    rw [hmarks.virgin] at hj
    rw [unlink_outside c i s rest hslot.1]
    · exact h.above k hk j hj
    · rintro ⟨hno, _, hhi⟩
      rw [hno] at hj
      omega

/-- Unlinking moves a block from the free blocks to the blocks that are out. -/
theorem unlink_taken {i : Fin 3} {s : Slot} {rest : List Slot} (h : Tiling cls bs c)
    (hl : c.lists i = s :: rest) :
    Taken cls bs (s.block (cls i)) c (c.unlink i s rest) := by
  have hmem : s ∈ c.lists i := by
    rw [hl]
    exact List.mem_cons_self
  refine ⟨unlink_tiling h hl, unlink_sameMarks c i s rest, ?_, ?_⟩
  · apply (unlink_outside c i s rest (h.slot_bound hmem).1).keepsBits
    intro u h1 h2
    have hmem' : s.block (cls i) ∈ c.freeBlocks cls := mem_freeBlocks.mpr ⟨i, s, hmem, rfl⟩
    have hcov : (s.block (cls i)).covers s.no u = 1 := Extent.covers_of h1 h2
    have hle := Extent.covers_le_cover hmem' s.no u
    have hone := h.cover_le_one s.no u
    omega
  · have htotal : Extent.total (c.freeBlocks cls) =
        cls i + Extent.total ((c.unlink i s rest).freeBlocks cls) := by
      unfold Extent.total
      rw [((unlink_perm cls hl).map Extent.len).sum_eq, List.map_cons, List.sum_cons]
      rfl
    show _ + cls i ≤ _
    omega

/-- What is handed to the pool keeps the bytes of the blocks that stay out. -/
theorem Pooled.keepsBits {s : Slot} {left : Nat} {c' : Content}
    (h : Pooled cls s left c c') (ht : Tiling cls (s.block left :: bs) c) :
    KeepsBits bs c c' :=
  h.outside.keepsBits fun _ h1 h2 => ht.apart h1 h2

theorem poolTake_ensures {i : Fin 3} {s : Slot} {rest : List Slot} {len : Nat}
    (h : Tiling cls bs c) (hl : c.lists i = s :: rest) (hlen : len ≤ cls i) :
    Exec.Ensures (poolTake cls i len c)
      (fun p c' => p = blockPtr (s.block len) ∧ Taken cls bs (s.block len) c c')
      (PoolFault cls) := by
  have htaken := unlink_taken h hl
  unfold poolTake
  rw [Exec.bind_of_ok (Exec.state_apply _)]
  simp only [hl]
  rw [Exec.bind_of_ok (Exec.update_apply _ _)]
  by_cases hlt : len < cls i
  · rw [if_pos hlt]
    -- the block is cut in two before its rest is handed back
    have hcut : Tiling cls
        ((⟨s.no, s.off + len⟩ : Slot).block (cls i - len) :: s.block len :: bs)
        (c.unlink i s rest) := by
      apply htaken.tiling.weaken
      intro k u
      have hsplit := Extent.covers_split s.no k s.off len (cls i - len) u
      rw [Nat.add_sub_cancel' hlen] at hsplit
      simp only [Extent.cover_cons, Slot.block] at hsplit ⊢
      omega
    refine Exec.Ensures.bind ((poolFree_ensures _ _ hcut).mono (fun _ _ hq => hq)
      (fun _ he => he)) ?_
    rintro _ c' ⟨htiling, hpooled⟩
    refine ⟨rfl, htiling, htaken.marks.trans hpooled.marks, ?_, ?_⟩
    · have hkept := hpooled.keepsBits hcut
      have hkept' : KeepsBits bs (c.unlink i s rest) c' := by
        intro k u hu
        apply hkept k u
        rw [Extent.cover_cons]
        omega
      exact htaken.kept.trans hkept'
    · rcases hpooled.taken with ⟨n, hn, _, _, htotal⟩
      have hle := htaken.total
      simp only [Slot.block] at hle ⊢
      omega
  · rw [if_neg hlt]
    have heq : len = cls i := by omega
    subst heq
    exact ⟨rfl, htaken⟩

theorem fitClass_some {len : Nat} {i : Fin 3} (h : fitClass cls c len = some i) :
    len ≤ cls i ∧ c.lists i ≠ [] := by
  have hsome := List.find?_some h
  simpa using hsome

/-- `ChkMemMgr::alloc` either finds nothing and changes nothing, or takes a
block of exactly the requested size. -/
theorem poolAlloc_ensures (len : Nat) (h : Tiling cls bs c) :
    Exec.Ensures (poolAlloc cls len c)
      (fun p c' => (p.IsNull ∧ c' = c) ∨
        (¬p.IsNull ∧ exists b : Block, p = blockPtr b ∧ b.len = len ∧
          Taken cls bs b c c'))
      (PoolFault cls) := by
  unfold poolAlloc
  rw [Exec.bind_of_ok (Exec.state_apply _)]
  cases hfit : fitClass cls c len with
  | none =>
      exact Or.inl ⟨rfl, rfl⟩
  | some i =>
      have hi := fitClass_some hfit
      cases hl : c.lists i with
      | nil =>
          exact absurd hl hi.2
      | cons s rest =>
          have hmem : s ∈ c.lists i := by
            rw [hl]
            exact List.mem_cons_self
          refine (poolTake_ensures h hl hi.1).mono ?_ (fun _ he => he)
          rintro p c' ⟨hp, htaken⟩
          refine Or.inr ⟨?_, s.block len, hp, rfl, htaken⟩
          have hbound := h.slot_bound hmem
          have hnum := h.num_le
          rw [hp]
          unfold ChkPtr.IsNull
          simp only [blockPtr, Slot.block, chkMaxChkNum]
          omega

end Content
end ChunkMem
