import ChunkMem.Arena.Content

/-!
# No unit is used twice

The invariant on contents: the blocks that are out (given as a list) and the
blocks of the free lists cover no unit of a chunk twice, keep off the reserved
units and stay below the virgin mark; every free block carries the link to its
successor; above the virgin marks all memory is clear.

Handing a block to the pool is analysed with the block counted among the blocks
that are out until the last piece is cut off.
-/

namespace ChunkMem

open Foundation

namespace Content

def Chain (c : Content) : List Slot -> Prop
  | [] => True
  | s :: rest =>
      (c.body s.no).bits.readPtr (64 * s.off) = headLink rest ∧ c.Chain rest

structure Tiling (cls : Fin 3 -> Nat) (bs : List Block) (c : Content) : Prop where
  num_le : c.num ≤ 2047
  virgin_le : forall k, k < c.num -> (c.body k).virgin ≤ 2048
  reserved_le : forall k, k < c.num -> reserved k ≤ (c.body k).virgin
  cover_le : forall k u,
    Extent.cover bs k u + Extent.cover (c.freeBlocks cls) k u ≤
      if k < c.num ∧ reserved k ≤ u ∧ u < (c.body k).virgin then 1 else 0
  class_pos : forall i, c.lists i ≠ [] -> 0 < cls i
  chain : forall i, c.Chain (c.lists i)
  above : forall k, k < c.num -> forall j, 64 * (c.body k).virgin ≤ j ->
    (c.body k).bits j = false

def PoolFault (cls : Fin 3 -> Nat) (e : Fault) : Prop :=
  (e = .assertion ∨ e = .diverge) ∧ ¬forall i, 0 < cls i

theorem le_ite_one {n : Nat} {p : Prop} [Decidable p] (h1 : n ≤ 1)
    (hp : 0 < n -> p) : n ≤ if p then 1 else 0 := by
  split
  · exact h1
  · next hnp =>
      by_contra hcon
      exact hnp (hp (by omega))

theorem reserved_ge (k : Nat) : 2 ≤ reserved k := by
  unfold reserved
  split <;> omega

theorem reserved_le_five (k : Nat) : reserved k ≤ 5 := by
  unfold reserved
  split <;> omega

namespace Tiling

variable {cls : Fin 3 -> Nat} {bs : List Block} {c : Content}

/-- A covered unit lies between the reserved units and the virgin mark. -/
theorem bound (h : Tiling cls bs c) {k u : Nat}
    (hpos : 0 < Extent.cover bs k u + Extent.cover (c.freeBlocks cls) k u) :
    k < c.num ∧ reserved k ≤ u ∧ u < (c.body k).virgin := by
  have hle := h.cover_le k u
  by_contra hcon
  rw [if_neg hcon] at hle
  omega

theorem cover_le_one (h : Tiling cls bs c) (k u : Nat) :
    Extent.cover bs k u + Extent.cover (c.freeBlocks cls) k u ≤ 1 := by
  have hle := h.cover_le k u
  split at hle <;> omega

theorem block_bound (h : Tiling cls bs c) {b : Block} (hb : b ∈ bs)
    (hpos : 0 < b.len) :
    b.space < c.num ∧ reserved b.space ≤ b.start ∧
      b.start + b.len ≤ (c.body b.space).virgin := by
  have hfirst : b.covers b.space b.start = 1 :=
    Extent.covers_of (Nat.le_refl _) (by omega)
  have hlast : b.covers b.space (b.start + b.len - 1) = 1 :=
    Extent.covers_of (by omega) (by omega)
  have h1 := Extent.covers_le_cover hb b.space b.start
  have h2 := Extent.covers_le_cover hb b.space (b.start + b.len - 1)
  have hlo := h.bound (k := b.space) (u := b.start) (by omega)
  have hhi := h.bound (k := b.space) (u := b.start + b.len - 1) (by omega)
  exact ⟨hlo.1, hlo.2.1, by omega⟩

theorem slot_bound (h : Tiling cls bs c) {i : Fin 3} {s : Slot}
    (hs : s ∈ c.lists i) :
    0 < cls i ∧ s.no < c.num ∧ reserved s.no ≤ s.off ∧
      s.off + cls i ≤ (c.body s.no).virgin := by
  have hpos : 0 < cls i := h.class_pos i (List.ne_nil_of_mem hs)
  have hmem : s.block (cls i) ∈ c.freeBlocks cls := mem_freeBlocks.mpr ⟨i, s, hs, rfl⟩
  have hfirst : (s.block (cls i)).covers s.no s.off = 1 :=
    Extent.covers_of (Nat.le_refl _) (by simp [Slot.block]; omega)
  have hlast : (s.block (cls i)).covers s.no (s.off + cls i - 1) = 1 :=
    Extent.covers_of (by simp [Slot.block]; omega) (by simp [Slot.block]; omega)
  have h1 := Extent.covers_le_cover hmem s.no s.off
  have h2 := Extent.covers_le_cover hmem s.no (s.off + cls i - 1)
  have hlo := h.bound (k := s.no) (u := s.off) (by omega)
  have hhi := h.bound (k := s.no) (u := s.off + cls i - 1) (by omega)
  exact ⟨hpos, hlo.1, hlo.2.1, by omega⟩

theorem not_free_of_out (h : Tiling cls bs c) {k u : Nat}
    (hout : 0 < Extent.cover bs k u) {i : Fin 3} {s : Slot} (hs : s ∈ c.lists i) :
    ¬(s.no = k ∧ s.off ≤ u ∧ u < s.off + cls i) := by
  rintro ⟨hk, hlo, hhi⟩
  have hmem : s.block (cls i) ∈ c.freeBlocks cls := mem_freeBlocks.mpr ⟨i, s, hs, rfl⟩
  have hcov : (s.block (cls i)).covers k u = 1 := by
    rw [← hk]
    exact Extent.covers_of hlo hhi
  have hle := Extent.covers_le_cover hmem k u
  have hone := h.cover_le_one k u
  omega

theorem weaken (h : Tiling cls bs c) {bs' : List Block}
    (hle : forall k u, Extent.cover bs' k u ≤ Extent.cover bs k u) :
    Tiling cls bs' c where
  num_le := h.num_le
  virgin_le := h.virgin_le
  reserved_le := h.reserved_le
  cover_le := by
    intro k u
    have h1 := h.cover_le k u
    have h2 := hle k u
    omega
  class_pos := h.class_pos
  chain := h.chain
  above := h.above

theorem link_fits (h : Tiling cls bs c) {i : Fin 3} {l : List Slot}
    (hl : forall s, s ∈ l -> s ∈ c.lists i) :
    (headLink l).chkNo < 2 ^ 11 ∧ (headLink l).offset < 2 ^ 12 ∧
      (headLink l).size < 2 ^ 9 := by
  cases l with
  | nil =>
      simp [headLink, chkNull]
  | cons s rest =>
      have hb := h.slot_bound (hl s List.mem_cons_self)
      have hnum := h.num_le
      have hv := h.virgin_le s.no hb.2.1
      simp only [headLink, Slot.link]
      omega

end Tiling

/-!
## Links survive writes elsewhere
-/

theorem Chain.congr {c c' : Content} {l : List Slot} (h : c.Chain l)
    (hbits : forall s, s ∈ l -> forall j, 64 * s.off ≤ j -> j < 64 * s.off + 32 ->
      (c'.body s.no).bits j = (c.body s.no).bits j) : c'.Chain l := by
  induction l with
  | nil =>
      trivial
  | cons s rest ih =>
      refine ⟨?_, ih h.2 fun t ht => hbits t (List.mem_cons_of_mem _ ht)⟩
      rw [← h.1]
      apply Bits.readPtr_congr
      intro j hj
      exact hbits s List.mem_cons_self _ (by omega) (by omega)

structure SameMarks (c c' : Content) : Prop where
  num : c'.num = c.num
  used : forall k, (c'.body k).used = (c.body k).used
  virgin : forall k, (c'.body k).virgin = (c.body k).virgin
  totalUsed : c'.totalUsed = c.totalUsed
  totalFree : c'.totalFree = c.totalFree

namespace SameMarks

theorem refl (c : Content) : SameMarks c c :=
  ⟨rfl, fun _ => rfl, fun _ => rfl, rfl, rfl⟩

theorem trans {c c' c'' : Content} (h : SameMarks c c') (h' : SameMarks c' c'') :
    SameMarks c c'' :=
  ⟨h'.num.trans h.num, fun k => (h'.used k).trans (h.used k),
    fun k => (h'.virgin k).trans (h.virgin k), h'.totalUsed.trans h.totalUsed,
    h'.totalFree.trans h.totalFree⟩

theorem setBits (c : Content) (k : Nat) (m : Bits) : SameMarks c (c.setBits k m) := by
  refine ⟨rfl, ?_, ?_, rfl, rfl⟩ <;>
    · intro k'
      unfold Content.setBits
      rw [setBody_body]
      split
      · next hk => rw [hk]
      · rfl

theorem setList (c : Content) (i : Fin 3) (l : List Slot) :
    SameMarks c (c.setList i l) :=
  ⟨rfl, fun _ => rfl, fun _ => rfl, rfl, rfl⟩

end SameMarks

theorem setBits_bits (c : Content) (k k' : Nat) (m : Bits) :
    ((c.setBits k m).body k').bits = if k' = k then m else (c.body k').bits := by
  unfold setBits
  rw [setBody_body]
  split <;> rfl

def SameBitsOutside (s : Slot) (len : Nat) (c c' : Content) : Prop :=
  forall k j, ¬(k = s.no ∧ 64 * s.off ≤ j ∧ j < 64 * (s.off + len)) ->
    (c'.body k).bits j = (c.body k).bits j

theorem SameBitsOutside.setBits {c : Content} {s : Slot} {len : Nat} {m : Bits}
    (h : forall j, j < 64 * s.off ∨ 64 * (s.off + len) ≤ j ->
      m j = (c.body s.no).bits j) :
    SameBitsOutside s len c (c.setBits s.no m) := by
  intro k j hout
  rw [setBits_bits]
  split
  · next hk =>
      rw [hk]
      apply h
      by_contra hcon
      push Not at hcon
      exact hout ⟨hk, by omega, by omega⟩
  · rfl

/-!
## Handing a block to the pool
-/

section Pool

variable {cls : Fin 3 -> Nat} {bs : List Block} {c : Content}

theorem pickClass_le {left : Nat} (h : cls 0 ≤ left) :
    cls (ChkMemMgr.pickClass cls left) ≤ left := by
  unfold ChkMemMgr.pickClass
  split
  · assumption
  · split <;> assumption

theorem push_sameMarks (c : Content) (i : Fin 3) (s : Slot) (len : Nat) :
    SameMarks c (c.push i s len) := by
  unfold push
  exact (SameMarks.setBits _ _ _).trans (SameMarks.setList _ _ _)

theorem push_lists (c : Content) (i : Fin 3) (s : Slot) (len : Nat) :
    (c.push i s len).lists = Function.update c.lists i (s :: c.lists i) := rfl

theorem push_bits (c : Content) (i : Fin 3) (s : Slot) (len k : Nat) :
    ((c.push i s len).body k).bits =
      if k = s.no then
        ((c.body s.no).bits.clear (64 * s.off) (64 * len)).writePtr (64 * s.off)
          (headLink (c.lists i))
      else (c.body k).bits := by
  unfold push
  rw [setList_body, setBits_bits]

theorem push_outside {i : Fin 3} {s : Slot} {len : Nat} (hlen : 0 < len) :
    SameBitsOutside s len c (c.push i s len) := by
  intro k j hout
  rw [push_bits]
  split
  · next hk =>
      have hj : j < 64 * s.off ∨ 64 * (s.off + len) ≤ j := by
        by_contra hcon
        push Not at hcon
        exact hout ⟨hk, by omega, by omega⟩
      rw [hk, Bits.writePtr_outside (by omega), Bits.clear_outside (by omega)]
  · rfl

/-- Pushing a piece moves its units from the blocks that are out to the free
blocks. -/
theorem push_cover (i : Fin 3) (s : Slot) (k u : Nat) :
    Extent.cover ((c.push i s (cls i)).freeBlocks cls) k u =
      (s.block (cls i)).covers k u + Extent.cover (c.freeBlocks cls) k u := by
  have hlists : (c.push i s (cls i)).freeBlocks cls =
      (c.setList i (s :: c.lists i)).freeBlocks cls := freeBlocks_congr _ _ rfl
  rw [hlists, Extent.cover_perm (freeBlocks_setList_cons cls c i s (c.lists i)),
    Extent.cover_cons, setList_self rfl]

theorem push_total (i : Fin 3) (s : Slot) :
    Extent.total ((c.push i s (cls i)).freeBlocks cls) =
      cls i + Extent.total (c.freeBlocks cls) := by
  have hlists : (c.push i s (cls i)).freeBlocks cls =
      (c.setList i (s :: c.lists i)).freeBlocks cls := freeBlocks_congr _ _ rfl
  have hperm := freeBlocks_setList_cons cls c i s (c.lists i)
  rw [hlists]
  unfold Extent.total
  rw [(hperm.map Extent.len).sum_eq, setList_self rfl, List.map_cons, List.sum_cons]
  rfl

theorem push_tiling {i : Fin 3} {s : Slot} {rest : Nat} (hpos : 0 < cls i)
    (h : Tiling cls (s.block (cls i + rest) :: bs) c) :
    Tiling cls ((⟨s.no, s.off + cls i⟩ : Slot).block rest :: bs)
      (c.push i s (cls i)) := by
  have hsame := push_sameMarks c i s (cls i)
  have hout := push_outside (c := c) (i := i) (s := s) hpos
  have hblock := h.block_bound (b := s.block (cls i + rest)) List.mem_cons_self
    (by simp [Slot.block]; omega)
  simp only [Slot.block] at hblock
  -- a free block shares no unit with the block being cut
  have hapart : forall i', forall t, t ∈ c.lists i' -> forall j, 64 * t.off ≤ j ->
      j < 64 * t.off + 32 ->
      ((c.push i s (cls i)).body t.no).bits j = (c.body t.no).bits j := by
    intro i' t ht j hj1 hj2
    apply hout
    rintro ⟨hno, hlo, hhi⟩
    have hcov : 0 < Extent.cover (s.block (cls i + rest) :: bs) s.no t.off := by
      rw [Extent.cover_cons]
      have : (s.block (cls i + rest)).covers s.no t.off = 1 := by
        apply Extent.covers_of <;> simp only [Slot.block] <;> omega
      omega
    have hbound := h.slot_bound ht
    exact h.not_free_of_out hcov ht ⟨hno, Nat.le_refl _, by omega⟩
  constructor
  · rw [hsame.num]
    exact h.num_le
  · intro k hk
    rw [hsame.virgin]
    exact h.virgin_le k (hsame.num ▸ hk)
  · intro k hk
    rw [hsame.virgin]
    exact h.reserved_le k (hsame.num ▸ hk)
  · intro k u
    have hle := h.cover_le k u
    rw [push_cover, hsame.num, hsame.virgin, Extent.cover_cons]
    rw [Extent.cover_cons] at hle
    have hsplit := Extent.covers_split s.no k s.off (cls i) rest u
    simp only [Slot.block] at hle ⊢
    omega
  · intro i' hne
    rw [push_lists, Function.update_apply] at hne
    split at hne
    · next heq => rw [heq]; exact hpos
    · exact h.class_pos i' hne
  · intro i'
    rw [push_lists, Function.update_apply]
    split
    · next heq =>
        have hfits := h.link_fits (i := i) (l := c.lists i) (fun _ ht => ht)
        refine ⟨?_, (h.chain i).congr (hapart i)⟩
        rw [push_bits, if_pos rfl]
        exact Bits.readPtr_writePtr hfits.1 hfits.2.1 hfits.2.2
    · exact (h.chain i').congr (hapart i')
  · intro k hk j hj
    rw [hsame.virgin] at hj
    rw [hsame.num] at hk
    rw [hout]
    · exact h.above k hk j hj
    · rintro ⟨hno, _, hhi⟩
      rw [hno] at hj
      omega

/-- What the pool did with a block: it linked all units but a tail, and touched
nothing outside the block. -/
structure Pooled (cls : Fin 3 -> Nat) (s : Slot) (left : Nat) (c c' : Content) :
    Prop where
  marks : SameMarks c c'
  outside : SameBitsOutside s left c c'
  taken : exists n, n ≤ left ∧ left < n + cls 0 ∧
    (forall k u, Extent.cover (c'.freeBlocks cls) k u =
      (s.block n).covers k u + Extent.cover (c.freeBlocks cls) k u) ∧
    Extent.total (c'.freeBlocks cls) = n + Extent.total (c.freeBlocks cls)

theorem Pooled.step {i : Fin 3} {s : Slot} {left : Nat} {c' : Content}
    (hpos : 0 < cls i) (hle : cls i ≤ left)
    (h : Pooled cls ⟨s.no, s.off + cls i⟩ (left - cls i) (c.push i s (cls i)) c') :
    Pooled cls s left c c' where
  marks := (push_sameMarks c i s (cls i)).trans h.marks
  outside := by
    intro k j hout
    rw [h.outside k j, push_outside hpos k j]
    · rintro ⟨hk, hlo, hhi⟩
      exact hout ⟨hk, hlo, by omega⟩
    · rintro ⟨hk, hlo, hhi⟩
      simp only at hk hlo hhi
      exact hout ⟨hk, by omega, by omega⟩
  taken := by
    rcases h.taken with ⟨n, hn, hlt, hcover, htotal⟩
    refine ⟨cls i + n, by omega, by omega, ?_, ?_⟩
    · intro k u
      rw [hcover, push_cover]
      have hsplit := Extent.covers_split s.no k s.off (cls i) n u
      simp only [Slot.block] at hsplit ⊢
      omega
    · rw [htotal, push_total]
      omega

theorem freeLoop_ensures :
    forall (fuel : Nat) (s : Slot) (left : Nat) (c : Content), left < fuel ->
      Tiling cls (s.block left :: bs) c ->
      Exec.Ensures (freeLoop cls fuel s left c)
        (fun _ c' => Tiling cls bs c' ∧ Pooled cls s left c c')
        (PoolFault cls) := by
  intro fuel
  induction fuel with
  | zero =>
      intro s left c hfuel
      omega
  | succ fuel ih =>
      intro s left c hfuel h
      unfold freeLoop
      rw [Exec.ite_apply]
      split
      · next hle =>
          have hpick := pickClass_le hle
          by_cases hpos : 0 < cls (ChkMemMgr.pickClass cls left)
          · rw [Exec.bind_of_ok (Exec.update_apply _ _)]
            have hcut : left = cls (ChkMemMgr.pickClass cls left) +
                (left - cls (ChkMemMgr.pickClass cls left)) := by omega
            rw [hcut] at h
            refine (ih _ _ _ (by omega) (push_tiling hpos h)).mono ?_ (fun _ he => he)
            intro _ c' hc'
            exact ⟨hc'.1, hc'.2.step hpos hpick⟩
          · -- a class of size zero: the loop can only run out of fuel
            have hfault : forall fuel s c, freeLoop cls fuel s left c =
                .error .diverge := by
              intro fuel
              induction fuel with
              | zero =>
                  intro s c
                  rfl
              | succ fuel ihf =>
                  intro s c
                  unfold freeLoop
                  rw [if_pos hle, Exec.bind_of_ok (Exec.update_apply _ _)]
                  have hz : cls (ChkMemMgr.pickClass cls left) = 0 := by omega
                  rw [hz]
                  exact ihf _ _
            rw [Exec.bind_of_ok (Exec.update_apply _ _)]
            have hz : cls (ChkMemMgr.pickClass cls left) = 0 := by omega
            rw [hz, Nat.sub_zero, hfault]
            exact ⟨Or.inr rfl, fun hall => hpos (hall _)⟩
      · next hlt =>
          refine ⟨h.weaken ?_, SameMarks.refl c, fun _ _ _ => rfl, 0, by omega,
            by omega, ?_, by omega⟩
          · intro k u
            rw [Extent.cover_cons]
            omega
          · intro k u
            rw [Extent.covers_eq_zero_of_len rfl, Nat.zero_add]

theorem poolFree_ensures (s : Slot) (len : Nat)
    (h : Tiling cls (s.block len :: bs) c) :
    Exec.Ensures (poolFree cls s len c)
      (fun _ c' => Tiling cls bs c' ∧ Pooled cls s len c c')
      (PoolFault cls) := by
  unfold poolFree
  by_cases hzero : cls 0 = 0
  · rw [Exec.bind_of_error (Exec.require_of_not (by simpa using hzero) _ _)]
    exact ⟨Or.inl rfl, fun hall => by have := hall 0; omega⟩
  · rw [Exec.bind_of_ok (Exec.require_of hzero _ _)]
    exact freeLoop_ensures _ _ _ _ (by omega) h

end Pool

end Content
end ChunkMem
