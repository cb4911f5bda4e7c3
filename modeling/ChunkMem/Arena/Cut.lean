import ChunkMem.Arena.Room

/-!
# Which runs of units can be cut

With a size class of zero `ChkMemMgr::free` stops at its assertion, or takes pieces of
length zero for ever.  It returns for a run of units exactly when no class it picks on the
way is zero, and operations that hand it no other runs return whatever the classes are.
-/

namespace ChunkMem

open Foundation

/-- No class that is picked for `n` units, or for what is left of them, is zero. -/
def Cuttable (cls : Fin 3 -> Nat) (n : Nat) : Prop :=
  0 < cls 0 ∧ (n < cls 0 ∨ 0 < cls 2 ∧ (0 < cls 1 ∨ n % cls 2 < cls 0))

instance (cls : Fin 3 -> Nat) (n : Nat) : Decidable (Cuttable cls n) :=
  inferInstanceAs (Decidable (_ ∧ _))

namespace Cuttable

variable {cls : Fin 3 -> Nat} {n : Nat}

theorem of_pos (h : forall i, 0 < cls i) (n : Nat) : Cuttable cls n :=
  ⟨h 0, Or.inr ⟨h 2, Or.inl (h 1)⟩⟩

theorem pick (h : Cuttable cls n) (hle : cls 0 ≤ n) :
    0 < cls (ChkMemMgr.pickClass cls n) ∧
      Cuttable cls (n - cls (ChkMemMgr.pickClass cls n)) := by
  rcases h with ⟨h0, hlt | ⟨h2, hrest⟩⟩
  · omega
  · unfold ChkMemMgr.pickClass
    split
    · next hle2 =>
        refine ⟨h2, h0, Or.inr ⟨h2, hrest.imp_right fun hmod => ?_⟩⟩
        rwa [Nat.mod_eq_sub_mod hle2] at hmod
    · next hlt2 =>
        -- below the third class the remainder is what is left
        have h1 : 0 < cls 1 := by
          rcases hrest with h1 | hmod
          · exact h1
          · rw [Nat.mod_eq_of_lt (by omega)] at hmod
            omega
        split
        · exact ⟨h1, h0, Or.inr ⟨h2, Or.inl h1⟩⟩
        · exact ⟨h0, h0, Or.inr ⟨h2, Or.inl h1⟩⟩

/-- What is left is as bad, where the class that is picked is not zero. -/
theorem of_pick (h0 : 0 < cls 0) (hle : cls 0 ≤ n) (hpos : 0 < cls (ChkMemMgr.pickClass cls n))
    (h : Cuttable cls (n - cls (ChkMemMgr.pickClass cls n))) : Cuttable cls n := by
  unfold ChkMemMgr.pickClass at hpos h
  split at h
  · next hle2 =>
      rw [if_pos hle2] at hpos
      refine ⟨h0, Or.inr ⟨hpos, ?_⟩⟩
      rcases h.2 with hlt | ⟨-, h1 | hmod⟩
      · rw [Nat.mod_eq_sub_mod hle2]
        exact Or.inr (Nat.lt_of_le_of_lt (Nat.mod_le _ _) hlt)
      · exact Or.inl h1
      · rw [Nat.mod_eq_sub_mod hle2]
        exact Or.inr hmod
  · next hlt2 =>
      rw [if_neg hlt2] at hpos
      have h2 : 0 < cls 2 := by omega
      split at hpos
      · exact ⟨h0, Or.inr ⟨h2, Or.inl hpos⟩⟩
      · next hlt1 => exact ⟨h0, Or.inr ⟨h2, Or.inl (by omega)⟩⟩

end Cuttable

namespace Content

section Cut

variable {cls : Fin 3 -> Nat} {bs : List Block} {c : Content}

theorem freeLoop_ok : forall (fuel left : Nat) (s : Slot) (c : Content), left < fuel ->
    Cuttable cls left -> exists c', freeLoop cls fuel s left c = .ok ((), c') := by
  intro fuel
  induction fuel with
  | zero =>
      intro left s c hlt
      omega
  | succ fuel ih =>
      intro left s c hlt h
      unfold freeLoop
      rw [Exec.ite_apply]
      split
      · next hle =>
          rcases h.pick hle with ⟨hpos, hrest⟩
          have hpick := pickClass_le hle
          rw [Exec.bind_of_ok (Exec.update_apply _ _)]
          exact ih _ _ _ (by omega) hrest
      · exact ⟨c, rfl⟩

theorem freeLoop_stuck (h0 : 0 < cls 0) : forall (fuel left : Nat) (s : Slot) (c : Content),
    ¬Cuttable cls left -> freeLoop cls fuel s left c = .error .diverge := by
  intro fuel
  induction fuel with
  | zero =>
      intro left s c _
      rfl
  | succ fuel ih =>
      intro left s c h
      have hle : cls 0 ≤ left := by
        by_contra hlt
        exact h ⟨h0, Or.inl (by omega)⟩
      unfold freeLoop
      rw [if_pos hle, Exec.bind_of_ok (Exec.update_apply _ _)]
      apply ih
      intro hrest
      by_cases hpos : 0 < cls (ChkMemMgr.pickClass cls left)
      · exact h (.of_pick h0 hle hpos hrest)
      · rw [Nat.eq_zero_of_not_pos hpos] at hrest
        exact h hrest

theorem poolFree_ok_iff (s : Slot) (n : Nat) (c : Content) :
    (exists c', poolFree cls s n c = .ok ((), c')) <-> Cuttable cls n := by
  unfold poolFree
  constructor
  · rintro ⟨c', hrun⟩
    by_contra hcon
    by_cases hzero : cls 0 = 0
    · rw [Exec.bind_of_error (Exec.require_of_not (by simpa using hzero) _ _)] at hrun
      cases hrun
    · rw [Exec.bind_of_ok (Exec.require_of hzero _ _),
        freeLoop_stuck (by omega) _ _ _ _ hcon] at hrun
      cases hrun
  · intro h
    rw [Exec.bind_of_ok (Exec.require_of (Nat.ne_of_gt h.1) _ _)]
    exact freeLoop_ok _ _ _ _ (by omega) h

theorem poolFree_ok {n : Nat} (h : Cuttable cls n) (s : Slot) (c : Content) :
    exists c', poolFree cls s n c = .ok ((), c') := (poolFree_ok_iff s n c).mpr h

/-- A release returns exactly when the block is the topmost one of its chunk or can be cut. -/
theorem free_ok_iff (c : Content) (b : Block) :
    (exists c', free cls b c = .ok ((), c')) <->
      b.start + b.len = (c.body b.space).virgin ∨ Cuttable cls b.len := by
  have hmarks := SameMarks.setBits c b.space
    ((c.body b.space).bits.clear (64 * b.start) (64 * b.len))
  rw [← hmarks.virgin b.space]
  unfold free
  rw [Exec.bind_of_ok (Exec.update_apply _ _)]
  generalize c.setBits b.space ((c.body b.space).bits.clear (64 * b.start) (64 * b.len)) = c₁
  rw [Exec.bind_of_ok (Exec.state_apply _)]
  by_cases htop : b.start + b.len = (c₁.body b.space).virgin
  · simp only [htop, if_true, true_or, iff_true]
    rw [Exec.bind_of_ok (Exec.update_apply _ _)]
    exact ⟨_, rfl⟩
  · simp only [htop, if_false, false_or]
    rw [← poolFree_ok_iff ⟨b.space, b.start⟩ b.len (c₁.addFree b.len),
      Exec.bind_of_ok (Exec.update_apply _ _)]
    constructor
    · rintro ⟨c', hrun⟩
      rcases Exec.ok_of_bind hrun with ⟨_, c₂, hpool, -⟩
      exact ⟨c₂, hpool⟩
    · rintro ⟨c₂, hpool⟩
      rw [Exec.bind_of_ok hpool]
      exact ⟨_, rfl⟩

/-!
## Allocations
-/

/-- What an allocation with at least one chunk there hands to the pool can be cut: the rest
of a block of a class, or the rest of a chunk that is the last one no more. -/
def AllocCuts (cls : Fin 3 -> Nat) (limit len : Nat) (c : Content) : Prop :=
  match fitClass cls c len with
  | some i => len = cls i ∨ Cuttable cls (cls i - len)
  | none => c.FitsLast limit len ∨ 2047 ≤ c.num ∨ limit ≤ (c.body (c.num - 1)).virgin ∨
      Cuttable cls (limit - (c.body (c.num - 1)).virgin)

theorem poolTake_ok {i : Fin 3} {len : Nat} (h : len = cls i ∨ Cuttable cls (cls i - len))
    (c : Content) : exists p c', poolTake cls i len c = .ok (p, c') := by
  unfold poolTake
  rw [Exec.bind_of_ok (Exec.state_apply _)]
  cases hl : c.lists i with
  | nil => exact ⟨_, _, rfl⟩
  | cons s rest =>
      simp only
      rw [Exec.bind_of_ok (Exec.update_apply _ _)]
      by_cases hlt : len < cls i
      · rw [if_pos hlt]
        rcases poolFree_ok (h.resolve_left (by omega)) ⟨s.no, s.off + len⟩ (c.unlink i s rest)
          with ⟨c', hrun⟩
        rw [Exec.bind_of_ok hrun]
        exact ⟨_, _, rfl⟩
      · rw [if_neg hlt]
        exact ⟨_, _, rfl⟩

theorem collect_ok {k limit : Nat}
    (h : limit ≤ (c.body k).virgin ∨ Cuttable cls (limit - (c.body k).virgin)) :
    exists c', collect cls k limit c = .ok ((), c') := by
  unfold collect
  rw [Exec.bind_of_ok (Exec.state_apply _)]
  by_cases hlt : (c.body k).virgin < limit
  · simp only [hlt, if_true]
    rcases poolFree_ok (h.resolve_left (by omega)) ⟨k, (c.body k).virgin⟩
      (c.bump k (limit - (c.body k).virgin)) with ⟨c', hrun⟩
    rw [Exec.bind_of_ok (Exec.update_apply _ _), Exec.bind_of_ok hrun]
    exact ⟨_, rfl⟩
  · simp only [hlt, if_false]
    exact ⟨_, rfl⟩

theorem allocBlock_ok (ht : Tiling cls bs c) {limit len : Nat} (hz : c.num ≠ 0)
    (h : AllocCuts cls limit len c) : exists p c', allocBlock cls limit len c = .ok (p, c') := by
  unfold AllocCuts at h
  unfold allocBlock
  cases hfit : fitClass cls c len with
  | some i =>
      rw [hfit] at h
      rcases poolTake_ok h c with ⟨p, c₁, htake⟩
      have hpool : poolAlloc cls len c = .ok (p, c₁) := by
        unfold poolAlloc
        rw [Exec.bind_of_ok (Exec.state_apply _)]
        simp only [hfit]
        exact htake
      have hnull : ¬p.IsNull := fun hnull => by
        rw [(poolAlloc_none_iff ht hpool).mp hnull] at hfit
        cases hfit
      rw [Exec.bind_of_ok hpool, if_neg hnull]
      exact ⟨_, _, rfl⟩
  | none =>
      rw [hfit] at h
      have hpool : poolAlloc cls len c = .ok (chkNull, c) := by
        unfold poolAlloc
        rw [Exec.bind_of_ok (Exec.state_apply _)]
        simp only [hfit]
        rfl
      have hnull : chkNull.IsNull := rfl
      rw [Exec.bind_of_ok hpool, if_pos hnull, Exec.bind_of_ok (Exec.state_apply _)]
      by_cases hroom : (c.body (c.num - 1)).virgin + len ≤ limit
      · simp only [hroom, if_true]
        exact ⟨_, _, rfl⟩
      · simp only [hroom, if_false]
        by_cases hmax : c.num ≥ chkMaxChkNum
        · simp only [hmax, if_true]
          exact ⟨_, _, rfl⟩
        · simp only [hmax, if_false]
          rw [chkMaxChkNum] at hmax
          have hbody : c.addChunk.body (c.num - 1) = c.body (c.num - 1) := by
            rw [addChunk_body, if_neg (by omega)]
          rw [← hbody] at h
          rcases collect_ok ((h.resolve_left (by rw [FitsLast]; exact hroom)).resolve_left
            (by omega)) with ⟨c₁, hcollect⟩
          rw [Exec.bind_of_ok (Exec.update_apply _ _), Exec.bind_of_ok hcollect]
          exact ⟨_, _, rfl⟩

/-- The virgin mark of a chunk stays where the block is not cut from the chunk and the chunk
has no rest to give away. -/
theorem allocBlock_virgin (h : WF cls bs c) {limit len k : Nat} {p : ChkPtr} {c' : Content}
    (hz : c.num ≠ 0) (hpos : 0 < len) (hlimit : limit ≤ 2048) (hk : k < c.num)
    (hstay : k + 1 ≠ c.num ∨ fitClass cls c len ≠ none ∨ limit ≤ (c.body k).virgin)
    (hrun : allocBlock cls limit len c = .ok (p, c')) :
    (c'.body k).virgin = (c.body k).virgin := by
  have hnum := h.tiling.num_le
  rcases Exec.ok_of_bind hrun with ⟨q, c₁, hpool, hrest⟩
  have hnone := poolAlloc_none_iff h.tiling hpool
  rcases (poolAlloc_ensures len h.tiling).of_ok hpool with ⟨hnull, rfl⟩ | ⟨hnull, b, -, -, htaken⟩
  · have hstay' : k + 1 ≠ c₁.num ∨ limit ≤ (c₁.body k).virgin :=
      hstay.imp_right fun hor => hor.resolve_left fun hne => hne (hnone.mp hnull)
    rw [if_pos hnull, Exec.bind_of_ok (Exec.state_apply _)] at hrest
    by_cases hroom : (c₁.body (c₁.num - 1)).virgin + len ≤ limit
    · simp only [hroom, if_true] at hrest
      cases hrest
      have hne : k ≠ c₁.num - 1 := by
        rintro rfl
        omega
      change (((c₁.bump (c₁.num - 1) len).countUsed (c₁.num - 1) len).body k).virgin = _
      rw [countUsed_body, if_neg hne]
      unfold bump
      rw [setVirgin_virgin, if_neg hne]
    · simp only [hroom, if_false] at hrest
      by_cases hmax : c₁.num ≥ chkMaxChkNum
      · simp only [hmax, if_true] at hrest
        cases hrest
        rfl
      · simp only [hmax, if_false] at hrest
        rw [chkMaxChkNum] at hmax
        rw [Exec.bind_of_ok (Exec.update_apply _ _)] at hrest
        rcases Exec.ok_of_bind hrest with ⟨_, c₂, hcollect, hcut⟩
        cases hcut
        have hold : c₁.addChunk.body k = c₁.body k := by
          rw [addChunk_body, if_neg (by omega)]
        have hsame : (c₂.body k).virgin = (c₁.body k).virgin := by
          by_cases hlast : k = c₁.num - 1
          · have hle := hstay'.resolve_left (by omega)
            unfold collect at hcollect
            rw [Exec.bind_of_ok (Exec.state_apply _), ← hlast, hold,
              if_neg (by omega)] at hcollect
            cases hcollect
            rw [hold]
          · have hvirgin := ((collect_ensures (addChunk_wf h (by omega))
              (by rw [addChunk_num]; omega) hlimit).of_ok hcollect).2.2.2 k hlast
            rw [hvirgin, hold]
        change (((c₂.bump c₁.num len).countUsed c₁.num len).body k).virgin = _
        rw [countUsed_body, if_neg (by omega)]
        unfold bump
        rw [setVirgin_virgin, if_neg (by omega), hsame]
  · rw [if_neg hnull] at hrest
    cases hrest
    change (((c₁.subFree len).countUsed p.chkNo len).body k).virgin = _
    rw [countUsed_body]
    split
    · next heq =>
        rw [heq]
        exact htaken.marks.virgin _
    · exact htaken.marks.virgin k

/-- A block that is handed out is the topmost one of its chunk, or the beginning of the first
block of the class that serves. -/
theorem allocBlock_place (ht : Tiling cls bs c) {limit len : Nat} {p : ChkPtr} {c' : Content}
    (hp : ¬p.IsNull) (hrun : allocBlock cls limit len c = .ok (p, c')) :
    (exists b, p = blockPtr b ∧ b.start + b.len = (c'.body b.space).virgin) ∨
    exists i s rest, fitClass cls c len = some i ∧ c.lists i = s :: rest ∧
      p = blockPtr (s.block len) ∧ forall k, (c'.body k).virgin = (c.body k).virgin := by
  rcases Exec.ok_of_bind hrun with ⟨q, c₁, hpool, hrest⟩
  have hnone := poolAlloc_none_iff ht hpool
  have htop : forall (c₂ : Content) (k : Nat), cutTop k len c₂ = .ok (p, c') ->
      exists b, p = blockPtr b ∧ b.start + b.len = (c'.body b.space).virgin := by
    intro c₂ k hcut
    cases hcut
    refine ⟨c₂.bumpBlock k len, rfl, ?_⟩
    change (c₂.body k).virgin + len = (((c₂.bump k len).countUsed k len).body k).virgin
    rw [countUsed_body, if_pos rfl]
    unfold bump
    change _ = ((c₂.setVirgin k ((c₂.body k).virgin + len)).body k).virgin
    rw [setVirgin_virgin, if_pos rfl]
  by_cases hnull : q.IsNull
  · rw [if_pos hnull, Exec.bind_of_ok (Exec.state_apply _)] at hrest
    by_cases hroom : (c₁.body (c₁.num - 1)).virgin + len ≤ limit
    · simp only [hroom, if_true] at hrest
      exact Or.inl (htop _ _ hrest)
    · simp only [hroom, if_false] at hrest
      by_cases hmax : c₁.num ≥ chkMaxChkNum
      · simp only [hmax, if_true] at hrest
        cases hrest
        exact absurd rfl hp
      · simp only [hmax, if_false] at hrest
        rw [Exec.bind_of_ok (Exec.update_apply _ _)] at hrest
        rcases Exec.ok_of_bind hrest with ⟨_, c₂, -, hcut⟩
        exact Or.inl (htop _ _ hcut)
  · rw [if_neg hnull] at hrest
    cases hrest
    cases hfit : fitClass cls c len with
    | none => exact absurd (hnone.mpr hfit) hnull
    | some i =>
        have hi := fitClass_some hfit
        cases hl : c.lists i with
        | nil => exact absurd hl hi.2
        | cons s rest =>
            have htake : poolTake cls i len c = .ok (p, c₁) := by
              unfold poolAlloc at hpool
              rw [Exec.bind_of_ok (Exec.state_apply _)] at hpool
              simp only [hfit] at hpool
              exact hpool
            rcases (poolTake_ensures ht hl hi.1).of_ok htake with ⟨hblock, htaken⟩
            refine Or.inr ⟨i, s, rest, rfl, hl, hblock, fun k => ?_⟩
            rw [← htaken.marks.virgin k]
            change (((c₁.subFree len).countUsed p.chkNo len).body k).virgin = _
            rw [countUsed_body]
            split
            · next heq => rw [heq]; rfl
            · rfl

end Cut

end Content
end ChunkMem
