import ChunkMem.Arena.Blocks

/-!
# Pieces of a freed block

The pool cuts a block that it takes back into pieces of the class sizes, from the start of
the block on, and puts each on the list of its class.  That the classes increase is not
needed.
-/

namespace ChunkMem

open Foundation

structure Piece where
  cls : Fin 3
  slot : Slot

namespace Piece

variable {cls : Fin 3 -> Nat}

def block (cls : Fin 3 -> Nat) (x : Piece) : Block := x.slot.block (cls x.cls)

/-- The pieces lie one behind the other from the start of the block on, and leave a tail that
is shorter than the first class. -/
structure Tile (cls : Fin 3 -> Nat) (ps : List Piece) (b : Block) : Prop where
  cover : forall k u, Extent.cover (ps.map (block cls)) k u =
    (⟨b.space, b.start, Extent.total (ps.map (block cls))⟩ : Block).covers k u
  le : Extent.total (ps.map (block cls)) ≤ b.len
  tail : b.len < Extent.total (ps.map (block cls)) + cls 0

/-- The lists after the pieces were pushed, each in front of the list of its class. -/
def push (ps : List Piece) (lists : Fin 3 -> List Slot) (i : Fin 3) : List Slot :=
  ((ps.filter fun x => decide (x.cls = i)).map Piece.slot).reverse ++ lists i

theorem push_cons (x : Piece) (ps : List Piece) (lists : Fin 3 -> List Slot) :
    push (x :: ps) lists =
      push ps (Function.update lists x.cls (x.slot :: lists x.cls)) := by
  funext i
  unfold push
  rw [Function.update_apply]
  by_cases hi : x.cls = i
  · rw [List.filter_cons_of_pos (by simpa using hi), if_pos hi.symm, List.map_cons,
      List.reverse_cons, List.append_assoc, hi]
    rfl
  · rw [List.filter_cons_of_neg (by simpa using hi), if_neg (Ne.symm hi)]

namespace Tile

theorem nil {b : Block} (h : b.len < cls 0) : Tile cls [] b where
  cover k u := (Extent.covers_eq_zero_of_len rfl k u).symm
  le := Nat.zero_le _
  tail := by simpa using h

theorem cons {s : Slot} {left : Nat} {i : Fin 3} {ps : List Piece} (hle : cls i ≤ left)
    (h : Tile cls ps ((⟨s.no, s.off + cls i⟩ : Slot).block (left - cls i))) :
    Tile cls (⟨i, s⟩ :: ps) (s.block left) := by
  have hlen := h.le
  have htail := h.tail
  simp only [Slot.block] at hlen htail
  have htotal : Extent.total ((⟨i, s⟩ :: ps).map (block cls)) =
      cls i + Extent.total (ps.map (block cls)) := by
    rw [List.map_cons, Extent.total_cons]
    rfl
  refine ⟨fun k u => ?_, ?_, ?_⟩
  · rw [htotal, List.map_cons, Extent.cover_cons, h.cover k u]
    exact (Extent.covers_split s.no k s.off (cls i) _ u).symm
  · rw [htotal]
    simp only [Slot.block]
    omega
  · rw [htotal]
    simp only [Slot.block]
    omega

theorem disjoint {ps : List Piece} {b : Block} (h : Tile cls ps b) (hcls : forall i, 0 < cls i) :
    (ps.map (block cls)).Pairwise Extent.Disjoint := by
  refine Extent.pairwise_disjoint_of_cover_le_one (fun e he => ?_) fun k u => ?_
  · rcases List.mem_map.mp he with ⟨x, -, rfl⟩
    exact hcls x.cls
  · rw [h.cover k u]
    exact Extent.covers_le_one _ k u

end Tile

end Piece

namespace Content

variable {cls : Fin 3 -> Nat}

theorem freeLoop_pieces (hcls : forall i, 0 < cls i) :
    forall (fuel : Nat) (s : Slot) (left : Nat) (c : Content), left < fuel ->
      exists ps c', freeLoop cls fuel s left c = .ok ((), c') ∧
        Piece.Tile cls ps (s.block left) ∧ c'.lists = Piece.push ps c.lists := by
  intro fuel
  induction fuel with
  | zero =>
      intro s left c hfuel
      exact absurd hfuel (Nat.not_lt_zero _)
  | succ fuel ih =>
      intro s left c hfuel
      unfold freeLoop
      by_cases hle : cls 0 ≤ left
      · have hpick := pickClass_le hle
        have hpos := hcls (ChkMemMgr.pickClass cls left)
        rw [if_pos hle]
        generalize ChkMemMgr.pickClass cls left = i at *
        rcases ih ⟨s.no, s.off + cls i⟩ (left - cls i) (c.push i s (cls i)) (by omega) with
          ⟨ps, c', hrun, htile, hlists⟩
        refine ⟨⟨i, s⟩ :: ps, c', ?_, htile.cons hpick, ?_⟩
        · exact (Exec.bind_of_ok (Exec.update_apply _ _)).trans hrun
        · rw [hlists, push_lists, Piece.push_cons]
      · rw [if_neg hle]
        exact ⟨[], c, rfl, .nil (Nat.not_le.mp hle), rfl⟩

theorem poolFree_pieces (hcls : forall i, 0 < cls i) (s : Slot) (len : Nat) (c : Content) :
    exists ps c', poolFree cls s len c = .ok ((), c') ∧
      Piece.Tile cls ps (s.block len) ∧ c'.lists = Piece.push ps c.lists := by
  unfold poolFree
  rw [Exec.bind_of_ok (Exec.require_of (Nat.ne_of_gt (hcls 0)) _ _)]
  exact freeLoop_pieces hcls (len + 1) s len c (Nat.lt_succ_self len)

/-- A block is taken off its list, and the pieces of its rest are pushed. -/
theorem poolTake_pieces (hcls : forall i, 0 < cls i) {c : Content} {i : Fin 3} {s : Slot}
    {rest : List Slot} (hl : c.lists i = s :: rest) {len : Nat} (hlen : len ≤ cls i) :
    exists ps c', poolTake cls i len c = .ok (blockPtr (s.block len), c') ∧
      Piece.Tile cls ps ((⟨s.no, s.off + len⟩ : Slot).block (cls i - len)) ∧
      c'.lists = Piece.push ps (Function.update c.lists i rest) := by
  unfold poolTake
  rw [Exec.bind_of_ok (Exec.state_apply _)]
  simp only [hl]
  rw [Exec.bind_of_ok (Exec.update_apply _ _)]
  by_cases hlt : len < cls i
  · rcases poolFree_pieces hcls ⟨s.no, s.off + len⟩ (cls i - len) (c.unlink i s rest) with
      ⟨ps, c', hrun, htile, hlists⟩
    rw [if_pos hlt, Exec.bind_of_ok hrun]
    exact ⟨ps, c', rfl, htile, hlists⟩
  · have hnone : cls i - len < cls 0 := by
      have hpos := hcls 0
      omega
    rw [if_neg hlt]
    exact ⟨[], _, rfl, .nil hnone, rfl⟩

/-- The pool serves a request from the first class that can, or changes nothing. -/
theorem poolAlloc_pieces (hcls : forall i, 0 < cls i) (c : Content) (len : Nat) :
    (poolAlloc cls len c = .ok (chkNull, c) ∧ forall i, len ≤ cls i -> c.lists i = []) ∨
    exists i s rest ps c', len ≤ cls i ∧ c.lists i = s :: rest ∧
      poolAlloc cls len c = .ok (blockPtr (s.block len), c') ∧
      Piece.Tile cls ps ((⟨s.no, s.off + len⟩ : Slot).block (cls i - len)) ∧
      c'.lists = Piece.push ps (Function.update c.lists i rest) := by
  unfold poolAlloc
  rw [Exec.bind_of_ok (Exec.state_apply _)]
  cases hfit : fitClass cls c len with
  | none =>
      refine Or.inl ⟨rfl, fun i hi => ?_⟩
      have hnone := List.find?_eq_none.mp hfit i (by
        match i with
        | 0 => decide
        | 1 => decide
        | 2 => decide)
      by_contra hne
      exact hnone (decide_eq_true ⟨hi, hne⟩)
  | some i =>
      have hi := fitClass_some hfit
      cases hl : c.lists i with
      | nil => exact absurd hl hi.2
      | cons s rest =>
          rcases poolTake_pieces hcls hl hi.1 with ⟨ps, c', hrun, htile, hlists⟩
          exact Or.inr ⟨i, s, rest, ps, c', hi.1, hl, hrun, htile, hlists⟩

end Content
end ChunkMem
