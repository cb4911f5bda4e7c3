import Mathlib.Data.List.Pairwise
import Mathlib.Data.List.Perm.Basic
import Mathlib.Tactic

/-!
# Sorted unions of lists

Two sorted lists are merged in place: an element of the second list goes in front of
the first element of the first list that is greater, and is dropped when it meets an
equal one.
-/

namespace ChunkMem
namespace Foundation

variable {N : Type}

/-- The comparison of a total preorder on the elements of a set. -/
structure Compares (V : N -> Prop) (c : N -> N -> Int) : Prop where
  sign : forall a b, V a -> V b -> (0 < c a b <-> c b a < 0)
  trans : forall a b x, V a -> V b -> V x -> c a b ≤ 0 -> c b x ≤ 0 -> c a x ≤ 0

/-- What becomes of the two lists: the union, and the elements that were dropped. -/
def sortedUnion (c : N -> N -> Int) : List N -> List N -> List N × List N
  | [], r => (r, [])
  | b :: l, [] => (b :: l, [])
  | b :: l, x :: r =>
      if c b x < 0 then
        let rest := sortedUnion c l (x :: r)
        (b :: rest.1, rest.2)
      else if c b x = 0 then
        let rest := sortedUnion c l r
        (b :: rest.1, x :: rest.2)
      else sortedUnion c (x :: b :: l) r
termination_by l r => 2 * r.length + l.length

namespace Compares

variable {V : N -> Prop} {c : N -> N -> Int} {a b x : N}

theorem lt_trans (h : Compares V c) (ha : V a) (hb : V b) (hx : V x) (hab : c a b ≤ 0)
    (hbx : c b x < 0) : c a x < 0 := by
  have hle := h.trans a b x ha hb hx hab (by omega)
  by_contra hcon
  have hzero : c a x = 0 := by omega
  have hxa : c x a ≤ 0 := by
    have hsign := h.sign x a hx ha
    omega
  have hxb := h.trans x a b hx ha hb hxa hab
  have hsign := h.sign x b hx hb
  omega

end Compares

variable {c : N -> N -> Int} {l r : List N}

theorem sublist_sortedUnion (c : N -> N -> Int) (l r : List N) :
    l.Sublist (sortedUnion c l r).1 := by
  fun_induction sortedUnion c l r with
  | case1 r => exact List.nil_sublist r
  | case2 b l => exact List.Sublist.refl _
  | case3 b l x r hlt rest ih => exact ih.cons_cons b
  | case4 b l x r hlt heq rest ih => exact ih.cons_cons b
  | case5 b l x r hlt heq ih => exact (List.sublist_cons_self x (b :: l)).trans ih

theorem dropped_sublist (c : N -> N -> Int) (l r : List N) :
    (sortedUnion c l r).2.Sublist r := by
  fun_induction sortedUnion c l r with
  | case1 r => exact List.nil_sublist r
  | case2 b l => exact List.Sublist.refl _
  | case3 b l x r hlt rest ih => exact ih
  | case4 b l x r hlt heq rest ih => exact ih.cons_cons x
  | case5 b l x r hlt heq ih => exact ih.cons x

theorem sortedUnion_perm (c : N -> N -> Int) (l r : List N) :
    ((sortedUnion c l r).1 ++ (sortedUnion c l r).2).Perm (l ++ r) := by
  fun_induction sortedUnion c l r with
  | case1 r => rw [List.append_nil, List.nil_append]
  | case2 b l => exact List.Perm.refl _
  | case3 b l x r hlt rest ih => exact ih.cons b
  | case4 b l x r hlt heq rest ih =>
      exact ((List.perm_middle.trans (ih.cons x)).trans List.perm_middle.symm).cons b
  | case5 b l x r hlt heq ih =>
      have hmiddle : (b :: l ++ x :: r).Perm (x :: (b :: l ++ r)) := List.perm_middle
      exact ih.trans hmiddle.symm

theorem mem_of_mem_sortedUnion {y : N} (h : y ∈ (sortedUnion c l r).1) : y ∈ l ∨ y ∈ r :=
  List.mem_append.mp ((sortedUnion_perm c l r).mem_iff.mp (List.mem_append_left _ h))

theorem dropped_equal {y : N} (h : y ∈ (sortedUnion c l r).2) :
    exists x, x ∈ (sortedUnion c l r).1 ∧ c x y = 0 := by
  fun_induction sortedUnion c l r with
  | case1 r => cases h
  | case2 b l => cases h
  | case3 b l x r hlt rest ih =>
      rcases ih h with ⟨z, hz, hzy⟩
      exact ⟨z, List.mem_cons_of_mem b hz, hzy⟩
  | case4 b l x r hlt heq rest ih =>
      rcases List.mem_cons.mp h with rfl | hmem
      · exact ⟨b, List.mem_cons_self, heq⟩
      · rcases ih hmem with ⟨z, hz, hzy⟩
        exact ⟨z, List.mem_cons_of_mem b hz, hzy⟩
  | case5 b l x r hlt heq ih => exact ih h

/-- A relation between smaller and greater elements that both lists are sorted by, the
union is sorted by. -/
theorem sortedUnion_pairwise {V : N -> Prop} (h : Compares V c) {S : N -> N -> Prop}
    (hlt : forall a b, V a -> V b -> c a b < 0 -> S a b)
    (htrans : forall a b x, V a -> V b -> V x -> c a b ≤ 0 -> S b x -> S a x)
    (hl : forall y, y ∈ l -> V y) (hr : forall y, y ∈ r -> V y) (hsl : l.Pairwise S)
    (hsr : r.Pairwise S) : (sortedUnion c l r).1.Pairwise S := by
  fun_induction sortedUnion c l r with
  | case1 r => exact hsr
  | case2 b l => exact hsl
  | case3 b l x r hbx rest ih =>
      have hb := hl b List.mem_cons_self
      have hx := hr x List.mem_cons_self
      have hl' : forall y, y ∈ l -> V y := fun y hy => hl y (List.mem_cons_of_mem b hy)
      rw [List.pairwise_cons] at hsl
      refine List.pairwise_cons.mpr ⟨fun y hy => ?_, ih hl' hr hsl.2 hsr⟩
      rcases mem_of_mem_sortedUnion hy with hy | hy
      · exact hsl.1 y hy
      · rcases List.mem_cons.mp hy with rfl | hy
        · exact hlt b y hb hx hbx
        · exact htrans b x y hb hx (hr y (List.mem_cons_of_mem x hy)) (by omega)
            ((List.pairwise_cons.mp hsr).1 y hy)
  | case4 b l x r hbx heq rest ih =>
      have hb := hl b List.mem_cons_self
      have hx := hr x List.mem_cons_self
      have hl' : forall y, y ∈ l -> V y := fun y hy => hl y (List.mem_cons_of_mem b hy)
      have hr' : forall y, y ∈ r -> V y := fun y hy => hr y (List.mem_cons_of_mem x hy)
      rw [List.pairwise_cons] at hsl hsr
      refine List.pairwise_cons.mpr ⟨fun y hy => ?_, ih hl' hr' hsl.2 hsr.2⟩
      rcases mem_of_mem_sortedUnion hy with hy | hy
      · exact hsl.1 y hy
      · exact htrans b x y hb hx (hr' y hy) (by omega) (hsr.1 y hy)
  | case5 b l x r hbx heq ih =>
      have hb := hl b List.mem_cons_self
      have hx := hr x List.mem_cons_self
      have hr' : forall y, y ∈ r -> V y := fun y hy => hr y (List.mem_cons_of_mem x hy)
      have hxb : c x b < 0 := (h.sign b x hb hx).mp (by omega)
      refine ih ?_ hr' (List.pairwise_cons.mpr ⟨fun y hy => ?_, hsl⟩)
        (List.pairwise_cons.mp hsr).2
      · intro y hy
        rcases List.mem_cons.mp hy with rfl | hy
        · exact hx
        · exact hl y hy
      · rcases List.mem_cons.mp hy with rfl | hy'
        · exact hlt x y hx hb hxb
        · exact htrans x b y hx hb (hl y hy) (by omega) ((List.pairwise_cons.mp hsl).1 y hy')

end Foundation
end ChunkMem
