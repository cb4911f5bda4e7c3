import ChunkMem.Foundation.Sums

/-!
# Extents and how often they cover a unit

A bookkeeping library for allocators.  An extent is a run of units in one of
several spaces.  Instead of comparing extents pairwise, an invariant counts how
often a list of extents covers each unit: moving an extent from one list to
another, splitting it or cutting a tail off are then identities between counts.
A list that covers no unit twice is pairwise disjoint.
-/

namespace ChunkMem
namespace Foundation

/-- The units `start`, ..., `start + len - 1` of one space. -/
structure Extent (ι : Type) where
  space : ι
  start : Nat
  len : Nat
deriving DecidableEq, Repr

namespace Extent

variable {ι : Type} [DecidableEq ι]

def covers (e : Extent ι) (k : ι) (u : Nat) : Nat :=
  if e.space = k ∧ e.start ≤ u ∧ u < e.start + e.len then 1 else 0

def cover (l : List (Extent ι)) (k : ι) (u : Nat) : Nat :=
  (l.map fun e => e.covers k u).sum

/-- The number of units the extents of a list have in one space. -/
def lenIn (l : List (Extent ι)) (k : ι) : Nat :=
  (l.map fun e => if e.space = k then e.len else 0).sum

def total (l : List (Extent ι)) : Nat := (l.map Extent.len).sum

def Disjoint (e f : Extent ι) : Prop :=
  e.space ≠ f.space ∨ e.start + e.len ≤ f.start ∨ f.start + f.len ≤ e.start

omit [DecidableEq ι] in
/-!
## Counting
-/

theorem covers_mk (k : ι) (s n : Nat) (k' : ι) (u : Nat) :
    (⟨k, s, n⟩ : Extent ι).covers k' u =
      if k = k' ∧ s ≤ u ∧ u < s + n then 1 else 0 := rfl

theorem covers_of {e : Extent ι} {u : Nat} (h1 : e.start ≤ u)
    (h2 : u < e.start + e.len) : e.covers e.space u = 1 := by
  simp [covers, h1, h2]

theorem covers_le_one (e : Extent ι) (k : ι) (u : Nat) : e.covers k u ≤ 1 := by
  unfold covers
  split <;> omega

theorem covers_eq_zero_of_len {e : Extent ι} (h : e.len = 0) (k : ι) (u : Nat) :
    e.covers k u = 0 := by
  unfold covers
  rw [if_neg]
  rintro ⟨_, h1, h2⟩
  omega

theorem covers_split (k k' : ι) (s n m u : Nat) :
    (⟨k, s, n + m⟩ : Extent ι).covers k' u =
      (⟨k, s, n⟩ : Extent ι).covers k' u +
        (⟨k, s + n, m⟩ : Extent ι).covers k' u := by
  unfold covers
  by_cases hk : k = k'
  · simp only [hk, true_and]
    split_ifs <;> omega
  · simp [hk]

@[simp] theorem cover_nil (k : ι) (u : Nat) : cover ([] : List (Extent ι)) k u = 0 :=
  rfl

@[simp] theorem cover_cons (e : Extent ι) (l : List (Extent ι)) (k : ι) (u : Nat) :
    cover (e :: l) k u = e.covers k u + cover l k u := by
  simp [cover]

@[simp] theorem cover_append (l l' : List (Extent ι)) (k : ι) (u : Nat) :
    cover (l ++ l') k u = cover l k u + cover l' k u := by
  simp [cover]

theorem cover_perm {l l' : List (Extent ι)} (h : l.Perm l') (k : ι) (u : Nat) :
    cover l k u = cover l' k u :=
  (h.map _).sum_eq

theorem cover_erase {e : Extent ι} {l : List (Extent ι)} (h : e ∈ l) (k : ι)
    (u : Nat) : cover l k u = e.covers k u + cover (l.erase e) k u := by
  rw [← cover_cons]
  exact cover_perm (List.perm_cons_erase h) k u

theorem covers_le_cover {e : Extent ι} {l : List (Extent ι)} (h : e ∈ l) (k : ι)
    (u : Nat) : e.covers k u ≤ cover l k u := by
  rw [cover_erase h]
  omega

/-- Two extents of a list cover a unit no more often than the list does. -/
theorem covers_add_le_cover {e f : Extent ι} {l : List (Extent ι)} (he : e ∈ l) (hf : f ∈ l)
    (hne : e ≠ f) (k : ι) (u : Nat) : e.covers k u + f.covers k u ≤ cover l k u := by
  rw [cover_erase hf, Nat.add_comm]
  exact Nat.add_le_add_left (covers_le_cover ((List.mem_erase_of_ne hne).mpr he) k u) _

/-!
## Lengths
-/

@[simp] theorem lenIn_nil (k : ι) : lenIn ([] : List (Extent ι)) k = 0 := rfl

@[simp] theorem lenIn_cons (e : Extent ι) (l : List (Extent ι)) (k : ι) :
    lenIn (e :: l) k = (if e.space = k then e.len else 0) + lenIn l k := by
  simp [lenIn]

theorem lenIn_erase {e : Extent ι} {l : List (Extent ι)} (h : e ∈ l) (k : ι) :
    lenIn l k = (if e.space = k then e.len else 0) + lenIn (l.erase e) k := by
  rw [← lenIn_cons]
  exact ((List.perm_cons_erase h).map _).sum_eq

theorem sum_covers (e : Extent ι) {k : ι} {n : Nat}
    (h : e.space = k -> 0 < e.len -> e.start + e.len ≤ n) :
    (sumTo n fun u => e.covers k u) = if e.space = k then e.len else 0 := by
  by_cases hk : e.space = k
  · have hsum : (sumTo n fun u => e.covers k u) =
        sumTo n fun u => if e.start ≤ u ∧ u < e.start + e.len then 1 else 0 :=
      sumTo_congr fun u _ => by simp [covers, hk]
    rw [hsum, sumTo_interval n (by omega), if_pos hk]
    by_cases hlen : 0 < e.len
    · have := h hk hlen
      omega
    · omega
  · rw [if_neg hk]
    have hsum : (sumTo n fun u => e.covers k u) = sumTo n fun _ => 0 :=
      sumTo_congr fun u _ => by simp [covers, hk]
    rw [hsum]
    simp [sumTo]

theorem lenIn_eq_sum {l : List (Extent ι)} {k : ι} {n : Nat}
    (h : forall u, 0 < cover l k u -> u < n) :
    lenIn l k = sumTo n fun u => cover l k u := by
  induction l with
  | nil =>
      simp [sumTo]
  | cons e rest ih =>
      simp only [cover_cons]
      rw [lenIn_cons, sumTo_add, sum_covers e, ih]
      · intro u hu
        apply h
        rw [cover_cons]
        omega
      · intro hk hlen
        have hlast := h (e.start + e.len - 1) (by
          rw [cover_cons, ← hk, covers_of (by omega) (by omega)]
          omega)
        omega

/-- Extents inside an interval that cover no unit twice are no longer than it. -/
theorem lenIn_le {l : List (Extent ι)} {k : ι} {lo hi : Nat} (hle : lo ≤ hi)
    (hone : forall u, cover l k u ≤ 1)
    (hin : forall u, 0 < cover l k u -> lo ≤ u ∧ u < hi) : lenIn l k ≤ hi - lo := by
  have hmono : lenIn l k ≤ sumTo hi fun u => if lo ≤ u ∧ u < hi then 1 else 0 := by
    rw [lenIn_eq_sum fun u hu => (hin u hu).2]
    apply sumTo_mono
    intro u _
    have h1 := hone u
    split
    · exact h1
    · next hout =>
        by_contra hpos
        exact hout (hin u (by omega))
  rw [sumTo_interval hi hle] at hmono
  omega

omit [DecidableEq ι] in
@[simp] theorem total_nil : total ([] : List (Extent ι)) = 0 := rfl

omit [DecidableEq ι] in
@[simp] theorem total_cons (e : Extent ι) (l : List (Extent ι)) :
    total (e :: l) = e.len + total l := by
  simp [total]

omit [DecidableEq ι] in
@[simp] theorem total_append (l l' : List (Extent ι)) :
    total (l ++ l') = total l + total l' := by
  simp [total]

/-!
## Disjointness
-/

theorem disjoint_of_covers_le_one {e f : Extent ι} (he : 0 < e.len)
    (hf : 0 < f.len) (h : forall k u, e.covers k u + f.covers k u ≤ 1) :
    Disjoint e f := by
  by_cases hk : e.space = f.space
  · apply Or.inr
    by_contra hcon
    push Not at hcon
    -- the larger of the two starts lies in both
    have hboth := h e.space (max e.start f.start)
    rw [covers_of (by omega) (by omega)] at hboth
    rw [hk, covers_of (by omega) (by omega)] at hboth
    omega
  · exact Or.inl hk

/-- A list of nonempty extents that covers no unit twice is pairwise disjoint. -/
theorem pairwise_disjoint_of_cover_le_one {l : List (Extent ι)}
    (hpos : forall e, e ∈ l -> 0 < e.len)
    (h : forall k u, cover l k u ≤ 1) : l.Pairwise Disjoint := by
  induction l with
  | nil =>
      exact List.Pairwise.nil
  | cons e rest ih =>
      rw [List.pairwise_cons]
      constructor
      · intro f hf
        apply disjoint_of_covers_le_one (hpos e List.mem_cons_self)
          (hpos f (List.mem_cons_of_mem _ hf))
        intro k u
        have hle := covers_le_cover hf k u
        have hone := h k u
        rw [cover_cons] at hone
        omega
      · apply ih
        · intro f hf
          exact hpos f (List.mem_cons_of_mem _ hf)
        · intro k u
          have hone := h k u
          rw [cover_cons] at hone
          omega

end Extent

end Foundation
end ChunkMem
