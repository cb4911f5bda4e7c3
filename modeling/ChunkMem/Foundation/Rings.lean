import Mathlib.Data.List.Nodup
import Mathlib.Tactic

/-!
# Rings of linked nodes

A heap gives every node a next and a previous node.  A ring is a head with a list of
nodes that the links lead around; insertion, removal and splicing change a few links
and lead from rings to rings.
-/

namespace ChunkMem
namespace Foundation

structure Links (N : Type) where
  next : N -> N
  prev : N -> N

namespace Links

variable {N : Type}

/-- `y` follows `x`. -/
def Link (g : Links N) (x y : N) : Prop := g.next x = y ∧ g.prev y = x

/-- The links lead from `a` through the list to its last node `p`. -/
def Walk (g : Links N) : N -> List N -> N -> Prop
  | a, [], p => a = p
  | a, x :: l, p => g.Link a x ∧ Walk g x l p

/-- One kind of link leads from `a` through the list to `p`. -/
def Path (step : N -> N) : N -> List N -> N -> Prop
  | a, [], p => step a = p
  | a, x :: l, p => step a = x ∧ Path step x l p

/-- The links lead from the head through the list and back. -/
structure IsRing (g : Links N) (hd : N) (l : List N) : Prop where
  walk : g.Walk hd (l ++ [hd]) hd
  nodup : (hd :: l).Nodup

variable {g g' : Links N} {a b p q x : N} {l l' l₁ l₂ rest : List N}

theorem walk_append : g.Walk a (l ++ l') p <-> exists m, g.Walk a l m ∧ g.Walk m l' p := by
  induction l generalizing a with
  | nil =>
      constructor
      · intro h
        exact ⟨a, rfl, h⟩
      · rintro ⟨m, rfl, h⟩
        exact h
  | cons x l ih =>
      constructor
      · rintro ⟨hlink, hwalk⟩
        rcases ih.mp hwalk with ⟨m, h1, h2⟩
        exact ⟨m, ⟨hlink, h1⟩, h2⟩
      · rintro ⟨m, ⟨hlink, h1⟩, h2⟩
        exact ⟨hlink, ih.mpr ⟨m, h1, h2⟩⟩

theorem Walk.end_mem (h : g.Walk a l p) : p ∈ a :: l := by
  induction l generalizing a with
  | nil =>
      cases h
      exact List.mem_cons_self
  | cons x l ih => exact List.mem_cons_of_mem a (ih h.2)

/-- A walk only reads the next links in front of its end and the previous links
behind its start. -/
theorem Walk.frame (h : g.Walk a l p) (hnodup : (a :: l).Nodup)
    (hnext : forall x, x ∈ a :: l -> x ≠ p -> g'.next x = g.next x)
    (hprev : forall y, y ∈ l -> g'.prev y = g.prev y) : g'.Walk a l p := by
  induction l generalizing a with
  | nil => exact h
  | cons x l ih =>
      rcases h with ⟨hlink, hwalk⟩
      have hne : a ≠ p := fun heq => (List.nodup_cons.mp hnodup).1 (heq ▸ hwalk.end_mem)
      refine ⟨⟨?_, ?_⟩, ih hwalk (List.nodup_cons.mp hnodup).2 ?_ ?_⟩
      · rw [hnext a List.mem_cons_self hne]
        exact hlink.1
      · rw [hprev x List.mem_cons_self]
        exact hlink.2
      · exact fun y hy => hnext y (List.mem_cons_of_mem a hy)
      · exact fun y hy => hprev y (List.mem_cons_of_mem x hy)

theorem Path.snoc {step : N -> N} (h : Path step a l x) (hstep : step x = p) :
    Path step a (l ++ [x]) p := by
  induction l generalizing a with
  | nil => exact ⟨h, hstep⟩
  | cons y l ih => exact ⟨h.1, ih h.2⟩

/-- A path leads from each of its nodes to one of them, or to its end. -/
theorem Path.step_mem {step : N -> N} (h : Path step a l p) (hx : x ∈ a :: l) :
    step x ∈ l ++ [p] := by
  induction l generalizing a with
  | nil =>
      rw [List.mem_singleton.mp hx]
      exact List.mem_singleton.mpr h
  | cons y l ih =>
      rcases List.mem_cons.mp hx with rfl | hmem
      · rw [h.1]
        exact List.mem_cons_self
      · exact List.mem_cons_of_mem y (ih h.2 hmem)

theorem Walk.path_next (h : g.Walk a (l ++ [b]) b) : Path g.next a l b := by
  induction l generalizing a with
  | nil => exact h.1.1
  | cons x l ih => exact ⟨h.1.1, ih h.2⟩

theorem Walk.path_prev (h : g.Walk a (l ++ [b]) b) : Path g.prev b l.reverse a := by
  induction l generalizing a with
  | nil => exact h.1.2
  | cons x l ih =>
      rw [List.reverse_cons]
      exact (ih h.2).snoc h.1.2

namespace IsRing

theorem split (h : g.IsRing b (l₁ ++ l₂)) : exists p q rest, l₂ ++ [b] = q :: rest ∧
    g.Walk b l₁ p ∧ g.Link p q ∧ g.Walk q rest b := by
  have hwalk := h.walk
  rw [List.append_assoc] at hwalk
  rcases walk_append.mp hwalk with ⟨p, h1, h2⟩
  cases hl : l₂ ++ [b] with
  | nil => simp at hl
  | cons q rest =>
      rw [hl] at h2
      exact ⟨p, q, rest, rfl, h1, h2.1, h2.2⟩

theorem frame (h : g.IsRing b l) (hnext : forall x, x ∈ b :: l -> g'.next x = g.next x)
    (hprev : forall x, x ∈ b :: l -> g'.prev x = g.prev x) : g'.IsRing b l := by
  refine ⟨?_, h.nodup⟩
  rcases walk_append.mp h.walk with ⟨m, h1, h2⟩
  refine walk_append.mpr ⟨m, h1.frame h.nodup (fun x hx _ => hnext x hx)
    (fun y hy => hprev y (List.mem_cons_of_mem b hy)), ⟨?_, ?_⟩, h2.2⟩
  · rw [hnext m h1.end_mem]
    exact h2.1.1
  · rw [hprev b List.mem_cons_self]
    exact h2.1.2

theorem nodup_split (h : (b :: (l₁ ++ l₂)).Nodup) : (b :: l₁).Nodup ∧ (l₂ ++ [b]).Nodup ∧
    forall x, x ∈ l₁ -> x ∉ l₂ := by
  simp only [List.nodup_cons, List.mem_append, not_or, List.nodup_append] at h
  rcases h with ⟨⟨h1, h2⟩, h3, h4, h5⟩
  refine ⟨List.nodup_cons.mpr ⟨h1, h3⟩, ?_, fun x hx hx' => h5 x hx x hx' rfl⟩
  rw [List.nodup_append]
  refine ⟨h4, List.nodup_singleton b, ?_⟩
  intro x hx y hy heq
  rw [List.mem_singleton] at hy
  exact h2 (by rw [← hy, ← heq]; exact hx)

theorem next_head (h : g.IsRing b l) (hl : l ++ [b] = q :: rest) : g.next b = q := by
  have hwalk := h.walk
  rw [hl] at hwalk
  exact hwalk.1.1

theorem prev_head (h : g.IsRing b l) : g.Walk b l (g.prev b) := by
  rcases walk_append.mp h.walk with ⟨m, h1, h2⟩
  have hm : g.prev b = m := h2.1.2
  rw [hm]
  exact h1

theorem next_mem (h : g.IsRing b l) (hx : x ∈ b :: l) : g.next x ∈ b :: l := by
  have hmem := h.walk.path_next.step_mem hx
  simpa [or_comm] using hmem

theorem prev_mem (h : g.IsRing b l) (hx : x ∈ b :: l) : g.prev x ∈ b :: l := by
  have hmem := h.walk.path_prev.step_mem (by simpa using hx)
  simpa [or_comm] using hmem

theorem next_prev (h : g.IsRing b l) (hx : x ∈ b :: l) : g.next (g.prev x) = x := by
  rcases List.mem_cons.mp hx with rfl | hmem
  · rcases walk_append.mp h.walk with ⟨m, -, h2⟩
    rw [h2.1.2]
    exact h2.1.1
  · rcases List.append_of_mem hmem with ⟨l₁, l₂, rfl⟩
    rcases h.split with ⟨p, q, rest, hq, -, hlink, -⟩
    cases hq
    rw [hlink.2]
    exact hlink.1

theorem next_at (h : g.IsRing b (l₁ ++ x :: l)) : g.next x = l.headD b := by
  rcases h.split with ⟨p, q, rest, hq, -, -, hwalk⟩
  cases hq
  cases l with
  | nil => exact hwalk.1.1
  | cons y l => exact hwalk.1.1

theorem next_first (h : g.IsRing b l) : g.next b = l.headD b := by
  cases l with
  | nil => exact h.next_head rfl
  | cons y l => exact h.next_head rfl

theorem prev_at (h : g.IsRing b (l₁ ++ x :: l)) : g.Walk b l₁ (g.prev x) := by
  rcases h.split with ⟨p, q, rest, hq, hp, hlink, -⟩
  cases hq
  rw [hlink.2]
  exact hp

theorem empty_iff (h : g.IsRing b l) : g.next b = b <-> l = [] := by
  cases l with
  | nil => exact ⟨fun _ => rfl, fun _ => h.next_head rfl⟩
  | cons x l =>
      have hnext : g.next b = x := h.next_head rfl
      constructor
      · intro heq
        have hmem : b ∈ x :: l := by
          rw [← heq, hnext]
          exact List.mem_cons_self
        exact absurd hmem (List.nodup_cons.mp h.nodup).1
      · intro hcon
        cases hcon

end IsRing

/-!
## Changing links
-/

section Update

variable [DecidableEq N]

def setNext (g : Links N) (x v : N) : Links N := { g with next := Function.update g.next x v }

def setPrev (g : Links N) (x v : N) : Links N := { g with prev := Function.update g.prev x v }

@[simp] theorem setNext_next (x v y : N) :
    (g.setNext x v).next y = if y = x then v else g.next y := Function.update_apply _ _ _ _
@[simp] theorem setNext_prev (x v y : N) : (g.setNext x v).prev y = g.prev y := rfl
@[simp] theorem setPrev_prev (x v y : N) :
    (g.setPrev x v).prev y = if y = x then v else g.prev y := Function.update_apply _ _ _ _
@[simp] theorem setPrev_next (x v y : N) : (g.setPrev x v).next y = g.next y := rfl

def makeEmpty (g : Links N) (b : N) : Links N := (g.setNext b b).setPrev b b

def insert (g : Links N) (x p q : N) : Links N :=
  (((g.setPrev q x).setNext x q).setPrev x p).setNext p x

def join (g : Links N) (p q : N) : Links N := (g.setPrev q p).setNext p q

/-- The nodes of the ring of `f` are appended to the one of `t`. -/
def splice (g : Links N) (f t : N) : Links N :=
  (((((g.setPrev (g.next f) (g.prev t)).setNext (g.prev t) (g.next f)).setNext (g.prev f)
    t).setPrev t (g.prev f)).makeEmpty f)

theorem makeEmpty_ring (g : Links N) (b : N) : (g.makeEmpty b).IsRing b [] := by
  refine ⟨⟨⟨?_, ?_⟩, rfl⟩, List.nodup_singleton b⟩ <;> simp [makeEmpty]

namespace IsRing

theorem insert (h : g.IsRing b (l₁ ++ l₂)) (hp : g.Walk b l₁ p) (hq : l₂ ++ [b] = q :: rest)
    (hx : x ∉ b :: (l₁ ++ l₂)) : (g.insert x p q).IsRing b (l₁ ++ x :: l₂) := by
  rcases h.split with ⟨p', q', rest', hq', hp', hlink, hwalk⟩
  rcases nodup_split h.nodup with ⟨hn1, hn2, hn3⟩
  rw [hq] at hq' hn2
  cases hq'
  have hpm := hp.end_mem
  have hqm : q ∈ l₂ ++ [b] := by
    rw [hq]
    exact List.mem_cons_self
  have hxb : x ≠ b := fun heq => hx (heq ▸ List.mem_cons_self)
  have hx1 : x ∉ l₁ := fun hm => hx (List.mem_cons_of_mem b (List.mem_append_left l₂ hm))
  have hx2 : x ∉ l₂ := fun hm => hx (List.mem_cons_of_mem b (List.mem_append_right l₁ hm))
  have hb1 : b ∉ l₁ := (List.nodup_cons.mp hn1).1
  have hxq : x ≠ q := by
    rintro rfl
    rcases List.mem_append.mp hqm with hm | hm
    · exact hx2 hm
    · exact hxb (List.mem_singleton.mp hm)
  have hxp : x ≠ p := by
    rintro rfl
    rcases List.mem_cons.mp hpm with hm | hm
    · exact hxb hm
    · exact hx1 hm
  have hq1 : q ∉ l₁ := by
    intro hm
    rcases List.mem_append.mp hqm with hm' | hm'
    · exact hn3 q hm hm'
    · exact hb1 (List.mem_singleton.mp hm' ▸ hm)
  refine ⟨?_, ?_⟩
  · rw [List.append_assoc, List.cons_append, hq]
    refine walk_append.mpr ⟨p, hp.frame hn1 ?_ ?_, ⟨?_, ?_⟩, ⟨?_, ?_⟩, hwalk.frame hn2 ?_ ?_⟩
    · intro y hy hyp
      have hyx : y ≠ x := by
        rintro rfl
        rcases List.mem_cons.mp hy with hm | hm
        · exact hxb hm
        · exact hx1 hm
      simp [Links.insert, hyp, hyx]
    · intro y hy
      have hyx : y ≠ x := fun heq => hx1 (heq ▸ hy)
      have hyq : y ≠ q := fun heq => hq1 (heq ▸ hy)
      simp [Links.insert, hyx, hyq]
    · simp [Links.insert]
    · simp [Links.insert]
    · simp [Links.insert, hxp]
    · simp [Links.insert, hxq.symm]
    · intro y hy hyb
      have hmem : y ∈ l₂ ++ [b] := hq ▸ hy
      have hy2 : y ∈ l₂ := (List.mem_append.mp hmem).resolve_right
        fun hm => hyb (List.mem_singleton.mp hm)
      have hyx : y ≠ x := fun heq => hx2 (heq ▸ hy2)
      have hyp : y ≠ p := by
        rintro rfl
        rcases List.mem_cons.mp hpm with hm | hm
        · exact hyb hm
        · exact hn3 _ hm hy2
      simp [Links.insert, hyx, hyp]
    · intro y hy
      have hyq : y ≠ q := fun heq => (List.nodup_cons.mp hn2).1 (heq ▸ hy)
      have hmem : y ∈ l₂ ++ [b] := hq ▸ List.mem_cons_of_mem q hy
      have hyx : y ≠ x := by
        rintro rfl
        rcases List.mem_append.mp hmem with hm | hm
        · exact hx2 hm
        · exact hxb (List.mem_singleton.mp hm)
      simp [Links.insert, hyx, hyq]
  · have hperm : (b :: (l₁ ++ x :: l₂)).Perm (x :: b :: (l₁ ++ l₂)) :=
      (List.perm_middle.cons b).trans (List.Perm.swap x b _)
    exact hperm.nodup_iff.mpr (List.nodup_cons.mpr ⟨hx, h.nodup⟩)

theorem remove (h : g.IsRing b (l₁ ++ x :: l₂)) :
    (g.join (g.prev x) (g.next x)).IsRing b (l₁ ++ l₂) := by
  rcases h.split with ⟨p, x', rest, heq, hp, hlink, hwalk⟩
  cases heq
  cases hq : l₂ ++ [b] with
  | nil => simp at hq
  | cons q rest' =>
      change g.Walk x (l₂ ++ [b]) b at hwalk
      rw [hq] at hwalk
      have hprev : g.prev x = p := hlink.2
      have hnext : g.next x = q := hwalk.1.1
      have hperm : (b :: (l₁ ++ x :: l₂)).Perm (x :: b :: (l₁ ++ l₂)) :=
        (List.perm_middle.cons b).trans (List.Perm.swap x b _)
      have hnodup : (b :: (l₁ ++ l₂)).Nodup := (List.nodup_cons.mp (hperm.nodup_iff.mp h.nodup)).2
      rcases nodup_split hnodup with ⟨hn1, hn2, hn3⟩
      rw [hq] at hn2
      have hpm := hp.end_mem
      have hqm : q ∈ l₂ ++ [b] := by
        rw [hq]
        exact List.mem_cons_self
      have hq1 : q ∉ l₁ := by
        intro hm
        rcases List.mem_append.mp hqm with hm' | hm'
        · exact hn3 q hm hm'
        · exact (List.nodup_cons.mp hn1).1 (List.mem_singleton.mp hm' ▸ hm)
      rw [hprev, hnext]
      refine ⟨?_, hnodup⟩
      rw [List.append_assoc, hq]
      refine walk_append.mpr ⟨p, hp.frame hn1 ?_ ?_, ⟨?_, ?_⟩, hwalk.2.frame hn2 ?_ ?_⟩
      · intro y _ hyp
        simp [join, hyp]
      · intro y hy
        have hyq : y ≠ q := fun heq => hq1 (heq ▸ hy)
        simp [join, hyq]
      · simp [join]
      · simp [join]
      · intro y hy hyb
        have hmem : y ∈ l₂ ++ [b] := hq ▸ hy
        have hy2 : y ∈ l₂ := (List.mem_append.mp hmem).resolve_right
          fun hm => hyb (List.mem_singleton.mp hm)
        have hyp : y ≠ p := by
          rintro rfl
          rcases List.mem_cons.mp hpm with hm | hm
          · exact hyb hm
          · exact hn3 _ hm hy2
        simp [join, hyp]
      · intro y hy
        have hyq : y ≠ q := fun heq => (List.nodup_cons.mp hn2).1 (heq ▸ hy)
        simp [join, hyq]

theorem splice (hf : g.IsRing a l) (hne : l ≠ []) (ht : g.IsRing b l')
    (hdisj : forall x, x ∈ a :: l -> x ∉ b :: l') :
    (g.splice a b).IsRing b (l' ++ l) ∧ (g.splice a b).IsRing a [] := by
  refine ⟨?_, makeEmpty_ring _ a⟩
  cases l with
  | nil => exact absurd rfl hne
  | cons x r =>
      have hwalk : g.Walk x (r ++ [a]) a := hf.walk.2
      rcases walk_append.mp hwalk with ⟨e, hr, hlast⟩
      have hfirst : g.next a = x := hf.walk.1.1
      have he : g.prev a = e := hlast.1.2
      have hm := ht.prev_head
      generalize hmdef : g.prev b = m at hm
      have hnodup := List.nodup_cons.mp hf.nodup
      have hem : e ∈ x :: r := hr.end_mem
      have hmm : m ∈ b :: l' := hm.end_mem
      have hab : a ≠ b := fun heq => hdisj a List.mem_cons_self (heq ▸ List.mem_cons_self)
      have hbx : forall y, y ∈ x :: r -> y ≠ b ∧ y ∉ l' ∧ y ≠ a := by
        intro y hy
        have hout := hdisj y (List.mem_cons_of_mem a hy)
        refine ⟨fun heq => hout (heq ▸ List.mem_cons_self),
          fun hcon => hout (List.mem_cons_of_mem b hcon), fun heq => hnodup.1 (heq ▸ hy)⟩
      have hal : a ∉ l' := fun hcon => hdisj a List.mem_cons_self (List.mem_cons_of_mem b hcon)
      have hma : m ≠ a := fun heq => hdisj a List.mem_cons_self (heq ▸ hmm)
      have hme : m ≠ e := fun heq => hdisj e (List.mem_cons_of_mem a hem) (heq ▸ hmm)
      have hx := hbx x List.mem_cons_self
      have he' := hbx e hem
      have hb' := List.nodup_cons.mp ht.nodup
      have hrx := List.nodup_cons.mp hnodup.2
      unfold Links.splice
      rw [hfirst, he, hmdef]
      refine ⟨?_, ?_⟩
      · rw [List.append_assoc, List.cons_append]
        refine walk_append.mpr ⟨m, hm.frame ht.nodup ?_ ?_, ⟨?_, ?_⟩,
          walk_append.mpr ⟨e, hr.frame hnodup.2 ?_ ?_, ⟨?_, ?_⟩, rfl⟩⟩
        · intro y hy hym
          have hya : y ≠ a := fun heq => hdisj a List.mem_cons_self (heq ▸ hy)
          have hye : y ≠ e := fun heq => hdisj e (List.mem_cons_of_mem a hem) (heq ▸ hy)
          simp [makeEmpty, hym, hya, hye]
        · intro y hy
          have hya : y ≠ a := fun heq => hal (heq ▸ hy)
          have hyx : y ≠ x := fun heq => hx.2.1 (heq ▸ hy)
          have hyb : y ≠ b := fun heq => hb'.1 (heq ▸ hy)
          simp [makeEmpty, hya, hyx, hyb]
        · simp [makeEmpty, hma, hme]
        · simp [makeEmpty, hx.1, hx.2.2]
        · intro y hy hye
          have hyn := hbx y hy
          have hym : y ≠ m := fun heq => hdisj y (List.mem_cons_of_mem a hy) (heq ▸ hmm)
          simp [makeEmpty, hyn.2.2, hye, hym]
        · intro y hy
          have hyn := hbx y (List.mem_cons_of_mem x hy)
          have hyx : y ≠ x := fun heq => hrx.1 (heq ▸ hy)
          simp [makeEmpty, hyn.2.2, hyn.1, hyx]
        · simp [makeEmpty, he'.2.2]
        · simp [makeEmpty, hab.symm]
      · have hperm : (b :: (l' ++ x :: r)).Nodup := by
          rw [← List.cons_append, List.nodup_append]
          refine ⟨ht.nodup, hnodup.2, ?_⟩
          rintro y hy z hz rfl
          exact hdisj y (List.mem_cons_of_mem a hz) hy
        exact hperm

end IsRing

end Update

end Links

end Foundation
end ChunkMem
