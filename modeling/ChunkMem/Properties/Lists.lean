import ChunkMem.Properties.Strings
import ChunkMem.Structures.ListOperations

/-!
# Doubly linked lists stay well formed

Lists share the blocks of an index.  Whatever is initialised, added, deleted and
spliced, the links of each head lead through the nodes of its list and back, and those
of a node that is in no list are null.
-/

namespace ChunkMem

open Foundation

/-- The lists of all heads, and the nodes that were reset and are in no list. -/
@[ext] structure Lists where
  seq : ChkPtr -> Option (List ChkPtr)
  ready : ChkPtr -> Prop

namespace Lists

def none : Lists := ⟨fun _ => Option.none, fun _ => False⟩

def Member (t : Lists) (n : ChkPtr) : Prop := exists b l, t.seq b = some l ∧ n ∈ l

def nodes (t : Lists) (b : ChkPtr) : List ChkPtr := (t.seq b).getD []

end Lists

inductive ListCall where
  | init (b : ChkPtr)
  | reset (n : ChkPtr)
  | add (n b : ChkPtr)
  | addTail (n b : ChkPtr)
  | del (n : ChkPtr)
  | splice (a b : ChkPtr)

namespace ListCall

def perform (idx : ChkIndex) : ListCall -> M Unit
  | init b => ChkList.init (idx.place b)
  | reset n => ChkList.nodeReset (idx.place n).addr
  | add n b => ChkList.add (idx.place n) (idx.place b)
  | addTail n b => ChkList.addTail (idx.place n) (idx.place b)
  | del n => ChkList.del (idx.place n)
  | splice a b => ChkList.splice (idx.place a) (idx.place b)

def after (t : Lists) : ListCall -> Lists
  | init b => ⟨Function.update t.seq b (some []), Function.update t.ready b False⟩
  | reset n => ⟨t.seq, Function.update t.ready n True⟩
  | add n b =>
      ⟨Function.update t.seq b (some (n :: t.nodes b)), Function.update t.ready n False⟩
  | addTail n b =>
      ⟨Function.update t.seq b (some (t.nodes b ++ [n])), Function.update t.ready n False⟩
  | del n =>
      ⟨fun b => (t.seq b).map fun l => l.erase n, Function.update t.ready n True⟩
  | splice a b =>
      ⟨Function.update (Function.update t.seq b (some (t.nodes b ++ t.nodes a))) a (some []),
        t.ready⟩

/-- Heads are initialised once, nodes are reset before they are added, and a list is
spliced to another one. -/
def Allowed (U : ChkPtr -> Prop) (t : Lists) : ListCall -> Prop
  | init b => U b ∧ t.seq b = Option.none ∧ ¬t.Member b
  | reset n => U n ∧ t.seq n = Option.none ∧ ¬t.Member n
  | add n b => t.ready n ∧ (t.seq b).isSome
  | addTail n b => t.ready n ∧ (t.seq b).isSome
  | del n => t.ready n ∨ t.Member n
  | splice a b => (t.seq a).isSome ∧ (t.seq b).isSome ∧ a ≠ b

end ListCall

/-- What calls on lists lead to, with the lists they mean. -/
inductive ListReach (s : Session) (U : ChkPtr -> Prop) : World -> Lists -> Prop where
  | start : ListReach s U s.world .none
  | step {w w' : World} {t : Lists} {call : ListCall} :
      ListReach s U w t -> call.Allowed U t -> call.perform s.world.index w = .ok ((), w') ->
      ListReach s U w' (call.after t)

structure Lists.Shown (U : ChkPtr -> Prop) (t : Lists) (g : Links ChkPtr) : Prop where
  ring : forall b l, t.seq b = some l -> g.IsRing b l ∧ forall x, x ∈ b :: l -> U x
  apart : forall b b' l l', t.seq b = some l -> t.seq b' = some l' -> b ≠ b' ->
    forall x, x ∈ b :: l -> x ∉ b' :: l'
  ready : forall n, t.ready n -> U n ∧ (g.prev n).IsNull ∧
    forall b l, t.seq b = some l -> n ∉ b :: l

namespace Lists

variable {U : ChkPtr -> Prop} {t t' : Lists} {g g' : Links ChkPtr} {b n p q : ChkPtr}
variable {l l₁ l₂ rest : List ChkPtr}

theorem nodes_eq (h : t.seq b = some l) : t.nodes b = l := by
  unfold nodes
  rw [h]
  rfl

theorem exists_nodes (h : (t.seq b).isSome) : exists l, t.seq b = some l ∧ t.nodes b = l := by
  rcases Option.isSome_iff_exists.mp h with ⟨l, hl⟩
  exact ⟨l, hl, nodes_eq hl⟩

namespace Shown

theorem start (U : ChkPtr -> Prop) (g : Links ChkPtr) : none.Shown U g := by
  constructor
  · intro b l hl
    cases hl
  · intro b b' l l' hl
    cases hl
  · intro n hn
    cases hn

/-- The lists of some heads change, and the links of no other list do. -/
theorem change (h : t.Shown U g) (C : ChkPtr -> Prop)
    (hsame : forall b, ¬C b -> t'.seq b = t.seq b)
    (hring : forall b l, C b -> t'.seq b = some l -> g'.IsRing b l ∧
      forall x, x ∈ b :: l -> U x ∧
        forall b' l', ¬C b' -> t.seq b' = some l' -> x ∉ b' :: l')
    (hapart : forall b b' l l', C b -> C b' -> t'.seq b = some l -> t'.seq b' = some l' ->
      b ≠ b' -> forall x, x ∈ b :: l -> x ∉ b' :: l')
    (hkept : forall b l, ¬C b -> t.seq b = some l -> forall x, x ∈ b :: l ->
      g'.next x = g.next x ∧ g'.prev x = g.prev x)
    (hready : forall n, t'.ready n -> U n ∧ (g'.prev n).IsNull ∧
      forall b l, t'.seq b = some l -> n ∉ b :: l) : t'.Shown U g' := by
  refine ⟨?_, ?_, hready⟩
  · intro b l hl
    by_cases hb : C b
    · rcases hring b l hb hl with ⟨hr, hmem⟩
      exact ⟨hr, fun x hx => (hmem x hx).1⟩
    · rw [hsame b hb] at hl
      rcases h.ring b l hl with ⟨hr, hmem⟩
      have hkept' := hkept b l hb hl
      exact ⟨hr.frame (fun x hx => (hkept' x hx).1) (fun x hx => (hkept' x hx).2), hmem⟩
  · intro b b' l l' hl hl' hne x hx
    by_cases hb : C b
    · by_cases hb' : C b'
      · exact hapart b b' l l' hb hb' hl hl' hne x hx
      · rw [hsame b' hb'] at hl'
        exact ((hring b l hb hl).2 x hx).2 b' l' hb' hl'
    · rw [hsame b hb] at hl
      by_cases hb' : C b'
      · intro hx'
        exact ((hring b' l' hb' hl').2 x hx').2 b l hb hl hx
      · rw [hsame b' hb'] at hl'
        exact h.apart b b' l l' hl hl' hne x hx

theorem init (h : t.Shown U g) (hb : U b) (hnone : t.seq b = Option.none)
    (hout : ¬t.Member b) : ((ListCall.init b).after t).Shown U (g.makeEmpty b) := by
  have hother : forall b' l', t.seq b' = some l' -> b ∉ b' :: l' := by
    intro b' l' hl' hmem
    rcases List.mem_cons.mp hmem with rfl | hmem
    · rw [hnone] at hl'
      cases hl'
    · exact hout ⟨b', l', hl', hmem⟩
  apply h.change (fun b' => b' = b)
  · intro b' hb'
    exact Function.update_of_ne hb' _ _
  · rintro b' l rfl hl
    simp only [ListCall.after, Function.update_self, Option.some.injEq] at hl
    subst hl
    refine ⟨Links.makeEmpty_ring g _, fun x hx => ?_⟩
    rw [List.mem_singleton.mp hx]
    exact ⟨hb, fun b₁ l₁ _ hl₁ => hother b₁ l₁ hl₁⟩
  · rintro b₁ b₂ l₁ l₂ rfl rfl _ _ hne
    exact absurd rfl hne
  · intro b' l' _ hl' x hx
    have hxb : x ≠ b := fun heq => hother b' l' hl' (heq ▸ hx)
    simp [Links.makeEmpty, hxb]
  · intro n hn
    have hnb : n ≠ b := by
      rintro rfl
      simp [ListCall.after] at hn
    simp only [ListCall.after, Function.update_of_ne hnb] at hn
    rcases h.ready n hn with ⟨hu, hnull, hfree⟩
    refine ⟨hu, by simpa [Links.makeEmpty, hnb] using hnull, fun b' l' hl' => ?_⟩
    by_cases hb' : b' = b
    · subst hb'
      simp only [ListCall.after, Function.update_self, Option.some.injEq] at hl'
      subst hl'
      simpa using hnb
    · simp only [ListCall.after, Function.update_of_ne hb'] at hl'
      exact hfree b' l' hl'

theorem reset (h : t.Shown U g) (hn : U n) (hnone : t.seq n = Option.none)
    (hout : ¬t.Member n) : ((ListCall.reset n).after t).Shown U (g.reset n) := by
  have hother : forall b l, t.seq b = some l -> n ∉ b :: l := by
    intro b l hl hmem
    rcases List.mem_cons.mp hmem with rfl | hmem
    · rw [hnone] at hl
      cases hl
    · exact hout ⟨b, l, hl, hmem⟩
  apply h.change (fun _ => False)
  · intro b _
    rfl
  · intro b l hcon
    exact hcon.elim
  · intro b b' l l' hcon
    exact hcon.elim
  · intro b l _ hl x hx
    have hxn : x ≠ n := fun heq => hother b l hl (heq ▸ hx)
    simp [Links.reset, hxn]
  · intro m hm
    by_cases hmn : m = n
    · subst hmn
      refine ⟨hn, ?_, hother⟩
      simp [Links.reset, ChkPtr.nulled, ChkPtr.IsNull]
    · simp only [ListCall.after, Function.update_of_ne hmn] at hm
      rcases h.ready m hm with ⟨hu, hnull, hfree⟩
      exact ⟨hu, by simpa [Links.reset, hmn] using hnull, hfree⟩

theorem insert (h : t.Shown U g) (hb : t.seq b = some (l₁ ++ l₂)) (hn : t.ready n)
    (hp : g.Walk b l₁ p) (hq : l₂ ++ [b] = q :: rest) :
    Shown U ⟨Function.update t.seq b (some (l₁ ++ n :: l₂)), Function.update t.ready n False⟩
      (g.insert n p q) := by
  rcases h.ring b _ hb with ⟨hring, hmem⟩
  rcases h.ready n hn with ⟨hun, -, hfree⟩
  have hpm : p ∈ b :: (l₁ ++ l₂) := by
    rcases List.mem_cons.mp hp.end_mem with rfl | hm
    · exact List.mem_cons_self
    · exact List.mem_cons_of_mem b (List.mem_append_left l₂ hm)
  have hqm : q ∈ b :: (l₁ ++ l₂) := by
    have hm : q ∈ l₂ ++ [b] := by
      rw [hq]
      exact List.mem_cons_self
    rcases List.mem_append.mp hm with hm | hm
    · exact List.mem_cons_of_mem b (List.mem_append_right l₁ hm)
    · rw [List.mem_singleton.mp hm]
      exact List.mem_cons_self
  apply h.change (fun b' => b' = b)
  · intro b' hb'
    exact Function.update_of_ne hb' _ _
  · rintro b' l rfl hl
    simp only [Function.update_self, Option.some.injEq] at hl
    subst hl
    refine ⟨hring.insert hp hq (hfree _ _ hb), fun x hx => ?_⟩
    have hcases : x = n ∨ x ∈ b' :: (l₁ ++ l₂) := by
      simp only [List.mem_cons, List.mem_append] at hx ⊢
      tauto
    rcases hcases with rfl | hm
    · exact ⟨hun, fun b₁ l _ hl => hfree b₁ l hl⟩
    · exact ⟨hmem x hm, fun b₁ l hne hl => h.apart b' b₁ _ l hb hl (Ne.symm hne) x hm⟩
  · rintro b₁ b₂ l l' rfl rfl _ _ hne
    exact absurd rfl hne
  · intro b' l hne hl x hx
    have hxn : x ≠ n := fun heq => hfree b' l hl (heq ▸ hx)
    have hxp : x ≠ p := fun heq => h.apart b b' _ l hb hl (Ne.symm hne) p hpm (heq ▸ hx)
    have hxq : x ≠ q := fun heq => h.apart b b' _ l hb hl (Ne.symm hne) q hqm (heq ▸ hx)
    simp [Links.insert, hxn, hxp, hxq]
  · intro m hm
    have hmn : m ≠ n := by
      rintro rfl
      simp at hm
    simp only [Function.update_of_ne hmn] at hm
    rcases h.ready m hm with ⟨hu, hnull, hfree'⟩
    have hmq : m ≠ q := fun heq => hfree' b _ hb (heq ▸ hqm)
    refine ⟨hu, by simpa [Links.insert, hmn, hmq] using hnull, fun b' l hl => ?_⟩
    by_cases hb' : b' = b
    · subst hb'
      simp only [Function.update_self, Option.some.injEq] at hl
      subst hl
      have hout := hfree' b' _ hb
      simp only [List.mem_cons, List.mem_append] at hout ⊢
      tauto
    · simp only [Function.update_of_ne hb'] at hl
      exact hfree' b' l hl

theorem after_del_other (h : t.Shown U g) (hb : t.seq b = some l) (hn : n ∈ l) {b' : ChkPtr}
    (hne : b' ≠ b) : ((ListCall.del n).after t).seq b' = t.seq b' := by
  simp only [ListCall.after]
  cases hl' : t.seq b' with
  | none => rfl
  | some l' =>
      have hout : n ∉ l' := fun hm => h.apart b b' l l' hb hl' (Ne.symm hne) n
        (List.mem_cons_of_mem b hn) (List.mem_cons_of_mem b' hm)
      rw [Option.map_some, List.erase_of_not_mem hout]

theorem remove (h : t.Shown U g) (hb : t.seq b = some l) (hn : n ∈ l) :
    ((ListCall.del n).after t).Shown U ((g.join (g.prev n) (g.next n)).reset n) := by
  rcases h.ring b l hb with ⟨hring, hmem⟩
  have hnb := List.mem_cons_of_mem b hn
  have hpm := hring.prev_mem hnb
  have hqm := hring.next_mem hnb
  rcases List.append_of_mem hn with ⟨l₁, l₂, rfl⟩
  have hnodup : (n :: (b :: (l₁ ++ l₂))).Nodup := by
    have hperm : (b :: (l₁ ++ n :: l₂)).Perm (n :: b :: (l₁ ++ l₂)) :=
      (List.perm_middle.cons b).trans (List.Perm.swap n b _)
    exact hperm.nodup_iff.mp hring.nodup
  have hout := (List.nodup_cons.mp hnodup).1
  have herase : (l₁ ++ n :: l₂).erase n = l₁ ++ l₂ := by
    have hout₁ : n ∉ l₁ :=
      fun hm => hout (List.mem_cons_of_mem b (List.mem_append_left l₂ hm))
    rw [List.erase_append_right _ hout₁, List.erase_cons_head]
  have hrest : forall x, x ∈ b :: (l₁ ++ l₂) -> x ∈ b :: (l₁ ++ n :: l₂) := by
    intro x hx
    simp only [List.mem_cons, List.mem_append] at hx ⊢
    tauto
  have hother : forall b' l', b' ≠ b -> t.seq b' = some l' -> forall x, x ∈ b' :: l' ->
      x ≠ n ∧ x ≠ g.prev n ∧ x ≠ g.next n := by
    intro b' l' hne hl' x hx
    have hdisj := fun y hy => h.apart b b' _ l' hb hl' (Ne.symm hne) y hy
    exact ⟨fun heq => hdisj n hnb (heq ▸ hx), fun heq => hdisj _ hpm (heq ▸ hx),
      fun heq => hdisj _ hqm (heq ▸ hx)⟩
  have hafter : forall b', b' ≠ b -> ((ListCall.del n).after t).seq b' = t.seq b' :=
    fun b' hne => h.after_del_other hb hn hne
  have hself : ((ListCall.del n).after t).seq b = some (l₁ ++ l₂) := by
    simp only [ListCall.after]
    rw [hb, Option.map_some, herase]
  apply h.change (fun b' => b' = b) hafter
  · rintro b' l rfl hl
    rw [hself] at hl
    cases hl
    refine ⟨hring.remove.frame ?_ ?_, fun x hx => ?_⟩
    · intro x hx
      have hxn : x ≠ n := fun heq => hout (heq ▸ hx)
      simp [Links.reset, hxn]
    · intro x hx
      have hxn : x ≠ n := fun heq => hout (heq ▸ hx)
      simp [Links.reset, hxn]
    · exact ⟨hmem x (hrest x hx),
        fun b₁ l hne hl => h.apart b' b₁ _ l hb hl (Ne.symm hne) x (hrest x hx)⟩
  · rintro b₁ b₂ l l' rfl rfl _ _ hne
    exact absurd rfl hne
  · intro b' l hne hl x hx
    rcases hother b' l hne hl x hx with ⟨hxn, hxp, hxq⟩
    simp [Links.reset, Links.join, hxn, hxp, hxq]
  · intro m hm
    by_cases hmn : m = n
    · subst hmn
      refine ⟨hmem m hnb, by simp [Links.reset, ChkPtr.nulled, ChkPtr.IsNull], ?_⟩
      intro b' l hl
      by_cases hb' : b' = b
      · subst hb'
        rw [hself] at hl
        cases hl
        exact hout
      · rw [hafter b' hb'] at hl
        exact fun hm' => (hother b' l hb' hl m hm').1 rfl
    · simp only [ListCall.after, Function.update_of_ne hmn] at hm
      rcases h.ready m hm with ⟨hu, hnull, hfree⟩
      have hmq : m ≠ g.next n := fun heq => hfree b _ hb (heq ▸ hqm)
      refine ⟨hu, by simpa [Links.reset, Links.join, hmn, hmq] using hnull, ?_⟩
      intro b' l hl
      by_cases hb' : b' = b
      · subst hb'
        rw [hself] at hl
        cases hl
        exact fun hm' => hfree b' _ hb (hrest m hm')
      · rw [hafter b' hb'] at hl
        exact hfree b' l hl

theorem after_del_ready (h : t.Shown U g) (hn : t.ready n) : (ListCall.del n).after t = t := by
  have hseq : (fun b => (t.seq b).map fun l => l.erase n) = t.seq := by
    funext b
    cases hl : t.seq b with
    | none => rfl
    | some l =>
        have hout := ((h.ready n hn).2.2 b l hl)
        rw [Option.map_some,
          List.erase_of_not_mem fun hm => hout (List.mem_cons_of_mem b hm)]
  have hready : Function.update t.ready n True = t.ready := by
    rw [← eq_true hn]
    exact Function.update_eq_self n t.ready
  simp only [ListCall.after]
  rw [hseq, hready]

theorem splice {a : ChkPtr} (h : t.Shown U g) (ha : t.seq a = some l₁) (hb : t.seq b = some l₂)
    (hab : a ≠ b) (hne : l₁ ≠ []) :
    ((ListCall.splice a b).after t).Shown U (g.splice a b) := by
  rcases h.ring a l₁ ha with ⟨hra, hma⟩
  rcases h.ring b l₂ hb with ⟨hrb, hmb⟩
  have hdisj := h.apart a b l₁ l₂ ha hb hab
  rcases hra.splice hne hrb hdisj with ⟨hrb', hra'⟩
  have hself : ((ListCall.splice a b).after t).seq a = some [] := by
    simp [ListCall.after]
  have hself' : ((ListCall.splice a b).after t).seq b = some (l₂ ++ l₁) := by
    simp [ListCall.after, hab.symm, nodes_eq ha, nodes_eq hb]
  have hafter : forall b', ¬(b' = a ∨ b' = b) ->
      ((ListCall.splice a b).after t).seq b' = t.seq b' := by
    intro b' hb'
    rw [not_or] at hb'
    simp [ListCall.after, hb'.1, hb'.2]
  have hcases : forall x, x ∈ b :: (l₂ ++ l₁) -> x ∈ a :: l₁ ∨ x ∈ b :: l₂ := by
    intro x hx
    simp only [List.mem_cons, List.mem_append] at hx ⊢
    tauto
  have hother : forall x, x ∈ a :: l₁ ∨ x ∈ b :: l₂ -> U x ∧
      forall b' l', ¬(b' = a ∨ b' = b) -> t.seq b' = some l' -> x ∉ b' :: l' := by
    rintro x (hx | hx)
    · exact ⟨hma x hx, fun b' l' hne' hl' =>
        h.apart a b' l₁ l' ha hl' (fun heq => hne' (Or.inl heq.symm)) x hx⟩
    · exact ⟨hmb x hx, fun b' l' hne' hl' =>
        h.apart b b' l₂ l' hb hl' (fun heq => hne' (Or.inr heq.symm)) x hx⟩
  have haout : a ∉ b :: (l₂ ++ l₁) := by
    intro hm
    rcases List.mem_cons.mp hm with heq | hm
    · exact hab heq
    · rcases List.mem_append.mp hm with hm | hm
      · exact hdisj a List.mem_cons_self (List.mem_cons_of_mem b hm)
      · exact (List.nodup_cons.mp hra.nodup).1 hm
  -- the nodes whose links change
  have hnext := hra.next_mem List.mem_cons_self
  have hprev := hra.prev_mem List.mem_cons_self
  have hprev' := hrb.prev_mem List.mem_cons_self
  apply h.change (fun b' => b' = a ∨ b' = b) hafter
  · rintro b' l (rfl | rfl) hl
    · rw [hself] at hl
      cases hl
      refine ⟨hra', fun x hx => hother x (Or.inl ?_)⟩
      rw [List.mem_singleton.mp hx]
      exact List.mem_cons_self
    · rw [hself'] at hl
      cases hl
      exact ⟨hrb', fun x hx => hother x (hcases x hx)⟩
  · rintro b₁ b₂ l l' (rfl | rfl) (rfl | rfl) hl hl' hne' x hx
    · exact absurd rfl hne'
    · rw [hself] at hl
      rw [hself'] at hl'
      cases hl
      cases hl'
      rw [List.mem_singleton.mp hx]
      exact haout
    · rw [hself'] at hl
      rw [hself] at hl'
      cases hl
      cases hl'
      intro hx'
      rw [List.mem_singleton.mp hx'] at hx
      exact haout hx
    · exact absurd rfl hne'
  · intro b' l hne' hl x hx
    have hout := fun y hy => (hother y hy).2 b' l hne' hl
    have h1 : x ≠ a := fun heq => hout a (Or.inl List.mem_cons_self) (heq ▸ hx)
    have h2 : x ≠ b := fun heq => hout b (Or.inr List.mem_cons_self) (heq ▸ hx)
    have h3 : x ≠ g.next a := fun heq => hout _ (Or.inl hnext) (heq ▸ hx)
    have h4 : x ≠ g.prev a := fun heq => hout _ (Or.inl hprev) (heq ▸ hx)
    have h5 : x ≠ g.prev b := fun heq => hout _ (Or.inr hprev') (heq ▸ hx)
    simp [Links.splice, Links.makeEmpty, h1, h2, h3, h4, h5]
  · intro m hm
    rcases h.ready m hm with ⟨hu, hnull, hfree⟩
    have hout : m ∉ a :: l₁ := hfree a l₁ ha
    have hout' : m ∉ b :: l₂ := hfree b l₂ hb
    have h1 : m ≠ a := fun heq => hout (heq ▸ List.mem_cons_self)
    have h2 : m ≠ b := fun heq => hout' (heq ▸ List.mem_cons_self)
    have h3 : m ≠ g.next a := fun heq => hout (heq ▸ hnext)
    refine ⟨hu, by simpa [Links.splice, Links.makeEmpty, h1, h2, h3] using hnull, ?_⟩
    intro b' l hl
    by_cases hb' : b' = a ∨ b' = b
    · rcases hb' with rfl | rfl
      · rw [hself] at hl
        cases hl
        simpa using h1
      · rw [hself'] at hl
        cases hl
        intro hm'
        rcases hcases m hm' with hm' | hm'
        · exact hout hm'
        · exact hout' hm'
    · rw [hafter b' hb'] at hl
      exact hfree b' l hl

theorem add (h : t.Shown U g) (hb : t.seq b = some l) (hn : t.ready n) :
    ((ListCall.add n b).after t).Shown U (g.insert n b (g.next b)) := by
  cases hl : l ++ [b] with
  | nil => simp at hl
  | cons q rest =>
      have hnext := (h.ring b l hb).1.next_head hl
      have hb' : t.seq b = some ([] ++ l) := hb
      have hshown := h.insert hb' hn rfl hl
      rw [hnext]
      simp only [ListCall.after]
      rw [nodes_eq hb]
      exact hshown

theorem addTail (h : t.Shown U g) (hb : t.seq b = some l) (hn : t.ready n) :
    ((ListCall.addTail n b).after t).Shown U (g.insert n (g.prev b) b) := by
  have hb' : t.seq b = some (l ++ []) := by
    rw [List.append_nil]
    exact hb
  have hshown := h.insert (q := b) hb' hn (h.ring b l hb).1.prev_head rfl
  simp only [ListCall.after]
  rw [nodes_eq hb]
  exact hshown

theorem perform {env : Env} {s : Session} {w : World} (h : t.Shown U g)
    (hlink : Linked env s U g w) {call : ListCall} (hcall : call.Allowed U t) :
    exists w' g', call.perform s.world.index w = .ok ((), w') ∧ Linked env s U g' w' ∧
      (call.after t).Shown U g' := by
  cases call with
  | init b =>
      rcases hlink.init_ok hcall.1 with ⟨w', hrun, h'⟩
      exact ⟨w', _, hrun, h', h.init hcall.1 hcall.2.1 hcall.2.2⟩
  | reset n =>
      rcases hlink.nodeReset_ok hcall.1 with ⟨w', hrun, h'⟩
      exact ⟨w', _, hrun, h', h.reset hcall.1 hcall.2.1 hcall.2.2⟩
  | add n b =>
      rcases exists_nodes hcall.2 with ⟨l, hb, -⟩
      rcases h.ring b l hb with ⟨hring, hmem⟩
      rcases h.ready n hcall.1 with ⟨hun, -, hfree⟩
      have hnext := hring.next_mem List.mem_cons_self
      rcases hlink.add_ok hun (hmem b List.mem_cons_self) (hmem _ hnext)
        (fun heq => hfree b l hb (heq ▸ hnext)) with ⟨w', hrun, h'⟩
      exact ⟨w', _, hrun, h', h.add hb hcall.1⟩
  | addTail n b =>
      rcases exists_nodes hcall.2 with ⟨l, hb, -⟩
      rcases h.ring b l hb with ⟨hring, hmem⟩
      rcases h.ready n hcall.1 with ⟨hun, -, hfree⟩
      have hprev := hring.prev_mem List.mem_cons_self
      rcases hlink.addTail_ok hun (hmem b List.mem_cons_self) (hmem _ hprev)
        (fun heq => hfree b l hb (heq ▸ List.mem_cons_self)) with ⟨w', hrun, h'⟩
      exact ⟨w', _, hrun, h', h.addTail hb hcall.1⟩
  | del n =>
      rcases hcall with hn | ⟨b, l, hb, hn⟩
      · rcases h.ready n hn with ⟨hun, hnull, -⟩
        rw [h.after_del_ready hn]
        exact ⟨w, g, hlink.del_unlinked hun hnull, hlink, h⟩
      · rcases h.ring b l hb with ⟨hring, hmem⟩
        have hnb := List.mem_cons_of_mem b hn
        rcases hlink.del_ok (hmem n hnb) (hmem _ (hring.prev_mem hnb))
          (hmem _ (hring.next_mem hnb)) with ⟨w', hrun, h'⟩
        exact ⟨w', _, hrun, h', h.remove hb hn⟩
  | splice a b =>
      rcases exists_nodes hcall.1 with ⟨l₁, ha, hna⟩
      rcases exists_nodes hcall.2.1 with ⟨l₂, hb, hnb⟩
      rcases h.ring a l₁ ha with ⟨hra, hma⟩
      rcases h.ring b l₂ hb with ⟨hrb, hmb⟩
      by_cases hempty : l₁ = []
      · have hafter : (ListCall.splice a b).after t = t := by
          simp only [ListCall.after]
          rw [hna, hnb, hempty, List.append_nil, ← hb, Function.update_eq_self, ← hempty, ← ha,
            Function.update_eq_self]
        rw [hafter]
        exact ⟨w, g, hlink.splice_empty (hma a List.mem_cons_self)
          (hra.empty_iff.mpr hempty) b, hlink, h⟩
      · have hself := List.mem_cons_self (a := a) (l := l₁)
        have hself' := List.mem_cons_self (a := b) (l := l₂)
        rcases hlink.splice_ok (hma a hself) (hmb b hself') (hma _ (hra.next_mem hself))
          (hma _ (hra.prev_mem hself)) (hmb _ (hrb.prev_mem hself'))
          (fun heq => hempty (hra.empty_iff.mp heq)) with ⟨w', hrun, h'⟩
        exact ⟨w', _, hrun, h', h.splice ha hb hcall.2.2 hempty⟩

end Shown

end Lists

/-- Whatever calls lead to: memory that holds the links of the lists. -/
theorem ListReach.shown {env : Env} {s : Session} {U : ChkPtr -> Prop} {w : World} {t : Lists}
    (h : ListReach s U w t) (hopen : Open env s) (hplaces : Places s.live U) :
    exists g, Linked env s U g w ∧ t.Shown U g := by
  induction h with
  | start => exact ⟨_, Linked.start hopen hplaces, Lists.Shown.start U _⟩
  | step _ hcall hrun ih =>
      rcases ih with ⟨g, hlink, hshown⟩
      rcases hshown.perform hlink hcall with ⟨w', g', hrun', hlink', hshown'⟩
      rw [hrun] at hrun'
      cases hrun'
      exact ⟨g', hlink', hshown'⟩

theorem ListReach.extend {env : Env} {s : Session} {U : ChkPtr -> Prop} {w : World} {t : Lists}
    (h : ListReach s U w t) (hopen : Open env s) (hplaces : Places s.live U) {call : ListCall}
    (hcall : call.Allowed U t) : exists w', ListReach s U w' (call.after t) := by
  rcases h.shown hopen hplaces with ⟨g, hlink, hshown⟩
  rcases hshown.perform hlink hcall with ⟨w', -, hrun, -⟩
  exact ⟨w', h.step hcall hrun⟩

/-- In every session with an uncompressed index, with heads and nodes anywhere in its
blocks, after any calls on the lists: the walk along the next links leads from each head
through exactly the nodes of its list and back, the walk along the previous links
through the same nodes in reverse; no node is in a list twice, in two lists or a head;
every call returns; deleting a node that was reset and is in no list changes nothing;
and nothing but links was ever written. -/
theorem Reach.lists_well_formed {env : Env} {s : Session} (h : Reach env CarefulCall s)
    (hflag : s.world.index.compressed = false) {U : ChkPtr -> Prop} (hplaces : Places s.live U)
    {w : World} {t : Lists} (ht : ListReach s U w t) :
    (forall b l, t.seq b = some l -> forall fuel, l.length < fuel ->
      ChkList.forEach (s.world.index.place b).addr fuel w =
        .ok (l.map (Linked.visit s.world.index), w) ∧
      ChkList.forEachR (s.world.index.place b).addr fuel w =
        .ok (l.reverse.map (Linked.visit s.world.index), w)) ∧
    (forall b l, t.seq b = some l -> (b :: l).Nodup) ∧
    (forall b b' l l', t.seq b = some l -> t.seq b' = some l' -> b ≠ b' ->
      forall x, x ∈ b :: l -> x ∉ b' :: l') ∧
    (forall call : ListCall, call.Allowed U t ->
      exists w', call.perform s.world.index w = .ok ((), w')) ∧
    (forall n, t.ready n -> (ListCall.del n).perform s.world.index w = .ok ((), w)) ∧
    OnlyLinks s U w := by
  rcases ht.shown (h.isOpen hflag) hplaces with ⟨g, hlink, hshown⟩
  refine ⟨?_, fun b l hb => (hshown.ring b l hb).1.nodup, hshown.apart, ?_, ?_, hlink.only⟩
  · intro b l hb fuel hfuel
    rcases hshown.ring b l hb with ⟨hring, hmem⟩
    exact hlink.forEach_ok hring hmem hfuel
  · intro call hcall
    rcases hshown.perform hlink hcall with ⟨w', -, hrun, -⟩
    exact ⟨w', hrun⟩
  · intro n hn
    rcases hshown.ready n hn with ⟨hun, hnull, -⟩
    exact hlink.del_unlinked hun hnull

/-!
## Lists that can be computed
-/

section Computed

/-- The lists of some heads, the newest entry for a head in front, and the nodes that are
ready. -/
structure ListTable where
  heads : List (ChkPtr × List ChkPtr)
  ready : List ChkPtr

namespace ListTable

def lists (x : ListTable) : Lists := ⟨fun b => x.heads.lookup b, fun n => n ∈ x.ready⟩

def nodes (x : ListTable) (b : ChkPtr) : List ChkPtr := (x.heads.lookup b).getD []

/-- The table after a call, none where the call is not allowed. -/
def after (U : ChkPtr -> Prop) [DecidablePred U] (x : ListTable) : ListCall -> Option ListTable
  | .init b =>
      if U b ∧ x.heads.lookup b = none ∧ forall e, e ∈ x.heads -> b ∉ e.2 then
        some ⟨(b, []) :: x.heads, x.ready.filter fun n => n ≠ b⟩
      else none
  | .reset n =>
      if U n ∧ x.heads.lookup n = none ∧ forall e, e ∈ x.heads -> n ∉ e.2 then
        some ⟨x.heads, n :: x.ready⟩
      else none
  | .add n b =>
      if n ∈ x.ready ∧ (x.heads.lookup b).isSome then
        some ⟨(b, n :: x.nodes b) :: x.heads, x.ready.filter fun m => m ≠ n⟩
      else none
  | .addTail n b =>
      if n ∈ x.ready ∧ (x.heads.lookup b).isSome then
        some ⟨(b, x.nodes b ++ [n]) :: x.heads, x.ready.filter fun m => m ≠ n⟩
      else none
  | .del n =>
      if n ∈ x.ready ∨ exists e, e ∈ x.heads ∧ n ∈ x.nodes e.1 then
        some ⟨x.heads.map fun e => (e.1, e.2.erase n), n :: x.ready⟩
      else none
  | .splice a b =>
      if (x.heads.lookup a).isSome ∧ (x.heads.lookup b).isSome ∧ a ≠ b then
        some ⟨(a, []) :: (b, x.nodes b ++ x.nodes a) :: x.heads, x.ready⟩
      else none

variable {U : ChkPtr -> Prop} [DecidablePred U] {x y : ListTable} {b n : ChkPtr}

theorem update_lookup (heads : List (ChkPtr × List ChkPtr)) (b : ChkPtr) (l : List ChkPtr) :
    Function.update (fun p => heads.lookup p) b (some l) = fun p => ((b, l) :: heads).lookup p := by
  funext p
  by_cases hp : p = b
  · rw [hp, Function.update_self, List.lookup_cons_self]
  · rw [Function.update_of_ne hp, List.lookup_cons, beq_false_of_ne hp]

theorem update_ready (ready : List ChkPtr) (n : ChkPtr) :
    Function.update (fun m => m ∈ ready) n True = fun m => m ∈ n :: ready := by
  funext m
  by_cases hm : m = n
  · simp [hm]
  · simp [hm]

theorem update_taken (ready : List ChkPtr) (n : ChkPtr) :
    Function.update (fun m => m ∈ ready) n False = fun m => m ∈ ready.filter fun m => m ≠ n := by
  funext m
  by_cases hm : m = n
  · simp [hm]
  · simp [hm]

theorem lookup_erase (heads : List (ChkPtr × List ChkPtr)) (n p : ChkPtr) :
    (heads.map fun e => (e.1, e.2.erase n)).lookup p =
      (heads.lookup p).map fun l => l.erase n := by
  induction heads with
  | nil => rfl
  | cons e rest ih =>
      rw [List.map_cons, List.lookup_cons, List.lookup_cons]
      cases p == e.1 with
      | true => rfl
      | false => exact ih

theorem mem_of_lookup {l : List ChkPtr} (h : x.lists.seq b = some l) : (b, l) ∈ x.heads := by
  rcases List.lookup_eq_some_iff.mp h with ⟨l₁, l₂, heq, -⟩
  rw [heq]
  exact List.mem_append_right l₁ List.mem_cons_self

theorem not_member (h : forall e, e ∈ x.heads -> n ∉ e.2) : ¬x.lists.Member n := by
  rintro ⟨b, l, hb, hn⟩
  exact h (b, l) (mem_of_lookup hb) hn

theorem member (h : exists e, e ∈ x.heads ∧ n ∈ x.nodes e.1) : x.lists.Member n := by
  rcases h with ⟨⟨b, l⟩, -, hn⟩
  cases hb : x.heads.lookup b with
  | none => simp [nodes, hb] at hn
  | some m => exact ⟨b, m, hb, by simpa [nodes, hb] using hn⟩

/-- An allowed call on the table is one on the lists, and does the same to them. -/
theorem after_lists {call : ListCall} (h : x.after U call = some y) :
    call.Allowed U x.lists ∧ call.after x.lists = y.lists := by
  cases call with
  | init b =>
      simp only [after, Option.ite_none_right_eq_some, Option.some.injEq] at h
      rcases h with ⟨⟨hU, hnone, hout⟩, rfl⟩
      exact ⟨⟨hU, hnone, not_member hout⟩,
        Lists.ext (update_lookup _ _ _) (update_taken _ _)⟩
  | reset n =>
      simp only [after, Option.ite_none_right_eq_some, Option.some.injEq] at h
      rcases h with ⟨⟨hU, hnone, hout⟩, rfl⟩
      exact ⟨⟨hU, hnone, not_member hout⟩, Lists.ext rfl (update_ready _ _)⟩
  | add n b =>
      simp only [after, Option.ite_none_right_eq_some, Option.some.injEq] at h
      rcases h with ⟨hready, rfl⟩
      exact ⟨hready, Lists.ext (update_lookup _ _ _) (update_taken _ _)⟩
  | addTail n b =>
      simp only [after, Option.ite_none_right_eq_some, Option.some.injEq] at h
      rcases h with ⟨hready, rfl⟩
      exact ⟨hready, Lists.ext (update_lookup _ _ _) (update_taken _ _)⟩
  | del n =>
      simp only [after, Option.ite_none_right_eq_some, Option.some.injEq] at h
      rcases h with ⟨hmem, rfl⟩
      exact ⟨hmem.imp_right member,
        Lists.ext (funext fun p => (lookup_erase _ n p).symm) (update_ready _ _)⟩
  | splice a b =>
      simp only [after, Option.ite_none_right_eq_some, Option.some.injEq] at h
      rcases h with ⟨hheads, rfl⟩
      refine ⟨hheads, Lists.ext ?_ rfl⟩
      exact (congrArg (fun f => Function.update f a (some [])) (update_lookup _ _ _)).trans
        (update_lookup _ _ _)

theorem lists_nil : (⟨[], []⟩ : ListTable).lists = .none := by
  unfold lists Lists.none
  simp

def performAll (U : ChkPtr -> Prop) [DecidablePred U] : List ListCall -> ListTable ->
    Option ListTable
  | [], x => some x
  | call :: rest, x =>
      match x.after U call with
      | some y => performAll U rest y
      | none => none

end ListTable

theorem ListReach.extendAll {env : Env} {s : Session} {U : ChkPtr -> Prop} [DecidablePred U]
    (hopen : Open env s) (hplaces : Places s.live U) {calls : List ListCall} {y : ListTable} :
    forall {w : World} {x : ListTable}, ListReach s U w x.lists ->
      ListTable.performAll U calls x = some y -> exists w', ListReach s U w' y.lists := by
  induction calls with
  | nil =>
      intro w x h hrun
      cases hrun
      exact ⟨w, h⟩
  | cons call rest ih =>
      intro w x h hrun
      unfold ListTable.performAll at hrun
      cases hcall : x.after U call with
      | none =>
          rw [hcall] at hrun
          cases hrun
      | some z =>
          rw [hcall] at hrun
          rcases ListTable.after_lists hcall with ⟨hallowed, heq⟩
          rcases h.extend hopen hplaces hallowed with ⟨w', h'⟩
          rw [heq] at h'
          exact ih h' hrun

theorem ListReach.of_calls {env : Env} {s : Session} {U : ChkPtr -> Prop} [DecidablePred U]
    (hopen : Open env s) (hplaces : Places s.live U) {calls : List ListCall} {y : ListTable}
    (hcode : ListTable.performAll U calls ⟨[], []⟩ = some y) :
    exists w, ListReach s U w y.lists := by
  have hstart : ListReach s U s.world (⟨[], []⟩ : ListTable).lists :=
    ListTable.lists_nil ▸ .start
  exact hstart.extendAll hopen hplaces hcode

end Computed

/-!
## A session with lists
-/

section Sample

def roomy : Session := Call.after Env.plain [.alloc 80] ⟨World.boot, []⟩

theorem roomy_reach : Reach Env.plain CarefulCall roomy := by
  unfold roomy
  exact .after (.start World.boot_fresh) (by decide +kernel)

def roomyPlaces : List ChkPtr := [⟨0, 10, 0⟩, ⟨0, 12, 0⟩, ⟨0, 14, 0⟩, ⟨0, 16, 0⟩, ⟨0, 18, 0⟩,
  ⟨0, 20, 0⟩, ⟨0, 22, 0⟩, ⟨0, 24, 0⟩, ⟨0, 26, 0⟩, ⟨0, 28, 0⟩]

theorem roomyPlaces_places {live : List Live} (h : ⟨⟨0, 10, 10⟩, 80⟩ ∈ live) :
    Places live fun p => p ∈ roomyPlaces := by
  have hinside : forall p, p ∈ roomyPlaces ->
      p.chkNo = 0 ∧ 10 ≤ p.offset ∧ p.offset + 2 ≤ 10 + 2 * 10 := by decide
  have hapart : forall p, p ∈ roomyPlaces -> forall q, q ∈ roomyPlaces -> p ≠ q ->
      p.chkNo = q.chkNo -> p.offset + 2 ≤ q.offset ∨ q.offset + 2 ≤ p.offset := by decide
  exact ⟨fun p hp => ⟨_, h, hinside p hp⟩, by decide, fun p q hp hq => hapart p hp q hq⟩

theorem roomy_places : Places roomy.live fun p => p ∈ roomyPlaces :=
  roomyPlaces_places (by decide +kernel)

/-- Two lists are made of five nodes, one node is taken out, and the first list is spliced to
the second. -/
def roomyCalls : List ListCall :=
  [.init ⟨0, 10, 0⟩, .init ⟨0, 12, 0⟩, .reset ⟨0, 14, 0⟩, .reset ⟨0, 16, 0⟩, .reset ⟨0, 18, 0⟩,
    .reset ⟨0, 20, 0⟩, .reset ⟨0, 22, 0⟩, .add ⟨0, 14, 0⟩ ⟨0, 10, 0⟩,
    .addTail ⟨0, 16, 0⟩ ⟨0, 10, 0⟩, .add ⟨0, 18, 0⟩ ⟨0, 10, 0⟩, .add ⟨0, 20, 0⟩ ⟨0, 12, 0⟩,
    .add ⟨0, 22, 0⟩ ⟨0, 12, 0⟩, .del ⟨0, 14, 0⟩, .splice ⟨0, 10, 0⟩ ⟨0, 12, 0⟩]

theorem roomy_table : exists t,
    ListTable.performAll (fun p => p ∈ roomyPlaces) roomyCalls ⟨[], []⟩ = some t ∧
    t.lists.seq ⟨0, 10, 0⟩ = some [] ∧
    t.lists.seq ⟨0, 12, 0⟩ = some [⟨0, 22, 0⟩, ⟨0, 20, 0⟩, ⟨0, 18, 0⟩, ⟨0, 16, 0⟩] := by
  have hcode : (ListTable.performAll (fun p => p ∈ roomyPlaces) roomyCalls ⟨[], []⟩).isSome :=
    by decide
  rcases Option.isSome_iff_exists.mp hcode with ⟨y, hy⟩
  refine ⟨y, hy, ?_⟩
  cases hy
  exact ⟨rfl, rfl⟩

theorem roomy_lists : exists w t, ListReach roomy (fun p => p ∈ roomyPlaces) w t ∧
    t.seq ⟨0, 10, 0⟩ = some [] ∧
    t.seq ⟨0, 12, 0⟩ = some [⟨0, 22, 0⟩, ⟨0, 20, 0⟩, ⟨0, 18, 0⟩, ⟨0, 16, 0⟩] := by
  have hopen := roomy_reach.isOpen (by decide +kernel)
  rcases roomy_table with ⟨y, hy, hseq⟩
  rcases ListReach.of_calls hopen roomy_places hy with ⟨w, hw⟩
  exact ⟨w, _, hw, hseq⟩

/-- The walks run through the four nodes of the second list, forwards and backwards. -/
theorem Reach.lists_well_formed_sample : exists w,
    ChkList.forEach (roomy.world.index.place ⟨0, 12, 0⟩).addr 5 w =
      .ok ([⟨0, 22, 0⟩, ⟨0, 20, 0⟩, ⟨0, 18, 0⟩, ⟨0, 16, 0⟩].map
        (Linked.visit roomy.world.index), w) ∧
    ChkList.forEachR (roomy.world.index.place ⟨0, 12, 0⟩).addr 5 w =
      .ok ([⟨0, 16, 0⟩, ⟨0, 18, 0⟩, ⟨0, 20, 0⟩, ⟨0, 22, 0⟩].map
        (Linked.visit roomy.world.index), w) ∧
    ChkList.forEach (roomy.world.index.place ⟨0, 10, 0⟩).addr 1 w = .ok ([], w) := by
  have hflag : roomy.world.index.compressed = false := by decide +kernel
  rcases roomy_lists with ⟨w, t, ht, hfirst, hsecond⟩
  have hwalks := (Reach.lists_well_formed roomy_reach hflag roomy_places ht).1
  rcases hwalks _ _ hsecond 5 (by decide) with ⟨hforwards, hbackwards⟩
  exact ⟨w, hforwards, hbackwards, (hwalks _ _ hfirst 1 (by decide)).1⟩

end Sample

end ChunkMem
