import ChunkMem.Foundation.SortedUnion
import ChunkMem.Properties.Lists
import ChunkMem.Structures.Merge

/-!
# A merge is a sorted union

The loop of the merge is followed on the lists that the links show: what the iterators
point at is the rest of each list, and one round does to the rests what one step of the
sorted union does.
-/

namespace ChunkMem

open Foundation

namespace Linked

variable {env : Env} {s : Session} {U : ChkPtr -> Prop} {g : Links ChkPtr} {w : World}
variable {p : ChkPtr}

def iter (idx : ChkIndex) (o : Nat) (p : ChkPtr) : ChkListIterator := ⟨p, o, (idx.place p).addr⟩

theorem ofLink_ok (h : Linked env s U g w) (hp : U p) (o : Nat) :
    ChkListIterator.ofLink o p w = .ok (iter s.world.index o p, w) := by
  unfold ChkListIterator.ofLink
  rw [if_neg (h.not_null hp), Exec.bind_of_ok (h.chkPtr2addr_ok hp)]
  rfl

theorem advance_ok (h : Linked env s U g w) (hp : U p) {q : ChkPtr} (hn : g.next p = q)
    (hq : U q) (o : Nat) :
    (iter s.world.index o p).advance w = .ok (iter s.world.index o q, w) := by
  have hload : loadPtr (ChkListNode.next (iter s.world.index o p).pnode) w = .ok (q, w) := by
    rw [← hn]
    exact h.loadNext hp
  unfold ChkListIterator.advance
  rw [Exec.bind_of_ok hload, Exec.bind_of_ok (h.chkPtr2addr_ok hq)]
  rfl

theorem retreat_ok (h : Linked env s U g w) (hp : U p) {q : ChkPtr} (hv : g.prev p = q)
    (hq : U q) (o : Nat) :
    (iter s.world.index o p).retreat w = .ok (iter s.world.index o q, w) := by
  have hload : loadPtr (ChkListNode.prev (iter s.world.index o p).pnode) w = .ok (q, w) := by
    rw [← hv]
    exact h.loadPrev hp
  unfold ChkListIterator.retreat
  rw [Exec.bind_of_ok hload, Exec.bind_of_ok (h.chkPtr2addr_ok hq)]
  rfl

theorem chkListnode2chk_ok (h : Linked env s U g w) {b : ChkPtr} {l : List ChkPtr}
    (hring : g.IsRing b l) (hl : forall x, x ∈ b :: l -> U x) (hp : p ∈ b :: l) :
    chkListnode2chk (s.world.index.place p).addr w = .ok ((s.world.index.place p).chk, w) := by
  have hprev := hl _ (hring.prev_mem hp)
  have hload := h.loadNext hprev
  rw [hring.next_prev hp] at hload
  unfold chkListnode2chk
  rw [Exec.bind_of_ok (h.loadPrev (hl p hp)), if_neg (h.not_null hprev),
    Exec.bind_of_ok (h.chkPtr2addr_ok hprev), Exec.bind_of_ok hload, h.chkPtr2chk_ok (hl p hp)]

end Linked

/-- The comparison function reads no links: on the objects that contain the nodes it
returns what `c` says. -/
def ComparesAs (s : Session) (U V : ChkPtr -> Prop) (o : Nat) (cmpFunc : Ptr -> Ptr -> M Int)
    (c : ChkPtr -> ChkPtr -> Int) : Prop :=
  forall w, OnlyLinks s U w -> forall a b, V a -> V b ->
    cmpFunc (Linked.iter s.world.index o a).container (Linked.iter s.world.index o b).container
      w = .ok (c a b, w)

namespace Lists

variable {env : Env} {s : Session} {U V : ChkPtr -> Prop} {t : Lists} {g : Links ChkPtr}
variable {w : World} {lf rh b x : ChkPtr} {l r l₁ : List ChkPtr} {o : Nat}
variable {cmpFunc : Ptr -> Ptr -> M Int} {c : ChkPtr -> ChkPtr -> Int}

/-- What the loop leads to from a list that begins with `l₁` and a second one, when
their union is `u`: the union stands in the two lists together, and what was dropped is
in no list. -/
structure Merged (t : Lists) (lf rh : ChkPtr) (l₁ : List ChkPtr)
    (u : List ChkPtr × List ChkPtr) (t' : Lists) : Prop where
  lists : exists m r', t'.seq lf = some m ∧ t'.seq rh = some r' ∧ m ++ r' = l₁ ++ u.1
  others : forall b, b ≠ lf -> b ≠ rh -> t'.seq b = t.seq b
  ready : forall n, t'.ready n <-> t.ready n ∨ n ∈ u.2

namespace Shown

theorem takeFirst (h : t.Shown U g) (hlink : Linked env s U g w)
    (hrh : t.seq rh = some (x :: r)) :
    exists (w' : World) (g' : Links ChkPtr) (t' : Lists),
      ChkList.del (s.world.index.place x) w = .ok ((), w') ∧
      Linked env s U g' w' ∧ t'.Shown U g' ∧ t'.seq rh = some r ∧
      (forall b, b ≠ rh -> t'.seq b = t.seq b) ∧
      forall n, t'.ready n <-> t.ready n ∨ n = x := by
  have hmem := List.mem_cons_self (a := x) (l := r)
  have hallowed : (ListCall.del x).Allowed U t := Or.inr ⟨rh, _, hrh, hmem⟩
  rcases h.perform hlink hallowed with ⟨w', g', hrun, hlink', hshown'⟩
  refine ⟨w', g', _, hrun, hlink', hshown', ?_, ?_, ?_⟩
  · simp only [ListCall.after]
    rw [hrh, Option.map_some, List.erase_cons_head]
  · intro b hb
    exact h.after_del_other hrh hmem hb
  · intro n
    by_cases hn : n = x
    · subst hn
      simp [ListCall.after]
    · simp [ListCall.after, hn]

theorem rest (h : t.Shown U g) {k : List ChkPtr} (hlf : t.seq lf = some (k ++ b :: l)) :
    U b ∧ g.next b = l.headD lf ∧ U (l.headD lf) := by
  rcases h.ring lf _ hlf with ⟨hring, hmem⟩
  have hb : b ∈ lf :: (k ++ b :: l) := by simp
  have hnext := hring.next_at
  refine ⟨hmem b hb, hnext, ?_⟩
  rw [← hnext]
  exact hmem _ (hring.next_mem hb)

theorem not_ends (h : t.Shown U g) (hlink : Linked env s U g w)
    (hlf : t.seq lf = some (l₁ ++ b :: l)) (hrh : t.seq rh = some (x :: r)) (o : Nat) :
    ¬((Linked.iter s.world.index o ((b :: l).headD lf)).pnode =
          (ChkListIterator.ofNode (s.world.index.place lf).addr).pnode ∨
        (Linked.iter s.world.index o ((x :: r).headD rh)).pnode =
          (ChkListIterator.ofNode (s.world.index.place rh).addr).pnode) := by
  rcases h.ring lf _ hlf with ⟨hring, hmem⟩
  rcases h.ring rh _ hrh with ⟨hring', hmem'⟩
  rintro (hend | hend)
  · have hb : b = lf := hlink.place_inj (hmem b (by simp)) (hmem lf List.mem_cons_self) hend
    exact (List.nodup_cons.mp hring.nodup).1 (by simp [hb])
  · have hx : x = rh := hlink.place_inj (hmem' x (by simp)) (hmem' rh List.mem_cons_self) hend
    exact (List.nodup_cons.mp hring'.nodup).1 (by simp [hx])

end Shown

namespace Merged

variable {t₁ t' : Lists} {u : List ChkPtr × List ChkPtr}

theorem passed (h : Merged t lf rh (l₁ ++ [b]) u t') : Merged t lf rh l₁ (b :: u.1, u.2) t' := by
  rcases h.lists with ⟨m, r', hm, hr', heq⟩
  exact ⟨⟨m, r', hm, hr', by simpa using heq⟩, h.others, h.ready⟩

theorem dropped (h : Merged t₁ lf rh l₁ u t') {d : List ChkPtr}
    (hothers : forall b, b ≠ lf -> b ≠ rh -> t₁.seq b = t.seq b)
    (hready : forall n, t₁.ready n <-> t.ready n ∨ n ∈ d) :
    Merged t lf rh l₁ (u.1, d ++ u.2) t' := by
  refine ⟨h.lists, fun b hblf hbrh => ?_, fun n => ?_⟩
  · rw [h.others b hblf hbrh, hothers b hblf hbrh]
  · rw [h.ready, hready, List.mem_append, or_assoc]

end Merged

theorem of_rounds {f f' : Nat -> Except Fault (Unit × World)} {k : Nat}
    {y : Except Fault (Unit × World)} (hround : forall n, f (n + 1) = f' n)
    (hrun : forall n, k ≤ n -> f' n = y) : forall n, k < n -> f n = y := by
  intro n hn
  cases n with
  | zero => cases hn
  | succ n => exact (hround n).trans (hrun n (Nat.le_of_lt_succ hn))

namespace Shown

theorem mergeLoop (h : t.Shown U g) (hlink : Linked env s U g w)
    (hcmp : ComparesAs s U V o cmpFunc c) (hne : lf ≠ rh) (hlf : t.seq lf = some (l₁ ++ l))
    (hrh : t.seq rh = some r) (hl : forall y, y ∈ l -> V y) (hr : forall y, y ∈ r -> V y) :
    exists (w' : World) (g' : Links ChkPtr) (t' : Lists), (forall n, 2 * r.length + l.length < n ->
        ChkList.mergeLoop cmpFunc (.ofNode (s.world.index.place lf).addr)
          (.ofNode (s.world.index.place rh).addr) n (Linked.iter s.world.index o (l.headD lf))
          (Linked.iter s.world.index o (r.headD rh)) w = .ok ((), w')) ∧
      Linked env s U g' w' ∧ t'.Shown U g' ∧ Merged t lf rh l₁ (sortedUnion c l r) t' := by
  fun_induction sortedUnion c l r generalizing l₁ t g w with
  | case1 r =>
      refine ⟨w, g, t, ?_, hlink, h, ⟨⟨l₁, r, ?_, hrh, rfl⟩, fun _ _ _ => rfl, fun n => by simp⟩⟩
      · exact of_rounds (fun n => ChkList.mergeLoop_end (Or.inl rfl)) fun _ _ => rfl
      · rw [hlf, List.append_nil]
  | case2 b l =>
      refine ⟨w, g, t, ?_, hlink, h,
        ⟨⟨_, [], hlf, hrh, by simp⟩, fun _ _ _ => rfl, fun n => by simp⟩⟩
      exact of_rounds (fun n => ChkList.mergeLoop_end (Or.inr rfl)) fun _ _ => rfl
  | case3 b l x r hlt u =>
      rename_i ih
      rcases h.rest hlf with ⟨hub, hnext, hul⟩
      have hl' : forall y, y ∈ l -> V y := fun y hy => hl y (List.mem_cons_of_mem b hy)
      have hlf' : t.seq lf = some ((l₁ ++ [b]) ++ l) := by simpa using hlf
      rcases ih h hlink hlf' hrh hl' hr with ⟨w', g', t', hrun, hlink', hshown', hmerged⟩
      refine ⟨w', g', t', ?_, hlink', hshown', hmerged.passed⟩
      refine of_rounds (fun n => ?_) fun n hn => hrun n (by
        simp only [List.length_cons] at hn ⊢
        omega)
      exact ChkList.mergeLoop_less (h.not_ends hlink hlf hrh o)
        (hcmp w hlink.only b x (hl b List.mem_cons_self) (hr x List.mem_cons_self)) hlt
        (hlink.advance_ok hub hnext hul o)
  | case4 b l x r hlt heq u =>
      rename_i ih
      rcases h.rest (k := []) hrh with ⟨hux, hnextr, hur⟩
      rcases h.takeFirst hlink hrh with ⟨w₁, g₁, t₁, hdel, hlink₁, h₁, hrh₁, hothers, hready⟩
      have hlf₁ := (hothers lf hne).trans hlf
      have hlf₁' : t₁.seq lf = some ((l₁ ++ [b]) ++ l) := by simpa using hlf₁
      rcases h₁.rest hlf₁ with ⟨hub, hnext, hul⟩
      have hl' : forall y, y ∈ l -> V y := fun y hy => hl y (List.mem_cons_of_mem b hy)
      have hr' : forall y, y ∈ r -> V y := fun y hy => hr y (List.mem_cons_of_mem x hy)
      rcases ih h₁ hlink₁ hlf₁' hrh₁ hl' hr' with ⟨w', g', t', hrun, hlink', hshown', hmerged⟩
      refine ⟨w', g', t', ?_, hlink', hshown', hmerged.passed.dropped (d := [x])
        (fun b' _ hbrh => hothers b' hbrh) fun n => by rw [hready, List.mem_singleton]⟩
      refine of_rounds (fun n => ?_) fun n hn => hrun n (by
        simp only [List.length_cons] at hn ⊢
        omega)
      exact ChkList.mergeLoop_equal (h.not_ends hlink hlf hrh o)
        (hcmp w hlink.only b x (hl b List.mem_cons_self) (hr x List.mem_cons_self)) heq
        (hlink.advance_ok hux hnextr hur o) (hlink.chkPtr2chk_ok hux) hdel
        (hlink₁.advance_ok hub hnext hul o)
  | case5 b l x r hlt heq ih =>
      rcases h.rest (k := []) hrh with ⟨hux, hnextr, hur⟩
      rcases h.takeFirst hlink hrh with ⟨w₁, g₁, t₁, hdel, hlink₁, h₁, hrh₁, hothers, hready⟩
      have hlf₁ := (hothers lf hne).trans hlf
      rcases h₁.ring lf _ hlf₁ with ⟨hring, hmem⟩
      have hbm : b ∈ lf :: (l₁ ++ b :: l) := by simp
      have hub := hmem b hbm
      have hup := hmem _ (hring.prev_mem hbm)
      have hxr : t₁.ready x := (hready x).mpr (Or.inr rfl)
      have hxb : x ≠ b := fun heq' => (h₁.ready x hxr).2.2 lf _ hlf₁ (heq' ▸ hbm)
      rcases hlink₁.insert_ok hux hup hub hxb with ⟨w₂, hinsert, hlink₂⟩
      have h₂ := h₁.insert hlf₁ hxr hring.prev_at rfl
      have hrh₂ : Function.update t₁.seq lf (some (l₁ ++ x :: b :: l)) rh = some r := by
        rw [Function.update_of_ne hne.symm, hrh₁]
      have hl' : forall y, y ∈ x :: b :: l -> V y := by
        intro y hy
        rcases List.mem_cons.mp hy with rfl | hy
        · exact hr y List.mem_cons_self
        · exact hl y hy
      have hr' : forall y, y ∈ r -> V y := fun y hy => hr y (List.mem_cons_of_mem x hy)
      rcases ih h₂ hlink₂ (Function.update_self ..) hrh₂ hl' hr' with
        ⟨w', g', t', hrun, hlink', hshown', hmerged⟩
      refine ⟨w', g', t', ?_, hlink', hshown', hmerged.dropped (d := []) ?_ ?_⟩
      · refine of_rounds (fun n => ?_) fun n hn => hrun n (by
          simp only [List.length_cons] at hn ⊢
          omega)
        exact ChkList.mergeLoop_greater (h.not_ends hlink hlf hrh o)
          (hcmp w hlink.only b x (hl b List.mem_cons_self) (hr x List.mem_cons_self))
          (by omega) (hlink.advance_ok hux hnextr hur o) (hlink.chkPtr2chk_ok hux) hdel
          (hlink₁.retreat_ok hub rfl hup o) (hlink₁.chkPtr2chk_ok hup)
          (hlink₁.chkPtr2chk_ok hub) hinsert
      · intro b' hblf hbrh
        exact (Function.update_of_ne hblf ..).trans (hothers b' hbrh)
      · intro n
        have hout : ¬t.ready x := fun hx => (h.ready x hx).2.2 rh _ hrh (by simp)
        by_cases hn : n = x
        · subst hn
          simp [hout]
        · simp [hn, hready]

theorem merge (h : t.Shown U g) (hlink : Linked env s U g w)
    (hcmp : ComparesAs s U V o cmpFunc c) (hne : lf ≠ rh) (hlf : t.seq lf = some l)
    (hrh : t.seq rh = some r) (hl : forall y, y ∈ l -> V y) (hr : forall y, y ∈ r -> V y) :
    exists (w' : World) (g' : Links ChkPtr) (t' : Lists),
      (forall n, 2 * r.length + l.length < n -> ChkList.merge cmpFunc
        (s.world.index.place lf).addr (s.world.index.place rh).addr o n w = .ok ((), w')) ∧
      Linked env s U g' w' ∧ t'.Shown U g' ∧ t'.seq lf = some (sortedUnion c l r).1 ∧
      t'.seq rh = some [] ∧ forall n, n ∈ (sortedUnion c l r).2 -> t'.ready n := by
  rcases h.ring lf l hlf with ⟨hring, hmem⟩
  rcases h.ring rh r hrh with ⟨hring', hmem'⟩
  have hself := List.mem_cons_self (a := lf) (l := l)
  have hself' := List.mem_cons_self (a := rh) (l := r)
  have hfirst : U (l.headD lf) := by
    rw [← hring.next_first]
    exact hmem _ (hring.next_mem hself)
  have hfirst' : U (r.headD rh) := by
    rw [← hring'.next_first]
    exact hmem' _ (hring'.next_mem hself')
  have hload := hlink.loadNext (hmem lf hself)
  have hload' := hlink.loadNext (hmem' rh hself')
  rw [hring.next_first] at hload
  rw [hring'.next_first] at hload'
  have hlf' : t.seq lf = some ([] ++ l) := hlf
  rcases h.mergeLoop hlink hcmp hne hlf' hrh hl hr with
    ⟨w₁, g₁, t₁, hloop, hlink₁, h₁, hmerged⟩
  rcases hmerged.lists with ⟨m, r', hm, hr', heq⟩
  rw [List.nil_append] at heq
  rcases h₁.ring lf m hm with ⟨hringm, hmemm⟩
  rcases h₁.ring rh r' hr' with ⟨hringr, hmemr⟩
  have hrhself := List.mem_cons_self (a := rh) (l := r')
  have hempty := hlink₁.isEmpty_ok (hmemr rh hrhself) (hmemr _ (hringr.next_mem hrhself))
  rw [decide_eq_decide.mpr hringr.empty_iff] at hempty
  have hready : forall n, n ∈ (sortedUnion c l r).2 -> t₁.ready n :=
    fun n hn => (hmerged.ready n).mpr (Or.inr hn)
  by_cases hnil : r' = []
  · subst hnil
    rw [List.append_nil] at heq
    have hnil : ([] : List ChkPtr) = [] := rfl
    rw [decide_eq_true hnil] at hempty
    refine ⟨w₁, g₁, t₁, fun n hn => ?_, hlink₁, h₁, heq ▸ hm, hr', hready⟩
    unfold ChkList.merge
    rw [Exec.bind_of_ok hload, Exec.bind_of_ok (hlink.ofLink_ok hfirst o),
      Exec.bind_of_ok hload', Exec.bind_of_ok (hlink.ofLink_ok hfirst' o),
      Exec.bind_of_ok (hlink.chkListnode2chk_ok hring' hmem' List.mem_cons_self),
      Exec.bind_of_ok (hloop n hn),
      Exec.bind_of_ok hempty, if_pos rfl, Exec.pure_apply]
  · have hallowed : (ListCall.splice rh lf).Allowed U t₁ := by
      refine ⟨?_, ?_, hne.symm⟩
      · rw [hr']
        rfl
      · rw [hm]
        rfl
    rcases h₁.perform hlink₁ hallowed with ⟨w₂, g₂, hsplice, hlink₂, h₂⟩
    refine ⟨w₂, g₂, _, fun n hn => ?_, hlink₂, h₂, ?_, ?_, hready⟩
    · rw [decide_eq_false hnil] at hempty
      unfold ChkList.merge
      rw [Exec.bind_of_ok hload, Exec.bind_of_ok (hlink.ofLink_ok hfirst o),
        Exec.bind_of_ok hload', Exec.bind_of_ok (hlink.ofLink_ok hfirst' o),
        Exec.bind_of_ok (hlink.chkListnode2chk_ok hring' hmem' List.mem_cons_self),
        Exec.bind_of_ok (hloop n hn),
        Exec.bind_of_ok hempty, if_neg Bool.false_ne_true,
        Exec.bind_of_ok (hlink₁.chkListnode2chk_ok hringm hmemm List.mem_cons_self)]
      exact hsplice
    · simp [ListCall.after, hne, nodes_eq hm, nodes_eq hr', heq]
    · simp [ListCall.after]

end Shown

end Lists

/-- The links the memory of a session holds form two rings apart from each other. -/
theorem Lists.Shown.two_rings {U : ChkPtr -> Prop} {g : Links ChkPtr} {lf rh : ChkPtr}
    {l r : List ChkPtr} (hlf : g.IsRing lf l) (hrh : g.IsRing rh r)
    (hdisj : forall x, x ∈ lf :: l -> x ∉ rh :: r)
    (hU : forall x, x ∈ lf :: l ∨ x ∈ rh :: r -> U x) :
    Lists.Shown U ⟨Function.update (Function.update (fun _ => Option.none) rh (some r)) lf
      (some l), fun _ => False⟩ g := by
  have hcases : forall b m, Function.update (Function.update (fun _ => Option.none) rh (some r))
      lf (some l) b = some m -> b = lf ∧ m = l ∨ b ≠ lf ∧ b = rh ∧ m = r := by
    intro b m hm
    by_cases hb : b = lf
    · subst hb
      rw [Function.update_self] at hm
      exact Or.inl ⟨rfl, (Option.some.inj hm).symm⟩
    · rw [Function.update_of_ne hb] at hm
      by_cases hb' : b = rh
      · subst hb'
        rw [Function.update_self] at hm
        exact Or.inr ⟨hb, rfl, (Option.some.inj hm).symm⟩
      · rw [Function.update_of_ne hb'] at hm
        cases hm
  refine ⟨?_, ?_, fun n hn => hn.elim⟩
  · intro b m hm
    rcases hcases b m hm with ⟨rfl, rfl⟩ | ⟨-, rfl, rfl⟩
    · exact ⟨hlf, fun x hx => hU x (Or.inl hx)⟩
    · exact ⟨hrh, fun x hx => hU x (Or.inr hx)⟩
  · intro b b' m m' hm hm' hne x hx
    rcases hcases b m hm with ⟨rfl, rfl⟩ | ⟨-, rfl, rfl⟩ <;>
      rcases hcases b' m' hm' with ⟨rfl, rfl⟩ | ⟨-, rfl, rfl⟩
    · exact absurd rfl hne
    · exact hdisj x hx
    · exact fun hx' => hdisj x hx' hx
    · exact absurd rfl hne

/-- In every session with an uncompressed index, two lists apart from each other, with
nodes anywhere in its blocks and sorted by a comparison function of a total preorder that
reads no links, are merged: with enough rounds the merge returns; then the second list is
empty, and the first one is a ring, sorted, with its old nodes in their order and
otherwise nodes of the second list.  Every node of the second list that is not in it is
unlinked and compares equal to a node that is.  From two strictly sorted lists comes a
strictly sorted one.  Nothing but links of these nodes is written. -/
theorem Reach.merge_sorted_union {env : Env} {s : Session} (h : Reach env CarefulCall s)
    (hflag : s.world.index.compressed = false) {lf rh : ChkPtr} {l r : List ChkPtr}
    (hplaces : Places s.live fun x => x ∈ lf :: l ∨ x ∈ rh :: r)
    (hlf : s.world.links.IsRing lf l) (hrh : s.world.links.IsRing rh r)
    (hdisj : forall x, x ∈ lf :: l -> x ∉ rh :: r) {o : Nat} {cmpFunc : Ptr -> Ptr -> M Int}
    {c : ChkPtr -> ChkPtr -> Int}
    (hcmp : ComparesAs s (fun x => x ∈ lf :: l ∨ x ∈ rh :: r) (fun x => x ∈ l ∨ x ∈ r) o
      cmpFunc c)
    (horder : Compares (fun x => x ∈ l ∨ x ∈ r) c)
    (hl : l.Pairwise fun a b => c a b ≤ 0) (hr : r.Pairwise fun a b => c a b ≤ 0) :
    exists (w' : World) (m d : List ChkPtr),
      (forall fuel, 2 * r.length + l.length < fuel -> ChkList.merge cmpFunc
        (s.world.index.place lf).addr (s.world.index.place rh).addr o fuel s.world =
          .ok ((), w')) ∧
      OnlyLinks s (fun x => x ∈ lf :: l ∨ x ∈ rh :: r) w' ∧
      w'.links.IsRing rh [] ∧ w'.links.IsRing lf m ∧ (m.Pairwise fun a b => c a b ≤ 0) ∧
      l.Sublist m ∧ d.Sublist r ∧ (m ++ d).Perm (l ++ r) ∧
      (forall x, x ∈ d -> ChkList.nodeUnlinked (s.world.index.place x).addr w' = .ok (true, w') ∧
        exists y, y ∈ m ∧ c y x = 0) ∧
      ((l.Pairwise fun a b => c a b < 0) -> (r.Pairwise fun a b => c a b < 0) ->
        m.Pairwise fun a b => c a b < 0) := by
  have hlink := Linked.start (h.isOpen hflag) hplaces
  have hshown := Lists.Shown.two_rings hlf hrh hdisj fun _ hx => hx
  have hne : lf ≠ rh := fun heq =>
    hdisj lf List.mem_cons_self (heq ▸ List.mem_cons_self)
  have hrseq : Function.update (Function.update (fun _ => Option.none) rh (some r)) lf (some l)
      rh = some r := by
    rw [Function.update_of_ne hne.symm, Function.update_self]
  have hV : forall y, y ∈ l -> y ∈ l ∨ y ∈ r := fun _ hy => Or.inl hy
  have hV' : forall y, y ∈ r -> y ∈ l ∨ y ∈ r := fun _ hy => Or.inr hy
  rcases hshown.merge hlink hcmp hne (Function.update_self ..) hrseq hV hV' with
    ⟨w', g', t', hrun, hlink', hshown', hm, hempty, hready⟩
  rcases hshown'.ring _ _ hm with ⟨hringm, hmemm⟩
  rcases hshown'.ring _ _ hempty with ⟨hringr, hmemr⟩
  refine ⟨w', _, _, hrun, hlink'.only, hlink'.links_ring hringr hmemr,
    hlink'.links_ring hringm hmemm, ?_, sublist_sortedUnion c l r, dropped_sublist c l r,
    sortedUnion_perm c l r, fun x hx => ⟨?_, dropped_equal hx⟩, fun hsl hsr => ?_⟩
  · exact sortedUnion_pairwise horder (fun a b _ _ hab => by omega) horder.trans hV hV' hl hr
  · rcases hshown'.ready x (hready x hx) with ⟨hux, hnull, -⟩
    rw [hlink'.nodeUnlinked_ok hux, decide_eq_true (Or.inl hnull)]
  · exact sortedUnion_pairwise horder (fun a b _ _ hab => hab)
      (fun a b x ha hb hx => horder.lt_trans ha hb hx) hV hV' hsl hsr

def twoLists : Session := Call.after Env.plain [.alloc 32, .write ⟨0, 10, 4⟩ 0
  [0, 128, 0, 0, 0, 128, 0, 0, 0, 112, 0, 0, 0, 112, 0, 0,
    0, 96, 0, 0, 0, 96, 0, 0, 0, 80, 0, 0, 0, 80, 0, 0]] ⟨World.boot, []⟩

theorem twoLists_reach : Reach Env.plain CarefulCall twoLists := by
  unfold twoLists
  exact .after (.start World.boot_fresh) (by decide +kernel)

def byPlace (p q : Ptr) : M Int := pure ((p.off : Int) - q.off)

def twoListsNodes (x : ChkPtr) : Prop :=
  x ∈ [(⟨0, 10, 0⟩ : ChkPtr), ⟨0, 16, 0⟩] ∨ x ∈ [(⟨0, 12, 0⟩ : ChkPtr), ⟨0, 14, 0⟩]

theorem twoListsNodes_cases {x : ChkPtr} (h : twoListsNodes x) :
    x = ⟨0, 10, 0⟩ ∨ x = ⟨0, 16, 0⟩ ∨ x = ⟨0, 12, 0⟩ ∨ x = ⟨0, 14, 0⟩ := by
  simpa [twoListsNodes, or_assoc] using h

theorem twoLists_places : Places twoLists.live twoListsNodes := by
  have hlive : twoLists.live = [⟨⟨0, 10, 4⟩, 32⟩] := by decide +kernel
  rw [hlive]
  refine ⟨?_, ?_, ?_⟩
  · intro p hp
    rcases twoListsNodes_cases hp with rfl | rfl | rfl | rfl <;>
      exact ⟨_, List.mem_cons_self, by decide⟩
  · intro p hp
    rcases twoListsNodes_cases hp with rfl | rfl | rfl | rfl <;> rfl
  · intro p q hp hq hne _
    rcases twoListsNodes_cases hp with rfl | rfl | rfl | rfl <;>
      rcases twoListsNodes_cases hq with rfl | rfl | rfl | rfl <;>
      first | exact absurd rfl hne | decide

theorem twoLists_compare : ComparesAs twoLists twoListsNodes
    (fun x => x ∈ [(⟨0, 16, 0⟩ : ChkPtr)] ∨ x ∈ [(⟨0, 14, 0⟩ : ChkPtr)]) 0 byPlace
    fun a b => 4 * (a.offset : Int) - 4 * b.offset := by
  intro w _ a b ha hb
  generalize twoLists.world.index = idx
  simp only [List.mem_singleton] at ha hb
  rcases ha with rfl | rfl <;> rcases hb with rfl | rfl <;>
    simp [byPlace, Linked.iter, ChkListIterator.container, ChkIndex.place, Ptr.add]

/-- The node of the second list goes in front of the one of the first. -/
theorem Reach.merge_sorted_union_sample : exists w', ChkList.merge byPlace
    (twoLists.world.index.place ⟨0, 10, 0⟩).addr (twoLists.world.index.place ⟨0, 12, 0⟩).addr
      0 4 twoLists.world = .ok ((), w') := by
  have hlf : twoLists.world.links.IsRing ⟨0, 10, 0⟩ [⟨0, 16, 0⟩] :=
    ⟨⟨⟨by decide +kernel, by decide +kernel⟩, ⟨by decide +kernel, by decide +kernel⟩, rfl⟩,
      by decide⟩
  have hrh : twoLists.world.links.IsRing ⟨0, 12, 0⟩ [⟨0, 14, 0⟩] :=
    ⟨⟨⟨by decide +kernel, by decide +kernel⟩, ⟨by decide +kernel, by decide +kernel⟩, rfl⟩,
      by decide⟩
  rcases Reach.merge_sorted_union twoLists_reach (by decide +kernel) twoLists_places hlf hrh
    (by decide) twoLists_compare ⟨fun a b _ _ => by omega, fun a b x _ _ _ => by omega⟩
    (List.pairwise_singleton _ _) (List.pairwise_singleton _ _) with ⟨w', m, d, hrun, -⟩
  exact ⟨w', hrun 4 (by decide)⟩

end ChunkMem
