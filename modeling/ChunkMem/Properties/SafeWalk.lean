import ChunkMem.Properties.Lists

/-!
# Walks that delete

A safe walk has read the link of the current node before the body deletes it, and reads
the link of the next node afterwards, in the ring that is left.  Both directions are
one argument about the order in which they meet the nodes.
-/

namespace ChunkMem

open Foundation

/-- The links after `chk_list_del`. -/
def Foundation.Links.without (g : Links ChkPtr) (x : ChkPtr) : Links ChkPtr :=
  (g.join (g.prev x) (g.next x)).reset x

namespace Linked

variable {env : Env} {s : Session} {U : ChkPtr -> Prop} {g : Links ChkPtr} {w : World}
variable {b x : ChkPtr} {l past rest : List ChkPtr} {n : Nat}

theorem ring_without (hring : g.IsRing b l) (hx : x ∈ l) : (g.without x).IsRing b (l.erase x) := by
  rcases List.append_of_mem hx with ⟨l₁, l₂, rfl⟩
  have hperm : (b :: (l₁ ++ x :: l₂)).Perm (x :: b :: (l₁ ++ l₂)) :=
    (List.perm_middle.cons b).trans (List.Perm.swap x b _)
  have hout := (List.nodup_cons.mp (hperm.nodup_iff.mp hring.nodup)).1
  have hout₁ : x ∉ l₁ := fun hm => hout (List.mem_cons_of_mem b (List.mem_append_left l₂ hm))
  rw [List.erase_append_right _ hout₁, List.erase_cons_head]
  have hne : forall y, y ∈ b :: (l₁ ++ l₂) -> y ≠ x := fun y hy heq => hout (heq ▸ hy)
  refine hring.remove.frame (fun y hy => ?_) fun y hy => ?_
  · simp [Links.without, Links.reset, hne y hy]
  · simp [Links.without, Links.reset, hne y hy]

theorem path_step {step : ChkPtr -> ChkPtr} {a : ChkPtr}
    (h : Links.Path step a (past ++ x :: rest) b) : step x = rest.headD b := by
  induction past generalizing a with
  | nil =>
      cases rest with
      | nil => exact h.2
      | cons y rest => exact h.2.1
  | cons y past ih => exact ih h.2

/-- The two directions: a link of each node, and the order in which these links lead
through a ring. -/
structure Along (link : Ptr -> Ptr) (step : Links ChkPtr -> ChkPtr -> ChkPtr)
    (order : List ChkPtr -> List ChkPtr) : Prop where
  load : forall {env : Env} {s : Session} {U : ChkPtr -> Prop} {g : Links ChkPtr} {w : World}
    {p : ChkPtr}, Linked env s U g w -> U p ->
    loadPtr (link (s.world.index.place p).addr) w = .ok (step g p, w)
  path : forall {g : Links ChkPtr} {b : ChkPtr} {l : List ChkPtr}, g.IsRing b l ->
    Links.Path (step g) b (order l) b
  perm : forall l, (order l).Perm l
  erase : forall {l : List ChkPtr} (x : ChkPtr), l.Nodup ->
    order (l.erase x) = (order l).erase x

theorem along_next : Along ChkListNode.next Links.next id where
  load := fun h hp => h.loadNext hp
  path := fun hring => hring.walk.path_next
  perm := fun l => .refl l
  erase := fun _ _ => rfl

theorem along_prev : Along ChkListNode.prev Links.prev List.reverse where
  load := fun h hp => h.loadPrev hp
  path := fun hring => hring.walk.path_prev
  perm := List.reverse_perm
  erase := by
    intro l x hnodup
    rw [hnodup.erase_eq_filter, (List.nodup_reverse.mpr hnodup).erase_eq_filter,
      List.filter_reverse]

theorem delSome_ok (h : Linked env s U g w) (hring : g.IsRing b l)
    (hl : forall y, y ∈ b :: l -> U y) (hx : x ∈ l) (doomed : ChkPtr -> Bool) :
    exists w', ChkList.delSome doomed x w = .ok ((), w') ∧
      Linked env s U (if doomed x = true then g.without x else g) w' := by
  have hxb := List.mem_cons_of_mem b hx
  unfold ChkList.delSome
  split
  · rcases h.del_ok (hl x hxb) (hl _ (hring.prev_mem hxb)) (hl _ (hring.next_mem hxb)) with
      ⟨w', hdel, h'⟩
    refine ⟨w', ?_, h'⟩
    rw [Exec.bind_of_ok (h.chkPtr2addrchk_ok (hl x hxb)), hdel]
  · exact ⟨w, rfl, h⟩

variable {link : Ptr -> Ptr} {step : Links ChkPtr -> ChkPtr -> ChkPtr}
variable {order : List ChkPtr -> List ChkPtr}

/-- The links from the head and the nodes lead to nodes or to the head. -/
theorem Along.step_node (ha : Along link step order) (hring : g.IsRing b l)
    (hl : forall y, y ∈ b :: l -> U y) (hx : x ∈ b :: l) : U (step g x) := by
  have hmem : forall y, y ∈ order l <-> y ∈ l := fun y => (ha.perm l).mem_iff
  have hx' : x ∈ b :: order l := by
    rw [List.mem_cons, hmem]
    exact List.mem_cons.mp hx
  apply hl
  rcases List.mem_append.mp ((ha.path hring).step_mem hx') with hm | hm
  · exact List.mem_cons_of_mem b ((hmem _).mp hm)
  · rw [List.mem_singleton.mp hm]
    exact List.mem_cons_self

theorem Along.order_kept (ha : Along link step order) (hnodup : l.Nodup)
    (hsplit : order l = past ++ x :: rest) : order (l.erase x) = past ++ rest := by
  have hout : x ∉ past := by
    intro hm
    have hdisj := (List.nodup_append.mp (hsplit ▸ (ha.perm l).nodup_iff.mpr hnodup)).2.2
    exact hdisj x hm x List.mem_cons_self rfl
  rw [ha.erase x hnodup, hsplit, List.erase_append_right _ hout, List.erase_cons_head]

theorem Along.mem_of_split (ha : Along link step order) (hsplit : order l = past ++ x :: rest) :
    x ∈ l := by
  rw [← (ha.perm l).mem_iff, hsplit]
  exact List.mem_append_right past List.mem_cons_self

/-- The ring behind the body, and the part of it that is behind the walk. -/
theorem Along.ring_left (ha : Along link step order) (hring : g.IsRing b l)
    (hl : forall y, y ∈ b :: l -> U y) (doomed : ChkPtr -> Bool)
    (hsplit : order l = past ++ x :: rest) :
    exists l₁ past₁, (if doomed x = true then g.without x else g).IsRing b l₁ ∧
      (forall y, y ∈ b :: l₁ -> U y) ∧ order l₁ = past₁ ++ rest ∧
      past₁ ++ rest.filter (fun y => !doomed y) =
        past ++ (x :: rest).filter fun y => !doomed y := by
  have hnodup := (List.nodup_cons.mp hring.nodup).2
  cases hd : doomed x with
  | true =>
      refine ⟨l.erase x, past, ?_, ?_, ha.order_kept hnodup hsplit, ?_⟩
      · rw [if_pos rfl]
        exact ring_without hring (ha.mem_of_split hsplit)
      · intro y hy
        apply hl
        rcases List.mem_cons.mp hy with hy | hy
        · exact hy ▸ List.mem_cons_self
        · exact List.mem_cons_of_mem b (List.mem_of_mem_erase hy)
      · rw [List.filter_cons_of_neg]
        simp [hd]
  | false =>
      refine ⟨l, past ++ [x], ?_, hl, ?_, ?_⟩
      · rw [if_neg Bool.false_ne_true]
        exact hring
      · rw [hsplit, List.append_assoc]
        rfl
      · rw [List.filter_cons_of_pos, List.append_assoc]
        · rfl
        · simp [hd]

theorem forEachSafeFrom_ok (ha : Along link step order) (h : Linked env s U g w)
    (hring : g.IsRing b l) (hl : forall y, y ∈ b :: l -> U y) (doomed : ChkPtr -> Bool)
    (hsplit : order l = past ++ rest) (hn : rest.length < n) {x t : ChkPtr}
    (hx : x = rest.headD b) (ht : t = step g x) :
    exists w' g' l', ChkList.forEachSafeFrom link (s.world.index.place b).addr
        (ChkList.delSome doomed) n x (s.world.index.place x).addr t
        (s.world.index.place t).addr w = .ok (rest.map (visit s.world.index), w') ∧
      Linked env s U g' w' ∧ g'.IsRing b l' ∧
      order l' = past ++ rest.filter fun y => !doomed y := by
  induction rest generalizing g w l past n x t with
  | nil =>
      cases n with
      | zero => cases hn
      | succ n =>
          have hxb : x = b := hx
          refine ⟨w, g, l, ?_, h, hring, hsplit⟩
          unfold ChkList.forEachSafeFrom
          rw [hxb, if_pos rfl]
          rfl
  | cons y rest ih =>
      cases n with
      | zero => cases hn
      | succ n =>
          have hxy : x = y := hx
          subst hxy
          have hxl := ha.mem_of_split hsplit
          have haddr : (s.world.index.place x).addr ≠ (s.world.index.place b).addr := by
            intro heq
            have hux := hl x (List.mem_cons_of_mem b hxl)
            have hxb := h.place_inj hux (hl b List.mem_cons_self) heq
            exact (List.nodup_cons.mp hring.nodup).1 (hxb ▸ hxl)
          have htmp : t = rest.headD b := by
            rw [ht]
            exact path_step (hsplit ▸ ha.path hring)
          rcases h.delSome_ok hring hl hxl doomed with ⟨w₁, hbody, h₁⟩
          rcases ha.ring_left hring hl doomed hsplit with
            ⟨l₁, past₁, hring₁, hl₁, hsplit₁, hkept⟩
          have htl : t ∈ b :: l₁ := by
            rw [htmp]
            cases hr : rest with
            | nil => exact List.mem_cons_self
            | cons z r =>
                refine List.mem_cons_of_mem b ((ha.perm l₁).mem_iff.mp ?_)
                rw [hsplit₁, hr]
                exact List.mem_append_right past₁ List.mem_cons_self
          have hload := ha.load h₁ (hl₁ t htl)
          have hdecode := h₁.chkPtr2addr_ok (ha.step_node hring₁ hl₁ htl)
          rcases ih h₁ hring₁ hl₁ hsplit₁ (Nat.lt_of_succ_lt_succ hn) htmp rfl with
            ⟨w', g', l', hwalk, h', hring', horder⟩
          refine ⟨w', g', l', ?_, h', hring', horder.trans hkept⟩
          unfold ChkList.forEachSafeFrom
          rw [if_neg haddr, Exec.bind_of_ok hbody, Exec.bind_of_ok hload,
            Exec.bind_of_ok hdecode, Exec.bind_of_ok hwalk]
          rfl

theorem forEachSafeAlong_ok (ha : Along link step order) (h : Linked env s U g w)
    (hring : g.IsRing b l) (hl : forall y, y ∈ b :: l -> U y) (doomed : ChkPtr -> Bool)
    (hn : l.length < n) :
    exists w' g' l', ChkList.forEachSafeAlong link (s.world.index.place b).addr
        (ChkList.delSome doomed) n w = .ok ((order l).map (visit s.world.index), w') ∧
      Linked env s U g' w' ∧ g'.IsRing b l' ∧ order l' = (order l).filter fun y => !doomed y := by
  have hb : b ∈ b :: l := List.mem_cons_self
  have hfirst : step g b = (order l).headD b := by
    have hpath := ha.path hring
    cases ho : order l with
    | nil =>
        rw [ho] at hpath
        exact hpath
    | cons y r =>
        rw [ho] at hpath
        exact hpath.1
  have hmem : step g b ∈ b :: l := by
    rw [hfirst]
    cases ho : order l with
    | nil => exact hb
    | cons y r =>
        refine List.mem_cons_of_mem b ((ha.perm l).mem_iff.mp ?_)
        rw [ho]
        exact List.mem_cons_self
  rw [← (ha.perm l).length_eq] at hn
  have hsplit : order l = [] ++ order l := rfl
  rcases forEachSafeFrom_ok ha h hring hl doomed hsplit hn hfirst rfl with
    ⟨w', g', l', hwalk, h', hring', horder⟩
  refine ⟨w', g', l', ?_, h', hring', horder⟩
  unfold ChkList.forEachSafeAlong
  rw [Exec.bind_of_ok (ha.load h (hl b hb)), Exec.bind_of_ok (h.chkPtr2addr_ok (hl _ hmem)),
    Exec.bind_of_ok (ha.load h (hl _ hmem)),
    Exec.bind_of_ok (h.chkPtr2addr_ok (ha.step_node hring hl hmem)), hwalk]

/-- Deleting some nodes of a ring while it is walked safely, in either direction: the
body is run once on each node, in order, and a ring of the other nodes is left. -/
theorem safe_walk (h : Linked env s U g w) (hring : g.IsRing b l)
    (hl : forall y, y ∈ b :: l -> U y) (doomed : ChkPtr -> Bool) (hn : l.length < n) :
    (exists w' g', ChkList.forEachSafe (s.world.index.place b).addr (ChkList.delSome doomed) n w =
        .ok (l.map (visit s.world.index), w') ∧
      Linked env s U g' w' ∧ g'.IsRing b (l.filter fun y => !doomed y)) ∧
    exists w' g', ChkList.forEachSafeR (s.world.index.place b).addr (ChkList.delSome doomed) n w =
        .ok (l.reverse.map (visit s.world.index), w') ∧
      Linked env s U g' w' ∧ g'.IsRing b (l.filter fun y => !doomed y) := by
  constructor
  · rcases forEachSafeAlong_ok along_next h hring hl doomed hn with
      ⟨w', g', l', hwalk, h', hring', horder⟩
    have heq : l' = l.filter fun y => !doomed y := horder
    exact ⟨w', g', hwalk, h', heq ▸ hring'⟩
  · rcases forEachSafeAlong_ok along_prev h hring hl doomed hn with
      ⟨w', g', l', hwalk, h', hring', horder⟩
    rw [List.filter_reverse] at horder
    have heq : l' = l.filter fun y => !doomed y := List.reverse_injective horder
    exact ⟨w', g', hwalk, h', heq ▸ hring'⟩

/-- Two of four nodes are deleted, from either end. -/
theorem safe_walk_sample : exists w w' g' w'' g'',
    ChkList.forEachSafe (roomy.world.index.place ⟨0, 12, 0⟩).addr
        (ChkList.delSome fun p => p = ⟨0, 22, 0⟩ ∨ p = ⟨0, 18, 0⟩) 5 w =
      .ok ([⟨0, 22, 0⟩, ⟨0, 20, 0⟩, ⟨0, 18, 0⟩, ⟨0, 16, 0⟩].map (visit roomy.world.index), w') ∧
    Linked Env.plain roomy (fun p => p ∈ roomyPlaces) g' w' ∧
    g'.IsRing ⟨0, 12, 0⟩ [⟨0, 20, 0⟩, ⟨0, 16, 0⟩] ∧
    ChkList.forEachSafeR (roomy.world.index.place ⟨0, 12, 0⟩).addr
        (ChkList.delSome fun p => p = ⟨0, 22, 0⟩ ∨ p = ⟨0, 18, 0⟩) 5 w =
      .ok ([⟨0, 16, 0⟩, ⟨0, 18, 0⟩, ⟨0, 20, 0⟩, ⟨0, 22, 0⟩].map (visit roomy.world.index), w'') ∧
    Linked Env.plain roomy (fun p => p ∈ roomyPlaces) g'' w'' ∧
    g''.IsRing ⟨0, 12, 0⟩ [⟨0, 20, 0⟩, ⟨0, 16, 0⟩] := by
  have hflag : roomy.world.index.compressed = false := by decide +kernel
  rcases roomy_lists with ⟨w, t, ht, -, hlist⟩
  rcases ht.shown (roomy_reach.isOpen hflag) roomy_places with ⟨g, hlink, hshown⟩
  rcases hshown.ring _ _ hlist with ⟨hring, hmem⟩
  rcases safe_walk hlink hring hmem (fun p => p = ⟨0, 22, 0⟩ ∨ p = ⟨0, 18, 0⟩)
    (n := 5) (by decide) with ⟨⟨w', g', hwalk, h', hleft⟩, w'', g'', hwalkr, h'', hleft'⟩
  exact ⟨w, w', g', w'', g'', hwalk, h', hleft, hwalkr, h'', hleft'⟩

end Linked

end ChunkMem
