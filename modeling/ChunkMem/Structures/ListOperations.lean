import ChunkMem.Structures.Links

/-!
# What the list operations do to the links

Each function of `chk_list.h` changes the links of its nodes as the corresponding
operation on rings does, and nothing else.
-/

namespace ChunkMem

open Foundation

/-- The links of a node after `chk_list_node_reset`. -/
def Foundation.Links.reset (g : Links ChkPtr) (x : ChkPtr) : Links ChkPtr :=
  (g.setPrev x (g.prev x).nulled).setNext x (g.next x).nulled

namespace Linked

variable {env : Env} {s : Session} {U : ChkPtr -> Prop} {g : Links ChkPtr} {w : World}
variable {a b p q x : ChkPtr} {l : List ChkPtr}

theorem nullNext (h : Linked env s U g w) (hp : U p) :
    exists w', setNull (ChkListNode.next (s.world.index.place p).addr) w = .ok ((), w') ∧
      Linked env s U (g.setNext p (g.next p).nulled) w' := by
  have hstore := store_at (f := ⟨0, 11⟩) (h.inside hp (o := 0) (n := 11) (by omega)) chkMaxChkNum
  rw [← h.addr_add, show 8 * (4 * p.offset + 0) + 0 = 32 * p.offset + 0 by omega] at hstore
  refine ⟨_, hstore, h.setNext hp (fun j hj => Bits.write_outside (by simp only; omega)) ?_⟩
  rw [Bits.readPtr_write_chkNo (by decide), ← h.next p hp]
  unfold World.target
  rw [Bits.readPtr_drop]
  rfl

theorem nullPrev (h : Linked env s U g w) (hp : U p) :
    exists w', setNull (ChkListNode.prev (s.world.index.place p).addr) w = .ok ((), w') ∧
      Linked env s U (g.setPrev p (g.prev p).nulled) w' := by
  have hstore := store_at (f := ⟨0, 11⟩) (h.inside hp (o := 4) (n := 11) (by omega)) chkMaxChkNum
  rw [← h.addr_add, show 8 * (4 * p.offset + 4) + 0 = 32 * p.offset + 32 by omega] at hstore
  refine ⟨_, hstore, h.setPrev hp (fun j hj => Bits.write_outside (by simp only; omega)) ?_⟩
  rw [Bits.readPtr_write_chkNo (by decide), ← h.prev p hp]
  unfold World.target
  rw [Bits.readPtr_drop]
  rfl

theorem init_ok (h : Linked env s U g w) (hp : U p) :
    exists w', ChkList.init (s.world.index.place p) w = .ok ((), w') ∧
      Linked env s U (g.makeEmpty p) w' := by
  rcases h.storeNext hp hp with ⟨w₁, hrun₁, h₁⟩
  have hload := h₁.loadNext hp
  rw [Links.setNext_next, if_pos rfl] at hload
  rcases h₁.storePrev hp hp with ⟨w₂, hrun₂, h₂⟩
  refine ⟨w₂, ?_, h₂⟩
  unfold ChkList.init
  rw [Exec.bind_of_ok (h.chkAddrchk2ptr_ok hp), Exec.bind_of_ok hrun₁, Exec.bind_of_ok hload,
    hrun₂]

theorem isEmpty_ok (h : Linked env s U g w) (hp : U p) (hn : U (g.next p)) :
    ChkList.isEmpty (s.world.index.place p) w = .ok (decide (g.next p = p), w) := by
  have hsame : (g.next p).Same p <-> g.next p = p := by
    constructor
    · intro heq
      have h1 := h.places.size p hp
      have h2 := h.places.size _ hn
      generalize g.next p = q at *
      cases p
      cases q
      simp_all [ChkPtr.Same]
    · intro heq
      rw [heq]
      exact ⟨rfl, rfl⟩
  unfold ChkList.isEmpty
  rw [Exec.bind_of_ok (h.loadNext hp), Exec.bind_of_ok (h.chkAddrchk2ptr_ok hp),
    Exec.pure_apply, decide_eq_decide.mpr hsame]

theorem nodeReset_ok (h : Linked env s U g w) (hp : U p) :
    exists w', ChkList.nodeReset (s.world.index.place p).addr w = .ok ((), w') ∧
      Linked env s U (g.reset p) w' := by
  rcases h.nullPrev hp with ⟨w₁, hrun₁, h₁⟩
  rcases h₁.nullNext hp with ⟨w₂, hrun₂, h₂⟩
  refine ⟨w₂, ?_, h₂⟩
  unfold ChkList.nodeReset
  rw [Exec.bind_of_ok hrun₁, hrun₂]

theorem nodeUnlinked_ok (h : Linked env s U g w) (hp : U p) :
    ChkList.nodeUnlinked (s.world.index.place p).addr w =
      .ok (decide ((g.prev p).IsNull ∨ (g.next p).IsNull), w) := by
  unfold ChkList.nodeUnlinked
  rw [Exec.bind_of_ok (h.loadPrev hp)]
  split
  · next hnull =>
      rw [Exec.pure_apply, decide_eq_true (Or.inl hnull)]
  · next hnull =>
      rw [Exec.bind_of_ok (h.loadNext hp), Exec.pure_apply]
      congr 2
      exact decide_eq_decide.mpr ⟨Or.inr, fun hor => hor.resolve_left hnull⟩

theorem insert_ok (h : Linked env s U g w) (hx : U x) (hp : U p) (hq : U q) (hne : x ≠ q) :
    exists w', ChkList.insert (s.world.index.place x) (s.world.index.place p)
        (s.world.index.place q) w = .ok ((), w') ∧ Linked env s U (g.insert x p q) w' := by
  rcases h.storePrev hq hx with ⟨w₁, hrun₁, h₁⟩
  rcases h₁.storeNext hx hq with ⟨w₂, hrun₂, h₂⟩
  rcases h₂.storePrev hx hp with ⟨w₃, hrun₃, h₃⟩
  have hload := h₃.loadPrev hq
  rw [Links.setPrev_prev, if_neg hne.symm, Links.setNext_prev, Links.setPrev_prev,
    if_pos rfl] at hload
  rcases h₃.storeNext hp hx with ⟨w₄, hrun₄, h₄⟩
  refine ⟨w₄, ?_, h₄⟩
  unfold ChkList.insert
  rw [Exec.bind_of_ok (h.chkAddrchk2ptr_ok hx), Exec.bind_of_ok hrun₁,
    Exec.bind_of_ok (h₁.chkAddrchk2ptr_ok hq), Exec.bind_of_ok hrun₂,
    Exec.bind_of_ok (h₂.chkAddrchk2ptr_ok hp), Exec.bind_of_ok hrun₃,
    Exec.bind_of_ok hload, hrun₄]

theorem add_ok (h : Linked env s U g w) (hx : U x) (hb : U b) (hn : U (g.next b))
    (hne : x ≠ g.next b) :
    exists w', ChkList.add (s.world.index.place x) (s.world.index.place b) w = .ok ((), w') ∧
      Linked env s U (g.insert x b (g.next b)) w' := by
  rcases h.insert_ok hx hb hn hne with ⟨w', hrun, h'⟩
  refine ⟨w', ?_, h'⟩
  unfold ChkList.add
  rw [Exec.bind_of_ok (h.loadNext hb), Exec.bind_of_ok (h.chkPtr2addrchk_ok hn), hrun]

theorem addTail_ok (h : Linked env s U g w) (hx : U x) (hb : U b) (hp : U (g.prev b))
    (hne : x ≠ b) :
    exists w', ChkList.addTail (s.world.index.place x) (s.world.index.place b) w =
        .ok ((), w') ∧ Linked env s U (g.insert x (g.prev b) b) w' := by
  rcases h.insert_ok hx hp hb hne with ⟨w', hrun, h'⟩
  refine ⟨w', ?_, h'⟩
  unfold ChkList.addTail
  rw [Exec.bind_of_ok (h.loadPrev hb), Exec.bind_of_ok (h.chkPtr2addrchk_ok hp), hrun]

theorem delBetween_ok (h : Linked env s U g w) (hp : U p) (hq : U q) :
    exists w', ChkList.delBetween (s.world.index.place p) (s.world.index.place q) w =
        .ok ((), w') ∧ Linked env s U (g.join p q) w' := by
  rcases h.storePrev hq hp with ⟨w₁, hrun₁, h₁⟩
  rcases h₁.storeNext hp hq with ⟨w₂, hrun₂, h₂⟩
  refine ⟨w₂, ?_, h₂⟩
  unfold ChkList.delBetween
  rw [Exec.bind_of_ok (h.chkAddrchk2ptr_ok hp), Exec.bind_of_ok hrun₁,
    Exec.bind_of_ok (h₁.chkAddrchk2ptr_ok hq), hrun₂]

theorem del_ok (h : Linked env s U g w) (hx : U x) (hp : U (g.prev x)) (hn : U (g.next x)) :
    exists w', ChkList.del (s.world.index.place x) w = .ok ((), w') ∧
      Linked env s U ((g.join (g.prev x) (g.next x)).reset x) w' := by
  have hlinked : ¬((g.prev x).IsNull ∨ (g.next x).IsNull) := by
    rintro (hnull | hnull)
    · exact h.not_null hp hnull
    · exact h.not_null hn hnull
  have hunlinked := h.nodeUnlinked_ok hx
  rw [decide_eq_false hlinked] at hunlinked
  rcases h.delBetween_ok hp hn with ⟨w₁, hrun₁, h₁⟩
  rcases h₁.nodeReset_ok hx with ⟨w₂, hrun₂, h₂⟩
  refine ⟨w₂, ?_, h₂⟩
  unfold ChkList.del
  rw [Exec.bind_of_ok hunlinked, if_neg Bool.false_ne_true, Exec.bind_of_ok (h.loadPrev hx),
    Exec.bind_of_ok (h.chkPtr2addrchk_ok hp), Exec.bind_of_ok (h.loadNext hx),
    Exec.bind_of_ok (h.chkPtr2addrchk_ok hn), Exec.bind_of_ok hrun₁, hrun₂]

theorem del_unlinked (h : Linked env s U g w) (hx : U x) (hnull : (g.prev x).IsNull) :
    ChkList.del (s.world.index.place x) w = .ok ((), w) := by
  have hunlinked := h.nodeUnlinked_ok hx
  rw [decide_eq_true (Or.inl hnull)] at hunlinked
  unfold ChkList.del
  rw [Exec.bind_of_ok hunlinked, if_pos rfl, Exec.pure_apply]

theorem splice_empty (h : Linked env s U g w) (ha : U a) (hempty : g.next a = a) (b : ChkPtr) :
    ChkList.splice (s.world.index.place a) (s.world.index.place b) w = .ok ((), w) := by
  have hempty' := h.isEmpty_ok ha (hempty.symm ▸ ha)
  rw [decide_eq_true hempty] at hempty'
  unfold ChkList.splice
  rw [Exec.bind_of_ok hempty', if_pos rfl, Exec.pure_apply]

theorem splice_ok (h : Linked env s U g w) (ha : U a) (hb : U b) (hf : U (g.next a))
    (hl : U (g.prev a)) (ht : U (g.prev b)) (hne : g.next a ≠ a) :
    exists w', ChkList.splice (s.world.index.place a) (s.world.index.place b) w = .ok ((), w') ∧
      Linked env s U (g.splice a b) w' := by
  have hempty := h.isEmpty_ok ha hf
  rw [decide_eq_false hne] at hempty
  rcases h.storePrev hf ht with ⟨w₁, hrun₁, h₁⟩
  rcases h₁.storeNext ht hf with ⟨w₂, hrun₂, h₂⟩
  rcases h₂.storeNext hl hb with ⟨w₃, hrun₃, h₃⟩
  rcases h₃.storePrev hb hl with ⟨w₄, hrun₄, h₄⟩
  rcases h₄.init_ok ha with ⟨w₅, hrun₅, h₅⟩
  refine ⟨w₅, ?_, h₅⟩
  unfold ChkList.splice
  rw [Exec.bind_of_ok hempty, if_neg Bool.false_ne_true, Exec.bind_of_ok (h.loadNext ha),
    Exec.bind_of_ok (h.chkPtr2addrchk_ok hf), Exec.bind_of_ok (h.loadPrev ha),
    Exec.bind_of_ok (h.chkPtr2addrchk_ok hl), Exec.bind_of_ok (h.loadPrev hb),
    Exec.bind_of_ok (h.chkPtr2addrchk_ok ht), Exec.bind_of_ok (h.chkAddrchk2ptr_ok ht),
    Exec.bind_of_ok hrun₁, Exec.bind_of_ok (h₁.chkAddrchk2ptr_ok hf), Exec.bind_of_ok hrun₂,
    Exec.bind_of_ok (h₂.chkAddrchk2ptr_ok hb), Exec.bind_of_ok hrun₃,
    Exec.bind_of_ok (h₃.chkAddrchk2ptr_ok hl), Exec.bind_of_ok hrun₄, hrun₅]

/-!
## Walks
-/

def visit (idx : ChkIndex) (p : ChkPtr) : ChkPtr × Ptr := (p, (idx.place p).addr)

theorem forEachFrom_ok (h : Linked env s U g w) {link : Ptr -> Ptr} {f : ChkPtr -> ChkPtr}
    (hload : forall p, U p ->
      loadPtr (link (s.world.index.place p).addr) w = .ok (f p, w))
    (hb : U b) {n : Nat} (hpath : Links.Path f a l b) (hl : forall x, x ∈ l -> U x ∧ x ≠ b)
    (hn : l.length < n) :
    ChkList.forEachFrom link (s.world.index.place b).addr n (f a) w =
      .ok (l.map (visit s.world.index), w) := by
  induction l generalizing a n with
  | nil =>
      cases n with
      | zero => cases hn
      | succ n =>
          have hfa : f a = b := hpath
          unfold ChkList.forEachFrom
          rw [hfa, Exec.bind_of_ok (h.chkPtr2addr_ok hb), if_pos rfl, Exec.pure_apply]
          rfl
  | cons x l ih =>
      cases n with
      | zero => cases hn
      | succ n =>
          have hx := hl x List.mem_cons_self
          have hrest := ih hpath.2 (fun y hy => hl y (List.mem_cons_of_mem x hy))
            (Nat.lt_of_succ_lt_succ hn)
          have haddr : (s.world.index.place x).addr ≠ (s.world.index.place b).addr :=
            fun heq => hx.2 (h.place_inj hx.1 hb heq)
          unfold ChkList.forEachFrom
          rw [hpath.1, Exec.bind_of_ok (h.chkPtr2addr_ok hx.1), if_neg haddr,
            Exec.bind_of_ok (hload x hx.1), Exec.bind_of_ok hrest, Exec.pure_apply]
          rfl

/-- `chk_list_for_each` and `chk_list_for_each_r` run through a ring. -/
theorem forEach_ok (h : Linked env s U g w) (hring : g.IsRing b l)
    (hl : forall x, x ∈ b :: l -> U x) {n : Nat} (hn : l.length < n) :
    ChkList.forEach (s.world.index.place b).addr n w = .ok (l.map (visit s.world.index), w) ∧
    ChkList.forEachR (s.world.index.place b).addr n w =
      .ok (l.reverse.map (visit s.world.index), w) := by
  have hb := hl b List.mem_cons_self
  have hout := (List.nodup_cons.mp hring.nodup).1
  have hl' : forall x, x ∈ l -> U x ∧ x ≠ b :=
    fun x hx => ⟨hl x (List.mem_cons_of_mem b hx), fun heq => hout (heq ▸ hx)⟩
  constructor
  · unfold ChkList.forEach ChkList.forEachAlong
    rw [Exec.bind_of_ok (h.loadNext hb)]
    exact h.forEachFrom_ok (fun p => h.loadNext) hb hring.walk.path_next hl' hn
  · unfold ChkList.forEachR ChkList.forEachAlong
    rw [Exec.bind_of_ok (h.loadPrev hb)]
    refine h.forEachFrom_ok (fun p => h.loadPrev) hb hring.walk.path_prev ?_ ?_
    · exact fun x hx => hl' x (List.mem_reverse.mp hx)
    · rw [List.length_reverse]
      exact hn

end Linked

end ChunkMem
