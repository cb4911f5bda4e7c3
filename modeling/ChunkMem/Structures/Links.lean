import ChunkMem.Structures.DoubleList

/-!
# Links in the blocks of an index

The nodes of all lists lie in blocks, apart from each other.  The memory of the blocks
then says the next and the previous node of each, and an access to a link is an access
to these.
-/

namespace ChunkMem

open Foundation

/-- The nodes lie in blocks, and no two of them overlap. -/
structure Places (live : List Live) (U : ChkPtr -> Prop) : Prop where
  inside : forall p, U p -> exists l, l ∈ live ∧ p.chkNo = l.ptr.chkNo ∧
    l.ptr.offset ≤ p.offset ∧ p.offset + 2 ≤ l.ptr.offset + 2 * l.ptr.size
  size : forall p, U p -> p.size = 0
  apart : forall p q, U p -> U q -> p ≠ q -> p.chkNo = q.chkNo ->
    p.offset + 2 ≤ q.offset ∨ q.offset + 2 ≤ p.offset

def InLinks (idx : ChkIndex) (U : ChkPtr -> Prop) (blk j : Nat) : Prop :=
  exists p, U p ∧ blk = (idx.place p).addr.blk ∧ 8 * (idx.place p).addr.off ≤ j ∧
    j < 8 * (idx.place p).addr.off + 64

/-- Nothing but the links of the nodes differs from the session. -/
structure OnlyLinks (s : Session) (U : ChkPtr -> Prop) (w : World) : Prop where
  index : w.index = s.world.index
  sys : w.sys = s.world.sys
  bits : forall blk j, ¬InLinks s.world.index U blk j -> w.bits blk j = s.world.bits blk j

structure Linked (env : Env) (s : Session) (U : ChkPtr -> Prop) (g : Links ChkPtr)
    (w : World) : Prop where
  isOpen : Open env ⟨w, s.live⟩
  places : Places s.live U
  only : OnlyLinks s U w
  next : forall p, U p -> (w.target p).readPtr 0 = g.next p
  prev : forall p, U p -> (w.target p).readPtr 32 = g.prev p

def World.links (w : World) : Links ChkPtr :=
  ⟨fun p => (w.target p).readPtr 0, fun p => (w.target p).readPtr 32⟩

namespace Linked

variable {env : Env} {s : Session} {U : ChkPtr -> Prop} {g : Links ChkPtr} {w : World}
variable {p : ChkPtr}

theorem start (hopen : Open env s) (hplaces : Places s.live U) :
    Linked env s U s.world.links s.world :=
  ⟨hopen, hplaces, ⟨rfl, rfl, fun _ _ _ => rfl⟩, fun _ _ => rfl, fun _ _ => rfl⟩

theorem links_ring (h : Linked env s U g w) {b : ChkPtr} {l : List ChkPtr} (hring : g.IsRing b l)
    (hl : forall x, x ∈ b :: l -> U x) : w.links.IsRing b l :=
  hring.frame (fun x hx => h.next x (hl x hx)) (fun x hx => h.prev x (hl x hx))

/-!
## Places and pointers
-/

theorem spot (h : Linked env s U g w) (hp : U p) : Spot s.live p := by
  rcases h.places.inside p hp with ⟨l, hl, hno, hlo, hhi⟩
  exact ⟨l, hl, h.places.size p hp, hno, hlo, by omega⟩

theorem not_null (h : Linked env s U g w) (hp : U p) : ¬p.IsNull :=
  h.isOpen.spot_not_null (h.spot hp)

theorem chkPtr2addr_ok (h : Linked env s U g w) (hp : U p) :
    chkPtr2addr p w = .ok ((s.world.index.place p).addr, w) := by
  rw [← h.only.index]
  exact h.isOpen.place_addr (h.spot hp)

theorem chkPtr2chk_ok (h : Linked env s U g w) (hp : U p) :
    chkPtr2chk p w = .ok ((s.world.index.place p).chk, w) := by
  rw [← h.only.index]
  exact h.isOpen.place_chk (h.spot hp)

theorem chkPtr2addrchk_ok (h : Linked env s U g w) (hp : U p) :
    chkPtr2addrchk p w = .ok (s.world.index.place p, w) := by
  rw [← h.only.index]
  exact h.isOpen.place_addrchk (h.spot hp)

theorem chkAddrchk2ptr_ok (h : Linked env s U g w) (hp : U p) :
    chkAddrchk2ptr (s.world.index.place p) 0 w = .ok (p, w) := by
  rw [← h.only.index]
  exact h.isOpen.place_encode (h.spot hp)

theorem place_inj (h : Linked env s U g w) {q : ChkPtr} (hp : U p) (hq : U q)
    (heq : (s.world.index.place p).addr = (s.world.index.place q).addr) : p = q := by
  rw [← h.only.index] at heq
  exact h.isOpen.place_inj (h.spot hp) (h.spot hq) heq

/-!
## Accesses
-/

theorem inside (h : Linked env s U g w) (hp : U p) {o n : Nat} (hn : 8 * o + n ≤ 64) :
    w.sys.Inside ((w.index.chkAddr p.chkNo).add (4 * p.offset + o)) n := by
  rcases h.places.inside p hp with ⟨l, hl, hno, hlo, hhi⟩
  rw [hno]
  exact h.isOpen.inside hl (by omega)

theorem addr_add (h : Linked env s U g w) (p : ChkPtr) (o : Nat) :
    (s.world.index.place p).addr.add o =
      (w.index.chkAddr p.chkNo).add (4 * p.offset + o) := by
  rw [h.only.index]
  exact Open.addrOf_add s.world p o

theorem load_ok (h : Linked env s U g w) (hp : U p) {o : Nat} (ho : o ≤ 4) :
    loadPtr ((s.world.index.place p).addr.add o) w =
      .ok ((w.target p).readPtr (8 * o), w) := by
  have hload := loadPtr_at (h.inside hp (o := o) (n := 32) (by omega))
  rw [h.addr_add, hload]
  unfold World.target World.chunkBits
  rw [Bits.readPtr_drop]
  congr 3
  omega

theorem loadNext (h : Linked env s U g w) (hp : U p) :
    loadPtr (ChkListNode.next (s.world.index.place p).addr) w = .ok (g.next p, w) := by
  rw [← h.next p hp]
  exact h.load_ok hp (o := 0) (by omega)

theorem loadPrev (h : Linked env s U g w) (hp : U p) :
    loadPtr (ChkListNode.prev (s.world.index.place p).addr) w = .ok (g.prev p, w) := by
  rw [← h.prev p hp]
  exact h.load_ok hp (o := 4) (by omega)

theorem setChunk_bits_outside {k o x : Nat} {m : Bits} {blk j : Nat} (hx : x = 0 ∨ x = 32)
    (hm : forall j, j < 32 * o + x ∨ 32 * o + x + 32 ≤ j -> m j = w.chunkBits k j)
    (hfar : ¬(blk = (w.index.chkAddr k).blk ∧ 8 * ((w.index.chkAddr k).off + 4 * o) ≤ j ∧
      j < 8 * ((w.index.chkAddr k).off + 4 * o) + 64)) :
    (w.setChunk k m).bits blk j = w.bits blk j := by
  by_cases hblk : blk = (w.index.chkAddr k).blk
  · subst hblk
    unfold World.setChunk World.setView World.setBits
    simp only [Function.update_self]
    split
    · next hle =>
        rw [hm _ (by omega)]
        unfold World.chunkBits World.view
        rw [Bits.drop_apply, Nat.add_sub_cancel' hle]
    · rfl
  · rw [setChunk_bits_other w k m hblk]

theorem change (h : Linked env s U g w) (hp : U p) {x : Nat} (hx : x = 0 ∨ x = 32) {m : Bits}
    (hm : forall j, j < 32 * p.offset + x ∨ 32 * p.offset + x + 32 ≤ j ->
      m j = w.chunkBits p.chkNo j) :
    Open env ⟨w.setChunk p.chkNo m, s.live⟩ ∧ OnlyLinks s U (w.setChunk p.chkNo m) ∧
    forall q, U q -> forall y, y = 0 ∨ y = 32 ->
      ((w.setChunk p.chkNo m).target q).readPtr y =
        if q = p ∧ y = x then m.readPtr (32 * p.offset + x) else (w.target q).readPtr y := by
  rcases h.places.inside p hp with ⟨l, hl, hno, hlo, hhi⟩
  rw [hno] at hm ⊢
  have hchange := h.isOpen.change hl (32 * p.offset + x) 32 (by omega) (by omega) hm
  refine ⟨hchange.1, ⟨h.only.index, h.only.sys, ?_⟩, ?_⟩
  · intro blk j hout
    rw [← h.only.bits blk j hout]
    have hfar : ¬(blk = (w.index.chkAddr l.ptr.chkNo).blk ∧
        8 * ((w.index.chkAddr l.ptr.chkNo).off + 4 * p.offset) ≤ j ∧
        j < 8 * ((w.index.chkAddr l.ptr.chkNo).off + 4 * p.offset) + 64) := by
      intro hin
      apply hout
      refine ⟨p, hp, ?_⟩
      rw [← h.only.index, ← hno] at *
      simpa [ChkIndex.place, Ptr.add, chkOffset, Nat.mul_comm] using hin
    exact setChunk_bits_outside hx hm hfar
  · intro q hq y hy
    rcases h.places.inside q hq with ⟨l', hl', hno', hlo', hhi'⟩
    have hbit : forall i, i < 32 ->
        (w.setChunk l.ptr.chkNo m).chunkBits l'.ptr.chkNo (32 * q.offset + (y + i)) =
          if l'.ptr.chkNo = l.ptr.chkNo then m (32 * q.offset + (y + i))
          else w.chunkBits l'.ptr.chkNo (32 * q.offset + (y + i)) :=
      fun i hi => hchange.2 l' hl' _ (by omega) (by omega)
    unfold World.target
    rw [hno', Bits.readPtr_drop, Bits.readPtr_drop]
    by_cases hsame : l'.ptr.chkNo = l.ptr.chkNo
    · have hread : ((w.setChunk l.ptr.chkNo m).chunkBits l'.ptr.chkNo).readPtr
          (32 * q.offset + y) = m.readPtr (32 * q.offset + y) := by
        apply Bits.readPtr_congr
        intro i hi
        have hi' := hbit i hi
        rw [if_pos hsame, ← Nat.add_assoc] at hi'
        exact hi'
      rw [hread]
      split
      · next heq =>
          rw [heq.1, heq.2]
      · next hne =>
          apply Bits.readPtr_congr
          intro i hi
          rw [hsame]
          apply hm
          by_cases hqp : q = p
          · subst hqp
            have hyx : y ≠ x := fun hyx => hne ⟨rfl, hyx⟩
            omega
          · have hap := h.places.apart q p hq hp hqp (by omega)
            omega
    · have hqp : q ≠ p := by
        rintro rfl
        exact hsame (hno'.symm.trans hno)
      rw [if_neg fun hcon => hqp hcon.1]
      apply Bits.readPtr_congr
      intro i hi
      have hi' := hbit i hi
      rw [if_neg hsame, ← Nat.add_assoc] at hi'
      exact hi'

theorem setNext (h : Linked env s U g w) (hp : U p) {m : Bits} {v : ChkPtr}
    (hm : forall j, j < 32 * p.offset + 0 ∨ 32 * p.offset + 0 + 32 ≤ j ->
      m j = w.chunkBits p.chkNo j) (hv : m.readPtr (32 * p.offset + 0) = v) :
    Linked env s U (g.setNext p v) (w.setChunk p.chkNo m) := by
  rcases h.change hp (Or.inl rfl) hm with ⟨hopen, honly, hread⟩
  refine ⟨hopen, h.places, honly, ?_, ?_⟩
  · intro q hq
    rw [hread q hq 0 (Or.inl rfl), Links.setNext_next, hv, ← h.next q hq]
    by_cases hqp : q = p
    · rw [if_pos ⟨hqp, rfl⟩, if_pos hqp]
    · rw [if_neg fun hcon => hqp hcon.1, if_neg hqp]
  · intro q hq
    rw [hread q hq 32 (Or.inr rfl), if_neg (by omega), Links.setNext_prev]
    exact h.prev q hq

theorem setPrev (h : Linked env s U g w) (hp : U p) {m : Bits} {v : ChkPtr}
    (hm : forall j, j < 32 * p.offset + 32 ∨ 32 * p.offset + 32 + 32 ≤ j ->
      m j = w.chunkBits p.chkNo j) (hv : m.readPtr (32 * p.offset + 32) = v) :
    Linked env s U (g.setPrev p v) (w.setChunk p.chkNo m) := by
  rcases h.change hp (Or.inr rfl) hm with ⟨hopen, honly, hread⟩
  refine ⟨hopen, h.places, honly, ?_, ?_⟩
  · intro q hq
    rw [hread q hq 0 (Or.inl rfl), if_neg (by omega), Links.setPrev_next]
    exact h.next q hq
  · intro q hq
    rw [hread q hq 32 (Or.inr rfl), Links.setPrev_prev, hv, ← h.prev q hq]
    by_cases hqp : q = p
    · rw [if_pos ⟨hqp, rfl⟩, if_pos hqp]
    · rw [if_neg fun hcon => hqp hcon.1, if_neg hqp]

theorem readPtr_stored (h : Linked env s U g w) {v : ChkPtr} (hv : U v) (m : Bits) (a : Nat) :
    (m.writePtr a v).readPtr a = v := by
  rcases h.isOpen.spot_fits (h.spot hv) with ⟨h1, h2, h3⟩
  exact Bits.readPtr_writePtr h1 h2 h3

theorem storeNext (h : Linked env s U g w) (hp : U p) {v : ChkPtr} (hv : U v) :
    exists w', storePtr (ChkListNode.next (s.world.index.place p).addr) v w = .ok ((), w') ∧
      Linked env s U (g.setNext p v) w' := by
  have hstore := storePtr_at (h.inside hp (o := 0) (n := 32) (by omega)) v
  rw [← h.addr_add, show 8 * (4 * p.offset + 0) = 32 * p.offset + 0 by omega] at hstore
  exact ⟨_, hstore, h.setNext hp (fun j hj => Bits.writePtr_outside hj)
    (h.readPtr_stored hv _ _)⟩

theorem storePrev (h : Linked env s U g w) (hp : U p) {v : ChkPtr} (hv : U v) :
    exists w', storePtr (ChkListNode.prev (s.world.index.place p).addr) v w = .ok ((), w') ∧
      Linked env s U (g.setPrev p v) w' := by
  have hstore := storePtr_at (h.inside hp (o := 4) (n := 32) (by omega)) v
  rw [← h.addr_add, show 8 * (4 * p.offset + 4) = 32 * p.offset + 32 by omega] at hstore
  exact ⟨_, hstore, h.setPrev hp (fun j hj => Bits.writePtr_outside hj)
    (h.readPtr_stored hv _ _)⟩

end Linked

end ChunkMem
