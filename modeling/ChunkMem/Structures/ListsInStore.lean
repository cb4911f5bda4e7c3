import ChunkMem.Properties.Lists
import ChunkMem.Session.Areas

/-!
# Doubly linked lists in the store

The links of lists are an area, and what leaves it alone keeps the lists wherever the
chunks have moved.  The calls on lists write nothing but links.
-/

namespace ChunkMem

open Foundation

def linkArea (U : ChkPtr -> Prop) : Area := fun k j =>
  exists p, U p ∧ k = p.chkNo ∧ 32 * p.offset ≤ j ∧ j < 32 * p.offset + 64

namespace Places

variable {env : Env} {s s' : Session} {live : List Live} {U : ChkPtr -> Prop}

theorem mono {U' : ChkPtr -> Prop} (h : Places live U) (hU : forall p, U' p -> U p) :
    Places live U' :=
  ⟨fun p hp => h.inside p (hU p hp), fun p hp => h.size p (hU p hp),
    fun p q hp hq => h.apart p q (hU p hp) (hU q hq)⟩

theorem area_in (h : Places live U) : (linkArea U).In live := by
  rintro k j ⟨p, hp, rfl, hlo, hhi⟩
  rcases h.inside p hp with ⟨l, hl, hno, hlo', hhi'⟩
  exact ⟨l, hl, hno, by omega, by omega⟩

theorem spared (h : Places s.live U) (hspared : Spared env (linkArea U) s s') :
    Places s'.live U := by
  refine ⟨fun p hp => ?_, h.size, h.apart⟩
  rcases h.inside p hp with ⟨l, hl, hno, hlo, hhi⟩
  have htouch : (linkArea U).Touches l :=
    ⟨l.ptr.chkNo, 32 * p.offset, ⟨p, hp, hno.symm, by omega, by omega⟩, rfl, by omega, by omega⟩
  exact ⟨l, hspared.blocks l hl htouch, hno, hlo, hhi⟩

end Places

namespace Linked

variable {env : Env} {s s' : Session} {U : ChkPtr -> Prop} {g : Links ChkPtr} {w : World}
variable {p : ChkPtr}

theorem target_readPtr {w w' : World} (hp : U p) {x : Nat} (hx : x ≤ 32)
    (hbits : forall k j, linkArea U k j -> w'.chunkBits k j = w.chunkBits k j) :
    (w'.target p).readPtr x = (w.target p).readPtr x := by
  unfold World.target
  rw [Bits.readPtr_drop, Bits.readPtr_drop]
  apply Bits.readPtr_congr
  intro i hi
  exact hbits p.chkNo _ ⟨p, hp, rfl, by omega, by omega⟩

/-- The lists a session had are there in every session that left the links alone. -/
theorem spared (h : Linked env s U g s.world) (hopen : Open env s')
    (hspared : Spared env (linkArea U) s s') : Linked env s' U g s'.world := by
  have hbits : forall k j, linkArea U k j -> s'.world.chunkBits k j = s.world.chunkBits k j :=
    fun k j hkj => hspared.chunkBits_eq h.isOpen hopen.1 h.places.area_in hkj
  refine ⟨hopen, h.places.spared hspared, ⟨rfl, rfl, fun _ _ _ => rfl⟩, ?_, ?_⟩
  · intro p hp
    rw [target_readPtr hp (Nat.zero_le 32) hbits]
    exact h.next p hp
  · intro p hp
    rw [target_readPtr hp (Nat.le_refl 32) hbits]
    exact h.prev p hp

/-- Linked memory of a session is the memory of the session it leads to. -/
theorem rebase (h : Linked env s U g w) : Linked env ⟨w, s.live⟩ U g w :=
  ⟨h.isOpen, h.places, ⟨rfl, rfl, fun _ _ _ => rfl⟩, h.next, h.prev⟩

theorem chunkBits_eq (h : Linked env s U g w) {l : Live} (hl : l ∈ s.live) {k j : Nat}
    (hcov : l.Covers k j) (hout : ¬linkArea U k j) :
    w.chunkBits k j = s.world.chunkBits k j := by
  rcases hcov with ⟨rfl, hlo, hhi⟩
  unfold World.chunkBits World.view
  rw [Bits.drop_apply, Bits.drop_apply, h.only.index]
  apply h.only.bits
  rintro ⟨p, hp, hblk, hlo', hhi'⟩
  rcases h.isOpen.2 with ⟨c, L, hv⟩
  have hu := hv.stored.uncompressed h.isOpen.1
  rcases h.places.inside p hp with ⟨l', hl', hno, hlo₁, hhi₁⟩
  have hb := hv.wf.tiling.block_bound (Valid.mem_block hl) (hv.pos l hl)
  have hb' := hv.wf.tiling.block_bound (Valid.mem_block hl') (hv.pos l' hl')
  have hoff : 32 * l.ptr.offset = 64 * l.block.start := by
    rw [hv.ptr l hl, blockPtr_offset]
    omega
  have hoff' : 32 * l'.ptr.offset = 64 * l'.block.start := by
    rw [hv.ptr l' hl', blockPtr_offset]
    omega
  have hlen : l.block.len = l.ptr.size := rfl
  have hlen' : l'.block.len = l'.ptr.size := rfl
  have hspace : l.block.space = l.ptr.chkNo := rfl
  have hspace' : l'.block.space = l'.ptr.chkNo := rfl
  rw [← h.only.index, Open.place_addr_eq] at hblk hlo' hhi'
  simp only [Ptr.add, hno] at hblk hlo' hhi'
  by_cases hsame : l.ptr.chkNo = l'.ptr.chkNo
  · rw [hsame] at hlo' hhi'
    exact hout ⟨p, hp, hsame.trans hno.symm, by omega, by omega⟩
  · have hbase := hu.place.off_eq hb.1
    have hbase' := hu.place.off_eq hb'.1
    have hfit := hu.fits.virgin_le _ hb.1
    have hfit' := hu.fits.virgin_le _ hb'.1
    rw [hspace] at hb hbase hfit
    rw [hspace'] at hb' hbase' hfit'
    have hapart := hu.place.apart hb.1 hb'.1 hsame hblk
    simp only at hbase hbase'
    omega

end Linked

namespace Lists

variable {U U' : ChkPtr -> Prop} {t : Lists} {g g' : Links ChkPtr} {p : ChkPtr}

/-- The program no longer uses `p` as a head or a node. -/
def forget (t : Lists) (p : ChkPtr) : Lists :=
  ⟨Function.update t.seq p Option.none, Function.update t.ready p False⟩

theorem Shown.frame (h : t.Shown U g)
    (hsame : forall p, U p -> g'.next p = g.next p ∧ g'.prev p = g.prev p) : t.Shown U g' := by
  refine ⟨fun b l hl => ?_, h.apart, fun n hn => ?_⟩
  · rcases h.ring b l hl with ⟨hring, hmem⟩
    exact ⟨hring.frame (fun x hx => (hsame x (hmem x hx)).1)
      (fun x hx => (hsame x (hmem x hx)).2), hmem⟩
  · rcases h.ready n hn with ⟨hu, hnull, hfree⟩
    exact ⟨hu, (hsame n hu).2 ▸ hnull, hfree⟩

theorem Shown.mono (h : t.Shown U g) (hU : forall p, U p -> U' p) : t.Shown U' g := by
  refine ⟨fun b l hl => ?_, h.apart, fun n hn => ?_⟩
  · rcases h.ring b l hl with ⟨hring, hmem⟩
    exact ⟨hring, fun x hx => hU x (hmem x hx)⟩
  · rcases h.ready n hn with ⟨hu, hrest⟩
    exact ⟨hU n hu, hrest⟩

theorem Shown.forget (h : t.Shown U g) (hout : ¬t.Member p) :
    (t.forget p).Shown (fun q => U q ∧ q ≠ p) g := by
  have hseq : forall b l, (t.forget p).seq b = some l -> b ≠ p ∧ t.seq b = some l := by
    intro b l hl
    by_cases hb : b = p
    · subst hb
      simp [Lists.forget] at hl
    · simp only [Lists.forget, Function.update_of_ne hb] at hl
      exact ⟨hb, hl⟩
  refine ⟨fun b l hl => ?_, fun b b' l l' hl hl' => ?_, fun n hn => ?_⟩
  · rcases hseq b l hl with ⟨hb, hseq'⟩
    rcases h.ring b l hseq' with ⟨hring, hmem⟩
    refine ⟨hring, fun x hx => ⟨hmem x hx, ?_⟩⟩
    rintro rfl
    rcases List.mem_cons.mp hx with heq | hx
    · exact hb heq.symm
    · exact hout ⟨b, l, hseq', hx⟩
  · exact h.apart b b' l l' (hseq b l hl).2 (hseq b' l' hl').2
  · by_cases hnp : n = p
    · subst hnp
      simp [Lists.forget] at hn
    · simp only [Lists.forget, Function.update_of_ne hnp] at hn
      rcases h.ready n hn with ⟨hu, hnull, hfree⟩
      exact ⟨⟨hu, hnp⟩, hnull, fun b l hl => hfree b l (hseq b l hl).2⟩

end Lists

/-- Lists as data in the store: their nodes, and the lists of all heads. -/
def listResident (env : Env) : Resident (Session.store env) ((ChkPtr -> Prop) × Lists) where
  Inv := fun s t => exists g, Linked env s t.1 g s.world ∧ t.2.Shown t.1 g
  area := fun t => linkArea t.1
  within := by
    rintro s t ⟨g, hlink, -⟩
    exact hlink.places.area_in
  stable := by
    rintro s s' t - hopen ⟨g, hlink, hshown⟩ hspared
    exact ⟨g, hlink.spared hopen hspared, hshown⟩

namespace listResident

variable {env : Env} {s : Session} {U U' : ChkPtr -> Prop} {t : Lists} {p : ChkPtr}

theorem widen (h : (listResident env).Inv s (U, t)) (hplaces : Places s.live U')
    (hU : forall p, U p -> U' p) : (listResident env).Inv s (U', t) := by
  rcases h with ⟨g, hlink, hshown⟩
  refine ⟨_, Linked.start hlink.isOpen hplaces, Lists.Shown.mono ?_ hU⟩
  exact hshown.frame fun p hp => ⟨hlink.next p hp, hlink.prev p hp⟩

theorem forget (h : (listResident env).Inv s (U, t)) (hout : ¬t.Member p) :
    (listResident env).Inv s (fun q => U q ∧ q ≠ p, t.forget p) := by
  rcases h with ⟨g, hlink, hshown⟩
  exact ⟨g, ⟨hlink.isOpen, hlink.places.mono fun q hq => hq.1, ⟨rfl, rfl, fun _ _ _ => rfl⟩,
    fun q hq => hlink.next q hq.1, fun q hq => hlink.prev q hq.1⟩, hshown.forget hout⟩

end listResident

theorem ListCall.moves {env : Env} {s : Session} {U : ChkPtr -> Prop} {t : Lists}
    (h : (listResident env).Inv s (U, t)) {call : ListCall} (hcall : call.Allowed U t)
    {w' : World} (hrun : call.perform s.world.index s.world = .ok ((), w')) :
    (listResident env).Moves s (U, t) ⟨w', s.live⟩ (U, call.after t) := by
  rcases h with ⟨g, hlink, hshown⟩
  rcases hshown.perform hlink hcall with ⟨w₁, g', hrun', hlink', hshown'⟩
  rw [hrun] at hrun'
  cases hrun'
  refine ⟨hlink'.isOpen, ⟨g', hlink'.rebase, hshown'⟩, fun V hin hapart => ⟨?_, hapart⟩⟩
  refine Spared.of_open hlink.isOpen hlink'.isOpen hin (fun l hl _ => hl) fun k j hkj => ?_
  rcases hin k j hkj with ⟨l, hl, hcov⟩
  exact hlink'.chunkBits_eq hl hcov (Area.disjoint_iff.mp hapart k j hkj)

end ChunkMem
