import ChunkMem.Properties.Strings
import ChunkMem.Session.Areas

/-!
# Strings in the store

The area of strings are the blocks of those in block form.  A call on one string stays in
its block, or gets a block nobody has.
-/

namespace ChunkMem

open Foundation

def ChkPtr.area (p : ChkPtr) : Area := fun k j =>
  k = p.chkNo ∧ 32 * p.offset ≤ j ∧ j < 32 * p.offset + 64 * p.size

def stringArea (strs : Nat -> ChkStr) : Area := fun k j =>
  exists i p, (strs i).owned = some p ∧ p.area k j

/-- What the strings show, each out of a block of its own. -/
structure StringsShown (s : Session) (strs : Nat -> ChkStr) (texts : Nat -> List Byte) :
    Prop where
  shows : forall i, (strs i).Shows s (texts i)
  nulFree : forall i, NulFree (texts i)
  apart : forall i j p, (strs i).owned = some p -> (strs j).owned = some p -> i = j

theorem World.keepsBlock_of_bits {w w' : World} {p : ChkPtr}
    (h : forall k j, p.area k j -> w'.chunkBits k j = w.chunkBits k j) :
    World.KeepsBlock w w' p := by
  intro j hj
  unfold World.target
  rw [Bits.drop_apply, Bits.drop_apply]
  exact h _ _ ⟨rfl, by omega, by omega⟩

theorem World.KeepsBlock.bits_eq {w w' : World} {l : Live} (h : World.KeepsBlock w w' l.ptr)
    {k j : Nat} (hcov : l.Covers k j) : w'.chunkBits k j = w.chunkBits k j := by
  rcases hcov with ⟨rfl, hlo, hhi⟩
  have hbit := h (j - 32 * l.ptr.offset) (by omega)
  unfold World.target at hbit
  rwa [Bits.drop_apply, Bits.drop_apply, Nat.add_sub_cancel' hlo] at hbit

theorem Open.ptr_eq {env : Env} {s : Session} (h : Open env s) {l l' : Live} (hl : l ∈ s.live)
    (hl' : l' ∈ s.live) {k j : Nat} (hcov : l.Covers k j) (hcov' : l'.Covers k j) :
    l'.ptr = l.ptr := by
  by_contra hne
  exact h.apart hl hl' hne (hcov'.1.symm.trans hcov.1) hcov.2 hcov'.2

namespace StringsShown

variable {env : Env} {s s' : Session} {strs : Nat -> ChkStr} {texts : Nat -> List Byte}

theorem area_in (h : StringsShown s strs texts) : (stringArea strs).In s.live := by
  rintro k j ⟨i, p, hp, hkj⟩
  rcases (h.shows i).owned_live hp with ⟨b, hb, rfl, -⟩
  exact ⟨b, hb, hkj⟩

theorem touches (hopen : Open env s) {b : Live} (hb : b ∈ s.live) {i : Nat}
    (hown : (strs i).owned = some b.ptr) : (stringArea strs).Touches b := by
  have hpos := hopen.size_pos hb
  have hcov : b.Covers b.ptr.chkNo (32 * b.ptr.offset) := ⟨rfl, by omega, by omega⟩
  exact ⟨_, _, ⟨i, b.ptr, hown, hcov⟩, hcov⟩

theorem spared (h : StringsShown s strs texts) (hopen : Open env s) (hopen' : Open env s')
    (hspared : Spared env (stringArea strs) s s') : StringsShown s' strs texts := by
  refine ⟨fun i => (h.shows i).kept fun b hb hown => ⟨?_, ?_⟩, h.nulFree, h.apart⟩
  · exact hspared.blocks b hb (touches hopen hb hown)
  · apply World.keepsBlock_of_bits
    intro k j hkj
    exact hspared.chunkBits_eq hopen hopen'.1 h.area_in ⟨i, b.ptr, hown, hkj⟩

theorem inv (h : StringsShown s strs texts) (hopen : Open env s) {live : List Live}
    (hlive : forall b, b ∈ live <-> b ∈ s.live ∧ forall i, (strs i).owned ≠ some b.ptr) :
    StrInv env ⟨s.world, live⟩ ⟨s, strs⟩ texts := by
  refine ⟨hopen, h.shows, h.nulFree, h.apart, ?_, ?_⟩
  · intro b hb
    by_cases hown : exists i, (strs i).owned = some b.ptr
    · exact Or.inr hown
    · exact Or.inl ((hlive b).mpr ⟨hb, not_exists.mp hown⟩)
  · intro b hb
    rcases (hlive b).mp hb with ⟨hb', hnone⟩
    exact ⟨hb', hnone, fun _ _ => rfl⟩

end StringsShown

theorem StrInv.shown {env : Env} {s₀ : Session} {st : StrState} {texts : Nat -> List Byte}
    (h : StrInv env s₀ st texts) : StringsShown st.session st.strs texts :=
  ⟨h.shows, h.nulFree, h.apart⟩

def stringResident (env : Env) :
    Resident (Session.store env) ((Nat -> ChkStr) × (Nat -> List Byte)) where
  Inv := fun s t => StringsShown s t.1 t.2
  area := fun t => stringArea t.1
  within := fun h => h.area_in
  stable := fun hopen hopen' h hspared => h.spared hopen hopen' hspared

theorem exists_others (s : Session) (strs : Nat -> ChkStr) : exists live : List Live,
    forall b, b ∈ live <-> b ∈ s.live ∧ forall i, (strs i).owned ≠ some b.ptr := by
  classical
  exact ⟨s.live.filter fun b => decide (forall i, (strs i).owned ≠ some b.ptr), fun b => by
    rw [List.mem_filter, decide_eq_true_iff]⟩

/-- A call on strings moves from strings to strings; the blocks that are no string's stay. -/
theorem StrCall.moves {env : Env} {s s' : Session} {strs strs' : Nat -> ChkStr}
    {texts : Nat -> List Byte} (hopen : Open env s) (h : StringsShown s strs texts)
    {call : StrCall} (hcall : call.Allowed) {r : Int}
    (hrun : call.perform env ⟨s, strs⟩ = .ok (r, ⟨s', strs'⟩)) :
    (stringResident env).Moves s (strs, texts) s' (strs', call.shown texts r) ∧
    forall b, (b ∈ s'.live ∧ forall i, (strs' i).owned ≠ some b.ptr) <->
      (b ∈ s.live ∧ forall i, (strs i).owned ≠ some b.ptr) := by
  rcases exists_others s strs with ⟨live, hlive⟩
  have hinv := h.inv hopen hlive
  have hinv' := ((hinv.perform hcall).of_ok hrun).1
  have hothers : forall b, (b ∈ s'.live ∧ forall i, (strs' i).owned ≠ some b.ptr) <->
      b ∈ live := by
    intro b
    constructor
    · rintro ⟨hb, hnone⟩
      exact (hinv'.owned b hb).resolve_right fun ⟨i, hi⟩ => hnone i hi
    · intro hb
      exact ⟨(hinv'.others b hb).1, (hinv'.others b hb).2.1⟩
  refine ⟨⟨hinv'.isOpen, hinv'.shown, fun V hin hapart => ?_⟩,
    fun b => (hothers b).trans (hlive b)⟩
  have hdis := Area.disjoint_iff.mp hapart
  -- a block with bits of another area is no string's
  have hmem : forall l, l ∈ s.live -> V.Touches l -> l ∈ live := by
    rintro l hl ⟨k, j, hkj, hcov⟩
    exact (hlive l).mpr ⟨hl, fun i hi => hdis k j hkj ⟨i, l.ptr, hi, hcov⟩⟩
  constructor
  · refine Spared.of_open hopen hinv'.isOpen hin ?_ fun k j hkj => ?_
    · intro l hl htouch
      exact (hinv'.others l (hmem l hl htouch)).1
    · rcases hin k j hkj with ⟨l, hl, hcov⟩
      exact (hinv'.others l (hmem l hl ⟨k, j, hkj, hcov⟩)).2.2.bits_eq hcov
  · refine Area.disjoint_iff.mpr fun k j hkj => ?_
    rintro ⟨i, p, hp, hcov'⟩
    rcases hin k j hkj with ⟨l, hl, hcov⟩
    rcases hinv'.others l (hmem l hl ⟨k, j, hkj, hcov⟩) with ⟨hl', hnone, -⟩
    rcases (hinv'.shows i).owned_live hp with ⟨b, hb, rfl, -⟩
    have heq := hinv'.isOpen.ptr_eq hl' hb hcov hcov'
    exact hnone i (heq ▸ hp)

end ChunkMem
