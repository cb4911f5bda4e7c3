import ChunkMem.Properties.Stack
import ChunkMem.Structures.HashInStore

/-!
# Singly linked lists in the store

The area of a singly linked list are the words its nodes may be and the word its head is,
if the head is no variable.
-/

namespace ChunkMem

open Foundation

/-- The variables of a program with one singly linked list, and the nodes on the list. -/
structure StackData where
  list : ChkPtr
  single : ChkPtr
  nodes : List ChkPtr

namespace StackData

def state (x : StackData) (s : Session) : HashState := ⟨s, x.list, x.single⟩

end StackData

/-- The words that hold the links of a list with the head `c` and nodes of `U`. -/
def wordArea (c : Cell) (U : ChkPtr -> Prop) : Area := fun k j =>
  exists p, (U p ∨ c = .word p) ∧ p.Word k j

namespace HashState.Stacked

variable {env : Env} {s s' : Session} {c : Cell} {U : ChkPtr -> Prop} {x : StackData}

/-- The head is a variable or a word of a block, like the nodes. -/
def Placed (live : List Live) (c : Cell) (U : ChkPtr -> Prop) : Prop :=
  (forall p, U p -> Spot live p) ∧ c.In live ∧ forall p, U p -> c ≠ .word p

theorem spot_of (h : Placed s.live c U) {p : ChkPtr} (hp : U p ∨ c = .word p) :
    Spot s.live p := by
  rcases hp with hp | rfl
  · exact h.1 p hp
  · exact h.2.1

theorem area_in (h : Placed s.live c U) : (wordArea c U).In s.live := by
  rintro k j ⟨p, hp, rfl, hlo, hhi⟩
  rcases spot_of h hp with ⟨l, hl, hhas⟩
  exact ⟨l, hl, hhas.covers hlo hhi⟩

theorem spot_spared (h : Placed s.live c U) (hspared : Spared env (wordArea c U) s s')
    {p : ChkPtr} (hp : U p ∨ c = .word p) : Spot s'.live p := by
  rcases spot_of h hp with ⟨l, hl, hhas⟩
  have hcov := hhas.covers (j := 32 * p.offset) (Nat.le_refl _) (by omega)
  have htouch : (wordArea c U).Touches l :=
    ⟨p.chkNo, 32 * p.offset, ⟨p, hp, rfl, by omega, by omega⟩, hcov⟩
  exact ⟨l, hspared.blocks l hl htouch, hhas⟩

theorem placed_spared (h : Placed s.live c U) (hspared : Spared env (wordArea c U) s s') :
    Placed s'.live c U := by
  refine ⟨fun p hp => spot_spared h hspared (Or.inl hp), ?_, h.2.2⟩
  cases c with
  | list => trivial
  | single => trivial
  | word p => exact spot_spared h hspared (Or.inr rfl)

theorem spared (h : Stacked env s c U (x.state s) x.nodes) (hplaced : Placed s.live c U)
    (hopen' : Open env s') (hspared : Spared env (wordArea c U) s s') :
    Stacked env s' c U (x.state s') x.nodes := by
  have hword : forall p, U p ∨ c = .word p -> s'.world.word p = s.world.word p := by
    intro p hp
    refine World.word_eq_of_bits fun j hj hj' => ?_
    exact hspared.chunkBits_eq h.good.isOpen hopen'.1 (area_in hplaced) ⟨p, hp, rfl, hj, hj'⟩
  have hhead : (x.state s').next c = (x.state s).next c := by
    cases c with
    | list => rfl
    | single => rfl
    | word p => exact hword p (Or.inr rfl)
  refine ⟨⟨hopen', h.good.list, h.good.single⟩, rfl, rfl, ?_, h.nodup, h.nodes, .refl _ _ _⟩
  rw [hhead]
  exact h.run.congr fun p hp => hword p (Or.inl (h.nodes p hp))

theorem rebase {st : HashState} {l : List ChkPtr} (h : Stacked env s c U st l) :
    Stacked env st.session c U st l :=
  ⟨h.good, rfl, rfl, h.run, h.nodup, h.nodes, .refl _ _ _⟩

end HashState.Stacked

def stackResident (env : Env) (c : Cell) (U : ChkPtr -> Prop) :
    Resident (Session.store env) StackData where
  Inv := fun s x => HashState.Stacked.Placed s.live c U ∧
    HashState.Stacked env s c U (x.state s) x.nodes
  area := fun _ => wordArea c U
  within := fun h => HashState.Stacked.area_in h.1
  stable := fun _ hopen' h hspared =>
    ⟨HashState.Stacked.placed_spared h.1 hspared, h.2.spared h.1 hopen' hspared⟩

theorem HashState.Stacked.moves {env : Env} {s : Session} {c : Cell} {U : ChkPtr -> Prop}
    {x : StackData} (hopen : Open env s) (hplaced : HashState.Stacked.Placed s.live c U)
    {st' : HashState} {l : List ChkPtr} (h' : HashState.Stacked env s c U st' l) :
    (stackResident env c U).Moves s x st'.session ⟨st'.list, st'.single, l⟩ := by
  refine ⟨h'.good.isOpen, ⟨h'.live.symm ▸ hplaced, h'.rebase⟩, fun V hin hapart => ⟨?_, hapart⟩⟩
  have hdis := Area.disjoint_iff.mp hapart
  refine Spared.of_open hopen h'.good.isOpen hin (fun l hl _ => h'.live.symm ▸ hl) ?_
  intro k j hkj
  rcases hin k j hkj with ⟨l, hl, rfl, hlo, hhi⟩
  exact h'.keeps l hl j hlo hhi fun p hp hword => hdis _ j hkj ⟨p, hp, hword⟩

theorem SlistCall.moves {env : Env} {s : Session} {c : Cell} {U : ChkPtr -> Prop}
    {x : StackData} (h : (stackResident env c U).Inv s x) {call : SlistCall}
    (hcall : call.Allowed U x.nodes) {fuel : Nat} (hfuel : x.nodes.length < fuel)
    {r : SlistResult} {st' : HashState} (hrun : call.perform c fuel (x.state s) = .ok (r, st')) :
    (stackResident env c U).Moves s x st'.session
      ⟨st'.list, st'.single, call.after x.nodes⟩ := by
  rcases h with ⟨hplaced, hst⟩
  rcases hst.perform_ok hplaced.1 hplaced.2.1 hplaced.2.2 hcall hfuel with ⟨st₁, hrun₁, hst₁, -⟩
  cases hrun₁.symm.trans hrun
  exact hst₁.moves hst.good.isOpen hplaced

end ChunkMem
