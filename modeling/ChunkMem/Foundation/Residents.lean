import Mathlib.Order.Disjoint
import Mathlib.Order.Lattice

/-!
# Data that share a store

Several data structures live in one store, each in an area of its own.  A structure is
given by its invariant and the area it depends on: whatever leaves the area alone keeps
the invariant.  An operation of one structure that stays in its area, and takes new room
only where nothing else is, therefore keeps all the others; between the operations the
store may pass through states in which none may run.
-/

namespace ChunkMem
namespace Foundation

/-- A store with areas: the states in which operations may run, the areas that are in
use, and what it means that an area is left alone. -/
structure Store (σ α : Type) [DistribLattice α] [OrderBot α] where
  Ready : σ -> Prop
  Within : σ -> α -> Prop
  Keeps : α -> σ -> σ -> Prop
  within_mono : forall {s a b}, Within s a -> b ≤ a -> Within s b
  within_sup : forall {s a b}, Within s a -> Within s b -> Within s (a ⊔ b)
  within_keeps : forall {s s' a}, Within s a -> Keeps a s s' -> Within s' a
  keeps_refl : forall a s, Keeps a s s
  keeps_trans : forall {a s s' s''}, Keeps a s s' -> Keeps a s' s'' -> Keeps a s s''
  keeps_mono : forall {a b s s'}, Keeps a s s' -> b ≤ a -> Keeps b s s'

section

variable {σ α τ υ : Type} [DistribLattice α] [OrderBot α] {S : Store σ α}

structure Resident (S : Store σ α) (τ : Type) where
  Inv : σ -> τ -> Prop
  area : τ -> α
  within : forall {s t}, Inv s t -> S.Within s (area t)
  stable : forall {s s' t}, S.Ready s -> S.Ready s' -> Inv s t -> S.Keeps (area t) s s' ->
    Inv s' t

namespace Resident

/-- The invariant held when operations last could run, and the area was left alone since. -/
def Held (R : Resident S τ) (s : σ) (t : τ) : Prop :=
  exists s₀, S.Ready s₀ ∧ R.Inv s₀ t ∧ S.Keeps (R.area t) s₀ s

/-- What an operation leaves: the invariant, and every area apart from that of the structure,
before and after. -/
structure Moves (R : Resident S τ) (s : σ) (t : τ) (s' : σ) (t' : τ) : Prop where
  ready : S.Ready s'
  inv : R.Inv s' t'
  frame : forall a, S.Within s a -> Disjoint a (R.area t) ->
    S.Keeps a s s' ∧ Disjoint a (R.area t')

def prod (R : Resident S τ) (Q : Resident S υ) : Resident S (τ × υ) where
  Inv := fun s t => R.Inv s t.1 ∧ Q.Inv s t.2 ∧ Disjoint (R.area t.1) (Q.area t.2)
  area := fun t => R.area t.1 ⊔ Q.area t.2
  within := by
    rintro s t ⟨hR, hQ, -⟩
    exact S.within_sup (R.within hR) (Q.within hQ)
  stable := by
    rintro s s' t hs hs' ⟨hR, hQ, hapart⟩ hkeeps
    exact ⟨R.stable hs hs' hR (S.keeps_mono hkeeps le_sup_left),
      Q.stable hs hs' hQ (S.keeps_mono hkeeps le_sup_right), hapart⟩

variable {R : Resident S τ} {Q : Resident S υ} {s s' : σ} {t t' : τ} {u u' : υ}

theorem Held.of_inv (hs : S.Ready s) (h : R.Inv s t) : R.Held s t :=
  ⟨s, hs, h, S.keeps_refl _ s⟩

theorem Held.inv (h : R.Held s t) (hs : S.Ready s) : R.Inv s t := by
  rcases h with ⟨s₀, hs₀, hinv, hkeeps⟩
  exact R.stable hs₀ hs hinv hkeeps

theorem Held.keeps (h : R.Held s t) (hkeeps : S.Keeps (R.area t) s s') : R.Held s' t := by
  rcases h with ⟨s₀, hs₀, hinv, hkeeps₀⟩
  exact ⟨s₀, hs₀, hinv, S.keeps_trans hkeeps₀ hkeeps⟩

theorem Held.within (h : R.Held s t) : S.Within s (R.area t) := by
  rcases h with ⟨s₀, -, hinv, hkeeps⟩
  exact S.within_keeps (R.within hinv) hkeeps

theorem Moves.fst (h : R.Moves s t s' t') (hs : S.Ready s) (hinv : (R.prod Q).Inv s (t, u)) :
    (R.prod Q).Moves s (t, u) s' (t', u) := by
  rcases hinv with ⟨-, hQ, hapart⟩
  rcases h.frame _ (Q.within hQ) hapart.symm with ⟨hkeeps, hapart'⟩
  refine ⟨h.ready, ⟨h.inv, Q.stable hs h.ready hQ hkeeps, hapart'.symm⟩, fun a ha hdis => ?_⟩
  rcases disjoint_sup_right.mp hdis with ⟨hdis₁, hdis₂⟩
  rcases h.frame a ha hdis₁ with ⟨hkeeps', hdis'⟩
  exact ⟨hkeeps', disjoint_sup_right.mpr ⟨hdis', hdis₂⟩⟩

theorem Moves.snd (h : Q.Moves s u s' u') (hs : S.Ready s) (hinv : (R.prod Q).Inv s (t, u)) :
    (R.prod Q).Moves s (t, u) s' (t, u') := by
  rcases hinv with ⟨hR, -, hapart⟩
  rcases h.frame _ (R.within hR) hapart with ⟨hkeeps, hapart'⟩
  refine ⟨h.ready, ⟨R.stable hs h.ready hR hkeeps, h.inv, hapart'⟩, fun a ha hdis => ?_⟩
  rcases disjoint_sup_right.mp hdis with ⟨hdis₁, hdis₂⟩
  rcases h.frame a ha hdis₂ with ⟨hkeeps', hdis'⟩
  exact ⟨hkeeps', disjoint_sup_right.mpr ⟨hdis₁, hdis'⟩⟩

theorem Moves.held (h : R.Moves s t s' t') : R.Held s' t' := .of_inv h.ready h.inv

theorem Held.shrink (h : R.Held s t) (hinv : forall s₀, R.Inv s₀ t -> R.Inv s₀ t')
    (harea : R.area t' ≤ R.area t) : R.Held s t' := by
  rcases h with ⟨s₀, hs₀, h₀, hkeeps⟩
  exact ⟨s₀, hs₀, hinv s₀ h₀, S.keeps_mono hkeeps harea⟩

end Resident

end

end Foundation
end ChunkMem
