import ChunkMem.Foundation.Exec

/-!
# Conditions that a program keeps

A third judgement on state computations: a condition on the state that holds before a
program holds after it, however it returns.  The rules follow the way programs are put
together.
-/

namespace ChunkMem
namespace Foundation
namespace Exec

variable {σ ε α β : Type}

def Keeps (P : σ -> Prop) (x : Exec σ ε α) : Prop :=
  forall s a s', P s -> x s = .ok (a, s') -> P s'

variable {P : σ -> Prop}

namespace Keeps

theorem pure (a : α) : Keeps P (Pure.pure a : Exec σ ε α) := by
  intro s b s' hs hrun
  cases hrun
  exact hs

theorem fault (e : ε) : Keeps P (Exec.fault e : Exec σ ε α) := by
  intro s b s' _ hrun
  cases hrun

theorem state : Keeps P (Exec.state : Exec σ ε σ) := by
  intro s b s' hs hrun
  cases hrun
  exact hs

theorem update {f : σ -> σ} (hf : forall s, P s -> P (f s)) :
    Keeps P (Exec.update f : Exec σ ε Unit) := by
  intro s b s' hs hrun
  cases hrun
  exact hf s hs

theorem require (p : Prop) [Decidable p] (e : ε) :
    Keeps P (Exec.require p e : Exec σ ε Unit) := by
  intro s b s' hs hrun
  unfold Exec.require at hrun
  split at hrun
  · cases hrun
    exact hs
  · cases hrun

theorem bind {x : Exec σ ε α} {f : α -> Exec σ ε β} (hx : Keeps P x)
    (hf : forall a, Keeps P (f a)) : Keeps P (x >>= f) := by
  intro s b s' hs hrun
  rcases ok_of_bind hrun with ⟨a, s₁, hfirst, hrest⟩
  exact hf a s₁ b s' (hx s a s₁ hs hfirst) hrest

theorem ite (p : Prop) [Decidable p] {x y : Exec σ ε α} (hx : Keeps P x) (hy : Keeps P y) :
    Keeps P (if p then x else y) := by
  split
  · exact hx
  · exact hy

end Keeps

end Exec

theorem foldlM_keeps {σ κ : Type} {f : σ -> κ -> Option σ} {P : σ -> Prop}
    (hstep : forall x k y, P x -> f x k = some y -> P y) {l : List κ} {x y : σ} (h : P x)
    (hrun : l.foldlM f x = some y) : P y := by
  induction l generalizing x with
  | nil =>
      cases hrun
      exact h
  | cons k rest ih =>
      rcases Option.bind_eq_some_iff.mp hrun with ⟨z, hfirst, hrest⟩
      exact ih (hstep x k z h hfirst) hrest

end Foundation
end ChunkMem
