import ChunkMem.Foundation.Exec

/-!
# Programs over a machine

A client asks a machine for something, sees the answer and goes on.  When every answer of
one machine follows the answers of another, so does every client.
-/

namespace ChunkMem
namespace Foundation

/-- A program that asks requests in `Q`, sees answers in `A` and ends with a result. -/
inductive Client (Q A α : Type) where
  | done (a : α)
  | ask (q : Q) (k : A -> Client Q A α)

namespace Exec

variable {σ τ ε α β : Type}

/-- Where the abstract outcome is a result, the concrete one is the same result in a
related state, or a fault of an admitted kind. -/
def Follows (R : σ -> τ -> Prop) (E : ε -> Prop) (x : Except ε (α × σ))
    (y : Except ε (α × τ)) : Prop :=
  forall a t, y = .ok (a, t) -> Ensures x (fun b s => b = a ∧ R s t) E

variable {R : σ -> τ -> Prop} {E : ε -> Prop}

theorem Follows.pure {s : σ} {t : τ} (a : α) (h : R s t) :
    Follows R E ((Pure.pure a : Exec σ ε α) s) ((Pure.pure a : Exec τ ε α) t) := by
  intro b t' hrun
  cases hrun
  exact ⟨rfl, h⟩

theorem Follows.bind {x : Exec σ ε α} {y : Exec τ ε α} {f : α -> Exec σ ε β}
    {g : α -> Exec τ ε β} {s : σ} {t : τ} (hxy : Follows R E (x s) (y t))
    (hfg : forall a s' t', R s' t' -> Follows R E (f a s') (g a t')) :
    Follows R E ((x >>= f) s) ((y >>= g) t) := by
  intro b t' hrun
  rcases ok_of_bind hrun with ⟨a, t₁, hfirst, hrest⟩
  refine Ensures.bind (hxy a t₁ hfirst) ?_
  rintro a' s₁ ⟨rfl, h₁⟩
  exact hfg a' s₁ t₁ h₁ b t' hrest

end Exec

namespace Client

variable {Q A α σ τ ε : Type}

def run (step : Q -> Exec σ ε A) : Client Q A α -> Exec σ ε α
  | done a => pure a
  | ask q k => do
      let r <- step q
      (k r).run step

theorem run_follows {R : σ -> τ -> Prop} {E : ε -> Prop} {step : Q -> Exec σ ε A}
    {step' : Q -> Exec τ ε A}
    (hstep : forall q s t, R s t -> Exec.Follows R E (step q s) (step' q t))
    (c : Client Q A α) : forall s t, R s t -> Exec.Follows R E (c.run step s) (c.run step' t) := by
  induction c with
  | done a =>
      intro s t h
      exact Exec.Follows.pure a h
  | ask q k ih =>
      intro s t h
      exact Exec.Follows.bind (hstep q s t h) ih

end Client

end Foundation
end ChunkMem
