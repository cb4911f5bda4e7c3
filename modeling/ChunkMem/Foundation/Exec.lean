import Mathlib.Init

/-!
# State computations that may fault

A small library for programs that carry an explicit state and may stop with a
fault.  Two judgements are developed over it.

* `Ensures` is a Hoare judgement on one outcome: what holds of the result
  and the final state, and which faults are admitted.
* `Simulates` relates the outcome of a concrete program to the outcome of
  an abstract one through a representation relation.

Nothing here mentions a particular machine or data structure.
-/

namespace ChunkMem
namespace Foundation

universe u

/-- A computation over the state `σ` that may stop with a fault in `ε`. -/
def Exec (σ ε α : Type) : Type := σ -> Except ε (α × σ)

namespace Exec

variable {σ τ ε α β : Type}

def fault (e : ε) : Exec σ ε α := fun _ => .error e

def state : Exec σ ε σ := fun s => .ok (s, s)

def update (f : σ -> σ) : Exec σ ε Unit := fun s => .ok ((), f s)

/-- Stop with the fault `e` unless the condition holds. -/
def require (p : Prop) [Decidable p] (e : ε) : Exec σ ε Unit :=
  fun s => if p then .ok ((), s) else .error e

instance : Monad (Exec σ ε) where
  pure a := fun s => .ok (a, s)
  bind x f := fun s =>
    match x s with
    | .ok (a, s') => f a s'
    | .error e => .error e

@[simp] theorem pure_apply (a : α) (s : σ) :
    (pure a : Exec σ ε α) s = .ok (a, s) := rfl

@[simp] theorem state_apply (s : σ) :
    (state : Exec σ ε σ) s = .ok (s, s) := rfl

@[simp] theorem update_apply (f : σ -> σ) (s : σ) :
    (update f : Exec σ ε Unit) s = .ok ((), f s) := rfl

@[simp] theorem fault_apply (e : ε) (s : σ) :
    (fault e : Exec σ ε α) s = .error e := rfl

theorem bind_apply (x : Exec σ ε α) (f : α -> Exec σ ε β) (s : σ) :
    (x >>= f) s =
      match x s with
      | .ok (a, s') => f a s'
      | .error e => .error e := rfl

theorem bind_of_ok {x : Exec σ ε α} {f : α -> Exec σ ε β} {s s' : σ} {a : α}
    (h : x s = .ok (a, s')) : (x >>= f) s = f a s' := by
  rw [bind_apply, h]

theorem bind_of_error {x : Exec σ ε α} {f : α -> Exec σ ε β} {s : σ} {e : ε}
    (h : x s = .error e) : (x >>= f) s = .error e := by
  rw [bind_apply, h]

theorem ok_of_bind {x : Exec σ ε α} {f : α -> Exec σ ε β} {s s' : σ} {b : β}
    (h : (x >>= f) s = .ok (b, s')) : exists a s₁, x s = .ok (a, s₁) ∧ f a s₁ = .ok (b, s') := by
  cases hx : x s with
  | error e =>
      rw [bind_of_error hx] at h
      cases h
  | ok p =>
      rw [bind_of_ok hx] at h
      exact ⟨p.1, p.2, rfl, h⟩

theorem bind_assoc {γ : Type} (x : Exec σ ε α) (f : α -> Exec σ ε β)
    (g : β -> Exec σ ε γ) : x >>= f >>= g = x >>= fun a => f a >>= g := by
  funext s
  simp only [bind_apply]
  cases x s with
  | ok rs => rfl
  | error e => rfl

theorem require_of {p : Prop} [Decidable p] (hp : p) (e : ε) (s : σ) :
    (require p e : Exec σ ε Unit) s = .ok ((), s) := by
  simp [require, hp]

theorem require_of_not {p : Prop} [Decidable p] (hp : ¬p) (e : ε) (s : σ) :
    (require p e : Exec σ ε Unit) s = .error e := by
  simp [require, hp]

theorem ite_bind (p : Prop) [Decidable p] (x y : Exec σ ε α) (f : α -> Exec σ ε β) :
    (if p then x >>= f else y >>= f) = (if p then x else y) >>= f := by
  split <;> rfl

theorem ite_apply (p : Prop) [Decidable p] (x y : Exec σ ε α) (s : σ) :
    (if p then x else y) s = if p then x s else y s := by
  split <;> rfl

/-!
## Hoare judgement
-/

/-- The outcome satisfies `Q` when it is a result and `E` when it is a fault. -/
def Ensures (x : Except ε (α × σ)) (Q : α -> σ -> Prop) (E : ε -> Prop) : Prop :=
  match x with
  | .ok (r, s) => Q r s
  | .error e => E e

@[simp] theorem ensures_ok {r : α} {s : σ} {Q : α -> σ -> Prop} {E : ε -> Prop} :
    Ensures (.ok (r, s)) Q E <-> Q r s := Iff.rfl

@[simp] theorem ensures_error {e : ε} {Q : α -> σ -> Prop} {E : ε -> Prop} :
    Ensures (.error e) Q E <-> E e := Iff.rfl

theorem Ensures.mono {x : Except ε (α × σ)} {Q Q' : α -> σ -> Prop}
    {E E' : ε -> Prop} (h : Ensures x Q E) (hQ : forall r s, Q r s -> Q' r s)
    (hE : forall e, E e -> E' e) : Ensures x Q' E' := by
  cases x with
  | ok rs => exact hQ _ _ h
  | error e => exact hE _ h

theorem Ensures.and {x : Except ε (α × σ)} {Q Q' : α -> σ -> Prop}
    {E E' : ε -> Prop} (h : Ensures x Q E) (h' : Ensures x Q' E') :
    Ensures x (fun r s => Q r s ∧ Q' r s) (fun e => E e ∧ E' e) := by
  cases x with
  | ok rs => exact ⟨h, h'⟩
  | error e => exact ⟨h, h'⟩

theorem Ensures.run {x : Except ε (α × σ)} {Q : α -> σ -> Prop} {E : ε -> Prop}
    (h : Ensures x Q E) : Ensures x (fun r s => x = .ok (r, s) ∧ Q r s) E := by
  cases x with
  | ok rs => exact ⟨rfl, h⟩
  | error e => exact h

theorem Ensures.bind {x : Exec σ ε α} {f : α -> Exec σ ε β} {s : σ}
    {P : α -> σ -> Prop} {Q : β -> σ -> Prop} {E : ε -> Prop}
    (hx : Ensures (x s) P E)
    (hf : forall a s', P a s' -> Ensures (f a s') Q E) :
    Ensures ((x >>= f) s) Q E := by
  rw [bind_apply]
  cases h : x s with
  | ok rs =>
      rw [h] at hx
      exact hf _ _ hx
  | error e =>
      rw [h] at hx
      exact hx

theorem Ensures.of_eq {x : Except ε (α × σ)} {Q : α -> σ -> Prop} {E : ε -> Prop}
    {r : α} {s : σ} (hx : x = .ok (r, s)) (h : Q r s) : Ensures x Q E := by
  rw [hx]
  exact h

theorem Ensures.of_ok {x : Except ε (α × σ)} {Q : α -> σ -> Prop} {E : ε -> Prop}
    {r : α} {s : σ} (h : Ensures x Q E) (hx : x = .ok (r, s)) : Q r s := by
  rw [hx] at h
  exact h

theorem Ensures.of_error {x : Except ε (α × σ)} {Q : α -> σ -> Prop}
    {E : ε -> Prop} {e : ε} (h : Ensures x Q E) (hx : x = .error e) : E e := by
  rw [hx] at h
  exact h

theorem Ensures.exists_ok {x : Except ε (α × σ)} {Q : α -> σ -> Prop}
    {E : ε -> Prop} (h : Ensures x Q E) (hE : forall e, ¬E e) :
    exists r s, x = .ok (r, s) ∧ Q r s := by
  cases x with
  | ok rs => exact ⟨rs.1, rs.2, rfl, h⟩
  | error e => exact absurd h (hE e)

/-!
## Simulation
-/

/-- The concrete and the abstract outcome agree: the same fault, or the same
result in states related by `R`. -/
inductive Simulates (R : σ -> τ -> Prop) :
    Except ε (α × σ) -> Except ε (α × τ) -> Prop where
  | ok {r : α} {s : σ} {t : τ} : R s t -> Simulates R (.ok (r, s)) (.ok (r, t))
  | error {e : ε} : Simulates R (.error e) (.error e)

theorem Simulates.mono {R R' : σ -> τ -> Prop} {x : Except ε (α × σ)}
    {y : Except ε (α × τ)} (h : Simulates R x y)
    (hR : forall s t, R s t -> R' s t) : Simulates R' x y := by
  cases h with
  | ok hst => exact .ok (hR _ _ hst)
  | error => exact .error

theorem Simulates.bind {R : σ -> τ -> Prop} {x : Exec σ ε α} {y : Exec τ ε α}
    {f : α -> Exec σ ε β} {g : α -> Exec τ ε β} {s : σ} {t : τ}
    (hxy : Simulates R (x s) (y t))
    (hfg : forall r s' t', y t = .ok (r, t') -> R s' t' ->
      Simulates R (f r s') (g r t')) :
    Simulates R ((x >>= f) s) ((y >>= g) t) := by
  rw [bind_apply, bind_apply]
  cases hx : x s with
  | error e =>
      rw [hx] at hxy
      cases hy : y t with
      | error e' =>
          rw [hy] at hxy
          cases hxy
          exact .error
      | ok rt =>
          rw [hy] at hxy
          cases hxy
  | ok rs =>
      rw [hx] at hxy
      cases hy : y t with
      | error e' =>
          rw [hy] at hxy
          cases hxy
      | ok rt =>
          rw [hy] at hxy
          cases hxy with
          | ok hst => exact hfg _ _ _ hy hst

theorem Simulates.of_eq {R : σ -> τ -> Prop} {x : Except ε (α × σ)}
    {y : Except ε (α × τ)} {r : α} {s : σ} {t : τ}
    (hx : x = .ok (r, s)) (hy : y = .ok (r, t)) (h : R s t) :
    Simulates R x y := by
  rw [hx, hy]
  exact .ok h

/-- What the abstract outcome ensures, the concrete one ensures of a state it
represents. -/
theorem Simulates.ensures {R : σ -> τ -> Prop} {x : Except ε (α × σ)}
    {y : Except ε (α × τ)} {Q : α -> τ -> Prop} {E : ε -> Prop}
    (h : Simulates R x y) (hy : Ensures y Q E) :
    Ensures x (fun r s => exists t, y = .ok (r, t) ∧ R s t ∧ Q r t) E := by
  cases h with
  | ok hst => exact ⟨_, rfl, hst, hy⟩
  | error => exact hy

theorem Simulates.outcome {R : σ -> τ -> Prop} {x : Except ε (α × σ)} {y : Except ε (α × τ)}
    (h : Simulates R x y) :
    Ensures x (fun r s => exists t, y = .ok (r, t) ∧ R s t) (fun e => y = .error e) := by
  cases h with
  | ok hst => exact ⟨_, rfl, hst⟩
  | error => exact rfl

/-- Two programs that simulate one abstract program simulate each other. -/
theorem Simulates.join {υ : Type} {R : σ -> τ -> Prop} {R' : υ -> τ -> Prop}
    {x : Except ε (α × σ)} {x' : Except ε (α × υ)} {y : Except ε (α × τ)}
    (h : Simulates R x y) (h' : Simulates R' x' y) :
    Simulates (fun s s' => exists t, R s t ∧ R' s' t) x x' := by
  cases h with
  | ok hst =>
      cases h' with
      | ok hst' => exact .ok ⟨_, hst, hst'⟩
  | error =>
      cases h' with
      | error => exact .error

end Exec

end Foundation
end ChunkMem
