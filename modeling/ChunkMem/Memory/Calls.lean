import ChunkMem.Memory.View

/-!
# Outcomes of system calls

What each allocator entry point can do: obtain a fresh allocation, report a
failure, or, with the pool installed, stop at the assertion of its refill.
-/

namespace ChunkMem

open Foundation

/-- The allocation table is in order. -/
structure Sane (s : Sys) : Prop where
  null : s.allocs 0 = none
  next_pos : 0 < s.next
  fresh : forall b, s.next ≤ b -> s.allocs b = none

/-- An assertion that fails because a system call did. -/
def Tolerated (env : Env) (e : Fault) : Prop := e = .assertion ∧ ¬env.AllOk

namespace World

def skipped (w : World) : World := { w with sys := w.sys.skip }

/-- A call that yielded a fresh allocation with the given contents. -/
def obtained (w : World) (kind : AllocKind) (size : Nat) (m : Bits) : World :=
  { (w.setBits w.sys.next m) with sys := w.sys.obtain kind size }

def released (w : World) (blk : Nat) : World := { w with sys := w.sys.erase blk }

def freshPtr (w : World) : Ptr := ⟨w.sys.next, 0⟩

section

variable (w : World) (kind : AllocKind) (size : Nat) (m : Bits)

@[simp] theorem skipped_index : w.skipped.index = w.index := rfl
@[simp] theorem skipped_bits : w.skipped.bits = w.bits := rfl
@[simp] theorem skipped_allocs : w.skipped.sys.allocs = w.sys.allocs := rfl
@[simp] theorem obtained_index : (w.obtained kind size m).index = w.index := rfl
@[simp] theorem released_index (blk : Nat) : (w.released blk).index = w.index := rfl
@[simp] theorem released_bits (blk : Nat) : (w.released blk).bits = w.bits := rfl

@[simp] theorem obtained_allocs_self :
    (w.obtained kind size m).sys.allocs w.sys.next = some ⟨kind, size⟩ := by
  simp [obtained, Sys.obtain]

theorem obtained_allocs_other {b : Nat} (hb : b ≠ w.sys.next) :
    (w.obtained kind size m).sys.allocs b = w.sys.allocs b := by
  simp [obtained, Sys.obtain, hb]

@[simp] theorem obtained_bits_self : (w.obtained kind size m).bits w.sys.next = m := by
  simp [obtained, setBits]

theorem obtained_bits_other {b : Nat} (hb : b ≠ w.sys.next) :
    (w.obtained kind size m).bits b = w.bits b := by
  simp [obtained, setBits, hb]

@[simp] theorem view_obtained_self : (w.obtained kind size m).view w.freshPtr = m := by
  funext j
  simp [view, freshPtr]

/-- Memory that is still fresh is replaced as if it had been handed out so. -/
theorem obtained_setView (m' : Bits) :
    (w.obtained kind size m).setView w.freshPtr m' = w.obtained kind size m' := by
  unfold obtained setView setBits freshPtr
  simp

theorem obtained_inside {n o : Nat} (h : 8 * o + n ≤ 8 * size) :
    (w.obtained kind size m).sys.Inside (w.freshPtr.add o) n := by
  refine ⟨⟨kind, size⟩, obtained_allocs_self w kind size m, ?_⟩
  simp only [freshPtr, Ptr.add]
  omega

@[simp] theorem released_allocs_self (blk : Nat) :
    (w.released blk).sys.allocs blk = none := by
  simp [released, Sys.erase]

theorem released_allocs_other {blk b : Nat} (hb : b ≠ blk) :
    (w.released blk).sys.allocs b = w.sys.allocs b := by
  simp [released, Sys.erase, hb]

end

end World

namespace Sane

variable {w : World}

theorem skipped (h : Sane w.sys) : Sane w.skipped.sys := ⟨h.null, h.next_pos, h.fresh⟩

theorem obtained (h : Sane w.sys) (kind : AllocKind) (size : Nat) (m : Bits) :
    Sane (w.obtained kind size m).sys := by
  have hpos := h.next_pos
  constructor
  · rw [World.obtained_allocs_other _ _ _ _ (by omega)]
    exact h.null
  · exact Nat.succ_pos _
  · intro b hb
    have hb' : w.sys.next + 1 ≤ b := hb
    rw [World.obtained_allocs_other _ _ _ _ (by omega)]
    exact h.fresh b (by omega)

theorem released (h : Sane w.sys) (blk : Nat) : Sane (w.released blk).sys := by
  have hnone : forall b, w.sys.allocs b = none -> (w.released blk).sys.allocs b = none := by
    intro b hb
    by_cases heq : b = blk
    · rw [heq]
      exact World.released_allocs_self w blk
    · rw [World.released_allocs_other w heq]
      exact hb
  exact ⟨hnone _ h.null, h.next_pos, fun b hb => hnone b (h.fresh b hb)⟩

theorem freshPtr_ne_null (h : Sane w.sys) : w.freshPtr ≠ Ptr.null := by
  intro heq
  have hblk : w.sys.next = 0 := congrArg Ptr.blk heq
  have := h.next_pos
  omega

theorem ne_next (h : Sane w.sys) {b : Nat} {a : Allocation} (hb : w.sys.allocs b = some a) :
    b ≠ w.sys.next := by
  intro heq
  rw [heq, h.fresh _ (Nat.le_refl _)] at hb
  cases hb

end Sane

section Calls

variable {env : Env} {w : World}

theorem not_allOk {k : Nat} (h : env.ok k ≠ true) : ¬env.AllOk := fun hall => h (hall k)

theorem obtain_cases (env : Env) (w : World) (kind : AllocKind) (size : Nat) (m : Bits) :
    (obtain env kind size m w = .ok (w.freshPtr, w.obtained kind size m)) ∨
      (¬env.AllOk ∧ obtain env kind size m w = .ok (Ptr.null, w.skipped)) := by
  unfold obtain
  by_cases hok : env.ok w.sys.tick = true
  · rw [if_pos hok]
    exact Or.inl rfl
  · rw [if_neg hok]
    exact Or.inr ⟨not_allOk hok, rfl⟩

theorem allocate_ensures (hw : Sane w.sys) {size : Nat}
    (hsize : env.memalign = true -> size ≤ chkMaxChksize) :
    Exec.Ensures (allocate env size w)
      (fun p w' => (p = w.freshPtr ∧
          w' = w.obtained .chunk (env.chunkBufSize size) Bits.zero) ∨
        (p = Ptr.null ∧ ¬env.AllOk ∧ w' = w.skipped))
      (Tolerated env) := by
  unfold allocate
  rw [Exec.bind_of_ok (Exec.require_of hsize _ _)]
  rcases obtain_cases env w .chunk (env.chunkBufSize size) Bits.zero with hrun | ⟨hfail, hrun⟩
  · rw [Exec.bind_of_ok hrun,
      Exec.bind_of_ok (Exec.require_of (fun _ => hw.freshPtr_ne_null) _ _)]
    exact Or.inl ⟨rfl, rfl⟩
  · rw [Exec.bind_of_ok hrun]
    by_cases hm : env.memalign = true
    · rw [Exec.bind_of_error (Exec.require_of_not (fun h => h hm rfl) _ _)]
      exact ⟨rfl, hfail⟩
    · rw [Exec.bind_of_ok (Exec.require_of (fun h => absurd h hm) _ _)]
      exact Or.inr ⟨rfl, hfail, rfl⟩

/-- Without the pool an allocation succeeds exactly when its system call does. -/
theorem allocate_plain (w : World) (hm : ¬env.memalign = true) (size : Nat) :
    allocate env size w =
      if env.ok w.sys.tick = true then
        .ok (w.freshPtr, w.obtained .chunk (env.chunkBufSize size) Bits.zero)
      else .ok (Ptr.null, w.skipped) := by
  unfold allocate
  rw [Exec.bind_of_ok (Exec.require_of (fun h => absurd h hm) _ _)]
  by_cases hok : env.ok w.sys.tick = true
  · have hrun : obtain env .chunk (env.chunkBufSize size) Bits.zero w =
        .ok (w.freshPtr, w.obtained .chunk (env.chunkBufSize size) Bits.zero) := if_pos hok
    rw [if_pos hok, Exec.bind_of_ok hrun,
      Exec.bind_of_ok (Exec.require_of (fun h => absurd h hm) _ _)]
    rfl
  · have hrun : obtain env .chunk (env.chunkBufSize size) Bits.zero w =
        .ok (Ptr.null, w.skipped) := if_neg hok
    rw [if_neg hok, Exec.bind_of_ok hrun,
      Exec.bind_of_ok (Exec.require_of (fun h => absurd h hm) _ _)]
    rfl

theorem release_ok {kind : AllocKind} {p : Ptr} (h : w.sys.Owns kind p) :
    release kind p w = .ok ((), w.released p.blk) := by
  unfold release
  rw [Exec.bind_of_ok (Exec.state_apply _), Exec.bind_of_ok (Exec.require_of h _ _)]
  rfl

theorem release_bad {kind : AllocKind} {p : Ptr} (h : ¬w.sys.Owns kind p) :
    release kind p w = .error .badRelease := by
  unfold release
  rw [Exec.bind_of_ok (Exec.state_apply _), Exec.bind_of_error (Exec.require_of_not h _ _)]

theorem dellocate_ok {p : Ptr} {size : Nat} (h : w.sys.Owns .chunk p)
    (hsize : env.memalign = true -> size ≤ chkMaxChksize) :
    dellocate env p size w = .ok ((), w.released p.blk) := by
  unfold dellocate
  rw [Exec.bind_of_ok (Exec.require_of hsize _ _)]
  exact release_ok h

theorem sysCall_cases (env : Env) (w : World) :
    sysCall env w = .ok (true, w.skipped) ∨
      (¬env.AllOk ∧ sysCall env w = .ok (false, w.skipped)) := by
  unfold sysCall
  by_cases hok : env.ok w.sys.tick = true
  · rw [hok]
    exact Or.inl rfl
  · refine Or.inr ⟨not_allOk hok, ?_⟩
    rw [Bool.eq_false_iff.mpr hok]
    rfl

end Calls

/-!
## The chunk table
-/

theorem getIndex_apply (w : World) : getIndex w = .ok (w.index, w) := rfl

theorem readChkAddr_of {w : World} {i : Nat} (h : i < w.index.chkAddrSize) :
    readChkAddr i w = .ok (w.index.chkAddr i, w) := by
  unfold readChkAddr
  rw [Exec.bind_of_ok (getIndex_apply w), Exec.bind_of_ok (Exec.require_of h _ _)]
  rfl

theorem writeChkAddr_of {w : World} {i : Nat} (h : i < w.index.chkAddrSize) (p : Ptr) :
    writeChkAddr i p w = .ok ((), { w with
      index := { w.index with chkAddr := Function.update w.index.chkAddr i p } }) := by
  unfold writeChkAddr
  rw [Exec.bind_of_ok (getIndex_apply w), Exec.bind_of_ok (Exec.require_of h _ _)]
  rfl

end ChunkMem
