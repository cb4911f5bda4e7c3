import ChunkMem.Memory.World

/-!
# Memory seen from an address

The memory from an address on, with bit zero at that address.  Loads and stores
at an offset read and change this view; whatever lies in front of the address,
or in another allocation, stays.
-/

namespace ChunkMem

open Foundation

namespace World

/-- The bits from the address `p` on. -/
def view (w : World) (p : Ptr) : Bits := (w.bits p.blk).drop (8 * p.off)

/-- Replace the bits from the address `p` on. -/
def setView (w : World) (p : Ptr) (m : Bits) : World :=
  w.setBits p.blk fun j =>
    if 8 * p.off ≤ j then m (j - 8 * p.off) else w.bits p.blk j

section

variable (w : World) (p : Ptr) (m : Bits)

@[simp] theorem setView_sys : (w.setView p m).sys = w.sys := rfl

@[simp] theorem setView_index : (w.setView p m).index = w.index := rfl

@[simp] theorem view_setView : (w.setView p m).view p = m := by
  funext j
  simp [view, setView, setBits]

theorem setView_setView (m' : Bits) : (w.setView p m).setView p m' = w.setView p m' := by
  unfold setView setBits
  simp only [Function.update_self, Function.update_idem]
  congr 2
  funext j
  split <;> rfl

theorem setView_bits_other {b : Nat} (hb : b ≠ p.blk) :
    (w.setView p m).bits b = w.bits b := by
  simp [setView, setBits, hb]

/-- A replacement of an allocation that keeps what lies in front of the
address. -/
theorem setBits_eq_setView {m' : Bits}
    (h : forall j, j < 8 * p.off -> m' j = w.bits p.blk j) :
    w.setBits p.blk m' = w.setView p (m'.drop (8 * p.off)) := by
  unfold setView
  congr 1
  funext j
  by_cases hj : 8 * p.off ≤ j
  · rw [if_pos hj, Bits.drop_apply, Nat.add_sub_cancel' hj]
  · rw [if_neg hj, h j (by omega)]

end

theorem view_setView_apart {w : World} {p q : Ptr} {m : Bits} {n j : Nat}
    (hin : forall i, n ≤ i -> m i = w.view p i)
    (h : q.blk ≠ p.blk ∨ 8 * q.off + j < 8 * p.off ∨ 8 * p.off + n ≤ 8 * q.off + j) :
    (w.setView p m).view q j = w.view q j := by
  by_cases hblk : q.blk = p.blk
  · unfold view setView setBits at *
    simp only [Bits.drop_apply] at hin ⊢
    rw [hblk, Function.update_self]
    split
    · next hle =>
        rw [hin _ (by omega)]
        congr 1
        omega
    · rfl
  · unfold view
    rw [setView_bits_other w p m hblk]

end World

/-!
## Accesses at an offset
-/

section Access

variable {w : World} {p : Ptr} {o : Nat}

theorem access_at {n : Nat} (h : w.sys.Inside (p.add o) n) :
    access (p.add o) n w = .ok ((), w) := by
  unfold access
  rw [if_pos h]

theorem load_at {f : Field} (h : w.sys.Inside (p.add o) (f.pos + f.width)) :
    load (p.add o) f w = .ok ((w.view p).read (8 * o + f.pos) f.width, w) := by
  unfold load
  rw [Exec.bind_of_ok (access_at h), Exec.bind_of_ok (Exec.state_apply _),
    Exec.pure_apply]
  unfold World.view
  rw [Bits.read_drop]
  simp only [Ptr.add]
  rw [Nat.mul_add, ← Nat.add_assoc]

theorem loadPtr_at (h : w.sys.Inside (p.add o) 32) :
    loadPtr (p.add o) w = .ok ((w.view p).readPtr (8 * o), w) := by
  unfold loadPtr
  rw [Exec.bind_of_ok (access_at h), Exec.bind_of_ok (Exec.state_apply _),
    Exec.pure_apply]
  unfold World.view
  rw [Bits.readPtr_drop]
  simp only [Ptr.add]
  rw [Nat.mul_add]

theorem loadBytes_at {n : Nat} (h : w.sys.Inside (p.add o) (8 * n)) :
    loadBytes (p.add o) n w = .ok ((w.view p).bytes o n, w) := by
  unfold loadBytes
  rw [Exec.bind_of_ok (access_at h), Exec.bind_of_ok (Exec.state_apply _),
    Exec.pure_apply]
  unfold World.view
  rw [Bits.bytes_drop]
  rfl

theorem store_at {f : Field} (h : w.sys.Inside (p.add o) (f.pos + f.width)) (v : Nat) :
    store (p.add o) f v w =
      .ok ((), w.setView p ((w.view p).write (8 * o + f.pos) f.width v)) := by
  unfold store
  rw [Exec.bind_of_ok (access_at h), Exec.update_apply]
  simp only [Ptr.add]
  rw [World.setBits_eq_setView]
  · rw [Nat.mul_add, Nat.add_assoc, Bits.drop_write]
    rfl
  · intro j hj
    exact Bits.write_outside (by omega)

theorem storePtr_at (h : w.sys.Inside (p.add o) 32) (v : ChkPtr) :
    storePtr (p.add o) v w =
      .ok ((), w.setView p ((w.view p).writePtr (8 * o) v)) := by
  unfold storePtr
  rw [Exec.bind_of_ok (access_at h), Exec.update_apply]
  simp only [Ptr.add]
  rw [World.setBits_eq_setView]
  · rw [Nat.mul_add, Bits.drop_writePtr]
    rfl
  · intro j hj
    exact Bits.writePtr_outside (by omega)

theorem bzero_at {n : Nat} (h : w.sys.Inside (p.add o) (8 * n)) :
    bzero (p.add o) n w =
      .ok ((), w.setView p ((w.view p).clear (8 * o) (8 * n))) := by
  unfold bzero
  rw [Exec.bind_of_ok (access_at h), Exec.update_apply]
  simp only [Ptr.add]
  rw [World.setBits_eq_setView]
  · rw [Nat.mul_add, Bits.drop_clear]
    rfl
  · intro j hj
    exact Bits.clear_outside (by omega)

theorem storeBytes_at {l : List Byte} (h : w.sys.Inside (p.add o) (8 * l.length)) :
    storeBytes (p.add o) l w =
      .ok ((), w.setView p ((w.view p).writeBytes o l)) := by
  unfold storeBytes
  rw [Exec.bind_of_ok (access_at h), Exec.update_apply]
  simp only [Ptr.add]
  rw [World.setBits_eq_setView]
  · rw [Bits.drop_writeBytes]
    rfl
  · intro j hj
    exact Bits.writeBytes_outside (by omega)

theorem memcpy_at {q : Ptr} {n : Nat} (hsrc : w.sys.Inside q (8 * n))
    (hdst : w.sys.Inside p (8 * n)) :
    memcpy p q n w =
      .ok ((), w.setView p ((w.view p).copy 0 (w.view q) 0 (8 * n))) := by
  have hsrc' : access q (8 * n) w = .ok ((), w) := access_at (o := 0) hsrc
  have hdst' : access p (8 * n) w = .ok ((), w) := access_at (o := 0) hdst
  unfold memcpy
  rw [Exec.bind_of_ok hsrc', Exec.bind_of_ok hdst', Exec.update_apply,
    World.setBits_eq_setView]
  · congr 3
    funext j
    unfold World.view Bits.copy
    simp only [Bits.drop_apply]
    by_cases hj : j < 8 * n
    · rw [if_pos (by omega), if_pos (by omega)]
      congr 1
      omega
    · rw [if_neg (by omega), if_neg (by omega)]
  · intro j hj
    exact Bits.copy_outside (by omega)

end Access

end ChunkMem
