import Mathlib.Data.Nat.Bitwise
import Mathlib.Tactic

/-!
# Bit-addressed memory

A memory is a function from bit addresses to bits.  A field of width `w`
at address `a` holds a natural number below `2 ^ w`, least
significant bit first, so that byte `a` occupies the bit addresses
`8 * a` to `8 * a + 7` and a little-endian word or bit field of any
width is one field.  Writing a field truncates, as an assignment to a bit field
does.
-/

namespace ChunkMem
namespace Foundation

abbrev Bits := Nat -> Bool

namespace Bits

/-- The number stored in the `w` bits from `a` on. -/
def read (m : Bits) (a w : Nat) : Nat :=
  Nat.ofBits (fun i : Fin w => m (a + i))

/-- Store the low `w` bits of `v` from `a` on. -/
def write (m : Bits) (a w v : Nat) : Bits := fun j =>
  if a ≤ j ∧ j < a + w then v.testBit (j - a) else m j

/-- Overwrite the `n` bits from `d` on by the `n` bits of `src` from `s` on. -/
def copy (m : Bits) (d : Nat) (src : Bits) (s n : Nat) : Bits := fun j =>
  if d ≤ j ∧ j < d + n then src (s + (j - d)) else m j

/-- Reset the `n` bits from `a` on. -/
def clear (m : Bits) (a n : Nat) : Bits := fun j =>
  if a ≤ j ∧ j < a + n then false else m j

def zero : Bits := fun _ => false

/-!
## Reading
-/

theorem testBit_read (m : Bits) (a w i : Nat) :
    (read m a w).testBit i = (decide (i < w) && m (a + i)) := by
  unfold read
  rw [Nat.testBit_ofBits]
  by_cases h : i < w <;> simp [h]

theorem read_lt (m : Bits) (a w : Nat) : read m a w < 2 ^ w :=
  Nat.ofBits_lt_two_pow _

theorem read_congr {m m' : Bits} {a a' w : Nat}
    (h : forall i, i < w -> m (a + i) = m' (a' + i)) :
    read m a w = read m' a' w := by
  apply Nat.eq_of_testBit_eq
  intro i
  rw [testBit_read, testBit_read]
  by_cases hi : i < w
  · rw [h i hi]
  · simp [hi]

theorem bit_eq_of_read_eq {m m' : Bits} {a a' w i : Nat}
    (h : read m a w = read m' a' w) (hi : i < w) :
    m (a + i) = m' (a' + i) := by
  have hbit := congrArg (fun v => v.testBit i) h
  simpa [testBit_read, hi] using hbit

@[simp] theorem read_zero (a w : Nat) : read zero a w = 0 := by
  apply Nat.eq_of_testBit_eq
  intro i
  simp [testBit_read, zero]

theorem read_eq_zero {m : Bits} {a w : Nat}
    (h : forall i, i < w -> m (a + i) = false) : read m a w = 0 := by
  rw [← read_zero a w]
  exact read_congr h

/-!
## Writing
-/

theorem write_inside {m : Bits} {a w v j : Nat} (h1 : a ≤ j) (h2 : j < a + w) :
    write m a w v j = v.testBit (j - a) := by
  simp [write, h1, h2]

theorem write_outside {m : Bits} {a w v j : Nat} (h : j < a ∨ a + w ≤ j) :
    write m a w v j = m j := by
  unfold write
  rw [if_neg (by omega)]

theorem write_mod (m : Bits) (a w v : Nat) : m.write a w v = m.write a w (v % 2 ^ w) := by
  funext j
  unfold write
  split
  · next h =>
      rw [Nat.testBit_mod_two_pow, decide_eq_true (by omega), Bool.true_and]
  · rfl

theorem write_congr {m m' : Bits} {a w v j : Nat}
    (h : ¬(a ≤ j ∧ j < a + w) -> m j = m' j) : write m a w v j = write m' a w v j := by
  unfold write
  split
  · rfl
  · next hout => exact h hout

theorem read_write_same (m : Bits) (a w v : Nat) :
    read (write m a w v) a w = v % 2 ^ w := by
  apply Nat.eq_of_testBit_eq
  intro i
  rw [testBit_read, Nat.testBit_mod_two_pow]
  by_cases hi : i < w
  · rw [write_inside (by omega) (by omega), Nat.add_sub_cancel_left]
  · simp [hi]

theorem read_write_of_lt {m : Bits} {a w v : Nat} (h : v < 2 ^ w) :
    read (write m a w v) a w = v := by
  rw [read_write_same, Nat.mod_eq_of_lt h]

theorem read_write_disjoint {m : Bits} {a w b w' v : Nat}
    (h : b + w' ≤ a ∨ a + w ≤ b) :
    read (write m b w' v) a w = read m a w := by
  apply read_congr
  intro i hi
  exact write_outside (by omega)

/-!
## Copying and clearing
-/

theorem copy_inside {m src : Bits} {d s n j : Nat} (h1 : d ≤ j) (h2 : j < d + n) :
    copy m d src s n j = src (s + (j - d)) := by
  simp [copy, h1, h2]

theorem copy_outside {m src : Bits} {d s n j : Nat} (h : j < d ∨ d + n ≤ j) :
    copy m d src s n j = m j := by
  unfold copy
  rw [if_neg (by omega)]

theorem clear_inside {m : Bits} {a n j : Nat} (h1 : a ≤ j) (h2 : j < a + n) :
    clear m a n j = false := by
  simp [clear, h1, h2]

theorem clear_outside {m : Bits} {a n j : Nat} (h : j < a ∨ a + n ≤ j) :
    clear m a n j = m j := by
  unfold clear
  rw [if_neg (by omega)]

/-!
## Change of origin
-/

/-- The memory seen from the bit address `a` on. -/
def drop (m : Bits) (a : Nat) : Bits := fun j => m (a + j)

@[simp] theorem drop_apply (m : Bits) (a j : Nat) : m.drop a j = m (a + j) := rfl

theorem read_drop (m : Bits) (a x w : Nat) : (m.drop a).read x w = m.read (a + x) w :=
  read_congr fun i _ => by rw [drop_apply, Nat.add_assoc]

theorem drop_write (m : Bits) (a x w v : Nat) :
    (m.write (a + x) w v).drop a = (m.drop a).write x w v := by
  funext j
  unfold write
  simp only [drop_apply]
  by_cases h : x ≤ j ∧ j < x + w
  · rw [if_pos (by omega), if_pos h, Nat.add_sub_add_left]
  · rw [if_neg (by omega), if_neg h]

theorem drop_clear (m : Bits) (a x n : Nat) :
    (m.clear (a + x) n).drop a = (m.drop a).clear x n := by
  funext j
  unfold clear
  simp only [drop_apply]
  by_cases h : x ≤ j ∧ j < x + n
  · rw [if_pos (by omega), if_pos h]
  · rw [if_neg (by omega), if_neg h]

theorem drop_copy (m : Bits) (a x : Nat) (src : Bits) (s n : Nat) :
    (m.copy (a + x) src s n).drop a = (m.drop a).copy x src s n := by
  funext j
  unfold copy
  simp only [drop_apply]
  by_cases h : x ≤ j ∧ j < x + n
  · rw [if_pos (by omega), if_pos h, Nat.add_sub_add_left]
  · rw [if_neg (by omega), if_neg h]

end Bits

/-!
## Bytes
-/

abbrev Byte := BitVec 8

namespace Bits

/-- The byte at byte address `a`. -/
def byte (m : Bits) (a : Nat) : Byte := BitVec.ofNat 8 (read m (8 * a) 8)

/-- The `n` bytes from byte address `a` on. -/
def bytes (m : Bits) (a n : Nat) : List Byte :=
  (List.range n).map fun i => byte m (a + i)

/-- The memory that holds a list of bytes from address zero on. -/
def ofBytes (l : List Byte) : Bits := fun j =>
  (l.getD (j / 8) 0).getLsbD (j % 8)

/-- Store a list of bytes from byte address `a` on. -/
def writeBytes (m : Bits) (a : Nat) (l : List Byte) : Bits :=
  copy m (8 * a) (ofBytes l) 0 (8 * l.length)

theorem getLsbD_byte {m : Bits} {a i : Nat} (h : i < 8) :
    (byte m a).getLsbD i = m (8 * a + i) := by
  unfold byte
  rw [BitVec.getLsbD_ofNat, testBit_read]
  simp [h]

@[simp] theorem length_bytes (m : Bits) (a n : Nat) : (bytes m a n).length = n := by
  simp [bytes]

theorem byte_congr {m m' : Bits} {a a' : Nat}
    (h : forall i, i < 8 -> m (8 * a + i) = m' (8 * a' + i)) :
    byte m a = byte m' a' := by
  unfold byte
  rw [read_congr h]

theorem bytes_congr {m m' : Bits} {a a' n : Nat}
    (h : forall i, i < 8 * n -> m (8 * a + i) = m' (8 * a' + i)) :
    bytes m a n = bytes m' a' n := by
  apply List.map_congr_left
  intro k hk
  have hk' : k < n := List.mem_range.mp hk
  apply byte_congr
  intro i hi
  have := h (8 * k + i) (by omega)
  rwa [show 8 * (a + k) + i = 8 * a + (8 * k + i) by omega,
    show 8 * (a' + k) + i = 8 * a' + (8 * k + i) by omega]

theorem ofBytes_bytes {m : Bits} {a n j : Nat} (h : j < 8 * n) :
    ofBytes (bytes m a n) j = m (8 * a + j) := by
  have hlen : j / 8 < n := by omega
  unfold ofBytes bytes
  rw [List.getD_eq_getElem?_getD]
  simp only [List.getElem?_map, List.getElem?_range hlen, Option.map_some,
    Option.getD_some]
  rw [getLsbD_byte (by omega)]
  congr 1
  omega

theorem ofBytes_append {l l' : List Byte} (j : Nat) :
    ofBytes (l ++ l') j =
      if j < 8 * l.length then ofBytes l j else ofBytes l' (j - 8 * l.length) := by
  unfold ofBytes
  by_cases h : j < 8 * l.length
  · rw [if_pos h, List.getD_append _ _ _ _ (by omega)]
  · rw [if_neg h, List.getD_append_right _ _ _ _ (by omega),
      show (j - 8 * l.length) / 8 = j / 8 - l.length by omega,
      show (j - 8 * l.length) % 8 = j % 8 by omega]

theorem writeBytes_inside {m : Bits} {a j : Nat} {l : List Byte}
    (h1 : 8 * a ≤ j) (h2 : j < 8 * a + 8 * l.length) :
    writeBytes m a l j = ofBytes l (j - 8 * a) := by
  unfold writeBytes
  rw [copy_inside h1 h2, Nat.zero_add]

theorem writeBytes_outside {m : Bits} {a j : Nat} {l : List Byte}
    (h : j < 8 * a ∨ 8 * a + 8 * l.length ≤ j) :
    writeBytes m a l j = m j :=
  copy_outside h

theorem drop_writeBytes (m : Bits) (a x : Nat) (l : List Byte) :
    (m.writeBytes (a + x) l).drop (8 * a) = (m.drop (8 * a)).writeBytes x l := by
  unfold writeBytes
  rw [Nat.mul_add]
  exact drop_copy m _ _ _ _ _

theorem bytes_drop (m : Bits) (a x n : Nat) :
    (m.drop (8 * a)).bytes x n = m.bytes (a + x) n :=
  bytes_congr fun i _ => by rw [drop_apply, Nat.mul_add, Nat.add_assoc]

theorem bytes_ofBytes (l : List Byte) : bytes (ofBytes l) 0 l.length = l := by
  apply List.ext_getElem (by simp)
  intro k hk hk'
  apply BitVec.eq_of_getLsbD_eq
  intro i hi
  simp only [bytes, List.getElem_map, List.getElem_range, Nat.zero_add]
  rw [getLsbD_byte hi]
  unfold ofBytes
  rw [show (8 * k + i) / 8 = k by omega, show (8 * k + i) % 8 = i by omega,
    List.getD_eq_getElem _ _ hk']

theorem bytes_writeBytes (m : Bits) (a : Nat) (l : List Byte) :
    bytes (writeBytes m a l) a l.length = l := by
  have h : bytes (writeBytes m a l) a l.length =
      bytes (ofBytes l) 0 l.length := by
    apply bytes_congr
    intro i hi
    rw [writeBytes_inside (by omega) (by omega)]
    congr 1
    omega
  rw [h, bytes_ofBytes]

theorem bytes_writeBytes_outside {m : Bits} {a n pos : Nat} {l : List Byte}
    (h : a + n ≤ pos ∨ pos + l.length ≤ a) :
    bytes (writeBytes m pos l) a n = bytes m a n :=
  bytes_congr fun _ _ => writeBytes_outside (by omega)

theorem take_bytes (m : Bits) (a n k : Nat) :
    (bytes m a n).take k = bytes m a (min k n) := by
  unfold bytes
  rw [← List.map_take, List.take_range]

theorem bytes_append (m : Bits) (a n k : Nat) :
    bytes m a (n + k) = bytes m a n ++ bytes m (a + n) k := by
  unfold bytes
  rw [List.range_add, List.map_append, List.map_map]
  congr 1
  apply List.map_congr_left
  intro i _
  simp [Nat.add_assoc]

end Bits

end Foundation
end ChunkMem
