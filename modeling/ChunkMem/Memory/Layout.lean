import ChunkMem.Foundation.Bits

/-!
# Units, pointers and record layouts

Sizes come in three units: bytes, 4-byte offsets and 8-byte sizes; capacities
count kilobytes.  The conversions keep the names of the macros of
`chk_base.h`.  Bit fields are laid out from the least significant bit of a
little-endian word upwards.
-/

namespace ChunkMem

open Foundation

/-!
## Units
-/

def chkMagic : Nat := 0x128fcd6e

def chkPadding : Nat := 0x208f2d75

/-- `CHK_SIZE`: 8-byte units to bytes. -/
@[simp] def chkSize (a : Nat) : Nat := a * 8

/-- `SET_CHK_SIZE`: bytes to 8-byte units. -/
@[simp] def setChkSize (a : Nat) : Nat := a / 8

/-- `CHK_OFFSET`: 4-byte units to bytes. -/
@[simp] def chkOffset (a : Nat) : Nat := a * 4

/-- `SET_CHK_OFFSET`: bytes to 4-byte units. -/
@[simp] def setChkOffset (a : Nat) : Nat := a / 4

@[simp] def chkSize2Offset (a : Nat) : Nat := a * 2

@[simp] def chkOffset2Size (a : Nat) : Nat := a / 2

/-- `CHK_CAPACITY`: kilobytes to bytes. -/
@[simp] def chkCapacity (a : Nat) : Nat := a * 1024

/-- `SET_CHK_CAPACITY`: bytes to kilobytes. -/
@[simp] def setChkCapacity (a : Nat) : Nat := a / 1024

/-- `CHK_MAX_CONTINUS_LEN`: the longest block a 9-bit size can name. -/
@[simp] def chkMaxContinusLen : Nat := chkSize (2 ^ 9 - 1)

/-- `CHK_MAX_CHK_NUM`, which is also the chunk number of a null pointer. -/
@[simp] def chkMaxChkNum : Nat := 2 ^ 11 - 1

/-- `ChkMetadata::chk_mem_sizes`. -/
def chkMemSizes : List Nat := [1024, 2048, 4096, 8192, 12288, 16384]

/-- `CHK_MAX_CHKSIZE`: the last entry of the size table. -/
@[simp] def chkMaxChksize : Nat := 16384

/-- The value of an integer expression kept in an `int`. -/
def wrapInt (x : Int) : Int := (x + 2 ^ 31) % 2 ^ 32 - 2 ^ 31

/-- An `int` converted to `size_t`. -/
def toSizeT (x : Int) : Nat := (x % 2 ^ 64).toNat

/-- `chk_align_def` on an `int`. -/
def chkAlignDefInt (d : Int) : Int := wrapInt (d + 7) / 8 * 8

/-- `chk_align_def` on a `size_t`. -/
def chkAlignDef (d : Nat) : Nat := (d + 7) % 2 ^ 64 / 8 * 8

/-- `chk_align_capaicty`: up to the next kilobyte. -/
def chkAlignCapaicty (d : Nat) : Nat := (d + 1023) % 2 ^ 64 / 1024 * 1024

/-!
## Chunk pointers
-/

/-- `ChkPtr`: chunk number (11 bits), offset in 4-byte units (12 bits) and
size in 8-byte units (9 bits). -/
structure ChkPtr where
  chkNo : Nat
  offset : Nat
  size : Nat
deriving DecidableEq, Repr

def chkNull : ChkPtr := ⟨chkMaxChkNum, 0, 0⟩

namespace ChkPtr

def IsNull (p : ChkPtr) : Prop := p.chkNo = chkMaxChkNum

instance (p : ChkPtr) : Decidable p.IsNull :=
  inferInstanceAs (Decidable (p.chkNo = chkMaxChkNum))

/-- `ChkPtr::add`, in bytes; the field keeps 12 bits. -/
def add (p : ChkPtr) (offset : Nat) : ChkPtr :=
  { p with offset := (p.offset + setChkOffset offset) % 2 ^ 12 }

end ChkPtr

/-- The chunk pointer stored in the 32 bits from `a` on. -/
def Foundation.Bits.readPtr (m : Bits) (a : Nat) : ChkPtr :=
  ⟨m.read a 11, m.read (a + 11) 12, m.read (a + 23) 9⟩

/-- Store a chunk pointer in the 32 bits from `a` on. -/
def Foundation.Bits.writePtr (m : Bits) (a : Nat) (p : ChkPtr) : Bits :=
  ((m.write a 11 p.chkNo).write (a + 11) 12 p.offset).write (a + 23) 9 p.size

/-!
## Record fields
-/

/-- A field of a record: its first bit and its width. -/
structure Field where
  pos : Nat
  width : Nat

namespace ChkMetadata

def magic : Field := ⟨0, 32⟩
def capacity : Field := ⟨32, 5⟩
def used : Field := ⟨40, 12⟩
def virgin : Field := ⟨52, 12⟩
def no : Field := ⟨64, 11⟩
def allocCapacity : Field := ⟨75, 16⟩
def padding3 : Field := ⟨96, 32⟩

/-- `sizeof(ChkMetadata)`. -/
def sizeOf : Nat := 16

end ChkMetadata

namespace ChkMemMgr

def totalUsed : Field := ⟨0, 32⟩
def totalFree : Field := ⟨32, 32⟩
def totalCapacity : Field := ⟨64, 16⟩
def free0 : Field := ⟨80, 4⟩
def free1 : Field := ⟨84, 5⟩
def free2 : Field := ⟨89, 7⟩

/-- Byte offset of `_free_list[i]`. -/
def freeListOff (i : Nat) : Nat := 12 + 4 * i

/-- `sizeof(ChkMemMgr)`. -/
def sizeOf : Nat := 24

instance classes_ne_zero : NeZero 3 := ⟨Nat.succ_ne_zero 2⟩

end ChkMemMgr

/-!
## Pointer words
-/

namespace Foundation.Bits

theorem readPtr_congr {m m' : Bits} {a a' : Nat}
    (h : forall i, i < 32 -> m (a + i) = m' (a' + i)) :
    m.readPtr a = m'.readPtr a' := by
  unfold readPtr
  have h1 : m.read a 11 = m'.read a' 11 :=
    read_congr fun i hi => h i (by omega)
  have h2 : m.read (a + 11) 12 = m'.read (a' + 11) 12 := by
    apply read_congr
    intro i hi
    simpa [Nat.add_assoc] using h (11 + i) (by omega)
  have h3 : m.read (a + 23) 9 = m'.read (a' + 23) 9 := by
    apply read_congr
    intro i hi
    simpa [Nat.add_assoc] using h (23 + i) (by omega)
  rw [h1, h2, h3]

theorem writePtr_outside {m : Bits} {a j : Nat} {p : ChkPtr}
    (h : j < a ∨ a + 32 ≤ j) : m.writePtr a p j = m j := by
  unfold writePtr
  rw [write_outside (by omega), write_outside (by omega),
    write_outside (by omega)]

theorem writePtr_inside (m m' : Bits) {a j : Nat} {p : ChkPtr} (h1 : a ≤ j)
    (h2 : j < a + 32) : m.writePtr a p j = m'.writePtr a p j := by
  unfold writePtr
  apply write_congr
  intro hsize
  apply write_congr
  intro hoffset
  apply write_congr
  intro hno
  omega

theorem readPtr_writePtr {m : Bits} {a : Nat} {p : ChkPtr}
    (h1 : p.chkNo < 2 ^ 11) (h2 : p.offset < 2 ^ 12) (h3 : p.size < 2 ^ 9) :
    (m.writePtr a p).readPtr a = p := by
  unfold writePtr readPtr
  have hno : (((m.write a 11 p.chkNo).write (a + 11) 12 p.offset).write
      (a + 23) 9 p.size).read a 11 = p.chkNo := by
    rw [read_write_disjoint (by omega), read_write_disjoint (by omega),
      read_write_of_lt h1]
  have hoff : (((m.write a 11 p.chkNo).write (a + 11) 12 p.offset).write
      (a + 23) 9 p.size).read (a + 11) 12 = p.offset := by
    rw [read_write_disjoint (by omega), read_write_of_lt h2]
  rw [hno, hoff, read_write_of_lt h3]

theorem readPtr_writePtr_disjoint {m : Bits} {a b : Nat} {p : ChkPtr}
    (h : b + 32 ≤ a ∨ a + 32 ≤ b) :
    (m.writePtr b p).readPtr a = m.readPtr a := by
  apply readPtr_congr
  intro i hi
  exact writePtr_outside (by omega)

theorem read_writePtr_disjoint {m : Bits} {a w b : Nat} {p : ChkPtr}
    (h : b + 32 ≤ a ∨ a + w ≤ b) : (m.writePtr b p).read a w = m.read a w := by
  apply read_congr
  intro i hi
  exact writePtr_outside (by omega)

theorem readPtr_drop (m : Bits) (a x : Nat) :
    (m.drop a).readPtr x = m.readPtr (a + x) :=
  readPtr_congr fun i _ => by rw [drop_apply, Nat.add_assoc]

theorem drop_writePtr (m : Bits) (a x : Nat) (p : ChkPtr) :
    (m.writePtr (a + x) p).drop a = (m.drop a).writePtr x p := by
  unfold writePtr
  rw [Nat.add_assoc a x 23, drop_write, Nat.add_assoc a x 11, drop_write, drop_write]

theorem readPtr_write_chkNo {m : Bits} {a v : Nat} (h : v < 2 ^ 11) :
    (m.write a 11 v).readPtr a = { m.readPtr a with chkNo := v } := by
  unfold readPtr
  rw [read_write_of_lt h, read_write_disjoint (by omega),
    read_write_disjoint (by omega)]

end Foundation.Bits

end ChunkMem
