import ChunkMem.Arena.Operations

/-!
# Contents in memory

When the bits of a chunk represent its content: the header fields, the user
memory, and in the first chunk the memory manager.  A chunk is looked at through
its own bits, counted from its first byte, so that nothing here depends on where
it lies.
-/

namespace ChunkMem

open Foundation

def mgrPos : Nat := 128

/-- The bits of one chunk represent a body; user memory up to the bit `hi`. -/
structure ChunkImage (b : Body) (cap k hi : Nat) (m : Bits) : Prop where
  magic : m.read 0 32 = chkMagic
  padding3 : m.read 96 32 = chkPadding
  capacity : m.read 32 5 = cap
  used : m.read 40 12 = b.used
  virgin : m.read 52 12 = b.virgin
  no : m.read 64 11 = k
  data : forall j, 64 * reserved k ≤ j -> j < hi -> m j = b.bits j

/-- The bits of the first chunk represent the memory manager. -/
structure MgrImage (cls : Fin 3 -> Nat) (c : Content) (m : Bits) : Prop where
  totalUsed : m.read mgrPos 32 = c.totalUsed
  totalFree : m.read (mgrPos + 32) 32 = c.totalFree
  free0 : m.read (mgrPos + 80) 4 = cls 0
  free1 : m.read (mgrPos + 84) 5 = cls 1
  free2 : m.read (mgrPos + 89) 7 = cls 2
  lists : forall i : Fin 3, m.readPtr (mgrPos + 96 + 32 * i) = headLink (c.lists i)

/-- After `v` was written to the `n` bits at `a`, a field of given place and width holds the
last value where it held the one before. -/
inductive FieldWrite (a n v : Nat) : Nat -> Nat -> Nat -> Nat -> Prop
  | self {old : Nat} (hv : v < 2 ^ n) : FieldWrite a n v a n old v
  | other {p w old : Nat} (h : a + n ≤ p ∨ p + w ≤ a) : FieldWrite a n v p w old old

theorem FieldWrite.read {a n v p w old new : Nat} {m : Bits} (h : FieldWrite a n v p w old new)
    (hold : m.read p w = old) : (m.write a n v).read p w = new := by
  cases h with
  | self hv => exact Bits.read_write_of_lt hv
  | other h => rw [Bits.read_write_disjoint (by omega), hold]

namespace ChunkImage

variable {b : Body} {cap k hi : Nat} {m m' : Bits}

theorem congr (h : ChunkImage b cap k hi m) (hhi : 128 ≤ hi)
    (heq : forall j, j < hi -> m' j = m j) : ChunkImage b cap k hi m' := by
  have hread : forall a w, a + w ≤ hi -> m'.read a w = m.read a w := fun a w ha =>
    Bits.read_congr fun i hi' => heq _ (by omega)
  constructor
  · rw [hread _ _ (by omega), h.magic]
  · rw [hread _ _ (by omega), h.padding3]
  · rw [hread _ _ (by omega), h.capacity]
  · rw [hread _ _ (by omega), h.used]
  · rw [hread _ _ (by omega), h.virgin]
  · rw [hread _ _ (by omega), h.no]
  · intro j hj1 hj2
    rw [heq j hj2]
    exact h.data j hj1 hj2

theorem mono {hi' : Nat} (h : ChunkImage b cap k hi m) (hle : hi' ≤ hi) :
    ChunkImage b cap k hi' m :=
  ⟨h.magic, h.padding3, h.capacity, h.used, h.virgin, h.no,
    fun j hj1 hj2 => h.data j hj1 (by omega)⟩

theorem user {b' : Body} {hi' : Nat} (h : ChunkImage b cap k hi m)
    (hhead : forall j, j < 128 -> m' j = m j) (hused : b'.used = b.used)
    (hvirgin : b'.virgin = b.virgin)
    (hdata : forall j, 64 * reserved k ≤ j -> j < hi' -> m' j = b'.bits j) :
    ChunkImage b' cap k hi' m' := by
  have hread : forall a w, a + w ≤ 128 -> m'.read a w = m.read a w := fun a w ha =>
    Bits.read_congr fun i hi' => hhead _ (by omega)
  constructor
  · rw [hread _ _ (by omega), h.magic]
  · rw [hread _ _ (by omega), h.padding3]
  · rw [hread _ _ (by omega), h.capacity]
  · rw [hread _ _ (by omega), h.used, hused]
  · rw [hread _ _ (by omega), h.virgin, hvirgin]
  · rw [hread _ _ (by omega), h.no]
  · exact hdata

theorem mgr (h : ChunkImage b cap k hi m) (hk : k = 0)
    (heq : forall j, j < mgrPos ∨ mgrPos + 192 ≤ j -> m' j = m j) :
    ChunkImage b cap k hi m' := by
  subst hk
  refine h.user (fun j hj => heq j (Or.inl (by unfold mgrPos; omega))) rfl rfl ?_
  intro j hj1 hj2
  have hr : reserved 0 = 5 := rfl
  rw [heq j (Or.inr (by unfold mgrPos; omega))]
  exact h.data j hj1 hj2

/-- A field behind the magic number is written; those the image shows hold what was there,
or the new value. -/
theorem field {a n v used virgin cap' : Nat} (h : ChunkImage b cap k hi m) (hlo : 32 ≤ a)
    (hhi : a + n ≤ 96) (hno : a + n ≤ 64 ∨ 75 ≤ a) (hcap : FieldWrite a n v 32 5 cap cap')
    (hused : FieldWrite a n v 40 12 b.used used)
    (hvirgin : FieldWrite a n v 52 12 b.virgin virgin) :
    ChunkImage { b with used := used, virgin := virgin } cap' k hi (m.write a n v) := by
  have hr := Content.reserved_ge k
  constructor
  · rw [Bits.read_write_disjoint (by omega), h.magic]
  · rw [Bits.read_write_disjoint (by omega), h.padding3]
  · exact hcap.read h.capacity
  · exact hused.read h.used
  · exact hvirgin.read h.virgin
  · rw [Bits.read_write_disjoint (by omega), h.no]
  · intro j hj1 hj2
    rw [Bits.write_outside (by omega)]
    exact h.data j hj1 hj2

theorem setUsed {u : Nat} (h : ChunkImage b cap k hi m) (hu : u < 2 ^ 12) :
    ChunkImage { b with used := u } cap k hi (m.write 40 12 u) :=
  h.field (by omega) (by omega) (by omega) (.other (by omega)) (.self hu) (.other (by omega))

theorem setVirgin {v : Nat} (h : ChunkImage b cap k hi m) (hv : v < 2 ^ 12) :
    ChunkImage { b with virgin := v } cap k hi (m.write 52 12 v) :=
  h.field (by omega) (by omega) (by omega) (.other (by omega)) (.other (by omega)) (.self hv)

theorem setCapacity {v : Nat} (h : ChunkImage b cap k hi m) (hv : v < 2 ^ 5) :
    ChunkImage b v k hi (m.write 32 5 v) :=
  h.field (by omega) (by omega) (by omega) (.self hv) (.other (by omega)) (.other (by omega))

theorem setAllocCapacity (h : ChunkImage b cap k hi m) (v : Nat) :
    ChunkImage b cap k hi (m.write 75 16 v) :=
  h.field (by omega) (by omega) (by omega) (.other (by omega)) (.other (by omega))
    (.other (by omega))

end ChunkImage

namespace MgrImage

variable {cls : Fin 3 -> Nat} {c : Content} {m m' : Bits}

theorem congr {c' : Content} (h : MgrImage cls c m) (hused : c'.totalUsed = c.totalUsed)
    (hfree : c'.totalFree = c.totalFree) (hlists : c'.lists = c.lists)
    (heq : forall j, mgrPos ≤ j -> j < mgrPos + 192 -> m' j = m j) :
    MgrImage cls c' m' := by
  have hread : forall a w, mgrPos ≤ a -> a + w ≤ mgrPos + 192 ->
      m'.read a w = m.read a w := fun a w h1 h2 =>
    Bits.read_congr fun i hi => heq _ (by omega) (by omega)
  constructor
  · rw [hread _ _ (by omega) (by omega), h.totalUsed, hused]
  · rw [hread _ _ (by omega) (by omega), h.totalFree, hfree]
  · rw [hread _ _ (by omega) (by omega), h.free0]
  · rw [hread _ _ (by omega) (by omega), h.free1]
  · rw [hread _ _ (by omega) (by omega), h.free2]
  · intro i
    rw [hlists, ← h.lists i]
    apply Bits.readPtr_congr
    intro j hj
    have hi := i.isLt
    exact heq _ (by omega) (by omega)

theorem field {a n v used free : Nat} (h : MgrImage cls c m) (hhi : a + n ≤ mgrPos + 80)
    (hused : FieldWrite a n v mgrPos 32 c.totalUsed used)
    (hfree : FieldWrite a n v (mgrPos + 32) 32 c.totalFree free) :
    MgrImage cls { c with totalUsed := used, totalFree := free } (m.write a n v) := by
  constructor
  · exact hused.read h.totalUsed
  · exact hfree.read h.totalFree
  · rw [Bits.read_write_disjoint (by omega), h.free0]
  · rw [Bits.read_write_disjoint (by omega), h.free1]
  · rw [Bits.read_write_disjoint (by omega), h.free2]
  · intro i
    rw [← h.lists i]
    apply Bits.readPtr_congr
    intro j hj
    exact Bits.write_outside (by omega)

theorem setTotalUsed {v : Nat} (h : MgrImage cls c m) (hv : v < 2 ^ 32) :
    MgrImage cls { c with totalUsed := v } (m.write mgrPos 32 v) :=
  h.field (by omega) (.self hv) (.other (by omega))

theorem setTotalFree {v : Nat} (h : MgrImage cls c m) (hv : v < 2 ^ 32) :
    MgrImage cls { c with totalFree := v } (m.write (mgrPos + 32) 32 v) :=
  h.field (by omega) (.other (by omega)) (.self hv)

theorem setTotalCapacity (h : MgrImage cls c m) (v : Nat) :
    MgrImage cls c (m.write (mgrPos + 64) 16 v) :=
  h.field (by omega) (.other (by omega)) (.other (by omega))

theorem setList {i : Fin 3} {l : List Slot} {p : ChkPtr} (h : MgrImage cls c m)
    (hp : p = headLink l) (h1 : p.chkNo < 2 ^ 11) (h2 : p.offset < 2 ^ 12)
    (h3 : p.size < 2 ^ 9) :
    MgrImage cls (c.setList i l) (m.writePtr (mgrPos + 96 + 32 * i) p) := by
  constructor
  · rw [Bits.read_writePtr_disjoint (by omega), h.totalUsed]
    rfl
  · rw [Bits.read_writePtr_disjoint (by omega), h.totalFree]
    rfl
  · rw [Bits.read_writePtr_disjoint (by omega), h.free0]
  · rw [Bits.read_writePtr_disjoint (by omega), h.free1]
  · rw [Bits.read_writePtr_disjoint (by omega), h.free2]
  · intro i'
    rw [Content.setList_lists]
    split
    · next heq =>
        rw [heq, Bits.readPtr_writePtr h1 h2 h3, hp]
    · next hne =>
        have hval : (i' : Nat) ≠ i := fun h => hne (Fin.ext h)
        rw [Bits.readPtr_writePtr_disjoint (by omega), h.lists i']

end MgrImage

end ChunkMem
