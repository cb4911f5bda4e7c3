import ChunkMem.Session.Programs

/-!
# Places in blocks

A place is a chunk pointer to a word of four bytes inside a block.  Its address and its
chunk pointer are encoded as each other, and a store changes the word there and no
other.
-/

namespace ChunkMem

open Foundation

def ChkIndex.place (idx : ChkIndex) (p : ChkPtr) : ChkAddrChk :=
  ⟨(idx.chkAddr p.chkNo).add (chkOffset p.offset), idx.chkAddr p.chkNo⟩

def Live.Has (l : Live) (p : ChkPtr) : Prop :=
  p.size = 0 ∧ p.chkNo = l.ptr.chkNo ∧ l.ptr.offset ≤ p.offset ∧
    p.offset < l.ptr.offset + 2 * l.ptr.size

def Spot (live : List Live) (p : ChkPtr) : Prop := exists l, l ∈ live ∧ l.Has p

def World.word (w : World) (p : ChkPtr) : ChkPtr := (w.target p).readPtr 0

/-- The bit of a chunk belongs to the word at `p`. -/
def ChkPtr.Word (p : ChkPtr) (k j : Nat) : Prop :=
  k = p.chkNo ∧ 32 * p.offset ≤ j ∧ j < 32 * p.offset + 32

/-- A link after `set_null`. -/
def ChkPtr.nulled (p : ChkPtr) : ChkPtr := { p with chkNo := chkMaxChkNum }

theorem ChkPtr.nulled_isNull (p : ChkPtr) : p.nulled.IsNull := rfl

def ChkPtr.Fits (p : ChkPtr) : Prop := p.chkNo < 2 ^ 11 ∧ p.offset < 2 ^ 12 ∧ p.size < 2 ^ 9

theorem Foundation.Bits.readPtr_fits (m : Bits) (a : Nat) : (m.readPtr a).Fits :=
  ⟨Bits.read_lt m a 11, Bits.read_lt m (a + 11) 12, Bits.read_lt m (a + 23) 9⟩

/-- Pointers without a size are equal when they designate the same place. -/
theorem ChkPtr.eq_of_place {p q : ChkPtr} (hp : p.size = 0) (hq : q.size = 0)
    (hno : p.chkNo = q.chkNo) (hoff : p.offset = q.offset) : p = q := by
  cases p
  cases q
  simp_all

/-- The bits of the blocks are those of `w`, apart from the words of `V`. -/
def World.KeepsBut (w w' : World) (live : List Live) (V : ChkPtr -> Prop) : Prop :=
  forall l, l ∈ live -> forall j, 32 * l.ptr.offset ≤ j ->
    j < 32 * l.ptr.offset + 64 * l.ptr.size ->
    (forall p, V p -> ¬p.Word l.ptr.chkNo j) ->
    w'.chunkBits l.ptr.chkNo j = w.chunkBits l.ptr.chkNo j

namespace World.KeepsBut

variable {w w' w'' : World} {live : List Live} {V V' : ChkPtr -> Prop}

theorem refl (w : World) (live : List Live) (V : ChkPtr -> Prop) : KeepsBut w w live V :=
  fun _ _ _ _ _ _ => rfl

theorem trans (h : KeepsBut w w' live V) (h' : KeepsBut w' w'' live V) :
    KeepsBut w w'' live V :=
  fun l hl j hj1 hj2 hout => (h' l hl j hj1 hj2 hout).trans (h l hl j hj1 hj2 hout)

theorem mono (h : KeepsBut w w' live V) (hV : forall p, V p -> V' p) : KeepsBut w w' live V' :=
  fun l hl j hj1 hj2 hout => h l hl j hj1 hj2 fun p hp => hout p (hV p hp)

theorem of_keepsBlock (h : forall l, l ∈ live -> World.KeepsBlock w w' l.ptr) :
    KeepsBut w w' live V := by
  intro l hl j hj1 hj2 _
  have hbit := h l hl (j - 32 * l.ptr.offset) (by omega)
  unfold World.target at hbit
  rwa [Bits.drop_apply, Bits.drop_apply, Nat.add_sub_cancel' hj1] at hbit

theorem word_eq (h : KeepsBut w w' live V) {q : ChkPtr} (hq : Spot live q)
    (hV : forall p, V p -> p ≠ q ∧ p.size = 0) : w'.word q = w.word q := by
  rcases hq with ⟨l, hl, hsize, hno, hlo, hhi⟩
  unfold World.word World.target
  rw [Bits.readPtr_drop, Bits.readPtr_drop]
  apply Bits.readPtr_congr
  intro i hi
  rw [hno]
  refine h l hl _ (by omega) (by omega) fun p hp hword => ?_
  unfold ChkPtr.Word at hword
  exact (hV p hp).1 (ChkPtr.eq_of_place (hV p hp).2 hsize (by omega) (by omega))

end World.KeepsBut

namespace Uncompressed

variable {env : Env} {w : World} {c : Content} {L : Layout} {i o : Nat}

theorem encode_ok (h : Uncompressed env w c L) (hi : i < c.num) (ho : 0 < o)
    (hlt : 4 * o < 8 * (c.body i).virgin) (size : Nat) :
    chkAddrchk2ptr ⟨(w.index.chkAddr i).add (4 * o), w.index.chkAddr i⟩ size w =
      .ok (⟨i, o, setChkSize size % 2 ^ 9⟩, w) := by
  have hvirgin := h.fits.virgin_le i hi
  have hcap := h.fits.cap_le i hi
  have hsub : ((w.index.chkAddr i).add (4 * o)).off - (w.index.chkAddr i).off = 4 * o := by
    simp only [Ptr.add]
    omega
  have hoff : setChkOffset (4 * o) % 2 ^ 12 = o := by
    simp only [setChkOffset]
    omega
  have hin : (((w.index.chkAddr i).add (4 * o)).off - (w.index.chkAddr i).off) % 4 = 0 ∧
      (w.index.chkAddr i).off < ((w.index.chkAddr i).add (4 * o)).off ∧
      ((w.index.chkAddr i).add (4 * o)).off - (w.index.chkAddr i).off <
        chkSize (c.body i).virgin := by
    rw [hsub]
    simp only [Ptr.add, chkSize]
    omega
  have hblk : ((w.index.chkAddr i).add (4 * o)).blk = (w.index.chkAddr i).blk := rfl
  unfold chkAddrchk2ptr
  rw [Exec.bind_of_ok (h.load_no hi), Exec.bind_of_ok (h.load_virgin hi),
    Exec.bind_of_ok (Exec.require_of hblk _ _), Exec.bind_of_ok (Exec.require_of hin _ _),
    Exec.pure_apply, hsub, hoff]

end Uncompressed

namespace Open

variable {env : Env} {s : Session} {p q : ChkPtr}

/-- The places in blocks lie behind the headers of their chunks and in front of the
virgin marks. -/
theorem spot_bound (h : Open env s) : exists c L, Uncompressed env s.world c L ∧
    forall p, Spot s.live p -> p.chkNo < c.num ∧ 4 ≤ p.offset ∧
      p.offset < 2 * (c.body p.chkNo).virgin ∧ (c.body p.chkNo).virgin ≤ 2048 := by
  rcases h.2 with ⟨c, L, hv⟩
  refine ⟨c, L, hv.stored.uncompressed h.1, fun p hp => ?_⟩
  rcases hp with ⟨l, hl, -, hno, hlo, hhi⟩
  have hb := hv.wf.tiling.block_bound (Valid.mem_block hl) (hv.pos l hl)
  have hspace : l.block.space = p.chkNo := hno.symm
  have hlen : l.block.len = l.ptr.size := rfl
  have hoff : l.ptr.offset = 2 * l.block.start := by
    rw [hv.ptr l hl, blockPtr_offset]
  have hr := Content.reserved_ge l.block.space
  have hvirgin := hv.wf.tiling.virgin_le _ hb.1
  rw [hspace] at hb hr hvirgin
  exact ⟨hb.1, by omega, by omega, hvirgin⟩

theorem spot_chkNo_lt (h : Open env s) (hp : Spot s.live p) :
    p.chkNo < s.world.index.chkNum := by
  rcases hp with ⟨l, hl, -, hno, -⟩
  rw [hno]
  exact h.chkNo_lt hl

theorem spot_not_null (h : Open env s) (hp : Spot s.live p) : ¬p.IsNull := by
  have hno := h.spot_chkNo_lt hp
  have hnum := h.chkNum_le
  unfold ChkPtr.IsNull
  simp only [chkMaxChkNum]
  omega

theorem place_addr (h : Open env s) (hp : Spot s.live p) :
    chkPtr2addr p s.world = .ok ((s.world.index.place p).addr, s.world) :=
  h.chkPtr2addr_ok (h.spot_chkNo_lt hp)

theorem place_chk (h : Open env s) (hp : Spot s.live p) :
    chkPtr2chk p s.world = .ok ((s.world.index.place p).chk, s.world) := by
  rcases h.spot_bound with ⟨c, L, hu, hbound⟩
  exact hu.tracks.chkPtr2chk_ok (hbound p hp).1

theorem place_addrchk (h : Open env s) (hp : Spot s.live p) :
    chkPtr2addrchk p s.world = .ok (s.world.index.place p, s.world) := by
  unfold chkPtr2addrchk
  rw [Exec.bind_of_ok (h.place_addr hp), Exec.bind_of_ok (h.place_chk hp)]
  rfl

theorem place_ne_null (h : Open env s) (hp : Spot s.live p) :
    (s.world.index.place p).addr ≠ Ptr.null := by
  rcases h.spot_bound with ⟨c, L, hu, hbound⟩
  exact hu.chkAddr_ne_null (hbound p hp).1 _

theorem place_encode (h : Open env s) (hp : Spot s.live p) :
    chkAddrchk2ptr (s.world.index.place p) 0 s.world = .ok (p, s.world) := by
  rcases h.spot_bound with ⟨c, L, hu, hbound⟩
  rcases hbound p hp with ⟨hno, hlo, hhi, hv⟩
  have hencode := hu.encode_ok hno (o := p.offset) (by omega) (by omega) 0
  have hp' : (⟨p.chkNo, p.offset, setChkSize 0 % 2 ^ 9⟩ : ChkPtr) = p := by
    rcases hp with ⟨l, -, hsize, -⟩
    exact ChkPtr.eq_of_place rfl hsize rfl rfl
  rw [hp', Nat.mul_comm] at hencode
  exact hencode

theorem place_inj (h : Open env s) (hp : Spot s.live p) (hq : Spot s.live q)
    (heq : (s.world.index.place p).addr = (s.world.index.place q).addr) : p = q := by
  rcases h.spot_bound with ⟨c, L, hu, hbound⟩
  have hp' := hbound p hp
  have hq' := hbound q hq
  have hpoff := hu.place.off_eq hp'.1
  have hqoff := hu.place.off_eq hq'.1
  have hpv := hu.fits.virgin_le _ hp'.1
  have hqv := hu.fits.virgin_le _ hq'.1
  have hblk : (s.world.index.chkAddr p.chkNo).blk = (s.world.index.chkAddr q.chkNo).blk := by
    have hcong := congrArg Ptr.blk heq
    exact hcong
  have hoff : (s.world.index.chkAddr p.chkNo).off + 4 * p.offset =
      (s.world.index.chkAddr q.chkNo).off + 4 * q.offset := by
    have hcong := congrArg Ptr.off heq
    simp only [ChkIndex.place, Ptr.add, chkOffset] at hcong
    omega
  by_cases hno : p.chkNo = q.chkNo
  · rw [hno] at hoff
    rcases hp with ⟨_, -, hsize, -⟩
    rcases hq with ⟨_, -, hsize', -⟩
    exact ChkPtr.eq_of_place hsize hsize' hno (by omega)
  · have hapart := hu.place.apart hp'.1 hq'.1 hno hblk
    omega

theorem spot_fits (h : Open env s) (hp : Spot s.live p) : p.Fits := by
  rcases h.spot_bound with ⟨c, L, -, hbound⟩
  have hoff := hbound p hp
  have hno := h.spot_chkNo_lt hp
  have hle := h.chkNum_le
  rcases hp with ⟨l, -, hsize, -⟩
  exact ⟨by omega, by omega, by omega⟩

/-!
## Words
-/

theorem spot_inside (h : Open env s) (hp : Spot s.live p) {n : Nat} (hn : n ≤ 32) :
    s.world.sys.Inside ((s.world.index.chkAddr p.chkNo).add (4 * p.offset)) n := by
  rcases hp with ⟨l, hl, -, hno, hlo, hhi⟩
  rw [hno]
  exact h.inside hl (by omega)

theorem place_addr_eq (idx : ChkIndex) (p : ChkPtr) :
    (idx.place p).addr = (idx.chkAddr p.chkNo).add (4 * p.offset) := by
  simp only [ChkIndex.place, chkOffset]
  rw [Nat.mul_comm]

theorem loadWord (h : Open env s) (hp : Spot s.live p) :
    loadPtr (s.world.index.place p).addr s.world = .ok (s.world.word p, s.world) := by
  rw [place_addr_eq, loadPtr_at (h.spot_inside hp (Nat.le_refl _))]
  unfold World.word World.target World.chunkBits
  rw [Bits.readPtr_drop]
  congr 3
  omega

theorem changeWord (h : Open env s) (hp : Spot s.live p) {m : Bits}
    (hm : forall j, j < 32 * p.offset ∨ 32 * p.offset + 32 ≤ j ->
      m j = s.world.chunkBits p.chkNo j) :
    Open env ⟨s.world.setChunk p.chkNo m, s.live⟩ ∧
    (s.world.setChunk p.chkNo m).word p = m.readPtr (32 * p.offset) ∧
    World.KeepsBut s.world (s.world.setChunk p.chkNo m) s.live fun q => q = p := by
  rcases hp with ⟨l, hl, hsize, hno, hlo, hhi⟩
  rw [hno] at hm ⊢
  have hchange := h.change hl (32 * p.offset) 32 (by omega) (by omega) hm
  refine ⟨hchange.1, ?_, ?_⟩
  · unfold World.word World.target
    rw [Bits.readPtr_drop, hno, setChunk_chunkBits_self]
    rfl
  · intro l' hl' j hj1 hj2 hout
    have hbit := hchange.2 l' hl' j hj1 hj2
    rw [hbit]
    split
    · next hsame =>
        rw [hsame]
        apply hm
        have hword := hout p rfl
        unfold ChkPtr.Word at hword
        omega
    · rfl

/-- What a program that changes the word at `p` to `v` leaves. -/
structure SetWord (env : Env) (s : Session) (p v : ChkPtr) (w' : World) : Prop where
  isOpen : Open env ⟨w', s.live⟩
  index : w'.index = s.world.index
  word : w'.word p = v
  others : World.KeepsBut s.world w' s.live fun q => q = p

theorem storeWord (h : Open env s) (hp : Spot s.live p) {v : ChkPtr} (hv : v.Fits) :
    exists w', storePtr (s.world.index.place p).addr v s.world = .ok ((), w') ∧
      SetWord env s p v w' := by
  have hstore := storePtr_at (h.spot_inside hp (Nat.le_refl _)) v
  rw [← place_addr_eq, show 8 * (4 * p.offset) = 32 * p.offset by omega] at hstore
  rcases h.changeWord hp (m := (s.world.chunkBits p.chkNo).writePtr (32 * p.offset) v)
    (fun j hj => Bits.writePtr_outside hj) with ⟨hopen, hword, hothers⟩
  exact ⟨_, hstore, hopen, rfl, hword.trans (Bits.readPtr_writePtr hv.1 hv.2.1 hv.2.2), hothers⟩

theorem nullWord (h : Open env s) (hp : Spot s.live p) :
    exists w', setNull (s.world.index.place p).addr s.world = .ok ((), w') ∧
      SetWord env s p (s.world.word p).nulled w' := by
  have hstore := store_at (f := ⟨0, 11⟩) (h.spot_inside hp (n := 11) (by omega)) chkMaxChkNum
  rw [← place_addr_eq, show 8 * (4 * p.offset) + 0 = 32 * p.offset by omega] at hstore
  rcases h.changeWord hp (m := (s.world.chunkBits p.chkNo).write (32 * p.offset) 11 chkMaxChkNum)
    (fun j hj => Bits.write_outside (by omega)) with ⟨hopen, hword, hothers⟩
  refine ⟨_, hstore, hopen, rfl, hword.trans ?_, hothers⟩
  rw [Bits.readPtr_write_chkNo (by decide)]
  unfold World.word World.target
  rw [Bits.readPtr_drop]
  rfl

end Open

end ChunkMem
