import ChunkMem.Refinement.Compress

/-!
# Uncompression

`uncompress` fills one buffer with the stream and finds the chunks in it by
walking from header to header.  The walk clears every own capacity and trims the
capacity of the last chunk to where the buffer ends; afterwards the first chunk
owns the buffer, which is split when the program asks for it.
-/

namespace ChunkMem

open Foundation

def lastCap (c : Content) : Nat := Uncompressed.shrunk (c.body (c.num - 1)).virgin

def Layout.joined (L : Layout) (c : Content) : Layout where
  shared := c.num
  cap := Function.update L.cap (c.num - 1) (lastCap c)
  total := L.start (c.num - 1) + lastCap c
  outer := L.outer

def Layout.restored (env : Env) (L : Layout) (c : Content) : Layout :=
  if env.uncompressSplit = true then (L.joined c).apart else L.joined c

namespace Layout

variable (L : Layout) (c : Content)

theorem joined_cap_last : (L.joined c).cap (c.num - 1) = lastCap c := by
  simp [joined]

theorem joined_cap_other {k : Nat} (h : k ≠ c.num - 1) : (L.joined c).cap k = L.cap k := by
  simp [joined, h]

theorem joined_start {k : Nat} (h : k ≤ c.num - 1) : (L.joined c).start k = L.start k :=
  sumTo_congr fun i hi => L.joined_cap_other c (by omega)

theorem joined_start_all (hpos : 0 < c.num) :
    (L.joined c).start c.num = L.start (c.num - 1) + lastCap c := by
  have hsucc := (L.joined c).start_succ (c.num - 1)
  rw [show c.num - 1 + 1 = c.num by omega, L.joined_start c (Nat.le_refl _),
    L.joined_cap_last] at hsucc
  exact hsucc

theorem joined_extent (k : Nat) : extent c (L.joined c) k = extent c L k := by
  unfold extent
  split
  · rw [L.joined_cap_other c (by omega)]
  · rfl

theorem joined_settled (hpos : 0 < c.num) : Settled c (L.joined c) :=
  (L.joined_start_all c hpos).symm

end Layout

theorem lastCap_bounds {env : Env} {c : Content} {L : Layout} {bs : List Block}
    (hf : Fits env c L) (ht : Content.Tiling env.freeSize bs c) (hpos : 0 < c.num) :
    1 ≤ lastCap c ∧ lastCap c ≤ L.cap (c.num - 1) ∧
      (c.body (c.num - 1)).virgin ≤ 128 * lastCap c ∧
      128 * lastCap c < (c.body (c.num - 1)).virgin + 128 := by
  have hfit := hf.virgin_le (c.num - 1) (by omega)
  have hr := ht.reserved_le (c.num - 1) (by omega)
  have hr2 := Content.reserved_ge (c.num - 1)
  unfold lastCap Uncompressed.shrunk
  omega

theorem Fits.joined {env : Env} {c : Content} {L : Layout} {bs : List Block}
    (hf : Fits env c L) (ht : Content.Tiling env.freeSize bs c) (hpos : 0 < c.num) :
    Fits env c (L.joined c).apart := by
  have hlast := lastCap_bounds hf ht hpos
  have hcap : forall k, k < c.num ->
      (k = c.num - 1 ∧ (L.joined c).cap k = lastCap c) ∨
        (k ≠ c.num - 1 ∧ (L.joined c).cap k = L.cap k) := by
    intro k _
    by_cases hk : k = c.num - 1
    · subst hk
      exact Or.inl ⟨rfl, L.joined_cap_last c⟩
    · exact Or.inr ⟨hk, L.joined_cap_other c hk⟩
  refine ⟨hf.num_le, ?_, ?_, ?_, ?_, Nat.le_refl 1, Nat.le_max_left 1 _, fun _ => rfl⟩
  · intro k hk
    have hone := hf.one_le k hk
    show 1 ≤ (L.joined c).cap k
    rcases hcap k hk with ⟨_, heq⟩ | ⟨_, heq⟩ <;> omega
  · intro k hk
    have hle := hf.cap_le k hk
    have hle' := hf.cap_le (c.num - 1) (by omega)
    show (L.joined c).cap k ≤ 16
    rcases hcap k hk with ⟨_, heq⟩ | ⟨_, heq⟩ <;> omega
  · intro k hk
    have hle := hf.virgin_le k hk
    show (c.body k).virgin ≤ 128 * (L.joined c).cap k
    rcases hcap k hk with ⟨hk', heq⟩ | ⟨_, heq⟩
    · subst hk'
      omega
    · omega
  · intro hn
    have hfirst := hf.first hn
    show (L.joined c).cap 0 = 16
    rw [L.joined_cap_other c (by omega), hfirst]

/-!
## The walk
-/

/-- The first `i` chunks of the buffer at `org` were found. -/
structure Walked (env : Env) (org : Ptr) (w : World) (c : Content) (L : Layout) (i : Nat) :
    Prop where
  num : w.index.chkNum = i
  size : c.num ≤ w.index.chkAddrSize
  off : org.off = 0
  addr : forall k, k < i -> w.index.chkAddr k = ⟨org.blk, 1024 * L.start k⟩
  room : w.sys.Inside org (8 * streamLength c L)
  image : forall k, k < c.num ->
    ChunkImage (c.body k) (if k < i then (L.joined c).cap k else L.cap k) k (extent c L k)
      (w.view ⟨org.blk, 1024 * L.start k⟩)
  own : forall k, k < i -> (w.view ⟨org.blk, 1024 * L.start k⟩).read 75 16 = 0
  mgr : MgrImage env.freeSize c (w.view org)

structure Strolled (org : Ptr) (hi : Nat) (w w' : World) : Prop where
  sys : w'.sys = w.sys
  bits : forall b, b ≠ org.blk -> w'.bits b = w.bits b
  above : forall j, hi ≤ j -> w'.bits org.blk j = w.bits org.blk j
  flag : w'.index.compressed = w.index.compressed
  type : w'.index.memAllocType = w.index.memAllocType
  size : w'.index.chkAddrSize = w.index.chkAddrSize

theorem Strolled.refl (org : Ptr) (hi : Nat) (w : World) : Strolled org hi w w :=
  ⟨rfl, fun _ _ => rfl, fun _ _ => rfl, rfl, rfl, rfl⟩

theorem Strolled.trans {org : Ptr} {hi : Nat} {w w' w'' : World} (h : Strolled org hi w w')
    (h' : Strolled org hi w' w'') : Strolled org hi w w'' :=
  ⟨h'.sys.trans h.sys, fun b hb => (h'.bits b hb).trans (h.bits b hb),
    fun j hj => (h'.above j hj).trans (h.above j hj), h'.flag.trans h.flag,
    h'.type.trans h.type, h'.size.trans h.size⟩

def World.listed (w : World) (p : Ptr) (m : Bits) : World :=
  { w.setView p m with
    index := { w.index with
      chkNum := w.index.chkNum + 1
      chkAddr := Function.update w.index.chkAddr w.index.chkNum p } }

namespace Walked

variable {env : Env} {org : Ptr} {w : World} {c : Content} {L : Layout} {bs : List Block}
  {i : Nat}

def header (c : Content) (L : Layout) (i : Nat) (m : Bits) : Bits :=
  if i + 1 < c.num ∨ lastCap c = L.cap i then m.write 75 16 0
  else (m.write 75 16 0).write 32 5 (lastCap c)

theorem header_outside {m : Bits} {j : Nat} (hj : 128 ≤ j) : header c L i m j = m j := by
  unfold header
  split
  · exact Bits.write_outside (by omega)
  · rw [Bits.write_outside (by omega), Bits.write_outside (by omega)]

theorem extent_ge (hf : Fits env c L) (ht : Content.Tiling env.freeSize bs c) {k : Nat}
    (hk : k < c.num) : 64 * reserved k ≤ extent c L k := by
  have hone := hf.one_le k hk
  have hr := ht.reserved_le k hk
  have hr5 := Content.reserved_le_five k
  unfold extent
  split <;> omega

theorem inside (h : Walked env org w c L i) {k o n : Nat} (hk : k < c.num)
    (hn : 8 * o + n ≤ extent c L k) :
    w.sys.Inside ((Ptr.mk org.blk (1024 * L.start k)).add o) n := by
  have hend := Uncompressed.extent_end (L := L) hk
  have hoff := h.off
  rcases h.room with ⟨a, ha, hle⟩
  refine ⟨a, ha, ?_⟩
  simp only [Ptr.add]
  omega

theorem step (h : Walked env org w c L i) (hf : Fits env c L)
    (ht : Content.Tiling env.freeSize bs c) (hi : i < c.num) :
    Walked env org (w.listed ⟨org.blk, 1024 * L.start i⟩
      (header c L i (w.view ⟨org.blk, 1024 * L.start i⟩))) c L (i + 1) := by
  have hr := Content.reserved_ge i
  have hlast := lastCap_bounds hf ht (by omega)
  have hcap16 := hf.cap_le (c.num - 1) (by omega)
  have hview : forall k j, k < c.num -> k ≠ i -> j < extent c L k ->
      (w.listed ⟨org.blk, 1024 * L.start i⟩
        (header c L i (w.view ⟨org.blk, 1024 * L.start i⟩))).view
          ⟨org.blk, 1024 * L.start k⟩ j = w.view ⟨org.blk, 1024 * L.start k⟩ j := by
    intro k j hk hne hj
    refine World.view_setView_apart (n := 128) (fun j hj => header_outside hj) (Or.inr ?_)
    simp only
    rcases Nat.lt_or_gt_of_ne hne with hlt | hlt
    · have hstart := Layout.start_add_le (L := L) hlt
      unfold extent at hj
      rw [if_pos (by omega)] at hj
      omega
    · have hstart := Layout.start_add_le (L := L) hlt
      have hone := hf.one_le i hi
      omega
  have hself : (w.listed ⟨org.blk, 1024 * L.start i⟩
        (header c L i (w.view ⟨org.blk, 1024 * L.start i⟩))).view
          ⟨org.blk, 1024 * L.start i⟩ = header c L i (w.view ⟨org.blk, 1024 * L.start i⟩) :=
    World.view_setView w _ _
  constructor
  · show w.index.chkNum + 1 = _
    rw [h.num]
  · exact h.size
  · exact h.off
  · intro k hk
    show Function.update w.index.chkAddr w.index.chkNum _ k = _
    rw [h.num]
    by_cases hne : k = i
    · rw [hne, Function.update_self]
    · rw [Function.update_of_ne hne]
      exact h.addr k (by omega)
  · exact h.room
  · intro k hk
    by_cases hne : k = i
    · subst hne
      rw [hself, if_pos (by omega)]
      have himage := (h.image k hk).setAllocCapacity 0
      rw [if_neg (by omega)] at himage
      unfold header
      split
      · next hkeep =>
          rw [show (L.joined c).cap k = L.cap k by
            by_cases hk' : k = c.num - 1
            · rw [hk', L.joined_cap_last, ← hk']
              exact hkeep.resolve_left (by omega)
            · exact L.joined_cap_other c hk']
          exact himage
      · next htrim =>
          have hk' : k = c.num - 1 := by omega
          rw [show (L.joined c).cap k = lastCap c by rw [hk', L.joined_cap_last]]
          exact himage.setCapacity (by omega)
    · have hge := extent_ge hf ht hk
      have hr' := Content.reserved_ge k
      have himage := h.image k hk
      rw [show (if k < i then (L.joined c).cap k else L.cap k) =
        if k < i + 1 then (L.joined c).cap k else L.cap k by
          by_cases hlt : k < i
          · rw [if_pos hlt, if_pos (by omega)]
          · rw [if_neg hlt, if_neg (by omega)]] at himage
      exact himage.congr (by omega) fun j hj => hview k j hk hne hj
  · intro k hk
    by_cases hne : k = i
    · subst hne
      rw [hself]
      unfold header
      split
      · exact Bits.read_write_of_lt (by decide)
      · rw [Bits.read_write_disjoint (by omega)]
        exact Bits.read_write_of_lt (by decide)
    · have hk' : k < c.num := by omega
      have hge := extent_ge hf ht hk'
      have hr' := Content.reserved_ge k
      rw [← h.own k (by omega)]
      exact Bits.read_congr fun j hj => hview k _ hk' hne (by omega)
  · apply h.mgr.congr rfl rfl rfl
    intro j hj1 hj2
    unfold mgrPos at hj1 hj2
    have hoff := h.off
    refine World.view_setView_apart (n := 128) (fun j hj => header_outside hj) (Or.inr ?_)
    simp only
    by_cases hz : i = 0
    · subst hz
      have hs : L.start 0 = 0 := rfl
      omega
    · have hstart := Layout.start_add_le (L := L) (k := 0) (n := i) (by omega)
      have hone := hf.first (by omega)
      omega

theorem strolled (org : Ptr) (w : World) (hf : Fits env c L)
    (ht : Content.Tiling env.freeSize bs c) (hi : i < c.num) :
    Strolled org (8 * streamLength c L) w (w.listed ⟨org.blk, 1024 * L.start i⟩
      (header c L i (w.view ⟨org.blk, 1024 * L.start i⟩))) := by
  refine ⟨rfl, ?_, ?_, rfl, rfl, rfl⟩
  · intro b hb
    exact World.setView_bits_other w _ _ hb
  · intro j hj
    have hend := Uncompressed.extent_end (L := L) hi
    have hge := extent_ge hf ht hi
    have hr := Content.reserved_ge i
    show (w.setView _ _).bits org.blk j = _
    unfold World.setView World.setBits
    simp only [Function.update_self]
    rw [if_pos (by omega), header_outside (by omega)]
    unfold World.view
    rw [Bits.drop_apply]
    congr 1
    simp only
    omega

/-- The header is rewritten, the chunk is entered, and the walk goes on behind
it. -/
theorem round_ok (h : Walked env org w c L i) (hf : Fits env c L)
    (ht : Content.Tiling env.freeSize bs c) (hi : i < c.num) (fuel acc : Nat) :
    ChkIndex.walkLoop (1024 * (L.joined c).start c.num) (fuel + 1)
        ⟨org.blk, 1024 * L.start i⟩ acc w =
      ChkIndex.walkLoop (1024 * (L.joined c).start c.num) fuel
        ⟨org.blk, 1024 * (L.joined c).start (i + 1)⟩ (acc + (L.joined c).cap i)
        (w.listed ⟨org.blk, 1024 * L.start i⟩
          (header c L i (w.view ⟨org.blk, 1024 * L.start i⟩))) := by
  have hpos : 0 < c.num := by omega
  have hlast := lastCap_bounds hf ht hpos
  have hcap16 := hf.cap_le (c.num - 1) (by omega)
  have hone := hf.one_le i hi
  have hcapi := hf.cap_le i hi
  have hge := extent_ge hf ht hi
  have hr := Content.reserved_ge i
  have hstop := L.joined_start_all c hpos
  have hnext := (L.joined c).start_succ i
  rw [L.joined_start c (k := i) (by omega)] at hnext
  have hsize := h.size
  have hstart := Layout.start_le (L := L) (k := i) (n := c.num - 1) (by omega)
  generalize hp : (Ptr.mk org.blk (1024 * L.start i)) = p
  have hoff : p.off = 1024 * L.start i := by rw [← hp]
  have hin : forall n, n ≤ 128 -> w.sys.Inside (p.add 0) n := by
    intro n hn
    rw [← hp]
    exact h.inside hi (by omega)
  have himage := h.image i hi
  rw [if_neg (by omega), hp] at himage
  have hstore : store p ChkMetadata.allocCapacity 0 w =
      .ok ((), w.setView p ((w.view p).write 75 16 0)) :=
    store_at (o := 0) (f := ChkMetadata.allocCapacity) (hin _ (by decide)) 0
  have hin' : forall m n, n ≤ 128 -> (w.setView p m).sys.Inside (p.add 0) n :=
    fun _ n hn => hin n hn
  have hload : forall m v, m.read 32 5 = v ->
      load p ChkMetadata.capacity (w.setView p m) = .ok (v, w.setView p m) := by
    intro m v hm
    have hrun := load_at (f := ChkMetadata.capacity) (hin' m _ (by decide))
    rw [World.view_setView] at hrun
    rw [← hm]
    exact hrun
  have hcap : ((w.view p).write 75 16 0).read 32 5 = L.cap i := by
    rw [Bits.read_write_disjoint (by omega)]
    exact himage.capacity
  have hbytes : ChkMetadata.capacityBytes p (w.setView p ((w.view p).write 75 16 0)) =
      .ok (1024 * L.cap i, w.setView p ((w.view p).write 75 16 0)) := by
    unfold ChkMetadata.capacityBytes
    rw [Exec.bind_of_ok (hload _ _ hcap), Nat.mul_comm]
    rfl
  have hfinal : (header c L i (w.view p)).read 32 5 = (L.joined c).cap i := by
    unfold header
    split
    · next hkeep =>
        rw [hcap]
        by_cases hk' : i = c.num - 1
        · rw [hk', L.joined_cap_last, ← hk']
          exact (hkeep.resolve_left (by omega)).symm
        · exact (L.joined_cap_other c hk').symm
    · next htrim =>
        have hk' : i = c.num - 1 := by omega
        rw [hk', L.joined_cap_last]
        exact Bits.read_write_of_lt (by omega)
  -- the capacity is trimmed where the buffer ends inside the chunk
  have htrim : forall rest : M Nat,
      (do
        if 1024 * (L.joined c).start c.num - p.off < 1024 * L.cap i then
          store p ChkMetadata.capacity
            (setChkCapacity (1024 * (L.joined c).start c.num - p.off))
        else pure ()
        rest : M Nat) (w.setView p ((w.view p).write 75 16 0)) =
      rest (w.setView p (header c L i (w.view p))) := by
    intro rest
    unfold header
    by_cases hkeep : i + 1 < c.num ∨ lastCap c = L.cap i
    · have hroom : ¬1024 * (L.joined c).start c.num - p.off < 1024 * L.cap i := by
        rcases hkeep with hmid | heq
        · have hstart := Layout.start_add_le (L := L) (k := i) (n := c.num - 1) (by omega)
          omega
        · by_cases hk' : i = c.num - 1
          · rw [← hk'] at hstop
            omega
          · have hstart := Layout.start_add_le (L := L) (k := i) (n := c.num - 1)
              (by omega)
            omega
      rw [if_pos hkeep, if_neg hroom]
    · have hk' : i = c.num - 1 := by omega
      have hne : lastCap c ≠ L.cap i := fun heq => hkeep (Or.inr heq)
      rw [← hk'] at hstop hlast
      have hval : setChkCapacity (1024 * (L.joined c).start c.num - p.off) = lastCap c := by
        simp only [setChkCapacity]
        omega
      rw [if_neg hkeep, if_pos (by omega), hval]
      have hrun := store_at (f := ChkMetadata.capacity)
        (hin' ((w.view p).write 75 16 0) _ (by decide)) (lastCap c)
      rw [World.view_setView, World.setView_setView] at hrun
      exact Exec.bind_of_ok hrun
  have hwrite : writeChkAddr i p (w.setView p (header c L i (w.view p))) = _ :=
    writeChkAddr_of (by
      show i < w.index.chkAddrSize
      omega) p
  conv => lhs; unfold ChkIndex.walkLoop
  rw [if_pos (by omega), Exec.bind_of_ok hstore, Exec.bind_of_ok hbytes, htrim,
    Exec.bind_of_ok (hload _ _ hfinal), Exec.bind_of_ok (getIndex_apply _)]
  simp only [World.setView, World.setBits] at hwrite ⊢
  have hbehind : p.add (chkCapacity ((L.joined c).cap i)) =
      ⟨org.blk, 1024 * (L.joined c).start (i + 1)⟩ := by
    rw [← hp]
    simp only [Ptr.add, chkCapacity]
    congr 1
    omega
  rw [h.num, Exec.bind_of_ok hwrite, hbehind]
  unfold World.listed
  rw [h.num]
  rfl

theorem walkLoop_ok (hf : Fits env c L) (ht : Content.Tiling env.freeSize bs c) :
    forall (k i fuel acc : Nat) (w : World), i + k = c.num -> k ≤ fuel ->
      Walked env org w c L i ->
      exists w', ChkIndex.walkLoop (1024 * (L.joined c).start c.num) fuel
          ⟨org.blk, 1024 * (L.joined c).start i⟩ acc w =
          .ok (acc + ((L.joined c).start c.num - (L.joined c).start i), w') ∧
        Walked env org w' c L c.num ∧ Strolled org (8 * streamLength c L) w w' := by
  intro k
  induction k with
  | zero =>
      intro i fuel acc w hik _ h
      rw [Nat.add_zero] at hik
      subst hik
      refine ⟨w, ?_, h, Strolled.refl _ _ w⟩
      cases fuel with
      | zero =>
          unfold ChkIndex.walkLoop
          rw [if_neg (Nat.lt_irrefl _), Nat.sub_self]
          rfl
      | succ fuel =>
          unfold ChkIndex.walkLoop
          rw [if_neg (Nat.lt_irrefl _), Nat.sub_self]
          rfl
  | succ k ih =>
      intro i fuel acc w hik hfuel h
      have hi : i < c.num := by omega
      cases fuel with
      | zero => omega
      | succ fuel =>
          have hround := h.round_ok hf ht hi fuel acc
          rw [← L.joined_start c (k := i) (by omega)] at hround
          rcases ih (i + 1) fuel (acc + (L.joined c).cap i) _ (by omega) (by omega)
            (h.step hf ht hi) with ⟨w', hrun, h', hstrolled⟩
          refine ⟨w', ?_, h', (strolled org w hf ht hi).trans hstrolled⟩
          have hsucc := (L.joined c).start_succ i
          have hle := Layout.start_le (L := L.joined c) (k := i + 1) (n := c.num) (by omega)
          rw [hround, L.joined_start c (k := i) (by omega), hrun]
          rw [L.joined_start c (k := i) (by omega)] at hsucc
          congr 2
          omega

end Walked

/-!
## Taking over the buffer
-/

/-- The buffer holds the stream, and the compressed bytes are still there. -/
structure Filled (env : Env) (kind : AllocKind) (org q : Ptr) (w : World) (c : Content)
    (L : Layout) : Prop where
  walked : Walked env org w c L 0
  type : w.index.memAllocType = .max
  size_le : w.index.chkAddrSize ≤ 4094
  sane : Sane w.sys
  outer : Outer L w
  kind_ne : kind ≠ .caller
  buffer : exists size, w.sys.allocs org.blk = some ⟨kind, size⟩ ∧ streamLength c L ≤ size
  packed_off : q.off = 0
  packed : exists size, w.sys.allocs q.blk = some ⟨.unalign, size⟩
  apart : org.blk ≠ q.blk
  all : forall b a, w.sys.allocs b = some a -> a.kind ≠ .caller -> b = org.blk ∨ b = q.blk

/-- The chunks were found in the buffer and the compressed bytes are gone. -/
structure Adopted (env : Env) (kind : AllocKind) (org : Ptr) (w w' : World) (c : Content)
    (L : Layout) : Prop where
  joint : Joint env kind org w' c (L.joined c) 0
  own : forall k, 0 < k -> k < c.num -> (w'.chunkBits k).read 75 16 = 0
  above : forall j, 8 * streamLength c L ≤ j -> w'.bits org.blk j = w.bits org.blk j
  alloc : w'.sys.allocs org.blk = w.sys.allocs org.blk

namespace Filled

variable {env : Env} {kind : AllocKind} {org q : Ptr} {w : World} {c : Content} {L : Layout}
  {bs : List Block}

def owner (m : Bits) (total : Nat) : Bits :=
  (m.write 75 16 total).write (mgrPos + 64) 16 total

theorem owner_outside {m : Bits} {t j : Nat} (hj : 320 ≤ j) : owner m t j = m j := by
  unfold owner mgrPos
  rw [Bits.write_outside (by omega), Bits.write_outside (by omega)]

def adopted (w : World) (org q : Ptr) (total : Nat) : World :=
  let w' := (w.setView org (owner (w.view org) total)).released q.blk
  { w' with index := { w'.index with compressed := false } }

theorem joined_small (hf : Fits env c L) (ht : Content.Tiling env.freeSize bs c)
    (hpos : 0 < c.num) : (L.joined c).start c.num < 2 ^ 16 := by
  have hlast := lastCap_bounds hf ht hpos
  have hbound := hf.start_bound
  have hnum := hf.num_le
  have hle := Layout.start_add_le (L := L) (k := c.num - 1) (n := c.num) (by omega)
  rw [L.joined_start_all c hpos]
  omega

theorem adopted_allocs {w' : World} {t : Nat} {b : Nat} (hb : b ≠ q.blk)
    (hs : Strolled org (8 * streamLength c L) w w') :
    (adopted w' org q t).sys.allocs b = w.sys.allocs b := by
  rw [← hs.sys]
  exact World.released_allocs_other _ hb

theorem start_eq_org (hw : Walked env org w c L c.num) :
    (Ptr.mk org.blk (1024 * L.start 0)) = org := by
  have hs0 : L.start 0 = 0 := rfl
  rw [hs0, Nat.mul_zero, ← hw.off]

theorem adopted_first {w' : World} {t : Nat} (hw : Walked env org w' c L c.num)
    (hpos : 0 < c.num) : (adopted w' org q t).chunkBits 0 = owner (w'.view org) t := by
  have haddr : (adopted w' org q t).index.chkAddr 0 = ⟨org.blk, 1024 * L.start 0⟩ :=
    hw.addr 0 hpos
  unfold World.chunkBits
  rw [haddr, start_eq_org hw]
  exact World.view_setView w' org _

theorem adopted_other {w' : World} {t : Nat} (hf : Fits env c L)
    (hw : Walked env org w' c L c.num) {k : Nat} (hk : 0 < k) (hlt : k < c.num) (j : Nat) :
    (adopted w' org q t).chunkBits k j = w'.view ⟨org.blk, 1024 * L.start k⟩ j := by
  have haddr : (adopted w' org q t).index.chkAddr k = ⟨org.blk, 1024 * L.start k⟩ :=
    hw.addr k hlt
  have hstart := Layout.start_add_le (L := L) (k := 0) (n := k) hk
  have hone := hf.first (by omega)
  have hoff := hw.off
  unfold World.chunkBits
  rw [haddr]
  refine World.view_setView_apart (n := 320) (fun j hj => owner_outside hj) (Or.inr ?_)
  have hs0 : L.start 0 = 0 := rfl
  simp only
  omega

theorem adopted_image {w' : World} {t : Nat} (hf : Fits env c L)
    (ht : Content.Tiling env.freeSize bs c) (hw : Walked env org w' c L c.num) {k : Nat}
    (hk : k < c.num) : ChunkImage (c.body k) ((L.joined c).cap k) k (extent c L k)
      ((adopted w' org q t).chunkBits k) := by
  have himage := hw.image k hk
  rw [if_pos hk] at himage
  by_cases hz : k = 0
  · subst hz
    rw [start_eq_org hw] at himage
    rw [adopted_first hw hk]
    refine (himage.setAllocCapacity t).mgr rfl ?_
    intro j hj
    exact Bits.write_outside (by omega)
  · have hge := Walked.extent_ge hf ht hk
    have hr := Content.reserved_ge k
    exact himage.congr (by omega) fun j _ => adopted_other hf hw (by omega) hk j

theorem adopted_mgr {w' : World} {t : Nat} (hw : Walked env org w' c L c.num)
    (hpos : 0 < c.num) (ht : t < 2 ^ 16) :
    ((adopted w' org q t).bits org.blk).read 75 16 = t ∧
      MgrImage env.freeSize c ((adopted w' org q t).chunkBits 0) ∧
      ((adopted w' org q t).chunkBits 0).read (mgrPos + 64) 16 = t := by
  have hbits : (adopted w' org q t).bits org.blk = (adopted w' org q t).chunkBits 0 := by
    have haddr : (adopted w' org q t).index.chkAddr 0 = ⟨org.blk, 1024 * L.start 0⟩ :=
      hw.addr 0 hpos
    have hs0 : L.start 0 = 0 := rfl
    unfold World.chunkBits World.view
    rw [haddr, hs0]
    funext j
    rw [Bits.drop_apply, Nat.mul_zero, Nat.mul_zero, Nat.zero_add]
  rw [hbits, adopted_first hw hpos]
  refine ⟨?_, ?_, ?_⟩
  · unfold owner mgrPos
    rw [Bits.read_write_disjoint (by omega)]
    exact Bits.read_write_of_lt ht
  · refine MgrImage.setTotalCapacity (hw.mgr.congr rfl rfl rfl ?_) _
    intro j hj1 _
    unfold mgrPos at hj1
    exact Bits.write_outside (by omega)
  · exact Bits.read_write_of_lt ht

theorem adopted_outer (h : Filled env kind org q w c L) {w' : World} {t : Nat}
    (hs : Strolled org (8 * streamLength c L) w w') : Outer L (adopted w' org q t) := by
  intro b n m hb
  have hout := h.outer b n m hb
  have hneq : b ≠ q.blk := by
    intro heq
    rcases h.packed with ⟨size, hq⟩
    rw [← heq, hout.1] at hq
    cases hq
  have hneo : b ≠ org.blk := by
    intro heq
    rcases h.buffer with ⟨size, hbuf, _⟩
    rw [← heq, hout.1] at hbuf
    cases hbuf
    exact h.kind_ne rfl
  refine ⟨(adopted_allocs hneq hs).trans hout.1, ?_⟩
  rw [← hout.2, ← hs.bits b hneo]
  exact World.setView_bits_other w' org _ hneo

theorem adopted_joint (h : Filled env kind org q w c L) (hf : Fits env c L)
    (ht : Content.Tiling env.freeSize bs c) (hpos : 0 < c.num) {w' : World}
    (hw : Walked env org w' c L c.num) (hs : Strolled org (8 * streamLength c L) w w') :
    Joint env kind org (adopted w' org q ((L.joined c).start c.num)) c (L.joined c) 0 := by
  have hfit := hf.joined ht hpos
  have hmgr := adopted_mgr (q := q) hw hpos (joined_small hf ht hpos)
  refine ⟨hw.num, rfl, ?_, hw.size, ?_, ?_, h.adopted_outer hs, hfit, hw.off, fun k hk => by omega,
    fun k hk => by omega, fun k hk => by omega, fun k k' hk => by omega, ?_, h.kind_ne, ?_,
    ?_, fun k hk => by omega, fun k hk => by omega, ?_, hmgr.1, hmgr.2.1, ?_⟩
  · exact hs.type.trans h.type
  · exact Nat.le_trans (Nat.le_of_eq hs.size) h.size_le
  · have hsane := h.sane
    rw [← hs.sys] at hsane
    exact Sane.released (w := w'.setView org _) hsane q.blk
  · intro k _ hk
    rw [L.joined_start c (k := k) (by omega)]
    exact hw.addr k hk
  · rw [adopted_allocs h.apart hs, L.joined_start c (Nat.le_refl _)]
    exact h.buffer
  · intro b a hb hkind
    by_cases hbq : b = q.blk
    · rw [hbq] at hb
      have hnone : (adopted w' org q ((L.joined c).start c.num)).sys.allocs q.blk = none :=
        World.released_allocs_self _ _
      rw [hnone] at hb
      cases hb
    · rw [adopted_allocs hbq hs] at hb
      exact Or.inl ((h.all b a hb hkind).resolve_right hbq)
  · intro k _ hk
    rw [L.joined_extent c k]
    exact adopted_image hf ht hw hk
  · rw [hmgr.2.2, L.joined_settled c hpos]

theorem adopted_ok (h : Filled env kind org q w c L) (hf : Fits env c L)
    (ht : Content.Tiling env.freeSize bs c) (hpos : 0 < c.num) {w' : World}
    (hw : Walked env org w' c L c.num) (hs : Strolled org (8 * streamLength c L) w w') :
    Adopted env kind org w (adopted w' org q ((L.joined c).start c.num)) c L := by
  have hext0 := Walked.extent_ge hf ht hpos
  have hr0 : reserved 0 = 5 := rfl
  have hend0 := Uncompressed.extent_end (L := L) hpos
  have hs0 : L.start 0 = 0 := rfl
  have hoff := hw.off
  refine ⟨h.adopted_joint hf ht hpos hw hs, ?_, ?_, adopted_allocs h.apart hs⟩
  · intro k hk hlt
    rw [← hw.own k hlt]
    exact Bits.read_congr fun j _ => adopted_other hf hw hk hlt _
  · intro j hj
    have hge : 320 ≤ j := by omega
    rw [← hs.above j hj]
    show (w'.setView org _).bits org.blk j = _
    unfold World.setView World.setBits
    simp only [Function.update_self]
    rw [hoff, if_pos (by omega), owner_outside (by omega)]
    unfold World.view
    rw [hoff, Bits.drop_apply]
    congr 1
    omega

theorem adopt_ok (h : Filled env kind org q w c L) (hf : Fits env c L)
    (ht : Content.Tiling env.freeSize bs c) (hpos : 0 < c.num) :
    exists w', Adopted env kind org w w' c L ∧
      ChkIndex.adopt env q org (1024 * (L.joined c).start c.num) w =
        (if env.uncompressSplit = true then do
          let _ <- ChkIndex.splitContinuousChunk env
          pure 0
        else pure 0 : M Int) w' := by
  have hlast := lastCap_bounds hf ht hpos
  have hsize := h.walked.size
  have hoff := h.walked.off
  have hext0 := Walked.extent_ge hf ht hpos
  have hr0 : reserved 0 = 5 := rfl
  have hend0 := Uncompressed.extent_end (L := L) hpos
  have hs0 : L.start 0 = 0 := rfl
  have hle : c.num ≤ (L.joined c).start c.num := by
    have hcount := sumTo_mono (n := c.num) (f := fun _ => 1) (g := (L.joined c).cap)
      fun k hk => (hf.joined ht hpos).one_le k hk
    have hconst : sumTo c.num (fun _ => 1) = c.num := by
      unfold sumTo
      simp
    unfold Layout.start
    omega
  rcases Walked.walkLoop_ok hf ht c.num 0 ((L.joined c).start c.num + 1) 0 w (by omega)
    (by omega) h.walked with ⟨w', hrun, hw, hs⟩
  refine ⟨_, h.adopted_ok hf ht hpos hw hs, ?_⟩
  generalize htotal : (L.joined c).start c.num = total at *
  have hfirst : w'.index.chkAddr 0 = org := by
    rw [hw.addr 0 hpos, hs0, Nat.mul_zero, ← hoff]
  have hnum0 : { w with index := { w.index with chkNum := 0 } } = w := by
    have hnum := h.walked.num
    rw [← hnum]
  have horg : (Ptr.mk org.blk (1024 * (L.joined c).start 0)) = org := by
    rw [show (L.joined c).start 0 = 0 from rfl, Nat.mul_zero, ← hoff]
  have hsmall : total < 2 ^ 16 := by
    have hbound := hf.start_bound
    have hnum := hf.num_le
    have hcap := Layout.start_add_le (L := L) (k := c.num - 1) (n := c.num) (by omega)
    have hstart := L.joined_start_all c hpos
    omega
  have hin : forall m o n, 8 * o + n ≤ 320 -> (w'.setView org m).sys.Inside (org.add o) n := by
    intro m o n hn
    rcases hw.room with ⟨a, ha, hle'⟩
    refine ⟨a, ha, ?_⟩
    simp only [Ptr.add]
    omega
  have hstart : modifyIndex (fun x => { x with chkNum := 0 }) w = .ok ((), w) := by
    unfold modifyIndex
    rw [Exec.update_apply]
    exact congrArg (fun v : World => (Except.ok ((), v) : Except Fault (Unit × World))) hnum0
  rw [horg, show (L.joined c).start 0 = 0 from rfl, Nat.zero_add, Nat.sub_zero] at hrun
  have hread : readChkAddr 0 w' = .ok (org, w') := by
    have hread := readChkAddr_of (w := w') (i := 0) (by rw [hs.size]; omega)
    rw [hfirst] at hread
    exact hread
  -- the first chunk becomes the owner
  have hown : store org ChkMetadata.allocCapacity total w' =
      .ok ((), w'.setView org ((w'.view org).write 75 16 total)) := by
    have hroom : w'.sys.Inside (org.add 0) 91 := hin (w'.view org) 0 91 (by omega)
    exact store_at (f := ChkMetadata.allocCapacity) hroom total
  have hload : load org ChkMetadata.allocCapacity
      (w'.setView org ((w'.view org).write 75 16 total)) =
      .ok (total, w'.setView org ((w'.view org).write 75 16 total)) := by
    have hrun := load_at (f := ChkMetadata.allocCapacity)
      (hin ((w'.view org).write 75 16 total) 0 _ (by decide))
    rw [World.view_setView] at hrun
    have hval : ((w'.view org).write 75 16 total).read (8 * 0 + ChkMetadata.allocCapacity.pos)
        ChkMetadata.allocCapacity.width = total := Bits.read_write_of_lt hsmall
    rw [hval] at hrun
    exact hrun
  have hmgr : ChkIndex.memMgr (w'.setView org ((w'.view org).write 75 16 total)) =
      .ok (org.add 16, w'.setView org ((w'.view org).write 75 16 total)) := by
    have hread' : readChkAddr 0 (w'.setView org ((w'.view org).write 75 16 total)) =
        .ok (org, w'.setView org ((w'.view org).write 75 16 total)) := by
      have hread' := readChkAddr_of
        (w := w'.setView org ((w'.view org).write 75 16 total)) (i := 0) (by
          show 0 < w'.index.chkAddrSize
          rw [hs.size]
          omega)
      rw [World.setView_index, hfirst] at hread'
      exact hread'
    unfold ChkIndex.memMgr
    rw [Exec.bind_of_ok (getIndex_apply _), World.setView_index, hw.num, if_neg (by omega),
      Exec.bind_of_ok hread']
    rfl
  have htotal' : store (org.add 16) ChkMemMgr.totalCapacity total
      (w'.setView org ((w'.view org).write 75 16 total)) =
      .ok ((), w'.setView org (owner (w'.view org) total)) := by
    have hrun := store_at (f := ChkMemMgr.totalCapacity)
      (hin ((w'.view org).write 75 16 total) 16 _ (by decide)) total
    rw [World.view_setView, World.setView_setView] at hrun
    exact hrun
  have hrelease : unalignDellocate q (w'.setView org (owner (w'.view org) total)) =
      .ok ((), (w'.setView org (owner (w'.view org) total)).released q.blk) := by
    apply release_ok
    refine ⟨h.packed_off, ?_⟩
    rcases h.packed with ⟨size, hq⟩
    rw [World.setView_sys, hs.sys, hq]
    rfl
  have hkb : setChkCapacity (1024 * total) = total := by
    simp only [setChkCapacity]
    omega
  unfold ChkIndex.adopt
  rw [Exec.bind_of_ok hstart, hoff, Nat.zero_add,
    show 1024 * total / 1024 = total by omega, Exec.bind_of_ok hrun, Exec.bind_of_ok hread, hkb,
    Exec.bind_of_ok hown, Exec.bind_of_ok hload, Exec.bind_of_ok (Exec.require_of rfl _ _),
    Exec.bind_of_ok hmgr, Exec.bind_of_ok htotal', Exec.bind_of_ok hrelease]
  exact Exec.bind_of_ok (Exec.update_apply _ _)

end Filled

theorem Adopted.whole {env : Env} {org : Ptr} {w w' : World} {c : Content} {L : Layout}
    {bs : List Block} (h : Adopted env .chunk org w w' c L) (hf : Fits env c L)
    (ht : Content.Tiling env.freeSize bs c) (hpos : 0 < c.num)
    (hone : env.uncompressSplit = true -> c.num = 1)
    (hroom : exists size, w.sys.allocs org.blk = some ⟨.chunk, size⟩ ∧
      env.chunkBufSize (1024 * (L.joined c).start c.num) ≤ size)
    (hclear : forall j, 8 * streamLength c L ≤ j -> w.bits org.blk j = false) :
    Uncompressed env w' c (L.joined c) := by
  have hj := h.joint
  have hfit := hf.joined ht hpos
  have hholder : forall k, k < c.num -> (L.joined c).holder k = 0 :=
    fun k hk => Layout.holder_of_shared hk
  have hbase : forall k, k < c.num -> (L.joined c).base k = (L.joined c).start k :=
    fun k hk => Layout.base_of_shared hk
  have haddr : forall k, k < c.num ->
      w'.index.chkAddr k = ⟨org.blk, 1024 * (L.joined c).start k⟩ :=
    fun k hk => hj.stays k (Nat.zero_le k) hk
  refine ⟨hj.num, hj.flag, hj.type, hj.size, hj.size_le, hj.sane, hj.outer, ?_, ?_, ?_, ?_,
    fun _ => hj.mgr, fun _ => hj.total⟩
  · exact ⟨hfit.num_le, hfit.one_le, hfit.cap_le, hfit.virgin_le, hfit.first, hpos,
      Nat.le_max_right 1 _, hone⟩
  · constructor
    · intro k hk
      rw [hholder k hk, hbase k hk, haddr k hk, haddr 0 hpos]
    · intro k hk hself
      rw [hholder k hk] at hself
      subst hself
      rw [haddr 0 hpos, Layout.own_zero, h.alloc]
      exact hroom
    · intro k k' hk hk' hself hself' _
      rw [hholder k hk] at hself
      rw [hholder k' hk'] at hself'
      omega
    · intro b a hb hkind
      refine ⟨0, hpos, hholder 0 hpos, ?_⟩
      rcases hj.all b a hb hkind with horg | ⟨k, hk, _⟩
      · rw [haddr 0 hpos, horg]
      · omega
  · intro k hk
    have himage := hj.image_stays k (Nat.zero_le k) hk
    have hr := ht.reserved_le k hk
    have hge := Walked.extent_ge hf ht hk
    have hr2 := Content.reserved_ge k
    rw [L.joined_extent c k] at himage
    refine himage.user (fun _ _ => rfl) rfl rfl ?_
    intro j hj1 hj2
    by_cases hin : j < extent c L k
    · exact himage.data j hj1 hin
    · -- only the last chunk reaches beyond the stream, into cleared memory
      have hk' : k = c.num - 1 := by
        by_contra hne
        have hm : ¬env.memalign = true := by
          intro hm
          have := hone (env.split_of_memalign hm)
          omega
        unfold extent at hin
        rw [if_pos (by omega)] at hin
        unfold Env.reach at hj2
        rw [if_neg hm, L.joined_cap_other c hne] at hj2
        omega
      have hvirgin : 64 * (c.body k).virgin ≤ j := by
        unfold extent at hin
        rw [if_neg (by omega)] at hin
        omega
      rw [ht.above k hk j hvirgin]
      unfold World.chunkBits World.view
      rw [haddr k hk, L.joined_start c (by omega), Bits.drop_apply]
      have hstream : 8 * streamLength c L ≤ 8 * (1024 * L.start k) + j := by
        unfold streamLength
        rw [← hk']
        omega
      rw [h.above _ hstream]
      exact hclear _ hstream
  · intro k hk
    by_cases hz : k = 0
    · subst hz
      have hown := hj.owner
      rw [Layout.own_zero]
      have hbits : w'.chunkBits 0 = w'.bits org.blk := (hj.first hpos).2
      rw [hbits]
      exact hown
    · rw [Layout.own_of_shared hz hk]
      exact h.own k (by omega) hk

/-!
## The operation
-/

namespace Compressed

variable {env : Env} {w w' : World} {c : Content} {L : Layout} {bs : List Block}

open Uncompressed in
theorem of_beside (h : Compressed env w c L) (hb : Beside w w')
    (hnone : forall b, w.sys.allocs b = none -> w'.sys.allocs b = none)
    (hsane : Sane w'.sys) : Compressed env w' c L := by
  have hallocs : w'.sys.allocs = w.sys.allocs := by
    funext b
    by_cases hlive : w.sys.allocs b = none
    · rw [hlive, hnone b hlive]
    · exact hb.allocs b hlive
  refine ⟨h.pos, ?_, ?_, ?_, ?_, ?_, hsane, ?_, h.fits, ?_, ?_⟩
  · rw [hb.index]
    exact h.num
  · rw [hb.index]
    exact h.flag
  · rw [hb.index]
    exact h.type
  · rw [hb.index]
    exact h.size
  · rw [hb.index]
    exact h.size_le
  · intro b n m hout
    have hold := h.outer b n m hout
    rw [hallocs, hb.bits b (by rw [hold.1]; exact Option.some_ne_none _)]
    exact hold
  · rcases h.packed with ⟨data, hunpacked, hp⟩
    have hbits := hb.bits (w.index.chkAddr 0).blk (by
      rw [hp.alloc]
      exact Option.some_ne_none _)
    refine ⟨data, hunpacked, ?_, ?_, ?_, ?_⟩
    · rw [hb.index]
      exact hp.off
    · rw [hb.index, hallocs]
      exact hp.alloc
    · rw [hb.index, hbits]
      exact hp.length
    · rw [hb.index, hbits]
      exact hp.bytes
  · rw [hb.index, hallocs]
    exact h.all

theorem skipped (h : Compressed env w c L) : Compressed env w.skipped c L :=
  h.of_beside ⟨rfl, fun _ _ => rfl, fun _ _ => rfl⟩ (fun _ hb => hb) h.sane.skipped

theorem filled (h : Compressed env w c L) (ht : Content.Tiling env.freeSize bs c)
    {data : List Byte} (hu : Unpacked env c L data) {kind : AllocKind} (hkind : kind ≠ .caller)
    {size : Nat} (hsize : streamLength c L ≤ size)
    (m : Bits) :
    Filled env kind w.freshPtr (w.index.chkAddr 0)
      (w.obtained kind size (m.writeBytes 0 data)).skipped c L := by
  rcases h.packed with ⟨_, _, hp⟩
  have hqne : (w.index.chkAddr 0).blk ≠ w.sys.next := h.sane.ne_next hp.alloc
  have hbits : forall j, j < 8 * streamLength c L ->
      (m.writeBytes 0 data) j = Bits.ofBytes data j := by
    intro j hj
    rw [← hu.length] at hj
    rw [Bits.writeBytes_inside (by omega) (by omega), Nat.mul_zero, Nat.sub_zero]
  have hview : forall o, (w.obtained kind size (m.writeBytes 0 data)).skipped.view
      ⟨w.freshPtr.blk, o⟩ = (m.writeBytes 0 data).drop (8 * o) := by
    intro o
    unfold World.view
    rw [World.skipped_bits, show w.freshPtr.blk = w.sys.next from rfl,
      World.obtained_bits_self]
  have halloc := World.obtained_allocs_self w kind size (m.writeBytes 0 data)
  refine ⟨⟨h.num, h.size, rfl, fun k hk => by omega, ⟨_, halloc, ?_⟩, ?_, fun k hk => by omega,
    ?_⟩, h.type, h.size_le, (h.sane.obtained kind size _).skipped, ?_, hkind,
    ⟨size, halloc, hsize⟩, hp.off, ?_, Ne.symm hqne, ?_⟩
  · show 8 * 0 + _ ≤ 8 * size
    omega
  · intro k hk
    have himage := hu.image k hk
    have hend := Uncompressed.extent_end (L := L) hk
    have hge := Walked.extent_ge h.fits ht hk
    have hr := Content.reserved_ge k
    rw [if_neg (by omega), hview]
    refine himage.congr (by omega) fun j hj => ?_
    rw [Bits.drop_apply, hbits _ (by omega), Bits.drop_apply]
    congr 1
    omega
  · have hge := Walked.extent_ge h.fits ht h.pos
    have hr0 : reserved 0 = 5 := rfl
    have hend := Uncompressed.extent_end (L := L) h.pos
    have hs0 : L.start 0 = 0 := rfl
    apply hu.mgr.congr rfl rfl rfl
    intro j _ hj
    unfold mgrPos at hj
    have hfirst := hview 0
    change (w.obtained kind size (m.writeBytes 0 data)).skipped.view w.freshPtr = _ at hfirst
    rw [hfirst, Bits.drop_apply, Nat.mul_zero, Nat.zero_add, hbits j (by omega)]
  · intro b n m' hb
    have hout := h.outer b n m' hb
    have hne := h.sane.ne_next hout.1
    rw [World.skipped_bits, World.skipped_allocs, World.obtained_allocs_other w kind size _ hne,
      World.obtained_bits_other w kind size _ hne]
    exact hout
  · rw [World.skipped_allocs, World.obtained_allocs_other w kind size _ hqne]
    exact ⟨_, hp.alloc⟩
  · intro b a hb hak
    by_cases hnew : b = w.sys.next
    · exact Or.inl hnew
    · rw [World.skipped_allocs, World.obtained_allocs_other w kind size _ hnew] at hb
      exact Or.inr (h.all b a hb hak)

theorem released_fresh (h : Compressed env w c L) (kind : AllocKind) (size : Nat) (m : Bits) :
    Compressed env ((w.obtained kind size m).skipped.released w.freshPtr.blk) c L := by
  have hdead : w.sys.allocs w.freshPtr.blk = none := h.sane.fresh _ (Nat.le_refl _)
  refine h.of_beside ?_ ?_ ((h.sane.obtained kind size m).skipped.released _)
  · have hb := (Uncompressed.Beside.refl w).obtained h.sane kind size m
    have hb' : Uncompressed.Beside w (w.obtained kind size m).skipped :=
      ⟨hb.index, hb.allocs, hb.bits⟩
    exact hb'.released hdead
  · intro b hb
    by_cases hnew : b = w.freshPtr.blk
    · rw [hnew]
      exact World.released_allocs_self _ _
    · rw [World.released_allocs_other _ hnew, World.skipped_allocs,
        World.obtained_allocs_other w kind size m hnew]
      exact hb

/-- What the buffer must be for the chunks to be taken over. -/
structure Buffer (env : Env) (c : Content) (L : Layout) (kind : AllocKind) (size : Nat)
    (m : Bits) : Prop where
  size_le : streamLength c L ≤ size
  direct : kind = .chunk -> m = Bits.zero ∧ (env.uncompressSplit = true -> c.num = 1) ∧
    env.chunkBufSize (1024 * (L.joined c).start c.num) ≤ size
  malloc : kind ≠ .chunk -> kind = .system ∧ env.uncompressSplit = true ∧ 1 < c.num

/-- The buffer is taken over and, where the program asks for it, split. -/
theorem adopt_ensures (h : Compressed env w c L) (ht : Content.Tiling env.freeSize bs c)
    {data : List Byte} (hu : Unpacked env c L data) {kind : AllocKind} {size : Nat} {m : Bits}
    (hbuffer : Buffer env c L kind size m) :
    Exec.Ensures (ChkIndex.adopt env (w.index.chkAddr 0) w.freshPtr
        (1024 * (L.joined c).start c.num)
        (w.obtained kind size (m.writeBytes 0 data)).skipped)
      (fun r w' => r = 0 ∧ Uncompressed env w' c (L.restored env c)) (Tolerated env) := by
  have hkind : kind ≠ .caller := by
    by_cases hk : kind = .chunk
    · rw [hk]
      decide
    · rw [(hbuffer.malloc hk).1]
      decide
  have hfilled := h.filled ht hu hkind hbuffer.size_le m
  rcases hfilled.adopt_ok h.fits ht h.pos with ⟨w₁, hadopted, hrun⟩
  have hset := L.joined_settled c h.pos
  rw [hrun]
  by_cases hk : kind = .chunk
  · subst hk
    rcases hbuffer.direct rfl with ⟨rfl, hone, hbuf⟩
    have hwhole := hadopted.whole h.fits ht h.pos hone
      ⟨size, World.obtained_allocs_self w .chunk size (Bits.zero.writeBytes 0 data), hbuf⟩ (by
        intro j hj
        rw [World.skipped_bits, show w.freshPtr.blk = w.sys.next from rfl,
          World.obtained_bits_self, Bits.writeBytes_outside (by rw [hu.length]; omega)]
        rfl)
    by_cases hs : env.uncompressSplit = true
    · have hnum := hone hs
      have hsame : L.restored env c = L.joined c := by
        unfold Layout.restored Layout.apart
        rw [if_pos hs]
        show Layout.mk 1 _ _ _ = _
        rw [← hnum]
        rfl
      rw [if_pos hs, hsame]
      refine Exec.Ensures.bind (hwhole.split_ensures ht hset) ?_
      rintro r w₂ ⟨-, ⟨hn, -, -⟩ | ⟨-, rfl⟩⟩
      · omega
      · exact ⟨rfl, hwhole⟩
    · have hsame : L.restored env c = L.joined c := if_neg hs
      rw [if_neg hs, hsame]
      exact ⟨rfl, hwhole⟩
  · rcases hbuffer.malloc hk with ⟨rfl, hs, hn⟩
    have hsame : L.restored env c = (L.joined c).apart := if_pos hs
    rw [if_pos hs, hsame]
    refine Exec.Ensures.bind (hadopted.joint.split_ensures ht hset hn (if_pos hs).symm) ?_
    rintro r w₂ ⟨-, hsplit⟩
    exact ⟨rfl, hsplit⟩

theorem align_streamLength (h : Compressed env w c L) :
    chkAlignCapaicty (streamLength c L) = 1024 * (L.joined c).start c.num := by
  have hbound := h.fits.start_bound
  have hnum := h.fits.num_le
  have hpos := h.pos
  have hstart := Layout.start_le (L := L) (k := c.num - 1) (n := c.num) (by omega)
  have hfit := h.fits.virgin_le (c.num - 1) (by omega)
  have hcap := h.fits.cap_le (c.num - 1) (by omega)
  rw [L.joined_start_all c hpos]
  unfold chkAlignCapaicty streamLength lastCap Uncompressed.shrunk
  omega

theorem direct_le (h : Compressed env w c L) (ht : Content.Tiling env.freeSize bs c) :
    1024 * (L.joined c).start c.num ≤ chkMaxChksize <-> c.num = 1 := by
  have hpos := h.pos
  have hlast := lastCap_bounds h.fits ht hpos
  have hcap := h.fits.cap_le (c.num - 1) (by omega)
  have hstart := L.joined_start_all c hpos
  simp only [chkMaxChksize]
  constructor
  · intro hle
    by_contra hne
    have hfirst := h.fits.first (by omega)
    have hadd := Layout.start_add_le (L := L) (k := 0) (n := c.num - 1) (by omega)
    omega
  · intro hone
    have hs0 : L.start 0 = 0 := rfl
    rw [hone] at hstart hlast hcap
    rw [hone]
    simp only [Nat.sub_self] at hstart hlast hcap
    omega

theorem buffer_ensures (h : Compressed env w c L) (ht : Content.Tiling env.freeSize bs c) :
    Exec.Ensures
      ((if decide (env.uncompressSplit = false ∨
            1024 * (L.joined c).start c.num ≤ chkMaxChksize) = true then
          allocate env (1024 * (L.joined c).start c.num)
        else malloc env (streamLength c L) : M Ptr) w)
      (fun p w' => (p = Ptr.null ∧ ¬env.AllOk ∧ w' = w.skipped) ∨
        (p = w.freshPtr ∧ exists kind size m, w' = w.obtained kind size m ∧
          Buffer env c L kind size m ∧ kind = if env.uncompressSplit = false ∨
            1024 * (L.joined c).start c.num ≤ chkMaxChksize then .chunk else .system))
      (Tolerated env) := by
  have hpos := h.pos
  have hlast := lastCap_bounds h.fits ht hpos
  have hstart := L.joined_start_all c hpos
  have hstream : streamLength c L ≤ 1024 * (L.joined c).start c.num := by
    unfold streamLength
    omega
  by_cases hdirect : env.uncompressSplit = false ∨
      1024 * (L.joined c).start c.num ≤ chkMaxChksize
  · have hpool : env.memalign = true ->
        1024 * (L.joined c).start c.num ≤ chkMaxChksize := by
      intro hm
      refine hdirect.resolve_left ?_
      rw [env.split_of_memalign hm]
      decide
    rw [if_pos (decide_eq_true hdirect)]
    refine (allocate_ensures h.sane hpool).mono ?_ (fun _ he => he)
    rintro p w' (⟨rfl, rfl⟩ | ⟨rfl, hfail, rfl⟩)
    · have hbuf := env.le_chunkBufSize hpool
      refine Or.inr ⟨rfl, .chunk, _, _, rfl, ⟨by omega, fun _ => ⟨rfl, ?_, Nat.le_refl _⟩,
        fun hne => absurd rfl hne⟩, (if_pos hdirect).symm⟩
      intro hs
      exact (h.direct_le ht).mp (hdirect.resolve_left (by rw [hs]; decide))
    · exact Or.inl ⟨rfl, hfail, rfl⟩
  · rcases not_or.mp hdirect with ⟨hs, hlarge⟩
    have hs' : env.uncompressSplit = true := by
      cases hval : env.uncompressSplit with
      | true => rfl
      | false => exact absurd hval hs
    have hn : 1 < c.num := by
      have := mt (h.direct_le ht).mpr hlarge
      omega
    rw [if_neg (by rw [decide_eq_true_iff]; exact hdirect)]
    unfold malloc
    rw [Exec.bind_of_ok (Exec.state_apply _)]
    rcases obtain_cases env w .system (streamLength c L) (env.junk w.sys.next) with
      hrun | ⟨hfail, hrun⟩
    · rw [hrun]
      exact Or.inr ⟨rfl, .system, _, _, rfl, ⟨Nat.le_refl _, (fun hk => by cases hk),
        fun _ => ⟨rfl, hs', hn⟩⟩, (if_neg hdirect).symm⟩
    · rw [hrun]
      exact Or.inl ⟨rfl, hfail, rfl⟩

theorem loads_packed {q : Ptr} {data : List Byte} (hp : PackedAt env w q data) :
    load q ⟨0, 32⟩ w = .ok ((env.snappy.compress data).length + 4, w) ∧
      loadBytes (q.add 4) (env.snappy.compress data).length w =
        .ok (env.snappy.compress data, w) := by
  have hin : forall o n, 8 * o + n ≤ 8 * ((env.snappy.compress data).length + 4) ->
      w.sys.Inside (q.add o) n := by
    intro o n hn
    refine ⟨_, hp.alloc, ?_⟩
    simp only [Ptr.add, hp.off]
    omega
  have hview : w.view q = w.bits q.blk := by
    unfold World.view
    rw [hp.off]
    funext j
    rw [Bits.drop_apply, Nat.mul_zero, Nat.zero_add]
  constructor
  · have hrun := load_at (f := ⟨0, 32⟩) (hin 0 32 (by omega))
    rw [hview] at hrun
    rw [← hp.length]
    exact hrun
  · have hrun := loadBytes_at (hin 4 (8 * (env.snappy.compress data).length) (by omega))
    rw [hview, hp.bytes] at hrun
    exact hrun

/-- `ChkIndex::uncompress` on a compressed index: the chunks are back, or
memory was short and the index is still compressed. -/
theorem uncompress_ensures (h : Compressed env w c L)
    (ht : Content.Tiling env.freeSize bs c) :
    Exec.Ensures (ChkIndex.uncompress env w)
      (fun r w' => (r = 0 ∧ Uncompressed env w' c (L.restored env c)) ∨
        (r ≠ 0 ∧ ¬env.AllOk ∧ Compressed env w' c L))
      (Tolerated env) := by
  have hpos := h.pos
  have hsize := h.size
  have hlast := lastCap_bounds h.fits ht hpos
  have halign := h.align_streamLength
  have hstart := L.joined_start_all c hpos
  rcases h.packed with ⟨data, hu, hp⟩
  have hread : readChkAddr 0 w = .ok (w.index.chkAddr 0, w) := readChkAddr_of (by omega)
  rcases loads_packed hp with ⟨hlen, hbytes⟩
  unfold ChkIndex.uncompress
  rw [Exec.bind_of_ok (getIndex_apply w), if_neg (by rw [h.flag]; decide),
    Exec.bind_of_ok hread, Exec.bind_of_ok hlen, Nat.add_sub_cancel, Exec.bind_of_ok hbytes]
  rcases sysCall_cases env w with hcall | ⟨hfail, hcall⟩
  · rw [Exec.bind_of_ok hcall]
    simp only [if_true, env.snappy.uncompressedLength_compress, hu.length, halign]
    have h₁ := h.skipped
    rw [Exec.ite_bind]
    refine Exec.Ensures.bind (h₁.buffer_ensures ht) ?_
    rintro p w₁ (⟨rfl, hfail, rfl⟩ | ⟨rfl, kind, size, m, rfl, hbuffer, hkind⟩)
    · rw [if_pos rfl]
      exact Or.inr ⟨by decide, hfail, h₁.skipped⟩
    · rw [if_neg h₁.sane.freshPtr_ne_null]
      rcases sysCall_cases env (w.skipped.obtained kind size m) with hraw | ⟨hfail, hraw⟩
      · rw [Exec.bind_of_ok hraw]
        simp only [if_true, env.snappy.uncompress_compress]
        have hroom : ((w.skipped.obtained kind size m).skipped).sys.Inside
            (w.skipped.freshPtr.add 0) (8 * data.length) := by
          have hsize := hbuffer.size_le
          rw [hu.length]
          exact World.obtained_inside w.skipped kind size m (by omega)
        have hstore : storeBytes w.skipped.freshPtr data
            (w.skipped.obtained kind size m).skipped =
            .ok ((), (w.skipped.obtained kind size (m.writeBytes 0 data)).skipped) := by
          have hrun := storeBytes_at hroom
          have hview : (w.skipped.obtained kind size m).skipped.view w.skipped.freshPtr = m :=
            World.view_obtained_self w.skipped kind size m
          have hset : forall m', (w.skipped.obtained kind size m).skipped.setView
              w.skipped.freshPtr m' = (w.skipped.obtained kind size m').skipped :=
            fun m' => congrArg World.skipped (World.obtained_setView w.skipped kind size m m')
          rw [hview, hset] at hrun
          exact hrun
        rw [Exec.bind_of_ok hstore]
        exact (h₁.adopt_ensures ht hu hbuffer).mono (fun r w' hr => Or.inl hr)
          (fun _ he => he)
      · rw [Exec.bind_of_ok hraw]
        have hback : ((if decide (env.uncompressSplit = false ∨
              1024 * (L.joined c).start c.num ≤ chkMaxChksize) = true then
            dellocate env w.skipped.freshPtr (1024 * (L.joined c).start c.num)
          else sysFree w.skipped.freshPtr : M Unit)
            (w.skipped.obtained kind size m).skipped) =
            .ok ((), (w.skipped.obtained kind size m).skipped.released
              w.skipped.freshPtr.blk) := by
          have howns : (w.skipped.obtained kind size m).skipped.sys.Owns kind
              w.skipped.freshPtr := by
            refine ⟨rfl, ?_⟩
            rw [World.skipped_allocs, show w.skipped.freshPtr.blk = w.skipped.sys.next from rfl,
              World.obtained_allocs_self]
            rfl
          by_cases hdirect : env.uncompressSplit = false ∨
              1024 * (L.joined c).start c.num ≤ chkMaxChksize
          · rw [if_pos hdirect] at hkind
            subst hkind
            rw [if_pos (decide_eq_true hdirect)]
            refine dellocate_ok howns fun hm => hdirect.resolve_left ?_
            rw [env.split_of_memalign hm]
            decide
          · rw [if_neg hdirect] at hkind
            subst hkind
            rw [if_neg (by rw [decide_eq_true_iff]; exact hdirect)]
            exact release_ok howns
        simp only [Bool.false_eq_true, if_false]
        rw [Exec.ite_bind, Exec.bind_of_ok hback]
        exact Or.inr ⟨by decide, hfail, h₁.released_fresh kind size m⟩
  · rw [Exec.bind_of_ok hcall]
    exact Or.inr ⟨by decide, hfail, h.skipped⟩

end Compressed

end ChunkMem
