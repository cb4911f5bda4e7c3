import ChunkMem.Refinement.Alloc

/-!
# Tearing the chunk table down

`destruct` walks the table from the last chunk to the first and releases
the allocation of every chunk that owns one.  A chunk in the shared allocation
is read before its owner, the first chunk, is released.
-/

namespace ChunkMem

open Foundation

/-- What the loop needs of the chunks it has not reached yet; other allocations
may be around. -/
structure Standing (env : Env) (w : World) (L : Layout) (i : Nat) : Prop where
  size : i ≤ w.index.chkAddrSize
  off : forall k, k < i -> L.holder k = k -> (w.index.chkAddr k).off = 0
  blk : forall k, k < i -> (w.index.chkAddr k).blk = (w.index.chkAddr (L.holder k)).blk
  alloc : forall k, k < i -> L.holder k = k ->
    (w.sys.allocs (w.index.chkAddr k).blk).map Allocation.kind = some .chunk
  room : forall k, k < i -> w.sys.Inside (w.index.chkAddr k) 91
  distinct : forall k k', k < i -> k' < i -> L.holder k = k -> L.holder k' = k' ->
    (w.index.chkAddr k).blk = (w.index.chkAddr k').blk -> k = k'
  own : forall k, k < i -> (w.chunkBits k).read 75 16 = L.own k
  own_ne : forall k, k < i -> (L.own k ≠ 0 <-> L.holder k = k)
  own_le : env.memalign = true -> forall k, k < i -> 1024 * L.own k ≤ 16384

/-- The allocations of the first `i` chunks. -/
def World.Holds (w : World) (L : Layout) (i b : Nat) : Prop :=
  exists k, k < i ∧ L.holder k = k ∧ (w.index.chkAddr k).blk = b

/-- The first `i` chunks are gone from the table and from memory. -/
structure TornDown (L : Layout) (i : Nat) (w w' : World) : Prop where
  bits : w'.bits = w.bits
  index : exists f, w'.index = { w.index with chkAddr := f }
  next : w'.sys.next = w.sys.next
  gone : forall b, w.Holds L i b -> w'.sys.allocs b = none
  kept : forall b, ¬w.Holds L i b -> w'.sys.allocs b = w.sys.allocs b

section

variable {env : Env} {w : World} {L : Layout}

theorem Standing.destruct_ok {i : Nat} (h : Standing env w L (i + 1)) :
    ChkMetadata.destruct env (w.index.chkAddr i) w =
      .ok ((), if L.holder i = i then w.released (w.index.chkAddr i).blk else w) := by
  have hload : load (w.index.chkAddr i) ChkMetadata.allocCapacity w = .ok (L.own i, w) := by
    rw [← h.own i (Nat.lt_succ_self i)]
    exact load_at (o := 0) (f := ChkMetadata.allocCapacity) (h.room i (Nat.lt_succ_self i))
  have howner := h.own_ne i (Nat.lt_succ_self i)
  unfold ChkMetadata.destruct
  rw [Exec.bind_of_ok hload]
  by_cases hself : L.holder i = i
  · rw [if_pos (howner.mpr hself), if_pos hself]
    apply dellocate_ok
    · exact ⟨h.off i (Nat.lt_succ_self i) hself, h.alloc i (Nat.lt_succ_self i) hself⟩
    · intro hm
      have hle := h.own_le hm i (Nat.lt_succ_self i)
      simp only [chkCapacity, chkMaxChksize]
      omega
  · rw [if_neg fun hne => hself (howner.mp hne), if_neg hself]
    rfl

theorem Standing.step {i : Nat} (h : Standing env w L (i + 1)) (p : Ptr) :
    Standing env { (if L.holder i = i then w.released (w.index.chkAddr i).blk else w) with
      index := { w.index with chkAddr := Function.update w.index.chkAddr i p } } L i := by
  generalize hw' : (if L.holder i = i then w.released (w.index.chkAddr i).blk else w) = w'
  have haddr : forall k, k < i -> Function.update w.index.chkAddr i p k = w.index.chkAddr k :=
    fun k hk => Function.update_of_ne (by omega) ..
  have hbits : w'.bits = w.bits := by
    rw [← hw']
    split <;> rfl
  -- what is left lies in other allocations
  have halloc : forall k, k < i ->
      w'.sys.allocs (w.index.chkAddr k).blk = w.sys.allocs (w.index.chkAddr k).blk := by
    intro k hk
    rw [← hw']
    split
    · next hself =>
        apply World.released_allocs_other
        intro heq
        have hle := L.holder_le k
        rw [h.blk k (by omega)] at heq
        have := h.distinct (L.holder k) i (by omega) (by omega) (L.holder_holder k) hself heq
        omega
    · rfl
  have hle := L.holder_le
  constructor
  · exact Nat.le_of_succ_le h.size
  · intro k hk hself
    simp only [haddr k hk]
    exact h.off k (by omega) hself
  · intro k hk
    simp only [haddr k hk, haddr (L.holder k) (by have := hle k; omega)]
    exact h.blk k (by omega)
  · intro k hk hself
    simp only [haddr k hk, halloc k hk]
    exact h.alloc k (by omega) hself
  · intro k hk
    simp only [haddr k hk]
    rcases h.room k (by omega) with ⟨a, ha, hroom⟩
    exact ⟨a, by rw [← ha]; exact halloc k hk, hroom⟩
  · intro k k' hk hk' hself hself' hblk
    simp only [haddr k hk, haddr k' hk'] at hblk
    exact h.distinct k k' (by omega) (by omega) hself hself' hblk
  · intro k hk
    rw [← h.own k (by omega)]
    unfold World.chunkBits World.view
    simp only [haddr k hk, hbits]
  · intro k hk
    exact h.own_ne k (by omega)
  · intro hm k hk
    exact h.own_le hm k (by omega)

theorem destructLoop_ok : forall (i : Nat) (w : World), Standing env w L i ->
    exists w', ChkIndex.destructLoop env i w = .ok ((), w') ∧ TornDown L i w w' := by
  intro i
  induction i with
  | zero =>
      intro w _
      exact ⟨w, rfl, rfl, ⟨_, rfl⟩, rfl, fun b ⟨k, hk, _⟩ => by omega, fun _ _ => rfl⟩
  | succ i ih =>
      intro w h
      have hsize := h.size
      have hstep := h.step Ptr.null
      have hrun := h.destruct_ok
      have hnone : L.holder i = i -> forall b, b = (w.index.chkAddr i).blk ->
          (if L.holder i = i then w.released (w.index.chkAddr i).blk else w).sys.allocs b =
            none := by
        intro hself b hb
        rw [if_pos hself, hb]
        exact World.released_allocs_self _ _
      have hother : forall b, (L.holder i = i -> b ≠ (w.index.chkAddr i).blk) ->
          (if L.holder i = i then w.released (w.index.chkAddr i).blk else w).sys.allocs b =
            w.sys.allocs b := by
        intro b hb
        split
        · next hself => exact World.released_allocs_other _ (hb hself)
        · rfl
      have hbits : (if L.holder i = i then w.released (w.index.chkAddr i).blk
          else w).bits = w.bits := by
        split <;> rfl
      have hindex : (if L.holder i = i then w.released (w.index.chkAddr i).blk
          else w).index = w.index := by
        split <;> rfl
      have hnext : (if L.holder i = i then w.released (w.index.chkAddr i).blk
          else w).sys.next = w.sys.next := by
        split <;> rfl
      generalize (if L.holder i = i then w.released (w.index.chkAddr i).blk else w) = w₁ at *
      have hwrite : writeChkAddr i Ptr.null w₁ = .ok ((), { w₁ with
          index := { w₁.index with
            chkAddr := Function.update w₁.index.chkAddr i Ptr.null } }) :=
        writeChkAddr_of (by rw [hindex]; omega) _
      rw [hindex] at hwrite
      rcases ih _ hstep with ⟨w₂, hloop, htorn⟩
      have hread : readChkAddr i w = .ok (w.index.chkAddr i, w) := readChkAddr_of (by omega)
      -- the allocations of the chunks in front, seen before and after
      have hholds : forall b, World.Holds { w₁ with index := { w.index with
          chkAddr := Function.update w.index.chkAddr i Ptr.null } } L i b <->
          w.Holds L i b := by
        intro b
        constructor
        · rintro ⟨k, hk, hself, hblk⟩
          simp only [Function.update_of_ne (show k ≠ i by omega)] at hblk
          exact ⟨k, hk, hself, hblk⟩
        · rintro ⟨k, hk, hself, hblk⟩
          refine ⟨k, hk, hself, ?_⟩
          simp only [Function.update_of_ne (show k ≠ i by omega)]
          exact hblk
      have hsplit : forall b, w.Holds L (i + 1) b <->
          w.Holds L i b ∨ (L.holder i = i ∧ b = (w.index.chkAddr i).blk) := by
        intro b
        constructor
        · rintro ⟨k, hk, hself, hblk⟩
          by_cases hki : k = i
          · subst hki
            exact Or.inr ⟨hself, hblk.symm⟩
          · exact Or.inl ⟨k, by omega, hself, hblk⟩
        · rintro (⟨k, hk, hself, hblk⟩ | ⟨hself, hblk⟩)
          · exact ⟨k, by omega, hself, hblk⟩
          · exact ⟨i, by omega, hself, hblk.symm⟩
      refine ⟨w₂, ?_, htorn.bits.trans hbits, ?_, htorn.next.trans hnext, ?_, ?_⟩
      · unfold ChkIndex.destructLoop
        rw [Exec.bind_of_ok hread, Exec.bind_of_ok hrun, Exec.bind_of_ok hwrite, hloop]
      · rcases htorn.index with ⟨f, hf⟩
        exact ⟨f, hf⟩
      · intro b hb
        by_cases hfront : w.Holds L i b
        · exact htorn.gone b ((hholds b).mpr hfront)
        · rcases ((hsplit b).mp hb).resolve_left hfront with ⟨hself, hblk⟩
          rw [htorn.kept b fun hin => hfront ((hholds b).mp hin)]
          exact hnone hself b hblk
      · intro b hb
        have hout := not_or.mp fun hin => hb ((hsplit b).mpr hin)
        rw [htorn.kept b fun hin => hout.1 ((hholds b).mp hin)]
        exact hother b fun hself hblk => hout.2 ⟨hself, hblk⟩

/-!
## The whole table
-/

def Layout.reset (L : Layout) : Layout := { L with shared := 1, total := 0 }

namespace Uncompressed

variable {c : Content}

/-- The allocations of the chunks are all that is not memory of the caller. -/
theorem holds_iff (h : Uncompressed env w c L) (b : Nat) :
    w.Holds L c.num b <-> exists a, w.sys.allocs b = some a ∧ a.kind ≠ .caller := by
  constructor
  · rintro ⟨k, hk, hself, rfl⟩
    rcases h.place.alloc k hk hself with ⟨size, halloc, _⟩
    exact ⟨_, halloc, fun hkind => AllocKind.noConfusion hkind⟩
  · rintro ⟨a, ha, hkind⟩
    rcases h.place.all b a ha hkind with ⟨k, hk, hself, hblk⟩
    exact ⟨k, hk, hself, hblk⟩

/-- A world with the chunks of another one, and perhaps more. -/
structure Beside (w w' : World) : Prop where
  index : w'.index = w.index
  allocs : forall b, w.sys.allocs b ≠ none -> w'.sys.allocs b = w.sys.allocs b
  bits : forall b, w.sys.allocs b ≠ none -> w'.bits b = w.bits b

theorem Beside.refl (w : World) : Beside w w := ⟨rfl, fun _ _ => rfl, fun _ _ => rfl⟩

theorem alloc_ne_none (h : Uncompressed env w c L) {k : Nat} (hk : k < c.num) :
    w.sys.allocs (w.index.chkAddr k).blk ≠ none := by
  rcases h.holds hk with ⟨size, halloc, _⟩
  rw [halloc]
  exact Option.some_ne_none _

theorem Beside.chunkBits {w' : World} (hb : Beside w w') (h : Uncompressed env w c L) {k : Nat}
    (hk : k < c.num) : w'.chunkBits k = w.chunkBits k := by
  unfold World.chunkBits World.view
  rw [hb.index, hb.bits _ (h.alloc_ne_none hk)]

theorem Beside.inside {w' : World} (hb : Beside w w') {p : Ptr} {n : Nat}
    (h : w.sys.Inside p n) : w'.sys.Inside p n := by
  rcases h with ⟨a, ha, hle⟩
  refine ⟨a, ?_, hle⟩
  rw [hb.allocs _ (by rw [ha]; exact Option.some_ne_none _), ha]

theorem standing (h : Uncompressed env w c L) {w' : World} (hb : Beside w w') :
    Standing env w' L c.num := by
  have hf := h.fits
  have hshared := hf.shared_le
  have hpos := hf.shared_pos
  have haddr : w'.index.chkAddr = w.index.chkAddr := by rw [hb.index]
  constructor
  · rw [hb.index]
    exact h.size
  · intro k hk hself
    rw [haddr, h.place.off_eq hk]
    by_cases hlt : k < L.shared
    · rw [L.holder_of_shared hlt] at hself
      rw [L.base_of_shared hlt, ← hself]
      rfl
    · rw [L.base_of_alone (by omega)]
  · intro k hk
    rw [haddr, h.place.addr k hk]
  · intro k hk hself
    rcases h.place.alloc k hk hself with ⟨size, halloc, _⟩
    rw [haddr, hb.allocs _ (h.alloc_ne_none hk), halloc]
    rfl
  · intro k hk
    have hcap := h.cap_pos hk
    rw [haddr]
    exact hb.inside (h.inside (o := 0) (n := 91) hk (by omega))
  · intro k k' hk hk' hself hself' hblk
    rw [haddr] at hblk
    exact h.place.distinct k k' hk hk' hself hself' hblk
  · intro k hk
    rw [hb.chunkBits h hk]
    exact h.own k hk
  · intro k hk
    have hone := hf.one_le k hk
    by_cases hlt : k < L.shared
    · rw [L.holder_of_shared hlt]
      by_cases hz : k = 0
      · have hone0 := hf.one_le 0 (by omega)
        have hstart := Layout.start_add_le (L := L) (k := 0) (n := L.shared) (by omega)
        rw [hz, L.own_zero]
        constructor
        · intro _
          rfl
        · intro _
          omega
      · rw [L.own_of_shared hz hlt]
        constructor
        · intro hne
          exact absurd rfl hne
        · intro heq
          exact absurd heq.symm hz
    · rw [L.holder_of_alone (by omega), L.own_of_alone (by omega) (by omega)]
      exact ⟨fun _ => rfl, fun _ => by omega⟩
  · intro hm k hk
    exact hf.own_le hm hk

/-- `ChkIndex::destruct` releases every chunk and leaves the rest alone. -/
theorem destruct_ok (h : Uncompressed env w c L) {w' : World} (hb : Beside w w') :
    exists w₁, ChkIndex.destruct env w' = .ok ((), w₁) ∧ w₁.bits = w'.bits ∧
      (exists f, w₁.index =
        { w.index with chkNum := 0, compressed := false, chkAddr := f }) ∧
      w₁.sys.next = w'.sys.next ∧
      (forall b a, w.sys.allocs b = some a -> a.kind ≠ .caller -> w₁.sys.allocs b = none) ∧
      forall b, (forall a, w.sys.allocs b = some a -> a.kind = .caller) ->
        w₁.sys.allocs b = w'.sys.allocs b := by
  have hn := h.num
  have hindex := hb.index
  have hholds : forall b, w'.Holds L c.num b <-> w.Holds L c.num b := by
    intro b
    unfold World.Holds
    rw [hindex]
  unfold ChkIndex.destruct
  rw [Exec.bind_of_ok (getIndex_apply w'), hindex, hn]
  by_cases hz : c.num = 0
  · rw [if_pos hz]
    refine ⟨w', rfl, rfl, ⟨w.index.chkAddr, ?_⟩, rfl, ?_, fun _ _ => rfl⟩
    · rw [hindex, ← hz, ← hn, ← h.flag]
    · intro b a ha hkind
      rcases h.place.all b a ha hkind with ⟨k, hk, _⟩
      omega
  · rcases destructLoop_ok _ _ (h.standing hb) with ⟨w₁, hrun, htorn⟩
    rw [if_neg hz, if_neg (by rw [h.flag]; decide), Exec.bind_of_ok hrun]
    rcases htorn.index with ⟨f, hf⟩
    refine ⟨_, rfl, htorn.bits, ⟨f, ?_⟩, htorn.next, ?_, ?_⟩
    · show ({ w₁.index with chkNum := 0, compressed := false } : ChkIndex) = _
      rw [hf, hindex]
    · intro b a ha hkind
      exact htorn.gone b ((hholds b).mpr ((h.holds_iff b).mpr ⟨a, ha, hkind⟩))
    · intro b hcaller
      apply htorn.kept
      intro hin
      rcases (h.holds_iff b).mp ((hholds b).mp hin) with ⟨a, ha, hkind⟩
      exact hkind (hcaller a ha)

theorem of_empty (hnum : w.index.chkNum = 0) (hflag : w.index.compressed = false)
    (htype : w.index.memAllocType = .max) (hsize : w.index.chkAddrSize ≤ 4094)
    (hsane : Sane w.sys) (houter : Outer L w)
    (hnone : forall b a, w.sys.allocs b = some a -> a.kind = .caller) :
    Uncompressed env w Content.empty L.reset := by
  have hz : Content.empty.num = 0 := rfl
  refine ⟨hnum, hflag, htype, by omega, hsize, hsane, houter, ?_, ?_, ?_, ?_, ?_, ?_⟩
  · refine ⟨by omega, ?_, ?_, ?_, fun hle => by omega, Nat.le_refl _, Nat.le_max_left _ _,
      fun _ => rfl⟩
    · intro k hk
      omega
    · intro k hk
      omega
    · intro k hk
      omega
  · refine ⟨fun k hk => by omega, fun k hk => by omega, fun k k' hk => by omega, ?_⟩
    intro b a ha hkind
    exact absurd (hnone b a ha) hkind
  · intro k hk
    omega
  · intro k hk
    omega
  · intro hpos
    omega
  · intro hpos
    omega

theorem destruct_empty (h : Uncompressed env w c L) :
    exists w₁, ChkIndex.destruct env w = .ok ((), w₁) ∧
      Uncompressed env w₁ Content.empty L.reset ∧
      (forall b a, w₁.sys.allocs b = some a -> a.kind = .caller) := by
  rcases h.destruct_ok (Beside.refl w) with ⟨w₁, hrun, hbits, ⟨f, hindex⟩, hnext, hgone, hkept⟩
  have hsub : forall b a, w₁.sys.allocs b = some a -> w.sys.allocs b = some a := by
    intro b a hb
    by_cases hcaller : forall a, w.sys.allocs b = some a -> a.kind = .caller
    · rw [← hkept b hcaller]
      exact hb
    · push Not at hcaller
      rcases hcaller with ⟨a', ha', hkind⟩
      rw [hgone b a' ha' hkind] at hb
      cases hb
  have hcaller : forall b a, w₁.sys.allocs b = some a -> a.kind = .caller := by
    intro b a hb
    by_contra hkind
    rw [hgone b a (hsub b a hb) hkind] at hb
    cases hb
  have hnone : forall b, w.sys.allocs b = none -> w₁.sys.allocs b = none := by
    intro b hb
    rw [hkept b fun a ha => by rw [hb] at ha; cases ha]
    exact hb
  have hsane := h.sane
  refine ⟨w₁, hrun, of_empty ?_ ?_ ?_ ?_ ?_ ?_ hcaller, hcaller⟩
  · rw [hindex]
  · rw [hindex]
  · rw [hindex]
    exact h.type
  · rw [hindex]
    exact h.size_le
  · refine ⟨hnone _ hsane.null, by rw [hnext]; exact hsane.next_pos, ?_⟩
    intro b hb
    rw [hnext] at hb
    exact hnone b (hsane.fresh b hb)
  · intro b n m hb
    have hout := h.outer b n m hb
    rw [hbits]
    refine ⟨?_, hout.2⟩
    rw [hkept b fun a ha => by rw [hout.1] at ha; cases ha; rfl]
    exact hout.1

end Uncompressed

end

end ChunkMem
