import ChunkMem.Refinement.Stream

/-!
# Compression

`compress` drains the chunks into one compressed buffer, releases them and
keeps the buffer instead.  While the compressor works, its buffers stand beside
the chunks; programs that only read are not affected by them.
-/

namespace ChunkMem

open Foundation

/-!
## Programs that only read
-/

open Uncompressed in
/-- The program leaves the state alone and does not look beyond live memory, so
that it runs the same when more memory is allocated. -/
def Reads {α : Type} (x : M α) : Prop :=
  forall w w' v s, Beside w w' -> x w = .ok (v, s) -> s = w ∧ x w' = .ok (v, w')

namespace Reads

variable {α β : Type}

theorem pure (a : α) : Reads (Pure.pure a : M α) := by
  intro w w' v s _ h
  cases h
  exact ⟨rfl, rfl⟩

theorem fault (e : Fault) : Reads (Exec.fault e : M α) := by
  intro w w' v s _ h
  cases h

theorem bind {x : M α} {f : α -> M β} (hx : Reads x) (hf : forall a, Reads (f a)) :
    Reads (x >>= f) := by
  intro w w' v s hb h
  rw [Exec.bind_apply] at h
  cases hrun : x w with
  | error e =>
      rw [hrun] at h
      cases h
  | ok as =>
      rw [hrun] at h
      rcases hx w w' as.1 as.2 hb hrun with ⟨hs, hrun'⟩
      rw [Exec.bind_of_ok hrun']
      simp only [hs] at h
      exact hf as.1 w w' v s hb h

theorem ite {p : Prop} [Decidable p] {x y : M α} (hx : Reads x) (hy : Reads y) :
    Reads (if p then x else y) := by
  split
  · exact hx
  · exact hy

theorem require {p : Prop} [Decidable p] (e : Fault) :
    Reads (Exec.require p e : M Unit) := by
  intro w w' v s _ h
  unfold Exec.require at h ⊢
  split at h
  · next hp =>
      cases h
      exact ⟨rfl, if_pos hp⟩
  · cases h

theorem getIndex : Reads ChunkMem.getIndex := by
  intro w w' v s hb h
  cases h
  refine ⟨rfl, ?_⟩
  rw [getIndex_apply, hb.index]

theorem access {p : Ptr} {n : Nat} : Reads (ChunkMem.access p n) := by
  intro w w' v s hb h
  unfold ChunkMem.access at h ⊢
  split at h
  · next hin =>
      cases h
      exact ⟨rfl, if_pos (hb.inside hin)⟩
  · cases h

theorem readChkAddr (i : Nat) : Reads (ChunkMem.readChkAddr i) :=
  getIndex.bind fun _ => (require _).bind fun _ => pure _

theorem contents {p : Ptr} {n : Nat} (g : Bits -> α) :
    Reads (do
      ChunkMem.access p n
      let w <- Exec.state
      Pure.pure (g (w.bits p.blk)) : M α) := by
  intro w w' v s hb h
  by_cases hin : w.sys.Inside p n
  · have haccess : ChunkMem.access p n w = .ok ((), w) := if_pos hin
    have haccess' : ChunkMem.access p n w' = .ok ((), w') := if_pos (hb.inside hin)
    rw [Exec.bind_of_ok haccess] at h
    rw [Exec.bind_of_ok haccess']
    cases h
    refine ⟨rfl, ?_⟩
    rcases hin with ⟨a, ha, _⟩
    rw [Exec.bind_of_ok (Exec.state_apply _),
      hb.bits _ (by rw [ha]; exact Option.some_ne_none _)]
    rfl
  · have haccess : ChunkMem.access p n w = .error p.accessFault := if_neg hin
    rw [Exec.bind_of_error haccess] at h
    cases h

theorem load (p : Ptr) (f : Field) : Reads (ChunkMem.load p f) :=
  contents fun m => m.read (8 * p.off + f.pos) f.width

theorem loadBytes (p : Ptr) (n : Nat) : Reads (ChunkMem.loadBytes p n) :=
  contents fun m => m.bytes p.off n

theorem capacityBytes (p : Ptr) : Reads (ChkMetadata.capacityBytes p) :=
  (load _ _).bind fun _ => pure _

theorem peek (src : ChkCompressSource) : Reads src.peek :=
  ite (pure _) ((readChkAddr _).bind fun _ => (capacityBytes _).bind fun _ =>
    (require _).bind fun _ => pure _)

theorem skip (src : ChkCompressSource) (n : Nat) : Reads (src.skip n) :=
  ite (pure _) (ite (pure _) ((readChkAddr _).bind fun _ => (capacityBytes _).bind fun _ =>
    (require _).bind fun _ => ite (pure _) (pure _)))

theorem drain (env : Env) : forall (fuel : Nat) (src : ChkCompressSource) (taken left : Nat),
    Reads (ChkIndex.drain env fuel src taken left) := by
  intro fuel
  induction fuel with
  | zero =>
      intro src taken left
      exact ite (pure _) (fault _)
  | succ fuel ih =>
      intro src taken left
      exact ite (pure _) ((peek src).bind fun _ => (loadBytes _ _).bind fun _ =>
        (skip _ _).bind fun _ => (ih _ _ _).bind fun _ => pure _)

end Reads

/-!
## Compressed indexes
-/

structure Unpacked (env : Env) (c : Content) (L : Layout) (data : List Byte) : Prop where
  length : data.length = streamLength c L
  image : forall k, k < c.num ->
    ChunkImage (c.body k) (L.cap k) k (extent c L k)
      ((Bits.ofBytes data).drop (8192 * L.start k))
  mgr : MgrImage env.freeSize c (Bits.ofBytes data)

/-- A live buffer with the compressed length and the compressed bytes. -/
structure PackedAt (env : Env) (w : World) (q : Ptr) (data : List Byte) : Prop where
  off : q.off = 0
  alloc : w.sys.allocs q.blk = some ⟨.unalign, (env.snappy.compress data).length + 4⟩
  length : (w.bits q.blk).read 0 32 = (env.snappy.compress data).length + 4
  bytes : (w.bits q.blk).bytes 4 (env.snappy.compress data).length = env.snappy.compress data

structure Compressed (env : Env) (w : World) (c : Content) (L : Layout) : Prop where
  pos : 0 < c.num
  num : w.index.chkNum = 0
  flag : w.index.compressed = true
  type : w.index.memAllocType = .max
  size : c.num ≤ w.index.chkAddrSize
  size_le : w.index.chkAddrSize ≤ 4094
  sane : Sane w.sys
  outer : Outer L w
  fits : Fits env c L
  packed : exists data, Unpacked env c L data ∧ PackedAt env w (w.index.chkAddr 0) data
  all : forall b a, w.sys.allocs b = some a -> a.kind ≠ .caller ->
    b = (w.index.chkAddr 0).blk

section

variable {env : Env} {w w' : World} {c : Content} {L : Layout} {bs : List Block}

namespace Uncompressed

theorem of_beside (h : Uncompressed env w c L) (hb : Beside w w')
    (hnone : forall b, w.sys.allocs b = none -> w'.sys.allocs b = none)
    (hsane : Sane w'.sys) : Uncompressed env w' c L := by
  have hchunk : forall k, k < c.num -> w'.chunkBits k = w.chunkBits k :=
    fun k hk => hb.chunkBits h hk
  have hallocs : w'.sys.allocs = w.sys.allocs := by
    funext b
    by_cases hlive : w.sys.allocs b = none
    · rw [hlive, hnone b hlive]
    · exact hb.allocs b hlive
  refine ⟨?_, ?_, ?_, ?_, ?_, hsane, ?_, h.fits, ?_, ?_, ?_, ?_, ?_⟩
  · rw [hb.index]
    exact h.num
  · rw [hb.index]
    exact h.flag
  · rw [hb.index]
    exact h.type
  · rw [hb.index]
    exact h.size
  · rw [hb.index]
    exact h.size_le
  · intro b n m hout
    have hold := h.outer b n m hout
    rw [hallocs, hb.bits b (by rw [hold.1]; exact Option.some_ne_none _)]
    exact hold
  · have hp := h.place
    constructor
    · rw [hb.index]
      exact hp.addr
    · rw [hb.index, hallocs]
      exact hp.alloc
    · rw [hb.index]
      exact hp.distinct
    · rw [hb.index, hallocs]
      exact hp.all
  · intro k hk
    rw [hchunk k hk]
    exact h.image k hk
  · intro k hk
    rw [hchunk k hk]
    exact h.own k hk
  · intro hpos
    rw [hchunk 0 hpos]
    exact h.mgr hpos
  · intro hpos
    rw [hchunk 0 hpos]
    exact h.total hpos

theorem Beside.obtained (hb : Beside w w')
    (hsane : Sane w'.sys) (kind : AllocKind) (size : Nat) (m : Bits) :
    Beside w (w'.obtained kind size m) := by
  have hne : forall b, w.sys.allocs b ≠ none -> b ≠ w'.sys.next := by
    intro b hlive heq
    apply hlive
    rw [← hb.allocs b hlive, heq]
    exact hsane.fresh _ (Nat.le_refl _)
  refine ⟨hb.index, ?_, ?_⟩
  · intro b hlive
    rw [World.obtained_allocs_other _ _ _ _ (hne b hlive)]
    exact hb.allocs b hlive
  · intro b hlive
    rw [World.obtained_bits_other _ _ _ _ (hne b hlive)]
    exact hb.bits b hlive

theorem Beside.released (hb : Beside w w') {b : Nat} (hdead : w.sys.allocs b = none) :
    Beside w (w'.released b) := by
  refine ⟨hb.index, ?_, hb.bits⟩
  intro b' hlive
  rw [World.released_allocs_other w' (fun heq => hlive (by rw [heq, hdead]))]
  exact hb.allocs b' hlive

theorem extent_le (h : Uncompressed env w c L) {k : Nat} (hk : k < c.num) :
    extent c L k ≤ 8192 * L.cap k := by
  have hfit := h.fits.virgin_le k hk
  unfold extent
  split <;> omega

theorem extent_end {k : Nat} (hk : k < c.num) :
    8192 * L.start k + extent c L k ≤ 8 * streamLength c L := by
  unfold extent streamLength
  split
  · have hstart := Layout.start_add_le (L := L) (k := k) (n := c.num - 1) (by omega)
    omega
  · rw [show k = c.num - 1 by omega]
    omega

theorem extent_ge (h : Uncompressed env w c L) (ht : Content.Tiling env.freeSize bs c)
    {k : Nat} (hk : k < c.num) : 64 * reserved k ≤ extent c L k := by
  have hone := h.fits.one_le k hk
  have hr := ht.reserved_le k hk
  have hr5 := Content.reserved_le_five k
  unfold extent
  split <;> omega

theorem unpacked (h : Uncompressed env w c L) (ht : Content.Tiling env.freeSize bs c)
    (hpos : 0 < c.num) {data : List Byte} (hlen : data.length = streamLength c L)
    (hdata : Streamed w c L 0 data) : Unpacked env c L data := by
  have hbits : forall k j, k < c.num -> j < extent c L k ->
      (Bits.ofBytes data).drop (8192 * L.start k) j = w.chunkBits k j := by
    intro k j hk hj
    have hend := extent_end (c := c) (L := L) hk
    exact hdata k j hk hj (by omega) (by omega)
  refine ⟨hlen, ?_, ?_⟩
  · intro k hk
    have hle := h.extent_le hk
    have hge := h.extent_ge ht hk
    have hreach := env.le_reach (h.fits.cap_le k hk)
    have hr2 := Content.reserved_ge k
    exact ((h.image k hk).mono (by omega)).congr (by omega) fun j hj => hbits k j hk hj
  · have hge := h.extent_ge ht hpos
    have hr0 : reserved 0 = 5 := rfl
    apply (h.mgr hpos).congr rfl rfl rfl
    intro j _ hj
    unfold mgrPos at hj
    rw [← hbits 0 j hpos (by omega), Bits.drop_apply]
    congr 1
    show j = 8192 * 0 + j
    omega

/-!
## The compressor
-/

structure Holding (env : Env) (w w' : World) (q : Ptr) (data : List Byte) : Prop where
  beside : Beside w w'
  ne_null : q ≠ Ptr.null
  dead : w.sys.allocs q.blk = none
  packed : PackedAt env w' q data
  others : forall b, b ≠ q.blk -> w.sys.allocs b = none -> w'.sys.allocs b = none
  sane : Sane w'.sys

def Unchanged (w w' : World) : Prop :=
  Beside w w' ∧ (forall b, w.sys.allocs b = none -> w'.sys.allocs b = none) ∧ Sane w'.sys

theorem packedBits (env : Env) (m m' : Bits) (data : List Byte) {n : Nat}
    (hn : (env.snappy.compress data).length + 4 = n) (hlt : n < 2 ^ 32) :
    (m'.copy 0 ((m.writeBytes 4 (env.snappy.compress data)).write 0 32 n) 0 (8 * n)).read 0 32 =
        n ∧
      (m'.copy 0 ((m.writeBytes 4 (env.snappy.compress data)).write 0 32 n) 0 (8 * n)).bytes 4
        (env.snappy.compress data).length = env.snappy.compress data := by
  generalize env.snappy.compress data = packed at *
  constructor
  · have hread : (m'.copy 0 ((m.writeBytes 4 packed).write 0 32 n) 0 (8 * n)).read 0 32 =
        ((m.writeBytes 4 packed).write 0 32 n).read 0 32 := by
      apply Bits.read_congr
      intro i hi
      rw [Bits.copy_inside (by omega) (by omega)]
      congr 1
      omega
    rw [hread, Bits.read_write_of_lt hlt]
  · refine Eq.trans ?_ (Bits.bytes_writeBytes m 4 packed)
    apply Bits.bytes_congr
    intro i hi
    rw [Bits.copy_inside (by omega) (by omega), Bits.write_outside (by omega)]
    congr 1
    omega

theorem reallocate_packed (env : Env) (hsane : Sane w.sys) {data : List Byte} {pre : Nat}
    (hle : (env.snappy.compress data).length + 4 ≤ pre)
    (hlt : (env.snappy.compress data).length + 4 < 2 ^ 32) {m : Bits}
    (hm : ((env.junk w.sys.next).writeBytes 4 (env.snappy.compress data)).write 0 32
      ((env.snappy.compress data).length + 4) = m) :
    Exec.Ensures (unalignReallocate env w.freshPtr pre ((env.snappy.compress data).length + 4)
        (w.obtained .unalign pre m))
      (fun q w' => (q = Ptr.null ∧ ¬env.AllOk ∧ w' = (w.obtained .unalign pre m).skipped) ∨
        Holding env w w' q data) (fun _ => False) := by
  generalize hpack : env.snappy.compress data = packed at *
  have hdead : w.sys.allocs w.sys.next = none := hsane.fresh _ (Nat.le_refl _)
  have hsane₂ := hsane.obtained .unalign pre m
  have hbeside₂ := (Beside.refl w).obtained hsane .unalign pre m
  generalize hw₂ : w.obtained .unalign pre m = w₂ at *
  have hnext : w₂.sys.next = w.sys.next + 1 := by
    rw [← hw₂]
    rfl
  have howns : w₂.sys.Owns .unalign w.freshPtr := by
    rw [← hw₂]
    refine ⟨rfl, ?_⟩
    rw [show w.freshPtr.blk = w.sys.next from rfl, World.obtained_allocs_self]
    rfl
  have hview : w₂.view w.freshPtr = m := by
    rw [← hw₂]
    exact World.view_obtained_self w .unalign pre m
  have halloc : w₂.sys.allocs w.sys.next = some ⟨.unalign, pre⟩ := by
    rw [← hw₂]
    exact World.obtained_allocs_self w .unalign pre m
  have hnone : forall b, b ≠ w.sys.next -> w.sys.allocs b = none ->
      w₂.sys.allocs b = none := by
    intro b hb hlive
    rw [← hw₂, World.obtained_allocs_other w .unalign pre m hb]
    exact hlive
  unfold unalignReallocate
  rw [Exec.bind_of_ok (Exec.state_apply _), Exec.bind_of_ok (Exec.require_of howns _ _)]
  rcases obtain_cases env w₂ .unalign (packed.length + 4) (env.junk w₂.sys.next)
    with hrun₂ | ⟨hfail, hrun₂⟩
  · rw [Exec.bind_of_ok hrun₂, if_neg hsane₂.freshPtr_ne_null]
    have hne : w.freshPtr.blk ≠ w₂.sys.next := by
      show w.sys.next ≠ _
      omega
    have hsrcIn : (w₂.obtained .unalign (packed.length + 4)
        (env.junk w₂.sys.next)).sys.Inside w.freshPtr (8 * (packed.length + 4)) := by
      refine ⟨⟨.unalign, pre⟩, ?_, ?_⟩
      · rw [World.obtained_allocs_other _ _ _ _ hne]
        exact halloc
      · show 8 * 0 + _ ≤ 8 * pre
        omega
    have hcopy := memcpy_at (p := w₂.freshPtr) hsrcIn (w₂.obtained_inside (o := 0)
      (n := 8 * (packed.length + 4)) .unalign (packed.length + 4)
      (env.junk w₂.sys.next) (by omega))
    have hsrcView : (w₂.obtained .unalign (packed.length + 4)
        (env.junk w₂.sys.next)).view w.freshPtr = m := by
      rw [← hview]
      unfold World.view
      rw [World.obtained_bits_other _ _ _ _ hne]
    rw [World.view_obtained_self, hsrcView, World.obtained_setView] at hcopy
    have howns₂ : forall m', (w₂.obtained .unalign (packed.length + 4) m').sys.Owns
        .unalign w.freshPtr := by
      intro m'
      refine ⟨rfl, ?_⟩
      rw [World.obtained_allocs_other _ _ _ _ hne]
      exact howns.2
    rw [Nat.min_eq_right (by omega), Exec.bind_of_ok hcopy,
      Exec.bind_of_ok (release_ok (howns₂ _))]
    refine Or.inr ⟨?_, hsane₂.freshPtr_ne_null, ?_, ?_, ?_, ?_⟩
    · exact (hbeside₂.obtained hsane₂ _ _ _).released hdead
    · exact hsane.fresh _ (by
        show w.sys.next ≤ w₂.sys.next
        omega)
    · have hbits := packedBits env (env.junk w.sys.next) (env.junk w₂.sys.next)
        data (n := packed.length + 4) (by rw [hpack]) (by omega)
      rw [hpack, hm] at hbits
      refine ⟨rfl, ?_, ?_, ?_⟩
      · rw [hpack, World.released_allocs_other _
          (show w₂.freshPtr.blk ≠ w.freshPtr.blk from Ne.symm hne)]
        exact World.obtained_allocs_self w₂ .unalign (packed.length + 4) _
      · rw [hpack, World.released_bits, show w₂.freshPtr.blk = w₂.sys.next from rfl,
          World.obtained_bits_self]
        exact hbits.1
      · rw [hpack, World.released_bits, show w₂.freshPtr.blk = w₂.sys.next from rfl,
          World.obtained_bits_self]
        exact hbits.2
    · intro b hb hlive
      by_cases hwork' : b = w.freshPtr.blk
      · rw [hwork']
        exact World.released_allocs_self _ _
      · rw [World.released_allocs_other _ hwork',
          World.obtained_allocs_other w₂ .unalign (packed.length + 4) _ hb]
        exact hnone b hwork' hlive
    · exact (hsane₂.obtained .unalign (packed.length + 4) _).released _
  · rw [Exec.bind_of_ok hrun₂, if_pos rfl]
    exact Or.inl ⟨rfl, hfail, rfl⟩

theorem chkCompress_ensures (h : Uncompressed env w c L)
    (ht : Content.Tiling env.freeSize bs c) (hset : Settled c L) (hpos : 0 < c.num) :
    Exec.Ensures (ChkIndex.chkCompress env w)
      (fun q w' => (q = Ptr.null ∧ ¬env.AllOk ∧ Unchanged w w') ∨
        exists data, Unpacked env c L data ∧ Holding env w w' q data)
      (fun _ => False) := by
  have hbound := h.streamLength_lt hpos
  rcases h.make_ok hset hpos with ⟨src, hmake, hsrc, hleft⟩
  rcases h.drain_ok hpos (streamLength c L) src 0 (streamLength c L) hsrc (by omega)
    (Nat.le_refl _) with ⟨data, hdrain, hlen, hdata⟩
  have hunpacked := h.unpacked ht hpos hlen hdata
  have hle := env.snappy.length_compress_le data
  have hpre : Snappy.maxCompressedLength (streamLength c L) =
      32 + streamLength c L + streamLength c L / 6 := rfl
  generalize hpack : env.snappy.compress data = packed at hle
  generalize hpreLen : 4 + Snappy.maxCompressedLength (streamLength c L) = pre
  -- the work buffer
  have hsane := h.sane
  have hdead : w.sys.allocs w.sys.next = none := hsane.fresh _ (Nat.le_refl _)
  have hbeside := (Beside.refl w).obtained hsane .unalign pre (env.junk w.sys.next)
  have hwork : forall m, (w.obtained .unalign pre m).sys.Owns .unalign w.freshPtr := by
    intro m
    refine ⟨rfl, ?_⟩
    rw [show w.freshPtr.blk = w.sys.next from rfl, World.obtained_allocs_self]
    rfl
  unfold ChkIndex.chkCompress
  rw [Exec.bind_of_ok hmake]
  unfold ChkCompressSource.available
  simp only [hleft, hpreLen]
  unfold unalignAllocate
  rw [Exec.bind_assoc, Exec.bind_of_ok (Exec.state_apply _)]
  rcases obtain_cases env w .unalign pre (env.junk w.sys.next) with hrun | ⟨hfail, hrun⟩
  · rw [Exec.bind_of_ok hrun, if_neg hsane.freshPtr_ne_null]
    have hdrain' := (Reads.drain env (streamLength c L) src 0 (streamLength c L) w _ data w
      hbeside hdrain).2
    have hstore : storeBytes (w.freshPtr.add 4) packed
        (w.obtained .unalign pre (env.junk w.sys.next)) = .ok ((), w.obtained .unalign pre
          ((env.junk w.sys.next).writeBytes 4 packed)) := by
      rw [storeBytes_at (w.obtained_inside .unalign pre _ (by omega)), World.obtained_setView,
        World.view_obtained_self]
    rw [Exec.bind_of_ok hdrain', hpack, Exec.bind_of_ok hstore,
      Exec.bind_of_ok (store_head (by simp only; omega) _)]
    simp only
    generalize hm : ((env.junk w.sys.next).writeBytes 4 packed).write 0 32
      (packed.length + 4) = m
    have hsane₂ := hsane.obtained .unalign pre m
    have hbeside₂ := (Beside.refl w).obtained hsane .unalign pre m
    generalize hw₂ : w.obtained .unalign pre m = w₂ at *
    have howns : w₂.sys.Owns .unalign w.freshPtr := by
      rw [← hw₂]
      exact hwork m
    have hnone : forall b, b ≠ w.sys.next -> w.sys.allocs b = none ->
        w₂.sys.allocs b = none := by
      intro b hb hlive
      rw [← hw₂, World.obtained_allocs_other w .unalign pre m hb]
      exact hlive
    have hfits : (env.snappy.compress data).length + 4 ≤ pre := by
      rw [hpack]
      omega
    have hshort : (env.snappy.compress data).length + 4 < 2 ^ 32 := by
      rw [hpack]
      omega
    have hwritten : ((env.junk w.sys.next).writeBytes 4 (env.snappy.compress data)).write 0 32
        ((env.snappy.compress data).length + 4) = m := by
      rw [hpack]
      exact hm
    have hrealloc := reallocate_packed env hsane hfits hshort hwritten
    rw [hpack, hw₂] at hrealloc
    refine hrealloc.bind ?_
    rintro q w₃ (⟨rfl, hfail, rfl⟩ | hholding)
    · rw [if_pos rfl]
      have hrel : unalignDellocate w.freshPtr w₂.skipped =
          .ok ((), w₂.skipped.released w.freshPtr.blk) := release_ok howns
      rw [Exec.bind_of_ok hrel]
      have hskipped : Beside w w₂.skipped :=
        ⟨hbeside₂.index, hbeside₂.allocs, hbeside₂.bits⟩
      refine Or.inl ⟨rfl, hfail, hskipped.released hdead, ?_, hsane₂.skipped.released _⟩
      · intro b hlive
        by_cases hb : b = w.freshPtr.blk
        · rw [hb]
          exact World.released_allocs_self _ _
        · rw [World.released_allocs_other _ hb]
          exact hnone b hb hlive
    · rw [if_neg hholding.ne_null]
      exact Or.inr ⟨data, hunpacked, hholding⟩
  · rw [Exec.bind_of_ok hrun, if_pos rfl]
    exact Or.inl ⟨rfl, hfail, ⟨rfl, fun _ _ => rfl, fun _ _ => rfl⟩, fun _ hb => hb,
      hsane.skipped⟩

/-!
## The operation
-/

theorem enter_compressed (h : Uncompressed env w c L) (hpos : 0 < c.num) {q : Ptr}
    {data : List Byte} (hunpacked : Unpacked env c L data)
    (hh : Holding env w w' q data) :
    exists w₁ w₂, ChkIndex.destruct env w' = .ok ((), w₁) ∧
      writeChkAddr 0 q w₁ = .ok ((), w₂) ∧
      Compressed env { w₂ with index := { w₂.index with compressed := true } } c L := by
  have hsize := h.size
  rcases h.destruct_ok hh.beside with ⟨w₁, hrun, hbits, ⟨f, hindex⟩, hnext, hgone, hkept⟩
  have hwrite : writeChkAddr 0 q w₁ = .ok ((), { w₁ with
      index := { w₁.index with chkAddr := Function.update w₁.index.chkAddr 0 q } }) :=
    writeChkAddr_of (by
      rw [hindex]
      show 0 < w.index.chkAddrSize
      omega) q
  refine ⟨w₁, _, hrun, hwrite, ?_⟩
  have haddr : Function.update w₁.index.chkAddr 0 q 0 = q := Function.update_self ..
  have hq : w₁.sys.allocs q.blk = w'.sys.allocs q.blk :=
    hkept _ fun a ha => by rw [hh.dead] at ha; cases ha
  have hsub : forall b, w'.sys.allocs b = none -> w₁.sys.allocs b = none := by
    intro b hb
    by_cases hcaller : forall a, w.sys.allocs b = some a -> a.kind = .caller
    · rw [hkept b hcaller]
      exact hb
    · push Not at hcaller
      rcases hcaller with ⟨a, ha, hkind⟩
      exact hgone b a ha hkind
  refine ⟨hpos, ?_, rfl, ?_, ?_, ?_, ?_, ?_, h.fits, ⟨data, hunpacked, ?_⟩, ?_⟩
  · show w₁.index.chkNum = 0
    rw [hindex]
  · show w₁.index.memAllocType = _
    rw [hindex]
    exact h.type
  · show c.num ≤ w₁.index.chkAddrSize
    rw [hindex]
    exact hsize
  · show w₁.index.chkAddrSize ≤ _
    rw [hindex]
    exact h.size_le
  · have hs := hh.sane
    refine ⟨hsub _ hs.null, ?_, ?_⟩
    · show 0 < w₁.sys.next
      rw [hnext]
      exact hs.next_pos
    · intro b hb
      have hb' : w₁.sys.next ≤ b := hb
      rw [hnext] at hb'
      exact hsub b (hs.fresh b hb')
  · intro b n m hb
    have hout := h.outer b n m hb
    have hlive : w.sys.allocs b ≠ none := by
      rw [hout.1]
      exact Option.some_ne_none _
    show w₁.sys.allocs b = _ ∧ w₁.bits b = m
    rw [hkept b (fun a ha => by rw [hout.1] at ha; cases ha; rfl), hbits,
      hh.beside.allocs b hlive, hh.beside.bits b hlive]
    exact hout
  · have hp := hh.packed
    refine ⟨?_, ?_, ?_, ?_⟩
    · show (Function.update w₁.index.chkAddr 0 q 0).off = 0
      rw [haddr]
      exact hp.off
    · show w₁.sys.allocs (Function.update w₁.index.chkAddr 0 q 0).blk = _
      rw [haddr, hq]
      exact hp.alloc
    · show (w₁.bits (Function.update w₁.index.chkAddr 0 q 0).blk).read 0 32 = _
      rw [haddr, hbits]
      exact hp.length
    · show (w₁.bits (Function.update w₁.index.chkAddr 0 q 0).blk).bytes 4 _ = _
      rw [haddr, hbits]
      exact hp.bytes
  · intro b a hb hkind
    show b = (Function.update w₁.index.chkAddr 0 q 0).blk
    rw [haddr]
    change w₁.sys.allocs b = some a at hb
    by_contra hne
    by_cases hcaller : forall a, w.sys.allocs b = some a -> a.kind = .caller
    · rw [hkept b hcaller] at hb
      by_cases hlive : w.sys.allocs b = none
      · rw [hh.others b hne hlive] at hb
        cases hb
      · rw [hh.beside.allocs b hlive] at hb
        exact hkind (hcaller a hb)
    · push Not at hcaller
      rcases hcaller with ⟨a', ha', hkind'⟩
      rw [hgone b a' ha' hkind'] at hb
      cases hb

/-- The compressed bytes are given back where they are not few enough, else they take the
place of the chunks. -/
theorem judge_ok (h : Uncompressed env w c L) (hpos : 0 < c.num) {q : Ptr} {data : List Byte}
    (hunpacked : Unpacked env c L data) (hh : Holding env w w' q data) (percent : Int) :
    exists w₁, (do
        let compressedLen <- load q ⟨0, 32⟩
        let total <- load ((w.index.chkAddr 0).add 16) ChkMemMgr.totalCapacity
        let orgLen := chkCapacity total
        if compressedLen * 100 % 2 ^ 64 > toSizeT percent * orgLen % 2 ^ 64 then do
          unalignDellocate q
          pure 0
        else do
          ChkIndex.destruct env
          writeChkAddr 0 q
          modifyIndex fun x => { x with compressed := true }
          pure 0 : M Int) w' = .ok (0, w₁) ∧
      if ((env.snappy.compress data).length + 4) * 100 % 2 ^ 64 >
          toSizeT percent * chkCapacity L.total % 2 ^ 64 then
        Uncompressed env w₁ c L ∧ w₁.index = w.index
      else Compressed env w₁ c L := by
  have hlen : load q ⟨0, 32⟩ w' = .ok ((env.snappy.compress data).length + 4, w') := by
    have hin : w'.sys.Inside (q.add 0) 32 := by
      refine ⟨_, hh.packed.alloc, ?_⟩
      simp only [Ptr.add, hh.packed.off]
      omega
    have hload : load q ⟨0, 32⟩ w' = _ := load_at (f := ⟨0, 32⟩) hin
    rw [hload]
    unfold World.view
    rw [Bits.read_drop, hh.packed.off]
    simp only [Nat.mul_zero, Nat.add_zero]
    rw [hh.packed.length]
  have htotal := (Reads.load _ _ w w' _ w hh.beside
    (h.load_mgr hpos ChkMemMgr.totalCapacity (by decide))).2
  have hvalue : (w.chunkBits 0).read (mgrPos + ChkMemMgr.totalCapacity.pos)
      ChkMemMgr.totalCapacity.width = L.total := h.total hpos
  have hbytes : unalignDellocate q w' = .ok ((), w'.released q.blk) := by
    apply release_ok
    refine ⟨hh.packed.off, ?_⟩
    rw [hh.packed.alloc]
    rfl
  rw [hvalue] at htotal
  rw [Exec.bind_of_ok hlen, Exec.bind_of_ok htotal]
  split
  · rw [Exec.bind_of_ok hbytes]
    refine ⟨_, rfl, ?_, hh.beside.index⟩
    apply h.of_beside (hh.beside.released hh.dead) _ (hh.sane.released _)
    intro b hlive
    by_cases hb : b = q.blk
    · rw [hb]
      exact World.released_allocs_self _ _
    · rw [World.released_allocs_other _ hb]
      exact hh.others b hb hlive
  · rcases h.enter_compressed hpos hunpacked hh with ⟨w₂, w₃, hdestruct, hwrite, hc⟩
    rw [Exec.bind_of_ok hdestruct, Exec.bind_of_ok hwrite]
    exact ⟨_, rfl, hc⟩

/-- `ChkIndex::compress`: the index is compressed, or left alone because it
has no chunk, because it does not shrink enough or because memory is short. -/
theorem compress_ensures (h : Uncompressed env w c L)
    (ht : Content.Tiling env.freeSize bs c) (hset : Settled c L) (percent : Int) :
    Exec.Ensures (ChkIndex.compress env percent w)
      (fun r w' => (r = 0 ∧ Compressed env w' c L) ∨
        (Uncompressed env w' c L ∧ w'.index = w.index ∧ (r = 0 ∨ (r = -1 ∧ ¬env.AllOk))))
      (fun _ => False) := by
  have hn := h.num
  unfold ChkIndex.compress
  rw [Exec.bind_of_ok (getIndex_apply w), hn]
  by_cases hz : c.num = 0
  · rw [if_pos (Or.inl hz)]
    exact Or.inr ⟨h, rfl, Or.inl rfl⟩
  · have hpos : 0 < c.num := Nat.pos_of_ne_zero hz
    rw [if_neg (not_or.mpr ⟨hz, by rw [h.flag]; exact Bool.false_ne_true⟩),
      Exec.bind_of_ok (h.memMgr_ok hpos)]
    refine Exec.Ensures.bind (h.chkCompress_ensures ht hset hpos) ?_
    rintro q w₁ (⟨rfl, hfail, hb, hnone, hsane⟩ | ⟨data, hunpacked, hh⟩)
    · rw [if_pos rfl]
      exact Or.inr ⟨h.of_beside hb hnone hsane, hb.index, Or.inr ⟨rfl, hfail⟩⟩
    · rcases h.judge_ok hpos hunpacked hh percent with ⟨w₂, hrun, hout⟩
      rw [if_neg hh.ne_null]
      refine Exec.Ensures.of_eq hrun ?_
      split at hout
      · exact Or.inr ⟨hout.1, hout.2, Or.inl rfl⟩
      · exact Or.inl ⟨rfl, hout⟩

/-- With memory in order `compress` succeeds where the compressor keeps within the limit. -/
theorem compress_ok (h : Uncompressed env w c L) (ht : Content.Tiling env.freeSize bs c)
    (hset : Settled c L) (hok : env.AllOk) (hpos : 0 < c.num) {percent : Int}
    (hfew : forall data, data.length = streamLength c L ->
      ((env.snappy.compress data).length + 4) * 100 % 2 ^ 64 ≤
        toSizeT percent * chkCapacity L.total % 2 ^ 64) :
    exists w', ChkIndex.compress env percent w = .ok (0, w') ∧ Compressed env w' c L := by
  have hflag := h.flag
  rcases (h.chkCompress_ensures ht hset hpos).exists_ok nofun with ⟨q, w₁, hrun, hout⟩
  rcases hout with ⟨-, hfail, -⟩ | ⟨data, hunpacked, hh⟩
  · exact absurd hok hfail
  · rcases h.judge_ok hpos hunpacked hh percent with ⟨w₂, hjudge, hcompressed⟩
    rw [if_neg (Nat.not_lt.mpr (hfew data hunpacked.length))] at hcompressed
    refine ⟨w₂, ?_, hcompressed⟩
    unfold ChkIndex.compress
    rw [Exec.bind_of_ok (getIndex_apply w), if_neg (by rw [h.num, hflag]; simp; omega),
      Exec.bind_of_ok (h.memMgr_ok hpos), Exec.bind_of_ok hrun, if_neg hh.ne_null]
    exact hjudge

end Uncompressed

end

end ChunkMem
