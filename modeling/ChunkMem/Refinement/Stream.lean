import ChunkMem.Refinement.Split

/-!
# The stream of the compressor

`ChkCompressSource` serves the chunks as one stream: every chunk at its full
capacity, the last one up to its virgin mark.  Two implementations sit behind
the interface, one that walks from chunk to chunk and one over a single buffer;
both keep the position invariant below, and what is drained is the stream.
-/

namespace ChunkMem

open Foundation

def streamLength (c : Content) (L : Layout) : Nat :=
  1024 * L.start (c.num - 1) + 8 * (c.body (c.num - 1)).virgin

/-- The bytes in `l` are those of the stream from the byte `pos` on. -/
def Streamed (w : World) (c : Content) (L : Layout) (pos : Nat) (l : List Byte) : Prop :=
  forall k j, k < c.num -> j < extent c L k -> 8 * pos ≤ 8192 * L.start k + j ->
    8192 * L.start k + j < 8 * (pos + l.length) ->
    Bits.ofBytes l (8192 * L.start k + j - 8 * pos) = w.chunkBits k j

/-- The reader stands at the byte `pos` of the stream. -/
def SourceAt (w : World) (c : Content) (L : Layout) (src : ChkCompressSource) (pos : Nat) :
    Prop :=
  (src.isContinuous = false ∧ pos = 1024 * L.start src.chkNo + src.chkOffset ∧
    ((src.chkNo < c.num ∧ src.chkOffset < 1024 * L.cap src.chkNo) ∨
      (src.chkNo = c.num ∧ src.chkOffset = 0))) ∨
  (src.isContinuous = true ∧ 1 < c.num ∧ L.shared = c.num ∧
    src.ptr = (w.index.chkAddr 0).add pos ∧
    src.bytesLeft = (streamLength c L : Nat) - (pos : Int))

section

variable {env : Env} {w : World} {c : Content} {L : Layout}

theorem Streamed.append {pos : Nat} {l l' : List Byte} (h : Streamed w c L pos l)
    (h' : Streamed w c L (pos + l.length) l') : Streamed w c L pos (l ++ l') := by
  intro k j hk hj hlo hhi
  rw [List.length_append] at hhi
  rw [Bits.ofBytes_append]
  split
  · exact h k j hk hj hlo (by omega)
  · rw [← h' k j hk hj (by omega) (by omega)]
    congr 1
    omega

namespace Uncompressed

theorem streamLength_lt (h : Uncompressed env w c L) (hpos : 0 < c.num) :
    streamLength c L < 2 ^ 26 := by
  have hnum := h.fits.num_le
  have hstart := h.fits.start_bound
  have hle := Layout.start_add_le (L := L) (k := c.num - 1) (n := c.num) (by omega)
  have hfit := h.fits.virgin_le (c.num - 1) (by omega)
  unfold streamLength
  omega

theorem streamLength_le (h : Uncompressed env w c L) (hpos : 0 < c.num) :
    streamLength c L ≤ 1024 * L.start c.num := by
  have hle := Layout.start_add_le (L := L) (k := c.num - 1) (n := c.num) (by omega)
  have hfit := h.fits.virgin_le (c.num - 1) (by omega)
  unfold streamLength
  omega

theorem streamed_chunk (h : Uncompressed env w c L) {k o n : Nat} (hk : k < c.num)
    (hn : o + n ≤ 1024 * L.cap k) :
    Streamed w c L (1024 * L.start k + o) ((w.chunkBits k).bytes o n) := by
  intro k' j hk' hj hlo hhi
  rw [Bits.length_bytes] at hhi
  have hfit := h.fits.virgin_le k' hk'
  have hext : j < 8192 * L.cap k' := by
    unfold extent at hj
    split at hj <;> omega
  -- the position determines the chunk
  have hsame : k' = k := by
    rcases Nat.lt_trichotomy k' k with hlt | heq | hlt
    · have := Layout.start_add_le (L := L) hlt
      omega
    · exact heq
    · have := Layout.start_add_le (L := L) hlt
      omega
  subst hsame
  rw [Bits.ofBytes_bytes (by omega)]
  congr 1
  omega

def Serves (w : World) (c : Content) (L : Layout) (src : ChkCompressSource) (pos : Nat) :
    Prop :=
  exists p len, src.peek w = .ok ((p, len), w) ∧ 0 < len ∧
    forall n, 0 < n -> n ≤ len -> pos + n ≤ streamLength c L -> exists l src',
      loadBytes p n w = .ok (l, w) ∧ l.length = n ∧ Streamed w c L pos l ∧
      src.skip n w = .ok (src', w) ∧ SourceAt w c L src' (pos + n)

theorem serves_separate (h : Uncompressed env w c L) {src : ChkCompressSource} {pos : Nat}
    (hc : src.isContinuous = false) (hpos : pos = 1024 * L.start src.chkNo + src.chkOffset)
    (hk : src.chkNo < c.num) (ho : src.chkOffset < 1024 * L.cap src.chkNo) :
    Serves w c L src pos := by
  have hread := h.readChkAddr_ok hk
  have hbytes := h.capacityBytes_ok hk
  have hc' : ¬src.isContinuous = true := by
    rw [hc]
    exact Bool.false_ne_true
  refine ⟨(w.index.chkAddr src.chkNo).add src.chkOffset,
    L.cap src.chkNo * 1024 - src.chkOffset, ?_, by omega, ?_⟩
  · unfold ChkCompressSource.peek
    rw [if_neg hc', Exec.bind_of_ok hread, Exec.bind_of_ok hbytes,
      Exec.bind_of_ok (Exec.require_of (by omega) _ _)]
    rfl
  · intro n hn hlen _
    refine ⟨_, if L.cap src.chkNo * 1024 = src.chkOffset + n then
        { src with chkOffset := 0, chkNo := src.chkNo + 1 }
        else { src with chkOffset := src.chkOffset + n },
      h.loadBytes_ok hk (by omega), Bits.length_bytes _ _ _, ?_, ?_, ?_⟩
    · rw [hpos]
      exact h.streamed_chunk hk (by omega)
    · unfold ChkCompressSource.skip
      rw [if_neg (by omega), if_neg hc', Exec.bind_of_ok hread, Exec.bind_of_ok hbytes,
        Exec.bind_of_ok (Exec.require_of (by omega) _ _)]
      split <;> rfl
    · split
      · next hend =>
          refine Or.inl ⟨hc, ?_, ?_⟩
          · show pos + n = 1024 * L.start (src.chkNo + 1) + 0
            rw [L.start_succ]
            omega
          · show (src.chkNo + 1 < c.num ∧ 0 < 1024 * L.cap (src.chkNo + 1)) ∨
              (src.chkNo + 1 = c.num ∧ 0 = 0)
            by_cases hlast : src.chkNo + 1 < c.num
            · have hone := h.fits.one_le _ hlast
              exact Or.inl ⟨hlast, by omega⟩
            · exact Or.inr ⟨by omega, rfl⟩
      · next hmid =>
          refine Or.inl ⟨hc, ?_, Or.inl ⟨hk, ?_⟩⟩
          · show pos + n = 1024 * L.start src.chkNo + (src.chkOffset + n)
            omega
          · show src.chkOffset + n < 1024 * L.cap src.chkNo
            omega

theorem loadBytes_joint (h : Uncompressed env w c L) (hn : 1 < c.num) (hshared : L.shared = c.num)
    {pos n : Nat} (hle : pos + n ≤ streamLength c L) :
    loadBytes ((w.index.chkAddr 0).add pos) n w = .ok ((w.chunkBits 0).bytes pos n, w) := by
  have hjoint := h.joint hn hshared
  rcases hjoint.buffer with ⟨size, halloc, hroom⟩
  refine loadBytes_at ⟨_, halloc, ?_⟩
  unfold streamLength at hle
  simp only [Ptr.add, hjoint.off]
  omega

theorem serves_continuous (h : Uncompressed env w c L) {src : ChkCompressSource} {pos : Nat}
    (hc : src.isContinuous = true) (hn : 1 < c.num) (hshared : L.shared = c.num)
    (hptr : src.ptr = (w.index.chkAddr 0).add pos)
    (hleft : src.bytesLeft = (streamLength c L : Nat) - (pos : Int))
    (hlt : pos < streamLength c L) : Serves w c L src pos := by
  have hjoint := h.joint hn hshared
  have hbound := h.streamLength_lt (by omega)
  have hfirst := hjoint.first (by omega)
  have hsize : toSizeT src.bytesLeft = streamLength c L - pos := by
    rw [hleft]
    unfold toSizeT
    omega
  refine ⟨src.ptr, streamLength c L - pos, ?_, by omega, ?_⟩
  · unfold ChkCompressSource.peek
    rw [if_pos hc, hsize]
    rfl
  · intro n hpos' hlen _
    refine ⟨(w.chunkBits 0).bytes pos n, { src with
        bytesLeft := src.bytesLeft - n, ptr := src.ptr.add n }, ?_,
      Bits.length_bytes _ _ _, ?_, ?_, ?_⟩
    · rw [hptr]
      exact h.loadBytes_joint hn hshared (by omega)
    · -- every chunk is seen from the start of the buffer
      intro k j hk hj hlo hhi
      rw [Bits.length_bytes] at hhi
      rw [Bits.ofBytes_bytes (by omega), hfirst.2]
      unfold World.chunkBits World.view
      rw [hjoint.stays k (by omega) hk, Bits.drop_apply]
      congr 1
      show 8 * pos + _ = 8 * (1024 * L.start k) + j
      omega
    · unfold ChkCompressSource.skip
      rw [if_neg (by omega), if_pos hc]
      rfl
    · refine Or.inr ⟨hc, hn, hshared, ?_, ?_⟩
      · show src.ptr.add n = _
        rw [hptr]
        simp only [Ptr.add, Nat.add_assoc]
      · show src.bytesLeft - (n : Int) = _
        rw [hleft]
        omega

theorem serves (h : Uncompressed env w c L) (hz : 0 < c.num) {src : ChkCompressSource}
    {pos : Nat} (hsrc : SourceAt w c L src pos) (hlt : pos < streamLength c L) :
    Serves w c L src pos := by
  rcases hsrc with ⟨hc, hpos, ⟨hk, ho⟩ | ⟨hk, ho⟩⟩ | ⟨hc, hn, hshared, hptr, hleft⟩
  · exact h.serves_separate hc hpos hk ho
  · -- behind the last chunk nothing is left
    have hle := h.streamLength_le hz
    rw [hk] at hpos
    omega
  · exact h.serves_continuous hc hn hshared hptr hleft hlt

/-- However the compressor cuts the stream, it gets the bytes that are left. -/
theorem drain_ok (h : Uncompressed env w c L) (hz : 0 < c.num) :
    forall (fuel : Nat) (src : ChkCompressSource) (pos left : Nat),
      SourceAt w c L src pos -> pos + left = streamLength c L -> left ≤ fuel ->
      exists l, ChkIndex.drain env fuel src pos left w = .ok (l, w) ∧ l.length = left ∧
        Streamed w c L pos l := by
  intro fuel
  induction fuel with
  | zero =>
      intro src pos left _ _ hfuel
      have hleft : left = 0 := by omega
      subst hleft
      refine ⟨[], rfl, rfl, ?_⟩
      intro k j _ _ hlo hhi
      simp only [List.length_nil] at hhi
      omega
  | succ fuel ih =>
      intro src pos left hsrc hsum hfuel
      unfold ChkIndex.drain
      by_cases hleft : left = 0
      · rw [if_pos hleft]
        refine ⟨[], rfl, hleft.symm, ?_⟩
        intro k j _ _ hlo hhi
        simp only [List.length_nil] at hhi
        omega
      · rw [if_neg hleft]
        rcases h.serves hz hsrc (by omega) with ⟨p, len, hpeek, hlen, hserve⟩
        have hcut := env.snappy.cut_pos pos
        rw [Exec.bind_of_ok hpeek]
        generalize hn : min (min len left) (env.snappy.cut pos) = n
        rcases hserve n (by omega) (by omega) (by omega)
          with ⟨l, src', hload, hlength, hstream, hskip, hsrc'⟩
        rcases ih src' (pos + n) (left - n) hsrc' (by omega) (by omega)
          with ⟨rest, hdrain, hrest, hstream'⟩
        refine ⟨l ++ rest, ?_, ?_, ?_⟩
        · simp only [hn]
          rw [Exec.bind_of_ok hload, Exec.bind_of_ok hskip, Exec.bind_of_ok hdrain]
          rfl
        · rw [List.length_append]
          omega
        · apply hstream.append
          rw [hlength]
          exact hstream'

theorem make_ok (h : Uncompressed env w c L) (hset : Settled c L) (hz : 0 < c.num) :
    exists src, ChkCompressSource.make w = .ok (src, w) ∧ SourceAt w c L src 0 ∧
      toSizeT src.bytesLeft = streamLength c L := by
  have hbound := h.streamLength_lt hz
  have hfit := h.fits.virgin_le (c.num - 1) (by omega)
  have htotal := h.load_mgr hz ChkMemMgr.totalCapacity (by decide)
  have hread : (w.chunkBits 0).read (mgrPos + ChkMemMgr.totalCapacity.pos)
      ChkMemMgr.totalCapacity.width = L.total := h.total hz
  rw [hread] at htotal
  have hleft : (chkCapacity L.total : Nat) - ((L.cap (c.num - 1) * 1024 : Nat) : Int) +
      (chkSize (c.body (c.num - 1)).virgin : Nat) = (streamLength c L : Nat) := by
    have hstart := L.start_succ (c.num - 1)
    rw [show c.num - 1 + 1 = c.num by omega] at hstart
    unfold Settled at hset
    unfold streamLength
    simp only [chkCapacity, chkSize]
    omega
  refine ⟨{ chkNo := 0, isContinuous := decide (1 < c.num ∧ L.shared = c.num),
            bytesLeft := (streamLength c L : Nat), chkOffset := 0,
            ptr := w.index.chkAddr 0 }, ?_, ?_, toSizeT_ofNat (by omega)⟩
  · unfold ChkCompressSource.make
    rw [Exec.bind_of_ok (h.isContinuous_ok hset), Exec.bind_of_ok (getIndex_apply w), h.num,
      Exec.bind_of_ok (h.readChkAddr_ok (by omega)), Exec.bind_of_ok (h.memMgr_ok hz),
      Exec.bind_of_ok htotal, Exec.bind_of_ok (h.capacityBytes_ok (by omega)),
      Exec.bind_of_ok (h.load_virgin (by omega)), Exec.bind_of_ok (h.readChkAddr_ok hz),
      hleft]
    rfl
  · by_cases hall : 1 < c.num ∧ L.shared = c.num
    · refine Or.inr ⟨decide_eq_true hall, hall.1, hall.2, rfl, ?_⟩
      show ((streamLength c L : Nat) : Int) = _
      omega
    · have hone := h.fits.one_le 0 hz
      exact Or.inl ⟨decide_eq_false hall, rfl, Or.inl ⟨hz, by
        show 0 < 1024 * L.cap 0
        omega⟩⟩

end Uncompressed

end

end ChunkMem
