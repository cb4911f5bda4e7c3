import ChunkMem.Properties.Continuity
import ChunkMem.Properties.RoundTrip

/-!
# The contract of the compression source

A consumer of `ChkCompressSource` peeks and skips as it likes.  Over one buffer the
reader keeps what its interface promises; the reader that walks from chunk to chunk serves
the same bytes but never counts down what is available.
-/

namespace ChunkMem

open Foundation

/-- The chunks in order, each but the last at its full capacity, the last one up to its
virgin mark. -/
def World.stream (w : World) : List Byte :=
  ((List.range (w.index.chkNum - 1)).flatMap fun k =>
    (w.chunkBits k).bytes 0 (1024 * w.capacityOf k)) ++
      (w.chunkBits (w.index.chkNum - 1)).bytes 0 (8 * w.virginOf (w.index.chkNum - 1))

/-- The bytes a consumer passes over: the next `n` behind the place it looked at. -/
def passed (p : Ptr) (n : Nat) : M (List Byte) := if n = 0 then pure [] else loadBytes p n

/-- A schedule of `Peek` and `Skip` calls: the reader it leads to, the bytes passed
over, where the next ones lie, and the length last peeked. -/
inductive SourceRun (w : World) (src₀ : ChkCompressSource) :
    ChkCompressSource -> List Byte -> Ptr -> Nat -> Prop where
  | start : SourceRun w src₀ src₀ [] Ptr.null 0
  | peek {src : ChkCompressSource} {l : List Byte} {p q : Ptr} {len m : Nat}
      (h : SourceRun w src₀ src l p len) (hpeek : src.peek w = .ok ((q, m), w)) :
      SourceRun w src₀ src l q m
  | skip {src src' : ChkCompressSource} {l l' : List Byte} {p : Ptr} {len n : Nat}
      (h : SourceRun w src₀ src l p len) (hn : n ≤ len)
      (htotal : l.length + n ≤ src₀.available) (hpassed : passed p n w = .ok (l', w))
      (hskip : src.skip n w = .ok (src', w)) :
      SourceRun w src₀ src' (l ++ l') (p.add n) len

/-- What the interface promises after any schedule: the bytes passed over are a prefix of the
stream, the rest of it is available, `Peek` shows some of the rest, and `Skip`
can be called. -/
def World.SourceContract (w : World) : Prop :=
  exists src₀, ChkCompressSource.make w = .ok (src₀, w) ∧
    forall src l p len, SourceRun w src₀ src l p len ->
      l <+: w.stream ∧
      src.available = w.stream.length - l.length ∧
      (l.length < w.stream.length -> exists q m, src.peek w = .ok ((q, m), w) ∧
        1 ≤ m ∧ m ≤ src.available ∧
        loadBytes q m w = .ok ((w.stream.drop l.length).take m, w)) ∧
      forall n, n ≤ len -> l.length + n ≤ src₀.available ->
        exists l' src', passed p n w = .ok (l', w) ∧ src.skip n w = .ok (src', w)

theorem ChkCompressSource.skip_bytesLeft {src src' : ChkCompressSource} {n : Nat} {w w' : World}
    (hc : src.isContinuous = false) (hskip : src.skip n w = .ok (src', w')) :
    src'.bytesLeft = src.bytesLeft := by
  unfold ChkCompressSource.skip at hskip
  rw [hc] at hskip
  split at hskip
  · cases hskip
    rfl
  · split at hskip
    · next hcon => cases hcon
    · rcases Exec.ok_of_bind hskip with ⟨_, _, -, hskip⟩
      rcases Exec.ok_of_bind hskip with ⟨_, _, -, hskip⟩
      rcases Exec.ok_of_bind hskip with ⟨_, _, -, hskip⟩
      split at hskip
      · cases hskip
        rfl
      · cases hskip
        rfl

namespace Uncompressed

variable {env : Env} {w : World} {c : Content} {L : Layout} {bs : List Block}

/-!
## One buffer
-/

theorem chunkBits_joint (h : Uncompressed env w c L) (hn : 1 < c.num) (hshared : L.shared = c.num)
    {k : Nat} (hk : k < c.num) :
    w.chunkBits k = (w.chunkBits 0).drop (8 * (1024 * L.start k)) := by
  have hjoint := h.joint hn hshared
  unfold World.chunkBits World.view
  rw [hjoint.stays k (by omega) hk]
  funext j
  simp only [Bits.drop_apply, hjoint.off]
  congr 1
  omega

theorem stream_joint (h : Uncompressed env w c L) (hn : 1 < c.num) (hshared : L.shared = c.num) :
    w.stream = (w.chunkBits 0).bytes 0 (streamLength c L) := by
  have hchunks : forall n, n < c.num ->
      ((List.range n).flatMap fun k => (w.chunkBits k).bytes 0 (1024 * w.capacityOf k)) =
        (w.chunkBits 0).bytes 0 (1024 * L.start n) := by
    intro n
    induction n with
    | zero =>
        intro _
        rfl
    | succ n ih =>
        intro hlt
        rw [List.range_succ, List.flatMap_append, ih (by omega), List.flatMap_singleton,
          h.capacityOf_eq (by omega), h.chunkBits_joint (k := n) hn hshared (by omega),
          Bits.bytes_drop, L.start_succ, Nat.mul_add, Bits.bytes_append]
        simp only [Nat.zero_add, Nat.add_zero]
  unfold World.stream streamLength
  rw [h.num, hchunks (c.num - 1) (by omega), h.virginOf_eq (by omega),
    h.chunkBits_joint (k := c.num - 1) hn hshared (by omega), Bits.bytes_drop, Bits.bytes_append]
  simp only [Nat.zero_add, Nat.add_zero]

/-- What holds of the reader over one buffer after any schedule. -/
structure JointAt (w : World) (c : Content) (L : Layout) (src : ChkCompressSource)
    (l : List Byte) (p : Ptr) (len : Nat) : Prop where
  continuous : src.isContinuous = true
  ptr : src.ptr = (w.index.chkAddr 0).add l.length
  left : src.bytesLeft = (streamLength c L : Nat) - (l.length : Int)
  length : l.length ≤ streamLength c L
  bytes : l = (w.chunkBits 0).bytes 0 l.length
  next : len ≠ 0 -> p = src.ptr

namespace JointAt

variable {src src' : ChkCompressSource} {l l' : List Byte} {p q : Ptr} {len m n : Nat}

theorem available_eq (h : JointAt w c L src l p len) (hbound : streamLength c L < 2 ^ 26) :
    src.available = streamLength c L - l.length := by
  have hlen := h.length
  unfold ChkCompressSource.available toSizeT
  rw [h.left]
  omega

theorem peek_ok (h : JointAt w c L src l p len) :
    src.peek w = .ok ((src.ptr, src.available), w) := by
  unfold ChkCompressSource.peek
  rw [if_pos h.continuous]
  rfl

theorem skip_ok (h : JointAt w c L src l p len) (hu : Uncompressed env w c L) (hn : 1 < c.num)
    (hshared : L.shared = c.num) (hle : n ≤ len) (htotal : l.length + n ≤ streamLength c L) :
    exists src', passed p n w = .ok ((w.chunkBits 0).bytes l.length n, w) ∧
      src.skip n w = .ok (src', w) ∧
      JointAt w c L src' (l ++ (w.chunkBits 0).bytes l.length n) (p.add n) len := by
  unfold passed ChkCompressSource.skip
  by_cases hz : n = 0
  · subst hz
    have hnone : l ++ (w.chunkBits 0).bytes l.length 0 = l := List.append_nil l
    have hstay : p.add 0 = p := rfl
    rw [if_pos rfl, if_pos rfl, hnone, hstay]
    exact ⟨src, rfl, rfl, h⟩
  · have hp := h.next (by omega)
    rw [if_neg hz, if_neg hz, if_pos h.continuous]
    refine ⟨{ src with bytesLeft := src.bytesLeft - n, ptr := src.ptr.add n }, ?_, rfl, ?_⟩
    · rw [hp, h.ptr]
      exact hu.loadBytes_joint hn hshared htotal
    · have hlength : (l ++ (w.chunkBits 0).bytes l.length n).length = l.length + n := by
        rw [List.length_append, Bits.length_bytes]
      refine ⟨h.continuous, ?_, ?_, ?_, ?_, fun _ => ?_⟩
      · rw [hlength, h.ptr]
        simp only [Ptr.add, Nat.add_assoc]
      · rw [hlength]
        show src.bytesLeft - (n : Int) = _
        rw [h.left]
        omega
      · rw [hlength]
        exact htotal
      · rw [hlength, Bits.bytes_append, Nat.zero_add, ← h.bytes]
      · rw [hp]

end JointAt

theorem make_at (h : Uncompressed env w c L) (hset : Settled c L) (hz : 0 < c.num) :
    exists src, ChkCompressSource.make w = .ok (src, w) ∧
      src.isContinuous = decide (1 < c.num ∧ L.shared = c.num) ∧
      SourceAt w c L src 0 ∧ src.available = streamLength c L := by
  rcases h.make_ok hset hz with ⟨src, hmake, hat, havail⟩
  refine ⟨src, hmake, ?_, hat, havail⟩
  rcases Exec.ok_of_bind hmake with ⟨continuous, w₁, hcont, hrest⟩
  cases (h.isContinuous_ok hset).symm.trans hcont
  rcases Exec.ok_of_bind hrest with ⟨_, _, -, hrest⟩
  rcases Exec.ok_of_bind hrest with ⟨_, _, -, hrest⟩
  rcases Exec.ok_of_bind hrest with ⟨_, _, -, hrest⟩
  rcases Exec.ok_of_bind hrest with ⟨_, _, -, hrest⟩
  rcases Exec.ok_of_bind hrest with ⟨_, _, -, hrest⟩
  rcases Exec.ok_of_bind hrest with ⟨_, _, -, hrest⟩
  rcases Exec.ok_of_bind hrest with ⟨_, _, -, hrest⟩
  cases hrest
  rfl

theorem joint_run (h : Uncompressed env w c L) (hn : 1 < c.num) (hshared : L.shared = c.num)
    {src₀ src : ChkCompressSource} (hcont : src₀.isContinuous = true)
    (hat : SourceAt w c L src₀ 0) (havail : src₀.available = streamLength c L) {l : List Byte}
    {p : Ptr} {len : Nat} (hrun : SourceRun w src₀ src l p len) : JointAt w c L src l p len := by
  induction hrun with
  | start =>
      rcases hat with ⟨hno, -⟩ | ⟨-, -, -, hptr, hleft⟩
      · rw [hcont] at hno
        cases hno
      · exact ⟨hcont, hptr, hleft, Nat.zero_le _, rfl, fun hne => absurd rfl hne⟩
  | peek _ hpeek ih =>
      cases ih.peek_ok.symm.trans hpeek
      exact ⟨ih.continuous, ih.ptr, ih.left, ih.length, ih.bytes, fun _ => rfl⟩
  | skip _ hle htotal hpassed hskip ih =>
      rw [havail] at htotal
      rcases ih.skip_ok h hn hshared hle htotal with ⟨src', hpassed', hskip', hjoint⟩
      cases hpassed'.symm.trans hpassed
      cases hskip'.symm.trans hskip
      exact hjoint

theorem contract_joint (h : Uncompressed env w c L) (hset : Settled c L) (hn : 1 < c.num)
    (hshared : L.shared = c.num) : w.SourceContract := by
  have hbound := h.streamLength_lt (show 0 < c.num by omega)
  rcases h.make_at hset (by omega) with ⟨src₀, hmake, hcont, hat, havail⟩
  rw [decide_eq_true ⟨hn, hshared⟩] at hcont
  have hstream := h.stream_joint hn hshared
  have hlength : w.stream.length = streamLength c L := by
    rw [hstream, Bits.length_bytes]
  refine ⟨src₀, hmake, fun src l p len hrun => ?_⟩
  have hjoint := h.joint_run hn hshared hcont hat havail hrun
  have hle := hjoint.length
  have hleft := hjoint.available_eq hbound
  have hsplit : w.stream = l ++
      (w.chunkBits 0).bytes l.length (streamLength c L - l.length) := by
    have hsum : streamLength c L = l.length + (streamLength c L - l.length) := by omega
    rw [hstream]
    calc (w.chunkBits 0).bytes 0 (streamLength c L)
        = (w.chunkBits 0).bytes 0 (l.length + (streamLength c L - l.length)) := by rw [← hsum]
      _ = l ++ (w.chunkBits 0).bytes l.length (streamLength c L - l.length) := by
          rw [Bits.bytes_append, Nat.zero_add, ← hjoint.bytes]
  refine ⟨⟨_, hsplit.symm⟩, ?_, fun hlt => ?_, fun n hnle htotal => ?_⟩
  · rw [hlength]
    exact hleft
  · rw [hlength] at hlt
    refine ⟨src.ptr, src.available, hjoint.peek_ok, by omega, Nat.le_refl _, ?_⟩
    have hdrop : w.stream.drop l.length =
        (w.chunkBits 0).bytes l.length (streamLength c L - l.length) := by
      rw [hsplit, List.drop_left]
    rw [hdrop, hleft, List.take_of_length_le (by rw [Bits.length_bytes]), hjoint.ptr]
    exact h.loadBytes_joint hn hshared (by omega)
  · rw [havail] at htotal
    rcases hjoint.skip_ok h hn hshared hnle htotal with ⟨src', hpassed, hskip, -⟩
    exact ⟨_, src', hpassed, hskip⟩

/-!
## Chunk by chunk
-/

theorem no_contract_separate (h : Uncompressed env w c L)
    (ht : Content.Tiling env.freeSize bs c) (hset : Settled c L) (hz : 0 < c.num)
    (hnot : ¬(1 < c.num ∧ L.shared = c.num)) : ¬w.SourceContract := by
  rintro ⟨src₀, hmake, hcontract⟩
  rcases h.make_at hset hz with ⟨src, hmake', hcont, hat, havail⟩
  cases hmake.symm.trans hmake'
  rw [decide_eq_false hnot] at hcont
  have hstart := hcontract _ _ _ _ .start
  have hreserved := ht.reserved_le (c.num - 1) (by omega)
  have hr := Content.reserved_ge (c.num - 1)
  have hpos : 0 < streamLength c L := by
    unfold streamLength
    omega
  rcases h.serves hz hat hpos with ⟨q, m, hpeek, hm, hserve⟩
  rcases hserve 1 Nat.one_pos hm (by omega) with ⟨l, src', hload, hone, -, hskip, -⟩
  have hpassed : passed q 1 w = .ok (l, w) := hload
  have hrun := SourceRun.skip (.peek .start hpeek) hm (by rw [havail]; exact hpos) hpassed hskip
  have havail' := (hcontract _ _ _ _ hrun).2.1
  have hsame : src'.available = src₀.available := by
    unfold ChkCompressSource.available
    rw [ChkCompressSource.skip_bytesLeft hcont hskip]
  have hnone := hstart.2.1
  simp only [List.nil_append, List.length_nil, hone] at havail' hnone
  omega

end Uncompressed

/-- The compression source keeps its contract exactly where all chunks lie in one buffer. -/
theorem Reach.source_contract_iff {env : Env} {s : Session} (h : Reach env CarefulCall s)
    (hflag : s.world.index.compressed = false) (hnum : s.world.index.chkNum ≠ 0) :
    s.world.SourceContract <-> ChkIndex.isContinuousChunk s.world = .ok (true, s.world) := by
  rcases h.careful with ⟨c, L, hv⟩
  have hu := hv.stored.uncompressed hflag
  have hz : 0 < c.num := by
    rw [← hu.num]
    omega
  rw [hu.isContinuous_ok hv.settled]
  by_cases hall : 1 < c.num ∧ L.shared = c.num
  · rw [decide_eq_true hall]
    exact iff_of_true (hu.contract_joint hv.settled hall.1 hall.2) rfl
  · rw [decide_eq_false hall]
    exact iff_of_false (hu.no_contract_separate hv.wf.tiling hv.settled hz hall) nofun

section Sample

/-- What is available at first, the length of the first `Peek`, and what is available
after `Skip(1)`. -/
def sourceTrace (w : World) : Option (Nat × Nat × Nat) :=
  match ChkCompressSource.make w with
  | .ok (src, _) =>
      match src.peek w, src.skip 1 w with
      | .ok (peeked, _), .ok (src', _) => some (src.available, peeked.2, src'.available)
      | _, _ => none
  | .error _ => none

/-- In an index of one chunk with 64 bytes in use, `Peek` serves the whole chunk and
`Skip` does not count. -/
theorem source_overdelivers :
    sourceTrace packed.world = some (64, 16384, 64) ∧ ¬packed.world.SourceContract := by
  have hfacts : sourceTrace packed.world = some (64, 16384, 64) ∧
      packed.world.index.compressed = false ∧ packed.world.index.chkNum = 1 := by
    decide +kernel
  rcases packed_reach.careful with ⟨c, L, hv⟩
  have hu := hv.stored.uncompressed hfacts.2.1
  have hnum : c.num = 1 := hu.num.symm.trans hfacts.2.2
  exact ⟨hfacts.1, hu.no_contract_separate hv.wf.tiling hv.settled (by omega) (by omega)⟩

/-- In two chunks that were compressed and came back the source keeps its contract. -/
theorem Reach.source_contract_iff_sample :
    exists w₁ w₂, ChkIndex.compress Env.plain 200 fourBlocks.world = .ok (0, w₁) ∧
      ChkIndex.uncompress Env.plain w₁ = .ok (0, w₂) ∧ w₂.SourceContract := by
  rcases fourBlocks_joins with ⟨w₁, w₂, c, L, hcompress, hrun, hreach, hu, hset, htwo, hshared⟩
  have htest := hu.isContinuous_ok hset
  rw [decide_eq_true ⟨htwo, hshared⟩] at htest
  have hnum : w₂.index.chkNum ≠ 0 := by
    rw [hu.num]
    omega
  exact ⟨w₁, w₂, hcompress, hrun, (Reach.source_contract_iff hreach hu.flag hnum).mpr htest⟩

end Sample

end ChunkMem
