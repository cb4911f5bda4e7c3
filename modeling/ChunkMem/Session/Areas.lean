import Mathlib.Order.CompletePartialOrder
import ChunkMem.Foundation.Residents
import ChunkMem.Session.Programs

/-!
# Areas of memory that a program leaves alone

An area is a set of bits of the chunks, wherever the chunks lie.  What leaves an area
alone keeps the bits there and the blocks they are in; this composes, so that a data
structure in an area survives whatever happens outside it: allocations, the moves of
chunks, a compression and what follows it.
-/

namespace ChunkMem

open Foundation

/-- Bits of chunks: the number of a chunk and the number of a bit in it. -/
abbrev Area := Nat -> Nat -> Prop

def Live.Covers (l : Live) (k j : Nat) : Prop :=
  k = l.ptr.chkNo ∧ 32 * l.ptr.offset ≤ j ∧ j < 32 * l.ptr.offset + 64 * l.ptr.size

namespace Area

def ofBlocks (live : List Live) : Area := fun k j => exists l, l ∈ live ∧ l.Covers k j

def In (V : Area) (live : List Live) : Prop := forall k j, V k j -> ofBlocks live k j

def Touches (V : Area) (l : Live) : Prop := exists k j, V k j ∧ l.Covers k j

theorem In.mono {V V' : Area} {live : List Live} (h : V.In live)
    (hV : forall k j, V' k j -> V k j) : V'.In live :=
  fun k j hkj => h k j (hV k j hkj)

theorem disjoint_iff {V V' : Area} : Disjoint V V' <-> forall k j, V k j -> ¬V' k j := by
  simp only [Pi.disjoint_iff, Prop.disjoint_iff, not_and]

end Area

def Call.Spares (V : Area) : Call -> Prop
  | free p => forall k j, V k j -> ¬(k = p.chkNo ∧ 32 * p.offset ≤ j ∧
      j < 32 * p.offset + 64 * p.size)
  | write p pos data => forall k j, V k j -> ¬(k = p.chkNo ∧ 32 * p.offset + 8 * pos ≤ j ∧
      j < 32 * p.offset + 8 * pos + 8 * data.length)
  | destruct => forall k j, ¬V k j
  | _ => True

/-- The area is as it was: the bits of the content there, and the blocks they are in. -/
structure Spared (env : Env) (V : Area) (s s' : Session) : Prop where
  bits : forall c L, Valid env s c L -> exists c' L', Valid env s' c' L' ∧
    forall k j, V k j -> (c'.body k).bits j = (c.body k).bits j
  blocks : forall l, l ∈ s.live -> V.Touches l -> l ∈ s'.live

namespace Spared

variable {env : Env} {V V' : Area} {s s' s'' : Session}

theorem refl (env : Env) (V : Area) (s : Session) : Spared env V s s :=
  ⟨fun c L hv => ⟨c, L, hv, fun _ _ _ => rfl⟩, fun _ hl _ => hl⟩

theorem trans (h : Spared env V s s') (h' : Spared env V s' s'') : Spared env V s s'' := by
  constructor
  · intro c L hv
    rcases h.bits c L hv with ⟨c₁, L₁, hv₁, hbits₁⟩
    rcases h'.bits c₁ L₁ hv₁ with ⟨c₂, L₂, hv₂, hbits₂⟩
    exact ⟨c₂, L₂, hv₂, fun k j hkj => (hbits₂ k j hkj).trans (hbits₁ k j hkj)⟩
  · intro l hl htouch
    exact h'.blocks l (h.blocks l hl htouch) htouch

theorem mono (h : Spared env V s s') (hV : forall k j, V' k j -> V k j) :
    Spared env V' s s' := by
  constructor
  · intro c L hv
    rcases h.bits c L hv with ⟨c', L', hv', hbits⟩
    exact ⟨c', L', hv', fun k j hkj => hbits k j (hV k j hkj)⟩
  · rintro l hl ⟨k, j, hkj, hcov⟩
    exact h.blocks l hl ⟨k, j, hV k j hkj, hcov⟩

theorem isIn (h : Spared env V s s') (hin : V.In s.live) : V.In s'.live := by
  intro k j hkj
  rcases hin k j hkj with ⟨l, hl, hcov⟩
  exact ⟨l, h.blocks l hl ⟨k, j, hkj, hcov⟩, hcov⟩

end Spared

theorem Valid.chunk_bit {env : Env} {s : Session} {c : Content} {L : Layout}
    (h : Valid env s c L) (hflag : s.world.index.compressed = false) {l : Live}
    (hl : l ∈ s.live) {k j : Nat} (hcov : l.Covers k j) :
    s.world.chunkBits k j = (c.body k).bits j := by
  rcases hcov with ⟨rfl, hlo, hhi⟩
  have hbit := h.target_bit hflag hl (j := j - 32 * l.ptr.offset) (by omega)
  unfold World.target at hbit
  rwa [Bits.drop_apply, Nat.add_sub_cancel' hlo] at hbit

namespace Spared

variable {env : Env} {V : Area} {s s' : Session}

/-- Between two states of the index that are not compressed the memory of the area stays. -/
theorem chunkBits_eq (h : Spared env V s s') (hopen : Open env s)
    (hflag : s'.world.index.compressed = false) (hin : V.In s.live) {k j : Nat} (hkj : V k j) :
    s'.world.chunkBits k j = s.world.chunkBits k j := by
  rcases hopen with ⟨hflag₀, c, L, hv⟩
  rcases h.bits c L hv with ⟨c', L', hv', hbits⟩
  rcases hin k j hkj with ⟨l, hl, hcov⟩
  rw [hv.chunk_bit hflag₀ hl hcov,
    hv'.chunk_bit hflag (h.blocks l hl ⟨k, j, hkj, hcov⟩) hcov, hbits k j hkj]

theorem of_open (hopen : Open env s) (hopen' : Open env s') (hin : V.In s.live)
    (hblocks : forall l, l ∈ s.live -> V.Touches l -> l ∈ s'.live)
    (hbits : forall k j, V k j -> s'.world.chunkBits k j = s.world.chunkBits k j) :
    Spared env V s s' := by
  refine ⟨fun c L hv => ?_, hblocks⟩
  rcases hopen' with ⟨hflag', c', L', hv'⟩
  refine ⟨c', L', hv', fun k j hkj => ?_⟩
  rcases hin k j hkj with ⟨l, hl, hcov⟩
  rw [← hv.chunk_bit hopen.1 hl hcov,
    ← hv'.chunk_bit hflag' (hblocks l hl ⟨k, j, hkj, hcov⟩) hcov, hbits k j hkj]

end Spared

/-- The blocks of an index as a store.  Data structures are worked on while the index is not
compressed. -/
def Session.store (env : Env) : Store Session Area where
  Ready := Open env
  Within := fun s V => V.In s.live
  Keeps := Spared env
  within_mono := fun h hV => h.mono hV
  within_sup := fun h h' k j hkj => hkj.elim (h k j) (h' k j)
  within_keeps := fun h hkeeps => hkeeps.isIn h
  keeps_refl := Spared.refl env
  keeps_trans := Spared.trans
  keeps_mono := fun h hV => h.mono hV

/-!
## Calls that leave an area alone
-/

theorem Call.blocks_spared {env : Env} {s s' : Session} {V : Area} {call : Call} {r : Result}
    (hspares : call.Spares V) (hrun : call.perform env s = .ok (r, s')) {l : Live}
    (hl : l ∈ s.live) (htouch : V.Touches l) : l ∈ s'.live := by
  rcases Call.perform_run hrun with ⟨w', -, rfl⟩
  rcases htouch with ⟨k, j, hkj, hcov⟩
  cases call with
  | alloc n =>
      cases r with
      | block p =>
          rw [Call.holds_alloc]
          split
          · exact hl
          · exact List.mem_cons_of_mem _ hl
      | code x => exact hl
      | done => exact hl
  | free p =>
      rw [Call.holds_free]
      split
      · exact hl
      · have hne : l.ptr ≠ p := by
          rintro rfl
          exact hspares k j hkj hcov
        exact (List.mem_eraseP_of_neg (by simpa using hne)).mpr hl
  | destruct => exact absurd hkj (hspares k j)
  | write p pos data => exact hl
  | enlarge => exact hl
  | compress percent => exact hl
  | uncompress => exact hl
  | shrink => exact hl

namespace Valid

variable {env : Env} {s s' : Session} {c : Content} {L : Layout} {V : Area} {call : Call}
variable {r : Result}

theorem write_spared (h : Valid env s c L) {p : ChkPtr} {pos : Nat} {data : List Byte}
    (hcall : (Call.write p pos data).Allowed s) (hspares : (Call.write p pos data).Spares V)
    (hrun : (Call.write p pos data).perform env s = .ok (r, s')) :
    exists c', Valid env s' c' L ∧
      forall k j, V k j -> (c'.body k).bits j = (c.body k).bits j := by
  rcases hcall with ⟨hflag, l, hl, rfl, hle⟩
  rcases h.writeBlock_ok hflag hl hle with ⟨w', hw, h'⟩
  have hcode : (Call.write l.ptr pos data).run env s.world = .ok (.done, w') :=
    (Exec.bind_of_ok hw).trans rfl
  cases (Call.perform_of_run hcode).symm.trans hrun
  have hwf' := Content.write_wf h.wf (mem_block hl) hle
  refine ⟨_, ⟨Or.inl h', h.settled, hwf', h.ptr, h.pos, h.size⟩, fun k j hkj => ?_⟩
  have hout := hspares k j hkj
  have hoff : 32 * l.ptr.offset = 64 * l.block.start := by
    rw [h.ptr l hl, blockPtr_offset]
    omega
  unfold Content.write
  rw [Content.setBits_bits]
  split
  · next hk =>
      have hno : k = l.ptr.chkNo := hk
      rw [Bits.writeBytes_outside (by omega), hk]
  · rfl

theorem bits_spared (h : Valid env s c L) (hin : V.In s.live) (hcall : CarefulCall s call)
    (hspares : call.Spares V) (hrun : call.perform env s = .ok (r, s')) :
    exists c' L', Valid env s' c' L' ∧
      forall k j, V k j -> (c'.body k).bits j = (c.body k).bits j := by
  by_cases hwrite : exists p pos data, call = .write p pos data
  · rcases hwrite with ⟨p, pos, data, rfl⟩
    rcases h.write_spared hcall.1 hspares hrun with ⟨c', hv', hbits⟩
    exact ⟨c', L, hv', hbits⟩
  · rcases (h.perform hcall.1 hcall.safe.2).of_ok hrun with ⟨c', L', hv', -, hkeeps⟩
    refine ⟨c', L', hv', fun k j hkj => ?_⟩
    rcases hin k j hkj with ⟨l, hl, hcov⟩
    have hl' := Call.blocks_spared hspares hrun hl ⟨k, j, hkj, hcov⟩
    have hkept := hkeeps l hl hl' fun pos data heq => hwrite ⟨l.ptr, pos, data, heq⟩
    rcases hcov with ⟨rfl, hlo, hhi⟩
    have hoff : 32 * l.ptr.offset = 64 * l.block.start := by
      rw [h.ptr l hl, blockPtr_offset]
      omega
    have hlen : l.block.len = l.ptr.size := rfl
    have hself := Extent.covers_of (e := l.block) (u := j / 64) (by omega) (by omega)
    refine hkept l.ptr.chkNo (j / 64) ?_ j (by omega) (by omega)
    rw [Extent.cover_cons]
    exact Nat.lt_of_lt_of_le (hself ▸ Nat.one_pos) (Nat.le_add_right _ _)

end Valid

/-- A call of a program that neither writes nor frees the area leaves it alone. -/
theorem Call.spared {env : Env} {s s' : Session} {V : Area} {call : Call} {r : Result}
    (hin : V.In s.live) (hcall : CarefulCall s call) (hspares : call.Spares V)
    (hrun : call.perform env s = .ok (r, s')) : Spared env V s s' := by
  constructor
  · intro c L hv
    exact hv.bits_spared hin hcall hspares hrun
  · intro l hl htouch
    exact Call.blocks_spared hspares hrun hl htouch

namespace Valid

variable {env : Env} {s : Session} {c : Content} {L : Layout}

theorem opened (h : Valid env s c L) {u : World}
    (hrun : ChkIndex.uncompress env s.world = .ok (0, u)) :
    u.index.compressed = false ∧ CarefulCall s .uncompress ∧
      Call.uncompress.perform env s = .ok (.code 0, ⟨u, s.live⟩) := by
  have hcode := ((h.stored.uncompress_ensures h.wf h.settled).of_ok hrun).2
  have hcode' : Call.uncompress.run env s.world = .ok (.code 0, u) :=
    (Exec.bind_of_ok hrun).trans rfl
  exact ⟨(hcode.resolve_right fun hcon => hcon.1 rfl).2, ⟨trivial, fun heq => by cases heq⟩,
    Call.perform_of_run hcode'⟩

theorem exists_opened (h : Valid env s c L) (hok : env.AllOk) :
    exists u, ChkIndex.uncompress env s.world = .ok (0, u) := by
  rcases (h.stored.uncompress_ensures h.wf h.settled).exists_ok fun e he => he.2 hok with
    ⟨r, u, hrun, -, ⟨rfl, -⟩ | ⟨-, hfail⟩⟩
  · exact ⟨u, hrun⟩
  · exact absurd hok hfail

theorem exists_compressed (h : Valid env s c L) (percent : Nat) :
    exists r s', CarefulCall s (.compress percent) ∧
      (Call.compress percent).perform env s = .ok (r, s') := by
  rcases (h.stored.compress_ensures h.wf h.settled percent).exists_ok fun _ he => he with
    ⟨r, w, hrun, -⟩
  have hcode : (Call.compress percent).run env s.world = .ok (.code r, w) :=
    (Exec.bind_of_ok hrun).trans rfl
  exact ⟨_, _, ⟨trivial, fun heq => by cases heq⟩, Call.perform_of_run hcode⟩

end Valid

end ChunkMem
