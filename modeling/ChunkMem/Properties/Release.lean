import ChunkMem.Session.Runs

/-!
# Destruct releases everything

`destruct` empties an index that is not compressed: every allocation is given
back and what follows starts as with a fresh index.  On a compressed index it
returns at once, since `compress` left `_chk_num` zero.
-/

namespace ChunkMem

open Foundation

/-- The index holds no memory and behaves as one nobody used yet: the next block
comes from the start of an empty first chunk. -/
structure World.LikeFresh (env : Env) (w : World) : Prop where
  num : w.index.chkNum = 0
  flag : w.index.compressed = false
  released : forall b a, w.sys.allocs b = some a -> a.kind = .caller
  alloc : forall n p w', 1 ≤ n -> n ≤ 4088 -> ChkIndex.alloc env n w = .ok (p, w') ->
    (p = chkNull ∧ ¬env.AllOk) ∨
    (p = ⟨0, 10, Uncompressed.units n⟩ ∧ w'.index.chkNum = 1 ∧
      forall j, 64 * 5 ≤ j -> j < 8 * 16384 -> w'.chunkBits 0 j = false)

/-- `destruct` releases everything the index holds and leaves it as fresh. -/
def DestructReleases (env : Env) (w : World) : Prop :=
  exists w', ChkIndex.destruct env w = .ok ((), w') ∧ w'.LikeFresh env

namespace Content

theorem alloc_empty (cls : Fin 3 -> Nat) (limit : Nat) {len : Nat} (hpos : 0 < len)
    (hlen : len ≤ 511) :
    exists c', Content.alloc cls limit len Content.empty = .ok (⟨0, 10, len⟩, c') ∧
      c'.num = 1 ∧ (c'.body 0).bits = Bits.zero := by
  have hfit : fitClass cls Content.empty.addChunk len = none := by
    unfold fitClass
    rw [List.find?_eq_none]
    intro i _
    simp [addChunk, empty]
  have hpool : poolAlloc cls len Content.empty.addChunk =
      .ok (chkNull, Content.empty.addChunk) := by
    unfold poolAlloc
    rw [Exec.bind_of_ok (Exec.state_apply _), hfit]
    rfl
  have hbody : Content.empty.addChunk.body 0 = ⟨5, 5, Bits.zero⟩ := by
    simp [addChunk, empty]
  refine ⟨(Content.empty.addChunk.bump 0 len).countUsed 0 len, ?_, rfl, ?_⟩
  · unfold Content.alloc
    rw [Exec.bind_of_ok (Exec.state_apply _), if_pos (show Content.empty.num = 0 from rfl),
      Exec.bind_of_ok (Exec.update_apply _ _)]
    unfold allocBlock
    rw [Exec.bind_of_ok hpool, if_pos (show chkNull.IsNull from rfl),
      Exec.bind_of_ok (Exec.state_apply _)]
    have hnum : Content.empty.addChunk.num - 1 = 0 := rfl
    simp only [hnum, hbody]
    rw [if_pos (by omega)]
    unfold cutTop
    rw [Exec.bind_of_ok (Exec.state_apply _), Exec.bind_of_ok (Exec.update_apply _ _)]
    simp only [bumpBlock, hbody, blockPtr]
    rfl
  · simp [countUsed, bump, setUsed, setVirgin, hbody]

end Content

namespace Uncompressed

variable {env : Env} {w : World} {L : Layout}

theorem likeFresh (h : Uncompressed env w Content.empty L) (hset : Settled Content.empty L)
    (hcaller : forall b a, w.sys.allocs b = some a -> a.kind = .caller) :
    w.LikeFresh env := by
  refine ⟨h.num, h.flag, hcaller, ?_⟩
  intro n p w' hpos hn hrun
  have hlen : 0 < units n ∧ units n ≤ 511 := by
    unfold units
    omega
  rcases Content.alloc_empty env.freeSize (128 * L.cap 0) hlen.1 hlen.2 with
    ⟨c', halloc, hnum, hbits⟩
  rcases (h.alloc_ensures (Content.empty_wf _) hset (by omega) hn).of_ok hrun with
    ⟨hne, -⟩ | ⟨c'', L', hcontent, h', -, hgrown⟩ | ⟨hp, hfail, -⟩
  · exact absurd rfl hne
  · have hzero : Content.empty.num - 1 = 0 := rfl
    rw [hzero, halloc] at hcontent
    cases hcontent
    refine Or.inr ⟨rfl, h'.num.trans hnum, ?_⟩
    intro j hj1 hj2
    have hcap : L'.cap 0 = 16 := hgrown.new 0 (Nat.le_refl _) (by omega)
    rw [(h'.image 0 (by omega)).data j hj1, hbits]
    · rfl
    · have hreach : 8192 * L'.cap 0 ≤ env.reach (L'.cap 0) := env.le_reach (by omega)
      omega
  · exact Or.inl ⟨hp, hfail⟩

end Uncompressed

section Sample

/-- A block is handed out, then the index is compressed and destructed. -/
def leaked : Session :=
  Call.after Env.plain [.alloc 24, .compress 200, .destruct] ⟨World.boot, []⟩

end Sample

end ChunkMem
