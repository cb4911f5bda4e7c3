import ChunkMem.Session.Contents

/-!
# Compression keeps the whole content

After `compress`, when it leaves the index compressed, and `uncompress`
the index stores what it stored before, whatever the layout of its chunks was; only
the last chunk is trimmed to its virgin mark.
-/

namespace ChunkMem

open Foundation

/-- A state after compression and decompression against the one before. -/
structure World.RoundTripped (w w' : World) : Prop where
  flag : w'.index.compressed = false
  same : w.SameContent w'
  table : w'.index.chkNum ≤ w'.index.chkAddrSize
  capacity : forall k, k + 1 < w.index.chkNum -> w'.capacityOf k = w.capacityOf k
  last : forall k, k + 1 = w.index.chkNum -> w'.capacityOf k = (w.virginOf k + 127) / 128
  total : w'.totalCapacity = sumTo w'.index.chkNum w'.capacityOf

/-- The states after some rounds of `compress` and `uncompress`, each
`compress` leaving the index compressed. -/
inductive Rounds (env : Env) (w : World) : World -> Prop where
  | none : Rounds env w w
  | round {w₁ w₂ w₃ : World} {percent r r' : Int} : Rounds env w w₁ ->
      ChkIndex.compress env percent w₁ = .ok (r, w₂) -> w₂.index.compressed = true ->
      ChkIndex.uncompress env w₂ = .ok (r', w₃) -> Rounds env w w₃

namespace Uncompressed

variable {env : Env} {w w₁ : World} {c : Content} {L : Layout} {bs : List Block}

theorem round_trip (h : Uncompressed env w c L) (ht : Content.Tiling env.freeSize bs c)
    (hset : Settled c L) (hok : env.AllOk) {percent r : Int}
    (hrun : ChkIndex.compress env percent w = .ok (r, w₁))
    (hflag : w₁.index.compressed = true) :
    0 < c.num ∧ exists w₂, ChkIndex.uncompress env w₁ = .ok (0, w₂) ∧
      Uncompressed env w₂ c (L.restored env c) := by
  rcases (h.compress_ensures ht hset percent).of_ok hrun with ⟨-, hc⟩ | ⟨hu, -⟩
  · refine ⟨hc.pos, ?_⟩
    have htotal : forall e, ¬Tolerated env e := fun e he => he.2 hok
    rcases (hc.uncompress_ensures ht).exists_ok htotal with
      ⟨r', w₂, hrun', ⟨hr, h₂⟩ | ⟨-, hfail, -⟩⟩
    · rw [hr] at hrun'
      exact ⟨w₂, hrun', h₂⟩
    · exact absurd hok hfail
  · rw [hu.flag] at hflag
    cases hflag

/-- The state after a round against any state that stores the content. -/
theorem roundTripped {w' : World} {L₁ : Layout} (h : Uncompressed env w c L)
    (ht : Content.Tiling env.freeSize bs c) (hpos : 0 < c.num)
    (h' : Uncompressed env w' c (L₁.restored env c))
    (hcap : forall k, k + 1 < c.num -> L₁.cap k = L.cap k) : w.RoundTripped w' := by
  have hnum := h.num
  have hnum' := h'.num
  have hset := L₁.restored_settled c env hpos
  refine ⟨h'.flag, h.sameContent ht h', by rw [hnum']; exact h'.size, ?_, ?_, ?_⟩
  · intro k hk
    rw [h'.capacityOf_eq (by omega), h.capacityOf_eq (by omega), Layout.restored_cap,
      L₁.joined_cap_other c (by omega)]
    exact hcap k (by omega)
  · intro k hk
    have hlast : k = c.num - 1 := by omega
    rw [h'.capacityOf_eq (by omega), h.virginOf_eq (by omega), Layout.restored_cap, hlast,
      L₁.joined_cap_last]
    rfl
  · have htotal : w'.totalCapacity = (L₁.restored env c).total := h'.total hpos
    rw [htotal, hset, hnum']
    exact sumTo_congr fun k hk => (h'.capacityOf_eq hk).symm

end Uncompressed

theorem Rounds.uncompressed {env : Env} {w w' : World} {c : Content} {L : Layout}
    {bs : List Block} (h : Uncompressed env w c L) (ht : Content.Tiling env.freeSize bs c)
    (hset : Settled c L) (hok : env.AllOk) (hrounds : Rounds env w w') :
    exists L', Uncompressed env w' c L' ∧ Settled c L' ∧
      (forall k, k + 1 < c.num -> L'.cap k = L.cap k) ∧ (w' = w ∨ w.RoundTripped w') := by
  induction hrounds with
  | none => exact ⟨L, h, hset, fun _ _ => rfl, Or.inl rfl⟩
  | round _ hcompress hflag huncompress ih =>
      rcases ih with ⟨L₁, h₁, hset₁, hcap₁, -⟩
      rcases h₁.round_trip ht hset₁ hok hcompress hflag with ⟨hpos, w₂, hrun, h₂⟩
      rw [hrun] at huncompress
      cases huncompress
      refine ⟨_, h₂, L₁.restored_settled c env hpos, ?_,
        Or.inr (h.roundTripped ht hpos h₂ hcap₁)⟩
      intro k hk
      rw [Layout.restored_cap, L₁.joined_cap_other c (by omega)]
      exact hcap₁ k hk

/-- In every session with an uncompressed index and memory in order, after any
number of rounds: where `compress` leaves the index compressed
`uncompress` succeeds, and the index stores what it stored, with the last chunk
trimmed. -/
theorem Reach.compression_round_trips {env : Env} {s : Session} (h : Reach env CarefulCall s)
    (hok : env.AllOk) (hflag : s.world.index.compressed = false) {w : World}
    (hrounds : Rounds env s.world w) :
    (w = s.world ∨ s.world.RoundTripped w) ∧
    forall percent r w₁, ChkIndex.compress env percent w = .ok (r, w₁) ->
      w₁.index.compressed = true -> exists w₂, ChkIndex.uncompress env w₁ = .ok (0, w₂) ∧
        s.world.RoundTripped w₂ := by
  rcases h.careful with ⟨c, L, hv⟩
  have hu := hv.stored.uncompressed hflag
  have ht := hv.wf.tiling
  rcases Rounds.uncompressed hu ht hv.settled hok hrounds with ⟨L', h', hset', hcap', hw⟩
  refine ⟨hw, fun percent r w₁ hrun hcompressed => ?_⟩
  rcases h'.round_trip ht hset' hok hrun hcompressed with ⟨hpos, w₂, hrun', h₂⟩
  exact ⟨w₂, hrun', hu.roundTripped ht hpos h₂ hcap'⟩

def packed : Session := Call.after Env.plain [.alloc 24] ⟨World.boot, []⟩

theorem packed_reach : Reach Env.plain CarefulCall packed := by
  unfold packed
  exact .after (.start World.boot_fresh) (by decide +kernel)

theorem Reach.compression_round_trips_sample :
    (Call.after Env.plain [.alloc 24, .compress 200] ⟨World.boot, []⟩).world.index.compressed =
      true ∧
    forall percent r w₁, ChkIndex.compress Env.plain percent packed.world = .ok (r, w₁) ->
      w₁.index.compressed = true ->
      exists w₂, ChkIndex.uncompress Env.plain w₁ = .ok (0, w₂) ∧
        packed.world.RoundTripped w₂ :=
  ⟨by decide +kernel, (Reach.compression_round_trips packed_reach Env.plain_allOk
    (by decide +kernel) .none).2⟩

end ChunkMem
