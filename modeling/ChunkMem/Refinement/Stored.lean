import ChunkMem.Refinement.Alloc
import ChunkMem.Refinement.Uncompress

/-!
# The index in either form

A content is stored uncompressed or compressed.  Allocation, release and
enlargement work on both: they uncompress first, and when that fails they leave
everything as it was.
-/

namespace ChunkMem

open Foundation

def Stored (env : Env) (w : World) (c : Content) (L : Layout) : Prop :=
  Uncompressed env w c L ∨ Compressed env w c L

namespace Layout

variable (L : Layout) (c : Content)

theorem apart_settled {L : Layout} {c : Content} (h : Settled c L) : Settled c L.apart := h

theorem restored_settled (env : Env) (hpos : 0 < c.num) : Settled c (L.restored env c) := by
  unfold restored
  split
  · exact apart_settled (L.joined_settled c hpos)
  · exact L.joined_settled c hpos

theorem restored_outer (env : Env) : (L.restored env c).outer = L.outer := by
  unfold restored
  split <;> rfl

theorem restored_cap (env : Env) : (L.restored env c).cap = (L.joined c).cap := by
  unfold restored
  split <;> rfl

end Layout

namespace Uncompressed

variable {env : Env} {w : World} {c : Content} {L : Layout} {bs : List Block}

/-- `ChkIndex::enlarge` on an index that is not compressed: the last chunk
owns an allocation and has its full capacity. -/
theorem enlarge_ensures (h : Uncompressed env w c L)
    (ht : Content.Tiling env.freeSize bs c) (hset : Settled c L) :
    Exec.Ensures (ChkIndex.enlarge env w)
      (fun r w' => exists L', Uncompressed env w' c L' ∧ Settled c L' ∧ L'.outer = L.outer ∧
        (r = 0 ∧ (c.num ≠ 0 -> L'.own (c.num - 1) ≠ 0 ∧ L'.cap (c.num - 1) = 16) ∨
          r < 0 ∧ ¬env.AllOk))
      (Tolerated env) := by
  unfold ChkIndex.enlarge
  rw [Exec.bind_of_ok h.tracks.uncompress_ok, if_neg (by decide)]
  -- after the split the last chunk owns an allocation
  have hsplit : Exec.Ensures (ChkIndex.splitContinuousChunk env w)
      (fun r w' => r = 0 ∧ exists L', Uncompressed env w' c L' ∧ Settled c L' ∧
        L'.outer = L.outer ∧ (c.num ≠ 0 -> L'.own (c.num - 1) ≠ 0)) (Tolerated env) := by
    refine (h.split_ensures ht hset).mono ?_ (fun _ he => he)
    rintro r w' ⟨hr, ⟨hn, hshared, h'⟩ | ⟨hnot, rfl⟩⟩
    · refine ⟨hr, L.apart, h', Layout.apart_settled hset, rfl, fun _ => ?_⟩
      have hone := h'.fits.one_le (c.num - 1) (by omega)
      rw [L.apart.own_alone (Nat.le_refl 1) (Nat.le_max_left 1 _)]
      omega
    · refine ⟨hr, L, h, hset, rfl, fun hz => ?_⟩
      have hone := h.fits.one_le (c.num - 1) (by omega)
      have hshared := h.fits.shared_le
      have hpos := h.fits.shared_pos
      rw [L.own_alone hpos (by omega)]
      omega
  refine Exec.Ensures.bind hsplit ?_
  rintro r w₁ ⟨rfl, L₁, h₁, hset₁, houter₁, hown₁⟩
  rw [if_neg (by decide)]
  refine Exec.Ensures.bind (h₁.extend_ensures ht hset₁) ?_
  rintro r w₂ (⟨rfl, hfull, rfl⟩ | ⟨rfl, hz, hown, h₂⟩ | ⟨rfl, hfail, h₂⟩)
  · rw [if_neg (by decide)]
    exact ⟨L₁, h₁, hset₁, houter₁, Or.inl ⟨rfl, fun hz =>
      ⟨hown₁ hz, hfull hz (hown₁ hz)⟩⟩⟩
  · rw [if_neg (by decide)]
    refine ⟨L₁.resize (c.num - 1) 16, h₂, Layout.resize_settled hset₁ (by omega) 16, houter₁,
      Or.inl ⟨rfl, fun _ => ?_⟩⟩
    have hcap : (L₁.resize (c.num - 1) 16).cap (c.num - 1) = 16 := L₁.setCap_self _ _
    refine ⟨?_, hcap⟩
    have hshared := h₁.fits.shared_le
    have halone : L₁.shared ≤ max 1 (c.num - 1) := by
      by_contra hcon
      exact hown (L₁.own_of_shared (by omega) (by omega))
    rw [(L₁.resize (c.num - 1) 16).own_alone h₁.fits.shared_pos halone, hcap]
    decide
  · rw [if_pos (by decide)]
    exact ⟨L₁, h₂, hset₁, houter₁, Or.inr ⟨by decide, hfail⟩⟩

end Uncompressed

/-!
## Operations that uncompress first
-/

theorem align_small {n : Int} (hpos : 0 < n) (hn : n ≤ 4088) :
    ¬chkAlignDefInt n > chkMaxContinusLen := by
  unfold chkAlignDefInt
  rw [wrapInt_of_lt (by omega) (by omega)]
  simp only [chkMaxContinusLen, chkSize]
  omega

structure Reopened (env : Env) (w w' : World) (c : Content) (L : Layout) : Prop where
  run : ChkIndex.uncompress env w = .ok (0, w')
  rep : Uncompressed env w' c (L.restored env c)

namespace Reopened

variable {env : Env} {w w' : World} {c : Content} {L : Layout}

theorem alloc (h : Reopened env w w' c L) {n : Int} (hpos : 0 < n) (hn : n ≤ 4088) :
    ChkIndex.alloc env n w = ChkIndex.alloc env n w' := by
  unfold ChkIndex.alloc
  rw [Exec.bind_of_ok (Exec.require_of hpos _ _), Exec.bind_of_ok (Exec.require_of hpos _ _)]
  simp only [if_neg (align_small hpos hn)]
  rw [Exec.bind_of_ok h.run, Exec.bind_of_ok h.rep.tracks.uncompress_ok]

theorem free (h : Reopened env w w' c L) (p : ChkPtr) (n : Int) :
    ChkIndex.free env p n w = ChkIndex.free env p n w' := by
  unfold ChkIndex.free
  rw [Exec.bind_of_ok h.run, Exec.bind_of_ok h.rep.tracks.uncompress_ok]

theorem enlarge (h : Reopened env w w' c L) :
    ChkIndex.enlarge env w = ChkIndex.enlarge env w' := by
  unfold ChkIndex.enlarge
  rw [Exec.bind_of_ok h.run, Exec.bind_of_ok h.rep.tracks.uncompress_ok]

end Reopened

namespace Compressed

variable {env : Env} {w : World} {c : Content} {L : Layout} {bs : List Block}

/-- A compressed index reopens, or `uncompress` reports a failure, or its
split trips over an assertion. -/
theorem reopen_cases (h : Compressed env w c L) (ht : Content.Tiling env.freeSize bs c) :
    (exists w', Reopened env w w' c L) ∨
      (exists r w', r ≠ 0 ∧ ¬env.AllOk ∧ Compressed env w' c L ∧
        ChkIndex.uncompress env w = .ok (r, w')) ∨
      (exists e, Tolerated env e ∧ ChkIndex.uncompress env w = .error e) := by
  have hensures := h.uncompress_ensures ht
  cases hrun : ChkIndex.uncompress env w with
  | error e =>
      rw [hrun] at hensures
      exact Or.inr (Or.inr ⟨e, hensures, rfl⟩)
  | ok rw' =>
      rw [hrun] at hensures
      rcases hensures with ⟨hr, h'⟩ | ⟨hr, hfail, h'⟩
      · refine Or.inl ⟨rw'.2, ?_, h'⟩
        rw [hrun, ← hr]
      · exact Or.inr (Or.inl ⟨rw'.1, rw'.2, hr, hfail, h', rfl⟩)

end Compressed

/-!
## Outcomes
-/

theorem Expected.ne_badRelease {env : Env} {e : Fault} (h : Expected env e) :
    e ≠ .badRelease := by
  rintro rfl
  rcases h with h | h
  · cases h.1
  · rcases h.1 with heq | heq <;> cases heq

/-- With memory and size classes in order nothing is expected to fail. -/
theorem not_expected {env : Env} (hok : env.AllOk) (hcls : env.ClassesNonzero) (e : Fault) :
    ¬Expected env e := by
  rintro (h | h)
  · exact h.2 hok
  · exact h.2 hcls

namespace Uncompressed

variable {env : Env} {w : World} {c : Content} {L : Layout} {bs : List Block}

theorem free_ensures (h : Uncompressed env w c L) (hwf : Content.WF env.freeSize bs c)
    {b : Block} (hb : b ∈ bs) (hpos : 0 < b.len) :
    Exec.Ensures (ChkIndex.free env (blockPtr b) 0 w)
      (fun _ w' => exists c', Content.free env.freeSize b c = .ok ((), c') ∧
        Uncompressed env w' c' L ∧ Content.WF env.freeSize (bs.erase b) c' ∧
        Content.KeepsBits (bs.erase b) c c' ∧ c'.num = c.num)
      (Content.PoolFault env.freeSize) := by
  refine ((h.tracks.free_simulates hwf hb hpos).ensures
    (Content.free_ensures hwf hb hpos)).mono ?_ (fun _ he => he)
  rintro _ w' ⟨c', hrun, htracks, hwf', hkept, hnum⟩
  exact ⟨c', hrun, htracks.rep, hwf', hkept, hnum⟩

end Uncompressed

namespace Stored

variable {env : Env} {w : World} {c : Content} {L : Layout} {bs : List Block}

theorem uncompressed (h : Stored env w c L) (hflag : w.index.compressed = false) :
    Uncompressed env w c L := by
  refine h.resolve_right fun hc => ?_
  rw [hc.flag] at hflag
  cases hflag

theorem compressed (h : Stored env w c L) (hflag : w.index.compressed = true) :
    Compressed env w c L := by
  refine h.resolve_left fun hu => ?_
  rw [hu.flag] at hflag
  cases hflag

/-- The content is stored somehow; the memory of the calling program is as it
was. -/
def Kept (env : Env) (L : Layout) (w' : World) (c : Content) : Prop :=
  exists L', Stored env w' c L' ∧ Settled c L' ∧ L'.outer = L.outer

theorem kept (h : Stored env w c L) (hset : Settled c L) : Kept env L w c :=
  ⟨L, h, hset, rfl⟩

theorem uncompress_ensures (h : Stored env w c L) (hwf : Content.WF env.freeSize bs c)
    (hset : Settled c L) :
    Exec.Ensures (ChkIndex.uncompress env w)
      (fun r w' => Kept env L w' c ∧
        ((r = 0 ∧ w'.index.compressed = false) ∨ (r ≠ 0 ∧ ¬env.AllOk)))
      (Tolerated env) := by
  rcases h with h | h
  · exact Exec.Ensures.of_eq h.tracks.uncompress_ok
      ⟨kept (Or.inl h) hset, Or.inl ⟨rfl, h.flag⟩⟩
  · refine (h.uncompress_ensures hwf.tiling).mono ?_ (fun _ he => he)
    rintro r w' (⟨hr, h'⟩ | ⟨hr, hfail, h'⟩)
    · exact ⟨⟨_, Or.inl h', L.restored_settled c env h.pos, L.restored_outer c env⟩,
        Or.inl ⟨hr, h'.flag⟩⟩
    · exact ⟨kept (Or.inr h') hset, Or.inr ⟨hr, hfail⟩⟩

theorem compress_ensures (h : Stored env w c L) (hwf : Content.WF env.freeSize bs c)
    (hset : Settled c L) (percent : Int) :
    Exec.Ensures (ChkIndex.compress env percent w)
      (fun r w' => Kept env L w' c ∧ (r = 0 ∨ r = -1 ∧ ¬env.AllOk)) (fun _ => False) := by
  rcases h with h | h
  · refine (h.compress_ensures hwf.tiling hset percent).mono ?_ (fun _ he => he)
    rintro r w' (⟨hr, h'⟩ | ⟨h', -, hr⟩)
    · exact ⟨kept (Or.inr h') hset, Or.inl hr⟩
    · exact ⟨kept (Or.inl h') hset, hr⟩
  · unfold ChkIndex.compress
    rw [Exec.bind_of_ok (getIndex_apply w), if_pos (Or.inl h.num)]
    exact ⟨kept (Or.inr h) hset, Or.inl rfl⟩

theorem enlarge_ensures (h : Stored env w c L) (hwf : Content.WF env.freeSize bs c)
    (hset : Settled c L) :
    Exec.Ensures (ChkIndex.enlarge env w)
      (fun r w' => Kept env L w' c ∧ (r = 0 ∨ r < 0 ∧ ¬env.AllOk))
      (Tolerated env) := by
  rcases h with h | h
  · refine (h.enlarge_ensures hwf.tiling hset).mono ?_ (fun _ he => he)
    rintro r w' ⟨L', h', hset', houter, hr⟩
    exact ⟨⟨L', Or.inl h', hset', houter⟩, hr.imp And.left id⟩
  · rcases h.reopen_cases hwf.tiling with ⟨w₁, hopen⟩ | ⟨r, w₁, hr, hfail, h₁, hrun⟩ |
      ⟨e, he, hrun⟩
    · rw [hopen.enlarge]
      refine (hopen.rep.enlarge_ensures hwf.tiling (L.restored_settled c env h.pos)).mono ?_
        (fun _ he => he)
      rintro r w' ⟨L', h', hset', houter, hr⟩
      exact ⟨⟨L', Or.inl h', hset', houter.trans (L.restored_outer c env)⟩,
        hr.imp And.left id⟩
    · unfold ChkIndex.enlarge
      rw [Exec.bind_of_ok hrun, if_pos hr]
      exact ⟨kept (Or.inr h₁) hset, Or.inr ⟨by decide, hfail⟩⟩
    · unfold ChkIndex.enlarge
      rw [Exec.bind_of_error hrun]
      exact he

def HandedOut (env : Env) (L : Layout) (bs : List Block) (c : Content) (len : Nat) (p : ChkPtr)
    (w' : World) : Prop :=
  exists b c' L', p = blockPtr b ∧ b.len = len ∧ Uncompressed env w' c' L' ∧ Settled c' L' ∧
    L'.outer = L.outer ∧ Content.WF env.freeSize (b :: bs) c' ∧ Content.KeepsBits bs c c'

theorem alloc_failed {n r : Int} {w₁ : World} (hpos : 0 < n) (hn : n ≤ 4088) (hr : r ≠ 0)
    (hrun : ChkIndex.uncompress env w = .ok (r, w₁)) :
    ChkIndex.alloc env n w = .ok (chkNull, w₁) := by
  unfold ChkIndex.alloc
  rw [Exec.bind_of_ok (Exec.require_of hpos _ _)]
  simp only [if_neg (align_small hpos hn)]
  rw [Exec.bind_of_ok hrun, if_pos hr]
  rfl

theorem alloc_error {n : Int} {e : Fault} (hpos : 0 < n) (hn : n ≤ 4088)
    (hrun : ChkIndex.uncompress env w = .error e) : ChkIndex.alloc env n w = .error e := by
  unfold ChkIndex.alloc
  rw [Exec.bind_of_ok (Exec.require_of hpos _ _)]
  simp only [if_neg (align_small hpos hn)]
  rw [Exec.bind_of_error hrun]

theorem alloc_large {n : Int} (hn : 4088 < n) (hmax : n < 2 ^ 31 - 7) :
    ChkIndex.alloc env n w = .ok (chkNull, w) := by
  have hlarge : chkAlignDefInt n > chkMaxContinusLen := by
    unfold chkAlignDefInt
    rw [wrapInt_of_lt (by omega) (by omega)]
    simp only [chkMaxContinusLen, chkSize]
    omega
  unfold ChkIndex.alloc
  rw [Exec.bind_of_ok (Exec.require_of (show n > 0 by omega) _ _)]
  simp only [if_pos hlarge]
  rfl

theorem alloc_nonpos {n : Int} (hn : n ≤ 0) : ChkIndex.alloc env n w = .error .assertion := by
  unfold ChkIndex.alloc
  rw [Exec.bind_of_error (Exec.require_of_not (show ¬n > 0 by omega) _ _)]

theorem alloc_uncompressed (h : Uncompressed env w c L) (hwf : Content.WF env.freeSize bs c)
    (hset : Settled c L) {n : Int} (hpos : 0 < n) (hn : n ≤ 4088) :
    Exec.Ensures (ChkIndex.alloc env n w)
      (fun p w' => (p = chkNull ∧ Kept env L w' c) ∨
        HandedOut env L bs c (Uncompressed.units n) p w')
      (Expected env) := by
  refine (h.alloc_ensures hwf hset hpos hn).mono ?_ (fun _ he => he)
  rintro p w' (⟨-, -, -, hp, rfl⟩ | ⟨c', L', hrun, h', hset', hgrown⟩ | ⟨hp, -, h'⟩)
  · exact Or.inl ⟨hp, kept (Or.inl h) hset⟩
  · rcases (h.content_alloc_ensures hwf hpos hn).of_ok hrun with
      ⟨hp, -, rfl⟩ | ⟨b, hp, hb, hwf', hkept⟩
    · exact Or.inl ⟨hp, L', Or.inl h', hset', hgrown.outer⟩
    · exact Or.inr ⟨b, c', L', hp, hb, h', hset', hgrown.outer, hwf', hkept⟩
  · exact Or.inl ⟨hp, kept (Or.inl h') hset⟩

theorem alloc_ensures (h : Stored env w c L) (hwf : Content.WF env.freeSize bs c)
    (hset : Settled c L) {n : Int} (hpos : 0 < n) (hn : n ≤ 4088) :
    Exec.Ensures (ChkIndex.alloc env n w)
      (fun p w' => (p = chkNull ∧ Kept env L w' c) ∨
        HandedOut env L bs c (Uncompressed.units n) p w')
      (Expected env) := by
  rcases h with h | h
  · exact alloc_uncompressed h hwf hset hpos hn
  · have houter := L.restored_outer c env
    rcases h.reopen_cases hwf.tiling with ⟨w₁, hopen⟩ | ⟨r, w₁, hr, hfail, h₁, hrun⟩ |
      ⟨e, he, hrun⟩
    · rw [hopen.alloc hpos hn]
      refine (alloc_uncompressed hopen.rep hwf (L.restored_settled c env h.pos) hpos hn).mono
        ?_ (fun _ he => he)
      rintro p w' (⟨hp, L', h', hset', ho⟩ | ⟨b, c', L', hp, hb, h', hset', ho, hrest⟩)
      · exact Or.inl ⟨hp, L', h', hset', ho.trans houter⟩
      · exact Or.inr ⟨b, c', L', hp, hb, h', hset', ho.trans houter, hrest⟩
    · rw [alloc_failed hpos hn hr hrun]
      exact Or.inl ⟨rfl, kept (Or.inr h₁) hset⟩
    · rw [alloc_error hpos hn hrun]
      exact Or.inl he

/-- What `free` leaves: the block is gone, or `uncompress` failed and
it is still there. -/
def Freed (env : Env) (L : Layout) (bs : List Block) (c : Content) (b : Block) (w' : World) :
    Prop :=
  (w'.index.compressed = true ∧ ¬env.AllOk ∧ Kept env L w' c) ∨
  (exists c' L', Uncompressed env w' c' L' ∧ Settled c' L' ∧ L'.outer = L.outer ∧
    Content.WF env.freeSize (bs.erase b) c' ∧ Content.KeepsBits (bs.erase b) c c')

theorem free_ensures (h : Stored env w c L) (hwf : Content.WF env.freeSize bs c)
    (hset : Settled c L) {b : Block} (hb : b ∈ bs) (hpos : 0 < b.len) :
    Exec.Ensures (ChkIndex.free env (blockPtr b) 0 w)
      (fun _ w' => Freed env L bs c b w') (Expected env) := by
  have hsettled : forall {c' L'}, Settled c L' -> c'.num = c.num -> Settled c' L' := by
    intro c' L' hs hnum
    unfold Settled
    rw [hnum]
    exact hs
  rcases h with h | h
  · refine (h.free_ensures hwf hb hpos).mono ?_ (fun _ he => Or.inr he)
    rintro _ w' ⟨c', -, h', hwf', hkept, hnum⟩
    exact Or.inr ⟨c', L, h', hsettled hset hnum, rfl, hwf', hkept⟩
  · rcases h.reopen_cases hwf.tiling with ⟨w₁, hopen⟩ | ⟨r, w₁, hr, hfail, h₁, hrun⟩ |
      ⟨e, he, hrun⟩
    · rw [hopen.free]
      refine (hopen.rep.free_ensures hwf hb hpos).mono ?_ (fun _ he => Or.inr he)
      rintro _ w' ⟨c', -, h', hwf', hkept, hnum⟩
      exact Or.inr ⟨c', _, h', hsettled (L.restored_settled c env h.pos) hnum,
        L.restored_outer c env, hwf', hkept⟩
    · unfold ChkIndex.free
      rw [Exec.bind_of_ok hrun, if_pos hr]
      exact Or.inl ⟨h₁.flag, hfail, kept (Or.inr h₁) hset⟩
    · unfold ChkIndex.free
      rw [Exec.bind_of_error hrun]
      exact Or.inl he

/-- `ChkIndex::destruct`: an uncompressed index is emptied.  A compressed one
shows no chunk, so that nothing happens. -/
theorem destruct_ensures (h : Stored env w c L) :
    Exec.Ensures (ChkIndex.destruct env w)
      (fun _ w' => (w.index.compressed = true ∧ w' = w) ∨
        (Uncompressed env w' Content.empty L.reset ∧
          forall b a, w'.sys.allocs b = some a -> a.kind = .caller))
      (fun _ => False) := by
  rcases h with h | h
  · rcases h.destruct_empty with ⟨w₁, hrun, h₁, hcaller⟩
    exact Exec.Ensures.of_eq hrun (Or.inr ⟨h₁, hcaller⟩)
  · unfold ChkIndex.destruct
    rw [Exec.bind_of_ok (getIndex_apply w), if_pos h.num]
    exact Or.inl ⟨h.flag, rfl⟩

end Stored

end ChunkMem
