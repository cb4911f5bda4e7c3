import ChunkMem.Refinement.Resize

/-!
# Allocation refines the operation on contents

`ChkIndex::alloc` on an index that is not compressed does to the content
what `Content.alloc` does, unless a system call fails and it reports so.
-/

namespace ChunkMem

open Foundation

section

variable {env : Env} {w0 w : World} {c : Content} {L : Layout} {bs : List Block}

/-!
## Collecting the rest of a full chunk
-/

/-- The rest is short enough for `ChkMetadata::alloc` to hand it out at once. -/
theorem Tracks.collectRest_simulates (h : Tracks env L w0 w c)
    (hwf : Content.WF env.freeSize bs c) {k : Nat} (hk : k < c.num)
    (hrest : 128 * L.cap k - (c.body k).virgin ≤ 511) :
    Exec.Simulates (Tracks env L w0) (ChkIndex.collectRest (w0.index.chkAddr k) w)
      (Content.collect env.freeSize k (128 * L.cap k) c) := by
  have hcap := h.rep.fits.cap_le k hk
  have hfit := h.rep.fits.virgin_le k hk
  have htotals := hwf.totals_le
  unfold ChkIndex.collectRest Content.collect
  rw [Exec.bind_of_ok (h.capacityBytes_ok hk), Exec.bind_of_ok (h.loadVirgin hk),
    Exec.bind_of_ok (Exec.state_apply _)]
  by_cases hlt : (c.body k).virgin < 128 * L.cap k
  · generalize hlen : 128 * L.cap k - (c.body k).virgin = len at *
    have hreset : ((L.cap k * 1024 : Nat) : Int) - (chkSize (c.body k).virgin : Nat) =
        ((8 * len : Nat) : Int) := by
      simp only [chkSize]
      omega
    have hsize : setChkSize (((8 * len : Nat) : Int)).toNat = len := by
      simp only [setChkSize]
      omega
    rcases h.bump (k := k) (n := len) hk (by omega) hrest (by omega) with ⟨w₁, hbump, h₁⟩
    have htiling := Content.bump_tiling hwf.tiling len hk (by omega)
    have hr := hwf.tiling.reserved_le k hk
    have hpool := poolFree_simulates h₁ (s := ⟨k, (c.body k).virgin⟩)
      (p := blockPtr (c.bumpBlock k len)) rfl (by
        simp only [blockPtr, Content.bumpBlock]
        omega) hk hr (by
        unfold Content.bump
        rw [Content.setVirgin_virgin, if_pos rfl]
        exact Nat.le_refl _)
    have hpooled := Content.poolFree_ensures ⟨k, (c.body k).virgin⟩ len htiling
    rw [hreset, if_pos (by omega), if_pos hlt, toSizeT_ofNat (by omega),
      Exec.bind_of_ok hbump, Exec.bind_of_ok (h₁.memMgr_ok (by
        show 0 < c.num
        omega)), Exec.bind_of_ok (Exec.update_apply _ _), hsize]
    refine Exec.Simulates.bind hpool ?_
    intro _ w₂ c₂ hc₂ h₂
    have hm := (hpooled.of_ok hc₂).2.marks
    have hnum : c₂.num = c.num := hm.num
    have hfree : c₂.totalFree = c.totalFree := hm.totalFree
    rcases h₂.addFree (n := len) (by omega) (by omega) with ⟨w₃, hadd, h₃⟩
    exact .of_eq hadd rfl h₃
  · rw [if_neg (by simp only [chkSize]; omega), if_neg hlt]
    exact .ok h

/-!
## Cutting a block off the last chunk
-/

theorem Tracks.tryAgain_fits (h : Tracks env L w0 w c) {len : Nat} (fuel oldChkNum : Nat)
    (hz : c.num ≠ 0) (hpos : 0 < len) (hlen : len ≤ 511)
    (hfits : (c.body (c.num - 1)).virgin + len ≤ 128 * L.cap (c.num - 1)) :
    exists w', ChkIndex.tryAgain env ((8 * len : Nat) : Int) oldChkNum (fuel + 1) w =
        .ok ((w0.index.chkAddr (c.num - 1), blockPtr (c.bumpBlock (c.num - 1) len)), w') ∧
      Tracks env L w0 w' (c.bump (c.num - 1) len) := by
  have hn := h.rep.num
  have hnum := h.rep.fits.num_le
  have hnull : ¬(blockPtr (c.bumpBlock (c.num - 1) len)).IsNull := by
    unfold ChkPtr.IsNull
    simp only [blockPtr, Content.bumpBlock, chkMaxChkNum]
    omega
  rcases h.bump (k := c.num - 1) (n := len) (by omega) hpos hlen hfits with ⟨w₁, hbump, h₁⟩
  have hread := h.rep.readChkAddr_ok (k := c.num - 1) (by omega)
  rw [h.index] at hread
  refine ⟨w₁, ?_, h₁⟩
  unfold ChkIndex.tryAgain
  rw [Exec.bind_of_ok (getIndex_apply w), hn, Exec.bind_of_ok hread, toSizeT_ofNat (by omega),
    Exec.bind_of_ok hbump, if_neg hnull]
  rfl

theorem Tracks.countTop {k len : Nat} (h : Tracks env L w0 w (c.bump k len))
    (hwf : Content.WF env.freeSize bs c) (hk : k < c.num)
    (hfits : (c.body k).virgin + len ≤ 2048) :
    exists w', ChkIndex.countUsed (w0.index.chkAddr k) (blockPtr (c.bumpBlock k len)) w =
        .ok (blockPtr (c.bumpBlock k len), w') ∧
      Tracks env L w0 w' ((c.bump k len).countUsed k len) := by
  have hused := hwf.used_le hk
  have htotals := hwf.totals_le
  apply h.countUsed (p := blockPtr (c.bumpBlock k len))
  · exact hk
  · show ((c.setVirgin k _).body k).used + len < _
    rw [Content.setVirgin_used]
    omega
  · show c.totalUsed + len < _
    omega

/-!
## Allocation
-/

/-- The layout got chunks of 16 KB behind the first `n` ones. -/
structure Layout.Grown (L : Layout) (n : Nat) (L' : Layout) (n' : Nat) : Prop where
  le : n ≤ n'
  shared : L'.shared = L.shared
  outer : L'.outer = L.outer
  old : forall k, k < n -> L'.cap k = L.cap k
  new : forall k, n ≤ k -> k < n' -> L'.cap k = 16

namespace Layout.Grown

variable {L₁ L₂ : Layout} {n n₁ n₂ : Nat}

theorem refl (L : Layout) (n : Nat) : L.Grown n L n :=
  ⟨Nat.le_refl n, rfl, rfl, fun _ _ => rfl, fun k h1 h2 => by omega⟩

theorem grow (L : Layout) (n : Nat) : L.Grown n (L.grow n) (n + 1) := by
  refine ⟨Nat.le_succ n, rfl, rfl, fun k hk => L.setCap_other _ (by omega), ?_⟩
  intro k h1 h2
  rw [show k = n by omega]
  exact L.setCap_self _ _

theorem trans (h : L.Grown n L₁ n₁) (h' : L₁.Grown n₁ L₂ n₂) : L.Grown n L₂ n₂ := by
  have hle := h.le
  refine ⟨Nat.le_trans h.le h'.le, h'.shared.trans h.shared, h'.outer.trans h.outer,
    fun k hk => (h'.old k (by omega)).trans (h.old k hk), ?_⟩
  intro k h1 h2
  by_cases hk : k < n₁
  · rw [h'.old k hk, h.new k h1 hk]
  · exact h'.new k (by omega) h2

end Layout.Grown

/-- The outcome `r` of an allocation on contents was carried out, or a system call
failed and nothing was handed out. -/
def Allocated (env : Env) (L : Layout) (c : Content) (r : Except Fault (ChkPtr × Content))
    (p : ChkPtr) (w' : World) : Prop :=
  (exists c' L', r = .ok (p, c') ∧ Uncompressed env w' c' L' ∧ Settled c' L' ∧
    L.Grown c.num L' c'.num) ∨
  (p = chkNull ∧ ¬env.AllOk ∧ Uncompressed env w' c L)

/-- An allocation ends with the fault it has on contents, or with an assertion behind
a failed system call. -/
def AllocFault (env : Env) (r : Except Fault (ChkPtr × Content)) (e : Fault) : Prop :=
  Tolerated env e ∨ r = .error e

/-- The faults an operation may end with: those of the contents, and assertions
behind a failed system call. -/
def Expected (env : Env) (e : Fault) : Prop := Tolerated env e ∨ Content.PoolFault env.freeSize e

/-- A block from the pool leaves room for itself in the counter of its chunk. -/
theorem Content.Taken.used_add_le {b : Block} {c' : Content}
    (h : Content.Taken env.freeSize bs b c c') (hwf : Content.WF env.freeSize bs c)
    (hb : b.space < c'.num) : (c.body b.space).used + b.len ≤ (c.body b.space).virgin := by
  have hnum := h.marks.num
  have hr := h.tiling.reserved_le b.space hb
  have hused := hwf.accounts.used_eq b.space (by omega)
  have hlen : Extent.lenIn (b :: bs) b.space ≤
      (c'.body b.space).virgin - reserved b.space := by
    apply Extent.lenIn_le hr
    · intro u
      have hone := h.tiling.cover_le_one b.space u
      omega
    · intro u hu
      have hbound := h.tiling.bound (k := b.space) (u := u) (by omega)
      exact ⟨hbound.2.1, hbound.2.2⟩
  rw [Extent.lenIn_cons, if_pos rfl] at hlen
  have hv := h.marks.virgin b.space
  omega

namespace Uncompressed

theorem cutTop_ok (h : Uncompressed env w c L) (hwf : Content.WF env.freeSize bs c)
    {len : Nat} (fuel oldChkNum : Nat) (hz : c.num ≠ 0) (hpos : 0 < len) (hlen : len ≤ 511)
    (hfits : (c.body (c.num - 1)).virgin + len ≤ 128 * L.cap (c.num - 1)) :
    exists w', (do
        let x <- ChkIndex.tryAgain env ((8 * len : Nat) : Int) oldChkNum (fuel + 1)
        if x.2.IsNull then pure x.2 else ChkIndex.countUsed x.1 x.2 : M ChkPtr) w =
        .ok (blockPtr (c.bumpBlock (c.num - 1) len), w') ∧
      Uncompressed env w' ((c.bump (c.num - 1) len).countUsed (c.num - 1) len) L := by
  have hnum := h.fits.num_le
  have hcap := h.fits.cap_le (c.num - 1) (by omega)
  have hnull : ¬(blockPtr (c.bumpBlock (c.num - 1) len)).IsNull := by
    unfold ChkPtr.IsNull
    simp only [blockPtr, Content.bumpBlock, chkMaxChkNum]
    omega
  rcases h.tracks.tryAgain_fits fuel oldChkNum hz hpos hlen hfits with ⟨w₁, htry, h₁⟩
  rcases h₁.countTop hwf (by omega) (by omega) with ⟨w₂, hcount, h₂⟩
  refine ⟨w₂, ?_, h₂.rep⟩
  rw [Exec.bind_of_ok htry, if_neg hnull, hcount]

theorem growTop_ensures (h : Uncompressed env w c.addChunk (L.grow c.num))
    (hset : Settled c L) (hwf : Content.WF env.freeSize bs c) (hnum : c.num < 2047)
    {len : Nat} (fuel : Nat) (hz : c.num ≠ 0) (hpos : 0 < len) (hlen : len ≤ 511)
    (hrest : 128 * L.cap (c.num - 1) - (c.body (c.num - 1)).virgin ≤ 511)
    (hlimit : L.cap (c.num - 1) ≤ 16) :
    Exec.Ensures ((do
        ChkIndex.collectRest (w.index.chkAddr (c.num - 1))
        let x <- ChkIndex.tryAgain env ((8 * len : Nat) : Int) c.num (fuel + 1)
        if x.2.IsNull then pure x.2 else ChkIndex.countUsed x.1 x.2 : M ChkPtr) w)
      (fun p w' => exists c', (do
          Content.collect env.freeSize (c.num - 1) (128 * L.cap (c.num - 1))
          Content.cutTop c.num len : Exec Content Fault ChkPtr) c.addChunk = .ok (p, c') ∧
        c'.num = c.num + 1 ∧ Uncompressed env w' c' (L.grow c.num) ∧
        Settled c' (L.grow c.num))
      (fun e => (do
          Content.collect env.freeSize (c.num - 1) (128 * L.cap (c.num - 1))
          Content.cutTop c.num len : Exec Content Fault ChkPtr) c.addChunk = .error e) := by
  have hadd := Content.addChunk_num c
  have hwf' := Content.addChunk_wf hwf hnum
  have hcap_old : (L.grow c.num).cap (c.num - 1) = L.cap (c.num - 1) :=
    L.setCap_other _ (by omega)
  have hcap_new : (L.grow c.num).cap c.num = 16 := L.setCap_self _ _
  have hsim := h.tracks.collectRest_simulates hwf' (k := c.num - 1) (by omega) (by
    rw [hcap_old, Content.addChunk_body, if_neg (by omega)]
    exact hrest)
  rw [hcap_old] at hsim
  have hcollect := Content.collect_ensures (k := c.num - 1) (n := 128 * L.cap (c.num - 1))
    hwf' (by omega) (by omega)
  refine Exec.Ensures.bind (hsim.outcome.mono (fun _ _ hq => hq)
    fun _ he => Exec.bind_of_error he) ?_
  rintro _ w₁ ⟨c₁, hrun, h₁⟩
  rcases hcollect.of_ok hrun with ⟨hwf₁, _, hnum₁, hvirgin₁⟩
  have hlast : c₁.num - 1 = c.num := by omega
  have hnew : (c₁.body (c₁.num - 1)).virgin ≤ 5 := by
    rw [hlast, hvirgin₁ c.num (by omega), Content.addChunk_body, if_pos rfl]
    exact Content.reserved_le_five _
  rcases h₁.rep.cutTop_ok hwf₁ fuel c.num (by omega) hpos hlen (by
    rw [hlast, hcap_new]
    rw [hlast] at hnew
    omega) with ⟨w₂, hcut, h₂⟩
  rw [hlast] at hcut h₂
  refine Exec.Ensures.of_eq hcut ⟨(c₁.bump c.num len).countUsed c.num len, ?_,
    hnum₁.trans hadd, h₂, ?_⟩
  · rw [Exec.bind_of_ok hrun]
    rfl
  · have hgrown := Layout.grow_settled hset
    unfold Settled at hgrown ⊢
    rw [hgrown]
    show (L.grow c.num).start _ = (L.grow c.num).start c₁.num
    rw [hnum₁]

theorem first_full (h : Uncompressed env w c L)
    (hfull : ¬(L.own (c.num - 1) ≠ 0 ∧ L.cap (c.num - 1) < 16)) (h1 : c.num = 1) :
    L.cap 0 = 16 := by
  have hcap := h.fits.cap_le 0 (by omega)
  have hown := L.own_alone h.fits.shared_pos (k := 0) (by
    have := h.fits.shared_le
    omega)
  have hle := h.fits.one_le 0 (by omega)
  have h0 : c.num - 1 = 0 := by omega
  rw [h0] at hfull
  by_contra hne
  exact hfull ⟨by omega, by omega⟩

/-- `try_again` when the last chunk is full: a chunk is appended and the request is
cut from it, or there is no memory, or there are too many chunks. -/
theorem appendTop_ensures (h : Uncompressed env w c L) (hwf : Content.WF env.freeSize bs c)
    (hset : Settled c L) {n : Nat} (hz : c.num ≠ 0) (hpos : 0 < n) (hlen : n ≤ 511)
    (hfull : ¬(L.own (c.num - 1) ≠ 0 ∧ L.cap (c.num - 1) < 16))
    (hfits : ¬(c.body (c.num - 1)).virgin + n ≤ 128 * L.cap (c.num - 1))
    {r : Except Fault (ChkPtr × Content)}
    (hr : r = (if c.num ≥ chkMaxChkNum then pure chkNull
      else do
        Exec.update Content.addChunk
        Content.collect env.freeSize (c.num - 1) (128 * L.cap (c.num - 1))
        Content.cutTop c.num n : Exec Content Fault ChkPtr) c) :
    Exec.Ensures ((ChkIndex.tryAgain env ((8 * n : Nat) : Int) c.num ChkIndex.tryAgainFuel >>=
        fun x => if x.2.IsNull then pure x.2 else ChkIndex.countUsed x.1 x.2) w)
      (Allocated env L c r) (AllocFault env r) := by
  have hcap := h.fits.cap_le (c.num - 1) (by omega)
  have hbump := h.tracks.bump_full (k := c.num - 1) (by omega) hlen hfits
  have hone := h.first_full hfull
  have hisNull : chkNull.IsNull := rfl
  have htotals := hwf.totals_le
  have hnum := h.fits.num_le
  have hgrow := h.appendChunk_ensures hset hone (by omega)
  rw [← h.chkEnlarge_full fun _ => hfull] at hgrow
  unfold ChkIndex.tryAgainFuel
  show Exec.Ensures ((ChkIndex.tryAgain env ((8 * n : Nat) : Int) c.num (12287 + 1) >>=
    fun x => if x.2.IsNull then pure x.2 else ChkIndex.countUsed x.1 x.2) w) _ _
  unfold ChkIndex.tryAgain
  rw [Exec.bind_assoc, Exec.bind_of_ok (getIndex_apply w), h.num, Exec.bind_assoc,
    Exec.bind_of_ok (h.readChkAddr_ok (by omega)), Exec.bind_assoc,
    toSizeT_ofNat (by omega), Exec.bind_of_ok hbump, if_pos hisNull, Exec.bind_assoc]
  refine Exec.Ensures.bind (hgrow.mono (fun _ _ hq => hq) (fun _ he => Or.inl he)) ?_
  rintro code w₂ (⟨rfl, hlt, h₂, haddr⟩ | ⟨rfl, hfail, h₂, _⟩)
  · rw [if_neg (by decide), Exec.bind_assoc, Exec.bind_of_ok (getIndex_apply w₂), h₂.num,
      Content.addChunk_num]
    simp only [if_pos (show c.num ≠ c.num + 1 by omega)]
    have hlast : w₂.index.chkAddr (c.num - 1) = w.index.chkAddr (c.num - 1) :=
      haddr _ (by omega)
    rw [Exec.bind_assoc, ← hlast]
    rw [if_neg (by
      simp only [chkMaxChkNum]
      omega), Exec.bind_of_ok (Exec.update_apply _ _)] at hr
    rw [hr]
    refine (h₂.growTop_ensures hset hwf hlt 12286 hz hpos hlen (by omega) hcap).mono ?_
      (fun _ he => Or.inr he)
    rintro q w₃ ⟨c₃, hrun₃, hnum₃, h₃, hset₃⟩
    exact Or.inl ⟨c₃, _, hrun₃, h₃, hset₃, by rw [hnum₃]; exact .grow L _⟩
  · rw [if_pos (by decide), Exec.bind_of_ok (Exec.pure_apply _ _), if_pos hisNull]
    refine hfail.elim (fun hmax => Or.inl ⟨c, L, ?_, h₂, hset, .refl L _⟩)
      (fun hok => Or.inr ⟨rfl, hok, h₂⟩)
    rw [hr, if_pos (by
      simp only [chkMaxChkNum]
      omega)]
    rfl

theorem allocBlock_ensures (h : Uncompressed env w c L)
    (hwf : Content.WF env.freeSize bs c) (hset : Settled c L) {n : Nat} (hz : c.num ≠ 0)
    (hpos : 0 < n) (hlen : n ≤ 511)
    (hfull : ¬(L.own (c.num - 1) ≠ 0 ∧ L.cap (c.num - 1) < 16)) :
    Exec.Ensures (ChkIndex.allocBlock env ((8 * n : Nat) : Int) w)
      (fun p w' => Allocated env L c
          (Content.allocBlock env.freeSize (128 * L.cap (c.num - 1)) n c) p w' ∧
        (p = chkNull -> ¬(c.body (c.num - 1)).virgin + n ≤ 128 * L.cap (c.num - 1)))
      (AllocFault env (Content.allocBlock env.freeSize (128 * L.cap (c.num - 1)) n c)) := by
  have hn := h.num
  have hnum := h.fits.num_le
  have htracks := h.tracks
  have hcan := h.canEnlarge_ok (k := c.num - 1) (by omega)
  rw [decide_eq_false hfull] at hcan
  have hpool := (poolAlloc_simulates htracks hwf.tiling (by omega) n).outcome
  have htake := Content.poolAlloc_ensures n hwf.tiling
  unfold ChkIndex.allocBlock Content.allocBlock AllocFault
  rw [Exec.bind_of_ok (getIndex_apply w), hn, Exec.bind_of_ok (Exec.require_of hz _ _),
    Exec.bind_of_ok (h.readChkAddr_ok (by omega)), Exec.bind_of_ok hcan,
    if_neg (fun hcon => Bool.false_ne_true hcon.2),
    Exec.bind_of_ok (htracks.memMgr_ok (by omega))]
  refine Exec.Ensures.bind (hpool.mono (fun _ _ hq => hq)
    (fun _ he => Or.inr (Exec.bind_of_error he))) ?_
  rintro p w₁ ⟨c₁, hrun, h₁⟩
  rcases htake.of_ok hrun with ⟨hnull, rfl⟩ | ⟨hnull, b, rfl, rfl, htaken⟩
  · -- nothing in the pool
    rw [if_neg (not_not_intro hnull), Exec.bind_of_ok hrun, if_pos hnull]
    by_cases hfits : (c₁.body (c₁.num - 1)).virgin + n ≤ 128 * L.cap (c₁.num - 1)
    · rcases h₁.rep.cutTop_ok hwf 12287 c₁.num hz hpos hlen hfits with ⟨w₂, hcut, h₂⟩
      refine Exec.Ensures.of_eq hcut ⟨Or.inl ⟨_, L, ?_, h₂, ?_, .refl L _⟩, ?_⟩
      · rw [Exec.bind_of_ok (Exec.state_apply _), if_pos hfits]
        rfl
      · exact hset
      · intro hp
        have hno := congrArg ChkPtr.chkNo hp
        simp only [blockPtr, Content.bumpBlock, chkNull, chkMaxChkNum] at hno
        omega
    · rw [Exec.bind_of_ok (Exec.state_apply _), if_neg hfits]
      exact (h₁.rep.appendTop_ensures hwf hset hz hpos hlen hfull hfits rfl).mono
        (fun _ _ hp => ⟨hp, fun _ => hfits⟩) (fun _ he => he)
  · -- a block from the pool
    have hspace : b.space < c₁.num :=
      (htaken.tiling.block_bound List.mem_cons_self hpos).1
    have hfree := hwf.accounts.free_le
    have htotal := htaken.total
    have htotals := hwf.totals_le
    have hm := htaken.marks
    have hmnum := hm.num
    have hmfree := hm.totalFree
    have hvirgin := hwf.tiling.virgin_le b.space (by omega)
    have hunits := htaken.used_add_le hwf hspace
    rw [if_pos hnull, Exec.bind_of_ok (h₁.chkPtr2chk_ok hspace), Exec.bind_of_ok hrun,
      if_neg hnull]
    rcases h₁.subFree (n := b.len) (by omega) (by omega) (by omega) with ⟨w₂, hsub, h₂⟩
    rcases h₂.countUsed (p := blockPtr b) hspace (by
      show (c₁.body b.space).used + b.len < _
      rw [hm.used]
      omega) (by
      show c₁.totalUsed + b.len < _
      rw [hm.totalUsed]
      omega) with ⟨w₃, hcount, h₃⟩
    refine Exec.Ensures.of_eq ((Exec.bind_of_ok hsub).trans hcount)
      ⟨Or.inl ⟨_, L, rfl, h₃.rep, ?_, ?_⟩, ?_⟩
    · show L.total = L.start c₁.num
      rw [hmnum]
      exact hset
    · show L.Grown c.num L c₁.num
      rw [hmnum]
      exact .refl L _
    · intro hp
      rw [hp] at hnull
      exact absurd rfl hnull

def units (n : Int) : Nat := ((n + 7) / 8).toNat

/-- `ChkIndex::alloc` on an index that is not compressed: refused while the
last chunk can still grow, else as on contents. -/
theorem alloc_carried (h : Uncompressed env w c L) (hwf : Content.WF env.freeSize bs c)
    (hset : Settled c L) {n : Int} (hpos : 0 < n) (hn : n ≤ 4088) :
    Exec.Ensures (ChkIndex.alloc env n w)
      (fun p w' =>
        (c.num ≠ 0 ∧ L.own (c.num - 1) ≠ 0 ∧ L.cap (c.num - 1) < 16 ∧ p = chkNull ∧ w' = w) ∨
        Allocated env L c
          (Content.alloc env.freeSize (128 * L.cap (c.num - 1)) (units n) c) p w')
      (AllocFault env
        (Content.alloc env.freeSize (128 * L.cap (c.num - 1)) (units n) c)) := by
  have hnum := h.num
  have hlen : chkAlignDefInt n = ((8 * units n : Nat) : Int) := by
    unfold chkAlignDefInt units
    rw [wrapInt_of_lt (by omega) (by omega)]
    omega
  have hlen1 : 0 < units n := by unfold units; omega
  have hlen511 : units n ≤ 511 := by unfold units; omega
  have htotals := hwf.totals_le
  unfold ChkIndex.alloc Content.alloc AllocFault
  rw [Exec.bind_of_ok (Exec.require_of hpos _ _), hlen]
  rw [if_neg (by simp only [chkMaxContinusLen, chkSize]; omega),
    Exec.bind_of_ok h.tracks.uncompress_ok, if_neg (by decide),
    Exec.bind_of_ok (getIndex_apply w), hnum]
  by_cases hz : c.num = 0
  · have hgrow := h.appendChunk_ensures hset (by omega) (by omega)
    rw [← h.chkEnlarge_full fun hne => absurd hz hne] at hgrow
    rw [if_pos hz, Exec.bind_of_ok (Exec.state_apply _), if_pos hz,
      Exec.bind_of_ok (Exec.update_apply _ _)]
    refine Exec.Ensures.bind (hgrow.mono (fun _ _ hq => hq) (fun _ he => Or.inl he)) ?_
    rintro r w₁ (⟨rfl, hlt, h₁, _⟩ | ⟨rfl, hfail, h₁, _⟩)
    · have hadd := Content.addChunk_num c
      have hlast : c.addChunk.num - 1 = c.num := by omega
      have hcap : (L.grow c.num).cap c.num = 16 := L.setCap_self _ _
      have hrun := h₁.allocBlock_ensures (Content.addChunk_wf hwf hlt)
        (Layout.grow_settled hset) (n := units n) (by omega) hlen1 hlen511 (by
          rw [hlast, hcap]
          omega)
      rw [hlast, hcap, Content.addChunk_body, if_pos rfl] at hrun
      rw [if_neg (by decide)]
      refine hrun.mono ?_ (fun _ he => he)
      rintro p w' ⟨⟨c', L', hc', h', hset', hgrown⟩ | ⟨hp, hfail, h'⟩, hfits⟩
      · have hstep := Layout.Grown.grow L c.num
        rw [hadd] at hgrown
        exact Or.inr (Or.inl ⟨c', L', hc', h', hset', hstep.trans hgrown⟩)
      · -- any block fits into the first chunk
        have hr := Content.reserved_le_five c.num
        have hfits' := hfits hp
        simp only at hfits'
        omega
    · rw [if_pos (by decide)]
      exact Or.inr (Or.inr ⟨rfl, hfail.resolve_left (by omega), h₁⟩)
  · rw [if_neg hz, Exec.bind_of_ok (Exec.state_apply _), if_neg hz]
    by_cases hcan : L.own (c.num - 1) ≠ 0 ∧ L.cap (c.num - 1) < 16
    · have hcan' := h.canEnlarge_ok (k := c.num - 1) (by omega)
      rw [decide_eq_true hcan] at hcan'
      unfold ChkIndex.allocBlock
      rw [Exec.bind_of_ok (getIndex_apply w), hnum, Exec.bind_of_ok (Exec.require_of hz _ _),
        Exec.bind_of_ok (h.readChkAddr_ok (by omega)), Exec.bind_of_ok hcan',
        if_pos ⟨h.type, rfl⟩]
      exact Or.inl ⟨hz, hcan.1, hcan.2, rfl, rfl⟩
    · exact (h.allocBlock_ensures hwf hset hz hlen1 hlen511 hcan).mono
        (fun _ _ hq => Or.inr hq.1) (fun _ he => he)

theorem limit_le (h : Uncompressed env w c L) (hz : c.num ≠ 0) :
    128 * L.cap (c.num - 1) ≤ 2048 := by
  have hcap := h.fits.cap_le (c.num - 1) (by omega)
  omega

theorem units_bound {n : Int} (hpos : 0 < n) (hn : n ≤ 4088) :
    0 < units n ∧ units n ≤ 511 := by
  unfold units
  omega

theorem content_alloc_ensures (h : Uncompressed env w c L) (hwf : Content.WF env.freeSize bs c)
    {n : Int} (hpos : 0 < n) (hn : n ≤ 4088) :
    Exec.Ensures (Content.alloc env.freeSize (128 * L.cap (c.num - 1)) (units n) c)
      (fun p c' => (p = chkNull ∧ c.num = 2047 ∧ c' = c) ∨ exists b : Block, p = blockPtr b ∧
        b.len = units n ∧ Content.WF env.freeSize (b :: bs) c' ∧ Content.KeepsBits bs c c')
      (Content.PoolFault env.freeSize) := by
  have hlen := units_bound hpos hn
  by_cases hz : c.num = 0
  · rw [Content.alloc_first hz _ 0]
    exact Content.alloc_ensures hwf hlen.1 hlen.2 (Nat.zero_le _)
  · exact Content.alloc_ensures hwf hlen.1 hlen.2 (h.limit_le hz)

theorem alloc_ensures (h : Uncompressed env w c L) (hwf : Content.WF env.freeSize bs c)
    (hset : Settled c L) {n : Int} (hpos : 0 < n) (hn : n ≤ 4088) :
    Exec.Ensures (ChkIndex.alloc env n w)
      (fun p w' =>
        (c.num ≠ 0 ∧ L.own (c.num - 1) ≠ 0 ∧ L.cap (c.num - 1) < 16 ∧ p = chkNull ∧ w' = w) ∨
        Allocated env L c
          (Content.alloc env.freeSize (128 * L.cap (c.num - 1)) (units n) c) p w')
      (Expected env) :=
  (h.alloc_carried hwf hset hpos hn).mono (fun _ _ hq => hq)
    fun _ he => he.imp id fun hfault => (h.content_alloc_ensures hwf hpos hn).of_error hfault

end Uncompressed

end

end ChunkMem
