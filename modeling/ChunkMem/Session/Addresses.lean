import ChunkMem.Index.Kept
import ChunkMem.Session.Programs

/-!
# Where chunks stay

Allocation and release never move a chunk: a chunk that can still grow makes
`alloc` refuse, and a chunk that cannot is followed by a new one.  An address that a
program took from a chunk pointer is therefore good until it asks for something else.
-/

namespace ChunkMem

open Foundation

/-- The first `n` chunks are where they were. -/
def World.SameAddrs (n : Nat) (w w' : World) : Prop :=
  forall k, k < n -> w'.index.chkAddr k = w.index.chkAddr k

namespace World.SameAddrs

variable {n m : Nat} {w w' w'' : World}

theorem refl (n : Nat) (w : World) : SameAddrs n w w := fun _ _ => rfl

theorem of_index (h : w'.index = w.index) : SameAddrs n w w' := fun k _ => by rw [h]

theorem trans (h : SameAddrs n w w') (h' : SameAddrs m w' w'') (hnm : n ≤ m) :
    SameAddrs n w w'' :=
  fun k hk => (h' k (by omega)).trans (h k hk)

end World.SameAddrs

namespace Uncompressed

variable {env : Env} {w w' : World} {c : Content} {L : Layout} {bs : List Block}

/-- `try_again` cuts the block off the last chunk or off one it appends. -/
theorem tryAgain_addrs (h : Uncompressed env w c L) (hwf : Content.WF env.freeSize bs c)
    (hset : Settled c L) {len : Nat} (hz : c.num ≠ 0) (hpos : 0 < len) (hlen : len ≤ 511)
    (hfull : ¬(L.own (c.num - 1) ≠ 0 ∧ L.cap (c.num - 1) < 16)) {cut : Ptr × ChkPtr}
    (hrun : ChkIndex.tryAgain env ((8 * len : Nat) : Int) c.num ChkIndex.tryAgainFuel w =
      .ok (cut, w')) : World.SameAddrs c.num w w' := by
  have hcap := h.fits.cap_le (c.num - 1) (by omega)
  have hnum := h.fits.num_le
  have hisNull : chkNull.IsNull := rfl
  have hfuel : ChkIndex.tryAgainFuel = 12286 + 1 + 1 := rfl
  rw [hfuel] at hrun
  by_cases hfits : (c.body (c.num - 1)).virgin + len ≤ 128 * L.cap (c.num - 1)
  · rcases h.tracks.tryAgain_fits (12286 + 1) c.num hz hpos hlen hfits with ⟨w₁, htry, h₁⟩
    rw [htry] at hrun
    cases hrun
    exact .of_index h₁.index
  · have htotals := hwf.totals_le
    have hgrow := h.appendChunk_ensures hset (h.first_full hfull) (by omega)
    rw [← h.chkEnlarge_full fun _ => hfull] at hgrow
    unfold ChkIndex.tryAgain at hrun
    rw [Exec.bind_of_ok (getIndex_apply w), h.num,
      Exec.bind_of_ok (h.readChkAddr_ok (k := c.num - 1) (by omega)), toSizeT_ofNat (by omega),
      Exec.bind_of_ok (h.tracks.bump_full (k := c.num - 1) (by omega) hlen hfits),
      if_pos hisNull] at hrun
    rcases Exec.ok_of_bind hrun with ⟨r, w₁, hmore, hrest⟩
    rcases hgrow.of_ok hmore with ⟨rfl, hlt, h₁, haddr⟩ | ⟨rfl, -, -, haddr⟩
    · have hadd := Content.addChunk_num c
      have hlast : w₁.index.chkAddr (c.num - 1) = w.index.chkAddr (c.num - 1) :=
        haddr _ (by omega)
      have hcap_old : (L.grow c.num).cap (c.num - 1) = L.cap (c.num - 1) :=
        L.setCap_other _ (by omega)
      have hcap_new : (L.grow c.num).cap c.num = 16 := L.setCap_self _ _
      rw [if_neg (by decide), Exec.bind_of_ok (getIndex_apply w₁), h₁.num, hadd,
        if_pos (by omega), ← hlast] at hrest
      rcases Exec.ok_of_bind hrest with ⟨_, w₂, hcollect, hagain⟩
      have hwf₁ := Content.addChunk_wf hwf hlt
      have hsim := h₁.tracks.collectRest_simulates hwf₁ (k := c.num - 1) (by omega) (by
        rw [hcap_old, Content.addChunk_body, if_neg (by omega)]
        omega)
      rw [hcap_old] at hsim
      rcases hsim.outcome.of_ok hcollect with ⟨c₂, hc₂, h₂⟩
      rcases (Content.collect_ensures (k := c.num - 1) (n := 128 * L.cap (c.num - 1)) hwf₁
        (by omega) (by omega)).of_ok hc₂ with ⟨hwf₂, -, hnum₂, hvirgin₂⟩
      -- the new chunk has room for any block
      have hnew : (c₂.body (c₂.num - 1)).virgin ≤ 5 := by
        rw [show c₂.num - 1 = c.num by omega, hvirgin₂ c.num (by omega), Content.addChunk_body,
          if_pos rfl]
        exact Content.reserved_le_five _
      rcases h₂.rep.tracks.tryAgain_fits 12286 c.num (by omega) hpos hlen (by
        rw [show c₂.num - 1 = c.num by omega] at hnew ⊢
        rw [hcap_new]
        omega) with ⟨w₃, htry, h₃⟩
      change ChkIndex.tryAgain env ((8 * len : Nat) : Int) c.num (12286 + 1) w₂ = _ at hagain
      rw [htry] at hagain
      cases hagain
      have hindex := h₃.index.trans h₂.index
      intro k hk
      rw [hindex, haddr k hk]
    · rw [if_pos (by decide)] at hrest
      cases hrest
      exact fun k _ => congrFun haddr k

theorem allocBlock_addrs (h : Uncompressed env w c L) (hwf : Content.WF env.freeSize bs c)
    (hset : Settled c L) {len : Nat} (hz : c.num ≠ 0) (hpos : 0 < len) (hlen : len ≤ 511)
    {p : ChkPtr} (hrun : ChkIndex.allocBlock env ((8 * len : Nat) : Int) w = .ok (p, w')) :
    World.SameAddrs c.num w w' := by
  have hnum := h.fits.num_le
  have hcan := h.canEnlarge_ok (k := c.num - 1) (by omega)
  unfold ChkIndex.allocBlock at hrun
  rw [Exec.bind_of_ok (getIndex_apply w), h.num, Exec.bind_of_ok (Exec.require_of hz _ _),
    Exec.bind_of_ok (h.readChkAddr_ok (by omega)), Exec.bind_of_ok hcan] at hrun
  by_cases hgrows : L.own (c.num - 1) ≠ 0 ∧ L.cap (c.num - 1) < 16
  · rw [decide_eq_true hgrows, if_pos ⟨h.type, rfl⟩] at hrun
    cases hrun
    exact .refl _ _
  · rw [decide_eq_false hgrows, if_neg (fun hcon => Bool.false_ne_true hcon.2),
      Exec.bind_of_ok (h.tracks.memMgr_ok (by omega))] at hrun
    rcases Exec.ok_of_bind hrun with ⟨q, w₁, hpool, hrest⟩
    rcases (poolAlloc_simulates h.tracks hwf.tiling (by omega) len).outcome.of_ok hpool with
      ⟨c₁, hc₁, h₁⟩
    have hsame : World.SameAddrs c.num w w₁ := .of_index h₁.index
    by_cases hnull : q.IsNull
    · rw [if_neg (not_not_intro hnull)] at hrest
      rcases (Content.poolAlloc_ensures len hwf.tiling).of_ok hc₁ with ⟨-, rfl⟩ | ⟨hcon, b, hq, -⟩
      · rcases Exec.ok_of_bind hrest with ⟨cut, w₂, htry, hcount⟩
        have hcut := h₁.rep.tryAgain_addrs hwf hset hz hpos hlen hgrows htry
        have hkeeps : forall Q : ChkIndex -> Prop, KeepsIndex Q
            (if cut.2.IsNull then pure cut.2 else ChkIndex.countUsed cut.1 cut.2) :=
          fun _ => Exec.Keeps.ite _ (Exec.Keeps.pure _) (ChkIndex.countUsed_keeps _ _)
        exact hkeeps (fun idx => forall k, k < c₁.num -> idx.chkAddr k = w.index.chkAddr k) w₂ _ _
          (hsame.trans hcut (Nat.le_refl _)) hcount
      · exact absurd (hq ▸ hnull) hcon
    · rw [if_pos hnull] at hrest
      have hkeeps : forall Q : ChkIndex -> Prop, KeepsIndex Q (do
          let chk <- chkPtr2chk q
          ChkIndex.subMgr ChkMemMgr.totalFree q.size
          ChkIndex.countUsed chk q) := fun _ =>
        (chkPtr2chk_keeps _).bind fun _ => (ChkIndex.subMgr_keeps _ _).bind fun _ =>
          ChkIndex.countUsed_keeps _ _
      exact hkeeps (fun idx => forall k, k < c.num -> idx.chkAddr k = w.index.chkAddr k) w₁ _ _
        hsame hrest

theorem alloc_addrs (h : Uncompressed env w c L) (hwf : Content.WF env.freeSize bs c)
    (hset : Settled c L) {n : Int} (hpos : 0 < n) (hn : n ≤ 4088) {p : ChkPtr}
    (hrun : ChkIndex.alloc env n w = .ok (p, w')) : World.SameAddrs c.num w w' := by
  have hlen : chkAlignDefInt n = ((8 * units n : Nat) : Int) := by
    unfold chkAlignDefInt units
    rw [wrapInt_of_lt (by omega) (by omega)]
    omega
  have hunits := units_bound hpos hn
  unfold ChkIndex.alloc at hrun
  rw [Exec.bind_of_ok (Exec.require_of hpos _ _), hlen,
    if_neg (by simp only [chkMaxContinusLen, chkSize]; omega),
    Exec.bind_of_ok h.tracks.uncompress_ok, if_neg (by decide),
    Exec.bind_of_ok (getIndex_apply w), h.num] at hrun
  by_cases hz : c.num = 0
  · intro k hk
    omega
  · rw [if_neg hz] at hrun
    exact h.allocBlock_addrs hwf hset hz hunits.1 hunits.2 hrun

theorem free_index (h : Uncompressed env w c L) {p : ChkPtr} {u : Unit}
    (hrun : ChkIndex.free env p 0 w = .ok (u, w')) : w'.index = w.index := by
  have hchunk : forall (Q : ChkIndex -> Prop) chk, KeepsIndex Q (ChkMetadata.free chk p) :=
    fun _ _ => (load_keeps _ _).bind fun _ => (Exec.Keeps.require _ _).bind fun _ =>
      (load_keeps _ _).bind fun _ =>
        Exec.Keeps.ite _ ((store_keeps _ _ _).bind fun _ => Exec.Keeps.pure _) (Exec.Keeps.pure _)
  have hcounters : forall (Q : ChkIndex -> Prop) chk, KeepsIndex Q (do
      let u <- load chk ChkMetadata.used
      store chk ChkMetadata.used (u + 2 ^ 12 - p.size)
      ChkIndex.subMgr ChkMemMgr.totalUsed p.size) := fun _ _ =>
    (load_keeps _ _).bind fun _ => (store_keeps _ _ _).bind fun _ => ChkIndex.subMgr_keeps _ _
  have hkeeps : forall Q : ChkIndex -> Prop, KeepsIndex Q (do
      let freeMem <- chkPtr2addr p
      bzero freeMem (chkSize p.size)
      let chk <- chkPtr2chk p
      let rolledBack <- ChkMetadata.free chk p
      if rolledBack = false then do
        ChkIndex.addMgr ChkMemMgr.totalFree p.size
        let mgr <- ChkIndex.memMgr
        ChkMemMgr.free mgr p
      else pure ()
      let u <- load chk ChkMetadata.used
      store chk ChkMetadata.used (u + 2 ^ 12 - p.size)
      ChkIndex.subMgr ChkMemMgr.totalUsed p.size) := by
    intro Q
    refine (chkPtr2addr_keeps _).bind fun _ => (bzero_keeps _ _).bind fun _ =>
      (chkPtr2chk_keeps _).bind fun _ => (hchunk Q _).bind fun _ =>
        Exec.Keeps.ite _ ?_ (hcounters Q _)
    exact (ChkIndex.addMgr_keeps _ _).bind fun _ => ChkIndex.memMgr_keeps.bind fun _ =>
      (ChkMemMgr.free_keeps _ _).bind fun _ => hcounters Q _
  unfold ChkIndex.free at hrun
  rw [Exec.bind_of_ok h.tracks.uncompress_ok, if_neg (by decide)] at hrun
  exact hkeeps (fun idx => idx = w.index) w u w' rfl hrun

end Uncompressed

/-!
## Runs of allocations, releases and stores
-/

/-- The calls that ask for blocks, give them back or write into them. -/
def Call.Still : Call -> Prop
  | alloc _ => True
  | free _ => True
  | write _ _ _ => True
  | _ => False

theorem writeBlock_index {w w' : World} {p : ChkPtr} {pos : Nat} {data : List Byte} {u : Unit}
    (hrun : writeBlock p pos data w = .ok (u, w')) : w'.index = w.index := by
  have hkeeps : forall Q : ChkIndex -> Prop, KeepsIndex Q (writeBlock p pos data) := fun _ =>
    (chkPtr2addr_keeps _).bind fun _ => (access_keeps _ _).bind fun _ => setBits_keeps _ _
  exact hkeeps (fun idx => idx = w.index) w u w' rfl hrun

namespace Open

variable {env : Env} {s s' : Session} {call : Call} {r : Result}

theorem alloc_still (h : Open env s) {n : Int} (hn : n < 2 ^ 31 - 7) {p : ChkPtr} {w' : World}
    (hrun : ChkIndex.alloc env n s.world = .ok (p, w')) :
    w'.index.compressed = false ∧ s.world.index.chkNum ≤ w'.index.chkNum ∧
      World.SameAddrs s.world.index.chkNum s.world w' := by
  rcases h with ⟨hflag, c, L, hv⟩
  have hu := hv.stored.uncompressed hflag
  rw [hu.num]
  by_cases hpos : 0 < n
  · by_cases hsmall : n ≤ 4088
    · have haddrs := hu.alloc_addrs hv.wf hv.settled hpos hsmall hrun
      rcases (hu.alloc_ensures hv.wf hv.settled hpos hsmall).of_ok hrun with
        ⟨-, -, -, -, rfl⟩ | ⟨c', L', -, hu', -, hgrown⟩ | ⟨-, -, hu'⟩
      · exact ⟨hflag, Nat.le_of_eq hu.num.symm, haddrs⟩
      · exact ⟨hu'.flag, hu'.num ▸ hgrown.le, haddrs⟩
      · exact ⟨hu'.flag, Nat.le_of_eq hu'.num.symm, haddrs⟩
    · rw [Stored.alloc_large (by omega) hn] at hrun
      cases hrun
      exact ⟨hflag, Nat.le_of_eq hu.num.symm, .refl _ _⟩
  · unfold ChkIndex.alloc at hrun
    rw [Exec.bind_of_error (Exec.require_of_not (by omega) _ _)] at hrun
    cases hrun

theorem still_step (h : Open env s) (hstill : call.Still) (hcall : CarefulCall s call)
    (hrun : call.perform env s = .ok (r, s')) :
    Open env s' ∧ s.world.index.chkNum ≤ s'.world.index.chkNum ∧
      World.SameAddrs s.world.index.chkNum s.world s'.world := by
  have hopen := h
  rcases h with ⟨hflag, c, L, hv⟩
  rcases (hv.perform hcall.1 hcall.safe.2).of_ok hrun with ⟨c', L', hv', -⟩
  rcases Call.perform_run hrun with ⟨w', hcode, rfl⟩
  have hindex : w'.index = s.world.index -> w'.index.compressed = false ∧
      s.world.index.chkNum ≤ w'.index.chkNum ∧
      World.SameAddrs s.world.index.chkNum s.world w' := by
    intro hsame
    rw [hsame]
    exact ⟨hflag, Nat.le_refl _, .of_index hsame⟩
  have hleaves : w'.index.compressed = false ∧ s.world.index.chkNum ≤ w'.index.chkNum ∧
      World.SameAddrs s.world.index.chkNum s.world w' := by
    cases call with
    | alloc n =>
        rcases Exec.ok_of_bind hcode with ⟨p, w₁, halloc, hrest⟩
        cases hrest
        exact hopen.alloc_still hcall.1 halloc
    | free p =>
        rcases Exec.ok_of_bind hcode with ⟨_, w₁, hfree, hrest⟩
        cases hrest
        exact hindex ((hv.stored.uncompressed hflag).free_index hfree)
    | write p pos data =>
        rcases Exec.ok_of_bind hcode with ⟨_, w₁, hwrite, hrest⟩
        cases hrest
        exact hindex (writeBlock_index hwrite)
    | enlarge => exact hstill.elim
    | compress percent => exact hstill.elim
    | uncompress => exact hstill.elim
    | shrink => exact hstill.elim
    | destruct => exact hstill.elim
  exact ⟨⟨hleaves.1, c', L', hv'⟩, hleaves.2⟩

end Open

end ChunkMem
