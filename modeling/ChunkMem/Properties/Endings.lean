import ChunkMem.Arena.Cut
import ChunkMem.Properties.Room
import ChunkMem.Session.Programs

/-!
# Calls that return whatever the size classes are

A size class of zero does harm only where a run of units is handed to the memory manager.
What is handed over can be read off the state before the call: the block of a release that is
not the topmost one of its chunk, the rest of a block of the free lists, and the rest of a
chunk that is the last one no more.
-/

namespace ChunkMem

open Foundation

namespace World

/-- The block ends where the part of its chunk begins that was never used. -/
def Topmost (w : World) (p : ChkPtr) : Prop := p.offset / 2 + p.size = w.virginOf p.chkNo

/-- The release of a block hands over nothing, or what can be cut. -/
def FreeEnds (env : Env) (w : World) (p : ChkPtr) : Prop :=
  w.Topmost p ∨ Cuttable env.freeSize p.size

/-- The class `ChkMemMgr::alloc` serves a request from. -/
def serving (env : Env) (w : World) (len : Nat) : Option (Fin 3) :=
  [0, 1, 2].find? fun i => decide (len ≤ env.freeSize i ∧ ¬(w.freeHead i).IsNull)

def FitsLast (w : World) (len : Nat) : Prop :=
  w.virginOf (w.index.chkNum - 1) + len ≤ 128 * w.capacityOf (w.index.chkNum - 1)

def NoChunk (env : Env) (w : World) : Prop :=
  exists r w', ChkIndex.chkEnlarge env false w = .ok (r, w') ∧ r < 0

/-- The request is too long, or the last chunk can still grow, or nothing has room for it. -/
def Refuses (env : Env) (w : World) (n : Int) : Prop :=
  4088 < n ∨ ¬w.LastFull ∨
    w.NoChunk env ∧ (w.index.chkNum = 0 ∨ w.serving env (Uncompressed.units n) = none ∧
      ¬w.FitsLast (Uncompressed.units n))

/-- What is left of the block or of the chunk a request is served from can be cut. -/
def RestCuts (env : Env) (w : World) (len : Nat) : Prop :=
  match w.serving env len with
  | some i => len = env.freeSize i ∨ Cuttable env.freeSize (env.freeSize i - len)
  | none => w.FitsLast len ∨
      128 * w.capacityOf (w.index.chkNum - 1) ≤ w.virginOf (w.index.chkNum - 1) ∨
      Cuttable env.freeSize
        (128 * w.capacityOf (w.index.chkNum - 1) - w.virginOf (w.index.chkNum - 1))

def AllocEnds (env : Env) (w : World) (n : Int) : Prop :=
  w.Refuses env n ∨ w.index.chkNum = 0 ∨ w.RestCuts env (Uncompressed.units n)

/-- The block is the topmost one of its chunk, and is after an allocation. -/
def StaysTop (env : Env) (w : World) (n : Int) (p : ChkPtr) : Prop :=
  w.Topmost p ∧ (p.chkNo + 1 ≠ w.index.chkNum ∨ w.serving env (Uncompressed.units n) ≠ none ∨
    128 * w.capacityOf p.chkNo ≤ w.virginOf p.chkNo)

/-- The allocation of a block and its release hand over nothing, or what can be cut. -/
def CycleEnds (env : Env) (w : World) (n : Int) : Prop :=
  w.AllocEnds env n ∧ (w.LastFull -> forall i,
    w.serving env (Uncompressed.units n) = some i ->
      w.FreeEnds env { w.freeHead i with size := Uncompressed.units n })

instance (w : World) (p : ChkPtr) : Decidable (w.Topmost p) :=
  inferInstanceAs (Decidable (_ = _))

instance (env : Env) (w : World) (p : ChkPtr) : Decidable (w.FreeEnds env p) :=
  inferInstanceAs (Decidable (_ ∨ _))

instance (w : World) (len : Nat) : Decidable (w.FitsLast len) :=
  inferInstanceAs (Decidable (_ ≤ _))

instance (env : Env) (w : World) (len : Nat) : Decidable (w.RestCuts env len) :=
  match h : w.serving env len with
  | some i => decidable_of_iff
      (len = env.freeSize i ∨ Cuttable env.freeSize (env.freeSize i - len)) (by
        unfold RestCuts
        rw [h])
  | none => decidable_of_iff (w.FitsLast len ∨
      128 * w.capacityOf (w.index.chkNum - 1) ≤ w.virginOf (w.index.chkNum - 1) ∨
      Cuttable env.freeSize
        (128 * w.capacityOf (w.index.chkNum - 1) - w.virginOf (w.index.chkNum - 1))) (by
        unfold RestCuts
        rw [h])

/-- With classes that are not zero every release and every allocation ends. -/
theorem freeEnds_of_nonzero {env : Env} (h : env.ClassesNonzero) (w : World) (p : ChkPtr) :
    w.FreeEnds env p := Or.inr (.of_pos h _)

theorem allocEnds_of_nonzero {env : Env} (h : env.ClassesNonzero) (w : World) (n : Int) :
    w.AllocEnds env n := by
  refine Or.inr (Or.inr ?_)
  unfold RestCuts
  split
  · exact Or.inr (.of_pos h _)
  · exact Or.inr (Or.inr (.of_pos h _))

theorem cycleEnds_of_nonzero {env : Env} (h : env.ClassesNonzero) (w : World) (n : Int) :
    w.CycleEnds env n :=
  ⟨allocEnds_of_nonzero h w n, fun _ _ _ => freeEnds_of_nonzero h w _⟩

end World

namespace Tracks

variable {env : Env} {w w0 : World} {c : Content} {L : Layout} {bs : List Block}

theorem poolAlloc_none (h : Tracks env L w0 w c) (ht : Content.Tiling env.freeSize bs c)
    (hpos : 0 < c.num) {len : Nat} (hnone : Content.fitClass env.freeSize c len = none) :
    ChkMemMgr.alloc (mgrAddr w0) ((8 * len : Nat) : Int) w = .ok (chkNull, w) := by
  have hloop : forall l : List (Fin 3),
      (l.find? fun i => decide (len ≤ env.freeSize i ∧ c.lists i ≠ [])) = none ->
      ChkMemMgr.allocLoop (mgrAddr w0) env.freeSize len l w = .ok (chkNull, w) := by
    intro l
    induction l with
    | nil =>
        intro _
        rfl
    | cons i rest ih =>
        intro hl
        rw [List.find?_cons] at hl
        split at hl
        · cases hl
        · next hno =>
            have hfit := of_decide_eq_false hno
            unfold ChkMemMgr.allocLoop
            rw [Exec.bind_of_ok (h.isEmpty_ok hpos i fun s hs => (ht.slot_bound hs).2.1),
              if_neg fun hcon => hfit ⟨by omega, of_decide_eq_false hcon.2⟩]
            exact ih hl
  have hlen : ((8 * len : Nat) : Int) / 8 = len := by omega
  unfold ChkMemMgr.alloc
  rw [Exec.bind_of_ok (h.loadFreeSize_ok hpos), hlen]
  exact hloop _ hnone

end Tracks

namespace Uncompressed

variable {env : Env} {w : World} {c : Content} {L : Layout} {bs : List Block}

theorem serving_eq (h : Uncompressed env w c L) (ht : Content.Tiling env.freeSize bs c)
    (hz : c.num ≠ 0) (len : Nat) :
    w.serving env len = Content.fitClass env.freeSize c len := by
  unfold World.serving Content.fitClass
  congr 1
  funext i
  simp only [h.freeHead_null_iff ht hz i]

theorem topmost_iff (h : Uncompressed env w c L) {b : Block} (hk : b.space < c.num) :
    w.Topmost (blockPtr b) <-> b.start + b.len = (c.body b.space).virgin := by
  unfold World.Topmost
  rw [blockPtr_chkNo, h.virginOf_eq hk, blockPtr_offset, blockPtr_size]
  omega

theorem lastFull_iff (h : Uncompressed env w c L) :
    w.LastFull <-> (c.num ≠ 0 -> ¬(L.own (c.num - 1) ≠ 0 ∧ L.cap (c.num - 1) < 16)) := by
  unfold World.LastFull
  rw [h.num]
  by_cases hz : c.num = 0
  · exact ⟨fun _ hne => absurd hz hne, fun _ => Or.inl hz⟩
  · rw [h.allocCapacityOf_eq (by omega), h.capacityOf_eq (by omega)]
    omega

theorem fitsLast_iff (h : Uncompressed env w c L) (hz : c.num ≠ 0) (len : Nat) :
    w.FitsLast len <-> c.FitsLast (128 * L.cap (c.num - 1)) len := by
  unfold World.FitsLast Content.FitsLast
  rw [h.num, h.virginOf_eq (by omega), h.capacityOf_eq (by omega)]

theorem free_ends (h : Uncompressed env w c L) (hwf : Content.WF env.freeSize bs c) {b : Block}
    (hb : b ∈ bs) (hpos : 0 < b.len) :
    (exists w', ChkIndex.free env (blockPtr b) 0 w = .ok ((), w')) <->
      w.FreeEnds env (blockPtr b) := by
  have hk := (hwf.tiling.block_bound hb hpos).1
  have hsim := h.tracks.free_simulates hwf hb hpos
  unfold World.FreeEnds
  rw [h.topmost_iff hk, blockPtr_size, ← Content.free_ok_iff c b]
  generalize ChkIndex.free env (blockPtr b) 0 w = x at hsim
  generalize Content.free env.freeSize b c = y at hsim
  cases hsim with
  | ok _ => exact ⟨fun _ => ⟨_, rfl⟩, fun _ => ⟨_, rfl⟩⟩
  | error =>
      constructor <;>
      · rintro ⟨_, hrun⟩
        cases hrun

theorem alloc_eq (h : Uncompressed env w c L) {n : Int} (hpos : 0 < n) (hn : n ≤ 4088) :
    ChkIndex.alloc env n w = (if c.num = 0 then do
        let r <- ChkIndex.chkEnlarge env false
        if r < 0 then pure chkNull
        else ChkIndex.allocBlock env ((8 * units n : Nat) : Int)
      else ChkIndex.allocBlock env ((8 * units n : Nat) : Int) : M ChkPtr) w := by
  have hbound := units_bound hpos hn
  have hlen : chkAlignDefInt n = ((8 * units n : Nat) : Int) := by
    unfold chkAlignDefInt units
    rw [wrapInt_of_lt (by omega) (by omega)]
    omega
  unfold ChkIndex.alloc
  rw [Exec.bind_of_ok (Exec.require_of hpos _ _), hlen]
  rw [if_neg (by simp only [chkMaxContinusLen, chkSize]; omega),
    Exec.bind_of_ok h.tracks.uncompress_ok, if_neg (by decide),
    Exec.bind_of_ok (getIndex_apply w), h.num]

theorem alloc_growing (h : Uncompressed env w c L) {n : Int} (hpos : 0 < n) (hn : n ≤ 4088)
    (hgrows : ¬w.LastFull) : ChkIndex.alloc env n w = .ok (chkNull, w) := by
  have hle := h.fits.num_le
  rw [h.lastFull_iff, Classical.not_imp, not_not] at hgrows
  rcases hgrows with ⟨hz, hcan⟩
  have hcan' := h.canEnlarge_ok (k := c.num - 1) (by omega)
  rw [decide_eq_true hcan] at hcan'
  rw [h.alloc_eq hpos hn, if_neg hz]
  unfold ChkIndex.allocBlock
  rw [Exec.bind_of_ok (getIndex_apply w), h.num, Exec.bind_of_ok (Exec.require_of hz _ _),
    Exec.bind_of_ok (h.readChkAddr_ok (by omega)), Exec.bind_of_ok hcan',
    if_pos ⟨h.type, rfl⟩]
  rfl

/-- Where nothing has room and no chunk can be added, null is returned. -/
theorem alloc_noChunk (h : Uncompressed env w c L) (ht : Content.Tiling env.freeSize bs c)
    {n : Int} (hpos : 0 < n) (hn : n ≤ 4088) (hfull : w.LastFull) (hno : w.NoChunk env)
    (hroom : c.num = 0 ∨ Content.fitClass env.freeSize c (units n) = none ∧
      ¬c.FitsLast (128 * L.cap (c.num - 1)) (units n)) :
    exists w', ChkIndex.alloc env n w = .ok (chkNull, w') := by
  rcases hno with ⟨r, w₁, hgrow, hr⟩
  have hnum := h.num
  have hle := h.fits.num_le
  have hisNull : chkNull.IsNull := rfl
  have hbound := units_bound hpos hn
  rw [h.alloc_eq hpos hn]
  by_cases hz : c.num = 0
  · rw [if_pos hz, Exec.bind_of_ok hgrow, if_pos hr]
    exact ⟨_, rfl⟩
  · rcases hroom.resolve_left hz with ⟨hnone, hfits⟩
    have hcan := h.canEnlarge_ok (k := c.num - 1) (by omega)
    rw [decide_eq_false (h.lastFull_iff.mp hfull hz)] at hcan
    have hbump := h.tracks.bump_full (k := c.num - 1) (by omega) hbound.2 hfits
    rw [if_neg hz]
    unfold ChkIndex.allocBlock
    rw [Exec.bind_of_ok (getIndex_apply w), hnum, Exec.bind_of_ok (Exec.require_of hz _ _),
      Exec.bind_of_ok (h.readChkAddr_ok (by omega)), Exec.bind_of_ok hcan,
      if_neg (fun hcon => Bool.false_ne_true hcon.2),
      Exec.bind_of_ok (h.tracks.memMgr_ok (by omega)),
      Exec.bind_of_ok (h.tracks.poolAlloc_none ht (by omega) hnone),
      if_neg (not_not_intro hisNull)]
    -- the first round of `try_again` is the last one
    unfold ChkIndex.tryAgainFuel
    show exists w', (ChkIndex.tryAgain env ((8 * units n : Nat) : Int) c.num (12287 + 1) >>=
      fun x => if x.2.IsNull then pure x.2 else ChkIndex.countUsed x.1 x.2) w = _
    unfold ChkIndex.tryAgain
    rw [Exec.bind_assoc, Exec.bind_of_ok (getIndex_apply w), hnum, Exec.bind_assoc,
      Exec.bind_of_ok (h.readChkAddr_ok (by omega)), Exec.bind_assoc,
      toSizeT_ofNat (by omega), Exec.bind_of_ok hbump, if_pos hisNull, Exec.bind_assoc,
      Exec.bind_of_ok hgrow, if_pos hr, Exec.bind_of_ok (Exec.pure_apply _ _), if_pos hisNull]
    exact ⟨_, rfl⟩

theorem allocCuts (h : Uncompressed env w c L) (ht : Content.Tiling env.freeSize bs c)
    (hz : c.num ≠ 0) {len : Nat} (hcuts : w.RestCuts env len) :
    Content.AllocCuts env.freeSize (128 * L.cap (c.num - 1)) len c := by
  unfold World.RestCuts at hcuts
  unfold Content.AllocCuts
  rw [h.serving_eq ht hz, h.num, h.capacityOf_eq (by omega), h.virginOf_eq (by omega),
    h.fitsLast_iff hz] at hcuts
  cases hfit : Content.fitClass env.freeSize c len with
  | some i =>
      rw [hfit] at hcuts
      exact hcuts
  | none =>
      rw [hfit] at hcuts
      exact hcuts.imp_right Or.inr

/-- On contents an allocation returns when what it hands over can be cut. -/
theorem content_alloc_ok (h : Uncompressed env w c L) (ht : Content.Tiling env.freeSize bs c)
    {n : Int} (hpos : 0 < n) (hn : n ≤ 4088)
    (hcuts : w.index.chkNum = 0 ∨ w.RestCuts env (units n)) :
    exists p c', Content.alloc env.freeSize (128 * L.cap (c.num - 1)) (units n) c =
      .ok (p, c') := by
  rw [h.num] at hcuts
  by_cases hz : c.num = 0
  · have hfirst : exists c', Content.alloc env.freeSize (128 * L.cap (c.num - 1)) (units n) c =
        .ok (blockPtr ⟨0, 5, units n⟩, c') :=
      Content.alloc_first_place env.freeSize hz (units_bound hpos hn).2
    exact ⟨_, hfirst⟩
  · unfold Content.alloc
    rw [Exec.bind_of_ok (Exec.state_apply _), if_neg hz]
    exact Content.allocBlock_ok ht hz (h.allocCuts ht hz (hcuts.resolve_left hz))

theorem alloc_refuses (h : Uncompressed env w c L) (ht : Content.Tiling env.freeSize bs c)
    {n : Int} (hpos : 0 < n) (hn : n ≤ 4088) (hrefuses : w.Refuses env n) :
    exists w', ChkIndex.alloc env n w = .ok (chkNull, w') := by
  rcases hrefuses with hlarge | hgrows | ⟨hno, hroom⟩
  · omega
  · exact ⟨w, h.alloc_growing hpos hn hgrows⟩
  · by_cases hfull : w.LastFull
    · have hroom' : c.num = 0 ∨ Content.fitClass env.freeSize c (units n) = none ∧
          ¬c.FitsLast (128 * L.cap (c.num - 1)) (units n) := by
        by_cases hz : c.num = 0
        · exact Or.inl hz
        · rw [h.num, h.serving_eq ht hz, h.fitsLast_iff hz] at hroom
          exact hroom
      exact h.alloc_noChunk ht hpos hn hfull hno hroom'
    · exact ⟨w, h.alloc_growing hpos hn hfull⟩

/-- An allocation returns under its condition, but for assertions behind a failed system
call. -/
theorem alloc_ends (h : Uncompressed env w c L) (hwf : Content.WF env.freeSize bs c)
    (hset : Settled c L) {n : Int} (hpos : 0 < n) (hn : n ≤ 4088) (hends : w.AllocEnds env n) :
    Exec.Ensures (ChkIndex.alloc env n w) (fun _ _ => True) (Tolerated env) := by
  rcases hends with hrefuses | hcuts
  · rcases h.alloc_refuses hwf.tiling hpos hn hrefuses with ⟨w', hrun⟩
    exact Exec.Ensures.of_eq hrun trivial
  · rcases h.content_alloc_ok hwf.tiling hpos hn hcuts with ⟨p, c', hrun⟩
    refine (h.alloc_carried hwf hset hpos hn).mono (fun _ _ _ => trivial) fun e he => ?_
    refine he.resolve_right fun hfault => ?_
    rw [hrun] at hfault
    cases hfault

end Uncompressed

namespace Open

variable {env : Env} {s s₁ : Session} {l : Live} {n : Int} {p : ChkPtr}

theorem free_ends_iff (h : Open env s) (hl : l ∈ s.live) :
    (exists s', Prog.free env l.ptr s = .ok ((), s')) <-> s.world.FreeEnds env l.ptr := by
  rcases h with ⟨hflag, c, L, hv⟩
  have hends := (hv.stored.uncompressed hflag).free_ends hv.wf (Valid.mem_block hl) (hv.pos l hl)
  rw [← hv.ptr l hl] at hends
  rw [← hends]
  unfold Prog.free
  constructor
  · rintro ⟨s', hrun⟩
    cases hw : ChkIndex.free env l.ptr 0 s.world with
    | error e =>
        rw [hw] at hrun
        cases hrun
    | ok r => exact ⟨r.2, rfl⟩
  · rintro ⟨w', hrun⟩
    rw [hrun]
    exact ⟨_, rfl⟩

theorem free_ends (h : Open env s) (hl : l ∈ s.live) (hends : s.world.FreeEnds env l.ptr) :
    exists s', Prog.free env l.ptr s = .ok ((), s') ∧ FreePost env s l s' := by
  rcases (h.free_ends_iff hl).mpr hends with ⟨s', hrun⟩
  exact ⟨s', hrun, (h.free_ensures hl).of_ok hrun⟩

theorem alloc_ends (h : Open env s) (hpos : 0 < n) (hn : n < 2 ^ 31 - 7)
    (hends : s.world.AllocEnds env n) :
    Exec.Ensures (Prog.alloc env n s) (AllocPost env s n) (Tolerated env) := by
  have hpost := h.alloc_ensures hpos hn
  rcases h with ⟨hflag, c, L, hv⟩
  have hu := hv.stored.uncompressed hflag
  have hreturns : Exec.Ensures (ChkIndex.alloc env n s.world) (fun _ _ => True)
      (Tolerated env) := by
    by_cases hsmall : n ≤ 4088
    · exact hu.alloc_ends hv.wf hv.settled hpos hsmall hends
    · exact Exec.Ensures.of_eq (Stored.alloc_large (by omega) hn) trivial
  unfold Prog.alloc at hpost ⊢
  cases hw : ChkIndex.alloc env n s.world with
  | error e => exact hreturns.of_error hw
  | ok r =>
      rw [hw] at hpost
      exact hpost

theorem alloc_refuses (h : Open env s) (hpos : 0 < n) (hn : n < 2 ^ 31 - 7)
    (hrefuses : s.world.Refuses env n) (hrun : Prog.alloc env n s = .ok (p, s₁)) : p.IsNull := by
  rcases h with ⟨hflag, c, L, hv⟩
  have hrun' : exists w', ChkIndex.alloc env n s.world = .ok (chkNull, w') := by
    by_cases hsmall : n ≤ 4088
    · exact (hv.stored.uncompressed hflag).alloc_refuses hv.wf.tiling hpos hsmall hrefuses
    · exact ⟨_, Stored.alloc_large (by omega) hn⟩
  rcases hrun' with ⟨w', hw⟩
  unfold Prog.alloc at hrun
  rw [hw] at hrun
  cases hrun
  rfl

/-- A block that stays on top is the topmost one after the allocation. -/
theorem topmost_after (h : Open env s) (hl : l ∈ s.live) (hpos : 0 < n) (hn : n < 2 ^ 31 - 7)
    (hrun : Prog.alloc env n s = .ok (p, s₁)) (hp : ¬p.IsNull)
    (hstay : s.world.StaysTop env n l.ptr) : s₁.world.Topmost l.ptr := by
  rcases h with ⟨hflag, c, L, hv⟩
  have hu := hv.stored.uncompressed hflag
  have hk := (hv.wf.tiling.block_bound (Valid.mem_block hl) (hv.pos l hl)).1
  have hz : c.num ≠ 0 := by omega
  have hnull : chkNull.IsNull := rfl
  unfold Prog.alloc at hrun
  cases hw : ChkIndex.alloc env n s.world with
  | error e =>
      rw [hw] at hrun
      cases hrun
  | ok r =>
      rw [hw] at hrun
      cases hrun
      by_cases hsmall : n ≤ 4088
      · rcases (hu.alloc_ensures hv.wf hv.settled hpos hsmall).of_ok hw with
          ⟨-, -, -, hcon, -⟩ | ⟨c', L', hc', h', -, hgrown⟩ | ⟨hcon, -, -⟩
        · exact absurd (hcon ▸ hnull) hp
        · unfold Content.alloc at hc'
          rw [Exec.bind_of_ok (Exec.state_apply _), if_neg hz] at hc'
          have hbound := Uncompressed.units_bound hpos hsmall
          rcases hstay with ⟨htop, hstay⟩
          rw [hu.num, hu.serving_eq hv.wf.tiling hz, hu.virginOf_eq (show l.ptr.chkNo < _ from hk),
            hu.capacityOf_eq (show l.ptr.chkNo < _ from hk)] at hstay
          have hstay' : l.block.space + 1 ≠ c.num ∨
              Content.fitClass env.freeSize c (Uncompressed.units n) ≠ none ∨
              128 * L.cap (c.num - 1) ≤ (c.body l.block.space).virgin := by
            by_cases hlast : l.block.space + 1 = c.num
            · have hspace : c.num - 1 = l.ptr.chkNo := by
                rw [← hlast]
                rfl
              rw [hspace]
              exact hstay
            · exact Or.inl hlast
          have hvirgin := Content.allocBlock_virgin hv.wf hz hbound.1 (hu.limit_le hz) hk hstay' hc'
          have hnum := hgrown.le
          rw [hv.ptr l hl, hu.topmost_iff hk] at htop
          rw [hv.ptr l hl, h'.topmost_iff (by omega), hvirgin]
          exact htop
        · exact absurd (hcon ▸ hnull) hp
      · rw [Stored.alloc_large (by omega) hn] at hw
        cases hw
        exact absurd hnull hp

theorem freeEnds_after (h : Open env s) (hz : s.world.index.chkNum ≠ 0) (hpos : 0 < n)
    (hn : n ≤ 4088) (hends : s.world.CycleEnds env n) {w' : World}
    (hrun : ChkIndex.alloc env n s.world = .ok (p, w')) (hp : ¬p.IsNull) :
    w'.FreeEnds env p := by
  rcases h with ⟨hflag, c, L, hv⟩
  have hu := hv.stored.uncompressed hflag
  have hnull : chkNull.IsNull := rfl
  rw [hu.num] at hz
  have hfull : s.world.LastFull := by
    by_contra hgrows
    cases (hu.alloc_growing hpos hn hgrows).symm.trans hrun
    exact hp hnull
  rcases (hu.alloc_ensures hv.wf hv.settled hpos hn).of_ok hrun with
    ⟨-, -, -, hcon, -⟩ | ⟨c', L', hc', h', -, hgrown⟩ | ⟨hcon, -, -⟩
  · exact absurd (hcon ▸ hnull) hp
  · have hblock := (hu.content_alloc_ensures hv.wf hpos hn).of_ok hc'
    have hbound := Uncompressed.units_bound hpos hn
    unfold Content.alloc at hc'
    rw [Exec.bind_of_ok (Exec.state_apply _), if_neg hz] at hc'
    rcases hblock with ⟨hcon, -, -⟩ | ⟨b₀, hb₀, hlen, hwf', -⟩
    · exact absurd (hcon ▸ hnull) hp
    · have hk : b₀.space < c'.num :=
        (hwf'.tiling.block_bound List.mem_cons_self (by omega)).1
      rcases Content.allocBlock_place hv.wf.tiling hp hc' with
        ⟨b, hb, htop⟩ | ⟨i, slot, rest, hfit, hl, hb, hvirgin⟩
      · have hspace : b.space = b₀.space := congrArg ChkPtr.chkNo (hb.symm.trans hb₀)
        rw [hb]
        exact Or.inl ((h'.topmost_iff (hspace ▸ hk)).mpr htop)
      · have hhead : ({ s.world.freeHead i with size := Uncompressed.units n } : ChkPtr) =
            blockPtr (slot.block (Uncompressed.units n)) := by
          have hlink : s.world.freeHead i = headLink (c.lists i) := (hu.mgr (by omega)).lists i
          rw [hlink, hl]
          rfl
        have hspace : slot.no = b₀.space := congrArg ChkPtr.chkNo (hb.symm.trans hb₀)
        have hslot := hv.wf.tiling.slot_bound (i := i) (s := slot) (by
          rw [hl]
          exact List.mem_cons_self)
        have hends' := hends.2 hfull i (by rw [hu.serving_eq hv.wf.tiling hz]; exact hfit)
        rw [hhead] at hends'
        rw [hb]
        refine hends'.imp_left fun htop => ?_
        rw [hu.topmost_iff hslot.2.1] at htop
        rw [h'.topmost_iff (by simp only [Slot.block]; omega), hvirgin]
        exact htop
  · exact absurd (hcon ▸ hnull) hp

end Open

end ChunkMem
