import ChunkMem.Index.Kept
import ChunkMem.Properties.Room
import ChunkMem.Properties.RoundTrip

/-!
# Oversized requests

A request above the largest block is refused before anything happens, unless rounding it up
overflows an `int`: then it passes the check as a negative size, which every free list
can serve and no chunk ever can.
-/

namespace ChunkMem

open Foundation

def Refuses (env : Env) (n : Int) (w : World) : Prop :=
  exists w', ChkIndex.alloc env n w = .ok (chkNull, w') ∧ w'.index = w.index ∧ w'.bits = w.bits

namespace World

variable (w : World)

/-- `can_enlarge` of the last chunk. -/
def LastCanEnlarge : Prop :=
  w.allocCapacityOf (w.index.chkNum - 1) ≠ 0 ∧ w.capacityOf (w.index.chkNum - 1) < 16

def Stuck : Prop :=
  w.index.compressed = false ∧ w.index.chkNum ≠ 0 ∧
    (w.LastCanEnlarge ∨ (w.index.chkNum = 2047 ∧ forall i, (w.freeHead i).IsNull))

end World

theorem chkAlignDefInt_overflow {n : Int} (hn : 2 ^ 31 - 7 ≤ n) (hmax : n < 2 ^ 31) :
    chkAlignDefInt n = -2 ^ 31 := by
  unfold chkAlignDefInt wrapInt
  omega

theorem alloc_overflow {env : Env} {n : Int} (hn : 2 ^ 31 - 7 ≤ n) (hmax : n < 2 ^ 31) (w : World) :
    ChkIndex.alloc env n w = (do
      let r <- ChkIndex.uncompress env
      if r ≠ 0 then pure chkNull
      else do
        let idx <- getIndex
        if idx.chkNum = 0 then do
          let r <- ChkIndex.chkEnlarge env false
          if r < 0 then pure chkNull else ChkIndex.allocBlock env (-2 ^ 31)
        else ChkIndex.allocBlock env (-2 ^ 31) : M ChkPtr) w := by
  have hsmall : ¬(-2 ^ 31 : Int) > chkMaxContinusLen := by decide
  unfold ChkIndex.alloc
  rw [Exec.bind_of_ok (Exec.require_of (show n > 0 by omega) _ _)]
  simp only [chkAlignDefInt_overflow hn hmax, if_neg hsmall]

theorem ChkMetadata.alloc_overflow (chk : Ptr) (w : World) :
    ChkMetadata.alloc chk (toSizeT (-2 ^ 31)) w = .ok (chkNull, w) := by
  have hlarge : chkAlignDef (toSizeT (-2 ^ 31)) > chkMaxContinusLen := by decide
  unfold ChkMetadata.alloc
  simp only [if_pos hlarge]
  rfl

theorem countUsed_result {chk : Ptr} {p q : ChkPtr} {w w' : World}
    (hrun : ChkIndex.countUsed chk p w = .ok (q, w')) : q = p := by
  rcases Exec.ok_of_bind hrun with ⟨_, _, -, hrun⟩
  rcases Exec.ok_of_bind hrun with ⟨_, _, -, hrun⟩
  rcases Exec.ok_of_bind hrun with ⟨_, _, -, hrun⟩
  cases hrun
  rfl

/-- There are at least `m` chunks. -/
def ChkIndex.HasChunks (m : Nat) (idx : ChkIndex) : Prop := m ≤ idx.chkNum

def ChkIndex.IsUncompressed (idx : ChkIndex) : Prop := idx.compressed = false

theorem ChkIndex.hasChunks_steady (m : Nat) : Steady (HasChunks m) :=
  ⟨fun _ _ h => h, fun _ _ h => h, fun _ h => Nat.le_succ_of_le h⟩

theorem ChkIndex.isUncompressed_steady : Steady IsUncompressed :=
  ⟨fun _ _ h => h, fun _ _ h => h, fun _ h => h⟩

/-!
## The pool
-/

section

variable {env : Env} {w0 w : World} {c : Content} {L : Layout} {bs : List Block}

theorem Tracks.allocLoop_empty (h : Tracks env L w0 w c) (hpos : 0 < c.num)
    (hempty : forall i, c.lists i = []) (size : Int) (l : List (Fin 3)) :
    ChkMemMgr.allocLoop (Tracks.mgrAddr w0) env.freeSize size l w = .ok (chkNull, w) := by
  induction l with
  | nil => rfl
  | cons i rest ih =>
      have hnone := h.isEmpty_ok hpos i fun s hs => by
        rw [hempty i] at hs
        cases hs
      unfold ChkMemMgr.allocLoop
      rw [Exec.bind_of_ok hnone, if_neg (fun hcon => by
        rw [hempty i] at hcon
        cases hcon.2), ih]

theorem Tracks.allocLoop_serves (h : Tracks env L w0 w c) (ht : Content.Tiling env.freeSize bs c)
    (hpos : 0 < c.num) {size : Int} (hsize : size ≤ 0) {l : List (Fin 3)}
    (hsome : exists i, i ∈ l ∧ c.lists i ≠ []) {p : ChkPtr} {w' : World}
    (hrun : ChkMemMgr.allocLoop (Tracks.mgrAddr w0) env.freeSize size l w = .ok (p, w')) :
    p.chkNo < c.num := by
  induction l with
  | nil =>
      rcases hsome with ⟨i, hi, -⟩
      cases hi
  | cons i rest ih =>
      have htest := h.isEmpty_ok hpos i fun s hs => (ht.slot_bound hs).2.1
      unfold ChkMemMgr.allocLoop at hrun
      rw [Exec.bind_of_ok htest] at hrun
      cases hl : c.lists i with
      | nil =>
          rw [if_neg (fun hcon => by
            rw [hl] at hcon
            cases hcon.2)] at hrun
          rcases hsome with ⟨i', hi', hne⟩
          refine ih ⟨i', (List.mem_cons.mp hi').resolve_left ?_, hne⟩ hrun
          rintro rfl
          exact hne hl
      | cons s tail =>
          have hne : c.lists i ≠ [] := by
            rw [hl]
            exact List.cons_ne_nil _ _
          have hslot := ht.slot_bound (show s ∈ c.lists i by
            rw [hl]
            exact List.mem_cons_self)
          have hr := Content.reserved_ge s.no
          have hmarks := Content.unlink_sameMarks c i s tail
          rw [if_pos ⟨by omega, decide_eq_false hne⟩] at hrun
          rcases h.pop ht hl with ⟨w₁, hpop, h₁⟩
          have hptr := h₁.chkAddrchk2ptr_ok (toSizeT (wrapInt (size * 8))) hslot.2.1 (by omega)
            (show s.off < _ by
              rw [hmarks.virgin]
              omega)
          unfold ChkMemMgr.takeFrom at hrun
          rw [Exec.bind_of_ok hpop, Exec.bind_of_ok hptr] at hrun
          split at hrun
          · rcases Exec.ok_of_bind hrun with ⟨_, w₂, -, hlast⟩
            cases hlast
            exact hslot.2.1
          · cases hrun
            exact hslot.2.1

namespace Uncompressed

theorem lastCanEnlarge_iff (h : Uncompressed env w c L) (hz : c.num ≠ 0) :
    w.LastCanEnlarge <-> L.own (c.num - 1) ≠ 0 ∧ L.cap (c.num - 1) < 16 := by
  unfold World.LastCanEnlarge
  rw [h.num, h.allocCapacityOf_eq (by omega), h.capacityOf_eq (by omega)]

/-!
## The four outcomes
-/

theorem allocBlock_refused (h : Uncompressed env w c L) (hz : c.num ≠ 0)
    (hcan : L.own (c.num - 1) ≠ 0 ∧ L.cap (c.num - 1) < 16) (size : Int) :
    ChkIndex.allocBlock env size w = .ok (chkNull, w) := by
  have hcan' := h.canEnlarge_ok (k := c.num - 1) (by omega)
  rw [decide_eq_true hcan] at hcan'
  unfold ChkIndex.allocBlock
  rw [Exec.bind_of_ok (getIndex_apply w), h.num, Exec.bind_of_ok (Exec.require_of hz _ _),
    Exec.bind_of_ok (h.readChkAddr_ok (by omega)), Exec.bind_of_ok hcan', if_pos ⟨h.type, rfl⟩]
  rfl

theorem allocBlock_pool (h : Uncompressed env w c L) (hz : c.num ≠ 0)
    (hcan : ¬(L.own (c.num - 1) ≠ 0 ∧ L.cap (c.num - 1) < 16)) (size : Int) :
    ChkIndex.allocBlock env size w = (do
      let chkPtr <- ChkMemMgr.allocLoop (Tracks.mgrAddr w) env.freeSize (size / 8) [0, 1, 2]
      if ¬chkPtr.IsNull then do
        let chk <- chkPtr2chk chkPtr
        ChkIndex.subMgr ChkMemMgr.totalFree chkPtr.size
        ChkIndex.countUsed chk chkPtr
      else do
        let (chk, chkPtr) <- ChkIndex.tryAgain env size c.num ChkIndex.tryAgainFuel
        if chkPtr.IsNull then pure chkPtr else ChkIndex.countUsed chk chkPtr : M ChkPtr) w := by
  have hcan' := h.canEnlarge_ok (k := c.num - 1) (by omega)
  rw [decide_eq_false hcan] at hcan'
  unfold ChkIndex.allocBlock ChkMemMgr.alloc
  rw [Exec.bind_of_ok (getIndex_apply w), h.num, Exec.bind_of_ok (Exec.require_of hz _ _),
    Exec.bind_of_ok (h.readChkAddr_ok (by omega)), Exec.bind_of_ok hcan',
    if_neg (fun hcon => Bool.false_ne_true hcon.2), Exec.bind_of_ok (h.memMgr_ok (by omega)),
    Exec.bind_assoc]
  exact Exec.bind_of_ok (h.tracks.loadFreeSize_ok (by omega))

theorem allocBlock_serves (h : Uncompressed env w c L) (ht : Content.Tiling env.freeSize bs c)
    (hz : c.num ≠ 0) (hcan : ¬(L.own (c.num - 1) ≠ 0 ∧ L.cap (c.num - 1) < 16))
    (hsome : exists i, c.lists i ≠ []) {q : ChkPtr} {w' : World}
    (hrun : ChkIndex.allocBlock env (-2 ^ 31) w = .ok (q, w')) : q ≠ chkNull := by
  have hnum := ht.num_le
  rw [h.allocBlock_pool hz hcan] at hrun
  rcases Exec.ok_of_bind hrun with ⟨p, w₁, htake, hrest⟩
  have hmem : exists i, i ∈ [(0 : Fin 3), 1, 2] ∧ c.lists i ≠ [] := by
    rcases hsome with ⟨i, hi⟩
    refine ⟨i, ?_, hi⟩
    match i with
    | 0 => decide
    | 1 => decide
    | 2 => decide
  have hno := h.tracks.allocLoop_serves ht (by omega) (by decide) hmem htake
  have hnull : ¬p.IsNull := by
    unfold ChkPtr.IsNull
    simp only [chkMaxChkNum]
    omega
  rw [if_pos hnull] at hrest
  rcases Exec.ok_of_bind hrest with ⟨_, w₂, -, hrest⟩
  rcases Exec.ok_of_bind hrest with ⟨_, w₃, -, hcount⟩
  rw [countUsed_result hcount]
  rintro rfl
  exact hnull rfl

theorem allocBlock_empty (h : Uncompressed env w c L) (hz : c.num ≠ 0)
    (hcan : ¬(L.own (c.num - 1) ≠ 0 ∧ L.cap (c.num - 1) < 16))
    (hempty : forall i, c.lists i = []) :
    ChkIndex.allocBlock env (-2 ^ 31) w = (do
      let r <- ChkIndex.appendChunk env
      let chk : Ptr := w.index.chkAddr (c.num - 1)
      let cut <- (if r < 0 then pure (chk, chkNull)
        else do
          let idx <- getIndex
          if c.num ≠ idx.chkNum then ChkIndex.collectRest chk else pure ()
          ChkIndex.tryAgain env (-2 ^ 31) c.num 12287 : M (Ptr × ChkPtr))
      if cut.2.IsNull then pure cut.2 else ChkIndex.countUsed cut.1 cut.2 : M ChkPtr) w := by
  have hnull : chkNull.IsNull := rfl
  have hread := h.readChkAddr_ok (k := c.num - 1) (by omega)
  have hgrow := h.chkEnlarge_full fun _ => hcan
  rw [h.allocBlock_pool hz hcan, Exec.bind_of_ok (h.tracks.allocLoop_empty (by omega) hempty _ _),
    if_neg (not_not_intro hnull)]
  show (ChkIndex.tryAgain env (-2 ^ 31) c.num (12287 + 1) >>= fun x =>
    if x.2.IsNull then pure x.2 else ChkIndex.countUsed x.1 x.2) w = _
  conv_lhs => unfold ChkIndex.tryAgain
  rw [Exec.bind_assoc, Exec.bind_of_ok (getIndex_apply w), h.num, Exec.bind_assoc,
    Exec.bind_of_ok hread, Exec.bind_assoc,
    Exec.bind_of_ok (ChkMetadata.alloc_overflow _ w), if_pos hnull, Exec.bind_assoc]
  cases hrun : ChkIndex.appendChunk env w with
  | ok rw' => rw [Exec.bind_of_ok (hgrow.trans hrun), Exec.bind_of_ok hrun]
  | error e => rw [Exec.bind_of_error (hgrow.trans hrun), Exec.bind_of_error hrun]

theorem allocBlock_full (h : Uncompressed env w c L)
    (hcan : ¬(L.own (c.num - 1) ≠ 0 ∧ L.cap (c.num - 1) < 16))
    (hempty : forall i, c.lists i = []) (hnum : c.num = 2047) :
    ChkIndex.allocBlock env (-2 ^ 31) w = .ok (chkNull, w) := by
  have hnull : chkNull.IsNull := rfl
  have happend : ChkIndex.appendChunk env w = .ok (-1, w) := by
    unfold ChkIndex.appendChunk
    rw [Exec.bind_of_ok (getIndex_apply w), h.num, if_pos (by rw [hnum]; decide)]
    rfl
  rw [h.allocBlock_empty (by omega) hcan hempty, Exec.bind_of_ok happend]
  simp only [if_pos (show (-1 : Int) < 0 by decide)]
  rw [Exec.bind_of_ok (Exec.pure_apply _ _), if_pos hnull]
  rfl

theorem allocBlock_grows (h : Uncompressed env w c L) (hwf : Content.WF env.freeSize bs c)
    (hset : Settled c L) (hok : env.AllOk) (hz : c.num ≠ 0)
    (hcan : ¬(L.own (c.num - 1) ≠ 0 ∧ L.cap (c.num - 1) < 16))
    (hempty : forall i, c.lists i = []) (hnum : c.num ≠ 2047) {q : ChkPtr} {w' : World}
    (hrun : ChkIndex.allocBlock env (-2 ^ 31) w = .ok (q, w')) :
    c.num + 1 ≤ w'.index.chkNum := by
  have htotals := hwf.totals_le
  rw [h.allocBlock_empty hz hcan hempty] at hrun
  rcases Exec.ok_of_bind hrun with ⟨r, w₁, happend, hrest⟩
  rcases (h.appendChunk_ensures hset (h.first_full hcan) (by omega)).of_ok happend with
    ⟨-, -, h₁, -⟩ | ⟨-, hfail, -⟩
  · have hmore : w₁.index.HasChunks (c.num + 1) := by
      unfold ChkIndex.HasChunks
      rw [h₁.num, Content.addChunk_num]
    have hsteady := ChkIndex.hasChunks_steady (c.num + 1)
    have hkeeps : KeepsIndex (ChkIndex.HasChunks (c.num + 1)) (do
        let idx <- getIndex
        if c.num ≠ idx.chkNum then ChkIndex.collectRest (w.index.chkAddr (c.num - 1))
          else pure ()
        ChkIndex.tryAgain env (-2 ^ 31) c.num 12287) :=
      getIndex_keeps.bind fun _ => Exec.Keeps.ite _
        ((ChkIndex.collectRest_keeps _).bind fun _ => ChkIndex.tryAgain_keeps env hsteady _ _ _)
        (ChkIndex.tryAgain_keeps env hsteady _ _ _)
    rcases Exec.ok_of_bind hrest with ⟨cut, w₂, htry, hlast⟩
    have hmore₂ := Exec.Keeps.ite (r < 0) (Exec.Keeps.pure _) hkeeps w₁ _ _ hmore htry
    exact Exec.Keeps.ite cut.2.IsNull (Exec.Keeps.pure _) (ChkIndex.countUsed_keeps _ _) w₂ _ _
      hmore₂ hlast
  · exact absurd hok (hfail.resolve_left hnum)

/-- An index that is not stuck and not compressed is changed, or serves the request. -/
theorem stuck_of_refuses (h : Uncompressed env w c L) (hwf : Content.WF env.freeSize bs c)
    (hset : Settled c L) (hok : env.AllOk) {n : Int} (hn : 2 ^ 31 - 7 ≤ n) (hmax : n < 2 ^ 31)
    (href : Refuses env n w) : w.Stuck := by
  rcases href with ⟨w', hrun, hindex, -⟩
  have htotals := hwf.totals_le
  rw [alloc_overflow hn hmax, Exec.bind_of_ok h.tracks.uncompress_ok, if_neg (by decide),
    Exec.bind_of_ok (getIndex_apply w), h.num] at hrun
  by_cases hz : c.num = 0
  · -- the first chunk stays
    have hgrow := h.appendChunk_ensures hset (by omega) (by omega)
    rw [← h.chkEnlarge_full fun hne => absurd hz hne] at hgrow
    rw [if_pos hz] at hrun
    rcases Exec.ok_of_bind hrun with ⟨r, w₁, henlarge, hrest⟩
    rcases hgrow.of_ok henlarge with ⟨-, -, h₁, -⟩ | ⟨-, hfail, -⟩
    · have hone : w₁.index.HasChunks 1 := by
        unfold ChkIndex.HasChunks
        rw [h₁.num, Content.addChunk_num]
        omega
      have hkept := Exec.Keeps.ite (r < 0) (Exec.Keeps.pure _)
        (ChkIndex.allocBlock_keeps env (ChkIndex.hasChunks_steady 1) _) w₁ _ _ hone hrest
      unfold ChkIndex.HasChunks at hkept
      rw [hindex, h.num] at hkept
      omega
    · exact absurd hok (hfail.resolve_left (by omega))
  · rw [if_neg hz] at hrun
    have hnum : w.index.chkNum ≠ 0 := by
      rw [h.num]
      exact hz
    refine ⟨h.flag, hnum, ?_⟩
    by_cases hcan : L.own (c.num - 1) ≠ 0 ∧ L.cap (c.num - 1) < 16
    · exact Or.inl ((h.lastCanEnlarge_iff hz).mpr hcan)
    · by_cases hempty : forall i, c.lists i = []
      · refine Or.inr ⟨?_, fun i => (h.freeHead_null_iff hwf.tiling (by omega) i).mpr (hempty i)⟩
        rw [h.num]
        by_contra hne
        have hmore := h.allocBlock_grows hwf hset hok hz hcan hempty hne hrun
        rw [hindex, h.num] at hmore
        omega
      · have hsome : exists i, c.lists i ≠ [] := by
          by_contra hcon
          exact hempty fun i => by_contra fun hne => hcon ⟨i, hne⟩
        exact absurd rfl (h.allocBlock_serves hwf.tiling hz hcan hsome hrun)

theorem refuses_of_stuck (h : Uncompressed env w c L) (ht : Content.Tiling env.freeSize bs c)
    {n : Int} (hn : 2 ^ 31 - 7 ≤ n) (hmax : n < 2 ^ 31) (hstuck : w.Stuck) :
    Refuses env n w := by
  rcases hstuck with ⟨-, hnum, hwhy⟩
  rw [h.num] at hnum hwhy
  refine ⟨w, ?_, rfl, rfl⟩
  rw [alloc_overflow hn hmax, Exec.bind_of_ok h.tracks.uncompress_ok, if_neg (by decide),
    Exec.bind_of_ok (getIndex_apply w), h.num, if_neg hnum]
  by_cases hcan : L.own (c.num - 1) ≠ 0 ∧ L.cap (c.num - 1) < 16
  · exact h.allocBlock_refused hnum hcan _
  · rcases hwhy with hlast | ⟨hmax', hempty⟩
    · exact absurd ((h.lastCanEnlarge_iff hnum).mp hlast) hcan
    · exact h.allocBlock_full hcan
        (fun i => (h.freeHead_null_iff ht (by omega) i).mp (hempty i)) hmax'

end Uncompressed

theorem Stored.not_refuses_compressed (h : Stored env w c L) (hwf : Content.WF env.freeSize bs c)
    (hset : Settled c L) (hok : env.AllOk) (hflag : w.index.compressed = true) {n : Int}
    (hn : 2 ^ 31 - 7 ≤ n) (hmax : n < 2 ^ 31) : ¬Refuses env n w := by
  rintro ⟨w', hrun, hindex, -⟩
  rcases (h.uncompress_ensures hwf hset).exists_ok fun e he => he.2 hok with
    ⟨r, u, huncompress, -, ⟨rfl, hopen⟩ | ⟨-, hfail⟩⟩
  · have hsteady := ChkIndex.isUncompressed_steady
    have hkeeps : KeepsIndex ChkIndex.IsUncompressed (do
        let idx <- getIndex
        if idx.chkNum = 0 then do
          let r <- ChkIndex.chkEnlarge env false
          if r < 0 then pure chkNull else ChkIndex.allocBlock env (-2 ^ 31)
        else ChkIndex.allocBlock env (-2 ^ 31) : M ChkPtr) :=
      getIndex_keeps.bind fun _ => Exec.Keeps.ite _
        ((ChkIndex.chkEnlarge_keeps env hsteady _).bind fun _ => Exec.Keeps.ite _
          (Exec.Keeps.pure _) (ChkIndex.allocBlock_keeps env hsteady _))
        (ChkIndex.allocBlock_keeps env hsteady _)
    rw [alloc_overflow hn hmax, Exec.bind_of_ok huncompress, if_neg (by decide)] at hrun
    have hkept : w'.index.compressed = false := hkeeps u _ _ hopen hrun
    rw [hindex, hflag] at hkept
    cases hkept
  · exact absurd hok hfail

end

/-- A request above the largest block is refused without effect when it can be rounded up, or
when the index is stuck; where the system yields memory, only then. -/
theorem Reach.oversized_refused_iff {env : Env} {s : Session} (h : Reach env CarefulCall s)
    {n : Int} (hlarge : 4088 < n) (hmax : n < 2 ^ 31) :
    (n < 2 ^ 31 - 7 ∨ s.world.Stuck -> Refuses env n s.world) ∧
    (env.AllOk -> Refuses env n s.world -> n < 2 ^ 31 - 7 ∨ s.world.Stuck) := by
  rcases h.careful with ⟨c, L, hv⟩
  have hst := hv.stored
  refine ⟨fun hwhen => ?_, fun hok href => ?_⟩
  · by_cases hn : n < 2 ^ 31 - 7
    · exact ⟨s.world, Stored.alloc_large hlarge hn, rfl, rfl⟩
    · have hstuck := hwhen.resolve_left hn
      exact (hst.uncompressed hstuck.1).refuses_of_stuck hv.wf.tiling (by omega) hmax hstuck
  · by_cases hn : n < 2 ^ 31 - 7
    · exact Or.inl hn
    · refine Or.inr ?_
      cases hflag : s.world.index.compressed with
      | false =>
          exact (hst.uncompressed hflag).stuck_of_refuses hv.wf hv.settled hok (by omega) hmax href
      | true =>
          exact absurd href
            (hst.not_refuses_compressed hv.wf hv.settled hok hflag (by omega) hmax)

section Sample

def recycled : Session :=
  Call.after Env.plain [.alloc 120, .alloc 120, .free ⟨0, 10, 15⟩] ⟨World.boot, []⟩

theorem recycled_reach : Reach Env.plain CarefulCall recycled := by
  unfold recycled
  exact .after (.start World.boot_fresh) (by decide +kernel)

/-- What `alloc` returns. -/
def ChkIndex.allocated (env : Env) (n : Int) (w : World) : Option ChkPtr :=
  match ChkIndex.alloc env n w with
  | .ok (p, _) => some p
  | .error _ => none

/-- With a block in the free lists, `alloc(INT_MAX)` hands out its place, and no unit. -/
theorem oversized_served : Reach Env.plain CarefulCall recycled ∧
    ChkIndex.allocated Env.plain (2 ^ 31 - 1) recycled.world = some ⟨0, 10, 0⟩ ∧
      ¬Refuses Env.plain (2 ^ 31 - 1) recycled.world := by
  have hserved : ChkIndex.allocated Env.plain (2 ^ 31 - 1) recycled.world = some ⟨0, 10, 0⟩ := by
    decide +kernel
  refine ⟨recycled_reach, hserved, ?_⟩
  rintro ⟨w', hrun, -⟩
  unfold ChkIndex.allocated at hserved
  rw [hrun] at hserved
  cases hserved

theorem Reach.oversized_refused_iff_sample :
    Refuses Env.plain 4089 packed.world := by
  have hwhen := Reach.oversized_refused_iff packed_reach (n := 4089) (by decide) (by decide)
  exact hwhen.1 (Or.inl (by decide))

end Sample

end ChunkMem
