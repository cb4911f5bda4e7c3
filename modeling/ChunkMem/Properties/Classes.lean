import ChunkMem.Arena.Cut
import ChunkMem.Session.Runs

/-!
# Size classes in their bit fields

`preset_free_sizes` caps a preset at one byte less than the next power of two
and rounds up afterwards, so that the largest class needs one bit more than its
field has.  Short of that boundary the classes survive, and `ChkMemMgr::free`
ends for every block.
-/

namespace ChunkMem

open Foundation

/-!
## The constructor
-/

section Construct

variable {env : Env} {w : World} {mgr : Ptr}

theorem Sys.Inside.part {s : Sys} {p : Ptr} {o n hi : Nat} (h : s.Inside p hi)
    (hle : 8 * o + n ≤ hi) : s.Inside (p.add o) n := by
  rcases h with ⟨a, ha, hsize⟩
  refine ⟨a, ha, ?_⟩
  simp only [Ptr.add]
  omega

/-- The memory manager after its constructor, seen from its first byte. -/
def builtMgr (env : Env) (m : Bits) : Bits :=
  (((((((m.clear 0 192).write 80 4 (env.freeSizePreset 0)).write 84 5
    (env.freeSizePreset 1)).write 89 7 (env.freeSizePreset 2)).write 96 11
    chkMaxChkNum).write 128 11 chkMaxChkNum).write 160 11 chkMaxChkNum)

theorem construct_at (h : w.sys.Inside mgr 192) :
    ChkMemMgr.construct env mgr w = .ok ((), w.setView mgr (builtMgr env (w.view mgr))) := by
  have hstore : forall (f : Field) (v : Nat) (m : Bits), f.pos + f.width ≤ 192 ->
      store mgr f v (w.setView mgr m) = .ok ((), w.setView mgr (m.write f.pos f.width v)) := by
    intro f v m hf
    have hin : (w.setView mgr m).sys.Inside (mgr.add 0) (f.pos + f.width) := h.part (by omega)
    have hat := store_at hin v
    rw [World.setView_setView, World.view_setView, Nat.mul_zero, Nat.zero_add] at hat
    exact hat
  have hinit : forall (i : Fin 3) (m : Bits),
      ChkSList.init (ChkMemMgr.freeList mgr i) (w.setView mgr m) =
        .ok ((), w.setView mgr (m.write (96 + 32 * i) 11 chkMaxChkNum)) := by
    intro i m
    have hi := i.isLt
    have hin : (w.setView mgr m).sys.Inside (mgr.add (12 + 4 * i)) 11 := h.part (by omega)
    have hat := store_at (f := ⟨0, 11⟩) hin chkMaxChkNum
    rw [World.setView_setView, World.view_setView] at hat
    have hpos : 8 * (12 + 4 * (i : Nat)) + 0 = 96 + 32 * i := by omega
    simp only [hpos] at hat
    exact hat
  have hbzero : bzero mgr ChkMemMgr.sizeOf w =
      .ok ((), w.setView mgr ((w.view mgr).clear 0 192)) :=
    bzero_at (p := mgr) (o := 0) h
  unfold ChkMemMgr.construct builtMgr
  rw [Exec.bind_of_ok hbzero,
    Exec.bind_of_ok (hstore ChkMemMgr.free0 _ _ (by decide)),
    Exec.bind_of_ok (hstore ChkMemMgr.free1 _ _ (by decide)),
    Exec.bind_of_ok (hstore ChkMemMgr.free2 _ _ (by decide)),
    Exec.bind_of_ok (hinit 0 _), Exec.bind_of_ok (hinit 1 _), hinit 2 _]
  rfl

theorem loadFreeSize_built (h : w.sys.Inside mgr 192) (m : Bits) :
    ChkMemMgr.loadFreeSize mgr (w.setView mgr (builtMgr env m)) =
      .ok (env.freeSize, w.setView mgr (builtMgr env m)) := by
  have hload : forall f : Field, f.pos + f.width ≤ 192 ->
      load mgr f (w.setView mgr (builtMgr env m)) =
        .ok ((builtMgr env m).read f.pos f.width, w.setView mgr (builtMgr env m)) := by
    intro f hf
    have hin : (w.setView mgr (builtMgr env m)).sys.Inside (mgr.add 0) (f.pos + f.width) :=
      h.part (by omega)
    have hat := load_at hin
    rw [World.view_setView, Nat.mul_zero, Nat.zero_add] at hat
    exact hat
  have h0 : (builtMgr env m).read 80 4 = env.freeSize 0 := by
    unfold builtMgr
    rw [Bits.read_write_disjoint (by omega), Bits.read_write_disjoint (by omega),
      Bits.read_write_disjoint (by omega), Bits.read_write_disjoint (by omega),
      Bits.read_write_disjoint (by omega), Bits.read_write_same]
    rfl
  have h1 : (builtMgr env m).read 84 5 = env.freeSize 1 := by
    unfold builtMgr
    rw [Bits.read_write_disjoint (by omega), Bits.read_write_disjoint (by omega),
      Bits.read_write_disjoint (by omega), Bits.read_write_disjoint (by omega),
      Bits.read_write_same]
    rfl
  have h2 : (builtMgr env m).read 89 7 = env.freeSize 2 := by
    unfold builtMgr
    rw [Bits.read_write_disjoint (by omega), Bits.read_write_disjoint (by omega),
      Bits.read_write_disjoint (by omega), Bits.read_write_same]
    rfl
  unfold ChkMemMgr.loadFreeSize
  rw [Exec.bind_of_ok (hload ChkMemMgr.free0 (by decide)),
    Exec.bind_of_ok (hload ChkMemMgr.free1 (by decide)),
    Exec.bind_of_ok (hload ChkMemMgr.free2 (by decide)), Exec.pure_apply]
  congr 2
  funext i
  match i with
  | 0 => exact h0
  | 1 => exact h1
  | 2 => exact h2

/-- A constructed memory manager shows the classes as its fields keep them. -/
theorem construct_loadFreeSize {w' : World} (hrun : ChkMemMgr.construct env mgr w = .ok ((), w')) :
    ChkMemMgr.loadFreeSize mgr w' = .ok (env.freeSize, w') := by
  by_cases hin : w.sys.Inside mgr 192
  · rw [construct_at hin] at hrun
    cases hrun
    exact loadFreeSize_built hin _
  · have hbzero : bzero mgr ChkMemMgr.sizeOf w = .error mgr.accessFault := by
      unfold bzero access
      apply Exec.bind_of_error
      exact if_neg hin
    unfold ChkMemMgr.construct at hrun
    rw [Exec.bind_of_error hbzero] at hrun
    cases hrun

theorem construct_somewhere (env : Env) :
    exists mgr w w', ChkMemMgr.construct env mgr w = .ok ((), w') := by
  have hin : (World.boot.obtained .caller 24 Bits.zero).sys.Inside World.boot.freshPtr 192 :=
    World.obtained_inside World.boot .caller 24 Bits.zero (n := 192) (o := 0) (by decide)
  exact ⟨_, _, _, construct_at hin⟩

end Construct

/-!
## Slicing ends
-/

/-- `ChkMemMgr::free` returns for every run of units of a chunk below its
virgin mark, of any length. -/
theorem Uncompressed.mgrFree_returns {env : Env} {w : World} {c : Content} {L : Layout}
    (h : Uncompressed env w c L) (hcls : env.ClassesNonzero) {p : ChkPtr} (hk : p.chkNo < c.num)
    (heven : p.offset % 2 = 0) (hoff : p.offset < 2 ^ 12) (hlo : reserved p.chkNo ≤ p.offset / 2)
    (hhi : p.offset / 2 + p.size ≤ (c.body p.chkNo).virgin) :
    exists w', ChkMemMgr.free (Tracks.mgrAddr w) p w = .ok ((), w') := by
  have hcls' : forall i, 0 < env.freeSize i := hcls
  have hends := Content.freeLoop_ok (p.size + 1) p.size ⟨p.chkNo, p.offset / 2⟩ c
    (Nat.lt_succ_self _) (Cuttable.of_pos hcls' p.size)
  have hsim := poolFree_simulates h.tracks (s := ⟨p.chkNo, p.offset / 2⟩) (p := p) rfl
    (by simp only; omega) hk hlo hhi
  rcases hends with ⟨c', hrun⟩
  have hzero : env.freeSize 0 ≠ 0 := by
    have := hcls 0
    omega
  unfold Content.poolFree at hsim
  rw [Exec.bind_of_ok (Exec.require_of hzero _ _), hrun] at hsim
  generalize ChkMemMgr.free (Tracks.mgrAddr w) p w = outcome at hsim
  cases hsim with
  | ok _ => exact ⟨_, rfl⟩

/-!
## Which presets survive
-/

/-- A memory manager shows the preset classes, none is zero, and
`ChkMemMgr::free` returns for every run of units a block can be. -/
structure PresetsSurvive (env : Env) : Prop where
  stored : forall mgr w w', ChkMemMgr.construct env mgr w = .ok ((), w') ->
    ChkMemMgr.loadFreeSize mgr w' = .ok (env.freeSizePreset, w')
  nonzero : forall i, 0 < env.freeSizePreset i
  slices : forall s p, Reach env CarefulCall s -> s.world.index.compressed = false ->
    p.chkNo < s.world.index.chkNum -> p.offset % 2 = 0 -> p.offset < 2 ^ 12 ->
    reserved p.chkNo ≤ p.offset / 2 -> p.offset / 2 + p.size ≤ s.world.virginOf p.chkNo ->
    exists mgr w', ChkIndex.memMgr s.world = .ok (mgr, s.world) ∧
      ChkMemMgr.free mgr p s.world = .ok ((), w')

section Presets

variable {env : Env} {presets : Fin 3 -> Int}

theorem presetFreeSizes_eq (hpos : forall i, 0 < presets i) (i : Fin 3) :
    ChkMemMgr.presetFreeSizes presets i =
      ((min (ChkMemMgr.maxPresets i) (presets i) + 7) / 8).toNat := by
  have hp := hpos i
  have hmax : 127 ≤ ChkMemMgr.maxPresets i ∧ ChkMemMgr.maxPresets i ≤ 1023 := by
    match i with
    | 0 => decide
    | 1 => decide
    | 2 => decide
  unfold ChkMemMgr.presetFreeSizes chkAlignDefInt
  rw [wrapInt_of_lt (by omega) (by omega)]
  congr 1
  rw [Int.emod_eq_of_lt (by omega) (by omega)]
  omega

theorem presetFreeSizes_pos (hpos : forall i, 0 < presets i) (i : Fin 3) :
    0 < ChkMemMgr.presetFreeSizes presets i := by
  have hp := hpos i
  have hmax : 127 ≤ ChkMemMgr.maxPresets i := by
    match i with
    | 0 => decide
    | 1 => decide
    | 2 => decide
  rw [presetFreeSizes_eq hpos]
  omega

theorem freeSize_eq_preset_iff (hpos : forall i, 0 < presets i)
    (henv : env.freeSizePreset = ChkMemMgr.presetFreeSizes presets) :
    env.freeSize = env.freeSizePreset <->
      presets 0 ≤ 120 ∧ presets 1 ≤ 248 ∧ presets 2 ≤ 1016 := by
  have h0 := presetFreeSizes_eq hpos 0
  have h1 := presetFreeSizes_eq hpos 1
  have h2 := presetFreeSizes_eq hpos 2
  have hp0 := hpos 0
  have hp1 := hpos 1
  have hp2 := hpos 2
  have hmax0 : ChkMemMgr.maxPresets 0 = 127 := rfl
  have hmax1 : ChkMemMgr.maxPresets 1 = 255 := rfl
  have hmax2 : ChkMemMgr.maxPresets 2 = 1023 := rfl
  have hf0 : env.freeSize 0 = ChkMemMgr.presetFreeSizes presets 0 % 2 ^ 4 := by
    rw [← henv]
    rfl
  have hf1 : env.freeSize 1 = ChkMemMgr.presetFreeSizes presets 1 % 2 ^ 5 := by
    rw [← henv]
    rfl
  have hf2 : env.freeSize 2 = ChkMemMgr.presetFreeSizes presets 2 % 2 ^ 7 := by
    rw [← henv]
    rfl
  rw [henv]
  constructor
  · intro heq
    have he0 := congrFun heq 0
    have he1 := congrFun heq 1
    have he2 := congrFun heq 2
    omega
  · rintro ⟨hle0, hle1, hle2⟩
    funext i
    match i with
    | 0 => omega
    | 1 => omega
    | 2 => omega

/-- For every triple of positive presets: the classes survive in their fields, and
freeing ends for every block, exactly when the presets are at most 120, 248 and
1016 bytes. -/
theorem presets_survive_iff (hpos : forall i, 0 < presets i)
    (henv : env.freeSizePreset = ChkMemMgr.presetFreeSizes presets) :
    PresetsSurvive env <-> presets 0 ≤ 120 ∧ presets 1 ≤ 248 ∧ presets 2 ≤ 1016 := by
  rw [← freeSize_eq_preset_iff hpos henv]
  constructor
  · intro h
    rcases construct_somewhere env with ⟨mgr, w, w', hrun⟩
    have hload := construct_loadFreeSize hrun
    rw [h.stored mgr w w' hrun] at hload
    simp only [Except.ok.injEq, Prod.mk.injEq, and_true] at hload
    exact hload.symm
  · intro heq
    have hnonzero : forall i, 0 < env.freeSizePreset i := by
      intro i
      rw [henv]
      exact presetFreeSizes_pos hpos i
    have hcls : env.ClassesNonzero := by
      intro i
      rw [heq]
      exact hnonzero i
    refine ⟨?_, hnonzero, ?_⟩
    · intro mgr w w' hrun
      rw [← heq]
      exact construct_loadFreeSize hrun
    · intro s p hreach hflag hk heven hoff hlo hhi
      rcases hreach.careful with ⟨c, L, hv⟩
      have hu := hv.stored.uncompressed hflag
      rw [hu.num] at hk
      rw [hu.virginOf_eq hk] at hhi
      rcases hu.mgrFree_returns hcls hk heven hoff hlo hhi with ⟨w', hrun⟩
      exact ⟨_, w', hu.memMgr_ok (by omega), hrun⟩

end Presets

section Sample

/-- The environment after `preset_free_sizes`. -/
def Env.preset (env : Env) (presets : Fin 3 -> Int) : Env :=
  { env with freeSizePreset := ChkMemMgr.presetFreeSizes presets }

def Call.faultOf (env : Env) (calls : List Call) (s : Session) : Option Fault :=
  match Call.performAll env calls s with
  | .error e => some e
  | .ok _ => none

/-- With presets of 127, 255 and 1023 bytes the computed classes are 16, 32 and 128
units, the stored ones are all zero, and the first block that goes to the pool
trips the assertion. -/
theorem capped_presets_lost :
    (forall i, (Env.plain.preset ![127, 255, 1023]).freeSizePreset i = ![16, 32, 128] i ∧
      (Env.plain.preset ![127, 255, 1023]).freeSize i = 0) ∧
    Call.faultOf (Env.plain.preset ![127, 255, 1023])
      [.alloc 24, .alloc 24, .free ⟨0, 10, 3⟩] ⟨World.boot, []⟩ = some .assertion ∧
    ¬PresetsSurvive (Env.plain.preset ![127, 255, 1023]) := by
  refine ⟨by decide +kernel, by decide +kernel, fun h => ?_⟩
  rcases construct_somewhere (Env.plain.preset ![127, 255, 1023]) with ⟨mgr, w, w', hrun⟩
  have hload := construct_loadFreeSize hrun
  rw [h.stored mgr w w' hrun] at hload
  have heq : (Env.plain.preset ![127, 255, 1023]).freeSizePreset 0 =
      (Env.plain.preset ![127, 255, 1023]).freeSize 0 := by
    simp only [Except.ok.injEq, Prod.mk.injEq, and_true] at hload
    exact congrFun hload 0
  exact absurd heq (by decide +kernel)

theorem sample_pos : forall i : Fin 3, 0 < (![16, 32, 64] : Fin 3 -> Int) i := by
  decide

theorem presets_survive_iff_sample :
    PresetsSurvive (Env.plain.preset ![16, 32, 64]) :=
  (presets_survive_iff sample_pos rfl).mpr (by decide)

end Sample

end ChunkMem
