import ChunkMem.Session.Runs

/-!
# Chunks that grow on demand

With `CHK_MEM_ALLOC_NEED` the first `alloc` asks
`ChkMetadata::enlarge` for a chunk without an old one, and that function looks
up the capacity of the old chunk all the same.
-/

namespace ChunkMem

open Foundation

/-- An index built with `CHK_MEM_ALLOC_NEED` that nobody used yet. -/
structure World.FreshNeed (w : World) : Prop where
  num : w.index.chkNum = 0
  flag : w.index.compressed = false
  type : w.index.memAllocType = .need
  size : w.index.chkAddrSize = 0
  sane : Sane w.sys

/-- The calls of the programs in question: blocks of sizes that can be served, and
release of blocks the program holds. -/
def NeedCall (s : Session) : Call -> Prop
  | .alloc n => 1 ≤ n ∧ n ≤ 4088
  | .free p => exists l, l ∈ s.live ∧ l.ptr = p
  | _ => False

/-- No null pointer was read through, and every `alloc` returned a block. -/
def NeedWorks (run : Except Fault (List Result × Session)) : Prop :=
  match run with
  | .ok (rs, _) => forall p, Result.block p ∈ rs -> ¬p.IsNull
  | .error _ => False

section

variable {env : Env} {w : World}

theorem capacityLevel_null (hw : Sane w.sys) :
    ChkMetadata.capacityLevel Ptr.null .need w = .error .nullDeref := by
  have hload : load Ptr.null ChkMetadata.capacity w = .error .nullDeref := by
    have hout : ¬w.sys.Inside Ptr.null (ChkMetadata.capacity.pos + ChkMetadata.capacity.width) := by
      rintro ⟨a, ha, -⟩
      have hnull := hw.null
      change w.sys.allocs 0 = some a at ha
      rw [hnull] at ha
      cases ha
    unfold load
    apply Exec.bind_of_error
    unfold access
    rw [if_neg hout]
    rfl
  unfold ChkMetadata.capacityLevel
  apply Exec.bind_of_error
  unfold ChkMetadata.capacityBytes
  exact Exec.bind_of_error hload

theorem enlarge_null_need (hw : Sane w.sys) :
    ChkMetadata.enlarge env Ptr.null .need w = .error .nullDeref := by
  unfold ChkMetadata.enlarge
  simp only [if_true, Exec.bind_of_ok (Exec.pure_apply _ _)]
  rw [if_neg (by decide)]
  exact Exec.bind_of_error (capacityLevel_null hw)

theorem World.FreshNeed.alloc_reads_null (h : w.FreshNeed) (hok : env.AllOk) {n : Int}
    (hpos : 1 ≤ n) (hn : n ≤ 4088) : ChkIndex.alloc env n w = .error .nullDeref := by
  have hsys : sysCall env w = .ok (true, w.skipped) := by
    unfold sysCall
    rw [hok]
    rfl
  have hreserve : exists w', ChkIndex.reserveChkAddr env w = .ok ((), w') ∧ Sane w'.sys := by
    unfold ChkIndex.reserveChkAddr
    rw [Exec.bind_of_ok (getIndex_apply w), if_pos (by rw [h.num, h.size]),
      Exec.bind_of_ok hsys, Exec.bind_of_ok (Exec.require_of rfl _ _)]
    exact ⟨_, rfl, h.sane.skipped⟩
  rcases hreserve with ⟨w', hrun, hsane⟩
  have happend : ChkIndex.appendChunk env w = .error .nullDeref := by
    unfold ChkIndex.appendChunk
    rw [Exec.bind_of_ok (getIndex_apply w), if_neg (by rw [h.num]; decide),
      Exec.bind_of_ok hrun, h.type]
    exact Exec.bind_of_error (enlarge_null_need hsane)
  have hgrow : ChkIndex.chkEnlarge env false w = .error .nullDeref := by
    unfold ChkIndex.chkEnlarge
    rw [Exec.bind_of_ok (getIndex_apply w), if_neg (not_not_intro h.num), if_neg (by decide)]
    exact happend
  have huncompress : ChkIndex.uncompress env w = .ok (0, w) := by
    unfold ChkIndex.uncompress
    rw [Exec.bind_of_ok (getIndex_apply w), if_pos h.flag]
    rfl
  unfold ChkIndex.alloc
  rw [Exec.bind_of_ok (Exec.require_of (show n > 0 by omega) _ _)]
  simp only [if_neg (align_small (show 0 < n by omega) hn)]
  rw [Exec.bind_of_ok huncompress, if_neg (by decide), Exec.bind_of_ok (getIndex_apply w),
    if_pos h.num]
  exact Exec.bind_of_error hgrow

end

/-- On an index built with `CHK_MEM_ALLOC_NEED` a run works exactly when it
makes no call: it would have to start with `alloc`, and that reads through a
null pointer. -/
theorem World.FreshNeed.works_iff {env : Env} {w : World} (h : w.FreshNeed) (hok : env.AllOk)
    {calls : List Call} (hcalls : Call.AllMeet env NeedCall calls ⟨w, []⟩) :
    NeedWorks (Call.performAll env calls ⟨w, []⟩) <-> calls = [] := by
  constructor
  · intro hworks
    cases calls with
    | nil => rfl
    | cons call rest =>
        exfalso
        rcases Call.allMeet_cons.mp hcalls with ⟨hcall, -⟩
        cases call with
        | alloc n =>
            have hrun : (Call.alloc n).perform env ⟨w, []⟩ = .error .nullDeref := by
              have hbody : (Call.alloc n).run env w = .error .nullDeref :=
                Exec.bind_of_error (h.alloc_reads_null hok hcall.1 hcall.2)
              unfold Call.perform
              rw [hbody]
            unfold Call.performAll at hworks
            rw [hrun] at hworks
            exact hworks
        | free p =>
            rcases hcall with ⟨l, hl, -⟩
            cases hl
        | write p pos data => exact hcall
        | enlarge => exact hcall
        | compress percent => exact hcall
        | uncompress => exact hcall
        | shrink => exact hcall
        | destruct => exact hcall
  · rintro rfl
    intro p hp
    cases hp

section Sample

/-- The machine state after `ChkIndex::ChkIndex` with
`CHK_MEM_ALLOC_NEED`. -/
def World.bootNeed : World :=
  { World.boot with index := { World.boot.index with memAllocType := .need } }

theorem World.bootNeed_fresh : World.bootNeed.FreshNeed :=
  ⟨rfl, rfl, rfl, rfl, World.boot_fresh.sane⟩

theorem need_alloc_meets : Call.AllMeet Env.plain NeedCall [.alloc 24] ⟨World.bootNeed, []⟩ := by
  refine Call.allMeet_cons.mpr ⟨⟨by decide, by decide⟩, ?_⟩
  split
  · trivial
  · trivial

/-- A single `alloc`. -/
theorem need_alloc_reads_null :
    Call.AllMeet Env.plain NeedCall [.alloc 24] ⟨World.bootNeed, []⟩ ∧
    ChkIndex.alloc Env.plain 24 World.bootNeed = .error .nullDeref :=
  ⟨need_alloc_meets,
    World.bootNeed_fresh.alloc_reads_null Env.plain_allOk (by decide) (by decide)⟩

theorem World.FreshNeed.works_iff_sample :
    ¬NeedWorks (Call.performAll Env.plain [.alloc 24] ⟨World.bootNeed, []⟩) :=
  fun hworks => absurd ((World.FreshNeed.works_iff World.bootNeed_fresh Env.plain_allOk
    need_alloc_meets).mp hworks) (by simp)

end Sample

end ChunkMem
