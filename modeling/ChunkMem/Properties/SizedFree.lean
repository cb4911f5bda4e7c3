import ChunkMem.Session.Runs

/-!
# Freeing with the requested size

`alloc` rounds a size up to 8-byte units, `free` with a size rounds it
down.  The two agree for the multiples of eight and for no other size.
-/

namespace ChunkMem

open Foundation

/-!
## The sizes of live blocks
-/

namespace Call

variable {live : List Live} {w' : World} {l : Live}

/-- A block that a call adds to those the program holds comes from `alloc`. -/
theorem mem_holds {call : Call} {r : Result} (hl : l ∈ call.holds live w' r) :
    l ∈ live ∨ exists n p, call = .alloc n ∧ r = .block p ∧ ¬p.IsNull ∧ l = ⟨p, n⟩ := by
  cases call with
  | alloc n =>
      cases r with
      | block p =>
          rw [holds_alloc] at hl
          split at hl
          · exact Or.inl hl
          · next hp =>
              rcases List.mem_cons.mp hl with rfl | hl
              · exact Or.inr ⟨n, p, rfl, rfl, hp, rfl⟩
              · exact Or.inl hl
      | code r => exact Or.inl hl
      | done => exact Or.inl hl
  | free p =>
      rw [holds_free] at hl
      split at hl
      · exact Or.inl hl
      · exact Or.inl (List.mem_of_mem_eraseP hl)
  | destruct =>
      rw [holds_destruct] at hl
      split at hl
      · exact Or.inl hl
      · cases hl
  | write p pos data => exact Or.inl hl
  | enlarge => exact Or.inl hl
  | compress percent => exact Or.inl hl
  | uncompress => exact Or.inl hl
  | shrink => exact Or.inl hl

end Call

/-- Every block a program holds takes exactly the units its size needs. -/
def ExactSizes (s : Session) : Prop :=
  forall l, l ∈ s.live -> 1 ≤ l.size ∧ l.size ≤ 4088 ∧ l.ptr.size = Uncompressed.units l.size

theorem Valid.perform_exactSizes {env : Env} {s s' : Session} {c : Content} {L : Layout}
    {call : Call} {r : Result} (h : Valid env s c L) (hcall : call.Allowed s)
    (hsizes : ExactSizes s) (hrun : call.perform env s = .ok (r, s')) : ExactSizes s' := by
  unfold Call.perform at hrun
  cases hbody : call.run env s.world with
  | error e =>
      rw [hbody] at hrun
      cases hrun
  | ok rw' =>
      rw [hbody] at hrun
      cases hrun
      intro l hl
      rcases Call.mem_holds hl with hold | ⟨n, p, rfl, hr, hp, rfl⟩
      · exact hsizes l hold
      · have hrunAlloc : (Call.alloc n).run env = (do
            let p <- ChkIndex.alloc env n
            pure (.block p)) := rfl
        rw [hrunAlloc] at hbody
        by_cases hsmall : 1 ≤ n ∧ n ≤ 4088
        · have halloc := h.stored.alloc_ensures h.wf h.settled (n := n) (by omega) hsmall.2
          cases hrun : ChkIndex.alloc env n s.world with
          | error e =>
              rw [Exec.bind_of_error hrun] at hbody
              cases hbody
          | ok qw =>
              rw [Exec.bind_of_ok hrun] at hbody
              cases hbody
              cases hr
              rcases halloc.of_ok hrun with ⟨hnull, -⟩ | ⟨b, c', L', hb, hlen, -⟩
              · exact absurd (show (qw.1).IsNull by rw [hnull]; exact rfl) hp
              · refine ⟨hsmall.1, hsmall.2, ?_⟩
                rw [hb, blockPtr_size]
                exact hlen
        · by_cases hpos : 0 < n
          · rw [Exec.bind_of_ok (Stored.alloc_large (by omega) hcall)] at hbody
            cases hbody
            cases hr
            exact absurd (show chkNull.IsNull from rfl) hp
          · rw [Exec.bind_of_error (Stored.alloc_nonpos (by omega))] at hbody
            cases hbody

theorem Reach.exactSizes {env : Env} {s : Session} (h : Reach env (SafeCall env) s) :
    ExactSizes s := by
  induction h with
  | start hw =>
      intro l hl
      cases hl
  | step hreach hcall hrun ih =>
      rcases hreach.valid with ⟨c, L, hv⟩
      exact hv.perform_exactSizes hcall.1 ih hrun

/-!
## Two ways to free
-/

/-- A part of a block that is out, and its tail as a block of its own. -/
theorem Content.WF.cut {cls : Fin 3 -> Nat} {bs : List Block} {c : Content} {b : Block}
    (h : Content.WF cls bs c) (hb : b ∈ bs) {n m : Nat} (hlen : b.len = n + m) :
    Content.WF cls (⟨b.space, b.start, n⟩ :: ⟨b.space, b.start + n, m⟩ :: bs.erase b) c := by
  refine ⟨h.tiling.weaken ?_, ?_, h.accounts.totalUsed_eq, h.accounts.virgin_eq,
    h.accounts.free_le⟩
  · intro k u
    have hsplit := Extent.covers_split b.space k b.start n m u
    have hperm := Extent.cover_perm (List.perm_cons_erase hb) k u
    have hself : (⟨b.space, b.start, n + m⟩ : Block) = b := by
      rw [← hlen]
    rw [hperm]
    simp only [Extent.cover_cons]
    rw [hself] at hsplit
    omega
  · intro k hk
    rw [h.accounts.used_eq k hk, Extent.lenIn_erase hb]
    simp only [Extent.lenIn_cons]
    split <;> omega

namespace Uncompressed

variable {env : Env} {w : World} {c : Content} {L : Layout} {bs : List Block}

theorem free_empty (h : Uncompressed env w c L) (hwf : Content.WF env.freeSize bs c) {b : Block}
    (hb : b ∈ bs) (hpos : 0 < b.len) :
    ChkIndex.free env ⟨b.space, 2 * b.start, 0⟩ 0 w = .error .assertion := by
  have hbound := hwf.tiling.block_bound hb hpos
  have haddr := h.tracks.chkPtr2addr_ok (p := ⟨b.space, 2 * b.start, 0⟩) hbound.1
  have hoff : chkOffset (2 * b.start) = 8 * b.start := by
    simp only [chkOffset]
    omega
  rw [hoff] at haddr
  rcases h.tracks.clear (k := b.space) (u := b.start) (n := 0) hbound.1 hbound.2.1 (by omega)
    with ⟨w₁, hbzero, h₁⟩
  have hchk := h₁.chkPtr2chk_ok (p := ⟨b.space, 2 * b.start, 0⟩) hbound.1
  have hno := h₁.rep.load_no (k := b.space) hbound.1
  rw [h₁.index] at hno
  unfold ChkIndex.free
  rw [Exec.bind_of_ok h.tracks.uncompress_ok, if_neg (by decide), if_neg (by decide)]
  have hzero : chkSize 0 = 8 * 0 := rfl
  simp only [hzero]
  rw [Exec.bind_of_ok haddr, Exec.bind_of_ok hbzero, Exec.bind_of_ok hchk]
  apply Exec.bind_of_error
  unfold ChkMetadata.free
  rw [Exec.bind_of_ok hno]
  apply Exec.bind_of_error
  exact Exec.require_of_not (fun hcon => hcon.2 rfl) _ _

theorem free_totalUsed (h : Uncompressed env w c L) (hwf : Content.WF env.freeSize bs c)
    {b : Block} (hb : b ∈ bs) (hpos : 0 < b.len) {w' : World}
    (hrun : ChkIndex.free env (blockPtr b) 0 w = .ok ((), w')) :
    w'.totalUsed = c.totalUsed - b.len ∧ b.len ≤ c.totalUsed := by
  have hbound := hwf.tiling.block_bound hb hpos
  rcases (h.free_ensures hwf hb hpos).of_ok hrun with ⟨c', hcontent, h', hwf', -, hnum⟩
  have hrel := (Content.free_released hwf hb hpos).of_ok hcontent
  have hm := (h'.mgr (by omega)).totalUsed
  have hused := hwf.accounts.used_erase hb hbound.1
  have htotal := hwf.accounts.totalUsed_eq
  have hsum := le_sumTo (fun k => (c.body k).used) hbound.1
  rw [Extent.lenIn_cons, if_pos rfl] at hused
  refine ⟨?_, by omega⟩
  rw [← hrel.totalUsed]
  exact hm

end Uncompressed

theorem ChkIndex.free_sized (env : Env) (q : ChkPtr) {n : Int} (hpos : 0 < n) (hn : n ≤ 4088) :
    ChkIndex.free env q n = ChkIndex.free env ⟨q.chkNo, q.offset, (n / 8).toNat⟩ 0 := by
  have hsize : toSizeT (n / 8) % 2 ^ 9 = (n / 8).toNat := by
    unfold toSizeT
    omega
  unfold ChkIndex.free
  rw [if_pos hpos, if_neg (by decide), hsize]

/-- For a live block and the size it was asked for: `free` with the size does
what `free` of the block does exactly when the size is a multiple of eight. -/
theorem Valid.sized_mul_iff {env : Env} {s : Session} {c : Content} {L : Layout}
    (h : Valid env s c L) (hsizes : ExactSizes s) (hflag : s.world.index.compressed = false)
    {l : Live} (hl : l ∈ s.live) {q : ChkPtr} (hno : q.chkNo = l.ptr.chkNo)
    (hoff : q.offset = l.ptr.offset) {w' : World}
    (hrun : ChkIndex.free env l.ptr 0 s.world = .ok ((), w')) :
    ChkIndex.free env q l.size s.world = .ok ((), w') <-> l.size % 8 = 0 := by
  have hu := h.stored.uncompressed hflag
  have hmem := mem_block hl
  have hpos := h.pos l hl
  rcases hsizes l hl with ⟨h1, h2, hunits⟩
  unfold Uncompressed.units at hunits
  have hptr := h.ptr l hl
  have hrun' := hrun
  rw [hptr] at hrun'
  have htotal := hu.free_totalUsed h.wf hmem hpos hrun'
  have hlen : l.block.len = l.ptr.size := rfl
  rw [ChkIndex.free_sized env q (by omega) h2, hno, hoff]
  constructor
  · intro hsized
    by_contra hne
    have hsize : (l.size / 8).toNat + 1 = l.ptr.size := by omega
    have hq : (⟨l.ptr.chkNo, l.ptr.offset, (l.size / 8).toNat⟩ : ChkPtr) =
        ⟨l.block.space, 2 * l.block.start, (l.size / 8).toNat⟩ := by
      have hoffset : l.ptr.offset = 2 * l.block.start := by
        rw [hptr, blockPtr_offset]
      rw [hoffset]
      rfl
    rw [hq] at hsized
    by_cases hz : (l.size / 8).toNat = 0
    · rw [hz, hu.free_empty h.wf hmem hpos] at hsized
      cases hsized
    · have hwf' := h.wf.cut hmem (n := (l.size / 8).toNat) (m := 1) (by omega)
      have htotal' := hu.free_totalUsed hwf' List.mem_cons_self (Nat.pos_of_ne_zero hz) hsized
      simp only at htotal'
      omega
  · intro hmul
    have hsize : (l.size / 8).toNat = l.ptr.size := by omega
    rw [hsize]
    exact hrun

/-- In every session with an uncompressed index, for every live block and any
pointer to its place, the size field kept or lost: where `free` of the block
returns, `free` with the size that was asked for leaves the same state exactly
when that size is a multiple of eight; with nonzero size classes `free`
returns. -/
theorem Reach.free_sized_iff {env : Env} {s : Session} (h : Reach env CarefulCall s)
    (hflag : s.world.index.compressed = false) {l : Live} (hl : l ∈ s.live) {q : ChkPtr}
    (hno : q.chkNo = l.ptr.chkNo) (hoff : q.offset = l.ptr.offset) :
    (forall w', ChkIndex.free env l.ptr 0 s.world = .ok ((), w') ->
      (ChkIndex.free env q l.size s.world = .ok ((), w') <-> l.size % 8 = 0)) ∧
    (env.ClassesNonzero -> exists w', ChkIndex.free env l.ptr 0 s.world = .ok ((), w')) := by
  rcases h.careful with ⟨c, L, hv⟩
  have hsizes := (h.mono fun _ _ hcall => hcall.safe).exactSizes
  refine ⟨fun w' hrun => hv.sized_mul_iff hsizes hflag hl hno hoff hrun, fun hcls => ?_⟩
  have hu := hv.stored.uncompressed hflag
  have hnone : forall e, ¬Content.PoolFault env.freeSize e := fun e he => he.2 hcls
  rcases (hu.free_ensures hv.wf (Valid.mem_block hl) (hv.pos l hl)).exists_ok hnone with
    ⟨_, w', hrun, -⟩
  rw [← hv.ptr l hl] at hrun
  exact ⟨w', hrun⟩

section Sample

/-- A block for 12 bytes takes two units; `free` with the size 12 gives one
back. -/
theorem sized_free_keeps_unit :
    (Call.after Env.plain [.alloc 12] ⟨World.boot, []⟩).live = [⟨⟨0, 10, 2⟩, 12⟩] ∧
    exists w', ChkIndex.free Env.plain ⟨0, 10, 2⟩ 0
        (Call.after Env.plain [.alloc 12] ⟨World.boot, []⟩).world = .ok ((), w') ∧
      ChkIndex.free Env.plain ⟨0, 10, 2⟩ 12
        (Call.after Env.plain [.alloc 12] ⟨World.boot, []⟩).world ≠ .ok ((), w') := by
  have hmeet : Call.AllMeet Env.plain CarefulCall [.alloc 12] ⟨World.boot, []⟩ := by
    decide +kernel
  have hreach := Reach.after (.start World.boot_fresh) hmeet
  have hlive : (Call.after Env.plain [.alloc 12] ⟨World.boot, []⟩).live =
      [⟨⟨0, 10, 2⟩, 12⟩] := by decide +kernel
  have hflag : (Call.after Env.plain [.alloc 12] ⟨World.boot, []⟩).world.index.compressed =
      false := by decide +kernel
  have hsizes := (hreach.mono fun _ _ hcall => hcall.safe).exactSizes
  rcases hreach.careful with ⟨c, L, hv⟩
  generalize Call.after Env.plain [.alloc 12] ⟨World.boot, []⟩ = s at *
  have hl : (⟨⟨0, 10, 2⟩, 12⟩ : Live) ∈ s.live := by
    rw [hlive]
    exact List.mem_singleton_self _
  have hu := hv.stored.uncompressed hflag
  rcases (hu.free_ensures hv.wf (Valid.mem_block hl) (hv.pos _ hl)).exists_ok
    (fun e he => he.2 Env.plain_classesNonzero) with ⟨_, w', hrun, -⟩
  rw [← hv.ptr _ hl] at hrun
  refine ⟨hlive, w', hrun, fun hsized => ?_⟩
  have hmul := (hv.sized_mul_iff hsizes hflag hl rfl rfl hrun).mp hsized
  exact absurd hmul (by decide)

/-- A block for 16 bytes, freed with its size through a pointer without one. -/
theorem Reach.free_sized_iff_sample :
    exists w', ChkIndex.free Env.plain ⟨0, 10, 2⟩ 0
        (Call.after Env.plain [.alloc 16] ⟨World.boot, []⟩).world = .ok ((), w') ∧
      (ChkIndex.free Env.plain ⟨0, 10, 0⟩ 16
        (Call.after Env.plain [.alloc 16] ⟨World.boot, []⟩).world = .ok ((), w') <->
        (16 : Int) % 8 = 0) := by
  have hok : (ChkIndex.free Env.plain ⟨0, 10, 2⟩ 0
      (Call.after Env.plain [.alloc 16] ⟨World.boot, []⟩).world).toOption.isSome = true := by
    decide +kernel
  cases hrun : ChkIndex.free Env.plain ⟨0, 10, 2⟩ 0
      (Call.after Env.plain [.alloc 16] ⟨World.boot, []⟩).world with
  | error e =>
      rw [hrun] at hok
      cases hok
  | ok uw =>
      rcases uw with ⟨⟨⟩, w'⟩
      exact ⟨w', rfl, (Reach.free_sized_iff (l := ⟨⟨0, 10, 2⟩, 16⟩) (q := ⟨0, 10, 0⟩)
        (.after (.start World.boot_fresh) (by decide +kernel)) (by decide +kernel)
        (by decide +kernel) rfl rfl).1 w' hrun⟩

end Sample

end ChunkMem
