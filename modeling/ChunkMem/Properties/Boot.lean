import ChunkMem.Index.Boot
import ChunkMem.Arena.Room
import ChunkMem.Properties.Classes
import ChunkMem.Properties.Endings
import ChunkMem.Properties.Strings

/-!
# The boot block stays where it is

Once `init_boot` has returned zero the block at the fixed distance from the base of
the first chunk is one of the program's blocks.  As long as it is not freed no other block
can lie there, and whatever moves the first chunk moves it along.
-/

namespace ChunkMem

open Foundation

/-- The block that `init_boot` reserves. -/
def bootBlock (n : Int) : Live :=
  ⟨⟨0, setChkOffset ChkIndex.bootOffset, Uncompressed.units n⟩, n⟩

/-- The bytes of the boot block after a call that writes them or not. -/
def Call.bootBits (n : Int) (m : Bits) : Call -> Bits
  | write p pos data => if p = (bootBlock n).ptr then m.writeBytes pos data else m
  | _ => m

/-- What a program may do with a boot block: it neither frees it nor destroys the index. -/
def BootCall (n : Int) (s : Session) (call : Call) : Prop :=
  CarefulCall s call ∧ call ≠ .free (bootBlock n).ptr ∧ call ≠ .destruct

instance (n : Int) (s : Session) (call : Call) : Decidable (BootCall n s call) :=
  inferInstanceAs (Decidable (_ ∧ _ ∧ _))

/-- The sessions after `init_boot` returned zero, and what the boot block holds: what it
held first, and what was written since. -/
inductive BootReach (env : Env) (n : Int) : Session -> Bits -> Prop where
  | start {s : Session} {w' : World} (h : Reach env CarefulCall s) (hn : n < 2 ^ 31 - 7)
      (hrun : ChkIndex.initBoot env n s.world = .ok (0, w')) :
      BootReach env n ⟨w', bootBlock n :: s.live⟩ (w'.target (bootBlock n).ptr)
  | step {s s' : Session} {m : Bits} {call : Call} {r : Result} (h : BootReach env n s m)
      (hcall : BootCall n s call) (hrun : call.perform env s = .ok (r, s')) :
      BootReach env n s' (call.bootBits n m)

/-!
## The first block
-/

theorem initBoot_zero {env : Env} {n : Int} {w w' : World}
    (hrun : ChkIndex.initBoot env n w = .ok (0, w')) :
    exists p, ChkIndex.alloc env n w = .ok (p, w') ∧ ¬p.IsNull ∧ p.chkNo = 0 ∧
      chkOffset p.offset = ChkIndex.bootOffset := by
  rcases Exec.ok_of_bind hrun with ⟨p, w₁, halloc, hrest⟩
  split at hrest
  · cases hrest
  · next hnull =>
      split at hrest
      · rcases Exec.ok_of_bind hrest with ⟨_, w₂, -, hcode⟩
        cases hcode
      · next hplace =>
          cases hrest
          exact ⟨p, halloc, hnull, not_ne_iff.mp fun hne => hplace (Or.inl hne),
            not_ne_iff.mp fun hne => hplace (Or.inr hne)⟩

namespace Valid

variable {env : Env} {s : Session} {c : Content} {L : Layout} {n : Int}

theorem alloc_units (h : Valid env s c L) (hn : n < 2 ^ 31 - 7) {p : ChkPtr} {w' : World}
    (hrun : ChkIndex.alloc env n s.world = .ok (p, w')) (hp : ¬p.IsNull) :
    p.size = Uncompressed.units n ∧ w'.index.compressed = false := by
  have hnull : chkNull.IsNull := rfl
  by_cases hpos : 0 < n
  · by_cases hsmall : n ≤ 4088
    · rcases (h.stored.alloc_ensures h.wf h.settled hpos hsmall).of_ok hrun with
        ⟨rfl, -⟩ | ⟨b, c', L', rfl, hb, h', -⟩
      · exact absurd hnull hp
      · exact ⟨hb, h'.flag⟩
    · rw [Stored.alloc_large (by omega) hn] at hrun
      cases hrun
      exact absurd hnull hp
  · rw [Stored.alloc_nonpos (by omega)] at hrun
    cases hrun

end Valid

theorem bootOffset_eq : ChkIndex.bootOffset = 40 := by decide

/-- `init_boot` that returned zero is an allocation of the boot block. -/
theorem initBoot_alloc {env : Env} {s : Session} (h : Reach env CarefulCall s) {n : Int}
    (hn : n < 2 ^ 31 - 7) {w' : World} (hrun : ChkIndex.initBoot env n s.world = .ok (0, w')) :
    Reach env CarefulCall ⟨w', bootBlock n :: s.live⟩ ∧ w'.index.compressed = false := by
  rcases initBoot_zero hrun with ⟨p, halloc, hnull, hno, hoff⟩
  rcases h.careful with ⟨c, L, hv⟩
  rcases hv.alloc_units hn halloc hnull with ⟨hsize, hflag⟩
  have hp : p = (bootBlock n).ptr := by
    rw [bootOffset_eq] at hoff
    cases p
    simp only [chkOffset] at hno hoff hsize
    simp only [bootBlock, bootOffset_eq, setChkOffset, ChkPtr.mk.injEq]
    omega
  have hcall : CarefulCall s (.alloc n) := ⟨hn, fun heq => by cases heq⟩
  have hcode : (Call.alloc n).run env s.world = .ok (.block p, w') :=
    (Exec.bind_of_ok halloc).trans rfl
  have hstep := h.step hcall (Call.perform_of_run hcode)
  rw [Call.holds_alloc, if_neg hnull, hp] at hstep
  exact ⟨hstep, hflag⟩

/-!
## Runs
-/

structure Booted (env : Env) (n : Int) (s : Session) (m : Bits) (c : Content) (L : Layout) :
    Prop where
  valid : Valid env s c L
  mem : bootBlock n ∈ s.live
  bits : forall j, j < 64 * (bootBlock n).ptr.size -> (c.body 0).bits (320 + j) = m j

namespace Booted

variable {env : Env} {n : Int} {s s' : Session} {m : Bits} {c : Content} {L : Layout}
variable {call : Call}

theorem mem_after (h : Booted env n s m c L) {r : Result} (hcall : BootCall n s call)
    (hrun : call.perform env s = .ok (r, s')) : bootBlock n ∈ s'.live := by
  rcases Call.perform_run hrun with ⟨w', -, rfl⟩
  have hmem := h.mem
  cases call with
  | alloc k =>
      cases r with
      | block p =>
          rw [Call.holds_alloc]
          split
          · exact hmem
          · exact List.mem_cons_of_mem _ hmem
      | code x => exact hmem
      | done => exact hmem
  | free p =>
      rw [Call.holds_free]
      split
      · exact hmem
      · rcases hcall.1.1 with ⟨l, hl, rfl⟩
        have hne : (bootBlock n).ptr ≠ l.ptr := fun heq => hcall.2.1 (heq ▸ rfl)
        exact (Live.mem_eraseP h.valid.nodup hl).mpr ⟨hmem, hne⟩
  | destruct => exact absurd rfl hcall.2.2
  | write p pos data => exact hmem
  | enlarge => exact hmem
  | compress k => exact hmem
  | uncompress => exact hmem
  | shrink => exact hmem

theorem bits_kept (h : Booted env n s m c L) {c' : Content}
    (hkeeps : Content.KeepsBits [(bootBlock n).block] c c') :
    forall j, j < 64 * (bootBlock n).ptr.size -> (c'.body 0).bits (320 + j) = m j := by
  intro j hj
  have hstart : (bootBlock n).block.start = 5 := by
    simp only [bootBlock, Live.block, bootOffset_eq, setChkOffset]
  have hlen : (bootBlock n).block.len = (bootBlock n).ptr.size := rfl
  have hself := Extent.covers_of (e := (bootBlock n).block) (u := (320 + j) / 64) (by omega)
    (by omega)
  rw [← h.bits j hj]
  refine hkeeps 0 ((320 + j) / 64) ?_ _ (by omega) (by omega)
  rw [Extent.cover_cons]
  exact Nat.lt_of_lt_of_le (hself ▸ Nat.one_pos) (Nat.le_add_right _ _)

theorem other (h : Booted env n s m c L) {r : Result} (hcall : BootCall n s call)
    (hrun : call.perform env s = .ok (r, s'))
    (hwrite : forall pos data, call ≠ .write (bootBlock n).ptr pos data) :
    exists c' L', Booted env n s' m c' L' := by
  rcases (h.valid.perform hcall.1.1 hcall.1.safe.2).of_ok hrun with ⟨c', L', hv', -, hkeeps⟩
  have hmem := h.mem_after hcall hrun
  exact ⟨c', L', hv', hmem, h.bits_kept (hkeeps _ h.mem hmem hwrite)⟩

theorem write (h : Booted env n s m c L) {r : Result} {pos : Nat} {data : List Byte}
    (hcall : BootCall n s (.write (bootBlock n).ptr pos data))
    (hrun : (Call.write (bootBlock n).ptr pos data).perform env s = .ok (r, s')) :
    exists c' L', Booted env n s' (m.writeBytes pos data) c' L' := by
  rcases hcall.1.1 with ⟨hflag, l, hl, hptr, hle⟩
  rw [← hptr] at hrun hle
  rcases h.valid.writeBlock_ok hflag hl hle with ⟨w', hw, h'⟩
  have hcode : (Call.write l.ptr pos data).run env s.world = .ok (.done, w') :=
    (Exec.bind_of_ok hw).trans rfl
  cases (Call.perform_of_run hcode).symm.trans hrun
  have hwf' := Content.write_wf h.valid.wf (Valid.mem_block hl) hle
  refine ⟨_, L, ⟨Or.inl h', h.valid.settled, hwf', h.valid.ptr, h.valid.pos, h.valid.size⟩, h.mem,
    fun j hj => ?_⟩
  have hspace : l.block.space = 0 := congrArg ChkPtr.chkNo hptr
  have hstart : l.block.start = 5 := by
    unfold Live.block
    rw [hptr]
    simp only [bootBlock, bootOffset_eq, setChkOffset]
  unfold Content.write
  rw [hspace, hstart, Content.setBits_bits, if_pos rfl]
  by_cases hin : 8 * pos ≤ j ∧ j < 8 * pos + 8 * data.length
  · rw [Bits.writeBytes_inside (by omega) (by omega), Bits.writeBytes_inside (by omega) (by omega)]
    congr 1
    omega
  · rw [Bits.writeBytes_outside (by omega), Bits.writeBytes_outside (by omega)]
    exact h.bits j hj

theorem step (h : Booted env n s m c L) {r : Result} (hcall : BootCall n s call)
    (hrun : call.perform env s = .ok (r, s')) :
    exists c' L', Booted env n s' (call.bootBits n m) c' L' := by
  by_cases hwrite : exists pos data, call = .write (bootBlock n).ptr pos data
  · rcases hwrite with ⟨pos, data, rfl⟩
    have hbits : (Call.write (bootBlock n).ptr pos data).bootBits n m = m.writeBytes pos data :=
      if_pos rfl
    rw [hbits]
    exact h.write hcall hrun
  · have hbits : call.bootBits n m = m := by
      cases call with
      | write p pos data =>
          refine if_neg fun heq => hwrite ⟨pos, data, ?_⟩
          rw [heq]
      | alloc k => rfl
      | free p => rfl
      | destruct => rfl
      | enlarge => rfl
      | compress k => rfl
      | uncompress => rfl
      | shrink => rfl
    rw [hbits]
    exact h.other hcall hrun fun pos data heq => hwrite ⟨pos, data, heq⟩

end Booted

theorem BootReach.booted {env : Env} {n : Int} {s : Session} {m : Bits}
    (h : BootReach env n s m) :
    Reach env CarefulCall s ∧ exists c L, Booted env n s m c L := by
  induction h with
  | @start s w' h hn hrun =>
      rcases initBoot_alloc h hn hrun with ⟨hreach, hflag⟩
      rcases hreach.careful with ⟨c, L, hv⟩
      refine ⟨hreach, c, L, hv, List.mem_cons_self, fun j hj => ?_⟩
      have hbit := hv.target_bit hflag (l := bootBlock n) List.mem_cons_self hj
      have hoff : 32 * (bootBlock n).ptr.offset = 320 := by
        simp only [bootBlock, bootOffset_eq, setChkOffset]
      rw [hoff] at hbit
      exact hbit.symm
  | step _ hcall hrun ih =>
      rcases ih with ⟨hreach, c, L, hb⟩
      exact ⟨hreach.step hcall.1 hrun, hb.step hcall hrun⟩

/-!
## Further boot blocks
-/

theorem initBoot_failed {env : Env} {k r : Int} {w w' : World} (hr : r ≠ 0)
    (hrun : ChkIndex.initBoot env k w = .ok (r, w')) :
    r < 0 ∧ exists p w₁, ChkIndex.alloc env k w = .ok (p, w₁) ∧
      if p.IsNull then w' = w₁ else ChkIndex.free env p 0 w₁ = .ok ((), w') := by
  rcases Exec.ok_of_bind hrun with ⟨p, w₁, halloc, hrest⟩
  split at hrest
  · next hnull =>
      cases hrest
      exact ⟨by decide, p, _, halloc, by rw [if_pos hnull]⟩
  · next hnull =>
      split at hrest
      · rcases Exec.ok_of_bind hrest with ⟨u, w₂, hfree, hcode⟩
        cases hcode
        exact ⟨by decide, p, w₁, halloc, by rw [if_neg hnull]; exact hfree⟩
      · cases hrest
        exact absurd rfl hr

/-- `init_boot` on a compressed index goes on as it would on the uncompressed one. -/
theorem Reopened.initBoot {env : Env} {w w' : World} {c : Content} {L : Layout}
    (h : Reopened env w w' c L) {k : Int} (hpos : 1 ≤ k) (hk : k ≤ 4088) :
    ChkIndex.initBoot env k w = ChkIndex.initBoot env k w' := by
  have halloc := h.alloc (show 0 < k by omega) hk
  unfold ChkIndex.initBoot
  cases hrun : ChkIndex.alloc env k w' with
  | ok pw => rw [Exec.bind_of_ok (halloc.trans hrun), Exec.bind_of_ok hrun]
  | error e => rw [Exec.bind_of_error (halloc.trans hrun), Exec.bind_of_error hrun]

theorem Open.initBoot_ends {env : Env} {s : Session} (h : Open env s)
    (hz : s.world.index.chkNum ≠ 0) {k : Int} (hpos : 1 ≤ k) (hk : k ≤ 4088)
    (hends : s.world.CycleEnds env k) :
    Exec.Ensures (ChkIndex.initBoot env k s.world) (fun _ _ => True) (Tolerated env) := by
  have halloc : Exec.Ensures (ChkIndex.alloc env k s.world) (fun _ _ => True)
      (Tolerated env) := by
    rcases h with ⟨hflag, c, L, hv⟩
    exact (hv.stored.uncompressed hflag).alloc_ends hv.wf hv.settled (by omega) hk hends.1
  unfold ChkIndex.initBoot
  refine Exec.Ensures.bind halloc.run ?_
  rintro p w₁ ⟨hrun, -⟩
  split
  · trivial
  · next hnull =>
      split
      · have hprog : Prog.alloc env k s = .ok (p, ⟨w₁, ⟨p, k⟩ :: s.live⟩) := by
          unfold Prog.alloc
          rw [hrun]
          simp only [Call.holds_alloc, if_neg hnull]
        have hpost := (h.alloc_ensures (by omega) (by omega)).of_ok hprog
        have hfree := h.freeEnds_after hz (by omega) hk hends hrun hnull
        rcases hpost.isOpen.free_ends (l := ⟨p, k⟩) List.mem_cons_self hfree with ⟨s', hs', -⟩
        cases hw : ChkIndex.free env p 0 w₁ with
        | error e =>
            unfold Prog.free at hs'
            simp only [hw] at hs'
            cases hs'
        | ok uw =>
            rw [Exec.bind_of_ok hw]
            trivial
      · trivial

theorem Valid.initBoot_ends {env : Env} {s : Session} {c : Content} {L : Layout}
    (h : Valid env s c L) (hz : c.num ≠ 0) {k : Int} (hpos : 1 ≤ k) (hk : k ≤ 4088)
    (hends : forall u, ChkIndex.uncompress env s.world = .ok (0, u) -> u.CycleEnds env k) :
    Exec.Ensures (ChkIndex.initBoot env k s.world) (fun _ _ => True) (Tolerated env) := by
  rcases h.stored with hu | hc
  · exact Open.initBoot_ends ⟨hu.flag, c, L, h⟩ (by rw [hu.num]; exact hz) hpos hk
      (hends _ hu.tracks.uncompress_ok)
  · rcases hc.reopen_cases h.wf.tiling with ⟨w₁, hopen⟩ | ⟨r, w₁, hr, -, -, hrun⟩ | ⟨e, he, hrun⟩
    · rw [hopen.initBoot hpos hk]
      have hv : Valid env ⟨w₁, s.live⟩ c (L.restored env c) :=
        ⟨Or.inl hopen.rep, L.restored_settled c env hc.pos, h.wf, h.ptr, h.pos, h.size⟩
      exact Open.initBoot_ends (s := ⟨w₁, s.live⟩) ⟨hopen.rep.flag, c, _, hv⟩
        (by simp only [hopen.rep.num]; exact hz) hpos hk (hends _ hopen.run)
    · have hnull : chkNull.IsNull := rfl
      unfold ChkIndex.initBoot
      rw [Exec.bind_of_ok (Stored.alloc_failed (show 0 < k by omega) hk hr hrun), if_pos hnull]
      trivial
    · unfold ChkIndex.initBoot
      rw [Exec.bind_of_error (Stored.alloc_error (show 0 < k by omega) hk hrun)]
      exact he

theorem Open.initBoot_failed {env : Env} {s : Session} (h : Open env s) {k r : Int} {w' : World}
    (hpos : 1 ≤ k) (hk : k ≤ 4088) (hr : r ≠ 0)
    (hrun : ChkIndex.initBoot env k s.world = .ok (r, w')) :
    forall l, l ∈ s.live -> World.KeepsBlock s.world w' l.ptr := by
  intro l hl
  rcases ChunkMem.initBoot_failed hr hrun with ⟨-, p, w₁, halloc, hrest⟩
  have hprog : Prog.alloc env k s =
      .ok (p, ⟨w₁, (Call.alloc k).holds s.live w₁ (.block p)⟩) := by
    unfold Prog.alloc
    rw [halloc]
  have hpost := (h.alloc_ensures (by omega) (by omega)).of_ok hprog
  have hkept := hpost.kept l hl
  split at hrest
  · next hnull => exact hrest ▸ hkept
  · next hnull =>
      rcases hpost.outcome with ⟨hcon, -⟩ | ⟨-, hlive, -, -, hne⟩
      · exact absurd hcon hnull
      · have hlive' : (Call.alloc k).holds s.live w₁ (.block p) = ⟨p, k⟩ :: s.live := hlive
        rw [hlive'] at hpost
        have hmem : (⟨p, k⟩ : Live) ∈ (⟨p, k⟩ :: s.live : List Live) := List.mem_cons_self
        have hin : l ∈ (⟨p, k⟩ :: s.live : List Live) := List.mem_cons_of_mem _ hl
        have hrelease : Prog.free env p ⟨w₁, ⟨p, k⟩ :: s.live⟩ =
            .ok ((), ⟨w', (Call.free p).holds (⟨p, k⟩ :: s.live) w' .done⟩) := by
          unfold Prog.free
          rw [hrest]
        have hfree := (hpost.isOpen.free_ensures hmem).of_ok hrelease
        have hkept' := hfree.kept l ((hfree.mem_iff hpost.isOpen hmem).mpr ⟨hin, hne l hl⟩)
        exact fun j hj => (hkept' j hj).trans (hkept j hj)

namespace BootReach

variable {env : Env} {n : Int} {s : Session} {m : Bits}

theorem initBoot_ne_zero (h : BootReach env n s m) {k r : Int} {w' : World}
    (hk : k < 2 ^ 31 - 7) (hrun : ChkIndex.initBoot env k s.world = .ok (r, w')) : r ≠ 0 := by
  rintro rfl
  rcases h.booted with ⟨hreach, c, L, hb⟩
  rcases (initBoot_alloc hreach hk hrun).1.careful with ⟨c', L', hv⟩
  have hone := hv.wf.tiling.cover_le_one 0 5
  rw [List.map_cons, Extent.cover_cons] at hone
  have hlen : 0 < (bootBlock k).block.len := hv.pos _ List.mem_cons_self
  have hlen' : 0 < (bootBlock n).block.len := hv.pos _ (List.mem_cons_of_mem _ hb.mem)
  have hstart : forall i, (bootBlock i).block.start = 5 := by
    intro i
    simp only [bootBlock, Live.block, bootOffset_eq, setChkOffset]
  have hnew := Extent.covers_of (e := (bootBlock k).block) (u := 5) (by rw [hstart])
    (by rw [hstart]; omega)
  have hold := Extent.covers_of (e := (bootBlock n).block) (u := 5) (by rw [hstart])
    (by rw [hstart]; omega)
  have hle := Extent.covers_le_cover (Valid.mem_block hb.mem) (bootBlock n).block.space 5
  have hspace : forall i, (bootBlock i).block.space = 0 := fun _ => rfl
  rw [hspace] at hnew hold hle
  omega

/-- A further `init_boot` is an allocation, and a release where it got a block. -/
theorem initBoot_step (h : BootReach env n s m) {k r : Int} {w' : World}
    (hk : k < 2 ^ 31 - 7) (hr : r ≠ 0)
    (hrun : ChkIndex.initBoot env k s.world = .ok (r, w')) :
    BootReach env n ⟨w', s.live⟩ m := by
  rcases ChunkMem.initBoot_failed hr hrun with ⟨-, p, w₁, halloc, hrest⟩
  have hcode : (Call.alloc k).run env s.world = .ok (.block p, w₁) :=
    (Exec.bind_of_ok halloc).trans rfl
  have hcall : BootCall n s (.alloc k) := by
    refine ⟨⟨hk, ?_⟩, ?_, ?_⟩ <;>
    · intro heq
      cases heq
  have hstep := h.step hcall (Call.perform_of_run hcode)
  rw [Call.holds_alloc] at hstep
  split at hrest
  · next hnull =>
      rw [if_pos hnull] at hstep
      exact hrest ▸ hstep
  · next hnull =>
      rw [if_neg hnull] at hstep
      rcases hstep.booted with ⟨-, c, L, hb⟩
      rcases h.booted with ⟨hreach, c₀, L₀, hb₀⟩
      have hflag := (hb₀.valid.alloc_units hk halloc hnull).2
      have hu := hb.valid.stored.uncompressed hflag
      have hmem : (⟨p, k⟩ : Live) ∈ (⟨p, k⟩ :: s.live : List Live) := List.mem_cons_self
      have hne : p ≠ (bootBlock n).ptr := by
        have hnodup := hb.valid.nodup
        rw [List.map_cons, List.nodup_cons] at hnodup
        rintro rfl
        exact hnodup.1 (List.mem_map.mpr ⟨bootBlock n, hb₀.mem, rfl⟩)
      have hclosed : w'.index.compressed = false := by
        have hfree := hu.free_ensures hb.valid.wf (Valid.mem_block hmem) (hb.valid.pos _ hmem)
        rw [← hb.valid.ptr _ hmem] at hfree
        rcases hfree.of_ok hrest with ⟨c', -, h', -⟩
        exact h'.flag
      have hcode' : (Call.free p).run env w₁ = .ok (.done, w') :=
        (Exec.bind_of_ok hrest).trans rfl
      have hrelease : BootCall n ⟨w₁, ⟨p, k⟩ :: s.live⟩ (.free p) := by
        refine ⟨⟨⟨_, hmem, rfl⟩, fun heq => by cases heq⟩, ?_, fun heq => by cases heq⟩
        intro heq
        cases heq
        exact hne rfl
      have hstep' := hstep.step hrelease (Call.perform_of_run hcode')
      rw [Call.holds_free, if_neg (by rw [hclosed]; decide),
        List.eraseP_cons_of_pos (by simp)] at hstep'
      exact hstep'

/-- `uncompress` that succeeded leaves the blocks with their contents. -/
theorem uncompressed (h : BootReach env n s m) {u : World}
    (hrun : ChkIndex.uncompress env s.world = .ok (0, u)) :
    exists c L, Booted env n ⟨u, s.live⟩ m c L ∧ u.index.compressed = false := by
  rcases h.booted with ⟨-, c, L, hb⟩
  have hv := hb.valid
  rcases (hv.stored.uncompress_ensures hv.wf hv.settled).of_ok hrun with
    ⟨⟨L', h', hset', -⟩, hcode⟩
  have hflag := (hcode.resolve_right fun hcon => hcon.1 rfl).2
  exact ⟨c, L', ⟨⟨h', hset', hv.wf, hv.ptr, hv.pos, hv.size⟩, hb.mem, hb.bits⟩, hflag⟩

theorem initBoot_eq (h : BootReach env n s m) {u : World}
    (hrun : ChkIndex.uncompress env s.world = .ok (0, u)) {k : Int} (hpos : 1 ≤ k)
    (hk : k ≤ 4088) : ChkIndex.initBoot env k s.world = ChkIndex.initBoot env k u := by
  rcases h.booted with ⟨-, c, L, hb⟩
  rcases hb.valid.stored with hu | hc
  · cases hrun.symm.trans hu.tracks.uncompress_ok
    rfl
  · rcases hc.reopen_cases hb.valid.wf.tiling with ⟨w₁, hopen⟩ | ⟨r, w₁, hr, -, -, hfail⟩ |
      ⟨e, -, hfail⟩
    · cases hrun.symm.trans hopen.run
      exact hopen.initBoot hpos hk
    · cases hrun.symm.trans hfail
      exact absurd rfl hr
    · cases hrun.symm.trans hfail

theorem bootAddr_ok (h : BootReach env n s m) {u : World}
    (hrun : ChkIndex.uncompress env s.world = .ok (0, u)) :
    ChkIndex.bootAddr env s.world = .ok (u.addrOf (bootBlock n).ptr, u) := by
  rcases h.uncompressed hrun with ⟨c, L, hb, hflag⟩
  have hu := hb.valid.stored.uncompressed hflag
  have hbound : 0 < c.num :=
    (hb.valid.wf.tiling.block_bound (Valid.mem_block hb.mem) (hb.valid.pos _ hb.mem)).1
  have hnum : u.index.chkNum ≠ 0 := by
    rw [hu.num]
    exact Nat.ne_of_gt hbound
  have haddr : u.addrOf (bootBlock n).ptr = (u.index.chkAddr 0).add ChkIndex.bootOffset := by
    unfold World.addrOf
    simp only [bootBlock, bootOffset_eq, setChkOffset, chkOffset]
  unfold ChkIndex.bootAddr
  rw [Exec.bind_of_ok hrun, if_neg (by decide), Exec.bind_of_ok (getIndex_apply u),
    if_neg hnum, Exec.bind_of_ok (hu.readChkAddr_ok hbound), haddr]
  rfl

end BootReach

theorem Reach.initBoot_first {env : Env} {s : Session} (h : Reach env CarefulCall s)
    (hok : env.AllOk) (hflag : s.world.index.compressed = false)
    (hz : s.world.index.chkNum = 0) {n : Int} (hpos : 1 ≤ n) (hn : n ≤ 4088) :
    exists w', ChkIndex.initBoot env n s.world = .ok (0, w') := by
  rcases h.careful with ⟨c, L, hv⟩
  have hu := hv.stored.uncompressed hflag
  have hnum : c.num = 0 := hu.num.symm.trans hz
  have hlen := Uncompressed.units_bound (show 0 < n by omega) hn
  have hcontent : exists c', Content.alloc env.freeSize (128 * L.cap (c.num - 1))
      (Uncompressed.units n) c = .ok (blockPtr ⟨0, 5, Uncompressed.units n⟩, c') :=
    Content.alloc_first_place env.freeSize hnum hlen.2
  rcases hcontent with ⟨c', hcontent⟩
  have hensures := hu.alloc_carried hv.wf hv.settled (show 0 < n by omega) hn
  have halloc : exists w', ChkIndex.alloc env n s.world =
      .ok (blockPtr ⟨0, 5, Uncompressed.units n⟩, w') := by
    cases hrun : ChkIndex.alloc env n s.world with
    | error e =>
        rw [hrun] at hensures
        rcases hensures with htol | hcon
        · exact absurd hok htol.2
        · rw [hcontent] at hcon
          cases hcon
    | ok pw =>
        rw [hrun] at hensures
        rcases hensures with ⟨hne, -⟩ | ⟨c₁, L₁, hout, -⟩ | ⟨-, hfail, -⟩
        · exact absurd hnum hne
        · rcases pw with ⟨p, w'⟩
          have hp := hcontent.symm.trans hout
          simp only [Except.ok.injEq, Prod.mk.injEq] at hp
          exact ⟨w', by rw [hp.1]⟩
        · exact absurd hok hfail
  rcases halloc with ⟨w', halloc⟩
  have hplace : ¬((blockPtr ⟨0, 5, Uncompressed.units n⟩).chkNo ≠ 0 ∨
      chkOffset (blockPtr ⟨0, 5, Uncompressed.units n⟩).offset ≠ ChkIndex.bootOffset) := by
    rw [bootOffset_eq, blockPtr_offset]
    simp [blockPtr, chkOffset]
  have hnull : ¬(blockPtr ⟨0, 5, Uncompressed.units n⟩).IsNull :=
    Content.blockPtr_not_null (show 0 < 2047 by decide)
  refine ⟨w', ?_⟩
  unfold ChkIndex.initBoot
  rw [Exec.bind_of_ok halloc, if_neg hnull, if_neg hplace]
  rfl

/-- The boot block is found at its place with the bytes last written to it, and a further
`init_boot` that returns gives a negative value and leaves all blocks alone; it returns, but
for assertions behind a failed system call, when it hands over no units that cannot be cut.
The first `init_boot` of an index always succeeds. -/
theorem BootReach.stable {env : Env} (n : Int) :
    (forall s m, BootReach env n s m ->
      bootBlock n ∈ s.live ∧
      (env.AllOk -> exists u, ChkIndex.uncompress env s.world = .ok (0, u)) ∧
      (forall u, ChkIndex.uncompress env s.world = .ok (0, u) ->
        ChkIndex.bootAddr env s.world = .ok (u.addrOf (bootBlock n).ptr, u) ∧
        forall j, j < 64 * (bootBlock n).ptr.size -> u.target (bootBlock n).ptr j = m j) ∧
      forall k : Int, 1 ≤ k -> k ≤ 4088 ->
        (forall r w', ChkIndex.initBoot env k s.world = .ok (r, w') ->
          r < 0 ∧ BootReach env n ⟨w', s.live⟩ m ∧
            forall u, ChkIndex.uncompress env s.world = .ok (0, u) ->
              forall l, l ∈ s.live -> World.KeepsBlock u w' l.ptr) ∧
        ((forall u, ChkIndex.uncompress env s.world = .ok (0, u) -> u.CycleEnds env k) ->
          Exec.Ensures (ChkIndex.initBoot env k s.world) (fun r _ => r < 0) (Tolerated env))) ∧
    forall s, Reach env CarefulCall s -> env.AllOk -> s.world.index.compressed = false ->
      s.world.index.chkNum = 0 -> 1 ≤ n -> n ≤ 4088 ->
      exists w', ChkIndex.initBoot env n s.world = .ok (0, w') := by
  refine ⟨fun s m h => ?_, fun s h hok hflag hz hpos hn => h.initBoot_first hok hflag hz hpos hn⟩
  have hbooted := h.booted
  rcases hbooted with ⟨-, c, L, hb⟩
  have hv := hb.valid
  refine ⟨hb.mem, fun hok => ?_, fun u hrun => ⟨h.bootAddr_ok hrun, fun j hj => ?_⟩,
    fun k hpos hk => ⟨fun r w' hrun => ?_, fun hends => ?_⟩⟩
  · rcases (hv.stored.uncompress_ensures hv.wf hv.settled).exists_ok fun e he => he.2 hok with
      ⟨r, u, hrun, -, ⟨rfl, -⟩ | ⟨-, hfail⟩⟩
    · exact ⟨u, hrun⟩
    · exact absurd hok hfail
  · rcases h.uncompressed hrun with ⟨c', L', hb', hflag⟩
    have hbit := hb'.valid.target_bit hflag hb'.mem hj
    have hoff : 32 * (bootBlock n).ptr.offset = 320 := by
      simp only [bootBlock, bootOffset_eq, setChkOffset]
    rw [hoff] at hbit
    exact hbit.trans (hb'.bits j hj)
  · have hr := h.initBoot_ne_zero (by omega) hrun
    refine ⟨(initBoot_failed hr hrun).1, h.initBoot_step (by omega) hr hrun, fun u hu => ?_⟩
    rcases h.uncompressed hu with ⟨c', L', hb', hflag⟩
    have hopen : Open env ⟨u, s.live⟩ := ⟨hflag, c', L', hb'.valid⟩
    rw [h.initBoot_eq hu hpos hk] at hrun
    exact hopen.initBoot_failed hpos hk hr hrun
  · have hbound := hv.wf.tiling.block_bound (Valid.mem_block hb.mem) (hv.pos _ hb.mem)
    refine (hv.initBoot_ends (by omega) hpos hk hends).run.mono (fun r w' hq => ?_) fun _ he => he
    exact (initBoot_failed (h.initBoot_ne_zero (by omega) hq.1) hq.1).1

theorem BootReach.performAll {env : Env} {n : Int} {calls : List Call} :
    forall {s t : Session} {rs : List Result} {m : Bits}, BootReach env n s m ->
      Call.AllMeet env (BootCall n) calls s -> Call.performAll env calls s = .ok (rs, t) ->
      BootReach env n t (calls.foldl (fun m call => call.bootBits n m) m) := by
  induction calls with
  | nil =>
      intro s t rs m h _ hrun
      cases hrun
      exact h
  | cons call rest ih =>
      intro s t rs m h hmeet hrun
      rw [Call.allMeet_cons] at hmeet
      unfold Call.performAll at hrun
      cases hcall : call.perform env s with
      | error e =>
          rw [hcall] at hrun
          cases hrun
      | ok rs' =>
          rw [hcall] at hrun hmeet
          cases hrest : Call.performAll env rest rs'.2 with
          | error e =>
              simp only [hrest] at hrun
              cases hrun
          | ok rt =>
              simp only [hrest] at hrun
              cases hrun
              exact ih (h.step hmeet.1 hcall) hmeet.2 hrest

theorem BootReach.after {env : Env} {n : Int} {calls : List Call} {s : Session} {m : Bits}
    (h : BootReach env n s m) (hmeet : Call.AllMeet env (BootCall n) calls s) :
    exists m', BootReach env n (Call.after env calls s) m' := by
  unfold Call.after
  cases hall : Call.performAll env calls s with
  | error e => exact ⟨m, h⟩
  | ok rt => exact ⟨_, h.performAll hmeet hall⟩

section Sample

/-- The machine state after `init_boot`. -/
def World.booted (env : Env) (n : Int) (w : World) : World :=
  match ChkIndex.initBoot env n w with
  | .ok (_, w') => w'
  | .error _ => w

/-- Three bytes are written to a boot block of 8 bytes, in an index without size classes. -/
def bareBoot : Session :=
  Call.after Env.unset [.write (bootBlock 8).ptr 0 [1, 2, 3]]
    ⟨World.booted Env.unset 8 World.boot, [bootBlock 8]⟩

theorem Env.unset_allOk : Env.unset.AllOk := fun _ => rfl

theorem World.booted_reach {env : Env} (hok : env.AllOk) {n : Int} (hpos : 1 ≤ n)
    (hn : n ≤ 4088) :
    exists m, BootReach env n ⟨World.booted env n World.boot, [bootBlock n]⟩ m := by
  have hfresh : Reach env CarefulCall ⟨World.boot, []⟩ := .start World.boot_fresh
  rcases hfresh.initBoot_first hok rfl rfl hpos hn with ⟨w', hrun⟩
  have hboot : World.booted env n World.boot = w' := by
    unfold World.booted
    rw [hrun]
  rw [hboot]
  exact ⟨_, .start hfresh (by omega) hrun⟩

/-- The next `init_boot` finds the block in its place, and so does one for a longer block. -/
theorem BootReach.stable_sample :
    exists m, BootReach Env.unset 8 bareBoot m ∧
      exists r₁ w₁ r₂ w₂, ChkIndex.initBoot Env.unset 8 bareBoot.world = .ok (r₁, w₁) ∧
        ChkIndex.initBoot Env.unset 4088 w₁ = .ok (r₂, w₂) ∧ r₁ < 0 ∧ r₂ < 0 ∧
        BootReach Env.unset 8 ⟨w₂, bareBoot.live⟩ m ∧
        exists u, ChkIndex.bootAddr Env.unset w₂ = .ok (u.addrOf (bootBlock 8).ptr, u) := by
  have hreach : exists m, BootReach Env.unset 8 bareBoot m := by
    rcases World.booted_reach Env.unset_allOk (n := 8) (by decide) (by decide) with ⟨m, hboot⟩
    exact hboot.after (by decide +kernel)
  rcases hreach with ⟨m, hreach⟩
  have hopen : bareBoot.world.index.compressed = false := by decide +kernel
  have hopen' : (World.booted Env.unset 8 bareBoot.world).index.compressed = false := by
    decide +kernel
  have hcuts : bareBoot.world.CycleEnds Env.unset 8 :=
    ⟨Or.inr (Or.inr (by decide +kernel)), fun _ => by decide +kernel⟩
  have hcuts' : (World.booted Env.unset 8 bareBoot.world).CycleEnds Env.unset 4088 :=
    ⟨Or.inr (Or.inr (by decide +kernel)), fun _ => by decide +kernel⟩
  generalize bareBoot = s at hreach hopen hopen' hcuts hcuts' ⊢
  -- The state is not compressed, so it is the state that `init_boot` sees.
  have hnext : forall {t : Session} {k : Int}, BootReach Env.unset 8 t m ->
      t.world.index.compressed = false -> 1 ≤ k -> k ≤ 4088 -> t.world.CycleEnds Env.unset k ->
      exists r, ChkIndex.initBoot Env.unset k t.world =
        .ok (r, World.booted Env.unset k t.world) ∧ r < 0 ∧
          BootReach Env.unset 8 ⟨World.booted Env.unset k t.world, t.live⟩ m := by
    intro t k ht hflag hpos hk hends
    rcases ((BootReach.stable 8).1 t m ht).2.2.2 k hpos hk with ⟨hcode, hends'⟩
    have hsame : forall u, ChkIndex.uncompress Env.unset t.world = .ok (0, u) ->
        u.CycleEnds Env.unset k := by
      intro u hu
      cases (ChkIndex.uncompress_open hflag).symm.trans hu
      exact hends
    rcases (hends' hsame).exists_ok (fun e he => he.2 Env.unset_allOk) with ⟨r, w', hrun, hr⟩
    have hboot : World.booted Env.unset k t.world = w' := by
      unfold World.booted
      rw [hrun]
    exact ⟨r, hboot ▸ hrun, hr, hboot ▸ (hcode r w' hrun).2.1⟩
  rcases hnext hreach hopen (by decide) (by decide) hcuts with ⟨r₁, hrun₁, hr₁, hreach₁⟩
  rcases hnext hreach₁ hopen' (by decide) (by decide) hcuts' with ⟨r₂, hrun₂, hr₂, hreach₂⟩
  rcases (BootReach.stable 8).1 _ m hreach₂ with ⟨-, hunc, haddr, -⟩
  rcases hunc Env.unset_allOk with ⟨u, hu⟩
  exact ⟨m, hreach, r₁, _, r₂, _, hrun₁, hrun₂, hr₁, hr₂, hreach₂, u, (haddr u hu).1⟩

/-- The first size class is preset to 127 bytes and stored as zero. -/
def Env.wide : Env := Env.plain.preset ![127, 248, 816]

theorem Env.wide_allOk : Env.wide.AllOk := fun _ => rfl

/-- The first chunk holds the boot block and two others of full length. -/
def wideBoot : Session :=
  Call.after Env.wide [.alloc 4088, .alloc 4088]
    ⟨World.booted Env.wide 4088 World.boot, [bootBlock 4088]⟩

/-- With a size class stored as zero, `init_boot` hands the rest of the chunk to the pool
and trips an assertion there. -/
theorem BootReach.init_aborts :
    exists s m, BootReach Env.wide 4088 s m ∧
      ChkIndex.initBoot Env.wide 4088 s.world = .error .assertion := by
  have hreach : exists m, BootReach Env.wide 4088 wideBoot m := by
    rcases World.booted_reach Env.wide_allOk (n := 4088) (by decide) (by decide) with ⟨m, hboot⟩
    refine hboot.after (.of_forall fun call hmem s' => ?_)
    have hcall : call = .alloc 4088 := by simpa using hmem
    subst hcall
    have hsize : (4088 : Int) < 2 ^ 31 - 7 := by decide
    exact ⟨⟨hsize, nofun⟩, nofun, nofun⟩
  rcases hreach with ⟨m, hreach⟩
  have hfault : Call.faultOf Env.wide [.alloc 4088] wideBoot = some .assertion := by
    decide +kernel
  refine ⟨wideBoot, m, hreach, ?_⟩
  generalize wideBoot = s at hfault ⊢
  unfold ChkIndex.initBoot
  cases halloc : ChkIndex.alloc Env.wide 4088 s.world with
  | error e =>
      have hcode : (Call.alloc 4088).run Env.wide s.world = .error e := Exec.bind_of_error halloc
      unfold Call.faultOf Call.performAll Call.perform at hfault
      rw [hcode] at hfault
      cases hfault
      rw [Exec.bind_of_error halloc]
  | ok pw =>
      have hcode : (Call.alloc 4088).run Env.wide s.world = .ok (.block pw.1, pw.2) :=
        (Exec.bind_of_ok halloc).trans rfl
      have hall := Call.perform_of_run hcode
      unfold Call.faultOf Call.performAll at hfault
      rw [hall] at hfault
      cases hfault

end Sample

end ChunkMem
