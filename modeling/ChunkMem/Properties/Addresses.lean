import ChunkMem.Properties.Strings
import ChunkMem.Session.Addresses
import ChunkMem.Session.Areas

/-!
# Addresses stay good

A program keeps the address of a block while it allocates, frees and writes other blocks:
the chunk pointer still designates that address, and the bytes behind it are the same.
-/

namespace ChunkMem

open Foundation

def Call.LeavesBlock (p : ChkPtr) (call : Call) : Prop :=
  call ≠ .free p ∧ forall pos data, call ≠ .write p pos data

namespace Open

variable {env : Env} {s s' : Session} {l : Live} {call : Call} {r : Result}

theorem spares_block (h : Open env s) (hl : l ∈ s.live) (hstill : call.Still)
    (hcall : call.Allowed s) (hleaves : call.LeavesBlock l.ptr) :
    call.Spares fun k j => l.Covers k j := by
  have hother : forall l', l' ∈ s.live -> l'.ptr ≠ l.ptr -> forall k j, l.Covers k j ->
      ¬(k = l'.ptr.chkNo ∧ 32 * l'.ptr.offset ≤ j ∧
        j < 32 * l'.ptr.offset + 64 * l'.ptr.size) := by
    rintro l' hl' hne k j ⟨rfl, hlo, hhi⟩ ⟨hno, hin⟩
    exact h.apart hl hl' hne hno.symm ⟨hlo, hhi⟩ hin
  cases call with
  | alloc n => trivial
  | free p =>
      rcases hcall with ⟨l', hl', rfl⟩
      exact hother l' hl' fun heq => hleaves.1 (by rw [heq])
  | write p pos data =>
      rcases hcall with ⟨-, l', hl', rfl, hle⟩
      have hne : l'.ptr ≠ l.ptr := fun heq => hleaves.2 pos data (by rw [heq])
      rintro k j hcov ⟨hno, hlo, hhi⟩
      exact hother l' hl' hne k j hcov ⟨hno, by omega, by omega⟩
  | enlarge => exact hstill.elim
  | compress percent => exact hstill.elim
  | uncompress => exact hstill.elim
  | shrink => exact hstill.elim
  | destruct => exact hstill.elim

theorem block_stays (h : Open env s) (hl : l ∈ s.live) (hstill : call.Still)
    (hcall : CarefulCall s call) (hleaves : call.LeavesBlock l.ptr)
    (hrun : call.perform env s = .ok (r, s')) :
    Open env s' ∧ l ∈ s'.live ∧ s'.world.addrOf l.ptr = s.world.addrOf l.ptr ∧
      World.KeepsBlock s.world s'.world l.ptr := by
  rcases h.still_step hstill hcall hrun with ⟨hopen', -, haddrs⟩
  have hpos := h.size_pos hl
  have hin : Area.In (fun k j => l.Covers k j) s.live := fun k j hcov => ⟨l, hl, hcov⟩
  have hspared := Call.spared hin hcall (h.spares_block hl hstill hcall.1 hleaves) hrun
  have hcov : l.Covers l.ptr.chkNo (32 * l.ptr.offset) := ⟨rfl, by omega, by omega⟩
  refine ⟨hopen', hspared.blocks l hl ⟨_, _, hcov, hcov⟩, ?_, fun j hj => ?_⟩
  · unfold World.addrOf
    rw [haddrs _ (h.chkNo_lt hl)]
  · unfold World.target
    rw [Bits.drop_apply, Bits.drop_apply]
    exact hspared.chunkBits_eq h hopen'.1 hin ⟨rfl, by omega, by omega⟩

end Open

/-- While a program allocates, frees other blocks and writes into other blocks, however
often and in whatever order, the address it took from a chunk pointer of a block stays the
address of the block, and any bytes it reads through it are the ones it read at first. -/
theorem Reach.addresses_stay {env : Env} {s : Session} (hs : Reach env CarefulCall s)
    (hflag : s.world.index.compressed = false) {calls : List Call} {rs : List Result}
    {s' : Session} {l : Live} (hl : l ∈ s.live)
    (hmeet : Call.AllMeet env (fun s call => CarefulCall s call ∧ call.Still ∧
      call.LeavesBlock l.ptr) calls s)
    (hrun : Call.performAll env calls s = .ok (rs, s')) :
    exists a, chkPtr2addr l.ptr s.world = .ok (a, s.world) ∧
      chkPtr2addr l.ptr s'.world = .ok (a, s'.world) ∧
      forall i n, i + n ≤ 8 * l.ptr.size -> exists bytes,
        loadBytes (a.add i) n s.world = .ok (bytes, s.world) ∧
        loadBytes (a.add i) n s'.world = .ok (bytes, s'.world) := by
  have hopen := hs.isOpen hflag
  have hstays : Open env s' ∧ l ∈ s'.live ∧ s'.world.addrOf l.ptr = s.world.addrOf l.ptr ∧
      World.KeepsBlock s.world s'.world l.ptr := by
    clear hs hflag
    induction calls generalizing s rs with
    | nil =>
        cases hrun
        exact ⟨hopen, hl, rfl, fun _ _ => rfl⟩
    | cons call calls ih =>
        unfold Call.AllMeet at hmeet
        unfold Call.performAll at hrun
        cases hcall : call.perform env s with
        | error e =>
            rw [hcall] at hrun
            cases hrun
        | ok rs₁ =>
            rw [hcall] at hrun hmeet
            rcases hmeet with ⟨⟨hcareful, hstill, hleaves⟩, hrest⟩
            rcases hopen.block_stays hl hstill hcareful hleaves hcall with
              ⟨hopen₁, hl₁, haddr₁, hkept₁⟩
            cases hruns : Call.performAll env calls rs₁.2 with
            | error e =>
                simp only [hruns] at hrun
                cases hrun
            | ok rt =>
                simp only [hruns] at hrun
                cases hrun
                rcases ih hl₁ hrest hruns hopen₁ with ⟨hopen₂, hl₂, haddr₂, hkept₂⟩
                exact ⟨hopen₂, hl₂, haddr₂.trans haddr₁,
                  fun j hj => (hkept₂ j hj).trans (hkept₁ j hj)⟩
  rcases hstays with ⟨hopen', hl', haddr, hkept⟩
  refine ⟨_, hopen.chkPtr2addr_ok (hopen.chkNo_lt hl), ?_, fun i n hin => ?_⟩
  · rw [← haddr]
    exact hopen'.chkPtr2addr_ok (hopen'.chkNo_lt hl')
  · refine ⟨_, hopen.loadBytes_ok hl hin, ?_⟩
    rw [← haddr, hopen'.loadBytes_ok hl' hin]
    congr 2
    exact Bits.bytes_congr fun j hj => hkept _ (by omega)

section Sample

instance (p : ChkPtr) (call : Call) : Decidable (call.LeavesBlock p) :=
  match call with
  | .write q pos data => decidable_of_iff (q ≠ p) (by
      unfold Call.LeavesBlock
      refine ⟨fun hne => ⟨nofun, fun _ _ heq => ?_⟩, fun h heq => h.2 pos data (by rw [heq])⟩
      cases heq
      exact hne rfl)
  | .free q => decidable_of_iff (q ≠ p) (by
      unfold Call.LeavesBlock
      refine ⟨fun hne => ⟨fun heq => ?_, nofun⟩, fun h heq => h.1 (by rw [heq])⟩
      cases heq
      exact hne rfl)
  | .alloc _ | .enlarge | .compress _ | .uncompress | .shrink | .destruct =>
      isTrue ⟨nofun, nofun⟩

instance (call : Call) : Decidable call.Still :=
  match call with
  | .alloc _ | .free _ | .write _ _ _ => isTrue trivial
  | .enlarge | .compress _ | .uncompress | .shrink | .destruct => isFalse id

/-- Long blocks fill the chunk, one goes to a second chunk, one is freed and one written. -/
def stirring : List Call := [.alloc 4088, .alloc 4088, .alloc 4088, .alloc 4088,
  .free ⟨0, 16, 511⟩, .write ⟨0, 1038, 511⟩ 8 [1, 2, 3], .alloc 200]

/-- The block of 24 bytes stays at its address while a chunk is added and others change. -/
theorem Reach.addresses_stay_sample : exists rs s',
    Call.performAll Env.plain stirring packed = .ok (rs, s') ∧ s'.world.index.chkNum = 2 ∧
    exists a bytes, chkPtr2addr ⟨0, 10, 3⟩ packed.world = .ok (a, packed.world) ∧
      chkPtr2addr ⟨0, 10, 3⟩ s'.world = .ok (a, s'.world) ∧
      loadBytes (a.add 0) 24 packed.world = .ok (bytes, packed.world) ∧
      loadBytes (a.add 0) 24 s'.world = .ok (bytes, s'.world) := by
  have hlive : (⟨⟨0, 10, 3⟩, 24⟩ : Live) ∈ packed.live := by decide +kernel
  have hflag : packed.world.index.compressed = false := by decide +kernel
  have hcode : (Call.performAll Env.plain stirring packed).toOption.map
      (fun x => x.2.world.index.chkNum) = some 2 := by decide +kernel
  have hmeet : Call.AllMeet Env.plain (fun s call => CarefulCall s call ∧ call.Still ∧
      call.LeavesBlock ⟨0, 10, 3⟩) stirring packed := by decide +kernel
  have hreach := packed_reach
  generalize packed = s at hlive hflag hcode hmeet hreach ⊢
  cases hrun : Call.performAll Env.plain stirring s with
  | error e =>
      rw [hrun] at hcode
      cases hcode
  | ok rst =>
      rw [hrun] at hcode
      rcases Reach.addresses_stay hreach hflag hlive hmeet hrun with ⟨a, ha, ha', hbytes⟩
      rcases hbytes 0 24 (by decide) with ⟨bytes, hold, hnew⟩
      exact ⟨rst.1, rst.2, rfl, Option.some.inj hcode, a, bytes, ha, ha', hold, hnew⟩

end Sample

end ChunkMem
