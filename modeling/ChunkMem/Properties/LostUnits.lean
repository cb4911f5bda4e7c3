import ChunkMem.Properties.SizedFree
import ChunkMem.Properties.Strings
import ChunkMem.Session.Addresses

/-!
# What freeing with sizes loses

A program that frees blocks with the sizes it asked for, as the containers of the test
programs are freed, keeps one unit in use for every size that is not a multiple of eight.
-/

namespace ChunkMem

open Foundation

theorem Foundation.Extent.sum_lenIn {n : Nat} {l : List (Extent Nat)}
    (h : forall e, e ∈ l -> e.space < n) :
    (sumTo n fun k => Extent.lenIn l k) = Extent.total l := by
  induction l with
  | nil =>
      have hzero := sumTo_le (n := n) (b := 0)
        (f := fun k => Extent.lenIn ([] : List (Extent Nat)) k) fun i _ => Nat.le_refl 0
      rw [Nat.mul_zero] at hzero
      exact Nat.le_zero.mp hzero
  | cons e l ih =>
      have hchange := sumTo_change (f := fun k => Extent.lenIn l k)
        (g := fun k => Extent.lenIn (e :: l) k) (h e List.mem_cons_self) fun i _ hne => by
          rw [Extent.lenIn_cons, if_neg (Ne.symm hne), Nat.zero_add]
      rw [ih fun e' he' => h e' (List.mem_cons_of_mem e he'), Extent.lenIn_cons, if_pos rfl]
        at hchange
      rw [Extent.total_cons]
      omega

/-- The unit that is not given back when the block is freed with its size. -/
def Live.lostUnit (l : Live) : List Live :=
  if l.size % 8 = 0 then []
  else [⟨⟨l.ptr.chkNo, l.ptr.offset + 2 * (l.ptr.size - 1), 1⟩, 8⟩]

/-- What calls that move no chunk and `free` of blocks with the sizes that were asked for
lead to, with the units that were not given back. -/
inductive SizedReach (env : Env) : Session -> List Live -> Prop where
  | start {s : Session} : Reach env CarefulCall s -> s.world.index.compressed = false ->
      SizedReach env s []
  | call {s s' : Session} {lost : List Live} {call : Call} {r : Result} :
      SizedReach env s lost -> call.Still -> CarefulCall s call ->
      call.perform env s = .ok (r, s') -> SizedReach env s' lost
  | freeSized {s : Session} {lost : List Live} {l : Live} {q : ChkPtr} {w' : World} :
      SizedReach env s lost -> l ∈ s.live -> q.chkNo = l.ptr.chkNo ->
      q.offset = l.ptr.offset -> ChkIndex.free env q l.size s.world = .ok ((), w') ->
      SizedReach env ⟨w', s.live.eraseP fun l' => decide (l'.ptr = l.ptr)⟩ (l.lostUnit ++ lost)

/-- The session in which the program still holds the lost units. -/
def Session.with (s : Session) (lost : List Live) : Session := ⟨s.world, s.live ++ lost⟩

/-!
## Blocks of a session rearranged
-/

namespace Open

variable {env : Env} {s : Session} {l : Live} {lost : List Live}

theorem perm {w : World} {live live' : List Live} (h : Open env ⟨w, live⟩)
    (hperm : live.Perm live') : Open env ⟨w, live'⟩ := by
  rcases h with ⟨hflag, c, L, hv⟩
  have hmem : forall l, l ∈ live' -> l ∈ live := fun l hl => hperm.mem_iff.mpr hl
  have hblocks := hperm.map Live.block
  have haccounts := hv.wf.accounts
  have hlen : forall k, Extent.lenIn (live.map Live.block) k =
      Extent.lenIn (live'.map Live.block) k := fun k => (hblocks.map _).sum_eq
  refine ⟨hflag, c, L, hv.stored, hv.settled, ⟨hv.wf.tiling.weaken fun k u => ?_, ?_,
    haccounts.totalUsed_eq, haccounts.virgin_eq, haccounts.free_le⟩,
    fun l hl => hv.ptr l (hmem l hl), fun l hl => hv.pos l (hmem l hl),
    fun l hl => hv.size l (hmem l hl)⟩
  · exact Nat.le_of_eq (Extent.cover_perm hblocks k u).symm
  · intro k hk
    rw [haccounts.used_eq k hk]
    exact congrArg _ (hlen k)

theorem cut (h : Open env s) (hl : l ∈ s.live) {n m : Nat} (hn : 0 < n) (hm : 0 < m)
    (hsize : l.ptr.size = n + m) :
    Open env ⟨s.world, ⟨⟨l.ptr.chkNo, l.ptr.offset, n⟩, 8 * n⟩ ::
      ⟨⟨l.ptr.chkNo, l.ptr.offset + 2 * n, m⟩, 8 * m⟩ ::
      s.live.eraseP fun l' => decide (l'.ptr = l.ptr)⟩ := by
  rcases h with ⟨hflag, c, L, hv⟩
  have hptr := hv.ptr l hl
  have hoff : l.ptr.offset = 2 * l.block.start := by
    rw [hptr, blockPtr_offset]
  have hwf := hv.wf.cut (Valid.mem_block hl) (n := n) (m := m) hsize
  rw [erase_block fun l' hl' => hv.block_iff hl hl'] at hwf
  have hfront : Live.block ⟨⟨l.ptr.chkNo, l.ptr.offset, n⟩, 8 * n⟩ =
      ⟨l.block.space, l.block.start, n⟩ := rfl
  have hback : Live.block ⟨⟨l.ptr.chkNo, l.ptr.offset + 2 * n, m⟩, 8 * m⟩ =
      ⟨l.block.space, l.block.start + n, m⟩ := by
    unfold Live.block
    simp only
    congr 1
    omega
  have hsub : forall l', l' ∈ s.live.eraseP (fun l' => decide (l'.ptr = l.ptr)) -> l' ∈ s.live :=
    fun l' hl' => List.mem_of_mem_eraseP hl'
  refine ⟨hflag, c, L, hv.stored, hv.settled, ?_, ?_, ?_, ?_⟩
  · rw [List.map_cons, List.map_cons, hfront, hback]
    exact hwf
  · intro l' hl'
    rcases List.mem_cons.mp hl' with rfl | hl'
    · rw [hfront]
      change (⟨l.ptr.chkNo, l.ptr.offset, n⟩ : ChkPtr) = ⟨l.ptr.chkNo, 2 * l.block.start, n⟩
      rw [← hoff]
    · rcases List.mem_cons.mp hl' with rfl | hl'
      · rw [hback]
        change (⟨l.ptr.chkNo, l.ptr.offset + 2 * n, m⟩ : ChkPtr) =
          ⟨l.ptr.chkNo, 2 * (l.block.start + n), m⟩
        rw [Nat.mul_add, ← hoff]
      · exact hv.ptr l' (hsub l' hl')
  · intro l' hl'
    rcases List.mem_cons.mp hl' with rfl | hl'
    · exact hn
    · rcases List.mem_cons.mp hl' with rfl | hl'
      · exact hm
      · exact hv.pos l' (hsub l' hl')
  · intro l' hl'
    rcases List.mem_cons.mp hl' with rfl | hl'
    · exact Int.le_refl _
    · rcases List.mem_cons.mp hl' with rfl | hl'
      · exact Int.le_refl _
      · exact hv.size l' (hsub l' hl')

theorem freed (h : Open env s) (hl : l ∈ s.live) {w' : World}
    (hrun : ChkIndex.free env l.ptr 0 s.world = .ok ((), w')) :
    Open env ⟨w', s.live.eraseP fun l' => decide (l'.ptr = l.ptr)⟩ := by
  have hfree := h.free_ensures hl
  unfold Prog.free at hfree
  rw [hrun] at hfree
  have hlive := hfree.live
  have hopen := hfree.isOpen
  simp only at hlive
  rw [hlive] at hopen
  exact hopen

end Open

/-!
## The run
-/

/-- What every step keeps: the program might still hold the lost units. -/
structure LostInv (env : Env) (s : Session) (lost : List Live) : Prop where
  isOpen : Open env (s.with lost)
  exact : ExactSizes (s.with lost)
  unit : forall u, u ∈ lost -> u.ptr.size = 1

theorem Call.holds_with {call : Call} {s : Session} (hstill : call.Still) (hcall : call.Allowed s)
    (lost : List Live) (w' : World) (r : Result) :
    call.holds (s.live ++ lost) w' r = call.holds s.live w' r ++ lost := by
  cases call with
  | alloc n =>
      cases r with
      | block p =>
          rw [Call.holds_alloc, Call.holds_alloc]
          split
          · rfl
          · rfl
      | code r => rfl
      | done => rfl
  | free p =>
      rcases hcall with ⟨l, hl, hptr⟩
      rw [Call.holds_free, Call.holds_free]
      split
      · rfl
      · exact List.eraseP_append_left (a := l) (decide_eq_true hptr) lost hl
  | write p pos data => rfl
  | enlarge => exact hstill.elim
  | compress percent => exact hstill.elim
  | uncompress => exact hstill.elim
  | shrink => exact hstill.elim
  | destruct => exact hstill.elim

theorem Call.careful_with {call : Call} {s : Session} (hcall : CarefulCall s call)
    (lost : List Live) : CarefulCall (s.with lost) call := by
  refine ⟨?_, hcall.2⟩
  have hmem : forall l, l ∈ s.live -> l ∈ (s.with lost).live :=
    fun l hl => List.mem_append_left lost hl
  have hallowed := hcall.1
  cases call with
  | alloc n => exact hallowed
  | free p =>
      rcases hallowed with ⟨l, hl, hptr⟩
      exact ⟨l, hmem l hl, hptr⟩
  | write p pos data =>
      rcases hallowed with ⟨hflag, l, hl, hrest⟩
      exact ⟨hflag, l, hmem l hl, hrest⟩
  | enlarge => trivial
  | compress percent => trivial
  | uncompress => trivial
  | shrink => trivial
  | destruct => trivial

namespace LostInv

variable {env : Env} {s s' : Session} {lost : List Live} {l : Live} {q : ChkPtr} {w' : World}

theorem call_step (h : LostInv env s lost) {call : Call} {r : Result} (hstill : call.Still)
    (hcall : CarefulCall s call) (hrun : call.perform env s = .ok (r, s')) :
    LostInv env s' lost := by
  rcases Call.perform_run hrun with ⟨w', hcode, rfl⟩
  have hrun' : call.perform env (s.with lost) =
      .ok (r, Session.with ⟨w', call.holds s.live w' r⟩ lost) := by
    have hcode' : call.run env (s.with lost).world = .ok (r, w') := hcode
    have hholds := Call.holds_with hstill hcall.1 lost w' r
    unfold Call.perform
    rw [hcode']
    exact congrArg (fun live => Except.ok (r, (⟨w', live⟩ : Session))) hholds
  have hcall' := Call.careful_with hcall lost
  rcases h.isOpen with ⟨-, c, L, hv⟩
  exact ⟨(h.isOpen.still_step hstill hcall' hrun').1,
    hv.perform_exactSizes hcall'.1 h.exact hrun', h.unit⟩

theorem free_step (h : LostInv env s lost) (hl : l ∈ s.live) (hno : q.chkNo = l.ptr.chkNo)
    (hoff : q.offset = l.ptr.offset)
    (hrun : ChkIndex.free env q l.size s.world = .ok ((), w')) :
    LostInv env ⟨w', s.live.eraseP fun l' => decide (l'.ptr = l.ptr)⟩ (l.lostUnit ++ lost) := by
  have hl' : l ∈ (s.with lost).live := List.mem_append_left lost hl
  rcases h.exact l hl' with ⟨hlo, hhi, hunits⟩
  unfold Uncompressed.units at hunits
  rw [ChkIndex.free_sized env q (by omega) hhi, hno, hoff] at hrun
  have herase : (s.with lost).live.eraseP (fun l' => decide (l'.ptr = l.ptr)) =
      s.live.eraseP (fun l' => decide (l'.ptr = l.ptr)) ++ lost :=
    List.eraseP_append_left (a := l) (decide_eq_true rfl) lost hl
  have hsub : forall x, x ∈ s.live.eraseP (fun l' => decide (l'.ptr = l.ptr)) ++ lost ->
      x ∈ (s.with lost).live := by
    intro x hx
    rw [← herase] at hx
    exact List.mem_of_mem_eraseP hx
  unfold Live.lostUnit
  by_cases hmul : l.size % 8 = 0
  · rw [if_pos hmul, List.nil_append]
    have hsize : (l.size / 8).toNat = l.ptr.size := by omega
    rw [hsize] at hrun
    have hopen := h.isOpen.freed hl' hrun
    rw [herase] at hopen
    exact ⟨hopen, fun x hx => h.exact x (hsub x hx), h.unit⟩
  · rw [if_neg hmul]
    have hsize : l.ptr.size = (l.size / 8).toNat + 1 := by omega
    have hpos : 0 < (l.size / 8).toNat := by
      refine Nat.pos_of_ne_zero fun hzero => ?_
      rcases h.isOpen with ⟨hflag, c, L, hv⟩
      have hblock := (hv.stored.uncompressed hflag).free_empty hv.wf (Valid.mem_block hl')
        (hv.pos l hl')
      have hoffset : 2 * l.block.start = l.ptr.offset := by
        rw [hv.ptr l hl', blockPtr_offset]
      rw [hoffset] at hblock
      rw [hzero] at hrun
      cases hblock.symm.trans hrun
    have hcut := h.isOpen.cut hl' hpos Nat.one_pos hsize
    have hopen := hcut.freed List.mem_cons_self hrun
    rw [List.eraseP_cons_of_pos (by simp), herase] at hopen
    have hback : l.ptr.offset + 2 * (l.size / 8).toNat = l.ptr.offset + 2 * (l.ptr.size - 1) := by
      rw [hsize, Nat.add_sub_cancel]
    rw [hback] at hopen
    refine ⟨hopen.perm List.perm_middle.symm, ?_, ?_⟩
    · intro x hx
      rcases List.mem_append.mp hx with hx | hx
      · exact h.exact x (hsub x (List.mem_append_left _ hx))
      · rcases List.mem_cons.mp hx with rfl | hx
        · exact ⟨show (1 : Int) ≤ 8 by decide, show (8 : Int) ≤ 4088 by decide, rfl⟩
        · exact h.exact x (hsub x (List.mem_append_right _ hx))
    · intro u hu
      rcases List.mem_cons.mp hu with rfl | hu
      · rfl
      · exact h.unit u hu

end LostInv

theorem SizedReach.inv {env : Env} {s : Session} {lost : List Live} (h : SizedReach env s lost) :
    LostInv env s lost := by
  induction h with
  | @start s hreach hflag =>
      have hself : s.with [] = s := by
        unfold Session.with
        rw [List.append_nil]
      refine ⟨?_, ?_, fun u hu => (nomatch hu)⟩
      · rw [hself]
        exact hreach.isOpen hflag
      · rw [hself]
        exact (hreach.mono fun _ _ hcall => hcall.safe).exactSizes
  | call _ hstill hcall hrun ih => exact ih.call_step hstill hcall hrun
  | freeSized _ hl hno hoff hrun ih => exact ih.free_step hl hno hoff hrun

def Session.units (s : Session) : Nat := (s.live.map fun l => l.ptr.size).sum

theorem LostInv.total {env : Env} {s : Session} {lost : List Live} (h : LostInv env s lost) :
    Extent.total ((s.with lost).live.map Live.block) = s.units + lost.length := by
  have hlost : (lost.map fun l => l.ptr.size).sum = lost.length := by
    rw [List.map_congr_left (g := fun _ => 1) h.unit, List.map_const', List.sum_replicate]
    simp
  have hsize : Extent.len ∘ Live.block = fun l => l.ptr.size := rfl
  unfold Extent.total Session.with Session.units
  rw [List.map_map, hsize, List.map_append, List.sum_append, hlost]

/-- In every state of a run of calls that move no chunk and of `free` with the sizes that
were asked for: the used total is that of the headers and of the blocks the program holds, and
one unit more for each block so far whose size was not a multiple of eight; these units stay
apart from each other and from every block that is handed out; and `free` of a block of
fewer than eight bytes with its size stops at an assertion. -/
theorem SizedReach.units_lost {env : Env} {s : Session} {lost : List Live}
    (h : SizedReach env s lost) (hpos : 0 < s.world.index.chkNum) :
    s.world.totalUsed =
      sumTo s.world.index.chkNum reserved + s.units + lost.length ∧
    ((s.live ++ lost).map Live.block).Pairwise Extent.Disjoint ∧
    forall l, l ∈ s.live -> l.size < 8 -> forall q : ChkPtr, q.chkNo = l.ptr.chkNo ->
      q.offset = l.ptr.offset -> ChkIndex.free env q l.size s.world = .error .assertion := by
  have hinv := h.inv
  rcases hinv.isOpen with ⟨hflag, c, L, hv⟩
  have hu := hv.stored.uncompressed hflag
  have hnum : s.world.index.chkNum = c.num := hu.num
  have hlen : forall e, e ∈ (s.live ++ lost).map Live.block -> 0 < e.len := by
    intro e he
    rcases List.mem_map.mp he with ⟨l, hl, rfl⟩
    exact hv.pos l hl
  have hone : forall k u, Extent.cover ((s.live ++ lost).map Live.block) k u ≤ 1 := fun k u =>
    Nat.le_trans (Nat.le_add_right _ _) (hv.wf.tiling.cover_le_one k u)
  refine ⟨?_, Extent.pairwise_disjoint_of_cover_le_one hlen hone, ?_⟩
  · have hused : s.world.totalUsed = c.totalUsed := (hu.mgr (by omega)).totalUsed
    have hbound : forall e, e ∈ (s.with lost).live.map Live.block -> e.space < c.num := by
      intro e he
      rcases List.mem_map.mp he with ⟨l, hl, rfl⟩
      exact (hv.wf.tiling.block_bound (Valid.mem_block hl) (hv.pos l hl)).1
    rw [hused, hv.wf.accounts.totalUsed_eq, sumTo_congr hv.wf.accounts.used_eq, sumTo_add,
      Extent.sum_lenIn hbound, hinv.total, hnum, Nat.add_assoc]
  · intro l hl hsmall q hno hoff
    have hl' : l ∈ (s.with lost).live := List.mem_append_left lost hl
    rcases hinv.exact l hl' with ⟨hlo, hhi, -⟩
    have hzero : (l.size / 8).toNat = 0 := by omega
    have hoffset : 2 * l.block.start = l.ptr.offset := by
      rw [hv.ptr l hl', blockPtr_offset]
    have hempty := hu.free_empty hv.wf (Valid.mem_block hl') (hv.pos l hl')
    rw [hoffset] at hempty
    rw [ChkIndex.free_sized env q (by omega) hhi, hno, hoff, hzero]
    exact hempty

/-- A block of twelve bytes comes and goes. -/
theorem SizedReach.units_lost_sample : exists (s : Session) (lost : List Live),
    s.live = [] ∧ lost ≠ [] ∧
    s.world.totalUsed = sumTo s.world.index.chkNum reserved + s.units + lost.length := by
  have hreach : Reach Env.plain CarefulCall (Call.after Env.plain [.alloc 12] ⟨World.boot, []⟩) :=
    Reach.after (.start World.boot_fresh) (by decide +kernel)
  have hlive : (Call.after Env.plain [.alloc 12] ⟨World.boot, []⟩).live =
      [⟨⟨0, 10, 2⟩, 12⟩] := by decide +kernel
  have hflag : (Call.after Env.plain [.alloc 12] ⟨World.boot, []⟩).world.index.compressed =
      false := by decide +kernel
  have hcode : (ChkIndex.free Env.plain ⟨0, 10, 0⟩ 12
      (Call.after Env.plain [.alloc 12] ⟨World.boot, []⟩).world).toOption.map
        (fun rw => rw.2.index.chkNum) = some 1 := by decide +kernel
  generalize Call.after Env.plain [.alloc 12] ⟨World.boot, []⟩ = s at *
  cases hrun : ChkIndex.free Env.plain ⟨0, 10, 0⟩ 12 s.world with
  | error e =>
      rw [hrun] at hcode
      cases hcode
  | ok rw' =>
      rw [hrun] at hcode
      have hnum : rw'.2.index.chkNum = 1 := Option.some.inj hcode
      have hl : (⟨⟨0, 10, 2⟩, 12⟩ : Live) ∈ s.live := by
        rw [hlive]
        exact List.mem_singleton_self _
      have hfreed := SizedReach.freeSized (.start hreach hflag) hl rfl rfl hrun
      have hlost := (SizedReach.units_lost hfreed (by rw [hnum]; exact Nat.one_pos)).1
      refine ⟨_, _, ?_, ?_, hlost⟩
      · rw [hlive]
        rfl
      · decide

end ChunkMem
