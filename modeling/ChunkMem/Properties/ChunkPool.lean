import Mathlib.Tactic
import ChunkMem.Memory.Memalign

/-!
# The pool hands out every chunk once

Whatever is allocated and given back, the chunks in use and the free ones are together
the blocks that the regions were cut into.
-/

namespace ChunkMem

open Foundation

namespace ChkMemalign

def Apart (p q : Ptr) : Prop :=
  p.blk ≠ q.blk ∨ p.off + chkMaxChksize ≤ q.off ∨ q.off + chkMaxChksize ≤ p.off

theorem Apart.symm {p q : Ptr} (h : Apart p q) : Apart q p := by
  rcases h with h | h | h
  · exact Or.inl (Ne.symm h)
  · exact Or.inr (Or.inr h)
  · exact Or.inr (Or.inl h)

def regionBlocks (blk size : Nat) : List Ptr :=
  (List.range (size / chkMaxChksize)).map fun j => ⟨blk, chkMaxChksize * j⟩

def blocksFrom : Nat -> List Nat -> List Ptr
  | _, [] => []
  | blk, size :: regions => regionBlocks blk size ++ blocksFrom (blk + 1) regions

def Inside (regions : List Nat) (p : Ptr) : Prop :=
  exists i size, regions[i]? = some size ∧ p.blk = i + 1 ∧ p.off + chkMaxChksize ≤ size

theorem mem_regionBlocks {blk size : Nat} {p : Ptr} : p ∈ regionBlocks blk size <->
    exists j, j < size / chkMaxChksize ∧ p = ⟨blk, chkMaxChksize * j⟩ := by
  unfold regionBlocks
  simp only [List.mem_map, List.mem_range]
  constructor
  · rintro ⟨j, hj, rfl⟩
    exact ⟨j, hj, rfl⟩
  · rintro ⟨j, hj, rfl⟩
    exact ⟨j, hj, rfl⟩

theorem mem_blocksFrom {blk : Nat} {regions : List Nat} {p : Ptr} (h : p ∈ blocksFrom blk regions) :
    exists i size, regions[i]? = some size ∧ p ∈ regionBlocks (blk + i) size := by
  induction regions generalizing blk with
  | nil => cases h
  | cons size regions ih =>
      rcases List.mem_append.mp h with hp | hp
      · exact ⟨0, size, rfl, hp⟩
      · rcases ih hp with ⟨i, size', hi, hp'⟩
        refine ⟨i + 1, size', hi, ?_⟩
        rw [Nat.add_comm i 1, ← Nat.add_assoc]
        exact hp'

theorem blocksFrom_append (blk : Nat) (regions : List Nat) (size : Nat) :
    blocksFrom blk (regions ++ [size]) =
      blocksFrom blk regions ++ regionBlocks (blk + regions.length) size := by
  induction regions generalizing blk with
  | nil => exact List.append_nil _
  | cons size' regions ih =>
      change regionBlocks blk size' ++ blocksFrom (blk + 1) (regions ++ [size]) = _
      rw [ih, ← List.append_assoc, List.length_cons, Nat.add_right_comm, Nat.add_assoc blk]
      rfl

theorem inside_of_mem {regions : List Nat} {p : Ptr} (h : p ∈ blocksFrom 1 regions) :
    Inside regions p := by
  rcases mem_blocksFrom h with ⟨i, size, hi, hp⟩
  rcases mem_regionBlocks.mp hp with ⟨j, hj, rfl⟩
  refine ⟨i, size, hi, Nat.add_comm 1 i, ?_⟩
  have hmul := Nat.mul_le_of_le_div chkMaxChksize (j + 1) size hj
  rw [Nat.add_mul, Nat.one_mul, Nat.mul_comm] at hmul
  exact hmul

theorem regionBlocks_apart (blk size : Nat) : (regionBlocks blk size).Pairwise Apart := by
  unfold regionBlocks
  rw [List.pairwise_map]
  refine List.pairwise_lt_range.imp fun {i j} hij => ?_
  refine Or.inr (Or.inl ?_)
  have hmul := Nat.mul_le_mul_left chkMaxChksize hij
  rw [Nat.mul_succ] at hmul
  exact hmul

theorem blocksFrom_apart (blk : Nat) (regions : List Nat) :
    (blocksFrom blk regions).Pairwise Apart := by
  induction regions generalizing blk with
  | nil => exact .nil
  | cons size regions ih =>
      refine List.pairwise_append.mpr ⟨regionBlocks_apart blk size, ih (blk + 1), ?_⟩
      intro p hp q hq
      rcases mem_regionBlocks.mp hp with ⟨j, -, rfl⟩
      rcases mem_blocksFrom hq with ⟨i, size', -, hq'⟩
      rcases mem_regionBlocks.mp hq' with ⟨k, -, rfl⟩
      exact Or.inl (by simp only; omega)

/-!
## The functions
-/

theorem pushChunks_perm (n blk o : Nat) (free : List Ptr) :
    (pushChunks n ⟨blk, o⟩ free).Perm
      ((List.range n).map (fun j => ⟨blk, o + chkMaxChksize * j⟩) ++ free) := by
  induction n generalizing o free with
  | zero => exact .refl free
  | succ n ih =>
      have hshift : (fun j => (⟨blk, o + chkMaxChksize + chkMaxChksize * j⟩ : Ptr)) =
          (fun j => ⟨blk, o + chkMaxChksize * j⟩) ∘ Nat.succ := by
        funext j
        change (⟨blk, _⟩ : Ptr) = ⟨blk, _⟩
        rw [Nat.mul_succ, Nat.add_assoc, Nat.add_comm chkMaxChksize (chkMaxChksize * j)]
      have hrange : (List.range (n + 1)).map (fun j => (⟨blk, o + chkMaxChksize * j⟩ : Ptr)) =
          ⟨blk, o⟩ :: (List.range n).map
            (fun j => ⟨blk, o + chkMaxChksize + chkMaxChksize * j⟩) := by
        rw [List.range_succ_eq_map, List.map_cons, List.map_map, hshift]
        rfl
      rw [hrange]
      exact (ih (o + chkMaxChksize) (⟨blk, o⟩ :: free)).trans List.perm_middle

variable {m m' : ChkMemalign} {out : List Ptr} {p : Ptr} {available : Bool}

/-- Every block of a region is in use or free, and the ones in use are counted in an
`int`. -/
structure Shared (m : ChkMemalign) (out : List Ptr) : Prop where
  conf : 8 ≤ m.confChunks ∧ m.confChunks < 2 ^ 31
  perm : (out ++ m.freeChunks).Perm (blocksFrom 1 m.regions)
  used : m.usedChunks = wrapInt out.length

theorem refillChunks_ok (m : ChkMemalign) {n : Int} (hn : 0 ≤ n) (hn' : n < 2 ^ 31) :
    exists free, refillChunks true n m =
        .ok ((), { m with
          freeChunks := free, regions := m.regions ++ [chkMaxChksize * n.toNat] }) ∧
      free.Perm
        (regionBlocks (1 + m.regions.length) (chkMaxChksize * n.toNat) ++ m.freeChunks) := by
  rcases Int.eq_ofNat_of_zero_le hn with ⟨k, rfl⟩
  have hsize : toSizeT (chkMaxChksize * (k : Int)) = chkMaxChksize * k := by
    unfold toSizeT
    simp only [chkMaxChksize]
    omega
  have hdiv : chkMaxChksize * k / chkMaxChksize = k := Nat.mul_div_cancel_left k (by decide)
  have hregion : regionBlocks (1 + m.regions.length) (chkMaxChksize * k) =
      (List.range k).map fun j => ⟨m.regions.length + 1, 0 + chkMaxChksize * j⟩ := by
    unfold regionBlocks
    rw [hdiv, Nat.add_comm 1]
    simp only [Nat.zero_add]
  refine ⟨pushChunks k ⟨m.regions.length + 1, 0⟩ m.freeChunks, ?_, ?_⟩
  · have hmemalign : memalignSys true (toSizeT (chkMaxChksize * (k : Int))) m =
        .ok (⟨m.regions.length + 1, 0⟩,
          { m with regions := m.regions ++ [chkMaxChksize * k] }) := by
      rw [hsize]
      rfl
    have hne : (⟨m.regions.length + 1, 0⟩ : Ptr) ≠ Ptr.null := by
      intro heq
      exact absurd (congrArg Ptr.blk heq) (Nat.succ_ne_zero _)
    unfold refillChunks
    rw [Exec.bind_of_ok hmemalign,
      Exec.bind_of_ok (Exec.require_of hne _ _)]
    rfl
  · rw [Int.toNat_natCast, hregion]
    exact pushChunks_perm k _ 0 m.freeChunks

theorem refillChunks_none (m : ChkMemalign) (n : Int) :
    refillChunks false n m = .error .assertion := rfl

theorem Shared.refill (h : Shared m out) {n : Int} (hn : 0 < n) (hn' : n < 2 ^ 31) :
    exists m', refillChunks true n m = .ok ((), m') ∧ Shared m' out ∧ m'.freeChunks ≠ [] := by
  rcases refillChunks_ok m (Int.le_of_lt hn) hn' with ⟨free, hrun, hperm⟩
  refine ⟨_, hrun, ⟨h.conf, ?_, h.used⟩, ?_⟩
  · rw [blocksFrom_append]
    refine ((hperm.append_left out).trans ?_)
    refine (List.perm_append_comm_assoc out _ _).trans ?_
    exact (h.perm.append_left _).trans List.perm_append_comm
  · intro hcon
    have hlength := hperm.length_eq
    have hempty : free = [] := hcon
    unfold regionBlocks at hlength
    rw [hempty, List.length_nil, List.length_append, List.length_map, List.length_range,
      Nat.mul_div_cancel_left n.toNat (by decide)] at hlength
    omega

theorem wrapInt_step (n : Nat) (d : Int) : wrapInt (wrapInt n + d) = wrapInt (n + d) := by
  unfold wrapInt
  omega

theorem Shared.pop (h : Shared m out) (hne : m.freeChunks ≠ []) :
    exists p m', popChunk m = .ok (p, m') ∧ p ∈ m.freeChunks ∧ Shared m' (p :: out) := by
  cases hfree : m.freeChunks with
  | nil => exact absurd hfree hne
  | cons p free =>
      refine ⟨p, { m with freeChunks := free, usedChunks := wrapInt (m.usedChunks + 1) }, ?_,
        List.mem_cons_self, h.conf, ?_, ?_⟩
      · unfold popChunk
        rw [Exec.bind_of_ok (Exec.state_apply m)]
        simp only [hfree]
        rfl
      · have hperm := h.perm
        rw [hfree] at hperm
        exact List.perm_middle.symm.trans hperm
      · rw [h.used, wrapInt_step, List.length_cons]
        rfl

theorem Shared.alloc (h : Shared m out) (available : Bool) :
    (exists p m', alloc available m = .ok (p, m') ∧ p ∉ out ∧ Shared m' (p :: out)) ∨
    (available = false ∧ m.freeChunks = [] ∧ alloc available m = .error .assertion) := by
  have hfresh : forall {m'' : ChkMemalign} {p : Ptr}, Shared m'' (p :: out) -> p ∉ out := by
    intro m'' p h'' hmem
    have hapart := h''.perm.pairwise_iff Apart.symm |>.mpr (blocksFrom_apart 1 _)
    rw [List.cons_append, List.pairwise_cons] at hapart
    rcases hapart.1 p (List.mem_append_left _ hmem) with hne | hle | hle
    · exact hne rfl
    · exact absurd hle (by simp)
    · exact absurd hle (by simp)
  by_cases hfree : m.freeChunks = []
  · cases available with
    | false =>
        refine Or.inr ⟨rfl, hfree, ?_⟩
        unfold ChkMemalign.alloc
        rw [Exec.bind_of_ok (Exec.state_apply m)]
        simp only [if_pos hfree]
        exact Exec.bind_of_error (refillChunks_none m _)
    | true =>
        have hconf := h.conf
        rcases h.refill (n := m.confChunks / 4) (by omega) (by omega) with ⟨m₁, hrun, h₁, hne⟩
        rcases h₁.pop hne with ⟨p, m', hpop, -, h'⟩
        refine Or.inl ⟨p, m', ?_, hfresh h', h'⟩
        unfold ChkMemalign.alloc
        rw [Exec.bind_of_ok (Exec.state_apply m)]
        simp only [if_pos hfree]
        rw [Exec.bind_of_ok hrun, hpop]
  · rcases h.pop hfree with ⟨p, m', hpop, -, h'⟩
    refine Or.inl ⟨p, m', ?_, hfresh h', h'⟩
    unfold ChkMemalign.alloc
    rw [Exec.bind_of_ok (Exec.state_apply m)]
    simp only [if_neg hfree]
    exact hpop

theorem Shared.dellocate (h : Shared m out) (hp : p ∈ out) :
    Shared { m with freeChunks := p :: m.freeChunks, usedChunks := wrapInt (m.usedChunks - 1) }
      (out.erase p) := by
  refine ⟨h.conf, ?_, ?_⟩
  · have herase := (List.perm_cons_erase hp).append_right m.freeChunks
    exact (List.perm_middle.trans herase.symm).trans h.perm
  · have hpos := List.length_pos_of_mem hp
    have hlength : ((out.length - 1 : Nat) : Int) = out.length + -1 := by omega
    rw [h.used, List.length_erase_of_mem hp, Int.sub_eq_add_neg, wrapInt_step, hlength]

end ChkMemalign

open ChkMemalign

/-- What `init`, `alloc` and `dellocate` of chunks in use lead to, with
the chunks in use. -/
inductive PoolReach : ChkMemalign -> List Ptr -> Prop
  | start {available : Bool} {conf used : Int} {m : ChkMemalign} (hconf : 8 ≤ conf)
      (hint : conf < 2 ^ 31) (hrun : init available conf ⟨0, used, [], []⟩ = .ok ((), m)) :
      PoolReach m []
  | alloc {available : Bool} {m m' : ChkMemalign} {out : List Ptr} {p : Ptr}
      (h : PoolReach m out) (hrun : ChkMemalign.alloc available m = .ok (p, m')) :
      PoolReach m' (p :: out)
  | dellocate {m m' : ChkMemalign} {out : List Ptr} {p : Ptr} (h : PoolReach m out)
      (hp : p ∈ out) (hrun : ChkMemalign.dellocate p m = .ok ((), m')) :
      PoolReach m' (out.erase p)

theorem ChkMemalign.init_first (available : Bool) {conf : Int} (hconf : 8 ≤ conf)
    (hfit : 0 ≤ (wrapInt (conf * 3)).tdiv 2) (used : Int) :
    init available conf ⟨0, used, [], []⟩ = refillChunks available conf ⟨conf, 0, [], []⟩ := by
  unfold ChkMemalign.init reserve
  rw [Exec.bind_of_ok (Exec.state_apply _)]
  simp only [Int.lt_irrefl, if_false]
  rw [Exec.bind_of_ok (Exec.update_apply _ _), Exec.bind_of_ok (Exec.require_of hconf _ _),
    Exec.bind_of_ok (Exec.require_of hfit _ _)]

theorem ChkMemalign.init_throws (available : Bool) {conf : Int} (hconf : 8 ≤ conf)
    (hfit : ¬0 ≤ (wrapInt (conf * 3)).tdiv 2) (used : Int) :
    init available conf ⟨0, used, [], []⟩ = .error .assertion := by
  unfold ChkMemalign.init reserve
  rw [Exec.bind_of_ok (Exec.state_apply _)]
  simp only [Int.lt_irrefl, if_false]
  rw [Exec.bind_of_ok (Exec.update_apply _ _), Exec.bind_of_ok (Exec.require_of hconf _ _)]
  exact Exec.bind_of_error (Exec.require_of_not hfit _ _)

theorem ChkMemalign.init_ok {conf : Int} (hconf : 8 ≤ conf) (hint : conf < 2 ^ 31)
    (hfit : 0 ≤ (wrapInt (conf * 3)).tdiv 2) (used : Int) :
    exists m, init true conf ⟨0, used, [], []⟩ = .ok ((), m) ∧ Shared m [] := by
  rcases refillChunks_ok ⟨conf, 0, [], []⟩ (n := conf) (by omega) hint with ⟨free, hrun, hperm⟩
  have hzero : (0 : Int) = wrapInt 0 := by decide
  exact ⟨_, (init_first true hconf hfit used).trans hrun, ⟨hconf, hint⟩, hperm, hzero⟩

theorem PoolReach.shared {m : ChkMemalign} {out : List Ptr} (h : PoolReach m out) :
    Shared m out := by
  induction h with
  | @start available conf used m hconf hint hrun =>
      by_cases hfit : 0 ≤ (wrapInt (conf * 3)).tdiv 2
      · cases available with
        | true =>
            rcases ChkMemalign.init_ok hconf hint hfit used with ⟨m', hrun', h'⟩
            cases hrun'.symm.trans hrun
            exact h'
        | false =>
            have hfail := (init_first false hconf hfit used).trans (refillChunks_none _ conf)
            cases hfail.symm.trans hrun
      · cases (init_throws available hconf hfit used).symm.trans hrun
  | @alloc available m m' out p _ hrun ih =>
      rcases ih.alloc available with ⟨p', m'', hrun', -, h'⟩ | ⟨-, -, hfail⟩
      · cases hrun'.symm.trans hrun
        exact h'
      · cases hfail.symm.trans hrun
  | dellocate _ hp hrun ih =>
      cases hrun
      exact ih.dellocate hp

/-- In every state of the pool, the chunks in use and the free ones are blocks of 16 KB that
do not overlap and lie in the regions, and together they are all the blocks of the regions;
the number in use is `_used_chunks`, as far as an `int` can hold it; and
`alloc` returns a chunk that was free or is refused the region of a refill. -/
theorem PoolReach.exclusive {m : ChkMemalign} {out : List Ptr} (h : PoolReach m out) :
    (out ++ m.freeChunks).Pairwise Apart ∧
    (forall p, p ∈ out ++ m.freeChunks -> Inside m.regions p) ∧
    (out ++ m.freeChunks).Perm (blocksFrom 1 m.regions) ∧
    m.usedChunks = wrapInt out.length ∧
    (out.length < 2 ^ 31 -> m.usedChunks = out.length) ∧
    forall available,
      (exists p m', ChkMemalign.alloc available m = .ok (p, m') ∧ p ∉ out ∧
        PoolReach m' (p :: out)) ∨
      (available = false ∧ m.freeChunks = [] ∧
        ChkMemalign.alloc available m = .error .assertion) := by
  have hshared := h.shared
  refine ⟨?_, fun p hp => inside_of_mem (hshared.perm.mem_iff.mp hp), hshared.perm, hshared.used,
    fun hlt => ?_, fun available => ?_⟩
  · exact (hshared.perm.pairwise_iff Apart.symm).mpr (blocksFrom_apart 1 _)
  · rw [hshared.used]
    unfold wrapInt
    omega
  · rcases hshared.alloc available with ⟨p, m', hrun, hp, -⟩ | hfail
    · exact Or.inl ⟨p, m', hrun, hp, h.alloc hrun⟩
    · exact Or.inr hfail

/-- As many chunks as one likes are in use, when the system has the memory. -/
theorem PoolReach.exists_used (n : Nat) : exists m out, PoolReach m out ∧ out.length = n := by
  induction n with
  | zero =>
      have hconf : (8 : Int) ≤ 8 := Int.le_refl 8
      rcases ChkMemalign.init_ok hconf (by decide) (by decide) 0 with ⟨m, hrun, -⟩
      exact ⟨m, [], .start hconf (by decide) hrun, rfl⟩
  | succ n ih =>
      rcases ih with ⟨m, out, hreach, hlength⟩
      rcases hreach.shared.alloc true with ⟨p, m', hrun, -⟩ | ⟨hcon, -⟩
      · exact ⟨m', p :: out, hreach.alloc hrun, congrArg Nat.succ hlength⟩
      · cases hcon

def ChkMemalign.take : Nat -> ChkMemalign × List Ptr -> Option (ChkMemalign × List Ptr)
  | 0, x => some x
  | n + 1, (m, out) =>
      match alloc true m with
      | .ok (p, m') => take n (m', p :: out)
      | .error _ => none

theorem PoolReach.take {n : Nat} {x y : ChkMemalign × List Ptr} (h : PoolReach x.1 x.2)
    (hrun : ChkMemalign.take n x = some y) : PoolReach y.1 y.2 := by
  induction n generalizing x with
  | zero =>
      cases hrun
      exact h
  | succ n ih =>
      rcases x with ⟨m, out⟩
      unfold ChkMemalign.take at hrun
      cases halloc : ChkMemalign.alloc true m with
      | error e =>
          rw [halloc] at hrun
          cases hrun
      | ok pm =>
          rw [halloc] at hrun
          exact ih (h.alloc halloc) hrun

def firstChunks : List Ptr :=
  [⟨1, 114688⟩, ⟨1, 98304⟩, ⟨1, 81920⟩, ⟨1, 65536⟩, ⟨1, 49152⟩, ⟨1, 32768⟩, ⟨1, 16384⟩, ⟨1, 0⟩]

/-- Of eight chunks and two more nine are taken, and one of them is given back. -/
theorem PoolReach.exclusive_sample : exists m out, PoolReach m out ∧ out.length = 8 ∧
    m.regions = [131072, 32768] ∧ m.freeChunks = [⟨1, 0⟩, ⟨2, 0⟩] ∧ m.usedChunks = 8 ∧
    (out ++ m.freeChunks).Pairwise Apart := by
  have hstart : PoolReach ⟨8, 0, firstChunks, [131072]⟩ [] :=
    @PoolReach.start true 8 0 _ (by decide) (by decide) rfl
  have hnine : PoolReach ⟨8, 9, [⟨2, 0⟩], [131072, 32768]⟩ (⟨2, 16384⟩ :: firstChunks.reverse) :=
    PoolReach.take (x := (⟨8, 0, firstChunks, [131072]⟩, []))
      (y := (⟨8, 9, [⟨2, 0⟩], [131072, 32768]⟩, ⟨2, 16384⟩ :: firstChunks.reverse)) (n := 9)
      hstart rfl
  have height := hnine.dellocate (p := ⟨1, 0⟩) (by decide) rfl
  rcases PoolReach.exclusive height with ⟨hapart, -, -, -, hused, -⟩
  exact ⟨_, _, height, rfl, rfl, rfl, hused (by decide), hapart⟩

/-- When 2^31 chunks are in use, `_used_chunks` is negative. -/
theorem PoolReach.used_wraps : exists m out,
    PoolReach m out ∧ out.length = 2 ^ 31 ∧ m.usedChunks = -2 ^ 31 := by
  rcases PoolReach.exists_used (2 ^ 31) with ⟨m, out, hreach, hlength⟩
  refine ⟨m, out, hreach, hlength, ?_⟩
  rw [hreach.shared.used, hlength]
  decide

end ChunkMem
