import ChunkMem.Memory.PoolMemory
import ChunkMem.Properties.ChunkPool
import ChunkMem.Session.Calls

/-!
# Chunks of the pool are as good as fresh ones

The pool hands one block out again and again, cleared.  Code that keeps chunks cannot tell
it from an allocator that never hands out a block twice.
-/

namespace ChunkMem

open Foundation ChkMemalign

/-!
## Blocks in use
-/

namespace ChkMemalign

variable {m : ChkMemalign} {out : List Ptr} {p q : Ptr}

theorem Shared.pairwise (h : Shared m out) : out.Pairwise Apart := by
  have hall := (h.perm.pairwise_iff Apart.symm).mpr (blocksFrom_apart 1 m.regions)
  exact (List.pairwise_append.mp hall).1

theorem Shared.apart (h : Shared m out) (hp : p ∈ out) (hq : q ∈ out) (hne : p ≠ q) :
    Apart p q := by
  have hcons := ((List.perm_cons_erase hp).pairwise_iff Apart.symm).mp h.pairwise
  exact List.rel_of_pairwise_cons hcons ((List.mem_erase_of_ne hne.symm).mpr hq)

theorem Shared.inside (h : Shared m out) (hp : p ∈ out) : Inside m.regions p :=
  inside_of_mem (h.perm.mem_iff.mp (List.mem_append_left _ hp))

theorem Inside.ne_null {regions : List Nat} (h : Inside regions p) : p ≠ Ptr.null := by
  rcases h with ⟨i, size, -, hblk, -⟩
  rintro rfl
  exact absurd hblk (Nat.succ_ne_zero i).symm

theorem Inside.blk_le {regions : List Nat} (h : Inside regions p) : p.blk ≤ regions.length := by
  rcases h with ⟨i, size, hi, hblk, -⟩
  rw [hblk]
  exact (List.getElem?_eq_some_iff.mp hi).1

end ChkMemalign

namespace PoolMem

variable {s : PoolMem} {p : Ptr}

theorem access_ok (h : Inside s.pool.regions p) {off n : Nat} (hn : off + n ≤ chkMaxChksize) :
    PoolMem.access (p.add off) n s = .ok ((), s) := by
  rcases h with ⟨i, size, hi, hblk, hle⟩
  have hsize : s.regionSize p.blk = size := by
    unfold regionSize
    rw [hblk, if_neg (Nat.succ_ne_zero i), Nat.add_sub_cancel, List.getD_eq_getElem?_getD, hi]
    rfl
  refine if_pos ?_
  change p.off + off + n ≤ s.regionSize p.blk
  omega

theorem loadBytes_ok (h : Inside s.pool.regions p) {off n : Nat} (hn : off + n ≤ chkMaxChksize) :
    PoolMem.loadBytes (p.add off) n s = .ok ((s.bits p.blk).bytes (p.off + off) n, s) := by
  unfold PoolMem.loadBytes
  rw [Exec.bind_of_ok (access_ok h hn)]
  rfl

theorem storeBytes_ok (h : Inside s.pool.regions p) {off : Nat} {l : List Byte}
    (hn : off + l.length ≤ chkMaxChksize) :
    PoolMem.storeBytes (p.add off) l s =
      .ok ((), s.setBits p.blk ((s.bits p.blk).writeBytes (p.off + off) l)) := by
  unfold PoolMem.storeBytes
  rw [Exec.bind_of_ok (access_ok h hn)]
  rfl

theorem bzero_ok (h : Inside s.pool.regions p) :
    PoolMem.bzero p chkMaxChksize s =
      .ok ((), s.setBits p.blk ((s.bits p.blk).clear (8 * p.off) (8 * chkMaxChksize))) := by
  unfold PoolMem.bzero
  have haccess : PoolMem.access p chkMaxChksize s = .ok ((), s) :=
    access_ok h (Nat.le_of_eq (Nat.zero_add chkMaxChksize))
  rw [Exec.bind_of_ok haccess]
  rfl

theorem ofPool_ok {α : Type} {x : PoolProg α} {a : α} {m : ChkMemalign}
    (h : x s.pool = .ok (a, m)) : PoolMem.ofPool x s =
      .ok (a, ⟨m, fun b => if s.pool.regions.length < b then Bits.zero else s.bits b⟩) := by
  unfold PoolMem.ofPool
  rw [h]

theorem ofPool_error {α : Type} {x : PoolProg α} {e : Fault} (h : x s.pool = .error e) :
    PoolMem.ofPool x s = .error e := by
  unfold PoolMem.ofPool
  rw [h]

theorem dellocateFunc_ok (s : PoolMem) (p : Ptr) {size : Nat} (hsize : size ≤ chkMaxChksize) :
    PoolMem.dellocateFunc p size s =
      .ok ((), ⟨{ s.pool with
        freeChunks := p :: s.pool.freeChunks, usedChunks := wrapInt (s.pool.usedChunks - 1) },
        fun b => if s.pool.regions.length < b then Bits.zero else s.bits b⟩) := by
  unfold PoolMem.dellocateFunc
  rw [Exec.bind_of_ok (Exec.require_of hsize _ _)]
  exact PoolMem.ofPool_ok rfl

end PoolMem

theorem PoolMem.setBits_apart {s : PoolMem} {p q : Ptr} {m : Bits} {i : Nat}
    (hm : forall j, j < 8 * p.off ∨ 8 * p.off + 8 * chkMaxChksize ≤ j -> m j = s.bits p.blk j)
    (hapart : Apart p q) (hi : i < 8 * chkMaxChksize) :
    (s.setBits p.blk m).bits q.blk (8 * q.off + i) = s.bits q.blk (8 * q.off + i) := by
  unfold PoolMem.setBits
  dsimp only
  by_cases hblk : q.blk = p.blk
  · rw [hblk, Function.update_self]
    refine hm _ ?_
    rcases hapart with hne | hle | hle
    · exact absurd hblk.symm hne
    · right
      omega
    · left
      omega
  · rw [Function.update_of_ne hblk]

theorem PoolMem.setBits_self (s : PoolMem) (blk : Nat) (m : Bits) :
    (s.setBits blk m).bits blk = m := by
  unfold PoolMem.setBits
  dsimp only
  rw [Function.update_self]

/-!
## The fresh blocks behind the blocks in use
-/

/-- Two addresses of which a client holds the one on the pool and the other on fresh memory. -/
structure Stands (block : Nat -> Ptr) (sys : Sys) (p q : Ptr) : Prop where
  ne_null : q ≠ Ptr.null
  off : q.off = 0
  lt : q.blk < sys.next
  same : forall a, sys.allocs q.blk = some a -> p = block q.blk

/-- Every live allocation is a whole chunk and has a block of the pool of its own, with the
same contents; the addresses a client holds correspond; and the blocks of others are what
they were at the beginning. -/
structure Backs (rest : List Ptr) (bits₀ : Nat -> Bits) (block : Nat -> Ptr) (out : List Ptr)
    (s : Held PoolMem) (t : Held World) : Prop where
  shared : Shared s.machine.pool out
  sane : Sane t.machine.sys
  whole : forall b a, t.machine.sys.allocs b = some a -> a = ⟨.chunk, chkMaxChksize⟩
  used : forall b a, t.machine.sys.allocs b = some a -> block b ∈ out
  own : forall b a c d, t.machine.sys.allocs b = some a -> t.machine.sys.allocs c = some d ->
    block b = block c -> b = c
  content : forall b a, t.machine.sys.allocs b = some a -> forall i, i < 8 * chkMaxChksize ->
    s.machine.bits (block b).blk (8 * (block b).off + i) = t.machine.bits b i
  length : s.places.length = t.places.length
  places : forall (k : Nat) (q : Ptr), t.places[k]? = some q -> exists p : Ptr,
    s.places[k]? = some p ∧ Stands block t.machine.sys p q
  others : forall p, p ∈ rest -> p ∈ out ∧
    (forall b a, t.machine.sys.allocs b = some a -> block b ≠ p) ∧
    forall i, i < 8 * chkMaxChksize ->
      s.machine.bits p.blk (8 * p.off + i) = bits₀ p.blk (8 * p.off + i)

/-- The two machines are in states that a client cannot tell apart. -/
def Backed (rest : List Ptr) (bits₀ : Nat -> Bits) (s : Held PoolMem) (t : Held World) : Prop :=
  exists block out, Backs rest bits₀ block out s t

namespace Backs

variable {rest : List Ptr} {bits₀ : Nat -> Bits} {block : Nat -> Ptr} {out : List Ptr}
variable {s : Held PoolMem} {t : Held World}

theorem place (h : Backs rest bits₀ block out s t) {k : Nat} {q : Ptr} {t' : Held World}
    (hrun : ChunkAllocator.place k t = .ok (q, t')) : t' = t ∧
      exists p, ChunkAllocator.place k s = .ok (p, s) ∧ Stands block t.machine.sys p q := by
  unfold ChunkAllocator.place at hrun
  cases hq : t.places[k]? with
  | none =>
      rw [hq] at hrun
      cases hrun
  | some q' =>
      rw [hq] at hrun
      cases hrun
      rcases h.places k q hq with ⟨p, hp, hstands⟩
      refine ⟨rfl, p, ?_, hstands⟩
      unfold ChunkAllocator.place
      rw [hp]

theorem keep (h : Backs rest bits₀ block out s t) {p q : Ptr}
    (hstands : Stands block t.machine.sys p q) :
    Backs rest bits₀ block out { s with places := s.places ++ [p] }
      { t with places := t.places ++ [q] } := by
  refine { h with length := ?_, places := ?_ }
  · simp only [List.length_append, h.length, List.length_singleton]
  · intro k q' hk
    by_cases hlt : k < t.places.length
    · have hk' : t.places[k]? = some q' := (List.getElem?_append_left hlt).symm.trans hk
      rcases h.places k q' hk' with ⟨p', hp', hrest⟩
      refine ⟨p', ?_, hrest⟩
      rw [List.getElem?_append_left (by rw [h.length]; exact hlt)]
      exact hp'
    · have hge : t.places.length ≤ k := Nat.le_of_not_lt hlt
      rw [List.getElem?_append_right hge] at hk
      rcases List.getElem?_eq_some_iff.mp hk with ⟨hzero, hq⟩
      have hk' : k - t.places.length = 0 := Nat.lt_one_iff.mp hzero
      have hqq : q = q' := by simpa only [hk', List.getElem_cons_zero] using hq
      subst hqq
      refine ⟨p, ?_, hstands⟩
      rw [List.getElem?_append_right (by rw [h.length]; exact hge), h.length, hk']
      rfl

theorem inside (h : Backs rest bits₀ block out s t) {b : Nat} {a : Allocation}
    (hb : t.machine.sys.allocs b = some a) : Inside s.machine.pool.regions (block b) :=
  h.shared.inside (h.used b a hb)

theorem apart (h : Backs rest bits₀ block out s t) {b c : Nat} {a d : Allocation}
    (hb : t.machine.sys.allocs b = some a) (hc : t.machine.sys.allocs c = some d) (hne : b ≠ c) :
    Apart (block b) (block c) :=
  h.shared.apart (h.used b a hb) (h.used c d hc) fun heq => hne (h.own b a c d hb hc heq)

end Backs

/-!
## The functions
-/

def Refused (available : Nat -> Bool) (e : Fault) : Prop :=
  e = .assertion ∧ exists k, available k = false

section

variable {env : Env} {available : Nat -> Bool} {rest : List Ptr} {bits₀ : Nat -> Bits}
variable {block : Nat -> Ptr} {out : List Ptr}
variable {s : PoolMem} {w : World} {ps qs : List Ptr}

/-- With the pool, a request the system serves leads to a fresh chunk of full size. -/
theorem allocate_fresh (hm : env.memalign = true) (hok : env.AllOk) (hw : Sane w.sys)
    {size : Nat} {q : Ptr} {w' : World} (hrun : ChunkMem.allocate env size w = .ok (q, w')) :
    size ≤ chkMaxChksize ∧ q = w.freshPtr ∧ w' = w.obtained .chunk chkMaxChksize Bits.zero := by
  have hsize : env.memalign = true -> size ≤ chkMaxChksize := by
    by_contra hcon
    unfold ChunkMem.allocate at hrun
    rw [Exec.bind_of_error (Exec.require_of_not hcon _ _)] at hrun
    cases hrun
  have hbuf : env.chunkBufSize size = chkMaxChksize := if_pos hm
  rcases (allocate_ensures hw hsize).of_ok hrun with ⟨hq, hw'⟩ | ⟨-, hfail, -⟩
  · rw [hbuf] at hw'
    exact ⟨hsize hm, hq, hw'⟩
  · exact absurd hok hfail

theorem Backs.allocateFunc (h : Backs rest bits₀ block out ⟨s, ps⟩ ⟨w, qs⟩) {size : Nat}
    (hsize : size ≤ chkMaxChksize) :
    Exec.Ensures (PoolMem.allocateFunc available size s)
      (fun p s' => exists block', block' w.sys.next = p ∧
        Backs rest bits₀ block' (p :: out) ⟨s', ps⟩ ⟨w.obtained .chunk chkMaxChksize Bits.zero, qs⟩)
      (Refused available) := by
  have hshared : Shared s.pool out := h.shared
  unfold PoolMem.allocateFunc
  rw [Exec.bind_of_ok (Exec.require_of hsize _ _), Exec.bind_of_ok (Exec.state_apply s)]
  rcases hshared.alloc (available s.pool.regions.length) with
    ⟨p, m', hrun, hfresh, h'⟩ | ⟨hnone, -, hrun⟩
  · have hin := h'.inside List.mem_cons_self
    rw [Exec.bind_of_ok (PoolMem.ofPool_ok hrun), if_neg hin.ne_null,
      Exec.bind_of_ok (PoolMem.bzero_ok hin)]
    refine ⟨Function.update block w.sys.next p, Function.update_self _ _ _, ?_⟩
    have hold : forall {b a}, (w.obtained .chunk chkMaxChksize Bits.zero).sys.allocs b = some a ->
        b ≠ w.sys.next -> w.sys.allocs b = some a := by
      intro b a hb hne
      rw [← World.obtained_allocs_other w .chunk chkMaxChksize Bits.zero hne]
      exact hb
    have hself : Function.update block w.sys.next p w.sys.next = p := Function.update_self _ _ _
    have hother : forall {b}, b ≠ w.sys.next ->
        Function.update block w.sys.next p b = block b := fun hne => Function.update_of_ne hne _ _
    constructor
    case shared => exact h'
    case sane => exact h.sane.obtained _ _ _
    case whole =>
      intro b a hb
      by_cases hnew : b = w.sys.next
      · rw [hnew, World.obtained_allocs_self] at hb
        cases hb
        rfl
      · exact h.whole b a (hold hb hnew)
    case used =>
      intro b a hb
      by_cases hnew : b = w.sys.next
      · rw [hnew, hself]
        exact List.mem_cons_self
      · rw [hother hnew]
        exact List.mem_cons_of_mem p (h.used b a (hold hb hnew))
    case own =>
      intro b a c d hb hc heq
      by_cases hnew : b = w.sys.next
      · by_cases hnew' : c = w.sys.next
        · exact hnew.trans hnew'.symm
        · rw [hnew, hself, hother hnew'] at heq
          exact absurd (heq ▸ h.used c d (hold hc hnew')) hfresh
      · by_cases hnew' : c = w.sys.next
        · rw [hnew', hself, hother hnew] at heq
          exact absurd (heq ▸ h.used b a (hold hb hnew)) hfresh
        · rw [hother hnew, hother hnew'] at heq
          exact h.own b a c d (hold hb hnew) (hold hc hnew') heq
    case content =>
      intro b a hb i hi
      by_cases hnew : b = w.sys.next
      · -- Both the block and the fresh chunk are clear.
        rw [hnew, hself]
        dsimp only
        rw [PoolMem.setBits_self, Bits.clear_inside (by omega) (by omega),
          World.obtained_bits_self]
        rfl
      · have hlive := hold hb hnew
        have hused := h.used b a hlive
        have hne : p ≠ block b := fun heq => hfresh (heq ▸ hused)
        have hapart := h'.apart List.mem_cons_self (List.mem_cons_of_mem p hused) hne
        have hregion : ¬s.pool.regions.length < (block b).blk :=
          Nat.not_lt.mpr (h.inside hlive).blk_le
        rw [hother hnew]
        dsimp only
        rw [PoolMem.setBits_apart (fun j hj => Bits.clear_outside hj) hapart hi,
          World.obtained_bits_other w _ _ _ hnew]
        dsimp only
        rw [if_neg hregion]
        exact h.content b a hlive i hi
    case length => exact h.length
    case places =>
      intro k q hk
      rcases h.places k q hk with ⟨p', hp', hstands⟩
      refine ⟨p', hp', hstands.ne_null, hstands.off, Nat.lt_succ_of_lt hstands.lt, ?_⟩
      intro a hb
      have hne : q.blk ≠ w.sys.next := Nat.ne_of_lt hstands.lt
      rw [hother hne]
      exact hstands.same a (hold hb hne)
    case others =>
      intro p' hp'
      rcases h.others p' hp' with ⟨hused, hapart, hkept⟩
      have hne : p ≠ p' := fun heq => hfresh (heq ▸ hused)
      have hregion : ¬s.pool.regions.length < p'.blk :=
        Nat.not_lt.mpr (hshared.inside hused).blk_le
      refine ⟨List.mem_cons_of_mem p hused, fun b a hb => ?_, fun i hi => ?_⟩
      · by_cases hnew : b = w.sys.next
        · rw [hnew, hself]
          exact hne
        · rw [hother hnew]
          exact hapart b a (hold hb hnew)
      · have hblocks := h'.apart List.mem_cons_self (List.mem_cons_of_mem p hused) hne
        dsimp only
        rw [PoolMem.setBits_apart (fun j hj => Bits.clear_outside hj) hblocks hi]
        dsimp only
        rw [if_neg hregion]
        exact hkept i hi
  · rw [Exec.bind_of_error (PoolMem.ofPool_error hrun)]
    exact ⟨rfl, _, hnone⟩

theorem Backs.released (h : Backs rest bits₀ block out ⟨s, ps⟩ ⟨w, qs⟩) {p q : Ptr} {a : Allocation}
    (hstands : Stands block w.sys p q) (hq : w.sys.allocs q.blk = some a) {size : Nat}
    (hsize : size ≤ chkMaxChksize) :
    exists s', PoolMem.dellocateFunc p size s = .ok ((), s') ∧
      Backs rest bits₀ block (out.erase p) ⟨s', ps⟩ ⟨w.released q.blk, qs⟩ := by
  have hp := hstands.same a hq
  have hmem : p ∈ out := hp ▸ h.used q.blk a hq
  have hshared : Shared s.pool out := h.shared
  refine ⟨_, PoolMem.dellocateFunc_ok s p hsize, ?_⟩
  have hold : forall {b d}, (w.released q.blk).sys.allocs b = some d ->
      b ≠ q.blk ∧ w.sys.allocs b = some d := by
    intro b d hb
    have hne : b ≠ q.blk := by
      rintro rfl
      rw [World.released_allocs_self] at hb
      cases hb
    rw [World.released_allocs_other w hne] at hb
    exact ⟨hne, hb⟩
  constructor
  case shared => exact hshared.dellocate hmem
  case sane => exact h.sane.released _
  case whole => exact fun b d hb => h.whole b d (hold hb).2
  case used =>
    intro b d hb
    have hne : block b ≠ p := by
      intro heq
      exact (hold hb).1 (h.own b d q.blk a (hold hb).2 hq (heq.trans hp))
    exact (List.mem_erase_of_ne hne).mpr (h.used b d (hold hb).2)
  case own => exact fun b d c e hb hc heq => h.own b d c e (hold hb).2 (hold hc).2 heq
  case content =>
    intro b d hb i hi
    have hregion : ¬s.pool.regions.length < (block b).blk :=
      Nat.not_lt.mpr (h.inside (hold hb).2).blk_le
    dsimp only
    rw [if_neg hregion]
    exact h.content b d (hold hb).2 i hi
  case length => exact h.length
  case places =>
    intro k q' hk
    rcases h.places k q' hk with ⟨p', hp', hplace⟩
    exact ⟨p', hp', hplace.ne_null, hplace.off, hplace.lt,
      fun d hb => hplace.same d (hold hb).2⟩
  case others =>
    intro p' hp'
    rcases h.others p' hp' with ⟨hused, hapart, hkept⟩
    have hne : p' ≠ p := fun heq => hapart q.blk a hq (heq.trans hp).symm
    have hregion : ¬s.pool.regions.length < p'.blk :=
      Nat.not_lt.mpr (hshared.inside hused).blk_le
    refine ⟨(List.mem_erase_of_ne hne).mpr hused, fun b d hb => hapart b d (hold hb).2,
      fun i hi => ?_⟩
    dsimp only
    rw [if_neg hregion]
    exact hkept i hi

theorem Backs.stored (h : Backs rest bits₀ block out ⟨s, ps⟩ ⟨w, qs⟩) {p q : Ptr} {a : Allocation}
    (hstands : Stands block w.sys p q) (hq : w.sys.allocs q.blk = some a) {off : Nat}
    {l : List Byte} (hl : off + l.length ≤ chkMaxChksize) :
    Backs rest bits₀ block out ⟨s.setBits p.blk ((s.bits p.blk).writeBytes (p.off + off) l), ps⟩
      ⟨w.setBits q.blk ((w.bits q.blk).writeBytes (q.off + off) l), qs⟩ := by
  have hp := hstands.same a hq
  have houtside : forall j, j < 8 * p.off ∨ 8 * p.off + 8 * chkMaxChksize ≤ j ->
      (s.bits p.blk).writeBytes (p.off + off) l j = s.bits p.blk j := by
    intro j hj
    exact Bits.writeBytes_outside (by omega)
  refine { h with content := ?_, others := ?_ }
  · intro b d hb i hi
    by_cases hself : b = q.blk
    · rw [hself, ← hp]
      dsimp only
      have hold : s.bits p.blk (8 * p.off + i) = w.bits q.blk i := by
        have hcontent := h.content q.blk a hq i hi
        rw [← hp] at hcontent
        exact hcontent
      have hworld : (w.setBits q.blk ((w.bits q.blk).writeBytes (q.off + off) l)).bits q.blk =
          (w.bits q.blk).writeBytes (q.off + off) l := Function.update_self _ _ _
      rw [PoolMem.setBits_self, hworld, hstands.off, Nat.zero_add]
      by_cases hin : 8 * off ≤ i ∧ i < 8 * off + 8 * l.length
      · rw [Bits.writeBytes_inside (by omega) (by omega), Bits.writeBytes_inside hin.1 hin.2]
        congr 1
        omega
      · rw [Bits.writeBytes_outside (by omega), Bits.writeBytes_outside (by omega)]
        exact hold
    · have hapart : Apart p (block b) := by
        rw [hp]
        exact h.apart hq hb (Ne.symm hself)
      have hworld : (w.setBits q.blk ((w.bits q.blk).writeBytes (q.off + off) l)).bits b =
          w.bits b := Function.update_of_ne hself _ _
      dsimp only
      rw [PoolMem.setBits_apart houtside hapart hi, hworld]
      exact h.content b d hb i hi
  · intro p' hp'
    rcases h.others p' hp' with ⟨hused, hapart, hkept⟩
    have hne : p ≠ p' := fun heq => hapart q.blk a hq (hp.symm.trans heq)
    have hblocks : Apart p p' := h.shared.apart (hp ▸ h.used q.blk a hq) hused hne
    refine ⟨hused, hapart, fun i hi => ?_⟩
    dsimp only
    rw [PoolMem.setBits_apart houtside hblocks hi]
    exact hkept i hi

theorem Backs.loaded (h : Backs rest bits₀ block out ⟨s, ps⟩ ⟨w, qs⟩) {p q : Ptr} {a : Allocation}
    (hstands : Stands block w.sys p q) (hq : w.sys.allocs q.blk = some a) {off n : Nat}
    (hn : off + n ≤ chkMaxChksize) :
    (s.bits p.blk).bytes (p.off + off) n = (w.bits q.blk).bytes (q.off + off) n := by
  have hp := hstands.same a hq
  apply Bits.bytes_congr
  intro i hi
  have hcontent := h.content q.blk a hq (8 * off + i) (by omega)
  rw [← hp] at hcontent
  rw [hstands.off, Nat.mul_add, Nat.add_assoc, Nat.zero_add]
  exact hcontent

end

/-!
## Requests
-/

namespace ChunkAllocator

variable {σ α : Type} {x : Exec σ Fault α} {h h' : Held σ} {a : α}

theorem onMachine_ok {s : σ} (hx : x h.machine = .ok (a, s)) :
    onMachine x h = .ok (a, { h with machine := s }) := by
  unfold onMachine
  rw [hx]

theorem onMachine_error {e : Fault} (hx : x h.machine = .error e) :
    onMachine x h = .error e := by
  unfold onMachine
  rw [hx]

theorem onMachine_bind_congr {β : Type} {y : Exec σ Fault α} (f : α -> Exec (Held σ) Fault β)
    (hxy : x h.machine = y h.machine) : (onMachine x >>= f) h = (onMachine y >>= f) h := by
  rw [Exec.bind_apply, Exec.bind_apply]
  unfold onMachine
  rw [hxy]

theorem of_onMachine (hrun : onMachine x h = .ok (a, h')) :
    exists s, x h.machine = .ok (a, s) ∧ h' = { h with machine := s } := by
  unfold onMachine at hrun
  cases hx : x h.machine with
  | error e =>
      rw [hx] at hrun
      cases hrun
  | ok r =>
      rw [hx] at hrun
      cases hrun
      exact ⟨r.2, rfl, rfl⟩

theorem onMachine_ensures {Q : α -> σ -> Prop} {E : Fault -> Prop}
    (hx : Exec.Ensures (x h.machine) Q E) :
    Exec.Ensures (onMachine x h) (fun b k => Q b k.machine ∧ k.places = h.places) E := by
  cases hres : x h.machine with
  | error e =>
      rw [hres] at hx
      rw [onMachine_error hres]
      exact hx
  | ok r =>
      rw [hres] at hx
      rw [onMachine_ok (a := r.1) (s := r.2) hres]
      exact ⟨hx, rfl⟩

end ChunkAllocator

open ChunkAllocator

section

variable {env : Env} {available : Nat -> Bool} {rest : List Ptr} {bits₀ : Nat -> Bits}
variable {block : Nat -> Ptr} {out : List Ptr}
variable {s : Held PoolMem} {t : Held World}

theorem Backs.allocate_follows (hm : env.memalign = true) (hok : env.AllOk)
    (h : Backs rest bits₀ block out s t) (size : Nat) :
    Exec.Follows (Backed rest bits₀) (Refused available)
      ((onMachine (PoolMem.allocateFunc available size) >>= ChunkAllocator.keep) s)
      ((onMachine (ChunkMem.allocate env size) >>= ChunkAllocator.keep) t) := by
  intro r t' hrun
  rcases Exec.ok_of_bind hrun with ⟨q, t₁, hfirst, hkeep⟩
  rcases of_onMachine hfirst with ⟨w', halloc, rfl⟩
  rcases allocate_fresh hm hok h.sane halloc with ⟨hsize, rfl, rfl⟩
  cases hkeep
  refine Exec.Ensures.bind (onMachine_ensures (h.allocateFunc hsize)) ?_
  rintro p ⟨s', ps⟩ ⟨⟨block', hblock, hbacks⟩, hplaces⟩
  subst hplaces
  refine ⟨rfl, block', p :: out, hbacks.keep ⟨h.sane.freshPtr_ne_null, rfl, ?_, ?_⟩⟩
  · exact Nat.lt_succ_self _
  · intro a _
    exact hblock.symm

theorem reallocate_of_null (w : World) (orgSize size : Nat) :
    ChunkMem.reallocate env Ptr.null orgSize size w = ChunkMem.allocate env size w := by
  by_cases hsize : env.memalign = true -> size ≤ chkMaxChksize
  · exact Exec.bind_of_ok (Exec.require_of hsize _ _)
  · have herror := Exec.require_of_not hsize Fault.assertion w
    exact (Exec.bind_of_error herror).trans (Exec.bind_of_error herror).symm

theorem PoolMem.reallocFunc_null (s : PoolMem) (orgSize size : Nat) :
    PoolMem.reallocFunc available Ptr.null orgSize size s =
      PoolMem.allocateFunc available size s := by
  by_cases hsize : size ≤ chkMaxChksize
  · exact Exec.bind_of_ok (Exec.require_of hsize _ _)
  · have herror := Exec.require_of_not hsize Fault.assertion s
    exact (Exec.bind_of_error herror).trans (Exec.bind_of_error herror).symm

theorem dellocate_inv (hm : env.memalign = true) {w w' : World} {q : Ptr} {size : Nat}
    (hrun : ChunkMem.dellocate env q size w = .ok ((), w')) :
    size ≤ chkMaxChksize ∧ w.sys.Owns .chunk q ∧ w' = w.released q.blk := by
  unfold ChunkMem.dellocate at hrun
  by_cases hsize : env.memalign = true -> size ≤ chkMaxChksize
  · rw [Exec.bind_of_ok (Exec.require_of hsize _ _)] at hrun
    by_cases howns : w.sys.Owns .chunk q
    · rw [release_ok howns] at hrun
      cases hrun
      exact ⟨hsize hm, howns, rfl⟩
    · rw [release_bad howns] at hrun
      cases hrun
  · rw [Exec.bind_of_error (Exec.require_of_not hsize _ _)] at hrun
    cases hrun

/-- With the pool, what is reallocated is a live chunk, and stays where it is. -/
theorem reallocate_inv (hm : env.memalign = true) {w w' : World} {q r : Ptr} {orgSize size : Nat}
    (hne : q ≠ Ptr.null) (hrun : ChunkMem.reallocate env q orgSize size w = .ok (r, w')) :
    size ≤ chkMaxChksize ∧ w.sys.Owns .chunk q ∧ r = q ∧ w' = w := by
  unfold ChunkMem.reallocate at hrun
  by_cases hsize : env.memalign = true -> size ≤ chkMaxChksize
  · rw [Exec.bind_of_ok (Exec.require_of hsize _ _), if_neg hne,
      Exec.bind_of_ok (Exec.state_apply w)] at hrun
    by_cases howns : w.sys.Owns .chunk q
    · rw [Exec.bind_of_ok (Exec.require_of howns _ _), if_pos hm] at hrun
      cases hrun
      exact ⟨hsize hm, howns, rfl, rfl⟩
    · rw [Exec.bind_of_error (Exec.require_of_not howns _ _)] at hrun
      cases hrun
  · rw [Exec.bind_of_error (Exec.require_of_not hsize _ _)] at hrun
    cases hrun

theorem access_inv {w w' : World} {q : Ptr} {n : Nat}
    (hrun : ChunkMem.access q n w = .ok ((), w')) : w.sys.Inside q n ∧ w' = w := by
  unfold ChunkMem.access at hrun
  by_cases hin : w.sys.Inside q n
  · rw [if_pos hin] at hrun
    cases hrun
    exact ⟨hin, rfl⟩
  · rw [if_neg hin] at hrun
    cases hrun

theorem Backs.inside_whole (h : Backs rest bits₀ block out s t) {p q : Ptr} {off n : Nat}
    (hstands : Stands block t.machine.sys p q)
    (hin : t.machine.sys.Inside (q.add off) (8 * n)) :
    exists a, t.machine.sys.allocs q.blk = some a ∧ off + n ≤ chkMaxChksize := by
  rcases hin with ⟨a, ha, hle⟩
  have hwhole := h.whole q.blk a ha
  subst hwhole
  refine ⟨_, ha, ?_⟩
  have hoff := hstands.off
  simp only [Ptr.add] at hle
  omega

theorem Backed.serve (hm : env.memalign = true) (hok : env.AllOk) (req : ChunkRequest)
    (s : Held PoolMem) (t : Held World) (h : Backed rest bits₀ s t) :
    Exec.Follows (Backed rest bits₀) (Refused available)
      ((PoolMem.allocator available).serve req s) ((World.allocator env).serve req t) := by
  rcases h with ⟨block, out, h⟩
  cases req with
  | allocate size => exact h.allocate_follows hm hok size
  | dellocate k size =>
      intro r t' hrun
      rcases Exec.ok_of_bind hrun with ⟨q, t₁, hplace, hrest⟩
      rcases h.place hplace with ⟨rfl, p, hplace', hstands⟩
      rcases Exec.ok_of_bind hrest with ⟨u, t₂, hfree, hdone⟩
      rcases of_onMachine hfree with ⟨w', hdell, rfl⟩
      rcases dellocate_inv hm hdell with ⟨hsize, howns, rfl⟩
      cases hdone
      rcases Option.map_eq_some_iff.mp howns.2 with ⟨a, ha, -⟩
      rcases h.released hstands ha hsize with ⟨s', hrun', hbacks⟩
      refine Exec.Ensures.of_eq ((Exec.bind_of_ok hplace').trans ?_) ⟨rfl, block, _, hbacks⟩
      exact (Exec.bind_of_ok (onMachine_ok hrun')).trans rfl
  | reallocate k orgSize size =>
      cases k with
      | none =>
          have hworld : (World.allocator env).serve (.reallocate none orgSize size) t =
              (World.allocator env).serve (.allocate size) t :=
            onMachine_bind_congr _ (reallocate_of_null t.machine orgSize size)
          have hpool : (PoolMem.allocator available).serve (.reallocate none orgSize size) s =
              (PoolMem.allocator available).serve (.allocate size) s :=
            onMachine_bind_congr _ (PoolMem.reallocFunc_null s.machine orgSize size)
          rw [hworld, hpool]
          exact h.allocate_follows hm hok size
      | some k =>
          intro r t' hrun
          rcases Exec.ok_of_bind hrun with ⟨q, t₁, hplace, hrest⟩
          rcases h.place hplace with ⟨rfl, p, hplace', hstands⟩
          rcases Exec.ok_of_bind hrest with ⟨q', t₂, hre, hkeep⟩
          rcases of_onMachine hre with ⟨w', hreall, rfl⟩
          rcases reallocate_inv hm hstands.ne_null hreall with ⟨hsize, howns, rfl, rfl⟩
          cases hkeep
          rcases Option.map_eq_some_iff.mp howns.2 with ⟨a, ha, -⟩
          have hp := hstands.same a ha
          have hne : p ≠ Ptr.null := hp ▸ (h.inside ha).ne_null
          have hrun' : PoolMem.reallocFunc available p orgSize size s.machine =
              .ok (p, s.machine) := by
            unfold PoolMem.reallocFunc
            rw [Exec.bind_of_ok (Exec.require_of hsize _ _), if_neg hne]
            rfl
          refine Exec.Ensures.of_eq ((Exec.bind_of_ok hplace').trans ?_)
            ⟨rfl, block, out, h.keep hstands⟩
          exact (Exec.bind_of_ok (onMachine_ok hrun')).trans rfl
  | load k off n =>
      intro r t' hrun
      rcases Exec.ok_of_bind hrun with ⟨q, t₁, hplace, hrest⟩
      rcases h.place hplace with ⟨rfl, p, hplace', hstands⟩
      rcases Exec.ok_of_bind hrest with ⟨l, t₂, hload, hdone⟩
      rcases of_onMachine hload with ⟨w', hbytes, rfl⟩
      rcases Exec.ok_of_bind hbytes with ⟨v, w₁, haccess, hread⟩
      rcases access_inv haccess with ⟨hin, rfl⟩
      cases hread
      cases hdone
      rcases h.inside_whole hstands hin with ⟨a, ha, hle⟩
      have hblock : Inside s.machine.pool.regions p := by
        rw [hstands.same a ha]
        exact h.inside ha
      have hrun' := PoolMem.loadBytes_ok hblock hle
      rw [h.loaded hstands ha hle] at hrun'
      refine Exec.Ensures.of_eq ((Exec.bind_of_ok hplace').trans ?_) ⟨rfl, block, out, h⟩
      exact (Exec.bind_of_ok (onMachine_ok hrun')).trans rfl
  | store k off l =>
      intro r t' hrun
      rcases Exec.ok_of_bind hrun with ⟨q, t₁, hplace, hrest⟩
      rcases h.place hplace with ⟨rfl, p, hplace', hstands⟩
      rcases Exec.ok_of_bind hrest with ⟨u, t₂, hstore, hdone⟩
      rcases of_onMachine hstore with ⟨w', hbytes, rfl⟩
      rcases Exec.ok_of_bind hbytes with ⟨v, w₁, haccess, hwrite⟩
      rcases access_inv haccess with ⟨hin, rfl⟩
      cases hwrite
      cases hdone
      rcases h.inside_whole hstands hin with ⟨a, ha, hle⟩
      have hblock : Inside s.machine.pool.regions p := by
        rw [hstands.same a ha]
        exact h.inside ha
      have hrun' := PoolMem.storeBytes_ok hblock hle
      refine Exec.Ensures.of_eq ((Exec.bind_of_ok hplace').trans ?_)
        ⟨rfl, block, out, h.stored hstands ha hle⟩
      exact (Exec.bind_of_ok (onMachine_ok hrun')).trans rfl

end

theorem Backed.start {m : ChkMemalign} {out : List Ptr} (h : Shared m out) (bits : Nat -> Bits)
    {w : World} (hw : w.sys = Sys.init) : Backed out bits ⟨⟨m, bits⟩, []⟩ ⟨w, []⟩ := by
  have hnone : forall {b a}, w.sys.allocs b ≠ some a := by
    intro b a hb
    rw [hw] at hb
    cases hb
  refine ⟨fun _ => Ptr.null, out, ?_⟩
  constructor
  case shared => exact h
  case sane => exact hw.symm ▸ World.boot_fresh.sane
  case whole => exact fun b a hb => absurd hb hnone
  case used => exact fun b a hb => absurd hb hnone
  case own => exact fun b a c d hb => absurd hb hnone
  case content => exact fun b a hb => absurd hb hnone
  case length => rfl
  case places =>
    intro k q hk
    cases hk
  case others => exact fun p hp => ⟨hp, fun b a hb => absurd hb hnone, fun i _ => rfl⟩

/-- Whatever code asks for chunks and does with them, in any order: where it makes no error
with an allocator that never hands out a chunk twice, it sees the same and ends with the same
result on the pool, from every state of the pool, and what the others keep in their blocks
stays as it is; only when a refill finds no memory does it stop at the assertion. -/
theorem PoolReach.as_fresh {m : ChkMemalign} {out : List Ptr} (h : PoolReach m out) {env : Env}
    (hm : env.memalign = true) (hok : env.AllOk) (available : Nat -> Bool) (bits : Nat -> Bits)
    {w : World} (hw : w.sys = Sys.init) {α : Type} {c : Client ChunkRequest ChunkAnswer α} {a : α}
    {t : Held World} (hrun : c.run (World.allocator env).serve ⟨w, []⟩ = .ok (a, t)) :
    Exec.Ensures (c.run (PoolMem.allocator available).serve ⟨⟨m, bits⟩, []⟩)
      (fun b s => b = a ∧ forall p, p ∈ out ->
        (s.machine.bits p.blk).bytes p.off chkMaxChksize =
          (bits p.blk).bytes p.off chkMaxChksize)
      (fun e => e = .assertion ∧ exists k, available k = false) := by
  have hfollows := Client.run_follows (R := Backed out bits) (E := Refused available)
    (fun req s t hst => hst.serve hm hok req s t) c _ _ (Backed.start h.shared bits hw)
  refine (hfollows a t hrun).mono ?_ fun e he => he
  rintro b s ⟨heq, block, out', hbacks⟩
  refine ⟨heq, fun p hp => ?_⟩
  exact Bits.bytes_congr fun i hi => (hbacks.others p hp).2.2 i hi

section Sample

def Env.pooled : Env :=
  { Env.plain with memalign := true, uncompressSplit := true, split_of_memalign := fun _ => rfl }

def takeTwice : Client ChunkRequest ChunkAnswer ChunkAnswer :=
  .ask (.allocate 4096) fun _ => .ask (.store 0 100 [1, 2]) fun _ =>
  .ask (.dellocate 0 4096) fun _ => .ask (.allocate 4096) fun _ =>
  .ask (.load 1 100 2) .done

/-- The block is clear again. -/
theorem PoolReach.as_fresh_sample : exists m, PoolReach m [] ∧
    Exec.Ensures (takeTwice.run (PoolMem.allocator fun _ => true).serve
        ⟨⟨m, fun _ => Bits.zero⟩, []⟩)
      (fun b _ => b = .bytes [0, 0]) (fun _ => False) := by
  rcases PoolReach.exists_used 0 with ⟨m, out, hreach, hlength⟩
  cases List.length_eq_zero_iff.mp hlength
  have hcode : (takeTwice.run (World.allocator Env.pooled).serve ⟨World.boot, []⟩).toOption.map
      Prod.fst = some (.bytes [0, 0]) := by decide +kernel
  cases hrun : takeTwice.run (World.allocator Env.pooled).serve ⟨World.boot, []⟩ with
  | error e =>
      rw [hrun] at hcode
      cases hcode
  | ok rt =>
      rw [hrun] at hcode
      have hanswer : rt.1 = .bytes [0, 0] := Option.some.inj hcode
      have henv : Env.pooled.memalign = true := rfl
      have hall : Env.pooled.AllOk := Env.plain_allOk
      have hsame := PoolReach.as_fresh hreach henv hall (fun _ => true)
        (fun _ => Bits.zero) rfl hrun
      refine ⟨m, hreach, hsame.mono (fun b _ hb => hb.1.trans hanswer) ?_⟩
      rintro e ⟨-, k, hk⟩
      cases hk

end Sample

end ChunkMem
