import ChunkMem.Session.Calls

/-!
# What every session keeps

In every session the index stores some content, the blocks the program holds
are blocks of that content, and they are as large as was asked for.  Each call
keeps this, so every run does.
-/

namespace ChunkMem

open Foundation

/-- The session stores a content with the blocks the program holds. -/
structure Valid (env : Env) (s : Session) (c : Content) (L : Layout) : Prop where
  stored : Stored env s.world c L
  settled : Settled c L
  wf : Content.WF env.freeSize (s.live.map Live.block) c
  ptr : forall l, l ∈ s.live -> l.ptr = blockPtr l.block
  pos : forall l, l ∈ s.live -> 0 < l.ptr.size
  size : forall l, l ∈ s.live -> l.size ≤ 8 * l.ptr.size

/-- `shrink` at this point releases nothing it does not own: there is
nothing to shrink, or the last chunk owns its allocation, or it has less than a
kilobyte to give back, or its copy finds no memory. -/
def ShrinkSafe (env : Env) (w : World) : Prop :=
  let last := w.index.chkNum - 1
  let kept := Uncompressed.shrunk (w.virginOf last)
  w.LastOwns ∨ w.capacityOf last = kept ∨
    (kept ≤ w.capacityOf last - kept ∧ env.ok w.sys.tick = false)

/-!
## Fields in memory
-/

namespace Uncompressed

variable {env : Env} {w : World} {c : Content} {L : Layout} {k : Nat}

theorem capacityOf_eq (h : Uncompressed env w c L) (hk : k < c.num) :
    w.capacityOf k = L.cap k := (h.image k hk).capacity

theorem usedOf_eq (h : Uncompressed env w c L) (hk : k < c.num) :
    w.usedOf k = (c.body k).used := (h.image k hk).used

theorem virginOf_eq (h : Uncompressed env w c L) (hk : k < c.num) :
    w.virginOf k = (c.body k).virgin := (h.image k hk).virgin

theorem noOf_eq (h : Uncompressed env w c L) (hk : k < c.num) : w.noOf k = k :=
  (h.image k hk).no

theorem allocCapacityOf_eq (h : Uncompressed env w c L) (hk : k < c.num) :
    w.allocCapacityOf k = L.own k := h.own k hk

theorem lastOwns_iff (h : Uncompressed env w c L) :
    w.LastOwns <-> c.num = 0 ∨ L.own (c.num - 1) ≠ 0 := by
  unfold World.LastOwns
  rw [h.num]
  by_cases hz : c.num = 0
  · exact ⟨fun _ => Or.inl hz, fun _ => Or.inl hz⟩
  · rw [h.allocCapacityOf_eq (by omega)]

end Uncompressed

/-!
## Shrinking in either form
-/

namespace Stored

variable {env : Env} {w : World} {c : Content} {L : Layout} {bs : List Block}

theorem shrink_none (hz : w.index.chkNum = 0) : ChkIndex.shrink env w = .ok ((), w) := by
  unfold ChkIndex.shrink
  rw [Exec.bind_of_ok (getIndex_apply w), if_pos hz]
  rfl

theorem shrink_ensures (h : Stored env w c L) (hwf : Content.WF env.freeSize bs c)
    (hset : Settled c L) (hsafe : ShrinkSafe env w) :
    Exec.Ensures (ChkIndex.shrink env w) (fun _ w' => Kept env L w' c) (Tolerated env) := by
  by_cases hz : w.index.chkNum = 0
  · rw [shrink_none hz]
    exact kept h hset
  · have hu : Uncompressed env w c L := h.resolve_right fun hc => hz hc.num
    have hn := hu.num
    have hk : c.num - 1 + 1 = c.num := by omega
    by_cases hown : L.own (c.num - 1) = 0
    · have hrun := hu.shrink_shared hk hown
      unfold ShrinkSafe at hsafe
      simp only [hu.lastOwns_iff, hn, hu.capacityOf_eq (k := c.num - 1) (by omega),
        hu.virginOf_eq (k := c.num - 1) (by omega)] at hsafe
      rw [hrun]
      rcases hsafe with hlast | hsame | ⟨hle, hok⟩
      · omega
      · rw [if_pos hsame]
        exact kept h hset
      · split
        · exact kept h hset
        · rw [if_neg (by rw [hok]; simp only [Bool.false_eq_true, or_false]; omega)]
          exact kept (Or.inl hu.skipped) hset
    · refine (hu.shrink_ensures hwf.tiling hset hk hown).mono ?_ (fun _ he => he)
      rintro _ w' (h' | ⟨-, h'⟩)
      · exact ⟨_, Or.inl h', Layout.resize_settled hset hk _, rfl⟩
      · exact kept (Or.inl h') hset

theorem shrink_bad (h : Stored env w c L) (hnot : ¬ShrinkSafe env w) :
    ChkIndex.shrink env w = .error .badRelease := by
  have hz : w.index.chkNum ≠ 0 := fun hz => hnot (Or.inl (Or.inl hz))
  have hu : Uncompressed env w c L := h.resolve_right fun hc => hz hc.num
  have hn := hu.num
  unfold ShrinkSafe at hnot
  simp only [hu.lastOwns_iff, hn, hu.capacityOf_eq (k := c.num - 1) (by omega),
    hu.virginOf_eq (k := c.num - 1) (by omega)] at hnot
  push Not at hnot
  rcases hnot with ⟨⟨hne, hown⟩, hcap, hbranch⟩
  rw [hu.shrink_shared (by omega) hown, if_neg hcap, if_pos]
  by_cases hlt : L.cap (c.num - 1) - Uncompressed.shrunk (c.body (c.num - 1)).virgin <
      Uncompressed.shrunk (c.body (c.num - 1)).virgin
  · exact Or.inl hlt
  · refine Or.inr ?_
    cases hok : env.ok w.sys.tick with
    | true => rfl
    | false => exact absurd hok (hbranch (by omega))

end Stored

/-!
## The start
-/

/-- The layout of an index without chunks, beside the memory of the program. -/
def World.freshLayout (w : World) : Layout where
  shared := 1
  cap := fun _ => 0
  total := 0
  outer := fun b => (w.sys.allocs b).map fun a => (a.size, w.bits b)

theorem Content.empty_wf (cls : Fin 3 -> Nat) : Content.WF cls [] Content.empty := by
  have hnum : Content.empty.num = 0 := rfl
  have hfree : Content.empty.freeBlocks cls = [] := rfl
  refine ⟨⟨by omega, fun k hk => by omega, fun k hk => by omega, ?_, ?_, ?_,
    fun k hk => by omega⟩, ⟨fun k hk => by omega, rfl, rfl, ?_⟩⟩
  · intro k u
    rw [hfree, Extent.cover_nil]
    omega
  · intro i hne
    exact absurd rfl hne
  · intro i
    trivial
  · rw [hfree]
    exact Nat.le_refl _

theorem World.Fresh.valid {w : World} (h : w.Fresh) (env : Env) :
    Valid env ⟨w, []⟩ Content.empty w.freshLayout := by
  have hsize := h.size
  have houter : Outer w.freshLayout w := by
    intro b n m hb
    change (w.sys.allocs b).map _ = _ at hb
    cases hblk : w.sys.allocs b with
    | none =>
        rw [hblk] at hb
        cases hb
    | some a =>
        rw [hblk] at hb
        cases hb
        have hkind := h.all b a hblk
        rw [← hkind]
        exact ⟨rfl, rfl⟩
  have hle : w.index.chkAddrSize ≤ 4094 := by omega
  refine ⟨Or.inl (Uncompressed.of_empty (L := w.freshLayout) h.num h.flag h.type hle h.sane
    houter h.all), rfl, Content.empty_wf _, ?_, ?_, ?_⟩
  · intro l hl
    cases hl
  · intro l hl
    cases hl
  · intro l hl
    cases hl

/-!
## One call
-/

theorem erase_block {live : List Live} {p : ChkPtr} {b : Block}
    (hptr : forall l, l ∈ live -> (l.ptr = p <-> l.block = b)) :
    (live.map Live.block).erase b =
      (live.eraseP fun l => decide (l.ptr = p)).map Live.block := by
  induction live with
  | nil => rfl
  | cons l rest ih =>
      have hrest := ih fun l' hl' => hptr l' (List.mem_cons_of_mem _ hl')
      by_cases hl : l.ptr = p
      · have hb := (hptr l List.mem_cons_self).mp hl
        rw [List.map_cons, hb, List.erase_cons_head, List.eraseP_cons_of_pos (by simpa using hl)]
      · have hb : ¬l.block = b := fun hb => hl ((hptr l List.mem_cons_self).mpr hb)
        rw [List.map_cons, List.erase_cons_tail (by simpa using hb), hrest,
          List.eraseP_cons_of_neg (by simpa using hl), List.map_cons]

/-- A call ends with a fault that is expected, or with the assertion on the size
of a block. -/
def CallFault (env : Env) (call : Call) (e : Fault) : Prop :=
  Expected env e ∨ (e = .assertion ∧ exists n, call = .alloc n ∧ n ≤ 0)

theorem CallFault.ne_badRelease {env : Env} {call : Call} {e : Fault}
    (h : CallFault env call e) : e ≠ .badRelease := by
  rcases h with h | ⟨rfl, -⟩
  · exact h.ne_badRelease
  · decide

theorem Call.perform_ensures {env : Env} {call : Call} {s : Session}
    {Q : Result -> World -> Prop} {E : Fault -> Prop}
    (h : Exec.Ensures (call.run env s.world) Q E) :
    Exec.Ensures (call.perform env s)
      (fun r s' => exists w', s' = ⟨w', call.holds s.live w' r⟩ ∧ Q r w') E := by
  unfold Call.perform
  cases hrun : call.run env s.world with
  | error e =>
      rw [hrun] at h
      exact h
  | ok rw' =>
      rw [hrun] at h
      exact ⟨rw'.2, rfl, h⟩

theorem Call.perform_run {env : Env} {call : Call} {s s' : Session} {r : Result}
    (h : call.perform env s = .ok (r, s')) :
    exists w', call.run env s.world = .ok (r, w') ∧ s' = ⟨w', call.holds s.live w' r⟩ := by
  unfold Call.perform at h
  cases hrun : call.run env s.world with
  | error e =>
      rw [hrun] at h
      cases h
  | ok rw' =>
      rw [hrun] at h
      cases h
      exact ⟨rw'.2, rfl, rfl⟩

theorem Call.perform_of_run {env : Env} {call : Call} {s : Session} {r : Result} {w' : World}
    (h : call.run env s.world = .ok (r, w')) :
    call.perform env s = .ok (r, ⟨w', call.holds s.live w' r⟩) := by
  unfold Call.perform
  rw [h]

namespace Valid

variable {env : Env} {s : Session} {c : Content} {L : Layout}

theorem blockPtr_inj {b b' : Block} (h : blockPtr b = blockPtr b') : b = b' := by
  unfold blockPtr at h
  cases b
  cases b'
  simp only [ChkPtr.mk.injEq, Extent.mk.injEq] at h ⊢
  omega

theorem block_iff (h : Valid env s c L) {l l' : Live} (hl : l ∈ s.live) (hl' : l' ∈ s.live) :
    l'.ptr = l.ptr <-> l'.block = l.block := by
  rw [h.ptr l hl, h.ptr l' hl']
  exact ⟨fun heq => blockPtr_inj heq, fun heq => by rw [heq]⟩

theorem mem_block {l : Live} (hl : l ∈ s.live) : l.block ∈ s.live.map Live.block :=
  List.mem_map_of_mem hl

/-- What a call leaves: a valid session, the memory of the calling program, and the bytes
of all blocks that are still held and were not written. -/
def Leaves (env : Env) (call : Call) (s : Session) (c : Content) (L : Layout) (s' : Session) :
    Prop :=
  exists c' L', Valid env s' c' L' ∧ L'.outer = L.outer ∧
    forall l, l ∈ s.live -> l ∈ s'.live -> (forall pos data, call ≠ .write l.ptr pos data) ->
      Content.KeepsBits [l.block] c c'

theorem kept (h : Valid env s c L) {w' : World} (hk : Stored.Kept env L w' c) (call : Call) :
    Leaves env call s c L ⟨w', s.live⟩ := by
  rcases hk with ⟨L', h', hset', houter⟩
  exact ⟨c, L', ⟨h', hset', h.wf, h.ptr, h.pos, h.size⟩, houter, fun _ _ _ _ => .refl _ c⟩

theorem cons (h : Valid env s c L) {n : Int} (hpos : 0 < n) {b : Block} {w' : World}
    {c' : Content} {L' : Layout} (hb : b.len = Uncompressed.units n)
    (h' : Uncompressed env w' c' L') (hset' : Settled c' L')
    (hwf' : Content.WF env.freeSize (b :: s.live.map Live.block) c') :
    ¬(blockPtr b).IsNull ∧ Valid env ⟨w', ⟨blockPtr b, n⟩ :: s.live⟩ c' L' := by
  have hlen : 0 < b.len ∧ n ≤ 8 * b.len := by
    rw [hb]
    unfold Uncompressed.units
    omega
  have hbound := hwf'.tiling.block_bound List.mem_cons_self hlen.1
  have hnum := hwf'.tiling.num_le
  have hself : Live.block ⟨blockPtr b, n⟩ = b := by
    unfold Live.block blockPtr
    simp
  refine ⟨?_, Or.inl h', hset', ?_, ?_, ?_, ?_⟩
  · unfold ChkPtr.IsNull
    simp only [blockPtr, chkMaxChkNum]
    omega
  · rw [List.map_cons, hself]
    exact hwf'
  · intro l hl
    rcases List.mem_cons.mp hl with rfl | hl
    · rw [hself]
    · exact h.ptr l hl
  · intro l hl
    rcases List.mem_cons.mp hl with rfl | hl
    · exact hlen.1
    · exact h.pos l hl
  · intro l hl
    rcases List.mem_cons.mp hl with rfl | hl
    · exact hlen.2
    · exact h.size l hl

theorem handedOut (h : Valid env s c L) {n : Int} (hpos : 0 < n) {p : ChkPtr} {w' : World}
    (hout : Stored.HandedOut env L (s.live.map Live.block) c (Uncompressed.units n) p w') :
    ¬p.IsNull ∧
      exists c' L', Valid env ⟨w', ⟨p, n⟩ :: s.live⟩ c' L' ∧ L'.outer = L.outer ∧
        Content.KeepsBits (s.live.map Live.block) c c' := by
  rcases hout with ⟨b, c', L', rfl, hb, h', hset', houter, hwf', hkeeps⟩
  rcases h.cons hpos hb h' hset' hwf' with ⟨hp, hv⟩
  exact ⟨hp, c', L', hv, houter, hkeeps⟩

theorem erase (h : Valid env s c L) {l : Live} (hl : l ∈ s.live) {w' : World} {c' : Content}
    {L' : Layout} (h' : Uncompressed env w' c' L') (hset' : Settled c' L')
    (hwf' : Content.WF env.freeSize ((s.live.map Live.block).erase l.block) c') :
    Valid env ⟨w', s.live.eraseP fun l' => decide (l'.ptr = l.ptr)⟩ c' L' := by
  rw [erase_block fun l' hl' => h.block_iff hl hl'] at hwf'
  refine ⟨Or.inl h', hset', hwf', ?_, ?_, ?_⟩
  · intro l' hl'
    exact h.ptr l' (List.mem_of_mem_eraseP hl')
  · intro l' hl'
    exact h.pos l' (List.mem_of_mem_eraseP hl')
  · intro l' hl'
    exact h.size l' (List.mem_of_mem_eraseP hl')

/-!
### The operations
-/

theorem alloc (h : Valid env s c L) {n : Int} (hn : n < 2 ^ 31 - 7) :
    Exec.Ensures ((Call.alloc n).perform env s)
      (fun _ s' => Leaves env (.alloc n) s c L s')
      (CallFault env (.alloc n)) := by
  have hnull : chkNull.IsNull := rfl
  have hrun : Exec.Ensures ((Call.alloc n).run env s.world)
      (fun r w' => exists p, r = .block p ∧ ((p = chkNull ∧ Stored.Kept env L w' c) ∨
        (0 < n ∧ Stored.HandedOut env L (s.live.map Live.block) c (Uncompressed.units n) p w')))
      (CallFault env (.alloc n)) := by
    unfold Call.run
    by_cases hpos : 0 < n
    · by_cases hsmall : n ≤ 4088
      · refine Exec.Ensures.bind ((h.stored.alloc_ensures h.wf h.settled hpos hsmall).mono
          (fun _ _ hq => hq) (fun _ he => Or.inl he)) ?_
        rintro p w' hq
        exact ⟨p, rfl, hq.imp id fun hout => ⟨hpos, hout⟩⟩
      · simp only
        rw [Exec.bind_of_ok (Stored.alloc_large (by omega) hn)]
        exact ⟨chkNull, rfl, Or.inl ⟨rfl, Stored.kept h.stored h.settled⟩⟩
    · simp only
      rw [Exec.bind_of_error (Stored.alloc_nonpos (by omega))]
      exact Or.inr ⟨rfl, n, rfl, by omega⟩
  refine (Call.perform_ensures hrun).mono ?_ (fun _ he => he)
  rintro r s' ⟨w', rfl, p, rfl, ⟨rfl, hk⟩ | ⟨hpos, hout⟩⟩
  · rw [Call.holds_alloc, if_pos hnull]
    exact h.kept hk _
  · rcases h.handedOut hpos hout with ⟨hp, c', L', hv, houter, hkeeps⟩
    rw [Call.holds_alloc, if_neg hp]
    exact ⟨c', L', hv, houter, fun l hl _ _ => hkeeps.single (mem_block hl)⟩

theorem free (h : Valid env s c L) {p : ChkPtr} (hp : exists l, l ∈ s.live ∧ l.ptr = p) :
    Exec.Ensures ((Call.free p).perform env s)
      (fun _ s' => Leaves env (.free p) s c L s')
      (CallFault env (.free p)) := by
  rcases hp with ⟨l, hl, rfl⟩
  have hmem := mem_block hl
  have hrun : Exec.Ensures ((Call.free l.ptr).run env s.world)
      (fun _ w' => Stored.Freed env L (s.live.map Live.block) c l.block w')
      (CallFault env (.free l.ptr)) := by
    unfold Call.run
    have hfree := h.stored.free_ensures h.wf h.settled hmem (h.pos l hl)
    rw [← h.ptr l hl] at hfree
    exact Exec.Ensures.bind (hfree.mono (fun _ _ hq => hq) (fun _ he => Or.inl he))
      fun _ _ hq => hq
  refine (Call.perform_ensures hrun).mono ?_ (fun _ he => he)
  rintro r s' ⟨w', rfl, ⟨hflag, -, hk⟩ | ⟨c', L', h', hset', houter, hwf', hkeeps⟩⟩
  · rw [Call.holds_free, if_pos hflag]
    exact h.kept hk _
  · rw [Call.holds_free, if_neg (by rw [h'.flag]; decide)]
    refine ⟨c', L', h.erase hl h' hset' hwf', houter, fun l' _ hl' _ => ?_⟩
    rw [erase_block fun l' hl' => h.block_iff hl hl'] at hkeeps
    exact hkeeps.single (mem_block (s := ⟨w', _⟩) hl')

theorem writeBlock_ok (h : Valid env s c L) (hflag : s.world.index.compressed = false)
    {l : Live} (hl : l ∈ s.live) {pos : Nat} {data : List Byte}
    (hle : pos + data.length ≤ 8 * l.ptr.size) :
    exists w', writeBlock l.ptr pos data s.world = .ok ((), w') ∧
      Uncompressed env w' (c.write l.block pos data) L := by
  have hu := h.stored.uncompressed hflag
  have hbound := h.wf.tiling.block_bound (mem_block hl) (h.pos l hl)
  have hfit := hu.fits.virgin_le _ hbound.1
  have hptr := h.ptr l hl
  have haddr := hu.tracks.chkPtr2addr_ok (p := l.ptr) hbound.1
  have hoff : chkOffset l.ptr.offset = 8 * l.block.start := by
    rw [hptr]
    simp only [blockPtr, chkOffset]
    omega
  have hlen : l.block.len = l.ptr.size := rfl
  rw [hoff] at haddr
  have hstore := hu.storeBytes_ok (k := l.block.space) (o := 8 * l.block.start + pos)
    (l := data) hbound.1 (by omega)
  refine ⟨_, ?_, hu.setUser (k := l.block.space)
    (m := (s.world.chunkBits l.block.space).writeBytes (8 * l.block.start + pos) data)
    (b := (c.body l.block.space).bits.writeBytes (8 * l.block.start + pos) data) hbound.1
    (8 * (8 * l.block.start + pos)) (8 * data.length) (by omega) (by omega) ?_ ?_ ?_⟩
  · unfold writeBlock
    rw [Exec.bind_of_ok haddr]
    have hassoc : ((s.world.index.chkAddr l.block.space).add (8 * l.block.start)).add pos =
        (s.world.index.chkAddr l.block.space).add (8 * l.block.start + pos) := by
      simp only [Ptr.add, Nat.add_assoc]
    exact (congrArg (fun p => storeBytes p data s.world) hassoc).trans hstore
  · intro j hj
    exact Bits.writeBytes_outside (by omega)
  · intro j hj
    exact Bits.writeBytes_outside (by omega)
  · intro j hj1 hj2
    rw [Bits.writeBytes_inside (by omega) (by omega),
      Bits.writeBytes_inside (by omega) (by omega)]

theorem write_keeps (h : Valid env s c L) {l l' : Live} (hl : l ∈ s.live) (hl' : l' ∈ s.live)
    (hne : l'.block ≠ l.block) {pos : Nat} {data : List Byte}
    (hle : pos + data.length ≤ 8 * l.ptr.size) :
    Content.KeepsBits [l'.block] c (c.write l.block pos data) := by
  intro k u hu j hj1 hj2
  rw [Extent.cover_cons, Extent.cover_nil, Nat.add_zero] at hu
  have hboth := Extent.covers_add_le_cover (mem_block hl') (mem_block hl) hne k u
  have hone := h.wf.tiling.cover_le_one k u
  unfold Content.write Content.setBits
  by_cases hk : k = l.block.space
  · subst hk
    have hout : ¬(l.block.start ≤ u ∧ u < l.block.start + l.block.len) := by
      rintro ⟨h1, h2⟩
      have hself := Extent.covers_of (e := l.block) h1 h2
      omega
    have hlen : l.block.len = l.ptr.size := rfl
    rw [Content.setBody_self]
    exact Bits.writeBytes_outside (by omega)
  · rw [Content.setBody_other _ _ hk]

theorem write (h : Valid env s c L) {p : ChkPtr} {pos : Nat} {data : List Byte}
    (hcall : (Call.write p pos data).Allowed s) :
    Exec.Ensures ((Call.write p pos data).perform env s)
      (fun _ s' => Leaves env (.write p pos data) s c L s')
      (CallFault env (.write p pos data)) := by
  rcases hcall with ⟨hflag, l, hl, rfl, hle⟩
  rcases h.writeBlock_ok hflag hl hle with ⟨w', hrun, h'⟩
  have hwf' := Content.write_wf h.wf (mem_block hl) hle
  unfold Call.perform Call.run
  simp only
  rw [Exec.bind_of_ok hrun]
  refine ⟨_, L, ⟨Or.inl h', h.settled, hwf', h.ptr, h.pos, h.size⟩, rfl, ?_⟩
  intro l' hl' _ hne
  have hptr : l'.ptr ≠ l.ptr := fun heq => hne pos data (heq ▸ rfl)
  exact h.write_keeps hl hl' (fun heq => hptr ((h.block_iff hl hl').mpr heq)) hle

theorem kept_call (h : Valid env s c L) {call : Call} {x : M Int}
    {Q : Int -> World -> Prop}
    (hrun : call.run env = (do
      let r <- x
      pure (.code r) : M Result))
    (hholds : forall w' r, call.holds s.live w' r = s.live)
    (hx : Exec.Ensures (x s.world) (fun r w' => Stored.Kept env L w' c ∧ Q r w')
      (Expected env)) :
    Exec.Ensures (call.perform env s)
      (fun _ s' => Leaves env call s c L s')
      (CallFault env call) := by
  have hrun' : Exec.Ensures (call.run env s.world)
      (fun _ w' => Stored.Kept env L w' c) (CallFault env call) := by
    rw [hrun]
    exact Exec.Ensures.bind (hx.mono (fun _ _ hq => hq) (fun _ he => Or.inl he))
      fun _ _ hq => hq.1
  refine (Call.perform_ensures hrun').mono ?_ (fun _ he => he)
  rintro r s' ⟨w', rfl, hk⟩
  rw [hholds]
  exact h.kept hk call

theorem shrink (h : Valid env s c L) (hsafe : ShrinkSafe env s.world) :
    Exec.Ensures (Call.shrink.perform env s)
      (fun _ s' => Leaves env .shrink s c L s')
      (CallFault env .shrink) := by
  have hrun : Exec.Ensures (Call.shrink.run env s.world)
      (fun _ w' => Stored.Kept env L w' c) (CallFault env .shrink) := by
    unfold Call.run
    exact Exec.Ensures.bind ((h.stored.shrink_ensures h.wf h.settled hsafe).mono
      (fun _ _ hq => hq) (fun _ he => Or.inl (Or.inl he))) fun _ _ hq => hq
  refine (Call.perform_ensures hrun).mono ?_ (fun _ he => he)
  rintro r s' ⟨w', rfl, hk⟩
  exact h.kept hk _

theorem destruct (h : Valid env s c L) :
    Exec.Ensures (Call.destruct.perform env s)
      (fun _ s' => Leaves env .destruct s c L s')
      (CallFault env .destruct) := by
  have hrun : Exec.Ensures (Call.destruct.run env s.world)
      (fun _ w' => (s.world.index.compressed = true ∧ w' = s.world) ∨
        (Uncompressed env w' Content.empty L.reset ∧
          forall b a, w'.sys.allocs b = some a -> a.kind = .caller))
      (CallFault env .destruct) := by
    unfold Call.run
    exact Exec.Ensures.bind (h.stored.destruct_ensures.mono (fun _ _ hq => hq)
      (fun _ he => he.elim)) fun _ _ hq => hq
  refine (Call.perform_ensures hrun).mono ?_ (fun _ he => he)
  rintro r s' ⟨w', rfl, ⟨hflag, rfl⟩ | ⟨h', -⟩⟩
  · rw [Call.holds_destruct, if_pos hflag]
    exact h.kept (Stored.kept h.stored h.settled) _
  · rw [Call.holds_destruct, if_neg (by rw [h'.flag]; decide)]
    refine ⟨Content.empty, L.reset, ⟨Or.inl h', rfl, Content.empty_wf _, ?_, ?_, ?_⟩, rfl,
      nofun⟩
    · intro l hl
      cases hl
    · intro l hl
      cases hl
    · intro l hl
      cases hl

theorem perform (h : Valid env s c L) {call : Call} (hcall : call.Allowed s)
    (hshrink : call = .shrink -> ShrinkSafe env s.world) :
    Exec.Ensures (call.perform env s)
      (fun _ s' => Leaves env call s c L s')
      (CallFault env call) := by
  cases call with
  | alloc n => exact h.alloc hcall
  | free p => exact h.free hcall
  | write p pos data => exact h.write hcall
  | enlarge =>
      exact h.kept_call rfl (fun _ _ => rfl)
        ((h.stored.enlarge_ensures h.wf h.settled).mono (fun _ _ hq => hq)
          (fun _ he => Or.inl he))
  | compress percent =>
      exact h.kept_call rfl (fun _ _ => rfl)
        ((h.stored.compress_ensures h.wf h.settled percent).mono (fun _ _ hq => hq)
          (fun _ he => he.elim))
  | uncompress =>
      exact h.kept_call rfl (fun _ _ => rfl)
        ((h.stored.uncompress_ensures h.wf h.settled).mono (fun _ _ hq => hq)
          (fun _ he => Or.inl he))
  | shrink => exact h.shrink (hshrink rfl)
  | destruct => exact h.destruct

end Valid

/-!
## Runs
-/

def SafeCall (env : Env) (s : Session) (call : Call) : Prop :=
  call.Allowed s ∧ (call = .shrink -> ShrinkSafe env s.world)

theorem CarefulCall.safe {env : Env} {s : Session} {call : Call} (h : CarefulCall s call) :
    SafeCall env s call := ⟨h.1, fun hshrink => Or.inl (h.2 hshrink)⟩

theorem Reach.valid {env : Env} {s : Session} (h : Reach env (SafeCall env) s) :
    exists c L, Valid env s c L := by
  induction h with
  | start hw => exact ⟨_, _, hw.valid env⟩
  | step _ hcall hrun ih =>
      rcases ih with ⟨c, L, hv⟩
      rcases (hv.perform hcall.1 hcall.2).of_ok hrun with ⟨c', L', hv', -⟩
      exact ⟨c', L', hv'⟩

theorem Reach.careful {env : Env} {s : Session} (h : Reach env CarefulCall s) :
    exists c L, Valid env s c L :=
  (h.mono fun _ _ hcall => hcall.safe).valid

end ChunkMem
