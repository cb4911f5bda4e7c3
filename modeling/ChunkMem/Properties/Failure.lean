import ChunkMem.Session.Contents
import ChunkMem.Properties.Continuity

/-!
# A reported failure changes nothing

Whichever system calls return null or fail to decode: when an operation reports a
failure the index stores what it stored before, and it holds no memory but its
chunks or its compressed buffer.
-/

namespace ChunkMem

open Foundation

/-- The call reported a failure.  `shrink` reports nothing; it fails when its
one system call, with the default allocators, finds no memory. -/
def Call.Failed (env : Env) (s : Session) : Call -> Result -> Prop
  | .alloc n, .block p => n ≤ 4088 ∧ p.IsNull
  | .enlarge, .code r => r < 0
  | .compress _, .code r => r < 0
  | .uncompress, .code r => r < 0
  | .shrink, .done => env.memalign = false ∧ env.ok s.world.sys.tick = false
  | _, _ => False

def World.Stores (env : Env) (w : World) (c : Content) : Prop :=
  exists L, Stored env w c L ∧ Settled c L

def World.SameOwners (w w' : World) : Prop :=
  forall k, k < w.index.chkNum ->
    w'.allocCapacityOf k = w.allocCapacityOf k ∧ w'.capacityOf k = w.capacityOf k

/-- The index holds nothing but its chunks, or the compressed buffer. -/
def World.HoldsOnlyChunks (w : World) : Prop :=
  forall b a, w.sys.allocs b = some a -> a.kind ≠ .caller ->
    if w.index.compressed = true then b = (w.index.chkAddr 0).blk
    else exists k, k < w.index.chkNum ∧ (w.index.chkAddr k).blk = b

structure World.NothingChanged (env : Env) (w w' : World) : Prop where
  stores : exists c, w.Stores env c ∧ w'.Stores env c
  uncompressed : w.index.compressed = false -> w'.index.compressed = false
  same : w.index.compressed = false -> w.SameContent w'
  /-- Only a split changes who owns the chunks. -/
  owners : w.index.compressed = false ->
    w.SameOwners w' ∨ (w.Continuous ∧ w'.AllOwn)
  held : w'.HoldsOnlyChunks

/-!
## What each operation leaves
-/

theorem Stored.holdsOnlyChunks {env : Env} {w : World} {c : Content} {L : Layout}
    (h : Stored env w c L) : w.HoldsOnlyChunks := by
  intro b a hb hkind
  rcases h with h | h
  · rw [if_neg (by rw [h.flag]; decide), h.num]
    rcases h.place.all b a hb hkind with ⟨k, hk, -, hblk⟩
    exact ⟨k, hk, hblk⟩
  · rw [if_pos h.flag]
    exact h.all b a hb hkind

namespace Uncompressed

variable {env : Env} {w w' : World} {c : Content} {L L' : Layout} {bs : List Block}

theorem sameOwners (h : Uncompressed env w c L) (h' : Uncompressed env w' c L')
    (hown : forall k, k < c.num -> L'.own k = L.own k)
    (hcap : forall k, k < c.num -> L'.cap k = L.cap k) : w.SameOwners w' := by
  intro k hk
  rw [h.num] at hk
  rw [h.allocCapacityOf_eq hk, h'.allocCapacityOf_eq hk, h.capacityOf_eq hk,
    h'.capacityOf_eq hk]
  exact ⟨hown k hk, hcap k hk⟩

/-- The content is there again, with the owners it had or split. -/
def LeftAlone (env : Env) (w w' : World) (c : Content) : Prop :=
  exists L', Uncompressed env w' c L' ∧ Settled c L' ∧
    (w.SameOwners w' ∨ (w.Continuous ∧ w'.AllOwn))

theorem LeftAlone.nothingChanged (hleft : LeftAlone env w w' c) (h : Uncompressed env w c L)
    (ht : Content.Tiling env.freeSize bs c) (hset : Settled c L) : w.NothingChanged env w' := by
  rcases hleft with ⟨L', h', hset', howners⟩
  exact ⟨⟨c, ⟨L, Or.inl h, hset⟩, ⟨L', Or.inl h', hset'⟩⟩, fun _ => h'.flag,
    fun _ => h.sameContent ht h', fun _ => howners, Stored.holdsOnlyChunks (Or.inl h')⟩

theorem leftAlone (h : Uncompressed env w c L) (hset : Settled c L)
    (h' : Uncompressed env w' c L) : LeftAlone env w w' c :=
  ⟨L, h', hset, Or.inl (h.sameOwners h' (fun _ _ => rfl) (fun _ _ => rfl))⟩

/-- Chunks that were added behind the others, none here, leave the owners. -/
theorem grown_owners (h : Uncompressed env w c L) (hgrown : L.Grown c.num L' c.num) :
    (forall k, k < c.num -> L'.own k = L.own k) ∧
      forall k, k < c.num -> L'.cap k = L.cap k := by
  have hle := h.fits.shared_le
  refine ⟨fun k hk => ?_, hgrown.old⟩
  have hshared := hgrown.shared
  unfold Layout.own
  rw [hshared]
  by_cases hz : k = 0
  · rw [if_pos hz, if_pos hz]
    exact sumTo_congr fun i hi => hgrown.old i (by omega)
  · rw [if_neg hz, if_neg hz]
    split
    · rfl
    · exact hgrown.old k hk

theorem alloc_refused (h : Uncompressed env w c L) (hwf : Content.WF env.freeSize bs c)
    (hset : Settled c L) {n : Int} (hpos : 0 < n) (hn : n ≤ 4088) {p : ChkPtr}
    (hrun : ChkIndex.alloc env n w = .ok (p, w')) (hnull : p.IsNull) :
    LeftAlone env w w' c := by
  rcases (h.alloc_ensures hwf hset hpos hn).of_ok hrun with
    ⟨-, -, -, -, rfl⟩ | ⟨c', L', hcontent, h', hset', hgrown⟩ | ⟨-, -, h'⟩
  · exact h.leftAlone hset h
  · rcases (h.content_alloc_ensures hwf hpos hn).of_ok hcontent with
      ⟨-, -, rfl⟩ | ⟨b, hb, hblen, hwf', -⟩
    · have howners := h.grown_owners hgrown
      exact ⟨L', h', hset', Or.inl (h.sameOwners h' howners.1 howners.2)⟩
    · -- a block that was handed out is not null
      have hlen := units_bound hpos hn
      have hbound := hwf'.tiling.block_bound List.mem_cons_self (by omega)
      have hnum := hwf'.tiling.num_le
      rw [hb] at hnull
      unfold ChkPtr.IsNull at hnull
      simp only [blockPtr_chkNo, chkMaxChkNum] at hnull
      omega
  · exact h.leftAlone hset h'

theorem enlarge_failed (h : Uncompressed env w c L) (ht : Content.Tiling env.freeSize bs c)
    (hset : Settled c L) {r : Int} (hrun : ChkIndex.enlarge env w = .ok (r, w')) (hr : r < 0) :
    LeftAlone env w w' c := by
  have hensures : Exec.Ensures (ChkIndex.enlarge env w)
      (fun r w' => r < 0 -> LeftAlone env w w' c) (Tolerated env) := by
    unfold ChkIndex.enlarge
    rw [Exec.bind_of_ok h.tracks.uncompress_ok, if_neg (by decide)]
    refine Exec.Ensures.bind (h.split_ensures ht hset) ?_
    rintro r w₁ ⟨rfl, hsplit⟩
    rw [if_neg (by decide)]
    rcases hsplit with ⟨hn, hshared, h₁⟩ | ⟨-, rfl⟩
    · have hset₁ : Settled c L.apart := Layout.apart_settled hset
      refine Exec.Ensures.bind (h₁.extend_ensures ht hset₁) ?_
      rintro r w₂ (⟨rfl, -, -⟩ | ⟨rfl, -⟩ | ⟨rfl, -, h₂⟩)
      · rw [if_neg (by decide)]
        exact fun hcon => absurd hcon (by decide)
      · rw [if_neg (by decide)]
        exact fun hcon => absurd hcon (by decide)
      · rw [if_pos (by decide)]
        refine fun _ => ⟨L.apart, h₂, hset₁,
          Or.inr ⟨h.continuous hn hshared, fun k hk => ?_⟩⟩
        rw [h₂.num] at hk
        have hone := h₂.fits.one_le k hk
        rw [h₂.allocCapacityOf_eq hk, L.apart.own_alone (Nat.le_refl 1) (Nat.le_max_left 1 _)]
        omega
    · refine Exec.Ensures.bind (h.extend_ensures ht hset) ?_
      rintro r w₂ (⟨rfl, -, -⟩ | ⟨rfl, -⟩ | ⟨rfl, -, h₂⟩)
      · rw [if_neg (by decide)]
        exact fun hcon => absurd hcon (by decide)
      · rw [if_neg (by decide)]
        exact fun hcon => absurd hcon (by decide)
      · rw [if_pos (by decide)]
        exact fun _ => h.leftAlone hset h₂
  exact hensures.of_ok hrun hr

/-- `shrink` of a last chunk that owns its allocation, without memory. -/
theorem shrink_starved (h : Uncompressed env w c L) {k : Nat} (hk : k + 1 = c.num)
    (halone : L.shared ≤ max 1 k) (hm : env.memalign = false)
    (hok : env.ok w.sys.tick = false) :
    exists w', ChkIndex.shrink env w = .ok ((), w') ∧ (w' = w ∨ w' = w.skipped) := by
  have hcap := h.fits.cap_le k (by omega)
  have hone := h.fits.one_le k (by omega)
  have hfit := h.fits.virgin_le k (by omega)
  have hne : w.index.chkAddr k ≠ Ptr.null := h.chkAddr_ne_null (k := k) (by omega) 0
  have hobtain : forall kind size m, obtain env kind size m w = .ok (Ptr.null, w.skipped) := by
    intro kind size m
    unfold obtain
    rw [hok, if_neg (by decide)]
    rfl
  have hmeta := h.metadataShrink_eq (k := k) (by omega) rfl
  generalize hv : (c.body k).virgin = v at *
  generalize hnew : shrunk v = n at *
  unfold shrunk at hnew
  rw [h.shrink_eq hk, Exec.bind_apply, hmeta]
  by_cases hz : L.cap k = n
  · rw [if_pos hz]
    exact ⟨w, rfl, Or.inl rfl⟩
  · rw [if_neg hz]
    dsimp only
    have hmem : env.memalign = true -> chkCapacity n ≤ chkMaxChksize := by
      rw [hm]
      intro heq
      cases heq
    by_cases hbranch : L.cap k - n < n
    · have hrealloc : reallocate env (w.index.chkAddr k) (L.cap k * 1024) (chkCapacity n) w =
          .ok (Ptr.null, w.skipped) := by
        unfold reallocate
        rw [Exec.bind_of_ok (Exec.require_of hmem _ _), if_neg hne,
          Exec.bind_of_ok (Exec.state_apply _),
          Exec.bind_of_ok (Exec.require_of (h.owns_alone (by omega) halone) _ _),
          if_neg (by rw [hm]; decide), Exec.bind_of_ok (hobtain _ _ _), if_pos rfl]
        rfl
      rw [if_pos hbranch, Exec.bind_of_ok hrealloc, if_pos rfl]
      exact ⟨w.skipped, rfl, Or.inr rfl⟩
    · have halloc : allocate env (chkCapacity n) w = .ok (Ptr.null, w.skipped) := by
        unfold allocate
        rw [Exec.bind_of_ok (Exec.require_of hmem _ _), Exec.bind_of_ok (hobtain _ _ _),
          Exec.bind_of_ok (Exec.require_of (by rw [hm]; intro heq; cases heq) _ _)]
        rfl
      rw [if_neg hbranch, Exec.bind_of_ok halloc, if_pos rfl,
        Exec.bind_of_ok (Exec.pure_apply _ _), if_pos rfl]
      exact ⟨w.skipped, rfl, Or.inr rfl⟩

end Uncompressed

/-!
## An index that was compressed
-/

namespace Compressed

variable {env : Env} {w w' : World} {c : Content} {L L' : Layout} {bs : List Block}

theorem nothingChanged (h : Compressed env w c L) (hset : Settled c L)
    (h' : Stored env w' c L') (hset' : Settled c L') : w.NothingChanged env w' := by
  have hflag : ¬w.index.compressed = false := by
    rw [h.flag]
    decide
  exact ⟨⟨c, ⟨L, Or.inr h, hset⟩, ⟨L', h', hset'⟩⟩, fun hcon => absurd hcon hflag,
    fun hcon => absurd hcon hflag, fun hcon => absurd hcon hflag, h'.holdsOnlyChunks⟩

end Compressed

/-!
## Each operation, in either form
-/

namespace Stored

variable {env : Env} {w w' : World} {c : Content} {L : Layout} {bs : List Block}

theorem alloc_failure (h : Stored env w c L) (hwf : Content.WF env.freeSize bs c)
    (hset : Settled c L) {n : Int} (hn : n ≤ 4088) {p : ChkPtr}
    (hrun : ChkIndex.alloc env n w = .ok (p, w')) (hnull : p.IsNull) :
    w.NothingChanged env w' := by
  have hpos : 0 < n := by
    by_contra hcon
    rw [alloc_nonpos (by omega)] at hrun
    cases hrun
  rcases h with h | h
  · exact (h.alloc_refused hwf hset hpos hn hrun hnull).nothingChanged h hwf.tiling hset
  · have hset' := L.restored_settled c env h.pos
    rcases h.reopen_cases hwf.tiling with ⟨w₁, hopen⟩ | ⟨r, w₁, hr, -, h₁, hopen⟩ |
      ⟨e, -, hopen⟩
    · rw [hopen.alloc hpos hn] at hrun
      rcases hopen.rep.alloc_refused hwf hset' hpos hn hrun hnull with ⟨L', h', hset'', -⟩
      exact h.nothingChanged hset (Or.inl h') hset''
    · rw [alloc_failed hpos hn hr hopen] at hrun
      cases hrun
      exact h.nothingChanged hset (Or.inr h₁) hset
    · rw [alloc_error hpos hn hopen] at hrun
      cases hrun

theorem enlarge_failure (h : Stored env w c L) (ht : Content.Tiling env.freeSize bs c)
    (hset : Settled c L) {r : Int} (hrun : ChkIndex.enlarge env w = .ok (r, w')) (hr : r < 0) :
    w.NothingChanged env w' := by
  rcases h with h | h
  · exact (h.enlarge_failed ht hset hrun hr).nothingChanged h ht hset
  · have hset' := L.restored_settled c env h.pos
    rcases h.reopen_cases ht with ⟨w₁, hopen⟩ | ⟨r₁, w₁, hr₁, -, h₁, hopen⟩ | ⟨e, -, hopen⟩
    · rw [hopen.enlarge] at hrun
      rcases hopen.rep.enlarge_failed ht hset' hrun hr with ⟨L', h', hset'', -⟩
      exact h.nothingChanged hset (Or.inl h') hset''
    · unfold ChkIndex.enlarge at hrun
      rw [Exec.bind_of_ok hopen, if_pos hr₁] at hrun
      cases hrun
      exact h.nothingChanged hset (Or.inr h₁) hset
    · unfold ChkIndex.enlarge at hrun
      rw [Exec.bind_of_error hopen] at hrun
      cases hrun

theorem compress_failure (h : Stored env w c L) (ht : Content.Tiling env.freeSize bs c)
    (hset : Settled c L) {percent r : Int}
    (hrun : ChkIndex.compress env percent w = .ok (r, w')) (hr : r < 0) :
    w.NothingChanged env w' := by
  rcases h with h | h
  · rcases (h.compress_ensures ht hset percent).of_ok hrun with ⟨rfl, -⟩ | ⟨h', -, -⟩
    · cases hr
    · exact (h.leftAlone hset h').nothingChanged h ht hset
  · unfold ChkIndex.compress at hrun
    rw [Exec.bind_of_ok (getIndex_apply w), if_pos (Or.inl h.num)] at hrun
    cases hrun
    cases hr

theorem uncompress_failure (h : Stored env w c L) (ht : Content.Tiling env.freeSize bs c)
    (hset : Settled c L) {r : Int} (hrun : ChkIndex.uncompress env w = .ok (r, w'))
    (hr : r < 0) : w.NothingChanged env w' := by
  rcases h with h | h
  · rw [h.tracks.uncompress_ok] at hrun
    cases hrun
    cases hr
  · rcases (h.uncompress_ensures ht).of_ok hrun with ⟨rfl, -⟩ | ⟨-, -, h'⟩
    · cases hr
    · exact h.nothingChanged hset (Or.inr h') hset

theorem shrink_failure (h : Stored env w c L) (ht : Content.Tiling env.freeSize bs c)
    (hset : Settled c L) (howns : w.LastOwns) (hm : env.memalign = false)
    (hok : env.ok w.sys.tick = false) (hrun : ChkIndex.shrink env w = .ok ((), w')) :
    w.NothingChanged env w' := by
  by_cases hz : w.index.chkNum = 0
  · rw [shrink_none hz] at hrun
    cases hrun
    rcases h with h | h
    · exact (h.leftAlone hset h).nothingChanged h ht hset
    · exact h.nothingChanged hset (Or.inr h) hset
  · have hu : Uncompressed env w c L := h.resolve_right fun hc => hz hc.num
    have hn := hu.num
    have hown := (hu.lastOwns_iff.mp howns).resolve_left (by omega)
    have hk : c.num - 1 + 1 = c.num := by omega
    have hshared := hu.fits.shared_le
    have halone : L.shared ≤ max 1 (c.num - 1) := by
      by_contra hcon
      exact hown (Layout.own_of_shared (by omega) (by omega))
    rcases hu.shrink_starved hk halone hm hok with ⟨w₁, hrun₁, hw₁⟩
    rw [hrun₁] at hrun
    cases hrun
    rcases hw₁ with rfl | rfl
    · exact (hu.leftAlone hset hu).nothingChanged hu ht hset
    · exact (hu.leftAlone hset hu.skipped).nothingChanged hu ht hset

end Stored

/-- In every session, compressed or not, under every pattern of failing system calls
and failing decompressions: when a call reports a failure the blocks are as they were
and so is the content of the index, and all that the call obtained has been given
back. -/
theorem Reach.failure_changes_nothing {env : Env} {s s' : Session} {call : Call} {r : Result}
    (h : Reach env CarefulCall s) (hcall : CarefulCall s call)
    (hrun : call.perform env s = .ok (r, s')) (hfailed : call.Failed env s r) :
    s'.live = s.live ∧ World.NothingChanged env s.world s'.world := by
  rcases h.careful with ⟨c, L, hv⟩
  have ht := hv.wf.tiling
  unfold Call.perform at hrun
  cases hw : call.run env s.world with
  | error e =>
      rw [hw] at hrun
      cases hrun
  | ok rw' =>
      rcases rw' with ⟨r', w'⟩
      rw [hw] at hrun
      cases hrun
      cases call with
      | alloc n =>
          rcases Exec.ok_of_bind hw with ⟨p, w₁, hp, hrest⟩
          cases hrest
          refine ⟨?_, hv.stored.alloc_failure hv.wf hv.settled hfailed.1 hp hfailed.2⟩
          rw [Call.holds_alloc, if_pos hfailed.2]
      | enlarge =>
          rcases Exec.ok_of_bind hw with ⟨p, w₁, hp, hrest⟩
          cases hrest
          exact ⟨rfl, hv.stored.enlarge_failure ht hv.settled hp hfailed⟩
      | compress percent =>
          rcases Exec.ok_of_bind hw with ⟨p, w₁, hp, hrest⟩
          cases hrest
          exact ⟨rfl, hv.stored.compress_failure ht hv.settled hp hfailed⟩
      | uncompress =>
          rcases Exec.ok_of_bind hw with ⟨p, w₁, hp, hrest⟩
          cases hrest
          exact ⟨rfl, hv.stored.uncompress_failure ht hv.settled hp hfailed⟩
      | shrink =>
          rcases Exec.ok_of_bind hw with ⟨p, w₁, hp, hrest⟩
          cases hrest
          exact ⟨rfl, hv.stored.shrink_failure ht hv.settled (hcall.2 rfl) hfailed.1
            hfailed.2 hp⟩
      | free p => cases hfailed
      | write p pos data => cases hfailed
      | destruct => cases hfailed

def Env.scarce : Env :=
  { Env.plain with ok := fun tick => decide (tick < 2) }

def starved : Session := Call.after Env.scarce [.alloc 24] ⟨World.boot, []⟩

theorem starved_reach : Reach Env.scarce CarefulCall starved := by
  unfold starved
  exact .after (.start World.boot_fresh) (by decide +kernel)

/-- The compression finds no buffer. -/
theorem Reach.failure_changes_nothing_sample :
    starved.live.length = 1 ∧ exists s',
      (Call.compress 200).perform Env.scarce starved = .ok (.code (-1), s') ∧
      s'.live = starved.live ∧ World.NothingChanged Env.scarce starved.world s'.world := by
  have hlen : starved.live.length = 1 := by decide +kernel
  have hcode : ((Call.compress 200).perform Env.scarce starved).toOption.map Prod.fst =
      some (.code (-1)) := by decide +kernel
  have hcall : CarefulCall starved (.compress 200) := ⟨trivial, nofun⟩
  have hfailed : Call.Failed Env.scarce starved (.compress 200) (.code (-1)) :=
    show (-1 : Int) < 0 from by decide
  cases hrun : (Call.compress 200).perform Env.scarce starved with
  | error e =>
      rw [hrun] at hcode
      cases hcode
  | ok rs =>
      rcases rs with ⟨r, s'⟩
      rw [hrun] at hcode
      have hr : r = .code (-1) := Option.some.inj hcode
      subst hr
      exact ⟨hlen, s', rfl, Reach.failure_changes_nothing starved_reach hcall hrun hfailed⟩

end ChunkMem
