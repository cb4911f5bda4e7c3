import ChunkMem.Structures.Moves

/-!
# Hash lists with new buckets

A hash list holds its nodes in chains, one for each value of the hash modulo
`bucket_size()`.  `resize_buckets` obtains empty lists, moves the nodes, gives
the old array back and enters the new lists.
-/

namespace ChunkMem

open Foundation

theorem HashProg.run_ensures {α : Type} {x : Prog α} {st : HashState}
    {Q : α -> Session -> Prop} {E : Fault -> Prop} (h : Exec.Ensures (x st.session) Q E) :
    Exec.Ensures (HashProg.run x st)
      (fun a st' => Q a st'.session ∧ st'.list = st.list ∧ st'.single = st.single) E := by
  unfold HashProg.run
  cases hx : x st.session with
  | error e =>
      rw [hx] at h
      exact h
  | ok as =>
      rw [hx] at h
      exact ⟨h, rfl, rfl⟩

theorem Spot.word_eq {live : List Live} {p : ChkPtr} {w w' : World} (hp : Spot live p)
    (h : World.KeepsBut w w' live fun _ => False) : w'.word p = w.word p :=
  h.word_eq hp fun _ hf => hf.elim

theorem Spot.mono {live live' : List Live} {p : ChkPtr} (hp : Spot live p)
    (hsub : forall l, l ∈ live -> l ∈ live') : Spot live' p := by
  rcases hp with ⟨l, hl, hhas⟩
  exact ⟨l, hsub l hl, hhas⟩

theorem Open.block_of_word {env : Env} {s : Session} (h : Open env s) {l l' : Live}
    {p : ChkPtr} (hl : l ∈ s.live) (hl' : l' ∈ s.live) (hp : l.Has p) {j : Nat}
    (hword : p.Word l'.ptr.chkNo j) (hj : 32 * l'.ptr.offset ≤ j)
    (hj' : j < 32 * l'.ptr.offset + 64 * l'.ptr.size) : l.ptr = l'.ptr := by
  rcases hp with ⟨-, hno, hlo, hhi⟩
  unfold ChkPtr.Word at hword
  by_contra hne
  refine h.apart hl' hl hne (by omega) (j := j) ⟨hj, hj'⟩ ?_
  omega

theorem Open.block_of_spot {env : Env} {s : Session} (h : Open env s) {l l' : Live}
    {p : ChkPtr} (hl : l ∈ s.live) (hl' : l' ∈ s.live) (hp : l.Has p) (hp' : l'.Has p) :
    l.ptr = l'.ptr := by
  rcases hp' with ⟨-, hno', hlo', hhi'⟩
  exact h.block_of_word hl hl' hp (j := 32 * p.offset) ⟨hno'.symm, by omega, by omega⟩
    (by omega) (by omega)

namespace HashState

def members (st : HashState) (chains : Nat -> List ChkPtr) : List ChkPtr :=
  (List.range (ChkHashSList.bucketSize st.list)).flatMap chains

theorem mem_members {st : HashState} {chains : Nat -> List ChkPtr} {p : ChkPtr} :
    p ∈ st.members chains <->
      exists i, i < ChkHashSList.bucketSize st.list ∧ p ∈ chains i := by
  unfold members
  rw [List.mem_flatMap]
  constructor
  · rintro ⟨i, hi, hp⟩
    exact ⟨i, List.mem_range.mp hi, hp⟩
  · rintro ⟨i, hi, hp⟩
    exact ⟨i, List.mem_range.mpr hi, hp⟩

/-- The hash list is well formed, and its lists are the chains: the nodes are words of
blocks other than that of the heads, none is linked twice, and each is in the list its
hash selects. -/
structure Holds (env : Env) (st : HashState) (hash : ChkPtr -> Nat)
    (chains : Nat -> List ChkPtr) : Prop where
  isOpen : Open env st.session
  fits : st.list.Fits
  array : st.HasArray
  runs : forall i, i < ChkHashSList.bucketSize st.list ->
    Run st.next (st.next (st.bucket i)) (chains i)
  spot : forall p, p ∈ st.members chains ->
    exists l, l ∈ st.session.live ∧ l.Has p ∧ l.ptr ≠ st.list
  hashed : forall i, i < ChkHashSList.bucketSize st.list -> forall p, p ∈ chains i ->
    hash p % ChkHashSList.bucketSize st.list = i
  nodup : (st.members chains).Nodup

/-- What the function reads of a node does not depend on the links of the nodes in `V`, on
blocks the session does not have or on where the chunks are. -/
def ReadsAs {α : Type} (env : Env) (s : Session) (V : ChkPtr -> Prop) (o : Nat)
    (f : Ptr -> M α) (g : ChkPtr -> α) : Prop :=
  forall s', Open env s' -> (forall l, l ∈ s.live -> l ∈ s'.live) ->
    World.KeepsBut s.world s'.world s.live V ->
    forall p, V p -> f (s'.world.index.container o p) s'.world = .ok (g p, s'.world)

def target (newPtr : ChkPtr) (m : Nat) (j : Nat) : Cell :=
  if m = 1 then .single else .word ⟨newPtr.chkNo, newPtr.offset + j, 0⟩

/-- Empty lists have been made, `m` of them, and nothing else has changed. -/
structure Prepared (env : Env) (st : HashState) (newSize : Nat) (newPtr : ChkPtr)
    (lists : SlistPtr) (m : Nat) (st' : HashState) : Prop where
  good : st'.Good env
  list : st'.list = st.list
  live : st'.session.live =
    if 1 < newSize then ⟨newPtr, newSize * 4⟩ :: st.session.live else st.session.live
  keeps : World.KeepsBut st.session.world st'.session.world st.session.live fun _ => False
  size_le : newSize ≤ m
  one : m = 1 <-> newSize = 1
  array : 1 < newSize -> m = ChkHashSList.bucketSize newPtr ∧ newPtr.Fits ∧
    forall l, l ∈ st.session.live -> l.ptr ≠ newPtr
  ptr : forall j, j < m ->
    ChkHashSList.bucketAt lists j = (target newPtr m j).ptr st'.session.world.index
  null : forall j, j < m -> (st'.next (target newPtr m j)).IsNull

structure Refused (env : Env) (st st' : HashState) : Prop where
  good : st'.Good env
  list : st'.list = st.list
  live : st'.session.live = st.session.live
  keeps : World.KeepsBut st.session.world st'.session.world st.session.live fun _ => False

variable {env : Env} {st st' : HashState} {hash : ChkPtr -> Nat} {chains : Nat -> List ChkPtr}
variable {newSize m o n : Nat} {newPtr junk : ChkPtr} {lists : SlistPtr}
variable {hashFunc : Ptr -> M Nat}

theorem bucketSize_of {p : ChkPtr} (h : p.size ≠ 0) :
    ChkHashSList.bucketSize p = chkSize p.size / 4 := if_neg h

theorem target_has (hm : m ≠ 1) (hsize : m = 2 * newPtr.size) {j : Nat} (hj : j < m)
    {x : Int} : exists p, target newPtr m j = .word p ∧ Live.Has ⟨newPtr, x⟩ p := by
  refine ⟨_, if_neg hm, rfl, rfl, Nat.le_add_right _ _, ?_⟩
  simp only
  omega

theorem target_inj (hm : m ≠ 1) {i j : Nat} (h : target newPtr m i = target newPtr m j) :
    i = j := by
  unfold target at h
  rw [if_neg hm, if_neg hm] at h
  have hoff := congrArg ChkPtr.offset (Cell.word.inj h)
  simp only at hoff
  omega

theorem newBuckets_single (h : Open env st.session) (hlist : st.list.Fits) (hjunk : junk.Fits) :
    exists st', ChkHashSList.newBuckets env 1 junk st =
        .ok (some (chkNull, .single, 1), st') ∧
      Prepared env st 1 chkNull .single 1 st' := by
  have hgood : Good env { st with single := junk } := ⟨h, hlist, hjunk⟩
  rcases hgood.init_ok (c := .single) trivial with ⟨st', hinit, hstep, hnull⟩
  refine ⟨st', ?_, hstep.good, hstep.next .list trivial nofun, hstep.live, ?_, Nat.le_refl 1,
    Iff.rfl, fun hcon => absurd hcon (by decide), fun j hj => rfl, fun j hj => ?_⟩
  · unfold ChkHashSList.newBuckets
    rw [Exec.bind_of_ok (Exec.update_apply _ _), if_neg (by decide)]
    have hinit' : SlistPtr.init .single { st with single := junk } = .ok ((), st') := hinit
    rw [Exec.bind_of_ok hinit']
    rfl
  · exact hstep.keeps.mono fun q hq => nomatch hq
  · change (st'.next .single).IsNull
    rw [hnull]
    exact ChkPtr.nulled_isNull _

theorem newBuckets_array (h : Open env st.session) (hlist : st.list.Fits) (hjunk : junk.Fits)
    (hlt : 1 < newSize) (hmax : 4 * newSize ≤ chkMaxContinusLen) :
    Exec.Ensures (ChkHashSList.newBuckets env newSize junk st) (fun r st' =>
      match r with
      | none => Refused env st st'
      | some (newPtr, lists, m) => Prepared env st newSize newPtr lists m st') (Expected env) := by
  simp only [chkMaxContinusLen, chkSize] at hmax
  unfold ChkHashSList.newBuckets
  rw [Exec.bind_of_ok (Exec.update_apply _ _), if_pos hlt]
  refine Exec.Ensures.bind (HashProg.run_ensures
    (h.alloc_ensures (n := (newSize : Int) * 4) (by omega) (by omega))) ?_
  rintro p st₁ ⟨hpost, hlist₁, hsingle₁⟩
  have hgood₁ : Good env st₁ := by
    refine ⟨hpost.isOpen, ?_, ?_⟩
    · rw [hlist₁]
      exact hlist
    · rw [hsingle₁]
      exact hjunk
  rcases hpost with ⟨h₁, hkept, ⟨hnull, hlive⟩ | ⟨hnull, hlive, hfit, hsize, hfresh⟩⟩
  · rw [if_pos hnull]
    exact ⟨hgood₁, hlist₁, hlive, .of_keepsBlock hkept⟩
  · rw [if_neg hnull]
    have hself : (⟨p, (newSize : Int) * 4⟩ : Live) ∈ st₁.session.live := by
      rw [hlive]
      exact List.mem_cons_self
    have hno := h₁.chkNo_lt hself
    have hpfits : p.Fits := by
      have hspot := h₁.spot_fits (p := ⟨p.chkNo, p.offset, 0⟩)
        ⟨_, hself, rfl, rfl, Nat.le_refl _, by simp only; omega⟩
      exact ⟨hspot.1, hspot.2.1, hsize⟩
    have hsize' : chkSize p.size / 4 = 2 * p.size := by
      simp only [chkSize]
      omega
    have hm : 2 * p.size ≠ 1 := by omega
    have hptr : forall j, ChkHashSList.bucketAt (.mem (st₁.session.world.addrOf p)) j =
        (target p (2 * p.size) j).ptr st₁.session.world.index := by
      intro j
      unfold target
      rw [if_neg hm]
      simp only [ChkHashSList.bucketAt, Cell.ptr, Open.place_addr_eq, Open.addrOf_add, Nat.mul_add]
    have hin : forall j, 0 ≤ j -> j < 0 + 2 * p.size ->
        (target p (2 * p.size) j).In st₁.session.live := by
      intro j _ hj
      rcases target_has hm rfl (x := newSize * 4) (by omega : j < 2 * p.size) with ⟨q, hq, hhas⟩
      rw [hq]
      exact ⟨_, hself, hhas⟩
    rcases initBuckets_from hin (fun i j _ hij _ heq => absurd (target_inj hm heq) (by omega))
      (fun j _ _ => hptr j) hgood₁ with ⟨st', hinit, hstep, hnulls⟩
    have hout : forall l, l ∈ st.session.live -> l ∈ st₁.session.live := fun l hl => by
      rw [hlive]
      exact List.mem_cons_of_mem _ hl
    rw [Exec.bind_of_ok (mem_ok (h₁.chkPtr2addr_ok hno))]
    refine Exec.Ensures.of_eq (r := some (p, .mem (st₁.session.world.addrOf p), 2 * p.size))
      (s := st') ?_ ?_
    · rw [hsize']
      unfold ChkHashSList.initBuckets
      rw [Exec.bind_of_ok hinit]
      rfl
    · refine ⟨hstep.good, ?_, ?_, ?_, by omega, by omega, fun _ => ⟨?_, hpfits, hfresh⟩, ?_, ?_⟩
      · exact (hstep.next .list trivial (by
          rintro ⟨j, _, _, hcon⟩
          unfold target at hcon
          rw [if_neg hm] at hcon
          cases hcon)).trans hlist₁
      · rw [if_pos hlt, hstep.live, hlive]
      · refine (World.KeepsBut.of_keepsBlock hkept).trans fun l hl j hj hj' _ => ?_
        refine hstep.keeps l (hout l hl) j hj hj' ?_
        rintro q ⟨i, _, hi, hq⟩ hword
        rcases target_has hm rfl (x := newSize * 4) (by omega : i < 2 * p.size) with
          ⟨q', hq', hhas⟩
        have heq : q = q' := Cell.word.inj (hq.trans hq')
        subst heq
        exact hfresh l hl (h₁.block_of_word hself (hout l hl) hhas hword hj hj').symm
      · rw [bucketSize_of (by omega), hsize']
      · intro j _
        rw [hstep.index]
        exact hptr j
      · intro j hj
        exact hnulls j (Nat.zero_le j) (by omega)

/-!
## The nodes are moved
-/

theorem Holds.node (h : st.Holds env hash chains) {p : ChkPtr} (hp : p ∈ st.members chains) :
    Spot st.session.live p := by
  rcases h.spot p hp with ⟨l, hl, hhas, -⟩
  exact ⟨l, hl, hhas⟩

theorem Holds.head_kept (h : st.Holds env hash chains) {i : Nat}
    (hi : i < ChkHashSList.bucketSize st.list) (hlist : st'.list = st.list)
    (hkeeps : World.KeepsBut st.session.world st'.session.world st.session.live fun _ => False) :
    st'.next (st.bucket i) = st.next (st.bucket i) := by
  rcases h.array.bucket_cases hi with hcell | ⟨q, hcell, hq⟩
  · rw [hcell]
    exact hlist
  · rw [hcell]
    exact hq.word_eq hkeeps

theorem Holds.bucket_apart (h : st.Holds env hash chains) {i : Nat}
    (hi : i < ChkHashSList.bucketSize st.list) {p : ChkPtr}
    (hp : exists l, l ∈ st.session.live ∧ l.Has p ∧ l.ptr ≠ st.list) :
    st.bucket i ≠ .word p := by
  by_cases hone : ChkHashSList.bucketSize st.list = 1
  · unfold bucket
    rw [if_pos hone]
    nofun
  · rcases h.array.bucket_has hone hi with ⟨b, q, hb, hptr, heq, hhas⟩
    rcases hp with ⟨l, hl, hhas', hne⟩
    rw [heq]
    intro hcon
    rw [Cell.word.inj hcon] at hhas
    exact hne ((h.isOpen.block_of_spot hl hb hhas' hhas).trans hptr)

theorem Holds.bucket_ne (h : st.Holds env hash chains) {i : Nat}
    (hi : i < ChkHashSList.bucketSize st.list) {p : ChkPtr} (hp : p ∈ st.members chains) :
    st.bucket i ≠ .word p := h.bucket_apart hi (h.spot p hp)

namespace Prepared

theorem sub (h : Prepared env st newSize newPtr lists m st') {l : Live}
    (hl : l ∈ st.session.live) : l ∈ st'.session.live := by
  rw [h.live]
  split
  · exact List.mem_cons_of_mem _ hl
  · exact hl

theorem size (h : Prepared env st newSize newPtr lists m st') (hm : m ≠ 1)
    (hpos : 0 < newSize) :
    m = 2 * newPtr.size ∧ (⟨newPtr, newSize * 4⟩ : Live) ∈ st'.session.live ∧
      newPtr.size ≠ 0 ∧ forall l, l ∈ st.session.live -> l.ptr ≠ newPtr := by
  have hlt : 1 < newSize := by
    have hone := h.one
    omega
  rcases h.array hlt with ⟨hsize, -, hfresh⟩
  have hzero : newPtr.size ≠ 0 := by
    intro hzero
    exact hm (hsize.trans (if_pos hzero))
  refine ⟨?_, ?_, hzero, hfresh⟩
  · rw [hsize, bucketSize_of hzero]
    simp only [chkSize]
    omega
  · rw [h.live, if_pos hlt]
    exact List.mem_cons_self

theorem inside (h : Prepared env st newSize newPtr lists m st') (hpos : 0 < newSize) {j : Nat}
    (hj : j < m) : (target newPtr m j).In st'.session.live := by
  by_cases hm : m = 1
  · unfold target
    rw [if_pos hm]
    trivial
  · rcases h.size hm hpos with ⟨hsize, hmem, -⟩
    rcases target_has hm hsize hj (x := newSize * 4) with ⟨p, hp, hhas⟩
    rw [hp]
    exact ⟨_, hmem, hhas⟩

theorem fresh (h : Prepared env st newSize newPtr lists m st') (hpos : 0 < newSize) {j : Nat}
    (hj : j < m) {p : ChkPtr} {l : Live} (heq : target newPtr m j = .word p)
    (hl : l ∈ st.session.live) {k : Nat} (hword : p.Word l.ptr.chkNo k)
    (hk : 32 * l.ptr.offset ≤ k) (hk' : k < 32 * l.ptr.offset + 64 * l.ptr.size) : False := by
  by_cases hm : m = 1
  · unfold target at heq
    rw [if_pos hm] at heq
    cases heq
  · rcases h.size hm hpos with ⟨hsize, hmem, -, hfresh⟩
    rcases target_has hm hsize hj (x := newSize * 4) with ⟨q, hq, hhas⟩
    have hpq : p = q := Cell.word.inj (heq.symm.trans hq)
    subst hpq
    exact hfresh l hl (h.good.isOpen.block_of_word hmem (h.sub hl) hhas hword hk hk').symm

theorem ne_word (h : Prepared env st newSize newPtr lists m st') (hpos : 0 < newSize) {j : Nat}
    (hj : j < m) {p : ChkPtr} (hp : Spot st.session.live p) : target newPtr m j ≠ .word p := by
  intro heq
  rcases hp with ⟨l, hl, -, hno, hlo, hhi⟩
  exact h.fresh hpos hj heq hl (k := 32 * p.offset) ⟨hno.symm, by omega, by omega⟩ (by omega)
    (by omega)

theorem ne_list (j : Nat) : target newPtr m j ≠ .list := by
  unfold target
  split <;> nofun

theorem word (h : Prepared env st newSize newPtr lists m st') {p : ChkPtr}
    (hp : Spot st.session.live p) : st'.next (.word p) = st.next (.word p) :=
  hp.word_eq h.keeps

theorem targets (h : Prepared env st newSize newPtr lists m st') (hpos : 0 < newSize)
    (hst : st.Holds env hash chains) :
    Targets st'.session.live st'.session.world.index lists (target newPtr m) m
      (fun p => p ∈ st.members chains) := by
  refine ⟨by have hle := h.size_le; omega, fun j hj => h.inside hpos hj, ?_, ?_, h.ptr, ?_⟩
  · intro i j hi hj heq
    by_cases hm : m = 1
    · omega
    · exact target_inj hm heq
  · intro j hj p hp
    exact h.ne_word hpos hj (hst.node hp)
  · intro p hp
    exact (hst.node hp).mono fun l hl => h.sub hl

theorem hashesAs (h : Prepared env st newSize newPtr lists m st') (hpos : 0 < newSize)
    (hhash : ReadsAs env st.session (fun p => p ∈ st.members chains) o hashFunc hash) :
    HashesAs env st' (Touched (target newPtr m) m fun p => p ∈ st.members chains)
      (fun p => p ∈ st.members chains) o hashFunc hash := by
  intro st'' hstep p hp
  rw [← hstep.index]
  refine hhash st''.session hstep.good.isOpen (fun l hl => ?_) ?_ p hp
  · rw [hstep.live]
    exact h.sub hl
  · refine (h.keeps.mono fun _ hf => hf.elim).trans fun l hl j hj hj' hout => ?_
    refine hstep.keeps l (h.sub hl) j hj hj' fun q hq hword => ?_
    rcases hq with ⟨i, hi, heq⟩ | ⟨q', hq', heq⟩
    · exact h.fresh hpos hi heq.symm hl hword hj hj'
    · rw [Cell.word.inj heq] at hword
      exact hout q' hq' hword

theorem moves (h : Prepared env st newSize newPtr lists m st') (hpos : 0 < newSize)
    (hst : st.Holds env hash chains)
    (hhash : ReadsAs env st.session (fun p => p ∈ st.members chains) o hashFunc hash)
    (hfuel : forall i, i < ChkHashSList.bucketSize st.list -> (chains i).length < n) :
    exists st'', ChkHashSList.moveLists hashFunc o lists m n (ChkHashSList.bucketSize st.list)
        st' = .ok ((), st'') ∧
      Step env (Touched (target newPtr m) m fun p => p ∈ st.members chains) st' st'' ∧
      st''.Chained (target newPtr m) m (distribute hash m (fun _ => []) (st.members chains)) := by
  have harray : st'.HasArray := by
    unfold HasArray
    rw [h.list]
    exact hst.array.imp_right fun ⟨b, hb, hptr⟩ => ⟨b, h.sub hb, hptr⟩
  have hbucket : forall i, st'.bucket i = st.bucket i := by
    intro i
    unfold bucket
    rw [h.list]
  have hrange : st.members chains =
      (List.range' 0 (ChkHashSList.bucketSize st'.list)).flatMap chains := by
    rw [h.list, ← List.range_eq_range']
    rfl
  have hheads : forall i, i < ChkHashSList.bucketSize st'.list ->
      ¬Touched (target newPtr m) m (fun p => p ∈ st.members chains) (st'.bucket i) := by
    intro i hi
    rw [h.list] at hi
    rw [hbucket]
    rintro (⟨j, hj, heq⟩ | ⟨p, hp, heq⟩)
    · rcases hst.array.bucket_cases hi with hcell | ⟨q, hcell, hq⟩
      · exact ne_list j (heq.symm.trans hcell)
      · exact h.ne_word hpos hj hq (heq.symm.trans hcell)
    · exact hst.bucket_ne hi hp heq
  have hruns : forall i, 0 ≤ i -> i < 0 + ChkHashSList.bucketSize st'.list ->
      Run st'.next (st'.next (st'.bucket i)) (chains i) := by
    intro i _ hi
    rw [h.list, Nat.zero_add] at hi
    rw [hbucket, hst.head_kept hi h.list h.keeps]
    exact (hst.runs i hi).congr fun p hp =>
      h.word (hst.node (mem_members.mpr ⟨i, hi, hp⟩))
  have hfuel' : forall i, i < ChkHashSList.bucketSize st'.list -> (chains i).length < n := by
    rw [h.list]
    exact hfuel
  have hmem : forall i, 0 ≤ i -> i < 0 + ChkHashSList.bucketSize st'.list -> forall p,
      p ∈ chains i -> p ∈ st.members chains := by
    intro i _ hi p hp
    rw [h.list, Nat.zero_add] at hi
    exact mem_members.mpr ⟨i, hi, hp⟩
  have hlist : ¬Touched (target newPtr m) m (fun p => p ∈ st.members chains) .list := by
    rintro (⟨j, -, heq⟩ | ⟨p, -, heq⟩)
    · exact ne_list j heq.symm
    · cases heq
  have hnodup := hst.nodup
  rw [hrange] at hnodup
  have hempty : st'.Chained (target newPtr m) m (fun _ => []) := h.null
  have hnews : forall j, j < m -> forall q, q ∈ (fun _ : Nat => ([] : List ChkPtr)) j ->
      q ∈ st.members chains ∧
        q ∉ (List.range' 0 (ChkHashSList.bucketSize st'.list)).flatMap chains :=
    fun _ _ q hq => nomatch hq
  rcases moveLists_from (h.targets hpos hst) (h.hashesAs hpos hhash) harray hlist hheads hfuel'
    (Nat.le_of_eq (Nat.zero_add _)) (.refl h.good _) hmem hnodup hnews hempty hruns with
    ⟨st'', hrun, hstep, hchain⟩
  refine ⟨st'', ?_, hstep, ?_⟩
  · unfold ChkHashSList.moveLists
    rw [← h.list]
    exact hrun
  · rw [hrange]
    exact hchain

end Prepared

/-!
## The old heads are given back
-/

theorem size_of_one {p : ChkPtr} (h : ChkHashSList.bucketSize p = 1) : p.size = 0 := by
  by_contra hsize
  rw [bucketSize_of hsize] at h
  simp only [chkSize] at h
  omega

structure Released (env : Env) (st st' : HashState) : Prop where
  good : st'.Good env
  list : st'.list = st.list
  single : st'.single = st.single
  live : forall l, l ∈ st'.session.live <-> l ∈ st.session.live ∧ l.ptr ≠ st.list
  keeps : World.KeepsBut st.session.world st'.session.world st'.session.live fun _ => False

theorem release_ensures (h : st.Good env) (harray : st.HasArray) :
    Exec.Ensures (ChkHashSList.freeBuckets env (ChkHashSList.bucketSize st.list) st.list st)
      (fun _ st' => Released env st st') (Expected env) := by
  unfold ChkHashSList.freeBuckets
  have hpos := bucketSize_pos st.list
  by_cases hone : ChkHashSList.bucketSize st.list = 1
  · rw [if_neg (by omega)]
    have hsize := size_of_one hone
    refine ⟨h, rfl, rfl, fun l => ⟨fun hl => ⟨hl, fun heq => ?_⟩, fun hl => hl.1⟩, .refl _ _ _⟩
    have hlpos := h.isOpen.size_pos hl
    rw [heq, hsize] at hlpos
    exact Nat.lt_irrefl 0 hlpos
  · rw [if_pos (by omega)]
    rcases harray.block hone with ⟨b, hb, hptr, -⟩
    have hfree := h.isOpen.free_ensures hb
    rw [hptr] at hfree
    refine (HashProg.run_ensures hfree).mono ?_ (fun _ he => Or.inr he)
    rintro _ st' ⟨hpost, hlist, hsingle⟩
    refine ⟨⟨hpost.isOpen, ?_, ?_⟩, hlist, hsingle, fun l => ?_, .of_keepsBlock hpost.kept⟩
    · rw [hlist]
      exact h.list
    · rw [hsingle]
      exact h.single
    · rw [← hptr]
      exact hpost.mem_iff h.isOpen hb

/-!
## The new lists are entered
-/

def spread (hash : ChkPtr -> Nat) (m : Nat) (l : List ChkPtr) : Nat -> List ChkPtr :=
  distribute hash m (fun _ => []) l

theorem mem_spread {l : List ChkPtr} {p : ChkPtr} {j : Nat} :
    p ∈ spread hash m l j <-> p ∈ l ∧ hash p % m = j := by
  unfold spread
  rw [mem_distribute]
  constructor
  · rintro (hp | hp)
    · cases hp
    · exact hp
  · exact Or.inr

theorem spread_perm (hash : ChkPtr -> Nat) (hm : 0 < m) (l : List ChkPtr) :
    ((List.range m).flatMap (spread hash m l)).Perm l := by
  have hperm : ((List.range m).flatMap (spread hash m l)).Perm
      (l ++ (List.range m).flatMap fun _ => []) := distribute_perm hm _ l
  have hnil : (List.range m).flatMap (fun _ => ([] : List ChkPtr)) = [] := by
    rw [List.flatMap_eq_nil_iff]
    exact fun _ _ => rfl
  rw [hnil, List.append_nil] at hperm
  exact hperm

/-- The blocks other than that of the heads are kept, apart from the words of `V`. -/
def Keeps (st : HashState) (V : ChkPtr -> Prop) (st' : HashState) : Prop :=
  forall live, (forall l, l ∈ live -> l ∈ st.session.live ∧ l.ptr ≠ st.list) ->
    World.KeepsBut st.session.world st'.session.world live V

/-- What `resize_buckets` leaves when it succeeds: the same nodes in lists of which
there are enough, the old heads given back and the new ones obtained. -/
structure Resized (env : Env) (st : HashState) (hash : ChkPtr -> Nat)
    (chains : Nat -> List ChkPtr) (newSize : Nat) (chains' : Nat -> List ChkPtr)
    (st' : HashState) : Prop where
  good : st'.Good env
  holds : st'.Holds env hash chains'
  nodes : (st'.members chains').Perm (st.members chains)
  size : newSize ≤ ChkHashSList.bucketSize st'.list
  live : forall l, l ∈ st'.session.live <->
    (l ∈ st.session.live ∧ l.ptr ≠ st.list) ∨ 1 < newSize ∧ l = ⟨st'.list, newSize * 4⟩
  one : ChkHashSList.bucketSize st'.list = 1 <-> newSize = 1
  fresh : forall l, l ∈ st.session.live -> l.ptr ≠ st'.list
  keeps : Keeps st (fun p => p ∈ st.members chains) st'

structure Moved (env : Env) (st : HashState) (hash : ChkPtr -> Nat)
    (chains : Nat -> List ChkPtr) (newSize : Nat) (newPtr : ChkPtr) (m : Nat)
    (st' : HashState) : Prop where
  good : st'.Good env
  size_le : newSize ≤ m
  one : m = 1 <-> newSize = 1
  live : forall l, l ∈ st'.session.live <->
    (l ∈ st.session.live ∧ l.ptr ≠ st.list) ∨ 1 < newSize ∧ l = ⟨newPtr, newSize * 4⟩
  array : 1 < newSize -> m = ChkHashSList.bucketSize newPtr ∧ newPtr.Fits ∧
    forall l, l ∈ st.session.live -> l.ptr ≠ newPtr
  chained : st'.Chained (target newPtr m) m (spread hash m (st.members chains))
  keeps : Keeps st (fun p => p ∈ st.members chains) st'

theorem Prepared.released {st₁ st₂ st₃ : HashState}
    (h : Prepared env st newSize newPtr lists m st₁) (hpos : 0 < newSize)
    (hst : st.Holds env hash chains)
    (hstep : Step env (Touched (target newPtr m) m fun p => p ∈ st.members chains) st₁ st₂)
    (hchain : st₂.Chained (target newPtr m) m (spread hash m (st.members chains)))
    (hrel : Released env st₂ st₃) : Moved env st hash chains newSize newPtr m st₃ := by
  have hlist₂ : st₂.list = st₁.list := hstep.next .list trivial (by
    rintro (⟨j, -, heq⟩ | ⟨p, -, heq⟩)
    · exact ne_list j heq.symm
    · cases heq)
  have hlist : st₂.list = st.list := hlist₂.trans h.list
  have hnew : 1 < newSize -> newPtr ≠ st.list := by
    intro hlt heq
    have hm : m ≠ 1 := by
      have hone := h.one
      omega
    rcases h.size hm hpos with ⟨-, -, hzero, hfresh⟩
    rcases hst.array with hsize | ⟨b, hb, hptr⟩
    · exact hzero (heq ▸ hsize)
    · exact hfresh b hb (hptr.trans heq.symm)
  have hlive : forall l, l ∈ st₃.session.live <->
      (l ∈ st.session.live ∧ l.ptr ≠ st.list) ∨ 1 < newSize ∧ l = ⟨newPtr, newSize * 4⟩ := by
    intro l
    rw [hrel.live, hstep.live, hlist, h.live]
    by_cases hlt : 1 < newSize
    · rw [if_pos hlt, List.mem_cons]
      constructor
      · rintro ⟨rfl | hl, hne⟩
        · exact Or.inr ⟨hlt, rfl⟩
        · exact Or.inl ⟨hl, hne⟩
      · rintro (⟨hl, hne⟩ | ⟨-, rfl⟩)
        · exact ⟨Or.inr hl, hne⟩
        · exact ⟨Or.inl rfl, hnew hlt⟩
    · rw [if_neg hlt]
      exact ⟨Or.inl, fun hor => hor.resolve_right fun hcon => hlt hcon.1⟩
  have hword : forall p, Spot st₃.session.live p -> st₃.next (.word p) = st₂.next (.word p) :=
    fun p hp => hp.word_eq hrel.keeps
  have hhead : forall j, j < m -> st₃.next (target newPtr m j) = st₂.next (target newPtr m j) := by
    intro j hj
    by_cases hm : m = 1
    · unfold target
      rw [if_pos hm]
      exact hrel.single
    · have hlt : 1 < newSize := by
        have hone := h.one
        omega
      rcases target_has hm (h.size hm hpos).1 hj (x := newSize * 4) with ⟨p, hp, hhas⟩
      rw [hp]
      exact hword p ⟨_, (hlive _).mpr (Or.inr ⟨hlt, rfl⟩), hhas⟩
  have hkeeps : Keeps st (fun p => p ∈ st.members chains) st₃ := by
    intro live hsub l hl j hj hj' hout
    rcases hsub l hl with ⟨hmem, hne⟩
    have hmem₃ := (hlive l).mpr (Or.inl ⟨hmem, hne⟩)
    rw [hrel.keeps l hmem₃ j hj hj' fun _ hf => hf.elim]
    rw [hstep.keeps l (h.sub hmem) j hj hj', h.keeps l hmem j hj hj' fun _ hf => hf.elim]
    rintro q (⟨i, hi, heq⟩ | ⟨q', hq', heq⟩) hword
    · exact h.fresh hpos hi heq.symm hmem hword hj hj'
    · rw [Cell.word.inj heq] at hword
      exact hout q' hq' hword
  refine ⟨hrel.good, h.size_le, h.one, hlive, h.array, fun j hj => ?_, hkeeps⟩
  rw [hhead j hj]
  refine (hchain j hj).congr fun p hp => hword p ?_
  rcases hst.spot p (mem_spread.mp hp).1 with ⟨l, hl, hhas, hne⟩
  exact ⟨l, (hlive l).mpr (Or.inl ⟨hl, hne⟩), hhas⟩

theorem Moved.enter (h : Moved env st hash chains newSize newPtr m st') (hlt : 1 < newSize)
    (hst : st.Holds env hash chains) :
    Resized env st hash chains newSize (spread hash m (st.members chains))
      { st' with list := newPtr } := by
  rcases h.array hlt with ⟨hsize, hfits, hfresh⟩
  have hm : m ≠ 1 := by
    have hone := h.one
    omega
  have hself : (⟨newPtr, newSize * 4⟩ : Live) ∈ st'.session.live :=
    (h.live _).mpr (Or.inr ⟨hlt, rfl⟩)
  have hbucket : forall j, HashState.bucket { st' with list := newPtr } j = target newPtr m j := by
    intro j
    unfold bucket target
    simp only
    rw [← hsize, if_neg hm, if_neg hm]
  have hmem : HashState.members { st' with list := newPtr } (spread hash m (st.members chains)) =
      (List.range m).flatMap (spread hash m (st.members chains)) := by
    unfold members
    simp only
    rw [← hsize]
  have hpos : 0 < m := Nat.lt_of_lt_of_le (Nat.lt_of_succ_lt hlt) h.size_le
  have hperm := spread_perm hash hpos (st.members chains)
  rw [← hmem] at hperm
  refine ⟨⟨h.good.isOpen, hfits, h.good.single⟩, ⟨h.good.isOpen, hfits, Or.inr ⟨_, hself, rfl⟩,
    ?_, ?_, ?_, hperm.nodup_iff.mpr hst.nodup⟩, hperm, ?_, h.live, hsize ▸ h.one, hfresh,
    h.keeps⟩
  · intro i hi
    simp only at hi
    rw [← hsize] at hi
    rw [hbucket i]
    have hrun := h.chained i hi
    have hnext : HashState.next { st' with list := newPtr } (target newPtr m i) =
        st'.next (target newPtr m i) := by
      unfold target
      rw [if_neg hm]
      rfl
    rw [hnext]
    exact hrun.congr fun p _ => rfl
  · intro p hp
    rcases hst.spot p (hperm.mem_iff.mp hp) with ⟨l, hl, hhas, hne⟩
    exact ⟨l, (h.live l).mpr (Or.inl ⟨hl, hne⟩), hhas, hfresh l hl⟩
  · intro i hi p hp
    simp only
    rw [← hsize]
    exact (mem_spread.mp hp).2
  · simp only
    rw [← hsize]
    exact h.size_le

theorem Moved.enter_single (h : Moved env st hash chains newSize newPtr m st')
    (hone : newSize = 1) (hst : st.Holds env hash chains) :
    Resized env st hash chains newSize (spread hash m (st.members chains))
      { st' with list := { st'.single with size := 0 } } := by
  have hm : m = 1 := h.one.mpr hone
  subst hm
  have hmem : HashState.members { st' with list := { st'.single with size := 0 } }
      (spread hash 1 (st.members chains)) =
      (List.range 1).flatMap (spread hash 1 (st.members chains)) := rfl
  have hperm := spread_perm hash Nat.one_pos (st.members chains)
  rw [← hmem] at hperm
  have hspot : forall p, p ∈ st.members chains ->
      exists l, l ∈ st'.session.live ∧ l.Has p := by
    intro p hp
    rcases hst.spot p hp with ⟨l, hl, hhas, hne⟩
    exact ⟨l, (h.live l).mpr (Or.inl ⟨hl, hne⟩), hhas⟩
  have hzero : forall s : Session, Open env s -> forall l, l ∈ s.live ->
      l.ptr ≠ { st'.single with size := 0 } := by
    intro s hs l hl heq
    have hlpos := hs.size_pos hl
    rw [heq] at hlpos
    exact Nat.lt_irrefl 0 hlpos
  have hfits : ChkPtr.Fits { st'.single with size := 0 } :=
    ⟨h.good.single.1, h.good.single.2.1, Nat.two_pow_pos 9⟩
  refine ⟨⟨h.good.isOpen, hfits, h.good.single⟩, ⟨h.good.isOpen, hfits, Or.inl rfl, ?_, ?_, ?_,
    hperm.nodup_iff.mpr hst.nodup⟩, hperm, ?_, ?_, ⟨fun _ => hone, fun _ => rfl⟩,
    hzero _ hst.isOpen, h.keeps⟩
  · intro i hi
    have hi0 : i = 0 := Nat.lt_one_iff.mp hi
    subst hi0
    have hrun := h.chained 0 Nat.one_pos
    have hmems : forall p, p ∈ spread hash 1 (st.members chains) 0 -> p ∈ st.members chains :=
      fun p hp => (mem_spread.mp hp).1
    change Run _ { st'.single with size := 0 } _
    cases hl : spread hash 1 (st.members chains) 0 with
    | nil =>
        rw [hl] at hrun
        exact hrun
    | cons p l =>
        rw [hl] at hrun hmems
        have hhead : st'.single = p := hrun.1
        rcases hspot p (hmems p List.mem_cons_self) with ⟨_, -, hsize, -⟩
        refine ⟨?_, hrun.2.congr fun q _ => rfl⟩
        rw [hhead]
        exact ChkPtr.eq_of_place rfl hsize rfl rfl
  · intro p hp
    rcases hspot p (hperm.mem_iff.mp hp) with ⟨l, hl, hhas⟩
    exact ⟨l, hl, hhas, hzero _ h.good.isOpen l hl⟩
  · intro i hi p hp
    exact (mem_spread.mp hp).2
  · rw [hone]
    exact bucketSize_pos _
  · intro l
    rw [h.live, hone]
    exact or_congr_right ⟨fun hcon => absurd hcon.1 (by decide),
      fun hcon => absurd hcon.1 (by decide)⟩

/-!
## `resize_buckets`
-/

/-- What `resize_buckets` leaves when it returns `r`, for a size the hash list does
not have. -/
def ResizeOutcome (env : Env) (st : HashState) (hash : ChkPtr -> Nat)
    (chains : Nat -> List ChkPtr) (newSize : Nat) (r : Int) (st' : HashState) : Prop :=
  (r = 0 ∧ exists chains', Resized env st hash chains newSize chains' st') ∨
    (r = -1 ∧ Refused env st st')

theorem Refused.holds (h : Refused env st st') (hst : st.Holds env hash chains) :
    st'.Holds env hash chains := by
  have hbucket : forall i, st'.bucket i = st.bucket i := by
    intro i
    unfold bucket
    rw [h.list]
  have hmem : st'.members chains = st.members chains := by
    unfold members
    rw [h.list]
  refine ⟨h.good.isOpen, h.list ▸ hst.fits, ?_, ?_, ?_, ?_, hmem ▸ hst.nodup⟩
  · unfold HasArray
    rw [h.list, h.live]
    exact hst.array
  · intro i hi
    rw [h.list] at hi
    rw [hbucket, hst.head_kept hi h.list h.keeps]
    exact (hst.runs i hi).congr fun p hp =>
      (hst.node (mem_members.mpr ⟨i, hi, hp⟩)).word_eq h.keeps
  · intro p hp
    rw [hmem] at hp
    rw [h.live, h.list]
    exact hst.spot p hp
  · rw [h.list]
    exact hst.hashed

theorem newBuckets_ensures (hst : st.Holds env hash chains) (hjunk : junk.Fits)
    (hpos : 0 < newSize) (hmax : 4 * newSize ≤ chkMaxContinusLen) :
    Exec.Ensures (ChkHashSList.newBuckets env newSize junk st) (fun r st' =>
      match r with
      | none => Refused env st st'
      | some (newPtr, lists, m) => Prepared env st newSize newPtr lists m st') (Expected env) := by
  by_cases hlt : 1 < newSize
  · exact newBuckets_array hst.isOpen hst.fits hjunk hlt hmax
  · have hone : newSize = 1 := by omega
    subst hone
    rcases newBuckets_single hst.isOpen hst.fits hjunk with ⟨st', hrun, hprep⟩
    exact .of_eq hrun hprep

theorem Holds.resize_ensures (hst : st.Holds env hash chains)
    (hhash : ReadsAs env st.session (fun p => p ∈ st.members chains) o hashFunc hash)
    (hfuel : forall i, i < ChkHashSList.bucketSize st.list -> (chains i).length < n)
    (hjunk : junk.Fits) (hpos : 0 < newSize) (hmax : 4 * newSize ≤ chkMaxContinusLen)
    (hne : ChkHashSList.bucketSize st.list ≠ newSize) :
    Exec.Ensures (ChkHashSList.resizeBuckets env newSize hashFunc o n junk st)
      (ResizeOutcome env st hash chains newSize) (Expected env) := by
  unfold ChkHashSList.resizeBuckets
  rw [Exec.bind_of_ok (Exec.state_apply st)]
  simp only [if_neg hne]
  rw [Exec.bind_of_ok (Exec.require_of hpos _ _)]
  refine Exec.Ensures.bind (newBuckets_ensures hst hjunk hpos hmax) ?_
  rintro (_ | ⟨newPtr, lists, m⟩) st₁ hprep
  · exact Or.inr ⟨rfl, hprep⟩
  · rcases Prepared.moves hprep hpos hst hhash hfuel with ⟨st₂, hmoves, hstep, hchain⟩
    have hlist : st₂.list = st.list := (hstep.next .list trivial (by
      rintro (⟨j, -, heq⟩ | ⟨p, -, heq⟩)
      · exact Prepared.ne_list j heq.symm
      · cases heq)).trans hprep.list
    have harray : st₂.HasArray := by
      unfold HasArray
      rw [hlist, hstep.live]
      refine hst.array.imp_right ?_
      rintro ⟨b, hb, hptr⟩
      exact ⟨b, hprep.sub hb, hptr⟩
    have hrelease := release_ensures hstep.good harray
    rw [hlist] at hrelease
    simp only
    rw [Exec.bind_of_ok hmoves]
    refine Exec.Ensures.bind hrelease ?_
    rintro _ st₃ hrel
    have hmoved := hprep.released hpos hst hstep hchain hrel
    by_cases hlt : 1 < newSize
    · have hm : m > 1 := Nat.lt_of_lt_of_le hlt hmoved.size_le
      rw [if_pos hm]
      exact Or.inl ⟨rfl, _, hmoved.enter hlt hst⟩
    · have hone : newSize = 1 := by omega
      have hm := hmoved.one.mpr hone
      rw [if_neg (by omega)]
      exact Or.inl ⟨rfl, _, hmoved.enter_single hone hst⟩

end HashState

end ChunkMem
