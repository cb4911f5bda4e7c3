import Mathlib.Data.List.Perm.Basic
import ChunkMem.Structures.Chains

/-!
# Moving nodes between hash lists

The loops of `resize_buckets` take the nodes of the old lists one by one and push
them on the new lists.  While a list is walked, its next node is known before the links
of the current one change.
-/

namespace ChunkMem

open Foundation

/-!
## Nodes spread over lists
-/

/-- The nodes go in front of the lists that their hashes select. -/
def distribute (hash : ChkPtr -> Nat) (m : Nat) :
    (Nat -> List ChkPtr) -> List ChkPtr -> Nat -> List ChkPtr
  | news, [] => news
  | news, p :: l =>
      distribute hash m (Function.update news (hash p % m) (p :: news (hash p % m))) l

section Distribute

variable {hash : ChkPtr -> Nat} {m : Nat} {news : Nat -> List ChkPtr} {l : List ChkPtr}

theorem distribute_append (l l' : List ChkPtr) :
    distribute hash m news (l ++ l') = distribute hash m (distribute hash m news l) l' := by
  induction l generalizing news with
  | nil => rfl
  | cons p l ih => exact ih

theorem mem_distribute {q : ChkPtr} {j : Nat} :
    q ∈ distribute hash m news l j <-> q ∈ news j ∨ q ∈ l ∧ hash q % m = j := by
  induction l generalizing news with
  | nil => simp [distribute]
  | cons p l ih =>
      unfold distribute
      rw [ih]
      by_cases hj : j = hash p % m
      · subst hj
        rw [Function.update_self]
        constructor
        · rintro (hq | ⟨hq, heq⟩)
          · rcases List.mem_cons.mp hq with rfl | hq
            · exact Or.inr ⟨List.mem_cons_self, rfl⟩
            · exact Or.inl hq
          · exact Or.inr ⟨List.mem_cons_of_mem p hq, heq⟩
        · rintro (hq | ⟨hq, heq⟩)
          · exact Or.inl (List.mem_cons_of_mem p hq)
          · rcases List.mem_cons.mp hq with rfl | hq
            · exact Or.inl List.mem_cons_self
            · exact Or.inr ⟨hq, heq⟩
      · rw [Function.update_of_ne hj]
        constructor
        · rintro (hq | ⟨hq, heq⟩)
          · exact Or.inl hq
          · exact Or.inr ⟨List.mem_cons_of_mem p hq, heq⟩
        · rintro (hq | ⟨hq, heq⟩)
          · exact Or.inl hq
          · rcases List.mem_cons.mp hq with rfl | hq
            · exact absurd heq.symm hj
            · exact Or.inr ⟨hq, heq⟩

theorem flatMap_update_perm (news : Nat -> List ChkPtr) {js : List Nat} (hnodup : js.Nodup)
    {j : Nat} (hj : j ∈ js) (p : ChkPtr) :
    (js.flatMap (Function.update news j (p :: news j))).Perm (p :: js.flatMap news) := by
  induction js with
  | nil => cases hj
  | cons i js ih =>
      rw [List.nodup_cons] at hnodup
      rw [List.flatMap_cons, List.flatMap_cons]
      by_cases hij : j = i
      · subst hij
        have hrest : js.flatMap (Function.update news j (p :: news j)) = js.flatMap news := by
          apply List.flatMap_congr
          intro k hk
          exact Function.update_of_ne (fun heq : k = j => hnodup.1 (heq ▸ hk)) _ _
        rw [hrest, Function.update_self]
        exact List.Perm.refl _
      · have hmem : j ∈ js := (List.mem_cons.mp hj).resolve_left hij
        rw [Function.update_of_ne fun heq => hij heq.symm]
        exact ((ih hnodup.2 hmem).append_left (news i)).trans List.perm_middle

theorem distribute_perm (hm : 0 < m) (news : Nat -> List ChkPtr) (l : List ChkPtr) :
    ((List.range m).flatMap (distribute hash m news l)).Perm
      (l ++ (List.range m).flatMap news) := by
  induction l generalizing news with
  | nil => exact List.Perm.refl _
  | cons p l ih =>
      have hj : hash p % m ∈ List.range m := List.mem_range.mpr (Nat.mod_lt (hash p) hm)
      have hupdate := flatMap_update_perm news List.nodup_range hj p
      exact ((ih _).trans (hupdate.append_left l)).trans List.perm_middle

end Distribute

/-!
## The loops
-/

/-- The new lists: where their heads are, apart from each other and from the nodes. -/
structure Targets (live : List Live) (idx : ChkIndex) (lists : SlistPtr) (tgt : Nat -> Cell)
    (m : Nat) (V : ChkPtr -> Prop) : Prop where
  pos : 0 < m
  inside : forall j, j < m -> (tgt j).In live
  inj : forall i j, i < m -> j < m -> tgt i = tgt j -> i = j
  apart : forall j, j < m -> forall p, V p -> tgt j ≠ .word p
  ptr : forall j, j < m -> ChkHashSList.bucketAt lists j = (tgt j).ptr idx
  node : forall p, V p -> Spot live p

def Touched (tgt : Nat -> Cell) (m : Nat) (V : ChkPtr -> Prop) (c : Cell) : Prop :=
  (exists j, j < m ∧ c = tgt j) ∨ exists p, V p ∧ c = .word p

theorem Touched.mono {tgt : Nat -> Cell} {m : Nat} {V V' : ChkPtr -> Prop} {c : Cell}
    (h : Touched tgt m V c) (hV : forall p, V p -> V' p) : Touched tgt m V' c :=
  h.imp_right fun ⟨p, hp, hc⟩ => ⟨p, hV p hp, hc⟩

/-- The object that contains the node at `p`. -/
def ChkIndex.container (idx : ChkIndex) (o : Nat) (p : ChkPtr) : Ptr :=
  ⟨(idx.place p).addr.blk, (idx.place p).addr.off - o⟩

/-- On the containers of the nodes the hash function returns their hashes, whatever was
moved before. -/
def HashesAs (env : Env) (st₀ : HashState) (W : Cell -> Prop) (V : ChkPtr -> Prop) (o : Nat)
    (hashFunc : Ptr -> M Nat) (hash : ChkPtr -> Nat) : Prop :=
  forall st, HashState.Step env W st₀ st -> forall p, V p ->
    hashFunc (st₀.session.world.index.container o p) st.session.world =
      .ok (hash p, st.session.world)

namespace HashState

variable {env : Env} {st₀ st : HashState} {lists : SlistPtr} {tgt : Nat -> Cell} {m o n : Nat}
variable {V : ChkPtr -> Prop} {hashFunc : Ptr -> M Nat} {hash : ChkPtr -> Nat}
variable {news : Nat -> List ChkPtr} {l : List ChkPtr} {u v : ChkPtr}

def Chained (st : HashState) (tgt : Nat -> Cell) (m : Nat) (news : Nat -> List ChkPtr) : Prop :=
  forall j, j < m -> Run st.next (st.next (tgt j)) (news j)

theorem push_chained {st' : HashState} {live : List Live} {idx : ChkIndex} {p : ChkPtr} {j : Nat}
    (ht : Targets live idx lists tgt m V) (hlive : st.session.live = live) (hj : j < m)
    (hp : V p) (hchain : st.Chained tgt m news)
    (hnews : forall i, i < m -> forall q, q ∈ news i -> V q ∧ q ≠ p)
    (hstep : Step env (fun c => c = tgt j ∨ c = .word p) st st') (hhead : st'.next (tgt j) = p)
    (hnode : st'.next (.word p) = st.next (tgt j)) :
    st'.Chained tgt m (Function.update news j (p :: news j)) := by
  have hkept : forall i, i < m -> forall v, Run st.next v (news i) -> Run st'.next v (news i) := by
    intro i hi v hrun
    refine hstep.run hrun fun q hq => ?_
    rcases hnews i hi q hq with ⟨hVq, hne⟩
    refine ⟨hlive ▸ ht.node q hVq, ?_⟩
    rintro (hcon | hcon)
    · exact ht.apart j hj q hVq hcon.symm
    · exact hne (Cell.word.inj hcon)
  intro i hi
  by_cases hij : i = j
  · subst hij
    rw [Function.update_self, hhead]
    refine ⟨rfl, ?_⟩
    rw [hnode]
    exact hkept i hi _ (hchain i hi)
  · rw [Function.update_of_ne hij]
    have hout : ¬(tgt i = tgt j ∨ tgt i = .word p) := by
      rintro (hcon | hcon)
      · exact hij (ht.inj i j hi hj hcon)
      · exact ht.apart i hi p hp hcon
    rw [hstep.next _ (hlive ▸ ht.inside i hi) hout]
    exact hkept i hi _ (hchain i hi)

theorem moveFrom_ok (ht : Targets st₀.session.live st₀.session.world.index lists tgt m V)
    (hhash : HashesAs env st₀ (Touched tgt m V) V o hashFunc hash)
    (hstep : Step env (Touched tgt m V) st₀ st) (hl : forall p, p ∈ l -> V p)
    (hnodup : l.Nodup) (hnews : forall j, j < m -> forall q, q ∈ news j -> V q ∧ q ∉ l)
    (hchain : st.Chained tgt m news) (hrun : Run st.next v l)
    (hu : forall p r, l = p :: r -> u = st.next (.word p)) (hn : l.length < n) :
    exists st', ChkHashSList.moveFrom hashFunc o lists m n v
        (firstAddr st₀.session.world.index l) u (firstAddr st₀.session.world.index l.tail) st =
          .ok ((), st') ∧
      Step env (Touched tgt m fun p => p ∈ l) st st' ∧
      st'.Chained tgt m (distribute hash m news l) := by
  induction l generalizing st v u n news with
  | nil =>
      cases n with
      | zero => cases hn
      | succ n =>
          refine ⟨st, ?_, .refl hstep.good _, hchain⟩
          unfold ChkHashSList.moveFrom firstAddr
          rw [if_pos rfl]
          rfl
  | cons p l ih =>
      cases n with
      | zero => cases hn
      | succ n =>
          have hVp := hl p List.mem_cons_self
          have hl' : forall q, q ∈ l -> V q := fun q hq => hl q (List.mem_cons_of_mem p hq)
          have hnodup' := List.nodup_cons.mp hnodup
          have hj : hash p % m < m := Nat.mod_lt _ ht.pos
          have hp : Spot st.session.live p := hstep.live ▸ ht.node p hVp
          rcases hstep.good.push_ok hp (hstep.live ▸ ht.inside _ hj) (ht.apart _ hj p hVp) with
            ⟨st₁, hpush, hstep₁, hhead, hnode⟩
          rw [hstep.index, ← ht.ptr _ hj] at hpush
          have hsub : forall c, c = tgt (hash p % m) ∨ c = .word p -> Touched tgt m V c := by
            rintro c (rfl | rfl)
            · exact Or.inl ⟨_, hj, rfl⟩
            · exact Or.inr ⟨p, hVp, rfl⟩
          have hstep₁' := hstep.trans (hstep₁.mono hsub)
          have hspots : forall q, q ∈ l -> Spot st₁.session.live q :=
            fun q hq => hstep₁'.live ▸ ht.node q (hl' q hq)
          have hchain₁ := push_chained ht hstep.live hj hVp hchain
            (fun i hi q hq => ⟨(hnews i hi q hq).1, fun heq =>
              (hnews i hi q hq).2 (heq ▸ List.mem_cons_self)⟩) hstep₁ hhead hnode
          have hrun₁ : Run st₁.next u l := by
            rw [hu p l rfl]
            refine hstep₁.run hrun.2 fun q hq => ⟨hstep.live ▸ ht.node q (hl' q hq), ?_⟩
            rintro (hcon | hcon)
            · exact ht.apart _ hj q (hl' q hq) hcon.symm
            · exact hnodup'.1 (Cell.word.inj hcon ▸ hq)
          rcases hstep₁'.good.nextOrNull_ok hrun₁ hspots with ⟨u', hnext, hrun', hu'⟩
          have hdecode := mem_ok (hstep₁'.good.decode hrun'
            fun q hq => hspots q (List.mem_of_mem_tail hq))
          rw [hstep₁'.index] at hnext hdecode
          have hnews₁ : forall j, j < m -> forall q,
              q ∈ Function.update news (hash p % m) (p :: news (hash p % m)) j -> V q ∧ q ∉ l := by
            intro i hi q hq
            by_cases hij : i = hash p % m
            · rw [hij, Function.update_self] at hq
              rcases List.mem_cons.mp hq with rfl | hq
              · exact ⟨hVp, hnodup'.1⟩
              · have hold := hnews _ hj q hq
                exact ⟨hold.1, fun hmem => hold.2 (List.mem_cons_of_mem p hmem)⟩
            · rw [Function.update_of_ne hij] at hq
              have hold := hnews i hi q hq
              exact ⟨hold.1, fun hmem => hold.2 (List.mem_cons_of_mem p hmem)⟩
          rcases ih hstep₁' hl' hnodup'.2 hnews₁ hchain₁ hrun₁ hu'
            (Nat.lt_of_succ_lt_succ hn) with ⟨st', hloop, hstep', hchain'⟩
          refine ⟨st', ?_, ?_, hchain'⟩
          · have hne : (st₀.session.world.index.place p).addr ≠ Ptr.null := by
              rw [← hstep.index]
              exact hstep.good.isOpen.place_ne_null hp
            have haddr := mem_ok (hstep.good.isOpen.place_addrchk hp)
            rw [hstep.index] at haddr
            rw [hrun.1, ← hloop]
            exact ChkHashSList.moveFrom_succ hne (mem_ok (hhash st hstep p hVp)) haddr hpush
              hnext hdecode
          · refine (hstep₁.mono ?_).trans (hstep'.mono fun c hc =>
              hc.mono fun q hq => List.mem_cons_of_mem p hq)
            rintro c (rfl | rfl)
            · exact Or.inl ⟨_, hj, rfl⟩
            · exact Or.inr ⟨p, List.mem_cons_self, rfl⟩

theorem moveList_ok (ht : Targets st₀.session.live st₀.session.world.index lists tgt m V)
    (hhash : HashesAs env st₀ (Touched tgt m V) V o hashFunc hash)
    (hstep : Step env (Touched tgt m V) st₀ st) {c : Cell} (hc : c.In st₀.session.live)
    (hl : forall p, p ∈ l -> V p) (hnodup : l.Nodup)
    (hnews : forall j, j < m -> forall q, q ∈ news j -> V q ∧ q ∉ l)
    (hchain : st.Chained tgt m news) (hrun : Run st.next (st.next c) l) (hn : l.length < n) :
    exists st', ChkHashSList.moveList hashFunc o lists m n (c.ptr st₀.session.world.index) st =
        .ok ((), st') ∧
      Step env (Touched tgt m fun p => p ∈ l) st st' ∧
      st'.Chained tgt m (distribute hash m news l) := by
  have hspots : forall q, q ∈ l -> Spot st.session.live q :=
    fun q hq => hstep.live ▸ ht.node q (hl q hq)
  have hnext := hstep.good.next_ok (c := c) (hstep.live ▸ hc)
  have hpos := mem_ok (hstep.good.decode hrun hspots)
  rcases hstep.good.nextOrNull_ok hrun hspots with ⟨u, hu, hrun', hu'⟩
  have htmp := mem_ok (hstep.good.decode hrun' fun q hq => hspots q (List.mem_of_mem_tail hq))
  rw [hstep.index] at hnext hpos hu htmp
  rcases moveFrom_ok ht hhash hstep hl hnodup hnews hchain hrun hu' hn with
    ⟨st', hloop, hstep', hchain'⟩
  refine ⟨st', ?_, hstep', hchain'⟩
  unfold ChkHashSList.moveList
  rw [Exec.bind_of_ok hnext, Exec.bind_of_ok hpos, Exec.bind_of_ok hu, Exec.bind_of_ok htmp,
    hloop]

def bucket (st : HashState) (i : Nat) : Cell :=
  if ChkHashSList.bucketSize st.list = 1 then .list
  else .word ⟨st.list.chkNo, st.list.offset + i, 0⟩

/-- The heads of the lists lie in a block of the session, unless there is only one. -/
def HasArray (st : HashState) : Prop :=
  st.list.size = 0 ∨ exists b, b ∈ st.session.live ∧ b.ptr = st.list

theorem bucketSize_pos (p : ChkPtr) : 0 < ChkHashSList.bucketSize p := by
  unfold ChkHashSList.bucketSize
  simp only [chkSize]
  split <;> omega

theorem HasArray.block (h : st.HasArray) (hone : ChkHashSList.bucketSize st.list ≠ 1) :
    exists b, b ∈ st.session.live ∧ b.ptr = st.list ∧
      ChkHashSList.bucketSize st.list = 2 * b.ptr.size := by
  rcases h with hzero | ⟨b, hb, hptr⟩
  · exact absurd (if_pos hzero) hone
  · refine ⟨b, hb, hptr, ?_⟩
    rw [hptr]
    unfold ChkHashSList.bucketSize at hone ⊢
    simp only [chkSize] at hone ⊢
    split at hone
    · exact absurd rfl hone
    · next hsize =>
        rw [if_neg hsize]
        omega

theorem HasArray.bucket_has (h : st.HasArray) (hone : ChkHashSList.bucketSize st.list ≠ 1) {i : Nat}
    (hi : i < ChkHashSList.bucketSize st.list) :
    exists b p, b ∈ st.session.live ∧ b.ptr = st.list ∧ st.bucket i = .word p ∧ b.Has p := by
  rcases h.block hone with ⟨b, hb, hptr, hsize⟩
  refine ⟨b, _, hb, hptr, if_neg hone, rfl, ?_, ?_, ?_⟩
  · rw [hptr]
  · rw [hptr]
    exact Nat.le_add_right _ _
  · rw [hptr] at hsize ⊢
    simp only
    omega

theorem HasArray.bucket_cases (h : st.HasArray) {i : Nat}
    (hi : i < ChkHashSList.bucketSize st.list) :
    st.bucket i = .list ∨ exists p, st.bucket i = .word p ∧ Spot st.session.live p := by
  by_cases hone : ChkHashSList.bucketSize st.list = 1
  · exact Or.inl (if_pos hone)
  · rcases h.bucket_has hone hi with ⟨b, p, hb, -, heq, hhas⟩
    exact Or.inr ⟨p, heq, b, hb, hhas⟩

theorem bucket_in (h : st.HasArray) {i : Nat} (hi : i < ChkHashSList.bucketSize st.list) :
    (st.bucket i).In st.session.live := by
  rcases h.bucket_cases hi with heq | ⟨p, heq, hp⟩
  · rw [heq]
    trivial
  · rw [heq]
    exact hp

theorem Good.getList_ok (h : st.Good env) (harray : st.HasArray) (k : Nat) :
    ChkHashSList.getList k st =
      .ok ((st.bucket (k % ChkHashSList.bucketSize st.list)).ptr st.session.world.index, st) := by
  unfold ChkHashSList.getList bucket
  rw [Exec.bind_of_ok (Exec.state_apply st)]
  by_cases hone : ChkHashSList.bucketSize st.list = 1
  · simp only [if_pos hone]
    rfl
  · rcases harray.block hone with ⟨b, hb, hptr, -⟩
    have hno : st.list.chkNo < st.session.world.index.chkNum := by
      rw [← hptr]
      exact h.isOpen.chkNo_lt hb
    have haddr := mem_ok (h.isOpen.chkPtr2addr_ok hno)
    simp only [if_neg hone]
    rw [Exec.bind_of_ok haddr, Exec.pure_apply, Open.addrOf_add]
    simp only [Cell.ptr, Open.place_addr_eq, Nat.mul_add]

theorem moveLists_from (ht : Targets st₀.session.live st₀.session.world.index lists tgt m V)
    (hhash : HashesAs env st₀ (Touched tgt m V) V o hashFunc hash)
    (harray : st₀.HasArray) (hlist : ¬Touched tgt m V .list) {olds : Nat -> List ChkPtr}
    (hheads : forall i, i < ChkHashSList.bucketSize st₀.list ->
      ¬Touched tgt m V (st₀.bucket i))
    (hfuel : forall i, i < ChkHashSList.bucketSize st₀.list -> (olds i).length < n)
    {a k : Nat} (hak : a + k ≤ ChkHashSList.bucketSize st₀.list)
    (hstep : Step env (Touched tgt m V) st₀ st)
    (holds : forall i, a ≤ i -> i < a + k -> forall p, p ∈ olds i -> V p)
    (hnodup : ((List.range' a k).flatMap olds).Nodup)
    (hnews : forall j, j < m -> forall q, q ∈ news j ->
      V q ∧ q ∉ (List.range' a k).flatMap olds)
    (hchain : st.Chained tgt m news)
    (hruns : forall i, a ≤ i -> i < a + k -> Run st.next (st.next (st₀.bucket i)) (olds i)) :
    exists st', ChkHashSList.forUp (fun i => do
          let oldList <- ChkHashSList.getList i
          ChkHashSList.moveList hashFunc o lists m n oldList) a k st = .ok ((), st') ∧
      Step env (Touched tgt m V) st st' ∧
      st'.Chained tgt m (distribute hash m news ((List.range' a k).flatMap olds)) := by
  induction k generalizing st a news with
  | zero => exact ⟨st, rfl, .refl hstep.good _, hchain⟩
  | succ k ih =>
      have hsame : st.list = st₀.list := hstep.next .list trivial hlist
      have harray' : st.HasArray := by
        unfold HasArray
        rw [hsame, hstep.live]
        exact harray
      have ha : a < ChkHashSList.bucketSize st₀.list := by omega
      have hget := hstep.good.getList_ok harray' a
      have hbucket : st.bucket a = st₀.bucket a := by
        unfold bucket
        rw [hsame]
      rw [hsame, Nat.mod_eq_of_lt ha, hstep.index, hbucket] at hget
      rw [List.range'_succ, List.flatMap_cons] at hnodup hnews ⊢
      rcases List.nodup_append.mp hnodup with ⟨hnodup₁, hnodup₂, hdisj⟩
      have hV := holds a (Nat.le_refl a) (by omega)
      rcases moveList_ok ht hhash hstep (bucket_in harray ha) hV hnodup₁
        (fun j hj q hq => ⟨(hnews j hj q hq).1, fun hmem =>
          (hnews j hj q hq).2 (List.mem_append_left _ hmem)⟩) hchain
        (hruns a (Nat.le_refl a) (by omega)) (hfuel a ha) with ⟨st₁, hmove, hstep₁, hchain₁⟩
      have hstep₁' : Step env (Touched tgt m V) st st₁ := hstep₁.mono fun c hc => hc.mono hV
      have hlater : forall i, a + 1 ≤ i -> i < a + 1 + k -> forall q, q ∈ olds i ->
          q ∈ (List.range' (a + 1) k).flatMap olds := by
        intro i hi hi' q hq
        exact List.mem_flatMap.mpr ⟨i, List.mem_range'_1.mpr ⟨hi, hi'⟩, hq⟩
      have hruns₁ : forall i, a + 1 ≤ i -> i < a + 1 + k ->
          Run st₁.next (st₁.next (st₀.bucket i)) (olds i) := by
        intro i hi hi'
        rw [hstep₁'.next _ (hstep.live ▸ bucket_in harray (by omega)) (hheads i (by omega))]
        refine hstep₁.run (hruns i (by omega) (by omega)) fun q hq => ?_
        have hVq := holds i (by omega) (by omega) q hq
        refine ⟨hstep.live ▸ ht.node q hVq, ?_⟩
        rintro (⟨j, hj, hcon⟩ | ⟨p, hp, hcon⟩)
        · exact ht.apart j hj q hVq hcon.symm
        · exact hdisj p hp q (hlater i hi hi' q hq) (Cell.word.inj hcon).symm
      have hnews₁ : forall j, j < m -> forall q, q ∈ distribute hash m news (olds a) j ->
          V q ∧ q ∉ (List.range' (a + 1) k).flatMap olds := by
        intro j hj q hq
        rcases mem_distribute.mp hq with hq | ⟨hq, -⟩
        · exact ⟨(hnews j hj q hq).1, fun hmem =>
            (hnews j hj q hq).2 (List.mem_append_right _ hmem)⟩
        · exact ⟨hV q hq, fun hmem => hdisj q hq q hmem rfl⟩
      rcases ih (by omega) (hstep.trans hstep₁') (fun i hi hi' => holds i (by omega) (by omega))
        hnodup₂ hnews₁ hchain₁ hruns₁ with ⟨st', hrest, hstep', hchain'⟩
      refine ⟨st', ?_, hstep₁'.trans hstep', ?_⟩
      · unfold ChkHashSList.forUp
        rw [Exec.bind_assoc, Exec.bind_of_ok hget, Exec.bind_of_ok hmove, hrest]
      · rw [distribute_append]
        exact hchain'

theorem initBuckets_from {a k : Nat}
    (hin : forall j, a ≤ j -> j < a + k -> (tgt j).In st.session.live)
    (hinj : forall i j, a ≤ i -> i < j -> j < a + k -> tgt i ≠ tgt j)
    (hptr : forall j, a ≤ j -> j < a + k ->
      ChkHashSList.bucketAt lists j = (tgt j).ptr st.session.world.index)
    (hgood : st.Good env) :
    exists st', ChkHashSList.forUp (fun i => SlistPtr.init (ChkHashSList.bucketAt lists i)) a k
        st = .ok ((), st') ∧
      Step env (fun c => exists j, a ≤ j ∧ j < a + k ∧ c = tgt j) st st' ∧
      forall j, a ≤ j -> j < a + k -> (st'.next (tgt j)).IsNull := by
  induction k generalizing st a with
  | zero => exact ⟨st, rfl, .refl hgood _, fun j hj hj' => absurd hj' (by omega)⟩
  | succ k ih =>
      have hina := hin a (Nat.le_refl a) (by omega)
      rcases hgood.init_ok hina with ⟨st₁, hinit, hstep₁, hnull⟩
      rw [← hptr a (Nat.le_refl a) (by omega)] at hinit
      have hin₁ : forall j, a + 1 ≤ j -> j < a + 1 + k -> (tgt j).In st₁.session.live :=
        fun j hj hj' => hstep₁.live ▸ hin j (by omega) (by omega)
      have hptr₁ : forall j, a + 1 ≤ j -> j < a + 1 + k ->
          ChkHashSList.bucketAt lists j = (tgt j).ptr st₁.session.world.index :=
        fun j hj hj' => hstep₁.index ▸ hptr j (by omega) (by omega)
      rcases ih hin₁ (fun i j hi hij hj => hinj i j (by omega) hij (by omega)) hptr₁ hstep₁.good
        with ⟨st', hrest, hstep', hnulls⟩
      refine ⟨st', ?_, ?_, ?_⟩
      · unfold ChkHashSList.forUp
        rw [Exec.bind_of_ok hinit, hrest]
      · refine (hstep₁.mono ?_).trans (hstep'.mono ?_)
        · rintro c rfl
          exact ⟨a, Nat.le_refl a, by omega, rfl⟩
        · rintro c ⟨j, hj, hj', hc⟩
          exact ⟨j, by omega, by omega, hc⟩
      · intro j hj hj'
        by_cases hja : j = a
        · subst hja
          rw [hstep'.next _ (hstep₁.live ▸ hina), hnull]
          · exact ChkPtr.nulled_isNull _
          · rintro ⟨i, hi, hi', hcon⟩
            exact hinj j i (Nat.le_refl j) (by omega) (by omega) hcon
        · exact hnulls j (by omega) (by omega)

end HashState

end ChunkMem
