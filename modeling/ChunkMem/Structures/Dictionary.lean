import ChunkMem.Structures.Buckets

/-!
# Lookup, insertion and removal in a hash list

The walks of `find` and `erase` follow one chain; `insert` and
`erase` change the chain of one head.
-/

namespace ChunkMem

open Foundation

namespace HashState

variable {env : Env} {st st' : HashState} {hash : ChkPtr -> Nat} {chains : Nat -> List ChkPtr}
variable {c : Cell} {v p : ChkPtr} {l : List ChkPtr} {o n : Nat}

/-!
## The walks
-/

theorem firstAddr_nil (idx : ChkIndex) : firstAddr idx [] = Ptr.null := rfl

theorem firstAddr_cons (idx : ChkIndex) (p : ChkPtr) (l : List ChkPtr) :
    firstAddr idx (p :: l) = (idx.place p).addr := rfl

/-- What a walk for a node with `eqs` ends with. -/
def Found (st : HashState) (eqs : ChkPtr -> Bool) (l : List ChkPtr)
    (r : ChkPtr × Option SlistPtr) : Prop :=
  (exists p c, p ∈ l ∧ eqs p = true ∧ r = (p, some c) ∧ c.next st = .ok (p, st)) ∨
    ((forall p, p ∈ l -> eqs p = false) ∧ r = (chkNull, none))

theorem Good.findFrom_ok (h : st.Good env) {eqFunc : Ptr -> M Bool} {eqs : ChkPtr -> Bool}
    (hrun : Run st.next v l) (hl : forall q, q ∈ l -> Spot st.session.live q)
    (hc : c.In st.session.live) (hv : st.next c = v)
    (heq : forall q, q ∈ l -> eqFunc (st.session.world.index.container o q) st.session.world =
      .ok (eqs q, st.session.world)) (hn : l.length < n) :
    exists r, ChkHashSList.findFrom eqFunc o n (c.ptr st.session.world.index) v st =
      .ok (r, st) ∧ Found st eqs l r := by
  induction l generalizing c v n with
  | nil =>
      cases n with
      | zero => cases hn
      | succ n =>
          refine ⟨(chkNull, none), ?_, Or.inr ⟨nofun, rfl⟩⟩
          unfold ChkHashSList.findFrom
          rw [Exec.bind_of_ok (mem_ok (h.decode hrun hl)), if_pos (firstAddr_nil _)]
          rfl
  | cons q l ih =>
      cases n with
      | zero => cases hn
      | succ n =>
          have hq := hl q List.mem_cons_self
          have hne : firstAddr st.session.world.index (q :: l) ≠ Ptr.null :=
            h.isOpen.place_ne_null hq
          have heqs := mem_ok (heq q List.mem_cons_self)
          cases hcase : eqs q with
          | true =>
              rw [hcase] at heqs
              refine ⟨(q, some (c.ptr st.session.world.index)), ?_, Or.inl
                ⟨q, _, List.mem_cons_self, hcase, rfl, ?_⟩⟩
              · unfold ChkHashSList.findFrom
                rw [Exec.bind_of_ok (mem_ok (h.decode hrun hl)), if_neg hne]
                have heqs' : HashProg.mem (eqFunc ⟨(firstAddr st.session.world.index (q :: l)).blk,
                  (firstAddr st.session.world.index (q :: l)).off - o⟩) st = .ok (true, st) := heqs
                rw [Exec.bind_of_ok heqs', if_pos rfl, hrun.1]
                rfl
              · rw [h.next_ok hc, hv, hrun.1]
          | false =>
              rw [hcase] at heqs
              rcases ih (c := .word q) hrun.2 (fun r hr => hl r (List.mem_cons_of_mem q hr)) hq rfl
                (fun r hr => heq r (List.mem_cons_of_mem q hr)) (Nat.lt_of_succ_lt_succ hn) with
                ⟨r, hfind, hfound⟩
              refine ⟨r, ?_, ?_⟩
              · unfold ChkHashSList.findFrom
                rw [Exec.bind_of_ok (mem_ok (h.decode hrun hl)), if_neg hne]
                have heqs' : HashProg.mem (eqFunc ⟨(firstAddr st.session.world.index (q :: l)).blk,
                  (firstAddr st.session.world.index (q :: l)).off - o⟩) st = .ok (false, st) := heqs
                rw [Exec.bind_of_ok heqs', if_neg (by decide)]
                have hload := mem_ok (h.isOpen.loadWord hq)
                have hload' : HashProg.mem (loadPtr (firstAddr st.session.world.index (q :: l)))
                  st = .ok (st.next (.word q), st) := hload
                rw [Exec.bind_of_ok hload']
                exact hfind
              · rcases hfound with ⟨p, c', hp, hrest⟩ | ⟨hnone, hr⟩
                · exact Or.inl ⟨p, c', List.mem_cons_of_mem q hp, hrest⟩
                · refine Or.inr ⟨fun p hp => ?_, hr⟩
                  rcases List.mem_cons.mp hp with rfl | hp
                  · exact hcase
                  · exact hnone p hp

theorem Good.eraseNode_ok (h : st.Good env) (hp : Spot st.session.live p)
    (hc : c.In st.session.live) (hne : c ≠ .word p) :
    exists st', SlistPtr.eraseNode (c.ptr st.session.world.index)
        (st.session.world.index.place p).addr st = .ok ((), st') ∧
      Step env (fun c' => c' = c ∨ c' = .word p) st st' ∧ st'.next c = st.next (.word p) := by
  rcases h.setNext_ok hc (h.fits (.word p)) with ⟨st₁, hrun₁, hstep₁, hnext₁⟩
  have hp₁ : Cell.In st₁.session.live (.word p) := hstep₁.live.symm ▸ hp
  rcases hstep₁.good.init_ok hp₁ with ⟨st₂, hrun₂, hstep₂, -⟩
  rw [hstep₁.index] at hrun₂
  refine ⟨st₂, ?_, ?_, ?_⟩
  · unfold SlistPtr.eraseNode
    have hload : HashProg.mem (loadPtr (st.session.world.index.place p).addr) st =
      .ok (st.next (.word p), st) := mem_ok (h.isOpen.loadWord hp)
    rw [Exec.bind_of_ok hload, Exec.bind_of_ok hrun₁]
    exact hrun₂
  · exact (hstep₁.mono fun _ hc' => Or.inl hc').trans (hstep₂.mono fun _ hc' => Or.inr hc')
  · rw [hstep₂.next c (hstep₁.live.symm ▸ hc) hne, hnext₁]

structure Unlinked (env : Env) (st : HashState) (c : Cell) (v p : ChkPtr) (l : List ChkPtr)
    (st' : HashState) : Prop where
  step : Step env (fun c' => c' = c ∨ exists q, q ∈ l ∧ c' = .word q) st st'
  run : Run st'.next (st'.next c) (l.erase p)
  first : st'.next c = v ∨ v = p ∧ st'.next c = st.next (.word p)

theorem Good.eraseFrom_ok (h : st.Good env) (hrun : Run st.next v l) (hnodup : l.Nodup)
    (hl : forall q, q ∈ l -> Spot st.session.live q) (hc : c.In st.session.live)
    (hcl : forall q, q ∈ l -> c ≠ .word q) (hv : st.next c = v) (hp : Spot st.session.live p)
    (hn : l.length < n) :
    (p ∉ l -> SlistPtr.eraseFrom (st.session.world.index.place p).addr n
      (c.ptr st.session.world.index) v st = .ok (-1, st)) ∧
    (p ∈ l -> exists st', SlistPtr.eraseFrom (st.session.world.index.place p).addr n
      (c.ptr st.session.world.index) v st = .ok (0, st') ∧ Unlinked env st c v p l st') := by
  induction l generalizing c v n with
  | nil =>
      cases n with
      | zero => cases hn
      | succ n =>
          refine ⟨fun _ => ?_, nofun⟩
          unfold SlistPtr.eraseFrom
          rw [Exec.bind_of_ok (mem_ok (h.decode hrun hl)), if_pos (firstAddr_nil _)]
          rfl
  | cons q l ih =>
      cases n with
      | zero => cases hn
      | succ n =>
          have hq := hl q List.mem_cons_self
          have hne : firstAddr st.session.world.index (q :: l) ≠ Ptr.null :=
            h.isOpen.place_ne_null hq
          have hnodup' := List.nodup_cons.mp hnodup
          by_cases hpq : p = q
          · subst hpq
            refine ⟨fun hcon => absurd List.mem_cons_self hcon, fun _ => ?_⟩
            rcases h.eraseNode_ok hp hc (hcl p List.mem_cons_self) with
              ⟨st', herase, hstep, hfirst⟩
            refine ⟨st', ?_, ?_, ?_, Or.inr ⟨hrun.1, hfirst⟩⟩
            · unfold SlistPtr.eraseFrom
              rw [Exec.bind_of_ok (mem_ok (h.decode hrun hl)), if_neg hne,
                if_pos (firstAddr_cons _ p l)]
              have herase' : SlistPtr.eraseNode (c.ptr st.session.world.index)
                (firstAddr st.session.world.index (p :: l)) st = .ok ((), st') := herase
              rw [Exec.bind_of_ok herase']
              rfl
            · refine hstep.mono ?_
              rintro c' (hc' | hc')
              · exact Or.inl hc'
              · exact Or.inr ⟨p, List.mem_cons_self, hc'⟩
            · rw [List.erase_cons_head, hfirst]
              refine hstep.run hrun.2 fun r hr => ⟨hl r (List.mem_cons_of_mem p hr), ?_⟩
              rintro (hcon | hcon)
              · exact hcl r (List.mem_cons_of_mem p hr) hcon.symm
              · exact hnodup'.1 (Cell.word.inj hcon ▸ hr)
          · have haddr : firstAddr st.session.world.index (q :: l) ≠
                (st.session.world.index.place p).addr :=
              fun heq => hpq (h.isOpen.place_inj hp hq heq.symm)
            have hword : forall r, r ∈ l -> Cell.word q ≠ .word r := by
              rintro r hr heq
              exact hnodup'.1 (Cell.word.inj heq ▸ hr)
            have hrec := ih (c := .word q) hrun.2 hnodup'.2
              (fun r hr => hl r (List.mem_cons_of_mem q hr)) hq hword rfl
              (Nat.lt_of_succ_lt_succ hn)
            have hround : SlistPtr.eraseFrom (st.session.world.index.place p).addr (n + 1)
                (c.ptr st.session.world.index) v st =
                SlistPtr.eraseFrom (st.session.world.index.place p).addr n
                  (Cell.ptr st.session.world.index (.word q)) (st.next (.word q)) st := by
              have hload : HashProg.mem (loadPtr (firstAddr st.session.world.index (q :: l)))
                st = .ok (st.next (.word q), st) := mem_ok (h.isOpen.loadWord hq)
              conv_lhs => unfold SlistPtr.eraseFrom
              rw [Exec.bind_of_ok (mem_ok (h.decode hrun hl)), if_neg hne, if_neg haddr,
                Exec.bind_of_ok hload]
              rfl
            rw [hround]
            refine ⟨fun hnot => hrec.1 fun hmem => hnot (List.mem_cons_of_mem q hmem),
              fun hmem => ?_⟩
            have hmem' : p ∈ l := (List.mem_cons.mp hmem).resolve_left hpq
            rcases hrec.2 hmem' with ⟨st', herase, hout⟩
            have hkept : st'.next c = st.next c := by
              refine hout.step.next c hc ?_
              rintro (hcon | ⟨r, hr, hcon⟩)
              · exact hcl q List.mem_cons_self hcon
              · exact hcl r (List.mem_cons_of_mem q hr) hcon
            refine ⟨st', herase, hout.step.mono ?_, ?_, Or.inl (hkept.trans hv)⟩
            · rintro c' (hc' | ⟨r, hr, hc'⟩)
              · exact Or.inr ⟨q, List.mem_cons_self, hc'⟩
              · exact Or.inr ⟨r, List.mem_cons_of_mem q hr, hc'⟩
            · rw [List.erase_cons_tail (by simpa using fun heq => hpq heq.symm), hkept, hv]
              exact ⟨hrun.1, hout.run⟩

/-!
## One chain of the hash list
-/

section Chain

variable {i k fuel : Nat} {V : ChkPtr -> Prop} {l' : List ChkPtr}

theorem Holds.chain_sublist (chains : Nat -> List ChkPtr)
    (hi : i < ChkHashSList.bucketSize st.list) :
    (chains i).Sublist (st.members chains) := by
  unfold members
  rw [List.flatMap_def]
  exact List.sublist_flatten_of_mem (List.mem_map_of_mem (List.mem_range.mpr hi))

theorem slot_lt (st : HashState) (k : Nat) :
    k % ChkHashSList.bucketSize st.list < ChkHashSList.bucketSize st.list :=
  Nat.mod_lt _ (bucketSize_pos _)

theorem Holds.mem_iff (hst : st.Holds env hash chains) (p : ChkPtr) :
    p ∈ st.members chains <-> p ∈ chains (hash p % ChkHashSList.bucketSize st.list) := by
  constructor
  · intro hp
    rcases mem_members.mp hp with ⟨j, hj, hp⟩
    rw [hst.hashed j hj p hp]
    exact hp
  · intro hp
    exact mem_members.mpr ⟨_, slot_lt st _, hp⟩

theorem Holds.chain_unique (hst : st.Holds env hash chains)
    (hi : i < ChkHashSList.bucketSize st.list)
    (hk : k < ChkHashSList.bucketSize st.list) (hpi : p ∈ chains i) (hpk : p ∈ chains k) :
    i = k := by
  rw [← hst.hashed i hi p hpi]
  exact hst.hashed k hk p hpk

theorem Holds.find_ok (hst : st.Holds env hash chains) (h : st.Good env) {eqFunc : Ptr -> M Bool}
    {eqs : ChkPtr -> Bool} (heq : forall q, q ∈ st.members chains ->
      eqFunc (st.session.world.index.container o q) st.session.world =
        .ok (eqs q, st.session.world))
    (hkey : forall q, q ∈ st.members chains -> eqs q = true -> hash q = k)
    (hn : (st.members chains).length < fuel) :
    exists r, ChkHashSList.find eqFunc o k fuel st = .ok (r, st) ∧
      Found st eqs (st.members chains) r := by
  have hslot := slot_lt st k
  have hsub := Holds.chain_sublist chains hslot
  rcases h.findFrom_ok (hst.runs _ hslot) (fun q hq => hst.node (hsub.mem hq))
    (bucket_in hst.array hslot) rfl (fun q hq => heq q (hsub.mem hq))
    (Nat.lt_of_le_of_lt hsub.length_le hn) with ⟨r, hfind, hfound⟩
  refine ⟨r, ?_, ?_⟩
  · unfold ChkHashSList.find
    rw [Exec.bind_of_ok (h.getList_ok hst.array k),
      Exec.bind_of_ok (h.next_ok (bucket_in hst.array hslot))]
    exact hfind
  · rcases hfound with ⟨p, c, hp, hrest⟩ | ⟨hnone, hr⟩
    · exact Or.inl ⟨p, c, hsub.mem hp, hrest⟩
    · refine Or.inr ⟨fun p hp => ?_, hr⟩
      cases hcase : eqs p with
      | false => rfl
      | true =>
          have hmem := (hst.mem_iff p).mp hp
          rw [hkey p hp hcase] at hmem
          rw [hnone p hmem] at hcase
          cases hcase

structure Relinked (env : Env) (st : HashState) (hash : ChkPtr -> Nat) (V : ChkPtr -> Prop)
    (chains' : Nat -> List ChkPtr) (st' : HashState) : Prop where
  good : st'.Good env
  holds : st'.Holds env hash chains'
  live : st'.session.live = st.session.live
  list : st'.list = st.list ∨ st'.list.size = 0
  size : ChkHashSList.bucketSize st'.list = ChkHashSList.bucketSize st.list
  keeps : Keeps st V st'

/-- A step at one bucket keeps the list word, unless the list has that one bucket and no
array. -/
theorem relink_list
    (hstep : Step env (fun c => c = st.bucket i ∨ exists q, V q ∧ c = .word q) st st')
    (htag : ChkHashSList.bucketSize st.list = 1 -> st'.list.size = 0) :
    (st'.list = st.list ∨ st'.list.size = 0) ∧
      ChkHashSList.bucketSize st'.list = ChkHashSList.bucketSize st.list ∧
      forall k, st'.bucket k = st.bucket k := by
  by_cases hone : ChkHashSList.bucketSize st.list = 1
  · have hzero := htag hone
    have hsize : ChkHashSList.bucketSize st'.list = 1 := if_pos hzero
    refine ⟨Or.inr hzero, hsize.trans hone.symm, fun k => ?_⟩
    unfold bucket
    rw [if_pos hone, if_pos hsize]
  · have hlist : st'.list = st.list := by
      refine hstep.next .list trivial ?_
      unfold bucket
      rw [if_neg hone]
      rintro (hcon | ⟨q, -, hcon⟩) <;> cases hcon
    refine ⟨Or.inl hlist, by rw [hlist], fun k => ?_⟩
    unfold bucket
    rw [hlist]

theorem Holds.run_other (hst : st.Holds env hash chains)
    (hi : i < ChkHashSList.bucketSize st.list)
    (hstep : Step env (fun c => c = st.bucket i ∨ exists q, V q ∧ c = .word q) st st')
    (hV : forall k, k < ChkHashSList.bucketSize st.list -> k ≠ i -> forall q, q ∈ chains k -> ¬V q)
    (hheads : forall k, k < ChkHashSList.bucketSize st.list -> forall q, V q ->
      st.bucket k ≠ .word q) {k : Nat} (hk : k < ChkHashSList.bucketSize st.list) (hne : k ≠ i) :
    Run st'.next (st'.next (st.bucket k)) (chains k) := by
  rw [hstep.next _ (bucket_in hst.array hk)]
  · refine hstep.run (hst.runs k hk) fun q hq =>
      ⟨hst.node (mem_members.mpr ⟨k, hk, hq⟩), ?_⟩
    rintro (hcon | ⟨r, hr, hcon⟩)
    · exact hst.bucket_ne hi (mem_members.mpr ⟨k, hk, hq⟩) hcon.symm
    · exact hV k hk hne q hq (Cell.word.inj hcon ▸ hr)
  · rintro (hcon | ⟨r, hr, hcon⟩)
    · unfold bucket at hcon
      by_cases hone : ChkHashSList.bucketSize st.list = 1
      · omega
      · rw [if_neg hone, if_neg hone] at hcon
        have hoff := congrArg ChkPtr.offset (Cell.word.inj hcon)
        simp only at hoff
        omega
    · exact hheads k hk r hr hcon

theorem Holds.relink (hst : st.Holds env hash chains) (hi : i < ChkHashSList.bucketSize st.list)
    (hstep : Step env (fun c => c = st.bucket i ∨ exists q, V q ∧ c = .word q) st st')
    (hV : forall k, k < ChkHashSList.bucketSize st.list -> k ≠ i -> forall q, q ∈ chains k -> ¬V q)
    (hheads : forall k, k < ChkHashSList.bucketSize st.list -> forall q, V q ->
      st.bucket k ≠ .word q)
    (hrun : Run st'.next (st'.next (st.bucket i)) l')
    (htag : ChkHashSList.bucketSize st.list = 1 -> st'.list.size = 0)
    (hl' : forall q, q ∈ l' -> (exists b, b ∈ st.session.live ∧ b.Has q ∧ b.ptr ≠ st.list) ∧
      hash q % ChkHashSList.bucketSize st.list = i)
    (hnodup : (st.members (Function.update chains i l')).Nodup) :
    Relinked env st hash V (Function.update chains i l') st' := by
  rcases relink_list hstep htag with ⟨hlist, hsize, hbucket⟩
  have hmem : st'.members (Function.update chains i l') =
      st.members (Function.update chains i l') := by
    unfold members
    rw [hsize]
  have hnot : forall b, b ∈ st.session.live -> b.ptr ≠ st.list -> b.ptr ≠ st'.list := by
    intro b hb hne heq
    rcases hlist with hsame | hzero
    · exact hne (heq.trans hsame)
    · have hbpos := hst.isOpen.size_pos hb
      rw [heq, hzero] at hbpos
      exact Nat.lt_irrefl 0 hbpos
  refine ⟨hstep.good, ⟨hstep.good.isOpen, hstep.good.list, ?_, ?_, ?_, ?_, hmem ▸ hnodup⟩,
    hstep.live, hlist, hsize, ?_⟩
  · rcases hlist with heq | hzero
    · unfold HasArray
      rw [heq, hstep.live]
      exact hst.array
    · exact Or.inl hzero
  · intro k hk
    rw [hsize] at hk
    rw [hbucket]
    by_cases hki : k = i
    · rw [hki, Function.update_self]
      exact hrun
    · rw [Function.update_of_ne hki]
      exact hst.run_other hi hstep hV hheads hk hki
  · intro p hp
    rw [hmem] at hp
    rcases mem_members.mp hp with ⟨k, hk, hp⟩
    rw [hstep.live]
    by_cases hki : k = i
    · rw [hki, Function.update_self] at hp
      rcases (hl' p hp).1 with ⟨b, hb, hhas, hne⟩
      exact ⟨b, hb, hhas, hnot b hb hne⟩
    · rw [Function.update_of_ne hki] at hp
      rcases hst.spot p (mem_members.mpr ⟨k, hk, hp⟩) with ⟨b, hb, hhas, hne⟩
      exact ⟨b, hb, hhas, hnot b hb hne⟩
  · intro k hk p hp
    rw [hsize] at hk ⊢
    by_cases hki : k = i
    · rw [hki, Function.update_self] at hp
      rw [hki]
      exact (hl' p hp).2
    · rw [Function.update_of_ne hki] at hp
      exact hst.hashed k hk p hp
  · intro live hsub b hb j hj hj' hout
    rcases hsub b hb with ⟨hbl, hne⟩
    refine hstep.keeps b hbl j hj hj' ?_
    rintro q (hcon | ⟨r, hr, hcon⟩) hword
    · by_cases hone : ChkHashSList.bucketSize st.list = 1
      · unfold bucket at hcon
        rw [if_pos hone] at hcon
        cases hcon
      · rcases hst.array.bucket_has hone hi with ⟨a, q', ha, hptr, heq, hhas⟩
        rw [← Cell.word.inj (hcon.trans heq)] at hhas
        exact hne ((hst.isOpen.block_of_word ha hbl hhas hword hj hj').symm.trans hptr)
    · rw [Cell.word.inj hcon] at hword
      exact hout r hr hword

theorem Holds.insert_ok (hst : st.Holds env hash chains) (h : st.Good env)
    (hp : exists b, b ∈ st.session.live ∧ b.Has p ∧ b.ptr ≠ st.list)
    (hnew : p ∉ st.members chains) :
    exists st' chains', ChkHashSList.insert (st.session.world.index.place p) (hash p) st =
        .ok ((), st') ∧
      Relinked env st hash (fun q => q = p) chains' st' ∧
      (st'.members chains').Perm (p :: st.members chains) := by
  have hi := slot_lt st (hash p)
  have hin := bucket_in hst.array hi
  have hspot : Spot st.session.live p := by
    rcases hp with ⟨b, hb, hhas, -⟩
    exact ⟨b, hb, hhas⟩
  rcases h.push_ok hspot hin (hst.bucket_apart hi hp) with ⟨st', hpush, hstep, hhead, hnode⟩
  have hperm := flatMap_update_perm chains List.nodup_range (List.mem_range.mpr hi) p
  have hrun : Run st'.next (st'.next (st.bucket (hash p % ChkHashSList.bucketSize st.list)))
      (p :: chains (hash p % ChkHashSList.bucketSize st.list)) := by
    rw [hhead]
    refine ⟨rfl, ?_⟩
    rw [hnode]
    refine hstep.run (hst.runs _ hi) fun q hq => ?_
    have hmem : q ∈ st.members chains := mem_members.mpr ⟨_, hi, hq⟩
    refine ⟨hst.node hmem, ?_⟩
    rintro (hcon | hcon)
    · exact hst.bucket_ne hi hmem hcon.symm
    · exact hnew (Cell.word.inj hcon ▸ hmem)
  have hrel := hst.relink (V := fun q => q = p) hi (hstep.mono (by
      rintro c (hc | hc)
      · exact Or.inl hc
      · exact Or.inr ⟨p, rfl, hc⟩))
    (fun k hk _ q hq heq => hnew (heq ▸ mem_members.mpr ⟨k, hk, hq⟩))
    (fun k hk q hq => hq ▸ hst.bucket_apart hk hp) hrun
    (fun hone => by
      have hlist : st.bucket (hash p % ChkHashSList.bucketSize st.list) = .list := if_pos hone
      rw [hlist] at hhead
      have hsame : st'.list = p := hhead
      rcases hp with ⟨b, -, hhas, -⟩
      rw [hsame]
      exact hhas.1)
    (fun q hq => by
      rcases List.mem_cons.mp hq with rfl | hq
      · exact ⟨hp, rfl⟩
      · exact ⟨hst.spot q (mem_members.mpr ⟨_, hi, hq⟩), hst.hashed _ hi q hq⟩)
    (hperm.nodup_iff.mpr (List.nodup_cons.mpr ⟨hnew, hst.nodup⟩))
  refine ⟨st', _, ?_, hrel, ?_⟩
  · unfold ChkHashSList.insert
    rw [Exec.bind_of_ok (h.getList_ok hst.array _)]
    exact hpush
  · unfold members
    rw [hrel.size]
    exact hperm

theorem erase_perm
    (hi : i < ChkHashSList.bucketSize st.list) (hp : p ∈ chains i) :
    (st.members (Function.update chains i ((chains i).erase p))).Perm
      ((st.members chains).erase p) := by
  have hcons := flatMap_update_perm (Function.update chains i ((chains i).erase p))
    List.nodup_range (List.mem_range.mpr hi) p
  rw [Function.update_self, Function.update_idem] at hcons
  have hsame : ((List.range (ChkHashSList.bucketSize st.list)).flatMap
      (Function.update chains i (p :: (chains i).erase p))).Perm (st.members chains) := by
    refine List.Perm.flatMap_left _ fun k _ => ?_
    by_cases hk : k = i
    · rw [hk, Function.update_self]
      exact (List.perm_cons_erase hp).symm
    · rw [Function.update_of_ne hk]
  have hmem : p ∈ st.members chains := mem_members.mpr ⟨i, hi, hp⟩
  exact ((hcons.symm.trans hsame).trans (List.perm_cons_erase hmem)).cons_inv

/-- `erase`.  When the only node of a single list goes, what its link holds becomes the
head of the list. -/
theorem Holds.erase_ok (hst : st.Holds env hash chains) (h : st.Good env)
    (hp : exists b, b ∈ st.session.live ∧ b.Has p ∧ b.ptr ≠ st.list)
    (hn : (st.members chains).length < fuel) :
    (p ∉ st.members chains -> ChkHashSList.erase (st.session.world.index.place p) (hash p) fuel st =
      .ok (-1, st)) ∧
    (p ∈ st.members chains -> exists st',
      ChkHashSList.erase (st.session.world.index.place p) (hash p) fuel st = .ok (0, st') ∧
      ((st.list = p -> (st.next (.word p)).IsNull -> (st.next (.word p)).size = 0) ->
        exists chains', Relinked env st hash (fun q => q ∈ st.members chains) chains' st' ∧
          (st'.members chains').Perm ((st.members chains).erase p))) := by
  have hi := slot_lt st (hash p)
  have hin := bucket_in hst.array hi
  have hsub := Holds.chain_sublist chains hi
  have hspot : Spot st.session.live p := by
    rcases hp with ⟨b, hb, hhas, -⟩
    exact ⟨b, hb, hhas⟩
  have hwalk := h.eraseFrom_ok (hst.runs _ hi) (hsub.nodup hst.nodup)
    (fun q hq => hst.node (hsub.mem hq)) hin (fun q hq => hst.bucket_ne hi (hsub.mem hq)) rfl
    hspot (Nat.lt_of_le_of_lt hsub.length_le hn)
  have hcode : forall {r st'}, SlistPtr.eraseFrom (st.session.world.index.place p).addr fuel
      ((st.bucket (hash p % ChkHashSList.bucketSize st.list)).ptr st.session.world.index)
      (st.next (st.bucket (hash p % ChkHashSList.bucketSize st.list))) st = .ok (r, st') ->
      ChkHashSList.erase (st.session.world.index.place p) (hash p) fuel st = .ok (r, st') := by
    intro r st' hrun
    unfold ChkHashSList.erase SlistPtr.erase
    rw [Exec.bind_of_ok (h.getList_ok hst.array _), Exec.bind_of_ok (h.next_ok hin)]
    exact hrun
  refine ⟨fun hnot => hcode (hwalk.1 fun hmem => hnot (hsub.mem hmem)), fun hmem => ?_⟩
  have hchain := (hst.mem_iff p).mp hmem
  rcases hwalk.2 hchain with ⟨st', herase, hout⟩
  refine ⟨st', hcode herase, fun htag => ?_⟩
  have hperm := erase_perm hi hchain
  have hrel := hst.relink (V := fun q => q ∈ chains (hash p % ChkHashSList.bucketSize st.list)) hi
    hout.step (fun k hk hne q hq hq' => hne (hst.chain_unique hk hi hq hq'))
    (fun k hk q hq => hst.bucket_ne hk (hsub.mem hq)) hout.run ?_
    (fun q hq => ⟨hst.spot q (hsub.mem (List.mem_of_mem_erase hq)),
      hst.hashed _ hi q (List.mem_of_mem_erase hq)⟩)
    (hperm.nodup_iff.mpr (hst.nodup.erase p))
  · refine ⟨_, ⟨hrel.good, hrel.holds, hrel.live, hrel.list, hrel.size, ?_⟩, ?_⟩
    · intro live hlive
      exact (hrel.keeps live hlive).mono fun q hq => hsub.mem hq
    · unfold members
      rw [hrel.size]
      exact hperm
  · intro hone
    have hlist : st.bucket (hash p % ChkHashSList.bucketSize st.list) = .list := if_pos hone
    have hzero := size_of_one hone
    have hrun := hst.runs _ hi
    have hfirst := hout.first
    rw [hlist] at hrun hfirst
    rcases hfirst with hsame | ⟨hv, hnext⟩
    · have heq : st'.list = st.list := hsame
      rw [heq]
      exact hzero
    · have heq : st'.list = st.next (.word p) := hnext
      rw [heq]
      cases hl : chains (hash p % ChkHashSList.bucketSize st.list) with
      | nil =>
          rw [hl] at hchain
          cases hchain
      | cons q l =>
          rw [hl] at hrun
          have hqp : q = p := hrun.1.symm.trans hv
          subst hqp
          cases l with
          | nil => exact htag hv hrun.2
          | cons r l =>
              have hr : r ∈ st.members chains := by
                refine hsub.mem ?_
                rw [hl]
                exact List.mem_cons_of_mem _ List.mem_cons_self
              rcases hst.node hr with ⟨_, -, hsize, -⟩
              rw [hrun.2.1]
              exact hsize

end Chain

end HashState

end ChunkMem
