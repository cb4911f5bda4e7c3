import ChunkMem.Properties.Dictionary

/-!
# The life of a hash list

Every table of list heads that `resize_buckets` obtained is given back: the last one by
`uninit`, the others when they were replaced.
-/

namespace ChunkMem

open Foundation

/-- `init` is not called on a hash list with a table. -/
def HashCall.Tidy (st : HashState) : HashCall -> Prop
  | .init => st.list.size = 0
  | _ => True

theorem HashReach.mono {env : Env} {s : Session} {U : ChkPtr -> Prop} {o : Nat}
    {hashFunc : Ptr -> M Nat} {hash : ChkPtr -> Nat} {ok ok' : HashState -> HashCall -> Prop}
    (hmono : forall st call, ok st call -> ok' st call) {st : HashState} {d : List ChkPtr}
    {one : Bool} (h : HashReach env s U o hashFunc hash ok st d one) :
    HashReach env s U o hashFunc hash ok' st d one := by
  induction h with
  | start hlist hsingle hrun => exact .start hlist hsingle hrun
  | step _ hcall hok hfuel hrun ih => exact ih.step hcall (hmono _ _ hok) hfuel hrun

theorem ChkHashSList.bucketSize_one {list : ChkPtr} :
    ChkHashSList.bucketSize list = 1 <-> list.size = 0 := by
  unfold ChkHashSList.bucketSize chkSize
  split
  · exact ⟨fun _ => ‹_›, fun _ => rfl⟩
  · omega

/-- Besides the blocks of the beginning there is only the table. -/
def HashState.Owns (s : Session) (st : HashState) : Prop :=
  forall b, b ∈ st.session.live -> b ∈ s.live ∨ (0 < st.list.size ∧ b.ptr = st.list)

namespace HashInv

variable {env : Env} {s : Session} {U V : ChkPtr -> Prop} {hash : ChkPtr -> Nat}
variable {st st' : HashState} {d : List ChkPtr} {one : Bool} {o fuel : Nat} {r : Int}
variable {chains' : Nat -> List ChkPtr} {p : ChkPtr}

theorem relinked_owns (howns : st.Owns s)
    (hrel : HashState.Relinked env st hash V chains' st') : st'.Owns s := by
  intro b hb
  rw [hrel.live] at hb
  rcases howns b hb with hmem | ⟨hpos, hptr⟩
  · exact Or.inl hmem
  · have hsize : st'.list.size ≠ 0 := by
      rw [ne_eq, ← ChkHashSList.bucketSize_one, hrel.size, ChkHashSList.bucketSize_one]
      exact Nat.ne_of_gt hpos
    rcases hrel.list with hsame | hzero
    · exact Or.inr ⟨Nat.pos_of_ne_zero hsize, hptr.trans hsame.symm⟩
    · exact absurd hzero hsize

/-- `resize_buckets` gives the old table back, if it obtains a new one. -/
theorem resize_owns (h : HashInv env s U hash st d one) (howns : st.Owns s)
    {hashFunc : Ptr -> M Nat} (hhash : HashState.ReadsAs env s U o hashFunc hash) {newSize : Nat}
    {junk : ChkPtr} (hpos : 0 < newSize) (hmax : newSize ≤ ChkHashSList.maxBuckets)
    (hjunk : junk.Fits) (hfuel : d.length < fuel)
    (hrun : ChkHashSList.resizeBuckets env newSize hashFunc o fuel junk st = .ok (r, st')) :
    st'.Owns s := by
  rcases h.holds with ⟨chains, hst, hperm⟩
  have hmem : forall q, q ∈ st.members chains -> U q :=
    fun q hq => h.nodes q (hperm.mem_iff.mp hq)
  have hlen : forall i, i < ChkHashSList.bucketSize st.list -> (chains i).length < fuel := by
    intro i hi
    have hle := (HashState.Holds.chain_sublist chains hi).length_le
    rw [hperm.length_eq] at hle
    exact Nat.lt_of_le_of_lt hle hfuel
  by_cases heq : ChkHashSList.bucketSize st.list = newSize
  · unfold ChkHashSList.resizeBuckets at hrun
    rw [Exec.bind_of_ok (Exec.state_apply st)] at hrun
    simp only [if_pos heq] at hrun
    cases hrun
    exact howns
  · have hmax' : 4 * newSize ≤ chkMaxContinusLen :=
      Nat.le_trans (Nat.mul_le_mul_left 4 hmax) (Nat.mul_div_le _ _)
    rcases (hst.resize_ensures (h.reads hhash hmem) hlen hjunk hpos hmax' heq).of_ok hrun with
      ⟨-, chains', hres⟩ | ⟨-, href⟩
    · intro b hb
      rcases (hres.live b).mp hb with ⟨hold, hne⟩ | ⟨hlt, rfl⟩
      · rcases howns b hold with hbegin | ⟨-, hptr⟩
        · exact Or.inl hbegin
        · exact absurd hptr hne
      · refine Or.inr ⟨Nat.pos_of_ne_zero ?_, rfl⟩
        rw [ne_eq, ← ChkHashSList.bucketSize_one, hres.one]
        exact Nat.ne_of_gt hlt
    · intro b hb
      rw [href.live] at hb
      rw [href.list]
      exact howns b hb

theorem step_owns (h : HashInv env s U hash st d one) (hU : forall p, U p -> Spot s.live p)
    (howns : st.Owns s) {hashFunc : Ptr -> M Nat}
    (hhash : HashState.ReadsAs env s U o hashFunc hash) {call : HashCall}
    (hcall : call.Allowed U d) (hclean : call.Clean st) (htidy : call.Tidy st)
    (hfuel : d.length < fuel)
    (hrun : call.perform env o hashFunc hash fuel st = .ok (r, st')) : st'.Owns s := by
  rcases h.holds with ⟨chains, hst, hperm⟩
  cases call with
  | init =>
      simp only [HashCall.perform] at hrun
      rcases Exec.ok_of_bind hrun with ⟨u, st₁, hinit, hdone⟩
      cases hinit
      cases hdone
      intro b hb
      rcases howns b hb with hbegin | ⟨hpos, -⟩
      · exact Or.inl hbegin
      · exact absurd htidy (Nat.ne_of_gt hpos)
  | insert p =>
      rcases hcall with ⟨hp, hnew⟩
      rcases hst.insert_ok h.good (h.place hU hp) (fun hmem => hnew (hperm.mem_iff.mp hmem)) with
        ⟨st₁, chains', hinsert, hrel, -⟩
      simp only [HashCall.perform] at hrun
      rw [Exec.bind_of_ok (Exec.state_apply st), Exec.bind_of_ok hinsert] at hrun
      cases hrun
      exact relinked_owns howns hrel
  | erase p =>
      rw [← hperm.length_eq] at hfuel
      have herase := hst.erase_ok h.good (h.place hU hcall) hfuel
      simp only [HashCall.perform] at hrun
      rw [Exec.bind_of_ok (Exec.state_apply st)] at hrun
      by_cases hmem : p ∈ st.members chains
      · rcases herase.2 hmem with ⟨st₁, hrun₁, hkept⟩
        rw [hrun₁] at hrun
        cases hrun
        rcases hkept hclean with ⟨chains', hrel, -⟩
        exact relinked_owns howns hrel
      · rw [herase.1 hmem] at hrun
        cases hrun
        exact howns
  | resize newSize junk =>
      rcases hcall with ⟨hpos, hmax, hjunk⟩
      exact h.resize_owns howns hhash hpos hmax hjunk hfuel hrun

end HashInv

theorem HashInv.uninit_ok {env : Env} {s : Session} {U : ChkPtr -> Prop} {hash : ChkPtr -> Nat}
    {st : HashState} {d : List ChkPtr} {one : Bool} (h : HashInv env s U hash st d one)
    (howns : st.Owns s) (hcls : env.ClassesNonzero) :
    exists st', ChkHashSList.uninit env st = .ok ((), st') ∧ Open env st'.session ∧
      (forall b, b ∈ st'.session.live <-> b ∈ s.live) ∧
      World.KeepsBut s.world st'.session.world s.live U := by
  rcases h.holds with ⟨chains, hst, -⟩
  have hopen := h.good.isOpen
  unfold ChkHashSList.uninit
  rw [Exec.bind_of_ok (Exec.state_apply st)]
  rcases hst.array with hzero | ⟨b, hb, hptr⟩
  · rw [if_neg (by omega)]
    refine ⟨st, rfl, hopen, fun b => ⟨fun hb => ?_, fun hb => (h.sub b hb).1⟩, h.keeps⟩
    rcases howns b hb with hbegin | ⟨hpos, -⟩
    · exact hbegin
    · omega
  · have hpos := hopen.size_pos hb
    rw [hptr] at hpos
    rw [if_pos hpos, ← hptr]
    have hnone : forall e, ¬Content.PoolFault env.freeSize e := fun e he => he.2 hcls
    rcases (HashProg.run_ensures (hopen.free_ensures hb)).exists_ok hnone with
      ⟨u, st', hrun, hpost, -, -⟩
    refine ⟨st', hrun, hpost.isOpen, fun b' => ?_, ?_⟩
    · rw [hpost.mem_iff hopen hb, hptr]
      constructor
      · rintro ⟨hb', hne⟩
        rcases howns b' hb' with hbegin | ⟨-, heq⟩
        · exact hbegin
        · exact absurd heq hne
      · exact h.sub b'
    · refine h.keeps.trans fun l hl j hj hj' _ => ?_
      have hl' := (hpost.mem_iff hopen hb).mpr ⟨(h.sub l hl).1, hptr.symm ▸ (h.sub l hl).2⟩
      exact World.KeepsBut.of_keepsBlock (V := fun _ => False) hpost.kept l hl' j hj hj' nofun

/-- In every state of a run of clean calls in which `init` is not called on a hash list with a
table, the blocks in use are those of the beginning and, if there is more than one list, the
table, so each `resize_buckets` gave the table before it back; `uninit` returns and leaves
exactly the blocks of the beginning, unchanged but for the links of the nodes. -/
theorem HashReach.returns_tables {env : Env} {s : Session} (hs : Reach env CarefulCall s)
    (hflag : s.world.index.compressed = false) (hcls : env.ClassesNonzero) {U : ChkPtr -> Prop}
    (hU : forall p, U p -> Spot s.live p) {o : Nat} {hashFunc : Ptr -> M Nat}
    {hash : ChkPtr -> Nat} (hhash : HashState.ReadsAs env s U o hashFunc hash) {st : HashState}
    {d : List ChkPtr} {one : Bool} (h : HashReach env s U o hashFunc hash
      (fun st call => call.Clean st ∧ call.Tidy st) st d one) :
    (forall b, b ∈ st.session.live <->
      b ∈ s.live ∨ one = false ∧ b ∈ st.session.live ∧ b.ptr = st.list) ∧
    exists st', ChkHashSList.uninit env st = .ok ((), st') ∧ Open env st'.session ∧
      (forall b, b ∈ st'.session.live <-> b ∈ s.live) ∧
      World.KeepsBut s.world st'.session.world s.live U := by
  have hopen := hs.isOpen hflag
  have hinv := (h.mono fun _ _ hok => hok.1).inv hopen hU hhash
  have howns : st.Owns s := by
    induction h with
    | start hlist hsingle hrun =>
        cases hrun
        exact fun b hb => Or.inl hb
    | step hbefore hcall hok hfuel hrun ih =>
        have hinv' := (hbefore.mono fun _ _ hok => hok.1).inv hopen hU hhash
        exact hinv'.step_owns hU (ih hinv') hhash hcall hok.1 hok.2 hfuel hrun
  refine ⟨fun b => ⟨fun hb => ?_, ?_⟩, hinv.uninit_ok howns hcls⟩
  · rcases howns b hb with hbegin | ⟨hpos, hptr⟩
    · exact Or.inl hbegin
    · refine Or.inr ⟨?_, hb, hptr⟩
      rw [Bool.eq_false_iff, ne_eq, ← hinv.form, ChkHashSList.bucketSize_one]
      exact Nat.ne_of_gt hpos
  · rintro (hbegin | ⟨-, hb, -⟩)
    · exact (hinv.sub b hbegin).1
    · exact hb

instance (st : HashState) (call : HashCall) : Decidable (call.Tidy st) :=
  match call with
  | .init => inferInstanceAs (Decidable (_ = _))
  | .insert _ | .erase _ | .resize _ _ => inferInstanceAs (Decidable True)

/-- Nodes come and go, tables of two and of four lists are made one after the other, and
`uninit` leaves the blocks that were there before. -/
theorem HashReach.returns_tables_sample : exists st d one st',
    HashReach Env.plain oneNode (fun p => p ∈ threeNodes) 0 (fun _ => pure 5) (fun _ => 5)
      (fun st call => call.Clean st ∧ call.Tidy st) st d one ∧
    (d.length, ChkHashSList.bucketSize st.list) = (2, 4) ∧
    ChkHashSList.uninit Env.plain st = .ok ((), st') ∧
    forall b, b ∈ st'.session.live <-> b ∈ oneNode.live := by
  have hflag : oneNode.world.index.compressed = false := by decide +kernel
  rcases HashReach.of_calls (f := fun x => (x.2.1.length, ChkHashSList.bucketSize x.1.list))
    (show (HashCall.performAll Env.plain (fun p => p ∈ threeNodes) 0 (fun _ => pure 5)
      (fun _ => 5) (fun st call => call.Clean st ∧ call.Tidy st) 4
      [.insert theNode, .resize 2 chkNull, .insert ⟨0, 11, 0⟩, .resize 1 chkNull,
        .erase theNode, .resize 4 chkNull, .insert ⟨0, 13, 0⟩]
      (⟨oneNode, { chkNull.nulled with size := 0 }, chkNull⟩, [], true)).map _ =
        some (2, 4) by decide +kernel) with ⟨st, d, one, hst, hsize⟩
  rcases (HashReach.returns_tables oneNode_reach hflag Env.plain_classesNonzero
    threeNodes_spot (fun _ _ _ _ _ _ => rfl) hst).2 with ⟨st', huninit, -, hlive, -⟩
  exact ⟨st, d, one, st', hst, hsize, huninit, hlive⟩

end ChunkMem
