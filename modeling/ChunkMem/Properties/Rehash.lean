import ChunkMem.Properties.Strings
import ChunkMem.Structures.Dictionary

/-!
# Resizing a hash list loses no node

`resize_buckets` links the same nodes into lists by their hashes modulo the new
`bucket_size()`, gives back the old heads and no other block, or refuses and changes
nothing.  A size the hash list already has is no change: its heads stay where they are.
-/

namespace ChunkMem

open Foundation

/-- The result of `resize_buckets` for every size, and that it returns. -/
theorem ChkHashSList.resize_keeps_nodes {env : Env} {st : HashState} {hash : ChkPtr -> Nat}
    {chains : Nat -> List ChkPtr} (hst : st.Holds env hash chains) {o : Nat}
    {hashFunc : Ptr -> M Nat}
    (hhash : HashState.ReadsAs env st.session (fun p => p ∈ st.members chains) o hashFunc hash)
    {newSize fuel : Nat} (hpos : 0 < newSize) (hmax : newSize ≤ maxBuckets)
    {junk : ChkPtr} (hjunk : junk.Fits)
    (hfuel : forall i, i < bucketSize st.list -> (chains i).length < fuel) :
    (bucketSize st.list = newSize ->
      resizeBuckets env newSize hashFunc o fuel junk st = .ok (0, st)) ∧
    (bucketSize st.list ≠ newSize -> forall r st',
      resizeBuckets env newSize hashFunc o fuel junk st = .ok (r, st') ->
      (r = 0 ∧ exists chains', HashState.Resized env st hash chains newSize chains' st') ∨
        (r = -1 ∧ HashState.Refused env st st' ∧ st'.Holds env hash chains)) ∧
    (env.AllOk -> env.ClassesNonzero ->
      exists r st', resizeBuckets env newSize hashFunc o fuel junk st = .ok (r, st')) := by
  have hsame : bucketSize st.list = newSize ->
      resizeBuckets env newSize hashFunc o fuel junk st = .ok (0, st) := by
    intro heq
    unfold resizeBuckets
    rw [Exec.bind_of_ok (Exec.state_apply st)]
    simp only [if_pos heq]
    rfl
  have hother : bucketSize st.list ≠ newSize -> Exec.Ensures
      (resizeBuckets env newSize hashFunc o fuel junk st)
      (HashState.ResizeOutcome env st hash chains newSize) (Expected env) := by
    intro hne
    have hmax' : 4 * newSize ≤ chkMaxContinusLen := by
      have hle := Nat.mul_le_mul_left 4 hmax
      exact Nat.le_trans hle (Nat.mul_div_le _ _)
    exact hst.resize_ensures hhash hfuel hjunk hpos hmax' hne
  refine ⟨hsame, fun hne r st' hrun => ?_, fun hok hcls => ?_⟩
  · rcases (hother hne).of_ok hrun with hresized | ⟨hr, hrefused⟩
    · exact Or.inl hresized
    · exact Or.inr ⟨hr, hrefused, hrefused.holds hst⟩
  · by_cases heq : bucketSize st.list = newSize
    · exact ⟨0, st, hsame heq⟩
    · rcases (hother heq).exists_ok (not_expected hok hcls) with ⟨r, st', hrun, -⟩
      exact ⟨r, st', hrun⟩

theorem HashState.Holds.one {env : Env} {s : Session} {l : Live} {p junk : ChkPtr}
    (hopen : Open env s) (hl : l ∈ s.live) (hp : l.Has p) (hnull : (s.world.word p).IsNull)
    (k : Nat) : HashState.Holds env ⟨s, p, junk⟩ (fun _ => k) (fun _ => [p]) := by
  have hone : ChkHashSList.bucketSize p = 1 := if_pos hp.1
  have hmem : HashState.members ⟨s, p, junk⟩ (fun _ => [p]) = [p] := by
    unfold HashState.members
    simp only
    rw [hone]
    rfl
  refine ⟨hopen, hopen.spot_fits ⟨l, hl, hp⟩, Or.inl hp.1, fun i _ => ?_, fun q hq => ?_,
    fun i hi q _ => ?_, ?_⟩
  · have hbucket : HashState.bucket ⟨s, p, junk⟩ i = .list := if_pos hone
    rw [hbucket]
    exact ⟨rfl, hnull⟩
  · rw [hmem] at hq
    rw [List.mem_singleton.mp hq]
    refine ⟨l, hl, hp, fun heq => ?_⟩
    have hlpos := hopen.size_pos hl
    rw [heq, hp.1] at hlpos
    exact Nat.lt_irrefl 0 hlpos
  · simp only at hi ⊢
    rw [hone] at hi ⊢
    rw [Nat.mod_one]
    omega
  · rw [hmem]
    exact List.nodup_singleton p

theorem chkNull_fits : chkNull.Fits := ⟨by decide, by decide, by decide⟩

def oneNode : Session := Call.after Env.plain [.alloc 24, .write ⟨0, 10, 3⟩ 0 [255, 7, 0, 0]]
  ⟨World.boot, []⟩

theorem oneNode_reach : Reach Env.plain CarefulCall oneNode := by
  unfold oneNode
  exact .after (.start World.boot_fresh) (by decide +kernel)

def oneNodeList :
    { st : HashState // st.Holds Env.plain (fun _ => 5) fun _ => [⟨0, 10, 0⟩] } where
  val := ⟨oneNode, ⟨0, 10, 0⟩, chkNull⟩
  property := by
    have hlive : (⟨⟨0, 10, 3⟩, 24⟩ : Live) ∈ oneNode.live := by decide +kernel
    have hhas : Live.Has ⟨⟨0, 10, 3⟩, 24⟩ ⟨0, 10, 0⟩ := ⟨rfl, rfl, by decide, by decide⟩
    have hnull : (oneNode.world.word ⟨0, 10, 0⟩).IsNull := by decide +kernel
    exact .one (oneNode_reach.isOpen (by decide +kernel)) hlive hhas hnull 5

/-- Two lists take the node, and then four, and the block of the two is given back. -/
theorem ChkHashSList.resize_keeps_nodes_sample : exists st chains st' chains',
    resizeBuckets Env.plain 2 (fun _ => pure 5) 0 2 chkNull oneNodeList.1 = .ok (0, st) ∧
    HashState.Resized Env.plain oneNodeList.1 (fun _ => 5) (fun _ => [⟨0, 10, 0⟩]) 2 chains st ∧
    resizeBuckets Env.plain 4 (fun _ => pure 5) 0 2 chkNull st = .ok (0, st') ∧
    HashState.Resized Env.plain st (fun _ => 5) chains 4 chains' st' ∧
    (exists l, l ∈ st.session.live ∧ l.ptr = st.list) ∧
    forall l, l ∈ st'.session.live -> l.ptr ≠ st.list := by
  have hcode : ((do
      let r₁ <- resizeBuckets Env.plain 2 (fun _ => pure 5) 0 2 chkNull
      let st <- Exec.state
      let r₂ <- resizeBuckets Env.plain 4 (fun _ => pure 5) 0 2 chkNull
      pure (r₁, bucketSize st.list, r₂) : HashProg (Int × Nat × Int))
        oneNodeList.1).toOption.map Prod.fst = some (0, 2, 0) := by
    decide +kernel
  have hholds := oneNodeList.2
  have hform : bucketSize oneNodeList.1.list = 1 := by decide +kernel
  generalize oneNodeList.1 = st₀ at hcode hholds hform ⊢
  generalize hprog : ((do
      let r₁ <- resizeBuckets Env.plain 2 (fun _ => pure 5) 0 2 chkNull
      let st <- Exec.state
      let r₂ <- resizeBuckets Env.plain 4 (fun _ => pure 5) 0 2 chkNull
      pure (r₁, bucketSize st.list, r₂) : HashProg (Int × Nat × Int)) st₀) = x at hcode
  cases x with
  | error e => cases hcode
  | ok out =>
      rcases out with ⟨out, st'⟩
      cases Option.some.inj hcode
      rcases Exec.ok_of_bind hprog with ⟨r₁, st, hrun₁, hrest⟩
      rcases Exec.ok_of_bind hrest with ⟨_, _, hstate, hrest⟩
      cases hstate
      rcases Exec.ok_of_bind hrest with ⟨r₂, st₂, hrun₂, hlast⟩
      have hout := Except.ok.inj hlast
      simp only [Prod.mk.injEq] at hout
      rcases hout with ⟨⟨rfl, hsize, rfl⟩, rfl⟩
      have hzero : (0 : Int) ≠ -1 := by decide
      rcases (resize_keeps_nodes hholds (fun _ _ _ _ _ _ => rfl) (by decide)
        (by decide) chkNull_fits (fun _ _ => by decide)).2.1 (by rw [hform]; decide) _ _ hrun₁ with
        ⟨-, chains, hresized⟩ | ⟨hcon, -⟩
      · have hlen : forall i, i < bucketSize st.list -> (chains i).length < 2 := by
          intro i hi
          have hle := (HashState.Holds.chain_sublist chains hi).length_le
          have hnodes := hresized.nodes.length_eq
          have hsingle : (HashState.members st₀ fun _ => [⟨0, 10, 0⟩]).length = 1 := by
            unfold HashState.members
            rw [hform]
            rfl
          omega
        rcases (resize_keeps_nodes hresized.holds (fun _ _ _ _ _ _ => rfl) (by decide)
          (by decide) chkNull_fits hlen).2.1 (by rw [hsize]; decide) _ _ hrun₂ with
          ⟨-, chains', hresized'⟩ | ⟨hcon, -⟩
        · have harray : exists l, l ∈ st.session.live ∧ l.ptr = st.list :=
            hresized.holds.array.resolve_left fun hcon =>
              absurd (hsize.symm.trans (if_pos hcon)) (by decide)
          refine ⟨st, chains, _, chains', hrun₁, hresized, hrun₂, hresized', harray,
            fun l hl => ?_⟩
          rcases (hresized'.live l).mp hl with ⟨-, hne⟩ | ⟨-, rfl⟩
          · exact hne
          · rcases harray with ⟨b, hb, hptr⟩
            exact fun heq => hresized'.fresh b hb (hptr.trans heq.symm)
        · exact absurd hcon hzero
      · exact absurd hcon hzero

/-- A hash list of two lists is to have two lists: the result is zero, and the block of
its heads has not been given back. -/
theorem ChkHashSList.resize_same_keeps_array :
    exists st chains st', st.Holds Env.plain (fun _ => 5) chains ∧ bucketSize st.list = 2 ∧
      resizeBuckets Env.plain 2 (fun _ => pure 5) 0 2 chkNull st = .ok (0, st') ∧
      exists b, b ∈ st'.session.live ∧ b.ptr = st.list := by
  have hcode : (resizeBuckets Env.plain 2 (fun _ => pure 5) 0 2 chkNull oneNodeList.1).toOption.map
      (fun rst => (rst.1, bucketSize rst.2.list)) = some (0, 2) := by
    decide +kernel
  cases hrun : resizeBuckets Env.plain 2 (fun _ => pure 5) 0 2 chkNull oneNodeList.1 with
  | error e =>
      rw [hrun] at hcode
      cases hcode
  | ok rst =>
      rcases rst with ⟨r, st⟩
      rw [hrun] at hcode
      simp only [Except.toOption, Option.map_some, Option.some.injEq, Prod.mk.injEq] at hcode
      rcases hcode with ⟨rfl, hsize⟩
      have hout := (oneNodeList.2.resize_ensures (fun _ _ _ _ _ _ => rfl)
        (fun _ _ => by decide) chkNull_fits (by decide) (by decide) (by decide)).of_ok hrun
      rcases hout with ⟨-, chains', hresized⟩ | ⟨hcon, -⟩
      · refine ⟨st, chains', st, hresized.holds, hsize, ?_, ?_⟩
        · unfold resizeBuckets
          rw [Exec.bind_of_ok (Exec.state_apply st)]
          simp only [if_pos hsize]
          rfl
        · rcases hresized.holds.array with hzero | harray
          · exact absurd (hsize.symm.trans (if_pos hzero)) (by decide)
          · exact harray
      · cases hcon

end ChunkMem
