import ChunkMem.Properties.Rehash
import ChunkMem.Structures.Dictionary

/-!
# A hash list is a dictionary

A run on one hash list keeps the nodes that were inserted and not erased, in whatever
form the list is.  `resize_buckets` to one list leaves what the size bits of its
local list head held in the link of the last node; erasing this node when it is the only
one makes these bits those of the head, which tell the forms apart.
-/

namespace ChunkMem

open Foundation

inductive HashCall where
  | init
  | insert (p : ChkPtr)
  | erase (p : ChkPtr)
  /-- The bits of the local list head are `junk` at first. -/
  | resize (newSize : Nat) (junk : ChkPtr)

namespace HashCall

/-- The code of a call; `insert` and `erase` get the hash of the node. -/
def perform (env : Env) (o : Nat) (hashFunc : Ptr -> M Nat) (hash : ChkPtr -> Nat) (fuel : Nat) :
    HashCall -> HashProg Int
  | init => do
      ChkHashSList.init
      pure 0
  | insert p => do
      let st <- Exec.state
      ChkHashSList.insert (st.session.world.index.place p) (hash p)
      pure 0
  | erase p => do
      let st <- Exec.state
      ChkHashSList.erase (st.session.world.index.place p) (hash p) fuel
  | resize newSize junk => ChkHashSList.resizeBuckets env newSize hashFunc o fuel junk

/-- A node of `U` is inserted when it is not linked, and the sizes are those of the code. -/
def Allowed (U : ChkPtr -> Prop) (d : List ChkPtr) : HashCall -> Prop
  | init => True
  | insert p => U p ∧ p ∉ d
  | erase p => U p
  | resize newSize junk => 0 < newSize ∧ newSize ≤ ChkHashSList.maxBuckets ∧ junk.Fits

/-- The only node of a single list is not erased with a link that has size bits. -/
def Clean (st : HashState) : HashCall -> Prop
  | erase p => st.list = p -> (st.next (.word p)).IsNull -> (st.next (.word p)).size = 0
  | _ => True

def after (d : List ChkPtr) : HashCall -> List ChkPtr
  | init => []
  | insert p => p :: d
  | erase p => d.erase p
  | resize _ _ => d

def single (r : Int) (one : Bool) : HashCall -> Bool
  | init => true
  | resize newSize _ => if r = 0 then decide (newSize = 1) else one
  | _ => one

end HashCall

/-- The hash lists reached from the blocks of `s` by calls that meet `ok`, the nodes that were
inserted and not erased, and whether the last form made is a single list. -/
inductive HashReach (env : Env) (s : Session) (U : ChkPtr -> Prop) (o : Nat)
    (hashFunc : Ptr -> M Nat) (hash : ChkPtr -> Nat) (ok : HashState -> HashCall -> Prop) :
    HashState -> List ChkPtr -> Bool -> Prop
  | start {list single : ChkPtr} {st : HashState} (hlist : list.Fits) (hsingle : single.Fits)
      (hrun : ChkHashSList.init ⟨s, list, single⟩ = .ok ((), st)) :
      HashReach env s U o hashFunc hash ok st [] true
  | step {st st' : HashState} {d : List ChkPtr} {one : Bool} {call : HashCall} {fuel : Nat}
      {r : Int} (h : HashReach env s U o hashFunc hash ok st d one) (hcall : call.Allowed U d)
      (hok : ok st call) (hfuel : d.length < fuel)
      (hrun : call.perform env o hashFunc hash fuel st = .ok (r, st')) :
      HashReach env s U o hashFunc hash ok st' (call.after d) (call.single r one)

section Computed

instance (p : ChkPtr) : Decidable p.Fits := inferInstanceAs (Decidable (_ ∧ _))

instance (U : ChkPtr -> Prop) [DecidablePred U] (d : List ChkPtr) (call : HashCall) :
    Decidable (call.Allowed U d) :=
  match call with
  | .init => inferInstanceAs (Decidable True)
  | .insert p => inferInstanceAs (Decidable (U p ∧ p ∉ d))
  | .erase p => inferInstanceAs (Decidable (U p))
  | .resize newSize junk => inferInstanceAs (Decidable
      (0 < newSize ∧ newSize ≤ ChkHashSList.maxBuckets ∧ junk.Fits))

-- the fields are compared one by one: an equality of pointers would be checked unevaluated
theorem HashCall.clean_erase {st : HashState} {p : ChkPtr} :
    (st.list.chkNo = p.chkNo ∧ st.list.offset = p.offset ∧ st.list.size = p.size ->
      (st.next (.word p)).IsNull -> (st.next (.word p)).size = 0) <-> (erase p).Clean st := by
  rw [Clean, ChkPtr.mk.injEq]

instance (st : HashState) (call : HashCall) : Decidable (call.Clean st) :=
  match call with
  | .erase _ => decidable_of_iff _ HashCall.clean_erase
  | .init | .insert _ | .resize _ _ => inferInstanceAs (Decidable True)

variable {env : Env} {s : Session} {U : ChkPtr -> Prop} [DecidablePred U] {o fuel : Nat}
variable {hashFunc : Ptr -> M Nat} {hash : ChkPtr -> Nat} {ok : HashState -> HashCall -> Prop}
variable [forall st call, Decidable (ok st call)]

/-- Several calls, none where one of them fails or is not allowed. -/
def HashCall.performAll (env : Env) (U : ChkPtr -> Prop) [DecidablePred U] (o : Nat)
    (hashFunc : Ptr -> M Nat) (hash : ChkPtr -> Nat) (ok : HashState -> HashCall -> Prop)
    [forall st call, Decidable (ok st call)] (fuel : Nat) :
    List HashCall -> HashState × List ChkPtr × Bool -> Option (HashState × List ChkPtr × Bool)
  | [], x => some x
  | call :: rest, (st, d, one) =>
      if call.Allowed U d ∧ ok st call ∧ d.length < fuel then
        match call.perform env o hashFunc hash fuel st with
        | .ok (r, st') =>
            performAll env U o hashFunc hash ok fuel rest (st', call.after d, call.single r one)
        | .error _ => none
      else none

theorem HashReach.performAll {calls : List HashCall} {x y : HashState × List ChkPtr × Bool}
    (h : HashReach env s U o hashFunc hash ok x.1 x.2.1 x.2.2)
    (hrun : HashCall.performAll env U o hashFunc hash ok fuel calls x = some y) :
    HashReach env s U o hashFunc hash ok y.1 y.2.1 y.2.2 := by
  induction calls generalizing x with
  | nil =>
      cases hrun
      exact h
  | cons call rest ih =>
      rcases x with ⟨st, d, one⟩
      unfold HashCall.performAll at hrun
      split at hrun
      · next hmeet =>
          cases hcall : call.perform env o hashFunc hash fuel st with
          | error e =>
              rw [hcall] at hrun
              cases hrun
          | ok rst =>
              rw [hcall] at hrun
              exact ih (h.step hmeet.1 hmeet.2.1 hmeet.2.2 hcall) hrun
      · cases hrun

theorem HashReach.of_calls {calls : List HashCall} {α : Type}
    {f : HashState × List ChkPtr × Bool -> α} {v : α}
    (hcode : (HashCall.performAll env U o hashFunc hash ok fuel calls
      (⟨s, { chkNull.nulled with size := 0 }, chkNull⟩, [], true)).map f = some v) :
    exists st d one, HashReach env s U o hashFunc hash ok st d one ∧ f (st, d, one) = v := by
  cases hrun : HashCall.performAll env U o hashFunc hash ok fuel calls
      (⟨s, { chkNull.nulled with size := 0 }, chkNull⟩, [], true) with
  | none =>
      rw [hrun] at hcode
      cases hcode
  | some y =>
      rw [hrun] at hcode
      have hstart : HashReach env s U o hashFunc hash ok
          ⟨s, { chkNull.nulled with size := 0 }, chkNull⟩ [] true :=
        .start chkNull_fits chkNull_fits rfl
      exact ⟨y.1, y.2.1, y.2.2, hstart.performAll hrun, Option.some.inj hcode⟩

end Computed

structure HashInv (env : Env) (s : Session) (U : ChkPtr -> Prop) (hash : ChkPtr -> Nat)
    (st : HashState) (d : List ChkPtr) (one : Bool) : Prop where
  good : st.Good env
  holds : exists chains, st.Holds env hash chains ∧ (st.members chains).Perm d
  sub : forall l, l ∈ s.live -> l ∈ st.session.live ∧ l.ptr ≠ st.list
  keeps : World.KeepsBut s.world st.session.world s.live U
  nodes : forall p, p ∈ d -> U p
  form : ChkHashSList.bucketSize st.list = 1 <-> one = true

namespace HashInv

variable {env : Env} {s : Session} {U V : ChkPtr -> Prop} {hash : ChkPtr -> Nat}
variable {st st' : HashState} {d d' : List ChkPtr} {one : Bool} {o fuel : Nat} {r : Int}
variable {chains chains' : Nat -> List ChkPtr} {p : ChkPtr}

theorem place (h : HashInv env s U hash st d one) (hU : forall p, U p -> Spot s.live p)
    (hp : U p) : exists b, b ∈ st.session.live ∧ b.Has p ∧ b.ptr ≠ st.list := by
  rcases hU p hp with ⟨b, hb, hhas⟩
  exact ⟨b, (h.sub b hb).1, hhas, (h.sub b hb).2⟩

theorem reads {α : Type} {f : Ptr -> M α} {g : ChkPtr -> α}
    (h : HashInv env s U hash st d one) (hf : HashState.ReadsAs env s U o f g)
    (hV : forall q, V q -> U q) : HashState.ReadsAs env st.session V o f g := by
  intro s' hopen hsub hkeeps p hp
  refine hf s' hopen (fun l hl => hsub l (h.sub l hl).1) ?_ p (hV p hp)
  refine h.keeps.trans fun l hl j hj hj' hout => ?_
  exact hkeeps l (h.sub l hl).1 j hj hj' fun q hq => hout q (hV q hq)

theorem read_ok {α : Type} {f : Ptr -> M α} {g : ChkPtr -> α}
    (h : HashInv env s U hash st d one) (hf : HashState.ReadsAs env s U o f g) (hp : U p) :
    f (st.session.world.index.container o p) st.session.world = .ok (g p, st.session.world) :=
  hf st.session h.good.isOpen (fun l hl => (h.sub l hl).1) h.keeps p hp

theorem relinked (h : HashInv env s U hash st d one)
    (hrel : HashState.Relinked env st hash V chains' st') (hV : forall q, V q -> U q)
    (hperm : (st'.members chains').Perm d') (hnodes : forall p, p ∈ d' -> U p) :
    HashInv env s U hash st' d' one := by
  refine ⟨hrel.good, ⟨_, hrel.holds, hperm⟩, fun l hl => ?_, ?_, hnodes, ?_⟩
  · rcases h.sub l hl with ⟨hmem, hne⟩
    rw [hrel.live]
    refine ⟨hmem, fun heq => ?_⟩
    rcases hrel.list with hsame | hzero
    · exact hne (heq.trans hsame)
    · have hpos := h.good.isOpen.size_pos hmem
      rw [heq, hzero] at hpos
      exact Nat.lt_irrefl 0 hpos
  · exact h.keeps.trans ((hrel.keeps s.live h.sub).mono hV)
  · rw [hrel.size]
    exact h.form

theorem init_run (hash : ChkPtr -> Nat) (hgood : st.Good env)
    (hsub : forall l, l ∈ s.live -> l ∈ st.session.live)
    (hkeeps : World.KeepsBut s.world st.session.world s.live U) :
    exists st', ChkHashSList.init st = .ok ((), st') ∧ HashInv env s U hash st' [] true := by
  have hfits : ChkPtr.Fits { st.list.nulled with size := 0 } :=
    ⟨(HashState.nulled_fits hgood.list).1, hgood.list.2.1, Nat.two_pow_pos 9⟩
  refine ⟨{ st with list := { st.list.nulled with size := 0 } }, rfl,
    ⟨hgood.isOpen, hfits, hgood.single⟩, ⟨fun _ => [], ⟨hgood.isOpen, hfits, Or.inl rfl,
    fun i _ => ?_, fun p hp => ?_, fun i _ p hp => (nomatch hp), ?_⟩, List.Perm.refl _⟩,
    fun l hl => ⟨hsub l hl, fun heq => ?_⟩, hkeeps, fun p hp => (nomatch hp),
    ⟨fun _ => rfl, fun _ => rfl⟩⟩
  · exact ChkPtr.nulled_isNull st.list
  · rcases HashState.mem_members.mp hp with ⟨i, -, hp⟩
    cases hp
  · exact List.nodup_nil
  · have hpos := hgood.isOpen.size_pos (hsub l hl)
    rw [heq] at hpos
    exact Nat.lt_irrefl 0 hpos

theorem resize_run (h : HashInv env s U hash st d one) {hashFunc : Ptr -> M Nat}
    (hhash : HashState.ReadsAs env s U o hashFunc hash) {newSize : Nat} {junk : ChkPtr}
    (hpos : 0 < newSize) (hmax : newSize ≤ ChkHashSList.maxBuckets) (hjunk : junk.Fits)
    (hfuel : d.length < fuel)
    (hrun : ChkHashSList.resizeBuckets env newSize hashFunc o fuel junk st = .ok (r, st')) :
    HashInv env s U hash st' d (HashCall.single r one (.resize newSize junk)) := by
  rcases h.holds with ⟨chains, hst, hperm⟩
  have hmem : forall q, q ∈ st.members chains -> U q :=
    fun q hq => h.nodes q (hperm.mem_iff.mp hq)
  have hlen : forall i, i < ChkHashSList.bucketSize st.list -> (chains i).length < fuel := by
    intro i hi
    have hle := (HashState.Holds.chain_sublist chains hi).length_le
    rw [hperm.length_eq] at hle
    exact Nat.lt_of_le_of_lt hle hfuel
  by_cases heq : ChkHashSList.bucketSize st.list = newSize
  · unfold ChkHashSList.resizeBuckets at hrun
    rw [Exec.bind_of_ok (Exec.state_apply st)] at hrun
    simp only [if_pos heq] at hrun
    cases hrun
    have hone : decide (newSize = 1) = one := by
      rw [← heq, Bool.eq_iff_iff, decide_eq_true_iff]
      exact h.form
    simp only [HashCall.single, if_pos]
    rw [hone]
    exact h
  · have hmax' : 4 * newSize ≤ chkMaxContinusLen :=
      Nat.le_trans (Nat.mul_le_mul_left 4 hmax) (Nat.mul_div_le _ _)
    rcases (hst.resize_ensures (h.reads hhash hmem) hlen hjunk hpos hmax' heq).of_ok hrun with
      ⟨rfl, chains', hres⟩ | ⟨rfl, href⟩
    · refine ⟨hres.good, ⟨chains', hres.holds, hres.nodes.trans hperm⟩, fun l hl => ?_, ?_,
        h.nodes, ?_⟩
      · rcases h.sub l hl with ⟨hl', hne⟩
        exact ⟨(hres.live l).mpr (Or.inl ⟨hl', hne⟩), hres.fresh l hl'⟩
      · exact h.keeps.trans ((hres.keeps s.live h.sub).mono hmem)
      · simp only [HashCall.single, if_pos]
        rw [hres.one, decide_eq_true_iff]
    · refine ⟨href.good, ⟨chains, href.holds hst, ?_⟩, fun l hl => ?_, ?_, h.nodes, ?_⟩
      · unfold HashState.members
        rw [href.list]
        exact hperm
      · rw [href.live, href.list]
        exact h.sub l hl
      · refine h.keeps.trans fun l hl j hj hj' _ => ?_
        exact href.keeps l (h.sub l hl).1 j hj hj' fun _ hf => hf.elim
      · rw [href.list]
        exact h.form

theorem step_run (h : HashInv env s U hash st d one) (hU : forall p, U p -> Spot s.live p)
    {hashFunc : Ptr -> M Nat} (hhash : HashState.ReadsAs env s U o hashFunc hash)
    {call : HashCall} (hcall : call.Allowed U d) (hclean : call.Clean st)
    (hfuel : d.length < fuel)
    (hrun : call.perform env o hashFunc hash fuel st = .ok (r, st')) :
    HashInv env s U hash st' (call.after d) (call.single r one) := by
  rcases h.holds with ⟨chains, hst, hperm⟩
  cases call with
  | init =>
      rcases init_run hash h.good (fun l hl => (h.sub l hl).1) h.keeps with
        ⟨st₁, hinit, hinv⟩
      simp only [HashCall.perform] at hrun
      rw [Exec.bind_of_ok hinit] at hrun
      cases hrun
      exact hinv
  | insert p =>
      rcases hcall with ⟨hp, hnew⟩
      rcases hst.insert_ok h.good (h.place hU hp) (fun hmem => hnew (hperm.mem_iff.mp hmem)) with
        ⟨st₁, chains', hinsert, hrel, hperm'⟩
      simp only [HashCall.perform] at hrun
      rw [Exec.bind_of_ok (Exec.state_apply st), Exec.bind_of_ok hinsert] at hrun
      cases hrun
      refine h.relinked hrel (fun q hq => hq ▸ hp) (hperm'.trans (hperm.cons p)) ?_
      intro q hq
      rcases List.mem_cons.mp hq with rfl | hq
      · exact hp
      · exact h.nodes q hq
  | erase p =>
      rw [← hperm.length_eq] at hfuel
      have herase := hst.erase_ok h.good (h.place hU hcall) hfuel
      simp only [HashCall.perform] at hrun
      rw [Exec.bind_of_ok (Exec.state_apply st)] at hrun
      by_cases hmem : p ∈ st.members chains
      · rcases herase.2 hmem with ⟨st₁, hrun₁, hkept⟩
        rw [hrun₁] at hrun
        cases hrun
        rcases hkept hclean with ⟨chains', hrel, hperm'⟩
        exact h.relinked hrel (fun q hq => h.nodes q (hperm.mem_iff.mp hq))
          (hperm'.trans (hperm.erase p)) fun q hq => h.nodes q (List.mem_of_mem_erase hq)
      · rw [herase.1 hmem] at hrun
        cases hrun
        have hnot : p ∉ d := fun hd => hmem (hperm.mem_iff.mpr hd)
        simp only [HashCall.after, HashCall.single]
        rw [List.erase_of_not_mem hnot]
        exact h
  | resize newSize junk =>
      rcases hcall with ⟨hpos, hmax, hjunk⟩
      exact h.resize_run hhash hpos hmax hjunk hfuel hrun

end HashInv

theorem HashReach.inv {env : Env} {s : Session} (hopen : Open env s) {U : ChkPtr -> Prop}
    (hU : forall p, U p -> Spot s.live p) {o : Nat} {hashFunc : Ptr -> M Nat}
    {hash : ChkPtr -> Nat} (hhash : HashState.ReadsAs env s U o hashFunc hash) {st : HashState}
    {d : List ChkPtr} {one : Bool}
    (h : HashReach env s U o hashFunc hash (fun st call => call.Clean st) st d one) :
    HashInv env s U hash st d one := by
  induction h with
  | start hlist hsingle hrun =>
      have hgood : HashState.Good env ⟨s, _, _⟩ := ⟨hopen, hlist, hsingle⟩
      rcases HashInv.init_run hash hgood (fun _ hl => hl) (.refl s.world s.live U) with
        ⟨st₁, hinit, hinv⟩
      rw [hinit] at hrun
      cases hrun
      exact hinv
  | step _ hcall hok hfuel hrun ih => exact ih.step_run hU hhash hcall hok hfuel hrun

/-- In every state of a run whose calls are clean, `find` with the hash of the key
returns a pointer other than null exactly when a linked node has the key, then such a node
and a link to it, `erase` returns zero exactly for linked nodes, and
`bucket_size()` tells the form of the list. -/
theorem HashReach.dictionary {env : Env} {s : Session} (hs : Reach env CarefulCall s)
    (hflag : s.world.index.compressed = false) {U : ChkPtr -> Prop}
    (hU : forall p, U p -> Spot s.live p) {o : Nat} {hashFunc : Ptr -> M Nat}
    {hash : ChkPtr -> Nat} (hhash : HashState.ReadsAs env s U o hashFunc hash) {st : HashState}
    {d : List ChkPtr} {one : Bool}
    (h : HashReach env s U o hashFunc hash (fun st call => call.Clean st) st d one) :
    (forall (eqFunc : Ptr -> M Bool) (eqs : ChkPtr -> Bool) (k fuel : Nat),
      HashState.ReadsAs env s U o eqFunc eqs -> (forall q, U q -> eqs q = true -> hash q = k) ->
      d.length < fuel -> exists r, ChkHashSList.find eqFunc o k fuel st = .ok (r, st) ∧
        (¬r.1.IsNull <-> exists p, p ∈ d ∧ eqs p = true) ∧
        (¬r.1.IsNull -> r.1 ∈ d ∧ eqs r.1 = true ∧
          exists pre, r.2 = some pre ∧ pre.next st = .ok (r.1, st))) ∧
    (forall p fuel, U p -> d.length < fuel -> exists r st',
      ChkHashSList.erase (st.session.world.index.place p) (hash p) fuel st = .ok (r, st') ∧
      (r = 0 <-> p ∈ d)) ∧
    (ChkHashSList.bucketSize st.list = 1 <-> one = true) := by
  have hinv := h.inv (hs.isOpen hflag) hU hhash
  rcases hinv.holds with ⟨chains, hst, hperm⟩
  refine ⟨fun eqFunc eqs k fuel heqs hkey hfuel => ?_, fun p fuel hp hfuel => ?_, hinv.form⟩
  · rw [← hperm.length_eq] at hfuel
    have hmem : forall q, q ∈ st.members chains -> U q :=
      fun q hq => hinv.nodes q (hperm.mem_iff.mp hq)
    rcases hst.find_ok hinv.good (fun q hq => hinv.read_ok heqs (hmem q hq))
      (fun q hq => hkey q (hmem q hq)) hfuel with ⟨r, hfind, hfound⟩
    refine ⟨r, hfind, ?_⟩
    rcases hfound with ⟨p, pre, hp, hep, rfl, hpre⟩ | ⟨hnone, rfl⟩
    · have hd := hperm.mem_iff.mp hp
      exact ⟨⟨fun _ => ⟨p, hd, hep⟩, fun _ => hinv.good.isOpen.spot_not_null (hst.node hp)⟩,
        fun _ => ⟨hd, hep, pre, rfl, hpre⟩⟩
    · refine ⟨⟨fun hcon => absurd rfl hcon, ?_⟩, fun hcon => absurd rfl hcon⟩
      rintro ⟨p, hp, hep⟩
      have hfalse : eqs p = false := hnone p (hperm.mem_iff.mpr hp)
      rw [hfalse] at hep
      cases hep
  · rw [← hperm.length_eq] at hfuel
    have herase := hst.erase_ok hinv.good (hinv.place hU hp) hfuel
    by_cases hmem : p ∈ st.members chains
    · rcases herase.2 hmem with ⟨st', hrun, -⟩
      exact ⟨0, st', hrun, fun _ => hperm.mem_iff.mp hmem, fun _ => rfl⟩
    · refine ⟨-1, st, herase.1 hmem, nofun, fun hd => absurd (hperm.mem_iff.mpr hd) hmem⟩

section Sample

def theNode : ChkPtr := ⟨0, 10, 0⟩

def threeNodes : List ChkPtr := [theNode, ⟨0, 11, 0⟩, ⟨0, 13, 0⟩]

theorem threeNodes_spot (p : ChkPtr) (hp : p ∈ threeNodes) : Spot oneNode.live p := by
  have hlive : (⟨⟨0, 10, 3⟩, 24⟩ : Live) ∈ oneNode.live := by decide +kernel
  have hplaces : forall p, p ∈ threeNodes -> p.size = 0 ∧ p.chkNo = 0 ∧ 10 ≤ p.offset ∧
      p.offset < 10 + 2 * 3 := by decide
  exact ⟨_, hlive, hplaces p hp⟩

/-- Three nodes are inserted and two of them erased, one from a table and one from the single
list that the table became; the third one is found. -/
theorem HashReach.dictionary_sample : exists st one r,
    HashReach Env.plain oneNode (fun p => p ∈ threeNodes) 0 (fun _ => pure 5) (fun _ => 5)
      (fun st call => call.Clean st) st [⟨0, 13, 0⟩] one ∧
    ChkHashSList.find (fun _ => pure true) 0 5 2 st = .ok (r, st) ∧ r.1 = ⟨0, 13, 0⟩ := by
  have hflag : oneNode.world.index.compressed = false := by decide +kernel
  rcases HashReach.of_calls (f := fun x => x.2.1)
    (show (HashCall.performAll Env.plain (fun p => p ∈ threeNodes) 0 (fun _ => pure 5)
      (fun _ => 5) (fun st call => call.Clean st) 4
      [.insert theNode, .resize 2 chkNull, .insert ⟨0, 11, 0⟩, .erase theNode,
        .resize 4 chkNull, .resize 1 chkNull, .erase ⟨0, 11, 0⟩, .insert ⟨0, 13, 0⟩]
      (⟨oneNode, { chkNull.nulled with size := 0 }, chkNull⟩, [], true)).map _ =
        some [⟨0, 13, 0⟩] by decide +kernel) with ⟨st, d, one, hst, rfl⟩
  rcases (HashReach.dictionary oneNode_reach hflag threeNodes_spot
    (fun _ _ _ _ _ _ => rfl) hst).1 (fun _ => pure true) (fun _ => true) 5 2
    (fun _ _ _ _ _ _ => rfl) (fun _ _ _ => rfl) (by decide) with ⟨r, hfind, hiff, hfound⟩
  have hmem := (hfound (hiff.mpr ⟨_, List.mem_cons_self, rfl⟩)).1
  exact ⟨st, one, r, hst, hfind, List.mem_singleton.mp hmem⟩

/-- Two lists are made of one, and one of two with a local head that has size bits; when the
node is erased, `bucket_size()` is two. -/
theorem HashReach.form_lost : exists st,
    HashReach Env.plain oneNode (fun p => p = theNode) 0 (fun _ => pure 5) (fun _ => 5)
      (fun _ _ => True) st [] true ∧ ChkHashSList.bucketSize st.list ≠ 1 := by
  rcases HashReach.of_calls
    (f := fun x => (x.2, decide (ChkHashSList.bucketSize x.1.list ≠ 1)))
    (show (HashCall.performAll Env.plain (fun p => p = theNode) 0 (fun _ => pure 5)
      (fun _ => 5) (fun _ _ => True) 2
      [.insert theNode, .resize 2 chkNull, .resize 1 ⟨0, 0, 1⟩, .erase theNode]
      (⟨oneNode, { chkNull.nulled with size := 0 }, chkNull⟩, [], true)).map _ =
        some (([], true), true) by decide +kernel) with ⟨st, d, one, hst, hout⟩
  simp only [Prod.mk.injEq] at hout
  rcases hout with ⟨⟨rfl, rfl⟩, hsize⟩
  exact ⟨st, hst, of_decide_eq_true hsize⟩

end Sample

end ChunkMem
