import ChunkMem.Properties.Dictionary
import ChunkMem.Structures.StringsInStore

/-!
# Hash lists in the store

The area of a hash list are the blocks of its nodes and the block of its heads.
-/

namespace ChunkMem

open Foundation

/-- The variables of a hash list, with the nodes in it and whether it is a single list. -/
structure HashData where
  list : ChkPtr
  single : ChkPtr
  nodes : List ChkPtr
  one : Bool

namespace HashData

def state (x : HashData) (s : Session) : HashState := ⟨s, x.list, x.single⟩

/-- The blocks of the program with the nodes, and the block of the heads. -/
def area (s₀ : Session) (x : HashData) : Area := Area.ofBlocks s₀.live ⊔ x.list.area

end HashData

theorem World.word_eq_of_bits {w w' : World} {p : ChkPtr}
    (h : forall j, 32 * p.offset ≤ j -> j < 32 * p.offset + 32 ->
      w'.chunkBits p.chkNo j = w.chunkBits p.chkNo j) : w'.word p = w.word p := by
  unfold World.word World.target
  rw [Bits.readPtr_drop, Bits.readPtr_drop]
  apply Bits.readPtr_congr
  intro i hi
  exact h _ (by omega) (by omega)

theorem Live.Has.covers {l : Live} {p : ChkPtr} (h : l.Has p) {j : Nat}
    (hj : 32 * p.offset ≤ j) (hj' : j < 32 * p.offset + 32) : l.Covers p.chkNo j := by
  rcases h with ⟨-, hno, hlo, hhi⟩
  exact ⟨hno, by omega, by omega⟩

namespace HashInv

variable {env : Env} {s₀ s s' : Session} {U : ChkPtr -> Prop} {hash : ChkPtr -> Nat}
variable {x : HashData}

theorem touches_block (h : HashInv env s₀ U hash (x.state s) x.nodes x.one) {l : Live}
    (hl : l ∈ s₀.live) : (x.area s₀).Touches l := by
  have hpos := h.good.isOpen.size_pos (h.sub l hl).1
  have hcov : l.Covers l.ptr.chkNo (32 * l.ptr.offset) := ⟨rfl, by omega, by omega⟩
  exact ⟨_, _, Or.inl ⟨l, hl, hcov⟩, hcov⟩

theorem touches_array (h : HashInv env s₀ U hash (x.state s) x.nodes x.one) {l : Live}
    (hl : l ∈ s.live) (hptr : l.ptr = x.list) : (x.area s₀).Touches l := by
  have hpos := h.good.isOpen.size_pos (s := s) hl
  have hcov : l.Covers l.ptr.chkNo (32 * l.ptr.offset) := ⟨rfl, by omega, by omega⟩
  exact ⟨_, _, Or.inr (hptr ▸ hcov), hcov⟩

theorem area_in (h : HashInv env s₀ U hash (x.state s) x.nodes x.one) :
    (x.area s₀).In s.live := by
  rintro k j (⟨l, hl, hcov⟩ | hcov)
  · exact ⟨l, (h.sub l hl).1, hcov⟩
  · rcases h.holds with ⟨chains, hst, -⟩
    rcases hst.array with hzero | ⟨b, hb, hptr⟩
    · have hsize : x.list.size = 0 := hzero
      rcases hcov with ⟨-, hlo, hhi⟩
      omega
    · have hsame : b.ptr.area = x.list.area := congrArg ChkPtr.area hptr
      exact ⟨b, hb, (congrFun (congrFun hsame k) j).mpr hcov⟩

theorem spared (h : HashInv env s₀ U hash (x.state s) x.nodes x.one)
    (hU : forall p, U p -> Spot s₀.live p) (hopen' : Open env s')
    (hspared : Spared env (x.area s₀) s s') :
    HashInv env s₀ U hash (x.state s') x.nodes x.one := by
  have hopen : Open env s := h.good.isOpen
  have hbits : forall k j, x.area s₀ k j -> s'.world.chunkBits k j = s.world.chunkBits k j :=
    fun k j hkj => hspared.chunkBits_eq hopen hopen'.1 h.area_in hkj
  have hsub : forall l, l ∈ s₀.live -> l ∈ s'.live :=
    fun l hl => hspared.blocks l (h.sub l hl).1 (h.touches_block hl)
  have hword : forall p, U p -> s'.world.word p = s.world.word p := by
    intro p hp
    rcases hU p hp with ⟨l, hl, hhas⟩
    refine World.word_eq_of_bits fun j hj hj' => hbits _ _ (Or.inl ⟨l, hl, ?_⟩)
    exact hhas.covers hj hj'
  rcases h.holds with ⟨chains, hst, hperm⟩
  have hnode : forall p, p ∈ (x.state s).members chains -> U p :=
    fun p hp => h.nodes p (hperm.mem_iff.mp hp)
  have hgood : (x.state s').Good env := ⟨hopen', h.good.list, h.good.single⟩
  -- the heads are a variable or words of their block
  have hhead : forall i, i < ChkHashSList.bucketSize x.list ->
      (x.state s').next ((x.state s').bucket i) = (x.state s).next ((x.state s).bucket i) := by
    intro i hi
    have hbucket : (x.state s').bucket i = (x.state s).bucket i := rfl
    rw [hbucket]
    by_cases hone : ChkHashSList.bucketSize (x.state s).list = 1
    · have hcell : (x.state s).bucket i = .list := if_pos hone
      rw [hcell]
      rfl
    · rcases hst.array.bucket_has hone hi with ⟨b, q, hb, hptr, hcell, hhas⟩
      rw [hcell]
      refine World.word_eq_of_bits fun j hj hj' => hbits _ _ (Or.inr ?_)
      have hptr' : b.ptr = x.list := hptr
      exact hptr' ▸ hhas.covers hj hj'
  refine ⟨hgood, ⟨chains, ⟨hopen', hst.fits, ?_, ?_, ?_, hst.hashed, hst.nodup⟩, hperm⟩, ?_, ?_,
    h.nodes, h.form⟩
  · refine hst.array.imp_right ?_
    rintro ⟨b, hb, hptr⟩
    exact ⟨b, hspared.blocks b hb (h.touches_array hb hptr), hptr⟩
  · intro i hi
    rw [hhead i hi]
    exact (hst.runs i hi).congr fun p hp =>
      hword p (hnode p (HashState.mem_members.mpr ⟨i, hi, hp⟩))
  · intro p hp
    rcases hU p (hnode p hp) with ⟨l, hl, hhas⟩
    exact ⟨l, hsub l hl, hhas, (h.sub l hl).2⟩
  · intro l hl
    exact ⟨hsub l hl, (h.sub l hl).2⟩
  · refine h.keeps.trans fun l hl j hj hj' _ => ?_
    exact hbits _ _ (Or.inl ⟨l, hl, rfl, hj, hj'⟩)

/-- `find` with the hash of a key finds a node exactly when one of the nodes has the key. -/
theorem find_node (h : HashInv env s₀ U hash (x.state s) x.nodes x.one) {o k fuel : Nat}
    {eqFunc : Ptr -> M Bool} {eqs : ChkPtr -> Bool}
    (heqs : HashState.ReadsAs env s₀ U o eqFunc eqs)
    (hkey : forall q, U q -> eqs q = true -> hash q = k) (hfuel : x.nodes.length < fuel) :
    exists r, ChkHashSList.find eqFunc o k fuel (x.state s) = .ok (r, x.state s) ∧
      (¬r.1.IsNull <-> exists p, p ∈ x.nodes ∧ eqs p = true) ∧
      (¬r.1.IsNull -> r.1 ∈ x.nodes ∧ eqs r.1 = true) := by
  rcases h.holds with ⟨chains, hst, hperm⟩
  rw [← hperm.length_eq] at hfuel
  have hmem : forall q, q ∈ (x.state s).members chains -> U q :=
    fun q hq => h.nodes q (hperm.mem_iff.mp hq)
  rcases hst.find_ok h.good (fun q hq => h.read_ok heqs (hmem q hq))
    (fun q hq => hkey q (hmem q hq)) hfuel with ⟨r, hfind, hfound⟩
  refine ⟨r, hfind, ?_⟩
  rcases hfound with ⟨p, pre, hp, hep, rfl, -⟩ | ⟨hnone, rfl⟩
  · have hd := hperm.mem_iff.mp hp
    have hnull : ¬p.IsNull := h.good.isOpen.spot_not_null (hst.node hp)
    exact ⟨⟨fun _ => ⟨p, hd, hep⟩, fun _ => hnull⟩, fun _ => ⟨hd, hep⟩⟩
  · have hnull : chkNull.IsNull := rfl
    refine ⟨⟨fun hcon => absurd hnull hcon, ?_⟩, fun hcon => absurd hnull hcon⟩
    rintro ⟨p, hp, hep⟩
    have hfalse : eqs p = false := hnone p (hperm.mem_iff.mpr hp)
    rw [hfalse] at hep
    cases hep

theorem widen (h : HashInv env s₀ U hash (x.state s) x.nodes x.one) {live : List Live}
    (hlive : forall l, l ∈ live -> l ∈ s.live ∧ l.ptr ≠ x.list) :
    HashInv env ⟨s.world, s₀.live ++ live⟩ U hash (x.state s) x.nodes x.one := by
  refine ⟨h.good, h.holds, fun l hl => ?_, .refl _ _ _, h.nodes, h.form⟩
  rcases List.mem_append.mp hl with hl | hl
  · exact h.sub l hl
  · exact hlive l hl

end HashInv

namespace HashState.ReadsAs

variable {env : Env} {s₀ : Session} {U : ChkPtr -> Prop} {hash : ChkPtr -> Nat} {o : Nat}
variable {hashFunc : Ptr -> M Nat} {s : Session} {x : HashData} {live : List Live}

theorem widen (hhash : ReadsAs env s₀ U o hashFunc hash)
    (h : HashInv env s₀ U hash (x.state s) x.nodes x.one) :
    ReadsAs env ⟨s.world, s₀.live ++ live⟩ U o hashFunc hash := by
  intro s' hopen hsub hkeeps p hp
  refine hhash s' hopen (fun l hl => hsub l (List.mem_append_left _ hl)) ?_ p hp
  refine h.keeps.trans fun l hl j hj hj' hout => ?_
  exact hkeeps l (List.mem_append_left _ hl) j hj hj' hout

end HashState.ReadsAs

/-- A hash list as data in the store; its nodes are places in the blocks of `s₀`. -/
def hashResident (env : Env) (s₀ : Session) (U : ChkPtr -> Prop) (hash : ChkPtr -> Nat)
    (hU : forall p, U p -> Spot s₀.live p) : Resident (Session.store env) HashData where
  Inv := fun s x => HashInv env s₀ U hash (x.state s) x.nodes x.one
  area := HashData.area s₀
  within := fun h => h.area_in
  stable := fun _ hopen' h hspared => h.spared hU hopen' hspared

theorem HashCall.moves {env : Env} {s₀ s : Session} {U : ChkPtr -> Prop} {hash : ChkPtr -> Nat}
    (hU : forall p, U p -> Spot s₀.live p) {o : Nat} {hashFunc : Ptr -> M Nat}
    (hhash : HashState.ReadsAs env s₀ U o hashFunc hash) {x : HashData}
    (h : HashInv env s₀ U hash (x.state s) x.nodes x.one) {call : HashCall}
    (hcall : call.Allowed U x.nodes) (hclean : call.Clean (x.state s)) {fuel : Nat}
    (hfuel : x.nodes.length < fuel) {r : Int} {st' : HashState}
    (hrun : call.perform env o hashFunc hash fuel (x.state s) = .ok (r, st')) :
    (hashResident env s₀ U hash hU).Moves s x st'.session
      ⟨st'.list, st'.single, call.after x.nodes, call.single r x.one⟩ := by
  have h' := h.step_run hU hhash hcall hclean hfuel hrun
  refine ⟨h'.good.isOpen, h', fun V hin hapart => ?_⟩
  have hdis := Area.disjoint_iff.mp hapart
  classical
  -- the blocks of the other area stay as blocks of the program would
  let live := s.live.filter fun l => decide (V.Touches l)
  have hmem : forall l, l ∈ live <-> l ∈ s.live ∧ V.Touches l := by
    intro l
    rw [List.mem_filter, decide_eq_true_iff]
  have hlive : forall l, l ∈ live -> l ∈ s.live ∧ l.ptr ≠ x.list := by
    intro l hl
    rcases (hmem l).mp hl with ⟨hl', k, j, hkj, hcov⟩
    exact ⟨hl', fun heq => hdis k j hkj (Or.inr (heq ▸ hcov))⟩
  have hwide : forall p, U p -> Spot (s₀.live ++ live) p :=
    fun p hp => (hU p hp).mono fun l hl => List.mem_append_left _ hl
  have h₁ := (h.widen hlive).step_run (s := ⟨s.world, s₀.live ++ live⟩) hwide (hhash.widen h)
    hcall hclean hfuel hrun
  have hkept : forall l, l ∈ s.live -> V.Touches l ->
      l ∈ st'.session.live ∧ l.ptr ≠ st'.list := by
    intro l hl htouch
    exact h₁.sub l (List.mem_append_right _ ((hmem l).mpr ⟨hl, htouch⟩))
  constructor
  · refine Spared.of_open h.good.isOpen h'.good.isOpen hin (fun l hl ht => (hkept l hl ht).1) ?_
    intro k j hkj
    rcases hin k j hkj with ⟨l, hl, hcov⟩
    have hl₁ := List.mem_append_right s₀.live ((hmem l).mpr ⟨hl, k, j, hkj, hcov⟩)
    rcases hcov with ⟨rfl, hlo, hhi⟩
    refine h₁.keeps l hl₁ j hlo hhi fun p hp hword => ?_
    rcases hU p hp with ⟨b, hb, hhas⟩
    have hcov' := hhas.covers hword.2.1 hword.2.2
    exact hdis _ j hkj (Or.inl ⟨b, hb, hword.1 ▸ hcov'⟩)
  · refine Area.disjoint_iff.mpr fun k j hkj => ?_
    rintro (hblock | hcov')
    · exact hdis k j hkj (Or.inl hblock)
    · rcases hin k j hkj with ⟨l, hl, hcov⟩
      rcases hkept l hl ⟨k, j, hkj, hcov⟩ with ⟨hl', hne⟩
      rcases h'.holds with ⟨chains, hst, -⟩
      rcases hst.array with hzero | ⟨b, hb, hptr⟩
      · rcases hcov' with ⟨-, hlo, hhi⟩
        simp only [hzero] at hlo hhi
        omega
      · have hsame : b.ptr.area = st'.list.area := congrArg ChkPtr.area hptr
        have heq := h'.good.isOpen.ptr_eq hl' hb hcov
          ((congrFun (congrFun hsame k) j).mpr hcov')
        exact hne (heq.symm.trans hptr)

end ChunkMem
