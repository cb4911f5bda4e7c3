import ChunkMem.Properties.Dictionary
import ChunkMem.Properties.HeldNodes
import ChunkMem.Structures.StrBlocks

/-!
# Nodes with texts in a hash list

A node is made, its string is set, and it is inserted into a hash list; it is taken out and
destroyed again.  The texts of the nodes select their lists.
-/

namespace ChunkMem

open Foundation

/-- A node in the hash list: its block, and the text in it. -/
structure TextEntry where
  block : ChkPtr
  text : List Byte

def TextEntry.link (e : TextEntry) : ChkPtr := StrNode.link e.block

namespace TextSet

/-- The link of a node at an address, and the hash of its text. -/
def hashed (count : Nat) (block : ChkPtr) (a : Ptr) : HashProg (ChkAddrChk × Nat) := do
  let h <- HashProg.mem (StrNode.hashFunc count a)
  let chk <- HashProg.mem (chkPtr2chk block)
  pure (⟨a.add StrNode.linkOffset, chk⟩, h)

def add (env : Env) (count : Nat) (buf : List Byte) : HashProg (Option TextEntry) := do
  let made <- HashProg.run (HeldNode.create env)
  match made with
  | none => pure none
  | some n => do
      let r <- HashProg.run (ChkStr.setDataAt env n.addr buf)
      let node <- hashed count n.block n.addr
      ChkHashSList.insert node.1 node.2
      pure (some ⟨n.block, (n.after r buf).text⟩)

/-- A node is erased, `uninit` gives its string back, and `free` the node. -/
def remove (env : Env) (count fuel : Nat) (e : TextEntry) : HashProg Int := do
  let a <- HashProg.mem (chkPtr2addr e.block)
  let node <- hashed count e.block a
  let r <- ChkHashSList.erase node.1 node.2 fuel
  HashProg.run (HeldNode.destroy env ⟨e.block, a, e.text⟩)
  pure r

end TextSet

/-!
## The invariant
-/

/-- The hash list has the nodes of `d`, whose texts select their lists. -/
structure TextInv (env : Env) (s₀ : Session) (st : HashState) (d : List ChkPtr)
    (text : ChkPtr -> List Byte) : Prop where
  good : st.Good env
  holds : exists chains, st.Holds env (fun p => StrNode.hashText (text p)) chains ∧
    (st.members chains).Perm d
  blocks : StrBlocks s₀ st.session st.list d text

/-- The entries are what `d` and `text` say. -/
structure TextEntries (s : Session) (entries : List TextEntry) (text : ChkPtr -> List Byte) :
    Prop where
  text : forall e, e ∈ entries -> text e.link = e.text
  live : forall e, e ∈ entries -> exists b, b ∈ s.live ∧ b.ptr = e.block

theorem HashProg.of_run {α : Type} {x : Prog α} {st st' : HashState} {a : α}
    (h : HashProg.run x st = .ok (a, st')) :
    exists s', x st.session = .ok (a, s') ∧ st' = { st with session := s' } := by
  unfold HashProg.run at h
  cases hx : x st.session with
  | error e =>
      rw [hx] at h
      cases h
  | ok as =>
      rw [hx] at h
      cases h
      exact ⟨_, rfl, rfl⟩

theorem StrNode.place_link (idx : ChkIndex) (b : ChkPtr) :
    idx.place (StrNode.link b) = ⟨((idx.chkAddr b.chkNo).add (chkOffset b.offset)).add
      StrNode.linkOffset, idx.chkAddr b.chkNo⟩ := by
  unfold ChkIndex.place StrNode.link StrNode.linkOffset Ptr.add
  simp only [chkOffset, setChkOffset]
  congr 2
  omega

namespace TextInv

variable {env : Env} {s₀ : Session} {st st' : HashState} {d : List ChkPtr}
variable {text : ChkPtr -> List Byte} {count : Nat}

theorem hashed_ok (h : StrBlocks s₀ st.session st.list d text) (hopen : Open env st.session)
    (hcount : 2 ^ 13 ≤ count) {b : Live} (hlink : StrNode.link b.ptr ∈ d) :
    TextSet.hashed count b.ptr (st.session.world.addrOf b.ptr) st =
      .ok ((st.session.world.index.place (StrNode.link b.ptr),
        StrNode.hashText (text (StrNode.link b.ptr))), st) := by
  have hread := h.nodes.hash_reads hopen hcount st.session hopen (fun _ hl => hl) (.refl _ _ _)
    _ hlink
  rw [StrNodes.container_eq, ← World.addrOf] at hread
  have hchk := hopen.place_chk (h.nodes.spot (p := StrNode.link b.ptr) hlink)
  change chkPtr2chk b.ptr st.session.world = _ at hchk
  unfold TextSet.hashed
  rw [Exec.bind_of_ok (HashState.mem_ok hread), Exec.bind_of_ok (HashState.mem_ok hchk),
    StrNode.place_link]
  rfl

theorem start {list single : ChkPtr} (hopen : Open env s₀) (hlist : list.Fits)
    (hsingle : single.Fits) (hrun : ChkHashSList.init ⟨s₀, list, single⟩ = .ok ((), st)) :
    TextInv env s₀ st [] text := by
  have hgood : HashState.Good env ⟨s₀, list, single⟩ := ⟨hopen, hlist, hsingle⟩
  rcases HashInv.init_run (fun p => StrNode.hashText (text p)) hgood (fun _ hl => hl)
    (.refl s₀.world s₀.live fun _ => True) with ⟨st₁, hinit, hinv⟩
  rw [hinit] at hrun
  cases hrun
  have hsession : st.session = s₀ := by
    cases hinit
    rfl
  refine ⟨hinv.good, hinv.holds, ?_⟩
  rw [hsession]
  exact .start fun b hb => (hinv.sub b hb).2

theorem stepped (h : TextInv env s₀ st d text) {d' : List ChkPtr} (hgood : st'.Good env)
    (hholds : exists chains, st'.Holds env (fun p => StrNode.hashText (text p)) chains ∧
      (st'.members chains).Perm d')
    (hstep : StrBlocks.Step s₀ st.session d d' st'.session st'.list) :
    TextInv env s₀ st' d' text :=
  ⟨hgood, hholds, hstep.keeps h.blocks h.good.isOpen hgood.isOpen⟩

theorem resizes (h : TextInv env s₀ st d text) (hcount : 2 ^ 13 ≤ count)
    {chains : Nat -> List ChkPtr} (hst : st.Holds env (fun p => StrNode.hashText (text p)) chains)
    (hperm : (st.members chains).Perm d) {newSize fuel : Nat} {junk : ChkPtr}
    (hpos : 0 < newSize) (hmax : newSize ≤ ChkHashSList.maxBuckets) (hjunk : junk.Fits)
    (hfuel : d.length < fuel) (hne : ChkHashSList.bucketSize st.list ≠ newSize) :
    Exec.Ensures (ChkHashSList.resizeBuckets env newSize (StrNode.hashFunc count)
        StrNode.linkOffset fuel junk st)
      (HashState.ResizeOutcome env st (fun p => StrNode.hashText (text p)) chains newSize)
      (Expected env) := by
  have hmem : forall q, q ∈ st.members chains -> q ∈ d := fun q hq => hperm.mem_iff.mp hq
  have hlen : forall i, i < ChkHashSList.bucketSize st.list -> (chains i).length < fuel := by
    intro i hi
    have hle := (HashState.Holds.chain_sublist chains hi).length_le
    rw [hperm.length_eq] at hle
    exact Nat.lt_of_le_of_lt hle hfuel
  have hreads : HashState.ReadsAs env st.session (fun q => q ∈ st.members chains)
      StrNode.linkOffset (StrNode.hashFunc count) fun p => StrNode.hashText (text p) :=
    fun s' hopen' hlive hkeeps p hp => h.blocks.nodes.hash_reads h.good.isOpen hcount s' hopen'
      hlive (hkeeps.mono hmem) p (hmem p hp)
  have hmax' : 4 * newSize ≤ chkMaxContinusLen :=
    Nat.le_trans (Nat.mul_le_mul_left 4 hmax) (Nat.mul_div_le _ _)
  exact hst.resize_ensures hreads hlen hjunk hpos hmax' hne

theorem resize_same {env : Env} {st : HashState} {newSize o fuel : Nat} {hashFunc : Ptr -> M Nat}
    {junk : ChkPtr} (heq : ChkHashSList.bucketSize st.list = newSize) :
    ChkHashSList.resizeBuckets env newSize hashFunc o fuel junk st = .ok (0, st) := by
  unfold ChkHashSList.resizeBuckets
  rw [Exec.bind_of_ok (Exec.state_apply st)]
  simp only [if_pos heq]
  rfl

theorem resize_step (h : TextInv env s₀ st d text) (hcount : 2 ^ 13 ≤ count)
    {newSize fuel : Nat} {junk : ChkPtr} {r : Int} (hpos : 0 < newSize)
    (hmax : newSize ≤ ChkHashSList.maxBuckets) (hjunk : junk.Fits) (hfuel : d.length < fuel)
    (hrun : ChkHashSList.resizeBuckets env newSize (StrNode.hashFunc count) StrNode.linkOffset
      fuel junk st = .ok (r, st')) :
    TextInv env s₀ st' d text ∧ StrBlocks.Step s₀ st.session d d st'.session st'.list := by
  rcases h.holds with ⟨chains, hst, hperm⟩
  by_cases heq : ChkHashSList.bucketSize st.list = newSize
  · rw [resize_same heq] at hrun
    cases hrun
    exact ⟨h, h.blocks.kept_step (fun _ hp => hp) (fun b hb _ => ⟨hb, fun _ _ => rfl⟩)
      fun b hb => ⟨hb, fun ht => ht⟩⟩
  · rcases (h.resizes hcount hst hperm hpos hmax hjunk hfuel heq).of_ok hrun with
      ⟨-, chains', hres⟩ | ⟨-, href⟩
    · have hstep := h.blocks.resized_step hres fun q hq => hperm.mem_iff.mp hq
      exact ⟨h.stepped hres.good ⟨chains', hres.holds, hres.nodes.trans hperm⟩ hstep, hstep⟩
    · have hkept : forall b, b ∈ st.session.live ->
          World.KeepsBlock st.session.world st'.session.world b.ptr := by
        intro b hb j hj
        unfold World.target
        rw [Bits.drop_apply, Bits.drop_apply]
        exact href.keeps b hb _ (by omega) (by omega) fun _ hf => hf.elim
      have hstep : StrBlocks.Step s₀ st.session d d st'.session st'.list := by
        rw [href.list]
        exact h.blocks.kept_step (fun _ hp => hp)
          (fun b hb _ => ⟨href.live ▸ hb, hkept b hb⟩) fun b hb => ⟨href.live ▸ hb, fun ht => ht⟩
      refine ⟨h.stepped href.good ⟨chains, href.holds hst, ?_⟩ hstep, hstep⟩
      unfold HashState.members
      rw [href.list]
      exact hperm

end TextInv

/-!
## A node more
-/

theorem HeldNode.create_size {env : Env} {s s' : Session} (h : Open env s) {n : HeldNode}
    (hrun : HeldNode.create env s = .ok (some n, s')) : 2 ≤ n.block.size := by
  unfold HeldNode.create at hrun
  rcases Exec.ok_of_bind hrun with ⟨p, s₁, halloc, hrest⟩
  have hsize : (0 : Int) < StrNode.size ∧ (StrNode.size : Int) < 2 ^ 31 - 7 := by decide
  rcases (h.alloc_ensures hsize.1 hsize.2).of_ok halloc with ⟨-, -, hout⟩
  rcases hout with ⟨hnull, -⟩ | ⟨hnull, -, hfit, -, -⟩
  · rw [if_pos hnull] at hrest
    cases hrest
  · rw [if_neg hnull] at hrest
    rcases Exec.ok_of_bind hrest with ⟨a, s₂, -, hrest⟩
    rcases Exec.ok_of_bind hrest with ⟨u, s₃, -, hrest⟩
    cases hrest
    have hnum : StrNode.size = 12 := rfl
    change 2 ≤ p.size
    omega

theorem HeldNode.create_ensures {env : Env} {s : Session} (h : Open env s) :
    Exec.Ensures (HeldNode.create env s) (fun _ _ => True) (Expected env) := by
  have hsize : (0 : Int) < StrNode.size ∧ (StrNode.size : Int) < 2 ^ 31 - 7 := by decide
  unfold HeldNode.create
  refine (h.alloc_ensures hsize.1 hsize.2).bind fun p s₁ hpost => ?_
  rcases hpost with ⟨h₁, -, hout⟩
  rcases hout with ⟨hnull, -⟩ | ⟨hnull, hlive, -⟩
  · rw [if_pos hnull]
    trivial
  · have hself : (⟨p, StrNode.size⟩ : Live) ∈ s₁.live := by
      rw [hlive]
      exact List.mem_cons_self
    rcases h₁.initAt_ok hself with ⟨m, w₂, hinit, -⟩
    have hdecode := h₁.chkPtr2addr_ok (h₁.chkNo_lt hself)
    rw [if_neg hnull, Exec.bind_of_ok (Prog.mem_of_ok hdecode),
      Exec.bind_of_ok (Prog.mem_of_ok hinit)]
    trivial

/-!
## A node that was made beside the others
-/

/-- What a new node leaves of the blocks: the old ones are there and are not its own, the others
are its own, and it is the only one at its link. -/
structure NodeGrown (env : Env) (s s' : Session) (n : HeldNode) : Prop where
  isOpen : Open env s'
  ok : n.Ok s'
  apart : (s'.str n).owned ≠ some n.block
  old : forall b, b ∈ s.live -> b ∈ s'.live ∧ World.KeepsBlock s.world s'.world b.ptr ∧
    n.block ≠ b.ptr ∧ (s'.str n).owned ≠ some b.ptr
  accounted : forall m, m ∈ s'.live -> m ∈ s.live ∨ m.ptr = n.block ∨
    (s'.str n).owned = some m.ptr

theorem NodesInv.grown {env : Env} {s s' : Session} {n : HeldNode} (hn : NodesInv env s s' [n]) :
    NodeGrown env s s' n := by
  have hself : n ∈ [n] := List.mem_singleton_self n
  refine ⟨hn.isOpen, hn.ok n hself, hn.apart n n hself hself, fun b hb => ?_, fun m hm => ?_⟩
  · rcases hn.others b hb with ⟨hb', hsame, hnone⟩
    exact ⟨hb', hsame, (hnone n hself).1, (hnone n hself).2⟩
  · rcases hn.accounted m hm with hm' | ⟨k, hk, heq⟩ | ⟨k, hk, hown⟩
    · exact Or.inl hm'
    · exact Or.inr (Or.inl (List.mem_singleton.mp hk ▸ heq).symm)
    · exact Or.inr (Or.inr (List.mem_singleton.mp hk ▸ hown))

namespace NodeGrown

variable {env : Env} {s₀ s s' : Session} {n : HeldNode} {list : ChkPtr} {d : List ChkPtr}
variable {text : ChkPtr -> List Byte}

theorem link_eq (hg : NodeGrown env s s' n) {m : Live} (hm : m ∈ s'.live)
    (heq : StrNode.link m.ptr = StrNode.link n.block) : m.ptr = n.block := by
  rcases hg.ok.live with ⟨c, hc, hblock⟩
  rw [← hblock] at heq ⊢
  exact hg.isOpen.link_inj hm hc heq

theorem link_not_mem (hg : NodeGrown env s s' n) (h : StrBlocks s₀ s list d text) :
    StrNode.link n.block ∉ d := by
  intro hmem
  rcases h.node_block hmem with ⟨b, hb, heq, -, -⟩
  rcases hg.old b hb with ⟨hb', -, hne, -⟩
  exact hne (hg.link_eq hb' heq.symm).symm

theorem old_node (hg : NodeGrown env s s' n) (h : StrBlocks s₀ s list d text)
    (hopen : Open env s) {m : Live} (hm : m ∈ s'.live) (hlink : StrNode.link m.ptr ∈ d) :
    m ∈ s.live ∧ ChkStr.Same (s.world.str m.ptr) (s'.world.str m.ptr) := by
  rcases h.node_block hlink with ⟨b, hb, heq, -, -⟩
  rcases hg.old b hb with ⟨hb', hsame, hne, hown⟩
  have hptr := hg.isOpen.link_inj hm hb' heq
  rw [hptr]
  refine ⟨?_, hsame.same (hopen.size_pos hb)⟩
  rcases hg.accounted m hm with hm' | hcon | hcon
  · exact hm'
  · exact absurd (hcon.symm.trans hptr) hne
  · exact absurd (hptr ▸ hcon) hown

theorem node_cases (hg : NodeGrown env s s' n) (h : StrBlocks s₀ s list d text)
    (hopen : Open env s) {m : Live} (hm : m ∈ s'.live)
    (hlink : StrNode.link m.ptr ∈ StrNode.link n.block :: d) :
    (m.ptr = n.block ∧ s'.world.str m.ptr = s'.str n) ∨
      (m ∈ s.live ∧ StrNode.link m.ptr ∈ d ∧ StrNode.link m.ptr ≠ StrNode.link n.block ∧
        (s'.world.str m.ptr).owned = (s.world.str m.ptr).owned) := by
  rcases List.mem_cons.mp hlink with heq | hmem
  · have hptr := hg.link_eq hm heq
    exact Or.inl ⟨hptr, congrArg s'.world.str hptr⟩
  · rcases hg.old_node h hopen hm hmem with ⟨hm', hsame⟩
    exact Or.inr ⟨hm', hmem, fun heq => hg.link_not_mem h (heq ▸ hmem), hsame.owned_eq⟩

theorem texts_cases (hg : NodeGrown env s s' n) (h : StrBlocks s₀ s list d text)
    (hopen : Open env s) {q : ChkPtr} (hq : s'.Texts (StrNode.link n.block :: d) q) :
    StrNode.link q = StrNode.link n.block ∨ (s'.str n).owned = some q ∨ s.Texts d q := by
  rcases hq with hq | ⟨m, hm, hlink, hown⟩
  · exact (List.mem_cons.mp hq).imp_right fun hmem => Or.inr (Or.inl hmem)
  · rcases hg.node_cases h hopen hm hlink with ⟨-, hstr⟩ | ⟨hm', hmem, -, heq⟩
    · exact Or.inr (Or.inl (hstr ▸ hown))
    · exact Or.inr (Or.inr (Or.inr ⟨m, hm', hmem, heq.symm.trans hown⟩))

/-- The texts of the old nodes do not lie in the blocks of the new one. -/
theorem old_owned (hg : NodeGrown env s s' n) (h : StrBlocks s₀ s list d text) {m : Live}
    {q : ChkPtr} (hm : m ∈ s.live) (hmem : StrNode.link m.ptr ∈ d)
    (hown : (s.world.str m.ptr).owned = some q) : n.block ≠ q ∧ (s'.str n).owned ≠ some q := by
  rcases (h.nodes.shows m hm hmem).owned_live hown with ⟨x, hx, rfl, -⟩
  exact (hg.old x hx).2.2

theorem nodes (hg : NodeGrown env s s' n) (h : StrBlocks s₀ s list d text)
    (hopen : Open env s) (hsize : 2 ≤ n.block.size) :
    StrNodes s' (fun p => p ∈ StrNode.link n.block :: d)
      (Function.update text (StrNode.link n.block) n.text) := by
  rcases hg.ok.live with ⟨c, hc, hblock⟩
  refine ⟨?_, ?_, ?_, ?_⟩
  · intro p hp
    rcases List.mem_cons.mp hp with rfl | hp
    · exact ⟨c, hc, by rw [hblock], by rw [hblock]; exact hsize⟩
    · rcases h.nodes.block p hp with ⟨b, hb, heq, hb2⟩
      exact ⟨b, (hg.old b hb).1, heq, hb2⟩
  · intro b hb hlink
    rcases hg.node_cases h hopen hb hlink with ⟨hptr, hstr⟩ | ⟨hb', hmem, hne, -⟩
    · rw [hptr, Function.update_self]
      exact hg.ok.shows
    · rw [Function.update_of_ne hne]
      refine (hg.old_node h hopen hb hmem).2.shows
        ((h.nodes.shows b hb' hmem).kept fun x hx _ => ?_)
      exact ⟨(hg.old x hx).1, (hg.old x hx).2.1⟩
  · intro p hp
    rcases List.mem_cons.mp hp with rfl | hp
    · rw [Function.update_self]
      exact hg.ok.nulFree
    · have hne : p ≠ StrNode.link n.block := fun heq => hg.link_not_mem h (heq ▸ hp)
      rw [Function.update_of_ne hne]
      exact h.nodes.nulFree p hp
  · intro b x hb hx hlink hlink' hown
    rcases hg.node_cases h hopen hb hlink with ⟨-, hstr⟩ | ⟨hb', hmem, -, heq⟩
    · rw [hstr] at hown
      rcases hg.node_cases h hopen hx hlink' with ⟨hptr, -⟩ | ⟨hx', -, -, -⟩
      · exact hg.apart (hptr ▸ hown)
      · exact (hg.old x hx').2.2.2 hown
    · rw [heq] at hown
      rcases hg.node_cases h hopen hx hlink' with ⟨hptr, -⟩ | ⟨hx', hmem', -, -⟩
      · exact (hg.old_owned h hb' hmem hown).1 hptr.symm
      · exact h.nodes.apart b x hb' hx' hmem hmem' hown

theorem owner (hg : NodeGrown env s s' n) (h : StrBlocks s₀ s list d text) (hopen : Open env s)
    {b x : Live} {q : ChkPtr} (hb : b ∈ s'.live) (hx : x ∈ s'.live)
    (hlink : StrNode.link b.ptr ∈ StrNode.link n.block :: d)
    (hlink' : StrNode.link x.ptr ∈ StrNode.link n.block :: d)
    (hown : (s'.world.str b.ptr).owned = some q) (hown' : (s'.world.str x.ptr).owned = some q) :
    b.ptr = x.ptr := by
  rcases hg.node_cases h hopen hb hlink with ⟨hptr, hstr⟩ | ⟨hb', hmem, -, heq⟩
  · rcases hg.node_cases h hopen hx hlink' with ⟨hptr', -⟩ | ⟨hx', hmem', -, heq'⟩
    · exact hptr.trans hptr'.symm
    · exact absurd (hstr ▸ hown) (hg.old_owned h hx' hmem' (heq'.symm.trans hown')).2
  · rcases hg.node_cases h hopen hx hlink' with ⟨-, hstr'⟩ | ⟨hx', hmem', -, heq'⟩
    · exact absurd (hstr' ▸ hown') (hg.old_owned h hb' hmem (heq.symm.trans hown)).2
    · exact h.owner b x q hb' hx' hmem hmem' (heq.symm.trans hown) (heq'.symm.trans hown')

end NodeGrown

/-- The blocks when a node that was made beside them is one of the nodes. -/
theorem StrBlocks.grow {env : Env} {s₀ s s' : Session} {list : ChkPtr} {d : List ChkPtr}
    {text : ChkPtr -> List Byte} (h : StrBlocks s₀ s list d text) (hopen : Open env s)
    {n : HeldNode} (hn : NodesInv env s s' [n]) (hsize : 2 ≤ n.block.size)
    (hlist : list.size = 0 ∨ exists b, b ∈ s.live ∧ b.ptr = list) :
    StrNode.link n.block ∉ d ∧ StrBlocks s₀ s' list (StrNode.link n.block :: d)
      (Function.update text (StrNode.link n.block) n.text) := by
  have hg := hn.grown
  rcases hg.ok.live with ⟨c, hc, hblock⟩
  refine ⟨hg.link_not_mem h, hg.nodes h hopen hsize,
    fun b x q hb hx hlink hlink' hown hown' => hg.owner h hopen hb hx hlink hlink' hown hown',
    ?_, ?_, ?_⟩
  · intro b hb hptr htext
    rcases hlist with hzero | ⟨x, hx, hxlist⟩
    · have hpos := hg.isOpen.size_pos hb
      rw [hptr] at hpos
      omega
    · rcases hg.texts_cases h hopen htext with heq | hown | hmem
      · exact (hg.old x hx).2.2.1 ((hg.link_eq hb heq).symm.trans (hptr.trans hxlist.symm))
      · exact (hg.old x hx).2.2.2 (hown.trans (congrArg some (hptr.trans hxlist.symm)))
      · exact h.table x hx hxlist (hptr.trans hxlist.symm ▸ hmem)
  · intro b hb
    rcases hg.accounted b hb with hb' | hptr | hown
    · refine (h.accounted b hb').imp_right (Or.imp_right ?_)
      rintro (hlink | ⟨m, hm, hlink, hown⟩)
      · exact Or.inl (List.mem_cons_of_mem _ hlink)
      · have hm' := (hg.old m hm).1
        exact Or.inr ⟨m, hm', List.mem_cons_of_mem _ hlink,
          (hg.old_node h hopen hm' hlink).2.owned_eq.trans hown⟩
    · exact Or.inr (Or.inr (Or.inl (by rw [hptr]; exact List.mem_cons_self)))
    · refine Or.inr (Or.inr (Or.inr ⟨c, hc, by rw [hblock]; exact List.mem_cons_self, ?_⟩))
      rw [hblock]
      exact hown
  · intro b hb
    rcases h.others b hb with ⟨hb', hbits, hne, hno⟩
    rcases hg.old b hb' with ⟨hb'', hsame, hblock', hown'⟩
    refine ⟨hb'', fun j hj => (hsame j hj).trans (hbits j hj), hne, fun htext => ?_⟩
    rcases hg.texts_cases h hopen htext with heq | hown | hmem
    · exact hblock' (hg.link_eq hb'' heq).symm
    · exact hown' hown
    · exact hno hmem

namespace TextEntries

variable {env : Env} {s₀ s s' : Session} {list list' : ChkPtr} {d d' : List ChkPtr}
variable {text : ChkPtr -> List Byte} {entries entries' : List TextEntry}

theorem step (h : TextEntries s entries text) (hb : StrBlocks s₀ s list d text)
    (hopen : Open env s) (hopen' : Open env s') (hstep : StrBlocks.Step s₀ s d d' s' list')
    (hsub : forall e, e ∈ entries' -> e ∈ entries ∧ e.link ∈ d') :
    TextEntries s' entries' text := by
  refine ⟨fun e he => h.text e (hsub e he).1, fun e he => ?_⟩
  rcases hsub e he with ⟨hmem, hlink⟩
  rcases h.live e hmem with ⟨b, hb', hptr⟩
  have hlink' : StrNode.link b.ptr ∈ d' := hptr.symm ▸ hlink
  exact ⟨b, (hstep.node hb hopen hopen' (Or.inl hb') hlink').2.1, hptr⟩

end TextEntries

end ChunkMem
