import ChunkMem.Structures.Dictionary
import ChunkMem.Structures.StringsInStore
import ChunkMem.Structures.StrNode

/-!
# The blocks of nodes with texts

A hash list of nodes with texts takes blocks for the nodes, for the strings that do not fit
into them and for the heads of its lists.
-/

namespace ChunkMem

open Foundation

/-- The block is that of a node or of the string of a node; `d` are the links of the nodes. -/
def Session.Texts (s : Session) (d : List ChkPtr) (q : ChkPtr) : Prop :=
  StrNode.link q ∈ d ∨ exists n, n ∈ s.live ∧ StrNode.link n.ptr ∈ d ∧
    (s.world.str n.ptr).owned = some q

/-- The nodes with links `d` show texts, each string has its block for itself, and every block
is one of `s₀`, the block of the heads, or belongs to a node. -/
structure StrBlocks (s₀ s : Session) (list : ChkPtr) (d : List ChkPtr)
    (text : ChkPtr -> List Byte) : Prop where
  nodes : StrNodes s (fun p => p ∈ d) text
  owner : forall b c q, b ∈ s.live -> c ∈ s.live -> StrNode.link b.ptr ∈ d ->
    StrNode.link c.ptr ∈ d -> (s.world.str b.ptr).owned = some q ->
    (s.world.str c.ptr).owned = some q -> b.ptr = c.ptr
  table : forall b, b ∈ s.live -> b.ptr = list -> ¬s.Texts d b.ptr
  accounted : forall b, b ∈ s.live -> b ∈ s₀.live ∨ b.ptr = list ∨ s.Texts d b.ptr
  others : forall b, b ∈ s₀.live -> b ∈ s.live ∧ World.KeepsBlock s₀.world s.world b.ptr ∧
    b.ptr ≠ list ∧ ¬s.Texts d b.ptr

theorem Open.link_inj {env : Env} {s : Session} (h : Open env s) {b c : Live}
    (hb : b ∈ s.live) (hc : c ∈ s.live) (heq : StrNode.link b.ptr = StrNode.link c.ptr) :
    b.ptr = c.ptr := by
  have hno := congrArg ChkPtr.chkNo heq
  have hoff := congrArg ChkPtr.offset heq
  change b.ptr.chkNo = c.ptr.chkNo at hno
  change b.ptr.offset + 2 = c.ptr.offset + 2 at hoff
  have hbpos := h.size_pos hb
  have hcpos := h.size_pos hc
  exact h.ptr_eq hc hb (k := c.ptr.chkNo) (j := 32 * c.ptr.offset)
    ⟨rfl, by omega, by omega⟩ ⟨hno.symm, by omega, by omega⟩

namespace StrBlocks

variable {env : Env} {s₀ s s' : Session} {list list' : ChkPtr} {d d' : List ChkPtr}
variable {text : ChkPtr -> List Byte}

theorem start (hlist : forall b, b ∈ s.live -> b.ptr ≠ list) :
    StrBlocks s s list [] text := by
  have hnone : forall q, ¬s.Texts [] q := by
    rintro q (hq | ⟨n, -, hq, -⟩)
    · cases hq
    · cases hq
  refine ⟨⟨fun p hp => ?_, fun b _ hp => ?_, fun p hp => ?_, fun b c _ _ hp => ?_⟩,
    fun b c q _ _ hp => ?_, fun b _ _ => hnone b.ptr, fun b hb => Or.inl hb,
    fun b hb => ⟨hb, fun _ _ => rfl, hlist b hb, hnone b.ptr⟩⟩
  all_goals cases hp

theorem node_block (h : StrBlocks s₀ s list d text) {p : ChkPtr} (hp : p ∈ d) :
    exists b, b ∈ s.live ∧ p = StrNode.link b.ptr ∧ b.Has p ∧ b.ptr ≠ list := by
  rcases h.nodes.block p hp with ⟨b, hb, rfl, hsize⟩
  refine ⟨b, hb, rfl, ⟨rfl, rfl, ?_, ?_⟩, fun heq => h.table b hb heq (Or.inl hp)⟩
  · exact Nat.le_add_right _ _
  · change b.ptr.offset + 2 < _
    omega

/-- The bits of a block that stay but for links stay in the string of a node. -/
theorem same_str (h : StrBlocks s₀ s list d text) (hopen : Open env s) {b : Live}
    (hb : b ∈ s.live) (hkept : World.KeepsBut s.world s'.world [b] fun p => p ∈ d) :
    ChkStr.Same (s.world.str b.ptr) (s'.world.str b.ptr) := by
  have hpos := hopen.size_pos hb
  intro j hj
  change s'.world.target b.ptr j = s.world.target b.ptr j
  unfold World.target
  rw [Bits.drop_apply, Bits.drop_apply]
  refine hkept b List.mem_cons_self _ (by omega) (by omega) fun q hq hword => ?_
  have hlink := h.nodes.word_block hopen hq hb (by omega) (by omega) hword
  have hlo := hword.2.1
  have hoff : q.offset = b.ptr.offset + 2 := hlink ▸ rfl
  omega

theorem same_block (h : StrBlocks s₀ s list d text) (hopen : Open env s) {b : Live}
    (hb : b ∈ s.live) (hno : StrNode.link b.ptr ∉ d)
    (hkept : World.KeepsBut s.world s'.world [b] fun p => p ∈ d) :
    World.KeepsBlock s.world s'.world b.ptr := by
  intro j hj
  unfold World.target
  rw [Bits.drop_apply, Bits.drop_apply]
  refine hkept b List.mem_cons_self _ (by omega) (by omega) fun q hq hword => ?_
  exact hno (h.nodes.word_block hopen hq hb (by omega) (by omega) hword ▸ hq)

/-- What a step keeps of the blocks: those of `s₀` and of the nodes that are left stay, apart
from the links, and besides them there is at most the block of the heads. -/
structure Step (s₀ s : Session) (d d' : List ChkPtr) (s' : Session) (list' : ChkPtr) :
    Prop where
  sub : forall p, p ∈ d' -> p ∈ d
  old : forall b, b ∈ s.live -> b ∈ s₀.live ∨ s.Texts d' b.ptr -> b ∈ s'.live ∧ b.ptr ≠ list' ∧
    World.KeepsBut s.world s'.world [b] fun p => p ∈ d
  new : forall b, b ∈ s'.live -> b.ptr = list' ∨ b ∈ s.live ∧ (b ∈ s₀.live ∨ s.Texts d' b.ptr)

theorem Step.node (hstep : Step s₀ s d d' s' list') (h : StrBlocks s₀ s list d text)
    (hopen : Open env s) (hopen' : Open env s') {n : Live} (hn : n ∈ s.live ∨ n ∈ s'.live)
    (hlink : StrNode.link n.ptr ∈ d') : n ∈ s.live ∧ n ∈ s'.live ∧ n.ptr ≠ list' ∧
      ChkStr.Same (s.world.str n.ptr) (s'.world.str n.ptr) := by
  have hmem : n ∈ s.live := by
    rcases hn with hn | hn
    · exact hn
    · rcases hstep.new n hn with hptr | ⟨hn', -⟩
      · rcases h.node_block (hstep.sub _ hlink) with ⟨b, hb, heq, -, -⟩
        rcases hstep.old b hb (Or.inr (Or.inl (heq ▸ hlink))) with ⟨hb', hne, -⟩
        exact absurd ((hopen'.link_inj hb' hn heq.symm).trans hptr) hne
      · exact hn'
  rcases hstep.old n hmem (Or.inr (Or.inl hlink)) with ⟨hn', hne, hkept⟩
  exact ⟨hmem, hn', hne, h.same_str hopen hmem hkept⟩

theorem Step.texts (hstep : Step s₀ s d d' s' list') (h : StrBlocks s₀ s list d text)
    (hopen : Open env s) (hopen' : Open env s') (q : ChkPtr) :
    s'.Texts d' q <-> s.Texts d' q := by
  constructor
  · rintro (hq | ⟨n, hn, hlink, hown⟩)
    · exact Or.inl hq
    · rcases hstep.node h hopen hopen' (Or.inr hn) hlink with ⟨hmem, -, -, hsame⟩
      exact Or.inr ⟨n, hmem, hlink, hsame.owned_eq.symm.trans hown⟩
  · rintro (hq | ⟨n, hn, hlink, hown⟩)
    · exact Or.inl hq
    · rcases hstep.node h hopen hopen' (Or.inl hn) hlink with ⟨-, hmem, -, hsame⟩
      exact Or.inr ⟨n, hmem, hlink, hsame.owned_eq.trans hown⟩

theorem Step.keeps (hstep : Step s₀ s d d' s' list') (h : StrBlocks s₀ s list d text)
    (hopen : Open env s) (hopen' : Open env s') : StrBlocks s₀ s' list' d' text := by
  have hnode := fun {n : Live} => hstep.node h hopen hopen' (n := n)
  have htexts := hstep.texts h hopen hopen'
  refine ⟨⟨?_, ?_, fun p hp => h.nodes.nulFree p (hstep.sub p hp), ?_⟩, ?_, ?_, ?_, ?_⟩
  · intro p hp
    rcases h.nodes.block p (hstep.sub p hp) with ⟨b, hb, rfl, hsize⟩
    exact ⟨b, (hnode (Or.inl hb) hp).2.1, rfl, hsize⟩
  · intro b hb hlink
    rcases hnode (Or.inr hb) hlink with ⟨hb', -, -, hsame⟩
    have hlink' := hstep.sub _ hlink
    refine hsame.shows ((h.nodes.shows b hb' hlink').kept fun c hc hown => ?_)
    have hno : StrNode.link c.ptr ∉ d := fun hcon => h.nodes.apart b c hb' hc hlink' hcon hown
    rcases hstep.old c hc (Or.inr (Or.inr ⟨b, hb', hlink, hown⟩)) with ⟨hc', -, hkept⟩
    exact ⟨hc', h.same_block hopen hc hno hkept⟩
  · intro b c hb hc hlink hlink' hown
    rcases hnode (Or.inr hb) hlink with ⟨hb', -, -, hsame⟩
    rcases hnode (Or.inr hc) hlink' with ⟨hc', -, -, -⟩
    exact h.nodes.apart b c hb' hc' (hstep.sub _ hlink) (hstep.sub _ hlink')
      (hsame.owned_eq.symm.trans hown)
  · intro b c q hb hc hlink hlink' hown hown'
    rcases hnode (Or.inr hb) hlink with ⟨hb', -, -, hsame⟩
    rcases hnode (Or.inr hc) hlink' with ⟨hc', -, -, hsame'⟩
    exact h.owner b c q hb' hc' (hstep.sub _ hlink) (hstep.sub _ hlink')
      (hsame.owned_eq.symm.trans hown) (hsame'.owned_eq.symm.trans hown')
  · intro b hb hptr hcon
    rcases hcon with hlink | ⟨n, hn, hlink, hown⟩
    · exact (hnode (Or.inr hb) hlink).2.2.1 hptr
    · rcases hnode (Or.inr hn) hlink with ⟨hn', -, -, hsame⟩
      have hown' := hsame.owned_eq.symm.trans hown
      rcases (h.nodes.shows n hn' (hstep.sub _ hlink)).owned_live hown' with ⟨c, hc, heq, -⟩
      rw [← heq] at hown' hptr
      exact (hstep.old c hc (Or.inr (Or.inr ⟨n, hn', hlink, hown'⟩))).2.1 hptr
  · intro b hb
    rcases hstep.new b hb with hptr | ⟨-, hmem | htext⟩
    · exact Or.inr (Or.inl hptr)
    · exact Or.inl hmem
    · exact Or.inr (Or.inr ((htexts b.ptr).mpr htext))
  · intro b hb
    rcases h.others b hb with ⟨hb', hbits, hne, hno⟩
    rcases hstep.old b hb' (Or.inl hb) with ⟨hb'', hne', hkept⟩
    have hsame := h.same_block hopen hb' (fun hlink => hno (Or.inl hlink)) hkept
    refine ⟨hb'', fun j hj => (hsame j hj).trans (hbits j hj), hne', fun hcon => hno ?_⟩
    rcases (htexts b.ptr).mp hcon with hlink | ⟨n, hn, hlink, hown⟩
    · exact Or.inl (hstep.sub _ hlink)
    · exact Or.inr ⟨n, hn, hstep.sub _ hlink, hown⟩

theorem relinked_step {st st' : HashState} (h : StrBlocks s₀ st.session st.list d text)
    {hash : ChkPtr -> Nat} {V : ChkPtr -> Prop} {chains : Nat -> List ChkPtr}
    (hopen : Open env st.session) (hrel : HashState.Relinked env st hash V chains st')
    (hV : forall q, V q -> q ∈ d) : Step s₀ st.session d d st'.session st'.list := by
  have hne : forall b, b ∈ st.session.live -> b.ptr ≠ st.list -> b.ptr ≠ st'.list := by
    intro b hb hne heq
    rcases hrel.list with hsame | hzero
    · exact hne (heq.trans hsame)
    · have hpos := hopen.size_pos hb
      rw [heq, hzero] at hpos
      exact Nat.lt_irrefl 0 hpos
  have hfree : forall b, b ∈ s₀.live ∨ st.session.Texts d b.ptr -> b ∈ st.session.live ->
      b.ptr ≠ st.list := by
    rintro b (hb | hb) hmem
    · exact (h.others b hb).2.2.1
    · exact fun heq => h.table b hmem heq hb
  refine ⟨fun _ hp => hp, fun b hb hor => ?_, fun b hb => ?_⟩
  · refine ⟨hrel.live ▸ hb, hne b hb (hfree b hor hb), ?_⟩
    refine (hrel.keeps [b] fun l hl => ?_).mono hV
    rw [List.mem_singleton.mp hl]
    exact ⟨hb, hfree b hor hb⟩
  · rw [hrel.live] at hb
    rcases h.accounted b hb with hmem | hptr | htext
    · exact Or.inr ⟨hb, Or.inl hmem⟩
    · rcases hrel.list with hsame | hzero
      · exact Or.inl (hptr.trans hsame.symm)
      · have hone := hrel.size
        unfold ChkHashSList.bucketSize chkSize at hone
        have hpos := hopen.size_pos hb
        rw [hptr] at hpos
        split at hone <;> split at hone <;> omega
    · exact Or.inr ⟨hb, Or.inr htext⟩

theorem resized_step {st st' : HashState} (h : StrBlocks s₀ st.session st.list d text)
    {hash : ChkPtr -> Nat} {chains chains' : Nat -> List ChkPtr} {newSize : Nat}
    (hres : HashState.Resized env st hash chains newSize chains' st')
    (hmem : forall q, q ∈ st.members chains -> q ∈ d) :
    Step s₀ st.session d d st'.session st'.list := by
  refine ⟨fun _ hp => hp, fun b hb hor => ?_, fun b hb => ?_⟩
  · have hne : b.ptr ≠ st.list := by
      rcases hor with hb₀ | htext
      · exact (h.others b hb₀).2.2.1
      · exact fun heq => h.table b hb heq htext
    refine ⟨(hres.live b).mpr (Or.inl ⟨hb, hne⟩), hres.fresh b hb, ?_⟩
    refine (hres.keeps [b] fun l hl => ?_).mono hmem
    rw [List.mem_singleton.mp hl]
    exact ⟨hb, hne⟩
  · rcases (hres.live b).mp hb with ⟨hb', hne⟩ | ⟨-, rfl⟩
    · exact Or.inr ⟨hb', (h.accounted b hb').imp_right fun hor => hor.resolve_left hne⟩
    · exact Or.inl rfl

/-- What keeps all blocks of `s₀`, of the nodes that are left and of the heads. -/
theorem kept_step (h : StrBlocks s₀ s list d text) (hsub : forall p, p ∈ d' -> p ∈ d)
    (hold : forall b, b ∈ s.live -> b ∈ s₀.live ∨ s.Texts d' b.ptr ->
      b ∈ s'.live ∧ World.KeepsBlock s.world s'.world b.ptr)
    (hnew : forall b, b ∈ s'.live -> b ∈ s.live ∧ (s.Texts d b.ptr -> s.Texts d' b.ptr)) :
    Step s₀ s d d' s' list := by
  refine ⟨hsub, fun b hb hor => ?_, fun b hb => ?_⟩
  · rcases hold b hb hor with ⟨hb', hkept⟩
    refine ⟨hb', ?_, World.KeepsBut.of_keepsBlock fun l hl => List.mem_singleton.mp hl ▸ hkept⟩
    rcases hor with hb₀ | htext
    · exact (h.others b hb₀).2.2.1
    · refine fun heq => h.table b hb heq ?_
      rcases htext with hlink | ⟨n, hn, hlink, hown⟩
      · exact Or.inl (hsub _ hlink)
      · exact Or.inr ⟨n, hn, hsub _ hlink, hown⟩
  · rcases hnew b hb with ⟨hb', htext⟩
    rcases h.accounted b hb' with hb₀ | hptr | hor
    · exact Or.inr ⟨hb', Or.inl hb₀⟩
    · exact Or.inl hptr
    · exact Or.inr ⟨hb', Or.inr (htext hor)⟩

end StrBlocks

namespace HashState

variable {env : Env} {st : HashState} {hash hash' : ChkPtr -> Nat}
variable {chains : Nat -> List ChkPtr}

/-- The hash list stays when the blocks of its nodes and of its heads do. -/
theorem Holds.carried (h : st.Holds env hash chains) {s' : Session} (hopen' : Open env s')
    (hkept : forall b, b ∈ st.session.live ->
      b.ptr = st.list ∨ (exists p, p ∈ st.members chains ∧ b.Has p) ->
      b ∈ s'.live ∧ World.KeepsBlock st.session.world s'.world b.ptr) :
    Holds env { st with session := s' } hash chains := by
  have hword : forall b p, b ∈ st.session.live -> b.Has p ->
      (b.ptr = st.list ∨ exists p, p ∈ st.members chains ∧ b.Has p) ->
      s'.world.word p = st.session.world.word p := by
    intro b p hb hhas hor
    have hsame : World.KeepsBut st.session.world s'.world [b] fun _ => False :=
      World.KeepsBut.of_keepsBlock fun l hl => List.mem_singleton.mp hl ▸ (hkept b hb hor).2
    exact hsame.word_eq ⟨b, List.mem_cons_self, hhas⟩ fun _ hf => hf.elim
  refine ⟨hopen', h.fits, ?_, ?_, ?_, h.hashed, h.nodup⟩
  · refine h.array.imp_right ?_
    rintro ⟨b, hb, hptr⟩
    exact ⟨b, (hkept b hb (Or.inl hptr)).1, hptr⟩
  · intro i hi
    have hhead : HashState.next { st with session := s' } (st.bucket i) =
        st.next (st.bucket i) := by
      by_cases hone : ChkHashSList.bucketSize st.list = 1
      · have hcell : st.bucket i = .list := if_pos hone
        rw [hcell]
        rfl
      · rcases h.array.bucket_has hone hi with ⟨b, q, hb, hptr, hcell, hhas⟩
        rw [hcell]
        exact hword b q hb hhas (Or.inl hptr)
    have hbucket : HashState.bucket { st with session := s' } i = st.bucket i := rfl
    rw [hbucket, hhead]
    refine (h.runs i hi).congr fun p hp => ?_
    have hmem : p ∈ st.members chains := mem_members.mpr ⟨i, hi, hp⟩
    rcases h.spot p hmem with ⟨b, hb, hhas, -⟩
    exact hword b p hb hhas (Or.inr ⟨p, hmem, hhas⟩)
  · intro p hp
    rcases h.spot p hp with ⟨b, hb, hhas, hne⟩
    exact ⟨b, (hkept b hb (Or.inr ⟨p, hp, hhas⟩)).1, hhas, hne⟩

theorem Holds.rehashed (h : st.Holds env hash chains)
    (heq : forall p, p ∈ st.members chains -> hash' p = hash p) :
    st.Holds env hash' chains := by
  refine ⟨h.isOpen, h.fits, h.array, h.runs, h.spot, fun i hi p hp => ?_, h.nodup⟩
  rw [heq p (mem_members.mpr ⟨i, hi, hp⟩)]
  exact h.hashed i hi p hp

end HashState

end ChunkMem
