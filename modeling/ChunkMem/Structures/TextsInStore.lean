import ChunkMem.Structures.TextSteps
import ChunkMem.Structures.StringsInStore

/-!
# Collections of texts in the store

The area of a collection of texts are the blocks of its nodes, of their strings and of the
heads of its lists.
-/

namespace ChunkMem

open Foundation

def Session.outside (s : Session) (blocks : List ChkPtr) : Session :=
  ⟨s.world, s.live.filter fun b => decide (b.ptr ∉ blocks)⟩

theorem Session.mem_outside {s : Session} {blocks : List ChkPtr} {b : Live} :
    b ∈ (s.outside blocks).live <-> b ∈ s.live ∧ b.ptr ∉ blocks := by
  unfold Session.outside
  rw [List.mem_filter, decide_eq_true_iff]

/-- The variables of a hash list of texts, the nodes in it, and the blocks it has. -/
structure TextData where
  list : ChkPtr
  single : ChkPtr
  entries : List TextEntry
  blocks : List ChkPtr

namespace TextData

def state (x : TextData) (s : Session) : HashState := ⟨s, x.list, x.single⟩

def area (x : TextData) : Area := fun k j => exists q, q ∈ x.blocks ∧ q.area k j

/-- The collection after an operation: it has what is in use then and was not in use by others
before. -/
def after (x : TextData) (s : Session) (st' : HashState) (entries : List TextEntry) : TextData :=
  ⟨st'.list, st'.single, entries, (st'.session.live.map Live.ptr).filter fun q =>
    decide (q ∉ (s.outside x.blocks).live.map Live.ptr)⟩

theorem mem_after {x : TextData} {s : Session} {st' : HashState} {entries : List TextEntry}
    {q : ChkPtr} : q ∈ (x.after s st' entries).blocks <->
      (exists b, b ∈ st'.session.live ∧ b.ptr = q) ∧
        forall b, b ∈ (s.outside x.blocks).live -> b.ptr ≠ q := by
  unfold after
  rw [List.mem_filter, decide_eq_true_iff, List.mem_map, List.mem_map]
  refine and_congr_right fun _ => ?_
  constructor
  · exact fun hno b hb heq => hno ⟨b, hb, heq⟩
  · rintro hno ⟨b, hb, heq⟩
    exact hno b hb heq

end TextData

/-- The collection is in order beside the blocks it does not have. -/
structure TextsShown (env : Env) (s : Session) (x : TextData) : Prop where
  run : TextInv.Run env (s.outside x.blocks) (x.state s) x.entries
  live : forall q, q ∈ x.blocks -> exists b, b ∈ s.live ∧ b.ptr = q

theorem TextInv.rebase {env : Env} {s₀ : Session} {st : HashState} {d : List ChkPtr}
    {text : ChkPtr -> List Byte} (h : TextInv env s₀ st d text) {live : List Live}
    (hlive : forall b, b ∈ live <-> b ∈ s₀.live) :
    TextInv env ⟨st.session.world, live⟩ st d text := by
  refine ⟨h.good, h.holds, h.blocks.nodes, h.blocks.owner, h.blocks.table, fun b hb => ?_,
    fun b hb => ?_⟩
  · exact (h.blocks.accounted b hb).imp_left (hlive b).mpr
  · rcases h.blocks.others b ((hlive b).mp hb) with ⟨hb', -, hne, hno⟩
    exact ⟨hb', fun _ _ => rfl, hne, hno⟩

namespace StrBlocks

variable {env : Env} {s s' : Session} {list : ChkPtr} {d : List ChkPtr}
variable {text : ChkPtr -> List Byte} {blocks : List ChkPtr}

theorem mem_own (h : StrBlocks (s.outside blocks) s list d text) {b : Live}
    (hb : b ∈ s.live) : b.ptr ∈ blocks <-> b.ptr = list ∨ s.Texts d b.ptr := by
  constructor
  · intro hmem
    refine (h.accounted b hb).resolve_left fun hout => ?_
    exact (Session.mem_outside.mp hout).2 hmem
  · intro hor
    by_contra hout
    rcases h.others b (Session.mem_outside.mpr ⟨hb, hout⟩) with ⟨-, -, hne, hno⟩
    exact hor.elim hne hno

theorem carried_node (h : StrBlocks (s.outside blocks) s list d text) (hopen : Open env s)
    (hopen' : Open env s')
    (hkept : forall b, b ∈ s.live -> b.ptr ∈ blocks ->
      b ∈ s'.live ∧ World.KeepsBlock s.world s'.world b.ptr) {n : Live}
    (hn : n ∈ s.live ∨ n ∈ s'.live) (hlink : StrNode.link n.ptr ∈ d) :
    n.ptr ∈ blocks ∧ (exists b, b ∈ s.live ∧ b ∈ s'.live ∧ b.ptr = n.ptr) ∧
      ChkStr.Same (s.world.str n.ptr) (s'.world.str n.ptr) := by
  rcases h.node_block hlink with ⟨b, hb, heq, -, -⟩
  have hmem := (h.mem_own hb).mpr (Or.inr (Or.inl (heq ▸ hlink)))
  rcases hkept b hb hmem with ⟨hb', hsame⟩
  have hptr : b.ptr = n.ptr := by
    rcases hn with hn | hn
    · exact hopen.link_inj hb hn heq.symm
    · exact hopen'.link_inj hb' hn heq.symm
  rw [← hptr]
  exact ⟨hmem, ⟨b, hb, hb', rfl⟩, hsame.same (hopen.size_pos hb)⟩

theorem carried_texts (h : StrBlocks (s.outside blocks) s list d text) (hopen : Open env s)
    (hopen' : Open env s')
    (hkept : forall b, b ∈ s.live -> b.ptr ∈ blocks ->
      b ∈ s'.live ∧ World.KeepsBlock s.world s'.world b.ptr) (q : ChkPtr) :
    s'.Texts d q <-> s.Texts d q := by
  have hnode := fun {n : Live} => h.carried_node hopen hopen' hkept (n := n)
  refine or_congr_right ?_
  constructor
  · rintro ⟨n, hn, hlink, hown⟩
    rcases hnode (Or.inr hn) hlink with ⟨-, ⟨b, hb, -, hptr⟩, hsame⟩
    rw [← hptr] at hlink hown hsame
    exact ⟨b, hb, hlink, hsame.owned_eq.symm.trans hown⟩
  · rintro ⟨n, hn, hlink, hown⟩
    rcases hnode (Or.inl hn) hlink with ⟨-, ⟨b, -, hb', hptr⟩, hsame⟩
    rw [← hptr] at hlink hown hsame
    exact ⟨b, hb', hlink, hsame.owned_eq.trans hown⟩

/-- The hash list stays when its blocks do, whatever becomes of the others. -/
theorem carried (h : StrBlocks (s.outside blocks) s list d text) (hopen : Open env s)
    (hopen' : Open env s') (hlist : list.size = 0 ∨ exists b, b ∈ s.live ∧ b.ptr = list)
    (hhas : forall q, q ∈ blocks -> exists b, b ∈ s.live ∧ b.ptr = q)
    (hkept : forall b, b ∈ s.live -> b.ptr ∈ blocks ->
      b ∈ s'.live ∧ World.KeepsBlock s.world s'.world b.ptr) :
    StrBlocks (s'.outside blocks) s' list d text := by
  have hnode := fun {n : Live} => h.carried_node hopen hopen' hkept (n := n)
  have htexts := h.carried_texts hopen hopen' hkept
  -- a block in use afterwards that is of the list was in use before
  have hown : forall b, b ∈ s'.live -> b.ptr = list ∨ s'.Texts d b.ptr -> b.ptr ∈ blocks := by
    intro b hb hor
    rcases hor with hptr | htext
    · rcases hlist with hzero | ⟨c, hc, hcptr⟩
      · have hpos := hopen'.size_pos hb
        rw [hptr, hzero] at hpos
        exact absurd hpos (Nat.lt_irrefl 0)
      · rw [hptr, ← hcptr]
        exact (h.mem_own hc).mpr (Or.inl hcptr)
    · rcases (htexts b.ptr).mp htext with hlink | ⟨n, hn, hlink, hown⟩
      · exact (hnode (Or.inr hb) hlink).1
      · rcases (h.nodes.shows n hn hlink).owned_live hown with ⟨c, hc, hcptr, -⟩
        rw [← hcptr]
        exact (h.mem_own hc).mpr (Or.inr (Or.inr ⟨n, hn, hlink, hcptr ▸ hown⟩))
  have hstr : forall b, b ∈ s'.live -> StrNode.link b.ptr ∈ d -> exists c, c ∈ s.live ∧
      c.ptr = b.ptr ∧ ChkStr.Same (s.world.str b.ptr) (s'.world.str b.ptr) := by
    intro b hb hlink
    rcases hnode (Or.inr hb) hlink with ⟨-, ⟨c, hc, -, hptr⟩, hsame⟩
    exact ⟨c, hc, hptr, hsame⟩
  refine ⟨⟨?_, ?_, h.nodes.nulFree, ?_⟩, ?_, ?_, ?_, ?_⟩
  · intro p hp
    rcases h.nodes.block p hp with ⟨b, hb, rfl, hsize⟩
    have hmem := (h.mem_own hb).mpr (Or.inr (Or.inl hp))
    exact ⟨b, (hkept b hb hmem).1, rfl, hsize⟩
  · intro b hb hlink
    rcases hstr b hb hlink with ⟨c, hc, hptr, hsame⟩
    rw [← hptr] at hlink hsame ⊢
    refine hsame.shows ((h.nodes.shows c hc hlink).kept fun a ha hown => ?_)
    exact hkept a ha ((h.mem_own ha).mpr (Or.inr (Or.inr ⟨c, hc, hlink, hown⟩)))
  · intro b c hb hc hlink hlink' hown
    rcases hstr b hb hlink with ⟨b₀, hb₀, hptr, hsame⟩
    rcases hstr c hc hlink' with ⟨c₀, hc₀, hptr', -⟩
    rw [← hptr] at hlink hsame hown
    rw [← hptr'] at hlink' hown
    exact h.nodes.apart b₀ c₀ hb₀ hc₀ hlink hlink' (hsame.owned_eq.symm.trans hown)
  · intro b c q hb hc hlink hlink' hown hown'
    rcases hstr b hb hlink with ⟨b₀, hb₀, hptr, hsame⟩
    rcases hstr c hc hlink' with ⟨c₀, hc₀, hptr', hsame'⟩
    rw [← hptr] at hlink hsame hown ⊢
    rw [← hptr'] at hlink' hsame' hown' ⊢
    exact h.owner b₀ c₀ q hb₀ hc₀ hlink hlink' (hsame.owned_eq.symm.trans hown)
      (hsame'.owned_eq.symm.trans hown')
  · intro b hb hptr htext
    rcases hhas b.ptr (hown b hb (Or.inl hptr)) with ⟨c, hc, hcptr⟩
    rw [← hcptr] at hptr htext
    exact h.table c hc hptr ((htexts c.ptr).mp htext)
  · intro b hb
    by_cases hmem : b.ptr ∈ blocks
    · rcases hhas b.ptr hmem with ⟨c, hc, hcptr⟩
      rw [← hcptr] at hmem ⊢
      exact Or.inr (((h.mem_own hc).mp hmem).imp_right (htexts c.ptr).mpr)
    · exact Or.inl (Session.mem_outside.mpr ⟨hb, hmem⟩)
  · intro b hb
    rcases Session.mem_outside.mp hb with ⟨hb', hout⟩
    exact ⟨hb', fun _ _ => rfl, fun hptr => hout (hown b hb' (Or.inl hptr)),
      fun htext => hout (hown b hb' (Or.inr htext))⟩

end StrBlocks

namespace TextsShown

variable {env : Env} {s s' : Session} {x : TextData}

theorem isOpen (h : TextsShown env s x) : Open env s := by
  rcases h.run with ⟨text, hinv, -⟩
  exact hinv.good.isOpen

theorem area_in (h : TextsShown env s x) : x.area.In s.live := by
  rintro k j ⟨q, hq, hcov⟩
  rcases h.live q hq with ⟨b, hb, rfl⟩
  exact ⟨b, hb, hcov⟩

theorem spared (h : TextsShown env s x) (hopen' : Open env s')
    (hspared : Spared env x.area s s') : TextsShown env s' x := by
  have hopen := h.isOpen
  have hkept : forall b, b ∈ s.live -> b.ptr ∈ x.blocks ->
      b ∈ s'.live ∧ World.KeepsBlock s.world s'.world b.ptr := by
    intro b hb hmem
    have hpos := hopen.size_pos hb
    have hcov : b.Covers b.ptr.chkNo (32 * b.ptr.offset) := ⟨rfl, by omega, by omega⟩
    refine ⟨hspared.blocks b hb ⟨_, _, ⟨b.ptr, hmem, hcov⟩, hcov⟩, ?_⟩
    refine World.keepsBlock_of_bits fun k j hkj => ?_
    exact hspared.chunkBits_eq hopen hopen'.1 h.area_in ⟨b.ptr, hmem, hkj⟩
  rcases h.run with ⟨text, hinv, hentries⟩
  rcases hinv.holds with ⟨chains, hst, hperm⟩
  have hblocks : StrBlocks (s.outside x.blocks) s x.list (x.entries.map TextEntry.link) text :=
    hinv.blocks
  have hst' := hst.carried hopen' fun b hb hor => hkept b hb ?_
  · refine ⟨⟨text, ⟨⟨hopen', hinv.good.list, hinv.good.single⟩, ⟨chains, hst', hperm⟩, ?_⟩,
      hentries.text, fun e he => ?_⟩, fun q hq => ?_⟩
    · exact hblocks.carried hopen hopen' hst.array h.live hkept
    · rcases hentries.live e he with ⟨b, hb, hptr⟩
      have hlink : StrNode.link b.ptr ∈ x.entries.map TextEntry.link := by
        rw [hptr]
        exact List.mem_map_of_mem he
      exact ⟨b, (hkept b hb ((hblocks.mem_own hb).mpr (Or.inr (Or.inl hlink)))).1, hptr⟩
    · rcases h.live q hq with ⟨b, hb, rfl⟩
      exact ⟨b, (hkept b hb hq).1, rfl⟩
  · refine (hblocks.mem_own hb).mpr (hor.imp_right ?_)
    rintro ⟨p, hp, hhas⟩
    rcases hblocks.node_block (hperm.mem_iff.mp hp) with ⟨c, hc, rfl, hhas', -⟩
    rw [hopen.block_of_spot hb hc hhas hhas']
    exact Or.inl (hperm.mem_iff.mp hp)

end TextsShown

def textResident (env : Env) : Resident (Session.store env) TextData where
  Inv := TextsShown env
  area := TextData.area
  within := fun h => h.area_in
  stable := fun _ hopen' h hspared => h.spared hopen' hspared

/-- What keeps the invariant of a run of the collection moves from collection to collection. -/
theorem TextsShown.moves {env : Env} {s : Session} {x : TextData} (h : TextsShown env s x)
    {st' : HashState} {entries : List TextEntry}
    (hrun : TextInv.Run env (s.outside x.blocks) st' entries) :
    (textResident env).Moves s x st'.session (x.after s st' entries) := by
  rcases hrun with ⟨text, hinv, hentries⟩
  have hopen := h.isOpen
  have hopen' := hinv.good.isOpen
  have hothers := hinv.blocks.others
  -- the blocks that the collection does not have are those of the others before
  have houtside : forall b, b ∈ (st'.session.outside (x.after s st' entries).blocks).live <->
      b ∈ (s.outside x.blocks).live := by
    intro b
    rw [Session.mem_outside, TextData.mem_after]
    constructor
    · rintro ⟨hb, hout⟩
      by_contra hno
      refine hout ⟨⟨b, hb, rfl⟩, fun c hc heq => ?_⟩
      rcases hothers c hc with ⟨-, -, hne, htext⟩
      rw [heq] at hne htext
      exact (hinv.blocks.accounted b hb).elim hno fun hor => hor.elim hne htext
    · intro hb
      exact ⟨(hothers b hb).1, fun hmem => hmem.2 b hb rfl⟩
  refine ⟨hopen', ⟨⟨text, hinv.rebase houtside, hentries⟩,
    fun q hq => (TextData.mem_after.mp hq).1⟩, fun V hin hapart => ?_⟩
  have hdis := Area.disjoint_iff.mp hapart
  -- a block with bits of another area is not of the collection
  have hout : forall l, l ∈ s.live -> V.Touches l -> l ∈ (s.outside x.blocks).live := by
    rintro l hl ⟨k, j, hkj, hcov⟩
    exact Session.mem_outside.mpr ⟨hl, fun hmem => hdis k j hkj ⟨l.ptr, hmem, hcov⟩⟩
  constructor
  · refine Spared.of_open hopen hopen' hin (fun l hl ht => (hothers l (hout l hl ht)).1) ?_
    intro k j hkj
    rcases hin k j hkj with ⟨l, hl, hcov⟩
    exact World.KeepsBlock.bits_eq (hothers l (hout l hl ⟨k, j, hkj, hcov⟩)).2.1 hcov
  · refine Area.disjoint_iff.mpr fun k j hkj => ?_
    rintro ⟨q, hq, hcov'⟩
    rcases TextData.mem_after.mp hq with ⟨⟨b, hb, rfl⟩, hno⟩
    rcases hin k j hkj with ⟨l, hl, hcov⟩
    have hl' := hout l hl ⟨k, j, hkj, hcov⟩
    exact hno l hl' (hopen'.ptr_eq hb (hothers l hl').1 hcov' hcov)

end ChunkMem
