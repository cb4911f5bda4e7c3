import ChunkMem.Structures.TextNodes

/-!
# Adding and removing texts

What each operation on a hash list of texts keeps, and where it may stop.
-/

namespace ChunkMem

open Foundation

def TextInv.Run (env : Env) (s₀ : Session) (st : HashState) (entries : List TextEntry) : Prop :=
  exists text, TextInv env s₀ st (entries.map TextEntry.link) text ∧
    TextEntries st.session entries text

namespace TextInv

variable {env : Env} {s₀ : Session} {st st' : HashState} {d : List ChkPtr}
variable {text : ChkPtr -> List Byte} {count : Nat} {entries : List TextEntry}

theorem session_step (h : TextInv env s₀ st d text) {s' : Session} (hopen' : Open env s')
    (hkept : forall b, b ∈ st.session.live ->
      b ∈ s'.live ∧ World.KeepsBlock st.session.world s'.world b.ptr)
    (hnew : forall b, b ∈ s'.live -> b ∈ st.session.live) :
    TextInv env s₀ { st with session := s' } d text ∧
      StrBlocks.Step s₀ st.session d d s' st.list := by
  rcases h.holds with ⟨chains, hst, hperm⟩
  have hstep := h.blocks.kept_step (fun _ hp => hp) (fun b hb _ => hkept b hb)
    fun b hb => ⟨hnew b hb, fun ht => ht⟩
  have hgood : HashState.Good env { st with session := s' } :=
    ⟨hopen', h.good.list, h.good.single⟩
  have hst' := hst.carried hopen' fun b hb _ => hkept b hb
  exact ⟨h.stepped hgood ⟨chains, hst', hperm⟩ hstep, hstep⟩

theorem insert_step (h : TextInv env s₀ st d text) (hcount : 2 ^ 13 ≤ count) {s' : Session}
    {n : HeldNode} (hn : NodesInv env st.session s' [n]) (hsize : 2 ≤ n.block.size) :
    exists st', (do
        let node <- TextSet.hashed count n.block n.addr
        ChkHashSList.insert node.1 node.2) { st with session := s' } = .ok ((), st') ∧
      StrNode.link n.block ∉ d ∧ s'.live = st'.session.live ∧
      TextInv env s₀ st' (StrNode.link n.block :: d)
        (Function.update text (StrNode.link n.block) n.text) := by
  rcases h.holds with ⟨chains, hst, hperm⟩
  have hself : n ∈ [n] := List.mem_singleton_self n
  have hok := hn.ok n hself
  rcases hok.live with ⟨c, hc, hblock⟩
  rcases h.blocks.grow h.good.isOpen hn hsize hst.array with ⟨hnot, hblocks⟩
  have hmem : StrNode.link n.block ∉ st.members chains :=
    fun hcon => hnot (hperm.mem_iff.mp hcon)
  have hgood : HashState.Good env { st with session := s' } :=
    ⟨hn.isOpen, h.good.list, h.good.single⟩
  have hblocks' : StrBlocks s₀ (HashState.session { st with session := s' })
      (HashState.list { st with session := s' }) (StrNode.link n.block :: d)
      (Function.update text (StrNode.link n.block) n.text) := hblocks
  have hst' : HashState.Holds env { st with session := s' } (fun p => StrNode.hashText
      (Function.update text (StrNode.link n.block) n.text p)) chains := by
    refine (hst.carried hn.isOpen fun b hb _ => ?_).rehashed fun p hp => ?_
    · exact ⟨(hn.others b hb).1, (hn.others b hb).2.1⟩
    · have hne : p ≠ StrNode.link n.block := fun heq => hmem (heq ▸ hp)
      rw [Function.update_of_ne hne]
  rcases hblocks.node_block List.mem_cons_self with ⟨b, hb, -, hhas, hne⟩
  rcases hst'.insert_ok hgood ⟨b, hb, hhas, hne⟩ hmem with ⟨st', chains', hinsert, hrel, hperm'⟩
  have hhashed := hashed_ok hblocks' hn.isOpen hcount (b := c)
    (by rw [hblock]; exact List.mem_cons_self)
  rw [hblock] at hhashed
  have haddr : n.addr = World.addrOf s'.world n.block := hok.addr
  refine ⟨st', ?_, hnot, hrel.live.symm, ?_⟩
  · rw [haddr, Exec.bind_of_ok hhashed]
    exact hinsert
  · have hstep := hblocks'.relinked_step hn.isOpen hrel fun q hq => hq ▸ List.mem_cons_self
    exact ⟨hrel.good, ⟨chains', hrel.holds, hperm'.trans (hperm.cons _)⟩,
      hstep.keeps hblocks hn.isOpen hrel.good.isOpen⟩

theorem add_step (h : TextInv.Run env s₀ st entries) (hcount : 2 ^ 13 ≤ count)
    {buf : List Byte} (hbuf : NulFree buf) (hmax : buf.length < 2 ^ 31 - 16)
    {r : Option TextEntry} (hrun : TextSet.add env count buf st = .ok (r, st')) :
    TextInv.Run env s₀ st' (r.toList ++ entries) := by
  rcases h with ⟨text, hinv, hentries⟩
  have hopen := hinv.good.isOpen
  unfold TextSet.add at hrun
  rcases Exec.ok_of_bind hrun with ⟨made, st₁, hmade, hrest⟩
  rcases HashProg.of_run hmade with ⟨s₁, hcreate, rfl⟩
  have hreach : NodeReach env st.session s₁ (made.toList ++ []) := .create .start hcreate
  cases made with
  | none =>
      cases hrest
      have hn : NodesInv env st.session s₁ [] := hreach.inv hopen
      have hnew : forall b, b ∈ s₁.live -> b ∈ st.session.live := by
        intro b hb
        rcases hn.accounted b hb with hb' | ⟨k, hk, -⟩ | ⟨k, hk, -⟩
        · exact hb'
        · cases hk
        · cases hk
      rcases hinv.session_step hn.isOpen
        (fun b hb => ⟨(hn.others b hb).1, (hn.others b hb).2.1⟩) hnew with ⟨hinv', hstep⟩
      exact ⟨text, hinv', hentries.step hinv.blocks hopen hn.isOpen hstep
        fun e he => ⟨he, List.mem_map_of_mem he⟩⟩
  | some n =>
      rcases Exec.ok_of_bind hrest with ⟨r', st₂, hset, hrest⟩
      rcases HashProg.of_run hset with ⟨s₂, hset', rfl⟩
      have hnext : NodeReach env st.session s₂ ([] ++ n.after r' buf :: []) :=
        .setData hreach hbuf hmax hset'
      have hn : NodesInv env st.session s₂ [n.after r' buf] := hnext.inv hopen
      have hsize : 2 ≤ n.block.size := HeldNode.create_size hopen hcreate
      rcases hinv.insert_step hcount hn hsize with
        ⟨st₃, hinsert, hnot, hlive, hinv'⟩
      rcases Exec.ok_of_bind hrest with ⟨node, st₄, hnode, hrest⟩
      rcases Exec.ok_of_bind hrest with ⟨u, st₅, hins, hrest⟩
      cases hrest
      have hsame := (Exec.bind_of_ok hnode).symm.trans hinsert
      cases hins.symm.trans hsame
      refine ⟨_, hinv', fun e he => ?_, fun e he => ?_⟩
      · rcases List.mem_cons.mp he with rfl | he
        · exact Function.update_self _ _ _
        · have hne : e.link ≠ StrNode.link n.block :=
            fun heq => hnot (heq ▸ List.mem_map_of_mem he)
          exact (Function.update_of_ne hne _ _).trans (hentries.text e he)
      · rw [← hlive]
        rcases List.mem_cons.mp he with rfl | he
        · exact (hn.ok _ (List.mem_singleton_self _)).live
        · rcases hentries.live e he with ⟨b, hb, hptr⟩
          exact ⟨b, (hn.others b hb).1, hptr⟩

/-- A node by itself, beside the blocks that are neither its own nor that of its string. -/
theorem alone (hopen : Open env st.session) (h : StrBlocks s₀ st.session st.list d text)
    {b : Live} (hb : b ∈ st.session.live) (hlink : StrNode.link b.ptr ∈ d) {rest : List Live}
    (hmem : forall c, c ∈ rest <-> c ∈ st.session.live ∧ c.ptr ≠ b.ptr ∧
      (st.session.world.str b.ptr).owned ≠ some c.ptr) :
    NodesInv env ⟨st.session.world, rest⟩ st.session
      [⟨b.ptr, st.session.world.addrOf b.ptr, text (StrNode.link b.ptr)⟩] := by
  refine ⟨hopen, ?_, List.nodup_singleton _, ?_, ?_, ?_, ?_⟩
  · intro n hn
    rw [List.mem_singleton.mp hn]
    exact ⟨⟨b, hb, rfl⟩, rfl, h.nodes.shows b hb hlink, h.nodes.nulFree _ hlink⟩
  · intro n m hn hm
    rw [List.mem_singleton.mp hn, List.mem_singleton.mp hm]
    exact h.nodes.apart b b hb hb hlink hlink
  · intro n m p hn hm _ _
    rw [List.mem_singleton.mp hn, List.mem_singleton.mp hm]
  · intro c hc
    by_cases hptr : c.ptr = b.ptr
    · exact Or.inr (Or.inl ⟨_, List.mem_cons_self, hptr.symm⟩)
    · by_cases hown : (st.session.world.str b.ptr).owned = some c.ptr
      · exact Or.inr (Or.inr ⟨_, List.mem_cons_self, hown⟩)
      · exact Or.inl ((hmem c).mpr ⟨hc, hptr, hown⟩)
  · intro c hc
    rcases (hmem c).mp hc with ⟨hc', hptr, hown⟩
    refine ⟨hc', fun _ _ => rfl, fun n hn => ?_⟩
    rw [List.mem_singleton.mp hn]
    exact ⟨hptr.symm, hown⟩

/-- The blocks that are neither that of a node nor that of its string. -/
theorem exists_rest (s : Session) (b : Live) : exists rest : List Live, forall c,
    c ∈ rest <-> c ∈ s.live ∧ c.ptr ≠ b.ptr ∧ (s.world.str b.ptr).owned ≠ some c.ptr :=
  ⟨s.live.filter fun c => decide (c.ptr ≠ b.ptr ∧ (s.world.str b.ptr).owned ≠ some c.ptr),
    fun c => by rw [List.mem_filter, decide_eq_true_iff]⟩

theorem destroy_step {hash : ChkPtr -> Nat} {chains : Nat -> List ChkPtr} {d' : List ChkPtr}
    {b : Live} {s' : Session} (hgood : st.Good env) (hst : st.Holds env hash chains)
    (hperm : (st.members chains).Perm d') (h : StrBlocks s₀ st.session st.list d text)
    (hd : d.Perm (StrNode.link b.ptr :: d')) (hnodup : d.Nodup) (hb : b ∈ st.session.live)
    (hrun : HeldNode.destroy env ⟨b.ptr, st.session.world.addrOf b.ptr,
      text (StrNode.link b.ptr)⟩ st.session = .ok ((), s')) :
    HashState.Good env { st with session := s' } ∧
      HashState.Holds env { st with session := s' } hash chains ∧
      StrBlocks.Step s₀ st.session d d' s' st.list := by
  have hopen := hgood.isOpen
  have hlink : StrNode.link b.ptr ∈ d := hd.mem_iff.mpr List.mem_cons_self
  have hsub : forall p, p ∈ d' -> p ∈ d := fun p hp => hd.mem_iff.mpr (List.mem_cons_of_mem _ hp)
  have hgone : StrNode.link b.ptr ∉ d' := (List.nodup_cons.mp (hd.nodup_iff.mp hnodup)).1
  rcases exists_rest st.session b with ⟨rest, hmem⟩
  have hn := alone hopen h hb hlink hmem
  have hn' := hn.destroy_step hrun
  have hopen' := hn'.isOpen
  -- what is not of this node stays
  have hrest : forall c, c ∈ st.session.live ->
      ¬st.session.Texts d c.ptr ∨ st.session.Texts d' c.ptr ->
      c ∈ s'.live ∧ World.KeepsBlock st.session.world s'.world c.ptr := by
    intro c hc hor
    have hc' : c ∈ rest := by
      refine (hmem c).mpr ⟨hc, fun hptr => ?_, fun hown => ?_⟩
      · rcases hor with hno | hmem' | ⟨m, hm, hm', hown⟩
        · exact hno (Or.inl (hptr.symm ▸ hlink))
        · exact hgone (hptr ▸ hmem')
        · exact h.nodes.apart m b hm hb (hsub _ hm') hlink (hptr ▸ hown)
      · rcases hor with hno | hmem' | ⟨m, hm, hm', hown'⟩
        · exact hno (Or.inr ⟨b, hb, hlink, hown⟩)
        · exact h.nodes.apart b c hb hc hlink (hsub _ hmem') hown
        · exact hgone (h.owner m b _ hm hb (hsub _ hm') hlink hown' hown ▸ hm')
    exact ⟨(hn'.others c hc').1, (hn'.others c hc').2.1⟩
  refine ⟨⟨hopen', hgood.list, hgood.single⟩, hst.carried hopen' fun c hc hor => ?_, ?_⟩
  · rcases hor with hptr | ⟨p, hp, hhas⟩
    · exact hrest c hc (Or.inl (h.table c hc hptr))
    · have hp' := hperm.mem_iff.mp hp
      rcases h.node_block (hsub p hp') with ⟨m, hm, rfl, hhas', -⟩
      have hptr := hopen.block_of_spot hc hm hhas hhas'
      exact hrest c hc (Or.inr (Or.inl (hptr.symm ▸ hp')))
  · refine h.kept_step hsub (fun c hc hor => hrest c hc (hor.imp_left fun hc₀ => ?_))
      fun c hc => ?_
    · exact (h.others c hc₀).2.2.2
    · have hc' : c ∈ rest := by
        rcases hn'.accounted c hc with hc' | ⟨k, hk, -⟩ | ⟨k, hk, -⟩
        · exact hc'
        · cases hk
        · cases hk
      rcases (hmem c).mp hc' with ⟨hc'', hptr, hown⟩
      refine ⟨hc'', ?_⟩
      rintro (hin | ⟨m, hm, hin, hown'⟩)
      · rcases List.mem_cons.mp (hd.mem_iff.mp hin) with heq | hin'
        · exact absurd (hopen.link_inj hc'' hb heq) hptr
        · exact Or.inl hin'
      · rcases List.mem_cons.mp (hd.mem_iff.mp hin) with heq | hin'
        · rw [hopen.link_inj hm hb heq] at hown'
          exact absurd hown' hown
        · exact Or.inr ⟨m, hm, hin', hown'⟩

theorem erase_index {hash : ChkPtr -> Nat} {chains : Nat -> List ChkPtr} {p : ChkPtr} {fuel : Nat}
    (hst : st.Holds env hash chains) (h : st.Good env) (hmem : p ∈ st.members chains)
    (hn : (st.members chains).length < fuel) :
    exists st', ChkHashSList.erase (st.session.world.index.place p) (hash p) fuel st =
      .ok (0, st') ∧ st'.session.world.index = st.session.world.index := by
  have hi := HashState.slot_lt st (hash p)
  have hin := HashState.bucket_in hst.array hi
  have hsub := HashState.Holds.chain_sublist chains hi
  rcases (h.eraseFrom_ok (hst.runs _ hi) (hsub.nodup hst.nodup) (fun q hq => hst.node (hsub.mem hq))
    hin (fun q hq => hst.bucket_ne hi (hsub.mem hq)) rfl (hst.node hmem)
    (Nat.lt_of_le_of_lt hsub.length_le hn)).2 ((hst.mem_iff p).mp hmem) with ⟨st', hrun, hout⟩
  refine ⟨st', ?_, hout.step.index⟩
  unfold ChkHashSList.erase SlistPtr.erase
  rw [Exec.bind_of_ok (h.getList_ok hst.array _), Exec.bind_of_ok (h.next_ok hin)]
  exact hrun

/-- The hash list when the node of an entry is erased, before it is destroyed. -/
structure Erased (env : Env) (s₀ : Session) (st₁ : HashState) (d d' : List ChkPtr)
    (text : ChkPtr -> List Byte) (b : Live) : Prop where
  good : st₁.Good env
  holds : exists chains, st₁.Holds env (fun p => StrNode.hashText (text p)) chains ∧
    (st₁.members chains).Perm d'
  blocks : StrBlocks s₀ st₁.session st₁.list d text
  block : b ∈ st₁.session.live
  nodup : d.Nodup
  split : d.Perm (StrNode.link b.ptr :: d')

theorem remove_erases {l₁ l₂ : List TextEntry} {e : TextEntry} {fuel : Nat}
    (h : TextInv.Run env s₀ st (l₁ ++ e :: l₂)) (hcount : 2 ^ 13 ≤ count)
    (hfuel : (l₁ ++ e :: l₂).length < fuel) (hclean : HashCall.Clean st (.erase e.link)) :
    exists st₁ b text, Erased env s₀ st₁ ((l₁ ++ e :: l₂).map TextEntry.link)
        ((l₁ ++ l₂).map TextEntry.link) text b ∧
      TextEntries st₁.session (l₁ ++ e :: l₂) text ∧
      TextSet.remove env count fuel e st = (do
        HashProg.run (HeldNode.destroy env ⟨b.ptr, st₁.session.world.addrOf b.ptr,
          text (StrNode.link b.ptr)⟩)
        pure 0) st₁ := by
  rcases h with ⟨text, hinv, hentries⟩
  rcases hinv.holds with ⟨chains, hst, hperm⟩
  have hopen := hinv.good.isOpen
  have he : e ∈ l₁ ++ e :: l₂ := List.mem_append_right l₁ List.mem_cons_self
  have hlink : e.link ∈ (l₁ ++ e :: l₂).map TextEntry.link := List.mem_map_of_mem he
  have hmem : e.link ∈ st.members chains := hperm.mem_iff.mpr hlink
  have htext := hentries.text e he
  rcases hentries.live e he with ⟨b, hb, hblock⟩
  have helink : StrNode.link b.ptr = e.link := congrArg StrNode.link hblock
  have hdecode := hopen.chkPtr2addr_ok (hopen.chkNo_lt hb)
  have hhashed := hashed_ok hinv.blocks hopen hcount (b := b) (helink.symm ▸ hlink)
  rcases hinv.blocks.node_block hlink with ⟨b', hb', -, hhas, hne⟩
  rw [← List.length_map (f := TextEntry.link), ← hperm.length_eq] at hfuel
  have herase := hst.erase_ok hinv.good ⟨b', hb', hhas, hne⟩ hfuel
  rcases herase.2 hmem with ⟨st₁, hrun₁, hkept⟩
  rcases erase_index hst hinv.good hmem hfuel with ⟨st₁', hrun₁', hindex⟩
  cases hrun₁.symm.trans hrun₁'
  rcases hkept hclean with ⟨chains', hrel, hperm'⟩
  have hstep := hinv.blocks.relinked_step hopen hrel fun q hq => hperm.mem_iff.mp hq
  have haddr : st.session.world.addrOf b.ptr = st₁.session.world.addrOf b.ptr := by
    unfold World.addrOf
    rw [hindex]
  have hd : ((l₁ ++ e :: l₂).map TextEntry.link).Perm
      (StrNode.link b.ptr :: (l₁ ++ l₂).map TextEntry.link) := by
    rw [helink, List.map_append, List.map_append, List.map_cons]
    exact List.perm_middle
  have hperm₂ : (st₁.members chains').Perm ((l₁ ++ l₂).map TextEntry.link) := by
    refine (hperm'.trans ((hperm.trans hd).erase e.link)).trans ?_
    rw [helink, List.erase_cons_head]
  refine ⟨st₁, b, text, ⟨hrel.good, ⟨chains', hrel.holds, hperm₂⟩,
    hstep.keeps hinv.blocks hopen hrel.good.isOpen, hrel.live.symm ▸ hb,
    hperm.nodup_iff.mp hst.nodup, hd⟩, ?_, ?_⟩
  · exact hentries.step hinv.blocks hopen hrel.good.isOpen hstep
      fun e' he' => ⟨he', List.mem_map_of_mem he'⟩
  · unfold TextSet.remove
    rw [helink] at hhashed
    rw [← hblock, Exec.bind_of_ok (HashState.mem_ok hdecode), Exec.bind_of_ok hhashed,
      Exec.bind_of_ok hrun₁, haddr, helink, htext]

theorem remove_step {l₁ l₂ : List TextEntry} {e : TextEntry} {fuel : Nat} {r : Int}
    (h : TextInv.Run env s₀ st (l₁ ++ e :: l₂)) (hcount : 2 ^ 13 ≤ count)
    (hfuel : (l₁ ++ e :: l₂).length < fuel) (hclean : HashCall.Clean st (.erase e.link))
    (hrun : TextSet.remove env count fuel e st = .ok (r, st')) :
    TextInv.Run env s₀ st' (l₁ ++ l₂) := by
  rcases remove_erases h hcount hfuel hclean with ⟨st₁, b, text, her, hentries, hremove⟩
  rcases her.holds with ⟨chains, hst, hperm⟩
  rw [hremove] at hrun
  rcases Exec.ok_of_bind hrun with ⟨u, st₂, hdestroy, hdone⟩
  cases hdone
  rcases HashProg.of_run hdestroy with ⟨s₂, hdes, rfl⟩
  rcases destroy_step her.good hst hperm her.blocks her.split her.nodup her.block hdes with
    ⟨hgood₂, hst₂, hstep₂⟩
  refine ⟨text, ⟨hgood₂, ⟨chains, hst₂, hperm⟩,
    hstep₂.keeps her.blocks her.good.isOpen hgood₂.isOpen⟩, ?_⟩
  refine hentries.step her.blocks her.good.isOpen hgood₂.isOpen hstep₂ fun e' he' => ⟨?_, ?_⟩
  · exact (List.perm_middle.mem_iff).mpr (List.mem_cons_of_mem e he')
  · exact List.mem_map_of_mem he'

theorem remove_ensures {l₁ l₂ : List TextEntry} {e : TextEntry} {fuel : Nat}
    (h : TextInv.Run env s₀ st (l₁ ++ e :: l₂)) (hcount : 2 ^ 13 ≤ count)
    (hfuel : (l₁ ++ e :: l₂).length < fuel) (hclean : HashCall.Clean st (.erase e.link)) :
    Exec.Ensures (TextSet.remove env count fuel e st) (fun r _ => r = 0)
      (Content.PoolFault env.freeSize) := by
  rcases remove_erases h hcount hfuel hclean with ⟨st₁, b, text, her, -, hremove⟩
  rcases exists_rest st₁.session b with ⟨rest, hmem⟩
  have hlink : StrNode.link b.ptr ∈ (l₁ ++ e :: l₂).map TextEntry.link :=
    her.split.mem_iff.mpr List.mem_cons_self
  have hn := alone her.good.isOpen her.blocks her.block hlink hmem
  rw [hremove]
  exact (HashProg.run_ensures hn.destroy_ensures).bind fun _ _ _ => rfl

theorem add_ensures (h : TextInv.Run env s₀ st entries) (hcount : 2 ^ 13 ≤ count)
    {buf : List Byte} (hbuf : NulFree buf) (hmax : buf.length < 2 ^ 31 - 16) :
    Exec.Ensures (TextSet.add env count buf st) (fun _ _ => True) (Expected env) := by
  rcases h with ⟨text, hinv, hentries⟩
  have hopen := hinv.good.isOpen
  unfold TextSet.add
  refine (HashProg.run_ensures (HeldNode.create_ensures hopen)).run.bind fun made st₁ hpost => ?_
  rcases HashProg.of_run hpost.1 with ⟨s₁, hcreate, rfl⟩
  have hreach : NodeReach env st.session s₁ (made.toList ++ []) := .create .start hcreate
  cases made with
  | none => trivial
  | some n =>
      have hself : n ∈ [n] := List.mem_singleton_self n
      have hset : Exec.Ensures (ChkStr.setDataAt env n.addr buf s₁) (fun r _ => r = 0 ∨ r = -1)
          (Expected env) := (hreach.inv hopen).set_ensures hself hmax
      refine (HashProg.run_ensures hset).run.bind fun r st₂ hpost₂ => ?_
      rcases HashProg.of_run hpost₂.1 with ⟨s₂, hset', rfl⟩
      have hnext : NodeReach env st.session s₂ ([] ++ n.after r buf :: []) :=
        .setData hreach hbuf hmax hset'
      have hsize : 2 ≤ n.block.size := HeldNode.create_size hopen hcreate
      rcases hinv.insert_step hcount (hnext.inv hopen) hsize with ⟨st₃, hinsert, -⟩
      rcases Exec.ok_of_bind hinsert with ⟨node, st₄, hnode, hins⟩
      exact Exec.Ensures.of_eq ((Exec.bind_of_ok hnode).trans (Exec.bind_of_ok hins)) trivial

theorem Run.resize_step (h : TextInv.Run env s₀ st entries) (hcount : 2 ^ 13 ≤ count)
    {newSize fuel : Nat} {junk : ChkPtr} {r : Int} (hpos : 0 < newSize)
    (hmax : newSize ≤ ChkHashSList.maxBuckets) (hjunk : junk.Fits)
    (hfuel : entries.length < fuel)
    (hrun : ChkHashSList.resizeBuckets env newSize (StrNode.hashFunc count) StrNode.linkOffset
      fuel junk st = .ok (r, st')) : TextInv.Run env s₀ st' entries := by
  rcases h with ⟨text, hinv, hentries⟩
  rw [← List.length_map (f := TextEntry.link)] at hfuel
  rcases hinv.resize_step hcount hpos hmax hjunk hfuel hrun with ⟨hinv', hstep⟩
  exact ⟨text, hinv', hentries.step hinv.blocks hinv.good.isOpen hinv'.good.isOpen hstep
    fun e he => ⟨he, List.mem_map_of_mem he⟩⟩

theorem resize_ensures (h : TextInv.Run env s₀ st entries) (hcount : 2 ^ 13 ≤ count)
    {newSize fuel : Nat} {junk : ChkPtr} (hpos : 0 < newSize)
    (hmax : newSize ≤ ChkHashSList.maxBuckets) (hjunk : junk.Fits)
    (hfuel : entries.length < fuel) :
    Exec.Ensures (ChkHashSList.resizeBuckets env newSize (StrNode.hashFunc count)
      StrNode.linkOffset fuel junk st) (fun r _ => r = 0 ∨ r = -1) (Expected env) := by
  rcases h with ⟨text, hinv, -⟩
  rcases hinv.holds with ⟨chains, hst, hperm⟩
  rw [← List.length_map (f := TextEntry.link)] at hfuel
  by_cases heq : ChkHashSList.bucketSize st.list = newSize
  · exact Exec.Ensures.of_eq (resize_same heq) (Or.inl rfl)
  · refine (hinv.resizes hcount hst hperm hpos hmax hjunk hfuel heq).mono ?_ fun _ he => he
    intro r st' hout
    exact hout.imp And.left And.left

end TextInv

namespace TextInv.Run

variable {env : Env} {s₀ : Session} {st : HashState} {entries : List TextEntry}

/-- `find` with a key and its hash, and `c_str` of the node that is found. -/
theorem finds (h : TextInv.Run env s₀ st entries) (key : List Byte) {fuel : Nat}
    (hfuel : entries.length < fuel) :
    exists r, ChkHashSList.find (StrNode.hashEq key) StrNode.linkOffset (StrNode.hashText key)
        fuel st = .ok (r, st) ∧
      (¬r.1.IsNull <-> exists e, e ∈ entries ∧ e.text = key) ∧
      (¬r.1.IsNull -> (exists e, e ∈ entries ∧ e.text = key ∧ r.1 = e.link) ∧ exists a,
        ChkStr.cStrAt (st.session.world.index.container StrNode.linkOffset r.1)
          st.session.world = .ok (a, st.session.world) ∧
        CString st.session.world a key) := by
  rcases h with ⟨text, hinv, hentries⟩
  rcases hinv.holds with ⟨chains, hst, hperm⟩
  have hopen := hinv.good.isOpen
  have hmem : forall q, q ∈ st.members chains -> q ∈ entries.map TextEntry.link :=
    fun q hq => hperm.mem_iff.mp hq
  rw [← List.length_map (f := TextEntry.link), ← hperm.length_eq] at hfuel
  have heqs := hinv.blocks.nodes.eq_reads hopen key
  rcases hst.find_ok hinv.good (o := StrNode.linkOffset)
    (fun q hq => heqs st.session hopen (fun _ hl => hl) (.refl _ _ _) q (hmem q hq))
    (fun q _ heq => congrArg StrNode.hashText (of_decide_eq_true heq)) hfuel with
    ⟨r, hfind, hfound⟩
  refine ⟨r, hfind, ?_⟩
  rcases hfound with ⟨p, pre, hp, hep, rfl, -⟩ | ⟨hnone, rfl⟩
  · have hp' := hmem p hp
    have hkey : text p = key := of_decide_eq_true hep
    rcases List.mem_map.mp hp' with ⟨e, he, heq⟩
    have hetext : e.text = key := by
      rw [← hentries.text e he, heq]
      exact hkey
    have hnull : ¬p.IsNull := hopen.spot_not_null (hst.node hp)
    refine ⟨⟨fun _ => ⟨e, he, hetext⟩, fun _ => hnull⟩, fun _ => ⟨⟨e, he, hetext, heq.symm⟩, ?_⟩⟩
    rcases hinv.blocks.node_block hp' with ⟨b, hb, rfl, -, -⟩
    have hshows := hinv.blocks.nodes.shows b hb hp'
    rw [hkey] at hshows
    rcases hopen.cStrAt_ok hb hshows with ⟨a, hcStr, hchars⟩
    refine ⟨a, ?_, hchars⟩
    rw [StrNodes.container_eq]
    exact hcStr
  · have hnull : chkNull.IsNull := rfl
    refine ⟨⟨fun hcon => absurd hnull hcon, ?_⟩, fun hcon => absurd hnull hcon⟩
    rintro ⟨e, he, hetext⟩
    have hfalse : decide (text e.link = key) = false :=
      hnone e.link (hperm.mem_iff.mpr (List.mem_map_of_mem he))
    exact absurd ((hentries.text e he).trans hetext) (of_decide_eq_false hfalse)

theorem accounts (h : TextInv.Run env s₀ st entries) {b : Live} (hb : b ∈ st.session.live) :
    b ∈ s₀.live ∨ b.ptr = st.list ∨ exists e, e ∈ entries ∧
      (e.block = b.ptr ∨ (st.session.world.str e.block).owned = some b.ptr) := by
  rcases h with ⟨text, hinv, hentries⟩
  have hentry : forall b, b ∈ st.session.live -> StrNode.link b.ptr ∈ entries.map TextEntry.link ->
      exists e, e ∈ entries ∧ e.block = b.ptr := by
    intro b hb hlink
    rcases List.mem_map.mp hlink with ⟨e, he, heq⟩
    rcases hentries.live e he with ⟨c, hc, hptr⟩
    refine ⟨e, he, hptr.symm.trans (hinv.good.isOpen.link_inj hc hb ?_)⟩
    rw [hptr]
    exact heq
  refine (hinv.blocks.accounted b hb).imp_right (Or.imp_right ?_)
  rintro (hlink | ⟨n, hn, hlink, hown⟩)
  · rcases hentry b hb hlink with ⟨e, he, heq⟩
    exact ⟨e, he, Or.inl heq⟩
  · rcases hentry n hn hlink with ⟨e, he, heq⟩
    refine ⟨e, he, Or.inr ?_⟩
    rw [heq]
    exact hown

end TextInv.Run

end ChunkMem
