import ChunkMem.Structures.StrNode

/-!
# A table of strings

The nodes of a hash list show texts; `hash_func` and `hash_eq` of the nodes make
the list a table that is searched by text.
-/

namespace ChunkMem

open Foundation

/-- In every state of a run of `insert`, `resize_buckets` and clean `erase` on nodes
that show texts, `find` with a key and its hash succeeds exactly when the key is the text
of a linked node, and `c_str` of the node it finds gives the characters of the key.  This
holds of any key, also of one with zeros in it. -/
theorem HashReach.finds_texts {env : Env} {s : Session} (hs : Reach env CarefulCall s)
    (hflag : s.world.index.compressed = false) {U : ChkPtr -> Prop} {text : ChkPtr -> List Byte}
    (hnodes : StrNodes s U text) {count : Nat} (hcount : 2 ^ 13 ≤ count) {st : HashState}
    {d : List ChkPtr} {one : Bool}
    (h : HashReach env s U StrNode.linkOffset (StrNode.hashFunc count)
      (fun p => StrNode.hashText (text p)) (fun st call => call.Clean st) st d one)
    (key : List Byte) {fuel : Nat} (hfuel : d.length < fuel) :
    exists r, ChkHashSList.find (StrNode.hashEq key) StrNode.linkOffset (StrNode.hashText key)
        fuel st = .ok (r, st) ∧
      (¬r.1.IsNull <-> exists p, p ∈ d ∧ text p = key) ∧
      (¬r.1.IsNull -> r.1 ∈ d ∧ exists a,
        ChkStr.cStrAt (st.session.world.index.container StrNode.linkOffset r.1)
          st.session.world = .ok (a, st.session.world) ∧
        CString st.session.world a key) := by
  have hopen := hs.isOpen hflag
  have hU : forall p, U p -> Spot s.live p := fun p hp => hnodes.spot hp
  have hinv := h.inv hopen hU (hnodes.hash_reads hopen hcount)
  have hkey : forall q, U q -> decide (text q = key) = true ->
      StrNode.hashText (text q) = StrNode.hashText key :=
    fun q _ heq => congrArg StrNode.hashText (of_decide_eq_true heq)
  rcases (h.dictionary hs hflag hU (hnodes.hash_reads hopen hcount)).1 (StrNode.hashEq key) _
    (StrNode.hashText key) fuel (hnodes.eq_reads hopen key) hkey hfuel with
    ⟨r, hfind, hiff, hfound⟩
  refine ⟨r, hfind, ?_, fun hnull => ?_⟩
  · rw [hiff]
    constructor
    · rintro ⟨p, hp, heq⟩
      exact ⟨p, hp, of_decide_eq_true heq⟩
    · rintro ⟨p, hp, heq⟩
      exact ⟨p, hp, decide_eq_true heq⟩
  · rcases hfound hnull with ⟨hmem, heq, -⟩
    have hp := hinv.nodes _ hmem
    have hlive : forall l, l ∈ s.live -> l ∈ st.session.live := fun l hl => (hinv.sub l hl).1
    rcases hnodes.block _ hp with ⟨b, hb, hlink, -⟩
    rw [hlink] at hp heq ⊢
    have hshows := hnodes.kept hopen hlive hinv.keeps hb hp
    rw [of_decide_eq_true heq] at hshows
    rcases hinv.good.isOpen.cStrAt_ok (hlive b hb) hshows with ⟨a, hcStr, hchars⟩
    refine ⟨hlink ▸ hmem, a, ?_, hchars⟩
    rw [StrNodes.container_eq]
    exact hcStr

section Sample

/-- Two nodes, one with a string in a block and one with a string of its own. -/
def namedNodes : Session :=
  Call.after Env.plain
    [.alloc 24, .alloc 16, .alloc 24, .write ⟨0, 16, 2⟩ 0 (twelveBytes ++ [0]),
      .write ⟨0, 10, 3⟩ 0 [0, 128, 0, 1, 12, 0, 0, 1],
      .write ⟨0, 20, 3⟩ 0 [104, 105, 0, 0, 0, 0, 0, 0]]
    ⟨World.boot, []⟩

theorem namedNodes_reach : Reach Env.plain CarefulCall namedNodes := by
  unfold namedNodes
  exact .after (.start World.boot_fresh) (by decide +kernel)

def nodeLinks : List ChkPtr := [⟨0, 12, 0⟩, ⟨0, 22, 0⟩]

def nodeText (p : ChkPtr) : List Byte := if p.offset = 12 then twelveBytes else [104, 105]

theorem namedNodes_nodes : StrNodes namedNodes (fun p => p ∈ nodeLinks) nodeText := by
  have hlive : namedNodes.live =
      [⟨⟨0, 20, 3⟩, 24⟩, ⟨⟨0, 16, 2⟩, 16⟩, ⟨⟨0, 10, 3⟩, 24⟩] := by decide +kernel
  have hlong : (namedNodes.world.str ⟨0, 10, 3⟩).flag = 1 ∧
      (namedNodes.world.str ⟨0, 10, 3⟩).dataPtr = ⟨0, 16, 2⟩ ∧
      (namedNodes.world.str ⟨0, 10, 3⟩).strLen = 12 ∧
      (namedNodes.world.target ⟨0, 16, 2⟩).bytes 0 13 = twelveBytes ++ [0] := by
    decide +kernel
  have hshort : (namedNodes.world.str ⟨0, 20, 3⟩).flag = 0 ∧
      (namedNodes.world.str ⟨0, 20, 3⟩).bits.bytes 0 3 = [104, 105, 0] := by
    decide +kernel
  generalize namedNodes = s at hlive hlong hshort
  rcases hlong with ⟨hflag, hdata, hlen, hbytes⟩
  have hno : ¬StrNode.link ⟨0, 16, 2⟩ ∈ nodeLinks := by decide
  refine ⟨?_, ?_, by decide, ?_⟩
  · intro p hp
    rw [hlive]
    rcases List.mem_cons.mp hp with rfl | hp
    · exact ⟨_, List.mem_cons_of_mem _ (List.mem_cons_of_mem _ List.mem_cons_self), rfl, by decide⟩
    · cases List.mem_singleton.mp hp
      exact ⟨_, List.mem_cons_self, rfl, by decide⟩
  · intro b hb hU
    have hblock : (⟨⟨0, 16, 2⟩, 16⟩ : Live) ∈ s.live := by
      rw [hlive]
      decide
    rw [hlive] at hb
    rcases List.mem_cons.mp hb with rfl | hb
    · exact .short (by decide) hshort.1 hshort.2
    · rcases List.mem_cons.mp hb with rfl | hb
      · exact absurd hU hno
      · cases List.mem_singleton.mp hb
        exact .long (by decide) hflag hdata hblock hlen (by decide) hbytes
  · intro b c hb hc hU hU' howned
    have hptr : c.ptr ≠ ⟨0, 16, 2⟩ := fun heq => hno (heq ▸ hU')
    rw [hlive] at hb
    rcases List.mem_cons.mp hb with rfl | hb
    · rw [ChkStr.owned_short hshort.1] at howned
      cases howned
    · rcases List.mem_cons.mp hb with rfl | hb
      · exact absurd hU hno
      · cases List.mem_singleton.mp hb
        rw [ChkStr.owned_long hflag, hdata] at howned
        exact hptr (Option.some.inj howned).symm

/-- Both nodes are inserted, the lists become two, and one node is erased: the other one is
found by its text and that one is not. -/
theorem HashReach.finds_texts_sample : exists st one r r',
    HashReach Env.plain namedNodes (fun p => p ∈ nodeLinks) StrNode.linkOffset
      (StrNode.hashFunc (2 ^ 13)) (fun p => StrNode.hashText (nodeText p))
      (fun st call => call.Clean st) st [⟨0, 12, 0⟩] one ∧
    ChkHashSList.find (StrNode.hashEq twelveBytes) StrNode.linkOffset
      (StrNode.hashText twelveBytes) 2 st = .ok (r, st) ∧ r.1 = ⟨0, 12, 0⟩ ∧
    ChkHashSList.find (StrNode.hashEq [104, 105]) StrNode.linkOffset
      (StrNode.hashText [104, 105]) 2 st = .ok (r', st) ∧ r'.1.IsNull := by
  have hflag : namedNodes.world.index.compressed = false := by decide +kernel
  have hreach := namedNodes_reach
  have hnodes := namedNodes_nodes
  have hcalls := HashReach.of_calls (f := fun x => x.2.1)
    (show (HashCall.performAll Env.plain (fun p => p ∈ nodeLinks) StrNode.linkOffset
      (StrNode.hashFunc (2 ^ 13)) (fun p => StrNode.hashText (nodeText p))
      (fun st call => call.Clean st) 3
      [.insert ⟨0, 12, 0⟩, .insert ⟨0, 22, 0⟩, .resize 2 chkNull, .erase ⟨0, 22, 0⟩]
      (⟨namedNodes, { chkNull.nulled with size := 0 }, chkNull⟩, [], true)).map _ =
        some [⟨0, 12, 0⟩] by decide +kernel)
  generalize namedNodes = s at hflag hreach hnodes hcalls
  rcases hcalls with ⟨st, d, one, hst, hd⟩
  have hd' : d = [⟨0, 12, 0⟩] := hd
  subst hd'
  have hfinds := fun key => HashReach.finds_texts hreach hflag hnodes (Nat.le_refl _) hst key
    (show [(⟨0, 12, 0⟩ : ChkPtr)].length < 2 by decide)
  rcases hfinds twelveBytes with ⟨r, hfind, hiff, hfound⟩
  rcases hfinds [104, 105] with ⟨r', hfind', hiff', -⟩
  have hmem := (hfound (hiff.mpr ⟨_, List.mem_cons_self, rfl⟩)).1
  refine ⟨st, one, r, r', hst, hfind, List.mem_singleton.mp hmem, hfind', ?_⟩
  refine Decidable.of_not_not fun hnull => ?_
  rcases hiff'.mp hnull with ⟨p, hp, heq⟩
  cases List.mem_singleton.mp hp
  exact absurd heq (by decide)

end Sample

end ChunkMem
