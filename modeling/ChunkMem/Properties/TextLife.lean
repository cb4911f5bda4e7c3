import ChunkMem.Properties.TextSet
import ChunkMem.Structures.TextsInStore

/-!
# The life of a collection of texts

A program keeps texts in a hash list and goes on using the index around it: it allocates and
frees blocks of its own, writes into them, compresses the index and shrinks it.
-/

namespace ChunkMem

open Foundation

/-- The sessions and collections a program can reach: it calls the index so that the blocks of
the collection are neither written nor freed, and adds texts, removes them and changes the number
of lists while the index is not compressed. -/
inductive TextWork (env : Env) (count : Nat) : Session -> TextData -> Prop where
  | start {s : Session} {list single : ChkPtr} {st : HashState} :
      Reach env CarefulCall s -> s.world.index.compressed = false -> list.Fits -> single.Fits ->
      ChkHashSList.init ⟨s, list, single⟩ = .ok ((), st) ->
      TextWork env count st.session ⟨st.list, st.single, [], []⟩
  | call {s s' : Session} {x : TextData} {call : Call} {r : Result} :
      TextWork env count s x -> CarefulCall s call -> call.Spares x.area ->
      call.perform env s = .ok (r, s') -> TextWork env count s' x
  | add {s : Session} {x : TextData} {st' : HashState} {buf : List Byte}
      {r : Option TextEntry} :
      TextWork env count s x -> s.world.index.compressed = false -> NulFree buf ->
      buf.length < 2 ^ 31 - 16 -> TextSet.add env count buf (x.state s) = .ok (r, st') ->
      TextWork env count st'.session (x.after s st' (r.toList ++ x.entries))
  | remove {s : Session} {x : TextData} {st' : HashState} {l₁ l₂ : List TextEntry}
      {e : TextEntry} {fuel : Nat} {r : Int} :
      TextWork env count s x -> s.world.index.compressed = false ->
      x.entries = l₁ ++ e :: l₂ -> x.entries.length < fuel ->
      HashCall.Clean (x.state s) (.erase e.link) ->
      TextSet.remove env count fuel e (x.state s) = .ok (r, st') ->
      TextWork env count st'.session (x.after s st' (l₁ ++ l₂))
  | resize {s : Session} {x : TextData} {st' : HashState} {newSize fuel : Nat} {junk : ChkPtr}
      {r : Int} :
      TextWork env count s x -> s.world.index.compressed = false -> 0 < newSize ->
      newSize ≤ ChkHashSList.maxBuckets -> junk.Fits -> x.entries.length < fuel ->
      ChkHashSList.resizeBuckets env newSize (StrNode.hashFunc count) StrNode.linkOffset fuel junk
        (x.state s) = .ok (r, st') ->
      TextWork env count st'.session (x.after s st' x.entries)

namespace TextWork

variable {env : Env} {count : Nat} {s : Session} {x : TextData}

/-- The collection was in order when the index was last not compressed, and was left alone
since. -/
theorem sound (h : TextWork env count s x) (hcount : 2 ^ 13 ≤ count) :
    (exists c L, Valid env s c L) ∧ (textResident env).Held s x := by
  have hmoved : forall {s : Session} {x : TextData}, (textResident env).Held s x ->
      s.world.index.compressed = false -> (exists c L, Valid env s c L) ->
      TextsShown env s x := fun hheld hflag hvalid => hheld.inv ⟨hflag, hvalid⟩
  have hafter : forall {s : Session} {x : TextData} {st' : HashState} {l : List TextEntry},
      TextsShown env s x -> TextInv.Run env (s.outside x.blocks) st' l ->
      (exists c L, Valid env st'.session c L) ∧
        (textResident env).Held st'.session (x.after s st' l) := by
    intro s x st' l hshown hrun
    have hmoves := hshown.moves hrun
    exact ⟨hmoves.ready.2, hmoves.held⟩
  induction h with
  | @start s list single st hs hflag hlist hsingle hrun =>
      have hopen := hs.isOpen hflag
      have hinv : TextInv env s st [] fun _ => [] := TextInv.start hopen hlist hsingle hrun
      have hsession : st.session = s := by
        cases hrun
        rfl
      have hblocks : forall b, b ∈ (st.session.outside []).live <-> b ∈ s.live := by
        intro b
        rw [Session.mem_outside, hsession]
        exact and_iff_left List.not_mem_nil
      refine ⟨hinv.good.isOpen.2, .of_inv hinv.good.isOpen ⟨⟨_, hinv.rebase hblocks, ?_, ?_⟩, ?_⟩⟩
      · intro e he
        cases he
      · intro e he
        cases he
      · intro q hq
        cases hq
  | call _ hcall hspares hrun ih =>
      rcases ih with ⟨⟨c, L, hv⟩, hheld⟩
      have hspared := Call.spared hheld.within hcall hspares hrun
      rcases hspared.bits c L hv with ⟨c', L', hv', -⟩
      exact ⟨⟨c', L', hv'⟩, hheld.keeps hspared⟩
  | add _ hflag hbuf hmax hrun ih =>
      have hshown := hmoved ih.2 hflag ih.1
      exact hafter hshown (TextInv.add_step hshown.run hcount hbuf hmax hrun)
  | remove _ hflag hentries hfuel hclean hrun ih =>
      have hshown := hmoved ih.2 hflag ih.1
      have hinv := hshown.run
      rw [hentries] at hinv hfuel
      exact hafter hshown (TextInv.remove_step hinv hcount hfuel hclean hrun)
  | resize _ hflag hpos hmax hjunk hfuel hrun ih =>
      have hshown := hmoved ih.2 hflag ih.1
      exact hafter hshown (TextInv.Run.resize_step hshown.run hcount hpos hmax hjunk hfuel hrun)

/-- A collection of texts survives whatever is done with the index around it.  In every state
within reach, when the index is uncompressed: `find` with a key and its hash succeeds exactly
when the key is one of the texts, and then `c_str` of the node gives the key, at whatever
addresses the chunks have come to lie; every block of the collection is in use, as that of the
heads, of a node or of the string of a node.  While the index is not compressed, texts can be
added and removed and the number of lists changed: this stops at most where memory cannot be
obtained. -/
theorem texts_survive (h : TextWork env count s x) (hcount : 2 ^ 13 ≤ count) :
    (env.AllOk -> exists u, ChkIndex.uncompress env s.world = .ok (0, u)) ∧
    (forall u, ChkIndex.uncompress env s.world = .ok (0, u) ->
      (forall (key : List Byte) (fuel : Nat), x.entries.length < fuel -> exists r,
        ChkHashSList.find (StrNode.hashEq key) StrNode.linkOffset (StrNode.hashText key) fuel
            (x.state ⟨u, s.live⟩) = .ok (r, x.state ⟨u, s.live⟩) ∧
        (¬r.1.IsNull <-> exists e, e ∈ x.entries ∧ e.text = key) ∧
        (¬r.1.IsNull -> (exists e, e ∈ x.entries ∧ e.text = key ∧ r.1 = e.link) ∧ exists a,
          ChkStr.cStrAt (u.index.container StrNode.linkOffset r.1) u = .ok (a, u) ∧
          CString u a key)) ∧
      forall q, q ∈ x.blocks -> exists b, b ∈ s.live ∧ b.ptr = q ∧
        (q = x.list ∨ exists e, e ∈ x.entries ∧
          (e.block = q ∨ (u.str e.block).owned = some q))) ∧
    (s.world.index.compressed = false ->
      (forall buf : List Byte, NulFree buf -> buf.length < 2 ^ 31 - 16 ->
        Exec.Ensures (TextSet.add env count buf (x.state s)) (fun _ _ => True) (Expected env)) ∧
      (forall l₁ e l₂ fuel, x.entries = l₁ ++ e :: l₂ -> x.entries.length < fuel ->
        HashCall.Clean (x.state s) (.erase e.link) ->
        Exec.Ensures (TextSet.remove env count fuel e (x.state s)) (fun r _ => r = 0)
          (Expected env)) ∧
      forall newSize fuel junk, 0 < newSize -> newSize ≤ ChkHashSList.maxBuckets ->
        junk.Fits -> x.entries.length < fuel ->
        Exec.Ensures (ChkHashSList.resizeBuckets env newSize (StrNode.hashFunc count)
          StrNode.linkOffset fuel junk (x.state s)) (fun r _ => r = 0 ∨ r = -1)
          (Expected env)) := by
  rcases h.sound hcount with ⟨⟨c, L, hv⟩, hheld⟩
  refine ⟨hv.exists_opened, fun u hrun => ?_, fun hflag => ?_⟩
  · rcases hv.opened hrun with ⟨hflag, hcall, hperform⟩
    rcases (h.call hcall (by trivial) hperform).sound hcount with ⟨hvalid, hheld'⟩
    have hshown : TextsShown env ⟨u, s.live⟩ x := hheld'.inv ⟨hflag, hvalid⟩
    refine ⟨fun key fuel hfuel => hshown.run.finds key hfuel, fun q hq => ?_⟩
    rcases hshown.live q hq with ⟨b, hb, rfl⟩
    refine ⟨b, hb, rfl, ?_⟩
    refine (hshown.run.accounts hb).resolve_left fun hout => ?_
    exact (Session.mem_outside.mp hout).2 hq
  · have hshown : TextsShown env s x := hheld.inv ⟨hflag, c, L, hv⟩
    have hinv := hshown.run
    refine ⟨fun buf hbuf hmax => TextInv.add_ensures hinv hcount hbuf hmax,
      fun l₁ e l₂ fuel hentries hfuel hclean => ?_,
      fun newSize fuel junk hpos hmax hjunk hfuel =>
        TextInv.resize_ensures hinv hcount hpos hmax hjunk hfuel⟩
    rw [hentries] at hinv hfuel
    exact (TextInv.remove_ensures hinv hcount hfuel hclean).mono (fun _ _ hr => hr)
      fun _ he => Or.inr he

section Sample

variable {fuel : Nat} {y : HashState × List TextEntry}

/-- A computed step leads to a workspace, and the index stays uncompressed. -/
theorem step {call : TextCall} (h : TextWork env count s x) (hcount : 2 ^ 13 ≤ count)
    (hflag : s.world.index.compressed = false)
    (hrun : call.after env count fuel (x.state s, x.entries) = some y) :
    TextWork env count y.1.session (x.after s y.1 y.2) ∧
      y.1.session.world.index.compressed = false := by
  rcases h.sound hcount with ⟨hvalid, hheld⟩
  have hshown : TextsShown env s x := hheld.inv ⟨hflag, hvalid⟩
  have hinv := hshown.run
  refine TextCall.after_elim (P := fun st' l =>
    TextWork env count st'.session (x.after s st' l) ∧
      st'.session.world.index.compressed = false) hrun ?_ ?_ ?_
  · intro buf r st' hbuf hmax hadd
    have hrun' := TextInv.add_step hinv hcount hbuf hmax hadd
    exact ⟨h.add hflag hbuf hmax hadd, (hshown.moves hrun').ready.1⟩
  · intro l₁ e l₂ r st' heq hfuel hclean hremove
    have hentries : x.entries = l₁ ++ e :: l₂ := heq
    have hfuel' : x.entries.length < fuel := hfuel
    refine ⟨h.remove hflag heq hfuel hclean hremove, ?_⟩
    rw [hentries] at hinv hfuel'
    exact (hshown.moves (TextInv.remove_step hinv hcount hfuel' hclean hremove)).ready.1
  · intro newSize junk r st' hpos hmax hjunk hfuel hresize
    have hrun' := TextInv.Run.resize_step hinv hcount hpos hmax hjunk hfuel hresize
    exact ⟨h.resize hflag hpos hmax hjunk hfuel hresize, (hshown.moves hrun').ready.1⟩

theorem performAll {calls : List TextCall} (h : TextWork env count s x)
    (hcount : 2 ^ 13 ≤ count) (hflag : s.world.index.compressed = false)
    (hrun : TextCall.performAll env count fuel calls (x.state s, x.entries) = some y) :
    exists x', TextWork env count y.1.session x' ∧ x'.entries = y.2 := by
  induction calls generalizing s x with
  | nil =>
      cases hrun
      exact ⟨x, h, rfl⟩
  | cons call rest ih =>
      rcases Option.bind_eq_some_iff.mp hrun with ⟨z, hcall, hrest⟩
      rcases h.step hcount hflag hcall with ⟨hz, hflag'⟩
      exact ih hz hflag' hrest

/-- What `find` says after a compression of a text that is there and of one that was removed. -/
theorem texts_survive_sample : exists (s : Session) (x : TextData) (u : World)
    (r r' : ChkPtr × Option SlistPtr), TextWork Env.plain (2 ^ 13) s x ∧
    x.entries.map TextEntry.text = [[], twelveBytes] ∧
    ChkIndex.uncompress Env.plain s.world = .ok (0, u) ∧
    ChkHashSList.find (StrNode.hashEq twelveBytes) StrNode.linkOffset
      (StrNode.hashText twelveBytes) 3 (x.state ⟨u, s.live⟩) =
        .ok (r, x.state ⟨u, s.live⟩) ∧ ¬r.1.IsNull ∧
    ChkHashSList.find (StrNode.hashEq [104, 105]) StrNode.linkOffset
      (StrNode.hashText [104, 105]) 3 (x.state ⟨u, s.live⟩) =
        .ok (r', x.state ⟨u, s.live⟩) ∧ r'.1.IsNull := by
  have hflag : packed.world.index.compressed = false := by decide +kernel
  have hreach := packed_reach
  have hcalls := textCalls_run
  generalize packed = s₀ at hflag hreach hcalls
  rcases hcalls with ⟨st, entries, hrun, htexts⟩
  have hinit : ChkHashSList.init ⟨s₀, chkNull, chkNull⟩ =
      .ok ((), ⟨s₀, { chkNull.nulled with size := 0 }, chkNull⟩) := rfl
  have hstart : TextWork Env.plain (2 ^ 13) s₀
      ⟨{ chkNull.nulled with size := 0 }, chkNull, [], []⟩ :=
    .start hreach hflag chkNull_fits chkNull_fits hinit
  rcases hstart.performAll (Nat.le_refl _) hflag hrun with ⟨x, hx, rfl⟩
  rcases hx.sound (Nat.le_refl _) with ⟨⟨c, L, hv⟩, -⟩
  rcases hv.exists_compressed 100 with ⟨_, s, hcareful, hcompress⟩
  have hpacked := hx.call hcareful (by trivial) hcompress
  rcases hpacked.texts_survive (Nat.le_refl _) with ⟨hopens, hfinds, -⟩
  rcases hopens Env.plain_allOk with ⟨u, hu⟩
  have hfuel : x.entries.length < 3 := by
    rw [← List.length_map (f := TextEntry.text), htexts]
    decide
  have hmem : forall key, (exists e, e ∈ x.entries ∧ e.text = key) <->
      key ∈ ([[], twelveBytes] : List (List Byte)) := fun key => by rw [← htexts, List.mem_map]
  rcases (hfinds u hu).1 twelveBytes 3 hfuel with ⟨r, hr, hiff, -⟩
  rcases (hfinds u hu).1 [104, 105] 3 hfuel with ⟨r', hr', hiff', -⟩
  refine ⟨s, x, u, r, r', hpacked, htexts, hu, hr, ?_, hr', ?_⟩
  · exact hiff.mpr ((hmem _).mpr (by decide))
  · exact Decidable.of_not_not fun hfound => absurd ((hmem _).mp (hiff'.mp hfound)) (by decide)

end Sample

end TextWork

end ChunkMem
