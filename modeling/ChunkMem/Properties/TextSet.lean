import ChunkMem.Structures.TextSteps

/-!
# A set of texts

A program keeps texts in a hash list as the tests of the repository do: it makes a node for
each, sets its string and inserts it, takes nodes out and destroys them, and changes the
number of lists.
-/

namespace ChunkMem

open Foundation

/-- What a program that adds and removes texts leads to from the session `s₀`. -/
inductive TextReach (env : Env) (s₀ : Session) (count : Nat) :
    HashState -> List TextEntry -> Prop where
  | start {list single : ChkPtr} {st : HashState} :
      list.Fits -> single.Fits -> ChkHashSList.init ⟨s₀, list, single⟩ = .ok ((), st) ->
      TextReach env s₀ count st []
  | add {st st' : HashState} {entries : List TextEntry} {buf : List Byte}
      {r : Option TextEntry} :
      TextReach env s₀ count st entries -> NulFree buf -> buf.length < 2 ^ 31 - 16 ->
      TextSet.add env count buf st = .ok (r, st') ->
      TextReach env s₀ count st' (r.toList ++ entries)
  | remove {st st' : HashState} {l₁ l₂ : List TextEntry} {e : TextEntry} {fuel : Nat} {r : Int} :
      TextReach env s₀ count st (l₁ ++ e :: l₂) -> (l₁ ++ e :: l₂).length < fuel ->
      HashCall.Clean st (.erase e.link) -> TextSet.remove env count fuel e st = .ok (r, st') ->
      TextReach env s₀ count st' (l₁ ++ l₂)
  | resize {st st' : HashState} {entries : List TextEntry} {newSize fuel : Nat} {junk : ChkPtr}
      {r : Int} :
      TextReach env s₀ count st entries -> 0 < newSize -> newSize ≤ ChkHashSList.maxBuckets ->
      junk.Fits -> entries.length < fuel ->
      ChkHashSList.resizeBuckets env newSize (StrNode.hashFunc count) StrNode.linkOffset fuel junk
        st = .ok (r, st') ->
      TextReach env s₀ count st' entries

theorem TextReach.inv {env : Env} {s₀ : Session} (hopen : Open env s₀) {count : Nat}
    (hcount : 2 ^ 13 ≤ count) {st : HashState} {entries : List TextEntry}
    (h : TextReach env s₀ count st entries) : TextInv.Run env s₀ st entries := by
  induction h with
  | start hlist hsingle hrun =>
      refine ⟨fun _ => [], TextInv.start hopen hlist hsingle hrun, ?_, ?_⟩
      · intro e he
        cases he
      · intro e he
        cases he
  | add _ hbuf hmax hrun ih => exact TextInv.add_step ih hcount hbuf hmax hrun
  | remove _ hfuel hclean hrun ih => exact TextInv.remove_step ih hcount hfuel hclean hrun
  | resize _ hpos hmax hjunk hfuel hrun ih =>
      exact TextInv.Run.resize_step ih hcount hpos hmax hjunk hfuel hrun

/-- A hash list of nodes is a collection of texts: in every state of a run that makes and inserts
nodes, erases and destroys them and changes the number of lists, `find` with a key and its
hash succeeds exactly when the key is one of the texts, and then `c_str` of the node gives
the key; every block in use is one of the beginning, the block of the heads, a node or the block
of the string of a node; and the blocks of the beginning are as they were. -/
theorem TextReach.keeps_texts {env : Env} {s₀ : Session} (hs : Reach env CarefulCall s₀)
    (hflag : s₀.world.index.compressed = false) {count : Nat} (hcount : 2 ^ 13 ≤ count)
    {st : HashState} {entries : List TextEntry} (h : TextReach env s₀ count st entries) :
    (forall (key : List Byte) (fuel : Nat), entries.length < fuel ->
      exists r, ChkHashSList.find (StrNode.hashEq key) StrNode.linkOffset (StrNode.hashText key)
          fuel st = .ok (r, st) ∧
        (¬r.1.IsNull <-> exists e, e ∈ entries ∧ e.text = key) ∧
        (¬r.1.IsNull -> (exists e, e ∈ entries ∧ e.text = key ∧ r.1 = e.link) ∧ exists a,
          ChkStr.cStrAt (st.session.world.index.container StrNode.linkOffset r.1)
            st.session.world = .ok (a, st.session.world) ∧
          CString st.session.world a key)) ∧
    (forall b, b ∈ st.session.live -> b ∈ s₀.live ∨ b.ptr = st.list ∨
      exists e, e ∈ entries ∧
        (e.block = b.ptr ∨ (st.session.world.str e.block).owned = some b.ptr)) ∧
    forall b, b ∈ s₀.live -> b ∈ st.session.live ∧
      World.KeepsBlock s₀.world st.session.world b.ptr := by
  have hrun := h.inv (hs.isOpen hflag) hcount
  refine ⟨fun key fuel hfuel => hrun.finds key hfuel, fun b hb => hrun.accounts hb,
    fun b hb => ?_⟩
  rcases hrun with ⟨text, hinv, -⟩
  exact ⟨(hinv.blocks.others b hb).1, (hinv.blocks.others b hb).2.1⟩

section Sample

/-- A step on a collection of texts; the text to remove is named by its position. -/
inductive TextCall where
  | add (buf : List Byte)
  | remove (i : Nat)
  | resize (newSize : Nat) (junk : ChkPtr)

namespace TextCall

/-- The collection after a step, none where the step fails or is not allowed. -/
def after (env : Env) (count fuel : Nat) (call : TextCall) (x : HashState × List TextEntry) :
    Option (HashState × List TextEntry) :=
  match call with
  | add buf =>
      if NulFree buf ∧ buf.length < 2 ^ 31 - 16 then
        match TextSet.add env count buf x.1 with
        | .ok (r, st') => some (st', r.toList ++ x.2)
        | .error _ => none
      else none
  | remove i =>
      match x.2.drop i with
      | [] => none
      | e :: rest =>
          if x.2.length < fuel ∧ HashCall.Clean x.1 (.erase e.link) then
            match TextSet.remove env count fuel e x.1 with
            | .ok (_, st') => some (st', x.2.take i ++ rest)
            | .error _ => none
          else none
  | resize newSize junk =>
      if 0 < newSize ∧ newSize ≤ ChkHashSList.maxBuckets ∧ junk.Fits ∧ x.2.length < fuel then
        match ChkHashSList.resizeBuckets env newSize (StrNode.hashFunc count)
            StrNode.linkOffset fuel junk x.1 with
        | .ok (_, st') => some (st', x.2)
        | .error _ => none
      else none

def performAll (env : Env) (count fuel : Nat) (calls : List TextCall)
    (x : HashState × List TextEntry) : Option (HashState × List TextEntry) :=
  calls.foldlM (fun y call => call.after env count fuel y) x

variable {env : Env} {count fuel : Nat} {x y : HashState × List TextEntry}

/-- What holds after every step that is allowed holds after a computed one. -/
theorem after_elim {P : HashState -> List TextEntry -> Prop} {call : TextCall}
    (h : call.after env count fuel x = some y)
    (hadd : forall buf r st', NulFree buf -> buf.length < 2 ^ 31 - 16 ->
      TextSet.add env count buf x.1 = .ok (r, st') -> P st' (r.toList ++ x.2))
    (hremove : forall l₁ e l₂ r st', x.2 = l₁ ++ e :: l₂ -> x.2.length < fuel ->
      HashCall.Clean x.1 (.erase e.link) ->
      TextSet.remove env count fuel e x.1 = .ok (r, st') -> P st' (l₁ ++ l₂))
    (hresize : forall newSize junk r st', 0 < newSize -> newSize ≤ ChkHashSList.maxBuckets ->
      junk.Fits -> x.2.length < fuel ->
      ChkHashSList.resizeBuckets env newSize (StrNode.hashFunc count) StrNode.linkOffset fuel junk
        x.1 = .ok (r, st') -> P st' x.2) : P y.1 y.2 := by
  cases call with
  | add buf =>
      simp only [after, Option.ite_none_right_eq_some] at h
      rcases h with ⟨⟨hbuf, hmax⟩, h⟩
      split at h
      · next hrun =>
          cases h
          exact hadd buf _ _ hbuf hmax hrun
      · cases h
  | remove i =>
      simp only [after] at h
      split at h
      · cases h
      · next e rest hdrop =>
          rw [Option.ite_none_right_eq_some] at h
          rcases h with ⟨⟨hfuel, hclean⟩, h⟩
          have hsplit : x.2 = x.2.take i ++ e :: rest := by
            rw [← hdrop, List.take_append_drop]
          split at h
          · next hrun =>
              cases h
              exact hremove _ e _ _ _ hsplit hfuel hclean hrun
          · cases h
  | resize newSize junk =>
      simp only [after, Option.ite_none_right_eq_some] at h
      rcases h with ⟨⟨hpos, hmax, hjunk, hfuel⟩, h⟩
      split at h
      · next hrun =>
          cases h
          exact hresize newSize junk _ _ hpos hmax hjunk hfuel hrun
      · cases h

end TextCall

namespace TextReach

variable {env : Env} {s₀ : Session} {count fuel : Nat} {x y : HashState × List TextEntry}

theorem step {call : TextCall} (h : TextReach env s₀ count x.1 x.2)
    (hrun : call.after env count fuel x = some y) : TextReach env s₀ count y.1 y.2 := by
  refine TextCall.after_elim (P := TextReach env s₀ count) hrun
    (fun buf r st' hbuf hmax hadd => h.add hbuf hmax hadd) ?_
    fun newSize junk r st' hpos hmax hjunk hfuel hresize =>
      h.resize hpos hmax hjunk hfuel hresize
  intro l₁ e l₂ r st' heq hfuel hclean hremove
  rw [heq] at h hfuel
  exact h.remove hfuel hclean hremove

theorem performAll {calls : List TextCall} (h : TextReach env s₀ count x.1 x.2)
    (hrun : TextCall.performAll env count fuel calls x = some y) :
    TextReach env s₀ count y.1 y.2 :=
  foldlM_keeps (P := fun z => TextReach env s₀ count z.1 z.2)
    (fun _ _ _ hz hcall => hz.step hcall) h hrun

theorem of_calls {calls : List TextCall}
    (hrun : TextCall.performAll env count fuel calls
      (⟨s₀, { chkNull.nulled with size := 0 }, chkNull⟩, []) = some y) :
    TextReach env s₀ count y.1 y.2 := by
  have hstart : TextReach env s₀ count ⟨s₀, { chkNull.nulled with size := 0 }, chkNull⟩ [] :=
    .start chkNull_fits chkNull_fits rfl
  exact hstart.performAll hrun

end TextReach

/-- Texts are added, the lists become two, and the short text is removed. -/
def textCalls : List TextCall :=
  [.add twelveBytes, .add [104, 105], .resize 2 chkNull, .remove 0, .add []]

theorem textCalls_run : exists st entries,
    TextCall.performAll Env.plain (2 ^ 13) 4 textCalls
      (⟨packed, { chkNull.nulled with size := 0 }, chkNull⟩, []) = some (st, entries) ∧
    entries.map TextEntry.text = [[], twelveBytes] := by
  have hcode : (TextCall.performAll Env.plain (2 ^ 13) 4 textCalls
      (⟨packed, { chkNull.nulled with size := 0 }, chkNull⟩, [])).map
        (fun x => x.2.map TextEntry.text) = some [[], twelveBytes] := by
    decide +kernel
  rcases Option.map_eq_some_iff.mp hcode with ⟨⟨st, entries⟩, hrun, htexts⟩
  exact ⟨st, entries, hrun, htexts⟩

/-- What `find` says of a text that is there and of one that was removed. -/
theorem TextReach.keeps_texts_sample : exists st entries r r',
    TextReach Env.plain packed (2 ^ 13) st entries ∧
    entries.map TextEntry.text = [[], twelveBytes] ∧
    ChkHashSList.find (StrNode.hashEq twelveBytes) StrNode.linkOffset
      (StrNode.hashText twelveBytes) 3 st = .ok (r, st) ∧ ¬r.1.IsNull ∧
    ChkHashSList.find (StrNode.hashEq [104, 105]) StrNode.linkOffset
      (StrNode.hashText [104, 105]) 3 st = .ok (r', st) ∧ r'.1.IsNull := by
  have hflag : packed.world.index.compressed = false := by decide +kernel
  have hpacked := packed_reach
  have hcalls := textCalls_run
  generalize packed = s₀ at hflag hpacked hcalls
  rcases hcalls with ⟨st, entries, hrun, htexts⟩
  have hreach := TextReach.of_calls hrun
  have hfuel : entries.length < 3 := by
    rw [← List.length_map (f := TextEntry.text), htexts]
    decide
  have hmem : forall key, (exists e, e ∈ entries ∧ e.text = key) <->
      key ∈ ([[], twelveBytes] : List (List Byte)) := fun key => by rw [← htexts, List.mem_map]
  have hfinds := (TextReach.keeps_texts hpacked hflag (Nat.le_refl _) hreach).1
  rcases hfinds twelveBytes 3 hfuel with ⟨r, hr, hiff, -⟩
  rcases hfinds [104, 105] 3 hfuel with ⟨r', hr', hiff', -⟩
  refine ⟨st, entries, r, r', hreach, htexts, hr, ?_, hr', ?_⟩
  · exact hiff.mpr ((hmem _).mpr (by decide))
  · exact Decidable.of_not_not fun hfound => absurd ((hmem _).mp (hiff'.mp hfound)) (by decide)

end Sample

end ChunkMem
