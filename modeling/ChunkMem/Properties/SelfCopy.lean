import ChunkMem.Properties.Strings

/-!
# Storing a piece of the string itself

`set_data` moves the bytes with `memmove`, so that they may come from the
string itself.  A piece of at most seven bytes is read only after the block of the
string was freed and cleared.
-/

namespace ChunkMem

open Foundation

/-- `set_data(c_str() + a, n)` works on a string that shows `l`. -/
def AcceptsPiece (env : Env) (s : Session) (x : ChkStr) (l : List Byte) (a n : Nat) : Prop :=
  exists p x' s', x.cStr s.world = .ok (p, s.world) ∧
    x.setData env (p.add a) n s = .ok ((0, x'), s') ∧ x'.length = n ∧
    x'.cBytes (n + 1) s'.world = .ok ((l.drop a).take n ++ [0], s'.world)

theorem NulFree.piece {l : List Byte} (h : NulFree l) (a n : Nat) :
    NulFree ((l.drop a).take n) :=
  fun b hb => h b (List.mem_of_mem_drop (List.mem_of_mem_take hb))

theorem Foundation.Bits.bytes_piece {m : Bits} {l : List Byte} {a n : Nat}
    (h : m.bytes 0 (l.length + 1) = l ++ [0]) (han : a + n ≤ l.length) :
    m.bytes a n = (l.drop a).take n := by
  have hsplit := bytes_append m 0 a n
  rw [Nat.zero_add, ← bytes_take (show a + n ≤ l.length + 1 by omega), h,
    List.take_append_of_le_length (by omega)] at hsplit
  have hdrop : (m.bytes 0 a ++ m.bytes a n).drop a = m.bytes a n := List.drop_left' (by simp)
  rw [← hdrop, ← hsplit, List.drop_take, Nat.add_sub_cancel_left]

/-!
## A released block
-/

theorem Content.free_setBits (cls : Fin 3 -> Nat) (c : Content) (b : Block) {m m' : Bits}
    (h : forall j, j < 64 * b.start ∨ 64 * b.start + 64 * b.len ≤ j -> m j = m' j) :
    Content.free cls b (c.setBits b.space m) = Content.free cls b (c.setBits b.space m') := by
  have hclear : m.clear (64 * b.start) (64 * b.len) = m'.clear (64 * b.start) (64 * b.len) := by
    funext j
    by_cases hj : 64 * b.start ≤ j ∧ j < 64 * b.start + 64 * b.len
    · rw [Bits.clear_inside hj.1 hj.2, Bits.clear_inside hj.1 hj.2]
    · rw [Bits.clear_outside (by omega), Bits.clear_outside (by omega)]
      exact h j (by omega)
  have hself : forall m : Bits, ((c.setBits b.space m).body b.space).bits = m := fun m => by
    rw [Content.setBits_bits, if_pos rfl]
  unfold Content.free
  rw [Exec.bind_of_ok (Exec.update_apply _ _), Exec.bind_of_ok (Exec.update_apply _ _),
    hself, hself, Content.setBits_setBits, Content.setBits_setBits, hclear]

namespace Valid

variable {env : Env} {s : Session} {c : Content} {L : Layout} {l : Live}

theorem storeBytes (h : Valid env s c L) (hflag : s.world.index.compressed = false)
    (hl : l ∈ s.live) {a : Nat} {d : List Byte} (hle : a + d.length ≤ 8 * l.ptr.size) :
    exists w' b, ChunkMem.storeBytes ((s.world.addrOf l.ptr).add a) d s.world = .ok ((), w') ∧
      w'.index = s.world.index ∧ Valid env ⟨w', s.live⟩ (c.setBits l.ptr.chkNo b) L ∧
      forall j, j < 32 * l.ptr.offset ∨ 32 * l.ptr.offset + 64 * l.ptr.size ≤ j ->
        b j = (c.body l.ptr.chkNo).bits j := by
  have hopen : Open env s := ⟨hflag, c, L, h⟩
  have hin := hopen.inside hl (o := 4 * l.ptr.offset + a) (n := 8 * d.length) (by omega)
  rcases h.change hflag hl (8 * (4 * l.ptr.offset + a)) (8 * d.length) (by omega)
    (by omega) (m := (s.world.chunkBits l.ptr.chkNo).writeBytes (4 * l.ptr.offset + a) d)
    fun j hj => Bits.writeBytes_outside (by omega) with ⟨b, hv', hb, -⟩
  refine ⟨s.world.setChunk l.ptr.chkNo
    ((s.world.chunkBits l.ptr.chkNo).writeBytes (4 * l.ptr.offset + a) d), b, ?_, rfl, hv',
    fun j hj => hb j (by omega)⟩
  rw [Open.addrOf_add]
  exact storeBytes_at hin

theorem freeEnds_iff (h : Valid env s c L) (hflag : s.world.index.compressed = false)
    (hl : l ∈ s.live) : s.world.FreeEnds env l.ptr <->
      exists c', Content.free env.freeSize l.block c = .ok ((), c') := by
  have hu := h.stored.uncompressed hflag
  have hk := (h.wf.tiling.block_bound (mem_block hl) (h.pos l hl)).1
  rw [Content.free_ok_iff, ← hu.topmost_iff hk, ← h.ptr l hl]
  rfl

/-- The bytes of a block that is freed, when its content is forgotten. -/
theorem freed_bytes (h : Valid env s c L) (hflag : s.world.index.compressed = false)
    (hends : s.world.FreeEnds env l.ptr) (hl : l ∈ s.live) {a n : Nat}
    (han : a + n ≤ 8 * l.ptr.size) :
    exists bytes : List Byte, bytes.length = n ∧ forall w b,
      Valid env ⟨w, s.live⟩ (c.setBits l.ptr.chkNo b) L -> w.index.compressed = false ->
      (forall j, j < 32 * l.ptr.offset ∨ 32 * l.ptr.offset + 64 * l.ptr.size ≤ j ->
        b j = (c.body l.ptr.chkNo).bits j) ->
      exists s', Prog.free env l.ptr ⟨w, s.live⟩ = .ok ((), s') ∧
        loadBytes ((w.addrOf l.ptr).add a) n s'.world = .ok (bytes, s'.world) := by
  have hoff : 32 * l.ptr.offset = 64 * l.block.start := by
    rw [h.ptr l hl, blockPtr_offset]
    omega
  have hlen : l.block.len = l.ptr.size := rfl
  have hspace : l.block.space = l.ptr.chkNo := rfl
  -- the release of the block with the bytes it has now
  have hself : c.setBits l.block.space (c.body l.block.space).bits = c := by
    unfold Content.setBits Content.setBody
    cases c
    simp
  rcases (h.freeEnds_iff hflag hl).mp hends with ⟨c', hfree⟩
  have hbound := h.wf.tiling.block_bound (mem_block hl) (h.pos l hl)
  refine ⟨(c'.body l.ptr.chkNo).bits.bytes (4 * l.ptr.offset + a) n, by simp, ?_⟩
  intro w b hv hflag' hb
  have hu := hv.stored.uncompressed hflag'
  have hfree' : Content.free env.freeSize l.block (c.setBits l.ptr.chkNo b) = .ok ((), c') := by
    have hsame : Content.free env.freeSize l.block (c.setBits l.block.space b) =
        Content.free env.freeSize l.block
          (c.setBits l.block.space (c.body l.block.space).bits) :=
      Content.free_setBits env.freeSize c l.block fun j hj => hb j (by omega)
    rw [hself, hfree] at hsame
    exact hsame
  have hsim := hu.tracks.free_simulates hv.wf (mem_block hl) (hv.pos l hl)
  rw [hfree', ← hv.ptr l hl] at hsim
  cases hw : ChkIndex.free env l.ptr 0 w with
  | error e =>
      rw [hw] at hsim
      cases hsim
  | ok rw' =>
      rcases rw' with ⟨u', w'⟩
      rw [hw] at hsim
      cases hsim with
      | ok htracks =>
          have h' := htracks.rep
          have hnum : c'.num = c.num :=
            ((Content.free_ensures h.wf (mem_block hl) (h.pos l hl)).of_ok hfree).2.2
          have hk : l.ptr.chkNo < c'.num := by
            rw [hnum, ← hspace]
            exact hbound.1
          have hfit := hu.fits.virgin_le _ hbound.1
          have hvirgin : ((c.setBits l.ptr.chkNo b).body l.block.space).virgin =
              (c.body l.block.space).virgin := (Content.SameMarks.setBits c _ b).virgin _
          rw [hvirgin, hspace] at hfit
          rw [hspace] at hbound
          refine ⟨⟨w', (Call.free l.ptr).holds s.live w' .done⟩, ?_, ?_⟩
          · unfold Prog.free
            rw [hw]
          · have hload := h'.loadBytes_ok (o := 4 * l.ptr.offset + a) (n := n) hk (by omega)
            have hreach := env.le_reach (h'.fits.cap_le _ hk)
            rw [Open.addrOf_add, ← htracks.index, hload]
            congr 2
            exact Bits.bytes_congr fun i hi => (h'.image _ hk).data _ (by omega) (by omega)

end Valid

/-!
## Strings
-/

namespace ChkStr

variable {env : Env} {s : Session} {x : ChkStr} {l lx : List Byte}

theorem accepts_of_shows {x' : ChkStr} {s' : Session} {p : CharPtr} {a n : Nat}
    (hstr : x.cStr s.world = .ok (p, s.world)) (hnul : NulFree l) (han : a + n ≤ l.length)
    (hrun : x.setData env (p.add a) n s = .ok ((0, x'), s')) (hopen : Open env s')
    (hshows : x'.Shows s' ((l.drop a).take n)) : AcceptsPiece env s x l a n := by
  have hlen : ((l.drop a).take n).length = n := by
    rw [List.length_take, List.length_drop]
    omega
  refine ⟨p, x', s', hstr, hrun, ?_, ?_⟩
  · rw [hshows.length_eq (hnul.piece a n), hlen]
  · rw [hshows.cBytes_ok hopen (by omega), List.take_of_length_le]
    rw [List.length_append, hlen]
    exact Nat.le_refl _

theorem cStr_long (h : Open env s) {b : Live} (hb : b ∈ s.live) (hflag : x.flag = 1)
    (hptr : x.dataPtr = b.ptr) :
    x.cStr s.world = .ok (.mem (s.world.addrOf b.ptr), s.world) := by
  unfold cStr
  rw [if_pos (by omega), hptr, Exec.bind_of_ok (h.chkPtr2addr_ok (h.chkNo_lt hb))]
  rfl

theorem accepts_short (h : Open env s) (hx : x.Shows s l) (hnul : NulFree l)
    (hlen : l.length ≤ 7) {a n : Nat} (han : a + n ≤ l.length) : AcceptsPiece env s x l a n := by
  have hpiece : ((l.drop a).take n).length = n := by
    rw [List.length_take, List.length_drop]
    omega
  cases hx with
  | long hlong _ _ _ _ _ _ => omega
  | short _ hflag hbytes =>
      have hstr : x.cStr s.world = .ok (.own 0, s.world) := by
        unfold cStr
        rw [if_neg (by omega)]
        rfl
      have hread : ((CharPtr.own 0).add a).read x n s.world =
          .ok ((l.drop a).take n, s.world) := by
        change (CharPtr.own (0 + a)).read x n s.world = _
        rw [CharPtr.read_own (by omega), Nat.zero_add, Bits.bytes_piece hbytes han]
      have hshows := store_shows s hflag (l := (l.drop a).take n) (by omega)
      rw [hpiece] at hshows
      refine accepts_of_shows hstr hnul han ?_ h hshows
      unfold setData
      rw [if_pos (by omega), if_neg (by omega), Exec.bind_of_ok (Exec.pure_apply _ _)]
      beta_reduce
      rw [Exec.bind_of_ok (Prog.mem_of_ok hread)]
      rfl

theorem accepts_long (h : Open env s) (hx : x.Shows s l) (hnul : NulFree l) {a n : Nat}
    (hn : 8 ≤ n) (han : a + n ≤ l.length) : AcceptsPiece env s x l a n := by
  have hpiece : ((l.drop a).take n).length = n := by
    rw [List.length_take, List.length_drop]
    omega
  rcases hx.cases_flag with ⟨hflag, -⟩ | ⟨b, hb, hflag, hptr, -, hstr, hfit, hbytes⟩
  · cases hx with
    | short hlen _ _ => omega
    | long _ hone _ _ _ _ _ => omega
  · have hcstr := cStr_long h hb hflag hptr
    have hread : ((CharPtr.mem (s.world.addrOf b.ptr)).add a).read x
        ((l.drop a).take n).length s.world = .ok ((l.drop a).take n, s.world) := by
      have hload := h.loadBytes_ok hb (a := a) (n := n) (by omega)
      rw [hpiece, ← Bits.bytes_piece hbytes han]
      exact hload
    rcases setData_inPlace h hx (by omega) (by omega) hread with ⟨x', s', hrun, hpost⟩
    rw [hpiece] at hrun
    rcases hpost with ⟨hopen, -, ⟨-, hshows, -⟩ | ⟨hcon, -⟩⟩
    · exact accepts_of_shows hcstr hnul han hrun hopen hshows
    · cases hcon

/-- Another string of the same length is stored in the block of a string. -/
theorem stores_again {c : Content} {L : Layout} (hv : Valid env s c L)
    (hcomp : s.world.index.compressed = false) {b : Live} (hb : b ∈ s.live) (hflag : x.flag = 1)
    (hptr : x.dataPtr = b.ptr) (hlong : 8 ≤ l.length) (hstr : x.strLen = l.length)
    (hfit : l.length + 1 ≤ 8 * b.ptr.size) :
    exists w m, x.setData env (.bytes l) l.length s =
        .ok ((0, x.setStrLen l.length), ⟨w, s.live⟩) ∧
      w.index.compressed = false ∧ Valid env ⟨w, s.live⟩ (c.setBits b.ptr.chkNo m) L ∧
      forall j, j < 32 * b.ptr.offset ∨ 32 * b.ptr.offset + 64 * b.ptr.size ≤ j ->
        m j = (c.body b.ptr.chkNo).bits j := by
  have hopen : Open env s := ⟨hcomp, c, L, hv⟩
  have hno := hopen.chkNo_lt hb
  rcases hv.storeBytes hcomp hb (a := 0) (d := l) (by omega) with
    ⟨w₁, b₁, hstore, hindex, hv₁, hout⟩
  rcases hv₁.storeBytes (by rw [hindex]; exact hcomp) hb (a := l.length) (d := [0])
    (by simp; omega) with ⟨w₂, b₂, hstore', hindex', hv₂, hout'⟩
  simp only at hindex' hstore'
  change ChunkMem.storeBytes (s.world.addrOf b.ptr) l s.world = .ok ((), w₁) at hstore
  have haddr : World.addrOf w₁ b.ptr = s.world.addrOf b.ptr := by
    unfold World.addrOf
    rw [hindex]
  rw [haddr] at hstore'
  have hfill : fill x (.bytes l) l.length s.world = .ok ((), w₂) := by
    unfold fill
    rw [hptr, Exec.bind_of_ok (hopen.chkPtr2addr_ok hno),
      Exec.bind_of_ok (CharPtr.read_bytes x l s.world), Exec.bind_of_ok hstore]
    exact hstore'
  rw [Content.setBits_setBits] at hv₂
  refine ⟨w₂, b₂, ?_, ?_, hv₂, fun j hj => ?_⟩
  · unfold setData
    rw [if_neg (by omega), if_pos ⟨by omega, by omega⟩, Exec.bind_of_ok (Prog.mem_of_ok hfill)]
    rfl
  · rw [hindex', hindex]
    exact hcomp
  · rw [hout' j hj, Content.setBits_bits, if_pos rfl]
    exact hout j hj

theorem setStrLen_flag (n : Nat) : (x.setStrLen n).flag = x.flag :=
  Bits.read_write_disjoint (by omega)

theorem setStrLen_dataPtr (n : Nat) : (x.setStrLen n).dataPtr = x.dataPtr :=
  Bits.readPtr_congr fun _ _ => Bits.write_outside (by omega)

/-- A short piece of a string in block form is what its freed block holds, whatever string of
that length is there. -/
theorem stores_freed (h : Open env s) (hx : x.Shows s lx) (hlong : 8 ≤ lx.length) {a n : Nat}
    (hn : n ≤ 7) (han : a + n ≤ lx.length)
    (hends : forall p, x.owned = some p -> s.world.FreeEnds env p) :
    exists bytes : List Byte, bytes.length = n ∧ forall l, l.length = lx.length ->
      exists x₁ s₁ p x₂ s₂, x.setData env (.bytes l) l.length s = .ok ((0, x₁), s₁) ∧
        x₁.cStr s₁.world = .ok (p, s₁.world) ∧
        x₁.setData env (p.add a) n s₁ = .ok ((0, x₂), s₂) ∧ Open env s₂ ∧
        x₂.Shows s₂ bytes := by
  rcases hx.cases_flag with ⟨hflag, -⟩ | ⟨b, hb, hflag, hptr, hown, hstr, hfit, -⟩
  · cases hx with
    | short hlen _ _ => omega
    | long _ hone _ _ _ _ _ => omega
  · rcases h with ⟨hcomp, c, L, hv⟩
    rcases hv.freed_bytes hcomp (hends _ hown) hb (a := a) (n := n) (by omega) with
      ⟨bytes, hbytes, hfreed⟩
    refine ⟨bytes, hbytes, fun l hl => ?_⟩
    rw [← hl] at hstr hfit hlong
    rcases stores_again hv hcomp hb hflag hptr hlong hstr hfit with
      ⟨w, m, hset, hcomp₁, hv₁, hout⟩
    have hopen₁ : Open env ⟨w, s.live⟩ := ⟨hcomp₁, _, L, hv₁⟩
    have hflag₁ := (x.setStrLen_flag l.length).trans hflag
    have hptr₁ := (x.setStrLen_dataPtr l.length).trans hptr
    -- the block is freed, and then read
    rcases hfreed w m hv₁ hcomp₁ hout with ⟨s₃, hfree, hload⟩
    have hpost := (hopen₁.free_ensures hb).of_ok hfree
    have hflag₂ : ((x.setStrLen l.length).setFlag 0).flag = 0 :=
      Bits.read_write_of_lt (by decide)
    have hshows := store_shows s₃ hflag₂ (l := bytes) (by omega)
    rw [hbytes] at hshows
    refine ⟨_, ⟨w, s.live⟩, _, _, s₃, hset, cStr_long hopen₁ hb hflag₁ hptr₁, ?_, hpost.isOpen,
      hshows⟩
    unfold setData
    rw [if_pos hn, if_pos (by omega), hptr₁, Exec.bind_of_ok hfree,
      Exec.bind_of_ok (Exec.pure_apply _ _)]
    beta_reduce
    have hread : ((CharPtr.mem (w.addrOf b.ptr)).add a).read
        ((x.setStrLen l.length).setFlag 0) n s₃.world = .ok (bytes, s₃.world) := hload
    rw [Exec.bind_of_ok (Prog.mem_of_ok hread)]
    rfl

/-- A short piece of a string in block form is accepted only when the release of the block
ends. -/
theorem accepts_ends (h : Open env s) (hx : x.Shows s lx) (hlong : 8 ≤ lx.length) {a n : Nat}
    (hn : n ≤ 7) (hl : l.length = lx.length)
    (hall : forall x₁ s₁, x.setData env (.bytes l) l.length s = .ok ((0, x₁), s₁) ->
      AcceptsPiece env s₁ x₁ l a n) : forall p, x.owned = some p -> s.world.FreeEnds env p := by
  rcases hx.cases_flag with ⟨hflag, -⟩ | ⟨b, hb, hflag, hptr, hown, hstr, hfit, -⟩
  · cases hx with
    | short hlen _ _ => omega
    | long _ hone _ _ _ _ _ => omega
  · intro p hp
    rw [hown] at hp
    cases hp
    rcases h with ⟨hcomp, c, L, hv⟩
    rw [← hl] at hstr hfit hlong
    rcases stores_again hv hcomp hb hflag hptr hlong hstr hfit with
      ⟨w, m, hset, hcomp₁, hv₁, hout⟩
    have hflag₁ := (x.setStrLen_flag l.length).trans hflag
    have hptr₁ := (x.setStrLen_dataPtr l.length).trans hptr
    rcases hall _ _ hset with ⟨p, x', s', -, hrun, -⟩
    unfold setData at hrun
    rw [if_pos hn, if_pos (by omega), hptr₁] at hrun
    rcases Exec.ok_of_bind hrun with ⟨_, s₂, hfree, -⟩
    have hopen₁ : Open env ⟨w, s.live⟩ := ⟨hcomp₁, _, L, hv₁⟩
    have hends := (hopen₁.free_ends_iff hb).mp ⟨s₂, hfree⟩
    -- the store left the mark of the chunk
    rcases hends with htop | hcuts
    · have hu := hv.stored.uncompressed hcomp
      have hu₁ := hv₁.stored.uncompressed hcomp₁
      have hk := (hv.wf.tiling.block_bound (Valid.mem_block hb) (hv.pos b hb)).1
      have hmarks := Content.SameMarks.setBits c b.ptr.chkNo m
      rw [hv.ptr b hb, hu₁.topmost_iff (by rw [hmarks.num]; exact hk), hmarks.virgin,
        ← hu.topmost_iff hk, ← hv.ptr b hb] at htop
      exact Or.inl htop
    · exact Or.inr hcuts

theorem Shows.length_lt (h : x.Shows s l) : l.length < 2 ^ 13 := by
  cases h with
  | short hlen _ _ => omega
  | long _ _ _ _ hstr _ _ =>
      rw [← hstr]
      exact Bits.read_lt _ _ _

end ChkStr

theorem AcceptsPiece.shown {env : Env} {s : Session} {x x₂ : ChkStr} {l : List Byte}
    {s₂ : Session} {p : CharPtr} {bytes : List Byte}
    {a n : Nat} (h : AcceptsPiece env s x l a n) (hstr : x.cStr s.world = .ok (p, s.world))
    (hrun : x.setData env (p.add a) n s = .ok ((0, x₂), s₂)) (hopen : Open env s₂)
    (hshows : x₂.Shows s₂ bytes) (hlen : bytes.length = n) : bytes = (l.drop a).take n := by
  rcases h with ⟨p', x', s', hstr', hrun', -, hbytes⟩
  rw [hstr] at hstr'
  cases hstr'
  rw [hrun] at hrun'
  cases hrun'
  rw [hshows.cBytes_ok hopen (by omega), List.take_of_length_le (by simp; omega)] at hbytes
  simp only [Except.ok.injEq, Prod.mk.injEq, and_true] at hbytes
  exact List.append_cancel_right hbytes

/-- In every session with an uncompressed index, for every string of it and every piece:
`set_data` accepts the piece, whatever string of that length is there, exactly when the string
has at most seven bytes, or the piece has at least eight, or it is empty and the release of the
block ends. -/
theorem Reach.accepts_piece_iff {env : Env} {s₀ : Session} (h : Reach env CarefulCall s₀)
    (hflag : s₀.world.index.compressed = false) {st : StrState} {t : Nat -> List Byte}
    (hst : StrReach env s₀ st t) {i a n : Nat} (han : a + n ≤ (t i).length) :
    (forall l x s, NulFree l -> l.length = (t i).length ->
      (st.strs i).setData env (.bytes l) l.length st.session = .ok ((0, x), s) ->
      AcceptsPiece env s x l a n) <->
    ((t i).length ≤ 7 ∨ 8 ≤ n ∨
      n = 0 ∧ forall p, (st.strs i).owned = some p -> st.session.world.FreeEnds env p) := by
  have hinv := hst.inv (h.isOpen hflag)
  have hlt := (hinv.shows i).length_lt
  constructor
  · intro hall
    by_contra hcon
    push Not at hcon
    rcases hcon with ⟨hlong, hn, hzero⟩
    have hnul : forall v : Byte, v ≠ 0 -> NulFree (List.replicate (t i).length v) := by
      intro v hv b hb
      rw [List.eq_of_mem_replicate hb]
      exact hv
    have hends := ChkStr.accepts_ends (l := List.replicate (t i).length 1) hinv.isOpen
      (hinv.shows i) (by omega) (by omega) (by simp)
      fun x₁ s₁ hset => hall _ x₁ s₁ (hnul 1 (by decide)) (by simp) hset
    have hpos : n ≠ 0 := fun hz => by
      rcases hzero hz with ⟨p, hown, hnot⟩
      exact hnot (hends p hown)
    rcases ChkStr.stores_freed hinv.isOpen (hinv.shows i) (by omega) (by omega) han hends with
      ⟨bytes, hlen, hrun⟩
    -- two strings of the same length, with no byte in common
    have hsame : forall v : Byte, v ≠ 0 -> bytes = List.replicate n v := by
      intro v hv
      rcases hrun (List.replicate (t i).length v) (by simp) with
        ⟨x₁, s₁, p, x₂, s₂, hset, hstr, hpiece, hopen, hshows⟩
      have haccepts := hall _ x₁ s₁ (hnul v hv) (by simp) hset
      rw [haccepts.shown hstr hpiece hopen hshows hlen, List.drop_replicate, List.take_replicate]
      congr 1
      omega
    have hone := hsame 1 (by decide)
    rw [hsame 2 (by decide)] at hone
    have hhead := congrArg List.head? hone
    rw [List.head?_replicate, List.head?_replicate, if_neg hpos, if_neg hpos] at hhead
    exact absurd (Option.some.inj hhead) (by decide)
  · intro hcond l x s hnul hl hset
    have hpost := (ChkStr.setData_ensures hinv.isOpen (hinv.shows i) (by omega)).of_ok hset
    rcases hpost with ⟨hopen, -, ⟨-, hshows, -⟩ | ⟨hcon, -⟩⟩
    · simp only at hshows
      rw [← hl] at han hcond
      rcases hcond with hshort | hlong | ⟨rfl, hends⟩
      · exact ChkStr.accepts_short hopen hshows hnul hshort han
      · exact ChkStr.accepts_long hopen hshows hnul hlong han
      · by_cases hlen : l.length ≤ 7
        · exact ChkStr.accepts_short hopen hshows hnul hlen han
        · rcases ChkStr.stores_freed hinv.isOpen (hinv.shows i) (by omega) (by omega)
            (hl ▸ han) hends with ⟨bytes, hbytes, hrun⟩
          rcases hrun l hl with ⟨x₁, s₁, p, x₂, s₂, hset', hstr, hpiece, hopen₂, hshows₂⟩
          rw [hset] at hset'
          cases hset'
          rw [List.length_eq_zero_iff.mp hbytes] at hshows₂
          exact ChkStr.accepts_of_shows hstr hnul han hpiece hopen₂ hshows₂
    · cases hcon

def storePiece (l : List Byte) (a n : Nat) : Prog (Int × Int × List Byte) := do
  let x <- ChkStr.init.setData Env.plain (.bytes l) l.length
  let p <- Prog.mem x.2.cStr
  let y <- x.2.setData Env.plain (p.add a) n
  let bytes <- Prog.mem (y.2.cBytes (n + 1))
  pure (x.1, y.1, bytes)

/-- Five bytes of a string of twelve are gone. -/
theorem short_piece_cleared :
    (storePiece twelveBytes 0 5 packed).toOption.map Prod.fst =
      some (0, 0, [0, 0, 0, 0, 0, 0]) := by decide +kernel

/-- In the string that was set first no piece of five bytes is accepted, and the empty piece
is. -/
theorem Reach.accepts_piece_iff_sample : exists st,
    (¬forall l x s, NulFree l -> l.length = 12 ->
      (StrState.strs st 0).setData Env.plain (.bytes l) l.length st.session = .ok ((0, x), s) ->
      AcceptsPiece Env.plain s x l 0 5) ∧
    forall l x s, NulFree l -> l.length = 12 ->
      (StrState.strs st 0).setData Env.plain (.bytes l) l.length st.session = .ok ((0, x), s) ->
      AcceptsPiece Env.plain s x l 4 0 := by
  have hallowed : forall call, call ∈ [StrCall.setData 0 twelveBytes, .setData 1 readmeText] ->
      call.Allowed := by decide
  have hopen : packed.world.index.compressed = false := by decide +kernel
  rcases StrReach.of_calls (f := fun x => (x.2 0).length) hallowed
    (show (StrCall.performAll Env.plain _ ⟨packed, fun _ => ChkStr.init⟩
      fun _ => []).toOption.map _ = some 12 by decide +kernel) with ⟨st, t, hst, hlen⟩
  simp only at hlen
  have hfive := Reach.accepts_piece_iff packed_reach hopen hst (i := 0) (a := 0) (n := 5)
    (by omega)
  have hnone := Reach.accepts_piece_iff packed_reach hopen hst (i := 0) (a := 4) (n := 0)
    (by omega)
  rw [hlen] at hfive hnone
  refine ⟨st, fun hall => ?_, hnone.mpr (Or.inr (Or.inr ⟨rfl, fun p _ => ?_⟩))⟩
  · rcases hfive.mp hall with hcon | hcon | ⟨hcon, -⟩ <;> omega
  · exact World.freeEnds_of_nonzero Env.plain_classesNonzero _ p

end ChunkMem
