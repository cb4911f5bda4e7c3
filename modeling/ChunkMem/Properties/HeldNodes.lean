import ChunkMem.Properties.StrTable
import ChunkMem.Structures.StrInPlace

/-!
# Nodes a program holds by address

A program makes nodes with strings in them, keeps the address of each, sets the strings
through these addresses as often as it likes, and destroys the nodes in any order.
-/

namespace ChunkMem

open Foundation

/-- A node the program made: its block, the address it took then, and the text it stored
last. -/
structure HeldNode where
  block : ChkPtr
  addr : Ptr
  text : List Byte

namespace HeldNode

variable (env : Env)

/-- `alloc(sizeof(StrNode))` and `init` of the string. -/
def create : Prog (Option HeldNode) := do
  let p <- Prog.alloc env StrNode.size
  if p.IsNull then pure none
  else do
    let a <- Prog.mem (chkPtr2addr p)
    Prog.mem (ChkStr.initAt a)
    pure (some ⟨p, a, []⟩)

/-- `uninit` of the string and `free` of the node. -/
def destroy (n : HeldNode) : Prog Unit := do
  ChkStr.uninitAt env n.addr
  Prog.free env n.block

/-- The node after `set_data`. -/
def after (n : HeldNode) (r : Int) (buf : List Byte) : HeldNode :=
  { n with text := if r = 0 then buf else n.text }

end HeldNode

/-- What a program that makes, sets and destroys nodes leads to from the session `s₀`. -/
inductive NodeReach (env : Env) (s₀ : Session) : Session -> List HeldNode -> Prop where
  | start : NodeReach env s₀ s₀ []
  | create {s s' : Session} {nodes : List HeldNode} {r : Option HeldNode} :
      NodeReach env s₀ s nodes -> HeldNode.create env s = .ok (r, s') ->
      NodeReach env s₀ s' (r.toList ++ nodes)
  | setData {s s' : Session} {l₁ l₂ : List HeldNode} {n : HeldNode} {buf : List Byte} {r : Int} :
      NodeReach env s₀ s (l₁ ++ n :: l₂) -> NulFree buf -> buf.length < 2 ^ 31 - 16 ->
      ChkStr.setDataAt env n.addr buf s = .ok (r, s') ->
      NodeReach env s₀ s' (l₁ ++ n.after r buf :: l₂)
  | destroy {s s' : Session} {l₁ l₂ : List HeldNode} {n : HeldNode} :
      NodeReach env s₀ s (l₁ ++ n :: l₂) -> n.destroy env s = .ok ((), s') ->
      NodeReach env s₀ s' (l₁ ++ l₂)

/-!
## The invariant
-/

def Session.str (s : Session) (n : HeldNode) : ChkStr := s.world.str n.block

/-- The block is there, at the address the program has, and shows the text. -/
structure HeldNode.Ok (s : Session) (n : HeldNode) : Prop where
  live : exists b, b ∈ s.live ∧ b.ptr = n.block
  addr : n.addr = s.world.addrOf n.block
  shows : (s.str n).Shows s n.text
  nulFree : NulFree n.text

structure NodesInv (env : Env) (s₀ s : Session) (nodes : List HeldNode) : Prop where
  isOpen : Open env s
  ok : forall n, n ∈ nodes -> n.Ok s
  once : (nodes.map HeldNode.block).Nodup
  apart : forall n m, n ∈ nodes -> m ∈ nodes -> (s.str n).owned ≠ some m.block
  owner : forall n m p, n ∈ nodes -> m ∈ nodes -> (s.str n).owned = some p ->
    (s.str m).owned = some p -> n.block = m.block
  accounted : forall b, b ∈ s.live -> b ∈ s₀.live ∨ (exists n, n ∈ nodes ∧ n.block = b.ptr) ∨
    exists n, n ∈ nodes ∧ (s.str n).owned = some b.ptr
  others : forall b, b ∈ s₀.live -> b ∈ s.live ∧ World.KeepsBlock s₀.world s.world b.ptr ∧
    forall n, n ∈ nodes -> n.block ≠ b.ptr ∧ (s.str n).owned ≠ some b.ptr

theorem HeldNode.Ok.kept {env : Env} {s s' : Session} {n : HeldNode} (h : n.Ok s)
    (hopen : Open env s) (hkept : forall b, b ∈ s.live ->
      b.ptr = n.block ∨ (s.str n).owned = some b.ptr -> b ∈ s'.live ∧
        s'.world.addrOf b.ptr = s.world.addrOf b.ptr ∧
        World.KeepsBlock s.world s'.world b.ptr) :
    n.Ok s' ∧ (s'.str n).owned = (s.str n).owned := by
  rcases h.live with ⟨b, hb, hblock⟩
  rcases hkept b hb (Or.inl hblock) with ⟨hb', haddr, hsame⟩
  rw [hblock] at haddr hsame
  have hpos := hopen.size_pos hb
  rw [hblock] at hpos
  have hstr : ChkStr.Same (s.str n) (s'.str n) := hsame.same hpos
  have hshows : (s.str n).Shows s' n.text :=
    h.shows.kept fun c hc hown => ⟨(hkept c hc (Or.inr hown)).1, (hkept c hc (Or.inr hown)).2.2⟩
  exact ⟨⟨⟨b, hb', hblock⟩, h.addr.trans haddr.symm, hstr.shows hshows, h.nulFree⟩, hstr.owned_eq⟩

theorem Open.initAt_ok {env : Env} {s : Session} {b : Live} (h : Open env s) (hb : b ∈ s.live) :
    exists m w', ChkStr.initAt (s.world.addrOf b.ptr) s.world = .ok ((), w') ∧
      HeaderSet env s b m w' ∧ (w'.str b.ptr).flag = 0 ∧
      (w'.str b.ptr).Shows ⟨w', s.live⟩ [] := by
  have hpos := h.size_pos hb
  have hin := h.inside hb (o := 4 * b.ptr.offset) (n := 8 * 8) (by omega)
  have hset := h.setHeader hb
    (m := (s.world.chunkBits b.ptr.chkNo).clear (32 * b.ptr.offset + 0) 64)
    fun j hj => Bits.clear_outside (by omega)
  have hrun : ChkStr.initAt (s.world.addrOf b.ptr) s.world = .ok ((), s.world.setChunk b.ptr.chkNo
      ((s.world.chunkBits b.ptr.chkNo).clear (32 * b.ptr.offset + 0) 64)) := by
    unfold ChkStr.initAt
    rw [addrOf_eq, bzero_at hin, show 8 * (4 * b.ptr.offset) = 32 * b.ptr.offset by omega]
    rfl
  rw [Bits.drop_clear] at hset
  generalize s.world.setChunk b.ptr.chkNo _ = w' at hrun hset
  have hzero : forall j, j < 64 -> (w'.str b.ptr).bits j = false := by
    intro j hj
    rw [hset.str_eq]
    exact Bits.clear_inside (by omega) (by omega)
  have hsame : ChkStr.Same ChkStr.init (w'.str b.ptr) := fun j hj => hzero j hj
  exact ⟨_, w', hrun, hset, hsame.flag_eq.trans ChkStr.init_flag,
    hsame.shows (ChkStr.init_shows _)⟩

/-- `set_data` of the string at an address returns -1 when `alloc` refuses, else zero. -/
theorem ChkStr.setDataAt_code {env : Env} {s s' : Session} {x : ChkStr} {str : Ptr}
    {buf : List Byte} (hmax : buf.length < 2 ^ 31 - 16) {r : Int}
    (hflag : load str ⟨56, 8⟩ s.world = .ok (x.flag, s.world))
    (hlen : load str ⟨32, 13⟩ s.world = .ok (x.strLen, s.world))
    (hrun : setDataAt env str buf s = .ok (r, s')) :
    (x.Refused env s buf.length -> r = -1) ∧ (¬x.Refused env s buf.length -> r = 0) := by
  unfold setDataAt at hrun
  by_cases hshort : buf.length ≤ 7
  · rw [if_pos hshort] at hrun
    have hnot : ¬x.Refused env s buf.length := fun hcon => absurd hcon.1.1 (by omega)
    refine ⟨fun hcon => absurd hcon hnot, fun _ => ?_⟩
    rcases Exec.ok_of_bind hrun with ⟨_, s₁, -, hrun₁⟩
    rcases Exec.ok_of_bind hrun₁ with ⟨_, s₂, -, hrun₂⟩
    rcases Exec.ok_of_bind hrun₂ with ⟨_, s₃, -, hrun₃⟩
    rcases Exec.ok_of_bind hrun₃ with ⟨_, s₄, -, hlast⟩
    cases hlast
    rfl
  · rw [if_neg hshort, Exec.bind_of_ok (Prog.mem_of_ok hflag),
      Exec.bind_of_ok (Prog.mem_of_ok hlen)] at hrun
    by_cases hplace : x.flag ≠ 0 ∧ x.strLen ≥ buf.length
    · rw [if_pos hplace] at hrun
      rcases Exec.ok_of_bind hrun with ⟨_, s₁, -, hlast⟩
      cases hlast
      exact ⟨fun hcon => absurd hplace hcon.1.2, fun _ => rfl⟩
    · have hwrap : wrapInt ((buf.length : Int) + 1) = (buf.length : Int) + 1 :=
        wrapInt_of_lt (by omega) (by omega)
      rw [if_neg hplace, hwrap] at hrun
      rcases Exec.ok_of_bind hrun with ⟨p, s₁, halloc, hrest⟩
      by_cases hnull : p.IsNull
      · rw [if_pos hnull] at hrest
        cases hrest
        exact ⟨fun _ => rfl, fun hcon => absurd ⟨⟨by omega, hplace⟩, p, _, halloc, hnull⟩ hcon⟩
      · have hnot : ¬x.Refused env s buf.length := by
          rintro ⟨-, q, s₂, halloc', hq⟩
          cases halloc.symm.trans halloc'
          exact hnull hq
        refine ⟨fun hcon => absurd hcon hnot, fun _ => ?_⟩
        rw [if_neg hnull] at hrest
        rcases Exec.ok_of_bind hrest with ⟨_, s₂, -, hrest₁⟩
        rcases Exec.ok_of_bind hrest₁ with ⟨_, s₃, -, hrest₂⟩
        rcases Exec.ok_of_bind hrest₂ with ⟨_, s₄, -, hlast⟩
        cases hlast
        rfl

namespace NodesInv

variable {env : Env} {s₀ s s' : Session} {nodes l₁ l₂ : List HeldNode} {n : HeldNode}

theorem start (h : Open env s₀) : NodesInv env s₀ s₀ [] := by
  refine ⟨h, nofun, List.nodup_nil, nofun, nofun, fun b hb => Or.inl hb, fun b hb => ?_⟩
  exact ⟨hb, fun _ _ => rfl, nofun⟩

theorem create_step (h : NodesInv env s₀ s nodes) {r : Option HeldNode}
    (hrun : HeldNode.create env s = .ok (r, s')) : NodesInv env s₀ s' (r.toList ++ nodes) := by
  unfold HeldNode.create at hrun
  rcases Exec.ok_of_bind hrun with ⟨p, s₁, halloc, hrest⟩
  have hsize : (0 : Int) < StrNode.size ∧ (StrNode.size : Int) < 2 ^ 31 - 7 := by decide
  rcases (h.isOpen.alloc_stays hsize.1 hsize.2).of_ok halloc with ⟨⟨h₁, hkept₁, hout⟩, haddr₁⟩
  rcases hout with ⟨hnull, hlive⟩ | ⟨hnull, hlive, hfit, hsz, hfresh⟩
  · rw [if_pos hnull] at hrest
    cases hrest
    have hstays : forall n, n ∈ nodes -> n.Ok s' ∧ (s'.str n).owned = (s.str n).owned :=
      fun n hn => (h.ok n hn).kept h.isOpen fun b hb _ => ⟨hlive ▸ hb, haddr₁ b hb, hkept₁ b hb⟩
    refine ⟨h₁, fun n hn => (hstays n hn).1, h.once, fun n m hn hm => ?_,
      fun n m p hn hm hp hq => ?_, fun b hb => ?_, fun b hb => ?_⟩
    · rw [(hstays n hn).2]
      exact h.apart n m hn hm
    · rw [(hstays n hn).2] at hp
      rw [(hstays m hm).2] at hq
      exact h.owner n m p hn hm hp hq
    · refine (h.accounted b (hlive ▸ hb)).imp_right (Or.imp_right ?_)
      rintro ⟨n, hn, hown⟩
      exact ⟨n, hn, (hstays n hn).2.trans hown⟩
    · rcases h.others b hb with ⟨hb', hsame, hnone⟩
      refine ⟨hlive ▸ hb', fun j hj => (hkept₁ b hb' j hj).trans (hsame j hj), fun n hn => ?_⟩
      rw [(hstays n hn).2]
      exact hnone n hn
  · have hself : (⟨p, StrNode.size⟩ : Live) ∈ s₁.live := by
      rw [hlive]
      exact List.mem_cons_self
    have hsub : forall b, b ∈ s.live -> b ∈ s₁.live := fun b hb => by
      rw [hlive]
      exact List.mem_cons_of_mem _ hb
    rcases h₁.initAt_ok hself with ⟨m, w₂, hinit, hset, hflag, hshows⟩
    have hdecode := h₁.chkPtr2addr_ok (h₁.chkNo_lt hself)
    rw [if_neg hnull, Exec.bind_of_ok (Prog.mem_of_ok hdecode),
      Exec.bind_of_ok (Prog.mem_of_ok hinit)] at hrest
    cases hrest
    have hbits : forall b, b ∈ s.live -> World.KeepsBlock s.world w₂ b.ptr :=
      fun b hb j hj => (hset.others b (hsub b hb) (hfresh b hb) j hj).trans (hkept₁ b hb j hj)
    have hstays : forall n, n ∈ nodes -> n.Ok ⟨w₂, s₁.live⟩ ∧
        (Session.str ⟨w₂, s₁.live⟩ n).owned = (s.str n).owned :=
      fun n hn => (h.ok n hn).kept h.isOpen fun b hb _ =>
        ⟨hsub b hb, (hset.addr_eq b.ptr).trans (haddr₁ b hb), hbits b hb⟩
    have hnone : (Session.str ⟨w₂, s₁.live⟩ ⟨p, s₁.world.addrOf p, []⟩).owned = none :=
      ChkStr.owned_short hflag
    have hnew : forall n, n ∈ nodes -> n.block ≠ p := by
      intro n hn heq
      rcases (h.ok n hn).live with ⟨b, hb, hblock⟩
      exact hfresh b hb (hblock.trans heq)
    have hnot : forall n, n ∈ nodes -> (s.str n).owned ≠ some p := by
      intro n hn hown
      rcases (h.ok n hn).shows.owned_live hown with ⟨b, hb, hptr, -⟩
      exact hfresh b hb hptr
    refine ⟨hset.isOpen, ?_, ?_, ?_, ?_, ?_, ?_⟩
    · intro n hn
      rcases List.mem_cons.mp hn with rfl | hn
      · exact ⟨⟨_, hself, rfl⟩, (hset.addr_eq p).symm, hshows, NulFree.nil⟩
      · exact (hstays n hn).1
    · refine List.nodup_cons.mpr ⟨fun hmem => ?_, h.once⟩
      rcases List.mem_map.mp hmem with ⟨n, hn, heq⟩
      exact hnew n hn heq
    · intro n m hn hm
      rcases List.mem_cons.mp hn with rfl | hn
      · rw [hnone]
        exact nofun
      · rw [(hstays n hn).2]
        rcases List.mem_cons.mp hm with rfl | hm
        · exact hnot n hn
        · exact h.apart n m hn hm
    · intro n m q hn hm hp hq
      rcases List.mem_cons.mp hn with rfl | hn
      · rw [hnone] at hp
        cases hp
      · rcases List.mem_cons.mp hm with rfl | hm
        · rw [hnone] at hq
          cases hq
        · rw [(hstays n hn).2] at hp
          rw [(hstays m hm).2] at hq
          exact h.owner n m q hn hm hp hq
    · intro b hb
      change b ∈ s₁.live at hb
      rw [hlive] at hb
      rcases List.mem_cons.mp hb with rfl | hb
      · exact Or.inr (Or.inl ⟨_, List.mem_cons_self, rfl⟩)
      · rcases h.accounted b hb with hb₀ | ⟨n, hn, heq⟩ | ⟨n, hn, hown⟩
        · exact Or.inl hb₀
        · exact Or.inr (Or.inl ⟨n, List.mem_cons_of_mem _ hn, heq⟩)
        · exact Or.inr (Or.inr ⟨n, List.mem_cons_of_mem _ hn, (hstays n hn).2.trans hown⟩)
    · intro b hb
      rcases h.others b hb with ⟨hb', hsame, hnone'⟩
      refine ⟨hsub b hb', fun j hj => (hbits b hb' j hj).trans (hsame j hj), fun n hn => ?_⟩
      rcases List.mem_cons.mp hn with rfl | hn
      · rw [hnone]
        exact ⟨fun heq => hfresh b hb' heq.symm, nofun⟩
      · rw [(hstays n hn).2]
        exact hnone' n hn

theorem perm (h : NodesInv env s₀ s nodes) {nodes' : List HeldNode} (hp : nodes.Perm nodes') :
    NodesInv env s₀ s nodes' := by
  have hmem : forall n, n ∈ nodes' -> n ∈ nodes := fun n hn => hp.mem_iff.mpr hn
  refine ⟨h.isOpen, fun n hn => h.ok n (hmem n hn), (hp.map _).nodup_iff.mp h.once,
    fun n m hn hm => h.apart n m (hmem n hn) (hmem m hm),
    fun n m p hn hm => h.owner n m p (hmem n hn) (hmem m hm), fun b hb => ?_, fun b hb => ?_⟩
  · rcases h.accounted b hb with hb₀ | ⟨n, hn, heq⟩ | ⟨n, hn, hown⟩
    · exact Or.inl hb₀
    · exact Or.inr (Or.inl ⟨n, hp.mem_iff.mp hn, heq⟩)
    · exact Or.inr (Or.inr ⟨n, hp.mem_iff.mp hn, hown⟩)
  · rcases h.others b hb with ⟨hb', hsame, hnone⟩
    exact ⟨hb', hsame, fun n hn => hnone n (hmem n hn)⟩

theorem rest_apart (h : NodesInv env s₀ s (n :: nodes)) {m : HeldNode} (hm : m ∈ nodes)
    {b : Live} (hb : b.ptr = m.block ∨ (s.str m).owned = some b.ptr) :
    b.ptr ≠ n.block ∧ (s.str n).owned ≠ some b.ptr := by
  have hm' : m ∈ n :: nodes := List.mem_cons_of_mem n hm
  have hn : n ∈ n :: nodes := List.mem_cons_self
  have hne : m.block ≠ n.block := fun heq =>
    (List.nodup_cons.mp h.once).1 (heq ▸ List.mem_map_of_mem hm)
  rcases hb with hblock | hown
  · rw [hblock]
    exact ⟨hne, h.apart n m hn hm'⟩
  · constructor
    · intro heq
      rw [heq] at hown
      exact h.apart m n hm' hn hown
    · exact fun hcon => hne (h.owner m n _ hm' hn hown hcon)

/-- What `set_data` on the first node leaves of the nodes and of the blocks. -/
structure SetEffect (env : Env) (s s' : Session) (n n' : HeldNode) (nodes : List HeldNode) :
    Prop where
  isOpen : Open env s'
  first : n'.Ok s'
  rest : forall m, m ∈ nodes -> m.Ok s' ∧ (s'.str m).owned = (s.str m).owned
  back : forall c, c ∈ s.live -> (s'.str n).owned = some c.ptr -> (s.str n).owned = some c.ptr
  live : forall c, c ∈ s'.live -> c ∈ s.live ∧ (s.str n).owned ≠ some c.ptr ∨
    (s'.str n).owned = some c.ptr
  others : forall c, c ∈ s.live -> (s.str n).owned ≠ some c.ptr ->
    c ∈ s'.live ∧ (c.ptr ≠ n.block -> World.KeepsBlock s.world s'.world c.ptr)

theorem set_effect (h : NodesInv env s₀ s (n :: nodes)) {buf : List Byte} (hbuf : NulFree buf)
    (hmax : buf.length < 2 ^ 31 - 16) {r : Int}
    (hrun : ChkStr.setDataAt env n.addr buf s = .ok (r, s')) :
    SetEffect env s s' n (n.after r buf) nodes := by
  have hn : n ∈ n :: nodes := List.mem_cons_self
  have hok := h.ok n hn
  rcases hok.live with ⟨b, hb, hblock⟩
  have hshows := hok.shows
  have hself := h.apart n n hn hn
  have hset := h.isOpen.setDataAt_ensures hb (l := buf) (by rw [hblock]; exact hshows)
    (by rw [hblock]; exact hself) hmax
  rw [hblock, ← hok.addr] at hset
  have hpost := hset.of_ok hrun
  have hstr : s.world.str b.ptr = s.str n := by rw [hblock]; rfl
  have hstr' : s'.world.str b.ptr = s'.str n := by rw [hblock]; rfl
  rcases hpost with ⟨hopen', haddr, -, hothers, hout⟩
  rw [hstr, hstr'] at hout
  rw [hstr, hblock] at hothers
  have hlive' : exists c, c ∈ s'.live ∧ c.ptr = n.block :=
    ⟨b, (hothers b hb (by rw [hblock]; exact hself)).1, hblock⟩
  -- a failure leaves every block alone, and with them the string of the node
  have hfailed : s'.live = s.live ->
      (forall c, c ∈ s.live -> World.KeepsBlock s.world s'.world c.ptr) ->
      n.Ok s' ∧ (s'.str n).owned = (s.str n).owned :=
    fun hlive hkept => hok.kept h.isOpen fun c hc _ => ⟨hlive ▸ hc, haddr c hc, hkept c hc⟩
  refine ⟨hopen', ⟨hlive', ?_, ?_, ?_⟩, ?_, ?_, ?_, hothers⟩
  · have hb' := haddr b hb
    rw [hblock] at hb'
    exact hok.addr.trans hb'.symm
  · rcases hout with ⟨rfl, hnew, -⟩ | ⟨rfl, hlive, hkept⟩
    · exact hnew
    · exact (hfailed hlive hkept).1.shows
  · unfold HeldNode.after
    split
    · exact hbuf
    · exact hok.nulFree
  · intro m hm
    refine (h.ok m (List.mem_cons_of_mem n hm)).kept h.isOpen fun c hc hcm => ?_
    rcases h.rest_apart hm hcm with ⟨hcn, hcown⟩
    rcases hothers c hc hcown with ⟨hc', hkept⟩
    exact ⟨hc', haddr c hc, hkept hcn⟩
  · intro c hc heq
    rcases hout with ⟨-, -, -, hown⟩ | ⟨-, hlive, hkept⟩
    · exact hown c hc heq
    · rw [← (hfailed hlive hkept).2]
      exact heq
  · intro c hc
    rcases hout with ⟨-, -, hlive, -⟩ | ⟨-, hlive, hkept⟩
    · exact hlive c hc
    · by_cases hcown : (s.str n).owned = some c.ptr
      · exact Or.inr ((hfailed hlive hkept).2.trans hcown)
      · exact Or.inl ⟨hlive ▸ hc, hcown⟩

/-- The string as a value would have got the same code and would show the same text. -/
theorem set_agrees (h : NodesInv env s₀ s (n :: nodes)) {buf : List Byte} (hbuf : NulFree buf)
    (hmax : buf.length < 2 ^ 31 - 16) {r r' : Int} {x : ChkStr} {s₂ : Session}
    (hrun : ChkStr.setDataAt env n.addr buf s = .ok (r, s'))
    (hvalue : (s.str n).setData env (.bytes buf) buf.length s = .ok ((r', x), s₂)) :
    r' = r ∧ (s'.str n).Shows s' (n.after r buf).text ∧ x.Shows s₂ (n.after r buf).text := by
  have hok := h.ok n List.mem_cons_self
  rcases hok.live with ⟨b, hb, hblock⟩
  have haddr : n.addr = s.world.addrOf b.ptr := hblock ▸ hok.addr
  have hstr : s.world.str b.ptr = s.str n := hblock ▸ rfl
  have hflag : load n.addr ⟨56, 8⟩ s.world = .ok ((s.str n).flag, s.world) := by
    rw [haddr, ← hstr]
    exact h.isOpen.load_block hb (by decide)
  have hlen : load n.addr ⟨32, 13⟩ s.world = .ok ((s.str n).strLen, s.world) := by
    rw [haddr, ← hstr]
    exact h.isOpen.load_block hb (by decide)
  have hcode := ChkStr.setDataAt_code hmax hflag hlen hrun
  have hcode' := ChkStr.setData_code hmax hvalue
  have hsame : r' = r := by
    by_cases href : (s.str n).Refused env s buf.length
    · rw [hcode.1 href, hcode'.1 href]
    · rw [hcode.2 href, hcode'.2 href]
  subst hsame
  refine ⟨rfl, (h.set_effect hbuf hmax hrun).first.shows, ?_⟩
  rcases ((ChkStr.setData_ensures h.isOpen hok.shows hmax).of_ok hvalue).outcome with
    ⟨rfl, hshows, -⟩ | ⟨rfl, rfl, hlive, hkept⟩
  · exact hshows
  · exact hok.shows.kept fun c hc _ => ⟨hlive ▸ hc, hkept c hc⟩

namespace SetEffect

variable {r : Int} {buf : List Byte}

theorem apart (he : SetEffect env s s' n (n.after r buf) nodes)
    (h : NodesInv env s₀ s (n :: nodes)) {m k : HeldNode} (hm : m ∈ n.after r buf :: nodes)
    (hk : k ∈ n.after r buf :: nodes) : (s'.str m).owned ≠ some k.block := by
  have hn : n ∈ n :: nodes := List.mem_cons_self
  have hold : exists k₀, k₀ ∈ n :: nodes ∧ k₀.block = k.block := by
    rcases List.mem_cons.mp hk with rfl | hk
    · exact ⟨n, hn, rfl⟩
    · exact ⟨k, List.mem_cons_of_mem n hk, rfl⟩
  rcases hold with ⟨k₀, hk₀, hkb⟩
  rw [← hkb]
  rcases List.mem_cons.mp hm with rfl | hm
  · intro heq
    rcases (h.ok k₀ hk₀).live with ⟨c, hc, hcb⟩
    rw [← hcb] at heq
    have hown := he.back c hc heq
    rw [hcb] at hown
    exact h.apart n k₀ hn hk₀ hown
  · rw [(he.rest m hm).2]
    exact h.apart m k₀ (List.mem_cons_of_mem n hm) hk₀

theorem owner (he : SetEffect env s s' n (n.after r buf) nodes)
    (h : NodesInv env s₀ s (n :: nodes)) {m k : HeldNode} {p : ChkPtr}
    (hm : m ∈ n.after r buf :: nodes) (hk : k ∈ n.after r buf :: nodes)
    (hp : (s'.str m).owned = some p) (hq : (s'.str k).owned = some p) : m.block = k.block := by
  have hn : n ∈ n :: nodes := List.mem_cons_self
  have hmem : forall m, m ∈ nodes -> m ∈ n :: nodes := fun m hm => List.mem_cons_of_mem n hm
  have hcross : forall m p, m ∈ nodes -> (s'.str n).owned = some p ->
      (s.str m).owned = some p -> n.block = m.block := by
    intro m p hm hp hq
    rcases (h.ok m (hmem m hm)).shows.owned_live hq with ⟨c, hc, rfl, -⟩
    exact h.owner n m _ hn (hmem m hm) (he.back c hc hp) hq
  rcases List.mem_cons.mp hm with rfl | hm
  · rcases List.mem_cons.mp hk with rfl | hk
    · rfl
    · rw [(he.rest k hk).2] at hq
      exact hcross k p hk hp hq
  · rw [(he.rest m hm).2] at hp
    rcases List.mem_cons.mp hk with rfl | hk
    · exact (hcross m p hm hq hp).symm
    · rw [(he.rest k hk).2] at hq
      exact h.owner m k p (hmem m hm) (hmem k hk) hp hq

end SetEffect

theorem set_step (h : NodesInv env s₀ s (n :: nodes)) {buf : List Byte} (hbuf : NulFree buf)
    (hmax : buf.length < 2 ^ 31 - 16) {r : Int}
    (hrun : ChkStr.setDataAt env n.addr buf s = .ok (r, s')) :
    NodesInv env s₀ s' (n.after r buf :: nodes) := by
  have hn : n ∈ n :: nodes := List.mem_cons_self
  have he := h.set_effect hbuf hmax hrun
  refine ⟨he.isOpen, ?_, h.once, fun m k hm hk => he.apart h hm hk,
    fun m k p hm hk hp hq => he.owner h hm hk hp hq, ?_, ?_⟩
  · intro m hm
    rcases List.mem_cons.mp hm with rfl | hm
    · exact he.first
    · exact (he.rest m hm).1
  · intro c hc
    rcases he.live c hc with ⟨hc', hcne⟩ | hcown
    · rcases h.accounted c hc' with hc₀ | ⟨m, hm, heq⟩ | ⟨m, hm, hown⟩
      · exact Or.inl hc₀
      · rcases List.mem_cons.mp hm with rfl | hm
        · exact Or.inr (Or.inl ⟨_, List.mem_cons_self, heq⟩)
        · exact Or.inr (Or.inl ⟨m, List.mem_cons_of_mem _ hm, heq⟩)
      · rcases List.mem_cons.mp hm with rfl | hm
        · exact absurd hown hcne
        · exact Or.inr (Or.inr ⟨m, List.mem_cons_of_mem _ hm, (he.rest m hm).2.trans hown⟩)
    · exact Or.inr (Or.inr ⟨_, List.mem_cons_self, hcown⟩)
  · intro c hc
    rcases h.others c hc with ⟨hc', hbits, hnone⟩
    rcases hnone n hn with ⟨hcn, hcown⟩
    rcases he.others c hc' hcown with ⟨hc'', hkept⟩
    refine ⟨hc'', fun j hj => (hkept (fun heq => hcn heq.symm) j hj).trans (hbits j hj),
      fun m hm => ?_⟩
    rcases List.mem_cons.mp hm with rfl | hm
    · exact ⟨hcn, fun heq => hcown (he.back c hc' heq)⟩
    · rw [(he.rest m hm).2]
      exact hnone m (List.mem_cons_of_mem n hm)

/-- `set_data` through the address of the node returns zero or minus one. -/
theorem set_ensures (h : NodesInv env s₀ s nodes) (hn : n ∈ nodes) {buf : List Byte}
    (hmax : buf.length < 2 ^ 31 - 16) :
    Exec.Ensures (ChkStr.setDataAt env n.addr buf s) (fun r _ => r = 0 ∨ r = -1)
      (Expected env) := by
  have hok := h.ok n hn
  rcases hok.live with ⟨b, hb, hblock⟩
  have hshows := hok.shows
  have hself := h.apart n n hn hn
  have hset := h.isOpen.setDataAt_ensures hb (l := buf) (by rw [hblock]; exact hshows)
    (by rw [hblock]; exact hself) hmax
  rw [hblock, ← hok.addr] at hset
  refine hset.mono ?_ fun _ he => he
  intro r s' hpost
  exact hpost.outcome.imp And.left And.left

theorem destroy_ensures (h : NodesInv env s₀ s (n :: nodes)) :
    Exec.Ensures (n.destroy env s) (fun _ _ => True) (Content.PoolFault env.freeSize) := by
  have hn : n ∈ n :: nodes := List.mem_cons_self
  have hok := h.ok n hn
  rcases hok.live with ⟨b, hb, hblock⟩
  have hshows := hok.shows
  have hself := h.apart n n hn hn
  have hensures := h.isOpen.uninitAt_ensures hb (by rw [hblock]; exact hshows)
  rw [hblock, ← hok.addr] at hensures
  unfold HeldNode.destroy
  refine hensures.bind fun _ s₁ hpost => ?_
  rcases hpost with ⟨h₁, -, hmem₁, -⟩
  have hb₁ : b ∈ s₁.live := (hmem₁ b).mpr ⟨hb, by rw [hblock]; exact hself⟩
  rw [← hblock]
  exact (h₁.free_stays hb₁).mono (fun _ _ _ => trivial) fun _ he => he

theorem destroy_step (h : NodesInv env s₀ s (n :: nodes))
    (hrun : n.destroy env s = .ok ((), s')) : NodesInv env s₀ s' nodes := by
  have hn : n ∈ n :: nodes := List.mem_cons_self
  have hok := h.ok n hn
  rcases hok.live with ⟨b, hb, hblock⟩
  have hshows := hok.shows
  have hself := h.apart n n hn hn
  unfold HeldNode.destroy at hrun
  rcases Exec.ok_of_bind hrun with ⟨_, s₁, huninit, hfree⟩
  have hensures := h.isOpen.uninitAt_ensures hb (by rw [hblock]; exact hshows)
  rw [hblock, ← hok.addr] at hensures
  rcases hensures.of_ok huninit with ⟨h₁, hindex₁, hmem₁, hkept₁⟩
  have hb₁ : b ∈ s₁.live := (hmem₁ b).mpr ⟨hb, by rw [hblock]; exact hself⟩
  rw [← hblock] at hfree
  rcases (h₁.free_stays hb₁).of_ok hfree with ⟨hpost, hindex⟩
  have hmem : forall c, c ∈ s'.live <-> c ∈ s.live ∧ (s.str n).owned ≠ some c.ptr ∧
      c.ptr ≠ n.block := by
    intro c
    rw [hpost.mem_iff h₁ hb₁, hmem₁, hblock, and_assoc]
    rfl
  have hkept : forall c, c ∈ s'.live -> World.KeepsBlock s.world s'.world c.ptr := by
    intro c hc j hj
    rw [hpost.kept c hc j hj]
    exact hkept₁ c ((hpost.mem_iff h₁ hb₁).mp hc).1 j hj
  have haddr : forall p : ChkPtr, s'.world.addrOf p = s.world.addrOf p := fun p => by
    unfold World.addrOf
    rw [hindex, hindex₁]
  have hcons : forall m, m ∈ nodes -> m ∈ n :: nodes := fun m hm => List.mem_cons_of_mem n hm
  have hstays : forall m, m ∈ nodes -> m.Ok s' ∧ (s'.str m).owned = (s.str m).owned := by
    intro m hm
    refine (h.ok m (hcons m hm)).kept h.isOpen fun c hc hcm => ?_
    rcases h.rest_apart hm hcm with ⟨hcn, hcown⟩
    have hc' := (hmem c).mpr ⟨hc, hcown, hcn⟩
    exact ⟨hc', haddr c.ptr, hkept c hc'⟩
  refine ⟨hpost.isOpen, fun m hm => (hstays m hm).1, (List.nodup_cons.mp h.once).2, ?_, ?_, ?_, ?_⟩
  · intro m k hm hk
    rw [(hstays m hm).2]
    exact h.apart m k (hcons m hm) (hcons k hk)
  · intro m k p hm hk hp hq
    rw [(hstays m hm).2] at hp
    rw [(hstays k hk).2] at hq
    exact h.owner m k p (hcons m hm) (hcons k hk) hp hq
  · intro c hc
    rcases (hmem c).mp hc with ⟨hc', hcown, hcn⟩
    rcases h.accounted c hc' with hc₀ | ⟨m, hm, heq⟩ | ⟨m, hm, hown⟩
    · exact Or.inl hc₀
    · rcases List.mem_cons.mp hm with rfl | hm
      · exact absurd heq.symm hcn
      · exact Or.inr (Or.inl ⟨m, hm, heq⟩)
    · rcases List.mem_cons.mp hm with rfl | hm
      · exact absurd hown hcown
      · exact Or.inr (Or.inr ⟨m, hm, (hstays m hm).2.trans hown⟩)
  · intro c hc
    rcases h.others c hc with ⟨hc', hbits, hnone⟩
    have hc'' := (hmem c).mpr ⟨hc', (hnone n hn).2, fun heq => (hnone n hn).1 heq.symm⟩
    refine ⟨hc'', fun j hj => (hkept c hc'' j hj).trans (hbits j hj), fun m hm => ?_⟩
    rw [(hstays m hm).2]
    exact hnone m (hcons m hm)

end NodesInv

theorem NodeReach.inv {env : Env} {s₀ s : Session} {nodes : List HeldNode}
    (hopen : Open env s₀) (h : NodeReach env s₀ s nodes) : NodesInv env s₀ s nodes := by
  induction h with
  | start => exact .start hopen
  | create _ hrun ih => exact ih.create_step hrun
  | setData _ hbuf hmax hrun ih =>
      exact ((ih.perm List.perm_middle).set_step hbuf hmax hrun).perm List.perm_middle.symm
  | destroy _ hrun ih => exact (ih.perm List.perm_middle).destroy_step hrun

/-- Whatever nodes a program makes, sets and destroys, and in whatever order: the address it
took of a node stays good, `length` and `c_str` through it give what was stored
last, `set_data` through it returns zero or minus one unless memory cannot be obtained or a size
class is zero, every block in use is one of the beginning or belongs to a node, and the blocks
of the beginning are as they were. -/
theorem NodeReach.strings_stay {env : Env} {s₀ : Session} (hs : Reach env CarefulCall s₀)
    (hflag : s₀.world.index.compressed = false) {s : Session} {nodes : List HeldNode}
    (h : NodeReach env s₀ s nodes) :
    (forall n, n ∈ nodes ->
      chkPtr2addr n.block s.world = .ok (n.addr, s.world) ∧
      ChkStr.lengthAt n.addr s.world = .ok (n.text.length, s.world) ∧
      (exists a, ChkStr.cStrAt n.addr s.world = .ok (a, s.world) ∧ CString s.world a n.text) ∧
      forall buf : List Byte, buf.length < 2 ^ 31 - 16 ->
        Exec.Ensures (ChkStr.setDataAt env n.addr buf s) (fun r _ => r = 0 ∨ r = -1)
          (Expected env)) ∧
    (forall b, b ∈ s.live -> b ∈ s₀.live ∨ (exists n, n ∈ nodes ∧ n.block = b.ptr) ∨
      exists n, n ∈ nodes ∧ (s.str n).owned = some b.ptr) ∧
    forall b, b ∈ s₀.live -> b ∈ s.live ∧ World.KeepsBlock s₀.world s.world b.ptr := by
  have hinv := h.inv (hs.isOpen hflag)
  refine ⟨fun n hn => ?_, hinv.accounted,
    fun b hb => ⟨(hinv.others b hb).1, (hinv.others b hb).2.1⟩⟩
  have hok := hinv.ok n hn
  rcases hok.live with ⟨b, hb, hblock⟩
  have hopen := hinv.isOpen
  have hshows : (s.world.str b.ptr).Shows s n.text := by
    rw [hblock]
    exact hok.shows
  have haddr : n.addr = s.world.addrOf b.ptr := by
    rw [hblock]
    exact hok.addr
  refine ⟨?_, ?_, ?_, fun buf hmax => hinv.set_ensures hn hmax⟩
  · rw [haddr, ← hblock]
    exact hopen.chkPtr2addr_ok (hopen.chkNo_lt hb)
  · rw [haddr, hopen.lengthAt_ok hb, hshows.length_eq hok.nulFree]
  · rw [haddr]
    exact hopen.cStrAt_ok hb hshows

section Sample

/-- A step of a program that keeps nodes; a node is named by its position. -/
inductive NodeCall where
  | create
  | setData (i : Nat) (buf : List Byte)
  | destroy (i : Nat)

/-- The nodes after a step, none where the step fails or is not allowed. -/
def NodeCall.after (env : Env) (x : Session × List HeldNode) :
    NodeCall -> Option (Session × List HeldNode)
  | create =>
      match HeldNode.create env x.1 with
      | .ok (r, s') => some (s', r.toList ++ x.2)
      | .error _ => none
  | setData i buf =>
      match x.2.drop i with
      | [] => none
      | n :: rest =>
          if NulFree buf ∧ buf.length < 2 ^ 31 - 16 then
            match ChkStr.setDataAt env n.addr buf x.1 with
            | .ok (r, s') => some (s', x.2.take i ++ n.after r buf :: rest)
            | .error _ => none
          else none
  | destroy i =>
      match x.2.drop i with
      | [] => none
      | n :: rest =>
          match n.destroy env x.1 with
          | .ok (_, s') => some (s', x.2.take i ++ rest)
          | .error _ => none

namespace NodeReach

variable {env : Env} {s₀ : Session} {x y : Session × List HeldNode}

theorem step {call : NodeCall} (h : NodeReach env s₀ x.1 x.2)
    (hrun : call.after env x = some y) : NodeReach env s₀ y.1 y.2 := by
  have hsplit : forall {i : Nat} {n : HeldNode} {rest : List HeldNode},
      x.2.drop i = n :: rest -> NodeReach env s₀ x.1 (x.2.take i ++ n :: rest) := by
    intro i n rest hdrop
    rw [← hdrop, List.take_append_drop]
    exact h
  cases call with
  | create =>
      simp only [NodeCall.after] at hrun
      split at hrun
      · next hcreate =>
          cases hrun
          exact h.create hcreate
      · cases hrun
  | setData i buf =>
      simp only [NodeCall.after] at hrun
      split at hrun
      · cases hrun
      · next n rest hdrop =>
          rw [Option.ite_none_right_eq_some] at hrun
          rcases hrun with ⟨⟨hbuf, hmax⟩, hrun⟩
          split at hrun
          · next hset =>
              cases hrun
              exact (hsplit hdrop).setData hbuf hmax hset
          · cases hrun
  | destroy i =>
      simp only [NodeCall.after] at hrun
      split at hrun
      · cases hrun
      · next n rest hdrop =>
          split at hrun
          · next hdestroy =>
              cases hrun
              exact (hsplit hdrop).destroy hdestroy
          · cases hrun

theorem performAll {calls : List NodeCall} (h : NodeReach env s₀ x.1 x.2)
    (hrun : calls.foldlM (NodeCall.after env) x = some y) : NodeReach env s₀ y.1 y.2 :=
  foldlM_keeps (P := fun z => NodeReach env s₀ z.1 z.2) (fun _ _ _ hz hcall => hz.step hcall) h
    hrun

/-- Strings of three nodes are set, one of them twice, and one node is destroyed. -/
theorem strings_stay_sample : exists s nodes, NodeReach Env.plain packed s nodes ∧
    nodes.map HeldNode.text = [twelveBytes, [104, 105]] ∧
    forall n, n ∈ nodes -> exists a, ChkStr.cStrAt n.addr s.world = .ok (a, s.world) ∧
      CString s.world a n.text := by
  have hflag : packed.world.index.compressed = false := by decide +kernel
  have hreach := packed_reach
  have hcode : ([NodeCall.create, .create, .setData 1 readmeText, .setData 0 [104, 105], .create,
      .setData 0 [49], .destroy 2, .setData 0 twelveBytes].foldlM (NodeCall.after Env.plain)
        (packed, [])).map (fun x => x.2.map HeldNode.text) =
          some [twelveBytes, [104, 105]] := by
    decide +kernel
  generalize packed = s₀ at hflag hreach hcode ⊢
  rcases Option.map_eq_some_iff.mp hcode with ⟨⟨s, nodes⟩, hrun, htexts⟩
  have hnodes : NodeReach Env.plain s₀ s nodes := NodeReach.start.performAll hrun
  refine ⟨s, nodes, hnodes, htexts, fun n hn => ?_⟩
  exact ((NodeReach.strings_stay hreach hflag hnodes).1 n hn).2.2.1

end NodeReach

end Sample

end ChunkMem
