import ChunkMem.Foundation.Kept
import ChunkMem.Structures.ListsInStore
import ChunkMem.Structures.StacksInStore

/-!
# Everything in one index

A program keeps doubly linked lists, strings, a hash list and a singly linked list in one
index, each in an area of its own, and goes on allocating, freeing, writing, compressing
and shrinking around them.  Whatever the order, each is found as it was left whenever the
index is not compressed, at whatever addresses the chunks have come to lie.
-/

namespace ChunkMem

open Foundation

/-- What a program fixes beforehand: the blocks with the nodes of the hash list and how they
are hashed, and where the head and the nodes of the singly linked list may be. -/
structure Plan (env : Env) where
  blocks : Session
  tableNodes : ChkPtr -> Prop
  hash : ChkPtr -> Nat
  linkoffset : Nat
  hashFunc : Ptr -> M Nat
  head : Cell
  stackNodes : ChkPtr -> Prop
  spots : forall p, tableNodes p -> Spot blocks.live p
  reads : HashState.ReadsAs env blocks tableNodes linkoffset hashFunc hash

/-- A session and what is kept in it: the nodes set aside for doubly linked lists with the
lists of all heads, strings with their texts, a hash list and a singly linked list. -/
structure Workspace where
  session : Session
  nodes : ChkPtr -> Prop
  lists : Lists
  strs : Nat -> ChkStr
  texts : Nat -> List Byte
  table : HashData
  stack : StackData

namespace Plan

variable {env : Env} (plan : Plan env)

def front (env : Env) : Resident (Session.store env)
    (((ChkPtr -> Prop) × Lists) × ((Nat -> ChkStr) × (Nat -> List Byte))) :=
  (listResident env).prod (stringResident env)

def back : Resident (Session.store env) (HashData × StackData) :=
  (hashResident env plan.blocks plan.tableNodes plan.hash plan.spots).prod
    (stackResident env plan.head plan.stackNodes)

def resident : Resident (Session.store env)
    ((((ChkPtr -> Prop) × Lists) × ((Nat -> ChkStr) × (Nat -> List Byte))) ×
      (HashData × StackData)) :=
  (front env).prod plan.back

end Plan

namespace Workspace

variable {env : Env}

def data (x : Workspace) : (((ChkPtr -> Prop) × Lists) × ((Nat -> ChkStr) × (Nat -> List Byte))) ×
    (HashData × StackData) :=
  (((x.nodes, x.lists), (x.strs, x.texts)), (x.table, x.stack))

def area (plan : Plan env) (x : Workspace) : Area := plan.resident.area x.data

def others (plan : Plan env) (x : Workspace) : Area :=
  stringArea x.strs ⊔ plan.back.area (x.table, x.stack)

end Workspace

/-- The workspaces a program can reach: it calls the index so that the memory in use is
neither written nor freed, sets places aside for doubly linked lists and gives them up, and
calls the functions of each data structure while the index is not compressed. -/
inductive WorkReach {env : Env} (plan : Plan env) : Workspace -> Prop
  | start {s : Session} {list single list' single' : ChkPtr} {st st' : HashState}
      (h : Reach env CarefulCall s) (hflag : s.world.index.compressed = false)
      (hworld : plan.blocks.world = s.world)
      (hblocks : forall l, l ∈ plan.blocks.live -> l ∈ s.live)
      (hplaced : HashState.Stacked.Placed s.live plan.head plan.stackNodes)
      (hapart : Disjoint (Area.ofBlocks plan.blocks.live)
        (wordArea plan.head plan.stackNodes))
      (hlist : list.Fits) (hsingle : single.Fits) (hlist' : list'.Fits)
      (hsingle' : single'.Fits)
      (htable : ChkHashSList.init ⟨s, list, single⟩ = .ok ((), st))
      (hstack : (plan.head.ptr s.world.index).init ⟨s, list', single'⟩ = .ok ((), st')) :
      WorkReach plan ⟨st'.session, fun _ => False, .none, fun _ => ChkStr.init, fun _ => [],
        ⟨st.list, st.single, [], true⟩, ⟨st'.list, st'.single, []⟩⟩
  | call {x : Workspace} {s' : Session} {call : Call} {r : Result} (h : WorkReach plan x)
      (hcall : CarefulCall x.session call) (hspares : call.Spares (x.area plan))
      (hrun : call.perform env x.session = .ok (r, s')) :
      WorkReach plan { x with session := s' }
  | place {x : Workspace} {p : ChkPtr} (h : WorkReach plan x)
      (hflag : x.session.world.index.compressed = false)
      (hplaces : Places x.session.live fun q => q = p ∨ x.nodes q)
      (hapart : Disjoint (linkArea fun q => q = p) (x.others plan)) :
      WorkReach plan { x with nodes := fun q => q = p ∨ x.nodes q }
  | forget {x : Workspace} {p : ChkPtr} (h : WorkReach plan x) (hout : ¬x.lists.Member p) :
      WorkReach plan
        { x with
          nodes := fun q => x.nodes q ∧ q ≠ p
          lists := x.lists.forget p }
  | list {x : Workspace} {w' : World} {call : ListCall} (h : WorkReach plan x)
      (hflag : x.session.world.index.compressed = false)
      (hcall : call.Allowed x.nodes x.lists)
      (hrun : call.perform x.session.world.index x.session.world = .ok ((), w')) :
      WorkReach plan
        { x with
          session := ⟨w', x.session.live⟩
          lists := call.after x.lists }
  | string {x : Workspace} {st' : StrState} {call : StrCall} {r : Int} (h : WorkReach plan x)
      (hflag : x.session.world.index.compressed = false) (hcall : call.Allowed)
      (hrun : call.perform env ⟨x.session, x.strs⟩ = .ok (r, st')) :
      WorkReach plan
        { x with
          session := st'.session
          strs := st'.strs
          texts := call.shown x.texts r }
  | table {x : Workspace} {st' : HashState} {call : HashCall} {fuel : Nat} {r : Int}
      (h : WorkReach plan x) (hflag : x.session.world.index.compressed = false)
      (hcall : call.Allowed plan.tableNodes x.table.nodes)
      (hclean : call.Clean (x.table.state x.session)) (hfuel : x.table.nodes.length < fuel)
      (hrun : call.perform env plan.linkoffset plan.hashFunc plan.hash fuel
        (x.table.state x.session) = .ok (r, st')) :
      WorkReach plan
        { x with
          session := st'.session
          table := ⟨st'.list, st'.single, call.after x.table.nodes,
            call.single r x.table.one⟩ }
  | stack {x : Workspace} {st' : HashState} {call : SlistCall} {fuel : Nat} {r : SlistResult}
      (h : WorkReach plan x) (hflag : x.session.world.index.compressed = false)
      (hcall : call.Allowed plan.stackNodes x.stack.nodes)
      (hfuel : x.stack.nodes.length < fuel)
      (hrun : call.perform plan.head fuel (x.stack.state x.session) = .ok (r, st')) :
      WorkReach plan
        { x with
          session := st'.session
          stack := ⟨st'.list, st'.single, call.after x.stack.nodes⟩ }

namespace Workspace

variable {env : Env} {plan : Plan env} {x : Workspace}

/-- Every invariant held when the index was last not compressed, and the memory in use was
left alone since; the session is in order. -/
structure Sound (plan : Plan env) (x : Workspace) : Prop where
  valid : exists c L, Valid env x.session c L
  held : plan.resident.Held x.session x.data

namespace Sound

theorem isOpen (h : x.Sound plan) (hflag : x.session.world.index.compressed = false) :
    Open env x.session := ⟨hflag, h.valid⟩

theorem inv (h : x.Sound plan) (hflag : x.session.world.index.compressed = false) :
    plan.resident.Inv x.session x.data := h.held.inv (h.isOpen hflag)

theorem of_moves {s s' : Session} {x' : Workspace} (hsession : x'.session = s')
    (h : plan.resident.Moves s x.data s' x'.data) : x'.Sound plan := by
  subst hsession
  exact ⟨h.ready.2, h.held⟩

theorem call (h : x.Sound plan) {call : Call} {r : Result} {s' : Session}
    (hcall : CarefulCall x.session call) (hspares : call.Spares (x.area plan))
    (hrun : call.perform env x.session = .ok (r, s')) :
    Sound plan { x with session := s' } := by
  have hspared : Spared env (x.area plan) x.session s' :=
    Call.spared h.held.within hcall hspares hrun
  rcases h.valid with ⟨c, L, hv⟩
  rcases hspared.bits c L hv with ⟨c', L', hv', -⟩
  exact ⟨⟨c', L', hv'⟩, h.held.keeps hspared⟩

end Sound

end Workspace

namespace WorkReach

variable {env : Env} {plan : Plan env} {x : Workspace}

theorem start_sound {s : Session} {list single list' single' : ChkPtr} {st st' : HashState}
    (h : Reach env CarefulCall s) (hflag : s.world.index.compressed = false)
    (hworld : plan.blocks.world = s.world) (hblocks : forall l, l ∈ plan.blocks.live -> l ∈ s.live)
    (hplaced : HashState.Stacked.Placed s.live plan.head plan.stackNodes)
    (hapart : Disjoint (Area.ofBlocks plan.blocks.live) (wordArea plan.head plan.stackNodes))
    (hlist : list.Fits) (hsingle : single.Fits) (hlist' : list'.Fits) (hsingle' : single'.Fits)
    (htable : ChkHashSList.init ⟨s, list, single⟩ = .ok ((), st))
    (hstack : (plan.head.ptr s.world.index).init ⟨s, list', single'⟩ = .ok ((), st')) :
    Workspace.Sound plan ⟨st'.session, fun _ => False, .none, fun _ => ChkStr.init, fun _ => [],
      ⟨st.list, st.single, [], true⟩, ⟨st'.list, st'.single, []⟩⟩ := by
  have hopen := h.isOpen hflag
  have hgood : HashState.Good env ⟨s, list, single⟩ := ⟨hopen, hlist, hsingle⟩
  have hinit : ChkHashSList.init ⟨s, list, single⟩ =
      .ok ((), ⟨s, { list.nulled with size := 0 }, single⟩) := rfl
  cases hinit.symm.trans htable
  rcases HashInv.init_run (s := plan.blocks) (U := plan.tableNodes) plan.hash hgood hblocks
    (hworld ▸ .refl _ _ _) with ⟨st₁, hinit₁, htable'⟩
  cases hinit.symm.trans hinit₁
  have hreach : SlistReach s plan.head plan.stackNodes st' [] := .start hlist' hsingle' hstack
  have hmoves := HashState.Stacked.moves (x := ⟨list', single', []⟩) hopen hplaced
    (hreach.inv hopen hplaced.1 hplaced.2.1 hplaced.2.2)
  let table : HashData := ⟨{ list.nulled with size := 0 }, single, [], true⟩
  have htable₀ : HashInv env plan.blocks plan.tableNodes plan.hash (table.state s) table.nodes
    table.one := htable'
  -- the table has no block of heads yet
  have htables : Disjoint (table.area plan.blocks) (wordArea plan.head plan.stackNodes) := by
    refine Area.disjoint_iff.mpr fun k j hkj => ?_
    rcases hkj with hblock | ⟨-, hlo, hhi⟩
    · exact Area.disjoint_iff.mp hapart k j hblock
    · have hsize : table.list.size = 0 := rfl
      omega
  have htable₁ := htable₀.spared plan.spots hmoves.ready
    (hmoves.frame _ htable₀.area_in htables).1
  have hplaces : Places st'.session.live fun _ => False := by
    constructor
    · intro p hp
      exact hp.elim
    · intro p hp
      exact hp.elim
    · intro p q hp
      exact hp.elim
  have hnone : ChkStr.init.owned = none := ChkStr.owned_short ChkStr.init_flag
  have hstrings : StringsShown st'.session (fun _ => ChkStr.init) fun _ => [] := by
    refine ⟨fun _ => ChkStr.init_shows _, fun _ => NulFree.nil, fun i j p hp => ?_⟩
    rw [hnone] at hp
    cases hp
  refine ⟨hmoves.ready.2, .of_inv hmoves.ready ⟨⟨⟨_, Linked.start hmoves.ready hplaces,
    Lists.Shown.start _ _⟩, hstrings, ?_⟩, ⟨htable₁, hmoves.inv, htables⟩, ?_⟩⟩
  · refine Area.disjoint_iff.mpr fun k j => ?_
    rintro ⟨p, hp, -⟩
    exact hp.elim
  · refine Area.disjoint_iff.mpr fun k j => ?_
    rintro (⟨p, hp, -⟩ | ⟨i, p, hp, -⟩)
    · exact hp.elim
    · have hcon : ChkStr.init.owned = some p := hp
      rw [hnone] at hcon
      cases hcon

theorem sound (h : WorkReach plan x) : x.Sound plan := by
  induction h with
  | start h hflag hworld hblocks hplaced hapart hlist hsingle hlist' hsingle' htable hstack =>
      exact start_sound h hflag hworld hblocks hplaced hapart hlist hsingle hlist' hsingle'
        htable hstack
  | call _ hcall hspares hrun ih => exact ih.call hcall hspares hrun
  | @place x p _ hflag hplaces hapart ih =>
      rcases ih.inv hflag with ⟨⟨hlists, hstrings, hfront⟩, hback, hall⟩
      have hopen := ih.isOpen hflag
      have hlists' := listResident.widen hlists hplaces fun q hq => Or.inr hq
      have harea : linkArea (fun q => q = p ∨ x.nodes q) ≤
          linkArea (fun q => q = p) ⊔ linkArea x.nodes := by
        rintro k j ⟨q, rfl | hq, hrest⟩
        · exact Or.inl ⟨q, rfl, hrest⟩
        · exact Or.inr ⟨q, hq, hrest⟩
      rcases disjoint_sup_right.mp hapart with ⟨hstr, hrest⟩
      rcases disjoint_sup_left.mp hall with ⟨hall₁, hall₂⟩
      refine ⟨ih.valid, .of_inv hopen ⟨⟨hlists', hstrings, ?_⟩, hback, ?_⟩⟩
      · exact (disjoint_sup_left.mpr ⟨hstr, hfront⟩).mono_left harea
      · exact disjoint_sup_left.mpr
          ⟨(disjoint_sup_left.mpr ⟨hrest, hall₁⟩).mono_left harea, hall₂⟩
  | @forget x p _ hout ih =>
      have harea : linkArea (fun q => x.nodes q ∧ q ≠ p) ≤ linkArea x.nodes := by
        rintro k j ⟨q, hq, hrest⟩
        exact ⟨q, hq.1, hrest⟩
      refine ⟨ih.valid, ih.held.shrink ?_ (sup_le_sup_right (sup_le_sup_right harea _) _)⟩
      rintro s₀ ⟨⟨hlists, hstrings, hfront⟩, hback, hall⟩
      refine ⟨⟨listResident.forget hlists hout, hstrings, hfront.mono_left harea⟩, hback, ?_⟩
      exact hall.mono_left (sup_le_sup_right harea _)
  | @list x w' call _ hflag hcall hrun ih =>
      have hopen := ih.isOpen hflag
      have hinv := ih.inv hflag
      have hmoves := ListCall.moves hinv.1.1 hcall hrun
      exact .of_moves rfl ((hmoves.fst hopen hinv.1).fst hopen hinv)
  | string _ hflag hcall hrun ih =>
      have hopen := ih.isOpen hflag
      have hinv := ih.inv hflag
      have hmoves := (StrCall.moves hopen hinv.1.2.1 hcall hrun).1
      exact .of_moves rfl ((hmoves.snd hopen hinv.1).fst hopen hinv)
  | table _ hflag hcall hclean hfuel hrun ih =>
      have hopen := ih.isOpen hflag
      have hinv := ih.inv hflag
      have hmoves := HashCall.moves plan.spots plan.reads hinv.2.1.1 hcall hclean hfuel hrun
      exact .of_moves rfl ((hmoves.fst hopen hinv.2.1).snd hopen hinv)
  | stack _ hflag hcall hfuel hrun ih =>
      have hopen := ih.isOpen hflag
      have hinv := ih.inv hflag
      have hmoves := SlistCall.moves hinv.2.1.2.1 hcall hfuel hrun
      exact .of_moves rfl ((hmoves.snd hopen hinv.2.1).snd hopen hinv)

theorem opened (h : WorkReach plan x) {u : World}
    (hrun : ChkIndex.uncompress env x.session.world = .ok (0, u)) :
    u.index.compressed = false ∧ WorkReach plan { x with session := ⟨u, x.session.live⟩ } := by
  rcases h.sound.valid with ⟨c, L, hv⟩
  rcases hv.opened hrun with ⟨hflag, hcall, hperform⟩
  exact ⟨hflag, h.call hcall (by trivial) hperform⟩

theorem exists_opened (h : WorkReach plan x) (hok : env.AllOk) :
    exists u, ChkIndex.uncompress env x.session.world = .ok (0, u) := by
  rcases h.sound.valid with ⟨c, L, hv⟩
  exact hv.exists_opened hok

theorem list_ok (h : WorkReach plan x) (hflag : x.session.world.index.compressed = false)
    {call : ListCall} (hcall : call.Allowed x.nodes x.lists) :
    exists w', call.perform x.session.world.index x.session.world = .ok ((), w') ∧
      w'.index.compressed = false := by
  rcases (h.sound.inv hflag).1.1 with ⟨g, hlink, hshown⟩
  rcases hshown.perform hlink hcall with ⟨w', g', hrun, hlink', -⟩
  exact ⟨w', hrun, hlink'.isOpen.1⟩

/-- Doubly linked lists, strings, a hash list and a singly linked list in one index survive
whatever is done with the others and with the index.  In every workspace within reach, when
the index is uncompressed: the pointer of each head leads to an address from where the walks
run through exactly the nodes of its list, forwards and backwards; each string shows the text
last stored; `find` finds a node exactly when one of those inserted and not erased has the
key; and the walk over the singly linked list visits the nodes on it in order. -/
theorem survives (h : WorkReach plan x) :
    (env.AllOk -> exists u, ChkIndex.uncompress env x.session.world = .ok (0, u)) ∧
    forall u, ChkIndex.uncompress env x.session.world = .ok (0, u) ->
      (forall b l, x.lists.seq b = some l -> forall fuel, l.length < fuel ->
        chkPtr2addr b u = .ok ((u.index.place b).addr, u) ∧
        ChkList.forEach (u.index.place b).addr fuel u =
          .ok (l.map (Linked.visit u.index), u) ∧
        ChkList.forEachR (u.index.place b).addr fuel u =
          .ok (l.reverse.map (Linked.visit u.index), u)) ∧
      (forall i, (x.strs i).length = (x.texts i).length ∧
        (x.strs i).cBytes ((x.texts i).length + 1) u = .ok (x.texts i ++ [0], u)) ∧
      (forall (eqFunc : Ptr -> M Bool) (eqs : ChkPtr -> Bool) (k fuel : Nat),
        HashState.ReadsAs env plan.blocks plan.tableNodes plan.linkoffset eqFunc eqs ->
        (forall q, plan.tableNodes q -> eqs q = true -> plan.hash q = k) ->
        x.table.nodes.length < fuel -> exists r,
          ChkHashSList.find eqFunc plan.linkoffset k fuel (x.table.state ⟨u, x.session.live⟩) =
            .ok (r, x.table.state ⟨u, x.session.live⟩) ∧
          (¬r.1.IsNull <-> exists p, p ∈ x.table.nodes ∧ eqs p = true) ∧
          (¬r.1.IsNull -> r.1 ∈ x.table.nodes ∧ eqs r.1 = true)) ∧
      forall fuel, x.stack.nodes.length < fuel -> exists vs,
        SlistPtr.forEachPre fuel (plan.head.ptr u.index)
            (x.stack.state ⟨u, x.session.live⟩) =
          .ok (vs, x.stack.state ⟨u, x.session.live⟩) ∧
        HashState.Visits (x.stack.state ⟨u, x.session.live⟩) x.stack.nodes vs := by
  refine ⟨h.exists_opened, fun u hrun => ?_⟩
  rcases h.opened hrun with ⟨hflag, hreach⟩
  have hopen := hreach.sound.isOpen hflag
  rcases hreach.sound.inv hflag with ⟨⟨⟨g, hlink, hshown⟩, hstrings, -⟩,
    ⟨htable, ⟨hplaced, hstack⟩, -⟩, -⟩
  refine ⟨fun b l hl fuel hfuel => ?_, fun i => ?_,
    fun eqFunc eqs k fuel heqs hkey hfuel => htable.find_node heqs hkey hfuel,
    fun fuel hfuel => ?_⟩
  · rcases hshown.ring b l hl with ⟨hring, hmem⟩
    exact ⟨hlink.chkPtr2addr_ok (hmem b List.mem_cons_self),
      hlink.forEach_ok hring hmem hfuel⟩
  · have hshows := hstrings.shows i
    refine ⟨hshows.length_eq (hstrings.nulFree i), ?_⟩
    have hbytes := hshows.cBytes_ok hopen (Nat.le_refl _)
    rw [List.take_of_length_le (by simp)] at hbytes
    exact hbytes
  · have hnext := hstack.good.next_ok (c := plan.head) hplaced.2.1
    unfold SlistPtr.forEachPre
    exact (Exec.bind_of_ok hnext) ▸ hstack.good.forEachPreFrom_ok hstack.run
      (hstack.spots hplaced.1) hplaced.2.1 rfl hfuel

end WorkReach

section Computed

variable {env : Env}

namespace WorkReach

variable {plan : Plan env} {x : Workspace}

theorem lists {nodes : ChkPtr -> Prop} [DecidablePred nodes] {calls : List ListCall}
    {t t' : ListTable} {w : World}
    (h : WorkReach plan
      { x with session := ⟨w, x.session.live⟩, nodes := nodes, lists := t.lists })
    (hflag : w.index.compressed = false)
    (hrun : ListTable.performAll nodes calls t = some t') :
    exists w', WorkReach plan
      { x with session := ⟨w', x.session.live⟩, nodes := nodes, lists := t'.lists } := by
  induction calls generalizing t w with
  | nil =>
      cases hrun
      exact ⟨w, h⟩
  | cons call rest ih =>
      unfold ListTable.performAll at hrun
      cases hcall : t.after nodes call with
      | none =>
          rw [hcall] at hrun
          cases hrun
      | some z =>
          rw [hcall] at hrun
          rcases ListTable.after_lists hcall with ⟨hallowed, heq⟩
          rcases h.list_ok hflag hallowed with ⟨w', hperform, hflag'⟩
          have hnext := h.list hflag hallowed hperform
          rw [heq] at hnext
          exact ih hnext hflag' hrun

theorem places {l : List ChkPtr} (h : WorkReach plan x)
    (hflag : x.session.world.index.compressed = false)
    (hplaces : Places x.session.live fun q => q ∈ l ∨ x.nodes q)
    (hapart : Disjoint (linkArea fun q => q ∈ l) (x.others plan)) :
    WorkReach plan { x with nodes := fun q => q ∈ l ∨ x.nodes q } := by
  induction l with
  | nil =>
      have hsame : (fun q => q ∈ ([] : List ChkPtr) ∨ x.nodes q) = x.nodes := by
        funext q
        simp
      rw [hsame]
      exact h
  | cons p rest ih =>
      have hrest := ih (hplaces.mono fun q hq => hq.imp_left (List.mem_cons_of_mem p))
        (hapart.mono_left fun k j ⟨q, hq, hbit⟩ => ⟨q, List.mem_cons_of_mem p hq, hbit⟩)
      have hsame : (fun q => q ∈ p :: rest ∨ x.nodes q) =
          fun q => q = p ∨ (q ∈ rest ∨ x.nodes q) := by
        funext q
        rw [List.mem_cons, or_assoc]
      rw [hsame]
      refine hrest.place hflag (hsame ▸ hplaces) (hapart.mono_left ?_)
      rintro k j ⟨q, rfl, hbit⟩
      exact ⟨q, List.mem_cons_self, hbit⟩

end WorkReach

/-- A call on the strings, the hash list or the singly linked list. -/
inductive WorkCall where
  | string (call : StrCall)
  | table (call : HashCall)
  | stack (call : SlistCall)

def Plan.start (plan : Plan env) (s : Session) : Option Workspace :=
  match (plan.head.ptr s.world.index).init ⟨s, chkNull, chkNull⟩ with
  | .ok (_, st) => some ⟨st.session, fun _ => False, .none, fun _ => ChkStr.init, fun _ => [],
      ⟨{ chkNull.nulled with size := 0 }, chkNull, [], true⟩, ⟨st.list, st.single, []⟩⟩
  | .error _ => none

variable {plan : Plan env} [DecidablePred plan.tableNodes] [DecidablePred plan.stackNodes]
variable {fuel : Nat} {x y : Workspace}

/-- The workspace after a call, none where the call fails or is not allowed. -/
def WorkCall.after (plan : Plan env) [DecidablePred plan.tableNodes]
    [DecidablePred plan.stackNodes] (fuel : Nat) (x : Workspace) : WorkCall -> Option Workspace
  | string call =>
      if x.session.world.index.compressed = false ∧ call.Allowed then
        match call.perform env ⟨x.session, x.strs⟩ with
        | .ok (r, st') =>
            some
              { x with
                session := st'.session
                strs := st'.strs
                texts := call.shown x.texts r }
        | .error _ => none
      else none
  | table call =>
      if x.session.world.index.compressed = false ∧
          call.Allowed plan.tableNodes x.table.nodes ∧ call.Clean (x.table.state x.session) ∧
          x.table.nodes.length < fuel then
        match call.perform env plan.linkoffset plan.hashFunc plan.hash fuel
            (x.table.state x.session) with
        | .ok (r, st') =>
            some
              { x with
                session := st'.session
                table := ⟨st'.list, st'.single, call.after x.table.nodes,
                  call.single r x.table.one⟩ }
        | .error _ => none
      else none
  | stack call =>
      if x.session.world.index.compressed = false ∧
          call.Allowed plan.stackNodes x.stack.nodes ∧ x.stack.nodes.length < fuel then
        match call.perform plan.head fuel (x.stack.state x.session) with
        | .ok (_, st') =>
            some
              { x with
                session := st'.session
                stack := ⟨st'.list, st'.single, call.after x.stack.nodes⟩ }
        | .error _ => none
      else none

def WorkCall.performAll (plan : Plan env) [DecidablePred plan.tableNodes]
    [DecidablePred plan.stackNodes] (fuel : Nat) (calls : List WorkCall) (x : Workspace) :
    Option Workspace :=
  calls.foldlM (WorkCall.after plan fuel) x

namespace WorkReach

/-- A computed call leads to a workspace and leaves the doubly linked lists alone. -/
theorem step {call : WorkCall} (h : WorkReach plan x) (hrun : call.after plan fuel x = some y) :
    WorkReach plan y ∧ y.nodes = x.nodes ∧ y.lists = x.lists := by
  cases call with
  | string call =>
      simp only [WorkCall.after, Option.ite_none_right_eq_some] at hrun
      rcases hrun with ⟨⟨hflag, hcall⟩, hrun⟩
      split at hrun
      · next hperform =>
          cases hrun
          exact ⟨h.string hflag hcall hperform, rfl, rfl⟩
      · cases hrun
  | table call =>
      simp only [WorkCall.after, Option.ite_none_right_eq_some] at hrun
      rcases hrun with ⟨⟨hflag, hcall, hclean, hfuel⟩, hrun⟩
      split at hrun
      · next hperform =>
          cases hrun
          exact ⟨h.table hflag hcall hclean hfuel hperform, rfl, rfl⟩
      · cases hrun
  | stack call =>
      simp only [WorkCall.after, Option.ite_none_right_eq_some] at hrun
      rcases hrun with ⟨⟨hflag, hcall, hfuel⟩, hrun⟩
      split at hrun
      · next hperform =>
          cases hrun
          exact ⟨h.stack hflag hcall hfuel hperform, rfl, rfl⟩
      · cases hrun

theorem performAll {calls : List WorkCall} (h : WorkReach plan x)
    (hrun : WorkCall.performAll plan fuel calls x = some y) :
    WorkReach plan y ∧ y.nodes = x.nodes ∧ y.lists = x.lists := by
  refine foldlM_keeps (P := fun z => WorkReach plan z ∧ z.nodes = x.nodes ∧ z.lists = x.lists)
    ?_ ⟨h, rfl, rfl⟩ hrun
  rintro z call z' ⟨hz, hnodes, hlists⟩ hcall
  rcases hz.step hcall with ⟨hz', hnodes', hlists'⟩
  exact ⟨hz', hnodes'.trans hnodes, hlists'.trans hlists⟩

end WorkReach

end Computed

section Sample

def roomyTable : List ChkPtr := [⟨0, 30, 0⟩, ⟨0, 32, 0⟩, ⟨0, 34, 0⟩]

def roomyStack : List ChkPtr := [⟨0, 37, 0⟩, ⟨0, 38, 0⟩]

/-- The places of a hash list and of a singly linked list with its head in two blocks. -/
def Plan.roomy (w : World) : Plan Env.plain where
  blocks := ⟨w, [⟨⟨0, 30, 3⟩, 24⟩]⟩
  tableNodes := fun p => p ∈ roomyTable
  hash := fun _ => 5
  linkoffset := 0
  hashFunc := fun _ => pure 5
  head := .word ⟨0, 36, 0⟩
  stackNodes := fun p => p ∈ roomyStack
  spots := fun p hp => by
    have hplaces : forall p, p ∈ roomyTable ->
        p.size = 0 ∧ p.chkNo = 0 ∧ 30 ≤ p.offset ∧ p.offset < 30 + 2 * 3 := by decide
    exact ⟨_, List.mem_cons_self, hplaces p hp⟩
  reads := fun _ _ _ _ _ _ => rfl

instance (w : World) : DecidablePred (Plan.roomy w).tableNodes :=
  inferInstanceAs (DecidablePred fun p => p ∈ roomyTable)

instance (w : World) : DecidablePred (Plan.roomy w).stackNodes :=
  inferInstanceAs (DecidablePred fun p => p ∈ roomyStack)

/-- A block for lists, one for the nodes of a hash list and one for a singly linked list. -/
def furnished : Session :=
  Call.after Env.plain [.alloc 80, .alloc 24, .alloc 16] ⟨World.boot, []⟩

theorem furnished_reach : Reach Env.plain CarefulCall furnished := by
  unfold furnished
  exact .after (.start World.boot_fresh) (by decide +kernel)

theorem furnished_live :
    furnished.live = [⟨⟨0, 36, 2⟩, 16⟩, ⟨⟨0, 30, 3⟩, 24⟩, ⟨⟨0, 10, 10⟩, 80⟩] := by
  decide +kernel

/-- Nodes are inserted to a table, which gets two lists, and one is erased; two are pushed; two
strings are set, one of them twice. -/
def furnishedCalls : List WorkCall :=
  [.table (.insert ⟨0, 30, 0⟩), .table (.insert ⟨0, 32, 0⟩), .stack (.push ⟨0, 37, 0⟩),
    .table (.resize 2 chkNull), .string (.setData 0 [49, 50]), .stack (.push ⟨0, 38, 0⟩),
    .table (.erase ⟨0, 30, 0⟩), .string (.setData 0 twelveBytes), .string (.setData 1 [51])]

theorem furnished_run : exists x y,
    (Plan.roomy furnished.world).start furnished = some x ∧
    x.session.live = furnished.live ∧ x.session.world.index.compressed = false ∧
    WorkCall.performAll (Plan.roomy furnished.world) 3 furnishedCalls
      { x with nodes := fun q => q ∈ roomyPlaces } = some y ∧
    (y.table.nodes, y.stack.nodes, y.texts 0, y.session.world.index.compressed) =
      ([⟨0, 32, 0⟩], [⟨0, 38, 0⟩, ⟨0, 37, 0⟩], twelveBytes, false) := by
  have hstart : ((Plan.roomy furnished.world).start furnished).map
      (fun x => (x.session.live, x.session.world.index.compressed)) =
        some (furnished.live, false) := by
    decide +kernel
  have hcalls : (((Plan.roomy furnished.world).start furnished).bind fun x =>
      WorkCall.performAll (Plan.roomy furnished.world) 3 furnishedCalls
        { x with nodes := fun q => q ∈ roomyPlaces }).map
      (fun y => (y.table.nodes, y.stack.nodes, y.texts 0, y.session.world.index.compressed)) =
        some ([⟨0, 32, 0⟩], [⟨0, 38, 0⟩, ⟨0, 37, 0⟩], twelveBytes, false) := by
    decide +kernel
  generalize furnished = s at hstart hcalls ⊢
  rcases Option.map_eq_some_iff.mp hstart with ⟨x, hx, hlive⟩
  rw [hx] at hcalls
  rcases Option.map_eq_some_iff.mp hcalls with ⟨y, hy, hdata⟩
  exact ⟨x, y, hx, congrArg Prod.fst hlive, congrArg Prod.snd hlive, hy, hdata⟩

namespace Plan

variable {w : World} {live : List Live}

theorem roomyStack_bounds : forall p, p ∈ roomyStack ->
    p.size = 0 ∧ p.chkNo = 0 ∧ 37 ≤ p.offset ∧ p.offset < 39 := by decide

/-- The words of the singly linked list stand behind all other data. -/
theorem roomy_word {p : ChkPtr} {k j : Nat}
    (hp : (Plan.roomy w).stackNodes p ∨ (Plan.roomy w).head = .word p) (hbit : p.Word k j) :
    1152 ≤ j := by
  rcases hbit with ⟨-, hlo, -⟩
  rcases hp with hp | hp
  · have hpos := (roomyStack_bounds p hp).2.2.1
    omega
  · cases hp
    exact hlo

theorem roomy_placed (hblock : ⟨⟨0, 36, 2⟩, 16⟩ ∈ live) :
    HashState.Stacked.Placed live (Plan.roomy w).head (Plan.roomy w).stackNodes := by
  refine ⟨fun p hp => ⟨_, hblock, ?_⟩, ⟨_, hblock, rfl, rfl, by decide, by decide⟩, ?_⟩
  · rcases roomyStack_bounds p hp with ⟨hsize, hno, hlo, hhi⟩
    exact ⟨hsize, hno, Nat.le_trans (by decide) hlo, Nat.lt_of_lt_of_le hhi (by decide)⟩
  · rintro p hp heq
    cases heq
    exact absurd (roomyStack_bounds _ hp).2.2.1 (by decide)

theorem roomy_apart : Disjoint (Area.ofBlocks (Plan.roomy w).blocks.live)
    (wordArea (Plan.roomy w).head (Plan.roomy w).stackNodes) := by
  refine Area.disjoint_iff.mpr fun k j => ?_
  rintro ⟨l, hl, -, -, hhi⟩ ⟨p, hp, hbit⟩
  cases List.mem_singleton.mp hl
  exact absurd (roomy_word hp hbit) (Nat.not_le_of_lt hhi)

/-- The places for doubly linked lists stand before all other data. -/
theorem roomy_others {x : Workspace} (hstrs : x.strs = fun _ => ChkStr.init)
    (hlist : x.table.list.size = 0) :
    Disjoint (linkArea fun q => q ∈ roomyPlaces) (x.others (Plan.roomy w)) := by
  have hinside : forall q, q ∈ roomyPlaces -> q.offset ≤ 28 := by decide
  have hnone : ChkStr.init.owned = none := ChkStr.owned_short ChkStr.init_flag
  refine Area.disjoint_iff.mpr fun k j => ?_
  rintro ⟨q, hq, -, -, hhi⟩
  have hbelow := hinside q hq
  rintro (⟨i, b, hb, -⟩ | (⟨l, hl, -, hlo, -⟩ | ⟨-, hlo, hhi'⟩) | ⟨p, hp, hbit⟩)
  · rw [hstrs, hnone] at hb
    cases hb
  · cases List.mem_singleton.mp hl
    have hlo' : 32 * 30 ≤ j := hlo
    omega
  · rw [hlist] at hhi'
    omega
  · have hlo := roomy_word hp hbit
    omega

end Plan

theorem WorkReach.roomy_start {s : Session} {x : Workspace} (h : Reach Env.plain CarefulCall s)
    (hflag : s.world.index.compressed = false)
    (hblocks : s.live = [⟨⟨0, 36, 2⟩, 16⟩, ⟨⟨0, 30, 3⟩, 24⟩, ⟨⟨0, 10, 10⟩, 80⟩])
    (hstart : (Plan.roomy s.world).start s = some x) (hlive : x.session.live = s.live)
    (hflag' : x.session.world.index.compressed = false) :
    WorkReach (Plan.roomy s.world) { x with nodes := fun q => q ∈ roomyPlaces } ∧
      x.lists = .none := by
  have htable : forall l, l ∈ (Plan.roomy s.world).blocks.live -> l ∈ s.live := by
    intro l hl
    cases List.mem_singleton.mp hl
    rw [hblocks]
    decide
  have hinit : ChkHashSList.init ⟨s, chkNull, chkNull⟩ =
      .ok ((), ⟨s, { chkNull.nulled with size := 0 }, chkNull⟩) := rfl
  have hroom : Places x.session.live fun q => q ∈ roomyPlaces ∨ False := by
    rw [hlive, hblocks]
    exact (roomyPlaces_places (by decide)).mono fun q hq => hq.elim id False.elim
  have hsame : (fun q => q ∈ roomyPlaces ∨ False) = fun q => q ∈ roomyPlaces := by
    funext q
    exact or_false _
  unfold Plan.start at hstart
  split at hstart
  · next st hhead =>
      cases hstart
      have hbegin := WorkReach.start h hflag rfl htable
        (Plan.roomy_placed (hblocks ▸ List.mem_cons_self)) Plan.roomy_apart chkNull_fits
        chkNull_fits chkNull_fits chkNull_fits hinit hhead
      have hplaced := hbegin.places hflag' hroom (Plan.roomy_others rfl rfl)
      exact ⟨hsame ▸ hplaced, rfl⟩
  · cases hstart

/-- After a compression each of the four structures is found as it was left. -/
theorem WorkReach.survives_sample : exists w u x r vs,
    WorkReach (Plan.roomy w) x ∧
    ChkIndex.uncompress Env.plain x.session.world = .ok (0, u) ∧
    ChkList.forEach (u.index.place ⟨0, 12, 0⟩).addr 5 u =
      .ok ([⟨0, 22, 0⟩, ⟨0, 20, 0⟩, ⟨0, 18, 0⟩, ⟨0, 16, 0⟩].map (Linked.visit u.index), u) ∧
    (x.strs 0).cBytes 13 u = .ok (twelveBytes ++ [0], u) ∧
    ChkHashSList.find (fun _ => pure true) 0 5 2 (x.table.state ⟨u, x.session.live⟩) =
      .ok (r, x.table.state ⟨u, x.session.live⟩) ∧ r.1 = ⟨0, 32, 0⟩ ∧
    SlistPtr.forEachPre 3 ((Plan.roomy w).head.ptr u.index)
        (x.stack.state ⟨u, x.session.live⟩) =
      .ok (vs, x.stack.state ⟨u, x.session.live⟩) ∧
    HashState.Visits (x.stack.state ⟨u, x.session.live⟩) [⟨0, 38, 0⟩, ⟨0, 37, 0⟩] vs := by
  have hflag : furnished.world.index.compressed = false := by decide +kernel
  have hreach := furnished_reach
  have hblocks := furnished_live
  have hcalls := furnished_run
  generalize furnished = s at hflag hreach hblocks hcalls
  rcases hcalls with ⟨x, y, hx, hlive, hflag', hy, hdata⟩
  simp only [Prod.mk.injEq] at hdata
  rcases hdata with ⟨htable, hstack, htext, hopen⟩
  rcases roomy_start hreach hflag hblocks hx hlive hflag' with ⟨hstart, hnone⟩
  rcases hstart.performAll hy with ⟨hwork, hnodes, hlists⟩
  have hfirst : y.lists = (⟨[], []⟩ : ListTable).lists :=
    hlists.trans (hnone.trans ListTable.lists_nil.symm)
  have hplaces : y.nodes = fun p => p ∈ roomyPlaces := hnodes
  rcases roomy_table with ⟨t, ht, -, hseq⟩
  have hbegin : WorkReach (Plan.roomy s.world)
      { y with
        session := ⟨y.session.world, y.session.live⟩
        nodes := fun p => p ∈ roomyPlaces
        lists := (⟨[], []⟩ : ListTable).lists } := by
    rw [← hfirst, ← hplaces]
    exact hwork
  rcases hbegin.lists hopen ht with ⟨w', hlisted⟩
  rcases hlisted.sound.valid with ⟨c, L, hv⟩
  rcases hv.exists_compressed 100 with ⟨_, s', hcareful, hcompress⟩
  have hend := hlisted.call hcareful trivial hcompress
  rcases hend.survives with ⟨hopens, hkept⟩
  rcases hopens Env.plain_allOk with ⟨u, hu⟩
  rcases hkept u hu with ⟨hrings, hstrings, hfinds, hwalks⟩
  have hring := (hrings _ _ hseq 5 (by decide)).2.1
  have hstring := (hstrings 0).2
  rw [htext] at hstring
  rcases hfinds (fun _ => pure true) (fun _ => true) 5 2 (fun _ _ _ _ _ _ => rfl)
    (fun _ _ _ => rfl) (by rw [htable]; decide) with ⟨r, hfind, hiff, hfound⟩
  have hmem := (hfound (hiff.mpr ⟨⟨0, 32, 0⟩, htable ▸ List.mem_cons_self, rfl⟩)).1
  rcases hwalks 3 (by rw [hstack]; decide) with ⟨vs, hwalk, hvisits⟩
  refine ⟨s.world, u, _, r, vs, hend, hu, hring, hstring, hfind, ?_, hwalk, hstack ▸ hvisits⟩
  rw [htable] at hmem
  exact List.mem_singleton.mp hmem

end Sample

end ChunkMem
