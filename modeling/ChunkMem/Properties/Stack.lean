import ChunkMem.Properties.Dictionary
import ChunkMem.Properties.Strings

/-!
# A singly linked list is a stack

The list may hang on a variable of the program or on a word of a block.  From any head
that `chk_slist_init` set up, the chain shows the nodes that were pushed and not
popped or erased since, the last one first.
-/

namespace ChunkMem

open Foundation

inductive SlistCall where
  | push (p : ChkPtr)
  | pop
  | erase (p : ChkPtr)

inductive SlistResult where
  | done
  | node (a : ChkAddrChk)
  | code (r : Int)

namespace SlistCall

/-- The code of a call on the list with the head `c`. -/
def perform (c : Cell) (fuel : Nat) (call : SlistCall) : HashProg SlistResult := do
  let st <- Exec.state
  let slist := c.ptr st.session.world.index
  match call with
  | push p => do
      slist.push (st.session.world.index.place p)
      pure .done
  | pop => do
      let a <- slist.pop
      pure (.node a)
  | erase p => do
      let r <- slist.erase (st.session.world.index.place p).addr fuel
      pure (.code r)

/-- Nodes of `U` are pushed when they are not on the list. -/
def Allowed (U : ChkPtr -> Prop) (l : List ChkPtr) : SlistCall -> Prop
  | push p => U p ∧ p ∉ l
  | pop => True
  | erase p => U p

def after (l : List ChkPtr) : SlistCall -> List ChkPtr
  | push p => p :: l
  | pop => l.tail
  | erase p => l.erase p

def result (idx : ChkIndex) (l : List ChkPtr) : SlistCall -> SlistResult
  | push _ => .done
  | pop => .node (l.head?.elim ⟨Ptr.null, Ptr.null⟩ idx.place)
  | erase p => .code (if p ∈ l then 0 else -1)

end SlistCall

instance (U : ChkPtr -> Prop) [DecidablePred U] (l : List ChkPtr) (call : SlistCall) :
    Decidable (call.Allowed U l) :=
  match call with
  | .push p => inferInstanceAs (Decidable (U p ∧ p ∉ l))
  | .pop => inferInstanceAs (Decidable True)
  | .erase p => inferInstanceAs (Decidable (U p))

/-- The states reached from the blocks of `s` with a list at `c`, and its stack. -/
inductive SlistReach (s : Session) (c : Cell) (U : ChkPtr -> Prop) :
    HashState -> List ChkPtr -> Prop
  | start {list single : ChkPtr} {st : HashState} (hlist : list.Fits) (hsingle : single.Fits)
      (hrun : (c.ptr s.world.index).init ⟨s, list, single⟩ = .ok ((), st)) :
      SlistReach s c U st []
  | step {st st' : HashState} {l : List ChkPtr} {call : SlistCall} {fuel : Nat}
      {r : SlistResult} (h : SlistReach s c U st l) (hcall : call.Allowed U l)
      (hfuel : l.length < fuel) (hrun : call.perform c fuel st = .ok (r, st')) :
      SlistReach s c U st' (call.after l)

namespace HashState

variable {env : Env} {st st' : HashState} {c : Cell} {v p : ChkPtr} {l : List ChkPtr}
variable {n : Nat}

/-!
## The walks
-/

theorem Good.pop_ok (h : st.Good env) (hrun : Run st.next (st.next c) l) (hnodup : l.Nodup)
    (hl : forall q, q ∈ l -> Spot st.session.live q) (hc : c.In st.session.live)
    (hcl : forall q, q ∈ l -> c ≠ .word q) :
    exists st', SlistPtr.pop (c.ptr st.session.world.index) st =
        .ok (l.head?.elim ⟨Ptr.null, Ptr.null⟩ st.session.world.index.place, st') ∧
      Step env (fun c' => c' = c ∨ exists q, q ∈ l ∧ c' = .word q) st st' ∧
      Run st'.next (st'.next c) l.tail ∧ (l = [] -> st' = st) := by
  cases l with
  | nil =>
      have hnull : (st.next c).IsNull := hrun
      refine ⟨st, ?_, .refl h _, hrun, fun _ => rfl⟩
      unfold SlistPtr.pop
      rw [Exec.bind_of_ok (h.next_ok hc), if_pos hnull]
      rfl
  | cons p l =>
      have hp := hl p List.mem_cons_self
      have hne := hcl p List.mem_cons_self
      have hnode : ¬(st.next c).IsNull := by
        rw [hrun.1]
        exact h.isOpen.spot_not_null hp
      have haddr := mem_ok (h.isOpen.place_addr hp)
      have hchk := mem_ok (h.isOpen.place_chk hp)
      rcases h.eraseNode_ok hp hc hne with ⟨st', herase, hstep, hnext⟩
      refine ⟨st', ?_, hstep.mono ?_, ?_, nofun⟩
      · unfold SlistPtr.pop
        rw [Exec.bind_of_ok (h.next_ok hc), if_neg hnode, hrun.1, Exec.bind_of_ok haddr,
          Exec.bind_of_ok hchk, Exec.bind_of_ok herase]
        rfl
      · rintro c' (hc' | hc')
        · exact Or.inl hc'
        · exact Or.inr ⟨p, List.mem_cons_self, hc'⟩
      · rw [hnext]
        refine hstep.run hrun.2 fun q hq => ⟨hl q (List.mem_cons_of_mem p hq), ?_⟩
        rintro (hcon | hcon)
        · exact hcl q (List.mem_cons_of_mem p hq) hcon.symm
        · exact (List.nodup_cons.mp hnodup).1 (Cell.word.inj hcon ▸ hq)

/-- What the body of a walk sees: the nodes in order, each behind a link to it. -/
def Visits (st : HashState) (l : List ChkPtr) (vs : List (SlistPtr × ChkPtr × Ptr)) : Prop :=
  vs.map (fun x => x.2) = l.map (fun p => (p, (st.session.world.index.place p).addr)) ∧
    forall x, x ∈ vs -> x.1.next st = .ok (x.2.1, st)

theorem Good.forEachPreFrom_ok (h : st.Good env) (hrun : Run st.next v l)
    (hl : forall q, q ∈ l -> Spot st.session.live q) (hc : c.In st.session.live)
    (hv : st.next c = v) (hn : l.length < n) :
    exists vs, SlistPtr.forEachPreFrom n (c.ptr st.session.world.index) v st = .ok (vs, st) ∧
      Visits st l vs := by
  induction l generalizing c v n with
  | nil =>
      cases n with
      | zero => cases hn
      | succ n =>
          refine ⟨[], ?_, rfl, nofun⟩
          unfold SlistPtr.forEachPreFrom
          rw [Exec.bind_of_ok (mem_ok (h.decode hrun hl)), if_pos (firstAddr_nil _)]
          rfl
  | cons q l ih =>
      cases n with
      | zero => cases hn
      | succ n =>
          have hq := hl q List.mem_cons_self
          have hne : firstAddr st.session.world.index (q :: l) ≠ Ptr.null :=
            h.isOpen.place_ne_null hq
          have hload : HashProg.mem (loadPtr (firstAddr st.session.world.index (q :: l))) st =
            .ok (st.next (.word q), st) := mem_ok (h.isOpen.loadWord hq)
          rcases ih (c := .word q) hrun.2 (fun r hr => hl r (List.mem_cons_of_mem q hr)) hq rfl
            (Nat.lt_of_succ_lt_succ hn) with ⟨vs, hwalk, hmap, hpre⟩
          have hwalk' : SlistPtr.forEachPreFrom n
              (.mem (firstAddr st.session.world.index (q :: l))) (st.next (.word q)) st =
            .ok (vs, st) := hwalk
          refine ⟨(c.ptr st.session.world.index, v,
            firstAddr st.session.world.index (q :: l)) :: vs, ?_, ?_, ?_⟩
          · unfold SlistPtr.forEachPreFrom
            rw [Exec.bind_of_ok (mem_ok (h.decode hrun hl)), if_neg hne, Exec.bind_of_ok hload,
              Exec.bind_of_ok hwalk']
            rfl
          · rw [List.map_cons, List.map_cons, hmap, hrun.1]
            rfl
          · intro x hx
            rcases List.mem_cons.mp hx with rfl | hx
            · rw [h.next_ok hc, hv]
            · exact hpre x hx

/-!
## Runs
-/

/-- The nodes of `l` hang on the link `c`, and nothing else of the session has changed. -/
structure Stacked (env : Env) (s : Session) (c : Cell) (U : ChkPtr -> Prop) (st : HashState)
    (l : List ChkPtr) : Prop where
  good : st.Good env
  live : st.session.live = s.live
  index : st.session.world.index = s.world.index
  run : Run st.next (st.next c) l
  nodup : l.Nodup
  nodes : forall p, p ∈ l -> U p
  keeps : World.KeepsBut s.world st.session.world s.live fun p => U p ∨ c = .word p

namespace Stacked

variable {s : Session} {U : ChkPtr -> Prop} {l' : List ChkPtr} {W : Cell -> Prop}

theorem spots (h : Stacked env s c U st l) (hU : forall p, U p -> Spot s.live p) :
    forall p, p ∈ l -> Spot st.session.live p :=
  fun p hp => h.live.symm ▸ hU p (h.nodes p hp)

theorem step (h : Stacked env s c U st l) (hstep : Step env W st st')
    (hW : forall c', W c' -> c' = c ∨ exists p, U p ∧ c' = .word p)
    (hrun : Run st'.next (st'.next c) l') (hnodup : l'.Nodup) (hnodes : forall p, p ∈ l' -> U p) :
    Stacked env s c U st' l' := by
  refine ⟨hstep.good, hstep.live.trans h.live, hstep.index.trans h.index, hrun, hnodup, hnodes,
    ?_⟩
  have hkeeps := hstep.keeps
  rw [h.live] at hkeeps
  refine h.keeps.trans (hkeeps.mono fun p hp => ?_)
  rcases hW _ hp with hc | ⟨q, hq, heq⟩
  · exact Or.inr hc.symm
  · exact Or.inl (Cell.word.inj heq ▸ hq)

theorem push (h : Stacked env s c U st l) (hU : forall p, U p -> Spot s.live p)
    (hc : c.In s.live) (hcU : forall p, U p -> c ≠ .word p) (hp : U p) (hpl : p ∉ l) :
    exists st', SlistPtr.push (st.session.world.index.place p)
        (c.ptr st.session.world.index) st = .ok ((), st') ∧ Stacked env s c U st' (p :: l) := by
  have hspots := h.spots hU
  rcases h.good.push_ok (h.live.symm ▸ hU p hp) (h.live.symm ▸ hc) (hcU p hp) with
    ⟨st', hpush, hstep, hhead, hnode⟩
  refine ⟨st', hpush, h.step hstep ?_ ⟨hhead, ?_⟩ (List.nodup_cons.mpr ⟨hpl, h.nodup⟩) ?_⟩
  · rintro c' (hc' | hc')
    · exact Or.inl hc'
    · exact Or.inr ⟨p, hp, hc'⟩
  · rw [hnode]
    refine hstep.run h.run fun q hq => ⟨hspots q hq, ?_⟩
    rintro (hcon | hcon)
    · exact hcU q (h.nodes q hq) hcon.symm
    · exact hpl (Cell.word.inj hcon ▸ hq)
  · intro q hq
    rcases List.mem_cons.mp hq with rfl | hq
    · exact hp
    · exact h.nodes q hq

/-- The links of a list and its head are those of the nodes and of the head. -/
theorem inside (h : Stacked env s c U st l) :
    forall c', (c' = c ∨ exists q, q ∈ l ∧ c' = .word q) ->
      c' = c ∨ exists p, U p ∧ c' = .word p := by
  rintro c' (hc' | ⟨q, hq, hc'⟩)
  · exact Or.inl hc'
  · exact Or.inr ⟨q, h.nodes q hq, hc'⟩

theorem pop (h : Stacked env s c U st l) (hU : forall p, U p -> Spot s.live p)
    (hc : c.In s.live) (hcU : forall p, U p -> c ≠ .word p) :
    exists st', SlistPtr.pop (c.ptr st.session.world.index) st =
        .ok (l.head?.elim ⟨Ptr.null, Ptr.null⟩ st.session.world.index.place, st') ∧
      Stacked env s c U st' l.tail ∧ (l = [] -> st' = st) := by
  rcases h.good.pop_ok h.run h.nodup (h.spots hU) (h.live.symm ▸ hc)
    (fun q hq => hcU q (h.nodes q hq)) with ⟨st', hpop, hstep, hrun, hempty⟩
  exact ⟨st', hpop, h.step hstep h.inside hrun h.nodup.tail
    fun p hp => h.nodes p (List.mem_of_mem_tail hp), hempty⟩

theorem erase (h : Stacked env s c U st l) (hU : forall p, U p -> Spot s.live p)
    (hc : c.In s.live) (hcU : forall p, U p -> c ≠ .word p) (hp : U p) (hn : l.length < n) :
    exists st', SlistPtr.erase (st.session.world.index.place p).addr n
        (c.ptr st.session.world.index) st = .ok (if p ∈ l then 0 else -1, st') ∧
      Stacked env s c U st' (l.erase p) ∧ (p ∉ l -> st' = st) := by
  have hc' : c.In st.session.live := h.live.symm ▸ hc
  have herase := h.good.eraseFrom_ok h.run h.nodup (h.spots hU) hc'
    (fun q hq => hcU q (h.nodes q hq)) rfl (h.live.symm ▸ hU p hp) hn
  unfold SlistPtr.erase
  rw [Exec.bind_of_ok (h.good.next_ok hc')]
  by_cases hmem : p ∈ l
  · rcases herase.2 hmem with ⟨st', hrun, hout⟩
    refine ⟨st', ?_, h.step hout.step h.inside hout.run (h.nodup.erase p)
      fun q hq => h.nodes q (List.mem_of_mem_erase hq), fun hnot => absurd hmem hnot⟩
    rw [hrun, if_pos hmem]
  · refine ⟨st, ?_, ?_, fun _ => rfl⟩
    · rw [herase.1 hmem, if_neg hmem]
    · rw [List.erase_of_not_mem hmem]
      exact h

theorem perform_ok (h : Stacked env s c U st l) (hU : forall p, U p -> Spot s.live p)
    (hc : c.In s.live) (hcU : forall p, U p -> c ≠ .word p) {call : SlistCall}
    (hcall : call.Allowed U l) (hn : l.length < n) :
    exists st', call.perform c n st = .ok (call.result s.world.index l, st') ∧
      Stacked env s c U st' (call.after l) ∧ (call.after l = l -> st' = st) := by
  unfold SlistCall.perform
  rw [Exec.bind_of_ok (Exec.state_apply st)]
  cases call with
  | push p =>
      rcases h.push hU hc hcU hcall.1 hcall.2 with ⟨st', hrun, hst'⟩
      refine ⟨st', ?_, hst', fun heq => ?_⟩
      · exact (Exec.bind_of_ok hrun).trans rfl
      · exact absurd (congrArg List.length heq) (Nat.succ_ne_self l.length)
  | pop =>
      rcases h.pop hU hc hcU with ⟨st', hrun, hst', hempty⟩
      refine ⟨st', ?_, hst', fun heq => hempty ?_⟩
      · rw [← h.index]
        exact (Exec.bind_of_ok hrun).trans rfl
      · cases l with
        | nil => rfl
        | cons q l => exact absurd (congrArg List.length heq.symm) (Nat.succ_ne_self l.length)
  | erase p =>
      rcases h.erase hU hc hcU hcall hn with ⟨st', hrun, hst', hkept⟩
      refine ⟨st', ?_, hst', fun heq => hkept fun hmem => ?_⟩
      · exact (Exec.bind_of_ok hrun).trans rfl
      · have hlength := List.length_erase_of_mem hmem
        have hpos := List.length_pos_of_mem hmem
        have hsame : (l.erase p).length = l.length := congrArg List.length heq
        omega

end Stacked

end HashState

open HashState

theorem SlistReach.inv {env : Env} {s : Session} (hopen : Open env s) {c : Cell}
    {U : ChkPtr -> Prop} (hU : forall p, U p -> Spot s.live p) (hc : c.In s.live)
    (hcU : forall p, U p -> c ≠ .word p) {st : HashState} {l : List ChkPtr}
    (h : SlistReach s c U st l) : Stacked env s c U st l := by
  induction h with
  | @start list single st hlist hsingle hrun =>
      have hgood : HashState.Good env ⟨s, list, single⟩ := ⟨hopen, hlist, hsingle⟩
      rcases hgood.init_ok (c := c) hc with ⟨st', hinit, hstep, hnext⟩
      have heq := hinit.symm.trans hrun
      cases heq
      refine ⟨hstep.good, hstep.live, hstep.index, ?_, List.nodup_nil, nofun, ?_⟩
      · change (st.next c).IsNull
        rw [hnext]
        exact ChkPtr.nulled_isNull _
      · exact hstep.keeps.mono fun p hp => Or.inr hp.symm
  | step _ hcall hfuel hrun ih =>
      rcases ih.perform_ok hU hc hcU hcall hfuel with ⟨st', hrun', hst', -⟩
      have heq := hrun'.symm.trans hrun
      cases heq
      exact hst'

theorem SlistReach.started {env : Env} {s : Session} {c : Cell} (U : ChkPtr -> Prop)
    (hopen : Open env s) (hc : c.In s.live) {list single : ChkPtr} (hlist : list.Fits)
    (hsingle : single.Fits) : exists st, SlistReach s c U st [] := by
  have hgood : HashState.Good env ⟨s, list, single⟩ := ⟨hopen, hlist, hsingle⟩
  rcases hgood.init_ok (c := c) hc with ⟨st, hinit, -⟩
  exact ⟨st, .start hlist hsingle hinit⟩

/-- A list refines a stack with removal.  In every state of a run the chain from the head
shows the nodes of the stack and ends with null; the next call returns what it returns on the
stack, leads to a state with the stack after the call, and changes nothing when the stack
stays the same; a walk with the predecessor visits the nodes in order. -/
theorem SlistReach.stack {env : Env} {s : Session} (hs : Reach env CarefulCall s)
    (hflag : s.world.index.compressed = false) {c : Cell} {U : ChkPtr -> Prop}
    (hU : forall p, U p -> Spot s.live p) (hc : c.In s.live) (hcU : forall p, U p -> c ≠ .word p)
    {st : HashState} {l : List ChkPtr} (h : SlistReach s c U st l) :
    Run st.next (st.next c) l ∧ l.Nodup ∧
    (forall call fuel, SlistCall.Allowed U l call -> l.length < fuel -> exists st',
      call.perform c fuel st = .ok (call.result s.world.index l, st') ∧
      SlistReach s c U st' (call.after l) ∧
      (call.after l = l -> st' = st)) ∧
    (forall fuel, l.length < fuel -> exists vs,
      SlistPtr.forEachPre fuel (c.ptr st.session.world.index) st = .ok (vs, st) ∧
      Visits st l vs) := by
  have hinv := h.inv (hs.isOpen hflag) hU hc hcU
  refine ⟨hinv.run, hinv.nodup, fun call fuel hcall hfuel => ?_, fun fuel hfuel => ?_⟩
  · rcases hinv.perform_ok hU hc hcU hcall hfuel with ⟨st', hrun, -, hkept⟩
    exact ⟨st', hrun, h.step hcall hfuel hrun, hkept⟩
  · have hc' : c.In st.session.live := hinv.live.symm ▸ hc
    unfold SlistPtr.forEachPre
    rw [Exec.bind_of_ok (hinv.good.next_ok hc')]
    exact hinv.good.forEachPreFrom_ok hinv.run (hinv.spots hU) hc' rfl hfuel

/-- On the list in the variable three nodes are pushed, one is popped and one erased. -/
theorem SlistReach.stack_sample : exists st vs,
    SlistReach oneNode .list (fun p => p ∈ threeNodes) st [⟨0, 11, 0⟩] ∧
    Run st.next (st.next .list) [⟨0, 11, 0⟩] ∧
    SlistPtr.forEachPre 2 (Cell.list.ptr st.session.world.index) st = .ok (vs, st) ∧
    Visits st [⟨0, 11, 0⟩] vs := by
  have hcU : forall p, p ∈ threeNodes -> Cell.list ≠ .word p := nofun
  have hc : Cell.list.In oneNode.live := trivial
  have hflag : oneNode.world.index.compressed = false := by decide +kernel
  rcases SlistReach.started (fun p => p ∈ threeNodes) (oneNode_reach.isOpen hflag) hc
    chkNull_fits chkNull_fits with ⟨st₀, hstart⟩
  have hnext : forall {st l} call, SlistReach oneNode .list (fun p => p ∈ threeNodes) st l ->
      SlistCall.Allowed (fun p => p ∈ threeNodes) l call -> l.length < 4 ->
      exists st', SlistReach oneNode .list (fun p => p ∈ threeNodes) st' (call.after l) := by
    intro st l call h hcall hfuel
    rcases (SlistReach.stack oneNode_reach hflag threeNodes_spot hc hcU h).2.2.1 call 4 hcall
      hfuel with ⟨st', -, hreach, -⟩
    exact ⟨st', hreach⟩
  rcases hnext (.push theNode) hstart (by decide) (by decide) with ⟨st₁, h₁⟩
  rcases hnext (.push ⟨0, 11, 0⟩) h₁ (by decide) (by decide) with ⟨st₂, h₂⟩
  rcases hnext (.push ⟨0, 13, 0⟩) h₂ (by decide) (by decide) with ⟨st₃, h₃⟩
  rcases hnext .pop h₃ trivial (by decide) with ⟨st₄, h₄⟩
  rcases hnext (.erase theNode) h₄ (by decide) (by decide) with ⟨st₅, h₅⟩
  rcases SlistReach.stack oneNode_reach hflag threeNodes_spot hc hcU h₅ with
    ⟨hrun, -, -, hwalk⟩
  rcases hwalk 2 (by decide) with ⟨vs, hvs, hvisits⟩
  exact ⟨st₅, vs, h₅, hrun, hvs, hvisits⟩

end ChunkMem
