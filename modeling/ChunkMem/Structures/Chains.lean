import ChunkMem.Structures.HashList

/-!
# Chains of nodes

The links of a program with a hash list are its two variables and the words of its
blocks.  A chain leads from a link through nodes to a null link.
-/

namespace ChunkMem

open Foundation

inductive Cell where
  | list
  | single
  | word (p : ChkPtr)
deriving DecidableEq

namespace Cell

def ptr (idx : ChkIndex) : Cell -> SlistPtr
  | list => .list
  | single => .single
  | word p => .mem (idx.place p).addr

def In (live : List Live) : Cell -> Prop
  | word p => Spot live p
  | _ => True

end Cell

def HashState.next (st : HashState) : Cell -> ChkPtr
  | .list => st.list
  | .single => st.single
  | .word p => st.session.world.word p

/-- From a link the nodes of the list follow each other, and then a null link. -/
def Run (f : Cell -> ChkPtr) : ChkPtr -> List ChkPtr -> Prop
  | v, [] => v.IsNull
  | v, p :: l => v = p ∧ Run f (f (.word p)) l

theorem Run.congr {f f' : Cell -> ChkPtr} {v : ChkPtr} {l : List ChkPtr} (h : Run f v l)
    (heq : forall p, p ∈ l -> f' (.word p) = f (.word p)) : Run f' v l := by
  induction l generalizing v with
  | nil => exact h
  | cons p l ih =>
      refine ⟨h.1, ?_⟩
      rw [heq p List.mem_cons_self]
      exact ih h.2 fun q hq => heq q (List.mem_cons_of_mem p hq)

def firstAddr (idx : ChkIndex) : List ChkPtr -> Ptr
  | [] => Ptr.null
  | p :: _ => (idx.place p).addr

/-- Both variables hold pointers of 32 bits, and the index is open. -/
structure HashState.Good (env : Env) (st : HashState) : Prop where
  isOpen : Open env st.session
  list : st.list.Fits
  single : st.single.Fits

/-- Only the links of `W` have changed. -/
structure HashState.Step (env : Env) (W : Cell -> Prop) (st st' : HashState) : Prop where
  good : st'.Good env
  live : st'.session.live = st.session.live
  index : st'.session.world.index = st.session.world.index
  next : forall c, c.In st.session.live -> ¬W c -> st'.next c = st.next c
  keeps : World.KeepsBut st.session.world st'.session.world st.session.live
    fun q => W (.word q)

namespace HashState

variable {env : Env} {st st' st'' : HashState} {W W' : Cell -> Prop} {c : Cell}
variable {p v : ChkPtr} {l : List ChkPtr}

namespace Step

theorem refl (h : st.Good env) (W : Cell -> Prop) : Step env W st st :=
  ⟨h, rfl, rfl, fun _ _ _ => rfl, .refl _ _ _⟩

theorem trans (h : Step env W st st') (h' : Step env W st' st'') : Step env W st st'' := by
  refine ⟨h'.good, h'.live.trans h.live, h'.index.trans h.index, fun c hc hW => ?_, ?_⟩
  · rw [h'.next c (h.live.symm ▸ hc) hW, h.next c hc hW]
  · exact h.keeps.trans (h.live ▸ h'.keeps)

theorem mono (h : Step env W st st') (hW : forall c, W c -> W' c) : Step env W' st st' :=
  ⟨h.good, h.live, h.index, fun c hc hn => h.next c hc fun hc' => hn (hW c hc'),
    h.keeps.mono fun _ hq => hW _ hq⟩

theorem run (h : Step env W st st') (hrun : Run st.next v l)
    (hl : forall q, q ∈ l -> Spot st.session.live q ∧ ¬W (.word q)) : Run st'.next v l :=
  hrun.congr fun q hq => h.next _ (hl q hq).1 (hl q hq).2

end Step

/-!
## Single links
-/

theorem Good.fits (h : st.Good env) (c : Cell) : (st.next c).Fits := by
  cases c with
  | list => exact h.list
  | single => exact h.single
  | word p => exact Bits.readPtr_fits _ _

theorem Good.next_ok (h : st.Good env) (hc : c.In st.session.live) :
    (c.ptr st.session.world.index).next st = .ok (st.next c, st) := by
  cases c with
  | list => rfl
  | single => rfl
  | word p =>
      change HashProg.mem (loadPtr (st.session.world.index.place p).addr) st = _
      unfold HashProg.mem
      rw [h.isOpen.loadWord hc]
      rfl

theorem Good.setWord (h : st.Good env) (hp : Spot st.session.live p) {x : M Unit} {w' : World}
    (hx : x st.session.world = .ok ((), w')) (hset : Open.SetWord env st.session p v w') :
    exists st', HashProg.mem x st = .ok ((), st') ∧
      Step env (fun c => c = .word p) st st' ∧ st'.next (.word p) = v := by
  refine ⟨{ st with session := ⟨w', st.session.live⟩ }, ?_, ⟨⟨hset.isOpen, h.list, h.single⟩,
    rfl, hset.index, ?_, ?_⟩, hset.word⟩
  · unfold HashProg.mem
    rw [hx]
  · intro c hc hne
    cases c with
    | list => rfl
    | single => rfl
    | word q =>
        rcases hp with ⟨_, -, hsize, -⟩
        refine hset.others.word_eq hc fun q' hq' => ?_
        subst hq'
        exact ⟨fun heq => hne (heq ▸ rfl), hsize⟩
  · exact hset.others.mono fun q hq => congrArg Cell.word hq

theorem Good.setNext_ok (h : st.Good env) (hc : c.In st.session.live) (hv : v.Fits) :
    exists st', (c.ptr st.session.world.index).setNext v st = .ok ((), st') ∧
      Step env (fun c' => c' = c) st st' ∧ st'.next c = v := by
  cases c with
  | list =>
      refine ⟨_, rfl, ⟨⟨h.isOpen, hv, h.single⟩, rfl, rfl, ?_, .refl _ _ _⟩, rfl⟩
      intro c _ hne
      cases c with
      | list => exact absurd rfl hne
      | single => rfl
      | word q => rfl
  | single =>
      refine ⟨_, rfl, ⟨⟨h.isOpen, h.list, hv⟩, rfl, rfl, ?_, .refl _ _ _⟩, rfl⟩
      intro c _ hne
      cases c with
      | list => rfl
      | single => exact absurd rfl hne
      | word q => rfl
  | word p =>
      rcases h.isOpen.storeWord hc hv with ⟨w', hx, hset⟩
      exact h.setWord hc hx hset

theorem nulled_fits (hv : v.Fits) : v.nulled.Fits := by
  refine ⟨?_, hv.2⟩
  change chkMaxChkNum < 2 ^ 11
  decide

theorem Good.init_ok (h : st.Good env) (hc : c.In st.session.live) :
    exists st', (c.ptr st.session.world.index).init st = .ok ((), st') ∧
      Step env (fun c' => c' = c) st st' ∧ st'.next c = (st.next c).nulled := by
  cases c with
  | list => exact h.setNext_ok (c := .list) trivial (nulled_fits h.list)
  | single => exact h.setNext_ok (c := .single) trivial (nulled_fits h.single)
  | word p =>
      rcases h.isOpen.nullWord hc with ⟨w', hx, hset⟩
      exact h.setWord hc hx hset

theorem mem_ok {α : Type} {x : M α} {a : α} (hx : x st.session.world = .ok (a, st.session.world)) :
    HashProg.mem x st = .ok (a, st) := by
  unfold HashProg.mem
  rw [hx]

theorem Good.push_ok (h : st.Good env) (hp : Spot st.session.live p) (hc : c.In st.session.live)
    (hne : c ≠ .word p) :
    exists st', SlistPtr.push (st.session.world.index.place p)
        (c.ptr st.session.world.index) st = .ok ((), st') ∧
      Step env (fun c' => c' = c ∨ c' = .word p) st st' ∧ st'.next c = p ∧
      st'.next (.word p) = st.next c := by
  rcases h.setNext_ok (c := .word p) hp (h.fits c) with ⟨st₁, hrun₁, hstep₁, hnext₁⟩
  have hp₁ : Spot st₁.session.live p := hstep₁.live.symm ▸ hp
  have hc₁ : c.In st₁.session.live := hstep₁.live.symm ▸ hc
  rcases hstep₁.good.setNext_ok hc₁ (hstep₁.good.isOpen.spot_fits hp₁) with
    ⟨st₂, hrun₂, hstep₂, hnext₂⟩
  have hencode := mem_ok (hstep₁.good.isOpen.place_encode hp₁)
  rw [hstep₁.index] at hrun₂ hencode
  refine ⟨st₂, ?_, ?_, hnext₂, ?_⟩
  · unfold SlistPtr.push
    rw [Exec.bind_of_ok (h.next_ok hc)]
    have hstore : HashProg.mem (storePtr (st.session.world.index.place p).addr (st.next c)) st =
        .ok ((), st₁) := hrun₁
    rw [Exec.bind_of_ok hstore, Exec.bind_of_ok hencode]
    exact hrun₂
  · exact (hstep₁.mono fun _ hc' => Or.inr hc').trans (hstep₂.mono fun _ hc' => Or.inl hc')
  · rw [hstep₂.next (.word p) hp₁ fun heq => hne heq.symm, hnext₁]

/-!
## Chains
-/

theorem Good.decode (h : st.Good env) {f : Cell -> ChkPtr} (hrun : Run f v l)
    (hl : forall q, q ∈ l -> Spot st.session.live q) :
    chkPtr2addr v st.session.world =
      .ok (firstAddr st.session.world.index l, st.session.world) := by
  cases l with
  | nil =>
      have hnull : v.IsNull := hrun
      unfold chkPtr2addr
      rw [if_pos hnull]
      rfl
  | cons q l =>
      rw [hrun.1]
      exact h.isOpen.place_addr (hl q List.mem_cons_self)

theorem Good.nextOrNull_ok (h : st.Good env) (hrun : Run st.next v l)
    (hl : forall q, q ∈ l -> Spot st.session.live q) :
    exists u, ChkHashSList.nextOrNull (firstAddr st.session.world.index l) st = .ok (u, st) ∧
      Run st.next u l.tail ∧ forall q r, l = q :: r -> u = st.next (.word q) := by
  cases l with
  | nil =>
      refine ⟨chkNull, ?_, rfl, nofun⟩
      unfold ChkHashSList.nextOrNull firstAddr
      rw [if_pos rfl]
      rfl
  | cons q l =>
      have hq := hl q List.mem_cons_self
      refine ⟨st.next (.word q), ?_, hrun.2, ?_⟩
      · unfold ChkHashSList.nextOrNull firstAddr
        rw [if_neg (h.isOpen.place_ne_null hq)]
        exact mem_ok (h.isOpen.loadWord hq)
      · rintro q' r heq
        cases heq
        rfl

end HashState

end ChunkMem
