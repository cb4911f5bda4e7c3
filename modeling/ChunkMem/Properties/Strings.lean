import ChunkMem.Properties.Endings
import ChunkMem.Properties.RoundTrip
import ChunkMem.Structures.StrContents

/-!
# Strings keep what was set

Any number of strings share an index.  Whatever is set and cleared, each shows what
was last stored in it, and the blocks handed out since are those of the strings.
-/

namespace ChunkMem

open Foundation

structure StrState where
  session : Session
  strs : Nat -> ChkStr

inductive StrCall where
  | setData (i : Nat) (buf : List Byte)
  | clear (i : Nat)

namespace StrCall

def index : StrCall -> Nat
  | setData i _ => i
  | clear i => i

def perform (env : Env) : StrCall -> StrState -> Except Fault (Int × StrState)
  | setData i buf, st =>
      match (st.strs i).setData env (.bytes buf) buf.length st.session with
      | .ok ((r, x), s') => .ok (r, ⟨s', Function.update st.strs i x⟩)
      | .error e => .error e
  | clear i, st =>
      match (st.strs i).clear env st.session with
      | .ok (x, s') => .ok (0, ⟨s', Function.update st.strs i x⟩)
      | .error e => .error e

theorem perform_setData (env : Env) (i : Nat) (buf : List Byte) (st : StrState) :
    (setData i buf).perform env st =
      match (st.strs i).setData env (.bytes buf) buf.length st.session with
      | .ok ((r, x), s') => .ok (r, ⟨s', Function.update st.strs i x⟩)
      | .error e => .error e := rfl

theorem perform_clear (env : Env) (i : Nat) (st : StrState) :
    (clear i).perform env st =
      match (st.strs i).clear env st.session with
      | .ok (x, s') => .ok (0, ⟨s', Function.update st.strs i x⟩)
      | .error e => .error e := rfl

def shown (t : Nat -> List Byte) (r : Int) : StrCall -> Nat -> List Byte
  | setData i buf => if r = 0 then Function.update t i buf else t
  | clear i => Function.update t i []

/-- The bytes are free of zeros, and their number fits an `int`. -/
def Allowed : StrCall -> Prop
  | setData _ buf => NulFree buf ∧ buf.length < 2 ^ 31 - 16
  | clear _ => True

instance : forall call : StrCall, Decidable call.Allowed
  | setData _ _ => inferInstanceAs (Decidable (_ ∧ _))
  | clear _ => inferInstanceAs (Decidable True)

def faultOf (env : Env) (st : StrState) (call : StrCall) : Option Fault :=
  match call.perform env st with
  | .error e => some e
  | .ok _ => none

theorem perform_of_faultOf {env : Env} {st : StrState} {call : StrCall} {e : Fault}
    (h : call.faultOf env st = some e) : call.perform env st = .error e := by
  unfold faultOf at h
  split at h
  · next heq =>
      cases h
      exact heq
  · cases h

end StrCall

def StrCall.performAll (env : Env) : List StrCall -> StrState -> (Nat -> List Byte) ->
    Except Fault (StrState × (Nat -> List Byte))
  | [], st, t => .ok (st, t)
  | call :: rest, st, t =>
      match call.perform env st with
      | .ok (r, st') => performAll env rest st' (call.shown t r)
      | .error e => .error e

/-- What calls lead to from strings that were just initialised, with the contents
that were set. -/
inductive StrReach (env : Env) (s₀ : Session) : StrState -> (Nat -> List Byte) -> Prop where
  | start : StrReach env s₀ ⟨s₀, fun _ => ChkStr.init⟩ (fun _ => [])
  | step {st st' : StrState} {t : Nat -> List Byte} {call : StrCall} {r : Int} :
      StrReach env s₀ st t -> call.Allowed -> call.perform env st = .ok (r, st') ->
      StrReach env s₀ st' (call.shown t r)

/-- The strings show the given contents and own the blocks that are not of the
session `s₀`. -/
structure StrState.Keeps (s₀ : Session) (st : StrState) (t : Nat -> List Byte) : Prop where
  length : forall i, (st.strs i).length = (t i).length
  cStr : forall i, (st.strs i).cBytes ((t i).length + 1) st.session.world =
    .ok (t i ++ [0], st.session.world)
  /-- A block holds the string and its terminating zero. -/
  fits : forall i p, (st.strs i).owned = some p -> (t i).length + 1 ≤ 8 * p.size
  nodup : (st.session.live.map Live.ptr).Nodup
  /-- Each string in block form owns a live block of its own. -/
  owns : forall i p, (st.strs i).owned = some p ->
    (exists b, b ∈ st.session.live ∧ b ∉ s₀.live ∧ b.ptr = p) ∧
      forall j, (st.strs j).owned = some p -> j = i
  /-- Every live block is one of the session or the block of a string. -/
  owned : forall b, b ∈ st.session.live ->
    b ∈ s₀.live ∨ exists i, (st.strs i).owned = some b.ptr
  /-- The blocks of the session are as they were. -/
  others : forall b, b ∈ s₀.live -> b ∈ st.session.live ∧
    World.KeepsBlock s₀.world st.session.world b.ptr

/-!
## The invariant
-/

structure StrInv (env : Env) (s₀ : Session) (st : StrState) (t : Nat -> List Byte) : Prop where
  isOpen : Open env st.session
  shows : forall i, (st.strs i).Shows st.session (t i)
  nulFree : forall i, NulFree (t i)
  apart : forall i j p, (st.strs i).owned = some p -> (st.strs j).owned = some p -> i = j
  owned : forall b, b ∈ st.session.live ->
    b ∈ s₀.live ∨ exists i, (st.strs i).owned = some b.ptr
  others : forall b, b ∈ s₀.live -> b ∈ st.session.live ∧
    (forall i, (st.strs i).owned ≠ some b.ptr) ∧
    World.KeepsBlock s₀.world st.session.world b.ptr

namespace StrInv

variable {env : Env} {s₀ : Session} {st st' : StrState} {t : Nat -> List Byte}

theorem start (h : Open env s₀) :
    StrInv env s₀ ⟨s₀, fun _ => ChkStr.init⟩ (fun _ => []) := by
  have hnone : ChkStr.init.owned = none := ChkStr.owned_short ChkStr.init_flag
  refine ⟨h, fun _ => ChkStr.init_shows s₀, fun _ => NulFree.nil, ?_, fun b hb => Or.inl hb,
    fun b hb => ⟨hb, ?_, fun _ _ => rfl⟩⟩
  · intro i j p hp
    rw [hnone] at hp
    cases hp
  · intro i hp
    rw [hnone] at hp
    cases hp

theorem updated (h : StrInv env s₀ st t) {i : Nat} {l : List Byte} (hl : NulFree l) {r : Int}
    {x' : ChkStr} {s' : Session} (hpost : ChkStr.SetPost env st.session (st.strs i) l r x' s') :
    (r = 0 ∧ StrInv env s₀ ⟨s', Function.update st.strs i x'⟩ (Function.update t i l)) ∨
    (r = -1 ∧ Function.update st.strs i x' = st.strs ∧ s'.live = st.session.live ∧
      StrInv env s₀ ⟨s', Function.update st.strs i x'⟩ t) := by
  rcases hpost with ⟨hopen, hothers, ⟨rfl, hshows, hlive, hown⟩ | ⟨rfl, rfl, hlive, hkept⟩⟩
  · refine Or.inl ⟨rfl, hopen, ?_, ?_, ?_, ?_, ?_⟩
    · intro j
      by_cases hj : j = i
      · subst hj
        simp only [Function.update_self]
        exact hshows
      · simp only [Function.update_of_ne hj]
        refine (h.shows j).kept fun b hb hbj => hothers b hb fun hbi => hj ?_
        exact h.apart j i _ hbj hbi
    · intro j
      by_cases hj : j = i
      · subst hj
        rw [Function.update_self]
        exact hl
      · rw [Function.update_of_ne hj]
        exact h.nulFree j
    · -- a block the string got is not the block of another one
      have hnew : forall j p, j ≠ i -> (st.strs j).owned = some p -> x'.owned ≠ some p := by
        intro j p hj hp hx
        rcases (h.shows j).owned_live hp with ⟨b, hb, rfl, -⟩
        exact hj (h.apart j i _ hp (hown b hb hx))
      intro j k p hj hk
      by_cases hji : j = i
      · by_cases hki : k = i
        · rw [hji, hki]
        · subst hji
          simp only [Function.update_self, Function.update_of_ne hki] at hj hk
          exact absurd hj (hnew k p hki hk)
      · by_cases hki : k = i
        · subst hki
          simp only [Function.update_self, Function.update_of_ne hji] at hj hk
          exact absurd hk (hnew j p hji hj)
        · simp only [Function.update_of_ne hji, Function.update_of_ne hki] at hj hk
          exact h.apart j k p hj hk
    · intro b hb
      rcases hlive b hb with ⟨hb', hne⟩ | heq
      · rcases h.owned b hb' with hs | ⟨j, hj⟩
        · exact Or.inl hs
        · refine Or.inr ⟨j, ?_⟩
          have hji : j ≠ i := fun hji => hne (hji ▸ hj)
          simp only [Function.update_of_ne hji]
          exact hj
      · refine Or.inr ⟨i, ?_⟩
        simp only [Function.update_self]
        exact heq
    · intro b hb
      rcases h.others b hb with ⟨hb', hnone, hsame⟩
      rcases hothers b hb' (hnone i) with ⟨hb'', hsame'⟩
      refine ⟨hb'', ?_, fun j hj => (hsame' j hj).trans (hsame j hj)⟩
      intro j hj
      by_cases hji : j = i
      · subst hji
        simp only [Function.update_self] at hj
        exact hnone j (hown b hb' hj)
      · simp only [Function.update_of_ne hji] at hj
        exact hnone j hj
  · have hsame : Function.update st.strs i (st.strs i) = st.strs := Function.update_eq_self _ _
    refine Or.inr ⟨rfl, hsame, hlive, ?_⟩
    rw [hsame]
    refine ⟨hopen, ?_, h.nulFree, h.apart, ?_, ?_⟩
    · intro j
      exact (h.shows j).kept fun b hb _ => ⟨hlive ▸ hb, hkept b hb⟩
    · intro b hb
      exact h.owned b (hlive ▸ hb)
    · intro b hb
      rcases h.others b hb with ⟨hb', hnone, hsame'⟩
      exact ⟨hlive ▸ hb', hnone, fun j hj => (hkept b hb' j hj).trans (hsame' j hj)⟩

theorem perform (h : StrInv env s₀ st t) {call : StrCall} (hcall : call.Allowed) :
    Exec.Ensures (call.perform env st)
      (fun r st' => StrInv env s₀ st' (call.shown t r) ∧
        (r = 0 ∨ r = -1 ∧ st'.strs = st.strs ∧ st'.session.live = st.session.live) ∧
        forall b, b ∈ st.session.live -> (st.strs call.index).owned ≠ some b.ptr ->
          World.KeepsBlock st.session.world st'.session.world b.ptr)
      (Expected env) := by
  cases call with
  | setData i buf =>
      have hset := ChkStr.setData_ensures h.isOpen (h.shows i) hcall.2
      rw [StrCall.perform_setData]
      cases hrun : (st.strs i).setData env (.bytes buf) buf.length st.session with
      | error e =>
          rw [hrun] at hset
          exact hset
      | ok rxs =>
          rcases rxs with ⟨⟨r, x'⟩, s'⟩
          rw [hrun] at hset
          have hothers := fun b hb hne => (hset.others b hb hne).2
          rcases h.updated hcall.1 hset with ⟨rfl, h'⟩ | ⟨rfl, hsame, hlive, h'⟩
          · exact ⟨h', Or.inl rfl, hothers⟩
          · exact ⟨h', Or.inr ⟨rfl, hsame, hlive⟩, hothers⟩
  | clear i =>
      have hclear := ChkStr.clear_ensures h.isOpen (h.shows i)
      rw [StrCall.perform_clear]
      cases hrun : (st.strs i).clear env st.session with
      | error e =>
          rw [hrun] at hclear
          exact hclear
      | ok xs =>
          rcases xs with ⟨x', s'⟩
          rw [hrun] at hclear
          have hothers := fun b hb hne => (hclear.others b hb hne).2
          rcases h.updated (l := []) NulFree.nil hclear with ⟨-, h'⟩ | ⟨hcon, -⟩
          · exact ⟨h', Or.inl rfl, hothers⟩
          · cases hcon

theorem keeps (h : StrInv env s₀ st t) : st.Keeps s₀ t := by
  refine ⟨fun i => (h.shows i).length_eq (h.nulFree i), fun i => ?_, ?_, h.isOpen.nodup, ?_,
    h.owned, fun b hb => ⟨(h.others b hb).1, (h.others b hb).2.2⟩⟩
  · rw [(h.shows i).cBytes_ok h.isOpen (Nat.le_refl _), List.take_of_length_le (by simp)]
  · intro i p hp
    rcases (h.shows i).cases_flag with ⟨-, hown⟩ | ⟨b, hb, -, -, hown, -, hfit, -⟩
    · rw [hown] at hp
      cases hp
    · rw [hown] at hp
      rw [← Option.some.inj hp]
      exact hfit
  · intro i p hp
    rcases (h.shows i).owned_live hp with ⟨b, hb, rfl, -⟩
    exact ⟨⟨b, hb, fun hcon => (h.others b hcon).2.1 i hp, rfl⟩,
      fun j hj => h.apart j i _ hj hp⟩

end StrInv

theorem StrReach.inv {env : Env} {s₀ : Session} {st : StrState} {t : Nat -> List Byte}
    (hopen : Open env s₀) (h : StrReach env s₀ st t) : StrInv env s₀ st t := by
  induction h with
  | start => exact .start hopen
  | step _ hcall hrun ih => exact ((ih.perform hcall).of_ok hrun).1

theorem Reach.isOpen {env : Env} {s : Session} (h : Reach env CarefulCall s)
    (hflag : s.world.index.compressed = false) : Open env s := ⟨hflag, h.careful⟩

theorem StrReach.performAll {env : Env} {s₀ : Session} {calls : List StrCall} :
    forall {st st' : StrState} {t t' : Nat -> List Byte}, StrReach env s₀ st t ->
      (forall call, call ∈ calls -> call.Allowed) ->
      StrCall.performAll env calls st t = .ok (st', t') -> StrReach env s₀ st' t' := by
  induction calls with
  | nil =>
      intro st st' t t' h _ hrun
      cases hrun
      exact h
  | cons call rest ih =>
      intro st st' t t' h hcalls hrun
      unfold StrCall.performAll at hrun
      cases hcall : call.perform env st with
      | error e =>
          rw [hcall] at hrun
          cases hrun
      | ok rst =>
          rw [hcall] at hrun
          exact ih (h.step (hcalls call List.mem_cons_self) hcall)
            (fun call' hmem => hcalls call' (List.mem_cons_of_mem _ hmem)) hrun

/-- Calls from strings that were just initialised, as far as they were looked at. -/
theorem StrReach.of_calls {env : Env} {s₀ : Session} {calls : List StrCall} {α : Type}
    {f : StrState × (Nat -> List Byte) -> α} {v : α}
    (hcalls : forall call, call ∈ calls -> call.Allowed)
    (hcode : (StrCall.performAll env calls ⟨s₀, fun _ => ChkStr.init⟩ fun _ => []).toOption.map f =
      some v) : exists st t, StrReach env s₀ st t ∧ f (st, t) = v := by
  cases hrun : StrCall.performAll env calls ⟨s₀, fun _ => ChkStr.init⟩ fun _ => [] with
  | error e =>
      rw [hrun] at hcode
      cases hcode
  | ok x =>
      rw [hrun] at hcode
      exact ⟨x.1, x.2, StrReach.start.performAll hcalls hrun, Option.some.inj hcode⟩

/-!
## When calls return, and what they return
-/

namespace ChkStr

/-- `alloc` refuses the block that `set_data` asks it for. -/
def Refused (env : Env) (s : Session) (x : ChkStr) (n : Nat) : Prop :=
  x.Outgrows n ∧ exists p s₁, Prog.alloc env ((n : Int) + 1) s = .ok (p, s₁) ∧ p.IsNull

/-- `set_data` of `n` bytes hands over no units that cannot be cut. -/
def SetEnds (env : Env) (w : World) (x : ChkStr) (n : Nat) : Prop :=
  (n ≤ 7 -> forall p, x.owned = some p -> w.FreeEnds env p) ∧
  (x.Outgrows n -> w.AllocEnds env ((n : Int) + 1) ∧ forall p, x.owned = some p ->
    w.Refuses env ((n : Int) + 1) ∨ w.StaysTop env ((n : Int) + 1) p ∨
      Cuttable env.freeSize p.size)

variable {env : Env} {s : Session} {x : ChkStr} {l lx : List Byte}

theorem setData_code {buf : CharPtr} {n : Nat} (hmax : n < 2 ^ 31 - 16) {r : Int} {x' : ChkStr}
    {s' : Session} (hrun : x.setData env buf n s = .ok ((r, x'), s')) :
    (x.Refused env s n -> r = -1) ∧ (¬x.Refused env s n -> r = 0) := by
  unfold setData at hrun
  by_cases hlen : n ≤ 7
  · have hnot : ¬x.Refused env s n := fun hcon => absurd hcon.1.1 (by omega)
    refine ⟨fun hcon => absurd hcon hnot, fun _ => ?_⟩
    rw [if_pos hlen] at hrun
    by_cases hflag : x.flag ≠ 0
    · rw [if_pos hflag] at hrun
      rcases Exec.ok_of_bind hrun with ⟨_, s₁, -, hrest⟩
      rcases Exec.ok_of_bind hrest with ⟨x₁, s₂, -, hrest'⟩
      rcases Exec.ok_of_bind hrest' with ⟨bytes, s₃, -, hlast⟩
      cases hlast
      rfl
    · rw [if_neg hflag] at hrun
      rcases Exec.ok_of_bind hrun with ⟨x₁, s₁, -, hrest⟩
      rcases Exec.ok_of_bind hrest with ⟨bytes, s₂, -, hlast⟩
      cases hlast
      rfl
  · rw [if_neg hlen] at hrun
    by_cases hplace : x.flag ≠ 0 ∧ x.strLen ≥ n
    · rw [if_pos hplace] at hrun
      rcases Exec.ok_of_bind hrun with ⟨_, s₁, -, hlast⟩
      cases hlast
      exact ⟨fun hcon => absurd hplace hcon.1.2, fun _ => rfl⟩
    · rw [if_neg hplace] at hrun
      have hwrap : wrapInt ((n : Int) + 1) = (n : Int) + 1 := wrapInt_of_lt (by omega) (by omega)
      rw [hwrap] at hrun
      rcases Exec.ok_of_bind hrun with ⟨p, s₁, halloc, hrest⟩
      by_cases hnull : p.IsNull
      · rw [if_pos hnull] at hrest
        cases hrest
        exact ⟨fun _ => rfl, fun hcon => absurd ⟨⟨by omega, hplace⟩, p, _, halloc, hnull⟩ hcon⟩
      · have hnot : ¬x.Refused env s n := by
          rintro ⟨-, q, s₂, halloc', hq⟩
          cases halloc.symm.trans halloc'
          exact hnull hq
        refine ⟨fun hcon => absurd hcon hnot, fun _ => ?_⟩
        rw [if_neg hnull] at hrest
        by_cases hflag : x.flag ≠ 0
        · rw [if_pos hflag] at hrest
          rcases Exec.ok_of_bind hrest with ⟨_, s₂, -, hrest'⟩
          rcases Exec.ok_of_bind hrest' with ⟨x₁, s₃, -, hfill⟩
          rcases Exec.ok_of_bind hfill with ⟨_, s₄, -, hlast⟩
          cases hlast
          rfl
        · rw [if_neg hflag] at hrest
          rcases Exec.ok_of_bind hrest with ⟨x₁, s₂, -, hfill⟩
          rcases Exec.ok_of_bind hfill with ⟨_, s₃, -, hlast⟩
          cases hlast
          rfl

/-- `set_data` under its condition returns, but for assertions behind a failed system call. -/
theorem setData_ends (h : Open env s) (hx : x.Shows s lx) (hmax : l.length < 2 ^ 31 - 16)
    (hends : x.SetEnds env s.world l.length) :
    Exec.Ensures (x.setData env (.bytes l) l.length s)
      (fun rx s' => SetPost env s x l rx.1 rx.2 s') (Tolerated env) := by
  refine setData_carried h hx hmax (fun hlen b hb hown => ?_)
    (fun hout => h.alloc_ends (by omega) (by omega) (hends.2 hout).1)
    (fun p s₁ b hrun hp hout h₁ hb hb₁ hown => ?_)
  · rcases h.free_ends hb (hends.1 hlen _ hown) with ⟨s', hrun, hpost⟩
    exact Exec.Ensures.of_eq hrun hpost
  · have hfree : s₁.world.FreeEnds env b.ptr := by
      rcases (hends.2 hout).2 _ hown with hrefuses | hstay | hcuts
      · exact absurd (h.alloc_refuses (by omega) (by omega) hrefuses hrun) hp
      · exact Or.inl (h.topmost_after hb (by omega) (by omega) hrun hp hstay)
      · exact Or.inr hcuts
    rcases h₁.free_ends hb₁ hfree with ⟨s', hrun', hpost⟩
    exact Exec.Ensures.of_eq hrun' hpost

theorem clear_ends (h : Open env s) (hx : x.Shows s lx)
    (hends : forall p, x.owned = some p -> s.world.FreeEnds env p) :
    Exec.Ensures (x.clear env s) (fun x' s' => SetPost env s x [] 0 x' s') (Tolerated env) := by
  refine clear_carried h hx fun b hb hown => ?_
  rcases h.free_ends hb (hends _ hown) with ⟨s', hrun, hpost⟩
  exact Exec.Ensures.of_eq hrun hpost

end ChkStr

namespace StrCall

def Ends (env : Env) (st : StrState) : StrCall -> Prop
  | setData i buf => (st.strs i).SetEnds env st.session.world buf.length
  | clear i => forall p, (st.strs i).owned = some p -> st.session.world.FreeEnds env p

/-- `alloc` refuses what the call asks it for. -/
def Refused (env : Env) (st : StrState) : StrCall -> Prop
  | setData i buf => (st.strs i).Refused env st.session buf.length
  | clear _ => False

theorem ends_of_nonzero {env : Env} (h : env.ClassesNonzero) (st : StrState) (call : StrCall) :
    call.Ends env st := by
  cases call with
  | setData i buf =>
      exact ⟨fun _ p _ => World.freeEnds_of_nonzero h _ p,
        fun _ => ⟨World.allocEnds_of_nonzero h _ _, fun p _ => Or.inr (Or.inr (.of_pos h _))⟩⟩
  | clear i => exact fun p _ => World.freeEnds_of_nonzero h _ p

theorem code {env : Env} {st st' : StrState} {call : StrCall} (hcall : call.Allowed) {r : Int}
    (hrun : call.perform env st = .ok (r, st')) :
    (call.Refused env st -> r = -1) ∧ (¬call.Refused env st -> r = 0) := by
  cases call with
  | setData i buf =>
      rw [perform_setData] at hrun
      cases hset : (st.strs i).setData env (.bytes buf) buf.length st.session with
      | error e =>
          rw [hset] at hrun
          cases hrun
      | ok rxs =>
          rcases rxs with ⟨⟨r', x'⟩, s'⟩
          rw [hset] at hrun
          cases hrun
          exact ChkStr.setData_code hcall.2 hset
  | clear i =>
      rw [perform_clear] at hrun
      cases hclear : (st.strs i).clear env st.session with
      | error e =>
          rw [hclear] at hrun
          cases hrun
      | ok xs =>
          rw [hclear] at hrun
          cases hrun
          exact ⟨fun hcon => hcon.elim, fun _ => rfl⟩

end StrCall

theorem StrInv.perform_ends {env : Env} {s₀ : Session} {st : StrState} {t : Nat -> List Byte}
    (h : StrInv env s₀ st t) {call : StrCall} (hcall : call.Allowed) (hends : call.Ends env st) :
    Exec.Ensures (call.perform env st) (fun _ _ => True) (Tolerated env) := by
  cases call with
  | setData i buf =>
      have hset := ChkStr.setData_ends h.isOpen (h.shows i) hcall.2 hends
      rw [StrCall.perform_setData]
      cases hrun : (st.strs i).setData env (.bytes buf) buf.length st.session with
      | error e => exact hset.of_error hrun
      | ok rxs => trivial
  | clear i =>
      have hclear := ChkStr.clear_ends h.isOpen (h.shows i) hends
      rw [StrCall.perform_clear]
      cases hrun : (st.strs i).clear env st.session with
      | error e => exact hclear.of_error hrun
      | ok xs => trivial

/-!
## Runs
-/

/-- In every session with an uncompressed index, after any calls on any strings: each
string shows what was last stored in it, the blocks handed out since are exactly those
of the strings in block form, one for each, and nothing else changed.  The next call that
returns gives -1 and changes no string when `alloc` refuses, else zero, and writes into no
block but the string's own.  A call that hands over no units that cannot be cut returns, but
for assertions behind a failed system call. -/
theorem Reach.strings_keep {env : Env} {s₀ : Session} (h : Reach env CarefulCall s₀)
    (hflag : s₀.world.index.compressed = false) {st : StrState} {t : Nat -> List Byte}
    (hst : StrReach env s₀ st t) :
    st.Keeps s₀ t ∧
    (forall (call : StrCall) (r : Int) (st' : StrState), call.Allowed ->
      call.perform env st = .ok (r, st') ->
      (call.Refused env st -> r = -1 ∧ st'.strs = st.strs ∧
        st'.session.live = st.session.live) ∧
      (¬call.Refused env st -> r = 0) ∧
      forall b, b ∈ st.session.live -> (st.strs call.index).owned ≠ some b.ptr ->
        World.KeepsBlock st.session.world st'.session.world b.ptr) ∧
    forall call : StrCall, call.Allowed -> call.Ends env st ->
      Exec.Ensures (call.perform env st) (fun r st' => StrReach env s₀ st' (call.shown t r))
        (Tolerated env) := by
  have hinv := hst.inv (h.isOpen hflag)
  refine ⟨hinv.keeps, fun call r st' hcall hrun => ?_, fun call hcall hends => ?_⟩
  · have hcode := StrCall.code hcall hrun
    rcases (hinv.perform hcall).of_ok hrun with ⟨-, hr, hothers⟩
    refine ⟨fun href => ?_, hcode.2, hothers⟩
    have hminus := hcode.1 href
    exact ⟨hminus, (hr.resolve_left (by omega)).2⟩
  · exact (hinv.perform_ends hcall hends).run.mono
      (fun _ _ hq => hst.step hcall hq.1) fun _ he => he

def twelveBytes : List Byte := [116, 119, 101, 108, 118, 101, 32, 98, 121, 116, 101, 115]

/-- The first of the texts that are set in turn in the example of use. -/
def readmeText : List Byte := [102, 100, 115, 97, 102, 97, 115, 100, 103, 97, 100, 115, 103, 115,
  100, 97, 102, 102, 97, 100, 115]

/-- Two strings grow, shrink in place, get short and are cleared. -/
def turns : List StrCall := [.setData 0 twelveBytes, .setData 1 readmeText, .setData 0 readmeText,
  .setData 1 twelveBytes, .setData 0 [49, 50, 51], .setData 2 twelveBytes, .clear 1]

theorem turns_allowed : forall call, call ∈ turns -> call.Allowed := by decide

/-- Strings of both forms beside the blocks of a program, and the next call. -/
theorem Reach.strings_keep_sample : exists st t, StrState.Keeps packed st t ∧
    (t 0, t 1, t 2) = ([49, 50, 51], [], twelveBytes) ∧
    exists r st', (StrCall.setData 1 readmeText).perform Env.plain st = .ok (r, st') ∧
      StrReach Env.plain packed st' ((StrCall.setData 1 readmeText).shown t r) := by
  have hopen : packed.world.index.compressed = false := by decide +kernel
  rcases StrReach.of_calls (f := fun x => (x.2 0, x.2 1, x.2 2)) turns_allowed
    (show (StrCall.performAll Env.plain turns ⟨packed, fun _ => ChkStr.init⟩
      fun _ => []).toOption.map _ = some ([49, 50, 51], [], twelveBytes) by decide +kernel) with
    ⟨st, t, hst, ht⟩
  rcases Reach.strings_keep packed_reach hopen hst with ⟨hkeeps, -, hreturns⟩
  have hends := StrCall.ends_of_nonzero Env.plain_classesNonzero st (.setData 1 readmeText)
  rcases (hreturns _ (by decide) hends).exists_ok fun e he => he.2 Env.plain_allOk with
    ⟨r, st', hrun, hst'⟩
  exact ⟨st, t, hkeeps, ht, r, st', hrun, hst'⟩

def Env.unset : Env := { Env.plain with freeSizePreset := fun _ => 0 }

/-- Without presets the block of a string that gets short, below that of another one, trips
the assertion of the memory manager. -/
theorem StrReach.set_aborts : exists st t, StrReach Env.unset ⟨World.boot, []⟩ st t ∧
    (StrCall.setData 1 [49, 50, 51, 52, 53, 54]).Allowed ∧
    (StrCall.setData 1 [49, 50, 51, 52, 53, 54]).perform Env.unset st = .error .assertion := by
  have hallowed : forall call, call ∈ [StrCall.setData 1 readmeText, .setData 0 readmeText] ->
      call.Allowed := by decide
  rcases StrReach.of_calls
    (f := fun x => (StrCall.setData 1 [49, 50, 51, 52, 53, 54]).faultOf Env.unset x.1) hallowed
    (show (StrCall.performAll Env.unset _ ⟨⟨World.boot, []⟩, fun _ => ChkStr.init⟩
      fun _ => []).toOption.map _ = some (some Fault.assertion) by decide +kernel) with
    ⟨st, t, hst, hfault⟩
  exact ⟨st, t, hst, by decide, StrCall.perform_of_faultOf hfault⟩

end ChunkMem
