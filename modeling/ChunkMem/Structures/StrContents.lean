import ChunkMem.Structures.Str

/-!
# What a string holds

A string shows a list of bytes when they stand in its own eight bytes or in its
block, with a zero behind them.  Each function is specified by what is shown and by
the blocks it leaves alone.
-/

namespace ChunkMem

open Foundation

def NulFree (l : List Byte) : Prop := forall b, b ∈ l -> b ≠ 0

instance (l : List Byte) : Decidable (NulFree l) := inferInstanceAs (Decidable (forall _, _))

theorem NulFree.nil : NulFree [] := fun _ hb => absurd hb List.not_mem_nil

namespace Foundation.Bits

theorem bytes_take {m : Bits} {a n k : Nat} (h : n ≤ k) : (m.bytes a k).take n = m.bytes a n := by
  rw [take_bytes, Nat.min_eq_left h]

theorem bytes_terminated (m : Bits) (l : List Byte) :
    ((m.writeBytes 0 l).writeBytes l.length [0]).bytes 0 (l.length + 1) = l ++ [0] := by
  rw [bytes_append, bytes_writeBytes_outside (by omega), bytes_writeBytes, Nat.zero_add]
  exact congrArg (l ++ ·) (bytes_writeBytes (m.writeBytes 0 l) l.length [0])

end Foundation.Bits

namespace CharPtr

theorem read_bytes (x : ChkStr) (l : List Byte) (w : World) :
    (bytes l).read x l.length w = .ok (l, w) := by
  have htake : l.take l.length = l := List.take_length
  change (do
    Exec.require (l.length ≤ l.length) Fault.badAccess
    pure (l.take l.length) : M (List Byte)) w = _
  rw [Exec.bind_of_ok (Exec.require_of (Nat.le_refl _) _ _), htake]
  rfl

theorem read_own {x : ChkStr} {i n : Nat} {w : World} (h : i + n ≤ 8) :
    (own i).read x n w = .ok (x.bits.bytes i n, w) := by
  change (do
    Exec.require (i + n ≤ 8) Fault.badAccess
    pure (x.bits.bytes i n) : M (List Byte)) w = _
  rw [Exec.bind_of_ok (Exec.require_of h _ _)]
  rfl

end CharPtr

namespace ChkStr

def owned (x : ChkStr) : Option ChkPtr := if x.flag ≠ 0 then some x.dataPtr else none

/-- The string holds the bytes, in one form or the other. -/
inductive Shows (s : Session) (x : ChkStr) (l : List Byte) : Prop where
  | short : l.length ≤ 7 -> x.flag = 0 -> x.bits.bytes 0 (l.length + 1) = l ++ [0] -> Shows s x l
  | long {b : Live} : 8 ≤ l.length -> x.flag = 1 -> x.dataPtr = b.ptr -> b ∈ s.live ->
      x.strLen = l.length -> l.length + 1 ≤ 8 * b.ptr.size ->
      (s.world.target b.ptr).bytes 0 (l.length + 1) = l ++ [0] -> Shows s x l

variable {env : Env} {s s' : Session} {x : ChkStr} {l : List Byte}

theorem owned_short (h : x.flag = 0) : x.owned = none := if_neg (by omega)

theorem owned_long (h : x.flag = 1) : x.owned = some x.dataPtr := if_pos (by omega)

theorem init_flag : init.flag = 0 := Bits.read_zero _ _

theorem init_shows (s : Session) : init.Shows s [] := .short (by decide) init_flag rfl

namespace Shows

theorem kept (h : Shows s x l)
    (hkept : forall b, b ∈ s.live -> x.owned = some b.ptr ->
      b ∈ s'.live ∧ World.KeepsBlock s.world s'.world b.ptr) : Shows s' x l := by
  cases h with
  | short hlen hflag hbytes => exact .short hlen hflag hbytes
  | long hlen hflag hptr hb hstr hfit hbytes =>
      have hown := owned_long hflag
      rw [hptr] at hown
      rcases hkept _ hb hown with ⟨hb', hsame⟩
      refine .long hlen hflag hptr hb' hstr hfit ?_
      rw [← hbytes]
      exact Bits.bytes_congr fun i hi => hsame _ (by omega)

theorem owned_live (h : Shows s x l) {p : ChkPtr} (hp : x.owned = some p) :
    exists b, b ∈ s.live ∧ b.ptr = p ∧ x.flag = 1 := by
  cases h with
  | short _ hflag _ =>
      rw [owned_short hflag] at hp
      cases hp
  | long _ hflag hptr hb _ _ _ =>
      rw [owned_long hflag, hptr] at hp
      exact ⟨_, hb, Option.some.inj hp, hflag⟩

theorem length_eq (h : Shows s x l) (hnul : NulFree l) : x.length = l.length := by
  unfold length
  cases h with
  | short hlen hflag hbytes =>
      rw [if_neg (by omega)]
      have hdata : x.data = l ++ 0 :: x.bits.bytes (l.length + 1) (7 - l.length) := by
        have hsplit := Bits.bytes_append x.bits 0 (l.length + 1) (7 - l.length)
        rw [hbytes, show l.length + 1 + (7 - l.length) = 8 by omega, Nat.zero_add] at hsplit
        unfold data
        rw [hsplit, List.append_assoc]
        rfl
      unfold strlen
      rw [hdata, List.takeWhile_append_of_pos fun b hb => by simpa using hnul b hb,
        List.takeWhile_cons_of_neg (by simp), List.append_nil]
  | long hlen hflag hptr hb hstr hfit hbytes =>
      rw [if_pos (by omega), hstr]

theorem cBytes_ok (hopen : Open env s) (h : Shows s x l) {n : Nat} (hn : n ≤ l.length + 1) :
    x.cBytes n s.world = .ok ((l ++ [0]).take n, s.world) := by
  unfold cBytes cStr
  cases h with
  | short hlen hflag hbytes =>
      rw [if_neg (by omega), Exec.bind_of_ok (Exec.pure_apply _ _)]
      rw [CharPtr.read_own (by omega), ← hbytes, Bits.bytes_take hn]
  | @long b hlen hflag hptr hb hstr hfit hbytes =>
      have hno := hopen.chkNo_lt hb
      have hload := hopen.loadBytes_ok hb (a := 0) (n := n) (by omega)
      rw [if_pos (by omega), hptr, Exec.bind_assoc, Exec.bind_of_ok (hopen.chkPtr2addr_ok hno),
        Exec.bind_of_ok (Exec.pure_apply _ _), ← hbytes, Bits.bytes_take hn]
      exact hload

theorem cBytes_length (hopen : Open env s) (h : Shows s x l) (hnul : NulFree l) :
    x.cBytes x.length s.world = .ok (l, s.world) := by
  rw [h.length_eq hnul, h.cBytes_ok hopen (by omega), List.take_append_of_le_length (by omega),
    List.take_of_length_le (by omega)]

end Shows

/-!
## Storing bytes
-/

theorem store_shows (s : Session) (hflag : x.flag = 0) (hlen : l.length ≤ 7) :
    ((x.store 0 l).store l.length [0]).Shows s l := by
  refine .short hlen ?_ (Bits.bytes_terminated x.bits l)
  have hbit : forall i, i < 8 -> x.bits (56 + i) = false := fun i hi => by
    have hread := congrArg (fun n => n.testBit i) hflag
    simp only [flag, Bits.testBit_read, hi, decide_true, Bool.true_and, Nat.zero_testBit]
      at hread
    exact hread
  apply Bits.read_eq_zero
  intro i hi
  change ((x.bits.writeBytes 0 l).writeBytes l.length [0]) (56 + i) = false
  by_cases hz : l.length = 7
  · rw [Bits.writeBytes_inside (by omega) (by simp; omega), Bits.ofBytes]
    simp only [hz]
    rw [show (56 + i - 8 * 7) / 8 = 0 by omega]
    simp
  · rw [Bits.writeBytes_outside (by simp; omega), Bits.writeBytes_outside (by omega)]
    exact hbit i hi

theorem fill_ok (h : Open env s) {b : Live} (hb : b ∈ s.live) (hptr : x.dataPtr = b.ptr)
    {buf : CharPtr} (hfit : l.length + 1 ≤ 8 * b.ptr.size)
    (hread : buf.read x l.length s.world = .ok (l, s.world)) :
    exists w', fill x buf l.length s.world = .ok ((), w') ∧ Open env ⟨w', s.live⟩ ∧
      (w'.target b.ptr).bytes 0 (l.length + 1) = l ++ [0] ∧
      forall b', b' ∈ s.live -> b'.ptr ≠ b.ptr -> World.KeepsBlock s.world w' b'.ptr := by
  have hno := h.chkNo_lt hb
  rcases h.storeBytes_ok hb (a := 0) (d := l) (by omega) with
    ⟨w₁, hstore, h₁, hindex, htarget, hkept⟩
  rcases h₁.storeBytes_ok hb (a := l.length) (d := [0]) (by simp; omega) with
    ⟨w₂, hstore', h₂, -, htarget', hkept'⟩
  change storeBytes (s.world.addrOf b.ptr) l s.world = .ok ((), w₁) at hstore
  have haddr : World.addrOf w₁ b.ptr = s.world.addrOf b.ptr := by
    unfold World.addrOf
    rw [hindex]
  refine ⟨w₂, ?_, h₂, ?_, ?_⟩
  · unfold fill
    rw [hptr, Exec.bind_of_ok (h.chkPtr2addr_ok hno), Exec.bind_of_ok hread,
      Exec.bind_of_ok hstore, ← haddr]
    exact hstore'
  · rw [htarget', htarget]
    exact Bits.bytes_terminated _ l
  · intro b' hb' hne j hj
    rw [hkept' b' hb' hne j hj, hkept b' hb' hne j hj]

/-!
## The functions
-/

/-- Neither the eight bytes nor the block that is there, as far as its length is known, hold
a string of `n` bytes. -/
def Outgrows (x : ChkStr) (n : Nat) : Prop := 7 < n ∧ ¬(x.flag ≠ 0 ∧ x.strLen ≥ n)

/-- What `set_data` leaves. -/
structure SetPost (env : Env) (s : Session) (x : ChkStr) (l : List Byte) (r : Int) (x' : ChkStr)
    (s' : Session) : Prop where
  isOpen : Open env s'
  others : forall b, b ∈ s.live -> x.owned ≠ some b.ptr ->
    b ∈ s'.live ∧ World.KeepsBlock s.world s'.world b.ptr
  outcome : (r = 0 ∧ x'.Shows s' l ∧
      (forall b, b ∈ s'.live -> b ∈ s.live ∧ x.owned ≠ some b.ptr ∨ x'.owned = some b.ptr) ∧
      forall b, b ∈ s.live -> x'.owned = some b.ptr -> x.owned = some b.ptr) ∨
    (r = -1 ∧ x' = x ∧ s'.live = s.live ∧
      forall b, b ∈ s.live -> World.KeepsBlock s.world s'.world b.ptr)

theorem Shows.cases_flag {lx : List Byte} (h : x.Shows s lx) :
    x.flag = 0 ∧ x.owned = none ∨
    exists b, b ∈ s.live ∧ x.flag = 1 ∧ x.dataPtr = b.ptr ∧ x.owned = some b.ptr ∧
      x.strLen = lx.length ∧ lx.length + 1 ≤ 8 * b.ptr.size ∧
      (s.world.target b.ptr).bytes 0 (lx.length + 1) = lx ++ [0] := by
  cases h with
  | short _ hflag _ => exact Or.inl ⟨hflag, owned_short hflag⟩
  | long _ hflag hptr hb hstr hfit hbytes =>
      have hown := owned_long hflag
      rw [hptr] at hown
      exact Or.inr ⟨_, hb, hflag, hptr, hown, hstr, hfit, hbytes⟩

/-- `set_data` of a short string; the bytes are read when the block is gone. -/
theorem setData_short {lx : List Byte} (h : Open env s) (hx : x.Shows s lx)
    (hlen : l.length ≤ 7) {buf : CharPtr} {E : Fault -> Prop}
    (hread : forall x' w, buf.read x' l.length w = .ok (l, w))
    (hfree : forall b, b ∈ s.live -> x.owned = some b.ptr ->
      Exec.Ensures (Prog.free env b.ptr s) (fun _ s' => Open.FreePost env s b s') E) :
    Exec.Ensures (x.setData env buf l.length s) (fun rx s' => SetPost env s x l rx.1 rx.2 s')
      E := by
  have hnone : forall x' : ChkStr, x'.flag = 0 ->
      ((x'.store 0 l).store l.length [0]).owned = none := by
    intro x' hflag
    cases store_shows s hflag hlen with
    | short _ hflag' _ => exact owned_short hflag'
    | long hcon _ _ _ _ _ _ => omega
  unfold setData
  rw [if_pos hlen]
  rcases hx.cases_flag with ⟨hflag, hown⟩ | ⟨b, hb, hflag, hptr, hown, -⟩
  · rw [if_neg (by omega), Exec.bind_of_ok (Exec.pure_apply _ _)]
    beta_reduce
    rw [Exec.bind_of_ok (Prog.mem_of_ok (hread x s.world))]
    refine ⟨h, fun b hb _ => ⟨hb, fun _ _ => rfl⟩, Or.inl ⟨rfl, store_shows _ hflag hlen, ?_, ?_⟩⟩
    · intro b hb
      rw [hown]
      exact Or.inl ⟨hb, nofun⟩
    · intro b hb hcon
      rw [hnone x hflag] at hcon
      cases hcon
  · have hflag' : (x.setFlag 0).flag = 0 := Bits.read_write_of_lt (by decide)
    rw [if_pos (by omega), hptr]
    refine Exec.Ensures.bind (hfree b hb hown) ?_
    rintro _ s₁ hpost
    rw [Exec.bind_of_ok (Exec.pure_apply _ _)]
    beta_reduce
    rw [Exec.bind_of_ok (Prog.mem_of_ok (hread (x.setFlag 0) s₁.world))]
    refine ⟨hpost.isOpen, ?_, Or.inl ⟨rfl, store_shows _ hflag' hlen, ?_, ?_⟩⟩
    · intro b' hb' hne
      have hmem := (hpost.mem_iff h hb).mpr ⟨hb', fun heq => hne (by rw [hown, heq])⟩
      exact ⟨hmem, hpost.kept b' hmem⟩
    · intro b' hb'
      have hmem := (hpost.mem_iff h hb).mp hb'
      refine Or.inl ⟨hmem.1, fun heq => hmem.2 ?_⟩
      rw [hown] at heq
      exact (Option.some.inj heq).symm
    · intro b' _ hcon
      rw [hnone _ hflag'] at hcon
      cases hcon

theorem placed (hflag : x.flag = 1) {p : ChkPtr} {n : Nat} (hno : p.chkNo < 2 ^ 11)
    (hoff : p.offset < 2 ^ 12) (hsize : p.size < 2 ^ 9) (hn : n < 2 ^ 13) :
    ((x.setDataPtr p).setStrLen n).flag = 1 ∧ ((x.setDataPtr p).setStrLen n).dataPtr = p ∧
      ((x.setDataPtr p).setStrLen n).strLen = n := by
  refine ⟨?_, ?_, Bits.read_write_of_lt hn⟩
  · rw [← hflag]
    exact (Bits.read_write_disjoint (by omega)).trans (Bits.read_writePtr_disjoint (by omega))
  · have hsame : ((x.setDataPtr p).setStrLen n).dataPtr = (x.bits.writePtr 0 p).readPtr 0 :=
      Bits.readPtr_congr fun i hi => Bits.write_outside (by omega)
    rw [hsame, Bits.readPtr_writePtr hno hoff hsize]

theorem place_ensures (h : Open env s) {b : Live} (hb : b ∈ s.live) (hflag : x.flag = 1)
    (hlen : 8 ≤ l.length) (hfit : l.length + 1 ≤ 8 * b.ptr.size) (hsize : b.ptr.size < 2 ^ 9)
    {buf : CharPtr} {E : Fault -> Prop}
    (hread : forall x' w, buf.read x' l.length w = .ok (l, w)) :
    Exec.Ensures ((do
        Prog.mem (fill ((x.setDataPtr b.ptr).setStrLen l.length) buf l.length)
        pure (0, (x.setDataPtr b.ptr).setStrLen l.length) : Prog (Int × ChkStr)) s)
      (fun rx s' => rx.1 = 0 ∧ Open env s' ∧ rx.2.Shows s' l ∧ rx.2.owned = some b.ptr ∧
        s'.live = s.live ∧ forall b', b' ∈ s.live -> b'.ptr ≠ b.ptr ->
          World.KeepsBlock s.world s'.world b'.ptr)
      E := by
  have hno := h.chkNo_lt hb
  have hnum := h.chkNum_le
  rcases placed hflag (p := b.ptr) (n := l.length) (by omega) (h.offset_lt hb) hsize
    (by omega) with ⟨hflag', hptr', hstr'⟩
  rcases fill_ok h hb hptr' hfit (hread _ s.world) with ⟨w₁, hfill, h₁, hbytes, hkept⟩
  rw [Exec.bind_of_ok (Prog.mem_of_ok hfill)]
  refine ⟨rfl, h₁, .long hlen hflag' hptr' hb hstr' hfit hbytes, ?_, rfl, hkept⟩
  rw [owned_long hflag', hptr']

theorem setData_inPlace {lx : List Byte} (h : Open env s) (hx : x.Shows s lx)
    (hlen : 8 ≤ l.length) (hplace : x.flag ≠ 0 ∧ x.strLen ≥ l.length) {buf : CharPtr}
    (hread : buf.read x l.length s.world = .ok (l, s.world)) :
    exists x' s', x.setData env buf l.length s = .ok ((0, x'), s') ∧
      SetPost env s x l 0 x' s' := by
  unfold setData
  rw [if_neg (by omega)]
  rcases hx.cases_flag with ⟨hflag, -⟩ | ⟨b, hb, hflag, hptr, hown, hstr, hfit, -⟩
  · exact absurd hflag hplace.1
  · rcases fill_ok h hb hptr (by omega) hread with ⟨w₁, hfill, h₁, hbytes, hkept⟩
    rw [if_pos hplace, Exec.bind_of_ok (Prog.mem_of_ok hfill)]
    have hflag' : (x.setStrLen l.length).flag = 1 := by
      rw [← hflag]
      exact Bits.read_write_disjoint (by omega)
    have hptr' : (x.setStrLen l.length).dataPtr = b.ptr := by
      rw [← hptr]
      exact Bits.readPtr_congr fun i hi => Bits.write_outside (by omega)
    have hown' : (x.setStrLen l.length).owned = some b.ptr := by
      rw [owned_long hflag', hptr']
    have hbound : x.strLen < 2 ^ 13 := Bits.read_lt _ _ _
    have hstr' : (x.setStrLen l.length).strLen = l.length :=
      Bits.read_write_of_lt (by omega)
    refine ⟨_, _, rfl, h₁, ?_,
      Or.inl ⟨rfl, .long hlen hflag' hptr' hb hstr' (by omega) hbytes, ?_, ?_⟩⟩
    · intro b' hb' hne
      exact ⟨hb', hkept b' hb' fun heq => hne (by rw [hown, heq])⟩
    · intro b' hb'
      rw [hown, hown']
      by_cases heq : b'.ptr = b.ptr
      · exact Or.inr (by rw [heq])
      · exact Or.inl ⟨hb', fun hcon => heq (Option.some.inj hcon).symm⟩
    · intro b' _ heq
      rw [hown, ← hown']
      exact heq

theorem setData_long {lx : List Byte} (hx : x.Shows s lx)
    (hlen : 8 ≤ l.length) (hmax : l.length < 2 ^ 31 - 16) {buf : CharPtr} {E : Fault -> Prop}
    (hplace : ¬(x.flag ≠ 0 ∧ x.strLen ≥ l.length))
    (hread : forall x' w, buf.read x' l.length w = .ok (l, w))
    (halloc : Exec.Ensures (Prog.alloc env (l.length + 1) s)
      (Open.AllocPost env s (l.length + 1)) E)
    (hfree : forall p s₁ b, Prog.alloc env (l.length + 1) s = .ok (p, s₁) -> ¬p.IsNull ->
      Open env s₁ -> b ∈ s.live -> b ∈ s₁.live -> x.owned = some b.ptr ->
      Exec.Ensures (Prog.free env b.ptr s₁) (fun _ s' => Open.FreePost env s₁ b s') E) :
    Exec.Ensures (x.setData env buf l.length s) (fun rx s' => SetPost env s x l rx.1 rx.2 s')
      E := by
  unfold setData
  rw [if_neg (by omega), if_neg hplace]
  have hwrap : wrapInt ((l.length : Int) + 1) = (l.length : Int) + 1 :=
    wrapInt_of_lt (by omega) (by omega)
  rw [hwrap]
  refine Exec.Ensures.bind halloc.run ?_
  rintro p s₁ ⟨hrun, h₁, hkept₁, ⟨hnull, hlive⟩ | ⟨hnull, hlive, hfit, hsize, hfresh⟩⟩
  · -- refused
    rw [if_pos hnull]
    exact ⟨h₁, fun b hb _ => ⟨hlive ▸ hb, hkept₁ b hb⟩, Or.inr ⟨rfl, rfl, hlive, hkept₁⟩⟩
  · rw [if_neg hnull]
    have hself : (⟨p, (l.length : Int) + 1⟩ : Live) ∈ s₁.live := by
      rw [hlive]
      exact List.mem_cons_self
    have hsub : forall b, b ∈ s.live -> b ∈ s₁.live := fun b hb => by
      rw [hlive]
      exact List.mem_cons_of_mem _ hb
    rcases hx.cases_flag with ⟨hflag, hown⟩ | ⟨b, hb, hflag, hptr, hown, -⟩
    · have hflag' : (x.setFlag 1).flag = 1 := Bits.read_write_of_lt (by decide)
      rw [if_neg (by omega), Exec.bind_of_ok (Exec.pure_apply _ _)]
      beta_reduce
      refine (place_ensures h₁ hself hflag' hlen (by simp only; omega) hsize hread).mono ?_
        (fun _ he => he)
      rintro ⟨r, x'⟩ s₂ ⟨rfl, h₂, hshows, hown', hlive₂, hkept₂⟩
      refine ⟨h₂, ?_, Or.inl ⟨rfl, hshows, ?_, ?_⟩⟩
      · intro b hb _
        rw [hlive₂]
        refine ⟨hsub b hb, fun j hj => ?_⟩
        rw [hkept₂ b (hsub b hb) (hfresh b hb) j hj, hkept₁ b hb j hj]
      · intro b hb
        rw [hlive₂, hlive] at hb
        rcases List.mem_cons.mp hb with rfl | hb
        · exact Or.inr hown'
        · rw [hown]
          exact Or.inl ⟨hb, nofun⟩
      · intro b hb heq
        rw [hown'] at heq
        exact absurd (Option.some.inj heq).symm (hfresh b hb)
    · rw [if_pos (by omega), hptr]
      refine Exec.Ensures.bind (hfree p s₁ b hrun hnull h₁ hb (hsub b hb) hown) ?_
      rintro _ s₂ hpost
      rw [Exec.bind_of_ok (Exec.pure_apply _ _)]
      beta_reduce
      have hmem₂ : forall b', b' ∈ s₂.live <-> b' ∈ _ ∧ b'.ptr ≠ b.ptr :=
        fun b' => hpost.mem_iff h₁ (hsub b hb)
      have hself₂ := (hmem₂ _).mpr ⟨hself, fun heq => hfresh b hb heq.symm⟩
      refine (place_ensures hpost.isOpen hself₂ hflag hlen (by simp only; omega) hsize
        hread).mono ?_ (fun _ he => he)
      rintro ⟨r, x'⟩ s₃ ⟨rfl, h₃, hshows, hown', hlive₃, hkept₃⟩
      refine ⟨h₃, ?_, Or.inl ⟨rfl, hshows, ?_, ?_⟩⟩
      · intro b' hb' hne
        have hmem := (hmem₂ b').mpr ⟨hsub b' hb', fun heq => hne (by rw [hown, heq])⟩
        rw [hlive₃]
        refine ⟨hmem, fun j hj => ?_⟩
        rw [hkept₃ b' hmem (hfresh b' hb') j hj, hpost.kept b' hmem j hj, hkept₁ b' hb' j hj]
      · intro b' hb'
        rw [hlive₃] at hb'
        have hmem := (hmem₂ b').mp hb'
        rw [hlive] at hmem
        rcases List.mem_cons.mp hmem.1 with rfl | hb'
        · exact Or.inr hown'
        · rw [hown]
          exact Or.inl ⟨hb', fun heq => hmem.2 (Option.some.inj heq).symm⟩
      · intro b' hb' heq
        rw [hown'] at heq
        exact absurd (Option.some.inj heq).symm (hfresh b' hb')

/-- `set_data` of bytes of the caller, with what is known of the calls it makes. -/
theorem setData_carried {lx : List Byte} (h : Open env s) (hx : x.Shows s lx)
    (hmax : l.length < 2 ^ 31 - 16) {E : Fault -> Prop}
    (hshort : l.length ≤ 7 -> forall b, b ∈ s.live -> x.owned = some b.ptr ->
      Exec.Ensures (Prog.free env b.ptr s) (fun _ s' => Open.FreePost env s b s') E)
    (halloc : x.Outgrows l.length ->
      Exec.Ensures (Prog.alloc env (l.length + 1) s) (Open.AllocPost env s (l.length + 1)) E)
    (hfree : forall p s₁ b, Prog.alloc env (l.length + 1) s = .ok (p, s₁) -> ¬p.IsNull ->
      x.Outgrows l.length -> Open env s₁ -> b ∈ s.live -> b ∈ s₁.live -> x.owned = some b.ptr ->
      Exec.Ensures (Prog.free env b.ptr s₁) (fun _ s' => Open.FreePost env s₁ b s') E) :
    Exec.Ensures (x.setData env (.bytes l) l.length s)
      (fun rx s' => SetPost env s x l rx.1 rx.2 s') E := by
  have hread : forall x' w, (CharPtr.bytes l).read x' l.length w = .ok (l, w) :=
    fun x' w => CharPtr.read_bytes x' l w
  by_cases hlen : l.length ≤ 7
  · exact setData_short h hx hlen hread (hshort hlen)
  · by_cases hplace : x.flag ≠ 0 ∧ x.strLen ≥ l.length
    · rcases setData_inPlace h hx (by omega) hplace (hread x s.world) with ⟨x', s', hrun, hpost⟩
      exact Exec.Ensures.of_eq hrun hpost
    · have hout : x.Outgrows l.length := ⟨by omega, hplace⟩
      exact setData_long hx (by omega) hmax hplace hread (halloc hout)
        fun p s₁ b hrun hp => hfree p s₁ b hrun hp hout

theorem setData_ensures {lx : List Byte} (h : Open env s) (hx : x.Shows s lx)
    (hmax : l.length < 2 ^ 31 - 16) :
    Exec.Ensures (x.setData env (.bytes l) l.length s)
      (fun rx s' => SetPost env s x l rx.1 rx.2 s') (Expected env) :=
  setData_carried h hx hmax
    (fun _ _ hb _ => (h.free_ensures hb).mono (fun _ _ hq => hq) fun _ he => Or.inr he)
    (fun hout => h.alloc_ensures (by omega) (by omega))
    fun _ _ _ _ _ _ h₁ _ hb _ =>
      (h₁.free_ensures hb).mono (fun _ _ hq => hq) fun _ he => Or.inr he

theorem clear_carried {lx : List Byte} (h : Open env s) (hx : x.Shows s lx) {E : Fault -> Prop}
    (hfree : forall b, b ∈ s.live -> x.owned = some b.ptr ->
      Exec.Ensures (Prog.free env b.ptr s) (fun _ s' => Open.FreePost env s b s') E) :
    Exec.Ensures (x.clear env s) (fun x' s' => SetPost env s x [] 0 x' s') E := by
  have hnone : init.owned = none := owned_short init_flag
  unfold clear
  rcases hx.cases_flag with ⟨hflag, hown⟩ | ⟨b, hb, hflag, hptr, hown, -⟩
  · rw [if_neg (by omega)]
    refine ⟨h, fun b hb _ => ⟨hb, fun _ _ => rfl⟩, Or.inl ⟨rfl, init_shows s, ?_, ?_⟩⟩
    · intro b hb
      rw [hown]
      exact Or.inl ⟨hb, nofun⟩
    · intro b hb hcon
      rw [hnone] at hcon
      cases hcon
  · rw [if_pos (by omega), hptr]
    refine Exec.Ensures.bind (hfree b hb hown) ?_
    rintro _ s₁ hpost
    refine ⟨hpost.isOpen, ?_, Or.inl ⟨rfl, init_shows s₁, ?_, ?_⟩⟩
    · intro b' hb' hne
      have hmem := (hpost.mem_iff h hb).mpr ⟨hb', fun heq => hne (by rw [hown, heq])⟩
      exact ⟨hmem, hpost.kept b' hmem⟩
    · intro b' hb'
      have hmem := (hpost.mem_iff h hb).mp hb'
      refine Or.inl ⟨hmem.1, fun heq => hmem.2 ?_⟩
      rw [hown] at heq
      exact (Option.some.inj heq).symm
    · intro b' _ hcon
      rw [hnone] at hcon
      cases hcon

theorem clear_ensures {lx : List Byte} (h : Open env s) (hx : x.Shows s lx) :
    Exec.Ensures (x.clear env s) (fun x' s' => SetPost env s x [] 0 x' s') (Expected env) :=
  clear_carried h hx fun _ hb _ =>
    (h.free_ensures hb).mono (fun _ _ hq => hq) fun _ he => Or.inr he

end ChkStr

end ChunkMem
