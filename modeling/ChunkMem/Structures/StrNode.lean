import ChunkMem.Properties.Dictionary
import ChunkMem.Structures.StrContents

/-!
# Strings that lie in the index

A `StrNode` is a string and a link, in one block.  The functions of the string then
load its eight bytes from memory, and a hash list of such nodes is hashed and searched by
what the strings show.
-/

namespace ChunkMem

open Foundation

/-!
## Characters in memory
-/

/-- `*s`. -/
def loadChar (s : Ptr) : M Byte := do
  let bytes <- loadBytes s 1
  pure (bytes.headD 0)

/-- `strcmp` of the characters at an address with a string of the caller. -/
def strcmpFrom : List Byte -> Ptr -> M Int
  | [], s => do
      let c <- loadChar s
      pure c.toNat
  | k :: rest, s => do
      let c <- loadChar s
      if c ≠ k then pure ((c.toNat : Int) - k.toNat)
      else if c = 0 then pure 0
      else strcmpFrom rest (s.add 1)

/-- The characters at the address are those of the list, and a zero. -/
def CString (w : World) (s : Ptr) (l : List Byte) : Prop :=
  forall i b, (l ++ [0])[i]? = some b -> loadChar (s.add i) w = .ok (b, w)

namespace CString

variable {w : World} {s : Ptr} {b : Byte} {l : List Byte}

theorem nil (h : CString w s []) : loadChar s w = .ok (0, w) := h 0 0 rfl

theorem head (h : CString w s (b :: l)) : loadChar s w = .ok (b, w) := h 0 b rfl

theorem tail (h : CString w s (b :: l)) : CString w (s.add 1) l := by
  intro i c hc
  have hstep := h (i + 1) c hc
  have haddr : s.add (i + 1) = (s.add 1).add i := by
    unfold Ptr.add
    rw [Nat.add_assoc, Nat.add_comm i 1]
  rwa [haddr] at hstep

/-- `strcmp` gives zero exactly for the characters in front of the first zero. -/
theorem strcmp_ok (h : CString w s l) (hnul : NulFree l) (key : List Byte) :
    exists r, strcmpFrom key s w = .ok (r, w) ∧
      (r = 0 <-> l = key.takeWhile fun b => decide (b ≠ 0)) := by
  induction key generalizing s l with
  | nil =>
      cases l with
      | nil => exact ⟨0, (Exec.bind_of_ok h.nil).trans rfl, fun _ => rfl, fun _ => rfl⟩
      | cons b l =>
          refine ⟨b.toNat, (Exec.bind_of_ok h.head).trans rfl, ?_, nofun⟩
          intro hzero
          have hb : b = 0 := BitVec.eq_of_toNat_eq (Int.ofNat_eq_zero.mp hzero)
          exact absurd hb (hnul b List.mem_cons_self)
  | cons k key ih =>
      cases l with
      | nil =>
          have hrun : strcmpFrom (k :: key) s w = _ := Exec.bind_of_ok h.nil
          by_cases hk : k = 0
          · subst hk
            exact ⟨0, hrun, fun _ => rfl, fun _ => rfl⟩
          · rw [if_pos fun heq => hk heq.symm] at hrun
            refine ⟨_, hrun, fun hzero => ?_, fun hnil => ?_⟩
            · refine absurd (BitVec.eq_of_toNat_eq ?_) hk
              change ((0 : Byte).toNat : Int) - k.toNat = 0 at hzero
              omega
            · rw [List.takeWhile_cons_of_pos (by simpa using hk)] at hnil
              cases hnil
      | cons b l =>
          have hrun : strcmpFrom (k :: key) s w = _ := Exec.bind_of_ok h.head
          have hb : b ≠ 0 := hnul b List.mem_cons_self
          by_cases hbk : b = k
          · subst hbk
            rcases ih h.tail fun c hc => hnul c (List.mem_cons_of_mem b hc) with ⟨r, hrest, hiff⟩
            rw [if_neg (fun hne => hne rfl), if_neg hb, hrest] at hrun
            refine ⟨r, hrun, ?_⟩
            rw [List.takeWhile_cons_of_pos (by simpa using hb), List.cons.injEq]
            exact ⟨fun hr => ⟨rfl, hiff.mp hr⟩, fun hl => hiff.mpr hl.2⟩
          · rw [if_pos hbk] at hrun
            refine ⟨_, hrun, fun hzero => ?_, fun hcons => ?_⟩
            · refine absurd (BitVec.eq_of_toNat_eq ?_) hbk
              change (b.toNat : Int) - k.toNat = 0 at hzero
              omega
            · by_cases hk : k = 0
              · rw [List.takeWhile_cons_of_neg (by simpa using hk)] at hcons
                cases hcons
              · rw [List.takeWhile_cons_of_pos (by simpa using hk)] at hcons
                cases hcons
                exact absurd rfl hbk

end CString

/-!
## A string at an address
-/

namespace ChkStr

/-- `c_str`, of the string at an address. -/
def cStrAt (str : Ptr) : M Ptr := do
  let flag <- load str ⟨56, 8⟩
  if flag ≠ 0 then do
    let p <- loadPtr str
    chkPtr2addr p
  else pure str

/-- `length`, of the string at an address. -/
def lengthAt (str : Ptr) : M Nat := do
  let flag <- load str ⟨56, 8⟩
  if flag ≠ 0 then load str ⟨32, 13⟩
  else do
    let data <- loadBytes str 8
    pure (strlen data)

end ChkStr

def World.str (w : World) (b : ChkPtr) : ChkStr := ⟨w.target b⟩

namespace StrNode

/-- `offsetof(StrNode, link)`. -/
def linkOffset : Nat := 8

/-- `sizeof(StrNode)`. -/
def size : Nat := 12

/-- What `chk_addrchk2ptr` gives for the link of the node in a block. -/
def link (b : ChkPtr) : ChkPtr := ⟨b.chkNo, b.offset + setChkOffset linkOffset, 0⟩

/-- One round of the loop of `hash_func`. -/
def hashStep (h : Nat) (c : Byte) : Nat := (5 * h + toSizeT c.toInt) % 2 ^ 64

/-- The loop of `hash_func`. -/
def hashFrom : Nat -> Nat -> Ptr -> M Nat
  | 0, _, _ => Exec.fault .diverge
  | fuel + 1, h, s => do
      let c <- loadChar s
      if c = 0 then pure h else hashFrom fuel (hashStep h c) (s.add 1)

def hashFunc (fuel : Nat) (strNode : Ptr) : M Nat := do
  let s <- ChkStr.cStrAt strNode
  let h <- hashFrom fuel 0 s
  pure (h % 2 ^ 32)

def hashEq (rh : List Byte) (strNode : Ptr) : M Bool := do
  let len <- ChkStr.lengthAt strNode
  if len = rh.length then do
    let s <- ChkStr.cStrAt strNode
    let r <- strcmpFrom rh s
    pure (decide (r = 0))
  else pure false

def hashText (l : List Byte) : Nat := l.foldl hashStep 0 % 2 ^ 32

theorem hashFrom_ok {w : World} {s : Ptr} {l : List Byte} (h : CString w s l)
    (hnul : NulFree l) {fuel : Nat} (hfuel : l.length < fuel) (acc : Nat) :
    hashFrom fuel acc s w = .ok (l.foldl hashStep acc, w) := by
  induction l generalizing s fuel acc with
  | nil =>
      cases fuel with
      | zero => cases hfuel
      | succ fuel => exact (Exec.bind_of_ok h.nil).trans rfl
  | cons b l ih =>
      cases fuel with
      | zero => cases hfuel
      | succ fuel =>
          have hb : b ≠ 0 := hnul b List.mem_cons_self
          unfold hashFrom
          rw [Exec.bind_of_ok h.head, if_neg hb]
          exact ih h.tail (fun c hc => hnul c (List.mem_cons_of_mem b hc))
            (Nat.lt_of_succ_lt_succ hfuel) _

end StrNode

namespace Open

variable {env : Env} {s : Session} {b : Live}

theorem load_block (h : Open env s) (hb : b ∈ s.live) {f : Field} (hf : f.pos + f.width ≤ 64) :
    load (s.world.addrOf b.ptr) f s.world =
      .ok ((s.world.target b.ptr).read f.pos f.width, s.world) := by
  have hpos := h.size_pos hb
  have hin := h.inside hb (o := 4 * b.ptr.offset) (n := f.pos + f.width) (by omega)
  have haddr := addrOf_add s.world b.ptr 0
  change s.world.addrOf b.ptr = _ at haddr
  rw [haddr, Nat.add_zero, load_at hin]
  congr 2
  apply Bits.read_congr
  intro i _
  unfold World.target
  rw [Bits.drop_apply]
  congr 1
  omega

theorem loadPtr_block (h : Open env s) (hb : b ∈ s.live) :
    loadPtr (s.world.addrOf b.ptr) s.world =
      .ok ((s.world.target b.ptr).readPtr 0, s.world) := by
  have hpos := h.size_pos hb
  have hin := h.inside hb (o := 4 * b.ptr.offset) (n := 32) (by omega)
  have haddr := addrOf_add s.world b.ptr 0
  change s.world.addrOf b.ptr = _ at haddr
  rw [haddr, Nat.add_zero, loadPtr_at hin]
  congr 2
  apply Bits.readPtr_congr
  intro i _
  unfold World.target
  rw [Bits.drop_apply]
  congr 1
  omega

theorem lengthAt_ok (h : Open env s) (hb : b ∈ s.live) :
    ChkStr.lengthAt (s.world.addrOf b.ptr) s.world =
      .ok ((s.world.str b.ptr).length, s.world) := by
  have hpos := h.size_pos hb
  have hflag : load (s.world.addrOf b.ptr) ⟨56, 8⟩ s.world =
    .ok ((s.world.str b.ptr).flag, s.world) := h.load_block hb (by decide)
  unfold ChkStr.lengthAt ChkStr.length
  rw [Exec.bind_of_ok hflag]
  by_cases hzero : (s.world.str b.ptr).flag ≠ 0
  · rw [if_pos hzero, if_pos hzero]
    exact h.load_block hb (by decide)
  · rw [if_neg hzero, if_neg hzero]
    exact (Exec.bind_of_ok (h.loadBytes_ok hb (a := 0) (n := 8) (by omega))).trans rfl

theorem cStrAt_agrees (h : Open env s) (hb : b ∈ s.live) {a : Ptr} {w : World}
    (hrun : ChkStr.cStrAt (s.world.addrOf b.ptr) s.world = .ok (a, w)) :
    (s.world.str b.ptr).cStr s.world = .ok (.mem a, w) ∨
      a = s.world.addrOf b.ptr ∧ (s.world.str b.ptr).cStr s.world = .ok (.own 0, w) := by
  have hflag : load (s.world.addrOf b.ptr) ⟨56, 8⟩ s.world =
    .ok ((s.world.str b.ptr).flag, s.world) := h.load_block hb (by decide)
  unfold ChkStr.cStrAt at hrun
  rw [Exec.bind_of_ok hflag] at hrun
  unfold ChkStr.cStr
  by_cases hzero : (s.world.str b.ptr).flag ≠ 0
  · rw [if_pos hzero, Exec.bind_of_ok (h.loadPtr_block hb)] at hrun
    rw [if_pos hzero]
    exact Or.inl ((Exec.bind_of_ok hrun).trans rfl)
  · rw [if_neg hzero] at hrun ⊢
    cases hrun
    exact Or.inr ⟨rfl, rfl⟩

theorem cStrAt_ok (h : Open env s) (hb : b ∈ s.live) {l : List Byte}
    (hshows : (s.world.str b.ptr).Shows s l) :
    exists a, ChkStr.cStrAt (s.world.addrOf b.ptr) s.world = .ok (a, s.world) ∧
      CString s.world a l := by
  have hpos := h.size_pos hb
  have hflag : load (s.world.addrOf b.ptr) ⟨56, 8⟩ s.world =
    .ok ((s.world.str b.ptr).flag, s.world) := h.load_block hb (by decide)
  -- the characters stand in the block of `c`
  have hchars : forall c : Live, c ∈ s.live -> l.length + 1 ≤ 8 * c.ptr.size ->
      (s.world.target c.ptr).bytes 0 (l.length + 1) = l ++ [0] ->
      CString s.world (s.world.addrOf c.ptr) l := by
    intro c hc hfit hbytes i x hx
    have hi : i < l.length + 1 := by
      have hlt := (List.getElem?_eq_some_iff.mp hx).1
      simpa using hlt
    have hload := h.loadBytes_ok hc (a := i) (n := 1) (by omega)
    have hone : (s.world.target c.ptr).bytes i 1 = [x] := by
      rw [← hbytes] at hx
      unfold Bits.bytes at hx ⊢
      rw [List.getElem?_map, List.getElem?_range hi, Option.map_some, Nat.zero_add] at hx
      exact congrArg (fun y => [y]) (Option.some.inj hx)
    unfold loadChar
    rw [Exec.bind_of_ok hload, hone]
    rfl
  unfold ChkStr.cStrAt
  rw [Exec.bind_of_ok hflag]
  cases hshows with
  | short hlen hzero hbytes =>
      rw [if_neg fun hne => hne hzero]
      exact ⟨_, rfl, hchars b hb (by omega) hbytes⟩
  | @long c hlen hone hptr hc hstr hfit hbytes =>
      have hptr' : (s.world.target b.ptr).readPtr 0 = c.ptr := hptr
      rw [if_pos (by omega), Exec.bind_of_ok (h.loadPtr_block hb), hptr']
      exact ⟨_, h.chkPtr2addr_ok (h.chkNo_lt hc), hchars c hc hfit hbytes⟩

end Open

/-!
## The eight bytes
-/

namespace ChkStr

def Same (x y : ChkStr) : Prop := forall j, j < 64 -> y.bits j = x.bits j

namespace Same

variable {x y : ChkStr} {s : Session} {l : List Byte}

theorem flag_eq (h : Same x y) : y.flag = x.flag :=
  Bits.read_congr fun i hi => h _ (by omega)

theorem strLen_eq (h : Same x y) : y.strLen = x.strLen :=
  Bits.read_congr fun i hi => h _ (by omega)

theorem dataPtr_eq (h : Same x y) : y.dataPtr = x.dataPtr :=
  Bits.readPtr_congr fun i hi => h _ (by omega)

theorem owned_eq (h : Same x y) : y.owned = x.owned := by
  unfold owned
  rw [h.flag_eq, h.dataPtr_eq]

theorem shows (h : Same x y) (hx : x.Shows s l) : y.Shows s l := by
  cases hx with
  | short hle hzero hbytes =>
      refine .short hle (h.flag_eq.trans hzero) ?_
      rw [← hbytes]
      exact Bits.bytes_congr fun i hi => h _ (by omega)
  | long hle hone hp hb hstr hfit hbytes =>
      exact .long hle (h.flag_eq.trans hone) (h.dataPtr_eq.trans hp) hb
        (h.strLen_eq.trans hstr) hfit hbytes

end Same

end ChkStr

theorem World.KeepsBlock.same {w w' : World} {p : ChkPtr} (h : World.KeepsBlock w w' p)
    (hpos : 0 < p.size) : ChkStr.Same (w.str p) (w'.str p) :=
  fun j hj => h j (by omega)

/-!
## Nodes of a hash list
-/

/-- The places of `U` are links of nodes that show texts; no node is the block of a string. -/
structure StrNodes (s : Session) (U : ChkPtr -> Prop) (text : ChkPtr -> List Byte) : Prop where
  block : forall p, U p -> exists b, b ∈ s.live ∧ p = StrNode.link b.ptr ∧ 2 ≤ b.ptr.size
  shows : forall b, b ∈ s.live -> U (StrNode.link b.ptr) ->
    (s.world.str b.ptr).Shows s (text (StrNode.link b.ptr))
  nulFree : forall p, U p -> NulFree (text p)
  apart : forall b c, b ∈ s.live -> c ∈ s.live -> U (StrNode.link b.ptr) ->
    U (StrNode.link c.ptr) -> (s.world.str b.ptr).owned ≠ some c.ptr

namespace StrNodes

variable {env : Env} {s s' : Session} {U : ChkPtr -> Prop} {text : ChkPtr -> List Byte}

theorem spot (h : StrNodes s U text) {p : ChkPtr} (hp : U p) : Spot s.live p := by
  rcases h.block p hp with ⟨b, hb, rfl, hsize⟩
  refine ⟨b, hb, rfl, rfl, ?_, ?_⟩
  · exact Nat.le_add_right _ _
  · change b.ptr.offset + 2 < _
    omega

theorem word_block (h : StrNodes s U text) (hopen : Open env s) {q : ChkPtr} (hq : U q)
    {c : Live} (hc : c ∈ s.live) {j : Nat} (hlo : 32 * c.ptr.offset ≤ j)
    (hhi : j < 32 * c.ptr.offset + 64 * c.ptr.size) (hword : q.Word c.ptr.chkNo j) :
    q = StrNode.link c.ptr := by
  rcases h.block q hq with ⟨b, hb, rfl, hsize⟩
  rcases hword with ⟨hno, hwlo, hwhi⟩
  have hoff : (StrNode.link b.ptr).offset = b.ptr.offset + 2 := rfl
  by_cases hne : b.ptr = c.ptr
  · rw [hne]
  · exact absurd ⟨hlo, hhi⟩ (hopen.apart hb hc (fun heq => hne heq.symm) hno
      (j := j) (by omega))

theorem kept (h : StrNodes s U text) (hopen : Open env s)
    (hlive : forall l, l ∈ s.live -> l ∈ s'.live)
    (hkept : World.KeepsBut s.world s'.world s.live U) {b : Live} (hb : b ∈ s.live)
    (hU : U (StrNode.link b.ptr)) :
    (s'.world.str b.ptr).Shows s' (text (StrNode.link b.ptr)) := by
  have hpos := hopen.size_pos hb
  have hshows : (s.world.str b.ptr).Shows s' (text (StrNode.link b.ptr)) := by
    refine (h.shows b hb hU).kept fun c hc hown => ⟨hlive c hc, fun j hj => ?_⟩
    unfold World.target
    rw [Bits.drop_apply, Bits.drop_apply]
    refine hkept c hc _ (by omega) (by omega) fun q hq hword => ?_
    have hlink := h.word_block hopen hq hc (by omega) (by omega) hword
    exact h.apart b c hb hc hU (hlink ▸ hq) hown
  refine ChkStr.Same.shows (fun j hj => ?_) hshows
  change s'.world.target b.ptr j = s.world.target b.ptr j
  unfold World.target
  rw [Bits.drop_apply, Bits.drop_apply]
  refine hkept b hb _ (by omega) (by omega) fun q hq hword => ?_
  have hlink := h.word_block hopen hq hb (by omega) (by omega) hword
  have hlo := hword.2.1
  have hoff : q.offset = b.ptr.offset + 2 := hlink ▸ rfl
  omega

/-- The object a link is a member of begins at the address of its block. -/
theorem container_eq (idx : ChkIndex) (b : ChkPtr) :
    idx.container StrNode.linkOffset (StrNode.link b) =
      (idx.chkAddr b.chkNo).add (chkOffset b.offset) := by
  unfold ChkIndex.container ChkIndex.place StrNode.link StrNode.linkOffset Ptr.add
  simp only [chkOffset, setChkOffset]
  congr 1
  omega

theorem length_lt (h : StrNodes s U text) {p : ChkPtr} (hp : U p) :
    (text p).length < 2 ^ 13 := by
  rcases h.block p hp with ⟨b, hb, rfl, -⟩
  cases h.shows b hb hp with
  | short hle _ _ => omega
  | long _ _ _ _ hstr _ _ =>
      rw [← hstr]
      exact Bits.read_lt _ _ _

theorem hash_reads (h : StrNodes s U text) (hopen : Open env s) {fuel : Nat}
    (hfuel : 2 ^ 13 ≤ fuel) :
    HashState.ReadsAs env s U StrNode.linkOffset (StrNode.hashFunc fuel)
      fun p => StrNode.hashText (text p) := by
  intro s' hopen' hlive hkept p hp
  have hlen := h.length_lt hp
  have hnul := h.nulFree p hp
  rcases h.block p hp with ⟨b, hb, rfl, -⟩
  rcases hopen'.cStrAt_ok (hlive b hb) (h.kept hopen hlive hkept hb hp) with ⟨a, hcStr, hchars⟩
  rw [container_eq]
  unfold StrNode.hashFunc
  rw [← World.addrOf, Exec.bind_of_ok hcStr,
    Exec.bind_of_ok (StrNode.hashFrom_ok hchars hnul (by omega) 0)]
  rfl

theorem eq_reads (h : StrNodes s U text) (hopen : Open env s) (key : List Byte) :
    HashState.ReadsAs env s U StrNode.linkOffset (StrNode.hashEq key)
      fun p => decide (text p = key) := by
  intro s' hopen' hlive hkept p hp
  have hnul := h.nulFree p hp
  rcases h.block p hp with ⟨b, hb, rfl, -⟩
  have hshows := h.kept hopen hlive hkept hb hp
  have hlength := hopen'.lengthAt_ok (hlive b hb)
  rw [hshows.length_eq hnul] at hlength
  rw [container_eq, ← World.addrOf]
  unfold StrNode.hashEq
  rw [Exec.bind_of_ok hlength]
  by_cases hlen : (text (StrNode.link b.ptr)).length = key.length
  · rcases hopen'.cStrAt_ok (hlive b hb) hshows with ⟨a, hcStr, hchars⟩
    rcases hchars.strcmp_ok hnul key with ⟨r, hcmp, hiff⟩
    rw [if_pos hlen, Exec.bind_of_ok hcStr, Exec.bind_of_ok hcmp]
    -- a key with a zero in it is longer than what is compared
    have hsame : r = 0 <-> text (StrNode.link b.ptr) = key := by
      rw [hiff]
      constructor
      · intro htake
        have hfull : (key.takeWhile fun b => decide (b ≠ 0)).length = key.length := by
          rw [← htake, hlen]
        rw [htake]
        exact (List.takeWhile_sublist _).eq_of_length hfull
      · intro heq
        have hall : forall c, c ∈ key -> decide (c ≠ 0) = true :=
          fun c hc => decide_eq_true (hnul c (heq ▸ hc))
        have htake := @List.takeWhile_append_of_pos _ _ key [] hall
        rw [List.append_nil, List.takeWhile_nil, List.append_nil] at htake
        exact heq.trans htake.symm
    rw [Exec.pure_apply, decide_eq_decide.mpr hsame]
  · have hdiffer : decide (text (StrNode.link b.ptr) = key) = false :=
      decide_eq_false fun heq => hlen (congrArg List.length heq)
    beta_reduce
    rw [if_neg hlen, Exec.pure_apply, hdiffer]

end StrNodes

end ChunkMem
