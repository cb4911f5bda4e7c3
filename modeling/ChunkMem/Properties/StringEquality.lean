import ChunkMem.Properties.Strings

/-!
# Equality and hash of strings

For contents without zero bytes `equall`, `equall_str` and `hash` agree
with the contents.  A zero byte ends a comparison but not a hash.
-/

namespace ChunkMem

open Foundation

/-- The same bytes, up to the case of letters if it is ignored. -/
def SameText (ignoreCase : Bool) (l l' : List Byte) : Prop :=
  if ignoreCase then l.map tolower = l'.map tolower else l = l'

instance (ignoreCase : Bool) (l l' : List Byte) : Decidable (SameText ignoreCase l l') :=
  match ignoreCase with
  | false => inferInstanceAs (Decidable (l = l'))
  | true => inferInstanceAs (Decidable (l.map tolower = l'.map tolower))

theorem SameText.length_eq {ignoreCase : Bool} {l l' : List Byte}
    (h : SameText ignoreCase l l') : l.length = l'.length := by
  cases ignoreCase with
  | false =>
      have heq : l = l' := h
      rw [heq]
  | true =>
      have hmap : l.map tolower = l'.map tolower := h
      have hlen := congrArg List.length hmap
      rw [List.length_map, List.length_map] at hlen
      exact hlen

/-!
## Comparison
-/

/-- A comparison of buffers of one length without zero bytes reads all of them. -/
theorem strncmpWith_eq_zero (fold : Byte -> Nat) {l l' : List Byte}
    (hlen : l.length = l'.length) (hnul : NulFree l) :
    strncmpWith fold l l' = 0 <-> l.map fold = l'.map fold := by
  induction l generalizing l' with
  | nil =>
      cases l' with
      | nil => exact ⟨fun _ => rfl, fun _ => rfl⟩
      | cons b bs => cases hlen
  | cons a as ih =>
      cases l' with
      | nil => cases hlen
      | cons b bs =>
          have hrest : strncmpWith fold as bs = 0 <-> as.map fold = bs.map fold :=
            ih (by simpa using hlen) fun x hx => hnul x (List.mem_cons_of_mem a hx)
          have ha : a ≠ 0 := hnul a List.mem_cons_self
          unfold strncmpWith
          by_cases hab : fold a = fold b
          · rw [if_neg (by simpa using hab), if_neg ha, hrest, List.map_cons, List.map_cons, hab]
            simp
          · rw [if_pos hab, List.map_cons, List.map_cons]
            constructor
            · intro hz
              omega
            · intro heq
              exact absurd (List.cons.inj heq).1 hab

theorem strncmp_eq_zero {l l' : List Byte} (hlen : l.length = l'.length) (hnul : NulFree l) :
    strncmp l l' = 0 <-> SameText false l l' := by
  unfold strncmp
  rw [strncmpWith_eq_zero _ hlen hnul]
  exact (List.map_injective_iff.mpr fun _ _ h => BitVec.eq_of_toNat_eq h).eq_iff

theorem strncasecmp_eq_zero {l l' : List Byte} (hlen : l.length = l'.length)
    (hnul : NulFree l) : strncasecmp l l' = 0 <-> SameText true l l' :=
  strncmpWith_eq_zero tolower hlen hnul

/-!
## Hash
-/

theorem toupper_tolower : forall b : Byte, toupper (BitVec.ofNat 8 (tolower b)) = toupper b := by
  decide +kernel

theorem toupper_congr {a b : Byte} (h : tolower a = tolower b) : toupper a = toupper b := by
  rw [← toupper_tolower a, ← toupper_tolower b, h]

theorem hashStr_eq (l : List Byte) (ignoreCase : Bool) :
    ChkStr.hashStr l ignoreCase =
      (l.map fun b => if ignoreCase then toupper b else b.toInt).foldl
        (fun h n => (5 * h + toSizeT n) % 2 ^ 64) 0 := by
  unfold ChkStr.hashStr
  rw [List.foldl_map]

theorem hashStr_congr {ignoreCase : Bool} {l l' : List Byte} (h : SameText ignoreCase l l') :
    ChkStr.hashStr l ignoreCase = ChkStr.hashStr l' ignoreCase := by
  cases ignoreCase with
  | false =>
      have heq : l = l' := h
      rw [heq]
  | true =>
      have hmap : l.map toupper = l'.map toupper := by
        have hlen := h.length_eq
        apply List.ext_getElem (by simpa using hlen)
        intro i h1 h2
        rw [List.getElem_map, List.getElem_map]
        apply toupper_congr
        rw [List.length_map] at h1 h2
        have hmaps : l.map tolower = l'.map tolower := h
        have hi := congrArg (fun m => m[i]?) hmaps
        simpa [h1, h2] using hi
      rw [hashStr_eq, hashStr_eq]
      simp only [if_true]
      exact congrArg _ hmap

/-!
## Strings
-/

namespace ChkStr

variable {env : Env} {s : Session} {x y : ChkStr} {l l' : List Byte}

theorem equall_ok (h : Open env s) (hx : x.Shows s l) (hy : y.Shows s l') (hl : NulFree l)
    (hl' : NulFree l') (ignoreCase : Bool) :
    x.equall y ignoreCase s.world = .ok (decide (SameText ignoreCase l l'), s.world) := by
  unfold equall
  rw [hx.length_eq hl, hy.length_eq hl']
  by_cases hlen : l.length = l'.length
  · have hbytes := hx.cBytes_length h hl
    have hbytes' := hy.cBytes_length h hl'
    rw [hx.length_eq hl] at hbytes
    rw [hy.length_eq hl', ← hlen] at hbytes'
    rw [if_neg (not_not_intro hlen), Exec.bind_of_ok hbytes, Exec.bind_of_ok hbytes']
    cases ignoreCase with
    | false =>
        rw [if_pos rfl, decide_eq_decide.mpr (strncmp_eq_zero hlen hl)]
        rfl
    | true =>
        rw [if_neg (by decide), decide_eq_decide.mpr (strncasecmp_eq_zero hlen hl)]
        rfl
  · rw [if_pos hlen, decide_eq_false fun heq : SameText ignoreCase l l' => hlen heq.length_eq]
    rfl

theorem equallStr_ok (h : Open env s) (hx : x.Shows s l) (hl : NulFree l) (ignoreCase : Bool) :
    x.equallStr l' l'.length ignoreCase s.world =
      .ok (decide (SameText ignoreCase l l'), s.world) := by
  unfold equallStr
  rw [hx.length_eq hl]
  by_cases hlen : l.length = l'.length
  · have hbytes := hx.cBytes_length h hl
    rw [hx.length_eq hl] at hbytes
    rw [if_neg (not_not_intro hlen), Exec.bind_of_ok hbytes]
    cases ignoreCase with
    | false =>
        rw [if_pos rfl, decide_eq_decide.mpr (strncmp_eq_zero hlen hl)]
        rfl
    | true =>
        rw [if_neg (by decide), decide_eq_decide.mpr (strncasecmp_eq_zero hlen hl)]
        rfl
  · rw [if_pos hlen, decide_eq_false fun heq : SameText ignoreCase l l' => hlen heq.length_eq]
    rfl

theorem hash_ok (h : Open env s) (hx : x.Shows s l) (hl : NulFree l) (ignoreCase : Bool) :
    x.hash ignoreCase s.world = .ok (hashStr l ignoreCase, s.world) := by
  unfold hash
  rw [Exec.bind_of_ok (hx.cBytes_length h hl)]
  rfl

end ChkStr

/-- In every session with an uncompressed index, for any two strings of it and the
contents that were stored in them: `equall` and `equall_str` answer whether
the contents are the same, and equal strings have equal hashes. -/
theorem Reach.string_equality {env : Env} {s₀ : Session} (h : Reach env CarefulCall s₀)
    (hflag : s₀.world.index.compressed = false) {st : StrState} {t : Nat -> List Byte}
    (hst : StrReach env s₀ st t) (i j : Nat) (ignoreCase : Bool) :
    let w := st.session.world
    (st.strs i).equall (st.strs j) ignoreCase w =
        .ok (decide (SameText ignoreCase (t i) (t j)), w) ∧
      (st.strs i).equallStr (t j) (t j).length ignoreCase w =
        .ok (decide (SameText ignoreCase (t i) (t j)), w) ∧
      (SameText ignoreCase (t i) (t j) -> exists n, (st.strs i).hash ignoreCase w = .ok (n, w) ∧
        (st.strs j).hash ignoreCase w = .ok (n, w)) := by
  have hinv := hst.inv (h.isOpen hflag)
  refine ⟨ChkStr.equall_ok hinv.isOpen (hinv.shows i) (hinv.shows j) (hinv.nulFree i)
    (hinv.nulFree j) ignoreCase, ChkStr.equallStr_ok hinv.isOpen (hinv.shows i)
    (hinv.nulFree i) ignoreCase, fun hsame => ?_⟩
  have hi := ChkStr.hash_ok hinv.isOpen (hinv.shows i) (hinv.nulFree i) ignoreCase
  have hj := ChkStr.hash_ok hinv.isOpen (hinv.shows j) (hinv.nulFree j) ignoreCase
  rw [← hashStr_congr hsame] at hj
  exact ⟨_, hi, hj⟩

def twelveCapitals : List Byte := [84, 87, 69, 76, 86, 69, 32, 66, 89, 84, 69, 83]

def threeTexts : List StrCall :=
  [.setData 0 twelveBytes, .setData 1 twelveCapitals, .setData 2 [116, 119, 101]]

/-- With the case ignored the two long texts are equal and have one hash, and neither is the
short one. -/
theorem Reach.string_equality_sample : exists st t, StrReach Env.plain packed st t ∧
    (t 0, t 1, t 2) = (twelveBytes, twelveCapitals, [116, 119, 101]) ∧
    (st.strs 0).equall (st.strs 1) true st.session.world = .ok (true, st.session.world) ∧
    (st.strs 0).equall (st.strs 1) false st.session.world = .ok (false, st.session.world) ∧
    (st.strs 0).equallStr (t 2) (t 2).length true st.session.world =
      .ok (false, st.session.world) ∧
    exists n, (st.strs 0).hash true st.session.world = .ok (n, st.session.world) ∧
      (st.strs 1).hash true st.session.world = .ok (n, st.session.world) := by
  have hopen : packed.world.index.compressed = false := by decide +kernel
  have hallowed : forall call, call ∈ threeTexts -> call.Allowed := by decide
  rcases StrReach.of_calls (f := fun x => (x.2 0, x.2 1, x.2 2)) hallowed
    (show (StrCall.performAll Env.plain threeTexts ⟨packed, fun _ => ChkStr.init⟩
      fun _ => []).toOption.map _ = some (twelveBytes, twelveCapitals, [116, 119, 101])
      by decide +kernel) with ⟨st, t, hst, ht⟩
  have htexts := ht
  simp only [Prod.mk.injEq] at htexts
  rcases htexts with ⟨h0, h1, h2⟩
  have hcase : SameText true (t 0) (t 1) ∧ ¬SameText false (t 0) (t 1) ∧
      ¬SameText true (t 0) (t 2) := by
    rw [h0, h1, h2]
    decide
  rcases Reach.string_equality packed_reach hopen hst 0 1 true with ⟨hequal, -, hhash⟩
  rcases Reach.string_equality packed_reach hopen hst 0 1 false with ⟨hexact, -, -⟩
  rcases Reach.string_equality packed_reach hopen hst 0 2 true with ⟨-, hshort, -⟩
  rw [decide_eq_true hcase.1] at hequal
  rw [decide_eq_false hcase.2.1] at hexact
  rw [decide_eq_false hcase.2.2] at hshort
  exact ⟨st, t, hst, ht, hequal, hexact, hshort, hhash hcase.1⟩

/-- Two buffers are stored, and the strings are compared and hashed. -/
def storeAndCompare (a b : List Byte) : Prog (Int × Int × Bool × Bool) := do
  let x <- ChkStr.init.setData Env.plain (.bytes a) a.length
  let y <- ChkStr.init.setData Env.plain (.bytes b) b.length
  let same <- Prog.mem (x.2.equall y.2 false)
  let m <- Prog.mem (x.2.hash false)
  let n <- Prog.mem (y.2.hash false)
  pure (x.1, y.1, same, decide (m = n))

/-- With a zero byte two buffers of different lengths are equal, and two equal strings
have different hashes. -/
theorem zero_ends_comparison :
    (storeAndCompare [97, 0] [97, 0, 98] packed).toOption.map Prod.fst =
      some (0, 0, true, true) ∧
    (storeAndCompare [97, 0, 98, 98, 98, 98, 98, 98] [97, 0, 98, 98, 98, 98, 98, 99]
        packed).toOption.map Prod.fst = some (0, 0, true, false) :=
  ⟨by decide +kernel, by decide +kernel⟩

end ChunkMem
