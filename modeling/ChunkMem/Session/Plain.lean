import ChunkMem.Session.Contents

/-!
# Programs that only allocate, free and write

Such a program does not see where the chunks lie.  Its calls are stated once more on
contents, with 16 KB for every chunk, and an uncompressed index whose last chunk has
its full capacity carries them out to the letter.
-/

namespace ChunkMem

open Foundation

structure Stock where
  content : Content
  live : List Live

namespace Call

def Plain : Call -> Prop
  | .alloc _ | .free _ | .write _ _ _ => True
  | _ => False

instance : forall call : Call, Decidable call.Plain
  | .alloc _ | .free _ | .write _ _ _ => isTrue trivial
  | .enlarge | .compress _ | .uncompress | .shrink | .destruct => isFalse id

def onContent (cls : Fin 3 -> Nat) : Call -> Stock -> Except Fault (Result × Stock)
  | .alloc n, st =>
      if n ≤ 0 then .error .assertion
      else if 4088 < n then .ok (.block chkNull, st)
      else
        match Content.alloc cls 2048 (Uncompressed.units n) st.content with
        | .error e => .error e
        | .ok (p, c) => .ok (.block p, ⟨c, if p.IsNull then st.live else ⟨p, n⟩ :: st.live⟩)
  | .free p, st =>
      match Content.free cls ⟨p.chkNo, p.offset / 2, p.size⟩ st.content with
      | .error e => .error e
      | .ok (_, c) => .ok (.done, ⟨c, st.live.eraseP fun l => decide (l.ptr = p)⟩)
  | .write p pos data, st =>
      .ok (.done, ⟨st.content.write ⟨p.chkNo, p.offset / 2, p.size⟩ pos data, st.live⟩)
  | _, st => .ok (.done, st)

end Call

/-- The calls of a program that only allocates, frees and writes. -/
def PlainCall (s : Session) (call : Call) : Prop := call.Plain ∧ call.Allowed s

instance (s : Session) (call : Call) : Decidable (PlainCall s call) :=
  inferInstanceAs (Decidable (_ ∧ _))

def Layout.Full (L : Layout) (c : Content) : Prop := c.num ≠ 0 -> L.cap (c.num - 1) = 16

/-- The session stores the stock in an uncompressed index with a full last chunk. -/
structure Stocks (env : Env) (s : Session) (st : Stock) : Prop where
  live : s.live = st.live
  flag : s.world.index.compressed = false
  valid : exists L, Valid env s st.content L ∧ L.Full st.content

namespace Stocks

variable {env : Env} {s : Session} {st : Stock}

theorem of_valid {c : Content} {L : Layout} (h : Valid env s c L)
    (hflag : s.world.index.compressed = false) (hfull : L.Full c) :
    Stocks env s ⟨c, s.live⟩ := ⟨rfl, hflag, L, h, hfull⟩

theorem grown_full {L L' : Layout} {c c' : Content} (hfull : L.Full c)
    (hgrown : L.Grown c.num L' c'.num) : L'.Full c' := by
  intro hne
  by_cases hlt : c'.num - 1 < c.num
  · have hle := hgrown.le
    have hsame : c'.num - 1 = c.num - 1 := by omega
    rw [hgrown.old _ hlt, hsame]
    exact hfull (by omega)
  · exact hgrown.new _ (by omega) (by omega)

theorem alloc (h : Stocks env s st) (hok : env.AllOk) {n : Int} (hn : n < 2 ^ 31 - 7) :
    Exec.Simulates (Stocks env) ((Call.alloc n).perform env s)
      ((Call.alloc n).onContent env.freeSize st) := by
  rcases st with ⟨c, live⟩
  rcases h.live with rfl
  rcases h.valid with ⟨L, hv, hfull⟩
  have hu := hv.stored.uncompressed h.flag
  unfold Call.perform Call.run Call.onContent
  simp only
  by_cases hpos : 0 < n
  · rw [if_neg (by omega)]
    by_cases hsmall : n ≤ 4088
    · rw [if_neg (by omega)]
      have hlimit : Content.alloc env.freeSize (128 * L.cap (c.num - 1))
          (Uncompressed.units n) c = Content.alloc env.freeSize 2048 (Uncompressed.units n) c := by
        by_cases hz : c.num = 0
        · exact Content.alloc_first hz _ _ _
        · rw [hfull hz]
      have hout := hu.content_alloc_ensures hv.wf hpos hsmall
      have hrun := hu.alloc_carried hv.wf hv.settled hpos hsmall
      rw [hlimit] at hout hrun
      cases hw : ChkIndex.alloc env n s.world with
      | error e =>
          rw [hw] at hrun
          have he := hrun.resolve_left fun he => he.2 hok
          rw [Exec.bind_of_error hw, he]
          exact .error
      | ok pw =>
          rcases pw with ⟨p, w'⟩
          rw [hw] at hrun
          rw [Exec.bind_of_ok hw]
          rcases hrun with ⟨hne, -, hcap, -⟩ | ⟨c', L', hc', h', hset', hgrown⟩ | ⟨-, hfail, -⟩
          · have hlast := hfull hne
            omega
          · rw [hc']
            have hfull' := grown_full hfull hgrown
            rcases hout.of_ok hc' with ⟨hnull, -, rfl⟩ | ⟨b, rfl, hb, hwf', -⟩
            · have hisNull : p.IsNull := by
                rw [hnull]
                rfl
              refine .ok ⟨rfl, h'.flag, L', ?_, hfull'⟩
              simp only [Call.holds_alloc, if_pos hisNull]
              exact ⟨Or.inl h', hset', hv.wf, hv.ptr, hv.pos, hv.size⟩
            · rcases hv.cons hpos hb h' hset' hwf' with ⟨hp, hv'⟩
              refine .ok ⟨rfl, h'.flag, L', ?_, hfull'⟩
              simp only [Call.holds_alloc, if_neg hp]
              exact hv'
          · exact absurd hok hfail
    · have hisNull : chkNull.IsNull := rfl
      rw [if_pos (by omega), Exec.bind_of_ok (Stored.alloc_large (by omega) hn)]
      refine .ok ⟨?_, h.flag, L, ?_, hfull⟩
      · simp only [Call.holds_alloc, if_pos hisNull]
      · simp only [Call.holds_alloc, if_pos hisNull]
        exact hv
  · rw [if_pos (by omega), Exec.bind_of_error (Stored.alloc_nonpos (by omega))]
    exact .error

theorem free (h : Stocks env s st) {l : Live} (hl : l ∈ s.live) :
    Exec.Simulates (Stocks env) ((Call.free l.ptr).perform env s)
      ((Call.free l.ptr).onContent env.freeSize st) := by
  rcases st with ⟨c, live⟩
  rcases h.live with rfl
  rcases h.valid with ⟨L, hv, hfull⟩
  have hu := hv.stored.uncompressed h.flag
  have hmem := Valid.mem_block hl
  have hsim := hu.tracks.free_simulates hv.wf hmem (hv.pos l hl)
  have hout := Content.free_ensures hv.wf hmem (hv.pos l hl)
  rw [← hv.ptr l hl] at hsim
  unfold Call.perform Call.run Call.onContent
  show Exec.Simulates _ _ (match Content.free env.freeSize l.block c with
    | .error e => _
    | .ok (_, c') => _)
  simp only
  cases hsim' : Content.free env.freeSize l.block c with
  | error e =>
      rw [hsim'] at hsim
      cases hw : ChkIndex.free env l.ptr 0 s.world with
      | error e' =>
          rw [hw] at hsim
          cases hsim
          rw [Exec.bind_of_error hw]
          exact .error
      | ok rw' =>
          rw [hw] at hsim
          cases hsim
  | ok rc =>
      rcases rc with ⟨u, c'⟩
      rw [hsim'] at hsim
      rcases hout.of_ok hsim' with ⟨hwf', -, hnum⟩
      cases hw : ChkIndex.free env l.ptr 0 s.world with
      | error e' =>
          rw [hw] at hsim
          cases hsim
      | ok rw' =>
          rcases rw' with ⟨u', w'⟩
          rw [hw] at hsim
          rw [Exec.bind_of_ok hw]
          cases hsim with
          | ok htracks =>
              have h' := htracks.rep
              have hset' : Settled c' L := by
                unfold Settled
                rw [hnum]
                exact hv.settled
              have hfull' : L.Full c' := by
                unfold Layout.Full
                rw [hnum]
                exact hfull
              have hlive : (Call.free l.ptr).holds s.live w' .done =
                  s.live.eraseP fun l' => decide (l'.ptr = l.ptr) := by
                rw [Call.holds_free, if_neg (by rw [h'.flag]; decide)]
              refine .ok ⟨hlive, h'.flag, L, ?_, hfull'⟩
              simp only [hlive]
              exact hv.erase hl h' hset' hwf'

theorem write (h : Stocks env s st) {l : Live} (hl : l ∈ s.live) {pos : Nat} {data : List Byte}
    (hle : pos + data.length ≤ 8 * l.ptr.size) :
    Exec.Simulates (Stocks env) ((Call.write l.ptr pos data).perform env s)
      ((Call.write l.ptr pos data).onContent env.freeSize st) := by
  rcases st with ⟨c, live⟩
  rcases h.live with rfl
  rcases h.valid with ⟨L, hv, hfull⟩
  rcases hv.writeBlock_ok h.flag hl hle with ⟨w', hrun, h'⟩
  have hwf' := Content.write_wf hv.wf (Valid.mem_block hl) hle
  unfold Call.perform Call.run Call.onContent
  simp only
  rw [Exec.bind_of_ok hrun]
  exact .ok ⟨rfl, h'.flag, L, ⟨Or.inl h', hv.settled, hwf', hv.ptr, hv.pos, hv.size⟩, hfull⟩

theorem perform (h : Stocks env s st) (hok : env.AllOk) {call : Call} (hplain : call.Plain)
    (hcall : call.Allowed s) :
    Exec.Simulates (Stocks env) (call.perform env s) (call.onContent env.freeSize st) := by
  cases call with
  | alloc n => exact h.alloc hok hcall
  | free p =>
      rcases hcall with ⟨l, hl, rfl⟩
      exact h.free hl
  | write p pos data =>
      rcases hcall with ⟨-, l, hl, rfl, hle⟩
      exact h.write hl hle
  | enlarge => exact hplain.elim
  | compress percent => exact hplain.elim
  | uncompress => exact hplain.elim
  | shrink => exact hplain.elim
  | destruct => exact hplain.elim

theorem allowed_iff {s' : Session} (h : Stocks env s st) (h' : Stocks env s' st) (call : Call) :
    call.Allowed s <-> call.Allowed s' := by
  have hlive := h.live.trans h'.live.symm
  have hflag := h.flag.trans h'.flag.symm
  cases call <;> simp only [Call.Allowed, hlive, hflag]

/-- Plain calls in two sessions with one stock: the results agree, and so do the
stocks afterwards. -/
theorem performAll_join (hok : env.AllOk) {calls : List Call} :
    forall {s s' : Session} {st : Stock}, Stocks env s st -> Stocks env s' st ->
      Call.AllMeet env PlainCall calls s ->
      Exec.Simulates (fun t t' => exists st', Stocks env t st' ∧ Stocks env t' st')
        (Call.performAll env calls s) (Call.performAll env calls s') := by
  induction calls with
  | nil =>
      intro s s' st h h' _
      exact .ok ⟨st, h, h'⟩
  | cons call rest ih =>
      intro s s' st h h' hmeet
      rcases Call.allMeet_cons.mp hmeet with ⟨⟨hplain, hcall⟩, hrest⟩
      have hone := (h.perform hok hplain hcall).join
        (h'.perform hok hplain ((h.allowed_iff h' call).mp hcall))
      unfold Call.performAll
      cases hrun : call.perform env s with
      | error e =>
          rw [hrun] at hone
          cases hrun' : call.perform env s' with
          | error e' =>
              rw [hrun'] at hone
              cases hone
              exact .error
          | ok rs' =>
              rw [hrun'] at hone
              cases hone
      | ok rs =>
          rw [hrun] at hone hrest
          cases hrun' : call.perform env s' with
          | error e' =>
              rw [hrun'] at hone
              cases hone
          | ok rs' =>
              rw [hrun'] at hone
              cases hone with
              | ok hjoin =>
                  rcases hjoin with ⟨st₁, h₁, h₁'⟩
                  have hsim := ih h₁ h₁' hrest
                  simp only
                  cases hall : Call.performAll env rest _ with
                  | error e =>
                      rw [hall] at hsim
                      cases hall' : Call.performAll env rest _ with
                      | error e' =>
                          rw [hall'] at hsim
                          cases hsim
                          exact .error
                      | ok rs₂ =>
                          rw [hall'] at hsim
                          cases hsim
                  | ok rs₂ =>
                      rw [hall] at hsim
                      cases hall' : Call.performAll env rest _ with
                      | error e' =>
                          rw [hall'] at hsim
                          cases hsim
                      | ok rs₃ =>
                          rw [hall'] at hsim
                          cases hsim with
                          | ok hst => exact .ok hst

end Stocks

end ChunkMem
