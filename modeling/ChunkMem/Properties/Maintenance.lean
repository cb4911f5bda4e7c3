import ChunkMem.Session.Plain

/-!
# Maintenance is transparent

Where the last chunk has its full capacity, `compress` and `enlarge` may be
slipped into a run of allocations, releases and stores, and so may `shrink` and
`enlarge` where every chunk has an allocation of its own: the run goes on as it
would have.
-/

namespace ChunkMem

open Foundation

def World.LastWhole (w : World) : Prop :=
  w.index.chkNum ≠ 0 -> w.capacityOf (w.index.chkNum - 1) = 16

instance (w : World) : Decidable w.LastWhole := inferInstanceAs (Decidable (_ -> _))

/-- Maintenance that succeeded leads from the one session to the other. -/
def Maintained (env : Env) (s s' : Session) : Prop :=
  (exists percent, Call.performAll env [.compress percent, .enlarge] s =
    .ok ([.code 0, .code 0], s')) ∨
  (s.world.AllOwn ∧ Call.performAll env [.shrink, .enlarge] s = .ok ([.done, .code 0], s'))

/-- Two sessions that hold the same blocks with the same bytes. -/
structure Session.Alike (s s' : Session) : Prop where
  live : s'.live = s.live
  same : s.world.SameContent s'.world

/-!
## What maintenance leaves
-/

/-- `enlarge` that succeeded leaves the content uncompressed with a full last
chunk. -/
theorem Stored.enlarge_full {env : Env} {w w' : World} {c : Content} {L : Layout}
    {bs : List Block} (h : Stored env w c L) (ht : Content.Tiling env.freeSize bs c)
    (hset : Settled c L) (hrun : ChkIndex.enlarge env w = .ok (0, w')) :
    exists L', Uncompressed env w' c L' ∧ Settled c L' ∧ L'.Full c := by
  have huncompressed : forall {w₁ L₁}, Uncompressed env w₁ c L₁ -> Settled c L₁ ->
      ChkIndex.enlarge env w₁ = .ok (0, w') ->
      exists L', Uncompressed env w' c L' ∧ Settled c L' ∧ L'.Full c := by
    intro w₁ L₁ h₁ hset₁ hrun₁
    rcases (h₁.enlarge_ensures ht hset₁).of_ok hrun₁ with ⟨L', h', hset', -, hcode⟩
    rcases hcode with ⟨-, hlast⟩ | ⟨hcon, -⟩
    · exact ⟨L', h', hset', fun hz => (hlast hz).2⟩
    · exact absurd hcon (by decide)
  rcases h with h | h
  · exact huncompressed h hset hrun
  · rcases h.reopen_cases ht with ⟨w₁, hopen⟩ | ⟨r, w₁, hr, -, -, hopen⟩ | ⟨e, -, hopen⟩
    · rw [hopen.enlarge] at hrun
      exact huncompressed hopen.rep (L.restored_settled c env h.pos) hrun
    · unfold ChkIndex.enlarge at hrun
      rw [Exec.bind_of_ok hopen, if_pos hr] at hrun
      cases hrun
    · unfold ChkIndex.enlarge at hrun
      rw [Exec.bind_of_error hopen] at hrun
      cases hrun

theorem Call.performAll_two {env : Env} {call call' : Call} {s s' : Session} {r r' : Result}
    (h : Call.performAll env [call, call'] s = .ok ([r, r'], s')) :
    exists s₁, call.perform env s = .ok (r, s₁) ∧ call'.perform env s₁ = .ok (r', s') := by
  unfold Call.performAll at h
  cases hone : call.perform env s with
  | error e =>
      rw [hone] at h
      cases h
  | ok rs =>
      rcases rs with ⟨r₁, s₁⟩
      rw [hone] at h
      simp only [Call.performAll] at h
      cases htwo : call'.perform env s₁ with
      | error e =>
          rw [htwo] at h
          cases h
      | ok rs' =>
          rw [htwo] at h
          cases h
          exact ⟨s₁, rfl, htwo⟩

namespace Valid

variable {env : Env} {s s' : Session} {c : Content} {L : Layout}

theorem stocks_enlarged (h : Valid env s c L)
    (hrun : Call.enlarge.perform env s = .ok (.code 0, s')) : Stocks env s' ⟨c, s.live⟩ := by
  rcases Call.perform_run hrun with ⟨w', hw, rfl⟩
  rcases Exec.ok_of_bind hw with ⟨r, w₁, hr, hrest⟩
  cases hrest
  rcases h.stored.enlarge_full h.wf.tiling h.settled hr with ⟨L', h', hset', hfull⟩
  exact ⟨rfl, h'.flag, L', ⟨Or.inl h', hset', h.wf, h.ptr, h.pos, h.size⟩, hfull⟩

theorem restored (h : Valid env s c L) {w' : World} {L' : Layout} (h' : Stored env w' c L')
    (hset' : Settled c L') : Valid env ⟨w', s.live⟩ c L' :=
  ⟨h', hset', h.wf, h.ptr, h.pos, h.size⟩

/-- Maintenance leaves the content, the blocks and a full last chunk. -/
theorem maintained (h : Valid env s c L) (hok : env.AllOk)
    (hflag : s.world.index.compressed = false) (hm : Maintained env s s') :
    Stocks env s' ⟨c, s.live⟩ := by
  have hu := h.stored.uncompressed hflag
  have ht := h.wf.tiling
  rcases hm with ⟨percent, hrun⟩ | ⟨hown, hrun⟩
  · rcases Call.performAll_two hrun with ⟨s₁, hone, htwo⟩
    rcases Call.perform_run hone with ⟨w₁, hw, rfl⟩
    rcases Exec.ok_of_bind hw with ⟨r, w₂, hr, hrest⟩
    cases hrest
    rcases (hu.compress_ensures ht h.settled percent).of_ok hr with ⟨-, h₁⟩ | ⟨h₁, -⟩
    · exact (h.restored (Or.inr h₁) h.settled).stocks_enlarged htwo
    · exact (h.restored (Or.inl h₁) h.settled).stocks_enlarged htwo
  · rcases Call.performAll_two hrun with ⟨s₁, hone, htwo⟩
    rcases Call.perform_run hone with ⟨w₁, hw, rfl⟩
    rcases Exec.ok_of_bind hw with ⟨r, w₂, hr, hrest⟩
    cases hrest
    by_cases hz : c.num = 0
    · rw [Stored.shrink_none (hu.num.trans hz)] at hr
      cases hr
      exact h.stocks_enlarged htwo
    · have hlast := hown (c.num - 1) (by rw [hu.num]; omega)
      rw [hu.allocCapacityOf_eq (by omega)] at hlast
      have hk : c.num - 1 + 1 = c.num := by omega
      rcases (hu.shrink_ensures ht h.settled hk hlast).of_ok hr with h₁ | ⟨hfail, -⟩
      · exact (h.restored (Or.inl h₁) (Layout.resize_settled h.settled hk _)).stocks_enlarged htwo
      · exact absurd hok hfail

end Valid

/-!
## Two runs
-/

theorem Stocks.alike {env : Env} {s s' : Session} {st : Stock} (h : Stocks env s st)
    (h' : Stocks env s' st) : s.Alike s' := by
  rcases h.valid with ⟨L, hv, -⟩
  rcases h'.valid with ⟨L', hv', -⟩
  exact ⟨h'.live.trans h.live.symm, (hv.stored.uncompressed h.flag).sameContent hv.wf.tiling
    (hv'.stored.uncompressed h'.flag)⟩

/-- In every session with an uncompressed index whose last chunk has its full
capacity, and whatever plain calls follow: after maintenance they have the results
they would have had without it, and they end in sessions that hold the same blocks
with the same bytes. -/
theorem Reach.maintenance_transparent {env : Env} {s s' : Session} (h : Reach env CarefulCall s)
    (hok : env.AllOk) (hflag : s.world.index.compressed = false)
    (hwhole : s.world.LastWhole) (hm : Maintained env s s') {calls : List Call}
    (hcalls : Call.AllMeet env PlainCall calls s) :
    Exec.Simulates Session.Alike (Call.performAll env calls s)
      (Call.performAll env calls s') := by
  rcases h.careful with ⟨c, L, hv⟩
  have hu := hv.stored.uncompressed hflag
  have hfull : L.Full c := by
    intro hz
    have hcap := hwhole (by rw [hu.num]; exact hz)
    rw [hu.num, hu.capacityOf_eq (by omega)] at hcap
    exact hcap
  have hs : Stocks env s ⟨c, s.live⟩ := .of_valid hv hflag hfull
  have hs' : Stocks env s' ⟨c, s.live⟩ := hv.maintained hok hflag hm
  exact (Stocks.performAll_join hok hs hs' hcalls).mono fun t t' ⟨st, ht, ht'⟩ => ht.alike ht'

def used : Session :=
  Call.after Env.plain [.alloc 24, .alloc 40, .free ⟨0, 10, 3⟩] ⟨World.boot, []⟩

theorem used_reach : Reach Env.plain CarefulCall used := by
  unfold used
  exact .after (.start World.boot_fresh) (by decide +kernel)

/-- The session after `compress` and `enlarge`. -/
def usedMaintained : Session := Call.after Env.plain [.compress 200, .enlarge] used

theorem used_maintained : Maintained Env.plain used usedMaintained := by
  refine Or.inl ⟨200, ?_⟩
  have hcodes : (Call.performAll Env.plain [.compress 200, .enlarge] used).toOption.map
      Prod.fst = some [.code 0, .code 0] := by decide +kernel
  unfold usedMaintained Call.after
  cases hrun : Call.performAll Env.plain [.compress 200, .enlarge] used with
  | error e =>
      rw [hrun] at hcodes
      cases hcodes
  | ok rs =>
      rcases rs with ⟨codes, t⟩
      rw [hrun] at hcodes
      have hr : codes = [.code 0, .code 0] := Option.some.inj hcodes
      rw [hr]

/-- An allocation after the maintenance. -/
theorem Reach.maintenance_transparent_sample :
    Exec.Simulates Session.Alike (Call.performAll Env.plain [.alloc 24, .alloc 4088] used)
      (Call.performAll Env.plain [.alloc 24, .alloc 4088] usedMaintained) :=
  Reach.maintenance_transparent used_reach Env.plain_allOk (by decide +kernel)
    (by decide +kernel) used_maintained
    (by decide +kernel)

end ChunkMem
