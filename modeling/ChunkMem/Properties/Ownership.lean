import ChunkMem.Session.Runs

/-!
# Only owned memory is released

The allocators refuse a pointer that is not the start of a block they gave out
and did not take back yet.  A run stays clear of such a refusal as long as each
`shrink` finds a last chunk that owns its allocation, or nothing to give
back; elsewhere `shrink` passes a pointer into the middle of the shared
block.
-/

namespace ChunkMem

open Foundation

def ReleasesOwned (run : Except Fault (List Result × Session)) : Prop :=
  run ≠ .error .badRelease

namespace Valid

variable {env : Env} {s : Session} {c : Content} {L : Layout}

theorem shrink_refused (h : Valid env s c L) (hnot : ¬ShrinkSafe env s.world) :
    Call.shrink.perform env s = .error .badRelease := by
  have hrun : Call.shrink.run env s.world = .error .badRelease := by
    unfold Call.run
    exact Exec.bind_of_error (h.stored.shrink_bad hnot)
  unfold Call.perform
  rw [hrun]

theorem perform_releases_iff (h : Valid env s c L) {call : Call} (hcall : call.Allowed s) :
    call.perform env s ≠ .error .badRelease <-> SafeCall env s call := by
  constructor
  · intro hne
    refine ⟨hcall, ?_⟩
    rintro rfl
    by_contra hnot
    exact hne (h.shrink_refused hnot)
  · intro hsafe hrun
    have hensures := h.perform hsafe.1 hsafe.2
    rw [hrun] at hensures
    exact CallFault.ne_badRelease hensures rfl

/-- From a valid session on, a run releases only what is owned exactly when each
`shrink` in it is safe. -/
theorem performAll_releases_iff {calls : List Call} :
    forall {s : Session} {c : Content} {L : Layout}, Valid env s c L ->
      Call.AllMeet env (fun s call => call.Allowed s) calls s ->
      (ReleasesOwned (Call.performAll env calls s) <->
        Call.AllMeet env (SafeCall env) calls s) := by
  induction calls with
  | nil =>
      intro s c L _ _
      exact ⟨fun _ => trivial, fun _ => by intro heq; cases heq⟩
  | cons call rest ih =>
      intro s c L h hmeet
      unfold Call.AllMeet at hmeet ⊢
      have hone := h.perform_releases_iff hmeet.1
      unfold ReleasesOwned Call.performAll
      cases hrun : call.perform env s with
      | error e =>
          rw [hrun] at hone
          simp only [ne_eq, Except.error.injEq, and_true] at hone ⊢
          exact hone
      | ok rs' =>
          rw [hrun] at hmeet hone
          have hsafe : SafeCall env s call := hone.mp fun heq => by cases heq
          rcases (h.perform hsafe.1 hsafe.2).of_ok hrun with ⟨c', L', h', -⟩
          have hrest := ih h' hmeet.2
          unfold ReleasesOwned at hrest
          simp only [hsafe, true_and]
          rw [← hrest]
          cases Call.performAll env rest rs'.2 with
          | error e => simp only [ne_eq, Except.error.injEq]
          | ok rt => simp only [ne_eq, reduceCtorEq]

end Valid

/-- Whatever a program does with a fresh index: its run releases only what is
owned exactly when each `shrink` in it is safe at its point. -/
theorem World.Fresh.releases_owned_iff {env : Env} {w : World} (hw : w.Fresh)
    {calls : List Call} (hcalls : Call.AllMeet env (fun s call => call.Allowed s) calls ⟨w, []⟩) :
    ReleasesOwned (Call.performAll env calls ⟨w, []⟩) <->
      Call.AllMeet env (SafeCall env) calls ⟨w, []⟩ :=
  (hw.valid env).performAll_releases_iff hcalls

section Sample

instance (env : Env) (w : World) : Decidable (ShrinkSafe env w) :=
  inferInstanceAs (Decidable (_ ∨ _ ∨ _))

instance (env : Env) (s : Session) (call : Call) : Decidable (SafeCall env s call) :=
  inferInstanceAs (Decidable (_ ∧ (call = .shrink -> ShrinkSafe env s.world)))

/-- Two chunks share one block after `uncompress`; when the block of the last
one is freed, `shrink` hands a pointer into the shared block to
`_allocate` and `_dellocate`. -/
def interiorRelease : List Call := [.alloc 4088, .alloc 4088, .alloc 4088, .alloc 4088,
  .compress 200, .uncompress, .free ⟨1, 4, 511⟩, .shrink]

theorem interiorRelease_refused :
    Call.AllMeet Env.plain (fun s call => call.Allowed s) interiorRelease ⟨World.boot, []⟩ ∧
    ¬ReleasesOwned (Call.performAll Env.plain interiorRelease ⟨World.boot, []⟩) := by
  have hrun : Call.AllMeet Env.plain (fun s call => call.Allowed s) interiorRelease
      ⟨World.boot, []⟩ ∧
      ¬Call.AllMeet Env.plain (SafeCall Env.plain) interiorRelease ⟨World.boot, []⟩ := by
    decide +kernel
  rw [(World.boot_fresh.valid Env.plain).performAll_releases_iff hrun.1]
  exact hrun

/-- With an allocation of its own the last chunk shrinks. -/
theorem World.Fresh.releases_owned_iff_sample :
    ReleasesOwned (Call.performAll Env.plain [.alloc 24, .shrink, .enlarge, .destruct]
      ⟨World.boot, []⟩) :=
  (World.Fresh.releases_owned_iff World.boot_fresh (by decide +kernel)).mpr
    (by decide +kernel)

end Sample

end ChunkMem
