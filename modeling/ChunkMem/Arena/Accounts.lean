import ChunkMem.Foundation.Sums
import ChunkMem.Arena.Tiling

/-!
# Counters

The counters of the chunk headers and of the memory manager agree with the
blocks that are out.  Together with the tiling this is the invariant of the
contents, and every operation on contents keeps it.
-/

namespace ChunkMem

open Foundation

namespace Content

structure Accounts (cls : Fin 3 -> Nat) (bs : List Block) (c : Content) : Prop where
  used_eq : forall k, k < c.num ->
    (c.body k).used = reserved k + Extent.lenIn bs k
  totalUsed_eq : c.totalUsed = sumTo c.num fun k => (c.body k).used
  virgin_eq : (sumTo c.num fun k => (c.body k).virgin) = c.totalUsed + c.totalFree
  free_le : Extent.total (c.freeBlocks cls) ≤ c.totalFree

/-- The invariant of contents with the blocks `bs` handed out. -/
structure WF (cls : Fin 3 -> Nat) (bs : List Block) (c : Content) : Prop where
  tiling : Tiling cls bs c
  accounts : Accounts cls bs c

namespace WF

variable {cls : Fin 3 -> Nat} {bs : List Block} {c : Content}

theorem used_le (h : WF cls bs c) {k : Nat} (hk : k < c.num) :
    (c.body k).used ≤ (c.body k).virgin := by
  have hr := h.tiling.reserved_le k hk
  have hlen : Extent.lenIn bs k ≤ (c.body k).virgin - reserved k := by
    apply Extent.lenIn_le hr
    · intro u
      have hone := h.tiling.cover_le_one k u
      omega
    · intro u hu
      have hb := h.tiling.bound (k := k) (u := u) (by omega)
      exact ⟨hb.2.1, hb.2.2⟩
  have hused := h.accounts.used_eq k hk
  omega

theorem totals_le (h : WF cls bs c) : c.totalUsed + c.totalFree ≤ 2047 * 2048 := by
  have hsum := sumTo_le (n := c.num) (b := 2048) (f := fun k => (c.body k).virgin)
    h.tiling.virgin_le
  have hnum := h.tiling.num_le
  have hv := h.accounts.virgin_eq
  have hmul : c.num * 2048 ≤ 2047 * 2048 := Nat.mul_le_mul_right _ hnum
  omega

end WF

def KeepsBits (bs : List Block) (c c' : Content) : Prop :=
  forall k u, 0 < Extent.cover bs k u -> forall j, 64 * u ≤ j -> j < 64 * u + 64 ->
    (c'.body k).bits j = (c.body k).bits j

theorem KeepsBits.refl (bs : List Block) (c : Content) : KeepsBits bs c c :=
  fun _ _ _ _ _ _ => rfl

theorem KeepsBits.trans {bs : List Block} {c c' c'' : Content}
    (h : KeepsBits bs c c') (h' : KeepsBits bs c' c'') : KeepsBits bs c c'' :=
  fun k u hu j hj1 hj2 => (h' k u hu j hj1 hj2).trans (h k u hu j hj1 hj2)

/-- What keeps the bytes of a list of blocks keeps those of each block. -/
theorem KeepsBits.single {bs : List Block} {c c' : Content} (h : KeepsBits bs c c') {b : Block}
    (hb : b ∈ bs) : KeepsBits [b] c c' := by
  intro k u hu
  rw [Extent.cover_cons, Extent.cover_nil, Nat.add_zero] at hu
  exact h k u (Nat.lt_of_lt_of_le hu (Extent.covers_le_cover hb k u))

/-- A change inside units that no block of the list has keeps their bytes. -/
theorem SameBitsOutside.keepsBits {bs : List Block} {s : Slot} {len : Nat}
    {c c' : Content} (h : SameBitsOutside s len c c')
    (hapart : forall u, s.off ≤ u -> u < s.off + len -> Extent.cover bs s.no u = 0) :
    KeepsBits bs c c' := by
  intro k u hu j hj1 hj2
  apply h
  rintro ⟨hk, hlo, hhi⟩
  have hz := hapart u (by omega) (by omega)
  rw [hk] at hu
  omega

/-!
## Bumping
-/

section Ops

variable {cls : Fin 3 -> Nat} {bs : List Block} {c : Content}

theorem setVirgin_virgin (c : Content) (k k' v : Nat) :
    ((c.setVirgin k v).body k').virgin = if k' = k then v else (c.body k').virgin := by
  unfold setVirgin
  rw [setBody_body]
  split <;> rfl

theorem setVirgin_used (c : Content) (k k' v : Nat) :
    ((c.setVirgin k v).body k').used = (c.body k').used := by
  unfold setVirgin
  rw [setBody_body]
  split
  · next h => rw [h]
  · rfl

theorem setVirgin_bits (c : Content) (k k' v : Nat) :
    ((c.setVirgin k v).body k').bits = (c.body k').bits := by
  unfold setVirgin
  rw [setBody_body]
  split
  · next h => rw [h]
  · rfl

theorem Chain.of_bits {c c' : Content} (h : forall k, (c'.body k).bits = (c.body k).bits)
    {l : List Slot} (hc : c.Chain l) : c'.Chain l :=
  hc.congr fun s _ j _ _ => by rw [h]

theorem bump_tiling (h : Tiling cls bs c) {k : Nat} (len : Nat) (hk : k < c.num)
    (hle : (c.body k).virgin + len ≤ 2048) :
    Tiling cls (c.bumpBlock k len :: bs) (c.bump k len) where
  num_le := h.num_le
  virgin_le := by
    intro k' hk'
    unfold bump
    rw [setVirgin_virgin]
    split
    · exact hle
    · exact h.virgin_le k' hk'
  reserved_le := by
    intro k' hk'
    have hr := h.reserved_le k' hk'
    unfold bump
    rw [setVirgin_virgin]
    split
    · next heq => rw [heq] at hr ⊢; omega
    · exact hr
  cover_le := by
    intro k' u
    have hone := h.cover_le_one k' u
    have hbound := h.bound (k := k') (u := u)
    have hr := h.reserved_le k hk
    rw [Extent.cover_cons]
    unfold bump bumpBlock
    rw [freeBlocks_congr (c.setVirgin _ _) (c) rfl, Extent.covers_mk]
    apply le_ite_one
    · split
      · next hin =>
          have hk' := hin.1
          subst hk'
          omega
      · omega
    · intro hpos
      rw [setVirgin_virgin]
      split at hpos
      · next hin =>
          have hk' := hin.1
          subst hk'
          rw [if_pos rfl]
          exact ⟨hk, by omega, hin.2.2⟩
      · have hb := hbound (by omega)
        refine ⟨hb.1, hb.2.1, ?_⟩
        split
        · next heq =>
            rw [heq] at hb
            omega
        · exact hb.2.2
  class_pos := h.class_pos
  chain := fun i => (h.chain i).of_bits fun k' => setVirgin_bits _ _ _ _
  above := by
    intro k' hk' j hj
    unfold bump at hj ⊢
    rw [setVirgin_bits]
    apply h.above k' hk'
    rw [setVirgin_virgin] at hj
    split at hj
    · next heq => rw [heq]; omega
    · exact hj

theorem bump_virgin_sum {k : Nat} (len : Nat) (hk : k < c.num) :
    (sumTo (c.bump k len).num fun i => ((c.bump k len).body i).virgin) =
      (sumTo c.num fun i => (c.body i).virgin) + len := by
  have hchange := sumTo_change (n := c.num) (f := fun i => (c.body i).virgin)
    (g := fun i => ((c.bump k len).body i).virgin) hk (by
      intro i _ hik
      unfold bump
      rw [setVirgin_virgin, if_neg hik])
  have hself : ((c.bump k len).body k).virgin = (c.body k).virgin + len := by
    unfold bump
    rw [setVirgin_virgin, if_pos rfl]
  have hnum : (c.bump k len).num = c.num := rfl
  rw [hnum]
  omega

theorem bump_used_sum (k len : Nat) :
    (sumTo (c.bump k len).num fun i => ((c.bump k len).body i).used) =
      sumTo c.num fun i => (c.body i).used :=
  sumTo_congr fun i _ => by
    unfold bump
    rw [setVirgin_used]

/-!
## Counting blocks in and out
-/

theorem countUsed_body (c : Content) (k len k' : Nat) :
    (c.countUsed k len).body k' =
      if k' = k then { c.body k with used := (c.body k).used + len }
      else c.body k' :=
  setBody_body _ _ _ _

theorem countFreed_body (c : Content) (k len k' : Nat) :
    (c.countFreed k len).body k' =
      if k' = k then { c.body k with used := (c.body k).used - len }
      else c.body k' :=
  setBody_body _ _ _ _

theorem Tiling.congr (c' : Content) (h : Tiling cls bs c) (hnum : c'.num = c.num)
    (hvirgin : forall k, (c'.body k).virgin = (c.body k).virgin)
    (hbits : forall k, (c'.body k).bits = (c.body k).bits)
    (hlists : c'.lists = c.lists) : Tiling cls bs c' where
  num_le := hnum ▸ h.num_le
  virgin_le := fun k hk => by rw [hvirgin]; exact h.virgin_le k (hnum ▸ hk)
  reserved_le := fun k hk => by rw [hvirgin]; exact h.reserved_le k (hnum ▸ hk)
  cover_le := fun k u => by
    rw [hnum, hvirgin, freeBlocks_congr _ _ hlists]
    exact h.cover_le k u
  class_pos := fun i hi => h.class_pos i (hlists ▸ hi)
  chain := fun i => by
    rw [hlists]
    exact (h.chain i).of_bits hbits
  above := fun k hk j hj => by
    rw [hbits]
    exact h.above k (hnum ▸ hk) j (by rw [← hvirgin]; exact hj)

theorem countUsed_tiling (h : Tiling cls bs c) (k len : Nat) :
    Tiling cls bs (c.countUsed k len) := by
  have hbody : forall k', ((c.countUsed k len).body k').virgin = (c.body k').virgin ∧
      ((c.countUsed k len).body k').bits = (c.body k').bits := by
    intro k'
    rw [countUsed_body]
    split
    · next hk => rw [hk]; exact ⟨rfl, rfl⟩
    · exact ⟨rfl, rfl⟩
  exact h.congr _ rfl (fun k' => (hbody k').1) (fun k' => (hbody k').2) rfl

theorem countFreed_tiling (h : Tiling cls bs c) (k len : Nat) :
    Tiling cls bs (c.countFreed k len) := by
  have hbody : forall k', ((c.countFreed k len).body k').virgin = (c.body k').virgin ∧
      ((c.countFreed k len).body k').bits = (c.body k').bits := by
    intro k'
    rw [countFreed_body]
    split
    · next hk => rw [hk]; exact ⟨rfl, rfl⟩
    · exact ⟨rfl, rfl⟩
  exact h.congr _ rfl (fun k' => (hbody k').1) (fun k' => (hbody k').2) rfl

/-- The counters before a block that is already out is counted. -/
structure Uncounted (cls : Fin 3 -> Nat) (bs : List Block) (len : Nat) (c : Content) :
    Prop where
  used_eq : forall k, k < c.num ->
    (c.body k).used = reserved k + Extent.lenIn bs k
  totalUsed_eq : c.totalUsed = sumTo c.num fun k => (c.body k).used
  virgin_eq :
    (sumTo c.num fun k => (c.body k).virgin) = c.totalUsed + c.totalFree + len
  free_le : Extent.total (c.freeBlocks cls) ≤ c.totalFree

theorem Uncounted.counted {b : Block} (h : Uncounted cls bs b.len c)
    (hb : b.space < c.num) :
    Accounts cls (b :: bs) (c.countUsed b.space b.len) where
  used_eq := by
    intro k hk
    rw [countUsed_body, Extent.lenIn_cons]
    have hu := h.used_eq k hk
    split
    · next heq =>
        subst heq
        rw [if_pos rfl]
        show (c.body b.space).used + b.len = _
        omega
    · next hne =>
        rw [if_neg (Ne.symm hne)]
        omega
  totalUsed_eq := by
    have hchange := sumTo_change (n := c.num) (f := fun k => (c.body k).used)
      (g := fun k => ((c.countUsed b.space b.len).body k).used) hb (by
        intro k _ hk
        rw [countUsed_body, if_neg hk])
    have hself : ((c.countUsed b.space b.len).body b.space).used =
        (c.body b.space).used + b.len := by
      rw [countUsed_body, if_pos rfl]
    have htotal := h.totalUsed_eq
    show c.totalUsed + b.len = sumTo c.num _
    omega
  virgin_eq := by
    have hv := h.virgin_eq
    have hsame : (sumTo c.num fun k => ((c.countUsed b.space b.len).body k).virgin) =
        sumTo c.num fun k => (c.body k).virgin := by
      apply sumTo_congr
      intro k _
      rw [countUsed_body]
      split
      · next hk => rw [hk]
      · rfl
    show sumTo c.num _ = c.totalUsed + b.len + c.totalFree
    rw [hsame]
    omega
  free_le := h.free_le

end Ops

end Content
end ChunkMem
