import ChunkMem.Properties.Merge

/-!
# The chunk an address lies in

`chk_addr2chk` only has an address.  It tries the headers at the kilobytes in front
of it, the nearest first, and the chunk around the address is the first one whose
capacity reaches that far.
-/

namespace ChunkMem

open Foundation

/-- Behind its header, no kilobyte of the chunk begins like a header. -/
def World.Lone (w : World) (k : Nat) : Prop := forall i, i < w.capacityOf k -> 0 < i ->
  ¬((w.chunkBits k).read (8192 * i) 32 = chkMagic ∧
    (w.chunkBits k).read (8192 * i + 96) 32 = chkPadding)

/-- The address lies in the chunk, behind its base and in front of its virgin mark. -/
def World.Covers (w : World) (k : Nat) (addr : Ptr) : Prop := k < w.index.chkNum ∧
  exists o, 0 < o ∧ o < 8 * w.virginOf k ∧ addr = (w.index.chkAddr k).add o

namespace Uncompressed

variable {env : Env} {w : World} {c : Content} {L : Layout} {k i j : Nat}

theorem addr2chkFrom_cons (h : Uncompressed env w c L) (hk : k < c.num) (hi : 0 < i)
    (hij : i ≤ j) (hj : j ≤ L.cap k) (rest : List Nat) :
    addr2chkFrom ((w.index.chkAddr k).add (1024 * j)) (i :: rest) w =
      (if (w.chunkBits k).read (8192 * (j - i)) 32 = chkMagic ∧
          (w.chunkBits k).read (8192 * (j - i) + 96) 32 = chkPadding ∧
          (w.chunkBits k).read (8192 * (j - i) + 32) 5 ≤ 16 ∧
          i ≤ (w.chunkBits k).read (8192 * (j - i) + 32) 5
        then pure ((w.index.chkAddr k).add (1024 * (j - i)))
        else addr2chkFrom ((w.index.chkAddr k).add (1024 * j)) rest) w := by
  have hreq : chkCapacity i ≤ ((w.index.chkAddr k).add (1024 * j)).off := by
    simp only [Ptr.add, chkCapacity]
    omega
  have hchk : (⟨((w.index.chkAddr k).add (1024 * j)).blk,
      ((w.index.chkAddr k).add (1024 * j)).off - chkCapacity i⟩ : Ptr) =
        (w.index.chkAddr k).add (1024 * (j - i)) := by
    simp only [Ptr.add, chkCapacity, Ptr.mk.injEq, true_and]
    omega
  have hbits : 8 * (1024 * (j - i)) = 8192 * (j - i) := by omega
  have hload : forall f : Field, f.pos + f.width ≤ 128 ->
      load ((w.index.chkAddr k).add (1024 * (j - i))) f w =
        .ok ((w.chunkBits k).read (8192 * (j - i) + f.pos) f.width, w) := by
    intro f hf
    rw [← hbits]
    exact h.load_ok hk (by omega)
  have hmagic := hload ChkMetadata.magic (by decide)
  have hpadding := hload ChkMetadata.padding3 (by decide)
  have hcapacity := hload ChkMetadata.capacity (by decide)
  rw [addr2chkFrom, Exec.bind_of_ok (Exec.require_of hreq _ w), hchk, Exec.bind_of_ok hmagic,
    Exec.bind_of_ok hpadding, Exec.bind_of_ok hcapacity]
  rfl

/-- The scan passes the kilobytes inside the chunk and stops at its header. -/
theorem addr2chkFrom_ok (h : Uncompressed env w c L) (hk : k < c.num) (hlone : w.Lone k)
    (hi : 0 < i) (hij : i ≤ j) (hj : j ≤ L.cap k) {n : Nat} (hn : j < i + n) :
    addr2chkFrom ((w.index.chkAddr k).add (1024 * j)) (List.range' i n) w =
      .ok (w.index.chkAddr k, w) := by
  have himage := h.image k hk
  induction n generalizing i with
  | zero => omega
  | succ n ih =>
      rw [List.range'_succ, h.addr2chkFrom_cons hk hi hij hj]
      rcases Nat.lt_or_eq_of_le hij with hlt | rfl
      · have hcap : j - i < w.capacityOf k := by
          rw [h.capacityOf_eq hk]
          omega
        have hno := hlone (j - i) hcap (by omega)
        rw [if_neg (fun hfound => hno ⟨hfound.1, hfound.2.1⟩)]
        exact ih (by omega) hlt (by omega)
      · have hcap := himage.capacity
        have hle := h.fits.cap_le k hk
        rw [Nat.sub_self, Nat.mul_zero, Nat.zero_add, Nat.zero_add]
        rw [if_pos ⟨himage.magic, himage.padding3, by omega, by omega⟩]
        rfl

theorem align_chkAddr (h : Uncompressed env w c L) (hk : k < c.num) {o : Nat}
    (ho : o ≤ 1024 * L.cap k) :
    chkAlignCapaicty ((w.index.chkAddr k).add o).off =
      ((w.index.chkAddr k).add (1024 * ((o + 1023) / 1024))).off := by
  have hoff := h.place.off_eq hk
  have hbase : L.base k ≤ L.start c.num := by
    unfold Layout.base
    split
    · exact Layout.start_le (by omega)
    · exact Nat.zero_le _
  have hstart := h.fits.start_bound
  have hnum := h.fits.num_le
  have hcap := h.fits.cap_le k hk
  simp only [Ptr.add, chkAlignCapaicty]
  rw [Nat.mod_eq_of_lt (by omega)]
  omega

theorem chkAddr2chk_ok (h : Uncompressed env w c L) {addr : Ptr} (haddr : w.Covers k addr)
    (hlone : w.Lone k) : chkAddr2chk addr w = .ok (w.index.chkAddr k, w) := by
  rcases haddr with ⟨hk, o, ho, hlt, rfl⟩
  rw [h.num] at hk
  rw [h.virginOf_eq hk] at hlt
  have hvirgin := h.fits.virgin_le k hk
  have hoff := h.align_chkAddr hk (o := o) (by omega)
  have hcap := h.fits.cap_le k hk
  unfold chkAddr2chk
  rw [hoff]
  exact h.addr2chkFrom_ok hk hlone Nat.one_pos (by omega) (by omega) (by omega)

end Uncompressed

/-- `chk_listnode2chk` returns the chunk of the node. -/
def Session.FindsChk (s : Session) (w : World) (x : ChkPtr) : Prop :=
  chkListnode2chk (s.world.index.place x).addr w = .ok (w.index.chkAddr x.chkNo, w)

namespace Linked

variable {env : Env} {s : Session} {U : ChkPtr -> Prop} {g : Links ChkPtr} {w : World}
variable {b x : ChkPtr} {l : List ChkPtr}

theorem covers (h : Linked env s U g w) (hx : U x) :
    w.Covers x.chkNo (s.world.index.place x).addr := by
  rcases h.isOpen.spot_bound with ⟨c, L, hu, hbound⟩
  rcases hbound x (h.spot hx) with ⟨hno, hlo, hhi, -⟩
  refine ⟨?_, 4 * x.offset, by omega, ?_, ?_⟩
  · rw [hu.num]
    exact hno
  · rw [hu.virginOf_eq hno]
    omega
  · rw [h.only.index]
    exact Open.place_addr_eq _ _

theorem findsChk_ring (h : Linked env s U g w) (hring : g.IsRing b l)
    (hl : forall y, y ∈ b :: l -> U y) (hx : x ∈ b :: l) : s.FindsChk w x := by
  have hfound := h.chkListnode2chk_ok hring hl hx
  unfold Session.FindsChk
  rw [h.only.index]
  exact hfound

theorem findsChk_reset (h : Linked env s U g w) (hx : U x) (hnull : (g.prev x).IsNull)
    (hlone : w.Lone x.chkNo) : s.FindsChk w x := by
  rcases h.isOpen.spot_bound with ⟨c, L, hu, -⟩
  have hfound := hu.chkAddr2chk_ok (h.covers hx) hlone
  unfold Session.FindsChk chkListnode2chk
  rw [Exec.bind_of_ok (h.loadPrev hx), if_pos hnull, hfound]

theorem findsChk_del (h : Linked env s U g w) (hring : g.IsRing b l)
    (hl : forall y, y ∈ b :: l -> U y) (hx : x ∈ b :: l) :
    exists w', ChkList.del (s.world.index.place x) w = .ok ((), w') ∧
      (w'.Lone x.chkNo -> s.FindsChk w' x) := by
  rcases h.del_ok (hl x hx) (hl _ (hring.prev_mem hx)) (hl _ (hring.next_mem hx)) with
    ⟨w', hdel, h'⟩
  refine ⟨w', hdel, h'.findsChk_reset (hl x hx) ?_⟩
  simp [Links.reset, ChkPtr.nulled, ChkPtr.IsNull]

end Linked

/-- In every session with an uncompressed index the two ways to find the chunk of an
address agree.  Every chunk begins at a kilobyte of an aligned allocation, and
`chk_addr2chk` returns it for each address behind its base and in front of its
virgin mark, if no kilobyte inside it begins like a header.  However the links of nodes
in the blocks of the session came to be, `chk_listnode2chk` returns the chunk that
contains a node: for each head and node of a ring without any condition, and for each
node whose links are null, as `chk_list_del` leaves them, under that condition.  So
it does after any calls on lists. -/
theorem Reach.owner_lookups {env : Env} {s : Session} (h : Reach env CarefulCall s)
    (hflag : s.world.index.compressed = false) :
    (forall k, k < s.world.index.chkNum -> (s.world.index.chkAddr k).off % 1024 = 0 ∧
      exists size, s.world.sys.allocs (s.world.index.chkAddr k).blk = some ⟨.chunk, size⟩) ∧
    (forall k addr, s.world.Covers k addr -> s.world.Lone k ->
      chkAddr2chk addr s.world = .ok (s.world.index.chkAddr k, s.world)) ∧
    (forall U g w, Linked env s U g w ->
      (forall x, U x -> w.Covers x.chkNo (s.world.index.place x).addr) ∧
      (forall b l, g.IsRing b l -> (forall x, x ∈ b :: l -> U x) -> forall x, x ∈ b :: l ->
        s.FindsChk w x ∧ exists w', ChkList.del (s.world.index.place x) w = .ok ((), w') ∧
          (w'.Lone x.chkNo -> s.FindsChk w' x)) ∧
      forall x, U x -> (g.prev x).IsNull -> w.Lone x.chkNo -> s.FindsChk w x) ∧
    forall U, Places s.live U -> forall w t, ListReach s U w t ->
      (forall b l, t.seq b = some l -> forall x, x ∈ b :: l -> s.FindsChk w x) ∧
      forall x, t.ready x -> w.Lone x.chkNo -> s.FindsChk w x := by
  have hopen := h.isOpen hflag
  rcases hopen.spot_bound with ⟨c, L, hu, -⟩
  refine ⟨?_, fun k addr haddr hlone => hu.chkAddr2chk_ok haddr hlone, ?_, ?_⟩
  · intro k hk
    rw [hu.num] at hk
    rcases hu.holds hk with ⟨size, halloc, -⟩
    refine ⟨?_, size, halloc⟩
    rw [hu.place.off_eq hk]
    exact Nat.mul_mod_right 1024 _
  · intro U g w hlink
    refine ⟨fun x hx => hlink.covers hx, ?_, fun x hx => hlink.findsChk_reset hx⟩
    intro b l hring hl x hx
    exact ⟨hlink.findsChk_ring hring hl hx, hlink.findsChk_del hring hl hx⟩
  · intro U hplaces w t ht
    rcases ht.shown hopen hplaces with ⟨g, hlink, hshown⟩
    constructor
    · intro b l hb x hx
      rcases hshown.ring b l hb with ⟨hring, hmem⟩
      exact hlink.findsChk_ring hring hmem hx
    · intro x hx hlone
      rcases hshown.ready x hx with ⟨hux, hnull, -⟩
      exact hlink.findsChk_reset hux hnull hlone

/-- An address in the header of the only chunk, and the head and the nodes of a list. -/
theorem Reach.owner_lookups_sample :
    chkAddr2chk ((roomy.world.index.chkAddr 0).add 40) roomy.world =
      .ok (roomy.world.index.chkAddr 0, roomy.world) ∧
    exists w, forall x, x ∈ ([⟨0, 12, 0⟩, ⟨0, 22, 0⟩, ⟨0, 20, 0⟩, ⟨0, 18, 0⟩, ⟨0, 16, 0⟩] :
      List ChkPtr) -> roomy.FindsChk w x := by
  have hflag : roomy.world.index.compressed = false := by decide +kernel
  have hlookups := Reach.owner_lookups roomy_reach hflag
  rcases roomy_lists with ⟨w, t, ht, -, hlist⟩
  refine ⟨hlookups.2.1 0 _ ⟨by decide +kernel, 40, by decide, by decide +kernel, rfl⟩ ?_, w,
    (hlookups.2.2.2 _ roomy_places w t ht).1 _ _ hlist⟩
  unfold World.Lone
  decide +kernel

end ChunkMem
