import Xv6Kernel.BlockAllocation
import Xv6Kernel.Volume

/-!
# Which inode owns which block

A block number stands either among the addresses of an inode or in its indirect
block.  While an inode is worked on, its copy in the inode cache is ahead of the
one on disk, so ownership is a property of the table in which that copy has been
put in place.

`Grows` is what mapping blocks into an inode does to the rest: the numbers that
are there stay, and nothing of another inode changes.
-/

namespace Xv6Kernel

open TraceExecution StateHoare WordBytes BlockAllocation Function Volume Finset

variable {P : Type}

/-- A place for a block number in an inode: an address, or a word of the
indirect block. -/
abbrev Spot := Fin (ndirect + 1) ⊕ Fin nindirect

abbrev Spot.indirect : Spot := .inl (Fin.last ndirect)

def DiskNode.numberAt (node : DiskNode) (data : ℕ → Block) : Spot → ℕ
  | .inl i => node.addrs i
  | .inr j =>
      if node.addrs (Fin.last ndirect) = 0 then 0
      else (data (node.addrs (Fin.last ndirect)) j).toNat

def numberIn (table : ℕ → DiskNode) (data : ℕ → Block) (place : ℕ × Spot) : ℕ :=
  if (table place.1).type = .none then 0
  else (table place.1).numberAt data place.2

def spotOf (bn : ℕ) : Option Spot :=
  if hbn : bn < ndirect then some (.inl ⟨bn, Nat.lt_add_one_of_lt hbn⟩)
  else if hbn : bn - ndirect < nindirect then some (.inr ⟨bn - ndirect, hbn⟩)
  else none

def DiskNode.blockAt (node : DiskNode) (data : ℕ → Block) (bn : ℕ) : ℕ :=
  (spotOf bn).elim 0 (node.numberAt data)

/-- The blocks in front of the data are marked, and the others are marked
exactly if they have a place. -/
structure BlocksOwned (sb : Superblock) (table : ℕ → DiskNode) (bitmap : ℕ → Bool)
    (data : ℕ → Block) : Prop where
  exact : Exact sb.IsData (numberIn table data) bitmap
  reserved : ∀ b, b < sb.nmeta → bitmap b = true

def DiskNode.NoHoles (node : DiskNode) (data : ℕ → Block) : Prop :=
  ∀ bn, bn * bsize < node.size.toNat → node.blockAt data bn ≠ 0

def spotIndex : Spot → ℕ
  | .inl i => i
  | .inr j => ndirect + j

theorem spotIndex_spotOf {bn : ℕ} {spot : Spot} (hspot : spotOf bn = some spot) :
    spotIndex spot = bn := by
  unfold spotOf at hspot
  split_ifs at hspot with hdirect hindirect
  · cases hspot
    rfl
  · cases hspot
    simp only [spotIndex]
    omega

theorem spotOf_ne_indirect (bn : ℕ) : spotOf bn ≠ some Spot.indirect := by
  unfold spotOf
  split_ifs
  · simp [Fin.ext_iff, Fin.last]
    omega
  · simp
  · simp

namespace Volume

def table (s : Volume P) (ip : ISlot) : ℕ → DiskNode :=
  Function.update s.dinode (s.icache ip).inum (s.icache ip).node

def number (s : Volume P) (ip : ISlot) : ℕ × Spot → ℕ :=
  numberIn (s.table ip) s.data

def OwnedAt (s : Volume P) (ip : ISlot) : Prop :=
  BlocksOwned s.sb (s.table ip) s.bitmap s.data

def freeBlocks (s : Volume P) : ℕ :=
  ((Finset.range s.sb.size).filter fun b => s.bitmap b = false).card

/-- Either the code may stop, or it is in a transaction, there are enough free
blocks, and it may stop where the log is full. -/
def Room (E : Volume P → Prop) (s : Volume P) (cost : ℕ) : Prop :=
  (∀ t, E t) ∨ ((1 ≤ s.outstanding ∧ ∀ t : Volume P, t.LogFull → E t) ∧ cost ≤ s.freeBlocks)

def grant (s : Volume P) (b : ℕ) : Volume P :=
  (((s.setBit b true).record (s.sb.bblock b)).setData b fun _ => 0).record b

@[simp] theorem grant_icache (s : Volume P) (b : ℕ) :
    (s.grant b).icache = s.icache := rfl

@[simp] theorem grant_dinode (s : Volume P) (b : ℕ) :
    (s.grant b).dinode = s.dinode := rfl

@[simp] theorem grant_data (s : Volume P) (b : ℕ) :
    (s.grant b).data = update s.data b fun _ => 0 := rfl

@[simp] theorem grant_bitmap (s : Volume P) (b : ℕ) :
    (s.grant b).bitmap = update s.bitmap b true := rfl

end Volume

section Allocating

variable {s : Volume P} {ip : ISlot} {b : ℕ} {E : Volume P → Prop} {Q : ℕ → Volume P → Prop}

theorem Volume.Room.mono {cost cost' : ℕ} (hroom : s.Room E cost)
    (hle : cost' ≤ cost) : s.Room E cost' := by
  rcases hroom with hstop | ⟨hlog, hfree⟩
  · exact Or.inl hstop
  · exact Or.inr ⟨hlog, hle.trans hfree⟩

theorem ensures_logWrite {Q : PUnit → Volume P → Prop} (hroom : s.Room E 0)
    (hQ : Q () (s.record b)) : Ensures (Vol.logWrite b) s Q E := by
  simp only [Vol.logWrite, ensures_bind, ensures_get]
  split_ifs with hfull hlog
  · exact hroom.elim (· s) fun h => h.1.2 s hfull
  · rcases hroom with hstop | ⟨⟨hlog', _⟩, _⟩
    · exact hstop s
    · omega
  · exact hQ

theorem freeBlock_eq_some (hfree : s.freeBlock = some b) : b < s.sb.size ∧ s.bitmap b = false := by
  have hmem := List.mem_of_find?_eq_some hfree
  have htest := List.find?_some hfree
  exact ⟨List.mem_range.mp hmem, by simpa using htest⟩

theorem freeBlocks_eq_zero (hfree : s.freeBlock = none) : s.freeBlocks = 0 := by
  rw [freeBlock, List.find?_eq_none] at hfree
  rw [freeBlocks, card_eq_zero, filter_eq_empty_iff]
  intro b hb
  simpa using hfree b (List.mem_range.mpr (mem_range.mp hb))

theorem ensures_balloc_of_free (hfree : s.freeBlock = some b)
    (hroom : s.Room E 0) (hQ : Q b (s.grant b)) : Ensures Vol.balloc s Q E := by
  have hlog : ∀ t : Volume P, t.outstanding = s.outstanding → t.Room E 0 := by
    intro t ht
    rcases hroom with hstop | ⟨hlog, _⟩
    · exact Or.inl hstop
    · exact Or.inr ⟨ht ▸ hlog, Nat.zero_le _⟩
  simp only [Vol.balloc, ensures_bind, ensures_get, hfree, ensures_modify]
  refine ensures_logWrite (hlog (s.setBit b true) rfl) ?_
  simp only [Vol.bzero, ensures_bind, ensures_modify]
  exact ensures_logWrite (hlog (((s.setBit b true).record _).setData b _) rfl) hQ

theorem ensures_balloc (hroom : s.Room E 1)
    (hQ : ∀ b, b < s.sb.size → s.bitmap b = false → Q b (s.grant b)) :
    Ensures Vol.balloc s Q E := by
  cases hfree : s.freeBlock with
  | none =>
    simp only [Vol.balloc, ensures_bind, ensures_get, hfree]
    rcases hroom with hstop | ⟨_, hcount⟩
    · exact hstop s
    · rw [freeBlocks_eq_zero hfree] at hcount
      omega
  | some b =>
    obtain ⟨hlt, hbit⟩ := freeBlock_eq_some hfree
    exact ensures_balloc_of_free hfree (hroom.mono (Nat.zero_le 1)) (hQ b hlt hbit)

theorem BlocksOwned.isData {sb : Superblock} {table : ℕ → DiskNode} {bitmap : ℕ → Bool}
    {data : ℕ → Block} (howned : BlocksOwned sb table bitmap data) (hlt : b < sb.size)
    (hbit : bitmap b = false) : sb.IsData b ∧ b ≠ 0 := by
  have hmeta : sb.nmeta ≤ b := by
    by_contra hlt'
    have hreserved := howned.reserved b (by omega)
    rw [hbit] at hreserved
    cases hreserved
  have hpos : 0 < sb.nmeta := Nat.add_pos_right _ (Nat.succ_pos _)
  exact ⟨⟨hmeta, hlt⟩, by omega⟩

theorem freeBlocks_grant (hlt : b < s.sb.size) (hbit : s.bitmap b = false) :
    (s.grant b).freeBlocks + 1 = s.freeBlocks := by
  have herase : ((range s.sb.size).filter fun c =>
      (s.grant b).bitmap c = false) =
      ((range s.sb.size).filter fun c => s.bitmap c = false).erase b := by
    ext c
    rw [mem_erase, mem_filter, mem_filter]
    simp only [grant, record, setData, setBit]
    by_cases hcb : c = b
    · subst c
      simp
    · simp [hcb]
  have hmem : b ∈ (range s.sb.size).filter fun c => s.bitmap c = false := by
    simp [hlt, hbit]
  unfold freeBlocks
  have hsb : (s.grant b).sb = s.sb := rfl
  rw [hsb, herase]
  exact card_erase_add_one hmem

end Allocating

/-! ## Mapping a block -/

section Mapping

variable {s t : Volume P} {ip : ISlot} {b bn c : ℕ} {spot : Spot} {i : Fin (ndirect + 1)}
  {j : Fin nindirect}

theorem table_self (s : Volume P) (ip : ISlot) :
    s.table ip (s.icache ip).inum = (s.icache ip).node :=
  update_self ..

theorem number_self (hused : (s.icache ip).node.type ≠ .none) (spot : Spot) :
    s.number ip ((s.icache ip).inum, spot) =
      (s.icache ip).node.numberAt s.data spot := by
  rw [number, numberIn, table_self, if_neg hused]

theorem numberIn_congr {table table' : ℕ → DiskNode} {data data' : ℕ → Block}
    {y : ℕ} (htable : table' y = table y)
    (hdata : numberIn table data (y, Spot.indirect) ≠ 0 →
      data' (numberIn table data (y, Spot.indirect)) =
        data (numberIn table data (y, Spot.indirect))) (spot : Spot) :
    numberIn table' data' (y, spot) = numberIn table data (y, spot) := by
  unfold numberIn at *
  simp only [htable]
  by_cases hnone : (table y).type = .none
  · simp only [hnone, if_true]
  · simp only [hnone, if_false, DiskNode.numberAt] at hdata ⊢
    cases spot with
    | inl i => rfl
    | inr j =>
      by_cases hzero : (table y).addrs (Fin.last ndirect) = 0
      · simp only [hzero, if_true]
      · simp only [hzero, if_false, hdata hzero]

theorem number_mapAddr (hused : (s.icache ip).node.type ≠ .none) (howned : s.OwnedAt ip)
    (hempty : (s.icache ip).node.addrs i = 0) (hb : b ≠ 0) (hbit : s.bitmap b = false) :
    ((s.grant b).setAddr ip i b).number ip =
      update (s.number ip) ((s.icache ip).inum, .inl i) b := by
  have hfree : ∀ place, s.number ip place ≠ b := howned.exact.number_ne hbit hb
  funext ⟨y, spot⟩
  by_cases hy : y = (s.icache ip).inum
  · subst y
    have hself : ((s.grant b).setAddr ip i b).number ip ((s.icache ip).inum, spot) =
        ((s.icache ip).node.setAddr i b).numberAt
          (update s.data b fun _ => 0) spot := by
      have hused' : (((s.grant b).setAddr ip i b).icache ip).node.type ≠ .none := by
        simpa using hused
      have hnumber := number_self hused' spot
      simpa using hnumber
    rw [hself]
    cases spot with
    | inl k =>
      by_cases hk : k = i
      · subst k
        simp [DiskNode.numberAt]
      · rw [update_of_ne (by simp [hk]), number_self hused]
        simp [DiskNode.numberAt, hk]
    | inr j =>
      rw [update_of_ne (by simp), number_self hused]
      by_cases hi : i = Fin.last ndirect
      · subst i
        simp [DiskNode.numberAt, hempty]
      · have hlast : Fin.last ndirect ≠ i := Ne.symm hi
        have hindirect := hfree ((s.icache ip).inum, Spot.indirect)
        rw [number_self hused, DiskNode.numberAt] at hindirect
        simp [DiskNode.numberAt, hlast, update_of_ne hindirect]
  · have hne : (y, spot) ≠ ((s.icache ip).inum, Sum.inl i) := by
      simp [hy]
    rw [update_of_ne hne]
    apply numberIn_congr
    · simp [table, hy]
    · intro _
      exact update_of_ne (hfree (y, Spot.indirect)) _ _

def Volume.grantWord (s : Volume P) (c : ℕ) (j : Fin nindirect) (b : ℕ) : Volume P :=
  ((s.grant b).setData c
    (Function.update ((s.grant b).data c) j (BitVec.ofNat 32 b))).record c

theorem number_mapWord (hused : (s.icache ip).node.type ≠ .none) (howned : s.OwnedAt ip)
    (hc : (s.icache ip).node.addrs (Fin.last ndirect) = c) (hzero : c ≠ 0) (j : Fin nindirect)
    (hb : b ≠ 0) (hlt : b < s.sb.size) (hbit : s.bitmap b = false) :
    (s.grantWord c j b).number ip =
      update (s.number ip) ((s.icache ip).inum, .inr j) b := by
  have hfree : ∀ place, s.number ip place ≠ b := howned.exact.number_ne hbit hb
  have hplace : s.number ip ((s.icache ip).inum, Spot.indirect) = c := by
    rw [number_self hused]
    exact hc
  have hcb : c ≠ b := hplace ▸ hfree _
  funext ⟨y, spot⟩
  by_cases hy : y = (s.icache ip).inum
  · subst y
    have hself : (s.grantWord c j b).number ip ((s.icache ip).inum, spot) =
        (s.icache ip).node.numberAt (s.grantWord c j b).data spot :=
      number_self (s := s.grantWord c j b) hused spot
    have hdata : (s.grantWord c j b).data c =
        update (s.data c) j (BitVec.ofNat 32 b) := by
      simp [grantWord, setData, record, hcb]
    rw [hself]
    cases spot with
    | inl k =>
      rw [update_of_ne (by simp), number_self hused]
      rfl
    | inr k =>
      simp only [DiskNode.numberAt, hc, hzero, if_false, hdata]
      by_cases hk : k = j
      · subst k
        have hsmall := s.sb.small
        simp only [update_self, BitVec.toNat_ofNat]
        exact Nat.mod_eq_of_lt (by omega)
      · rw [update_of_ne hk, update_of_ne (by simp [hk]), number_self hused]
        simp [DiskNode.numberAt, hc, hzero]
  · rw [update_of_ne (by simp [hy])]
    apply numberIn_congr
    · simp [table, grantWord, record, setData]
    · intro hne
      have hother : s.number ip (y, Spot.indirect) ≠ c := by
        intro heq
        have hsame := howned.exact.once _ _ hne (heq.trans hplace.symm)
        simp [hy] at hsame
      change update (update s.data b _) c _
        (s.number ip (y, Spot.indirect)) = s.data (s.number ip (y, Spot.indirect))
      rw [update_of_ne hother, update_of_ne (hfree _)]

/-- Only the data, the free map and the addresses of the inode in slot `ip` may
change. -/
structure Frame (ip : ISlot) (s t : Volume P) : Prop where
  sb : t.sb = s.sb
  dinode : t.dinode = s.dinode
  outstanding : t.outstanding = s.outstanding
  ftable : t.ftable = s.ftable
  cwd : t.cwd = s.cwd
  ofile : t.ofile = s.ofile
  slots : ∀ e, e ≠ ip → t.icache e = s.icache e
  core : ∃ addrs, t.icache ip =
    { s.icache ip with node := { (s.icache ip).node with addrs := addrs } }

theorem Frame.refl (ip : ISlot) (s : Volume P) : Frame ip s s :=
  ⟨rfl, rfl, rfl, rfl, rfl, rfl, fun _ _ => rfl, ⟨_, rfl⟩⟩

theorem Frame.trans {u : Volume P} (hst : Frame ip s t) (htu : Frame ip t u) : Frame ip s u where
  sb := htu.sb.trans hst.sb
  dinode := htu.dinode.trans hst.dinode
  outstanding := htu.outstanding.trans hst.outstanding
  ftable := htu.ftable.trans hst.ftable
  cwd := htu.cwd.trans hst.cwd
  ofile := htu.ofile.trans hst.ofile
  slots := fun e he => (htu.slots e he).trans (hst.slots e he)
  core := by
    obtain ⟨addrs, h⟩ := hst.core
    obtain ⟨addrs', h'⟩ := htu.core
    exact ⟨addrs', by rw [h', h]⟩

theorem Frame.inum (hframe : Frame ip s t) : (t.icache ip).inum = (s.icache ip).inum := by
  obtain ⟨addrs, h⟩ := hframe.core
  rw [h]

theorem Frame.type (hframe : Frame ip s t) : (t.icache ip).node.type = (s.icache ip).node.type := by
  obtain ⟨addrs, h⟩ := hframe.core
  rw [h]

theorem Frame.size (hframe : Frame ip s t) : (t.icache ip).node.size = (s.icache ip).node.size := by
  obtain ⟨addrs, h⟩ := hframe.core
  rw [h]

/-- What mapping blocks into the inode in slot `ip` and writing them leaves
alone. -/
structure Grows (ip : ISlot) (s t : Volume P) : Prop where
  frame : Frame ip s t
  keeps : ∀ place, s.number ip place ≠ 0 → t.number ip place = s.number ip place
  elsewhere : ∀ place, place.1 ≠ (s.icache ip).inum →
    t.number ip place = s.number ip place
  data : ∀ place, place.1 ≠ (s.icache ip).inum → s.number ip place ≠ 0 →
    t.data (s.number ip place) = s.data (s.number ip place)

theorem Grows.refl (ip : ISlot) (s : Volume P) : Grows ip s s :=
  ⟨Frame.refl ip s, fun _ _ => rfl, fun _ _ => rfl, fun _ _ _ => rfl⟩

theorem Grows.trans {u : Volume P} (hst : Grows ip s t) (htu : Grows ip t u) : Grows ip s u where
  frame := hst.frame.trans htu.frame
  keeps := by
    intro place hplace
    have hmid := hst.keeps place hplace
    rw [htu.keeps place (hmid ▸ hplace), hmid]
  elsewhere := by
    intro place hplace
    rw [htu.elsewhere place (hst.frame.inum ▸ hplace), hst.elsewhere place hplace]
  data := by
    intro place hplace hne
    have hmid := hst.elsewhere place hplace
    have hdata := htu.data place (hst.frame.inum ▸ hplace) (hmid ▸ hne)
    rw [hmid] at hdata
    rw [hdata, hst.data place hplace hne]

theorem grows_of_number (hframe : Frame ip s t)
    (hempty : s.number ip ((s.icache ip).inum, spot) = 0)
    (hnumber : t.number ip =
      update (s.number ip) ((s.icache ip).inum, spot) b)
    (hdata : ∀ place, place.1 ≠ (s.icache ip).inum → s.number ip place ≠ 0 →
      t.data (s.number ip place) = s.data (s.number ip place)) : Grows ip s t where
  frame := hframe
  keeps := by
    intro place hplace
    have hne : place ≠ ((s.icache ip).inum, spot) := by
      rintro rfl
      exact hplace hempty
    rw [hnumber, update_of_ne hne]
  elsewhere := by
    rintro ⟨y, k⟩ hy
    rw [hnumber, update_of_ne]
    simp only [ne_eq, Prod.mk.injEq, not_and]
    exact fun heq => (hy heq).elim
  data := hdata

theorem owned_of_number (howned : s.OwnedAt ip) (hsb : t.sb = s.sb)
    (hbitmap : t.bitmap = update s.bitmap b true)
    (hempty : s.number ip ((s.icache ip).inum, spot) = 0)
    (hnumber : t.number ip = update (s.number ip) ((s.icache ip).inum, spot) b)
    (hlt : b < s.sb.size) (hbit : s.bitmap b = false) : t.OwnedAt ip := by
  obtain ⟨hdata, hb⟩ := howned.isData hlt hbit
  constructor
  · have hexact := howned.exact.assign hempty hb hdata hbit
    rw [← hbitmap] at hexact
    rw [hsb]
    change Exact s.sb.IsData (t.number ip) t.bitmap
    rw [hnumber]
    exact hexact
  · intro c hc
    rw [hsb] at hc
    rw [hbitmap]
    by_cases hcb : c = b
    · subst c
      simp
    · rw [update_of_ne hcb]
      exact howned.reserved c hc

def Volume.blockAt (s : Volume P) (ip : ISlot) (bn : ℕ) : ℕ :=
  (s.icache ip).node.blockAt s.data bn

theorem blockAt_eq_number (hused : (s.icache ip).node.type ≠ .none)
    (hspot : spotOf bn = some spot) : s.blockAt ip bn = s.number ip ((s.icache ip).inum, spot) := by
  rw [number_self hused, blockAt, DiskNode.blockAt, hspot]
  rfl

theorem blockAt_eq_zero (hspot : spotOf bn = none) : s.blockAt ip bn = 0 := by
  rw [blockAt, DiskNode.blockAt, hspot]
  rfl

/-- What `bmap` does: numbers are added, and the blocks that were there keep
their contents. -/
structure Maps (ip : ISlot) (s t : Volume P) : Prop where
  grows : Grows ip s t
  owned : t.OwnedAt ip
  content : ∀ bn, s.blockAt ip bn ≠ 0 →
    t.data (s.blockAt ip bn) = s.data (s.blockAt ip bn)

theorem Grows.blockAt (hgrows : Grows ip s t) (hused : (s.icache ip).node.type ≠ .none)
    (hbn : s.blockAt ip bn ≠ 0) : t.blockAt ip bn = s.blockAt ip bn := by
  cases hspot : spotOf bn with
  | none => exact (hbn (blockAt_eq_zero hspot)).elim
  | some spot =>
    have hused' : (t.icache ip).node.type ≠ .none := hgrows.frame.type ▸ hused
    rw [blockAt_eq_number hused hspot] at hbn ⊢
    rw [blockAt_eq_number hused' hspot, hgrows.frame.inum]
    exact hgrows.keeps _ hbn

theorem Maps.trans {u : Volume P} (hused : (s.icache ip).node.type ≠ .none)
    (hst : Maps ip s t) (htu : Maps ip t u) : Maps ip s u where
  grows := hst.grows.trans htu.grows
  owned := htu.owned
  content := by
    intro bn hbn
    have hmid := hst.grows.blockAt hused hbn
    have hdata := htu.content bn (hmid ▸ hbn)
    rw [hmid] at hdata
    rw [hdata, hst.content bn hbn]

section

variable (howned : s.OwnedAt ip) (hused : (s.icache ip).node.type ≠ .none)

include howned hused

theorem maps_of_number
    (hframe : Frame ip s t)
    (hbitmap : t.bitmap = update s.bitmap b true)
    (hempty : s.number ip ((s.icache ip).inum, spot) = 0)
    (hnumber : t.number ip =
      update (s.number ip) ((s.icache ip).inum, spot) b)
    (hdata : ∀ place, place ≠ ((s.icache ip).inum, Spot.indirect) →
      s.number ip place ≠ 0 → t.data (s.number ip place) = s.data (s.number ip place))
    (hlt : b < s.sb.size) (hbit : s.bitmap b = false) : Maps ip s t where
  grows := by
    apply grows_of_number hframe hempty hnumber
    intro place hplace
    apply hdata place
    rintro rfl
    exact hplace rfl
  owned := owned_of_number howned hframe.sb hbitmap hempty hnumber hlt hbit
  content := by
    intro bn hbn
    cases hspot : spotOf bn with
    | none => exact (hbn (blockAt_eq_zero hspot)).elim
    | some spot' =>
      rw [blockAt_eq_number hused hspot] at hbn ⊢
      apply hdata _ _ hbn
      rintro heq
      obtain rfl : spot' = Spot.indirect := congrArg Prod.snd heq
      exact spotOf_ne_indirect bn hspot

theorem maps_mapAddr (hempty : (s.icache ip).node.addrs i = 0) (hlt : b < s.sb.size)
    (hbit : s.bitmap b = false) : Maps ip s ((s.grant b).setAddr ip i b) := by
  have hb : b ≠ 0 := (howned.isData hlt hbit).2
  have hfree : ∀ place, s.number ip place ≠ b := howned.exact.number_ne hbit hb
  have hzero : s.number ip ((s.icache ip).inum, .inl i) = 0 := by
    rw [number_self hused]
    exact hempty
  apply maps_of_number howned hused _ rfl hzero
    (number_mapAddr hused howned hempty hb hbit) _ hlt hbit
  · refine ⟨rfl, rfl, rfl, rfl, rfl, rfl, ?_, ?_⟩
    · intro e he
      rw [setAddr, setNode, setCore_of_ne _ _ he]
      rfl
    · exact ⟨_, setAddr_self _ ip i b⟩
  · intro place _ _
    exact update_of_ne (hfree place) _ _

theorem maps_mapWord
    (hc : (s.icache ip).node.addrs (Fin.last ndirect) = c) (hzero : c ≠ 0) (hempty : s.data c j = 0)
    (hlt : b < s.sb.size) (hbit : s.bitmap b = false) : Maps ip s (s.grantWord c j b) := by
  have hb : b ≠ 0 := (howned.isData hlt hbit).2
  have hfree : ∀ place, s.number ip place ≠ b := howned.exact.number_ne hbit hb
  have hplace : s.number ip ((s.icache ip).inum, Spot.indirect) = c := by
    rw [number_self hused]
    exact hc
  have hword : s.number ip ((s.icache ip).inum, .inr j) = 0 := by
    rw [number_self hused]
    simp [DiskNode.numberAt, hc, hempty]
  apply maps_of_number howned hused _ rfl hword
    (number_mapWord hused howned hc hzero j hb hlt hbit) _ hlt hbit
  · exact ⟨rfl, rfl, rfl, rfl, rfl, rfl, fun _ _ => rfl, ⟨_, rfl⟩⟩
  · intro place hne hnumber
    have hother : s.number ip place ≠ c := by
      intro heq
      exact hne (howned.exact.once _ _ hnumber (heq.trans hplace.symm))
    change update (update s.data b _) c _ _ = _
    rw [update_of_ne hother, update_of_ne (hfree place)]

end

/-! ## The rule for `bmap` -/

variable {E : Volume P → Prop} {Q : ℕ → Volume P → Prop}

theorem ensures_mapAddr
    (hroom : (s.icache ip).node.addrs i = 0 → s.Room E 1)
    (hold : (s.icache ip).node.addrs i ≠ 0 → Q ((s.icache ip).node.addrs i) s)
    (hnew : ∀ b, (s.icache ip).node.addrs i = 0 → b < s.sb.size →
      s.bitmap b = false → Q b ((s.grant b).setAddr ip i b)) :
    Ensures (Vol.mapAddr ip i) s Q E := by
  simp only [Vol.mapAddr, ensures_bind, ensures_get]
  split
  next hempty =>
    rw [ensures_bind]
    apply ensures_balloc (hroom hempty)
    intro b hlt hbit
    exact hnew b hempty hlt hbit
  next hfull => exact hold hfull

theorem ensures_mapWord
    (hroom : s.data c j = 0 → s.Room E 1) (hold : s.data c j ≠ 0 → Q (s.data c j).toNat s)
    (hnew : ∀ b, s.data c j = 0 → b < s.sb.size → s.bitmap b = false → Q b (s.grantWord c j b)) :
    Ensures (Vol.mapWord c j) s Q E := by
  simp only [Vol.mapWord, ensures_bind, ensures_get]
  split
  next hempty =>
    rw [ensures_bind]
    apply ensures_balloc (hroom hempty)
    intro b hlt hbit
    simp only [ensures_bind, ensures_modify]
    apply ensures_logWrite
    · exact (hroom hempty).imp id fun h => ⟨h.1, Nat.zero_le _⟩
    · exact hnew b hempty hlt hbit
  next hfull => exact hold hfull

def Volume.mapCost (s : Volume P) (ip : ISlot) (bn : ℕ) : ℕ :=
  (if s.blockAt ip bn = 0 then 1 else 0) +
    if ndirect ≤ bn ∧ (s.icache ip).node.addrs (Fin.last ndirect) = 0 then 1 else 0

/-- The state behind `bmap`. -/
structure Mapped (ip : ISlot) (bn : ℕ) (s t : Volume P) : Prop where
  maps : Maps ip s t
  mapped : t.blockAt ip bn ≠ 0
  others : ∀ bn', bn' ≠ bn → t.blockAt ip bn' = s.blockAt ip bn'
  fresh : s.blockAt ip bn = 0 → t.data (t.blockAt ip bn) = fun _ => 0
  idle : s.blockAt ip bn ≠ 0 → t = s
  cost : t.freeBlocks + s.mapCost ip bn = s.freeBlocks
  indirect : (t.icache ip).node.addrs (Fin.last ndirect) = 0 ↔
    (s.icache ip).node.addrs (Fin.last ndirect) = 0 ∧ bn < ndirect

/-- What a write does to the blocks does not depend on what is in the log. -/
theorem Mapped.unlogged (h : Mapped ip bn s t) : Mapped ip bn s.unlogged t.unlogged where
  maps := ⟨⟨{ h.maps.grows.frame with }, h.maps.grows.keeps, h.maps.grows.elsewhere,
    h.maps.grows.data⟩, h.maps.owned, h.maps.content⟩
  mapped := h.mapped
  others := h.others
  fresh := h.fresh
  idle := fun hbn => congrArg Volume.unlogged (h.idle hbn)
  cost := h.cost
  indirect := h.indirect

theorem indirect_of_blockAt (hbn : s.blockAt ip bn ≠ 0) (hindirect : ndirect ≤ bn) :
    (s.icache ip).node.addrs (Fin.last ndirect) ≠ 0 := by
  intro hzero
  apply hbn
  unfold blockAt DiskNode.blockAt spotOf
  rw [dif_neg (by omega)]
  split
  · simp [DiskNode.numberAt, hzero]
  · rfl

theorem mapped_refl (howned : s.OwnedAt ip) (hbn : s.blockAt ip bn ≠ 0) : Mapped ip bn s s where
  maps := ⟨Grows.refl ip s, howned, fun _ _ => rfl⟩
  mapped := hbn
  others := fun _ _ => rfl
  fresh := fun hzero => (hbn hzero).elim
  idle := fun _ => rfl
  cost := by
    have hlast := indirect_of_blockAt hbn
    rw [mapCost, if_neg hbn, if_neg (fun h => hlast h.1 h.2)]
    rfl
  indirect := by
    constructor
    · intro hzero
      refine ⟨hzero, ?_⟩
      by_contra hge
      exact indirect_of_blockAt hbn (by omega) hzero
    · exact fun h => h.1

theorem mapped_of_number
    (hmaps : Maps ip s t) (hused : (s.icache ip).node.type ≠ .none)
    (hspot : spotOf bn = some spot)
    (hempty : s.number ip ((s.icache ip).inum, spot) = 0)
    (hnumber : t.number ip =
      update (s.number ip) ((s.icache ip).inum, spot) b)
    (hb : b ≠ 0) (hfresh : t.data b = fun _ => 0)
    (hcost : t.freeBlocks + 1 = s.freeBlocks)
    (hlast : (t.icache ip).node.addrs (Fin.last ndirect) =
      (s.icache ip).node.addrs (Fin.last ndirect))
    (hindirect : ndirect ≤ bn →
      (s.icache ip).node.addrs (Fin.last ndirect) ≠ 0) : Mapped ip bn s t := by
  have hused' : (t.icache ip).node.type ≠ .none := hmaps.grows.frame.type ▸ hused
  have hbn : t.blockAt ip bn = b := by
    rw [blockAt_eq_number hused' hspot, hnumber, hmaps.grows.frame.inum, update_self]
  constructor
  case maps => exact hmaps
  case mapped => rwa [hbn]
  case others =>
    intro bn' hne
    cases hspot' : spotOf bn' with
    | none => rw [blockAt_eq_zero hspot', blockAt_eq_zero hspot']
    | some spot' =>
      have hdiffer : spot' ≠ spot := by
        rintro rfl
        exact hne ((spotIndex_spotOf hspot').symm.trans (spotIndex_spotOf hspot))
      rw [blockAt_eq_number hused' hspot', blockAt_eq_number hused hspot', hnumber,
        hmaps.grows.frame.inum, update_of_ne (by simp [hdiffer])]
  case fresh =>
    intro _
    rw [hbn, hfresh]
  case idle =>
    intro hfull
    exact (hfull ((blockAt_eq_number hused hspot).trans hempty)).elim
  case cost =>
    have hzero : s.blockAt ip bn = 0 := (blockAt_eq_number hused hspot).trans hempty
    rw [mapCost, if_pos hzero, if_neg (fun h => hindirect h.1 h.2)]
    exact hcost
  case indirect =>
    rw [hlast]
    constructor
    · intro hzero
      refine ⟨hzero, ?_⟩
      by_contra hge
      exact hindirect (by omega) hzero
    · exact fun h => h.1

section

variable (howned : s.OwnedAt ip) (hused : (s.icache ip).node.type ≠ .none)

include howned hused

theorem ensures_bmapDirect (hbn : bn < ndirect)
    (hroom : s.Room E (s.mapCost ip bn)) (hQ : ∀ t, Mapped ip bn s t → Q (t.blockAt ip bn) t) :
    Ensures (Vol.mapAddr ip ⟨bn, Nat.lt_add_one_of_lt hbn⟩) s Q E := by
  have hspot : spotOf bn = some (.inl ⟨bn, by omega⟩) := dif_pos hbn
  have hblock : s.blockAt ip bn = (s.icache ip).node.addrs ⟨bn, by omega⟩ := by
    rw [blockAt_eq_number hused hspot, number_self hused]
    rfl
  apply ensures_mapAddr
  · intro hempty
    apply hroom.mono
    rw [mapCost, if_pos (hblock.trans hempty)]
    omega
  · intro hfull
    rw [← hblock] at hfull ⊢
    exact hQ s (mapped_refl howned hfull)
  · intro b hempty hlt hbit
    have hb : b ≠ 0 := (howned.isData hlt hbit).2
    have hnumber := number_mapAddr hused howned hempty hb hbit
    have hmaps := maps_mapAddr howned hused hempty hlt hbit
    have hmapped : Mapped ip bn s ((s.grant b).setAddr ip ⟨bn, by omega⟩ b) := by
      apply mapped_of_number hmaps hused hspot _ hnumber hb
      · simp
      · exact freeBlocks_grant hlt hbit
      · have hne : Fin.last ndirect ≠ ⟨bn, by omega⟩ := by
          rw [ne_eq, Fin.ext_iff]
          exact Nat.ne_of_gt hbn
        simp [hne]
      · intro hge
        omega
      · rw [number_self hused]
        exact hempty
    have hvalue := hQ _ hmapped
    have hused' : (((s.grant b).setAddr ip ⟨bn, by omega⟩ b).icache ip).node.type ≠
        .none := by simpa using hused
    rw [blockAt_eq_number hused' hspot, hnumber] at hvalue
    simpa using hvalue

theorem ensures_bmapWord (hge : ndirect ≤ bn)
    (hlt : bn - ndirect < nindirect) (hzero : (s.icache ip).node.addrs (Fin.last ndirect) ≠ 0)
    (hroom : s.Room E (s.mapCost ip bn)) (hQ : ∀ t, Mapped ip bn s t → Q (t.blockAt ip bn) t) :
    Ensures (Vol.mapWord ((s.icache ip).node.addrs (Fin.last ndirect))
      ⟨bn - ndirect, hlt⟩) s Q E := by
  have hspot : spotOf bn = some (.inr ⟨bn - ndirect, hlt⟩) := by
    rw [spotOf, dif_neg (by omega), dif_pos hlt]
  have hblock : s.blockAt ip bn =
      (s.data ((s.icache ip).node.addrs (Fin.last ndirect))
        ⟨bn - ndirect, hlt⟩).toNat := by
    rw [blockAt_eq_number hused hspot, number_self hused]
    simp [DiskNode.numberAt, hzero]
  apply ensures_mapWord
  · intro hempty
    apply hroom.mono
    rw [mapCost, if_pos (by rw [hblock, hempty]; rfl)]
    omega
  · intro hfull
    have hne : s.blockAt ip bn ≠ 0 := by
      rw [hblock]
      intro heq
      exact hfull (BitVec.eq_of_toNat_eq heq)
    rw [← hblock]
    exact hQ s (mapped_refl howned hne)
  · intro b hempty hsize hbit
    have hb : b ≠ 0 := (howned.isData hsize hbit).2
    have hnumber := number_mapWord hused howned rfl hzero ⟨bn - ndirect, hlt⟩ hb hsize hbit
    have hmaps := maps_mapWord howned hused rfl hzero hempty hsize hbit
    have hfree : ∀ place, s.number ip place ≠ b := howned.exact.number_ne hbit hb
    have hcb : b ≠ (s.icache ip).node.addrs (Fin.last ndirect) := by
      have hplace := hfree ((s.icache ip).inum, Spot.indirect)
      rw [number_self hused] at hplace
      exact Ne.symm hplace
    have hmapped := mapped_of_number hmaps hused hspot
      (by rw [number_self hused]; simp [DiskNode.numberAt, hempty]) hnumber hb
      (by simp [grantWord, record, setData, hcb])
      (freeBlocks_grant hsize hbit) rfl fun _ => hzero
    have hvalue := hQ _ hmapped
    rw [blockAt_eq_number (s := s.grantWord _ _ b) hused hspot, hnumber] at hvalue
    have hinum : ((s.grantWord ((s.icache ip).node.addrs (Fin.last ndirect))
      ⟨bn - ndirect, hlt⟩ b).icache ip).inum = (s.icache ip).inum := rfl
    rw [hinum, update_self] at hvalue
    exact hvalue

theorem blockAt_mapIndirect (hempty : (s.icache ip).node.addrs (Fin.last ndirect) = 0)
    (hlt : b < s.sb.size) (hbit : s.bitmap b = false) (bn : ℕ) :
    ((s.grant b).setAddr ip (Fin.last ndirect) b).blockAt ip bn = s.blockAt ip bn := by
  have hb : b ≠ 0 := (howned.isData hlt hbit).2
  have hused' : (((s.grant b).setAddr ip (Fin.last ndirect) b).icache ip).node.type ≠
      .none := by simpa using hused
  cases hspot : spotOf bn with
  | none => rw [blockAt_eq_zero hspot, blockAt_eq_zero hspot]
  | some spot =>
    have hne : spot ≠ Spot.indirect := by
      rintro rfl
      exact spotOf_ne_indirect bn hspot
    rw [blockAt_eq_number hused' hspot, blockAt_eq_number hused hspot,
      number_mapAddr hused howned hempty hb hbit]
    simp [hne]

theorem Mapped.after_indirect (hempty : (s.icache ip).node.addrs (Fin.last ndirect) = 0)
    (hlt : b < s.sb.size) (hbit : s.bitmap b = false) (hge : ndirect ≤ bn)
    (hmapped : Mapped ip bn ((s.grant b).setAddr ip (Fin.last ndirect) b) t) :
    Mapped ip bn s t := by
  have hblocks := blockAt_mapIndirect howned hused hempty hlt hbit
  have hb : b ≠ 0 := (howned.isData hlt hbit).2
  constructor
  case maps =>
    exact (maps_mapAddr howned hused hempty hlt hbit).trans hused hmapped.maps
  case mapped => exact hmapped.mapped
  case others =>
    intro bn' hne
    rw [hmapped.others bn' hne, hblocks]
  case fresh =>
    intro hzero
    exact hmapped.fresh ((hblocks bn).trans hzero)
  case idle =>
    intro hfull
    exact (indirect_of_blockAt hfull hge hempty).elim
  case cost =>
    have hrest := hmapped.cost
    have hgrant := freeBlocks_grant hlt hbit
    have hfree : ((s.grant b).setAddr ip (Fin.last ndirect) b).freeBlocks =
      (s.grant b).freeBlocks := rfl
    simp only [mapCost, hblocks, hge, true_and, hempty, if_true, hfree] at hrest ⊢
    simp [hb] at hrest
    omega
  case indirect =>
    rw [hmapped.indirect]
    constructor
    · intro h
      omega
    · intro h
      omega

theorem ensures_bmap (hbn : bn < maxfile) (hroom : s.Room E (s.mapCost ip bn))
    (hQ : ∀ t, Mapped ip bn s t → Q (t.blockAt ip bn) t) : Ensures (Vol.bmap ip bn) s Q E := by
  unfold Vol.bmap
  split
  next hdirect => exact ensures_bmapDirect howned hused hdirect hroom hQ
  next hdirect =>
    have hge : ndirect ≤ bn := by omega
    have hmax : maxfile = ndirect + nindirect := rfl
    have hlt : bn - ndirect < nindirect := by omega
    rw [dif_pos hlt, ensures_bind]
    apply ensures_mapAddr
    · intro hempty
      apply hroom.mono
      rw [mapCost, if_pos (c := ndirect ≤ bn ∧ _) ⟨hge, hempty⟩]
      omega
    · intro hfull
      exact ensures_bmapWord howned hused hge hlt hfull hroom hQ
    · intro b hempty hsize hbit
      have hb : b ≠ 0 := (howned.isData hsize hbit).2
      have hmaps := maps_mapAddr howned hused hempty hsize hbit
      have hlast : (((s.grant b).setAddr ip (Fin.last ndirect) b).icache ip).node.addrs
          (Fin.last ndirect) = b := by simp
      have hused' : (((s.grant b).setAddr ip (Fin.last ndirect) b).icache ip).node.type ≠
          .none := by simpa using hused
      have hroom' : ((s.grant b).setAddr ip (Fin.last ndirect) b).Room E
          (((s.grant b).setAddr ip (Fin.last ndirect) b).mapCost ip bn) := by
        have hgrant := freeBlocks_grant hsize hbit
        have hfree : ((s.grant b).setAddr ip (Fin.last ndirect) b).freeBlocks =
          (s.grant b).freeBlocks := rfl
        refine hroom.imp id ?_
        rintro ⟨hlog, hcost⟩
        refine ⟨hlog, ?_⟩
        simp only [mapCost, blockAt_mapIndirect howned hused hempty hsize hbit, hlast,
          hge, hempty, hb, true_and, if_true, if_false, hfree] at hcost ⊢
        omega
      have hword := ensures_bmapWord hmaps.owned hused' hge hlt (by rwa [hlast]) hroom'
        fun t hmapped =>
          hQ t (hmapped.after_indirect howned hused hempty hsize hbit hge)
      rw [hlast] at hword
      exact hword

end

end Mapping

/-- The root directory; `mkfs` rounds its size up to a whole block. -/
def mkfsRoot : DiskNode where
  type := .dir
  major := 0
  minor := 0
  nlink := 1
  size := 512
  addrs := fun i => if i = 0 then 59 else 0

/-- The entries `.` and `..`, both with number 1. -/
def mkfsByte (k : ℕ) : Byte :=
  if k = 0 ∨ k = 16 then 1 else if k = 2 ∨ k = 18 ∨ k = 19 then 46 else 0

/-- The image without user programs, with the root directory as the working
directory of one process. -/
def mkfsVolume : Volume Unit where
  sb := ⟨fssize, ninodes, 30, fssize_fits, fssize_small⟩
  dinode := fun x =>
    if x = rootino then mkfsRoot else ⟨.none, 0, 0, 0, 0, fun _ => 0⟩
  bitmap := fun b => b < 60
  data := fun b => if b = 59 then ofBytes mkfsByte else fun _ => 0
  outstanding := 0
  logged := []
  icache := fun e =>
    if e = 0 then ⟨rootino, 1, none, true, mkfsRoot⟩
    else ⟨0, 0, none, false, ⟨.none, 0, 0, 0, 0, fun _ => 0⟩⟩
  ftable := fun _ => ⟨0, none, false, false, 0⟩
  cwd := fun _ => some 0
  ofile := fun _ _ => none

theorem mkfs_number (place : ℕ × Spot) :
    numberIn mkfsVolume.dinode mkfsVolume.data place =
      if place = (rootino, .inl 0) then 59 else 0 := by
  obtain ⟨x, spot⟩ := place
  by_cases hx : x = rootino
  · subst x
    cases spot with
    | inl i => simp [numberIn, mkfsVolume, mkfsRoot, DiskNode.numberAt]
    | inr j => simp [numberIn, mkfsVolume, mkfsRoot, DiskNode.numberAt, Fin.last]
  · simp [numberIn, mkfsVolume, hx]

theorem mkfs_owned : BlocksOwned mkfsVolume.sb mkfsVolume.dinode mkfsVolume.bitmap
    mkfsVolume.data := by
  have hmeta : mkfsVolume.sb.nmeta = 59 := rfl
  constructor
  · constructor
    · intro place hplace
      rw [mkfs_number] at hplace ⊢
      split at hplace
      next hroot =>
        rw [if_pos hroot]
        exact ⟨hmeta.le, by decide⟩
      next => exact (hplace rfl).elim
    · intro place hplace
      rw [mkfs_number] at hplace ⊢
      split at hplace
      next hroot =>
        rw [if_pos hroot]
        rfl
      next => exact (hplace rfl).elim
    · intro place place' hplace heq
      rw [mkfs_number] at hplace heq
      rw [mkfs_number] at heq
      split at hplace
      next hroot =>
        rw [if_pos hroot] at heq
        split at heq
        next hroot' => rw [hroot, hroot']
        next => cases heq
      next => exact (hplace rfl).elim
    · intro b hb hdata hbit
      have hlt : b < 60 := by simpa [mkfsVolume] using hbit
      have hge : 59 ≤ b := hmeta ▸ hdata.1
      refine ⟨(rootino, .inl 0), ?_⟩
      rw [mkfs_number, if_pos rfl]
      omega
  · intro b hb
    rw [hmeta] at hb
    simp only [mkfsVolume, decide_eq_true_eq]
    omega

end Xv6Kernel
