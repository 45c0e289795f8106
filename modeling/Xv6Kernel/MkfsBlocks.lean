import Xv6Kernel.FileBytes
import Xv6Kernel.Mkfs

/-!
# The blocks that `iappend` takes

The image is read as the kernel reads it, as a volume, with the inode that `iappend` works on in
the first slot of the inode cache.  There `iappend` finds its blocks as `bmap` does: the next
block is always the first one that is free.  So what is known of the bytes that `writei` writes
holds of those that `iappend` writes.
-/

namespace Xv6Kernel.Mkfs

open StateHoare WordBytes Function RawNode Image

def fileType (code : BitVec 16) : FileType :=
  if code = 1 then .dir else if code = 2 then .file else if code = 3 then .dev else .none

def RawNode.toNode (node : RawNode) : DiskNode where
  type := fileType ((node 0).extractLsb' 0 16)
  major := ((node 0).extractLsb' 16 16).toInt
  minor := ((node 1).extractLsb' 0 16).toInt
  nlink := ((node 1).extractLsb' 16 16).toInt
  size := node 2
  addrs := RawNode.addr node

namespace Image

def node (s : Image) (i : ℕ) : RawNode := nodeIn (s.sector (sb.iblock i)) i

def table (s : Image) (i : ℕ) : DiskNode :=
  if sb.iblock i < sb.bmapstart then RawNode.toNode (s.node i) else RawNode.toNode fun _ => 0

def data (s : Image) (b : ℕ) : Block :=
  if b < sb.nmeta then fun _ => 0 else s.sector b

def used (s : Image) (b : ℕ) : Bool := decide (b < s.freeblock)

/-- Irreducible, so that no search for a free block is ever unfolded. -/
@[irreducible]
def volume (s : Image) (inum : ℕ) (din : RawNode) (logged : List ℕ) : Volume Unit where
  sb := sb
  dinode := s.table
  bitmap := s.used
  data := s.data
  outstanding := 1
  logged := logged
  icache := Function.update (fun _ => ⟨0, 0, none, false, RawNode.toNode fun _ => 0⟩) 0
    ⟨inum, 1, some (), true, RawNode.toNode din⟩
  ftable := fun _ => ⟨0, none, false, false, 0⟩
  cwd := fun _ => none
  ofile := fun _ _ => none

end Image

/-- The blocks that have not been given out are there and zero. -/
structure Ready (s : Image) : Prop where
  sectors : s.sectors = fssize
  low : sb.nmeta ≤ s.freeblock
  high : s.freeblock ≤ fssize
  zero : ∀ b, s.freeblock ≤ b → s.sector b = fun _ => 0

section View

variable {s t : Image} {inum b c : ℕ} {din din' : RawNode} {l : List ℕ} {i : Fin (ndirect + 1)}
  {j : Fin nindirect}

theorem toNode_setAddr (din : RawNode) (i : Fin (ndirect + 1)) (hb : b ≤ fssize) :
    toNode (setAddr din i b) = (toNode din).setAddr i b := by
  have hother : ∀ k : Fin 16, k.val < 3 → setAddr din i b k = din k := by
    intro k hk
    apply update_of_ne
    intro heq
    have hval := congrArg Fin.val heq
    rw [Fin.val_natAdd] at hval
    omega
  have haddrs : addr (setAddr din i b) =
      update (addr din) i b := by
    funext k
    by_cases hk : k = i
    · rw [hk, addr_setAddr din i hb, update_self]
    · rw [update_of_ne hk, addr, setAddr, update_of_ne]
      · rfl
      · intro heq
        have hval := congrArg Fin.val heq
        rw [Fin.val_natAdd, Fin.val_natAdd] at hval
        exact hk (Fin.ext (by omega))
  rw [toNode, DiskNode.setAddr, haddrs, hother 0 (by decide), hother 1 (by decide),
    hother 2 (by decide)]
  rfl

@[simp] theorem volume_sb : (s.volume inum din l).sb = sb := by simp only [volume]

@[simp] theorem volume_dinode : (s.volume inum din l).dinode = s.table := by
  simp only [volume]

@[simp] theorem volume_bitmap : (s.volume inum din l).bitmap = s.used := by
  simp only [volume]

@[simp] theorem volume_data : (s.volume inum din l).data = s.data := by simp only [volume]

@[simp] theorem volume_outstanding : (s.volume inum din l).outstanding = 1 := by
  simp only [volume]

@[simp] theorem volume_core : (s.volume inum din l).icache 0 =
    ⟨inum, 1, some (), true, toNode din⟩ := by
  simp [volume]

theorem freeBlock_volume (hlt : s.freeblock < fssize) :
    (s.volume inum din l).freeBlock = some s.freeblock := by
  rw [Volume.freeBlock, volume_sb, volume_bitmap, List.find?_range_eq_some]
  refine ⟨?_, List.mem_range.mpr hlt, ?_⟩
  · simp [used]
  · intro b hb
    simpa [used] using hb

theorem freeBlocks_volume : (s.volume inum din l).freeBlocks = fssize - s.freeblock := by
  have hfilter : (Finset.range fssize).filter (fun b => s.used b = false) =
      Finset.Ico s.freeblock fssize := by
    ext b
    simp only [Finset.mem_filter, Finset.mem_range, Finset.mem_Ico, used, decide_eq_false_iff_not]
    omega
  rw [Volume.freeBlocks, volume_sb, volume_bitmap]
  exact (congrArg Finset.card hfilter).trans (Nat.card_Ico _ _)

theorem volume_write (hlow : sb.nmeta ≤ b) (hhigh : b ≤ fssize) (buf : Block) :
    (s.write b buf).volume inum din l = (s.volume inum din l).setData b buf := by
  have hsector : (s.write b buf).sector = update s.sector b buf := by
    rw [write, place_of_le hhigh]
  have hmeta : sb.bmapstart < sb.nmeta := by decide
  have htable : (s.write b buf).table = s.table := by
    funext i
    by_cases hi : sb.iblock i < sb.bmapstart
    · rw [table, table, if_pos hi, if_pos hi, node, node, hsector, update_of_ne (by omega)]
    · rw [table, table, if_neg hi, if_neg hi]
  have hdata : (s.write b buf).data = update s.data b buf := by
    funext c
    by_cases hc : c = b
    · rw [hc, update_self, data, if_neg (Nat.not_lt.mpr hlow), hsector, update_self]
    · rw [update_of_ne hc, data, hsector, update_of_ne hc]
      rfl
  simp only [volume, htable, hdata, Volume.setData]
  rfl

theorem volume_unlogged : (s.volume inum din l).unlogged = s.volume inum din [] := by
  simp only [volume, Volume.unlogged]

theorem volume_record (s : Image) (inum : ℕ) (din : RawNode) (l : List ℕ) (b : ℕ) :
    ∃ l', (s.volume inum din l).record b = s.volume inum din l' := by
  simp only [volume, Volume.record]
  exact ⟨_, rfl⟩

theorem Ready.write (hs : Ready s) (hb : b < s.freeblock) (buf : Block) :
    Ready (s.write b buf) := by
  have hplace : place b = b := place_of_le (hb.le.trans hs.high)
  have hlt : place b < s.sectors := by
    rw [hplace, hs.sectors]
    exact hb.trans_le hs.high
  refine ⟨(write_sectors hlt buf).trans hs.sectors, hs.low, hs.high, ?_⟩
  intro c hc
  have hne : c ≠ place b := by
    rw [hplace]
    exact (hb.trans_le hc).ne'
  exact (update_of_ne hne ..).trans (hs.zero c hc)

theorem Ready.take (hs : Ready s) (hlt : s.freeblock < fssize) : Ready s.take :=
  ⟨hs.sectors, hs.low.trans (Nat.le_succ _), hlt, fun b hb => hs.zero b (Nat.le_of_succ_le hb)⟩

theorem used_take (s : Image) : s.take.used = update s.used s.freeblock true := by
  funext b
  by_cases hb : b = s.freeblock
  · rw [hb, update_self, used, take]
    exact decide_eq_true (Nat.lt_succ_self _)
  · rw [update_of_ne hb, used, used, take, decide_eq_decide]
    change b < s.freeblock + 1 ↔ b < s.freeblock
    omega

theorem volume_take (hs : Ready s) (inum : ℕ) (din : RawNode) (l : List ℕ) :
    ∃ l', s.take.volume inum din l' = (s.volume inum din l).grant s.freeblock := by
  have hdata : update s.data s.freeblock (fun _ => 0) = s.data := by
    have hzero : s.data s.freeblock = fun _ => 0 := by
      rw [data, if_neg (Nat.not_lt.mpr hs.low), hs.zero _ (le_refl _)]
    rw [← hzero, update_eq_self]
  refine ⟨((s.volume inum din l).grant s.freeblock).logged, ?_⟩
  simp only [Volume.grant, Volume.setBit, Volume.record, Volume.setData, volume, used_take, hdata]
  rfl

theorem volume_setAddr (i : Fin (ndirect + 1)) (hb : b ≤ fssize) :
    s.volume inum (setAddr din i b) l = (s.volume inum din l).setAddr 0 i b := by
  simp only [Volume.setAddr, Volume.setNode, Volume.setCore, volume_core, ← toNode_setAddr din i hb]
  simp only [volume, update_idem]

/-! ## `iappend` finds its blocks as `bmap` does -/

theorem data_of_low (hlow : sb.nmeta ≤ c) : s.data c = s.sector c := by
  rw [data, if_neg (Nat.not_lt.mpr hlow)]

theorem mapAddr_old (hfull : addr din i ≠ 0) :
    Ensures (Vol.mapAddr 0 i) (s.volume inum din l)
      (fun x w => x = addr din i ∧ w = s.volume inum din l) Volume.LogFull := by
  have haddr : (toNode din).addrs i = addr din i := rfl
  simp only [Vol.mapAddr, ensures_bind, ensures_get, volume_core, haddr]
  rw [if_neg hfull, ensures_pure]
  exact ⟨rfl, rfl⟩

theorem room_zero : (s.volume inum din l).Room Volume.LogFull 0 :=
  .inr ⟨⟨volume_outstanding.ge, fun _ => id⟩, Nat.zero_le _⟩

theorem mapAddr_new (hs : Ready s) (hlt : s.freeblock < fssize)
    (hempty : addr din i = 0) (inum : ℕ) (l : List ℕ) :
    ∃ l', Ensures (Vol.mapAddr 0 i) (s.volume inum din l)
      (fun x w => x = s.freeblock ∧
        w = s.take.volume inum (setAddr din i s.freeblock) l') Volume.LogFull := by
  have haddr : (toNode din).addrs i = addr din i := rfl
  obtain ⟨l', htake⟩ := volume_take hs inum din l
  refine ⟨l', ?_⟩
  simp only [Vol.mapAddr, ensures_bind, ensures_get, volume_core, haddr]
  rw [if_pos hempty, ensures_bind]
  refine ensures_balloc_of_free (freeBlock_volume hlt) room_zero ?_
  simp only [ensures_bind, ensures_modify, ensures_pure, true_and]
  rw [← htake, volume_setAddr i hs.high]

theorem mapWord_old (hlow : sb.nmeta ≤ c) (hfull : s.sector c j ≠ 0) :
    Ensures (Vol.mapWord c j) (s.volume inum din l)
      (fun x w => x = (s.sector c j).toNat ∧ w = s.volume inum din l) Volume.LogFull := by
  simp only [Vol.mapWord, ensures_bind, ensures_get, volume_data, data_of_low hlow]
  rw [if_neg hfull, ensures_pure]
  exact ⟨rfl, rfl⟩

theorem mapWord_new (hs : Ready s) (hlt : s.freeblock < fssize) (hlow : sb.nmeta ≤ c)
    (hc : c < s.freeblock) (hempty : s.sector c j = 0) :
    ∃ l', Ensures (Vol.mapWord c j) (s.volume inum din l)
      (fun x w => x = s.freeblock ∧ w = (s.take.write c (update (s.sector c) j
        (BitVec.ofNat 32 s.freeblock))).volume inum din l') Volume.LogFull := by
  obtain ⟨l', htake⟩ := volume_take hs inum din l
  obtain ⟨l'', hrecord⟩ := volume_record (s.take.write c (update (s.sector c) j
    (BitVec.ofNat 32 s.freeblock))) inum din l' c
  refine ⟨l'', ?_⟩
  have hkeep : s.take.data c = s.sector c := data_of_low (s := s.take) hlow
  simp only [Vol.mapWord, ensures_bind, ensures_get, volume_data, data_of_low hlow]
  rw [if_pos hempty, ensures_bind]
  refine ensures_balloc_of_free (freeBlock_volume hlt) room_zero ?_
  simp only [ensures_bind, ensures_modify, ← htake, volume_data, hkeep]
  refine ensures_logWrite (.inr ⟨⟨volume_outstanding.ge, fun _ => id⟩, Nat.zero_le _⟩) ?_
  rw [ensures_pure]
  refine ⟨rfl, ?_⟩
  rw [← volume_write hlow (hc.le.trans hs.high), hrecord]

variable {E : Image → Prop}

theorem ensures_rsect_of_lt {sec : ℕ} {Q : Block → Image → Prop} (hs : s.sectors = fssize)
    (hlt : sec < fssize) (hQ : Q (s.sector sec) s) : Ensures (rsect sec) s Q E := by
  have hplace : place sec = sec := place_of_le hlt.le
  simp only [rsect, ensures_bind, ensures_get, hplace, hs]
  rw [if_pos hlt, ensures_pure]
  exact hQ

/-- What the program did to find a block is what `x` does for the kernel, unless the log is full;
or no block is left, and the number is that of no sector, which is found out when it is read. -/
def Found (E : Image → Prop) (x : Vol Unit ℕ) (s : Image) (v : Volume Unit) (inum : ℕ) (b : ℕ)
    (din : RawNode) (t : Image) : Prop :=
  (Ready t ∧ Kept s t ∧
    ∃ l, Ensures x v (fun b' w => b' = b ∧ w = t.volume inum din l) Volume.LogFull) ∨
  ((∀ u, E u) ∧ b = fssize ∧ t.sectors = fssize)

theorem takeAddr_found (hs : Ready s) (hroom : addr din i = 0 → (∀ t, E t) ∨ s.freeblock < fssize) :
    Ensures (takeAddr din i) s (fun din' t => Found E (Vol.mapAddr 0 i) s (s.volume inum din l)
      inum (addr din' i) din' t) E := by
  unfold takeAddr
  by_cases hempty : addr din i = 0
  · rw [if_pos hempty]
    simp only [nextBlock, ensures_bind, ensures_get, ensures_modify, ensures_pure]
    rw [addr_setAddr din i hs.high]
    rcases hs.high.lt_or_eq with hlt | hend
    · exact .inl ⟨hs.take hlt, ⟨rfl, rfl, rfl⟩, mapAddr_new hs hlt hempty inum l⟩
    · exact .inr ⟨(hroom hempty).resolve_right (by omega), hend, hs.sectors⟩
  · rw [if_neg hempty, ensures_pure]
    exact .inl ⟨hs, Kept.refl s, l, mapAddr_old hempty⟩

theorem takeWord_found (hs : Ready s) (hlow : sb.nmeta ≤ c) (hc : c < s.freeblock)
    (hroom : s.sector c j = 0 → (∀ t, E t) ∨ s.freeblock < fssize) :
    Ensures (takeWord c j) s (fun b t => Found E (Vol.mapWord c j) s (s.volume inum din l)
      inum b din t) E := by
  simp only [takeWord, ensures_bind]
  refine ensures_rsect_of_lt hs.sectors (hc.trans_le hs.high) ?_
  by_cases hempty : s.sector c j = 0
  · rw [if_pos hempty]
    simp only [nextBlock, wsect, ensures_bind, ensures_get, ensures_modify, ensures_pure]
    have hplace : place c < s.take.sectors := by
      rw [place_of_le (hc.le.trans hs.high)]
      exact (hc.trans_le hs.high).trans_eq hs.sectors.symm
    have hsectors := write_sectors hplace (update (s.sector c) j (BitVec.ofNat 32 s.freeblock))
    rcases hs.high.lt_or_eq with hlt | hend
    · refine .inl ⟨?_, ⟨hsectors, rfl, rfl⟩, mapWord_new hs hlt hlow hc hempty⟩
      exact (hs.take hlt).write (hc.trans (Nat.lt_succ_self _)) _
    · exact .inr ⟨(hroom hempty).resolve_right (by omega), hend, hsectors.trans hs.sectors⟩
  · rw [if_neg hempty, ensures_pure]
    exact .inl ⟨hs, Kept.refl s, l, mapWord_old hlow hempty⟩

theorem Found.after {x : Vol Unit ℕ} {f : ℕ → Vol Unit ℕ} {u : Image} {v : Volume Unit}
    (hx : Ensures x v (fun c' w => c' = c ∧ w = t.volume inum din l) Volume.LogFull)
    (hkept : Kept s t) (hf : Found E (f c) t (t.volume inum din l) inum b din u) :
    Found E (x >>= f) s v inum b din u := by
  rcases hf with ⟨hu, hkept', l', hf⟩ | hfull
  · refine .inl ⟨hu, hkept.trans hkept', l', ?_⟩
    rw [ensures_bind]
    refine hx.post ?_
    rintro _ _ ⟨rfl, rfl⟩
    exact hf
  · exact .inr hfull

theorem number_given (howned : (s.volume inum din l).OwnedAt 0) (hused : (toNode din).type ≠ .none)
    (spot : Spot) (hfull : (toNode din).numberAt s.data spot ≠ 0) :
    sb.nmeta ≤ (toNode din).numberAt s.data spot ∧
      (toNode din).numberAt s.data spot < s.freeblock := by
  have hcore : ((s.volume inum din l).icache 0).node.type ≠ .none := by simpa using hused
  have hself := number_self hcore spot
  rw [volume_core, volume_data] at hself
  have hne : (s.volume inum din l).number 0 (inum, spot) ≠ 0 := by
    rw [hself]
    exact hfull
  have hdata := howned.exact.usable _ hne
  have hmarked := howned.exact.marked _ hne
  change (s.volume inum din l).sb.IsData ((s.volume inum din l).number 0 (inum, spot)) at hdata
  change (s.volume inum din l).bitmap ((s.volume inum din l).number 0 (inum, spot)) = true
    at hmarked
  rw [hself, volume_sb] at hdata
  rw [hself, volume_bitmap] at hmarked
  exact ⟨hdata.1, of_decide_eq_true hmarked⟩

theorem blockAt_given (howned : (s.volume inum din l).OwnedAt 0) (hused : (toNode din).type ≠ .none)
    {bn : ℕ} (hfull : (s.volume inum din l).blockAt 0 bn ≠ 0) :
    sb.nmeta ≤ (s.volume inum din l).blockAt 0 bn ∧
      (s.volume inum din l).blockAt 0 bn < s.freeblock := by
  rw [Volume.blockAt, volume_core, volume_data, DiskNode.blockAt] at hfull ⊢
  cases hspot : spotOf bn with
  | none =>
    rw [hspot] at hfull
    exact (hfull rfl).elim
  | some spot =>
    rw [hspot] at hfull
    exact number_given howned hused spot hfull

theorem blockFor_found (hs : Ready s) (howned : (s.volume inum din l).OwnedAt 0)
    (hused : (toNode din).type ≠ .none) {fbn : ℕ} (hfbn : fbn < maxfile)
    (hroom : (∀ t, E t) ∨ s.freeblock + (s.volume inum din l).mapCost 0 fbn ≤ fssize) :
    Ensures (blockFor din fbn) s (fun r t => Found E (Vol.bmap 0 fbn) s (s.volume inum din l)
      inum r.2 r.1 t) E := by
  have hblock : (s.volume inum din l).blockAt 0 fbn = (toNode din).blockAt s.data fbn := by
    rw [Volume.blockAt, volume_core, volume_data]
  have hlast : ((s.volume inum din l).icache 0).node.addrs (Fin.last ndirect) =
      addr din (Fin.last ndirect) := by
    rw [volume_core]
    rfl
  rw [Volume.mapCost, hblock, hlast] at hroom
  unfold blockFor
  by_cases hdirect : fbn < ndirect
  · have hspot : (toNode din).blockAt s.data fbn =
        addr din ⟨fbn, by omega⟩ := by
      rw [DiskNode.blockAt, spotOf, dif_pos hdirect]
      rfl
    rw [dif_pos hdirect, ensures_bind, Vol.bmap, dif_pos hdirect]
    refine (takeAddr_found hs fun hempty => hroom.imp_right fun hroom => ?_).post fun _ _ h => h
    rw [hspot, if_pos hempty] at hroom
    omega
  · have hmax : maxfile = ndirect + nindirect := rfl
    have hindirect : fbn - ndirect < nindirect := by omega
    have hge : ndirect ≤ fbn := Nat.le_of_not_lt hdirect
    have hspot : (toNode din).blockAt s.data fbn =
        (toNode din).numberAt s.data (.inr ⟨fbn - ndirect, hindirect⟩) := by
      rw [DiskNode.blockAt, spotOf, dif_neg hdirect, dif_pos hindirect]
      rfl
    rw [hspot] at hroom
    rw [dif_neg hdirect, dif_pos hindirect, Vol.bmap, dif_neg hdirect, dif_pos hindirect, takeAddr]
    by_cases hempty : addr din (Fin.last ndirect) = 0
    · have hzero : (toNode din).numberAt s.data (.inr ⟨fbn - ndirect, hindirect⟩) = 0 :=
        if_pos hempty
      rw [if_pos hzero, if_pos ⟨hge, hempty⟩] at hroom
      rw [if_pos hempty]
      simp only [nextBlock, ensures_bind, ensures_get, ensures_modify, ensures_pure]
      rw [addr_setAddr din _ hs.high]
      rcases hs.high.lt_or_eq with hlt | hend
      · obtain ⟨l', hnew⟩ := mapAddr_new hs hlt hempty inum l
        refine (takeWord_found (hs.take hlt) hs.low (Nat.lt_succ_self _) fun _ =>
          hroom.imp_right fun hroom => ?_).post fun b u hf => hf.after hnew ⟨rfl, rfl, rfl⟩
        change s.freeblock + 1 < fssize
        omega
      · have hstop : ∀ t, E t := hroom.resolve_right (by omega)
        rw [takeWord, ensures_bind]
        refine ensures_rsect hstop fun hlt => ?_
        rw [place_of_le hs.high, hend] at hlt
        exact absurd (hlt.trans_eq hs.sectors) (lt_irrefl _)
    · obtain ⟨hlow, hc⟩ := number_given howned hused Spot.indirect hempty
      change sb.nmeta ≤ addr din (Fin.last ndirect) at hlow
      change addr din (Fin.last ndirect) < s.freeblock at hc
      have hword : (toNode din).numberAt s.data (.inr ⟨fbn - ndirect, hindirect⟩) =
          (s.sector (addr din (Fin.last ndirect)) ⟨fbn - ndirect, hindirect⟩).toNat := by
        rw [← data_of_low hlow]
        exact if_neg hempty
      rw [if_neg hempty, ensures_bind, ensures_pure, ensures_bind]
      refine (takeWord_found hs hlow hc fun hzero => hroom.imp_right fun hroom => ?_).post
        fun b u hf => hf.after (mapAddr_old hempty) (Kept.refl s)
      have hnone : (toNode din).numberAt s.data (.inr ⟨fbn - ndirect, hindirect⟩) = 0 := by
        rw [hword, hzero]
        rfl
      rw [if_pos hnone] at hroom
      omega

/-- Starting from an empty log, `bmap` does not fill it. -/
theorem Ready.bmap_room (hs : Ready s) (fbn : ℕ) :
    Ensures (Vol.bmap 0 fbn) (s.volume inum din []) (fun _ _ => True) fun t => ¬ t.LogFull := by
  have hwithin : Within sb 0 0 1 sb.bitmapBlocks (s.volume inum din []) := by
    refine ⟨volume_sb, ?_, fun _ => subset_rfl, .inl ?_⟩
    · rw [volume_bitmap]
      exact decide_eq_true ((by decide : 0 < sb.nmeta).trans_le hs.low)
    · simp only [Volume.spent, volume]
      decide
  exact (ensures_bmap_room hwithin (by decide) fbn).post fun _ _ _ => trivial

theorem ensures_blockFor (hs : Ready s) (howned : (s.volume inum din []).OwnedAt 0)
    (hused : (toNode din).type ≠ .none) {fbn : ℕ} (hfbn : fbn < maxfile)
    (hroom : (∀ t, E t) ∨ s.freeblock + (s.volume inum din []).mapCost 0 fbn ≤ fssize)
    {Q : RawNode × ℕ → Image → Prop}
    (hgood : ∀ din' t, Ready t → Kept s t →
      Mapped 0 fbn (s.volume inum din []) (t.volume inum din' []) →
      Q (din', (t.volume inum din' []).blockAt 0 fbn) t)
    (hfull : ∀ din' t, (∀ u, E u) → t.sectors = fssize → Q (din', fssize) t) :
    Ensures (blockFor din fbn) s Q E := by
  have hcore : ((s.volume inum din []).icache 0).node.type ≠ .none := by simpa using hused
  refine (blockFor_found hs howned hused hfbn hroom).post ?_
  rintro ⟨din', b⟩ t (⟨ht, hkept, hruns⟩ | ⟨hstop, rfl, ht⟩)
  · obtain ⟨l', hruns⟩ := hruns
    obtain ⟨_, _, hrun, rfl, rfl⟩ := hruns.total_of_disjoint (hs.bmap_room fbn)
      fun _ hfull hnot => hnot hfull
    have hbmap : Ensures (Vol.bmap 0 fbn) (s.volume inum din [])
        (fun x w => x = w.blockAt 0 fbn ∧ Mapped 0 fbn (s.volume inum din []) w) fun _ => True :=
      ensures_bmap howned hcore hfbn (.inl fun _ => trivial) fun w hw => ⟨rfl, hw⟩
    obtain ⟨hb, hmapped⟩ := hbmap.of_ok hrun
    have hmapped' := hmapped.unlogged
    rw [volume_unlogged, volume_unlogged] at hmapped'
    have hblock :
        (t.volume inum din' l').blockAt 0 fbn = (t.volume inum din' []).blockAt 0 fbn := by
      rw [← volume_unlogged (l := l')]
      rfl
    rw [hb, hblock]
    exact hgood din' t ht hkept hmapped'
  · exact hfull din' t hstop ht

/-! ## The loop of `iappend` -/

structure Tight (node : DiskNode) (data : ℕ → Block) (size : ℕ) : Prop where
  blocks : ∀ bn, node.blockAt data bn ≠ 0 → bn * bsize < size
  indirect : node.addrs (Fin.last ndirect) ≠ 0 → ndirect * bsize < size

/-- The state behind the first `tot` bytes; there are `total` blocks in use at the end. -/
structure Appended (src : ℕ → Byte) (off tot hi total : ℕ) (s₀ : Image) (v₀ : Volume Unit)
    (inum : ℕ) (din : RawNode) (s : Image) : Prop where
  ready : Ready s
  kept : Kept s₀ s
  written : WrittenTo 0 src off tot v₀ (s.volume inum din [])
  tight : Tight (RawNode.toNode din) s.data (off + tot)
  count : s.freeblock + (s.volume inum din []).need 0 ((off + tot) / bsize) hi = total

theorem used_of_type {v : Volume Unit} (hused : (v.icache 0).node.type ≠ .none)
    (htype : ((t.volume inum din' []).icache 0).node.type = (v.icache 0).node.type) :
    (toNode din').type ≠ .none := by
  rw [volume_core] at htype
  exact htype ▸ hused

theorem Mapped.freeblock {bn : ℕ} (hs : Ready s)
    (ht : Ready t) (hmapped : Mapped 0 bn (s.volume inum din []) (t.volume inum din' [])) :
    t.freeblock = s.freeblock + (s.volume inum din []).mapCost 0 bn := by
  have hcost := hmapped.cost
  rw [freeBlocks_volume, freeBlocks_volume] at hcost
  have hhigh := hs.high
  have hhigh' := ht.high
  omega

theorem Tight.mapped {o m : ℕ} (htight : Tight (toNode din) s.data o)
    (hmapped : Mapped 0 (o / bsize) (s.volume inum din []) (t.volume inum din' [])) (hpos : 0 < m) :
    Tight (toNode din') t.data (o + m) := by
  have hle := Nat.div_mul_le_self o bsize
  constructor
  · intro bn hbn
    by_cases hsame : bn = o / bsize
    · rw [hsame]
      omega
    · have hother := hmapped.others bn hsame
      rw [Volume.blockAt, Volume.blockAt, volume_core, volume_core, volume_data,
        volume_data] at hother
      have hlt := htight.blocks bn (hother ▸ hbn)
      omega
  · intro hlast
    have hindirect := hmapped.indirect
    rw [volume_core, volume_core] at hindirect
    rcases not_and_or.mp (mt hindirect.mpr hlast) with hold | hnew
    · have hlt := htight.indirect hold
      omega
    · have hge : ndirect * bsize ≤ o / bsize * bsize :=
        Nat.mul_le_mul_right _ (Nat.le_of_not_lt hnew)
      omega

theorem Appended.round {src : ℕ → Byte} {off tot hi total m : ℕ} {s₀ : Image} {v₀ : Volume Unit}
    (h : Appended src off tot hi total s₀ v₀ inum din s) (hused : (v₀.icache 0).node.type ≠ .none)
    (hlo : (off + tot) / bsize < hi) (ht : Ready t) (hkept : Kept s t)
    (hmapped : Mapped 0 ((off + tot) / bsize) (s.volume inum din []) (t.volume inum din' []))
    (hpos : 0 < m) (hm : m ≤ bsize - (off + tot) % bsize)
    (hb : b = (t.volume inum din' []).blockAt 0 ((off + tot) / bsize)) :
    Appended src off (tot + m) hi total s₀ v₀ inum din'
      (t.write b (patch (t.sector b) ((off + tot) % bsize) m fun k => src (tot + k))) := by
  have htused : (toNode din').type ≠ .none :=
    used_of_type hused (hmapped.maps.grows.frame.type.trans h.written.grows.frame.type)
  have hcore : ((t.volume inum din' []).icache 0).node.type ≠ .none := by simpa using htused
  obtain ⟨hlow, hlt⟩ := blockAt_given hmapped.maps.owned htused hmapped.mapped
  rw [← hb] at hlow hlt
  have hplace : place b < t.sectors := by
    rw [place_of_le (hlt.le.trans ht.high), ht.sectors]
    exact hlt.trans_le ht.high
  have hvolume : (t.write b (patch (t.sector b) ((off + tot) % bsize) m
      fun k => src (tot + k))).volume inum din' [] = ((t.volume inum din' []).patchAt b
        ((off + tot) % bsize) m fun k => src (tot + k)).unlogged := by
    rw [Volume.patchAt, volume_data, data_of_low hlow, ← volume_write hlow (hlt.le.trans ht.high)]
    exact volume_unlogged.symm
  have hblock : ∀ bn, ((t.volume inum din' []).patchAt b ((off + tot) % bsize) m
      fun k => src (tot + k)).unlogged.blockAt 0 bn = (t.volume inum din' []).blockAt 0 bn := by
    rw [hb]
    exact blockAt_patchAt hmapped.maps.owned hcore hmapped.mapped _ m _
  have hneed : ∀ lo, ((t.volume inum din' []).patchAt b ((off + tot) % bsize) m
      fun k => src (tot + k)).unlogged.need 0 lo hi = (t.volume inum din' []).need 0 lo hi := by
    intro lo
    rw [hb]
    exact need_patchAt hmapped.maps.owned hcore hmapped.mapped _ m _ lo hi
  have htight := Tight.mapped h.tight hmapped hpos
  constructor
  case ready => exact ht.write hlt _
  case kept => exact h.kept.trans (hkept.trans ⟨write_sectors hplace _, rfl, rfl⟩)
  case written =>
    rw [hvolume, hb]
    exact (h.written.round hused hmapped hpos hm).unlogged
  case tight =>
    refine ⟨fun bn hbn => ?_, fun hlast => ?_⟩
    · have hsame := hblock bn
      rw [← hvolume, Volume.blockAt, Volume.blockAt, volume_core, volume_core, volume_data,
        volume_data] at hsame
      have hlt' := htight.blocks bn (hsame ▸ hbn)
      omega
    · have hlt' := htight.indirect hlast
      omega
  case count =>
    have hfree := Mapped.freeblock h.ready ht hmapped
    have hrest := hmapped.need hlo
    have hcount := h.count
    rw [hvolume, hneed, ← Nat.add_assoc]
    change t.freeblock + _ = total
    rcases next_block hm with hnext | hnext
    · rw [hnext, need_of_mapped hlo hmapped.mapped]
      omega
    · rw [hnext]
      omega

theorem ensures_appendLoop {bytes : List Byte} {off hi total : ℕ} {s₀ : Image} {v₀ : Volume Unit}
    (hused : (v₀.icache 0).node.type ≠ .none) (hhi : off + bytes.length ≤ hi * bsize)
    (hroom : (∀ t, E t) ∨ (off + bytes.length ≤ maxfile * bsize ∧ total ≤ fssize))
    {Q : RawNode × ℕ → Image → Prop}
    (hQ : ∀ din t, Appended (bytes.getD · 0) off bytes.length hi total s₀ v₀ inum din t →
      (bytes = [] ∨ off + bytes.length ≤ maxfile * bsize) → Q (din, off + bytes.length) t)
    (fuel tot : ℕ) (s : Image) (din : RawNode) (hfuel : bytes.length - tot ≤ fuel)
    (htot : tot ≤ bytes.length) (hstart : tot = 0 ∨ off + tot ≤ maxfile * bsize)
    (h : Appended (bytes.getD · 0) off tot hi total s₀ v₀ inum din s) :
    Ensures (appendLoop fuel din (off + tot) (bytes.drop tot)) s Q E := by
  have hend : ∀ t din, Appended (bytes.getD · 0) off bytes.length hi total s₀ v₀ inum din t →
      bytes.length = 0 ∨ off + bytes.length ≤ maxfile * bsize →
      Q (din, off + bytes.length) t := by
    intro t din ht hlimit
    exact hQ din t ht (hlimit.imp_left List.length_eq_zero_iff.mp)
  induction fuel generalizing tot s din with
  | zero =>
    obtain rfl : tot = bytes.length := by omega
    rw [List.drop_length, appendLoop, ensures_pure]
    exact hend s din h hstart
  | succ fuel ih =>
    rcases htot.lt_or_eq with hmore | rfl
    · obtain ⟨b, rest, hdrop⟩ : ∃ b rest, bytes.drop tot = b :: rest :=
        List.exists_cons_of_ne_nil (by
          intro hnil
          have hle := List.drop_eq_nil_iff.mp hnil
          omega)
      have hlength : (bytes.drop tot).length = bytes.length - tot := List.length_drop
      rw [hdrop]
      simp only [appendLoop]
      rw [← hdrop, hlength]
      by_cases hfbn : (off + tot) / bsize < maxfile
      · rw [if_pos hfbn, ensures_bind]
        have hlo : (off + tot) / bsize < hi := Nat.div_lt_of_lt_mul (by
          rw [Nat.mul_comm]
          omega)
        have hsused : (toNode din).type ≠ .none := used_of_type hused h.written.grows.frame.type
        have hcost : s.freeblock + (s.volume inum din []).mapCost 0 ((off + tot) / bsize) ≤
            total := by
          have hle : (s.volume inum din []).mapCost 0 _ ≤ _ := mapCost_le_need hlo
          have hcount := h.count
          omega
        refine ensures_blockFor h.ready h.written.owned hsused hfbn
          (hroom.imp_right fun hroom => hcost.trans hroom.2) ?_ ?_
        · intro din' t ht hkept hmapped
          have htused : (toNode din').type ≠ .none :=
            used_of_type hused (hmapped.maps.grows.frame.type.trans h.written.grows.frame.type)
          obtain ⟨-, hlt⟩ := blockAt_given hmapped.maps.owned htused hmapped.mapped
          have hstart' : off + tot - (off + tot) / bsize * bsize = (off + tot) % bsize := by
            simp only [bsize]
            omega
          have hwidth : ((off + tot) / bsize + 1) * bsize - (off + tot) =
              bsize - (off + tot) % bsize := by
            simp only [bsize]
            omega
          have hsrc : (fun k => (bytes.drop tot).getD k 0) = fun k => bytes.getD (tot + k) 0 := by
            funext k
            simp [List.getD_eq_getElem?_getD]
          have hpos : 0 < min (bytes.length - tot) (bsize - (off + tot) % bsize) := by
            have hmod : (off + tot) % bsize < bsize := Nat.mod_lt _ (by decide)
            omega
          simp only [hstart', hwidth, hsrc, ensures_bind, List.drop_drop, wsect]
          refine ensures_rsect_of_lt ht.sectors (hlt.trans_le ht.high) ?_
          rw [ensures_modify, Nat.add_assoc]
          generalize hm : min (bytes.length - tot) (bsize - (off + tot) % bsize) = m at hpos
          have hround := h.round hused hlo ht hkept hmapped hpos (by omega) rfl
          refine ih (tot + m) _ din' (by omega) (by omega) (.inr ?_) hround
          have hle : ((off + tot) / bsize + 1) * bsize ≤ maxfile * bsize :=
            Nat.mul_le_mul_right _ hfbn
          have hsplit : off + (tot + m) ≤ ((off + tot) / bsize + 1) * bsize := by omega
          exact hsplit.trans hle
        · intro din' t hstop ht
          rw [ensures_bind]
          refine ensures_rsect hstop fun hlt => ?_
          rw [place_of_le (le_refl _), ht] at hlt
          exact (lt_irrefl _ hlt).elim
      · rw [if_neg hfbn, ensures_throw]
        refine hroom.resolve_right (fun hroom => hfbn ?_) s
        exact Nat.div_lt_of_lt_mul (by
          rw [Nat.mul_comm]
          exact (Nat.add_lt_add_left hmore off).trans_le hroom.1)
    · rw [List.drop_length, appendLoop, ensures_pure]
      exact hend s din h hstart

end View

end Xv6Kernel.Mkfs
