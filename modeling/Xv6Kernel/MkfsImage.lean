import Xv6Kernel.MkfsBlocks

/-!
# The image that `mkfs` writes

As long as there is space for the inodes, the image holds the files: each inode has its bytes,
the blocks for them and no others, and the blocks that are in use are counted by the sizes.
-/

namespace Xv6Kernel.Mkfs

open StateHoare WordBytes Function RawNode List Image

section View

variable {s t u : Image} {inum : ℕ} {din : RawNode} {E : Image → Prop}

def cost (size : ℕ) : ℕ := blocksFor size + if ndirect < blocksFor size then 1 else 0

theorem need_add_cost {v : Volume Unit} {size lo hi : ℕ}
    (hmap : ∀ bn, bn * bsize < size → v.blockAt 0 bn ≠ 0)
    (htight : Tight (v.icache 0).node v.data size) (hlo : lo ≤ blocksFor size)
    (hhi : blocksFor size ≤ hi) :
    v.need 0 lo hi + cost size = hi + if ndirect < hi then 1 else 0 := by
  have hbelow : ∀ bn, bn * bsize < size ↔ bn < blocksFor size := by
    intro bn
    simp only [blocksFor, bsize]
    omega
  have hsum : ∑ bn ∈ Finset.Ico lo hi, (if v.blockAt 0 bn = 0 then 1 else 0) =
      hi - blocksFor size := by
    rw [← Finset.sum_Ico_consecutive _ hlo hhi]
    have hfirst : ∑ bn ∈ Finset.Ico lo (blocksFor size), (if v.blockAt 0 bn = 0 then 1 else 0) =
        0 := by
      apply Finset.sum_eq_zero
      intro bn hbn
      exact if_neg (hmap bn ((hbelow bn).mpr (Finset.mem_Ico.mp hbn).2))
    have hsecond : ∑ bn ∈ Finset.Ico (blocksFor size) hi, (if v.blockAt 0 bn = 0 then 1 else 0) =
        ∑ bn ∈ Finset.Ico (blocksFor size) hi, 1 := by
      apply Finset.sum_congr rfl
      intro bn hbn
      apply if_pos
      by_contra hne
      have hlt := (hbelow bn).mp (htight.blocks bn hne)
      have hge := (Finset.mem_Ico.mp hbn).1
      omega
    rw [hfirst, hsecond, Finset.sum_const, Nat.card_Ico, smul_eq_mul, Nat.zero_add, Nat.mul_one]
  have hlast : (v.icache 0).node.addrs (Fin.last ndirect) = 0 ↔ ¬ ndirect < blocksFor size := by
    constructor
    · intro hzero hlt
      exact indirect_of_blockAt (hmap ndirect ((hbelow _).mpr hlt)) (le_refl _) hzero
    · intro hge
      by_contra hne
      exact hge ((hbelow _).mp (htight.indirect hne))
  rw [Volume.need, hsum, cost]
  split_ifs <;> omega

abbrev inodeSpace : ℕ := ipb * (ninodes / ipb + 1)

theorem iblock_lt {i : ℕ} : sb.iblock i < sb.bmapstart ↔ i < inodeSpace := by
  have hspace : inodeSpace = 208 := rfl
  have hstart : sb.inodestart = 32 := rfl
  have hmap : sb.bmapstart = 58 := rfl
  rw [Superblock.iblock, hstart, hmap, hspace]
  simp only [ipb]
  omega

theorem nodeIn_putNode (buf : Block) (i inum : ℕ) (node : RawNode) :
    nodeIn (putNode buf inum node) i = if i % ipb = inum % ipb then node else nodeIn buf i := by
  funext j
  have hdiv : (16 * (i % ipb) + j.val) / 16 = i % ipb := by omega
  have hmod : (16 * (i % ipb) + j.val) % 16 = j.val := by omega
  simp only [nodeIn, putNode, hdiv, hmod]
  split_ifs
  · rfl
  · rfl

/-- The image behind `winode`. -/
structure NodeWritten (inum : ℕ) (node : RawNode) (s t : Image) : Prop where
  table : t.table = Function.update s.table inum (RawNode.toNode node)
  data : t.data = s.data
  node : t.node inum = node
  ready : Ready s → Ready t
  freeblock : t.freeblock = s.freeblock
  freeinode : t.freeinode = s.freeinode

theorem ensures_winode (hs : s.sectors = fssize) (hinum : inum < inodeSpace) (node : RawNode) :
    Ensures (winode inum node) s (fun _ t => NodeWritten inum node s t) E := by
  have hblock := iblock_lt.mpr hinum
  have hmeta : sb.bmapstart < sb.nmeta := by decide
  have hsize : sb.nmeta ≤ fssize := by decide
  have hplace : place (sb.iblock inum) = sb.iblock inum := place_of_le (by omega)
  simp only [winode, ensures_bind]
  refine ensures_rsect_of_lt hs (by omega) ?_
  simp only [wsect, ensures_modify, write, hplace]
  have hnode : ∀ i, nodeIn (update s.sector (sb.iblock inum)
      (putNode (s.sector (sb.iblock inum)) inum node) (sb.iblock i)) i =
      if i = inum then node else s.node i := by
    intro i
    by_cases hsame : sb.iblock i = sb.iblock inum
    · rw [hsame, update_self, nodeIn_putNode, Image.node, hsame]
      simp only [Superblock.iblock, ipb] at hsame ⊢
      split_ifs <;> first | rfl | omega
    · rw [update_of_ne hsame, if_neg (fun h => hsame (by rw [h])), Image.node]
  constructor
  case table =>
    funext i
    by_cases hi : i = inum
    · rw [hi, update_self, table, if_pos hblock]
      exact congrArg toNode ((hnode inum).trans (if_pos rfl))
    · rw [update_of_ne hi, table, table]
      split
      · exact congrArg toNode ((hnode i).trans (if_neg hi))
      · rfl
  case data =>
    funext b
    rw [data, data]
    split
    · rfl
    · exact update_of_ne (by omega) ..
  case node => exact (hnode inum).trans (if_pos rfl)
  case ready =>
    intro hready
    refine ⟨?_, hready.low, hready.high, fun b hb => ?_⟩
    · change max s.sectors (sb.iblock inum + 1) = fssize
      omega
    · have hlow := hready.low
      change s.freeblock ≤ b at hb
      exact (update_of_ne (by omega) ..).trans (hready.zero b hb)
  case freeblock => rfl
  case freeinode => rfl

/-! ## What the image holds -/

/-- The inode has these bytes, and the blocks for them and no others. -/
structure StoredAs (bytes : List Byte) (node : DiskNode) (data : ℕ → Block) : Prop where
  kind : node.HasBytes
  noHoles : node.NoHoles data
  tight : Tight node data bytes.length
  content : node.content data = bytes

theorem StoredAs.size {bytes : List Byte} {node : DiskNode} {data : ℕ → Block}
    (h : StoredAs bytes node data) : node.size.toNat = bytes.length := by
  rw [← h.content, DiskNode.content, length_map, length_range]

def total (files : ℕ → List Byte) (count : ℕ) : ℕ :=
  sb.nmeta + ∑ i ∈ Finset.Ico 1 count, cost (files i).length

structure Holds (files : ℕ → List Byte) (s : Image) : Prop where
  ready : Ready s
  space : s.freeinode ≤ inodeSpace
  owned : BlocksOwned sb s.table s.used s.data
  stored : ∀ i, 1 ≤ i → i < s.freeinode → StoredAs (files i) (s.table i) s.data
  unused : ∀ i, i = 0 ∨ s.freeinode ≤ i → s.table i = RawNode.toNode fun _ => 0
  blocks : s.freeblock = total files s.freeinode

variable {files : ℕ → List Byte}

theorem StoredAs.other {bytes : List Byte} {v w : Volume Unit} {x : ℕ}
    (h : StoredAs bytes (v.dinode x) v.data)
    (hapart : Apart 0 v w) (hx : x ≠ (v.icache 0).inum) : StoredAs bytes (w.dinode x) w.data := by
  have hblock := hapart.blockAt hx h.kind.used
  have hdinode := hapart.dinode x hx
  constructor
  case kind => rw [hdinode]; exact h.kind
  case noHoles =>
    intro bn hbn
    rw [hblock]
    rw [hdinode] at hbn
    exact h.noHoles bn hbn
  case tight =>
    refine ⟨fun bn hbn => ?_, fun hlast => ?_⟩
    · rw [hblock] at hbn
      exact h.tight.blocks bn hbn
    · rw [hdinode] at hlast
      exact h.tight.indirect hlast
  case content => exact (hapart.content_other hx h.kind.used h.noHoles).trans h.content

theorem total_update {inum : ℕ} {count : ℕ} (hpos : 1 ≤ inum) (hlt : inum < count)
    (bytes : List Byte) :
    total (update files inum bytes) count + cost (files inum).length =
      total files count + cost bytes.length := by
  have hmem : inum ∈ Finset.Ico 1 count := Finset.mem_Ico.mpr ⟨hpos, hlt⟩
  have hrest : ∑ i ∈ (Finset.Ico 1 count).erase inum,
      cost (update files inum bytes i).length =
      ∑ i ∈ (Finset.Ico 1 count).erase inum, cost (files i).length := by
    apply Finset.sum_congr rfl
    intro i hi
    rw [update_of_ne (Finset.ne_of_mem_erase hi)]
  rw [total, total, ← Finset.add_sum_erase _ _ hmem, ← Finset.add_sum_erase _ _ hmem, hrest,
    update_self]
  omega

theorem toNode_setSize (din : RawNode) (size : ℕ) : toNode (setSize din size) =
    { toNode din with size := BitVec.ofNat 32 size } := by
  have haddr : addr (setSize din size) = addr din := by
    funext i
    rw [addr, setSize, update_of_ne]
    · rfl
    · intro heq
      have hval := congrArg Fin.val heq
      rw [Fin.val_natAdd] at hval
      change 3 + i.val = 2 at hval
      omega
  rw [toNode, haddr]
  rfl

theorem volume_resize (size : ℕ) : (s.volume inum din []).resize 0 (BitVec.ofNat 32 size) =
    s.volume inum (setSize din size) [] := by
  simp only [Volume.resize, Volume.setNode, Volume.setCore, volume_core, ← toNode_setSize]
  simp only [volume, update_idem]

theorem volume_update (ht : NodeWritten inum din s t) :
    ((s.volume inum din []).update 0).unlogged = t.volume inum din [] := by
  have hused : t.used = s.used := by
    funext b
    rw [used, used, ht.freeblock]
  simp only [Volume.update, volume_core, volume_dinode, volume_sb, ← ht.table]
  simp only [volume, Volume.record, Volume.unlogged, ht.data, hused]

theorem table_volume (hinum : inum < inodeSpace) (hnode : t.node inum = din) :
    (t.volume inum din []).table 0 = t.table := by
  have hself : t.table inum = toNode din := by
    rw [table, if_pos (iblock_lt.mpr hinum), hnode]
  rw [Volume.table, volume_core, volume_dinode, ← hself, update_eq_self]

theorem Holds.ownedAt (h : Holds files s) (hinum : inum < inodeSpace) :
    (s.volume inum (s.node inum) []).OwnedAt 0 := by
  rw [Volume.OwnedAt, table_volume hinum rfl, volume_sb, volume_bitmap, volume_data]
  exact h.owned

theorem Holds.table_eq (h : Holds files s) (hlt : inum < s.freeinode) :
    s.table inum = toNode (s.node inum) := by
  rw [table, if_pos (iblock_lt.mpr (hlt.trans_le h.space))]

theorem map_getD (bytes : List Byte) : (range bytes.length).map (bytes.getD · 0) = bytes := by
  apply ext_getElem
  · simp
  · intro k _ hk
    simp [getD_eq_getElem?_getD, getElem?_eq_getElem hk]

theorem StoredAs.appended {added : List Byte} {total hi : ℕ}
    (h : StoredAs bytes (toNode (s.node inum)) s.data)
    (ht : Appended (added.getD · 0) bytes.length added.length hi total s
      (s.volume inum (s.node inum) []) inum din t)
    (hu : NodeWritten inum (setSize din (bytes.length + added.length)) t u)
    (hw : Rewritten 0 (added.getD · 0) bytes.length added.length (s.volume inum (s.node inum) [])
      (u.volume inum (setSize din (bytes.length + added.length)) [])) :
    StoredAs (bytes ++ added) (u.table inum) u.data := by
  have hself : u.table inum = toNode (setSize din
      (bytes.length + added.length)) := by
    rw [hu.table, update_self]
  rw [hself]
  constructor
  case kind =>
    obtain ⟨size, addrs, hcore⟩ := hw.apart.core
    rw [volume_core, volume_core] at hcore
    have htype := congrArg (fun core => core.node.type) hcore
    change (toNode _).type = (toNode (s.node inum)).type at htype
    rw [DiskNode.HasBytes, htype]
    exact h.kind
  case noHoles =>
    have hholes := hw.noHoles
    rwa [volume_core, volume_data] at hholes
  case tight =>
    have haddrs : (toNode (setSize din (bytes.length + added.length))).addrs =
        (toNode din).addrs := by
      rw [toNode_setSize]
    rw [hu.data, length_append]
    refine ⟨fun bn hbn => ?_, fun hlast => ?_⟩
    · rw [blockAt_of_addrs haddrs] at hbn
      exact ht.tight.blocks bn hbn
    · rw [haddrs] at hlast
      exact ht.tight.indirect hlast
  case content =>
    have hcontent := hw.content
    rw [volume_core, volume_data, volume_core, volume_data, map_getD] at hcontent
    change DiskNode.content _ u.data = replaceAt (DiskNode.content _ s.data) _ _ at hcontent
    rw [hcontent, h.content, replaceAt, take_length,
      drop_eq_nil_of_le (Nat.le_add_right _ _), append_nil]

theorem Holds.appended {bytes : List Byte} (h : Holds files s) (hpos : 1 ≤ inum)
    (hlt : inum < s.freeinode) (hne : bytes ≠ [])
    (hlimit : (files inum).length + bytes.length ≤ maxfile * bsize)
    (ht : Appended (bytes.getD · 0) (files inum).length bytes.length
      (blocksFor ((files inum).length + bytes.length))
      (total (update files inum (files inum ++ bytes)) s.freeinode) s
      (s.volume inum (s.node inum) []) inum din t)
    (hu : NodeWritten inum (setSize din ((files inum).length + bytes.length)) t u) :
    Holds (update files inum (files inum ++ bytes)) u ∧ u.freeinode = s.freeinode := by
  have hspace : inum < inodeSpace := hlt.trans_le h.space
  have hstored := h.stored inum hpos hlt
  rw [h.table_eq hlt] at hstored
  have hfree : u.freeinode = s.freeinode := hu.freeinode.trans ht.kept.freeinode
  have hcore : ((s.volume inum (s.node inum) []).icache 0).node = toNode (s.node inum) := by
    rw [volume_core]
  have hw : Rewritten 0 (bytes.getD · 0) (files inum).length bytes.length
      (s.volume inum (s.node inum) []) (u.volume inum
        (setSize din ((files inum).length + bytes.length)) []) := by
    have hnew : (BitVec.ofNat 32 ((files inum).length + bytes.length)).toNat =
        (files inum).length + bytes.length := by
      have hmax : maxfile * bsize = 71680 := rfl
      rw [BitVec.toNat_ofNat, Nat.mod_eq_of_lt (by omega)]
    have hpos' := length_pos_iff.mpr hne
    rw [← volume_update hu, ← volume_resize]
    refine (ht.written.rewritten_resize ?_ ?_ ?_ hnew ?_).unlogged
    · rw [hcore]
      exact hstored.kind.used
    · rw [hcore, volume_data]
      exact hstored.noHoles
    · rw [hcore, hstored.size]
    · rw [hcore, hstored.size]
      omega
  have hother : ∀ i, i ≠ inum → u.table i = s.table i := by
    intro i hi
    have hdinode := hw.apart.dinode i (by rwa [volume_core])
    rwa [volume_dinode, volume_dinode] at hdinode
  refine ⟨?_, hfree⟩
  constructor
  case ready => exact hu.ready ht.ready
  case space => exact hfree.trans_le h.space
  case owned =>
    have howned := hw.owned
    rwa [Volume.OwnedAt, table_volume hspace hu.node, volume_sb, volume_bitmap, volume_data]
      at howned
  case stored =>
    intro i hi hi'
    by_cases hsame : i = inum
    · subst hsame
      rw [update_self]
      exact hstored.appended ht hu hw
    · rw [update_of_ne hsame]
      have hold := h.stored i hi (hi'.trans_eq hfree)
      have hnew := StoredAs.other (v := s.volume inum (s.node inum) []) (x := i)
        (by rwa [volume_dinode, volume_data]) hw.apart (by rwa [volume_core])
      rwa [volume_dinode, volume_data] at hnew
  case unused =>
    intro i hi
    rw [hfree] at hi
    rw [hother i (by omega)]
    exact h.unused i hi
  case blocks =>
    have hmap : ∀ bn, bn * bsize < (files inum).length + bytes.length →
        (t.volume inum din []).blockAt 0 bn ≠ 0 := ht.written.mapped
    have htight : Tight ((t.volume inum din []).icache 0).node (t.volume inum din []).data
        ((files inum).length + bytes.length) := by
      rw [volume_core, volume_data]
      exact ht.tight
    have hdone := need_add_cost hmap htight (Nat.div_le_div_right (Nat.le_add_right _ _))
      (le_refl _)
    have hcount := ht.count
    have hcost : cost ((files inum).length + bytes.length) = _ + _ := rfl
    rw [hfree, hu.freeblock]
    omega

theorem ensures_iappend {bytes : List Byte} (h : Holds files s) (hpos : 1 ≤ inum)
    (hlt : inum < s.freeinode)
    (hne : bytes ≠ [])
    (hroom : (∀ t, E t) ∨ ((files inum ++ bytes).length ≤ maxfile * bsize ∧
      total (update files inum (files inum ++ bytes)) s.freeinode ≤ fssize)) :
    Ensures (iappend inum bytes) s (fun _ t =>
      Holds (update files inum (files inum ++ bytes)) t ∧ t.freeinode = s.freeinode)
      E := by
  have hspace : inum < inodeSpace := hlt.trans_le h.space
  have hstored := h.stored inum hpos hlt
  rw [h.table_eq hlt] at hstored
  have hsize : size (s.node inum) = (files inum).length := hstored.size
  have hblock : sb.iblock inum < fssize := (iblock_lt.mpr hspace).trans (by decide)
  have hcore : ((s.volume inum (s.node inum) []).icache 0).node = toNode (s.node inum) := by
    rw [volume_core]
  have hused : ((s.volume inum (s.node inum) []).icache 0).node.type ≠ .none := by
    rw [hcore]
    exact hstored.kind.used
  have hmap : ∀ bn, bn * bsize < (files inum).length →
      (s.volume inum (s.node inum) []).blockAt 0 bn ≠ 0 := by
    intro bn hbn
    rw [Volume.blockAt, hcore, volume_data]
    exact hstored.noHoles bn (hbn.trans_eq hstored.size.symm)
  have htight : Tight ((s.volume inum (s.node inum) []).icache 0).node
      (s.volume inum (s.node inum) []).data (files inum).length := by
    rw [hcore, volume_data]
    exact hstored.tight
  have hmono : blocksFor (files inum).length ≤ blocksFor ((files inum).length + bytes.length) := by
    simp only [blocksFor]
    exact Nat.div_le_div_right (by omega)
  have hlow : (files inum).length / bsize ≤ blocksFor (files inum).length :=
    Nat.div_le_div_right (Nat.le_add_right _ _)
  have hcount := need_add_cost hmap htight hlow hmono
  have htotal : total (update files inum (files inum ++ bytes)) s.freeinode + _ = _ :=
    total_update hpos hlt (files inum ++ bytes)
  rw [length_append] at htotal hroom
  have hstart : Appended (bytes.getD · 0) (files inum).length 0
      (blocksFor ((files inum).length + bytes.length))
      (total (update files inum (files inum ++ bytes)) s.freeinode) s
      (s.volume inum (s.node inum) []) inum (s.node inum) s := by
    refine ⟨h.ready, Kept.refl s, writtenTo_zero (h.ownedAt hspace) _ hmap, hstored.tight, ?_⟩
    have hblocks := h.blocks
    have hnew : cost ((files inum).length + bytes.length) = _ + _ := rfl
    rw [Nat.add_zero]
    omega
  simp only [iappend, rinode, ensures_bind]
  refine ensures_rsect_of_lt h.ready.sectors hblock ?_
  rw [ensures_pure]
  change Ensures (appendLoop bytes.length (s.node inum) (size (s.node inum)) bytes) s _ E
  rw [hsize]
  refine ensures_appendLoop hused (le_blocksFor _) hroom ?_ bytes.length 0 s _ (Nat.sub_le _ _)
    (Nat.zero_le _) (.inl rfl) hstart
  intro din t ht hlimit
  refine (ensures_winode ht.ready.sectors hspace _).post fun _ u hu => ?_
  exact h.appended hpos hlt hne (hlimit.resolve_left hne) ht hu

theorem Holds.congr {files' : ℕ → List Byte} (h : Holds files s)
    (heq : ∀ i, 1 ≤ i → i < s.freeinode → files i = files' i) : Holds files' s := by
  refine ⟨h.ready, h.space, h.owned, ?_, h.unused, ?_⟩
  · intro i hi hlt
    rw [← heq i hi hlt]
    exact h.stored i hi hlt
  · rw [h.blocks, total, total, Nat.add_left_cancel_iff]
    apply Finset.sum_congr rfl
    intro i hi
    have hi' := Finset.mem_Ico.mp hi
    rw [heq i hi'.1 hi'.2]

theorem numberAt_empty (node : DiskNode) (hempty : node.addrs = fun _ => 0) (data : ℕ → Block)
    (spot : Spot) : node.numberAt data spot = 0 := by
  cases spot with
  | inl i => simp only [DiskNode.numberAt, hempty]
  | inr j => simp only [DiskNode.numberAt, hempty, if_true]

theorem blockAt_empty (node : DiskNode) (hempty : node.addrs = fun _ => 0) (data : ℕ → Block)
    (bn : ℕ) : node.blockAt data bn = 0 := by
  rw [DiskNode.blockAt]
  cases spotOf bn with
  | none => rfl
  | some spot => exact numberAt_empty node hempty data spot

/-- A new inode is a directory or a file without blocks. -/
structure NewNode (type : BitVec 32) : Prop where
  kind : (RawNode.toNode (newNode type)).HasBytes
  size : (RawNode.toNode (newNode type)).size = 0
  addrs : (RawNode.toNode (newNode type)).addrs = fun _ => 0

theorem newNode_of_kind {type : BitVec 32} (htype : type = 1 ∨ type = 2) : NewNode type := by
  refine ⟨?_, rfl, ?_⟩
  · rcases htype with rfl | rfl
    · exact .inr rfl
    · exact .inl rfl
  · funext i
    have hne : ∀ k : Fin 16, k.val < 3 → (i.natAdd 3 : Fin 16) ≠ k := by
      intro k hk heq
      have hval := congrArg Fin.val heq
      rw [Fin.val_natAdd] at hval
      omega
    change addr _ i = 0
    rw [addr, newNode, if_neg (hne 0 (by decide)), if_neg (hne 1 (by decide))]
    rfl

theorem StoredAs.new {type : BitVec 32} (h : NewNode type) (data : ℕ → Block) :
    StoredAs [] (toNode (newNode type)) data := by
  constructor
  case kind => exact h.kind
  case noHoles =>
    intro bn hbn
    rw [h.size] at hbn
    exact absurd hbn (Nat.not_lt_zero _)
  case tight =>
    refine ⟨fun bn hbn => ?_, fun hlast => ?_⟩
    · exact absurd (blockAt_empty _ h.addrs data bn) hbn
    · rw [h.addrs] at hlast
      exact absurd rfl hlast
  case content =>
    rw [DiskNode.content, h.size]
    rfl

theorem ensures_ialloc (h : Holds files s) (hone : 1 ≤ s.freeinode)
    (hspace : s.freeinode < inodeSpace) {type : BitVec 32} (htype : type = 1 ∨ type = 2) :
    Ensures (ialloc type) s (fun i t => i = s.freeinode ∧
      Holds (update files s.freeinode []) t ∧ t.freeinode = s.freeinode + 1) E := by
  have hnew := newNode_of_kind htype
  simp only [ialloc, ensures_bind, ensures_get, ensures_modify]
  refine (ensures_winode (s := { s with freeinode := s.freeinode + 1 }) h.ready.sectors hspace
    (newNode type)).post fun _ t ht => ?_
  rw [ensures_pure]
  have hold : (s.table s.freeinode).type = .none := by
    rw [h.unused _ (.inr (le_refl _))]
    rfl
  have htable : t.table = update s.table s.freeinode (toNode (newNode type)) := ht.table
  have hdata : t.data = s.data := ht.data
  have hfree : t.freeinode = s.freeinode + 1 := ht.freeinode
  have hblocks : t.freeblock = s.freeblock := ht.freeblock
  have hother : ∀ i, i ≠ s.freeinode → t.table i = s.table i := by
    intro i hi
    rw [htable, update_of_ne hi]
  have hnumber : numberIn t.table t.data = numberIn s.table s.data := by
    funext place
    obtain ⟨i, spot⟩ := place
    by_cases hi : i = s.freeinode
    · subst hi
      rw [numberIn, numberIn, if_pos hold, htable, update_self,
        numberAt_empty _ hnew.addrs, ite_self]
    · rw [numberIn, numberIn, hother i hi, hdata]
  have hused : t.used = s.used := by
    funext b
    rw [used, used, hblocks]
  refine ⟨rfl, ?_, hfree⟩
  constructor
  case ready => exact ht.ready ⟨h.ready.sectors, h.ready.low, h.ready.high, h.ready.zero⟩
  case space =>
    rw [hfree]
    exact hspace
  case owned =>
    refine ⟨?_, ?_⟩
    · rw [hnumber, hused]
      exact h.owned.exact
    · rw [hused]
      exact h.owned.reserved
  case stored =>
    intro i hi hlt
    by_cases hsame : i = s.freeinode
    · rw [hsame, update_self, htable, update_self]
      exact StoredAs.new hnew _
    · rw [update_of_ne hsame, hother i hsame, hdata]
      exact h.stored i hi (by omega)
  case unused =>
    intro i hi
    rw [hother i (by omega)]
    exact h.unused i (by omega)
  case blocks =>
    have hsum : ∑ i ∈ Finset.Ico 1 s.freeinode,
        cost (update files s.freeinode [] i).length =
        ∑ i ∈ Finset.Ico 1 s.freeinode, cost (files i).length := by
      apply Finset.sum_congr rfl
      intro i hi
      rw [update_of_ne (Finset.mem_Ico.mp hi).2.ne]
    rw [hfree, hblocks, h.blocks, total, total, Finset.sum_Ico_succ_top hone, hsum, update_self]
    rfl

/-! ## The files in the image -/

def InputFile.bytes (file : InputFile) : List Byte := file.reads.flatten

def rootBytes (files : List InputFile) : List Byte :=
  dirent rootino [46] ++ dirent rootino [46, 46] ++
    (files.mapIdx fun j file => dirent (j + 2) file.target).flatten

def contentOf (files : List InputFile) (i : ℕ) : List Byte :=
  if i = rootino then rootBytes files else (files[i - 2]?).elim [] InputFile.bytes

theorem length_dirent (i : ℕ) (name : List Byte) : (dirent i name).length = 16 := by
  simp [dirent]

theorem rootBytes_append (files : List InputFile) (file : InputFile) :
    rootBytes (files ++ [file]) = rootBytes files ++ dirent (files.length + 2) file.target := by
  simp [rootBytes, mapIdx_append]

theorem length_rootBytes (files : List InputFile) :
    (rootBytes files).length = 16 * (files.length + 2) := by
  induction files using reverseRecOn with
  | nil => simp [rootBytes, length_dirent]
  | append_singleton files file ih =>
    rw [rootBytes_append, length_append, ih, length_dirent, length_append, length_singleton]
    omega

theorem contentOf_append {files rest : List InputFile} {i : ℕ} (hi : 2 ≤ i)
    (hlt : i < files.length + 2) : contentOf (files ++ rest) i = contentOf files i := by
  have hne : i ≠ rootino := by
    rintro rfl
    exact absurd hi (by decide)
  rw [contentOf, contentOf, if_neg hne, if_neg hne, getElem?_append_left (by omega)]

theorem contentOf_last (files : List InputFile) (file : InputFile) :
    contentOf (files ++ [file]) (files.length + 2) = file.bytes := by
  have hne : files.length + 2 ≠ rootino := by
    change files.length + 2 ≠ 1
    omega
  rw [contentOf, if_neg hne, Nat.add_sub_cancel, getElem?_append_right (le_refl _), Nat.sub_self]
  rfl

theorem cost_mono {m n : ℕ} (hle : m ≤ n) : cost m ≤ cost n := by
  have hblocks : blocksFor m ≤ blocksFor n := Nat.div_le_div_right (by omega)
  rw [cost, cost]
  split_ifs <;> omega

theorem total_mono {files files' : ℕ → List Byte} {count count' : ℕ} (hle : count ≤ count')
    (hfiles : ∀ i, 1 ≤ i → i < count → (files i).length ≤ (files' i).length) :
    total files count ≤ total files' count' := by
  have hsubset : Finset.Ico 1 count ⊆ Finset.Ico 1 count' := Finset.Ico_subset_Ico_right hle
  apply Nat.add_le_add_left
  calc ∑ i ∈ Finset.Ico 1 count, cost (files i).length
      ≤ ∑ i ∈ Finset.Ico 1 count, cost (files' i).length := by
        apply Finset.sum_le_sum
        intro i hi
        have hi' := Finset.mem_Ico.mp hi
        exact cost_mono (hfiles i hi'.1 hi'.2)
    _ ≤ ∑ i ∈ Finset.Ico 1 count', cost (files' i).length :=
        Finset.sum_le_sum_of_subset hsubset

/-- The files can be opened and do not get too long, and there are blocks enough. -/
structure Fits (files : List InputFile) : Prop where
  names : ∀ file ∈ files, slash ∉ file.name
  opens : ∀ file ∈ files, file.opens = true
  sizes : ∀ file ∈ files, file.bytes.length ≤ maxfile * bsize
  blocks : total (contentOf files) (files.length + 2) ≤ fssize

variable {done rest : List InputFile} {file : InputFile} {i : ℕ}

theorem contentOf_le (hi : 1 ≤ i)
    (hlt : i < done.length + 3) : (contentOf (done ++ [file]) i).length ≤
      (contentOf (done ++ file :: rest) i).length := by
  rcases hi.eq_or_lt with rfl | hi
  · change (rootBytes _).length ≤ (rootBytes _).length
    simp only [length_rootBytes, length_append, length_cons, length_nil]
    omega
  · have hsplit : done ++ file :: rest = (done ++ [file]) ++ rest := by simp
    have hlt' : i < (done ++ [file]).length + 2 := by
      rw [length_append, length_singleton]
      omega
    rw [hsplit, contentOf_append hi hlt']

/-- The inodes while a file is added, with the bytes of it that are there. -/
def contentWith (done : List InputFile) (file : InputFile) (bytes : List Byte) : ℕ → List Byte :=
  Function.update (contentOf (done ++ [file])) (done.length + 2) bytes

theorem contentWith_bytes (done : List InputFile) (file : InputFile) :
    contentWith done file file.bytes = contentOf (done ++ [file]) := by
  rw [contentWith, ← contentOf_last done file, update_eq_self]

theorem contentWith_start (hi : 1 ≤ i) (hlt : i < done.length + 3) :
    update (update (contentOf done) (done.length + 2) []) rootino
      (rootBytes done ++ dirent (done.length + 2) file.target) i =
      contentWith done file [] i := by
  have hroot : rootino = 1 := rfl
  by_cases hfirst : i = rootino
  · rw [hfirst, update_self, contentWith, update_of_ne (by omega), contentOf,
      if_pos rfl, rootBytes_append]
  · rw [update_of_ne hfirst, contentWith]
    by_cases hlast : i = done.length + 2
    · rw [hlast, update_self, update_self]
    · rw [update_of_ne hlast, update_of_ne hlast, contentOf_append (by omega) (by omega)]

theorem Fits.contentWith
    (h : Fits (done ++ file :: rest)) (bytes : List Byte) (hle : bytes.length ≤ file.bytes.length) :
    total (contentWith done file bytes) (done.length + 3) ≤ fssize := by
  refine le_trans (total_mono ?_ ?_) h.blocks
  · simp only [length_append, length_cons]
    omega
  · intro i hi hlt
    by_cases hlast : i = done.length + 2
    · have hbytes : _ ≤ (contentOf (done ++ file :: rest) i).length := contentOf_le hi hlt
      rw [hlast, contentOf_last] at hbytes
      rw [Mkfs.contentWith, hlast, update_self]
      exact hle.trans hbytes
    · rw [Mkfs.contentWith, update_of_ne hlast]
      exact contentOf_le hi hlt

theorem ensures_addFile (h : Holds (contentOf done) s) (hfree : s.freeinode = done.length + 2)
    (hspace : done.length + 2 < inodeSpace) (hroom : (∀ t, E t) ∨ Fits (done ++ file :: rest)) :
    Ensures (addFile rootino file) s (fun _ t =>
      Holds (contentOf (done ++ [file])) t ∧ t.freeinode = done.length + 3) E := by
  have hmem : file ∈ done ++ file :: rest := by simp
  have hroot : rootino = 1 := rfl
  have hbase : inodeSpace = 208 := rfl
  have hmax : maxfile * bsize = 71680 := rfl
  unfold addFile
  by_cases hslash : slash ∈ file.name
  · rw [if_pos hslash, ensures_throw]
    exact hroom.resolve_right (fun hfits => hfits.names file hmem hslash) s
  rw [if_neg hslash]
  by_cases hopens : file.opens = true
  swap
  · rw [if_neg hopens, ensures_throw]
    exact hroom.resolve_right (fun hfits => hopens (hfits.opens file hmem)) s
  simp only [if_pos hopens, ensures_bind]
  refine (ensures_ialloc h (by omega) (by omega) (.inr rfl)).post ?_
  rintro i t ⟨rfl, ht, htfree⟩
  rw [hfree] at ht htfree ⊢
  have hrootBytes : update (contentOf done) (done.length + 2) [] rootino =
      rootBytes done := by
    rw [update_of_ne (by omega), contentOf, if_pos rfl]
  have hentry : dirent (done.length + 2) file.target ≠ [] := by
    apply ne_nil_of_length_pos
    rw [length_dirent]
    decide
  refine (ensures_iappend ht (le_refl 1) (by omega) hentry
    (hroom.imp_right fun hfits => ?_)).post ?_
  · change (update (contentOf done) (done.length + 2) [] rootino ++ _).length ≤ _ ∧
      total (update _ rootino
        (update (contentOf done) (done.length + 2) [] rootino ++ _)) _ ≤ fssize
    rw [hrootBytes, htfree]
    constructor
    · rw [length_append, length_rootBytes, length_dirent]
      omega
    · refine le_trans (total_mono (le_refl _) fun i hi hlt => ?_)
        (hfits.contentWith [] (Nat.zero_le _))
      rw [contentWith_start hi hlt]
  · rintro - u ⟨hu, hufree⟩
    change Holds (update _ rootino
      (update (contentOf done) (done.length + 2) [] rootino ++ _)) u at hu
    rw [hrootBytes] at hu
    rw [htfree] at hufree
    have hstart : Holds (contentWith done file []) u :=
      hu.congr fun i hi hlt => contentWith_start hi (by omega)
    have hloop : Ensures (file.reads.forM (iappend (done.length + 2))) u
        (fun _ w => Holds (contentWith done file file.reads.flatten) w ∧
          w.freeinode = done.length + 3) E := by
      refine ensures_forM (fun pieces w => Holds (contentWith done file pieces.flatten) w ∧
        w.freeinode = done.length + 3) ⟨hstart, hufree⟩ ?_
      rintro pieces piece left w hreads ⟨hw, hwfree⟩
      have hpiece : piece ≠ [] := ne_nil_of_length_pos
        (file.reads_ok piece (by rw [hreads]; simp)).1
      have hself : contentWith done file pieces.flatten (done.length + 2) = pieces.flatten :=
        update_self ..
      have hnext : update (contentWith done file pieces.flatten) (done.length + 2)
          (pieces.flatten ++ piece) = contentWith done file (pieces ++ [piece]).flatten := by
        rw [contentWith, update_idem, contentWith, flatten_append, flatten_singleton]
      have hle : (pieces ++ [piece]).flatten.length ≤ file.bytes.length := by
        rw [InputFile.bytes, hreads]
        simp only [flatten_append, flatten_cons, length_append, flatten_nil, length_nil]
        omega
      have hstep := ensures_iappend (E := E) hw (by omega : 1 ≤ done.length + 2) (by omega) hpiece
      rw [hself, hnext, hwfree] at hstep
      refine (hstep (hroom.imp_right fun hfits => ⟨?_, hfits.contentWith _ hle⟩))
      have hfile := hfits.sizes file hmem
      rw [flatten_append, flatten_singleton] at hle
      exact hle.trans hfile
    refine hloop.post ?_
    rintro - w ⟨hw, hwfree⟩
    rw [← contentWith_bytes]
    exact ⟨hw, hwfree⟩

/-! ## `main` -/

theorem holds_start (hsectors : s.sectors = fssize) (hfree : s.freeblock = sb.nmeta)
    (hinode : s.freeinode = 1) (hzero : ∀ b, b ≠ 1 → s.sector b = fun _ => 0)
    (files : ℕ → List Byte) : Holds files s := by
  have hnode : ∀ i, s.table i = toNode fun _ => 0 := by
    intro i
    rw [table]
    split
    · have hge : 32 ≤ sb.iblock i := Nat.le_add_left sb.inodestart _
      have hne : sb.iblock i ≠ 1 := by omega
      rw [Image.node, hzero _ hne]
      rfl
    · rfl
  have hnumber : ∀ place, numberIn s.table s.data place = 0 := by
    intro place
    rw [numberIn, hnode]
    rfl
  constructor
  case ready =>
    refine ⟨hsectors, hfree.ge, hfree.trans_le (by decide), fun b hb => hzero b ?_⟩
    rintro rfl
    rw [hfree] at hb
    exact absurd hb (by decide)
  case space =>
    rw [hinode]
    decide
  case owned =>
    constructor
    · refine ⟨?_, ?_, ?_, ?_⟩
      · exact fun place hne => absurd (hnumber place) hne
      · exact fun place hne => absurd (hnumber place) hne
      · exact fun place _ hne => absurd (hnumber place) hne
      · intro b _ hdata hused
        have hlt : b < s.freeblock := of_decide_eq_true hused
        exact absurd (hfree ▸ hlt) (Nat.not_lt.mpr hdata.1)
    · intro b hb
      exact decide_eq_true (hfree ▸ hb)
  case stored =>
    intro i hi hlt
    omega
  case unused => exact fun i _ => hnode i
  case blocks =>
    rw [hfree, hinode, total, Finset.Ico_self, Finset.sum_empty, Nat.add_zero]

/-- The image when the program is done, and before the size of the root directory is changed and
the free map is written. -/
structure Finished (files : List InputFile) (s t : Image) : Prop where
  holds : Holds (contentOf files) s
  count : s.freeinode = files.length + 2
  table : t.table = Function.update s.table rootino { s.table rootino with
    size := BitVec.ofNat 32 ((16 * (files.length + 2) / bsize + 1) * bsize) }
  data : t.data = s.data
  freemap : t.sector sb.bmapstart = freeMap s.freeblock

theorem ensures_finish {files : List InputFile} (h : Holds (contentOf files) s)
    (hcount : s.freeinode = files.length + 2) :
    Ensures (do fixRootSize rootino; balloc (← get).freeblock) s
      (fun _ t => Finished files s t) E := by
  have hlt : rootino < s.freeinode := by
    rw [hcount]
    exact Nat.lt_add_left _ (by decide)
  have hspace : rootino < inodeSpace := hlt.trans_le h.space
  have hstored := h.stored rootino (le_refl 1) hlt
  rw [h.table_eq hlt] at hstored
  have hsize : size (s.node rootino) = 16 * (files.length + 2) := by
    rw [← length_rootBytes]
    exact hstored.size
  simp only [fixRootSize, rinode, ensures_bind]
  refine ensures_rsect_of_lt h.ready.sectors (by decide) ?_
  rw [ensures_pure]
  change Ensures (winode rootino (setSize (s.node rootino)
    ((size (s.node rootino) / bsize + 1) * bsize))) s _ E
  rw [hsize]
  refine (ensures_winode h.ready.sectors hspace _).post fun _ t ht => ?_
  have hused : t.freeblock < bpb := by
    rw [ht.freeblock]
    exact h.ready.high.trans_lt (by decide)
  have hplace : place sb.bmapstart = sb.bmapstart := place_of_le (by decide)
  simp only [ensures_get, balloc, if_pos hused, wsect, ensures_modify]
  have hsector : (t.write sb.bmapstart (freeMap t.freeblock)).sector =
      update t.sector sb.bmapstart (freeMap t.freeblock) := by
    rw [write, hplace]
  refine ⟨h, hcount, ?_, ?_, ?_⟩
  · have hkeep : (t.write sb.bmapstart (freeMap t.freeblock)).table = t.table := by
      funext i
      by_cases hi : sb.iblock i < sb.bmapstart
      · rw [table, table, if_pos hi, if_pos hi, Image.node, Image.node, hsector, update_of_ne hi.ne]
      · rw [table, table, if_neg hi, if_neg hi]
    rw [hkeep, ht.table, toNode_setSize, ← h.table_eq hlt]
  · have hkeep : (t.write sb.bmapstart (freeMap t.freeblock)).data = t.data := by
      have hmeta : sb.bmapstart < sb.nmeta := by decide
      funext b
      rw [data, data]
      split
      · rfl
      · rw [hsector, update_of_ne (by omega)]
    rw [hkeep, ht.data]
  · rw [hsector, update_self, ht.freeblock]

theorem ensures_rootEntry {files : List InputFile} {bytes : ℕ → List Byte} (h : Holds bytes s)
    (hfree : s.freeinode = 2) (hlength : (bytes rootino).length ≤ 16) (name : List Byte)
    (hroom : (∀ t, E t) ∨ Fits files) :
    Ensures (iappend rootino (dirent rootino name)) s (fun _ t =>
      Holds (update bytes rootino (bytes rootino ++ dirent rootino name)) t ∧
        t.freeinode = 2) E := by
  have hentry : dirent rootino name ≠ [] := by
    apply ne_nil_of_length_pos
    rw [length_dirent]
    decide
  have hlength' : (bytes rootino ++ dirent rootino name).length ≤ 32 := by
    rw [length_append, length_dirent]
    omega
  have hstep := ensures_iappend (E := E) h (le_refl 1) (by rw [hfree]; decide) hentry
  rw [hfree] at hstep
  refine hstep (hroom.imp_right fun hfits => ⟨hlength'.trans (by decide), ?_⟩)
  refine le_trans (total_mono (by omega) fun i hi hlt => ?_) hfits.blocks
  obtain rfl : i = rootino := by
    change i = 1
    omega
  rw [update_self, contentOf, if_pos rfl, length_rootBytes]
  exact hlength'.trans (by omega)

theorem ensures_main {files : List InputFile} (hspace : files.length + 2 ≤ inodeSpace)
    (hroom : (∀ t, E t) ∨ Fits files) :
    Ensures (main files) empty (fun _ t => ∃ s, Finished files s t) E := by
  simp only [main, ensures_bind, ensures_modify]
  refine (zeroes_spec _ (le_refl fssize)).post ?_
  rintro - s₀ ⟨hsectors, hzero, hfreeinode, hfreeblock, -, -⟩
  have hplace : place 1 = 1 := by decide
  rw [wsect, ensures_modify]
  have hstart : Holds (fun _ => []) (s₀.write 1 superblock) := by
    refine holds_start (s := s₀.write 1 superblock) ?_ hfreeblock hfreeinode ?_ _
    · change max s₀.sectors (place 1 + 1) = fssize
      rw [hsectors]
      decide
    · intro b hb
      change update s₀.sector (place 1) superblock b = _
      rw [hplace, update_of_ne hb]
      exact hzero b (.inr rfl)
  have hone : (s₀.write 1 superblock).freeinode = 1 := hfreeinode
  refine (ensures_ialloc hstart hone.ge (by rw [hone]; decide) (.inl rfl)).post ?_
  rintro root s₁ ⟨rfl, hs₁, hfree₁⟩
  rw [hone] at hs₁ hfree₁ ⊢
  rw [if_pos rfl]
  simp only [ensures_bind]
  refine (ensures_rootEntry hs₁ hfree₁ (by simp) [46] hroom).post ?_
  rintro - s₂ ⟨hs₂, hfree₂⟩
  refine (ensures_rootEntry hs₂ hfree₂ (by simp [length_dirent]) [46, 46] hroom).post ?_
  rintro - s₃ ⟨hs₃, hfree₃⟩
  have hempty : Holds (contentOf []) s₃ := by
    refine hs₃.congr fun i hi hlt => ?_
    obtain rfl : i = rootino := by
      change i = 1
      omega
    rw [update_self, update_self, update_self]
    simp [contentOf, rootBytes]
  have hloop : Ensures (files.forM (addFile 1)) s₃
      (fun _ t => Holds (contentOf files) t ∧ t.freeinode = files.length + 2) E := by
    refine ensures_forM (fun done t => Holds (contentOf done) t ∧ t.freeinode = done.length + 2)
      ⟨hempty, hfree₃⟩ ?_
    rintro done file rest t rfl ⟨ht, htfree⟩
    rw [length_append, length_cons] at hspace
    refine (ensures_addFile ht htfree (by omega) hroom).post ?_
    rintro - u ⟨hu, hufree⟩
    exact ⟨hu, by rw [hufree, length_append, length_singleton]⟩
  refine hloop.post ?_
  rintro - t ⟨ht, htfree⟩
  have hend := ensures_finish (E := E) ht htfree
  simp only [ensures_bind] at hend
  exact hend.post fun _ _ hu => hu.post fun _ _ hu => hu.post fun _ _ hu => ⟨t, hu⟩

end View

theorem mkfs_finished {files : List InputFile} {image : Image} (hrun : mkfs files = .ok () image)
    (hspace : files.length + 2 ≤ inodeSpace) : ∃ s, Finished files s image := by
  have hany : ∀ t : Image, (fun _ => True) t := fun _ => trivial
  exact (ensures_main hspace (.inl hany)).of_ok hrun

theorem mkfs_succeeds {files : List InputFile} (hspace : files.length + 2 ≤ inodeSpace)
    (hfits : Fits files) : ∃ image, mkfs files = .ok () image := by
  have hmain : Ensures (main files) empty (fun _ t => ∃ s, Finished files s t) fun _ => False :=
    ensures_main hspace (.inr hfits)
  obtain ⟨_, image, hrun, -⟩ := hmain.total
  exact ⟨image, hrun⟩

/-- When the entries fill the last block, the size that the root directory gets takes in one block
more, and this block is not there. -/
theorem Finished.noHoles_iff {files : List InputFile} {s image : Image}
    (h : Finished files s image) : (∀ i < sb.ninodes, (image.table i).NoHoles image.data) ↔
      16 * (files.length + 2) % bsize ≠ 0 := by
  have hroot : rootino < s.freeinode := by
    rw [h.count]
    exact Nat.lt_add_left _ (by decide)
  have hstored := h.holds.stored rootino (le_refl 1) hroot
  have hlength : (contentOf files rootino).length = 16 * (files.length + 2) :=
    length_rootBytes files
  have htable : image.table rootino = { s.table rootino with
      size := BitVec.ofNat 32 ((16 * (files.length + 2) / bsize + 1) * bsize) } := by
    rw [h.table, update_self]
  have hsize : (image.table rootino).size.toNat =
      (16 * (files.length + 2) / bsize + 1) * bsize := by
    have hcount := h.count
    have hspace := h.holds.space
    have hlimit : inodeSpace = 208 := rfl
    rw [htable, BitVec.toNat_ofNat, Nat.mod_eq_of_lt]
    simp only [bsize]
    omega
  have hblock : ∀ bn, (image.table rootino).blockAt image.data bn =
      (s.table rootino).blockAt s.data bn := by
    intro bn
    rw [h.data]
    exact blockAt_of_addrs (congrArg DiskNode.addrs htable) s.data bn
  constructor
  · intro hall hfull
    have hbn := hall rootino (by decide) (16 * (files.length + 2) / bsize) (by
      rw [hsize]
      exact Nat.mul_lt_mul_of_pos_right (Nat.lt_succ_self _) (by decide))
    rw [hblock] at hbn
    have hlt := hstored.tight.blocks _ hbn
    rw [hlength] at hlt
    exact absurd (Nat.div_mul_cancel (Nat.dvd_of_mod_eq_zero hfull)) hlt.ne
  · intro hpart i hi bn hbn
    by_cases hfirst : i = rootino
    · subst hfirst
      rw [hblock]
      refine hstored.noHoles bn ?_
      rw [hsize] at hbn
      rw [hstored.size, hlength]
      simp only [bsize] at hbn hpart ⊢
      omega
    · have hother : image.table i = s.table i := by
        rw [h.table, update_of_ne hfirst]
      rw [hother] at hbn ⊢
      rw [h.data]
      by_cases hused : 1 ≤ i ∧ i < s.freeinode
      · exact (h.holds.stored i hused.1 hused.2).noHoles bn hbn
      · rw [h.holds.unused i (by omega)] at hbn
        exact absurd hbn (Nat.not_lt_zero _)

def emptyFile (i : ℕ) : InputFile :=
  ⟨[BitVec.ofNat 8 (97 + i % 26), BitVec.ofNat 8 (97 + i / 26)], true, [], by simp⟩

def emptyFiles (count : ℕ) : List InputFile := (List.range count).map emptyFile

theorem length_emptyFiles (count : ℕ) : (emptyFiles count).length = count := by
  rw [emptyFiles, length_map, length_range]

theorem fits_emptyFiles {count : ℕ} (hcount : count ≤ 206) : Fits (emptyFiles count) := by
  have hfile : ∀ file ∈ emptyFiles count, ∃ i < count, file = emptyFile i := by
    intro file hfile
    obtain ⟨i, hi, rfl⟩ := mem_map.mp hfile
    exact ⟨i, mem_range.mp hi, rfl⟩
  have hletter : ∀ n, 97 ≤ n → n < 256 → slash ≠ BitVec.ofNat 8 n := by
    intro n hlow hhigh heq
    have hval := congrArg BitVec.toNat heq
    rw [BitVec.toNat_ofNat] at hval
    change 47 = _ at hval
    omega
  constructor
  case names =>
    intro file hmem
    obtain ⟨i, hi, rfl⟩ := hfile file hmem
    simp only [emptyFile, mem_cons, not_mem_nil, or_false, not_or]
    exact ⟨hletter _ (by omega) (by omega), hletter _ (by omega) (by omega)⟩
  case opens =>
    intro file hmem
    obtain ⟨i, hi, rfl⟩ := hfile file hmem
    rfl
  case sizes =>
    intro file hmem
    obtain ⟨i, hi, rfl⟩ := hfile file hmem
    exact Nat.zero_le _
  case blocks =>
    have hrest : ∑ i ∈ Finset.Ico 2 (count + 2), cost (contentOf (emptyFiles count) i).length =
        0 := by
      apply Finset.sum_eq_zero
      intro i hi
      have hi' := Finset.mem_Ico.mp hi
      have hne : i ≠ rootino := by
        change i ≠ 1
        omega
      rw [contentOf, if_neg hne, emptyFiles, getElem?_map, getElem?_range (by omega)]
      change cost 0 = 0
      decide
    have hroot : (contentOf (emptyFiles count) 1).length ≤ 3328 := by
      change (rootBytes _).length ≤ _
      rw [length_rootBytes, length_emptyFiles]
      omega
    have hcost := cost_mono hroot
    have hfixed : sb.nmeta + cost 3328 ≤ fssize := by decide
    rw [length_emptyFiles, total, Finset.sum_eq_sum_Ico_succ_bot (by omega), hrest]
    omega

/-- The root directory has a hole at its end exactly if its entries fill its blocks. -/
theorem mkfs_noHoles_iff {files : List InputFile} {image : Image}
    (hrun : mkfs files = .ok () image) (hfew : files.length + 1 < sb.ninodes) :
    (∀ i < sb.ninodes, (image.table i).NoHoles image.data) ↔
      16 * (files.length + 2) % bsize ≠ 0 := by
  have hspace : sb.ninodes + 1 ≤ inodeSpace := by decide
  obtain ⟨s, h⟩ := mkfs_finished hrun (by omega)
  exact h.noHoles_iff

/-- The entries of 30 files and of the directory itself fill one block. -/
theorem mkfs_thirty_files_hole : ∃ image, mkfs (emptyFiles 30) = .ok () image ∧
    ¬ ∀ i < sb.ninodes, (image.table i).NoHoles image.data := by
  have hlength := length_emptyFiles 30
  have hspace : (emptyFiles 30).length + 2 ≤ inodeSpace := by
    rw [hlength]
    decide
  obtain ⟨image, hrun⟩ := mkfs_succeeds hspace (fits_emptyFiles (by decide))
  obtain ⟨s, h⟩ := mkfs_finished hrun hspace
  refine ⟨image, hrun, fun hall => h.noHoles_iff.mp hall ?_⟩
  rw [hlength]
  decide

theorem mkfs_one_file_noHoles : ∃ image, mkfs (emptyFiles 1) = .ok () image ∧
    ∀ i < sb.ninodes, (image.table i).NoHoles image.data := by
  have hlength := length_emptyFiles 1
  obtain ⟨image, hrun⟩ := mkfs_succeeds (by rw [hlength]; decide) (fits_emptyFiles (by decide))
  refine ⟨image, hrun, (mkfs_noHoles_iff hrun (by rw [hlength]; decide)).mpr ?_⟩
  rw [hlength]
  decide

/-- The numbers of blocks are checked when the blocks are read; those of inodes are never
checked. -/
theorem mkfs_within_limits_iff {files : List InputFile} {image : Image}
    (hrun : mkfs files = .ok () image) :
    ((∀ i ∈ image.inodes, i < sb.ninodes) ∧ ∀ b ∈ image.blocks, b < sb.size) ↔
      files.length + 1 < sb.ninodes := by
  obtain ⟨⟨hsound, hinodes⟩, hfree⟩ := mkfs_numbered hrun
  constructor
  · rintro ⟨hlt, -⟩
    exact hlt _ ((hinodes _).mpr ⟨by omega, by omega⟩)
  · intro hfew
    refine ⟨fun i hi => ?_, hsound.blocks⟩
    have hi' := (hinodes i).mp hi
    omega

/-- With the root directory 199 files take the inodes up to number 200, and there is none of this
number. -/
theorem mkfs_overfull : ∃ image, mkfs (emptyFiles 199) = .ok () image ∧
    ∃ i ∈ image.inodes, sb.ninodes ≤ i := by
  have hlength := length_emptyFiles 199
  obtain ⟨image, hrun⟩ := mkfs_succeeds (by rw [hlength]; decide) (fits_emptyFiles (by decide))
  obtain ⟨⟨-, hinodes⟩, hfree⟩ := mkfs_numbered hrun
  rw [hlength] at hfree
  refine ⟨image, hrun, 200, (hinodes 200).mpr ⟨by decide, ?_⟩, by decide⟩
  rw [hfree]
  decide

theorem mkfs_one_file_within_limits : ∃ image, mkfs (emptyFiles 1) = .ok () image ∧
    (∀ i ∈ image.inodes, i < sb.ninodes) ∧ ∀ b ∈ image.blocks, b < sb.size := by
  have hlength := length_emptyFiles 1
  obtain ⟨image, hrun⟩ := mkfs_succeeds (by rw [hlength]; decide) (fits_emptyFiles (by decide))
  refine ⟨image, hrun, (mkfs_within_limits_iff hrun).mpr ?_⟩
  rw [hlength]
  decide

end Xv6Kernel.Mkfs
