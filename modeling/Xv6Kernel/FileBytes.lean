import Xv6Kernel.LogRoom

/-!
# Inodes as byte strings

The contents of an inode are the bytes that its size and its block map give.
`writei` replaces a range of them and may extend them, as long as there is room
in the log, and `readi` returns a range; neither touches the contents of another
inode.
-/

namespace Xv6Kernel

open TraceExecution StateHoare WordBytes BlockAllocation Function List Volume

variable {P : Type}

def DiskNode.byte (node : DiskNode) (data : ℕ → Block) (k : ℕ) : Byte :=
  byteAt (data (node.blockAt data (k / bsize))) (k % bsize)

def DiskNode.content (node : DiskNode) (data : ℕ → Block) : List Byte :=
  (List.range node.size.toNat).map (node.byte data)

def replaceAt (old : List Byte) (off : ℕ) (new : List Byte) : List Byte :=
  old.take off ++ new ++ old.drop (off + new.length)

def DiskNode.HasBytes (node : DiskNode) : Prop := node.type = .file ∨ node.type = .dir

instance (node : DiskNode) : Decidable node.HasBytes :=
  inferInstanceAs (Decidable (_ ∨ _))

def Volume.NoHolesAt (s : Volume P) (ip : ISlot) : Prop :=
  ∀ x, (s.table ip x).HasBytes → (s.table ip x).NoHoles s.data

def Volume.byte (s : Volume P) (ip : ISlot) (k : ℕ) : Byte :=
  (s.icache ip).node.byte s.data k

section Contents

variable {s t : Volume P} {ip : ISlot} {bn k m lo hi off : ℕ} {src : ℕ → Byte}

/-! ## Reading -/

variable {E : Volume P → Prop}

theorem ensures_bmap_mapped (hbn : s.blockAt ip bn ≠ 0) {Q : ℕ → Volume P → Prop}
    (hQ : Q (s.blockAt ip bn) s) : Ensures (Vol.bmap ip bn) s Q E := by
  have hblock : s.blockAt ip bn = (spotOf bn).elim 0 ((s.icache ip).node.numberAt s.data) := rfl
  unfold Vol.bmap
  unfold spotOf at hblock
  split
  next hdirect =>
    rw [dif_pos hdirect] at hblock
    rw [hblock] at hbn hQ
    apply ensures_mapAddr
    · exact fun hempty => (hbn hempty).elim
    · exact fun _ => hQ
    · exact fun b hempty => (hbn hempty).elim
  next hdirect =>
    have hlast := indirect_of_blockAt hbn (by omega)
    rw [dif_neg hdirect] at hblock
    split
    next hlt =>
      rw [dif_pos hlt] at hblock
      simp only [Option.elim, DiskNode.numberAt, hlast, if_false] at hblock
      have hword : s.data ((s.icache ip).node.addrs (Fin.last ndirect))
          ⟨bn - ndirect, hlt⟩ ≠ 0 := by
        intro hzero
        exact hbn (by rw [hblock, hzero]; rfl)
      rw [ensures_bind]
      apply ensures_mapAddr
      · exact fun hempty => (hlast hempty).elim
      · intro _
        apply ensures_mapWord
        · exact fun hempty => (hword hempty).elim
        · intro _
          rwa [← hblock]
        · exact fun b hempty => (hword hempty).elim
      · exact fun b hempty => (hlast hempty).elim
    next hlt =>
      rw [dif_neg hlt] at hblock
      exact (hbn hblock).elim

theorem div_add_of_lt (hm : m ≤ 512 - off % 512) (hk : k < m) :
    (off + k) / 512 = off / 512 ∧ (off + k) % 512 = off % 512 + k := by
  omega

theorem piece_eq (hm : m ≤ bsize - off % bsize) :
    ((range m).map fun k =>
      byteAt (s.data (s.blockAt ip (off / bsize))) (off % bsize + k)) =
      (range m).map fun k => s.byte ip (off + k) := by
  apply map_congr_left
  intro k hk
  obtain ⟨hdiv, hmod⟩ := div_add_of_lt hm (mem_range.mp hk)
  rw [byte, DiskNode.byte, hdiv, hmod]
  rfl

theorem ensures_readLoop {n : ℕ} (fuel tot off : ℕ) (hfuel : n - tot ≤ fuel)
    (hmapped : ∀ k, k < n - tot → s.blockAt ip ((off + k) / bsize) ≠ 0) :
    Ensures (Vol.readLoop ip n fuel tot off) s
      (fun bytes t => t = s ∧
        bytes = (range (n - tot)).map fun k => s.byte ip (off + k)) E := by
  induction fuel generalizing tot off with
  | zero =>
    have hdone : n - tot = 0 := by omega
    rw [hdone]
    exact ⟨rfl, rfl⟩
  | succ fuel ih =>
    rw [Vol.readLoop]
    split
    next hmore =>
      have hfirst := hmapped 0 (by omega)
      rw [Nat.add_zero] at hfirst
      rw [ensures_bind]
      apply ensures_bmap_mapped hfirst
      simp only [ensures_bind, ensures_get]
      have hm : 0 < min (n - tot) (bsize - off % bsize) := by
        have hlt : off % bsize < bsize := Nat.mod_lt _ (by decide)
        omega
      generalize hm' : min (n - tot) (bsize - off % bsize) = m at hm
      refine (ih (tot + m) (off + m) (by omega) ?_).post ?_
      · intro k hk
        have hrest := hmapped (m + k) (by omega)
        rwa [← Nat.add_assoc] at hrest
      · rintro rest t ⟨rfl, rfl⟩
        refine ⟨rfl, ?_⟩
        rw [piece_eq (by omega)]
        have hsplit : n - tot = m + (n - (tot + m)) := by omega
        rw [hsplit, range_add, map_append, map_map]
        simp only [comp_def, Nat.add_assoc]
    next hmore =>
      have hdone : n - tot = 0 := by omega
      rw [hdone]
      exact ⟨rfl, rfl⟩

/-- The arguments that `readi` and `writei` turn down: the offset is behind the
end, or the sum wraps. -/
def Refused (size off n : BitVec 32) : Prop :=
  size.toNat < off.toNat ∨ 2 ^ 32 ≤ off.toNat + n.toNat

theorem refused_iff (size off n : BitVec 32) : size < off ∨ off + n < off ↔ Refused size off n := by
  have hoff := off.isLt
  have hn := n.isLt
  unfold Refused
  rw [BitVec.lt_def, BitVec.lt_def, BitVec.toNat_add]
  omega

theorem toNat_add_of_accepted {size off n : BitVec 32} (haccepted : ¬ Refused size off n) :
    (off + n).toNat = off.toNat + n.toNat := by
  unfold Refused at haccepted
  rw [BitVec.toNat_add]
  exact Nat.mod_eq_of_lt (by omega)

theorem toNat_clipped {size off n : BitVec 32} (haccepted : ¬ Refused size off n) :
    (if size < off + n then size - off else n).toNat =
      min n.toNat (size.toNat - off.toNat) := by
  have hsum := toNat_add_of_accepted haccepted
  unfold Refused at haccepted
  have hle : off ≤ size := by
    rw [BitVec.le_def]
    omega
  split
  next hlt =>
    rw [BitVec.lt_def, hsum] at hlt
    rw [BitVec.toNat_sub_of_le hle]
    omega
  next hlt =>
    rw [BitVec.lt_def, hsum] at hlt
    omega

theorem content_range (node : DiskNode) (data : ℕ → Block) (off n : ℕ) :
    ((node.content data).drop off).take n =
      (range (min n (node.size.toNat - off))).map fun k =>
        node.byte data (off + k) := by
  apply ext_getElem
  · simp [DiskNode.content]
  · intro k hk hk'
    simp [DiskNode.content]

theorem ensures_readi (devsw : Devsw) (hdev : (s.icache ip).node.type ≠ .dev)
    (hholes : (s.icache ip).node.NoHoles s.data) (off n : BitVec 32) :
    Ensures (Vol.readi devsw ip off n) s
      (fun result t => t = s ∧
        (Refused (s.icache ip).node.size off n → result = none) ∧
        (¬ Refused (s.icache ip).node.size off n → result =
          some ((((s.icache ip).node.content s.data).drop off.toNat).take n.toNat)))
      E := by
  simp only [Vol.readi, ensures_bind, ensures_get, hdev, if_false]
  split
  next hrefused =>
    rw [refused_iff] at hrefused
    exact ⟨rfl, fun _ => rfl, fun h => (h hrefused).elim⟩
  next haccepted =>
    rw [refused_iff] at haccepted
    rw [ensures_bind, toNat_clipped haccepted]
    refine (ensures_readLoop _ 0 off.toNat (by omega) ?_).post ?_
    · intro k hk
      apply hholes
      have hle := Nat.div_mul_le_self (off.toNat + k) bsize
      omega
    · rintro bytes t ⟨rfl, rfl⟩
      refine ⟨rfl, fun h => (haccepted h).elim, fun _ => ?_⟩
      rw [content_range]
      rfl

theorem number_setData (howned : s.OwnedAt ip) (hused : (s.icache ip).node.type ≠ .none)
    (hbn : s.blockAt ip bn ≠ 0) (block : Block) :
    (s.setData (s.blockAt ip bn) block).number ip = s.number ip := by
  funext ⟨y, spot⟩
  apply numberIn_congr rfl
  intro hne
  apply update_of_ne
  change s.number ip (y, Spot.indirect) ≠ s.blockAt ip bn
  intro heq
  cases hspot : spotOf bn with
  | none => exact hbn (blockAt_eq_zero hspot)
  | some spot' =>
    rw [blockAt_eq_number hused hspot] at heq
    have hsame := howned.exact.once _ _ hne heq
    obtain rfl : Spot.indirect = spot' := congrArg Prod.snd hsame
    exact spotOf_ne_indirect bn hspot

/-- The state behind a round of the loop of `writei`, once the block is there. -/
def Volume.patchAt (s : Volume P) (b off m : ℕ) (src : ℕ → Byte) : Volume P :=
  (s.setData b (patch (s.data b) off m src)).record b

section

variable (howned : s.OwnedAt ip)

include howned

section

variable (hused : (s.icache ip).node.type ≠ .none) (hbn : s.blockAt ip bn ≠ 0)

include hused hbn

theorem blockAt_patchAt (off m : ℕ) (src : ℕ → Byte) (bn' : ℕ) :
    (s.patchAt (s.blockAt ip bn) off m src).blockAt ip bn' = s.blockAt ip bn' := by
  have hnumber := number_setData howned hused hbn (patch (s.data (s.blockAt ip bn)) off m src)
  cases hspot : spotOf bn' with
  | none => rw [blockAt_eq_zero hspot, blockAt_eq_zero hspot]
  | some spot =>
    rw [blockAt_eq_number hused hspot, blockAt_eq_number (s := s.patchAt _ off m src) hused hspot]
    exact congrFun hnumber _

theorem blockAt_inj {bn' : ℕ} (heq : s.blockAt ip bn = s.blockAt ip bn') : bn = bn' := by
  have hbn' : s.blockAt ip bn' ≠ 0 := heq ▸ hbn
  cases hspot : spotOf bn with
  | none => exact (hbn (blockAt_eq_zero hspot)).elim
  | some spot =>
    cases hspot' : spotOf bn' with
    | none => exact (hbn' (blockAt_eq_zero hspot')).elim
    | some spot' =>
      rw [blockAt_eq_number hused hspot] at hbn heq
      rw [blockAt_eq_number hused hspot'] at heq
      have hsame := howned.exact.once _ _ hbn heq
      obtain rfl : spot = spot' := congrArg Prod.snd hsame
      exact (spotIndex_spotOf hspot).symm.trans (spotIndex_spotOf hspot')

theorem grows_patchAt
    (off m : ℕ) (src : ℕ → Byte) : Grows ip s (s.patchAt (s.blockAt ip bn) off m src) := by
  have hnumber := number_setData howned hused hbn (patch (s.data (s.blockAt ip bn)) off m src)
  refine ⟨⟨rfl, rfl, rfl, rfl, rfl, rfl, fun _ _ => rfl, ⟨_, rfl⟩⟩, ?_, ?_, ?_⟩
  · exact fun place _ => congrFun hnumber place
  · exact fun place _ => congrFun hnumber place
  · intro place hplace hne
    apply update_of_ne
    intro heq
    cases hspot : spotOf bn with
    | none => exact hbn (blockAt_eq_zero hspot)
    | some spot =>
      rw [blockAt_eq_number hused hspot] at heq
      exact hplace (congrArg Prod.fst (howned.exact.once _ _ hne heq))

theorem owned_patchAt
    (off m : ℕ) (src : ℕ → Byte) : (s.patchAt (s.blockAt ip bn) off m src).OwnedAt ip := by
  refine ⟨?_, howned.reserved⟩
  have hnumber := number_setData howned hused hbn (patch (s.data (s.blockAt ip bn)) off m src)
  change Exact s.sb.IsData ((s.setData _ _).number ip) s.bitmap
  rw [hnumber]
  exact howned.exact

end

theorem byte_patchAt (hused : (s.icache ip).node.type ≠ .none) {o : ℕ}
    (hbn : s.blockAt ip (o / bsize) ≠ 0) (hm : m ≤ bsize - o % bsize) (src : ℕ → Byte)
    (hk : s.blockAt ip (k / bsize) ≠ 0) :
    (s.patchAt (s.blockAt ip (o / bsize)) (o % bsize) m src).byte ip k =
      if o ≤ k ∧ k < o + m then src (k - o) else s.byte ip k := by
  have hblock := blockAt_patchAt howned hused hbn (o % bsize) m src (k / bsize)
  have hleft : (s.patchAt (s.blockAt ip (o / bsize)) (o % bsize) m src).byte ip k =
      byteAt (update s.data (s.blockAt ip (o / bsize))
        (patch (s.data (s.blockAt ip (o / bsize))) (o % bsize) m src)
          (s.blockAt ip (k / bsize))) (k % bsize) := by
    rw [← hblock]
    rfl
  rw [hleft]
  by_cases hsame : k / bsize = o / bsize
  · rw [hsame, update_self, byteAt_patch _ _ _ _ (Nat.mod_lt k (by decide))]
    have hiff : (o % bsize ≤ k % bsize ∧ k % bsize < o % bsize + m) ↔
        (o ≤ k ∧ k < o + m) := by
      simp only [bsize] at *
      omega
    have hsub : k % bsize - o % bsize = k - o := by
      simp only [bsize] at *
      omega
    simp only [hiff, hsub, byte, DiskNode.byte, hsame]
    rfl
  · have hne : s.blockAt ip (k / bsize) ≠ s.blockAt ip (o / bsize) := fun heq =>
      hsame (blockAt_inj howned hused hk heq)
    have hout : ¬ (o ≤ k ∧ k < o + m) := by
      simp only [bsize] at *
      omega
    rw [update_of_ne hne, if_neg hout]
    rfl

end

/-! ## The loop of `writei` -/

/-- The state behind the first `tot` bytes of a write at `off`. -/
structure WrittenTo (ip : ISlot) (src : ℕ → Byte) (off tot : ℕ) (s t : Volume P) :
    Prop where
  grows : Grows ip s t
  owned : t.OwnedAt ip
  mapped : ∀ bn, bn * bsize < off + tot → t.blockAt ip bn ≠ 0
  bytes : ∀ k, t.blockAt ip (k / bsize) ≠ 0 → t.byte ip k =
    if off ≤ k ∧ k < off + tot then src (k - off)
    else if s.blockAt ip (k / bsize) ≠ 0 then s.byte ip k else 0
  idle : (∀ bn, bn * bsize < off + tot → s.blockAt ip bn ≠ 0) →
    t.icache = s.icache ∧ t.bitmap = s.bitmap

theorem WrittenTo.unlogged {tot : ℕ} {t : Volume P}
    (h : WrittenTo ip src off tot s t) : WrittenTo ip src off tot s t.unlogged :=
  ⟨⟨{ h.grows.frame with }, h.grows.keeps, h.grows.elsewhere, h.grows.data⟩, h.owned, h.mapped,
    h.bytes, h.idle⟩

theorem writtenTo_zero (howned : s.OwnedAt ip) (src : ℕ → Byte)
    (hmapped : ∀ bn, bn * bsize < off → s.blockAt ip bn ≠ 0) : WrittenTo ip src off 0 s s where
  grows := Grows.refl ip s
  owned := howned
  mapped := hmapped
  bytes := by
    intro k hk
    rw [if_neg (by omega), if_pos hk]
  idle := fun _ => ⟨rfl, rfl⟩

theorem Mapped.byte (hmapped : Mapped ip bn s t) (hused : (s.icache ip).node.type ≠ .none)
    (hk : t.blockAt ip (k / bsize) ≠ 0) :
    t.byte ip k = if s.blockAt ip (k / bsize) ≠ 0 then s.byte ip k else 0 := by
  have hbyte : t.byte ip k = byteAt (t.data (t.blockAt ip (k / bsize))) (k % bsize) := rfl
  rw [hbyte]
  split
  next hold =>
    rw [hmapped.maps.grows.blockAt hused hold, hmapped.maps.content _ hold]
    rfl
  next hnew =>
    rw [not_not] at hnew
    have hbn : k / bsize = bn := by
      by_contra hne
      exact hk ((hmapped.others _ hne).trans hnew)
    rw [hbn, hmapped.fresh (hbn ▸ hnew), byteAt_zero]

theorem WrittenTo.round {u : Volume P} {tot : ℕ} (hwritten : WrittenTo ip src off tot s t)
    (hused : (s.icache ip).node.type ≠ .none) (hmapped : Mapped ip ((off + tot) / bsize) t u)
    (hpos : 0 < m) (hm : m ≤ bsize - (off + tot) % bsize) :
    WrittenTo ip src off (tot + m) s
      (u.patchAt (u.blockAt ip ((off + tot) / bsize)) ((off + tot) % bsize) m
        fun k => src (tot + k)) := by
  have htused : (t.icache ip).node.type ≠ .none := hwritten.grows.frame.type ▸ hused
  have huused : (u.icache ip).node.type ≠ .none := hmapped.maps.grows.frame.type ▸ htused
  have hblock := blockAt_patchAt hmapped.maps.owned huused hmapped.mapped
    ((off + tot) % bsize) m fun k => src (tot + k)
  have hgrows := grows_patchAt hmapped.maps.owned huused hmapped.mapped
    ((off + tot) % bsize) m fun k => src (tot + k)
  constructor
  case grows => exact (hwritten.grows.trans hmapped.maps.grows).trans hgrows
  case owned => exact owned_patchAt hmapped.maps.owned huused hmapped.mapped _ m _
  case mapped =>
    intro bn hbn
    rw [hblock]
    by_cases hcurrent : bn = (off + tot) / bsize
    · rw [hcurrent]
      exact hmapped.mapped
    · rw [hmapped.others bn hcurrent]
      apply hwritten.mapped
      simp only [bsize] at *
      omega
  case bytes =>
    intro k hk
    rw [hblock] at hk
    rw [byte_patchAt hmapped.maps.owned huused hmapped.mapped hm _ hk, hmapped.byte htused hk]
    by_cases hnow : off + tot ≤ k ∧ k < off + tot + m
    · rw [if_pos hnow, if_pos (by omega)]
      congr 1
      omega
    · rw [if_neg hnow]
      by_cases hbefore : off ≤ k ∧ k < off + tot
      · have hdone : t.blockAt ip (k / bsize) ≠ 0 := by
          apply hwritten.mapped
          have hle := Nat.div_mul_le_self k bsize
          omega
        rw [if_pos hdone, hwritten.bytes k hdone, if_pos hbefore, if_pos (by omega)]
      · rw [if_neg (by omega : ¬ (off ≤ k ∧ k < off + (tot + m)))]
        by_cases hold : t.blockAt ip (k / bsize) = 0
        · have hzero : s.blockAt ip (k / bsize) = 0 := by
            by_contra hne
            exact hne (hwritten.grows.blockAt hused hne ▸ hold)
          simp [hold, hzero]
        · rw [if_pos hold, hwritten.bytes k hold, if_neg hbefore]
  case idle =>
    intro hall
    have hearlier : ∀ bn, bn * bsize < off + tot → s.blockAt ip bn ≠ 0 := fun bn hbn =>
      hall bn (by omega)
    obtain ⟨hicache, hbitmap⟩ := hwritten.idle hearlier
    have hcurrent : s.blockAt ip ((off + tot) / bsize) ≠ 0 := by
      apply hall
      have hle := Nat.div_mul_le_self (off + tot) bsize
      omega
    have hthere : t.blockAt ip ((off + tot) / bsize) ≠ 0 := by
      rw [hwritten.grows.blockAt hused hcurrent]
      exact hcurrent
    have hsame := hmapped.idle hthere
    subst hsame
    exact ⟨hicache, hbitmap⟩

/-- The number of blocks that mapping the indices from `lo` up to `hi` takes. -/
def Volume.need (s : Volume P) (ip : ISlot) (lo hi : ℕ) : ℕ :=
  (∑ bn ∈ Finset.Ico lo hi, if s.blockAt ip bn = 0 then 1 else 0) +
    if ndirect < hi ∧ (s.icache ip).node.addrs (Fin.last ndirect) = 0 then 1 else 0

theorem mapCost_le_need (hlt : lo < hi) : s.mapCost ip lo ≤ s.need ip lo hi := by
  rw [mapCost, Volume.need, Finset.sum_eq_sum_Ico_succ_bot hlt]
  split_ifs <;> omega

theorem Mapped.need (hmapped : Mapped ip lo s t) (hlt : lo < hi) :
    s.mapCost ip lo + t.need ip (lo + 1) hi = s.need ip lo hi := by
  have hrest : ∑ bn ∈ Finset.Ico (lo + 1) hi, (if t.blockAt ip bn = 0 then 1 else 0) =
      ∑ bn ∈ Finset.Ico (lo + 1) hi, if s.blockAt ip bn = 0 then 1 else 0 := by
    apply Finset.sum_congr rfl
    intro bn hbn
    rw [hmapped.others bn (by have := (Finset.mem_Ico.mp hbn).1; omega)]
  have hlast := hmapped.indirect
  rw [mapCost, Volume.need, Volume.need, Finset.sum_eq_sum_Ico_succ_bot hlt, hrest]
  split_ifs <;> omega

theorem need_of_mapped (hlt : lo < hi) (hlo : s.blockAt ip lo ≠ 0) :
    s.need ip lo hi = s.need ip (lo + 1) hi := by
  rw [Volume.need, Volume.need, Finset.sum_eq_sum_Ico_succ_bot hlt, if_neg hlo, Nat.zero_add]

theorem Mapped.room (hmapped : Mapped ip lo s t) (hlt : lo < hi)
    (hroom : s.Room E (s.need ip lo hi)) : t.Room E (t.need ip (lo + 1) hi) := by
  refine hroom.imp id ?_
  rintro ⟨hlog, hfree⟩
  rw [← hmapped.need hlt] at hfree
  have hcost := hmapped.cost
  rw [← hmapped.maps.grows.frame.outstanding] at hlog
  exact ⟨hlog, by omega⟩

theorem need_patchAt (howned : s.OwnedAt ip) (hused : (s.icache ip).node.type ≠ .none)
    (hbn : s.blockAt ip bn ≠ 0) (off m : ℕ) (src : ℕ → Byte) (lo hi : ℕ) :
    (s.patchAt (s.blockAt ip bn) off m src).need ip lo hi = s.need ip lo hi := by
  simp only [Volume.need, blockAt_patchAt howned hused hbn off m src]
  rfl

theorem next_block {o : ℕ} (hm : m ≤ bsize - o % bsize) :
    (o + m) / bsize = o / bsize ∨ (o + m) / bsize = o / bsize + 1 := by
  simp only [bsize] at *
  omega

theorem ensures_writeLoop {n : ℕ} {Q : PUnit → Volume P → Prop}
    (hused : (s.icache ip).node.type ≠ .none) (hend : off + n ≤ maxfile * bsize)
    (hhi : off + n ≤ hi * bsize)
    (hQ : ∀ u, WrittenTo ip src off n s u → u.Room E (u.need ip ((off + n) / bsize) hi) →
      Q () u) (fuel tot : ℕ) (t : Volume P)
    (hfuel : n - tot ≤ fuel) (htot : tot ≤ n) (hwritten : WrittenTo ip src off tot s t)
    (hroom : t.Room E (t.need ip ((off + tot) / bsize) hi)) :
    Ensures (Vol.writeLoop ip src n fuel tot (off + tot)) t Q E := by
  induction fuel generalizing tot t with
  | zero =>
    obtain rfl : tot = n := by omega
    exact hQ t hwritten hroom
  | succ fuel ih =>
    rw [Vol.writeLoop]
    split
    next hmore =>
      have hlo : (off + tot) / bsize < hi := Nat.div_lt_of_lt_mul (by
        rw [Nat.mul_comm]
        omega)
      have hbn : (off + tot) / bsize < maxfile := Nat.div_lt_of_lt_mul (by
        rw [Nat.mul_comm]
        omega)
      have htused : (t.icache ip).node.type ≠ .none := hwritten.grows.frame.type ▸ hused
      rw [ensures_bind]
      apply ensures_bmap hwritten.owned htused hbn (hroom.mono (mapCost_le_need hlo))
      intro u hmapped
      have hpos : 0 < min (n - tot) (bsize - (off + tot) % bsize) := by
        have hlt : (off + tot) % bsize < bsize := Nat.mod_lt _ (by decide)
        omega
      generalize hm' : min (n - tot) (bsize - (off + tot) % bsize) = m at hpos
      have hm : m ≤ bsize - (off + tot) % bsize := by omega
      have hround := hwritten.round hused hmapped hpos hm
      have hlog : (u.setData (u.blockAt ip ((off + tot) / bsize))
          (patch (u.data (u.blockAt ip ((off + tot) / bsize))) ((off + tot) % bsize) m
            fun k => src (tot + k))).Room E 0 := by
        refine hroom.imp id ?_
        rintro ⟨hlog, _⟩
        refine ⟨?_, Nat.zero_le _⟩
        rw [← hmapped.maps.grows.frame.outstanding] at hlog
        exact hlog
      simp only [ensures_bind, ensures_modify]
      apply ensures_logWrite hlog
      rw [Nat.add_assoc]
      apply ih (tot + m) _ (by omega) (by omega) hround
      have huused : (u.icache ip).node.type ≠ .none := hmapped.maps.grows.frame.type ▸ htused
      have hnext : u.Room E (u.need ip ((off + (tot + m)) / bsize) hi) := by
        rw [← Nat.add_assoc]
        rcases next_block hm with hblock | hblock
        · rw [hblock, need_of_mapped hlo hmapped.mapped]
          exact hmapped.room hlo hroom
        · rw [hblock]
          exact hmapped.room hlo hroom
      rw [need_patchAt hmapped.maps.owned huused hmapped.mapped]
      exact hnext
    next hmore =>
      obtain rfl : tot = n := by omega
      exact hQ t hwritten hroom

/-! ## `writei` -/

theorem map_range_replaceAt {size n : ℕ} {old now : ℕ → Byte}
    (hoff : off ≤ size)
    (hnow : ∀ k, k < max size (off + n) →
      now k = if off ≤ k ∧ k < off + n then src (k - off) else old k) :
    (range (max size (off + n))).map now =
      replaceAt ((range size).map old) off ((range n).map src) := by
  apply ext_getElem
  · simp only [replaceAt, length_append, length_take, length_drop, length_map, length_range]
    omega
  · intro k hk hk'
    simp only [length_map, length_range] at hk
    simp only [replaceAt, getElem_append, getElem_map, getElem_range, getElem_take, getElem_drop,
      length_append, length_take, length_map, length_range, hnow k hk]
    rw [Nat.min_eq_left hoff]
    split_ifs
    · omega
    · rfl
    · omega
    · rfl
    · omega
    · congr 1
      omega

def Volume.resize (s : Volume P) (ip : ISlot) (size : BitVec 32) : Volume P :=
  s.setNode ip fun node => { node with size := size }

def Volume.update (s : Volume P) (ip : ISlot) : Volume P :=
  { s with dinode :=
      Function.update s.dinode (s.icache ip).inum (s.icache ip).node }.record
    (s.sb.iblock (s.icache ip).inum)

theorem ensures_iupdate {Q : PUnit → Volume P → Prop} (hroom : s.Room E 0)
    (hQ : Q () (s.update ip)) : Ensures (Vol.iupdate ip) s Q E := by
  simp only [Vol.iupdate, ensures_bind, ensures_get, ensures_modify]
  apply ensures_logWrite
  · exact hroom.imp id fun h => ⟨h.1, Nat.zero_le _⟩
  · exact hQ

theorem table_update (s : Volume P) (ip : ISlot) : (s.update ip).table ip = s.table ip := by
  simp [Volume.table, Volume.update, Volume.record]

theorem resize_self (s : Volume P) (ip : ISlot) (size : BitVec 32) :
    (s.resize ip size).icache ip =
      { s.icache ip with node := { (s.icache ip).node with size := size } } :=
  setNode_self s ip _

theorem numberIn_ext {table table' : ℕ → DiskNode} {data : ℕ → Block}
    (htype : ∀ y, (table' y).type = (table y).type)
    (haddrs : ∀ y, (table' y).addrs = (table y).addrs) :
    numberIn table' data = numberIn table data := by
  funext ⟨y, spot⟩
  simp only [numberIn, htype]
  congr 1
  cases spot with
  | inl | inr => simp only [DiskNode.numberAt, haddrs]

theorem number_resize (s : Volume P) (ip : ISlot) (size : BitVec 32) :
    (s.resize ip size).number ip = s.number ip := by
  have hnode : (s.resize ip size).table ip = update s.dinode
      (s.icache ip).inum { (s.icache ip).node with size := size } := by
    simp only [Volume.table, resize_self]
    rfl
  rw [Volume.number, hnode]
  apply numberIn_ext
  · intro y
    by_cases hy : y = (s.icache ip).inum
    · subst y
      simp [Volume.table]
    · simp [Volume.table, hy]
  · intro y
    by_cases hy : y = (s.icache ip).inum
    · subst y
      simp [Volume.table]
    · simp [Volume.table, hy]

/-- What an operation on the inode in slot `ip` leaves alone. -/
structure Apart (ip : ISlot) (s t : Volume P) : Prop where
  sb : t.sb = s.sb
  outstanding : t.outstanding = s.outstanding
  ftable : t.ftable = s.ftable
  cwd : t.cwd = s.cwd
  ofile : t.ofile = s.ofile
  slots : ∀ e, e ≠ ip → t.icache e = s.icache e
  core : ∃ size addrs, t.icache ip =
    { s.icache ip with node := { (s.icache ip).node with size := size, addrs := addrs } }
  dinode : ∀ x, x ≠ (s.icache ip).inum → t.dinode x = s.dinode x
  number : ∀ place, place.1 ≠ (s.icache ip).inum →
    t.number ip place = s.number ip place
  data : ∀ place, place.1 ≠ (s.icache ip).inum → s.number ip place ≠ 0 →
    t.data (s.number ip place) = s.data (s.number ip place)

theorem Grows.apart (hgrows : Grows ip s t) : Apart ip s t where
  sb := hgrows.frame.sb
  outstanding := hgrows.frame.outstanding
  ftable := hgrows.frame.ftable
  cwd := hgrows.frame.cwd
  ofile := hgrows.frame.ofile
  slots := hgrows.frame.slots
  core := by
    obtain ⟨addrs, hcore⟩ := hgrows.frame.core
    exact ⟨(s.icache ip).node.size, addrs, hcore⟩
  dinode := fun x _ => congrFun hgrows.frame.dinode x
  number := hgrows.elsewhere
  data := hgrows.data

theorem Apart.inum (hapart : Apart ip s t) : (t.icache ip).inum = (s.icache ip).inum := by
  obtain ⟨size, addrs, hcore⟩ := hapart.core
  rw [hcore]

theorem Apart.resize (hapart : Apart ip s t) (size : BitVec 32) :
    Apart ip s ((t.resize ip size).update ip) where
  sb := hapart.sb
  outstanding := hapart.outstanding
  ftable := hapart.ftable
  cwd := hapart.cwd
  ofile := hapart.ofile
  slots := by
    intro e he
    have hother : (t.resize ip size).icache e = t.icache e := by
      rw [Volume.resize, setNode, setCore_of_ne t _ he]
    exact hother.trans (hapart.slots e he)
  core := by
    obtain ⟨size', addrs, hcore⟩ := hapart.core
    refine ⟨size, addrs, (resize_self t ip size).trans ?_⟩
    rw [hcore]
  dinode := by
    intro x hx
    have hinum : ((t.resize ip size).icache ip).inum = (s.icache ip).inum := by
      rw [resize_self]
      exact hapart.inum
    rw [← hapart.dinode x hx]
    change update t.dinode ((t.resize ip size).icache ip).inum _ x = t.dinode x
    rw [hinum, update_of_ne hx]
  number := by
    intro place hplace
    rw [← hapart.number place hplace, ← number_resize t ip size]
    rw [Volume.number, table_update]
    rfl
  data := hapart.data

/-- What `writei` does when it accepts its arguments. -/
structure Rewritten (ip : ISlot) (src : ℕ → Byte) (off n : ℕ) (s t : Volume P) :
    Prop where
  apart : Apart ip s t
  owned : t.OwnedAt ip
  noHoles : (t.icache ip).node.NoHoles t.data
  content : (t.icache ip).node.content t.data =
    replaceAt ((s.icache ip).node.content s.data) off ((List.range n).map src)
  stored : s.dinode (s.icache ip).inum = (s.icache ip).node →
    t.dinode (t.icache ip).inum = (t.icache ip).node

theorem Rewritten.unlogged {n : ℕ} {t : Volume P}
    (h : Rewritten ip src off n s t) : Rewritten ip src off n s t.unlogged :=
  ⟨{ h.apart with }, h.owned, h.noHoles, h.content, h.stored⟩

theorem numberAt_of_addrs {node node' : DiskNode} (haddrs : node'.addrs = node.addrs)
    (data : ℕ → Block) : node'.numberAt data = node.numberAt data := by
  funext spot
  cases spot with
  | inl | inr => simp only [DiskNode.numberAt, haddrs]

theorem blockAt_of_addrs {node node' : DiskNode} (haddrs : node'.addrs = node.addrs)
    (data : ℕ → Block) (bn : ℕ) : node'.blockAt data bn = node.blockAt data bn := by
  rw [DiskNode.blockAt, DiskNode.blockAt, numberAt_of_addrs haddrs]

section Written

variable {src : ℕ → Byte} {off n : ℕ} {node : DiskNode}

section

variable (hwritten : WrittenTo ip src off n s t) (hused : (s.icache ip).node.type ≠ .none)
  (hholes : (s.icache ip).node.NoHoles s.data)

include hwritten hused hholes

theorem WrittenTo.noHoles (hsize : node.size.toNat = max (s.icache ip).node.size.toNat (off + n))
    (haddrs : node.addrs = (t.icache ip).node.addrs) : node.NoHoles t.data := by
  intro bn hbn
  rw [blockAt_of_addrs haddrs]
  rw [hsize] at hbn
  by_cases hlt : bn * bsize < off + n
  · exact hwritten.mapped bn hlt
  · have hold : s.blockAt ip bn ≠ 0 := hholes bn (by omega)
    have hkept : t.blockAt ip bn = s.blockAt ip bn := hwritten.grows.blockAt hused hold
    change t.blockAt ip bn ≠ 0
    rw [hkept]
    exact hold

theorem WrittenTo.content (hoff : off ≤ (s.icache ip).node.size.toNat)
    (hsize : node.size.toNat = max (s.icache ip).node.size.toNat (off + n))
    (haddrs : node.addrs = (t.icache ip).node.addrs) :
    node.content t.data =
      replaceAt ((s.icache ip).node.content s.data) off ((range n).map src) := by
  rw [DiskNode.content, DiskNode.content, hsize]
  apply map_range_replaceAt hoff
  intro k hk
  have hle := Nat.div_mul_le_self k bsize
  have hmapped : node.blockAt t.data (k / bsize) ≠ 0 :=
    hwritten.noHoles hused hholes hsize haddrs _ (by omega)
  rw [blockAt_of_addrs haddrs] at hmapped
  have hbyte : node.byte t.data k = t.byte ip k := by
    rw [DiskNode.byte, blockAt_of_addrs haddrs]
    rfl
  rw [hbyte, hwritten.bytes k hmapped]
  by_cases hin : off ≤ k ∧ k < off + n
  · rw [if_pos hin, if_pos hin]
  · have hold : s.blockAt ip (k / bsize) ≠ 0 := hholes _ (by omega)
    rw [if_neg hin, if_neg hin, if_pos hold]
    rfl

theorem WrittenTo.rewritten (hoff : off ≤ (s.icache ip).node.size.toNat)
    (hend : off + n ≤ (s.icache ip).node.size.toNat) : Rewritten ip src off n s t := by
  have hsize : (t.icache ip).node.size.toNat =
      max (s.icache ip).node.size.toNat (off + n) := by
    rw [hwritten.grows.frame.size]
    omega
  have hidle := hwritten.idle fun bn hbn => hholes bn (by omega)
  constructor
  case apart => exact hwritten.grows.apart
  case owned => exact hwritten.owned
  case noHoles => exact hwritten.noHoles hused hholes hsize rfl
  case content => exact hwritten.content hused hholes hoff hsize rfl
  case stored =>
    intro hstored
    rw [hwritten.grows.frame.dinode, hidle.1]
    exact hstored

theorem WrittenTo.rewritten_resize (hoff : off ≤ (s.icache ip).node.size.toNat) {size : BitVec 32}
    (hsize : size.toNat = off + n) (hlt : (s.icache ip).node.size.toNat < off + n) :
    Rewritten ip src off n s ((t.resize ip size).update ip) := by
  have hnode : (((t.resize ip size).update ip).icache ip).node =
      { (t.icache ip).node with size := size } :=
    congrArg CoreNode.node (resize_self t ip size)
  have hmax : size.toNat = max (s.icache ip).node.size.toNat (off + n) := by omega
  constructor
  case apart => exact hwritten.grows.apart.resize size
  case owned =>
    refine ⟨?_, hwritten.owned.reserved⟩
    have hexact := hwritten.owned.exact
    change Exact t.sb.IsData (t.number ip) t.bitmap at hexact
    rw [← number_resize t ip size] at hexact
    rw [table_update]
    exact hexact
  case noHoles =>
    rw [hnode]
    exact hwritten.noHoles hused hholes hmax rfl
  case content =>
    rw [hnode]
    exact hwritten.content hused hholes hoff hmax rfl
  case stored =>
    intro _
    exact update_self ..

end

end Written

def blocksFor (size : ℕ) : ℕ := (size + (bsize - 1)) / bsize

theorem le_blocksFor (size : ℕ) : size ≤ blocksFor size * bsize := by
  simp only [blocksFor, bsize]
  omega

theorem need_congr (hnode : (t.icache ip).node = (s.icache ip).node)
    (hdata : t.data = s.data) : t.need ip lo hi = s.need ip lo hi := by
  have hblock : ∀ bn, t.blockAt ip bn = s.blockAt ip bn := by
    intro bn
    rw [blockAt, hnode, hdata]
    rfl
  rw [Volume.need, Volume.need, hnode]
  simp only [hblock]

theorem need_resize (s : Volume P) (ip : ISlot) (size : BitVec 32) :
    ((s.resize ip size).update ip).need ip lo hi = s.need ip lo hi := by
  have haddrs : (((s.resize ip size).update ip).icache ip).node.addrs =
      (s.icache ip).node.addrs :=
    congrArg (fun core => core.node.addrs) (resize_self s ip size)
  simp only [Volume.need, blockAt, haddrs, blockAt_of_addrs haddrs]
  rfl

/-- `writei` turns down what does not fit, and otherwise replaces the bytes.  When there are
blocks enough to go on up to the block `hi`, there still are afterwards. -/
theorem ensures_writei (devsw : Devsw) (hdev : (s.icache ip).node.type ≠ .dev)
    (hused : (s.icache ip).node.type ≠ .none) (howned : s.OwnedAt ip)
    (hholes : (s.icache ip).node.NoHoles s.data) (src : ℕ → Byte) (off n : BitVec 32)
    (hhi : off.toNat + n.toNat ≤ hi * bsize)
    (hroom : ¬ Refused (s.icache ip).node.size off n →
      off.toNat + n.toNat ≤ maxfile * bsize →
      s.Room E (s.need ip (off.toNat / bsize) hi)) :
    Ensures (Vol.writei devsw ip src off n) s
      (fun result t =>
        (Refused (s.icache ip).node.size off n ∨
            maxfile * bsize < off.toNat + n.toNat → result = none ∧ t = s) ∧
        (¬ Refused (s.icache ip).node.size off n →
          off.toNat + n.toNat ≤ maxfile * bsize →
            result = some n ∧ Rewritten ip src off.toNat n.toNat s t ∧
            t.Room E (t.need ip ((off.toNat + n.toNat) / bsize) hi))) E := by
  simp only [Vol.writei, ensures_bind, ensures_get, hdev, if_false]
  split
  next hrefused =>
    rw [refused_iff] at hrefused
    exact ⟨fun _ => ⟨rfl, rfl⟩, fun h => (h hrefused).elim⟩
  next haccepted =>
    rw [refused_iff] at haccepted
    have hsum := toNat_add_of_accepted haccepted
    have hlarge : BitVec.ofNat 32 (maxfile * bsize) < off + n ↔
        maxfile * bsize < off.toNat + n.toNat := by
      rw [BitVec.lt_def, hsum]
      rfl
    split
    next hbig =>
      rw [hlarge] at hbig
      refine ⟨fun _ => ⟨rfl, rfl⟩, fun _ hsmall => ?_⟩
      omega
    next hsmall =>
      rw [hlarge] at hsmall
      have hfits : off.toNat + n.toNat ≤ maxfile * bsize := Nat.le_of_not_lt hsmall
      have hoff : off.toNat ≤ (s.icache ip).node.size.toNat := by
        unfold Refused at haccepted
        omega
      have hstart : WrittenTo ip src off.toNat 0 s s :=
        writtenTo_zero howned src fun bn hbn => hholes bn (by omega)
      simp only [ensures_bind]
      apply ensures_writeLoop hused hfits hhi _ n.toNat 0 s (by omega)
        (by omega) hstart (hroom haccepted hfits)
      intro u hwritten hleft
      have hsize := hwritten.grows.frame.size
      simp only [ensures_get]
      split
      next hgrown =>
        have hlt := hgrown.2
        rw [hsize, BitVec.lt_def, hsum] at hlt
        have hlog : (u.resize ip (off + n)).Room E 0 := by
          refine (hroom haccepted hfits).imp id ?_
          intro h
          have hlog' := h.1
          rw [← hwritten.grows.frame.outstanding] at hlog'
          exact ⟨hlog', Nat.zero_le _⟩
        simp only [ensures_bind, ensures_modify]
        apply ensures_iupdate (s := u.resize ip (off + n)) hlog
        refine ⟨fun h => ?_, fun _ _ => ⟨rfl, ?_, ?_⟩⟩
        · rcases h with h | h
          · exact (haccepted h).elim
          · omega
        · exact hwritten.rewritten_resize hused hholes hoff hsum hlt
        · rw [need_resize]
          exact hleft
      next hgrown =>
        have hend : off.toNat + n.toNat ≤ (s.icache ip).node.size.toNat := by
          rw [hsize, BitVec.lt_def, BitVec.lt_def, hsum] at hgrown
          have hzero : (0 : BitVec 32).toNat = 0 := rfl
          omega
        refine ⟨fun h => ?_, fun _ _ => ⟨rfl, ?_, hleft⟩⟩
        · rcases h with h | h
          · exact (haccepted h).elim
          · omega
        · exact hwritten.rewritten hused hholes hoff hend

theorem ensures_writei_room (ip : ISlot) (devsw : Devsw) (hboot : s.bitmap 0 = true)
    (src : ℕ → Byte) (off n : BitVec 32)
    (hroom : ¬ Refused (s.icache ip).node.size off n →
      s.LogRoom (off.toNat / bsize) (blocksFor (off.toNat + n.toNat))) :
    Ensures (Vol.writei devsw ip src off n) s (fun _ _ => True) fun t => ¬ t.LogFull := by
  simp only [Vol.writei, ensures_bind, ensures_get]
  split_ifs with hdev hrefused
  · trivial
  · trivial
  · trivial
  · rw [refused_iff] at hrefused
    obtain ⟨extra, k, blocks, hwithin, hlast⟩ := (hroom hrefused).within hboot ip
    have hend := le_blocksFor (off.toNat + n.toNat)
    simp only [ensures_bind]
    refine (ensures_writeLoop_room hlast n.toNat 0 off.toNat s blocks (by omega)
      (Nat.le_add_right _ _) (fun _ => le_rfl) hwithin).post ?_
    rintro _ u ⟨blocks', hu⟩
    have hspent := hu.spent_le
    simp only [ensures_get]
    split_ifs
    · simp only [ensures_bind, ensures_modify, Vol.iupdate, ensures_get]
      refine ensures_logWrite_room (not_logFull blocks' ?_) trivial
      change u.spent blocks' < u.sb.logLimit
      rw [hu.sb]
      omega
    · trivial

theorem OwnedAt.boot (howned : s.OwnedAt ip) : s.bitmap 0 = true :=
  howned.reserved 0 (Nat.add_pos_right _ (Nat.succ_pos _))

variable {node : DiskNode} {x : ℕ}

theorem DiskNode.HasBytes.used (hkind : node.HasBytes) : node.type ≠ .none := by
  rcases hkind with h | h <;> simp [h]

theorem DiskNode.HasBytes.not_dev (hkind : node.HasBytes) : node.type ≠ .dev := by
  rcases hkind with h | h <;> simp [h]

theorem table_other (hx : x ≠ (s.icache ip).inum) : s.table ip x = s.dinode x :=
  update_of_ne hx _ _

theorem number_other (hx : x ≠ (s.icache ip).inum) (hused : (s.dinode x).type ≠ .none)
    (spot : Spot) : s.number ip (x, spot) = (s.dinode x).numberAt s.data spot := by
  rw [Volume.number, numberIn, table_other hx, if_neg hused]

theorem Apart.blockAt (hapart : Apart ip s t) (hx : x ≠ (s.icache ip).inum)
    (hused : (s.dinode x).type ≠ .none) (bn : ℕ) :
    (t.dinode x).blockAt t.data bn = (s.dinode x).blockAt s.data bn := by
  have hdinode := hapart.dinode x hx
  have hnumber : (t.dinode x).numberAt t.data = (s.dinode x).numberAt s.data := by
    funext spot
    rw [← number_other hx hused, ← hapart.number (x, spot) hx,
      number_other (hapart.inum ▸ hx) (hdinode ▸ hused)]
  rw [DiskNode.blockAt, DiskNode.blockAt, hnumber]

theorem Apart.content_other (hapart : Apart ip s t) (hx : x ≠ (s.icache ip).inum)
    (hused : (s.dinode x).type ≠ .none) (hholes : (s.dinode x).NoHoles s.data) :
    (t.dinode x).content t.data = (s.dinode x).content s.data := by
  have hblock := hapart.blockAt hx hused
  rw [DiskNode.content, DiskNode.content, hapart.dinode x hx]
  apply map_congr_left
  intro k hk
  have hle := Nat.div_mul_le_self k bsize
  have hmapped := hholes (k / bsize) (hle.trans_lt (mem_range.mp hk))
  rw [← hapart.dinode x hx, DiskNode.byte, hblock, hapart.dinode x hx, DiskNode.byte]
  congr 1
  cases hspot : spotOf (k / bsize) with
  | none =>
    rw [DiskNode.blockAt, hspot] at hmapped
    exact (hmapped rfl).elim
  | some spot =>
    have hnumber : s.number ip (x, spot) = (s.dinode x).blockAt s.data (k / bsize) := by
      rw [number_other hx hused, DiskNode.blockAt, hspot]
      rfl
    rw [← hnumber] at hmapped ⊢
    exact hapart.data (x, spot) hx hmapped

end Contents

theorem mkfs_noHoles (x : ℕ) (hkind : (mkfsVolume.dinode x).HasBytes) :
    (mkfsVolume.dinode x).NoHoles mkfsVolume.data := by
  intro bn hbn
  by_cases hx : x = rootino
  · subst x
    obtain rfl : bn = 0 := by
      simp only [mkfsVolume, mkfsRoot, bsize, if_true] at hbn
      change bn * 512 < 512 at hbn
      omega
    decide
  · simp [mkfsVolume, hx, DiskNode.HasBytes] at hkind

def noDevices : Devsw := fun _ => ⟨none, none⟩

/-- A transaction on a fresh image. -/
def mkfsOpen : Volume Unit := { mkfsVolume with outstanding := 1 }

theorem mkfsOpen_owned : mkfsOpen.OwnedAt 0 ∧ mkfsOpen.NoHolesAt 0 := by
  have htable : mkfsOpen.table 0 = mkfsVolume.dinode := Function.update_eq_self ..
  refine ⟨?_, fun x => ?_⟩
  · rw [Volume.OwnedAt, htable]
    exact mkfs_owned
  · rw [htable]
    exact mkfs_noHoles x

end Xv6Kernel
