import Xv6Kernel.BlockOwnership

/-!
# How much of the log a write takes

`log_write` panics once the log has reached its limit.  A write logs the blocks that it covers,
blocks of the free map for those that are new, the indirect block, and the block of the inode.
A block that is logged a second time takes no room, so the blocks of the free map count once.

This is kept apart from what a write does: `Room` there says that it may stop where the log is
full, and the bounds here say that it is not.
-/

namespace Xv6Kernel

open StateHoare Finset

variable {P : Type}

def Superblock.bitmapBlocks (sb : Superblock) : Finset ℕ :=
  Finset.Icc sb.bmapstart (sb.bmapstart + sb.size / bpb)

/-- What may be in the log when it takes another block. -/
def Superblock.logLimit (sb : Superblock) : ℕ := min logSize (sb.nlog - 1)

namespace Volume

def indirect (s : Volume P) (ip : ISlot) : ℕ := (s.icache ip).node.addrs (Fin.last ndirect)

/-- What is in the log, when the blocks of `blocks` are counted as if they were. -/
def spent (s : Volume P) (blocks : Finset ℕ) : ℕ :=
  s.logged.length + (blocks \ s.logged.toFinset).card

/-- Room in the log for the blocks from `lo` up to `hi`, and those of the free map, the indirect
block and the block of the inode that they bring with them. -/
def LogRoom (s : Volume P) (lo hi : ℕ) : Prop :=
  s.logged.length + (hi - lo) + min (s.sb.size / bpb + 1) (hi - lo + 1) + 2 ≤ s.sb.logLimit

instance (s : Volume P) (lo hi : ℕ) : Decidable (s.LogRoom lo hi) :=
  inferInstanceAs (Decidable (_ ≤ _))

end Volume

open Volume

section Spent

variable {s : Volume P} {b : ℕ} {blocks : Finset ℕ}

theorem spent_record (hb : b ∈ blocks) : (s.record b).spent blocks = s.spent blocks := by
  by_cases hold : b ∈ s.logged
  · simp [spent, record, hold]
  · have hnew : b ∈ blocks \ s.logged.toFinset := by simp [hb, hold]
    have hcard := card_erase_add_one hnew
    simp only [spent, record, if_neg hold, List.length_append, List.length_singleton,
      List.toFinset_append, List.toFinset_cons, List.toFinset_nil, insert_empty_eq,
      union_singleton, sdiff_insert]
    omega

theorem spent_insert (s : Volume P) (b : ℕ) (blocks : Finset ℕ) :
    s.spent (insert b blocks) ≤ s.spent blocks + 1 := by
  have hsub : insert b blocks \ s.logged.toFinset ⊆ insert b (blocks \ s.logged.toFinset) := by
    intro x
    simp only [mem_sdiff, mem_insert]
    tauto
  have hcard := (card_le_card hsub).trans (card_insert_le _ _)
  simp only [spent]
  omega

theorem logFull_iff : s.LogFull ↔ s.sb.logLimit ≤ s.logged.length := by
  simp only [LogFull, Superblock.logLimit]
  omega

theorem not_logFull (blocks : Finset ℕ) (hspent : s.spent blocks < s.sb.logLimit) :
    ¬ s.LogFull := by
  rw [logFull_iff]
  unfold spent at hspent
  omega

theorem ensures_logWrite_room {Q : PUnit → Volume P → Prop} (hroom : ¬ s.LogFull)
    (hQ : Q () (s.record b)) : Ensures (Vol.logWrite b) s Q fun t => ¬ t.LogFull := by
  simp only [Vol.logWrite, ensures_bind, ensures_get, if_neg hroom]
  split_ifs
  · exact hroom
  · exact hQ

end Spent

/-! ## Rounds -/

/-- At most `n` blocks are in the log, besides the indirect block; `blocks` are counted as if they
were.  With `extra = 0` all blocks of the free map are among them from the start, with `extra = 1`
each new block may bring one with it. -/
structure Within (layout : Superblock) (extra : ℕ) (ip : ISlot) (n : ℕ) (blocks : Finset ℕ)
    (t : Volume P) : Prop where
  sb : t.sb = layout
  boot : t.bitmap 0 = true
  bitmap : extra = 0 → layout.bitmapBlocks ⊆ blocks
  spent : t.spent blocks ≤ n ∨
    t.indirect ip ≠ 0 ∧ t.indirect ip ∈ blocks ∧ t.spent blocks ≤ n + (1 + extra)

section Rounds

variable {sb : Superblock} {extra n : ℕ} {ip : ISlot} {blocks blocks' : Finset ℕ} {s t : Volume P}
  {b : ℕ}

section

variable (h : Within sb extra ip n blocks t)

include h

theorem Within.spent_le : t.spent blocks ≤ n + (1 + extra) := by
  rcases h.spent with hle | ⟨-, -, hle⟩ <;> omega

theorem Within.count (b : ℕ) : Within sb extra ip (n + (1 + extra)) (insert b blocks) t where
  __ := h
  bitmap := fun hzero => (h.bitmap hzero).trans (subset_insert _ _)
  spent := by
    have hle := spent_insert t b blocks
    rcases h.spent with hspent | ⟨hne, hmem, hspent⟩
    · exact .inl (by omega)
    · exact .inr ⟨hne, mem_insert_of_mem hmem, by omega⟩

theorem Within.record (hb : b ∈ blocks) : Within sb extra ip n blocks (t.record b) where
  __ := h
  spent := by
    rw [spent_record hb]
    exact h.spent

theorem Within.mono {m : ℕ} (hle : n ≤ m) : Within sb extra ip m blocks t where
  __ := h
  spent := h.spent.imp (by omega) fun ⟨hne, hmem, hspent⟩ => ⟨hne, hmem, by omega⟩

end

/-- A new block `b` and its block of the free map are counted. -/
structure Taken (extra : ℕ) (blocks : Finset ℕ) (s : Volume P) (b : ℕ) (blocks' : Finset ℕ)
    (t : Volume P) : Prop where
  sb : t.sb = s.sb
  boot : t.bitmap 0 = true
  icache : t.icache = s.icache
  ne : b ≠ 0
  mem : b ∈ blocks'
  sub : blocks ⊆ blocks'
  spent : t.spent blocks' ≤ s.spent blocks + (1 + extra)

/-- The number of the new block goes into the inode or into its indirect block. -/
theorem Taken.within {u : Volume P} (ht : Taken extra blocks s b blocks' t)
    (h : Within sb extra ip n blocks s) (hsb : u.sb = t.sb) (hbitmap : u.bitmap = t.bitmap)
    (hspent : u.spent blocks' = t.spent blocks') (hsame : u.indirect ip = s.indirect ip) :
    Within sb extra ip (n + (1 + extra)) blocks' u where
  sb := hsb.trans (ht.sb.trans h.sb)
  boot := hbitmap ▸ ht.boot
  bitmap := fun hzero => (h.bitmap hzero).trans ht.sub
  spent := by
    have hle := ht.spent
    rw [hsame, hspent]
    rcases h.spent with hold | ⟨hne, hmem, hold⟩
    · exact .inl (by omega)
    · exact .inr ⟨hne, ht.sub hmem, by omega⟩

theorem ensures_balloc_room (h : Within sb extra ip n blocks s)
    (hroom : s.spent blocks + extra < sb.logLimit) {Q : ℕ → Volume P → Prop}
    (hQ : ∀ b t blocks', Taken extra blocks s b blocks' t → Q b t) :
    Ensures Vol.balloc s Q fun t => ¬ t.LogFull := by
  obtain rfl := h.sb
  have hfull : ¬ s.LogFull := not_logFull blocks (by omega)
  cases hfree : s.freeBlock with
  | none =>
    simp only [Vol.balloc, ensures_bind, ensures_get, hfree]
    exact hfull
  | some b =>
    obtain ⟨hlt, hbit⟩ := freeBlock_eq_some hfree
    have hne : b ≠ 0 := by
      rintro rfl
      rw [h.boot] at hbit
      cases hbit
    -- the block of the free map is counted, or makes it one more
    obtain ⟨with', hmem, hsub, hspent⟩ : ∃ with', s.sb.bblock b ∈ with' ∧ blocks ⊆ with' ∧
        s.spent with' ≤ s.spent blocks + extra := by
      by_cases hzero : extra = 0
      · refine ⟨blocks, h.bitmap hzero ?_, subset_rfl, by omega⟩
        have hle : b / bpb ≤ s.sb.size / bpb := Nat.div_le_div_right hlt.le
        rw [Superblock.bitmapBlocks, mem_Icc, Superblock.bblock]
        exact ⟨Nat.le_add_left _ _, by omega⟩
      · refine ⟨insert (s.sb.bblock b) blocks, mem_insert_self _ _, subset_insert _ _, ?_⟩
        have hle := spent_insert s (s.sb.bblock b) blocks
        omega
    have hmarked := spent_record (s := s.setBit b true) hmem
    simp only [Vol.balloc, Vol.bzero, ensures_bind, ensures_get, hfree, ensures_modify]
    refine ensures_logWrite_room hfull ?_
    refine ensures_logWrite_room (not_logFull with' ?_) ?_
    · exact (hmarked.trans_le hspent).trans_lt hroom
    · apply hQ b _ (insert b with')
      refine ⟨rfl, ?_, rfl, hne, mem_insert_self _ _, hsub.trans (subset_insert _ _), ?_⟩
      · exact (Function.update_of_ne hne.symm _ _).trans h.boot
      · rw [spent_record (mem_insert_self _ _)]
        exact ((spent_insert _ _ _).trans (Nat.add_le_add_right (hmarked.trans_le hspent) 1)).trans
          (by omega)

theorem Volume.LogRoom.not_logFull {lo hi : ℕ} (hroom : s.LogRoom lo hi) : ¬ s.LogFull := by
  rw [logFull_iff]
  unfold LogRoom at hroom
  simp only [bpb] at hroom
  omega

theorem Volume.LogRoom.within {lo hi : ℕ} (hroom : s.LogRoom lo hi) (hboot : s.bitmap 0 = true)
    (ip : ISlot) : ∃ extra n blocks, Within s.sb extra ip n blocks s ∧
      n + (hi - lo) * (1 + extra) + (1 + extra) < s.sb.logLimit := by
  have hcard : ∀ blocks : Finset ℕ, s.spent blocks ≤ s.logged.length + blocks.card := fun _ =>
    Nat.add_le_add_left (card_le_card sdiff_subset) _
  unfold LogRoom at hroom
  rcases le_total (s.sb.size / bpb + 1) (hi - lo + 1) with hle | hle
  · have hspent := hcard s.sb.bitmapBlocks
    have hcount : s.sb.bitmapBlocks.card = s.sb.size / bpb + 1 := by
      rw [Superblock.bitmapBlocks, Nat.card_Icc, Nat.add_assoc, Nat.add_sub_cancel_left]
    refine ⟨0, s.logged.length + (s.sb.size / bpb + 1), s.sb.bitmapBlocks,
      ⟨rfl, hboot, fun _ => subset_rfl, .inl (hcount ▸ hspent)⟩, ?_⟩
    rw [Nat.min_eq_left hle] at hroom
    omega
  · refine ⟨1, s.logged.length, ∅,
      ⟨rfl, hboot, fun hzero => absurd hzero (by decide), .inl (hcard ∅)⟩, ?_⟩
    rw [Nat.min_eq_right hle] at hroom
    omega

section

variable (h : Within sb extra ip n blocks s)

include h

theorem ensures_mapAddr_room (hroom : n + (1 + extra) + extra < sb.logLimit) {i : Fin (ndirect + 1)}
    (hi : i ≠ Fin.last ndirect) :
    Ensures (Vol.mapAddr ip i) s (fun b t => ∃ blocks', b ∈ blocks' ∧
      Within sb extra ip (n + (1 + extra)) blocks' t) fun t => ¬ t.LogFull := by
  have hspent := h.spent_le
  simp only [Vol.mapAddr, ensures_bind, ensures_get]
  split_ifs
  · rw [ensures_bind]
    refine ensures_balloc_room h (by omega) ?_
    intro b t blocks' ht
    simp only [ensures_bind, ensures_modify, ensures_pure]
    refine ⟨blocks', ht.mem, ht.within h rfl rfl rfl ?_⟩
    rw [indirect, setAddr_self, ht.icache, DiskNode.setAddr_addrs, Function.update_of_ne hi.symm]
    rfl
  · exact ⟨_, mem_insert_self _ _, h.count _⟩

/-- The indirect block is there and counted. -/
theorem ensures_mapIndirect_room (hroom : n + extra < sb.logLimit) :
    Ensures (Vol.mapAddr ip (Fin.last ndirect)) s (fun c t => ∃ blocks', c ∈ blocks' ∧
      Within sb extra ip n blocks' t) fun t => ¬ t.LogFull := by
  simp only [Vol.mapAddr, ensures_bind, ensures_get]
  split_ifs with hempty
  · have hspent : s.spent blocks ≤ n := h.spent.resolve_right fun hind => hind.1 hempty
    rw [ensures_bind]
    refine ensures_balloc_room h (by omega) ?_
    intro b t blocks' ht
    have hself : (t.setAddr ip (Fin.last ndirect) b).indirect ip = b := by
      rw [indirect, setAddr_self, DiskNode.setAddr_addrs, Function.update_self]
    simp only [ensures_bind, ensures_modify, ensures_pure]
    refine ⟨blocks', ht.mem, ht.sb.trans h.sb, ht.boot,
      fun hzero => (h.bitmap hzero).trans ht.sub, .inr ?_⟩
    rw [hself]
    exact ⟨ht.ne, ht.mem, ht.spent.trans (by omega)⟩
  · rcases h.spent with hspent | ⟨-, hmem, -⟩
    · refine ⟨insert (s.indirect ip) blocks, mem_insert_self _ _, h.sb, h.boot,
        fun hzero => (h.bitmap hzero).trans (subset_insert _ _),
        .inr ⟨hempty, mem_insert_self _ _, (spent_insert _ _ _).trans (by omega)⟩⟩
    · exact ⟨blocks, hmem, h⟩

theorem ensures_mapWord_room {c : ℕ} (hc : c ∈ blocks)
    (hroom : n + (1 + extra) + (1 + extra) < sb.logLimit) (j : Fin nindirect) :
    Ensures (Vol.mapWord c j) s (fun b t => ∃ blocks', b ∈ blocks' ∧
      Within sb extra ip (n + (1 + extra)) blocks' t) fun t => ¬ t.LogFull := by
  have hspent := h.spent_le
  simp only [Vol.mapWord, ensures_bind, ensures_get]
  split_ifs
  · rw [ensures_bind]
    refine ensures_balloc_room h (by omega) ?_
    intro b t blocks' ht
    have hu : ∀ block, Within sb extra ip (n + (1 + extra)) blocks' (t.setData c block) :=
      fun block => ht.within h rfl rfl rfl (congrArg (CoreNode.node · |>.addrs _)
        (congrFun ht.icache ip))
    simp only [ensures_bind, ensures_modify]
    refine ensures_logWrite_room (not_logFull blocks' ?_) ?_
    · have hle := ht.spent
      change t.spent blocks' < t.sb.logLimit
      rw [ht.sb, h.sb]
      omega
    · rw [ensures_pure]
      exact ⟨blocks', ht.mem, (hu _).record (ht.sub hc)⟩
  · exact ⟨_, mem_insert_self _ _, h.count _⟩

theorem ensures_bmap_room (hroom : n + (1 + extra) + (1 + extra) < sb.logLimit) (bn : ℕ) :
    Ensures (Vol.bmap ip bn) s (fun b t => ∃ blocks', b ∈ blocks' ∧
      Within sb extra ip (n + (1 + extra)) blocks' t) fun t => ¬ t.LogFull := by
  unfold Vol.bmap
  split
  next hdirect =>
    refine ensures_mapAddr_room h (by omega) fun hlast => ?_
    exact absurd (congrArg Fin.val hlast) (Nat.ne_of_lt hdirect)
  next =>
    split
    next hlt =>
      refine (ensures_mapIndirect_room h (by omega)).bind ?_
      rintro c t ⟨blocks', hc, ht⟩
      exact ensures_mapWord_room ht hc hroom _
    next =>
      have hspent := h.spent_le
      exact not_logFull blocks (by rw [h.sb]; omega)

end

/-- The rounds for the blocks from the one of `off` up to `hi`. -/
theorem ensures_writeLoop_room {src : ℕ → WordBytes.Byte} {len hi last : ℕ}
    (hroom : last + (1 + extra) < sb.logLimit) (fuel tot off : ℕ) (t : Volume P)
    (blocks : Finset ℕ) (hend : off + (len - tot) ≤ hi * bsize) (hlast : n ≤ last)
    (hn : tot < len → n + (hi - off / bsize) * (1 + extra) ≤ last)
    (h : Within sb extra ip n blocks t) :
    Ensures (Vol.writeLoop ip src len fuel tot off) t
      (fun _ u => ∃ blocks, Within sb extra ip last blocks u) fun u => ¬ u.LogFull := by
  induction fuel generalizing n tot off t blocks with
  | zero => exact ⟨blocks, h.mono hlast⟩
  | succ fuel ih =>
    rw [Vol.writeLoop]
    split
    next hmore =>
      have hlo : off / bsize < hi := Nat.div_lt_of_lt_mul (by
        rw [Nat.mul_comm]
        omega)
      obtain ⟨k, hk⟩ : ∃ k, hi - off / bsize = k + 1 := ⟨hi - off / bsize - 1, by omega⟩
      have hnext := hn hmore
      rw [hk, Nat.succ_mul] at hnext
      refine (ensures_bmap_room h (by omega) _).bind ?_
      rintro b u ⟨blocks', hb, hu⟩
      have hspent := hu.spent_le
      simp only [ensures_bind, ensures_modify]
      refine ensures_logWrite_room (not_logFull blocks' ?_) ?_
      · change u.spent blocks' < u.sb.logLimit
        rw [hu.sb]
        omega
      · refine ih (n := n + (1 + extra)) (tot + _) (off + _) _ blocks' ?_ (by omega) ?_
          (Within.record (t := u.setData b _) ⟨hu.sb, hu.boot, hu.bitmap, hu.spent⟩ hb)
        · omega
        · intro hleft
          -- a round that is not the last one fills its block
          have hround :
              (off + min (len - tot) (bsize - off % bsize)) / bsize = off / bsize + 1 := by
            simp only [bsize] at *
            omega
          rw [hround, show hi - (off / bsize + 1) = k by omega]
          omega
    next => exact ⟨blocks, h.mono hlast⟩

end Rounds

end Xv6Kernel
