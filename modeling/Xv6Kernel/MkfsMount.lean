import Xv6Kernel.MkfsImage

/-!
# The image as the kernel finds it

The kernel mounts what `mkfs` has written: it reads the bits of the free map and the bytes of
the files.
-/

namespace Xv6Kernel.Mkfs

open StateHoare WordBytes BlockAllocation

/-- The bit for block `b`, as `balloc` and `bfree` read it. -/
def bitAt (block : Block) (b : ℕ) : Bool := (byteAt block (b / 8)).getLsbD (b % 8)

theorem bitAt_freeMap {used b : ℕ} (hb : b < bpb) (hused : used ≤ bpb) :
    bitAt (freeMap used) b = decide (b < used) := by
  have hbpb : bpb = 4096 := rfl
  induction used with
  | zero =>
    change BitVec.getLsbD (byteAt (fun _ => 0) _) _ = false
    rw [byteAt_zero]
    exact BitVec.getLsbD_zero
  | succ i ih =>
    have hprev := ih (by omega)
    rw [freeMap] at hprev
    rw [freeMap, List.range_succ, List.foldl_append, List.foldl_cons, List.foldl_nil]
    generalize List.foldl _ _ _ = buf at hprev ⊢
    rw [bitAt, byteAt_patch _ _ _ _ (by omega)]
    by_cases hbyte : b / 8 = i / 8
    · rw [if_pos (by omega), BitVec.getLsbD_or, ← hbyte, ← bitAt, hprev,
        BitVec.natCast_eq_ofNat, BitVec.getLsbD_ofNat, Nat.one_shiftLeft, Nat.testBit_two_pow]
      grind
    · rw [if_neg (by omega), ← bitAt, hprev]
      grind

/-- The free map marks the blocks in front of the data and those that belong to a file, and no
others; no block belongs to two places. -/
theorem mkfs_blocks_owned {files : List InputFile} {image : Image}
    (hrun : mkfs files = .ok () image) (hfew : files.length + 1 < sb.ninodes) :
    BlocksOwned sb image.table (bitAt (image.sector sb.bmapstart)) image.data := by
  have hspace : sb.ninodes + 1 ≤ inodeSpace := by decide
  obtain ⟨s, h⟩ := mkfs_finished hrun (by omega)
  have howned := h.holds.owned
  have hsize : sb.size < bpb := by decide
  have hmeta : sb.nmeta < bpb := by decide
  have hbit : ∀ b < bpb, bitAt (image.sector sb.bmapstart) b = s.used b := by
    intro b hb
    rw [h.freemap, bitAt_freeMap hb (h.holds.ready.high.trans (by decide)), Image.used]
  have hnumber : numberIn image.table image.data = numberIn s.table s.data := by
    funext place
    rw [h.table, h.data, numberIn, numberIn]
    by_cases hroot : place.1 = rootino
    · rw [hroot, Function.update_self]
      rfl
    · rw [Function.update_of_ne hroot]
  refine ⟨⟨?_, ?_, ?_, ?_⟩, ?_⟩
  · rw [hnumber]
    exact howned.exact.usable
  · intro place hplace
    rw [hnumber] at hplace ⊢
    rw [hbit _ ((howned.exact.usable place hplace).2.trans hsize)]
    exact howned.exact.marked place hplace
  · rw [hnumber]
    exact howned.exact.once
  · intro b hb hfit hmark
    rw [hbit b (hfit.2.trans hsize)] at hmark
    rw [hnumber]
    exact howned.exact.found b hb hfit hmark
  · intro b hb
    rw [hbit b (hb.trans hmeta)]
    exact howned.reserved b hb

theorem mkfs_blocks_owned_oneFile : ∃ image, mkfs (emptyFiles 1) = .ok () image ∧
    BlocksOwned sb image.table (bitAt (image.sector sb.bmapstart)) image.data := by
  have hlength := length_emptyFiles 1
  obtain ⟨image, hrun⟩ := mkfs_succeeds (by rw [hlength]; decide) (fits_emptyFiles (by decide))
  exact ⟨image, hrun, mkfs_blocks_owned hrun (by rw [hlength]; decide)⟩

/-- However the file was read, `readi` returns its bytes. -/
theorem mkfs_readi_bytes {P : Type} {files : List InputFile} {image : Image}
    (hrun : mkfs files = .ok () image) (hfew : files.length + 1 < sb.ninodes) {j : ℕ}
    {file : InputFile} (hfile : files[j]? = some file) (devsw : Devsw) (v : Volume P) (ip : ISlot)
    (hdata : v.data = image.data) (hnode : (v.icache ip).node = image.table (j + 2))
    {off n : BitVec 32} (hoff : off.toNat ≤ file.bytes.length) (hn : off.toNat + n.toNat < 2 ^ 32) :
    Vol.readi devsw ip off n v =
      .ok (some ((file.bytes.drop off.toNat).take n.toNat)) v := by
  have hspace : sb.ninodes + 1 ≤ inodeSpace := by decide
  obtain ⟨s, h⟩ := mkfs_finished hrun (by omega)
  have hj : j < files.length := (List.getElem?_eq_some_iff.mp hfile).1
  have hne : j + 2 ≠ rootino := by
    change j + 2 ≠ 1
    omega
  have hstored := h.holds.stored (j + 2) (by omega) (by rw [h.count]; omega)
  rw [contentOf, if_neg hne, Nat.add_sub_cancel, hfile, Option.elim_some] at hstored
  rw [h.table, Function.update_of_ne hne] at hnode
  rw [h.data] at hdata
  have hread := ensures_readi (E := fun _ => False) devsw
    (by rw [hnode]; exact hstored.kind.not_dev) (by rw [hnode, hdata]; exact hstored.noHoles) off n
  obtain ⟨result, t, hrun, rfl, -, hresult⟩ := hread.total
  rw [hrun, hresult, hnode, hdata, hstored.content]
  rw [Refused, hnode, hstored.size]
  omega

def greeting : InputFile := ⟨[104, 105], true, [[104], [105, 10]], by decide⟩

theorem mkfs_readi_bytes_greeting : ∃ image, mkfs [greeting] = .ok () image ∧
    ∃ v : Volume Unit, Vol.readi noDevices 0 1 5 v = .ok (some [105, 10]) v := by
  have hfits : Fits [greeting] := by
    constructor
    case names => decide
    case opens => decide
    case sizes => decide
    case blocks => decide +kernel
  obtain ⟨image, hrun⟩ := mkfs_succeeds (by decide) hfits
  have hfile : [greeting][0]? = some greeting := rfl
  refine ⟨image, hrun, image.volume 2 (image.node 2) [], ?_⟩
  exact mkfs_readi_bytes hrun (by decide) hfile noDevices _ 0 volume_data
    (by rw [volume_core, Image.table, if_pos (by decide)]) (by decide) (by decide)

end Xv6Kernel.Mkfs
