import Xv6Kernel.LogDisk

/-!
# Disks with a log on them

What the header block says when it is read back, and what single writes do to a
disk that recovery has to work with: filling the log and installing it keep the
contents that recovery will produce, and writing a header decides between the
old contents and the new ones.
-/

namespace Xv6Kernel

open TraceExecution StateHoare RedoLog

theorem wordAt_encodeHeader_zero (block : List ℕ) (data : Block) :
    wordAt (encodeHeader block data) 0 = BitVec.ofNat 32 block.length := by
  simp [wordAt, encodeHeader]

theorem wordAt_encodeHeader_succ {block : List ℕ} (data : Block) {i : ℕ}
    (hi : i < block.length) (hlength : block.length ≤ logSize) :
    wordAt (encodeHeader block data) (i + 1) = BitVec.ofNat 32 (block.get ⟨i, hi⟩) := by
  have hword : i + 1 < 128 := by
    have hsize : logSize = 30 := rfl
    omega
  simp [wordAt, hword, encodeHeader, hi]

theorem headerBlocks_encodeHeader {block : List ℕ} (data : Block) (hlength : block.length ≤ logSize)
    (hrange : ∀ b ∈ block, b < fssize) : headerBlocks (encodeHeader block data) = block := by
  have hsize : logSize = 30 := rfl
  have hn : (wordAt (encodeHeader block data) 0).toInt.toNat = block.length := by
    have hbmod : Int.bmod (block.length : ℤ) (2 ^ 32) = block.length := by
      apply Int.bmod_eq_of_le <;> omega
    rw [wordAt_encodeHeader_zero, BitVec.toInt_ofNat', hbmod, Int.toNat_natCast]
  apply List.ext_getElem
  · simp [headerBlocks, hn]
  · intro i h1 h2
    have hb : block[i] < fssize := hrange _ (List.getElem_mem h2)
    have hmod : block[i] % 2 ^ 32 = block[i] := Nat.mod_eq_of_lt (by
      have hfs : fssize = 1000 := rfl
      omega)
    simp only [headerBlocks, List.getElem_map, List.getElem_range]
    rw [wordAt_encodeHeader_succ data h2 hlength, BitVec.toNat_ofNat]
    exact hmod

theorem headerBlocks_encodeHeader_nil (data : Block) : headerBlocks (encodeHeader [] data) = [] :=
  headerBlocks_encodeHeader data (by simp) (by simp)

def logLayout (start slots : ℕ) : Layout ℕ Block where
  header := start
  slot := fun i => start + i + 1
  slots := slots
  decode := headerBlocks

theorem logLayout_separate (start slots : ℕ) : (logLayout start slots).Separate where
  slot := by
    intro i j _ _ heq
    simp only [logLayout] at heq
    omega
  header := by
    intro i _
    simp only [logLayout]
    omega

structure Loggable (start slots : ℕ) (block : List ℕ) : Prop where
  fits : (logLayout start slots).Fits block
  length : block.length ≤ logSize
  range : ∀ b ∈ block, b < fssize
  superblock : 1 ∉ block

/-- The superblock describes the log, and what the log says is committed can be
installed. -/
structure LogFormat (start slots : ℕ) (d : ℕ → Block) : Prop where
  nlog : (wordAt (d 1) 3).toInt = slots + 1
  logstart : (wordAt (d 1) 4).toNat = start
  behind : 1 < start
  size : start + slots + 1 ≤ fssize
  logged : Loggable start slots ((logLayout start slots).logged d)

/-- The disk is one from which recovery produces `contents`. -/
structure Recoverable (start slots : ℕ) (d contents : ℕ → Block) : Prop where
  format : LogFormat start slots d
  view : ∀ b, (logLayout start slots).Home b →
    (logLayout start slots).view d b = contents b

section Writes

variable {start slots : ℕ} {d contents : ℕ → Block} {data : Block} {i : ℕ}

theorem loggable_nil : Loggable start slots [] where
  fits := ⟨by simp, by simp, by simp⟩
  length := by simp
  range := by simp
  superblock := by simp

theorem LogFormat.update (hformat : LogFormat start slots d) {b : ℕ} (hb : b ≠ 1)
    (hlogged : Loggable start slots ((logLayout start slots).logged (Function.update d b data))) :
    LogFormat start slots (Function.update d b data) where
  nlog := by
    rw [Function.update_of_ne (Ne.symm hb)]
    exact hformat.nlog
  logstart := by
    rw [Function.update_of_ne (Ne.symm hb)]
    exact hformat.logstart
  behind := hformat.behind
  size := hformat.size
  logged := hlogged

theorem Recoverable.fill (hrec : Recoverable start slots d contents)
    (hi : i < slots) (hempty : (logLayout start slots).logged d = []) :
    Recoverable start slots (Function.update d (start + i + 1) data) contents := by
  have hsep := logLayout_separate start slots
  have hlogged : (logLayout start slots).logged
      (Function.update d (start + i + 1) data) = [] :=
    (Layout.logged_update_of_ne (hsep.header i hi)).trans hempty
  constructor
  · apply hrec.format.update
    · have hstart := hrec.format.behind
      omega
    · rw [hlogged]
      exact loggable_nil
  · intro b hb
    rw [← hrec.view b hb]
    exact Layout.view_fill hsep hi hempty hb

theorem LogFormat.commit (hformat : LogFormat start slots d)
    (hlogged : Loggable start slots (headerBlocks data))
    (hfilled : ∀ i (hi : i < (headerBlocks data).length),
      d (start + i + 1) = contents ((headerBlocks data)[i]))
    (hrest : ∀ b, (logLayout start slots).Home b → b ∉ headerBlocks data →
      d b = contents b) :
    Recoverable start slots (Function.update d start data) contents := by
  have hheader : (logLayout start slots).logged (Function.update d start data) =
      headerBlocks data := by
    simp [Layout.logged, logLayout]
  constructor
  · apply hformat.update
    · have hbehind := hformat.behind
      omega
    · rw [hheader]
      exact hlogged
  · intro b hb
    exact Layout.view_commit (logLayout_separate start slots) hlogged.fits hfilled hrest hb

theorem Recoverable.install (hrec : Recoverable start slots d contents)
    (data : Block) (hi : i < ((logLayout start slots).logged d).length) :
    Recoverable start slots
      (Function.update d ((logLayout start slots).logged d)[i] data)
      contents := by
  have hlogged := hrec.format.logged
  have hmem := List.getElem_mem hi
  constructor
  · apply hrec.format.update
    · intro heq
      rw [heq] at hmem
      exact hlogged.superblock hmem
    · rw [Layout.logged_update_of_ne (hlogged.fits.home _ hmem).1]
      exact hlogged
  · intro b hb
    rw [← hrec.view b hb]
    exact Layout.view_install hlogged.fits hi b

theorem Recoverable.erase (hrec : Recoverable start slots d contents)
    (hempty : headerBlocks data = [])
    (hinstalled : ∀ b ∈ (logLayout start slots).logged d, d b = contents b) :
    Recoverable start slots (Function.update d start data) contents := by
  constructor
  · apply hrec.format.update
    · have hstart := hrec.format.behind
      omega
    · have hnil : (logLayout start slots).logged (Function.update d start data) =
          [] := by
        simp [Layout.logged, logLayout, hempty]
      rw [hnil]
      exact loggable_nil
  · intro b hb
    rw [← hrec.view b hb]
    apply Layout.view_erase hempty _ hb
    intro a ha
    rw [hrec.view a (hrec.format.logged.fits.home a ha)]
    exact hinstalled a ha

end Writes

end Xv6Kernel
