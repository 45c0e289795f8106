import Xv6Kernel.ByteMemory
import Xv6Kernel.ProgramImages

/-!
# Loading the kernel

`bootmain` reads the segments of the kernel from the disk by whole sectors, so it also writes
before and behind a segment.  What is written behind is overwritten when the next segment is
loaded, what is written before is not.

The loader's own code and stack are not part of the memory here.
-/

namespace Xv6Kernel.Boot

open Vm (uadd usub elfMagic)

/-! ## `bootmain.c` -/

def readsect (disk : Memory) (dst offset : ℕ) (m : Memory) : Memory := fun a =>
  if usub a dst < 512 then disk (512 * offset + usub a dst) else m a

def stosb (dst n : ℕ) (m : Memory) : Memory := fun a => if usub a dst < n then 0 else m a

/-- The loop of `readseg`; `none` if it has not ended after `fuel` rounds. -/
def readsects (disk : Memory) (epa : ℕ) : ℕ → ℕ → ℕ → Memory → Option Memory
  | 0, _, _, _ => none
  | fuel + 1, pa, offset, m =>
      if pa < epa then
        readsects disk epa fuel (uadd pa 512) (offset + 1) (readsect disk pa offset m)
      else some m

def readseg (disk : Memory) (fuel pa count offset : ℕ) (m : Memory) : Option Memory :=
  readsects disk (uadd pa count) fuel (usub pa (offset % 512)) (offset / 512 + 1) m

structure ProgHdr where
  off : ℕ
  paddr : ℕ
  filesz : ℕ
  memsz : ℕ
  deriving DecidableEq

open ProgHdr

def proghdr (m : Memory) (a : ℕ) : ProgHdr where
  off := uintAt m (a + 4)
  paddr := uintAt m (a + 12)
  filesz := uintAt m (a + 16)
  memsz := uintAt m (a + 20)

/-- One round for the program header at `ph`, which is read again after `readseg`. -/
def loadSegment (disk : Memory) (fuel ph : ℕ) (m : Memory) : Option Memory := do
  let pa := (proghdr m ph).paddr
  let m ← readseg disk fuel pa (proghdr m ph).filesz (proghdr m ph).off m
  let filesz := (proghdr m ph).filesz
  let memsz := (proghdr m ph).memsz
  if memsz > filesz then return stosb (uadd pa filesz) (memsz - filesz) m
  else return m

/-- The loop over `n` program headers from `ph` on. -/
def loadSegments (disk : Memory) (fuel : ℕ) : ℕ → ℕ → Memory → Option Memory
  | 0, _, m => some m
  | n + 1, ph, m => do
      let m ← loadSegment disk fuel ph m
      loadSegments disk fuel n (ph + 32) m

def elf : ℕ := 0x10000

/-- The memory in the end, and the entry point unless the image is none. -/
def bootmain (disk : Memory) (fuel : ℕ) (m : Memory) : Option (Memory × Option ℕ) := do
  let m ← readseg disk fuel elf 4096 0 m
  if uintAt m elf ≠ elfMagic then return (m, none)
  else
    let ph := uadd elf (uintAt m (elf + 28))
    let eph := uadd ph (32 * ushortAt m (elf + 44))
    let m ← loadSegments disk fuel ((eph - ph + 31) / 32) ph m
    return (m, some (uintAt m (elf + 24)))

def image (disk : Memory) : Memory := fun i => disk (512 + i)

def phnum (file : Memory) : ℕ := ushortAt file 44

def segment (file : Memory) (i : ℕ) : ProgHdr := proghdr file (uintAt file 28 + 32 * i)

namespace ProgHdr

def Has (ph : ProgHdr) (a : ℕ) : Prop :=
  ph.paddr ≤ a ∧ a < ph.paddr + max ph.filesz ph.memsz

def wanted (file : Memory) (ph : ProgHdr) (a : ℕ) : UInt8 :=
  if a < ph.paddr + ph.filesz then file (ph.off + (a - ph.paddr)) else 0

def bottom (ph : ProgHdr) : ℕ := ph.paddr - ph.off % 512

def sectors (ph : ProgHdr) : ℕ := (ph.off % 512 + ph.filesz + 511) / 512

/-- The addresses that the sectors read for the segment go to. -/
def Reads (ph : ProgHdr) (a : ℕ) : Prop :=
  ph.bottom ≤ a ∧ a < ph.bottom + 512 * ph.sectors

/-- What is written for the segment stays inside the address space and off the page with the
headers. -/
structure Clear (ph : ProgHdr) : Prop where
  below : ph.off % 512 ≤ ph.paddr
  sectorsEnd : ph.bottom + 512 * ph.sectors < 2 ^ 32
  memEnd : ph.paddr + ph.memsz ≤ 2 ^ 32
  page : ∀ a, ph.Has a ∨ ph.Reads a → a < elf ∨ elf + 4096 ≤ a

theorem Clear.lt {ph : ProgHdr} {a : ℕ} (hclear : ph.Clear) (hhas : ph.Has a) : a < 2 ^ 32 := by
  obtain ⟨hbelow, hend, hmem, -⟩ := hclear
  unfold Has at hhas
  simp only [bottom, sectors] at hend
  omega

end ProgHdr

/-- The program headers lie in the first page, the segments one behind the other. -/
structure Loadable (file : Memory) : Prop where
  magic : uintAt file 0 = elfMagic
  headers : uintAt file 28 + 32 * phnum file ≤ 4096
  increasing : ∀ j < phnum file, ∀ i < j, ∀ a b,
    (segment file i).Has a → (segment file j).Has b → a < b

/-- The segments are in memory as the file has them. -/
def Faithful (file m : Memory) : Prop :=
  ∀ i < phnum file, ∀ a, (segment file i).Has a → m a = (segment file i).wanted file a

/-- Of the first `t` segments `k` is the last one whose sectors go to the address `a`. -/
structure LastReads (file : Memory) (t a k : ℕ) : Prop where
  lt : k < t
  reads : (segment file k).Reads a
  last : ∀ l, k < l → l < t → ¬ (segment file l).Reads a

/-- Where sectors read for later segments cover a byte of a segment, the last of them have the
same byte there. -/
def Undamaged (file : Memory) : Prop :=
  ∀ i < phnum file, ∀ a, (segment file i).Has a → ∀ k, i < k → LastReads file (phnum file) a k →
    file ((segment file k).off + a - (segment file k).paddr) = (segment file i).wanted file a

theorem usub_of_le {a b : ℕ} (hle : b ≤ a) (ha : a < 2 ^ 32) : usub a b = a - b := by
  rw [usub]
  omega

theorem usub_lt_iff {a dst n : ℕ} (hend : dst + n ≤ 2 ^ 32) (ha : a < 2 ^ 32) :
    usub a dst < n ↔ dst ≤ a ∧ a < dst + n := by
  rw [usub]
  omega

theorem readsect_apply {disk m : Memory} {pa offset a : ℕ} (hpa : pa + 512 ≤ 2 ^ 32)
    (ha : a < 2 ^ 32) :
    readsect disk pa offset m a =
      if pa ≤ a ∧ a < pa + 512 then disk (512 * offset + (a - pa)) else m a := by
  simp only [readsect, usub_lt_iff hpa ha]
  split
  next hin => rw [usub_of_le hin.1 ha]
  next => rfl

theorem readsects_spec {disk : Memory} {epa n : ℕ} (pa offset f : ℕ) (m : Memory)
    (hend : pa + 512 * n < 2 ^ 32) (hcover : epa ≤ pa + 512 * n)
    (hlast : pa + 512 * n < epa + 512) (hf : n < f) :
    ∃ m', readsects disk epa f pa offset m = some m' ∧ ∀ a < 2 ^ 32,
      m' a = if pa ≤ a ∧ a < pa + 512 * n then disk (512 * offset + (a - pa)) else m a := by
  induction n generalizing f pa offset m with
  | zero =>
    obtain ⟨f, rfl⟩ := Nat.exists_eq_succ_of_ne_zero (by omega : f ≠ 0)
    refine ⟨m, ?_, fun a _ => ?_⟩
    · rw [readsects, if_neg (by omega)]
    · rw [if_neg (by omega)]
  | succ n ih =>
    obtain ⟨f, rfl⟩ := Nat.exists_eq_succ_of_ne_zero (by omega : f ≠ 0)
    have hnext : uadd pa 512 = pa + 512 := by
      rw [uadd]
      omega
    obtain ⟨m', hrun, hm⟩ := ih (pa + 512) (offset + 1) f (readsect disk pa offset m)
      (by omega) (by omega) (by omega) (by omega)
    refine ⟨m', ?_, ?_⟩
    · rw [readsects, if_pos (by omega), hnext, hrun]
    · intro a ha
      rw [hm a ha, readsect_apply (by omega) ha]
      split_ifs <;> first | omega | exact congrArg disk (by omega) | rfl

theorem readseg_spec {disk : Memory} {ph : ProgHdr} (m : Memory) {f : ℕ} (hf : 2 ^ 23 ≤ f)
    (hbelow : ph.off % 512 ≤ ph.paddr) (hend : ph.bottom + 512 * ph.sectors < 2 ^ 32) :
    ∃ m', readseg disk f ph.paddr ph.filesz ph.off m = some m' ∧ ∀ a < 2 ^ 32,
      (ph.Reads a → m' a = image disk (ph.off + a - ph.paddr)) ∧ (¬ ph.Reads a → m' a = m a) := by
  simp only [bottom, sectors] at hend
  have hepa : uadd ph.paddr ph.filesz = ph.paddr + ph.filesz := by
    rw [uadd]
    omega
  have hpa : usub ph.paddr (ph.off % 512) = ph.paddr - ph.off % 512 := usub_of_le hbelow (by omega)
  obtain ⟨m', hrun, hm⟩ := @readsects_spec disk (ph.paddr + ph.filesz) ph.sectors
    (ph.paddr - ph.off % 512) (ph.off / 512 + 1) f m (by unfold sectors; omega)
    (by unfold sectors; omega) (by unfold sectors; omega)
    (by unfold sectors; omega)
  refine ⟨m', ?_, ?_⟩
  · rw [readseg, hepa, hpa, hrun]
  · intro a ha
    rw [hm a ha]
    refine ⟨fun hreads => ?_, fun hreads => if_neg hreads⟩
    refine (if_pos hreads).trans (congrArg disk ?_)
    have hle := hreads.1
    unfold bottom at hle
    omega

theorem ushortAt_page {file m : Memory} {b : ℕ} (hpage : ∀ a < 4096, m (elf + a) = file a)
    (hb : b + 2 ≤ 4096) : ushortAt m (elf + b) = ushortAt file b := by
  rw [ushortAt, ushortAt, hpage b (by omega), Nat.add_assoc, hpage (b + 1) (by omega)]

theorem uintAt_page {file m : Memory} {b : ℕ} (hpage : ∀ a < 4096, m (elf + a) = file a)
    (hb : b + 4 ≤ 4096) : uintAt m (elf + b) = uintAt file b := by
  rw [uintAt, uintAt, ushortAt_page hpage (by omega), Nat.add_assoc, ushortAt_page hpage (by omega)]

theorem proghdr_page {file m : Memory} {b : ℕ} (hpage : ∀ a < 4096, m (elf + a) = file a)
    (hb : b + 32 ≤ 4096) : proghdr m (elf + b) = proghdr file b := by
  simp only [proghdr, Nat.add_assoc]
  rw [uintAt_page hpage (by omega), uintAt_page hpage (by omega), uintAt_page hpage (by omega),
    uintAt_page hpage (by omega)]

theorem loadSegment_spec {disk m file : Memory} {b : ℕ}
    (hpage : ∀ a < 4096, m (elf + a) = file a) (hb : b + 32 ≤ 4096) {ph : ProgHdr}
    (hph : proghdr file b = ph) (hclear : ph.Clear) {f : ℕ} (hf : 2 ^ 23 ≤ f) :
    ∃ m', loadSegment disk f (elf + b) m = some m' ∧ ∀ a < 2 ^ 32,
      (ph.Has a → m' a = ph.wanted (image disk) a) ∧
      (¬ ph.Has a → ph.Reads a → m' a = image disk (ph.off + a - ph.paddr)) ∧
      (¬ ph.Has a → ¬ ph.Reads a → m' a = m a) := by
  obtain ⟨m₁, hrun, hm₁⟩ := @readseg_spec disk ph m f hf hclear.below hclear.sectorsEnd
  -- the header page is as before
  have hpage₁ : ∀ a < 4096, m₁ (elf + a) = file a := by
    intro a ha
    have helf : elf = 0x10000 := rfl
    rw [(hm₁ (elf + a) (by omega)).2 fun hreads => by
      have := hclear.page (elf + a) (.inr hreads)
      omega]
    exact hpage a ha
  have hhdr := (proghdr_page hpage hb).trans hph
  have hhdr₁ := (proghdr_page hpage₁ hb).trans hph
  obtain ⟨m', hload, hm'⟩ : ∃ m', loadSegment disk f (elf + b) m = some m' ∧ ∀ a < 2 ^ 32, m' a =
      if ph.paddr + ph.filesz ≤ a ∧ a < ph.paddr + ph.memsz then 0 else m₁ a := by
    have hmem := hclear.memEnd
    simp only [loadSegment, hhdr, hrun, Option.bind_eq_bind, Option.bind_some, hhdr₁]
    split
    next hbss =>
      refine ⟨_, rfl, fun a ha => ?_⟩
      have hepa : uadd ph.paddr ph.filesz = ph.paddr + ph.filesz := by
        rw [uadd]
        omega
      have hzero := usub_lt_iff (a := a)
        (show ph.paddr + ph.filesz + (ph.memsz - ph.filesz) ≤ 2 ^ 32 by omega) ha
      simp only [stosb, hepa, hzero]
      exact if_congr (by omega) rfl rfl
    next hbss => exact ⟨_, rfl, fun a _ => (if_neg (by omega)).symm⟩
  refine ⟨m', hload, fun a ha => ?_⟩
  obtain ⟨hin, hout⟩ := hm₁ a ha
  rw [hm' a ha]
  refine ⟨fun hhas => ?_, fun hhas => ?_, fun hhas => ?_⟩
  · unfold ProgHdr.Has at hhas
    unfold wanted
    by_cases hfile : a < ph.paddr + ph.filesz
    · have hreads : ph.Reads a := by
        simp only [ProgHdr.Reads, bottom, sectors]
        omega
      rw [if_neg (by omega), if_pos hfile, hin hreads, Nat.add_sub_assoc hhas.1]
    · rw [if_pos (by omega), if_neg hfile]
  · unfold ProgHdr.Has at hhas
    rw [if_neg (by omega)]
    exact hin
  · unfold ProgHdr.Has at hhas
    rw [if_neg (by omega)]
    exact hout

/-! ## The whole image -/

/-- The first `t` segments have been loaded. -/
structure Loaded (file : Memory) (t : ℕ) (m : Memory) : Prop where
  page : ∀ a < 4096, m (elf + a) = file a
  covered : ∀ i < t, ∀ a, (segment file i).Has a → ∀ k, i < k → LastReads file t a k →
    m a = file ((segment file k).off + a - (segment file k).paddr)
  kept : ∀ i < t, ∀ a, (segment file i).Has a → (∀ k, i < k → ¬ LastReads file t a k) →
    m a = (segment file i).wanted file a

theorem LastReads.succ_iff {file : Memory} {t a k : ℕ} (hreads : ¬ (segment file t).Reads a) :
    LastReads file (t + 1) a k ↔ LastReads file t a k := by
  constructor
  · rintro ⟨hlt, hk, hlast⟩
    have hne : k ≠ t := by
      rintro rfl
      exact hreads hk
    exact ⟨by omega, hk, fun l hl hlt => hlast l hl (by omega)⟩
  · rintro ⟨hlt, hk, hlast⟩
    refine ⟨by omega, hk, fun l hl hlt => ?_⟩
    rcases Nat.lt_succ_iff_lt_or_eq.mp hlt with hlt | rfl
    · exact hlast l hl hlt
    · exact hreads

theorem loaded_zero {disk : Memory} (m : Memory) {f : ℕ} (hf : 2 ^ 23 ≤ f) :
    ∃ m', readseg disk f elf 4096 0 m = some m' ∧ Loaded (image disk) 0 m' := by
  obtain ⟨m', hrun, hm⟩ := @readseg_spec disk ⟨0, elf, 4096, 0⟩ m f hf (by decide) (by decide)
  refine ⟨m', hrun, fun a ha => ?_, by omega, by omega⟩
  have helf : elf = 0x10000 := rfl
  rw [(hm (elf + a) (by omega)).1 ⟨Nat.le_add_right elf a, Nat.add_lt_add_left ha elf⟩]
  exact congrArg (image disk) (by simp only [Nat.zero_add, Nat.add_sub_cancel_left])

section Clear

variable {disk m : Memory} {t f : ℕ} (himage : Loadable (image disk)) (hf : 2 ^ 23 ≤ f)
  (hclear : ∀ i < phnum (image disk), (segment (image disk) i).Clear)

include himage hf hclear

theorem Loaded.next (hloaded : Loaded (image disk) t m) (ht : t < phnum (image disk)) :
    ∃ m', loadSegment disk f (elf + (uintAt (image disk) 28 + 32 * t)) m = some m' ∧
      Loaded (image disk) (t + 1) m' := by
  have hheader := himage.headers
  obtain ⟨m', hrun, hm⟩ := @loadSegment_spec disk m _ _ hloaded.page (by omega) _ rfl
    (hclear t ht) f hf
  change ∀ a < 2 ^ 32, ((segment (image disk) t).Has a → _) ∧
    (¬ (segment (image disk) t).Has a → (segment (image disk) t).Reads a → _) ∧
    (¬ (segment (image disk) t).Has a → ¬ (segment (image disk) t).Reads a → _) at hm
  have hother {i a : ℕ} (hi : i < t) (hhas : (segment (image disk) i).Has a) :
      ¬ (segment (image disk) t).Has a := fun hhas' =>
    absurd (himage.increasing t ht i hi a a hhas hhas') (by omega)
  refine ⟨m', hrun, ?_, ?_, ?_⟩
  · intro a ha
    have helf : elf = 0x10000 := rfl
    have hpage := (hclear t ht).page (elf + a)
    rw [(hm (elf + a) (by omega)).2.2 (fun hhas => by have := hpage (.inl hhas); omega)
      (fun hreads => by have := hpage (.inr hreads); omega)]
    exact hloaded.page a ha
  · intro i _ a hhas k hik hlast
    have hit : i < t := by have := hlast.lt; omega
    have ha := (hclear i (by omega)).lt hhas
    by_cases hreads : (segment (image disk) t).Reads a
    · obtain rfl : k = t := by
        by_contra hne
        exact hlast.last t (by have := hlast.lt; omega) (by omega) hreads
      exact (hm a ha).2.1 (hother hit hhas) hreads
    · rw [(hm a ha).2.2 (hother hit hhas) hreads]
      exact hloaded.covered i hit a hhas k hik ((LastReads.succ_iff hreads).mp hlast)
  · intro i hi a hhas hlast
    have ha := (hclear i (by omega)).lt hhas
    rcases Nat.lt_succ_iff_lt_or_eq.mp hi with hit | rfl
    · have hreads : ¬ (segment (image disk) t).Reads a := fun hreads =>
        hlast t hit ⟨by omega, hreads, fun l hl hlt => by omega⟩
      rw [(hm a ha).2.2 (hother hit hhas) hreads]
      exact hloaded.kept i hit a hhas fun k hik hk =>
        hlast k hik ((LastReads.succ_iff hreads).mpr hk)
    · exact (hm a ha).1 hhas

theorem loadSegments_spec {r : ℕ} (hloaded : Loaded (image disk) t m)
    (hr : t + r = phnum (image disk)) :
    ∃ m', loadSegments disk f r (elf + (uintAt (image disk) 28 + 32 * t)) m = some m' ∧
      Loaded (image disk) (phnum (image disk)) m' := by
  induction r generalizing t m with
  | zero => exact ⟨m, rfl, hr ▸ hloaded⟩
  | succ r ih =>
    obtain ⟨m₁, hrun, hnext⟩ := hloaded.next himage hf hclear (by omega)
    obtain ⟨m', hrest, hall⟩ := ih hnext (by omega)
    refine ⟨m', ?_, hall⟩
    rw [loadSegments]
    exact (congrArg (· >>= _) hrun).trans hrest

theorem bootmain_spec (m : Memory) :
    ∃ m', bootmain disk f m = some (m', some (uintAt (image disk) 24)) ∧
      Loaded (image disk) (phnum (image disk)) m' := by
  obtain ⟨m₁, hrun, hzero⟩ := @loaded_zero disk m f hf
  obtain ⟨m', hload, hall⟩ := loadSegments_spec himage hf hclear hzero (Nat.zero_add _)
  have hheader := himage.headers
  have helf : elf = 0x10000 := rfl
  have hmagic : uintAt m₁ elf = elfMagic := (uintAt_page hzero.page (by omega)).trans himage.magic
  have hph : uadd elf (uintAt (image disk) 28) = elf + uintAt (image disk) 28 := by
    rw [uadd]
    omega
  have heph : uadd (elf + uintAt (image disk) 28) (32 * phnum (image disk)) =
      elf + uintAt (image disk) 28 + 32 * phnum (image disk) := by
    rw [uadd]
    omega
  have hcount : (elf + uintAt (image disk) 28 + 32 * phnum (image disk) -
      (elf + uintAt (image disk) 28) + 31) / 32 = phnum (image disk) := by omega
  have hphnum : ushortAt m₁ (elf + 44) = phnum (image disk) := ushortAt_page hzero.page (by omega)
  refine ⟨m', ?_, hall⟩
  simp only [bootmain, hrun, Option.bind_eq_bind, Option.bind_some, hmagic, ne_eq, not_true,
    if_false, uintAt_page hzero.page (show 28 + 4 ≤ 4096 by omega), hphnum, hph, heph, hcount]
  rw [Nat.mul_zero, Nat.add_zero] at hload
  rw [hload, Option.bind_some, uintAt_page hall.page (by omega)]
  rfl

end Clear

/-- A kernel of two segments, the first without bytes in the file.  The byte `b` is in the sector
in which the second one begins. -/
def kernelDisk (b : Bool) : Memory := fun i =>
  ([(512, 0x7F), (513, 0x45), (514, 0x4C), (515, 0x46), (540, 52), (556, 2), (569, 0x10),
    (578, 0x10), (585, 1), (601, 0x11), (609, 1), (610, 0x10), (613, 1), (617, 1),
    (4608, b.toUInt8)].lookup i).getD 0

theorem segment_kernelDisk (b : Bool) :
    segment (image (kernelDisk b)) 0 = ⟨0x1000, 0x100000, 0, 0x100⟩ ∧
      segment (image (kernelDisk b)) 1 = ⟨0x1100, 0x100100, 0x100, 0x100⟩ ∧
      phnum (image (kernelDisk b)) = 2 := by
  revert b
  decide +kernel

theorem loadable_kernelDisk (b : Bool) : Loadable (image (kernelDisk b)) := by
  obtain ⟨hfirst, hsecond, hnum⟩ := segment_kernelDisk b
  refine ⟨?_, ?_, fun j hj i hi a c ha hc => ?_⟩
  · revert b
    decide +kernel
  · revert b
    decide +kernel
  · rw [hnum] at hj
    obtain rfl : i = 0 := by omega
    obtain rfl : j = 1 := by omega
    rw [hfirst] at ha
    rw [hsecond] at hc
    exact ha.2.trans_le hc.1

theorem clear_kernelDisk (b : Bool) :
    ∀ i < phnum (image (kernelDisk b)), (segment (image (kernelDisk b)) i).Clear := by
  obtain ⟨hfirst, hsecond, hnum⟩ := segment_kernelDisk b
  intro i hi
  have hcases : i = 0 ∨ i = 1 := by omega
  rcases hcases with rfl | rfl
  · rw [hfirst]
    refine ⟨by decide, by decide, by decide, fun a ha => .inr ?_⟩
    rcases ha with ha | ha <;> exact le_trans (by decide) ha.1
  · rw [hsecond]
    refine ⟨by decide, by decide, by decide, fun a ha => .inr ?_⟩
    rcases ha with ha | ha <;> exact le_trans (by decide) ha.1

theorem undamaged_kernelDisk : Undamaged (image (kernelDisk false)) := by
  obtain ⟨hfirst, hsecond, hnum⟩ := segment_kernelDisk false
  intro i hi a hhas k hik hlast
  have hk := hlast.lt
  obtain rfl : i = 0 := by omega
  obtain rfl : k = 1 := by omega
  have hzero : ∀ d < 256, image (kernelDisk false) (0x1000 + d) = 0 := by decide +kernel
  rw [hfirst] at hhas ⊢
  obtain ⟨hle, hlt⟩ := hhas
  obtain ⟨d, rfl⟩ := Nat.exists_eq_add_of_le hle
  dsimp only at hlt
  have hbyte : 0x1100 + (0x100000 + d) - 0x100100 = 0x1000 + d := by omega
  rw [hsecond, hbyte, hzero d (by omega), wanted, if_neg (by dsimp only; omega)]

end Xv6Kernel.Boot
