import Xv6Kernel.FileBytes
import Xv6Kernel.PathResolution

/-!
# Directories as bytes

`dirlookup` as it reads the bytes of a directory.  `InodeLayer` has a directory as a list of
entries, and `FileCalls` looks names up there.  `Volume.view` is what that layer sees of a volume;
through it both do the same, with the reference that `iget` takes and with its panic.
-/

namespace Xv6Kernel

open StateHoare WordBytes List

/-- A buffer is read as if null bytes were behind its end. -/
def strncmp : ℕ → List Char → List Char → ℤ
  | 0, _, _ => 0
  | n + 1, p, q =>
      if p.headD nul ≠ nul ∧ p.headD nul = q.headD nul then strncmp n p.tail q.tail
      else (p.headD nul).toNat - (q.headD nul).toNat

def namecmp (s t : List Char) : ℤ := strncmp dirsiz s t

theorem strncmp_eq_zero (n : ℕ) (p q : List Char) :
    strncmp n p q = 0 ↔ textOf n p = textOf n q := by
  induction n generalizing p q with
  | zero => simp [strncmp, textOf]
  | succ n ih =>
    rw [strncmp, textOf_succ, textOf_succ]
    have hdiff : ((p.headD nul).toNat : ℤ) - (q.headD nul).toNat = 0 ↔
        p.headD nul = q.headD nul := by
      rw [sub_eq_zero, Nat.cast_inj, Char.toNat_inj]
    grind

/-! ## Entries -/

/-- The first two bytes of a `struct dirent`. -/
def inumOf (de : List Byte) : ℕ := (de.headD 0).toNat + 256 * (de.tail.headD 0).toNat

/-- The other fourteen. -/
def nameOf (de : List Byte) : List Char := (de.drop 2).map fun b => Char.ofNat b.toNat

def direntOf (de : List Byte) : Dirent := ⟨inumOf de, textOf dirsiz (nameOf de)⟩

def records (bytes : List Byte) : List (List Byte) :=
  (List.range (bytes.length / 16)).map fun i => (bytes.drop (16 * i)).take 16

variable {P : Type}

def Volume.cachedSlot (s : Volume P) (inum : ℕ) : Option ISlot :=
  (List.finRange ninode).find? fun ip => 0 < (s.icache ip).ref ∧ (s.icache ip).inum = inum

def Volume.emptySlot (s : Volume P) : Option ISlot :=
  (List.finRange ninode).find? fun ip => (s.icache ip).ref = 0

namespace Vol

def iget (inum : ℕ) : Vol P ISlot := do
  let s ← get
  match s.cachedSlot inum with
  | some ip =>
      modify (·.setCore ip fun core => { core with ref := core.ref + 1 })
      return ip
  | none =>
      match s.emptySlot with
      | some ip =>
          modify (·.setCore ip fun core => { core with inum := inum, ref := 1, valid := false })
          return ip
      | none => volPanic "iget: no inodes"

/-- The loop of `dirlookup`: the offset and the inode number of the entry at which it is left. -/
def scan (devsw : Devsw) (dp : ISlot) (name : List Char) : ℕ → ℕ → Vol P (Option (ℕ × ℕ))
  | 0, _ => return none
  | fuel + 1, off => do
      let s ← get
      if off < (s.icache dp).node.size.toNat then do
        let de ← readi devsw dp (BitVec.ofNat 32 off) 16
        let de := de.getD []
        if de.length ≠ 16 then volPanic "dirlookup read"
        else if inumOf de ≠ 0 ∧ namecmp name (nameOf de) = 0 then return some (off, inumOf de)
        else scan devsw dp name fuel (off + 16)
      else return none

def dirlookup (devsw : Devsw) (dp : ISlot) (name : List Char) : Vol P (Option (ISlot × ℕ)) := do
  let s ← get
  let node := (s.icache dp).node
  if node.type ≠ .dir then volPanic "dirlookup not DIR"
  else do
    let found ← scan devsw dp name node.size.toNat 0
    match found with
    | none => return none
    | some (off, inum) => do
        let ip ← iget inum
        return some (ip, off)

end Vol

/-! ## What the inode layer sees -/

def DiskNode.view (node : DiskNode) (data : ℕ → Block) : Dinode :=
  ⟨node.type, node.major, node.minor, node.nlink,
    if node.type = .dir then (records (node.content data)).map direntOf else []⟩

def CoreNode.view (core : CoreNode P) : Inode P :=
  ⟨core.inum, core.ref, core.lock, core.valid, core.node.type, core.node.major, core.node.minor,
    core.node.nlink⟩

def VolFile.view (file : VolFile) : File := ⟨file.ref, file.ip, file.readable, file.writable⟩

def Volume.view (s : Volume P) : FileSystem P where
  dinode := fun inum => (s.dinode inum).view s.data
  icache := fun ip => (s.icache ip).view
  ftable := fun f => (s.ftable f).view
  cwd := s.cwd
  ofile := s.ofile

/-- The end of a call, with the number of the entry for its offset. -/
def viewResult : EStateM.Result TraceExecution.Stop (Volume P) (Option (ISlot × ℕ)) →
    EStateM.Result TraceExecution.Stop (FileSystem P) (Option (ISlot × ℕ))
  | .ok found t => .ok (found.map (Prod.map id (· / 16))) t.view
  | .error stop t => .error stop t.view

/-- A directory with whole entries and no holes, of which the disk has a copy. -/
structure Volume.IsDir (s : Volume P) (dp : ISlot) : Prop where
  type : (s.icache dp).node.type = .dir
  noHoles : (s.icache dp).node.NoHoles s.data
  whole : (s.icache dp).node.size.toNat % 16 = 0
  stored : s.dinode (s.icache dp).inum = (s.icache dp).node

def Volume.records (s : Volume P) (dp : ISlot) : List (List Byte) :=
  Xv6Kernel.records ((s.icache dp).node.content s.data)

section Lookup

variable {s : Volume P} {dp : ISlot}

theorem Volume.IsDir.entriesAt (hs : s.IsDir dp) :
    s.view.entriesAt dp = (s.records dp).map direntOf := by
  change (DiskNode.view (s.dinode (s.icache dp).inum) s.data).entries = _
  rw [hs.stored, DiskNode.view, if_pos hs.type]
  rfl

theorem Volume.IsDir.length_records (hs : s.IsDir dp) :
    16 * (s.records dp).length = (s.icache dp).node.size.toNat := by
  have hwhole := hs.whole
  simp only [Volume.records, Xv6Kernel.records, DiskNode.content, length_map, length_range]
  omega

theorem matches_iff (name : List Char) (de : List Byte) :
    inumOf de ≠ 0 ∧ namecmp name (nameOf de) = 0 ↔
      (direntOf de).inum ≠ 0 ∧ (direntOf de).name = textOf dirsiz name := by
  rw [namecmp, strncmp_eq_zero, eq_comm (a := textOf _ name)]
  rfl

/-- From the entry `i` on, the loop finds what `findEntry` finds. -/
theorem ensures_scan (hs : s.IsDir dp) (devsw : Devsw) (name : List Char) (fuel i : ℕ)
    (hfuel : (s.records dp).length ≤ fuel + i) (hi : i ≤ (s.records dp).length) :
    Ensures (Vol.scan devsw dp name fuel (16 * i)) s (fun found t => t = s ∧
      found = (findEntry (((s.records dp).drop i).map direntOf) (textOf dirsiz name)).map
        fun entry => (16 * (i + entry.1), entry.2)) fun _ => False := by
  have hlength := hs.length_records
  have hlarge := (s.icache dp).node.size.isLt
  induction fuel generalizing i with
  | zero =>
    rw [drop_eq_nil_of_le (by omega)]
    exact ⟨rfl, rfl⟩
  | succ fuel ih =>
    simp only [Vol.scan, ensures_bind, ensures_get]
    split
    next hmore =>
      have hi' : i < (s.records dp).length := by omega
      have hoff : (BitVec.ofNat 32 (16 * i)).toNat = 16 * i := by
        rw [BitVec.toNat_ofNat]
        omega
      have h16 : (16 : BitVec 32).toNat = 16 := rfl
      rw [ensures_bind]
      refine (ensures_readi devsw (by rw [hs.type]; decide) hs.noHoles _ 16).post ?_
      rintro de t ⟨rfl, -, hde⟩
      have hrecord : de = some (t.records dp)[i] := by
        rw [hde (by unfold Refused; omega), hoff, h16]
        simp [Volume.records, records]
      have hlen : (t.records dp)[i].length = 16 := by
        simp [Volume.records, records, DiskNode.content]
        omega
      rw [hrecord, Option.getD_some, if_neg (not_not.mpr hlen), drop_eq_getElem_cons hi',
        map_cons, findEntry]
      split
      next hfound =>
        rw [if_pos ((matches_iff ..).mp hfound)]
        exact ⟨rfl, rfl⟩
      next hfound =>
        rw [if_neg ((matches_iff ..).not.mp hfound)]
        refine (ih (i + 1) (by omega) hi').post ?_
        rintro found u ⟨rfl, rfl⟩
        refine ⟨rfl, ?_⟩
        rw [Option.map_map]
        congr 1
        funext entry
        simp [Nat.add_assoc, Nat.add_comm 1]
    next hdone =>
      rw [drop_eq_nil_of_le (by omega)]
      exact ⟨rfl, rfl⟩

theorem view_setCore (ip : ISlot) (f : CoreNode P → CoreNode P) (g : Inode P → Inode P)
    (hfg : ∀ core, (f core).view = g core.view) : (s.setCore ip f).view = s.view.setInode ip g := by
  have hslot : ∀ e, ((s.setCore ip f).icache e).view = (s.view.setInode ip g).icache e := by
    intro e
    by_cases he : e = ip
    · subst he
      simp [hfg, Volume.view]
    · rw [Volume.setCore_of_ne _ _ he, FileSystem.setInode_icache_of_ne _ _ he]
      rfl
  exact congrArg (fun icache => { s.view with icache }) (funext hslot)

variable [DecidableEq P]

theorem alone_iget (p : P) (inum off : ℕ) :
    alone p (do let ip ← iget inum; return some (ip, off / 16)) s.view =
      viewResult ((do let ip ← Vol.iget inum; return some (ip, off) : Vol P _) s) := by
  have hcached : s.view.cachedSlot inum = s.cachedSlot inum := rfl
  have hempty : s.view.emptySlot = s.emptySlot := rfl
  rw [iget, alone_fsOp_bind, FsOp.run, hcached, hempty]
  simp only [Vol.iget, get_bind_run, bind_assoc]
  cases s.cachedSlot inum with
  | some ip =>
    exact congrArg (EStateM.Result.ok (some (ip, off / 16))) (view_setCore ip _ _ fun _ => rfl).symm
  | none =>
    cases s.emptySlot with
    | some ip =>
      exact congrArg (EStateM.Result.ok (some (ip, off / 16)))
        (view_setCore ip _ _ fun _ => rfl).symm
    | none => rfl

end Lookup

end Xv6Kernel
