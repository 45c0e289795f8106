import Xv6Kernel.Volume

/-!
# The program `mkfs`

`mkfs.c` over the sectors of the image that it writes.  A file of the host is what `open`
and `read` give for it.  The state records the numbers of the inodes that were written, and
of the blocks that were put into inodes and indirect blocks.

There is no check that a number of an inode is below `NINODES`; that blocks are below `FSSIZE`
is found out when they are read.
-/

namespace Xv6Kernel.Mkfs

open StateHoare WordBytes List

/-- How the program ends when it does not end with `exit(0)`. -/
inductive Exit
  | status (code : ℕ)
  | abort

structure Image where
  sector : ℕ → Block
  sectors : ℕ
  freeinode : ℕ
  freeblock : ℕ
  inodes : List ℕ
  blocks : List ℕ

abbrev Tool := EStateM Exit Image

/-- `struct dinode` in words: the type and `nlink` are in the first two, then come the size and
the addresses. -/
abbrev RawNode := Words 16

structure InputFile where
  name : List Byte
  opens : Bool
  reads : List (List Byte)
  reads_ok : ∀ piece ∈ reads, 0 < piece.length ∧ piece.length ≤ bsize

/-- The super block: `nlog`, the inodes, the free map and the data follow one another. -/
def sb : Superblock := ⟨fssize, ninodes, 30, fssize_fits, fssize_small⟩

def place (sec : ℕ) : ℕ := sec * bsize % 2 ^ 32 / bsize

def rsect (sec : ℕ) : Tool Block := do
  let s ← get
  if place sec < s.sectors then return s.sector (place sec) else throw (.status 1)

def Image.write (s : Image) (sec : ℕ) (buf : Block) : Image :=
  { s with
    sector := Function.update s.sector (place sec) buf
    sectors := max s.sectors (place sec + 1) }

def wsect (sec : ℕ) (buf : Block) : Tool Unit := modify (·.write sec buf)

theorem place_of_le {sec : ℕ} (hsec : sec ≤ fssize) : place sec = sec := by
  have hfssize : fssize = 1000 := rfl
  simp only [place, bsize]
  omega

def nodeIn (buf : Block) (inum : ℕ) : RawNode := fun j =>
  buf ⟨16 * (inum % ipb) + j, by
    have hlt : inum % ipb < 8 := Nat.mod_lt _ (by decide)
    omega⟩

def putNode (buf : Block) (inum : ℕ) (node : RawNode) : Block := fun j =>
  if j / 16 = inum % ipb then node ⟨j % 16, Nat.mod_lt _ (by decide)⟩ else buf j

def winode (inum : ℕ) (node : RawNode) : Tool Unit := do
  let buf ← rsect (sb.iblock inum)
  wsect (sb.iblock inum) (putNode buf inum node)
  modify fun s => { s with inodes := s.inodes ++ [inum] }

def rinode (inum : ℕ) : Tool RawNode := do
  let buf ← rsect (sb.iblock inum)
  return nodeIn buf inum

/-- `type` is `T_DIR` or `T_FILE`; the other field that is set is `nlink`. -/
def newNode (type : BitVec 32) : RawNode :=
  fun j => if j = 0 then type else if j = 1 then 65536 else 0

def ialloc (type : BitVec 32) : Tool ℕ := do
  let inum := (← get).freeinode
  modify fun s => { s with freeinode := inum + 1 }
  winode inum (newNode type)
  return inum

namespace RawNode

def size (node : RawNode) : ℕ := (node 2).toNat

def setSize (node : RawNode) (size : ℕ) : RawNode := Function.update node 2 (BitVec.ofNat 32 size)

def addr (node : RawNode) (i : Fin (ndirect + 1)) : ℕ := (node (i.natAdd 3)).toNat

def setAddr (node : RawNode) (i : Fin (ndirect + 1)) (b : ℕ) : RawNode :=
  Function.update node (i.natAdd 3) (BitVec.ofNat 32 b)

end RawNode

def Image.take (s : Image) : Image :=
  { s with freeblock := s.freeblock + 1, blocks := s.blocks ++ [s.freeblock] }

def nextBlock : Tool ℕ := do
  let b := (← get).freeblock
  modify (·.take)
  return b

/-- `din.addrs[i]`, with the next block if it is 0. -/
def takeAddr (din : RawNode) (i : Fin (ndirect + 1)) : Tool RawNode := do
  if RawNode.addr din i = 0 then do
    let b ← nextBlock
    return RawNode.setAddr din i b
  else return din

/-- `indirect[j]` of the indirect block `c`, with the next block if it is 0. -/
def takeWord (c : ℕ) (j : Fin nindirect) : Tool ℕ := do
  let indirect ← rsect c
  if indirect j = 0 then do
    let b ← nextBlock
    wsect c (Function.update indirect j (BitVec.ofNat 32 b))
    return b
  else return (indirect j).toNat

def blockFor (din : RawNode) (fbn : ℕ) : Tool (RawNode × ℕ) :=
  if hfbn : fbn < ndirect then do
    let din ← takeAddr din ⟨fbn, Nat.lt_add_one_of_lt hfbn⟩
    return (din, RawNode.addr din ⟨fbn, Nat.lt_add_one_of_lt hfbn⟩)
  else if hfbn : fbn - ndirect < nindirect then do
    let din ← takeAddr din (Fin.last ndirect)
    let x ← takeWord (RawNode.addr din (Fin.last ndirect)) ⟨fbn - ndirect, hfbn⟩
    return (din, x)
  else throw .abort

def appendLoop : ℕ → RawNode → ℕ → List Byte → Tool (RawNode × ℕ)
  | _, din, off, [] => return (din, off)
  | 0, din, off, _ => return (din, off)
  | fuel + 1, din, off, p => do
      let fbn := off / bsize
      if fbn < maxfile then do
        let (din, x) ← blockFor din fbn
        let n1 := min p.length ((fbn + 1) * bsize - off)
        let buf ← rsect x
        wsect x (patch buf (off - fbn * bsize) n1 fun k => p.getD k 0)
        appendLoop fuel din (off + n1) (p.drop n1)
      else throw .abort

def iappend (inum : ℕ) (p : List Byte) : Tool Unit := do
  let din ← rinode inum
  let (din, off) ← appendLoop p.length din din.size p
  winode inum (din.setSize off)

def freeMap (used : ℕ) : Block :=
  (List.range used).foldl
    (fun buf i => patch buf (i / 8) 1 fun _ => byteAt buf (i / 8) ||| (1 <<< (i % 8)))
    fun _ => 0

def balloc (used : ℕ) : Tool Unit :=
  if used < bpb then wsect sb.bmapstart (freeMap used) else throw .abort

def dirent (inum : ℕ) (name : List Byte) : List Byte :=
  BitVec.ofNat 8 inum :: BitVec.ofNat 8 (inum / 256) ::
    (name ++ List.replicate dirsiz 0).take dirsiz

def slash : Byte := 47

def underscore : Byte := 95

def InputFile.target (file : InputFile) : List Byte :=
  if file.name.head? = some underscore then file.name.tail else file.name

def addFile (root : ℕ) (file : InputFile) : Tool Unit :=
  if slash ∈ file.name then throw .abort
  else if file.opens then do
    let inum ← ialloc 2
    iappend root (dirent inum file.target)
    file.reads.forM (iappend inum)
  else throw (.status 1)

def superblock : Block := fun j =>
  [sb.size, sb.size - sb.nmeta, sb.ninodes, sb.nlog, 2, sb.inodestart, sb.bmapstart].getD j 0

def fixRootSize (root : ℕ) : Tool Unit := do
  let din ← rinode root
  winode root (din.setSize ((din.size / bsize + 1) * bsize))

/-- The loop that writes zeroes; irreducible, for its thousand rounds are never to be unfolded. -/
@[irreducible]
def zeroes (count : ℕ) : Tool Unit := (List.range count).forM fun i => wsect i fun _ => 0

def main (files : List InputFile) : Tool Unit := do
  modify fun s => { s with freeblock := sb.nmeta }
  zeroes fssize
  wsect 1 superblock
  let root ← ialloc 1
  if root = rootino then do
    iappend root (dirent root [46])
    iappend root (dirent root [46, 46])
    files.forM (addFile root)
    fixRootSize root
    balloc (← get).freeblock
  else throw .abort

/-- The image file after `open`. -/
def empty : Image := ⟨fun _ _ => 0, 0, 1, 0, [], []⟩

def mkfs (files : List InputFile) : EStateM.Result Exit Image Unit := main files empty

/-! ## Numbers of inodes and blocks -/

/-- No more sectors than there should be, and blocks only from them. -/
structure Sound (s : Image) : Prop where
  sectors : s.sectors = fssize
  freeblock : s.freeblock ≤ fssize
  blocks : ∀ b ∈ s.blocks, b < fssize

/-- The inodes and the length of the image are as before. -/
structure Kept (s t : Image) : Prop where
  sectors : t.sectors = s.sectors
  freeinode : t.freeinode = s.freeinode
  inodes : t.inodes = s.inodes

theorem Kept.refl (s : Image) : Kept s s := ⟨rfl, rfl, rfl⟩

theorem Kept.trans {s t u : Image} (h : Kept s t) (h' : Kept t u) : Kept s u :=
  ⟨h'.sectors.trans h.sectors, h'.freeinode.trans h.freeinode, h'.inodes.trans h.inodes⟩

section Spec

variable {s : Image} {E : Image → Prop}

theorem ensures_rsect {sec : ℕ} {Q : Block → Image → Prop} (hE : ∀ t, E t)
    (hQ : place sec < s.sectors → Q (s.sector (place sec)) s) : Ensures (rsect sec) s Q E := by
  simp only [rsect, ensures_bind, ensures_get]
  by_cases hlt : place sec < s.sectors
  · rw [if_pos hlt, ensures_pure]
    exact hQ hlt
  · rw [if_neg hlt, ensures_throw]
    exact hE s

theorem Image.write_sectors {sec : ℕ} (hsec : place sec < s.sectors) (buf : Block) :
    (s.write sec buf).sectors = s.sectors :=
  max_eq_left hsec

theorem Sound.write (hs : Sound s) {sec : ℕ} (hsec : place sec < s.sectors) (buf : Block) :
    Sound (s.write sec buf) ∧ Kept s (s.write sec buf) := by
  have hmax := Image.write_sectors hsec buf
  exact ⟨⟨hmax.trans hs.sectors, hs.freeblock, hs.blocks⟩, hmax, rfl, rfl⟩

theorem addr_setAddr (din : RawNode) (i : Fin (ndirect + 1)) {b : ℕ} (hb : b ≤ fssize) :
    RawNode.addr (RawNode.setAddr din i b) i = b := by
  rw [RawNode.addr, RawNode.setAddr, Function.update_self, BitVec.toNat_ofNat]
  have hsize : fssize = 1000 := rfl
  omega

theorem Sound.take (hs : Sound s) (hlt : s.freeblock < fssize) : Sound s.take := by
  refine ⟨hs.sectors, hlt, ?_⟩
  intro b hb
  rcases mem_append.mp hb with hb | hb
  · exact hs.blocks b hb
  · rwa [mem_singleton.mp hb]

theorem takeAddr_spec (hs : Sound s) (din : RawNode) (i : Fin (ndirect + 1)) :
    Ensures (takeAddr din i) s
      (fun din' t => Kept s t ∧ (place (RawNode.addr din' i) < fssize → Sound t)) E := by
  unfold takeAddr
  by_cases hzero : RawNode.addr din i = 0
  · simp only [if_pos hzero, nextBlock, ensures_bind, ensures_get, ensures_modify, ensures_pure]
    rw [addr_setAddr din i hs.freeblock, place_of_le hs.freeblock]
    exact ⟨⟨rfl, rfl, rfl⟩, hs.take⟩
  · rw [if_neg hzero, ensures_pure]
    exact ⟨Kept.refl s, fun _ => hs⟩

theorem takeWord_spec (hE : ∀ t, E t) {c : ℕ} (hs : place c < s.sectors → Sound s)
    (j : Fin nindirect) :
    Ensures (takeWord c j) s (fun x t => Kept s t ∧ (place x < fssize → Sound t)) E := by
  simp only [takeWord, ensures_bind]
  refine ensures_rsect hE fun hlt => ?_
  by_cases hzero : s.sector (place c) j = 0
  · simp only [if_pos hzero, nextBlock, wsect, ensures_bind, ensures_get, ensures_modify,
      ensures_pure]
    refine ⟨⟨Image.write_sectors (s := s.take) hlt _, rfl, rfl⟩, fun hb => ?_⟩
    rw [place_of_le (hs hlt).freeblock] at hb
    exact (((hs hlt).take hb).write hlt _).1
  · rw [if_neg hzero, ensures_pure]
    exact ⟨Kept.refl s, fun _ => hs hlt⟩

theorem blockFor_spec (hE : ∀ t, E t) (hs : Sound s) (din : RawNode) (fbn : ℕ) :
    Ensures (blockFor din fbn) s (fun r t => Kept s t ∧ (place r.2 < fssize → Sound t)) E := by
  unfold blockFor
  by_cases hdirect : fbn < ndirect
  · rw [dif_pos hdirect]
    refine (takeAddr_spec hs din _).bind ?_
    intro din' t ht
    exact ht
  · rw [dif_neg hdirect]
    by_cases hindirect : fbn - ndirect < nindirect
    · rw [dif_pos hindirect]
      refine (takeAddr_spec hs din _).bind ?_
      rintro din' t ⟨hkept, hsound⟩
      have ht : place (RawNode.addr din' (Fin.last ndirect)) < t.sectors → Sound t := fun hlt =>
        hsound (by rwa [← hs.sectors, ← hkept.sectors])
      refine (takeWord_spec hE ht _).bind ?_
      rintro x u ⟨hkept', hsound'⟩
      exact ⟨hkept.trans hkept', hsound'⟩
    · rw [dif_neg hindirect, ensures_throw]
      exact hE s

theorem appendLoop_spec (hE : ∀ t, E t) (fuel : ℕ) (din : RawNode) (off : ℕ) (p : List Byte)
    (hs : Sound s) : Ensures (appendLoop fuel din off p) s (fun _ t => Sound t ∧ Kept s t) E := by
  induction fuel generalizing din off p s with
  | zero =>
    cases p with
    | nil => exact ⟨hs, Kept.refl s⟩
    | cons b rest => exact ⟨hs, Kept.refl s⟩
  | succ fuel ih =>
    cases p with
    | nil => exact ⟨hs, Kept.refl s⟩
    | cons b rest =>
      simp only [appendLoop]
      by_cases hfbn : off / bsize < maxfile
      · rw [if_pos hfbn]
        refine (blockFor_spec hE hs din _).bind ?_
        rintro ⟨din', x⟩ t ⟨hkept, hsound⟩
        simp only [ensures_bind]
        refine ensures_rsect hE fun hlt => ?_
        have ht : Sound t := hsound (by rwa [← hs.sectors, ← hkept.sectors])
        rw [wsect, ensures_modify]
        obtain ⟨hwrite, hkept'⟩ := ht.write hlt
          (patch (t.sector (place x)) (off - off / bsize * bsize)
          (min (b :: rest).length ((off / bsize + 1) * bsize - off)) fun k => (b :: rest).getD k 0)
        refine (ih _ _ _ hwrite).post ?_
        rintro r u ⟨hu, hkept''⟩
        exact ⟨hu, (hkept.trans hkept').trans hkept''⟩
      · rw [if_neg hfbn, ensures_throw]
        exact hE s

theorem winode_spec (hE : ∀ t, E t) (hs : Sound s) (inum : ℕ) (node : RawNode) :
    Ensures (winode inum node) s (fun _ t => Sound t ∧ t.freeinode = s.freeinode ∧
      t.inodes = s.inodes ++ [inum]) E := by
  simp only [winode, ensures_bind]
  refine ensures_rsect hE fun hlt => ?_
  simp only [wsect, ensures_modify]
  obtain ⟨hwrite, -⟩ := hs.write hlt (putNode (s.sector (place (sb.iblock inum))) inum node)
  exact ⟨⟨hwrite.sectors, hwrite.freeblock, hwrite.blocks⟩, rfl, rfl⟩

theorem iappend_spec (hE : ∀ t, E t) (hs : Sound s) (inum : ℕ) (p : List Byte) :
    Ensures (iappend inum p) s (fun _ t => Sound t ∧ t.freeinode = s.freeinode ∧
      t.inodes = s.inodes ++ [inum]) E := by
  simp only [iappend, rinode, ensures_bind]
  refine ensures_rsect hE fun _ => ?_
  simp only [ensures_pure]
  refine (appendLoop_spec hE _ _ _ _ hs).post ?_
  rintro ⟨din, off⟩ t ⟨ht, hkept⟩
  refine (winode_spec hE ht inum _).post ?_
  rintro - u ⟨hu, hfree, hinodes⟩
  exact ⟨hu, hfree.trans hkept.freeinode, by rw [hinodes, hkept.inodes]⟩

theorem ialloc_spec (hE : ∀ t, E t) (hs : Sound s) (type : BitVec 32) :
    Ensures (ialloc type) s (fun inum t => inum = s.freeinode ∧ Sound t ∧
      t.freeinode = s.freeinode + 1 ∧ t.inodes = s.inodes ++ [s.freeinode]) E := by
  simp only [ialloc, ensures_bind, ensures_get, ensures_modify]
  have hs' : Sound { s with freeinode := s.freeinode + 1 } := ⟨hs.sectors, hs.freeblock, hs.blocks⟩
  refine (winode_spec hE hs' s.freeinode (newNode type)).post ?_
  rintro - t ⟨ht, hfree, hinodes⟩
  rw [ensures_pure]
  exact ⟨rfl, ht, hfree, hinodes⟩

/-- The numbers that were written are those that were given out. -/
def Numbered (s : Image) : Prop :=
  Sound s ∧ ∀ i, i ∈ s.inodes ↔ 1 ≤ i ∧ i < s.freeinode

theorem Numbered.append (h : Numbered s) {inum : ℕ} (hpos : 1 ≤ inum) (hlt : inum < s.freeinode)
    {t : Image} (ht : Sound t) (hfree : t.freeinode = s.freeinode)
    (hinodes : t.inodes = s.inodes ++ [inum]) : Numbered t := by
  refine ⟨ht, fun i => ?_⟩
  rw [hinodes, hfree, mem_append, mem_singleton, h.2]
  constructor
  · rintro (hi | rfl)
    · exact hi
    · exact ⟨hpos, hlt⟩
  · exact Or.inl

theorem addFile_spec (hE : ∀ t, E t) (h : Numbered s) (hroot : rootino < s.freeinode)
    (file : InputFile) :
    Ensures (addFile rootino file) s (fun _ t => Numbered t ∧ t.freeinode = s.freeinode + 1) E := by
  unfold addFile
  by_cases hslash : slash ∈ file.name
  · rw [if_pos hslash, ensures_throw]
    exact hE s
  · rw [if_neg hslash]
    by_cases hopens : file.opens = true
    · simp only [if_pos hopens, ensures_bind]
      refine (ialloc_spec hE h.1 2).post ?_
      rintro inum t ⟨rfl, ht, hfree, hinodes⟩
      have hnumbered : Numbered t := by
        refine ⟨ht, fun i => ?_⟩
        rw [hinodes, hfree, mem_append, mem_singleton, h.2]
        omega
      refine (iappend_spec hE ht rootino _).post ?_
      rintro - u ⟨hu, hfree', hinodes'⟩
      have hroot' : Numbered u := hnumbered.append (by decide) (by omega) hu hfree' hinodes'
      refine ensures_forM (fun _ w => Numbered w ∧ w.freeinode = s.freeinode + 1)
        ⟨hroot', hfree'.trans hfree⟩ ?_
      rintro done piece rest w - ⟨hw, hwfree⟩
      refine (iappend_spec hE hw.1 s.freeinode piece).post ?_
      rintro - x ⟨hx, hxfree, hxinodes⟩
      exact ⟨hw.append (by omega) (by omega) hx hxfree hxinodes, hxfree.trans hwfree⟩
    · rw [if_neg hopens, ensures_throw]
      exact hE s

theorem zeroes_spec (s : Image) {count : ℕ} (hcount : count ≤ fssize) :
    Ensures (zeroes count) s (fun _ t =>
      t.sectors = max s.sectors count ∧
      (∀ i, i < count ∨ s.sector i = (fun _ => 0) → t.sector i = fun _ => 0) ∧
      t.freeinode = s.freeinode ∧ t.freeblock = s.freeblock ∧ t.inodes = s.inodes ∧
      t.blocks = s.blocks) E := by
  unfold zeroes
  refine ensures_forM_range (fun n (t : Image) =>
    t.sectors = max s.sectors n ∧
    (∀ i, i < n ∨ s.sector i = (fun _ => 0) → t.sector i = fun _ => 0) ∧
    t.freeinode = s.freeinode ∧ t.freeblock = s.freeblock ∧ t.inodes = s.inodes ∧
    t.blocks = s.blocks) ?_ ?_
  · exact ⟨by simp, by simp, rfl, rfl, rfl, rfl⟩
  · rintro n t hn ⟨hsectors, hzero, hrest⟩
    have hplace : place n = n := place_of_le (hn.le.trans hcount)
    rw [wsect, ensures_modify]
    refine ⟨?_, ?_, hrest⟩
    · change max t.sectors (place n + 1) = max s.sectors (n + 1)
      omega
    · intro i hi
      change Function.update t.sector (place n) _ i = _
      rw [hplace]
      by_cases heq : i = n
      · rw [heq, Function.update_self]
      · rw [Function.update_of_ne heq]
        exact hzero i (hi.imp_left fun hlt => by omega)

theorem main_spec (hE : ∀ t, E t) (files : List InputFile) :
    Ensures (main files) empty (fun _ t => Numbered t ∧ t.freeinode = files.length + 2) E := by
  simp only [main, ensures_bind, ensures_modify]
  refine (zeroes_spec _ (le_refl fssize)).post ?_
  rintro - s₀ ⟨hsectors, -, hfreeinode, hfreeblock, hinodes, hblocks⟩
  have hs : Sound s₀ := by
    refine ⟨hsectors.trans (Nat.zero_max _), ?_, ?_⟩
    · rw [hfreeblock]
      decide
    · simp [hblocks, empty]
  simp only [wsect, ensures_modify]
  obtain ⟨hs₁, hkept⟩ :=
    Sound.write hs (by rw [hs.sectors]; decide : place 1 < s₀.sectors) superblock
  have hfree : (s₀.write 1 superblock).freeinode = 1 := hkept.freeinode.trans hfreeinode
  have hnone : (s₀.write 1 superblock).inodes = [] := hkept.inodes.trans hinodes
  refine (ialloc_spec hE hs₁ 1).post ?_
  rintro root t ⟨rfl, ht, htfree, htinodes⟩
  rw [hfree] at htfree htinodes ⊢
  rw [hnone] at htinodes
  have hnumbered : Numbered t := by
    refine ⟨ht, fun i => ?_⟩
    rw [htinodes, htfree, nil_append, mem_singleton]
    omega
  rw [if_pos rfl]
  have happend : ∀ {u : Image}, Numbered u ∧ u.freeinode = 2 → ∀ p,
      Ensures (iappend 1 p) u (fun _ u' => Numbered u' ∧ u'.freeinode = 2) E := by
    rintro u ⟨hu, hufree⟩ p
    refine (iappend_spec hE hu.1 1 p).post ?_
    rintro - u' ⟨hu', hfree', hinodes'⟩
    exact ⟨hu.append (le_refl 1) (by omega) hu' hfree' hinodes', hfree'.trans hufree⟩
  simp only [ensures_bind]
  refine (happend ⟨hnumbered, htfree⟩ _).post ?_
  rintro - u₁ hu₁
  refine (happend hu₁ _).post ?_
  rintro - u₂ ⟨hu₂, hfree₂⟩
  refine (ensures_forM (fun done w => Numbered w ∧ w.freeinode = done.length + 2)
    ⟨hu₂, hfree₂⟩ ?_).post ?_
  · rintro done file rest w - ⟨hw, hwfree⟩
    refine (addFile_spec hE hw (by rw [hwfree]; exact Nat.lt_add_left _ (by decide)) file).post ?_
    rintro - x ⟨hx, hxfree⟩
    refine ⟨hx, ?_⟩
    rw [hxfree, hwfree, length_append, length_singleton]
  · rintro - w ⟨hw, hwfree⟩
    simp only [fixRootSize, rinode, ensures_bind]
    refine ensures_rsect hE fun _ => ?_
    rw [ensures_pure]
    refine (winode_spec hE hw.1 1 _).post ?_
    rintro - x ⟨hx, hxfree, hxinodes⟩
    have hx' := hw.append (le_refl 1) (by omega) hx hxfree hxinodes
    have hxfree' : x.freeinode = files.length + 2 := hxfree.trans hwfree
    simp only [ensures_get, balloc]
    split
    · rw [wsect, ensures_modify]
      have hlt : place sb.bmapstart < x.sectors := by
        rw [hx.sectors]
        decide
      obtain ⟨hwrite, hkept⟩ := hx.write hlt (freeMap x.freeblock)
      exact ⟨⟨hwrite, hx'.2⟩, hxfree'⟩
    · exact hE x

end Spec

theorem mkfs_numbered {files : List InputFile} {image : Image} (hrun : mkfs files = .ok () image) :
    Numbered image ∧ image.freeinode = files.length + 2 := by
  have hany : ∀ t : Image, (fun _ => True) t := fun _ => trivial
  exact (main_spec hany files).of_ok hrun

end Xv6Kernel.Mkfs
