import Xv6Kernel.Constants
import Xv6Kernel.FileCalls
import Mathlib.Data.List.TakeWhile

/-!
# Names and paths as the kernel stores them

The buffer of a name has `DIRSIZ` bytes and ends with a null byte only if the name is shorter.  The
code of `namex` works on the bytes of a path in memory and on one such buffer, in which bytes of
earlier names are left behind.  Read as texts, the contents of the buffer are the elements of the
path.
-/

namespace Xv6Kernel

open ThreadPrograms List

/-- The bytes in front of the first null byte, and at most `n`. -/
def textOf (n : ℕ) (buffer : List Char) : List Char := (buffer.take n).takeWhile (· ≠ nul)

theorem textOf_succ (n : ℕ) (buffer : List Char) :
    textOf (n + 1) buffer =
      if buffer.headD nul = nul then [] else buffer.headD nul :: textOf n buffer.tail := by
  cases buffer with
  | nil => simp [textOf]
  | cons c buffer => by_cases hc : c = nul <;> simp [textOf, hc]

theorem textOf_append {n : ℕ} {text : List Char} (htext : nul ∉ text) (rest : List Char) :
    textOf n (text ++ nul :: rest) = text.take n := by
  induction text generalizing n with
  | nil => cases n <;> simp [textOf]
  | cons c text ih =>
    simp only [mem_cons, not_or] at htext
    cases n with
    | zero => simp [textOf]
    | succ n =>
      rw [textOf_succ]
      simp [Ne.symm htext.1, ih htext.2]

theorem textOf_take {n : ℕ} {text : List Char} (htext : nul ∉ text) (hlen : n ≤ text.length)
    (rest : List Char) : textOf n (text.take n ++ rest) = text.take n := by
  rw [textOf, take_left' (length_take_of_le hlen), takeWhile_eq_self_iff]
  intro c hc
  simpa using fun heq : c = nul => htext (heq ▸ mem_of_mem_take hc)

/-- The nonempty pieces between slashes, cut to the width of a name. -/
def pathElements (path : List Char) : List Name :=
  ((path.splitOn '/').filter (· ≠ [])).map (List.take dirsiz)

theorem pathElements_slash (path : List Char) : pathElements ('/' :: path) = pathElements path := by
  simp [pathElements, splitOn_eq_splitOnP, splitOnP_cons_eq_if_modifyHead]

theorem pathElements_dropWhile (path : List Char) :
    pathElements (path.dropWhile (· = '/')) = pathElements path := by
  induction path with
  | nil => rfl
  | cons c path ih =>
    by_cases hc : c = '/'
    · rw [hc, pathElements_slash, ← ih]
      simp
    · simp [hc]

variable {path rest : List Char}

theorem pathElements_piece {piece : List Char} (hpiece : '/' ∉ piece) (hne : piece ≠ [])
    (hrest : rest.head?.all (· = '/')) :
    pathElements (piece ++ rest) = piece.take dirsiz :: pathElements rest := by
  have hnot : ∀ c ∈ piece, (c == '/') = false := by
    intro c hc
    simpa using fun heq : c = '/' => hpiece (heq ▸ hc)
  cases rest with
  | nil =>
    simp [pathElements, splitOn_eq_splitOnP, splitOnP_eq_singleton hnot, hne]
  | cons c rest =>
    have hc : c = '/' := by simpa using hrest
    rw [hc, pathElements_slash]
    simp only [pathElements, splitOn_eq_splitOnP,
      splitOnP_append_cons_of_forall_mem hnot '/' (by rfl) rest]
    simp [hne]

theorem ne_slash_of_dropWhile {c : Char} (h : path.dropWhile (· = '/') = c :: rest) : c ≠ '/' := by
  have hnot := head?_dropWhile_not (fun c => decide (c = '/')) path
  simpa [h] using hnot

theorem elementsUpTo_eq (n : ℕ) (path : List Char) (hlen : path.length ≤ n) :
    elementsUpTo n path = pathElements path := by
  induction n generalizing path with
  | zero =>
    rw [length_eq_zero_iff.mp (Nat.le_zero.mp hlen)]
    rfl
  | succ n ih =>
    rw [elementsUpTo, ← pathElements_dropWhile path]
    have hle : (path.dropWhile (· = '/')).length ≤ n + 1 :=
      (dropWhile_sublist _).length_le.trans hlen
    simp only [skipelem]
    cases hq : path.dropWhile (· = '/') with
    | nil => rfl
    | cons c rest =>
      have hc := ne_slash_of_dropWhile hq
      simp only [reduceCtorEq, if_false]
      rw [hq, length_cons] at hle
      have hsplit := takeWhile_append_dropWhile (p := (· ≠ '/')) (l := c :: rest)
      have hshort : ((c :: rest).dropWhile (· ≠ '/')).length ≤ n := by
        rw [dropWhile_cons_of_pos (by simpa using hc)]
        exact (dropWhile_sublist _).length_le.trans (by omega)
      nth_rewrite 3 [← hsplit]
      rw [pathElements_piece, ih, pathElements_dropWhile]
      · exact (dropWhile_sublist _).length_le.trans hshort
      · intro hmem
        simpa using mem_takeWhile_imp hmem
      · simp [hc]
      · have hend := head?_dropWhile_not (fun c => decide (c ≠ '/')) (c :: rest)
        cases htail : (c :: rest).dropWhile (· ≠ '/') with
        | nil => simp
        | cons a tail =>
          rw [htail] at hend
          simpa using hend

theorem elements_eq (path : List Char) : elements path = pathElements path :=
  elementsUpTo_eq path.length path le_rfl

theorem elements_of_none (h : skipelem path = none) : elements path = [] := by
  unfold elements
  cases path with
  | nil => rfl
  | cons c path => simp [elementsUpTo, h]

theorem elements_of_some {name : Name}
    (h : skipelem path = some (name, rest)) : elements path = name :: elements rest := by
  have hlen : rest.length ≤ path.length := by
    simp only [skipelem] at h
    split_ifs at h
    cases h
    exact ((dropWhile_sublist _).trans
      ((dropWhile_sublist _).trans (dropWhile_sublist _))).length_le
  rw [elements_eq, elements_eq, ← elementsUpTo_eq (path.length + 1) path (by omega),
    elementsUpTo, h]
  simp only [elementsUpTo_eq path.length rest hlen]

/-! ## The code on bytes -/

namespace Raw

/-- The rest of the path and the buffer after the next element has been copied to it. -/
def skipelem (path name : List Char) : Option (List Char × List Char) :=
  let path := path.dropWhile (· = '/')
  if path.headD nul = nul then none
  else
    let s := path.takeWhile fun c => c ≠ '/' ∧ c ≠ nul
    let path := path.dropWhile fun c => c ≠ '/' ∧ c ≠ nul
    let name :=
      if dirsiz ≤ s.length then s.take dirsiz ++ name.drop dirsiz
      else s ++ nul :: name.drop (s.length + 1)
    some (path.dropWhile (· = '/'), name)

theorem length_skipelem {name path' name' : List Char}
    (h : skipelem path name = some (path', name')) : path'.length < path.length := by
  by_cases hend : (path.dropWhile (· = '/')).headD nul = nul
  · simp only [skipelem, if_pos hend, reduceCtorEq] at h
  · simp only [skipelem, if_neg hend, Option.some.injEq, Prod.mk.injEq] at h
    rw [← h.1]
    have hle := (dropWhile_sublist (fun c => decide (c = '/')) (l := path)).length_le
    cases hstart : path.dropWhile (· = '/') with
    | nil => exact absurd (by rw [hstart]; rfl) hend
    | cons c rest =>
      have hc : c ≠ nul := by simpa [hstart] using hend
      rw [hstart, length_cons] at hle
      rw [dropWhile_cons_of_pos (by simp [hc, ne_slash_of_dropWhile hstart])]
      have := ((dropWhile_sublist (fun c => decide (c = '/'))).trans
        (dropWhile_sublist (fun c => decide (c ≠ '/' ∧ c ≠ nul)) (l := rest))).length_le
      omega

section Terminated

variable {path junk : List Char}

theorem scan_terminated {p q : Char → Bool} (hp : p nul = false) (hpq : ∀ c ∈ path, p c = q c)
    (junk : List Char) :
    (path ++ nul :: junk).takeWhile p = path.takeWhile q ∧
      (path ++ nul :: junk).dropWhile p = path.dropWhile q ++ nul :: junk := by
  induction path with
  | nil => simp [hp]
  | cons c path ih =>
    obtain ⟨hc, hrest⟩ := forall_mem_cons.mp hpq
    cases hq : q c with
    | true => simp [hc, hq, ih hrest]
    | false => simp [hc, hq]

theorem skip_slashes (path junk : List Char) :
    (path ++ nul :: junk).dropWhile (· = '/') = path.dropWhile (· = '/') ++ nul :: junk :=
  (scan_terminated (by rfl) (fun _ _ => rfl) junk).2

theorem scan_piece (hpath : nul ∉ path) (junk : List Char) :
    (path ++ nul :: junk).takeWhile (fun c => c ≠ '/' ∧ c ≠ nul) = path.takeWhile (· ≠ '/') ∧
      (path ++ nul :: junk).dropWhile (fun c => c ≠ '/' ∧ c ≠ nul) =
        path.dropWhile (· ≠ '/') ++ nul :: junk := by
  refine scan_terminated (by rfl) (fun c hc => ?_) junk
  have hne : c ≠ nul := fun heq => hpath (heq ▸ hc)
  simp [hne]

theorem skipelem_none (junk name : List Char)
    (h : Xv6Kernel.skipelem path = none) : skipelem (path ++ nul :: junk) name = none := by
  simp only [Xv6Kernel.skipelem] at h
  split_ifs at h with hempty
  simp only [skipelem, skip_slashes, hempty]
  rfl

theorem skipelem_some {elem : List Char} (junk name : List Char) (hpath : nul ∉ path)
    (h : Xv6Kernel.skipelem path = some (elem, rest)) :
    nul ∉ rest ∧ ∃ name', skipelem (path ++ nul :: junk) name = some (rest ++ nul :: junk, name') ∧
      textOf dirsiz name' = elem := by
  simp only [Xv6Kernel.skipelem] at h
  split_ifs at h with hempty
  cases h
  have hsub := dropWhile_sublist (fun c => decide (c = '/')) (l := path)
  have hfree : nul ∉ path.dropWhile (· = '/') := fun hmem => hpath (hsub.mem hmem)
  have hpiece : nul ∉ (path.dropWhile (· = '/')).takeWhile (· ≠ '/') :=
    fun hmem => hfree ((takeWhile_sublist _).mem hmem)
  refine ⟨fun hmem => hfree (((dropWhile_sublist _).trans (dropWhile_sublist _)).mem hmem), ?_⟩
  have hhead : (path.dropWhile (· = '/') ++ nul :: junk).headD nul ≠ nul := by
    cases hstart : path.dropWhile (· = '/') with
    | nil => exact absurd hstart hempty
    | cons c rest =>
      rw [hstart] at hfree
      exact fun heq => hfree (heq ▸ mem_cons_self)
  simp only [skipelem, skip_slashes, if_neg hhead, scan_piece hfree]
  refine ⟨_, rfl, ?_⟩
  split_ifs with hlong
  · exact textOf_take hpiece hlong _
  · rw [textOf_append hpiece]

end Terminated

def namexLoop (parent : Bool) (path name : List Char) (ip : ISlot) :
    FsCode (Option (ISlot × List Char)) :=
  match _h : skipelem path name with
  | none =>
      if parent then do
        iput ip
        return none
      else return some (ip, name)
  | some (path', name') => do
      ilock ip
      let node : Node ← fsOp (.inode ip)
      if node.type ≠ .dir then
        iunlockput ip
        return none
      else if parent ∧ path'.headD nul = nul then
        iunlock ip
        return some (ip, name')
      else
        let found ← dirlookup ip (textOf dirsiz name') false
        match found with
        | none =>
            iunlockput ip
            return none
        | some (next, _) =>
            iunlockput ip
            namexLoop parent path' name' next
termination_by path.length
decreasing_by exact length_skipelem _h

theorem skipelem_rest {elem : Name}
    (h : Xv6Kernel.skipelem path = some (elem, rest)) : rest.head? ≠ some '/' := by
  simp only [Xv6Kernel.skipelem] at h
  split_ifs at h
  cases h
  intro hslash
  have hnot := head?_dropWhile_not (fun c => decide (c = '/'))
    ((path.dropWhile (· = '/')).dropWhile (· ≠ '/'))
  rw [hslash] at hnot
  simp at hnot

theorem headD_eq_nul (junk : List Char) (hslash : rest.head? ≠ some '/')
    (hrest : nul ∉ rest) : (rest ++ nul :: junk).headD nul = nul ↔ elements rest = [] := by
  cases rest with
  | nil => exact iff_of_true rfl rfl
  | cons c rest =>
    have hc : c ≠ '/' := by simpa using hslash
    refine iff_of_false (fun heq => hrest (heq ▸ mem_cons_self)) ?_
    rw [elements, length_cons, elementsUpTo, Xv6Kernel.skipelem]
    simp [hc]

def answer (parent : Bool) (found : Option (ISlot × List Char)) : Option (ISlot × Name) :=
  found.map fun r => (r.1, if parent then textOf dirsiz r.2 else [])

theorem namexLoop_eq (parent : Bool) (hpath : nul ∉ path) (junk name : List Char) (ip : ISlot) :
    (do return answer parent (← namexLoop parent (path ++ nul :: junk) name ip)) =
      walk parent ip (elements path) := by
  induction hlen : path.length using Nat.strong_induction_on generalizing path name ip with
  | _ n ih =>
    rw [namexLoop]
    cases hskip : Xv6Kernel.skipelem path with
    | none =>
      have hraw := skipelem_none junk name hskip
      rw [elements_of_none hskip, walk]
      split
      next =>
        cases parent with
        | true =>
          simp only [if_true, bind_assoc, pure_bind]
          rfl
        | false => rfl
      next h => simp [hraw] at h
    | some found =>
      obtain ⟨elem, rest⟩ := found
      obtain ⟨hrest, name', hraw, htext⟩ := skipelem_some junk name hpath hskip
      rw [elements_of_some hskip, walk]
      split
      next h => simp [hraw] at h
      next path' name'' h =>
        rw [hraw] at h
        cases h
        have hlast := headD_eq_nul junk (skipelem_rest hskip) hrest
        simp only [bind_assoc, hlast, htext]
        refine bind_congr fun _ => bind_congr fun node => ?_
        split_ifs with hdir hstop
        · simp only [bind_assoc, pure_bind]
          rfl
        · simp only [bind_assoc, pure_bind, answer, Option.map_some, hstop.1, if_true, htext]
        · simp only [bind_assoc]
          refine bind_congr fun found => ?_
          cases found with
          | none => simp only [bind_assoc, pure_bind]; rfl
          | some r =>
            simp only [bind_assoc]
            refine bind_congr fun _ => ?_
            have hshort := length_skipelem hraw
            simp only [length_append] at hshort
            exact ih rest.length (by omega) hrest _ _ rfl

def namex (path : List Char) (parent : Bool) (name : List Char) :
    FsCode (Option (ISlot × List Char)) := do
  if path.headD nul = '/' then
    let ip ← iget rootino
    namexLoop parent path name ip
  else
    let cwd : ISlot ← fsOp .getCwd
    let ip ← idup cwd
    namexLoop parent path name ip

theorem namex_eq (parent : Bool) (hpath : nul ∉ path) (junk name : List Char) :
    (do return answer parent (← namex (path ++ nul :: junk) parent name)) =
      Xv6Kernel.namex path parent := by
  have hslash : (path ++ nul :: junk).headD nul = '/' ↔ path.head? = some '/' := by
    cases path with
    | nil => exact iff_of_false (by simp; decide) (by simp)
    | cons c path => simp
  simp only [namex, Xv6Kernel.namex, hslash]
  split_ifs
  · simp only [bind_assoc]
    exact bind_congr fun ip => namexLoop_eq parent hpath junk name ip
  · simp only [bind_assoc]
    exact bind_congr fun cwd => bind_congr fun ip => namexLoop_eq parent hpath junk name ip

/-- The buffer of `namei` is not initialised. -/
def namei (path name : List Char) : FsCode (Option ISlot) := do
  let found ← namex path false name
  return found.map Prod.fst

def nameiparent (path name : List Char) : FsCode (Option (ISlot × List Char)) :=
  namex path true name

theorem namei_eq (hpath : nul ∉ path) (junk name : List Char) :
    namei (path ++ nul :: junk) name = Xv6Kernel.namei path := by
  rw [Xv6Kernel.namei, ← namex_eq false hpath junk name]
  simp only [namei, bind_assoc, pure_bind]
  refine bind_congr fun found => ?_
  cases found <;> rfl

end Raw

end Xv6Kernel
