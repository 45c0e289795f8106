import Xv6Kernel.Constants

/-!
# The matcher and the line loop of `grep`

A C string is the list of the characters in front of its NUL.  The functions of the
matcher recur on the pattern; the loops over the text get what they try at each position
as a parameter.

`grep` is given the results of its calls of `read`, one after the other.  Its buffer is
the list of the first `m` characters.
-/

namespace Xv6Kernel.Grep

open List

/-- `here` is `matchhere(re, _)`. -/
def matchstar (c : Char) (here : List Char → Bool) : List Char → Bool
  | [] => here []
  | t :: text => here (t :: text) || ((t == c || c == '.') && matchstar c here text)

def matchhere : List Char → List Char → Bool
  | [], _ => true
  | c :: '*' :: re, text => matchstar c (matchhere re) text
  | ['$'], text => text.isEmpty
  | c :: re, t :: text => (c == '.' || c == t) && matchhere re text
  | _ :: _, [] => false

def search (here : List Char → Bool) : List Char → Bool
  | [] => here []
  | t :: text => here (t :: text) || search here text

/-- `match`, whose name is taken. -/
def matchText : List Char → List Char → Bool
  | '^' :: re, text => matchhere re text
  | re, text => search (matchhere re) text

inductive Item
  | star (c : Char)
  | dot
  | textEnd
  | char (c : Char)
  deriving DecidableEq

/-- A star belongs to the character in front of it, unless that is the end of an item. -/
def items : List Char → List Item
  | [] => []
  | c :: '*' :: re => .star c :: items re
  | ['$'] => [.textEnd]
  | c :: re => (if c = '.' then .dot else .char c) :: items re

def Item.Accepts : Item → List Char → List Char → Prop
  | .star c, piece, _ => ∀ x ∈ piece, x = c ∨ c = '.'
  | .dot, piece, _ => ∃ x, piece = [x]
  | .textEnd, piece, after => piece = [] ∧ after = []
  | .char c, piece, _ => piece = [c]

/-- A concatenation of pieces that match the items, in front of the rest of the text. -/
inductive Occurs : List Item → List Char → List Char → Prop
  | nil (after : List Char) : Occurs [] [] after
  | cons {item : Item} {rest : List Item} {piece text after : List Char}
      (hpiece : item.Accepts piece (text ++ after)) (hrest : Occurs rest text after) :
      Occurs (item :: rest) (piece ++ text) after

def Begins (l : List Item) (text : List Char) : Prop :=
  ∃ u after, text = u ++ after ∧ Occurs l u after

theorem begins_nil (text : List Char) : Begins [] text := ⟨[], text, rfl, .nil text⟩

theorem begins_cons {item : Item} {rest : List Item} {text : List Char} :
    Begins (item :: rest) text ↔
      ∃ piece left, text = piece ++ left ∧ item.Accepts piece left ∧ Begins rest left := by
  constructor
  · rintro ⟨u, after, rfl, hoccurs⟩
    cases hoccurs with
    | @cons _ _ piece u _ hpiece hrest =>
      exact ⟨piece, u ++ after, append_assoc .., hpiece, u, after, rfl, hrest⟩
  · rintro ⟨piece, left, rfl, hpiece, u, after, rfl, hrest⟩
    exact ⟨piece ++ u, after, (append_assoc ..).symm, .cons hpiece hrest⟩

theorem matchstar_iff (c : Char) (here : List Char → Bool) (text : List Char) :
    matchstar c here text = true ↔
      ∃ piece left, text = piece ++ left ∧ (∀ x ∈ piece, x = c ∨ c = '.') ∧
        here left = true := by
  induction text with
  | nil => simp [matchstar]
  | cons t text ih =>
    rw [matchstar, Bool.or_eq_true, Bool.and_eq_true, ih]
    constructor
    · rintro (hhere | ⟨ht, piece, left, rfl, hpiece, hhere⟩)
      · exact ⟨[], t :: text, rfl, by simp, hhere⟩
      · exact ⟨t :: piece, left, rfl, by simpa using ⟨by simpa using ht, hpiece⟩, hhere⟩
    · rintro ⟨piece, left, htext, hpiece, hhere⟩
      cases piece with
      | nil => exact Or.inl (by rw [htext]; exact hhere)
      | cons x piece =>
        obtain ⟨rfl, rfl⟩ := cons.inj htext
        rw [forall_mem_cons] at hpiece
        exact Or.inr ⟨by simpa using hpiece.1, piece, left, rfl, hpiece.2, hhere⟩

theorem accepts_one {c : Char} {piece left : List Char} :
    (if c = '.' then Item.dot else Item.char c).Accepts piece left ↔
      ∃ x, piece = [x] ∧ (c = '.' ∨ c = x) := by
  by_cases hc : c = '.'
  · simp [hc, Item.Accepts]
  · simp [hc, Item.Accepts]

theorem matchhere_iff (re text : List Char) :
    matchhere re text = true ↔ Begins (items re) text := by
  induction re using items.induct generalizing text with
  | case1 => simp [matchhere, items, begins_nil]
  | case2 c re ih =>
    rw [matchhere, matchstar_iff, items, begins_cons]
    simp only [ih, Item.Accepts]
  | case3 =>
    rw [matchhere, items, begins_cons]
    simp [Item.Accepts, begins_nil]
  | case4 c re hstar hdollar ih =>
    rw [items.eq_4 c re hstar hdollar, begins_cons]
    simp only [accepts_one]
    cases text with
    | nil => simp [matchhere.eq_5 c re hstar hdollar]
    | cons t text =>
      rw [matchhere.eq_4 c re t text hstar hdollar, Bool.and_eq_true, ih]
      constructor
      · rintro ⟨hc, hbegins⟩
        exact ⟨[t], text, rfl, ⟨t, rfl, by simpa using hc⟩, hbegins⟩
      · rintro ⟨piece, left, htext, ⟨x, rfl, hc⟩, hbegins⟩
        obtain ⟨rfl, rfl⟩ := cons.inj htext
        exact ⟨by simpa using hc, hbegins⟩

theorem search_eq (here : List Char → Bool) (text : List Char) :
    search here text = matchstar '.' here text := by
  induction text with
  | nil => rfl
  | cons t text ih => simp [search, matchstar, ih]

/-- The pattern without its `^`, and whether it had one. -/
def anchor : List Char → Bool × List Char
  | '^' :: re => (true, re)
  | re => (false, re)

/-- A text matches if it has a part that the items of the pattern stand for, and that part
is at its beginning if the pattern says so. -/
theorem match_iff_occurs (re text : List Char) :
    matchText re text = true ↔
      ∃ before u after, text = before ++ u ++ after ∧ Occurs (items (anchor re).2) u after ∧
        ((anchor re).1 = true → before = []) := by
  by_cases hre : ∃ re', re = '^' :: re'
  · obtain ⟨re, rfl⟩ := hre
    rw [matchText, matchhere_iff]
    simp [anchor, Begins]
  · have hplain : ∀ re', re = '^' :: re' → False := fun re' h => hre ⟨re', h⟩
    rw [matchText.eq_2 re text hplain, search_eq, matchstar_iff, anchor.eq_2 re hplain]
    simp only [matchhere_iff]
    constructor
    · rintro ⟨before, left, rfl, -, u, after, rfl, hoccurs⟩
      exact ⟨before, u, after, (List.append_assoc ..).symm, hoccurs, Bool.noConfusion⟩
    · rintro ⟨before, u, after, rfl, hoccurs, -⟩
      exact ⟨before, u ++ after, List.append_assoc .., by simp, u, after, rfl, hoccurs⟩

/-! ## Lines -/

def bufSize : ℕ := 1024

def strchr (s : List Char) (c : Char) : Option ℕ := (s.takeWhile (· ≠ nul)).idxOf? c

def lineLoop (pattern p : List Char) : List Char × List Char :=
  match _h : strchr p '\n' with
  | none => ([], p)
  | some q =>
      let line := p.take q
      let (out, left) := lineLoop pattern (p.drop (q + 1))
      ((if matchText pattern line then line ++ ['\n'] else []) ++ out, left)
termination_by p.length
decreasing_by
  rcases p with _ | ⟨c, p⟩
  · simp [strchr] at _h
  · simp only [List.length_drop, List.length_cons]
    omega

def grepLoop (pattern : List Char) : List Char → List (List Char) → List Char
  | _, [] => []
  | _, [] :: _ => []
  | buf, chunk :: chunks =>
      let buf := buf ++ chunk
      let (out, left) := lineLoop pattern buf
      out ++ grepLoop pattern (if left.length = buf.length then [] else left) chunks

def grep (pattern : List Char) (chunks : List (List Char)) : List Char :=
  grepLoop pattern [] chunks

def lines (s : List Char) : List (List Char) := (s.splitOn '\n').dropLast

def lastPart (s : List Char) : List Char :=
  (s.splitOn '\n').getLast (List.splitOn_ne_nil '\n' s)

def matchingLines (pattern s : List Char) : List Char :=
  ((lines s).filter (matchText pattern)).flatMap (· ++ ['\n'])

variable {s l : List Char}

theorem splitOn_last (h : '\n' ∉ s) : s.splitOn '\n' = [s] := by
  rw [splitOn_eq_splitOnP]
  exact splitOnP_eq_singleton (by simpa using fun x hx => ne_of_mem_of_not_mem hx h)

theorem splitOn_line (h : '\n' ∉ l) (s : List Char) :
    (l ++ '\n' :: s).splitOn '\n' = l :: s.splitOn '\n' := by
  rw [splitOn_eq_splitOnP, splitOn_eq_splitOnP]
  exact splitOnP_append_cons_of_forall_mem
    (by simpa using fun x hx => ne_of_mem_of_not_mem hx h) '\n' (by rfl) s

@[simp] theorem lines_last (h : '\n' ∉ s) : lines s = [] := by
  simp [lines, splitOn_last h]

@[simp] theorem lastPart_last (h : '\n' ∉ s) : lastPart s = s := by
  simp [lastPart, splitOn_last h]

@[simp] theorem lines_line (h : '\n' ∉ l) (s : List Char) :
    lines (l ++ '\n' :: s) = l :: lines s := by
  rw [lines, splitOn_line h, dropLast_cons_of_ne_nil (splitOn_ne_nil '\n' s), lines]

@[simp] theorem lastPart_line (h : '\n' ∉ l) (s : List Char) :
    lastPart (l ++ '\n' :: s) = lastPart s := by
  simp only [lastPart, splitOn_line h]
  exact getLast_cons _

theorem line_induction {P : List Char → Prop} (hlast : ∀ s, '\n' ∉ s → P s)
    (hline : ∀ l s, '\n' ∉ l → P s → P (l ++ '\n' :: s)) (s : List Char) : P s := by
  induction hn : s.length using Nat.strong_induction_on generalizing s with
  | _ n ih =>
    by_cases hmem : '\n' ∈ s
    · obtain ⟨l, s, rfl, hl⟩ := eq_append_cons_of_mem hmem
      refine hline l s hl (ih s.length ?_ s rfl)
      rw [← hn, length_append, length_cons]
      omega
    · exact hlast s hmem

theorem strchr_last (h : '\n' ∉ s) : strchr s '\n' = none := by
  rw [strchr, idxOf?_eq_none_iff]
  exact fun hmem => h (takeWhile_subset _ hmem)

theorem strchr_line (h : '\n' ∉ l) (hnul : nul ∉ l) (s : List Char) :
    strchr (l ++ '\n' :: s) '\n' = some l.length := by
  have hall : ∀ x ∈ l, decide (x ≠ nul) = true := by
    simpa using fun x hx => ne_of_mem_of_not_mem hx hnul
  rw [strchr, takeWhile_append_of_pos hall, takeWhile_cons_of_pos (by decide), idxOf?_eq_some_iff]
  refine ⟨by simp, by simp, ?_⟩
  intro j hj
  rw [getElem_append_left hj]
  exact ne_of_mem_of_not_mem (getElem_mem hj) h

theorem matchingLines_last (pattern : List Char) (h : '\n' ∉ s) :
    matchingLines pattern s = [] := by
  simp [matchingLines, h]

theorem matchingLines_line (pattern : List Char) (h : '\n' ∉ l) (s : List Char) :
    matchingLines pattern (l ++ '\n' :: s) =
      (if matchText pattern l then l ++ ['\n'] else []) ++ matchingLines pattern s := by
  by_cases hl : matchText pattern l = true
  · simp [matchingLines, h, hl]
  · simp [matchingLines, h, hl]

theorem lineLoop_eq (pattern : List Char) (hnul : nul ∉ s) :
    lineLoop pattern s = (matchingLines pattern s, lastPart s) := by
  induction s using line_induction with
  | hlast s hs =>
    rw [lineLoop]
    split
    · rw [matchingLines_last pattern hs, lastPart_last hs]
    · simp_all [strchr_last]
  | hline l s hl ih =>
    simp only [mem_append, mem_cons, not_or] at hnul
    have hchr := strchr_line hl hnul.1 s
    rw [lineLoop]
    split
    · simp_all
    · rename_i q hq
      obtain rfl : l.length = q := by simpa [hchr] using hq
      simp [ih hnul.2.2, matchingLines_line pattern hl, lastPart_line hl]

theorem lastPart_suffix (s : List Char) : lastPart s <:+ s := by
  induction s using line_induction with
  | hlast s hs => rw [lastPart_last hs]
  | hline l s hl ih =>
    rw [lastPart_line hl]
    exact (ih.trans (suffix_cons _ s)).trans (suffix_append l _)

theorem notMem_lastPart (s : List Char) : '\n' ∉ lastPart s := by
  induction s using line_induction with
  | hlast s hs => rwa [lastPart_last hs]
  | hline l s hl ih => rwa [lastPart_line hl]

theorem notMem_lastPart_append {x : Char} {t : List Char} (hs : x ∉ s) (ht : x ∉ t) :
    x ∉ lastPart s ++ t := by
  rw [mem_append, not_or]
  exact ⟨fun h => hs ((lastPart_suffix s).subset h), ht⟩

theorem lastPart_length (s : List Char) : (lastPart s).length = s.length ↔ '\n' ∉ s := by
  constructor
  · intro h
    rw [← (lastPart_suffix s).eq_of_length h]
    exact notMem_lastPart s
  · intro h
    rw [lastPart_last h]

theorem matchingLines_append (pattern s t : List Char) :
    matchingLines pattern (s ++ t) =
      matchingLines pattern s ++ matchingLines pattern (lastPart s ++ t) := by
  induction s using line_induction with
  | hlast s hs => simp [hs, matchingLines_last]
  | hline l s hl ih =>
    rw [append_assoc, cons_append, matchingLines_line _ hl, matchingLines_line _ hl,
      ih, lastPart_line hl, append_assoc]

theorem length_matchingLines_nil {t : List Char} (hs : '\n' ∉ s) (ht : '\n' ∈ t) :
    (matchingLines [] (s ++ t)).length = s.length + (matchingLines [] t).length := by
  obtain ⟨l, t, rfl, hl⟩ := eq_append_cons_of_mem ht
  have hline : '\n' ∉ s ++ l := by simp [hs, hl]
  have hmatch : ∀ text, matchText [] text = true := by
    intro text
    cases text <;> rfl
  rw [← append_assoc, matchingLines_line _ hline, matchingLines_line _ hl]
  simp [hmatch]

/-- What the calls of `read` may return when `m` characters are in the buffer: something, and
not more than there is room for. -/
def Fits : ℕ → List (List Char) → Prop
  | _, [] => True
  | m, c :: cs =>
      c ≠ [] ∧ m + c.length < bufSize ∧ Fits (if '\n' ∈ c then (lastPart c).length else 0) cs

/-- A result without a newline is followed by none with a newline. -/
def Kept : List (List Char) → Prop
  | [] => True
  | c :: cs => ('\n' ∈ c ∨ '\n' ∉ cs.flatten) ∧ Kept cs

theorem grepLoop_cons (pattern : List Char) {buf c : List Char} (hbuf : '\n' ∉ buf) (hc : c ≠ [])
    (hnul : nul ∉ buf ++ c) (cs : List (List Char)) :
    grepLoop pattern buf (c :: cs) = matchingLines pattern (buf ++ c) ++
      grepLoop pattern (if '\n' ∈ c then lastPart (buf ++ c) else []) cs := by
  rw [grepLoop.eq_3 pattern buf c cs hc, lineLoop_eq pattern hnul]
  simp only [lastPart_length]
  by_cases hnl : '\n' ∈ c
  · simp [hnl]
  · simp [hnl, hbuf]

theorem grepLoop_kept (pattern : List Char) {buf : List Char} (hbuf : '\n' ∉ buf) {m : ℕ}
    {cs : List (List Char)} (hfits : Fits m cs) (hnul : nul ∉ buf ++ cs.flatten)
    (hkept : Kept cs) :
    grepLoop pattern buf cs = matchingLines pattern (buf ++ cs.flatten) := by
  induction cs generalizing buf m with
  | nil => simp [grepLoop, matchingLines_last, hbuf]
  | cons c cs ih =>
    obtain ⟨hc, -, hfits⟩ := hfits
    obtain ⟨hnext, hkept⟩ := hkept
    rw [flatten_cons, ← append_assoc, mem_append, not_or] at hnul
    rw [grepLoop_cons pattern hbuf hc hnul.1, flatten_cons, ← append_assoc,
      matchingLines_append pattern (buf ++ c)]
    by_cases hnl : '\n' ∈ c
    · rw [if_pos hnl, ih (notMem_lastPart _) hfits (notMem_lastPart_append hnul.1 hnul.2) hkept]
    · have hrest : '\n' ∉ cs.flatten := hnext.resolve_left hnl
      have hplain : '\n' ∉ buf ++ c := by simp [hbuf, hnl]
      have hall : '\n' ∉ buf ++ c ++ cs.flatten := mem_append.not.mpr (by tauto)
      rw [if_neg hnl, ih not_mem_nil hfits (by simpa using hnul.2) hkept,
        lastPart_last hplain, matchingLines_last _ hall, nil_append,
        matchingLines_last _ hrest]

theorem length_grepLoop {buf : List Char} (hbuf : '\n' ∉ buf) {m : ℕ}
    {cs : List (List Char)} (hfits : Fits m cs) (hnul : nul ∉ buf ++ cs.flatten) :
    (grepLoop [] buf cs).length ≤ (matchingLines [] (buf ++ cs.flatten)).length ∧
      (¬ Kept cs →
        (grepLoop [] buf cs).length < (matchingLines [] (buf ++ cs.flatten)).length) := by
  induction cs generalizing buf m with
  | nil => simp [grepLoop, Kept]
  | cons c cs ih =>
    obtain ⟨hc, -, hfits⟩ := hfits
    rw [flatten_cons, ← append_assoc, mem_append, not_or] at hnul
    rw [grepLoop_cons [] hbuf hc hnul.1, flatten_cons, ← append_assoc, Kept]
    by_cases hnl : '\n' ∈ c
    · have hlater := ih (notMem_lastPart _) hfits (notMem_lastPart_append hnul.1 hnul.2)
      rw [if_pos hnl, matchingLines_append [] (buf ++ c), length_append, length_append]
      simp only [hnl, true_or, true_and]
      exact ⟨by omega, fun h => Nat.add_lt_add_left (hlater.2 h) _⟩
    · have hlater := ih not_mem_nil hfits (by simpa using hnul.2)
      have hplain : '\n' ∉ buf ++ c := by simp [hbuf, hnl]
      rw [if_neg hnl, matchingLines_last [] hplain]
      simp only [nil_append] at hlater ⊢
      by_cases hrest : '\n' ∈ cs.flatten
      · rw [length_matchingLines_nil hplain hrest, length_append]
        have hpos := length_pos_iff.mpr hc
        exact ⟨by omega, fun _ => by omega⟩
      · have hall : '\n' ∉ buf ++ c ++ cs.flatten := mem_append.not.mpr (by tauto)
        rw [matchingLines_last [] hall]
        rw [matchingLines_last [] hrest] at hlater
        simpa [hrest] using hlater

/-- What `grep` writes are the lines that match, for every pattern, if and only if no call of
`read` returns a part without a newline while a newline is still to come. -/
theorem grep_matching_lines_iff {chunks : List (List Char)} (hfits : Fits 0 chunks)
    (hnul : nul ∉ chunks.flatten) :
    (∀ pattern, grep pattern chunks = matchingLines pattern chunks.flatten) ↔ Kept chunks := by
  constructor
  · intro hall
    by_contra hkept
    have hless := (length_grepLoop List.not_mem_nil hfits hnul).2 hkept
    rw [← grep, hall []] at hless
    exact lt_irrefl _ hless
  · intro hkept pattern
    exact grepLoop_kept pattern List.not_mem_nil hfits hnul hkept

theorem grep_matching_lines_oneRead :
    grep ['a'] [['a', 'b', '\n'], ['c']] = ['a', 'b', '\n'] := by
  have hfits : Fits 0 [['a', 'b', '\n'], ['c']] := by
    refine ⟨by decide, by decide, by decide, by decide, trivial⟩
  have hkept : Kept [['a', 'b', '\n'], ['c']] := by
    refine ⟨by decide, by decide, trivial⟩
  rw [(grep_matching_lines_iff hfits (by decide)).mpr hkept]
  decide

/-- One line, read at once and in two parts: the first part is thrown away, and what is
left of the line does not match. -/
theorem grep_loses_first_part :
    Fits 0 [['a', 'b', '\n']] ∧ grep ['a'] [['a', 'b', '\n']] = ['a', 'b', '\n'] ∧
      Fits 0 [['a'], ['b', '\n']] ∧ grep ['a'] [['a'], ['b', '\n']] = [] := by
  refine ⟨⟨by decide, by decide, trivial⟩, ?_,
    ⟨by decide, by decide, by decide, by decide, trivial⟩,
    ?_⟩
  · rw [grep, grepLoop_cons _ (by decide) (by decide) (by decide), grepLoop]
    decide
  · rw [grep, grepLoop_cons _ (by decide) (by decide) (by decide), if_neg (by decide),
      grepLoop_cons _ (by decide) (by decide) (by decide), grepLoop]
    decide

end Xv6Kernel.Grep
