import Xv6Kernel.Constants

/-!
# The tokens of the shell

`gettoken` and `peek` of `sh.c`, and the sequence of tokens of a line that they go
through.  A `char *` into the line is what is left of the line from there, so `s < es`
says that something is left, and `*s` at the end of the line is the NUL behind it.
-/

namespace Xv6Kernel.Shell

open List

def whitespace : List Char := [' ', '\t', '\r', '\n', '\x0b']

def symbols : List Char := ['<', '|', '>', '&', ';', '(', ')']

def isWhite (c : Char) : Bool := whitespace.contains c

def isWord (c : Char) : Bool := !whitespace.contains c && !symbols.contains c

abbrev Ptr := List Char

/-- A word, from `q` up to `eq`. -/
structure Str where
  q : Ptr
  eq : Ptr
  deriving DecidableEq

/-- What `gettoken` returns and stores: `ret`, `*q` and `*eq`, and `*ps`. -/
structure Gotten where
  ret : Char
  str : Str
  ps : Ptr

/-- `while(s < es && strchr(whitespace, *s)) s++`. -/
def skipWhite (s : Ptr) : Ptr := s.dropWhile isWhite

/-- The switch of `gettoken`: the returned value, and the pointer behind it. -/
def scan : Ptr → Char × Ptr
  | [] => (nul, [])
  | c :: s =>
      if ['|', '(', ')', ';', '&', '<'].contains c then (c, s)
      else if c = '>' then if s.head? = some '>' then ('+', s.tail) else (c, s)
      else ('a', (c :: s).dropWhile isWord)

def gettoken (ps : Ptr) : Gotten :=
  let q := skipWhite ps
  let (ret, eq) := scan q
  ⟨ret, ⟨q, eq⟩, skipWhite eq⟩

def peek (ps : Ptr) (toks : List Char) : Bool × Ptr :=
  let s := skipWhite ps
  (s.head?.any toks.contains, s)

/-! ## The tokens of a line -/

inductive Token
  | bar
  | lparen
  | rparen
  | semi
  | amp
  | less
  | greater
  | append
  | word (text : List Char)
  deriving DecidableEq

def Token.code : Token → Char
  | .bar => '|'
  | .lparen => '('
  | .rparen => ')'
  | .semi => ';'
  | .amp => '&'
  | .less => '<'
  | .greater => '>'
  | .append => '+'
  | .word _ => 'a'

def Token.lead : Token → Option Char
  | .append => some '>'
  | .word _ => none
  | t => some t.code

def symbolToken (c : Char) : Token :=
  if c = '<' then .less
  else if c = '|' then .bar
  else if c = '&' then .amp
  else if c = ';' then .semi
  else if c = '(' then .lparen
  else .rparen

/-- Words are maximal runs of characters that are neither white space nor symbols,
and `>>` is one token. -/
def tokens : List Char → List Token
  | [] => []
  | c :: s =>
      if isWhite c then tokens s
      else if isWord c then
        .word (c :: s.takeWhile isWord) :: tokens (s.dropWhile isWord)
      else if c = '>' then
        if s.head? = some '>' then .append :: tokens s.tail else .greater :: tokens s
      else symbolToken c :: tokens s
termination_by s => s.length
decreasing_by
  · simp
  · exact Nat.lt_succ_of_le (List.dropWhile_suffix isWord).length_le
  · simp only [List.length_tail, List.length_cons]
    omega
  · simp
  · simp

/-- The word lies in the line and is a maximal run. -/
structure Str.Within (line : List Char) (w : Str) : Prop where
  suffix : w.q <:+ line
  text : w.q = w.q.takeWhile isWord ++ w.eq
  maximal : ∀ c, w.eq.head? = some c → isWord c = false

def Str.text (w : Str) : List Char := w.q.take (w.q.length - w.eq.length)

theorem Str.text_of_append {w : Str} {text : List Char} (h : w.q = text ++ w.eq) :
    w.text = text := by
  rw [Str.text, h, length_append, Nat.add_sub_cancel, take_left]

theorem tokens_skipWhite (s : Ptr) : tokens (skipWhite s) = tokens s := by
  induction s with
  | nil => rfl
  | cons c s ih =>
    by_cases hwhite : isWhite c
    · rw [skipWhite, dropWhile_cons_of_pos hwhite, tokens, if_pos hwhite]
      exact ih
    · rw [skipWhite, dropWhile_cons_of_neg hwhite]

theorem tokens_length_le (s : List Char) : (tokens s).length ≤ s.length := by
  fun_induction tokens s with
  | case1 => exact le_refl 0
  | case2 c s hwhite ih => exact Nat.le_succ_of_le ih
  | case3 c s hwhite hword ih =>
    have hdrop := (dropWhile_suffix (l := s) isWord).length_le
    exact Nat.succ_le_succ (ih.trans hdrop)
  | case4 s hnext hwhite hword ih =>
    rw [length_tail] at ih
    rw [length_cons, length_cons]
    omega
  | case5 s hnext hwhite hword ih | case6 c s hwhite hword hgreater ih => exact Nat.succ_le_succ ih

theorem skipWhite_suffix (s : Ptr) : skipWhite s <:+ s := dropWhile_suffix isWhite

theorem skipWhite_cases (s : Ptr) :
    skipWhite s = [] ∨ ∃ c rest, skipWhite s = c :: rest ∧ isWhite c = false := by
  cases hskip : skipWhite s with
  | nil => exact Or.inl rfl
  | cons c rest =>
    refine Or.inr ⟨c, rest, rfl, ?_⟩
    have hhead := head?_dropWhile_not isWhite s
    rw [skipWhite] at hskip
    rw [hskip] at hhead
    simpa using hhead

theorem isWord_eq_false {c : Char} (hwhite : isWhite c = false) :
    isWord c = false ↔ c ∈ symbols := by
  simp [isWord, isWhite] at hwhite ⊢
  simp [hwhite]

theorem not_mem_symbols {c : Char} (hword : isWord c = true) : c ∉ symbols := by
  simp [isWord] at hword
  exact hword.2

theorem scan_cons {c : Char} {s : Ptr} (hwhite : isWhite c = false) :
    ∃ t, tokens (c :: s) = t :: tokens (scan (c :: s)).2 ∧ (scan (c :: s)).1 = t.code ∧
      t.lead = (if isWord c then none else some c) ∧ (scan (c :: s)).2 <:+ c :: s ∧
      ∀ text, t = .word text → text = (c :: s).takeWhile isWord ∧
        (scan (c :: s)).2 = (c :: s).dropWhile isWord := by
  by_cases hword : isWord c = true
  · have hsymbol := not_mem_symbols hword
    simp only [symbols, mem_cons, not_or] at hsymbol
    have hscan : scan (c :: s) = ('a', (c :: s).dropWhile isWord) := by
      simp [scan, hsymbol]
    have htokens : tokens (c :: s) =
        .word ((c :: s).takeWhile isWord) :: tokens ((c :: s).dropWhile isWord) := by
      rw [tokens, if_neg (by simp [hwhite]), if_pos hword, takeWhile_cons_of_pos hword,
        dropWhile_cons_of_pos hword]
    refine ⟨_, by rw [htokens, hscan], by rw [hscan]; rfl, by rw [if_pos hword]; rfl, ?_, ?_⟩
    · rw [hscan]
      exact dropWhile_suffix isWord
    · intro text htext
      rw [hscan]
      exact ⟨(Token.word.inj htext).symm, rfl⟩
  · have hsymbol := (isWord_eq_false hwhite).mp (by simpa using hword)
    have htokens : tokens (c :: s) = if c = '>' then
        if s.head? = some '>' then .append :: tokens s.tail else .greater :: tokens s
        else symbolToken c :: tokens s := by
      rw [tokens, if_neg (by simp [hwhite]), if_neg hword]
    rw [htokens]
    by_cases hgreater : c = '>'
    · subst c
      by_cases hnext : s.head? = some '>'
      · have hscan : scan ('>' :: s) = ('+', s.tail) := by simp [scan, hnext]
        rw [if_pos rfl, if_pos hnext, hscan]
        refine ⟨.append, rfl, rfl, by rw [if_neg hword]; rfl, ?_, by simp⟩
        exact (tail_suffix s).trans (suffix_cons '>' s)
      · have hscan : scan ('>' :: s) = ('>', s) := by simp [scan, hnext]
        rw [if_pos rfl, if_neg hnext, hscan]
        exact ⟨.greater, rfl, rfl, by rw [if_neg hword]; rfl, suffix_cons '>' s, by simp⟩
    · simp only [symbols, mem_cons, not_mem_nil, or_false, hgreater, false_or] at hsymbol
      have hscan : scan (c :: s) = (c, s) := by
        rcases hsymbol with rfl | rfl | rfl | rfl | rfl | rfl <;> rfl
      have hcode : c = (symbolToken c).code := by
        rcases hsymbol with rfl | rfl | rfl | rfl | rfl | rfl <;> rfl
      have hlead : (symbolToken c).lead = some c := by
        rcases hsymbol with rfl | rfl | rfl | rfl | rfl | rfl <;> rfl
      rw [if_neg hgreater, hscan]
      refine ⟨symbolToken c, rfl, hcode, ?_, suffix_cons c s, ?_⟩
      · rw [if_neg hword, hlead]
      · intro text htext
        rw [htext] at hlead
        cases hlead

theorem gettoken_nil {s : Ptr} (h : tokens s = []) :
    (gettoken s).ret = nul ∧ (gettoken s).ps = [] := by
  rcases skipWhite_cases s with hnil | ⟨c, rest, hcons, hwhite⟩
  · rw [gettoken, hnil]
    exact ⟨rfl, rfl⟩
  · obtain ⟨t, htokens, _⟩ := scan_cons (s := rest) hwhite
    rw [← tokens_skipWhite, hcons, htokens] at h
    cases h

theorem gettoken_cons {s : Ptr} {t : Token} {us : List Token} (h : tokens s = t :: us) :
    (gettoken s).ret = t.code ∧ tokens (gettoken s).ps = us ∧ (gettoken s).ps <:+ s ∧
      ∀ text, t = .word text → (gettoken s).str.text = text ∧ (gettoken s).str.Within s := by
  rcases skipWhite_cases s with hnil | ⟨c, rest, hcons, hwhite⟩
  · rw [← tokens_skipWhite, hnil, tokens] at h
    cases h
  · obtain ⟨t', htokens, hcode, _, hsuffix, hword⟩ := scan_cons (s := rest) hwhite
    have hs := skipWhite_suffix s
    rw [← tokens_skipWhite, hcons, htokens, cons.injEq] at h
    obtain ⟨rfl, rfl⟩ := h
    rw [hcons] at hs
    have hgettoken : gettoken s = ⟨(scan (c :: rest)).1, ⟨c :: rest, (scan (c :: rest)).2⟩,
        skipWhite (scan (c :: rest)).2⟩ := by
      rw [gettoken, hcons]
    rw [hgettoken]
    refine ⟨hcode, tokens_skipWhite _, (skipWhite_suffix _).trans (hsuffix.trans hs), ?_⟩
    intro text htext
    obtain ⟨rfl, heq⟩ := hword text htext
    have happend : c :: rest = (c :: rest).takeWhile isWord ++ (scan (c :: rest)).2 := by
      rw [heq, takeWhile_append_dropWhile]
    refine ⟨Str.text_of_append happend, hs, happend, ?_⟩
    intro d hd
    have hhead := head?_dropWhile_not isWord (c :: rest)
    simp only at hd
    rw [← heq, hd] at hhead
    simpa using hhead

theorem peek_eq {s : Ptr} {toks : List Char} (htoks : toks ⊆ symbols) :
    peek s toks = ((tokens s).head?.any fun t => t.lead.any toks.contains, skipWhite s) := by
  rw [peek, ← tokens_skipWhite]
  rcases skipWhite_cases s with hnil | ⟨c, rest, hcons, hwhite⟩
  · rw [hnil, tokens]
    rfl
  · obtain ⟨t, htokens, _, hlead, _⟩ := scan_cons (s := rest) hwhite
    rw [hcons, htokens]
    simp only [head?_cons, Option.any_some, hlead]
    by_cases hword : isWord c = true
    · have hnot : toks.contains c = false := by
        rw [contains_eq_mem, decide_eq_false_iff_not]
        exact fun hc => not_mem_symbols hword (htoks hc)
      rw [if_pos hword, hnot]
      rfl
    · rw [if_neg hword]
      rfl

end Xv6Kernel.Shell
