import Xv6Kernel.ShellParser

/-!
# The grammar of the shell

    line  ::= pipe '&'* [';' line]
    pipe  ::= exec ['|' pipe]
    exec  ::= '(' line ')' redir* | (redir | word)*
    redir ::= ('<' | '>' | '>>') word

An `exec` has at most nine words.  The parser ends for every line, and what it returns
is the tree of the derivation, if there is one.
-/

namespace Xv6Kernel.Shell

open TraceExecution List Cmd

inductive RedirOp
  | less
  | greater
  | append
  deriving DecidableEq

structure Redir (W : Type) where
  op : RedirOp
  file : W

open Redir

/-- What may stand in an `exec` that is not a block. -/
inductive Item
  | redir (r : Redir (List Char))
  | word (text : List Char)

open Item

inductive Nonterminal
  | line
  | pipe
  | exec

def RedirOp.token : RedirOp → Token
  | .less => .less
  | .greater => .greater
  | .append => .append

def Redir.around {W : Type} (cmd : Cmd W) (r : Redir W) : Cmd W :=
  match r.op with
  | .less => .redir cmd r.file oRdonly 0
  | .greater => .redir cmd r.file (oWronly ||| oCreate) 1
  | .append => .redir cmd r.file (oWronly ||| oCreate) 1

def Redir.tokens (r : Redir (List Char)) : List Token := [r.op.token, .word r.file]

def Item.tokens : Item → List Token
  | .redir r => r.tokens
  | .word text => [.word text]

def Item.redir? : Item → Option (Redir (List Char))
  | .redir r => some r
  | .word _ => none

def Item.word? : Item → Option (List Char)
  | .redir _ => none
  | .word text => some text

/-- The trees that the grammar gives for a sequence of tokens. -/
inductive Derives : Nonterminal → List Token → Cmd (List Char) → Prop
  | line {ts : List Token} {cmd : Cmd (List Char)} (n : ℕ) (hpipe : Derives .pipe ts cmd) :
      Derives .line (ts ++ List.replicate n .amp) (Cmd.back^[n] cmd)
  | list {ts us : List Token} {cmd right : Cmd (List Char)} (n : ℕ)
      (hpipe : Derives .pipe ts cmd) (hline : Derives .line us right) :
      Derives .line (ts ++ List.replicate n .amp ++ .semi :: us)
        (.list (Cmd.back^[n] cmd) right)
  | exec {ts : List Token} {cmd : Cmd (List Char)} (hexec : Derives .exec ts cmd) :
      Derives .pipe ts cmd
  | pipe {ts us : List Token} {cmd right : Cmd (List Char)} (hexec : Derives .exec ts cmd)
      (hpipe : Derives .pipe us right) :
      Derives .pipe (ts ++ .bar :: us) (.pipe cmd right)
  | block {ts : List Token} {cmd : Cmd (List Char)} (hline : Derives .line ts cmd)
      (redirs : List (Redir (List Char))) :
      Derives .exec (.lparen :: ts ++ .rparen :: redirs.flatMap Redir.tokens)
        (redirs.foldl Redir.around cmd)
  | items (items : List Item) (hwords : (items.filterMap Item.word?).length ≤ maxargs - 1) :
      Derives .exec (items.flatMap Item.tokens)
        ((items.filterMap Item.redir?).foldl Redir.around
          (.exec (items.filterMap Item.word?)))

def Cmd.map {V W : Type} (f : V → W) : Cmd V → Cmd W
  | .exec argv => .exec (argv.map f)
  | .redir cmd file mode fd => .redir (cmd.map f) (f file) mode fd
  | .pipe left right => .pipe (left.map f) (right.map f)
  | .list left right => .list (left.map f) (right.map f)
  | .back cmd => .back (cmd.map f)

def Cmd.words {W : Type} : Cmd W → List W
  | .exec argv => argv
  | .redir cmd file _ _ => cmd.words ++ [file]
  | .pipe left right => left.words ++ right.words
  | .list left right => left.words ++ right.words
  | .back cmd => cmd.words

section Trees

variable {V W : Type} (f : V → W)

theorem Cmd.map_addArg (cmd : Cmd V) (v : V) : (cmd.addArg v).map f = (cmd.map f).addArg (f v) := by
  induction cmd with
  | exec argv => simp [addArg, map]
  | redir cmd file mode fd ih => simp only [addArg, map, ih]
  | pipe | list | back => rfl

theorem Cmd.map_around (cmd : Cmd V) (r : Redir V) :
    (around cmd r).map f = around (cmd.map f) ⟨r.op, f r.file⟩ := by
  obtain ⟨op, file⟩ := r
  cases op <;> rfl

theorem Redir.addArg_around (cmd : Cmd W) (r : Redir W) (w : W) :
    (around cmd r).addArg w = around (cmd.addArg w) r := by
  obtain ⟨op, file⟩ := r
  cases op <;> rfl

theorem Redir.words_around (cmd : Cmd W) (r : Redir W) :
    (around cmd r).words = cmd.words ++ [r.file] := by
  obtain ⟨op, file⟩ := r
  cases op <;> rfl

theorem Cmd.mem_words_addArg {cmd : Cmd W} {w x : W} (hx : x ∈ (cmd.addArg w).words) :
    x ∈ cmd.words ∨ x = w := by
  induction cmd with
  | exec argv => simpa [addArg, words] using hx
  | redir cmd file mode fd ih =>
    simp only [addArg, words, mem_append] at hx ⊢
    rcases hx with hx | hx
    · rcases ih hx with hx | hx
      · exact Or.inl (Or.inl hx)
      · exact Or.inr hx
    · exact Or.inl (Or.inr hx)
  | pipe | list | back => exact Or.inl hx

def Item.onto (cmd : Cmd (List Char)) : Item → Cmd (List Char)
  | .redir r => r.around cmd
  | .word text => cmd.addArg text

theorem foldl_onto (items : List Item) (argv : List (List Char))
    (redirs : List (Redir (List Char))) :
    items.foldl onto (redirs.foldl around (.exec argv)) =
      (redirs ++ items.filterMap redir?).foldl around
        (.exec (argv ++ items.filterMap word?)) := by
  have hbelow : ∀ (redirs : List (Redir (List Char))) (cmd : Cmd (List Char)) text,
      (redirs.foldl around cmd).addArg text =
        redirs.foldl around (cmd.addArg text) := by
    intro redirs
    induction redirs with
    | nil => exact fun _ _ => rfl
    | cons r redirs ih =>
      intro cmd text
      rw [foldl_cons, ih, addArg_around, foldl_cons]
  induction items generalizing argv redirs with
  | nil => simp
  | cons item items ih =>
    cases item with
    | redir r =>
      have hr := ih argv (redirs ++ [r])
      rw [foldl_append] at hr
      simpa [onto, redir?, word?, filterMap_cons] using hr
    | word text =>
      have hw := ih (argv ++ [text]) redirs
      rw [foldl_cons, onto, hbelow, addArg, hw]
      simp [redir?, word?, filterMap_cons]

theorem flatMap_redirs (rs : List (Redir (List Char))) :
    (rs.map Item.redir).flatMap Item.tokens = rs.flatMap Redir.tokens :=
  flatMap_map ..

theorem filterMap_redirs (rs : List (Redir (List Char))) :
    (rs.map Item.redir).filterMap word? = [] := by
  rw [filterMap_map, filterMap_eq_nil_iff]
  exact fun _ _ => rfl

theorem foldl_redirs (rs : List (Redir (List Char))) (cmd : Cmd (List Char)) :
    (rs.map Item.redir).foldl onto cmd = rs.foldl around cmd :=
  foldl_map

end Trees

/-! ## The loops, one round at a time -/

theorem Str.Within.of_suffix {s line : List Char} {w : Str} (h : w.Within s)
    (hs : s <:+ line) : w.Within line :=
  ⟨h.suffix.trans hs, h.text, h.maximal⟩

def Token.isRedir (t : Token) : Bool := t.lead.any ['<', '>'].contains

variable {t : Token} {s : Ptr} {us : List Token}

theorem isRedir_iff : t.isRedir = true ↔ ∃ op : RedirOp, t = op.token := by
  constructor
  · intro h
    cases t with
    | less => exact ⟨.less, rfl⟩
    | greater => exact ⟨.greater, rfl⟩
    | append => exact ⟨.append, rfl⟩
    | bar | lparen | rparen | semi | amp | word => simp [Token.isRedir, Token.lead, Token.code] at h
  · rintro ⟨op, rfl⟩
    cases op <;> rfl

theorem redirected_eq {W : Type} (op : RedirOp) (cmd : Cmd W) (file : W) :
    redirected op.token.code cmd file = around cmd ⟨op, file⟩ := by
  cases op <;> rfl

theorem code_eq_a : t.code = 'a' ↔ ∃ text, t = .word text := by
  cases t with
  | word text => exact iff_of_true rfl ⟨text, rfl⟩
  | bar | lparen | rparen | semi | amp | less | greater | append => simp [Token.code]

theorem code_ne_nul (t : Token) : t.code ≠ nul := by
  cases t with
  | word text =>
    change 'a' ≠ nul
    decide
  | bar | lparen | rparen | semi | amp | less | greater | append => decide

theorem gettoken_word {text : List Char} (h : tokens s = .word text :: us) :
    (gettoken s).ret = 'a' ∧ tokens (gettoken s).ps = us ∧ (gettoken s).ps <:+ s ∧
      (gettoken s).str.text = text ∧ (gettoken s).str.Within s := by
  obtain ⟨hcode, hps, hsuffix, hword⟩ := gettoken_cons h
  exact ⟨hcode, hps, hsuffix, hword text rfl⟩

theorem gettoken_skipWhite (h : tokens s = t :: us) :
    tokens (gettoken (skipWhite s)).ps = us ∧ (gettoken (skipWhite s)).ps <:+ s := by
  rw [← tokens_skipWhite] at h
  obtain ⟨_, hrest, hsuffix, _⟩ := gettoken_cons h
  exact ⟨hrest, hsuffix.trans (skipWhite_suffix s)⟩

theorem gettoken_ne_a (h : ∀ text us, tokens s ≠ .word text :: us) : (gettoken s).ret ≠ 'a' := by
  cases hs : tokens s with
  | nil =>
    rw [(gettoken_nil hs).1]
    decide
  | cons t us =>
    rw [(gettoken_cons hs).1, Ne, code_eq_a]
    rintro ⟨text, rfl⟩
    exact h text us hs

theorem peek_cons {toks : List Char} (htoks : toks ⊆ symbols) (h : tokens s = t :: us) :
    peek s toks = (t.lead.any toks.contains, skipWhite s) := by
  rw [peek_eq htoks, h]
  rfl

theorem peek_nil {toks : List Char} (htoks : toks ⊆ symbols)
    (h : tokens s = []) : peek s toks = (false, skipWhite s) := by
  rw [peek_eq htoks, h]
  rfl

theorem peek_token (ht : t ∈ [.bar, .lparen, .rparen, .semi, .amp]) (s : Ptr) :
    peek s [t.code] = (decide ((tokens s).head? = some t), skipWhite s) := by
  have hsymbols : [t.code] ⊆ symbols := by
    simp only [mem_cons, not_mem_nil, or_false] at ht
    rcases ht with rfl | rfl | rfl | rfl | rfl <;> decide
  cases hs : tokens s with
  | nil => rw [peek_nil hsymbols hs]; rfl
  | cons u us =>
    rw [peek_cons hsymbols hs]
    refine Prod.ext ?_ rfl
    simp only [mem_cons, not_mem_nil, or_false] at ht
    rcases ht with rfl | rfl | rfl | rfl | rfl <;> cases u <;> rfl

section Rounds

variable (fuel argc : ℕ) (cmd : Cmd Str) {ps : Ptr} {us : List Token}

theorem parseredirs_stop
    (hstop : ¬ ∃ (op : RedirOp) (us : List Token), tokens ps = op.token :: us) :
    parseredirs (fuel + 1) cmd ps = .ok (cmd, skipWhite ps) := by
  have hpeek : peek ps ['<', '>'] = (false, skipWhite ps) := by
    cases hps : tokens ps with
    | nil => exact peek_nil (by decide) hps
    | cons t us =>
      rw [peek_cons (by decide) hps]
      refine Prod.ext (eq_false_of_ne_true ?_) rfl
      intro hredir
      obtain ⟨op, rfl⟩ := isRedir_iff.mp hredir
      exact hstop ⟨op, us, hps⟩
  simp only [parseredirs, hpeek]
  rfl

theorem parseredirs_redir {op : RedirOp} {text : List Char}
    (hps : tokens ps = op.token :: .word text :: us) :
    ∃ file ps', parseredirs (fuel + 1) cmd ps =
        parseredirs fuel (around cmd ⟨op, file⟩) ps' ∧
      file.text = text ∧ file.Within ps ∧ ps' <:+ ps ∧ tokens ps' = us := by
  have hpeek : peek ps ['<', '>'] = (true, skipWhite ps) := by
    rw [peek_cons (by decide) hps]
    exact Prod.ext (isRedir_iff.mpr ⟨op, rfl⟩) rfl
  rw [← tokens_skipWhite] at hps
  obtain ⟨hcode, hfirst, hsuffix, _⟩ := gettoken_cons hps
  obtain ⟨hword, hsecond, hsuffix', htext, hwithin⟩ := gettoken_word hfirst
  have hsuffix := hsuffix.trans (skipWhite_suffix ps)
  refine ⟨_, _, ?_, htext, hwithin.of_suffix hsuffix, hsuffix'.trans hsuffix, hsecond⟩
  simp only [parseredirs, hpeek, if_true, hcode, redirected_eq, ensure, hword]
  rfl

theorem parseredirs_missing {op : RedirOp} (hps : tokens ps = op.token :: us)
    (hword : ∀ text vs, us ≠ .word text :: vs) :
    parseredirs (fuel + 1) cmd ps = panic "missing file for redirection" := by
  have hpeek : peek ps ['<', '>'] = (true, skipWhite ps) := by
    rw [peek_cons (by decide) hps]
    exact Prod.ext (isRedir_iff.mpr ⟨op, rfl⟩) rfl
  rw [← tokens_skipWhite] at hps
  obtain ⟨_, hfirst, _, _⟩ := gettoken_cons hps
  have hret := gettoken_ne_a (s := (gettoken (skipWhite ps)).ps) (by rwa [hfirst])
  simp only [parseredirs, hpeek, if_true, ensure, hret, if_false]
  rfl

def Token.endsArgs (t : Token) : Bool := t.lead.any ['|', ')', '&', ';'].contains

theorem parseargs_stop (hstop : ∀ t us, tokens ps = t :: us → t.endsArgs = true) :
    ∃ ps', parseargs (fuel + 1) argc cmd ps = .ok (cmd, ps') ∧ ps' <:+ ps ∧
      tokens ps' = tokens ps := by
  cases hps : tokens ps with
  | nil =>
    have hpeek : peek ps ['|', ')', '&', ';'] = _ := peek_nil (by decide) hps
    rw [← tokens_skipWhite] at hps
    obtain ⟨hret, hend⟩ := gettoken_nil hps
    refine ⟨[], ?_, nil_suffix, by rw [tokens]⟩
    simp only [parseargs, hpeek, hret, hend, if_true]
    rfl
  | cons t us =>
    have hpeek : peek ps ['|', ')', '&', ';'] = (true, skipWhite ps) := by
      rw [peek_cons (by decide) hps]
      exact Prod.ext (hstop t us hps) rfl
    refine ⟨skipWhite ps, ?_, skipWhite_suffix ps, by rw [tokens_skipWhite, hps]⟩
    simp only [parseargs, hpeek]
    rfl

theorem parseargs_word {text : List Char} (hps : tokens ps = .word text :: us) :
    ∃ w ps', parseargs (fuel + 1) argc cmd ps = (do
        ensure (argc + 1 < maxargs) "too many args"
        let r ← parseredirs (ps'.length + 1) (cmd.addArg w) ps'
        parseargs fuel (argc + 1) r.1 r.2) ∧
      w.text = text ∧ w.Within ps ∧ ps' <:+ ps ∧ tokens ps' = us := by
  have hpeek : peek ps ['|', ')', '&', ';'] = _ := peek_cons (by decide) hps
  rw [← tokens_skipWhite] at hps
  obtain ⟨hret, hrest, hsuffix, htext, hwithin⟩ := gettoken_word hps
  refine ⟨_, _, ?_, htext, hwithin.of_suffix (skipWhite_suffix ps),
    hsuffix.trans (skipWhite_suffix ps), hrest⟩
  simp only [parseargs, hpeek, hret]
  rfl

theorem parseargs_other {t : Token} (hps : tokens ps = t :: us) (hstop : t.endsArgs = false)
    (hword : ∀ text, t ≠ .word text) : parseargs (fuel + 1) argc cmd ps = panic "syntax" := by
  have hpeek : peek ps ['|', ')', '&', ';'] = (false, skipWhite ps) := by
    rw [peek_cons (by decide) hps]
    exact Prod.ext hstop rfl
  rw [← tokens_skipWhite] at hps
  have hret := (gettoken_cons hps).1
  have hnul : (gettoken (skipWhite ps)).ret ≠ nul := by
    rw [hret]
    exact code_ne_nul t
  have ha : (gettoken (skipWhite ps)).ret ≠ 'a' := by
    rw [hret, Ne, code_eq_a]
    rintro ⟨text, htext⟩
    exact hword text htext
  simp only [parseargs, hpeek, hnul, ensure, ha, if_false]
  rfl

theorem parsebacks_stop (hstop : (tokens ps).head? ≠ some .amp) :
    parsebacks (fuel + 1) cmd ps = .ok (cmd, skipWhite ps) := by
  have hpeek : peek ps ['&'] = _ := peek_token (t := .amp) (by decide) ps
  simp only [parsebacks, hpeek, decide_eq_false hstop]
  rfl

theorem parsebacks_amp (hps : tokens ps = .amp :: us) :
    ∃ ps', parsebacks (fuel + 1) cmd ps = parsebacks fuel (.back cmd) ps' ∧ ps' <:+ ps ∧
      tokens ps' = us := by
  have hpeek : peek ps ['&'] = _ := peek_cons (by decide) hps
  obtain ⟨hrest, hsuffix⟩ := gettoken_skipWhite hps
  refine ⟨_, ?_, hsuffix, hrest⟩
  simp only [parsebacks, hpeek]
  rfl

end Rounds

/-! ## What the parser returns is derived -/

section Soundness

def Meets {α : Type} (P : α → Prop) : Outcome α → Prop
  | .ok a => P a
  | .error .blocked => False
  | .error (.panic _) => True

theorem Meets.bind {α β : Type} {P : α → Prop} {Q : β → Prop} {x : Outcome α} {f : α → Outcome β}
    (hx : Meets P x) (hf : ∀ a, P a → Meets Q (f a)) : Meets Q (x >>= f) := by
  match x, hx with
  | .ok a, hx => exact hf a hx
  | .error (.panic _), _ => trivial

theorem Meets.mono {α : Type} {P Q : α → Prop} {x : Outcome α} (hx : Meets P x)
    (himp : ∀ a, P a → Q a) : Meets Q x := by
  match x, hx with
  | .ok a, hx => exact himp a hx
  | .error (.panic _), _ => trivial

theorem Meets.ensure {condition : Prop} [Decidable condition] {msg : String} :
    Meets (fun _ => condition) (ensure condition msg) := by
  by_cases hcondition : condition
  · rw [TraceExecution.ensure, if_pos hcondition]
    exact hcondition
  · rw [TraceExecution.ensure, if_neg hcondition]
    trivial

structure InLine (line : List Char) (r : Cmd Str × Ptr) : Prop where
  rest : r.2 <:+ line
  words : ∀ w ∈ r.1.words, w.Within line

variable {line : List Char} {fuel argc : ℕ} {cmd : Cmd Str} {ps : Ptr}

theorem InLine.skip (h : InLine line (cmd, ps)) : InLine line (cmd, skipWhite ps) :=
  ⟨(skipWhite_suffix ps).trans h.rest, h.words⟩

section

variable (hfuel : (tokens ps).length < fuel) (h : InLine line (cmd, ps))

include hfuel h

theorem parseredirs_meets :
    Meets (fun r => InLine line r ∧ ∃ rs : List (Redir (List Char)),
      tokens ps = rs.flatMap Redir.tokens ++ tokens r.2 ∧
        r.1.map Str.text = rs.foldl around (cmd.map Str.text))
      (parseredirs fuel cmd ps) := by
  induction fuel generalizing cmd ps with
  | zero => exact absurd hfuel (Nat.not_lt_zero _)
  | succ fuel ih =>
    by_cases hredir : ∃ (op : RedirOp) (us : List Token), tokens ps = op.token :: us
    · obtain ⟨op, us, hps⟩ := hredir
      by_cases hword : ∃ text vs, us = .word text :: vs
      · obtain ⟨text, vs, rfl⟩ := hword
        obtain ⟨file, ps', hround, htext, hwithin, hsuffix, hps'⟩ := parseredirs_redir fuel cmd hps
        have hinline : InLine line (around cmd ⟨op, file⟩, ps') := by
          refine ⟨hsuffix.trans h.rest, ?_⟩
          intro w hw
          rw [words_around, mem_append, mem_singleton] at hw
          rcases hw with hw | rfl
          · exact h.words w hw
          · exact hwithin.of_suffix h.rest
        have hlength : (tokens ps').length < fuel := by
          rw [hps] at hfuel
          rw [hps']
          simp only [length_cons] at hfuel
          omega
        rw [hround]
        refine (ih hlength hinline).mono ?_
        rintro r ⟨hr, rs, hrs, htree⟩
        refine ⟨hr, ⟨op, text⟩ :: rs, ?_, ?_⟩
        · rw [hps, ← hps', hrs]
          rfl
        · rw [htree, map_around, foldl_cons, htext]
      · rw [parseredirs_missing fuel cmd hps (by simpa using hword)]
        trivial
    · rw [parseredirs_stop fuel cmd hredir]
      exact ⟨h.skip, [], by simp [tokens_skipWhite], rfl⟩

theorem parseargs_meets (hargc : argc < maxargs) :
    Meets (fun r => InLine line r ∧ ∃ items : List Item,
      tokens ps = items.flatMap Item.tokens ++ tokens r.2 ∧
        argc + (items.filterMap word?).length < maxargs ∧
        r.1.map Str.text = items.foldl onto (cmd.map Str.text))
      (parseargs fuel argc cmd ps) := by
  induction fuel generalizing argc cmd ps with
  | zero => exact absurd hfuel (Nat.not_lt_zero _)
  | succ fuel ih =>
    by_cases hstop : ∀ t us, tokens ps = t :: us → t.endsArgs = true
    · obtain ⟨ps', hround, hsuffix, hps'⟩ := parseargs_stop fuel argc cmd hstop
      rw [hround]
      exact ⟨⟨hsuffix.trans h.rest, h.words⟩, [], by simp [hps'], by simpa using hargc, rfl⟩
    · simp only [not_forall] at hstop
      obtain ⟨t, us, hps, hends⟩ := hstop
      by_cases hword : ∃ text, t = .word text
      · obtain ⟨text, rfl⟩ := hword
        obtain ⟨w, ps', hround, htext, hwithin, hsuffix, hps'⟩ := parseargs_word fuel argc cmd hps
        have hinline : InLine line (cmd.addArg w, ps') := by
          refine ⟨hsuffix.trans h.rest, ?_⟩
          intro x hx
          rcases mem_words_addArg hx with hx | rfl
          · exact h.words x hx
          · exact hwithin.of_suffix h.rest
        rw [hround]
        refine Meets.ensure.bind ?_
        intro _ hmore
        refine (parseredirs_meets (Nat.lt_succ_of_le (tokens_length_le ps')) hinline).bind ?_
        rintro r ⟨hr, rs, hrs, htree⟩
        have hlength : (tokens r.2).length < fuel := by
          have happend := congrArg length hrs
          rw [length_append, hps'] at happend
          rw [hps, length_cons] at hfuel
          omega
        refine (ih hlength hr hmore).mono ?_
        rintro r' ⟨hr', items, hitems, hcount, htree'⟩
        refine ⟨hr', .word text :: (rs.map .redir ++ items), ?_, ?_, ?_⟩
        · rw [hps, ← hps', hrs, hitems, flatMap_cons, flatMap_append,
            flatMap_redirs, append_assoc, append_assoc]
          rfl
        · have hwords : ((word text :: (rs.map Item.redir ++ items)).filterMap
              word?).length = 1 + (items.filterMap word?).length := by
            rw [filterMap_cons_some (f := word?) (a := .word text) rfl, filterMap_append,
              filterMap_redirs, nil_append, length_cons]
            omega
          omega
        · rw [htree', htree, map_addArg, htext, foldl_cons, foldl_append, foldl_redirs]
          rfl
      · rw [parseargs_other fuel argc cmd hps (by simpa using hends) (by simpa using hword)]
        trivial

theorem parsebacks_meets :
    Meets (fun r => InLine line r ∧ ∃ n, tokens ps = replicate n .amp ++ tokens r.2 ∧
      r.1.map Str.text = back^[n] (cmd.map Str.text))
      (parsebacks fuel cmd ps) := by
  induction fuel generalizing cmd ps with
  | zero => exact absurd hfuel (Nat.not_lt_zero _)
  | succ fuel ih =>
    by_cases hamp : ∃ us, tokens ps = .amp :: us
    · obtain ⟨us, hps⟩ := hamp
      obtain ⟨ps', hround, hsuffix, hps'⟩ := parsebacks_amp fuel cmd hps
      have hlength : (tokens ps').length < fuel := by
        rw [hps, length_cons] at hfuel
        rw [hps']
        omega
      rw [hround]
      have hin : InLine line (.back cmd, ps') := ⟨hsuffix.trans h.rest, h.words⟩
      refine (ih hlength hin).mono ?_
      rintro r ⟨hr, n, hn, htree⟩
      refine ⟨hr, n + 1, ?_, htree⟩
      rw [hps, ← hps', hn]
      rfl
    · have hstop : (tokens ps).head? ≠ some .amp := by
        intro hhead
        exact hamp (head?_eq_some_iff.mp hhead)
      rw [parsebacks_stop fuel cmd hstop]
      exact ⟨h.skip, 0, by simp [tokens_skipWhite], rfl⟩

end

def Nonterminal.parser : Nonterminal → ℕ → Ptr → Outcome (Cmd Str × Ptr)
  | .line => parseline
  | .pipe => parsepipe
  | .exec => parseexec

def Nonterminal.need (n : ℕ) : Nonterminal → ℕ
  | .line => 4 * n + 4
  | .pipe => 4 * n + 3
  | .exec => 4 * n + 2

/-- The parser has read a part of the line that the grammar derives. -/
structure Parsed (line : List Char) (ps : Ptr) (N : Nonterminal) (r : Cmd Str × Ptr) :
    Prop where
  inLine : InLine line r
  derives : ∃ ts, tokens ps = ts ++ tokens r.2 ∧ Derives N ts (r.1.map Str.text)

section Step

variable (ih : ∀ (N : Nonterminal) (ps : Ptr), N.need (tokens ps).length ≤ fuel →
  ps <:+ line → Meets (Parsed line ps N) (N.parser fuel ps))

include ih

theorem parsepipe_meets (hneed : 4 * (tokens ps).length + 3 ≤ fuel + 1) (hps : ps <:+ line) :
    Meets (Parsed line ps .pipe) (parsepipe (fuel + 1) ps) := by
  unfold parsepipe
  refine (ih .exec ps (Nat.le_of_succ_le_succ hneed) hps).bind ?_
  rintro ⟨cmd, ps₁⟩ hexec
  obtain ⟨ts, hts, hderives⟩ := hexec.derives
  have hpeek : peek ps₁ ['|'] = _ := peek_token (t := .bar) (by decide) ps₁
  simp only at hts
  simp only [hpeek]
  by_cases hbar : (tokens ps₁).head? = some .bar
  · obtain ⟨us, hus⟩ := head?_eq_some_iff.mp hbar
    obtain ⟨hrest, hsuffix⟩ := gettoken_skipWhite hus
    have hneed' : 4 * (tokens (gettoken (skipWhite ps₁)).ps).length + 3 ≤ fuel := by
      rw [hts, hus, length_append, length_cons] at hneed
      rw [hrest]
      omega
    rw [decide_eq_true hbar, if_pos rfl]
    refine (ih .pipe _ hneed' (hsuffix.trans hexec.inLine.rest)).bind ?_
    rintro ⟨right, ps₂⟩ hpipe
    obtain ⟨vs, hvs, hderives'⟩ := hpipe.derives
    refine ⟨⟨hpipe.inLine.rest, ?_⟩, ts ++ .bar :: vs, ?_, .pipe hderives hderives'⟩
    · intro w hw
      rcases mem_append.mp hw with hw | hw
      · exact hexec.inLine.words w hw
      · exact hpipe.inLine.words w hw
    · rw [hts, hus, ← hrest, hvs, append_assoc]
      rfl
  · rw [decide_eq_false hbar, if_neg Bool.false_ne_true]
    exact ⟨hexec.inLine.skip, ts, by rw [hts, tokens_skipWhite], .exec hderives⟩

theorem parseline_meets (hneed : 4 * (tokens ps).length + 4 ≤ fuel + 1) (hps : ps <:+ line) :
    Meets (Parsed line ps .line) (parseline (fuel + 1) ps) := by
  unfold parseline
  refine (ih .pipe ps (Nat.le_of_succ_le_succ hneed) hps).bind ?_
  rintro ⟨cmd, ps₁⟩ hpipe
  obtain ⟨ts, hts, hderives⟩ := hpipe.derives
  refine (parsebacks_meets (Nat.lt_succ_of_le (tokens_length_le ps₁)) hpipe.inLine).bind ?_
  rintro ⟨cmd', ps₂⟩ ⟨hbacks, n, hn, htree⟩
  have hpeek : peek ps₂ [';'] = _ := peek_token (t := .semi) (by decide) ps₂
  simp only at hts hn htree
  simp only [hpeek]
  by_cases hsemi : (tokens ps₂).head? = some .semi
  · obtain ⟨us, hus⟩ := head?_eq_some_iff.mp hsemi
    obtain ⟨hrest, hsuffix⟩ := gettoken_skipWhite hus
    have hneed' : 4 * (tokens (gettoken (skipWhite ps₂)).ps).length + 4 ≤ fuel := by
      rw [hts, hn, hus, length_append, length_append, length_cons] at hneed
      rw [hrest]
      omega
    rw [decide_eq_true hsemi, if_pos rfl]
    refine (ih .line _ hneed' (hsuffix.trans hbacks.rest)).bind ?_
    rintro ⟨right, ps₃⟩ hline
    obtain ⟨vs, hvs, hderives'⟩ := hline.derives
    refine ⟨⟨hline.inLine.rest, ?_⟩, ts ++ replicate n .amp ++ .semi :: vs, ?_, ?_⟩
    · intro w hw
      rcases mem_append.mp hw with hw | hw
      · exact hbacks.words w hw
      · exact hline.inLine.words w hw
    · rw [hts, hn, hus, ← hrest, hvs]
      simp
    · change Derives .line _ (.list (cmd'.map Str.text) (right.map Str.text))
      rw [htree]
      exact .list n hderives hderives'
  · rw [decide_eq_false hsemi, if_neg Bool.false_ne_true]
    refine ⟨hbacks.skip, ts ++ replicate n .amp, ?_, ?_⟩
    · rw [hts, hn, tokens_skipWhite, append_assoc]
    · simp only [htree]
      exact .line n hderives

theorem parseblock_meets {us : List Token} (hneed : 4 * (tokens ps).length + 1 ≤ fuel + 1)
    (hps : ps <:+ line) (hparen : tokens ps = .lparen :: us) :
    Meets (Parsed line ps .exec) (parseblock (fuel + 1) ps) := by
  have hpeek : peek ps ['('] = _ := peek_token (t := .lparen) (by decide) ps
  obtain ⟨hrest, hsuffix⟩ := gettoken_skipWhite hparen
  have hneed' : 4 * (tokens (gettoken (skipWhite ps)).ps).length + 4 ≤ fuel := by
    rw [hparen, length_cons] at hneed
    rw [hrest]
    omega
  unfold parseblock
  simp only [hpeek]
  refine Meets.ensure.bind ?_
  intro _ _
  refine (ih .line _ hneed' (hsuffix.trans hps)).bind ?_
  rintro ⟨cmd, ps₁⟩ hline
  obtain ⟨ts, hts, hderives⟩ := hline.derives
  have hpeek' : peek ps₁ [')'] = _ := peek_token (t := .rparen) (by decide) ps₁
  simp only at hts
  simp only [hpeek']
  refine Meets.ensure.bind ?_
  intro _ hclose
  obtain ⟨vs, hvs⟩ := head?_eq_some_iff.mp (of_decide_eq_true hclose)
  obtain ⟨hrest', hsuffix'⟩ := gettoken_skipWhite hvs
  have hin : InLine line (cmd, (gettoken (skipWhite ps₁)).ps) :=
    ⟨hsuffix'.trans hline.inLine.rest, hline.inLine.words⟩
  refine (parseredirs_meets (Nat.lt_succ_of_le (tokens_length_le _)) hin).mono ?_
  rintro r ⟨hr, rs, hrs, htree⟩
  refine ⟨hr, .lparen :: ts ++ .rparen :: rs.flatMap Redir.tokens, ?_, ?_⟩
  · rw [hparen, ← hrest, hts, hvs, ← hrest', hrs]
    simp
  · rw [htree]
    exact .block hderives rs

theorem parseexec_meets (hneed : 4 * (tokens ps).length + 2 ≤ fuel + 2) (hps : ps <:+ line) :
    Meets (Parsed line ps .exec) (parseexec (fuel + 2) ps) := by
  have hpeek : peek ps ['('] = _ := peek_token (t := .lparen) (by decide) ps
  unfold parseexec
  simp only [hpeek]
  by_cases hparen : (tokens ps).head? = some .lparen
  · obtain ⟨us, hus⟩ := head?_eq_some_iff.mp hparen
    rw [decide_eq_true hparen, if_pos rfl]
    rw [← tokens_skipWhite] at hneed hus
    have hblock := parseblock_meets ih (Nat.le_of_succ_le_succ hneed)
      ((skipWhite_suffix ps).trans hps) hus
    refine hblock.mono ?_
    intro r hr
    obtain ⟨ts, hts, hderives⟩ := hr.derives
    exact ⟨hr.inLine, ts, by rw [← hts, tokens_skipWhite], hderives⟩
  · have hin : InLine line (.exec [], skipWhite ps) :=
      ⟨(skipWhite_suffix ps).trans hps, by rintro w ⟨⟩⟩
    rw [decide_eq_false hparen, if_neg Bool.false_ne_true]
    refine (parseredirs_meets (Nat.lt_succ_of_le (tokens_length_le _)) hin).bind ?_
    rintro ⟨ret, ps₁⟩ ⟨hret, rs, hrs, htree⟩
    refine (parseargs_meets (Nat.lt_succ_of_le (tokens_length_le _)) hret (by decide)).mono ?_
    rintro r ⟨hr, items, hitems, hcount, htree'⟩
    simp only at hrs hitems htree htree'
    refine ⟨hr, (rs.map Item.redir ++ items).flatMap Item.tokens, ?_, ?_⟩
    · rw [← tokens_skipWhite, hrs, hitems, flatMap_append, flatMap_redirs, append_assoc]
    · have hfold := foldl_onto (rs.map Item.redir ++ items) [] []
      rw [foldl_append, foldl_redirs, nil_append, nil_append] at hfold
      rw [htree', htree]
      change Derives .exec _ (items.foldl onto (rs.foldl around (.exec [])))
      rw [foldl_nil] at hfold
      rw [hfold]
      refine .items _ ?_
      rw [filterMap_append, filterMap_redirs, nil_append]
      omega

end Step

theorem parse_meets (N : Nonterminal) (hneed : N.need (tokens ps).length ≤ fuel)
    (hps : ps <:+ line) : Meets (Parsed line ps N) (N.parser fuel ps) := by
  induction fuel using Nat.strong_induction_on generalizing N ps with
  | h fuel ih =>
    cases N with
    | line =>
      obtain ⟨fuel, rfl⟩ := Nat.exists_eq_add_of_le' (show 1 ≤ fuel by
        simp only [Nonterminal.need] at hneed
        omega)
      exact parseline_meets (fun N _ => ih fuel (by omega) N) hneed hps
    | pipe =>
      obtain ⟨fuel, rfl⟩ := Nat.exists_eq_add_of_le' (show 1 ≤ fuel by
        simp only [Nonterminal.need] at hneed
        omega)
      exact parsepipe_meets (fun N _ => ih fuel (by omega) N) hneed hps
    | exec =>
      obtain ⟨fuel, rfl⟩ := Nat.exists_eq_add_of_le' (show 2 ≤ fuel by
        simp only [Nonterminal.need] at hneed
        omega)
      exact parseexec_meets (fun N _ => ih fuel (by omega) N) hneed hps

end Soundness

end Xv6Kernel.Shell
