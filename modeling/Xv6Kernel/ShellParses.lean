import Xv6Kernel.ShellGrammar
import Mathlib.Data.List.TakeWhile

/-!
# The parser of the shell accepts its grammar

Where a derivation ends and a token follows that cannot continue it, the parser ends
as well, with the tree of the derivation.  After `nulterminate` the words of the tree
are strings in memory.
-/

namespace Xv6Kernel.Shell

open TraceExecution Cmd List Nonterminal

section Loops

variable {fuel argc : ℕ} (cmd : Cmd Str) {ps : Ptr} {us : List Token}

theorem parseredirs_complete {rs : List (Redir (List Char))}
    (hps : tokens ps = rs.flatMap Redir.tokens ++ us)
    (hus : ¬ ∃ (op : RedirOp) (vs : List Token), us = op.token :: vs)
    (hfuel : (tokens ps).length < fuel) :
    ∃ r, parseredirs fuel cmd ps = .ok r ∧
      r.1.map Str.text = rs.foldl Redir.around (cmd.map Str.text) ∧ tokens r.2 = us := by
  induction rs generalizing fuel cmd ps with
  | nil =>
    obtain ⟨fuel, rfl⟩ := Nat.exists_eq_add_of_lt (Nat.zero_lt_of_lt hfuel)
    rw [flatMap_nil, nil_append] at hps
    rw [← hps] at hus
    refine ⟨_, parseredirs_stop _ cmd hus, rfl, ?_⟩
    rw [tokens_skipWhite, hps]
  | cons r rs ih =>
    obtain ⟨op, text⟩ := r
    obtain ⟨fuel, rfl⟩ := Nat.exists_eq_add_of_le' (Nat.zero_lt_of_lt hfuel)
    have hfirst : tokens ps = op.token :: .word text :: (rs.flatMap Redir.tokens ++ us) := hps
    obtain ⟨file, ps', hround, htext, _, _, hps'⟩ := parseredirs_redir fuel cmd hfirst
    have hlength : (tokens ps').length < fuel := by
      rw [hfirst, length_cons, length_cons] at hfuel
      rw [hps']
      omega
    obtain ⟨r, hr, htree, hrest⟩ := ih (Redir.around cmd ⟨op, file⟩) hps' hlength
    refine ⟨r, hround.trans hr, ?_, hrest⟩
    rw [htree, map_around, htext]
    rfl

theorem parsebacks_complete {n : ℕ} (hps : tokens ps = replicate n .amp ++ us)
    (hus : us.head? ≠ some .amp) (hfuel : (tokens ps).length < fuel) :
    ∃ r, parsebacks fuel cmd ps = .ok r ∧
      r.1.map Str.text = back^[n] (cmd.map Str.text) ∧ tokens r.2 = us := by
  induction n generalizing fuel cmd ps with
  | zero =>
    obtain ⟨fuel, rfl⟩ := Nat.exists_eq_add_of_le' (Nat.zero_lt_of_lt hfuel)
    rw [replicate_zero, nil_append] at hps
    rw [← hps] at hus
    refine ⟨_, parsebacks_stop _ cmd hus, rfl, ?_⟩
    rw [tokens_skipWhite, hps]
  | succ n ih =>
    obtain ⟨fuel, rfl⟩ := Nat.exists_eq_add_of_le' (Nat.zero_lt_of_lt hfuel)
    have hfirst : tokens ps = .amp :: (replicate n .amp ++ us) := hps
    obtain ⟨ps', hround, _, hps'⟩ := parsebacks_amp fuel cmd hfirst
    have hlength : (tokens ps').length < fuel := by
      rw [hfirst, length_cons] at hfuel
      rw [hps']
      omega
    obtain ⟨r, hr, htree, hrest⟩ := ih (.back cmd) hps' hlength
    exact ⟨r, hround.trans hr, htree, hrest⟩

theorem split_redirs (items : List Item) :
    ∃ (rs : List (Redir (List Char))) (rest : List Item),
      items = rs.map Item.redir ++ rest ∧
      (rest = [] ∨ ∃ text tail, rest = .word text :: tail) := by
  induction items with
  | nil => exact ⟨[], [], rfl, Or.inl rfl⟩
  | cons item items ih =>
    cases item with
    | word text => exact ⟨[], .word text :: items, rfl, Or.inr ⟨text, items, rfl⟩⟩
    | redir r =>
      obtain ⟨rs, rest, rfl, hrest⟩ := ih
      exact ⟨r :: rs, rest, rfl, hrest⟩

theorem not_redir_behind {items : List Item}
    (hitems : items = [] ∨ ∃ text tail, items = .word text :: tail)
    (hus : ∀ t vs, us = t :: vs → t.endsArgs = true) :
    ¬ ∃ (op : RedirOp) (vs : List Token),
      items.flatMap Item.tokens ++ us = op.token :: vs := by
  rintro ⟨op, vs, heq⟩
  rcases hitems with rfl | ⟨text, tail, rfl⟩
  · have hends := hus op.token vs heq
    cases op <;> exact absurd hends (by decide)
  · rw [flatMap_cons] at heq
    have htoken : Token.word text = op.token := (cons.inj heq).1
    cases op <;> cases htoken

theorem parseargs_complete {items : List Item}
    (hitems : items = [] ∨ ∃ text tail, items = .word text :: tail)
    (hps : tokens ps = items.flatMap Item.tokens ++ us)
    (hus : ∀ t vs, us = t :: vs → t.endsArgs = true)
    (hwords : argc + (items.filterMap Item.word?).length < maxargs)
    (hfuel : (tokens ps).length < fuel) :
    ∃ r, parseargs fuel argc cmd ps = .ok r ∧
      r.1.map Str.text = items.foldl Item.onto (cmd.map Str.text) ∧ tokens r.2 = us := by
  induction fuel generalizing argc cmd ps items with
  | zero => exact absurd hfuel (Nat.not_lt_zero _)
  | succ fuel ih =>
    rcases hitems with rfl | ⟨text, tail, rfl⟩
    · rw [flatMap_nil, nil_append] at hps
      rw [← hps] at hus
      obtain ⟨ps', hround, _, hps'⟩ := parseargs_stop fuel argc cmd hus
      exact ⟨_, hround, rfl, hps'.trans hps⟩
    · obtain ⟨rs, rest, rfl, hrest⟩ := split_redirs tail
      rw [flatMap_cons, flatMap_append, flatMap_redirs, append_assoc, append_assoc] at hps
      have hfirst : tokens ps = .word text ::
          (rs.flatMap Redir.tokens ++ (rest.flatMap Item.tokens ++ us)) := hps
      rw [filterMap_cons_some (f := Item.word?) (a := .word text) rfl,
        filterMap_append, filterMap_redirs, nil_append, length_cons] at hwords
      obtain ⟨w, ps₁, hround, htext, _, _, hps₁⟩ := parseargs_word fuel argc cmd hfirst
      obtain ⟨r, hr, htree, hrest₁⟩ := parseredirs_complete (cmd.addArg w) hps₁
        (not_redir_behind hrest hus) (Nat.lt_succ_of_le (tokens_length_le ps₁))
      have hlength : (tokens r.2).length < fuel := by
        rw [hfirst, length_cons, length_append] at hfuel
        rw [hrest₁]
        omega
      obtain ⟨r', hr', htree', hrest'⟩ :=
        ih r.1 hrest hrest₁ (show argc + 1 + _ < _ by omega) hlength
      refine ⟨r', ?_, ?_, hrest'⟩
      · rw [hround, ensure, if_pos (by omega), hr]
        exact hr'
      · rw [htree', htree, map_addArg, htext, foldl_cons, foldl_append, foldl_redirs]
        rfl

end Loops

/-! ## The recursive functions -/

def Nonterminal.follow : Nonterminal → List Token
  | .line => [.rparen]
  | .pipe => [.rparen, .amp, .semi]
  | .exec => [.rparen, .amp, .semi, .bar]

def Precedes (N : Nonterminal) (us : List Token) : Prop := ∀ t vs, us = t :: vs → t ∈ N.follow

variable {N : Nonterminal} {us : List Token} {t : Token} {s : Ptr}

theorem Precedes.head_ne (h : Precedes N us) (ht : t ∉ N.follow) : us.head? ≠ some t := by
  intro hhead
  obtain ⟨vs, hvs⟩ := head?_eq_some_iff.mp hhead
  exact ht (h t vs hvs)

theorem precedes_cons (ht : t ∈ N.follow) : Precedes N (t :: us) := by
  intro u vs heq
  exact (cons.inj heq).1 ▸ ht

theorem Precedes.exec_endsArgs (h : Precedes .exec us) :
    ∀ t vs, us = t :: vs → t.endsArgs = true := by
  intro t vs hus
  have ht := h t vs hus
  simp only [follow, mem_cons, not_mem_nil, or_false] at ht
  rcases ht with rfl | rfl | rfl | rfl <;> rfl

/-- A derivation that is followed by nothing that continues it. -/
def Complete (N : Nonterminal) (ts : List Token) (cmd : Cmd (List Char)) : Prop :=
  ∀ (fuel : ℕ) (ps : Ptr) (us : List Token), tokens ps = ts ++ us → Precedes N us →
    N.need (tokens ps).length ≤ fuel →
    ∃ r, N.parser fuel ps = .ok r ∧ r.1.map Str.text = cmd ∧ tokens r.2 = us

theorem peek_hit (ht : t ∈ [.bar, .lparen, .rparen, .semi, .amp]) (h : tokens s = t :: us) :
    peek s [t.code] = (true, skipWhite s) := by
  rw [peek_token ht, h]
  exact Prod.ext (decide_eq_true rfl) rfl

theorem peek_miss (ht : t ∈ [.bar, .lparen, .rparen, .semi, .amp])
    (h : (tokens s).head? ≠ some t) : peek s [t.code] = (false, skipWhite s) := by
  rw [peek_token ht, decide_eq_false h]

theorem ok_bind {α β : Type} (a : α) (f : α → Outcome β) :
    ((.ok a : Outcome α) >>= f) = f a := rfl

section Derivations

variable {ts us : List Token} {cmd right : Cmd (List Char)} {n : ℕ}

theorem Complete.exec (h : Complete .exec ts cmd) : Complete .pipe ts cmd := by
  intro fuel ps us hps hus hneed
  simp only [Nonterminal.need] at hneed
  obtain ⟨fuel, rfl⟩ := Nat.exists_eq_add_of_le' (show 1 ≤ fuel by omega)
  have hexec : Precedes .exec us := by
    intro t vs heq
    exact mem_append_left [.bar] (hus t vs heq)
  obtain ⟨⟨tree, ps₁⟩, hr, htree, hrest⟩ := h fuel ps us hps hexec (Nat.le_of_succ_le_succ hneed)
  simp only [parser] at hr hrest
  have hpeek : peek ps₁ ['|'] = _ := peek_miss (t := .bar) (by decide) (by
    rw [hrest]
    exact hus.head_ne (by decide))
  refine ⟨(tree, skipWhite ps₁), ?_, htree, by rw [tokens_skipWhite, hrest]⟩
  simp only [parser, parsepipe, hr, ok_bind, hpeek]
  rfl

theorem Complete.pipe (h : Complete .exec ts cmd) (h' : Complete .pipe us right) :
    Complete .pipe (ts ++ .bar :: us) (.pipe cmd right) := by
  intro fuel ps vs hps hvs hneed
  rw [append_assoc, cons_append] at hps
  simp only [Nonterminal.need] at hneed
  obtain ⟨fuel, rfl⟩ := Nat.exists_eq_add_of_le' (show 1 ≤ fuel by omega)
  obtain ⟨⟨tree, ps₁⟩, hr, rfl, hrest⟩ :=
    h fuel ps _ hps (precedes_cons (by decide)) (Nat.le_of_succ_le_succ hneed)
  simp only [parser] at hr hrest
  have hpeek : peek ps₁ ['|'] = _ := peek_hit (t := .bar) (by decide) hrest
  obtain ⟨hbehind, _⟩ := gettoken_skipWhite hrest
  have hneed' : 4 * (tokens (gettoken (skipWhite ps₁)).ps).length + 3 ≤ fuel := by
    rw [hps, length_append, length_cons] at hneed
    rw [hbehind]
    omega
  obtain ⟨⟨tree', ps₂⟩, hr', rfl, hrest'⟩ := h' fuel _ vs hbehind hvs hneed'
  simp only [parser] at hr'
  refine ⟨(.pipe tree tree', ps₂), ?_, rfl, hrest'⟩
  simp only [parser, parsepipe, hr, ok_bind, hpeek, if_true, hr']
  rfl

theorem Complete.backs (h : Complete .pipe ts cmd) {fuel : ℕ} {ps : Ptr} {vs : List Token}
    (hps : tokens ps = ts ++ replicate n .amp ++ vs)
    (hvs : ∀ t ws, vs = t :: ws → t = .rparen ∨ t = .semi)
    (hneed : 4 * (tokens ps).length + 3 ≤ fuel) :
    ∃ tree ps₁ r, parsepipe fuel ps = .ok (tree, ps₁) ∧
      parsebacks (ps₁.length + 1) tree ps₁ = .ok r ∧
      r.1.map Str.text = back^[n] cmd ∧ tokens r.2 = vs := by
  rw [append_assoc] at hps
  have hamps : Precedes .pipe (replicate n .amp ++ vs) := by
    intro t ws heq
    cases n with
    | zero =>
      rcases hvs t ws heq with rfl | rfl <;> decide
    | succ n =>
      have ht : Token.amp = t := (cons.inj heq).1
      rw [← ht]
      decide
  have hamp : vs.head? ≠ some .amp := by
    intro hhead
    obtain ⟨ws, hws⟩ := head?_eq_some_iff.mp hhead
    rcases hvs _ _ hws with ht | ht <;> cases ht
  obtain ⟨⟨tree, ps₁⟩, hr, rfl, hrest⟩ := h fuel ps _ hps hamps hneed
  obtain ⟨r, hbacks, htree, hrest'⟩ := parsebacks_complete tree hrest hamp
    (Nat.lt_succ_of_le (tokens_length_le ps₁))
  exact ⟨tree, ps₁, r, hr, hbacks, htree, hrest'⟩

theorem Complete.line (h : Complete .pipe ts cmd) :
    Complete .line (ts ++ replicate n .amp) (back^[n] cmd) := by
  intro fuel ps vs hps hvs hneed
  simp only [Nonterminal.need] at hneed
  obtain ⟨fuel, rfl⟩ := Nat.exists_eq_add_of_le' (show 1 ≤ fuel by omega)
  have hparen : ∀ t ws, vs = t :: ws → t = .rparen ∨ t = .semi := by
    intro t ws heq
    exact Or.inl (mem_singleton.mp (hvs t ws heq))
  obtain ⟨tree, ps₁, ⟨tree', ps₂⟩, hr, hbacks, htree, hrest⟩ :=
    h.backs hps hparen (Nat.le_of_succ_le_succ hneed)
  simp only at hrest
  have hpeek : peek ps₂ [';'] = _ := peek_miss (t := .semi) (by decide) (by
    rw [hrest]
    exact hvs.head_ne (by decide))
  refine ⟨(tree', skipWhite ps₂), ?_, htree, by rw [tokens_skipWhite, hrest]⟩
  simp only [parser, parseline, hr, ok_bind, hbacks, hpeek]
  rfl

theorem Complete.list (h : Complete .pipe ts cmd) (h' : Complete .line us right) :
    Complete .line (ts ++ replicate n .amp ++ .semi :: us)
      (.list (back^[n] cmd) right) := by
  intro fuel ps vs hps hvs hneed
  rw [append_assoc, cons_append] at hps
  simp only [Nonterminal.need] at hneed
  obtain ⟨fuel, rfl⟩ := Nat.exists_eq_add_of_le' (show 1 ≤ fuel by omega)
  have hsemi : ∀ t ws, .semi :: (us ++ vs) = t :: ws → t = .rparen ∨ t = .semi := by
    intro t ws heq
    exact Or.inr (cons.inj heq).1.symm
  obtain ⟨tree, ps₁, ⟨tree', ps₂⟩, hr, hbacks, htree, hrest⟩ :=
    h.backs hps hsemi (Nat.le_of_succ_le_succ hneed)
  simp only at hrest htree
  have hpeek : peek ps₂ [';'] = _ := peek_hit (t := .semi) (by decide) hrest
  obtain ⟨hbehind, _⟩ := gettoken_skipWhite hrest
  have hneed' : 4 * (tokens (gettoken (skipWhite ps₂)).ps).length + 4 ≤ fuel := by
    rw [hps, length_append, length_cons] at hneed
    rw [hbehind]
    omega
  obtain ⟨⟨tree₃, ps₃⟩, hr', rfl, hrest'⟩ := h' fuel _ vs hbehind hvs hneed'
  simp only [parser] at hr'
  refine ⟨(.list tree' tree₃, ps₃), ?_, ?_, hrest'⟩
  · simp only [parser, parseline, hr, ok_bind, hbacks, hpeek, if_true, hr']
    rfl
  · rw [← htree]
    rfl

theorem Complete.block (h : Complete .line ts cmd) (redirs : List (Redir (List Char))) :
    Complete .exec (.lparen :: ts ++ .rparen :: redirs.flatMap Redir.tokens)
      (redirs.foldl Redir.around cmd) := by
  intro fuel ps vs hps hvs hneed
  simp only [Nonterminal.need] at hneed
  obtain ⟨fuel, rfl⟩ := Nat.exists_eq_add_of_le' (show 2 ≤ fuel by omega)
  have hopen : tokens ps =
      .lparen :: (ts ++ (.rparen :: (redirs.flatMap Redir.tokens ++ vs))) := by
    rw [hps]
    simp
  have hskip := hopen
  rw [← tokens_skipWhite] at hskip
  have hpeek : peek ps ['('] = _ := peek_hit (t := .lparen) (by decide) hopen
  have hpeek₁ : peek (skipWhite ps) ['('] = _ := peek_hit (t := .lparen) (by decide) hskip
  obtain ⟨hinside, _⟩ := gettoken_skipWhite hskip
  have hneed' : 4 * (tokens (gettoken (skipWhite (skipWhite ps))).ps).length + 4 ≤ fuel := by
    rw [hopen, length_cons] at hneed
    rw [hinside]
    omega
  obtain ⟨⟨tree, ps₂⟩, hr, rfl, hrest⟩ := h fuel _ _ hinside (precedes_cons (by decide)) hneed'
  simp only [parser] at hr hrest
  have hpeek₂ : peek ps₂ [')'] = _ := peek_hit (t := .rparen) (by decide) hrest
  obtain ⟨hbehind, _⟩ := gettoken_skipWhite hrest
  obtain ⟨r, hredirs, htree, hrest'⟩ := parseredirs_complete tree hbehind
    (not_redir_behind (Or.inl rfl) hvs.exec_endsArgs)
    (Nat.lt_succ_of_le (tokens_length_le _))
  refine ⟨r, ?_, htree, hrest'⟩
  simp only [parser, parseexec, hpeek, if_true, parseblock, hpeek₁, ensure, ok_bind, hr, hpeek₂]
  exact hredirs

theorem head_ne_lparen {items : List Item} {us : List Token} (hus : us.head? ≠ some .lparen) :
    (items.flatMap Item.tokens ++ us).head? ≠ some .lparen := by
  cases items with
  | nil => exact hus
  | cons item items =>
    cases item with
    | word text => simp [Item.tokens]
    | redir r =>
      obtain ⟨op, file⟩ := r
      cases op <;> simp [Item.tokens, Redir.tokens, RedirOp.token]

theorem Complete.items (items : List Item)
    (hwords : (items.filterMap Item.word?).length ≤ maxargs - 1) :
    Complete .exec (items.flatMap Item.tokens)
      ((items.filterMap Item.redir?).foldl Redir.around
        (.exec (items.filterMap Item.word?))) := by
  intro fuel ps vs hps hvs hneed
  simp only [Nonterminal.need] at hneed
  obtain ⟨fuel, rfl⟩ := Nat.exists_eq_add_of_le' (show 1 ≤ fuel by omega)
  have hfold := foldl_onto items [] []
  obtain ⟨rs, rest, rfl, hrest⟩ := split_redirs items
  have hparen : (tokens ps).head? ≠ some .lparen := by
    rw [hps]
    exact head_ne_lparen (hvs.head_ne (by decide))
  have hpeek : peek ps ['('] = _ := peek_miss (t := .lparen) (by decide) hparen
  rw [flatMap_append, flatMap_redirs, append_assoc, ← tokens_skipWhite] at hps
  obtain ⟨r, hredirs, htree, hrest'⟩ := parseredirs_complete (.exec []) hps
    (not_redir_behind hrest hvs.exec_endsArgs) (Nat.lt_succ_of_le (tokens_length_le _))
  rw [filterMap_append, filterMap_redirs, nil_append] at hwords
  have hcount : 0 + (rest.filterMap Item.word?).length < maxargs := by
    rw [Nat.zero_add]
    exact Nat.lt_succ_of_le hwords
  obtain ⟨r', hargs, htree', hrest''⟩ := parseargs_complete r.1 hrest
    hrest' hvs.exec_endsArgs hcount (Nat.lt_succ_of_le (tokens_length_le _))
  refine ⟨r', ?_, ?_, hrest''⟩
  · simp only [parser, parseexec, hpeek, Bool.false_eq_true, if_false, hredirs, ok_bind]
    exact hargs
  · rw [htree', htree, ← foldl_redirs, ← foldl_append]
    exact hfold

theorem complete_of_derives {N : Nonterminal} (h : Derives N ts cmd) : Complete N ts cmd := by
  induction h with
  | line n _ ih => exact ih.line
  | list n _ _ ih ih' => exact ih.list ih'
  | exec _ ih => exact ih.exec
  | pipe _ _ ih ih' => exact ih.pipe ih'
  | block _ redirs ih => exact ih.block redirs
  | items items hwords => exact Complete.items items hwords

end Derivations

/-! ## The strings in memory -/

def stringAt (line buf : List Char) (w : Str) : List Char :=
  (buf.drop (index line w.q)).takeWhile (· ≠ nul)

section Strings

variable {line buf : List Char} {ws : List Str} {w : Str} {i : ℕ}

theorem nulterminate_eq (cmd : Cmd Str) (buf : List Char) :
    nulterminate line cmd buf = cmd.words.foldl (terminate line) buf := by
  induction cmd generalizing buf with
  | exec argv => rfl
  | redir cmd file mode fd ih =>
    rw [nulterminate, ih, words, foldl_append]
    rfl
  | pipe left right ihl ihr | list left right ihl ihr =>
        rw [nulterminate, ihl, ihr, words, foldl_append]
  | back cmd ih => exact ih buf

theorem terminated_other
    (hi : ∀ w ∈ ws, index line w.eq ≠ i) : (ws.foldl (terminate line) buf)[i]? = buf[i]? := by
  induction ws generalizing buf with
  | nil => rfl
  | cons w ws ih =>
    rw [foldl_cons, ih fun w hw => hi w (mem_cons_of_mem _ hw), terminate,
      getElem?_set_ne (hi w mem_cons_self)]

theorem terminated_nul
    (hi : buf[i]? = some nul) : (ws.foldl (terminate line) buf)[i]? = some nul := by
  induction ws generalizing buf with
  | nil => exact hi
  | cons w ws ih =>
    rw [foldl_cons]
    refine ih ?_
    rw [terminate, getElem?_set, hi]
    have hlt := (List.getElem?_eq_some_iff.mp hi).1
    split
    · rw [if_pos (by omega)]
    · rfl

theorem terminated_at (hw : w ∈ ws) (hlt : index line w.eq < buf.length) :
    (ws.foldl (terminate line) buf)[index line w.eq]? = some nul := by
  induction ws generalizing buf with
  | nil => cases hw
  | cons x ws ih =>
    rw [foldl_cons]
    rcases mem_cons.mp hw with rfl | hw
    · exact terminated_nul (getElem?_set_self hlt)
    · refine ih hw ?_
      rw [terminate, length_set]
      exact hlt

theorem takeWhile_eq_of_getElem? {text : List Char} (htext : ∀ c ∈ text, c ≠ nul)
    (hbuf : ∀ i, i < text.length → buf[i]? = text[i]?)
    (hend : buf[text.length]? = some nul) : buf.takeWhile (· ≠ nul) = text := by
  induction text generalizing buf with
  | nil =>
    cases buf with
    | nil => rfl
    | cons c buf =>
      have hc : c = nul := by simpa using hend
      simp [hc]
  | cons c text ih =>
    have hfirst := hbuf 0 (Nat.succ_pos _)
    cases buf with
    | nil => simp at hfirst
    | cons d buf =>
      obtain rfl : d = c := by simpa using hfirst
      have hrest : buf.takeWhile (· ≠ nul) = text := ih (fun e he => htext e (mem_cons_of_mem _ he))
        (fun i hi => by simpa using hbuf (i + 1) (Nat.succ_lt_succ hi))
        (by simpa using hend)
      rw [takeWhile_cons_of_pos (by simpa using htext d mem_cons_self), hrest]

theorem getElem?_index {p : Ptr} (hp : p <:+ line) : (line)[index line p]? = p.head? := by
  obtain ⟨before, rfl⟩ := hp
  rw [index, length_append, Nat.add_sub_cancel, getElem?_append_right (le_refl _),
    Nat.sub_self, head?_eq_getElem?]

theorem Str.Within.eq_suffix (h : w.Within line) : w.eq <:+ line := by
  have hq := h.suffix
  rw [h.text] at hq
  exact (suffix_append _ _).trans hq

theorem stringAt_nulterminate {cmd : Cmd Str} (hnul : nul ∉ line)
    (hwords : ∀ w ∈ cmd.words, w.Within line) (hw : w ∈ cmd.words) :
    stringAt line (nulterminate line cmd (line ++ [nul])) w = w.text := by
  have hwithin := hwords w hw
  obtain ⟨before, hbefore⟩ := hwithin.suffix
  have htext := Str.text_of_append hwithin.text
  have hq : w.q = w.text ++ w.eq := by
    rw [htext]
    exact hwithin.text
  have hline : line = before ++ (w.text ++ w.eq) := by rw [← hq, hbefore]
  have hstart : index line w.q = before.length := by
    rw [index, ← hbefore, length_append, Nat.add_sub_cancel]
  have hstop : index line w.eq = before.length + w.text.length := by
    rw [index, hline, ← append_assoc, length_append, length_append, Nat.add_sub_cancel]
  have hchar : ∀ i, i < w.text.length → (line)[before.length + i]? = w.text[i]? := by
    intro i hi
    rw [hline, getElem?_append_right (Nat.le_add_right _ _), Nat.add_sub_cancel_left,
      getElem?_append_left hi]
  have hword : ∀ c ∈ w.text, isWord c = true := by
    intro c hc
    rw [htext] at hc
    exact mem_takeWhile_imp hc
  rw [stringAt, nulterminate_eq, hstart]
  refine takeWhile_eq_of_getElem? ?_ ?_ ?_
  · intro c hc heq
    refine hnul ?_
    rw [hline, ← heq]
    exact mem_append_right _ (mem_append_left _ hc)
  · intro i hi
    have hlt : before.length + i < line.length := by
      rw [hline, length_append, length_append]
      omega
    rw [getElem?_drop, terminated_other, getElem?_append_left hlt, hchar i hi]
    -- behind a word stands no character of a word, so no other word ends inside this one
    intro v hv heq
    have hv := hwords v hv
    have hhead := getElem?_index hv.eq_suffix
    rw [heq, hchar i hi, getElem?_eq_getElem hi] at hhead
    have hnot := hv.maximal _ hhead.symm
    rw [hword _ (getElem_mem hi)] at hnot
    cases hnot
  · rw [getElem?_drop, ← hstop]
    refine terminated_at hw ?_
    rw [hstop, length_append, length_singleton, hline, length_append, length_append]
    omega

end Strings

theorem Cmd.map_congr {V W : Type} {f g : V → W} {cmd : Cmd V}
    (h : ∀ v ∈ cmd.words, f v = g v) : cmd.map f = cmd.map g := by
  induction cmd with
  | exec argv => exact congrArg exec (map_congr_left h)
  | redir cmd file mode fd ih =>
    rw [map, map, ih fun v hv => h v (mem_append_left _ hv),
      h file (mem_append_right _ mem_cons_self)]
  | pipe left right ihl ihr | list left right ihl ihr =>
    rw [map, map, ihl fun v hv => h v (mem_append_left _ hv),
      ihr fun v hv => h v (mem_append_right _ hv)]
  | back cmd ih => rw [map, map, ih h]

theorem skipWhite_eq_nil {s : Ptr} : skipWhite s = [] ↔ tokens s = [] := by
  constructor
  · intro h
    rw [← tokens_skipWhite, h, tokens]
  · intro h
    rcases skipWhite_cases s with hnil | ⟨c, rest, hcons, hwhite⟩
    · exact hnil
    · obtain ⟨t, htokens, _⟩ := scan_cons (s := rest) hwhite
      rw [← tokens_skipWhite, hcons, htokens] at h
      cases h

theorem nul_notMem_takeWhile (s : List Char) : nul ∉ s.takeWhile (· ≠ nul) := by
  intro h
  simpa using mem_takeWhile_imp h

theorem parseline_meets_all (line : List Char) :
    Meets (Parsed line line .line) (parseline (depth line) line) := by
  have hneed : Nonterminal.line.need (tokens line).length ≤ depth line := by
    have hle := tokens_length_le line
    simp only [Nonterminal.need, depth]
    omega
  exact parse_meets .line hneed (suffix_refl line)

theorem parsecmd_ok {s : List Char} {tree : Cmd Str} {buf : List Char}
    (hok : parsecmd s = .ok (tree, buf)) :
    InLine (s.takeWhile (· ≠ nul)) (tree, []) ∧
      Derives .line (tokens (s.takeWhile (· ≠ nul))) (tree.map Str.text) ∧
      buf = nulterminate (s.takeWhile (· ≠ nul)) tree (s.takeWhile (· ≠ nul) ++ [nul]) := by
  have hmeets := parseline_meets_all (s.takeWhile (· ≠ nul))
  simp only [parsecmd, bind_eq_ok, ensure_eq_ok, pure_eq_ok, Prod.mk.injEq] at hok
  obtain ⟨r, hr, _, hend, rfl, rfl⟩ := hok
  rw [hr] at hmeets
  obtain ⟨ts, hts, hderives⟩ := hmeets.derives
  rw [skipWhite_eq_nil.mp hend, append_nil] at hts
  exact ⟨⟨nil_suffix, hmeets.inLine.words⟩, hts ▸ hderives, rfl⟩

/-- The parser of the shell ends for every line.  It returns a tree exactly if the
grammar derives the tokens of the line, and then the words of the tree are the strings
in memory that the derivation gives; otherwise it stops with an error. -/
theorem parsecmd_accepts_grammar (s : List Char) :
    (∀ cmd, Derives .line (tokens (s.takeWhile (· ≠ nul))) cmd ↔
      ∃ tree buf, parsecmd s = .ok (tree, buf) ∧
        tree.map (stringAt (s.takeWhile (· ≠ nul)) buf) = cmd) ∧
      ((¬ ∃ cmd, Derives .line (tokens (s.takeWhile (· ≠ nul))) cmd) ↔
        ∃ msg, parsecmd s = .error (.panic msg)) := by
  have hnul := nul_notMem_takeWhile s
  have hparse : parsecmd s = (do
      let r ← parseline (depth (s.takeWhile (· ≠ nul))) (s.takeWhile (· ≠ nul))
      ensure (skipWhite r.2 = []) "syntax"
      return (r.1, nulterminate (s.takeWhile (· ≠ nul)) r.1 (s.takeWhile (· ≠ nul) ++ [nul]))) :=
    rfl
  have hread := fun tree buf (hok : parsecmd s = .ok (tree, buf)) => parsecmd_ok hok
  generalize s.takeWhile (· ≠ nul) = line at hnul hparse hread
  have hneed : 4 * (tokens line).length + 4 ≤ depth line := by
    have hle := tokens_length_le line
    simp only [depth]
    omega
  have hmeets := parseline_meets_all line
  have hstrings : ∀ r, InLine line r →
      r.1.map (stringAt line (nulterminate line r.1 (line ++ [nul]))) = r.1.map Str.text := by
    intro r hr
    exact Cmd.map_congr fun w hw => stringAt_nulterminate hnul hr.words hw
  have haccept : ∀ cmd, Derives .line (tokens line) cmd →
      ∃ tree buf, parsecmd s = .ok (tree, buf) ∧ tree.map (stringAt line buf) = cmd := by
    intro cmd hderives
    obtain ⟨r, hr, htree, hrest⟩ := complete_of_derives hderives (depth line) line []
      (List.append_nil _).symm (by rintro t vs ⟨⟩) hneed
    change parseline (depth line) line = .ok r at hr
    rw [hr] at hmeets hparse
    rw [hparse, ok_bind, ensure, if_pos (skipWhite_eq_nil.mpr hrest)]
    exact ⟨_, _, rfl, (hstrings r hmeets.inLine).trans htree⟩
  refine ⟨?_, ?_⟩
  · intro cmd
    constructor
    · exact haccept cmd
    · rintro ⟨tree, buf, hok, rfl⟩
      obtain ⟨hline, hderives, rfl⟩ := hread tree buf hok
      rw [hstrings (tree, []) hline]
      exact hderives
  · constructor
    · intro hnone
      cases hline : parseline (depth line) line with
      | error stop =>
          rw [hline] at hmeets hparse
          cases stop with
          | blocked => exact hmeets.elim
          | panic msg => exact ⟨msg, hparse⟩
      | ok r =>
          rw [hline] at hmeets hparse
          have hend : skipWhite r.2 ≠ [] := by
            intro hend
            obtain ⟨ts, hts, hderives⟩ := hmeets.derives
            rw [skipWhite_eq_nil.mp hend, List.append_nil] at hts
            exact hnone ⟨_, hts ▸ hderives⟩
          rw [ok_bind, ensure, if_neg hend] at hparse
          exact ⟨"syntax", hparse⟩
    · rintro ⟨msg, hpanic⟩ ⟨cmd, hderives⟩
      obtain ⟨tree, buf, hok, _⟩ := haccept cmd hderives
      rw [hok] at hpanic
      cases hpanic

example : (parsecmd "a <f b|c&".toList).toOption.map
      (fun r => r.1.map (stringAt "a <f b|c&".toList r.2)) =
    some (.back (.pipe (.redir (.exec [['a'], ['b']]) ['f'] oRdonly 0) (.exec [['c']]))) := by
  decide +kernel

/-- Every `argv` has room for the 0 behind its words. -/
def Cmd.ArgvFits {W : Type} : Cmd W → Prop
  | .exec argv => argv.length < maxargs
  | .redir cmd _ _ _ => cmd.ArgvFits
  | .pipe left right => left.ArgvFits ∧ right.ArgvFits
  | .list left right => left.ArgvFits ∧ right.ArgvFits
  | .back cmd => cmd.ArgvFits

theorem Cmd.argvFits_map {V W : Type} (f : V → W) (cmd : Cmd V) :
    (cmd.map f).ArgvFits ↔ cmd.ArgvFits := by
  induction cmd with
  | exec argv => simp [map, Cmd.ArgvFits]
  | redir cmd file mode fd ih | back cmd ih => simpa only [map, Cmd.ArgvFits] using ih
  | pipe left right ihl ihr | list left right ihl ihr => simp only [map, Cmd.ArgvFits, ihl, ihr]

theorem argvFits_redirs {W : Type} (rs : List (Redir W)) (cmd : Cmd W) :
    (rs.foldl Redir.around cmd).ArgvFits ↔ cmd.ArgvFits := by
  induction rs generalizing cmd with
  | nil => rfl
  | cons r rs ih =>
    rw [foldl_cons, ih]
    obtain ⟨op, file⟩ := r
    cases op <;> rfl

theorem argvFits_backs {W : Type} (n : ℕ) (cmd : Cmd W) :
    (back^[n] cmd).ArgvFits ↔ cmd.ArgvFits := by
  induction n generalizing cmd with
  | zero => rfl
  | succ n ih => exact ih (.back cmd)

theorem Derives.argvFits {N : Nonterminal} {ts : List Token} {cmd : Cmd (List Char)}
    (h : Derives N ts cmd) : cmd.ArgvFits := by
  induction h with
  | line n hpipe ih => exact (argvFits_backs n _).mpr ih
  | list n hpipe hline ih ihline => exact ⟨(argvFits_backs n _).mpr ih, ihline⟩
  | exec hexec ih => exact ih
  | pipe hexec hpipe ih ihpipe => exact ⟨ih, ihpipe⟩
  | block hline redirs ih => exact (argvFits_redirs redirs _).mpr ih
  | items items hwords => exact (argvFits_redirs _ _).mpr (Nat.lt_succ_of_le hwords)

/-- After `nulterminate` every word of the tree, read as a string from the line in memory, is the
word of the line that `gettoken` has found; and every `argv` has a 0 behind its words. -/
theorem nulterminate_sound {s : List Char} {tree : Cmd Str} {buf : List Char}
    (hok : parsecmd s = .ok (tree, buf)) :
    (∀ w ∈ tree.words, w.Within (s.takeWhile (· ≠ nul)) ∧
      stringAt (s.takeWhile (· ≠ nul)) buf w = w.text) ∧
    Derives .line (tokens (s.takeWhile (· ≠ nul))) (tree.map Str.text) ∧ tree.ArgvFits := by
  obtain ⟨hline, hderives, rfl⟩ := parsecmd_ok hok
  refine ⟨?_, hderives, (Cmd.argvFits_map Str.text tree).mp hderives.argvFits⟩
  intro w hw
  exact ⟨hline.words w hw, stringAt_nulterminate (nul_notMem_takeWhile s) hline.words hw⟩

theorem nulterminate_sound_pipe :
    ∃ buf, parsecmd ['a', '|', 'b'] = .ok (.pipe (.exec [⟨['a', '|', 'b'], ['|', 'b']⟩])
      (.exec [⟨['b'], []⟩]), buf) ∧ stringAt ['a', '|', 'b'] buf ⟨['b'], []⟩ = ['b'] := by
  have hok : parsecmd ['a', '|', 'b'] = .ok (.pipe (.exec [⟨['a', '|', 'b'], ['|', 'b']⟩])
      (.exec [⟨['b'], []⟩]), ['a', nul, 'b', nul]) := by
    rfl
  exact ⟨_, hok, ((nulterminate_sound hok).1 ⟨['b'], []⟩ (by decide)).2⟩

end Xv6Kernel.Shell
