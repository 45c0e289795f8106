import Xv6Kernel.Console

/-!
# What the reader of the console gets

The characters that were handed over form a stream, and each call of `consoleread`
reads from it: up to its count, up to the end of a line, or up to `C('D')`, which
is no part of what is read.  A `C('D')` behind other characters stays in the stream
for the next call.

The three indices are residues of unbounded positions in the stream.
-/

namespace Xv6Kernel

open TraceExecution RingBuffer RingBuffer.Ring WordBytes List ConsoleInput

/-! ## Reading from a stream -/

def Plain (l : List Byte) : Prop := ∀ c ∈ l, c ≠ newline ∧ c ≠ ctl 'D'

/-- A call with count `n` takes `bytes` from a stream and leaves `rest`. -/
inductive ReadFrom (n : ℕ) : List Byte → List Byte → List Byte → Prop
  | count {bytes rest : List Byte} (hplain : Plain bytes) (hcount : bytes.length = n) :
      ReadFrom n (bytes ++ rest) bytes rest
  | endOfLine {before rest : List Byte} (hplain : Plain before) (hcount : before.length < n) :
      ReadFrom n (before ++ newline :: rest) (before ++ [newline]) rest
  | eof {rest : List Byte} (hcount : 0 < n) : ReadFrom n (ctl 'D' :: rest) [] rest
  | eofLater {bytes rest : List Byte} (hplain : Plain bytes) (hsome : bytes ≠ [])
      (hcount : bytes.length < n) :
      ReadFrom n (bytes ++ ctl 'D' :: rest) bytes (ctl 'D' :: rest)

inductive ReadsFrom : List Byte → List ReadReturn → List Byte → Prop
  | nil {stream : List Byte} : ReadsFrom stream [] stream
  | concat {stream mid rest : List Byte} {reads : List ReadReturn} {read : ReadReturn}
      (hreads : ReadsFrom stream reads mid) (hread : ReadFrom read.target mid read.dst rest)
      (hresult : read.result = read.dst.length) :
      ReadsFrom stream (reads ++ [read]) rest

theorem Plain.concat {l : List Byte} {c : Byte} (h : Plain l) (hnewline : c ≠ newline)
    (heof : c ≠ ctl 'D') : Plain (l ++ [c]) := by
  intro d hd
  rcases mem_append.mp hd with hd | hd
  · exact h d hd
  · rw [mem_singleton] at hd
    exact hd ▸ ⟨hnewline, heof⟩

theorem Plain.filter_eof {l : List Byte} (h : Plain l) : l.filter (· ≠ ctl 'D') = l := by
  rw [filter_eq_self]
  intro c hc
  simpa using (h c hc).2

variable {stream rest bytes : List Byte} {n : ℕ} {reads before after : List ReadReturn}

theorem ReadFrom.extend (more : List Byte)
    (h : ReadFrom n stream bytes rest) : ReadFrom n (stream ++ more) bytes (rest ++ more) := by
  cases h with
  | count hplain hcount =>
    rw [append_assoc]
    exact .count hplain hcount
  | endOfLine hplain hcount =>
    rw [append_assoc]
    exact .endOfLine hplain hcount
  | eof hcount => exact .eof hcount
  | eofLater hplain hsome hcount =>
    rw [append_assoc]
    exact .eofLater hplain hsome hcount

theorem ReadsFrom.extend (more : List Byte)
    (h : ReadsFrom stream reads rest) : ReadsFrom (stream ++ more) reads (rest ++ more) := by
  induction h with
  | nil => exact .nil
  | concat _ hread hresult ih => exact .concat ih (hread.extend more) hresult

theorem ReadFrom.filter_eof (h : ReadFrom n stream bytes rest) :
    stream.filter (· ≠ ctl 'D') = bytes ++ rest.filter (· ≠ ctl 'D') := by
  cases h with
  | count hplain | eofLater hplain => rw [filter_append, hplain.filter_eof]
  | @endOfLine before rest hplain _ =>
    have hne : newline ≠ ctl 'D' := by decide
    rw [filter_append, hplain.filter_eof, filter_cons_of_pos (by simpa using hne), append_assoc]
    rfl
  | eof _ => simp

theorem ReadsFrom.filter_eof (h : ReadsFrom stream reads rest) :
    stream.filter (· ≠ ctl 'D') =
      (reads.map (·.dst)).flatten ++ rest.filter (· ≠ ctl 'D') := by
  induction h with
  | nil => simp
  | concat _ hread _ ih =>
    rw [ih, hread.filter_eof]
    simp

theorem ReadsFrom.concat_inv {read : ReadReturn} (h : ReadsFrom stream (reads ++ [read]) rest) :
    ∃ mid, ReadsFrom stream reads mid ∧ ReadFrom read.target mid read.dst rest ∧
      read.result = read.dst.length := by
  generalize hall : reads ++ [read] = all at h
  cases h with
  | nil => simp at hall
  | concat hreads hread hresult =>
    obtain ⟨rfl, hlast⟩ := append_inj' hall rfl
    rw [cons.injEq] at hlast
    obtain ⟨rfl, _⟩ := hlast
    exact ⟨_, hreads, hread, hresult⟩

theorem ReadsFrom.split (h : ReadsFrom stream (before ++ after) rest) :
    ∃ mid, ReadsFrom stream before mid ∧ ReadsFrom mid after rest := by
  induction after using reverseRecOn generalizing rest with
  | nil =>
    rw [append_nil] at h
    exact ⟨rest, h, .nil⟩
  | append_singleton after read ih =>
    rw [← append_assoc] at h
    obtain ⟨mid, hreads, hread, hresult⟩ := h.concat_inv
    obtain ⟨start, hbefore, hafter⟩ := ih hreads
    exact ⟨start, hbefore, .concat hafter hread hresult⟩

theorem ReadsFrom.pair {a b : ReadReturn} (h : ReadsFrom stream (before ++ a :: b :: after) rest) :
    ∃ start mid behind, ReadFrom a.target start a.dst mid ∧
      ReadFrom b.target mid b.dst behind ∧ b.result = b.dst.length := by
  have hsplit : before ++ a :: b :: after = ((before ++ [a]) ++ [b]) ++ after := by simp
  rw [hsplit] at h
  obtain ⟨behind, hfirst, _⟩ := h.split
  obtain ⟨mid, hfirst, hb, hresult⟩ := hfirst.concat_inv
  obtain ⟨start, _, ha, _⟩ := hfirst.concat_inv
  exact ⟨start, mid, behind, ha, hb, hresult⟩

theorem ReadFrom.head_eof
    (h : ReadFrom n stream bytes rest) (hsome : bytes ≠ []) (hcount : bytes.length < n)
    (hline : bytes.getLast? ≠ some newline) : rest.head? = some (ctl 'D') := by
  cases h with
  | count _ hlength => omega
  | endOfLine _ _ => simp at hline
  | eof _ => exact absurd rfl hsome
  | eofLater _ _ _ => rfl

theorem ReadFrom.of_head_eof
    (h : ReadFrom n stream bytes rest) (hhead : stream.head? = some (ctl 'D')) : bytes = [] := by
  cases h with
  | @count bytes rest hplain | @eofLater bytes rest hplain =>
    cases bytes with
    | nil => rfl
    | cons c bytes =>
      simp only [cons_append, head?_cons, Option.some.injEq] at hhead
      exact absurd hhead (hplain c mem_cons_self).2
  | @endOfLine before rest hplain _ =>
    cases before with
    | nil =>
      have hne : newline ≠ ctl 'D' := by decide
      simp only [nil_append, head?_cons, Option.some.injEq] at hhead
      exact absurd hhead hne
    | cons c before =>
      simp only [cons_append, head?_cons, Option.some.injEq] at hhead
      exact absurd hhead (hplain c mem_cons_self).2
  | eof _ => rfl

/-- The buffer holds what is unread of the stream, and behind it the line that is
being edited. -/
structure Positions (input : ConsoleInput) (committed line : List Byte) (taken : ℕ) :
    Prop where
  tracks : input.ring.Tracks (committed ++ line) taken
  w : input.w = BitVec.ofNat 32 committed.length
  order : taken ≤ committed.length

/-- When the lock is free, a line is also not complete, and not cut. -/
structure Follows (input : ConsoleInput) (committed line : List Byte) (taken : ℕ) : Prop
    extends Positions input committed line taken where
  full : (committed ++ line).length = taken + inputBuf → line = []
  plain : Plain line

namespace Positions

variable {input : ConsoleInput} {committed line : List Byte} {taken : ℕ}

section

variable (h : Positions input committed line taken)

include h

theorem room : committed.length + line.length ≤ taken + inputBuf := by
  simpa using h.tracks.room

theorem e_eq : input.e = BitVec.ofNat 32 (committed.length + line.length) := by
  simpa using h.tracks.nwrite

theorem e_sub_r : (input.e - input.r).toNat = committed.length + line.length - taken := by
  simpa using h.tracks.distance (by decide)

theorem w_sub_r : (input.w - input.r).toNat = committed.length - taken := by
  have hsum : BitVec.ofNat 32 committed.length =
      BitVec.ofNat 32 taken + BitVec.ofNat 32 (committed.length - taken) := by
    rw [← BitVec.ofNat_add, Nat.add_sub_cancel' h.order]
  have hr : input.r = BitVec.ofNat 32 taken := h.tracks.nread
  have hroom : _ ≤ taken + 128 := h.room
  rw [h.w, hr, hsum, add_sub_cancel_left]
  simp only [BitVec.toNat_ofNat]
  exact Nat.mod_eq_of_lt (by omega)

theorem e_sub_w : (input.e - input.w).toNat = line.length := by
  have hroom : _ ≤ taken + 128 := h.room
  have horder := h.order
  rw [h.e_eq, h.w, BitVec.ofNat_add, add_sub_cancel_left]
  simp only [BitVec.toNat_ofNat]
  exact Nat.mod_eq_of_lt (by omega)

theorem e_eq_w_iff : input.e = input.w ↔ line = [] := by
  rw [← length_eq_zero_iff, ← h.e_sub_w]
  constructor
  · intro heq
    rw [heq, sub_self]
    rfl
  · intro heq
    exact sub_eq_zero.mp (BitVec.eq_of_toNat_eq heq)

theorem r_eq_w_iff : input.r = input.w ↔ taken = committed.length := by
  have hroom : _ ≤ taken + 128 := h.room
  have hr : input.r = BitVec.ofNat 32 taken := h.tracks.nread
  rw [hr, h.w]
  constructor
  · intro heq
    exact ofNat_inj h.order (by omega) heq
  · intro heq
    rw [heq]

theorem line_eq : input.line = line := by
  have horder := h.order
  apply ext_getElem
  · simp [ConsoleInput.line, h.e_sub_w]
  · intro i hi hline
    have hcontent := h.tracks.content (committed.length + i) (by omega) (by simpa using hline)
    simp only [ConsoleInput.line, getElem_map, getElem_range]
    rw [h.w, ← BitVec.ofNat_add, cell_ofNat (by decide)]
    simpa [ring] using hcontent

theorem store {c : Byte} (hroom : input.e - input.r < BitVec.ofNat 32 inputBuf) :
    Positions (input.store c) committed (line ++ [c]) taken := by
  rw [BitVec.lt_def, h.e_sub_r] at hroom
  have hlt : committed.length + line.length - taken < inputBuf := hroom
  refine ⟨?_, h.w, h.order⟩
  rw [← append_assoc]
  refine h.tracks.put (by decide) (by decide) ?_ c
  rw [h.tracks.full_iff (by decide), length_append]
  omega

end

end Positions

namespace Follows

variable {input : ConsoleInput} {committed line : List Byte} {taken : ℕ}

theorem erase {c : Byte} (h : Follows input committed (line ++ [c]) taken) :
    Follows { input with e := input.e - 1 } committed line taken := by
  have htracks := h.tracks
  rw [← append_assoc] at htracks
  refine ⟨⟨htracks.erase ?_, h.w, h.order⟩, ?_, ?_⟩
  · have horder := h.order
    rw [length_append]
    omega
  · intro hfull
    have hroom := h.room
    rw [length_append] at hfull
    rw [length_append, length_singleton] at hroom
    omega
  · intro d hd
    exact h.plain d (mem_append_left [c] hd)

theorem killLine (h : Follows input committed line taken) :
    Follows (input.killLine line.length) committed [] taken := by
  induction line using reverseRecOn generalizing input with
  | nil => exact h
  | append_singleton line c ih =>
    have hne : input.e ≠ input.w := by
      rw [Ne, h.e_eq_w_iff]
      simp
    have htracks := h.tracks
    rw [← append_assoc] at htracks
    have hlast : input.buf (cell inputBuf (input.e - 1).toNat) = c := by
      refine htracks.last (by decide) ?_
      have horder := h.order
      rw [length_append]
      omega
    have hplain := h.plain c (by simp)
    rw [length_append, length_singleton, killLine, hlast, if_pos ⟨hne, hplain.1⟩]
    exact ih h.erase

theorem commit (h : Positions input committed line taken) :
    Follows { input with w := input.e } (committed ++ line) [] taken := by
  have horder := h.order
  refine ⟨⟨?_, h.tracks.nwrite, ?_⟩, fun _ => rfl, ?_⟩
  · rw [append_nil]
    exact h.tracks
  · rw [length_append]
    omega
  · intro d hd
    cases hd

theorem typed {c : Byte} (h : Follows input committed line taken)
    (hroom : input.e - input.r < BitVec.ofNat 32 inputBuf) (hnewline : c ≠ newline)
    (heof : c ≠ ctl 'D')
    (hmore : (input.store c).e ≠ (input.store c).r + BitVec.ofNat 32 inputBuf) :
    Follows (input.store c) committed (line ++ [c]) taken := by
  have hstore := h.store (c := c) hroom
  refine ⟨hstore, ?_, h.plain.concat hnewline heof⟩
  intro hfull
  exact absurd ((hstore.tracks.full_iff (by decide)).mpr hfull) hmore

end Follows

/-- A call that is not finished: what it has stored does not end it. -/
structure ConsoleRead.Open (read : ConsoleRead) : Prop where
  plain : Plain read.dst
  left : 0 < read.n
  count : read.dst.length + read.n = read.target

/-- How the loop ends that reads from `stream`. -/
inductive LoopEnd (committed line : List Byte) (target : ℕ) (stream : List Byte) :
    ConsoleInput × ReadEnd → Prop
  | sleep {input : ConsoleInput} {n : ℕ}
      (hfollows : Follows input committed line committed.length)
      (hopen : ConsoleRead.Open ⟨target, n, stream⟩) :
      LoopEnd committed line target stream (input, .sleep ⟨target, n, stream⟩)
  | done {input : ConsoleInput} {n taken : ℕ} {dst : List Byte}
      (hfollows : Follows input committed line taken)
      (hread : ReadFrom target stream dst (committed.drop taken))
      (hcount : dst.length + n = target) :
      LoopEnd committed line target stream (input, .done n dst)

section Loop

variable {committed line : List Byte} {target taken : ℕ} {input : ConsoleInput}

theorem Follows.drop (h : Follows input committed line taken) (hlt : taken < committed.length) :
    Follows { input with r := input.r + 1 } committed line (taken + 1) := by
  refine ⟨⟨h.tracks.drop ?_, h.w, hlt⟩, ?_, h.plain⟩
  · rw [length_append]
    omega
  · intro hfull
    have hroom := h.room
    rw [length_append] at hfull
    omega

theorem Follows.front (h : Follows input committed line taken) (hlt : taken < committed.length) :
    input.buf (cell inputBuf input.r.toNat) = committed[taken] := by
  have hstored : taken < (committed ++ line).length := by
    rw [length_append]
    omega
  have hfront := h.tracks.front (by decide) hstored
  rw [getElem_append_left hlt] at hfront
  exact hfront

theorem readLoop_end {n : ℕ} {dst : List Byte} (h : Follows input committed line taken)
    (hplain : Plain dst) (hcount : dst.length + n = target) :
    LoopEnd committed line target (dst ++ committed.drop taken)
      (readLoop false target n input dst) := by
  induction n generalizing input dst taken with
  | zero => exact .done h (.count hplain hcount) hcount
  | succ n ih =>
    unfold readLoop
    by_cases hempty : input.r = input.w
    · obtain rfl := h.r_eq_w_iff.mp hempty
      rw [if_pos hempty, if_neg Bool.false_ne_true]
      rw [drop_length, append_nil]
      exact .sleep h ⟨hplain, Nat.succ_pos n, hcount⟩
    · have hlt : taken < committed.length := by
        have horder := h.order
        have hne := mt h.r_eq_w_iff.mpr hempty
        omega
      have hstream := drop_eq_getElem_cons hlt
      rw [if_neg hempty]
      simp only [h.front hlt]
      generalize committed[taken] = c at hstream
      by_cases heof : c = ctl 'D'
      · subst c
        rw [if_pos rfl]
        by_cases hlater : n + 1 < target
        · have hback : { input with r := input.r + 1 - 1 } = input := by
            rw [add_sub_cancel_right]
          have hsome : dst ≠ [] := by
            intro hnil
            rw [hnil, length_nil] at hcount
            omega
          rw [if_pos hlater, hback]
          refine .done h ?_ hcount
          rw [hstream]
          exact .eofLater hplain hsome (by omega)
        · have hnil : dst = [] := length_eq_zero_iff.mp (by omega)
          subst dst
          rw [if_neg hlater]
          refine .done (h.drop hlt) ?_ hcount
          rw [hstream]
          exact .eof (by omega)
      · rw [if_neg heof]
        by_cases hline : c = newline
        · subst c
          rw [if_pos rfl]
          refine .done (h.drop hlt) ?_ ?_
          · rw [hstream]
            exact .endOfLine hplain (by omega)
          · rw [length_append, length_singleton]
            omega
        · have hloop := ih (h.drop hlt) (hplain.concat hline heof) (by
            rw [length_append, length_singleton]
            omega)
          rw [append_assoc, singleton_append, ← hstream] at hloop
          rw [if_neg hline]
          exact hloop

end Loop

/-! ## Runs -/

/-- What the call that is going on has taken from the stream, and what is unread. -/
def ReaderPc.Between (rest unread : List Byte) : ReaderPc → Prop
  | .outside => rest = unread
  | .asleep read => rest = read.dst ++ unread ∧ read.Open ∧ unread = []
  | .woken read => rest = read.dst ++ unread ∧ read.Open

structure Served (s : Console) (line : List Byte) (taken : ℕ) : Prop where
  follows : Follows s.input s.committed line taken
  alive : s.killed = false
  reads : ∃ rest, ReadsFrom s.committed s.reads rest ∧
    s.reader.Between rest (s.committed.drop taken)

theorem ReaderPc.Between.wakeup {rest unread : List Byte} {pc : ReaderPc} (more : List Byte)
    (h : pc.Between rest unread) : pc.wakeup.Between (rest ++ more) (unread ++ more) := by
  cases pc with
  | outside => exact congrArg (· ++ more) h
  | asleep read =>
    obtain ⟨hrest, hopen, _⟩ := h
    refine ⟨?_, hopen⟩
    rw [hrest, append_assoc]
  | woken read =>
    obtain ⟨hrest, hopen⟩ := h
    refine ⟨?_, hopen⟩
    rw [hrest, append_assoc]

namespace Served

variable {s : Console} {line : List Byte} {taken : ℕ}

theorem initial (h : Console.Initial s) : Served s [] 0 := by
  have hcommitted := h.committed
  refine ⟨⟨⟨?_, ?_, Nat.zero_le _⟩, fun _ => rfl, ?_⟩, h.killed, ?_⟩
  · have hring : s.input.ring = ⟨s.input.buf, 0, 0⟩ := by
      simp only [ring, h.r, h.e]
    rw [hring, hcommitted]
    exact tracks_empty s.input.buf
  · rw [h.w, hcommitted]
    rfl
  · intro c hc
    cases hc
  · refine ⟨[], ?_, ?_⟩
    · rw [hcommitted, h.reads]
      exact .nil
    · rw [h.reader, hcommitted]
      rfl

section

variable (h : Served s line taken)

include h

theorem commit {input : ConsoleInput} {typed : List Byte}
    (hpositions : Positions input s.committed typed taken) :
    Served { s with
      input := { input with w := input.e }
      reader := s.reader.wakeup
      committed := s.committed ++ typed } [] taken := by
  obtain ⟨rest, hreads, hreader⟩ := h.reads
  refine ⟨Follows.commit hpositions, h.alive, rest ++ typed, hreads.extend typed, ?_⟩
  rw [drop_append_of_le_length hpositions.order]
  exact hreader.wakeup typed

theorem receive (c : Byte) : ∃ line, Served (s.receive c) line taken := by
  unfold Console.receive
  split
  next => exact ⟨line, h⟩
  split
  next =>
    rw [h.follows.e_sub_w]
    exact ⟨[], h.follows.killLine, h.alive, h.reads⟩
  split
  next =>
    split
    next hne =>
      rw [Ne, h.follows.e_eq_w_iff] at hne
      obtain ⟨before, last, rfl⟩ := eq_nil_or_concat'  line |>.resolve_left hne
      exact ⟨before, h.follows.erase, h.alive, h.reads⟩
    next => exact ⟨line, h⟩
  split
  next hroom =>
    obtain ⟨_, hroom⟩ := hroom
    dsimp only
    generalize (if c = carriageReturn then newline else c) = c
    split
    next =>
      have hpositions := h.follows.store (c := c) hroom
      rw [hpositions.line_eq]
      exact ⟨[], h.commit hpositions⟩
    next hmore =>
      simp only [not_or] at hmore
      exact ⟨line ++ [c], h.follows.typed hroom hmore.1 hmore.2.1 hmore.2.2, h.alive, h.reads⟩
  next => exact ⟨line, h⟩

theorem consoleintr (chars : List Byte) : ∃ line, Served (s.consoleintr chars) line taken := by
  induction chars generalizing s line with
  | nil => exact ⟨line, h⟩
  | cons c chars ih =>
    obtain ⟨line, h⟩ := h.receive c
    exact ih h

theorem runRead (read : ConsoleRead) {rest : List Byte} (hplain : Plain read.dst)
    (hcount : read.dst.length + read.n = read.target) (hreads : ReadsFrom s.committed s.reads rest)
    (hrest : rest = read.dst ++ s.committed.drop taken) :
    ∃ taken, Served (s.runRead read) line taken := by
  have hend := readLoop_end h.follows hplain hcount
  unfold Console.runRead
  rw [h.alive]
  generalize readLoop false read.target read.n s.input read.dst = result at hend
  cases hend with
  | @sleep input n hfollows hopen =>
    refine ⟨s.committed.length, hfollows, rfl, rest, hreads, ?_⟩
    rw [drop_length, hrest]
    exact ⟨(append_nil _).symm, hopen, rfl⟩
  | @done input n taken' dst hfollows hread hcount' =>
    refine ⟨taken', hfollows, rfl, s.committed.drop taken', ?_, rfl⟩
    refine .concat hreads (hrest ▸ hread) ?_
    change ((read.target : ℤ) - n) = dst.length
    omega

theorem step {t : Console} {label : ConsoleLabel}
    (hstep : Console.step s label = some t) : ∃ line taken, Served t line taken := by
  simp only [Console.step, stepOf_eq_some] at hstep
  obtain ⟨rest, hreads, hreader⟩ := h.reads
  cases label with
  | consoleintr chars =>
    cases hstep
    obtain ⟨line, h⟩ := h.consoleintr chars
    exact ⟨line, taken, h⟩
  | consoleread n =>
    simp only [Console.perform, bind_eq_ok, await_eq_ok, pure_eq_ok] at hstep
    obtain ⟨_, houtside, rfl⟩ := hstep
    rw [houtside] at hreader
    obtain ⟨taken, h⟩ := h.runRead ⟨n, n, []⟩ (by rintro _ ⟨⟩) (Nat.zero_add n) hreads hreader
    exact ⟨line, taken, h⟩
  | resume =>
    simp only [Console.perform] at hstep
    split at hstep
    next read hwoken =>
      cases hstep
      rw [hwoken] at hreader
      obtain ⟨hrest, hopen⟩ := hreader
      obtain ⟨taken, h⟩ := h.runRead read hopen.plain hopen.count hreads hrest
      exact ⟨line, taken, h⟩
    next => cases hstep

end

end Served

theorem served_of_reachable {s : Console} (hs : Reachable Console.step Console.Initial s) :
    ∃ line taken, Served s line taken := by
  refine hs.invariant (P := fun s => ∃ line taken, Served s line taken) ?_ ?_
  · intro s hinitial
    exact ⟨[], 0, Served.initial hinitial⟩
  · intro s label next h hstep
    obtain ⟨line, taken, h⟩ := h
    exact h.step hstep

/-- In every interleaving of interrupts and calls, of any length, the indices are in
order, a full buffer is handed over, and a sleeping reader has nothing to read.  The
calls read the stream of characters handed over one after the other, as `ReadFrom`
says, without those for the end of a file; and a call that such a character ends
after others is followed by one that returns nothing. -/
theorem console_line_discipline {s : Console} (hs : Reachable Console.step Console.Initial s) :
    (s.input.w - s.input.r).toNat ≤ (s.input.e - s.input.r).toNat ∧
      (s.input.e - s.input.r).toNat ≤ inputBuf ∧
      ((s.input.e - s.input.r).toNat = inputBuf → s.input.w = s.input.e) ∧
      (∀ read, s.reader = .asleep read → s.input.r = s.input.w) ∧
      (s.reads.map (·.dst)).flatten <+: s.committed.filter (· ≠ ctl 'D') ∧
      (∃ rest, ReadsFrom s.committed s.reads rest) ∧
      ∀ before a b after, s.reads = before ++ a :: b :: after → a.dst ≠ [] →
        a.dst.length < a.target → a.dst.getLast? ≠ some newline →
        b.dst = [] ∧ b.result = 0 := by
  obtain ⟨line, taken, h⟩ := served_of_reachable hs
  have hfollows := h.follows
  have hroom := hfollows.room
  have horder := hfollows.order
  obtain ⟨rest, hreads, hreader⟩ := h.reads
  refine ⟨?_, ?_, ?_, ?_, ?_, ⟨rest, hreads⟩, ?_⟩
  · rw [hfollows.w_sub_r, hfollows.e_sub_r]
    omega
  · rw [hfollows.e_sub_r]
    omega
  · intro hfull
    rw [hfollows.e_sub_r] at hfull
    have hline := hfollows.full (by
      rw [List.length_append]
      have hpos : 0 < inputBuf := by decide
      omega)
    exact (hfollows.e_eq_w_iff.mpr hline).symm
  · intro read hasleep
    rw [hasleep] at hreader
    have hunread := List.drop_eq_nil_iff.mp hreader.2.2
    exact hfollows.r_eq_w_iff.mpr (le_antisymm horder hunread)
  · rw [hreads.filter_eof]
    exact List.prefix_append _ _
  · intro before a b after hsplit hsome hearly hline
    rw [hsplit] at hreads
    obtain ⟨start, mid, behind, ha, hb, hresult⟩ := hreads.pair
    have hnil := hb.of_head_eof (ha.head_eof hsome hearly hline)
    refine ⟨hnil, ?_⟩
    rw [hresult, hnil]
    rfl

def consoleAtBoot : Console where
  input := ⟨fun _ => 0, 0, 0, 0⟩
  killed := false
  reader := .outside
  committed := []
  reads := []

/-- The reader sleeps; `x`, backspace, `a` and `C('D')` are typed; the call returns,
and so does the next one. -/
def typedEof : List ConsoleLabel :=
  [.consoleread 10, .consoleintr [0x78, ctl 'H', 0x61], .consoleintr [ctl 'D'], .resume,
    .consoleread 10]

theorem console_line_discipline_typedEof :
    ∃ s, exec Console.step consoleAtBoot typedEof = some s ∧
      s.reads = [⟨10, 1, [0x61]⟩, ⟨10, 0, []⟩] ∧ s.committed = [0x61, ctl 'D'] ∧
      (s.reads.map (·.dst)).flatten <+: s.committed.filter (· ≠ ctl 'D') := by
  obtain ⟨s, hexec, htest⟩ : ∃ s, exec Console.step consoleAtBoot typedEof = some s ∧
      decide (s.reads = [⟨10, 1, [0x61]⟩, ⟨10, 0, []⟩] ∧
        s.committed = [0x61, ctl 'D']) = true :=
    exec_of_any (by decide +kernel)
  obtain ⟨hreads, hcommitted⟩ := of_decide_eq_true htest
  have hreach : Reachable Console.step Console.Initial s :=
    ⟨consoleAtBoot, typedEof, ⟨rfl, rfl, rfl, rfl, rfl, rfl, rfl⟩, hexec⟩
  exact ⟨s, hexec, hreads, hcommitted, (console_line_discipline hreach).2.2.2.2.1⟩

end Xv6Kernel
