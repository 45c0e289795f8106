import Xv6Kernel.CallsAlone
import Xv6Kernel.PathNames

/-!
# Path resolution

`namex` run alone against the fold of `dirlookup` over the elements of the path.  It panics if it
locks an inode that is free, or if it looks up an inode and the cache is full.
-/

namespace Xv6Kernel

open TraceExecution ThreadPrograms StateHoare Option Finset FileSystem

theorem findEntry_cons (de : Dirent) (rest : List Dirent) (name : Name) :
    findEntry (de :: rest) name = if de.inum ≠ 0 ∧ de.name = name then some (0, de.inum)
      else (findEntry rest name).map fun found => (found.1 + 1, found.2) := rfl

theorem findEntry_eq_some {entries : List Dirent} {name : Name} {off inum : ℕ}
    (h : findEntry entries name = some (off, inum)) :
    entries[off]? = some ⟨inum, name⟩ ∧ inum ≠ 0 := by
  induction entries generalizing off with
  | nil => simp [findEntry] at h
  | cons de rest ih =>
    rw [findEntry_cons] at h
    split_ifs at h with hde
    · simp only [some.injEq, Prod.mk.injEq] at h
      obtain ⟨rfl, rfl⟩ := h
      exact ⟨by simp [← hde.2], hde.1⟩
    · simp only [map_eq_some_iff] at h
      obtain ⟨found, hfound, heq⟩ := h
      cases heq
      exact ih hfound

def entryOf (d : ℕ → Dinode) (i : ℕ) (name : Name) : Option ℕ :=
  if (d i).type = .dir then (findEntry (d i).entries name).map Prod.snd else none

def resolve (d : ℕ → Dinode) (start : ℕ) (es : List Name) : Option ℕ := es.foldlM (entryOf d) start

def resolveParent (d : ℕ → Dinode) (start : ℕ) (es : List Name) : Option (ℕ × Name) := do
  let last ← es.getLast?
  let i ← resolve d start es.dropLast
  if (d i).type = .dir then some (i, last) else none

def target (parent : Bool) (d : ℕ → Dinode) (start : ℕ) (es : List Name) : Option (ℕ × Name) :=
  if parent then resolveParent d start es else (resolve d start es).map fun i => (i, [])

/-- What `namex` needs to go on: the inodes that it locks are allocated, and the cache has room for
the inodes that it looks up.  `R` has the inodes that are in use all the time. -/
def Passes (parent : Bool) (R : Finset ℕ) : (ℕ → Dinode) → ℕ → List Name → Prop
  | _, _, [] => True
  | d, i, name :: rest =>
      (d i).type ≠ .none ∧
        (¬ (parent ∧ rest = []) → ∀ j, entryOf d i name = some j →
          (j ∈ insert i R ∨ (insert i R).card < ninode) ∧
            Passes parent R (leave (insert j R) d i) j rest)

section Target

variable {parent : Bool} {d d' : ℕ → Dinode} {i : ℕ} {name : Name} {rest : List Name}

theorem target_nil : target parent d i [] = if parent then none else some (i, []) := by
  cases parent <;> rfl

theorem target_last (hdir : (d i).type = .dir) : target true d i [name] = some (i, name) := by
  simp [target, resolveParent, resolve, hdir]

theorem target_cons (hgo : ¬ (parent ∧ rest = [])) :
    target parent d i (name :: rest) = (entryOf d i name).bind fun j => target parent d j rest := by
  cases parent with
  | false =>
    simp only [target, resolve, List.foldlM_cons]
    cases entryOf d i name <;> rfl
  | true =>
    cases rest with
    | nil => exact absurd ⟨rfl, rfl⟩ hgo
    | cons next rest =>
      simp only [target, resolveParent, resolve, if_true, List.getLast?_cons_cons,
        List.dropLast_cons_cons, List.foldlM_cons]
      cases entryOf d i name with
      | none => cases (next :: rest).getLast? <;> rfl
      | some j => rfl

theorem target_of_notDir (hdir : (d i).type ≠ .dir) : target parent d i (name :: rest) = none := by
  by_cases hgo : parent ∧ rest = []
  · simp [target, resolveParent, resolve, hgo, hdir]
  · simp [target_cons hgo, entryOf, hdir]

theorem leave_or (R : Finset ℕ) (d : ℕ → Dinode) (i k : ℕ) :
    leave R d i k = d k ∨
      (d k).nlink = 0 ∧ k ∉ R ∧ leave R d i k = { d k with type := .none, entries := [] } := by
  unfold leave
  split_ifs with hfree
  · by_cases hk : k = i
    · subst hk
      exact .inr ⟨hfree.1, hfree.2, by simp⟩
    · simp [hk]
  · exact .inl rfl

theorem Passes.target {R : Finset ℕ} {es : List Name} (hp : Passes parent R d' i es)
    (hd : ∀ k, (d' k).type ≠ .none → d' k = d k) :
    target parent d' i es = target parent d i es := by
  induction es generalizing d d' i with
  | nil => rw [target_nil, target_nil]
  | cons name rest ih =>
    obtain ⟨hused, hnext⟩ := hp
    have hsame := hd i hused
    by_cases hgo : parent ∧ rest = []
    · obtain ⟨rfl, rfl⟩ := hgo
      simp [Xv6Kernel.target, resolveParent, resolve, hsame]
    · rw [target_cons hgo, target_cons hgo]
      have hentry : entryOf d' i name = entryOf d i name := by rw [entryOf, entryOf, hsame]
      cases hfound : entryOf d' i name with
      | none => rw [← hentry, hfound]; rfl
      | some j =>
        rw [← hentry, hfound, bind_some, bind_some]
        obtain ⟨-, hpass⟩ := hnext hgo j hfound
        have hleave : ∀ k, (leave (insert j R) d' i k).type ≠ .none →
            leave (insert j R) d' i k = d' k := by
          intro k hk
          rcases leave_or (insert j R) d' i k with hkeep | ⟨-, -, hgone⟩
          · exact hkeep
          · simp [hgone] at hk
        rw [← ih hpass hleave]
        exact ih hpass fun k hk => (hleave k hk).trans (hd k (hleave k hk ▸ hk))

end Target

/-- Only inodes that are neither linked nor in use have been freed. -/
def Freed (R : Finset ℕ) (d d' : ℕ → Dinode) : Prop :=
  ∀ k, d' k = d k ∨ (d k).nlink = 0 ∧ k ∉ R ∧ d' k = { d k with type := .none, entries := [] }

section Freed

variable {R : Finset ℕ} {d d' d'' : ℕ → Dinode}

theorem Freed.refl (R : Finset ℕ) (d : ℕ → Dinode) : Freed R d d := fun _ => .inl rfl

theorem Freed.trans (h : Freed R d d') (h' : Freed R d' d'') : Freed R d d'' := by
  intro k
  rcases h k with hkeep | ⟨hnlink, hout, hgone⟩
  · rw [← hkeep]
    exact h' k
  · refine .inr ⟨hnlink, hout, ?_⟩
    rcases h' k with hkeep | ⟨-, -, hgone'⟩
    · rw [hkeep, hgone]
    · rw [hgone', hgone]

theorem freed_leave {R' : Finset ℕ} (hR : R ⊆ R') (i : ℕ) : Freed R d (leave R' d i) := by
  intro k
  rcases leave_or R' d i k with hkeep | ⟨hnlink, hout, hgone⟩
  · exact .inl hkeep
  · exact .inr ⟨hnlink, fun hk => hout (hR hk), hgone⟩

end Freed

variable {P : Type} [Fintype P]

def refs (found : Option (ISlot × Name)) : ISlot → ℤ := refTo (found.map Prod.fst)

/-- `namex` has found what is asked for; `X` are the other references of the process. -/
structure Walked (p : P) (X : ISlot → ℤ) (s : FileSystem P) (goal : Option (ℕ × Name))
    (found : Option (ISlot × Name)) (t : FileSystem P) : Prop where
  order : InOrder p ∅ (X + refs found) t
  still : Still X s t
  freed : Freed (s.numbers X) s.dinode t.dinode
  result : found.map (fun r => ((t.icache r.1).inum, r.2)) = goal

variable [DecidableEq P] {p : P} {X : ISlot → ℤ} {s : FileSystem P} {ip : ISlot}

theorem ensures_walk (parent : Bool) (es : List Name) (h : InOrder p ∅ (X + one ip) s)
    (hX : ∀ e, 0 ≤ s.held e + X e) :
    Ensures (alone p (walk parent ip es)) s
      (fun found t => Passes parent (s.numbers X) s.dinode (s.icache ip).inum es ∧
        Walked p X s (target parent s.dinode (s.icache ip).inum es) found t)
      (fun _ => ¬ Passes parent (s.numbers X) s.dinode (s.icache ip).inum es) := by
  induction es generalizing s ip with
  | nil =>
    cases parent with
    | true =>
      simp only [walk, if_true, ensures_alone_bind, ensures_alone_pure]
      refine ensures_iput h (hX ip) (by simp) fun t order still dinode _ => ⟨trivial, ?_⟩
      refine ⟨by simpa [refs] using order, still, ?_, rfl⟩
      rw [dinode]
      split_ifs
      · exact freed_leave le_rfl _
      · exact .refl _ _
    | false => exact ⟨trivial, h, .refl X s, .refl _ _, rfl⟩
  | cons name rest ih =>
    have hmine : 0 < s.held ip + (X + one ip) ip := by
      have := hX ip
      simp only [Pi.add_apply, Pi.single_eq_same]
      omega
    simp only [walk, ensures_alone_bind]
    refine ensures_ilock h (by rwa [h.ref]) (by simp) (fun hfree hpass => hpass.1 hfree)
      fun t1 order1 still1 dinode1 hused => ensures_op_ok rfl ?_
    obtain ⟨hpos1, hvalid1⟩ := order1.locked ip (mem_insert_self ip ∅)
    have hinum1 : (t1.icache ip).inum = (s.icache ip).inum := still1.slots ip hmine
    have htype1 := (order1.loaded ip hpos1 hvalid1).type
    rw [hinum1, dinode1] at htype1
    have hX1 : ∀ e, 0 ≤ t1.held e + X e := by rwa [still1.held]
    have hstill1 : Still X s t1 := still1.mono (le_add_one X ip)
    generalize hi : (s.icache ip).inum = i at *
    simp only [htype1]
    split_ifs with hdir hlast
    · -- not a directory
      rw [ensures_alone_bind]
      refine ensures_iunlockput order1 (mem_insert_self ip ∅) (hX1 ip)
        fun t order still dinode => ?_
      rw [ensures_alone_pure]
      refine ⟨⟨hused, fun _ j hj => absurd hj (by simp [entryOf, hdir])⟩,
        by simpa [refs] using order, hstill1.trans still, ?_, (target_of_notDir hdir).symm⟩
      rw [dinode, dinode1, hstill1.numbers]
      exact freed_leave le_rfl _
    · -- one level early
      obtain ⟨rfl, rfl⟩ := hlast
      rw [ensures_alone_bind]
      refine ensures_iunlock order1 (mem_insert_self ip ∅) fun t order still dinode _ => ?_
      rw [ensures_alone_pure]
      refine ⟨⟨hused, fun hgo => absurd ⟨rfl, rfl⟩ hgo⟩, by simpa [refs] using order,
        hstill1.trans (still.mono (le_add_one X ip)), by rw [dinode, dinode1]; exact .refl _ _, ?_⟩
      rw [target_last (not_not.mp hdir), map_some, still.slots ip (by rwa [still1.held]), hinum1]
    · have hdir' := not_not.mp hdir
      have hnumbers1 : t1.numbers (X + one ip) = insert i (s.numbers X) := by
        rw [t1.numbers_add (hX1 ip), hinum1, hstill1.numbers]
      have hentries : t1.entriesAt ip = (s.dinode i).entries := by
        rw [entriesAt, hinum1, dinode1]
      rw [target_cons hlast]
      simp only [dirlookup, ensures_alone_bind]
      refine ensures_fsOp_ensure (r := findEntry (t1.entriesAt ip) name) (t := t1) rfl
        (fun hnot => absurd (htype1.trans hdir') hnot) fun _ => ?_
      rw [hentries]
      cases hfound : findEntry (s.dinode i).entries name with
      | none =>
        have hentry : entryOf s.dinode i name = none := by simp [entryOf, hfound]
        simp only [ensures_alone_pure, ensures_alone_bind]
        refine ensures_iunlockput order1 (mem_insert_self ip ∅) (hX1 ip)
          fun t order still dinode => ?_
        refine ⟨⟨hused, fun _ j hj => absurd hj (by simp [hentry])⟩, by simpa [refs] using order,
          hstill1.trans still, ?_, by rw [hentry]; rfl⟩
        rw [dinode, dinode1, hstill1.numbers]
        exact freed_leave le_rfl _
      | some found =>
        obtain ⟨off, j⟩ := found
        have hentry : entryOf s.dinode i name = some j := by simp [entryOf, hfound, hdir']
        simp only [ensures_alone_bind]
        refine ensures_iget order1 ((findEntry_eq_some hfound).2) ?_
          fun next t2 order2 still2 dinode2 hinum2 hroom _ => ?_
        · rw [hnumbers1]
          intro hout hfull hpass
          rcases (hpass.2 hlast j hentry).1 with hin | hlt
          · exact hout hin
          · omega
        · rw [hnumbers1] at hroom
          simp only [ensures_alone_pure, ensures_alone_bind]
          rw [add_right_comm] at order2
          have hheld2 : t2.held = s.held := by rw [still2.held, still1.held]
          have hstill2 : Still X s t2 := hstill1.trans (still2.mono (le_add_one X ip))
          have hY : ∀ e, 0 ≤ s.held e + (X + one next) e := by
            intro e
            have := hX e
            have := le_add_one X next e
            omega
          refine ensures_iunlockput order2 (mem_insert_self ip ∅) (by rw [hheld2]; exact hY ip)
            fun t3 order3 still3 dinode3 => ?_
          have hstill3 : Still X s t3 := hstill2.trans (still3.mono (le_add_one X next))
          have hinum3 : (t3.icache next).inum = j := by
            rw [still3.slots next, hinum2]
            have := hX next
            simp only [hheld2, Pi.add_apply, Pi.single_eq_same]
            omega
          have hdinode3 : t3.dinode = leave (insert j (s.numbers X)) s.dinode i := by
            rw [dinode3, t2.numbers_add (by rw [hheld2]; exact hX next), hinum2, hstill2.numbers,
              dinode2, dinode1, still2.slots ip (by rwa [still1.held]), hinum1]
          have hrest := ih (by simpa using order3) (by rwa [hstill3.held])
          rw [hinum3, hstill3.numbers, hdinode3] at hrest
          refine hrest.mono (fun found t hfound => ⟨⟨hused, ?_⟩, ?_⟩) ?_
          · rw [hentry]
            exact fun _ k hk => some.inj hk ▸ ⟨hroom, hfound.1⟩
          · obtain ⟨hpass, hwalked⟩ := hfound
            have hfreed := hwalked.freed
            rw [hstill3.numbers, hdinode3] at hfreed
            refine ⟨hwalked.order, hstill3.trans hwalked.still,
              (freed_leave (subset_insert j _) i).trans hfreed, ?_⟩
            rw [hwalked.result, hentry, bind_some]
            refine hpass.target fun k hk => ?_
            rcases leave_or (insert j (s.numbers X)) s.dinode i k with hkeep | ⟨-, -, hgone⟩
            · exact hkeep
            · simp [hgone] at hk
          · intro t hnot hpass
            exact hnot (hpass.2 hlast j hentry).2

def FileSystem.start (s : FileSystem P) (cwd : ISlot) (path : List Char) : ℕ :=
  if path.head? = some '/' then rootino else (s.icache cwd).inum

/-- `namex` can resolve the path if the inodes in `R` are in use. -/
def Resolvable (parent : Bool) (R : Finset ℕ) (s : FileSystem P) (cwd : ISlot) (path : List Char) :
    Prop :=
  (path.head? = some '/' → rootino ∈ R ∨ R.card < ninode) ∧
    Passes parent R s.dinode (s.start cwd path) (pathElements path)

omit [DecidableEq P] in
theorem FileSystem.held_cwd {cwd : ISlot} (hcwd : s.cwd p = some cwd) : 0 < s.held cwd := by
  have hmem : p ∈ univ.filter fun q => s.cwd q = some cwd := by simpa using hcwd
  have := card_pos.mpr ⟨p, hmem⟩
  unfold held
  omega

theorem ensures_namex (parent : Bool) (path : List Char) {cwd : ISlot} (h : InOrder p ∅ X s)
    (hX : ∀ e, 0 ≤ X e) (hcwd : s.cwd p = some cwd) :
    Ensures (alone p (namex path parent)) s
      (fun found t => Resolvable parent (s.numbers X) s cwd path ∧
        Walked p X s (target parent s.dinode (s.start cwd path) (pathElements path)) found t)
      (fun _ => ¬ Resolvable parent (s.numbers X) s cwd path) := by
  -- The walk from any slot that holds the first inode.
  have hwalk : ∀ ip t, InOrder p ∅ (X + one ip) t → Still X s t → t.dinode = s.dinode →
      (t.icache ip).inum = s.start cwd path →
      (path.head? = some '/' → rootino ∈ s.numbers X ∨ (s.numbers X).card < ninode) →
      Ensures (alone p (walk parent ip (elements path))) t
        (fun found u => Resolvable parent (s.numbers X) s cwd path ∧
          Walked p X s (target parent s.dinode (s.start cwd path) (pathElements path)) found u)
        (fun _ => ¬ Resolvable parent (s.numbers X) s cwd path) := by
    intro ip t order still dinode hinum hroom
    have hrest := ensures_walk parent (elements path) order (t.held_add hX)
    rw [still.numbers, dinode, hinum, elements_eq] at hrest
    rw [elements_eq]
    refine hrest.mono (fun found u hfound => ⟨⟨hroom, hfound.1⟩, ?_⟩)
      fun _ hnot hpass => hnot hpass.2
    obtain ⟨-, hwalked⟩ := hfound
    have hfreed := hwalked.freed
    rw [still.numbers, dinode] at hfreed
    exact ⟨hwalked.order, still.trans hwalked.still, hfreed, hwalked.result⟩
  rw [namex]
  split_ifs with hslash
  · rw [ensures_alone_bind]
    refine ensures_iget h (by decide) ?_ fun ip t order still dinode hinum hroom _ => ?_
    · intro hout hfull hpass
      rcases hpass.1 hslash with hin | hlt
      · exact hout hin
      · omega
    · exact hwalk ip t order still dinode (by simpa [start, hslash] using hinum) fun _ => hroom
  · simp only [ensures_alone_bind]
    refine ensures_op_ok (r := cwd) (t := s) (by simp [FsOp.run, awaitSome, hcwd]) ?_
    have hpos : 0 < (s.icache cwd).ref := by
      have := held_cwd hcwd
      have := hX cwd
      rw [h.ref]
      omega
    refine ensures_idup h hpos fun t order still dinode => ?_
    refine hwalk cwd t order still dinode ?_ fun habs => absurd habs hslash
    rw [still.slots cwd (by rw [← h.ref]; exact hpos), start, if_neg hslash]

def Answers (t : FileSystem P) (found : Option ISlot) (goal : Option ℕ) : Prop :=
  found.map (fun ip => (t.icache ip).inum) = goal ∧ ∀ ip ∈ found, 0 < (t.icache ip).ref

omit [DecidableEq P] in
theorem Walked.answers {goal : Option (ℕ × Name)} {found : Option (ISlot × Name)} {t : FileSystem P}
    (h : Walked p 0 s goal found t) : Answers t (found.map Prod.fst) (goal.map Prod.fst) := by
  rw [← h.result]
  refine ⟨by cases found <;> rfl, ?_⟩
  intro ip hip
  cases found with
  | none => simp at hip
  | some r =>
    have hr : r.1 = ip := by simpa using hip
    have := t.held_nonneg ip
    rw [h.order.ref ip]
    simp only [refs, zero_add, map_some, refTo_some, hr, Pi.single_eq_same]
    omega

/-- Run alone, `namei` and `nameiparent` find what the path stands for if, and only if, they can go
on to the end; and of the path only a slash in front and the elements matter. -/
theorem namex_resolves_iff {cwd : ISlot} (h : InOrder p ∅ 0 s) (hcwd : s.cwd p = some cwd)
    (path junk name : List Char) (hpath : nul ∉ path) :
    ((∃ found t, alone p (Raw.namei (path ++ nul :: junk) name) s = .ok found t ∧
        Answers t found (resolve s.dinode (s.start cwd path) (pathElements path))) ↔
      Resolvable false (s.numbers 0) s cwd path) ∧
    ((∃ found t, alone p (Raw.nameiparent (path ++ nul :: junk) name) s = .ok found t ∧
        Answers t (found.map Prod.fst) ((resolveParent s.dinode (s.start cwd path)
          (pathElements path)).map Prod.fst) ∧
        found.map (fun r => textOf dirsiz r.2) = (resolveParent s.dinode (s.start cwd path)
          (pathElements path)).map Prod.snd) ↔
      Resolvable true (s.numbers 0) s cwd path) ∧
    ∀ path' junk' name', nul ∉ path' → (path'.head? = some '/' ↔ path.head? = some '/') →
      pathElements path' = pathElements path →
      Raw.namei (path' ++ nul :: junk') name' = Raw.namei (path ++ nul :: junk) name ∧
      (do return Raw.answer true (← Raw.nameiparent (path' ++ nul :: junk') name')) =
        (do return Raw.answer true (← Raw.nameiparent (path ++ nul :: junk) name)) := by
  refine ⟨?_, ?_, ?_⟩
  · rw [Raw.namei_eq hpath]
    refine Ensures.ok_iff ?_
    rw [namei, ensures_alone_bind]
    refine (ensures_namex false path h (fun _ => le_rfl) hcwd).post fun found t hfound => ?_
    exact ⟨hfound.1, by simpa [target, Function.comp_def] using hfound.2.answers⟩
  · refine Ensures.ok_iff ?_
    have hnamex := ensures_namex true path h (fun _ => le_rfl) hcwd
    rw [← Raw.namex_eq true hpath junk name, ensures_alone_bind] at hnamex
    refine hnamex.post fun found t hfound => ⟨hfound.1, ?_, ?_⟩
    · have hanswers := hfound.2.answers
      rwa [Raw.answer, Option.map_map] at hanswers
    · have hresult := congrArg (Option.map Prod.snd) hfound.2.result
      rw [Raw.answer, Option.map_map, Option.map_map] at hresult
      exact hresult
  · intro path' junk' name' hpath' hslash hes
    have hnamex : ∀ parent, namex path' parent = namex path parent := by
      intro parent
      simp only [namex, hslash, elements_eq, hes]
    refine ⟨?_, ?_⟩
    · rw [Raw.namei_eq hpath', Raw.namei_eq hpath, namei, namei, hnamex]
    · exact (Raw.namex_eq true hpath' junk' name').trans
        ((hnamex true).trans (Raw.namex_eq true hpath junk name).symm)

/-- The first program is there. -/
def initFs : FileSystem Unit :=
  ((bootFs Unit).setDinode rootino fun dip =>
    { dip with entries := dip.entries ++ [⟨2, "init".toList⟩] }).setDinode 2 fun _ =>
      ⟨.file, 0, 0, 1, []⟩

theorem initFs_inOrder : InOrder () ∅ 0 initFs := by
  have hvalid : ∀ e, ((bootFs Unit).icache e).valid = false := by decide +kernel
  refine ((bootFs_inOrder ()).setDinode _ ?_).setDinode _ ?_
  · exact fun e _ hv => absurd hv (by rw [hvalid]; decide)
  · exact fun e _ hv => absurd hv (by rw [FileSystem.setDinode_icache, hvalid]; decide)

theorem namex_init_resolves :
    InOrder () ∅ 0 initFs ∧
      (∃ found t, alone () (Raw.namei ("/init".toList ++ [nul]) []) initFs = .ok found t ∧
        Answers t found (some 2)) ∧
      ∃ found t, alone () (Raw.nameiparent ("/init".toList ++ [nul]) []) initFs = .ok found t ∧
        Answers t (found.map Prod.fst) (some rootino) ∧
        found.map (fun r => textOf dirsiz r.2) = some "init".toList := by
  have hcwd : initFs.cwd () = some 0 := rfl
  have hroot : ∀ parent, Resolvable parent (initFs.numbers 0) initFs 0 "/init".toList := by
    have hes : pathElements "/init".toList = ["init".toList] := by decide +kernel
    refine fun parent => ⟨fun _ => by decide +kernel, ?_⟩
    rw [hes]
    exact ⟨by decide, fun _ j _ => ⟨.inr (by decide +kernel), trivial⟩⟩
  obtain ⟨hnamei, hparent, -⟩ :=
    namex_resolves_iff initFs_inOrder hcwd "/init".toList [] [] (by decide)
  exact ⟨initFs_inOrder, hnamei.mpr (hroot false), hparent.mpr (hroot true)⟩

/-- A working directory can outlive its parent, and then its entry `..` is that of a free inode. -/
theorem namei_through_removed_parent :
    (match (do
        calls [((), .mkdir "a".toList), ((), .mkdir "a/b".toList), ((), .chdir "a/b".toList),
          ((), .unlink "../b".toList), ((), .unlink "/a".toList)]
        alone () (Raw.namei ("../x".toList ++ [nul]) [])) (bootFs Unit) with
      | .ok _ _ => none
      | .error stop _ => some stop) = some (.panic "ilock: no type") := by
  decide +kernel

end Xv6Kernel
