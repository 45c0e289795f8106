import Xv6Kernel.ProgramLoading

/-!
# The arguments of a program

The stack pointer starts at the end of the last page and goes down by the strings and the calling
frame.  What stops it is the page below, which `copyout` cannot write.  A string may be so long that
the pointer wraps around; then it points to the kernel, or to where not even the kernel has a page.
-/

namespace Xv6Kernel.Vm

open TraceExecution StateHoare List CString

def byteAt (page : ℕ → ℕ) (a : ℕ) : ℕ := page (a / 4) / 256 ^ (a % 4) % 256

theorem digits (x : ℕ → ℕ) (hx : ∀ b, x b < 256) {b : ℕ} (hb : b < 4) :
    (x 0 + 256 * x 1 + 256 ^ 2 * x 2 + 256 ^ 3 * x 3) / 256 ^ b % 256 = x b := by
  have h₀ := hx 0
  have h₁ := hx 1
  have h₂ := hx 2
  have h₃ := hx 3
  interval_cases b <;> omega

theorem byteAt_overwrite {byte : ℕ → ℕ} (hbyte : ∀ i, byte i < 256) (page : ℕ → ℕ) (off n a : ℕ) :
    byteAt (overwrite page off n byte) a =
      if off ≤ a ∧ a < off + n then byte (a - off) else byteAt page a := by
  rw [byteAt]
  simp only [overwrite]
  rw [digits (fun b => if off ≤ 4 * (a / 4) + b ∧ 4 * (a / 4) + b < off + n then
    byte (4 * (a / 4) + b - off) else page (a / 4) / 256 ^ b % 256) ?_ (Nat.mod_lt a (by decide))]
  · rw [Nat.div_add_mod, byteAt]
  · intro b
    split_ifs
    · exact hbyte _
    · exact Nat.mod_lt _ (by decide)

theorem overwrite_words {words : List ℕ} (hwords : ∀ w ∈ words, w < 2 ^ 32) (page : ℕ → ℕ)
    (j : ℕ) {i w : ℕ} (hi : words[i]? = some w) :
    overwrite page (4 * j) (4 * words.length) (wordBytes words) (j + i) = w := by
  have hlt : i < words.length := (List.getElem?_eq_some_iff.mp hi).1
  have hw : w < 2 ^ 32 := hwords w (mem_of_getElem? hi)
  have hget : words.getD i 0 = w := by simp [hi]
  have hpart : ∀ b < 4, (if 4 * j ≤ 4 * (j + i) + b ∧
      4 * (j + i) + b < 4 * j + 4 * words.length then
      wordBytes words (4 * (j + i) + b - 4 * j) else page (j + i) / 256 ^ b % 256) =
      w / 256 ^ b % 256 := by
    intro b hb
    rw [if_pos (by omega), wordBytes, show 4 * (j + i) + b - 4 * j = 4 * i + b by omega,
      show (4 * i + b) / 4 = i by omega, show (4 * i + b) % 4 = b by omega, hget]
  simp only [overwrite]
  rw [hpart 0 (by decide), hpart 1 (by decide), hpart 2 (by decide), hpart 3 (by decide)]
  omega

variable {k : KernelImage} {m m' : PhysMem} {o o' : ℕ → Role} {l l' : List ℕ} {sp esp : ℕ}
  {blocks : List (ℕ × CString)} {argv : List CString} {page : ℕ → ℕ}
variable {d sz va len w : ℕ} {byte : ℕ → ℕ} {null : Mem ℕ} {stop : Stop}
variable {Q : Bool → PhysMem → Prop} {E : PhysMem → Prop}

theorem copyout_found {t j : ℕ} (hlen : 0 < len) (hwalk : walk m d (va / 4096) = some (t, j)) :
    Ensures (copyout null d va len byte) m Q E ↔
      if pteP (m.word t j) && pteU (m.word t j) then
        Ensures (memmove (pteAddr (m.word t j)) (va % 4096) (min (4096 - va % 4096) len) byte) m
          (fun _ m' => Ensures (copyout null d (uadd (va / 4096 * 4096) 4096)
            (len - min (4096 - va % 4096) len) fun i => byte (i + min (4096 - va % 4096) len))
              m' Q E) E
      else Q false m := by
  rw [copyout, if_pos hlen]
  simp only [uva2ka, ensures_bind, walkpgdir_ensures, hwalk, readPte, ensures_get, ensures_pure]
  split_ifs
  · simp only [ensures_pure, ensures_bind]
  · simp only [ensures_pure]

theorem copyout_missing (hlen : 0 < len) (hwalk : walk m d (va / 4096) = none) :
    Ensures (copyout (throw stop) d va len byte) m Q E ↔ E m := by
  rw [copyout, if_pos hlen]
  simp only [uva2ka, ensures_bind, walkpgdir_ensures, hwalk, readPte, ensures_throw]

section Image

variable (hs : Stacked k d sz m o m' o' l') (ho : Owned k m o l)

include hs

theorem Stacked.size_le : sz < kernbase ∧ sz = 4096 * (sz / 4096) ∧ 2 ≤ sz / 4096 := by
  have := hs.size
  have := hs.aligned
  have := hs.two
  omega

theorem Stacked.page_lt : sz / 4096 - 1 < kernpage := by
  have hbase := hs.size
  have hkern : kernpage = 524288 := rfl
  rw [kernbase] at hbase
  omega

theorem Stacked.copyout_inside (hstack : pteOf m' d (sz / 4096 - 1) = some w) (hlen : 0 < len)
    (hlow : sz ≤ va + 4096) (hhigh : va + len ≤ sz)
    (hQ : Q true (m'.fill (pteAddr w) (overwrite (m'.word (pteAddr w)) (va % 4096) len byte))) :
    Ensures (copyout null d va len byte) m' Q E := by
  obtain ⟨-, hpages, htwo⟩ := hs.size_le
  have hpage : va / 4096 = sz / 4096 - 1 := by omega
  obtain ⟨hwalk, hw⟩ := walk_of_pteOf hstack
  rw [← hpage] at hwalk hw
  obtain ⟨w', hpte, huser⟩ := hs.stack
  obtain rfl : w = w' := Option.some_inj.mp (hstack.symm.trans hpte)
  have hframe := hs.owned.frame_of_pte hs.dir hs.page_lt hstack
  have husable := hs.owned.usable (pteAddr w) (by simp [hframe])
  have hpresent := (pteOf_eq_some.mp hstack).2.2.1
  rw [copyout_found hlen hwalk, hw, hpresent, huser, Bool.and_self, if_pos rfl, memmove,
    if_pos husable.2, ensures_modify, Nat.min_eq_right (by omega), copyout, if_neg (by omega)]
  exact hQ

include ho

theorem Stacked.copyout_below (hlen : 0 < len) (hlow : va + 4096 < sz)
    (hhigh : sz < va + len + 2 * 4096) (hQ : ∀ m'', Stacked k d sz m o m'' o' l' → Q false m'') :
    Ensures (copyout null d va len byte) m' Q E := by
  obtain ⟨hbase, hpages, htwo⟩ := hs.size_le
  have hkern : kernpage = 524288 := rfl
  rw [kernbase] at hbase
  obtain ⟨n, hn⟩ : ∃ n, va / 4096 + n = sz / 4096 - 2 := ⟨sz / 4096 - 2 - va / 4096, by omega⟩
  induction n generalizing va len byte m' with
  | zero =>
    obtain ⟨w, hpte, huser⟩ := hs.guard
    obtain ⟨hwalk, hw⟩ := walk_of_pteOf hpte
    rw [← hn] at hwalk hw
    rw [copyout_found hlen hwalk, hw, huser, Bool.and_false]
    exact hQ m' hs
  | succ n ih =>
    have hin : va / 4096 < pgroundup sz := by
      rw [pgroundup]
      omega
    obtain ⟨w, hpte⟩ := Option.isSome_iff_exists.mp ((hs.user (va / 4096) (by omega)).mpr hin)
    obtain ⟨hwalk, hw⟩ := walk_of_pteOf hpte
    have hframe := hs.owned.frame_of_pte hs.dir (by omega) hpte
    have husable := hs.owned.usable (pteAddr w) (by simp [hframe])
    have hnext : uadd (va / 4096 * 4096) 4096 = (va / 4096 + 1) * 4096 := by
      rw [uadd]
      omega
    rw [copyout_found hlen hwalk, hw]
    split_ifs
    · rw [memmove, if_pos husable.2, ensures_modify, hnext]
      exact ih (hs.fill ho hframe _) (by omega) (by omega) (by omega) (by omega)
    · exact hQ m' hs

omit ho

theorem Stacked.copyout_kernel (hlen : 0 < len) (hlow : kernbase ≤ va) (hhigh : va < 2 ^ 32)
    (hnull : va < 0x8E000000 ∨ 0xFE000000 ≤ va ∨ null = throw stop)
    (hQ : va < 0x8E000000 ∨ 0xFE000000 ≤ va → Q false m')
    (hE : 0x8E000000 ≤ va → va < 0xFE000000 → E m') :
    Ensures (copyout null d va len byte) m' Q E := by
  rw [kernbase] at hlow
  have hpde := hs.tables (va / 4096 / 1024) (by omega) (by omega)
  by_cases hgap : va < 0x8E000000 ∨ 0xFE000000 ≤ va
  · have hpresent := hpde.mpr (by omega)
    have hwalk : walk m' d (va / 4096) = some (_, _) := if_pos hpresent
    have htable := hs.owned.tables d _ _ hs.dir (by omega) hpresent
    have huser := hs.owned.kernel _ d _ (va / 4096 % 1024) htable (by omega)
    rw [copyout_found hlen hwalk, huser, Bool.and_false]
    exact hQ hgap
  · have hnone : walk m' d (va / 4096) = none := if_neg (mt hpde.mp (by omega))
    obtain rfl : null = throw stop := by
      rcases hnull with hin | hin | hstop
      · exact absurd (.inl hin) hgap
      · exact absurd (.inr hin) hgap
      · exact hstop
    rw [copyout_missing hlen hnone]
    exact hE (by omega) (by omega)

end Image

def CString.room (arg : CString) : ℕ := (arg.bytes.length + 4) / 4 * 4

theorem CString.below_cases (arg : CString) (haligned : sp % 4 = 0) (hlow : 4096 ≤ sp)
    (hhigh : sp < kernbase) : arg.below sp + arg.room = sp ∨
      sp < arg.room ∧ kernbase ≤ arg.below sp ∧ arg.below sp < 2 ^ 32 := by
  have hends := arg.ends
  rw [kernbase] at hhigh hends ⊢
  rw [below, room, usub]
  omega

/-- The strings above the stack pointer, with their addresses. -/
structure Pushed (page : ℕ → ℕ) (sz sp : ℕ) (blocks : List (ℕ × CString)) : Prop where
  low : sz ≤ sp + 4096
  used : sp + (blocks.map fun b => b.2.room).sum = sz
  aligned : sp % 4 = 0
  above : ∀ b ∈ blocks, sp ≤ b.1 ∧ b.1 % 4 = 0 ∧ b.1 + (b.2.bytes.length + 1) ≤ sz ∧
    ∀ i ≤ b.2.bytes.length, byteAt page ((b.1 + i) % 4096) = bytesOf b.2.bytes i
  apart : blocks.Pairwise fun a b => b.1 + (b.2.bytes.length + 1) ≤ a.1

theorem Pushed.bytes_kept {n : ℕ} (hp : Pushed page sz sp blocks) (hsz : sz % 4096 = 0)
    (hbyte : ∀ i, byte i < 256) (hlow : sz ≤ esp + 4096) (hend : esp + n ≤ sp) {b : ℕ × CString}
    (hb : b ∈ blocks) {i : ℕ} (hi : i ≤ b.2.bytes.length) :
    byteAt (overwrite page (esp % 4096) n byte) ((b.1 + i) % 4096) = bytesOf b.2.bytes i := by
  obtain ⟨hsp, -, hhigh, hbytes⟩ := hp.above b hb
  rw [byteAt_overwrite hbyte, if_neg (by omega), hbytes i hi]

theorem Pushed.push {arg : CString} (hp : Pushed page sz sp blocks) (hsz : sz % 4096 = 0)
    (hsp : arg.below sp + arg.room = sp) (hlow : sz ≤ arg.below sp + 4096) :
    Pushed (overwrite page (arg.below sp % 4096) (arg.bytes.length + 1) (bytesOf arg.bytes)) sz
      (arg.below sp) (blocks ++ [(arg.below sp, arg)]) := by
  have hlt : ∀ i, bytesOf arg.bytes i < 256 := fun i => UInt8.toNat_lt _
  have hused := hp.used
  have haligned : arg.below sp % 4 = 0 := by
    rw [below]
    omega
  have hend : arg.below sp + (arg.bytes.length + 1) ≤ sp := by
    rw [room] at hsp
    omega
  refine ⟨hlow, by simp; omega, haligned, ?_, ?_⟩
  · intro b hb
    rcases mem_append.mp hb with hold | hnew
    · obtain ⟨hspb, hal, hhigh, -⟩ := hp.above b hold
      exact ⟨by omega, hal, hhigh, fun i hi => hp.bytes_kept hsz hlt hlow hend hold hi⟩
    · obtain rfl := mem_singleton.mp hnew
      refine ⟨le_rfl, haligned, by simp only; omega, fun i hi => ?_⟩
      simp only at hi ⊢
      rw [byteAt_overwrite hlt, if_pos (by omega)]
      congr 1
      omega
  · refine pairwise_append.mpr ⟨hp.apart, pairwise_singleton _ _, fun b hb b' hb' => ?_⟩
    obtain rfl := mem_singleton.mp hb'
    exact hend.trans (hp.above b hb).1

/-- The first string that is not in the stack page is not where the kernel has no tables. -/
def NoGap (sz : ℕ) : List CString → ℕ → Prop
  | [], _ => True
  | arg :: rest, sp =>
      if sz ≤ arg.below sp + 4096 ∧ arg.below sp < sz then NoGap sz rest (arg.below sp)
      else arg.below sp < 0x8E000000 ∨ 0xFE000000 ≤ arg.below sp

theorem pushArgs_spec {rest : List CString} (hs : Stacked k d sz m o m' o' l') (ho : Owned k m o l)
    (hstack : pteOf m' d (sz / 4096 - 1) = some w) (hp : Pushed (m'.word (pteAddr w)) sz sp blocks)
    (hcount : blocks.length ≤ maxarg)
    (hnull : NoGap sz (rest.take (maxarg - blocks.length)) sp ∨ null = throw stop) :
    Ensures (pushArgs null d rest (blocks.map Prod.fst) sp) m'
      (fun r m'' => NoGap sz (rest.take (maxarg - blocks.length)) sp ∧
        Stacked k d sz m o m'' o' l' ∧ ∀ args sp', r = some (args, sp') →
          pteOf m'' d (sz / 4096 - 1) = some w ∧ ∃ blocks', args = blocks'.map Prod.fst ∧
            blocks'.map Prod.snd = blocks.map Prod.snd ++ rest ∧ blocks'.length ≤ maxarg ∧
            Pushed (m''.word (pteAddr w)) sz sp' blocks')
      fun _ => ¬ NoGap sz (rest.take (maxarg - blocks.length)) sp := by
  induction rest generalizing m' sp blocks with
  | nil =>
    refine ⟨by simp [NoGap], hs, fun args sp' hr => ⟨hstack, blocks, ?_⟩⟩
    obtain ⟨rfl, rfl⟩ : _ = args ∧ _ = sp' := by simpa using hr
    exact ⟨rfl, by simp, hcount, hp⟩
  | cons arg rest ih =>
    rw [pushArgs, length_map]
    by_cases hmax : blocks.length ≥ maxarg
    · rw [if_pos hmax, Nat.sub_eq_zero_of_le hmax]
      exact ⟨trivial, hs, by simp⟩
    rw [if_neg hmax]
    obtain ⟨n, hn⟩ : ∃ n, maxarg - blocks.length = n + 1 := ⟨maxarg - blocks.length - 1, by omega⟩
    rw [hn, take_succ_cons, NoGap] at hnull ⊢
    obtain ⟨hbase, hpages, htwo⟩ := hs.size_le
    have hlow := hp.low
    have hused := hp.used
    rw [ensures_bind]
    rcases arg.below_cases hp.aligned (by omega) (by omega) with hbelow | ⟨hwrap, hkern, hlt⟩
    · by_cases hin : sz ≤ arg.below sp + 4096
      · have hpos : 0 < arg.room := by
          rw [room]
          omega
        have hfits : arg.below sp + (arg.bytes.length + 1) ≤ sz := by
          rw [room] at hbelow
          omega
        rw [if_pos ⟨hin, by omega⟩] at hnull ⊢
        refine hs.copyout_inside hstack (Nat.succ_pos _) hin hfits ?_
        have hframe := hs.owned.frame_of_pte hs.dir hs.page_lt hstack
        have hnext := hp.push hs.aligned hbelow hin
        have hlength : maxarg - (blocks ++ [(arg.below sp, arg)]).length = n := by
          simp
          omega
        have hrest := ih (hs.fill ho hframe
          (overwrite (m'.word (pteAddr w)) (arg.below sp % 4096) (arg.bytes.length + 1)
            (bytesOf arg.bytes)))
          (by rw [hs.owned.pteOf_fill hs.dir hframe]; exact hstack)
          (by simpa using hnext) (by simp; omega) (by rw [hlength]; exact hnull)
        rw [hlength] at hrest
        simpa using hrest
      · rw [if_neg fun h => hin h.1] at hnull ⊢
        refine hs.copyout_below ho (Nat.succ_pos _) (by omega) ?_ fun m'' hs'' => ?_
        · rw [room] at hbelow
          omega
        · rw [kernbase] at hbase
          exact ⟨.inl (by omega), hs'', by simp⟩
    · rw [if_neg (by omega)] at hnull ⊢
      have hnull' := or_assoc.mp hnull
      refine hs.copyout_kernel (Nat.succ_pos _) hkern hlt hnull' ?_ fun _ _ => by omega
      exact fun hgap => ⟨hgap, hs, by simp⟩

/-! ## The calling frame -/

/-- The word and the byte at an address of the address space `d`. -/
def userWord (m : PhysMem) (d a : ℕ) : Option ℕ :=
  (pteOf m d (a / 4096)).map fun w => m.word (pteAddr w) (a % 4096 / 4)

def userByte (m : PhysMem) (d a : ℕ) : Option ℕ :=
  (userWord m d a).map fun word => word / 256 ^ (a % 4) % 256

/-- What a program finds at its stack pointer: the words of the frame, and the strings. -/
def CallFrame (m : PhysMem) (d sz esp : ℕ) (argv : List CString) : Prop :=
  ∃ blocks : List (ℕ × CString), blocks.map Prod.snd = argv ∧
    (∀ i word, ([0xffffffff, argv.length, esp + 12] ++ blocks.map Prod.fst ++ [0])[i]? = some word →
      userWord m d (esp + 4 * i) = some word) ∧
    (∀ b ∈ blocks, b.1 % 4 = 0 ∧ ∀ i ≤ b.2.bytes.length,
      userByte m d (b.1 + i) = some (bytesOf b.2.bytes i)) ∧
    let ranges :=
      blocks.map (fun b => (b.1, b.2.bytes.length + 1)) ++ [(esp, 4 * (argv.length + 4))]
    ranges.Pairwise (fun a b => b.1 + b.2 ≤ a.1) ∧
      ∀ r ∈ ranges, sz - 4096 ≤ r.1 ∧ r.1 + r.2 ≤ sz

def frameSize (argv : List CString) : ℕ := (argv.map CString.room).sum + 4 * (argv.length + 4)

theorem userWord_top {a : ℕ} (hs : Stacked k d sz m o m' o' l')
    (hstack : pteOf m' d (sz / 4096 - 1) = some w) (hlow : sz ≤ a + 4096) (hhigh : a < sz) :
    userWord m' d a = some (m'.word (pteAddr w) (a % 4096 / 4)) := by
  obtain ⟨-, hpages, htwo⟩ := hs.size_le
  rw [userWord, show a / 4096 = sz / 4096 - 1 by omega, hstack, Option.map_some]

theorem userByte_top {a : ℕ} (hs : Stacked k d sz m o m' o' l')
    (hstack : pteOf m' d (sz / 4096 - 1) = some w) (hlow : sz ≤ a + 4096) (hhigh : a < sz) :
    userByte m' d a = some (byteAt (m'.word (pteAddr w)) (a % 4096)) := by
  rw [userByte, userWord_top hs hstack hlow hhigh, Option.map_some, byteAt,
    show a % 4096 % 4 = a % 4 by omega]

theorem Pushed.callFrame
    (hp : Pushed page sz sp blocks) (hs : Stacked k d sz m o m' o' l')
    (hstack : pteOf m' d (sz / 4096 - 1) = some w) (hesp : esp + 4 * (blocks.length + 4) = sp)
    (hlow : sz ≤ esp + 4096)
    (hpage : m'.word (pteAddr w) = overwrite page (esp % 4096) (4 * (blocks.length + 4))
      (wordBytes (ustack (blocks.map Prod.fst) sp))) :
    CallFrame m' d sz esp (blocks.map Prod.snd) := by
  obtain ⟨hbase, hpages, htwo⟩ := hs.size_le
  rw [kernbase] at hbase
  have hused := hp.used
  have haligned := hp.aligned
  have hwords : ustack (blocks.map Prod.fst) sp =
      [0xffffffff, blocks.length, esp + 12] ++ blocks.map Prod.fst ++ [0] := by
    rw [ustack, usub, length_map, show (sp + 2 ^ 32 - (blocks.length + 1) * 4) % 2 ^ 32 =
      esp + 12 by omega]
  refine ⟨blocks, rfl, ?_, ?_, ?_, ?_⟩
  · intro i word hi
    rw [length_map, ← hwords] at hi
    have hlength : (ustack (blocks.map Prod.fst) sp).length = blocks.length + 4 := by
      rw [hwords]
      simp
    have hlt := (List.getElem?_eq_some_iff.mp hi).1
    have hsmall : ∀ x ∈ ustack (blocks.map Prod.fst) sp, x < 2 ^ 32 := by
      intro x hx
      rw [hwords] at hx
      simp only [cons_append, nil_append, mem_cons, mem_append, mem_map,
        not_mem_nil, or_false] at hx
      rcases hx with rfl | rfl | rfl | ⟨b, hb, rfl⟩ | rfl
      · decide
      · omega
      · omega
      · have := (hp.above b hb).2.2.1
        omega
      · decide
    rw [userWord_top hs hstack (by omega) (by omega), hpage, ← hlength,
      show (esp + 4 * i) % 4096 / 4 = esp % 4096 / 4 + i by omega,
      show esp % 4096 = 4 * (esp % 4096 / 4) by omega]
    rw [show 4 * (esp % 4096 / 4) / 4 = esp % 4096 / 4 by omega]
    exact congrArg some (overwrite_words hsmall page (esp % 4096 / 4) hi)
  · intro b hb
    obtain ⟨hsp, hal, hhigh, -⟩ := hp.above b hb
    refine ⟨hal, fun i hi => ?_⟩
    have hlt : ∀ j, wordBytes (ustack (blocks.map Prod.fst) sp) j < 256 :=
      fun _ => Nat.mod_lt _ (by decide)
    rw [userByte_top hs hstack (by omega) (by omega), hpage,
      hp.bytes_kept hs.aligned hlt hlow hesp.le hb hi]
  · refine pairwise_append.mpr ⟨pairwise_map.mpr hp.apart, pairwise_singleton _ _, ?_⟩
    intro r hr r' hr'
    obtain ⟨b, hb, rfl⟩ := mem_map.mp hr
    obtain rfl := mem_singleton.mp hr'
    rw [length_map]
    exact hesp.le.trans (hp.above b hb).1
  · intro r hr
    rcases mem_append.mp hr with hold | hnew
    · obtain ⟨b, hb, rfl⟩ := mem_map.mp hold
      obtain ⟨hsp, -, hhigh, -⟩ := hp.above b hb
      exact ⟨by simp only; omega, hhigh⟩
    · obtain rfl := mem_singleton.mp hnew
      rw [length_map]
      exact ⟨by simp only; omega, by simp only; omega⟩

theorem pushFrame_spec (hs : Stacked k d sz m o m' o' l')
    (ho : Owned k m o l) (hnull : NoGap sz (argv.take maxarg) sz ∨ null = throw stop) :
    Ensures (pushFrame null d argv sz) m' (fun r m'' => NoGap sz (argv.take maxarg) sz ∧
        Stacked k d sz m o m'' o' l' ∧ ∀ esp, r = some esp → frameSize argv ≤ 4096 ∧
          CallFrame m'' d sz esp argv)
      fun _ => ¬ NoGap sz (argv.take maxarg) sz := by
  obtain ⟨hbase, hpages, htwo⟩ := hs.size_le
  obtain ⟨w, hstack, -⟩ := hs.stack
  have hstart : Pushed (m'.word (pteAddr w)) sz sz [] :=
    ⟨by omega, by simp, by omega, by simp, .nil⟩
  rw [pushFrame]
  refine (pushArgs_spec hs ho hstack hstart (Nat.zero_le _) hnull).bind ?_
  rintro (_ | ⟨args, sp⟩) m₁ ⟨hgap, hs₁, hpost⟩
  · exact ⟨hgap, hs₁, by simp⟩
  obtain ⟨hstack₁, blocks, rfl, hargv, hcount, hp⟩ := hpost args sp rfl
  rw [map_nil, nil_append] at hargv
  have hlow := hp.low
  have hused := hp.used
  have hmax : maxarg = 32 := rfl
  have hroom : (argv.map room).sum = (blocks.map fun b => b.2.room).sum := by
    rw [← hargv, map_map]
    rfl
  have hlength : argv.length = blocks.length := by rw [← hargv, length_map]
  rw [kernbase] at hbase
  simp only [length_map, show (3 + blocks.length + 1) * 4 = 4 * (blocks.length + 4) by omega]
  have hesp : usub sp (4 * (blocks.length + 4)) + 4 * (blocks.length + 4) = sp := by
    rw [usub]
    omega
  generalize usub sp (4 * (blocks.length + 4)) = esp at hesp ⊢
  rw [ensures_bind]
  by_cases hin : sz ≤ esp + 4096
  · refine hs₁.copyout_inside hstack₁ (by omega) hin (by omega) ?_
    have hframe := hs₁.owned.frame_of_pte hs₁.dir hs₁.page_lt hstack₁
    have hs₂ := hs₁.fill ho hframe (overwrite (m₁.word (pteAddr w)) (esp % 4096)
      (4 * (blocks.length + 4)) (wordBytes (ustack (blocks.map Prod.fst) sp)))
    refine ⟨hgap, hs₂, fun esp' hr => ?_⟩
    obtain rfl : esp = esp' := by simpa using hr
    refine ⟨by rw [frameSize, hroom, hlength]; omega, ?_⟩
    rw [← hs₁.owned.pteOf_fill hs₁.dir hframe] at hstack₁
    rw [← hargv]
    exact hp.callFrame hs₂ hstack₁ hesp hin (by simp)
  · refine hs₁.copyout_below ho (by omega) (by omega) (by omega) fun m₂ hs₂ => ?_
    exact ⟨hgap, hs₂, by simp⟩

theorem pushFrame_clean (hs : Stacked k d sz m o m' o' l')
    (ho : Owned k m o l) (hgap : NoGap sz (argv.take maxarg) sz) (null : Mem ℕ) :
    Ensures (pushFrame null d argv sz) m' (fun r m'' => Stacked k d sz m o m'' o' l' ∧
      ∀ esp, r = some esp → frameSize argv ≤ 4096 ∧ CallFrame m'' d sz esp argv)
      fun _ => False := by
  have hnull : NoGap sz (argv.take maxarg) sz ∨ null = throw .blocked := .inl hgap
  exact (pushFrame_spec hs ho hnull).mono (fun _ _ h => h.2) fun _ hnot => hnot hgap

/-! Arguments that fit are copied, and no lookup fails. -/

theorem Stacked.copyout_eq (hs : Stacked k d sz m o m' o' l')
    (hstack : pteOf m' d (sz / 4096 - 1) = some w) (hlen : 0 < len) (hlow : sz ≤ va + 4096)
    (hhigh : va + len ≤ sz) (null : Mem ℕ) (byte : ℕ → ℕ) : copyout null d va len byte m' =
      .ok true (m'.fill (pteAddr w) (overwrite (m'.word (pteAddr w)) (va % 4096) len byte)) :=
  Ensures.eq_ok (hs.copyout_inside hstack hlen hlow hhigh ⟨rfl, rfl⟩)

theorem pushArgs_fits (rest : List CString) {args : List ℕ}
    (hs : Stacked k d sz m o m' o' l') (ho : Owned k m o l)
    (hstack : pteOf m' d (sz / 4096 - 1) = some w) (haligned : sp % 4 = 0) (hhigh : sp ≤ sz)
    (hfits : sz + (rest.map room).sum ≤ sp + 4096) (hcount : args.length + rest.length ≤ maxarg) :
    ∃ args' sp' m'', (∀ null, pushArgs null d rest args sp m' = .ok (some (args', sp')) m'') ∧
      args'.length = args.length + rest.length ∧ sp' + (rest.map room).sum = sp ∧
      Stacked k d sz m o m'' o' l' ∧ pteOf m'' d (sz / 4096 - 1) = some w := by
  induction rest generalizing m' sp args with
  | nil => exact ⟨args, sp, m', fun _ => rfl, rfl, rfl, hs, hstack⟩
  | cons arg rest ih =>
    obtain ⟨hbase, hpages, htwo⟩ := hs.size_le
    rw [map_cons, sum_cons] at hfits
    rw [length_cons] at hcount
    have hbelow : arg.below sp + arg.room = sp := by
      rcases arg.below_cases haligned (by omega) (by omega) with hbelow | ⟨hwrap, -⟩
      · exact hbelow
      · omega
    have hroom : arg.bytes.length + 1 ≤ arg.room ∧ arg.room % 4 = 0 := by
      rw [room]
      omega
    have hframe := hs.owned.frame_of_pte hs.dir hs.page_lt hstack
    obtain ⟨args', sp', m'', hrest, hlength, hsp, hs', hstack'⟩ := ih
      (hs.fill ho hframe (overwrite (m'.word (pteAddr w)) (arg.below sp % 4096)
        (arg.bytes.length + 1) (bytesOf arg.bytes)))
      (by rw [hs.owned.pteOf_fill hs.dir hframe]; exact hstack)
      (by omega : arg.below sp % 4 = 0) (by omega) (by omega)
      (by simp; omega : (args ++ [arg.below sp]).length + rest.length ≤ maxarg)
    refine ⟨args', sp', m'', fun null => Ensures.eq_ok ?_, by simp at hlength ⊢; omega, ?_, hs',
      hstack'⟩
    · rw [pushArgs, if_neg (by omega), ensures_bind,
        ensures_of_ok (hs.copyout_eq hstack (Nat.succ_pos _) (by omega) (by omega) null _),
        if_pos rfl, ensures_of_ok (hrest null)]
      exact ⟨rfl, rfl⟩
    · rw [map_cons, sum_cons]
      omega

theorem pushFrame_fits (argv : List CString) (hs : Stacked k d sz m o m' o' l')
    (ho : Owned k m o l) (hfits : frameSize argv ≤ 4096) (hcount : argv.length ≤ maxarg) :
    ∃ esp m'', (∀ null, pushFrame null d argv sz m' = .ok (some esp) m'') ∧
      Stacked k d sz m o m'' o' l' := by
  obtain ⟨hbase, hpages, htwo⟩ := hs.size_le
  rw [kernbase] at hbase
  rw [frameSize] at hfits
  obtain ⟨w, hstack, -⟩ := hs.stack
  obtain ⟨args, sp, m₁, hpush, hlength, hsp, hs₁, hstack₁⟩ := pushArgs_fits argv hs ho hstack
    (by omega : sz % 4 = 0) le_rfl (by omega) (by simpa : ([] : List ℕ).length + _ ≤ _)
  rw [length_nil, Nat.zero_add] at hlength
  have hesp : usub sp ((3 + args.length + 1) * 4) + (3 + args.length + 1) * 4 = sp := by
    rw [usub]
    omega
  have hcopy := fun null => hs₁.copyout_eq hstack₁ (by omega : 0 < (3 + args.length + 1) * 4)
    (by omega : sz ≤ usub sp ((3 + args.length + 1) * 4) + 4096) (by omega) null
    (wordBytes (ustack args sp))
  have hframe := hs₁.owned.frame_of_pte hs₁.dir hs₁.page_lt hstack₁
  refine ⟨usub sp ((3 + args.length + 1) * 4), m₁.fill (pteAddr w) (overwrite
    (m₁.word (pteAddr w)) (usub sp ((3 + args.length + 1) * 4) % 4096) ((3 + args.length + 1) * 4)
    (wordBytes (ustack args sp))), fun null => Ensures.eq_ok ?_, hs₁.fill ho hframe _⟩
  rw [pushFrame, ensures_bind, ensures_of_ok (hpush null)]
  simp only [ensures_bind]
  rw [ensures_of_ok (hcopy null), if_pos rfl]
  exact ⟨rfl, rfl⟩

/-- Whatever would be read through a missing entry, the arguments are copied, and what does not
fit is refused. -/
def CleanArgs (d sz : ℕ) (argv : List CString) (m : PhysMem) : Prop :=
  ∀ null, ∃ r m', pushFrame null d argv sz m = .ok r m' ∧ (4096 < frameSize argv → r = none)

theorem CleanArgs.noGap {file : List UInt8} (hclean : CleanArgs d sz argv m') (ho : Owned k m o l)
    (hload : loadProgram k file m = .ok (some (d, sz)) m') : NoGap sz (argv.take maxarg) sz := by
  obtain ⟨o', l', hs⟩ := (loadProgram_spec ho file).of_ok hload
  obtain ⟨r, m'', hrun, -⟩ := hclean (throw (.panic "trap"))
  exact ((pushFrame_spec hs ho (.inr rfl)).of_ok hrun).1

/-- The strings of `sys_exec` are copied cleanly to the stack of an image that was loaded if, and
only if, the first one that is not in the stack page is not put where there are no tables. -/
theorem exec_args_clean_iff (ho : Owned k m o l) {file : List UInt8}
    (hload : loadProgram k file m = .ok (some (d, sz)) m')
    (hcount : argv.length < maxarg) : CleanArgs d sz argv m' ↔ NoGap sz argv sz := by
  obtain ⟨o', l', hs⟩ := (loadProgram_spec ho file).of_ok hload
  have htake : argv.take maxarg = argv := List.take_of_length_le hcount.le
  constructor
  · intro hclean
    have hgap := hclean.noGap ho hload
    rwa [htake] at hgap
  · intro hgap null
    rw [← htake] at hgap
    obtain ⟨r, m'', hrun, -, hpost⟩ := (pushFrame_clean hs ho hgap null).total
    refine ⟨r, m'', hrun, fun hlarge => ?_⟩
    cases r with
    | none => rfl
    | some esp => exact absurd (hpost esp rfl).1 (by omega)

theorem exists_cstring (n : ℕ) (hn : n < kernbase) : ∃ arg : CString, arg.bytes.length = n := by
  have hnull : 0 ∉ replicate n (97 : UInt8) := by
    rw [mem_replicate]
    exact fun h => absurd h.2 (by decide)
  exact ⟨⟨replicate n 97, hnull, by rwa [length_replicate]⟩, length_replicate⟩

/-- The second string is below the stack page. -/
theorem exec_args_clean_tooLong : ∃ m d m' arg,
    loadProgram smallKernel jumpProgram m = .ok (some (d, 12288)) m' ∧
      arg.bytes.length = 3000 ∧
        ∀ null, ∃ m'', pushFrame null d [arg, arg] 12288 m' = .ok none m'' := by
  obtain ⟨m, o, l, d, m', ho, hload⟩ := exists_jumpImage
  obtain ⟨arg, hlength⟩ := exists_cstring 3000 (by decide)
  refine ⟨m, d, m', arg, hload, hlength, fun null => ?_⟩
  obtain ⟨sz, hsz⟩ : ∃ sz, 12288 = sz := ⟨_, rfl⟩
  rw [hsz] at hload ⊢
  have hgap : NoGap sz [arg, arg] sz := by
    simp only [NoGap, CString.below, usub, hlength]
    rw [if_pos (by omega), if_neg (by omega)]
    exact .inl (by omega)
  obtain ⟨r, m'', hrun, hlarge⟩ := (exec_args_clean_iff ho hload (by simp [maxarg])).mpr hgap null
  obtain rfl := hlarge (by simp [frameSize, room, hlength])
  exact ⟨m'', hrun⟩

/-- A string of 32 megabytes and two pages. -/
theorem long_argument_finds_no_entry : ∃ m d m' arg,
    loadProgram smallKernel emptyProgram m = .ok (some (d, 8192)) m' ∧
      arg.bytes.length = 33562624 ∧ ¬ CleanArgs d 8192 [arg] m' := by
  obtain ⟨m, o, l, d, m', ho, hload⟩ := exists_image
  obtain ⟨arg, hlength⟩ := exists_cstring 33562624 (by decide)
  refine ⟨m, d, m', arg, hload, hlength, fun hclean => ?_⟩
  obtain ⟨sz, hsz⟩ : ∃ sz, 8192 = sz := ⟨_, rfl⟩
  rw [hsz] at hload hclean
  have hgap := hclean.noGap ho hload
  have hbelow : arg.below sz = 0xFDFFFFFC := by
    rw [CString.below, usub, hlength]
    omega
  rw [show [arg].take maxarg = [arg] from rfl, NoGap, hbelow, if_neg (by omega)] at hgap
  omega

end Xv6Kernel.Vm
