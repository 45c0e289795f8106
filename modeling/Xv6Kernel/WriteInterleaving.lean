import Xv6Kernel.SharedOffset

/-!
# Concurrent calls of `filewrite`

The bytes that successful calls leave in a file that they share, for every way
in which the calls are interleaved.  What stood behind the new offset before is
still there: `filewrite` does not cut a file.
-/

namespace Xv6Kernel

open TraceExecution StateHoare WordBytes BlockAllocation WriteState

variable {P : Type}

section Runs

variable {devsw : Devsw} {f : Fin nfile} {ip : ISlot}
variable {vol : Volume P} {old : List Byte} {s : WriteState P}
variable {trace : List (P × WriteAction)}

def WriteState.start (vol : Volume P) : WriteState P := ⟨vol, fun _ => none, [], []⟩

theorem writersOk_start (hfile : (vol.ftable f).ip = some ip)
    (hcontent : HasFile vol ip old) (hfree : (vol.icache ip).lock = none) :
    WritersOk f ip (vol.ftable f).off.toNat old [] (start vol) := by
  have hout : ∀ p, ¬ (start vol).Inside p := by
    rintro p ⟨w, hw, _⟩
    cases hw
  constructor
  · constructor <;> simp [start]
  · constructor
    · intro p
      refine iff_of_false ?_ (hout p)
      simp [start, hfree]
    · intro p hp
      simp [start, hfree] at hp
    · intro p w off hw
      cases hw
    · rw [pending_of_free hfree]
      rfl
  · refine ⟨hfile, ?_, ?_, ?_⟩
    · exact (replaceAt_nil old _).symm ▸ hcontent
    · simp [Order.bytes]
    · exact (vol.ftable f).off.isLt

theorem writersOk_of_exec [DecidableEq P] (hfile : (vol.ftable f).ip = some ip)
    (hcontent : HasFile vol ip old) (hfree : (vol.icache ip).lock = none)
    (hexec : exec (stepOf (writePerform devsw f)) (start vol) trace = some s) :
    ∃ order, WritersOk f ip (vol.ftable f).off.toNat old order s :=
  exec_invariant (fun _ _ _ => WritersOk.perform)
    ⟨[], writersOk_start hfile hcontent hfree⟩ hexec

theorem Order.length_bytes_calls {order : Order} {calls : List WriteCall}
    (hchunks : ∀ id c, calls[id]? = some c → order.chunksOf id = c.chunks)
    (hids : ∀ entry ∈ order, entry.1 < calls.length) :
    order.bytes.length = (calls.map fun c => c.n.toNat).sum := by
  rw [Order.length_bytes hids, Finset.sum_range,
    ← Fin.sum_univ_fun_getElem calls fun c => c.n.toNat]
  apply Finset.sum_congr rfl
  intro id _
  rw [hchunks id calls[id.1] (List.getElem?_eq_getElem id.2),
    WriteCall.flatten_chunks, WriteCall.bytes, List.length_map, List.length_range]

/-- When every call has returned with success, the bytes from the old offset to
the new one are the chunks of the calls, each once and those of a call in order,
and no other byte has changed. -/
theorem filewrite_chunks_interleave [DecidableEq P] (hfile : (vol.ftable f).ip = some ip)
    (hcontent : HasFile vol ip old) (hfree : (vol.icache ip).lock = none)
    (hexec : exec (stepOf (writePerform devsw f)) (WriteState.start vol) trace = some s)
    (hidle : ∀ p, s.writer p = none)
    (hsuccess : ∀ id v c, (id, v) ∈ s.results → s.calls[id]? = some c → v = c.n) :
    ∃ order : Order,
      (∀ id c, s.calls[id]? = some c → order.chunksOf id = c.chunks) ∧
      (∀ entry ∈ order, entry.1 < s.calls.length) ∧
      (∀ c ∈ s.calls, c.chunks.flatten = c.bytes ∧
        ∀ chunk ∈ c.chunks, chunk.length ≤ 1536) ∧
      (s.vol.ftable f).off.toNat = (vol.ftable f).off.toNat +
        (s.calls.map fun c => c.n.toNat).sum ∧
      (s.vol.current ip).content s.vol.data =
        old.take (vol.ftable f).off.toNat ++ order.bytes ++
          old.drop (s.vol.ftable f).off.toNat := by
  obtain ⟨order, h⟩ := writersOk_of_exec hfile hcontent hfree hexec
  have hchunks : ∀ id c, s.calls[id]? = some c → order.chunksOf id = c.chunks := by
    intro id c hc
    rcases h.calls.known id (List.getElem?_eq_some_iff.mp hc).1 with
      ⟨v, hmem⟩ | ⟨p, w, hw, _⟩
    · exact h.calls.returned id v c hmem hc (hsuccess id v c hmem hc)
    · rw [hidle p] at hw
      cases hw
  have hlock : (s.vol.icache ip).lock = none := by
    cases hlock : (s.vol.icache ip).lock with
    | none => rfl
    | some p =>
        obtain ⟨w, hw, _⟩ := (h.offset.lock p).mp hlock
        rw [hidle p] at hw
        cases hw
  have hoff := h.offset.off
  rw [pending_of_free hlock, Nat.add_zero] at hoff
  refine ⟨order, hchunks, h.calls.ids, ?_, ?_, ?_⟩
  · intro c _
    exact ⟨c.flatten_chunks, fun _ => c.length_le_of_mem_chunks⟩
  · rw [hoff, Order.length_bytes_calls hchunks h.calls.ids]
  · rw [h.content.content.content, hoff, replaceAt]

end Runs

/-! ## A file with two writers -/

def notesNode : DiskNode where
  type := .file
  major := 0
  minor := 0
  nlink := 1
  size := 10
  addrs := fun i => if i.val = 0 then 60 else 0

/-- A disk with the root directory and one file, which is open at offset 0 in two
processes. -/
def notesVolume : Volume Bool where
  sb := ⟨fssize, ninodes, 30, fssize_fits, fssize_small⟩
  dinode := fun x =>
    if x = rootino then mkfsRoot else if x = 2 then notesNode
    else ⟨.none, 0, 0, 0, 0, fun _ => 0⟩
  bitmap := fun b => b < 61
  data := fun b => if b = 59 then ofBytes mkfsByte else fun _ => 0
  outstanding := 0
  logged := []
  icache := fun e =>
    if e = 0 then ⟨rootino, 2, none, true, mkfsRoot⟩
    else if e = 1 then ⟨2, 1, none, true, notesNode⟩
    else ⟨0, 0, none, false, ⟨.none, 0, 0, 0, 0, fun _ => 0⟩⟩
  ftable := fun f =>
    if f = 0 then ⟨2, some 1, true, true, 0⟩ else ⟨0, none, false, false, 0⟩
  cwd := fun _ => some 0
  ofile := fun _ fd => if fd = 0 then some 0 else none

theorem notes_number (place : ℕ × Spot) :
    numberIn notesVolume.dinode notesVolume.data place =
      if place = (rootino, .inl 0) then 59
      else if place = (2, .inl 0) then 60 else 0 := by
  obtain ⟨x, spot⟩ := place
  by_cases hx : x = rootino
  · subst x
    cases spot with
    | inl i => simp [numberIn, notesVolume, mkfsRoot, DiskNode.numberAt]
    | inr j => simp [numberIn, notesVolume, mkfsRoot, DiskNode.numberAt, Fin.last]
  · by_cases hx2 : x = 2
    · subst x
      cases spot with
      | inl i => simp [numberIn, notesVolume, notesNode, DiskNode.numberAt]
      | inr j => simp [numberIn, notesVolume, notesNode, DiskNode.numberAt, Fin.last]
    · simp [numberIn, notesVolume, hx, hx2]

theorem notes_owned : BlocksOwned notesVolume.sb notesVolume.dinode
    notesVolume.bitmap notesVolume.data := by
  have hmeta : notesVolume.sb.nmeta = 59 := rfl
  have hplaces : ∀ place, numberIn notesVolume.dinode notesVolume.data place ≠ 0 →
      (place = (rootino, .inl 0) ∧
        numberIn notesVolume.dinode notesVolume.data place = 59) ∨
      (place = (2, .inl 0) ∧
        numberIn notesVolume.dinode notesVolume.data place = 60) := by
    intro place hplace
    rw [notes_number] at hplace ⊢
    split_ifs at hplace ⊢ with hroot hnotes
    · exact Or.inl ⟨hroot, rfl⟩
    · exact Or.inr ⟨hnotes, rfl⟩
    · exact (hplace rfl).elim
  constructor
  · constructor
    · intro place hplace
      rcases hplaces place hplace with ⟨-, h⟩ | ⟨-, h⟩
      · rw [h]
        exact ⟨hmeta.le, by decide⟩
      · rw [h]
        exact ⟨by rw [hmeta]; decide, by decide⟩
    · intro place hplace
      rcases hplaces place hplace with ⟨-, h⟩ | ⟨-, h⟩
      · rw [h]
        rfl
      · rw [h]
        rfl
    · intro place place' hplace heq
      rcases hplaces place hplace with ⟨rfl, h⟩ | ⟨rfl, h⟩
      · rcases hplaces place' (heq ▸ hplace) with ⟨rfl, h'⟩ | ⟨rfl, h'⟩
        · rfl
        · rw [h, h'] at heq
          cases heq
      · rcases hplaces place' (heq ▸ hplace) with ⟨rfl, h'⟩ | ⟨rfl, h'⟩
        · rw [h, h'] at heq
          cases heq
        · rfl
    · intro b hb hdata hbit
      have hlt : b < 61 := by simpa [notesVolume] using hbit
      have hge : 59 ≤ b := hmeta ▸ hdata.1
      by_cases hb59 : b = 59
      · refine ⟨(rootino, .inl 0), ?_⟩
        rw [notes_number, if_pos rfl, hb59]
      · refine ⟨(2, .inl 0), ?_⟩
        rw [notes_number, if_neg (by decide), if_pos rfl]
        omega
  · intro b hb
    rw [hmeta] at hb
    simp only [notesVolume, decide_eq_true_eq]
    omega

theorem notes_hasFile : HasFile notesVolume 1 (List.replicate 10 0) where
  type := rfl
  owned := by
    have htable : Function.update notesVolume.dinode
        (notesVolume.icache 1).inum (notesVolume.current 1) = notesVolume.dinode :=
      Function.update_eq_self ..
    rw [htable]
    exact notes_owned
  noHoles := by
    intro bn hbn
    obtain rfl : bn = 0 := by
      change bn * 512 < 10 at hbn
      omega
    decide
  content := by decide +kernel

def writerAdvances (p : Bool) (k : ℕ) : List (Bool × WriteAction) :=
  List.replicate k (p, .advance)

def overwriteRun : List (Bool × WriteAction) :=
  (false, .call ⟨fun _ => 7, 3⟩) :: writerAdvances false 11

/-- The bytes from the old offset on are more than the chunks of the calls: those
behind the new offset are still there. -/
theorem filewrite_keeps_later_bytes :
    ∃ s, exec (stepOf (writePerform noDevices 0)) (WriteState.start notesVolume)
        overwriteRun = some s ∧ (∀ p, s.writer p = none) ∧
      (∀ id v c, (id, v) ∈ s.results → s.calls[id]? = some c → v = c.n) ∧
      ∀ order : Order,
        (∀ id c, s.calls[id]? = some c → order.chunksOf id = c.chunks) →
        (∀ entry ∈ order, entry.1 < s.calls.length) →
        ((s.vol.current 1).content s.vol.data).drop
          (notesVolume.ftable 0).off.toNat ≠ order.bytes := by
  have hrun : ∃ s, exec (stepOf (writePerform noDevices 0))
      (WriteState.start notesVolume) overwriteRun = some s ∧
      (decide (∀ p, (s.writer p).isNone) && decide (s.results = [(0, 3)]) &&
        decide (s.calls.map (·.n) = [3]) &&
        decide ((s.vol.current 1).size = 10)) = true :=
    exec_of_any (by decide +kernel)
  obtain ⟨s, hexec, htest⟩ := hrun
  simp only [Bool.and_eq_true, decide_eq_true_eq, Option.isNone_iff_eq_none] at htest
  obtain ⟨⟨⟨hidle, hresults⟩, hcalls⟩, hsize⟩ := htest
  refine ⟨s, hexec, hidle, ?_, ?_⟩
  · intro id v c hmem hc
    rw [hresults, List.mem_singleton, Prod.mk.injEq] at hmem
    obtain ⟨rfl, rfl⟩ := hmem
    have hn := congrArg (fun l => l[0]?) hcalls
    simp only [List.getElem?_map, hc, Option.map_some] at hn
    exact (Option.some.inj hn).symm
  · intro order hchunks hids heq
    have hlength := Order.length_bytes_calls hchunks hids
    have hsum : (s.calls.map fun c => c.n.toNat) = (s.calls.map (·.n)).map Int.toNat := by
      rw [List.map_map]
      rfl
    rw [hsum, hcalls, ← heq, List.length_drop, DiskNode.content, List.length_map,
      List.length_range, hsize] at hlength
    cases hlength

/-- A call with two chunks, and a short one that gets in between. -/
def twoWritersRun : List (Bool × WriteAction) :=
  (false, .call ⟨fun _ => 7, 1600⟩) :: (true, .call ⟨fun _ => 8, 5⟩) ::
    (writerAdvances false 5 ++ writerAdvances true 3 ++ writerAdvances false 5 ++
      writerAdvances true 8 ++ writerAdvances false 10)

theorem twoWritersRun_interleaves :
    ∃ s, exec (stepOf (writePerform noDevices 0)) (WriteState.start notesVolume)
        twoWritersRun = some s ∧ (∀ p, s.writer p = none) ∧
      (s.vol.ftable 0).off.toNat = 1605 ∧
      ∃ order : Order, (∀ id c, s.calls[id]? = some c →
          order.chunksOf id = c.chunks) ∧
        (s.vol.current 1).content s.vol.data = order.bytes := by
  have hrun : ∃ s, exec (stepOf (writePerform noDevices 0))
      (WriteState.start notesVolume) twoWritersRun = some s ∧
      (decide (∀ p, (s.writer p).isNone) &&
        decide (s.results = [(1, 5), (0, 1600)]) &&
        decide (s.calls.map (·.n) = [1600, 5])) = true :=
    exec_of_any (by decide +kernel)
  obtain ⟨s, hexec, htest⟩ := hrun
  simp only [Bool.and_eq_true, decide_eq_true_eq, Option.isNone_iff_eq_none] at htest
  obtain ⟨⟨hidle, hresults⟩, hcalls⟩ := htest
  have hn : ∀ (id : ℕ) (c : WriteCall), s.calls[id]? = some c →
      [(1600 : ℤ), 5][id]? = some c.n := by
    intro id c hc
    rw [← hcalls, List.getElem?_map, hc]
    rfl
  obtain ⟨order, hchunks, hids, -, hoff, hcontent⟩ :=
    filewrite_chunks_interleave rfl notes_hasFile rfl hexec hidle (by
      intro id v c hmem hc
      have hid := hn id c hc
      rw [hresults] at hmem
      simp only [List.mem_cons, Prod.mk.injEq, List.not_mem_nil, or_false] at hmem
      rcases hmem with ⟨rfl, rfl⟩ | ⟨rfl, rfl⟩
      · exact Option.some.inj hid
      · exact Option.some.inj hid)
  have hsum : (s.calls.map fun c => c.n.toNat).sum = 1605 := by
    have hmap : (s.calls.map fun c => c.n.toNat) =
        (s.calls.map (·.n)).map Int.toNat := by
      rw [List.map_map]
      rfl
    rw [hmap, hcalls]
    rfl
  have hstart : (notesVolume.ftable 0).off.toNat = 0 := rfl
  rw [hsum, hstart, Nat.zero_add] at hoff
  refine ⟨s, hexec, hidle, hoff, order, hchunks, ?_⟩
  rw [hcontent, hstart, hoff, List.take_zero, List.nil_append,
    List.drop_eq_nil_of_le (by decide), List.append_nil]

end Xv6Kernel
