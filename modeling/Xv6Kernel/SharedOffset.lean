import Xv6Kernel.FileWrite

/-!
# The offset of a shared file

Calls of `filewrite` on one open file write their chunks one behind the other,
in some order in which each chunk appears once and those of a call stay in
sequence.  `Order` is that order.  A process between `ilock` and `iunlock` is the
only one that reads or changes the offset, and when no process is there the
offset stands behind the last chunk.
-/

namespace Xv6Kernel

open TraceExecution StateHoare WordBytes BlockAllocation Function Option List WritePc Volume

variable {P : Type}

/-- The inode in slot `ip` is a regular file with the contents `bytes`, in a file
system in which no block has two owners and the file has no holes. -/
structure HasFile (s : Volume P) (ip : ISlot) (bytes : List Byte) : Prop where
  type : (s.current ip).type = .file
  owned : BlocksOwned s.sb
    (Function.update s.dinode (s.icache ip).inum (s.current ip)) s.bitmap s.data
  noHoles : (s.current ip).NoHoles s.data
  content : (s.current ip).content s.data = bytes

section File

variable {s t : Volume P} {ip : ISlot} {bytes : List Byte}

theorem current_of_valid (hvalid : (s.icache ip).valid = true) :
    s.current ip = (s.icache ip).node := if_pos hvalid

theorem HasFile.congr (h : HasFile s ip bytes) (hsb : t.sb = s.sb)
    (hdinode : t.dinode = s.dinode) (hbitmap : t.bitmap = s.bitmap)
    (hdata : t.data = s.data) (hinum : (t.icache ip).inum = (s.icache ip).inum)
    (hcurrent : t.current ip = s.current ip) : HasFile t ip bytes := by
  constructor
  · rw [hcurrent]
    exact h.type
  · rw [hsb, hdinode, hbitmap, hdata, hinum, hcurrent]
    exact h.owned
  · rw [hcurrent, hdata]
    exact h.noHoles
  · rw [hcurrent, hdata]
    exact h.content

theorem HasFile.setCore {g : CoreNode P → CoreNode P} (h : HasFile s ip bytes)
    (hinum : (g (s.icache ip)).inum = (s.icache ip).inum)
    (hcurrent : (s.setCore ip g).current ip = s.current ip) :
    HasFile (s.setCore ip g) ip bytes := by
  refine h.congr rfl rfl rfl rfl ?_ hcurrent
  rw [setCore_self]
  exact hinum

theorem HasFile.ownedAt (h : HasFile s ip bytes)
    (hvalid : (s.icache ip).valid = true) : s.OwnedAt ip := by
  have howned := h.owned
  rw [current_of_valid hvalid] at howned
  exact howned

theorem replaceAt_replaceAt {old new more : List Byte} {off : ℕ} (hoff : off ≤ old.length) :
    replaceAt (replaceAt old off new) (off + new.length) more =
      replaceAt old off (new ++ more) := by
  have hlength : (old.take off ++ new).length = off + new.length := by
    simp [hoff]
  have hrest : (replaceAt old off new).drop (off + new.length + more.length) =
      old.drop (off + (new ++ more).length) := by
    rw [replaceAt, ← hlength, drop_append, drop_eq_nil_of_le (by omega),
      nil_append, Nat.add_sub_cancel_left, drop_drop, hlength,
      length_append, Nat.add_assoc]
  have hfirst : (replaceAt old off new).take (off + new.length) =
      old.take off ++ new := by
    rw [replaceAt, ← hlength, take_left]
  rw [replaceAt, hfirst, hrest, replaceAt, append_assoc, append_assoc, append_assoc, append_assoc]

theorem replaceAt_nil (old : List Byte) (off : ℕ) : replaceAt old off [] = old := by
  simp [replaceAt]

theorem HasFile.writei {devsw : Devsw} {src : ℕ → Byte} {off n : BitVec 32} {r : Option (BitVec 32)}
    (h : HasFile s ip bytes) (hvalid : (s.icache ip).valid = true)
    (hrun : Vol.writei devsw ip src off n s = .ok r t) :
    (r = none ∧ t = s) ∨
    (r = some n ∧ off.toNat ≤ bytes.length ∧
      off.toNat + n.toNat ≤ maxfile * bsize ∧ t.ftable = s.ftable ∧
      (t.icache ip).lock = (s.icache ip).lock ∧ (t.icache ip).valid = true ∧
      HasFile t ip (replaceAt bytes off.toNat ((range n.toNat).map src))) := by
  have hnode := current_of_valid hvalid
  have htype := h.type
  have hholes := h.noHoles
  have hcontent := h.content
  rw [hnode] at htype hholes hcontent
  have hspec := ensures_writei (E := fun _ => True) devsw (by simp [htype])
    (by simp [htype]) (h.ownedAt hvalid) hholes src off n (le_blocksFor _)
    fun _ _ => Or.inl fun _ => trivial
  obtain ⟨hout, hin⟩ := hspec.of_ok hrun
  by_cases hrefused : Refused (s.icache ip).node.size off n ∨ maxfile * bsize < off.toNat + n.toNat
  · exact Or.inl (hout hrefused)
  · rw [not_or, not_lt] at hrefused
    obtain ⟨hr, hrewritten, _⟩ := hin hrefused.1 hrefused.2
    obtain ⟨size, addrs, hcore⟩ := hrewritten.apart.core
    have hvalid' : (t.icache ip).valid = true := by
      rw [hcore]
      exact hvalid
    have hlength : bytes.length = (s.icache ip).node.size.toNat := by
      simp [← hcontent, DiskNode.content]
    refine Or.inr ⟨hr, ?_, hrefused.2, hrewritten.apart.ftable, ?_, hvalid', ?_⟩
    · have haccepted := hrefused.1
      unfold Refused at haccepted
      omega
    · rw [hcore]
    · have hnode' := current_of_valid hvalid'
      constructor
      · rw [hnode', hcore]
        exact htype
      · rw [hnode']
        exact hrewritten.owned
      · rw [hnode']
        exact hrewritten.noHoles
      · rw [hnode', hrewritten.content, hcontent]

end File

abbrev Order := List (ℕ × List Byte)

namespace Order

def chunksOf (order : Order) (id : ℕ) : List (List Byte) :=
  (order.filter fun entry => entry.1 = id).map Prod.snd

def bytes (order : Order) : List Byte := (order.map Prod.snd).flatten

variable {order : Order} {id : ℕ} {chunk : List Byte}

theorem chunksOf_concat_self :
    chunksOf (order ++ [(id, chunk)]) id = order.chunksOf id ++ [chunk] := by
  simp [chunksOf]

theorem chunksOf_concat_of_ne {id' : ℕ} (hne : id' ≠ id) :
    chunksOf (order ++ [(id, chunk)]) id' = order.chunksOf id' := by
  simp [chunksOf, hne.symm]

theorem bytes_concat : bytes (order ++ [(id, chunk)]) = order.bytes ++ chunk := by
  simp [bytes]

theorem length_bytes {n : ℕ} (hids : ∀ entry ∈ order, entry.1 < n) :
    order.bytes.length =
      ∑ id ∈ Finset.range n, (chunksOf order id).flatten.length := by
  induction order using reverseRecOn with
  | nil => simp [bytes, chunksOf]
  | append_singleton order entry ih =>
    obtain ⟨id, chunk⟩ := entry
    have hid : id ∈ Finset.range n := by simpa using hids (id, chunk) (by simp)
    have hsum : ∀ k, (chunksOf (order ++ [(id, chunk)]) k).flatten.length =
        (chunksOf order k).flatten.length + if k = id then chunk.length else 0 := by
      intro k
      by_cases hk : k = id
      · subst k
        rw [chunksOf_concat_self]
        simp
      · rw [chunksOf_concat_of_ne hk]
        simp [hk]
    rw [bytes_concat, length_append, ih fun entry hmem => hids entry (mem_append_left _ hmem)]
    simp only [hsum, Finset.sum_add_distrib, Finset.sum_ite_eq', hid, if_true]

end Order

/-! ## The invariant -/

namespace WritePc

def inBody : WritePc → Bool
  | .entry | .loop => false
  | _ => true

def inside : WritePc → Bool
  | .load | .writei _ | .advance _ | .iunlock _ => true
  | _ => false

def result : WritePc → Option ℤ
  | .advance r | .iunlock r | .endOp r | .check r => some r
  | _ => none

def written (pc : WritePc) : ℕ := (pc.result.getD 0).toNat

def pending : WritePc → ℕ
  | .advance r => r.toNat
  | _ => 0

end WritePc

def WriteState.Inside (s : WriteState P) (p : P) : Prop :=
  ∃ w, s.writer p = some w ∧ w.pc.inside = true

def WriteState.pending (s : WriteState P) (ip : ISlot) : ℕ :=
  match (s.vol.icache ip).lock.bind s.writer with
  | some w => w.pc.pending
  | none => 0

/-- What is known about a call that has not returned. -/
structure WriterOk (calls : List WriteCall) (order : Order) (w : Writer) :
    Prop where
  call : calls[w.id]? = some w.call
  le : w.i ≤ w.call.n.toNat
  aligned : maxChunk ∣ w.i ∨ w.i = w.call.n.toNat
  body : w.pc.inBody = true → (w.i : ℤ) < w.call.n
  result : ∀ r, w.pc.result = some r → r = -1 ∨ r = w.n1
  chunks : order.chunksOf w.id = w.call.chunksTo (w.i + w.pc.written)

structure CallsOk (order : Order) (s : WriteState P) : Prop where
  writers : ∀ p w, s.writer p = some w → WriterOk s.calls order w
  distinct : ∀ p q w w', s.writer p = some w → s.writer q = some w' →
    w.id = w'.id → p = q
  unreturned : ∀ p w v, s.writer p = some w → (w.id, v) ∉ s.results
  returned : ∀ id v c, (id, v) ∈ s.results → s.calls[id]? = some c → v = c.n →
    order.chunksOf id = c.chunks
  known : ∀ id < s.calls.length, (∃ v, (id, v) ∈ s.results) ∨
    ∃ p w, s.writer p = some w ∧ w.id = id
  results : ∀ id v, (id, v) ∈ s.results → id < s.calls.length
  ids : ∀ entry ∈ order, entry.1 < s.calls.length

structure OffsetOk (f : Fin nfile) (ip : ISlot) (total : ℕ) (s : WriteState P) :
    Prop where
  lock : Owned (s.vol.icache ip).lock s.Inside
  valid : ∀ p, (s.vol.icache ip).lock = some p → (s.vol.icache ip).valid = true
  loaded : ∀ p w off, s.writer p = some w → w.pc = .writei off →
    off = (s.vol.ftable f).off
  off : (s.vol.ftable f).off.toNat + s.pending ip = total

structure ContentOk (f : Fin nfile) (ip : ISlot) (o : ℕ) (old : List Byte)
    (order : Order) (vol : Volume P) : Prop where
  file : (vol.ftable f).ip = some ip
  content : HasFile vol ip (replaceAt old o order.bytes)
  start : order.bytes ≠ [] → o ≤ old.length
  small : o + order.bytes.length < 2 ^ 32

structure WritersOk (f : Fin nfile) (ip : ISlot) (o : ℕ) (old : List Byte)
    (order : Order) (s : WriteState P) : Prop where
  calls : CallsOk order s
  offset : OffsetOk f ip (o + order.bytes.length) s
  content : ContentOk f ip o old order s.vol

/-! ### Calls -/

section Calls

variable [DecidableEq P] {s t : WriteState P} {order order' : Order} {p : P}
variable {w w' : Writer}

omit [DecidableEq P] in
theorem CallsOk.of_eq (h : CallsOk order s) (hwriter : t.writer = s.writer)
    (hcalls : t.calls = s.calls) (hresults : t.results = s.results) : CallsOk order t := by
  constructor
  · rw [hwriter, hcalls]
    exact h.writers
  · rw [hwriter]
    exact h.distinct
  · rw [hwriter, hresults]
    exact h.unreturned
  · rw [hresults, hcalls]
    exact h.returned
  · rw [hcalls, hresults, hwriter]
    exact h.known
  · rw [hresults, hcalls]
    exact h.results
  · rw [hcalls]
    exact h.ids

theorem WriterOk.of_chunks {calls : List WriteCall} (h : WriterOk calls order w)
    (hchunks : order'.chunksOf w.id = order.chunksOf w.id) : WriterOk calls order' w :=
  ⟨h.call, h.le, h.aligned, h.body, h.result, hchunks.trans h.chunks⟩

omit [DecidableEq P] in
theorem chunksOf_eq_nil {id : ℕ} (hids : ∀ entry ∈ order, entry.1 < id) :
    order.chunksOf id = [] := by
  rw [Order.chunksOf, map_eq_nil_iff, filter_eq_nil_iff]
  intro entry hmem
  simpa using (hids entry hmem).ne

theorem update_writer_cases {q : P} {u : Writer} (hu : update s.writer p (some w') q = some u) :
    (q = p ∧ u = w') ∨ (q ≠ p ∧ s.writer q = some u) := by
  by_cases hq : q = p
  · subst q
    rw [update_self] at hu
    exact Or.inl ⟨rfl, (some.inj hu).symm⟩
  · rw [update_of_ne hq] at hu
    exact Or.inr ⟨hq, hu⟩

theorem CallsOk.move (h : CallsOk order s) (hw : s.writer p = some w)
    (hid : w'.id = w.id) (hok : WriterOk s.calls order' w')
    (hothers : ∀ id, id ≠ w.id → order'.chunksOf id = order.chunksOf id)
    (hids : ∀ entry ∈ order', entry.1 < s.calls.length) :
    CallsOk order' { s with writer := update s.writer p (some w') } := by
  have hother : ∀ q u, q ≠ p → s.writer q = some u → u.id ≠ w.id := by
    intro q u hq hu heq
    exact hq (h.distinct q p u w hu hw heq)
  constructor
  case writers =>
    intro q u hu
    rcases update_writer_cases hu with ⟨-, rfl⟩ | ⟨hq, hq'⟩
    · exact hok
    · exact (h.writers q u hq').of_chunks (hothers _ (hother q u hq hq'))
  case distinct =>
    intro q r u u' hu hu' heq
    rcases update_writer_cases hu with ⟨rfl, rfl⟩ | ⟨hq, hq'⟩
    · rcases update_writer_cases hu' with ⟨rfl, -⟩ | ⟨hr, hr'⟩
      · rfl
      · exact (hother r u' hr hr' (heq.symm.trans hid)).elim
    · rcases update_writer_cases hu' with ⟨-, rfl⟩ | ⟨hr, hr'⟩
      · exact (hother q u hq hq' (heq.trans hid)).elim
      · exact h.distinct q r u u' hq' hr' heq
  case unreturned =>
    intro q u v hu
    rcases update_writer_cases hu with ⟨-, rfl⟩ | ⟨-, hq'⟩
    · rw [hid]
      exact h.unreturned p w v hw
    · exact h.unreturned q u v hq'
  case returned =>
    intro id v c hmem hc hv
    have hne : id ≠ w.id := by
      intro heq
      exact h.unreturned p w v hw (heq ▸ hmem)
    rw [hothers id hne]
    exact h.returned id v c hmem hc hv
  case known =>
    intro id hlt
    rcases h.known id hlt with hdone | ⟨q, u, hu, hid'⟩
    · exact Or.inl hdone
    · by_cases hq : q = p
      · subst q
        obtain rfl := some.inj (hw.symm.trans hu)
        exact Or.inr ⟨p, w', update_self .., hid.trans hid'⟩
      · refine Or.inr ⟨q, u, ?_, hid'⟩
        exact (update_of_ne hq _ _).trans hu
  case results => exact h.results
  case ids => exact hids

theorem CallsOk.goto {pc : WritePc} (h : CallsOk order s) (hw : s.writer p = some w)
    (hok : WriterOk s.calls order { w with pc := pc }) : CallsOk order (s.goto p w pc) :=
  h.move hw rfl hok (fun _ _ => rfl) h.ids

theorem CallsOk.ret {v : ℤ} (h : CallsOk order s) (hw : s.writer p = some w)
    (hdone : v = w.call.n → order.chunksOf w.id = w.call.chunks) : CallsOk order (s.ret p w v) := by
  have hwriter : ∀ q u, update s.writer p none q = some u →
      q ≠ p ∧ s.writer q = some u := by
    intro q u hu
    by_cases hq : q = p
    · subst q
      simp at hu
    · rw [update_of_ne hq] at hu
      exact ⟨hq, hu⟩
  have hcall := (h.writers p w hw).call
  constructor
  case writers =>
    intro q u hu
    exact h.writers q u (hwriter q u hu).2
  case distinct =>
    intro q r u u' hu hu'
    exact h.distinct q r u u' (hwriter q u hu).2 (hwriter r u' hu').2
  case unreturned =>
    intro q u v' hu hmem
    obtain ⟨hq, hu⟩ := hwriter q u hu
    rcases mem_append.mp hmem with hmem | hmem
    · exact h.unreturned q u v' hu hmem
    · rw [mem_singleton, Prod.mk.injEq] at hmem
      exact hq (h.distinct q p u w hu hw hmem.1)
  case returned =>
    intro id v' c hmem hc hv
    rcases mem_append.mp hmem with hmem | hmem
    · exact h.returned id v' c hmem hc hv
    · rw [mem_singleton, Prod.mk.injEq] at hmem
      obtain ⟨rfl, rfl⟩ := hmem
      obtain rfl := some.inj (hcall.symm.trans hc)
      exact hdone hv
  case known =>
    intro id hlt
    rcases h.known id hlt with ⟨v', hmem⟩ | ⟨q, u, hu, rfl⟩
    · exact Or.inl ⟨v', mem_append_left _ hmem⟩
    · by_cases hq : q = p
      · subst q
        obtain rfl := some.inj (hw.symm.trans hu)
        exact Or.inl ⟨v, mem_append_right _ (by simp)⟩
      · refine Or.inr ⟨q, u, ?_, rfl⟩
        exact (update_of_ne hq _ _).trans hu
  case results =>
    intro id v' hmem
    rcases mem_append.mp hmem with hmem | hmem
    · exact h.results id v' hmem
    · rw [mem_singleton, Prod.mk.injEq] at hmem
      rw [hmem.1]
      exact (List.getElem?_eq_some_iff.mp hcall).1
  case ids => exact h.ids

theorem CallsOk.call (h : CallsOk order s) (hp : s.writer p = none)
    (c : WriteCall) :
    CallsOk order { s with
      writer := update s.writer p (some ⟨s.calls.length, c, 0, .entry⟩)
      calls := s.calls ++ [c] } := by
  have hlt : ∀ q u, s.writer q = some u → u.id < s.calls.length := by
    intro q u hu
    exact (List.getElem?_eq_some_iff.mp (h.writers q u hu).call).1
  have hkeep : ∀ id, id < s.calls.length →
      (s.calls ++ [c])[id]? = s.calls[id]? := by
    intro id hid
    exact getElem?_append_left hid
  constructor
  case writers =>
    intro q u hu
    rcases update_writer_cases hu with ⟨-, rfl⟩ | ⟨-, hq'⟩
    · constructor
      · simp
      · simp
      · simp
      · simp [inBody]
      · simp [WritePc.result]
      · exact (chunksOf_eq_nil h.ids).trans c.chunksTo_zero.symm
    · have hok := h.writers q u hq'
      exact ⟨(hkeep _ (hlt q u hq')).trans hok.call, hok.le, hok.aligned, hok.body,
        hok.result, hok.chunks⟩
  case distinct =>
    intro q r u u' hu hu' heq
    rcases update_writer_cases hu with ⟨rfl, rfl⟩ | ⟨-, hq'⟩
    · rcases update_writer_cases hu' with ⟨rfl, -⟩ | ⟨-, hr'⟩
      · rfl
      · exact absurd heq.symm (hlt r u' hr').ne
    · rcases update_writer_cases hu' with ⟨-, rfl⟩ | ⟨-, hr'⟩
      · exact absurd heq (hlt q u hq').ne
      · exact h.distinct q r u u' hq' hr' heq
  case unreturned =>
    intro q u v hu hmem
    rcases update_writer_cases hu with ⟨-, rfl⟩ | ⟨-, hq'⟩
    · exact absurd (h.results _ v hmem) (lt_irrefl _)
    · exact h.unreturned q u v hq' hmem
  case returned =>
    intro id v c' hmem hc
    rw [hkeep id (h.results id v hmem)] at hc
    exact h.returned id v c' hmem hc
  case known =>
    intro id hid
    rw [length_append, length_singleton] at hid
    by_cases hlast : id = s.calls.length
    · exact Or.inr ⟨p, _, update_self .., hlast.symm⟩
    · rcases h.known id (by omega) with hdone | ⟨q, u, hu, hid'⟩
      · exact Or.inl hdone
      · have hq : q ≠ p := by
          rintro rfl
          simp [hp] at hu
        exact Or.inr ⟨q, u, (update_of_ne hq _ _).trans hu, hid'⟩
  case results =>
    intro id v hmem
    have hid := h.results id v hmem
    simp only [length_append, length_singleton]
    omega
  case ids =>
    intro entry hmem
    have hid := h.ids entry hmem
    simp only [length_append, length_singleton]
    omega

end Calls

/-! ### Lock and offset -/

section Offset

variable {s t : WriteState P} {f : Fin nfile} {ip : ISlot} {total total' : ℕ}
variable {p : P} {w w' : Writer}

theorem inside_of_writer_eq {q : P} (hwriter : t.writer q = s.writer q) :
    t.Inside q ↔ s.Inside q := by
  unfold WriteState.Inside
  rw [hwriter]

theorem inside_iff (hw : s.writer p = some w) : s.Inside p ↔ w.pc.inside = true := by
  simp [WriteState.Inside, hw]

theorem pending_of_lock (hlock : (s.vol.icache ip).lock = some p)
    (hw : s.writer p = some w) : s.pending ip = w.pc.pending := by
  simp [WriteState.pending, hlock, hw]

theorem pending_of_free (hlock : (s.vol.icache ip).lock = none) : s.pending ip = 0 := by
  simp [WriteState.pending, hlock]

theorem inside_of_writei {off : BitVec 32} (hw : s.writer p = some w)
    (hpc : w.pc = .writei off) : s.Inside p := by
  rw [inside_iff hw, hpc]
  rfl

theorem OffsetOk.outside (h : OffsetOk f ip total s) (hout : ¬ s.Inside p)
    (hout' : ¬ t.Inside p) (hothers : ∀ q, q ≠ p → t.writer q = s.writer q)
    (hcore : (t.vol.icache ip).lock = (s.vol.icache ip).lock ∧
      (t.vol.icache ip).valid = (s.vol.icache ip).valid)
    (hoff : (t.vol.ftable f).off = (s.vol.ftable f).off) :
    OffsetOk f ip total t := by
  constructor
  · rw [hcore.1]
    refine h.lock.keep (iff_of_false hout' hout) ?_
    intro q hq
    exact inside_of_writer_eq (hothers q hq)
  · rw [hcore.1, hcore.2]
    exact h.valid
  · intro q w off hw hpc
    have hq : q ≠ p := by
      rintro rfl
      exact hout' (inside_of_writei hw hpc)
    rw [hothers q hq] at hw
    rw [hoff]
    exact h.loaded q w off hw hpc
  · rw [hoff, ← h.off]
    congr 1
    cases hlock : (s.vol.icache ip).lock with
    | none => rw [pending_of_free hlock, pending_of_free (hcore.1.trans hlock)]
    | some q =>
      have hinside := (h.lock q).mp hlock
      have hq : q ≠ p := by
        rintro rfl
        exact hout hinside
      obtain ⟨w, hw, _⟩ := hinside
      rw [pending_of_lock hlock hw, pending_of_lock (hcore.1.trans hlock) ((hothers q hq).trans hw)]

theorem OffsetOk.inside (hlock : Owned (t.vol.icache ip).lock t.Inside) (hw : t.writer p = some w)
    (hin : w.pc.inside = true) (hvalid : (t.vol.icache ip).valid = true)
    (hloaded : ∀ off, w.pc = .writei off → off = (t.vol.ftable f).off)
    (hoff : (t.vol.ftable f).off.toNat + w.pc.pending = total) : OffsetOk f ip total t := by
  have hinside : t.Inside p := (inside_iff hw).mpr hin
  constructor
  · exact hlock
  · intro _ _
    exact hvalid
  · intro q u off hu hpc
    obtain rfl := hlock.unique hinside (inside_of_writei hu hpc)
    obtain rfl := some.inj (hw.symm.trans hu)
    exact hloaded off hpc
  · rw [pending_of_lock ((hlock p).mpr hinside) hw]
    exact hoff

theorem OffsetOk.release (h : OffsetOk f ip total s) (hw : s.writer p = some w)
    (hin : w.pc.inside = true) (hpending : w.pc.pending = 0) (hout : ¬ t.Inside p)
    (hothers : ∀ q, q ≠ p → t.writer q = s.writer q) (hlock : (t.vol.icache ip).lock = none)
    (hoff : (t.vol.ftable f).off = (s.vol.ftable f).off) : OffsetOk f ip total t := by
  have hinside : s.Inside p := (inside_iff hw).mpr hin
  have howned : Owned (t.vol.icache ip).lock t.Inside := by
    rw [hlock]
    refine h.lock.release hinside hout ?_
    intro q hq
    exact inside_of_writer_eq (hothers q hq)
  constructor
  · exact howned
  · intro q hq
    rw [hlock] at hq
    cases hq
  · intro q u off hu hpc
    have hheld := (howned q).mpr (inside_of_writei hu hpc)
    rw [hlock] at hheld
    cases hheld
  · rw [pending_of_free hlock, hoff, ← h.off, pending_of_lock ((h.lock p).mpr hinside) hw, hpending]

end Offset

/-! ### Steps -/

section Steps

variable [DecidableEq P] {devsw : Devsw} {s t : WriteState P} {f : Fin nfile}
variable {ip : ISlot} {o : ℕ} {old : List Byte} {order : Order} {p : P}
variable {w : Writer} {pc : WritePc} {calls : List WriteCall} {vol : Volume P}

theorem n1_le (w : Writer) : w.n1 ≤ w.call.n - w.i := by
  unfold Writer.n1
  split
  · omega
  · exact le_rfl

section

variable (hi : (w.i : ℤ) < w.call.n)

include hi

theorem n1_eq : w.n1 = (w.call.chunkAt w.i).length := by
  rw [WriteCall.length_chunkAt, Writer.n1]
  split
  · omega
  · omega

theorem n1_bounds : 0 < w.n1 ∧ w.n1 ≤ maxChunk := by
  unfold Writer.n1
  split
  · exact ⟨by decide, le_rfl⟩
  · omega

theorem toNat_ofInt_n1 : (BitVec.ofInt 32 w.n1).toNat = w.n1.toNat := by
  have hbounds := n1_bounds hi
  rw [BitVec.toNat_ofInt]
  congr 1
  apply Int.emod_eq_of_lt
  · omega
  · have hmax : (maxChunk : ℤ) < (2 ^ 32 : ℕ) := by decide
    omega

theorem toInt_ofInt_n1 : (BitVec.ofInt 32 w.n1).toInt = w.n1 := by
  have hbounds := n1_bounds hi
  have hmax : maxChunk = 1536 := rfl
  rw [BitVec.toInt_ofInt, Int.bmod_def]
  omega

end

section

variable (h : WriterOk calls order w)

include h

theorem WriterOk.goto (hwritten : pc.written = w.pc.written)
    (hbody : pc.inBody = true → (w.i : ℤ) < w.call.n)
    (hresult : ∀ r, pc.result = some r → r = -1 ∨ r = w.n1) :
    WriterOk calls order { w with pc := pc } := by
  refine ⟨h.call, h.le, h.aligned, hbody, hresult, ?_⟩
  rw [hwritten]
  exact h.chunks

theorem WriterOk.approach (hpc : w.pc.result = none) (hin : w.pc.inBody = true)
    (hpc' : pc.result = none) : WriterOk calls order { w with pc := pc } := by
  refine h.goto ?_ (fun _ => h.body hin) ?_
  · rw [written, written, hpc, hpc']
  · rw [hpc']
    intro r hr
    cases hr

theorem WriterOk.pass {r : ℤ} (hpc : w.pc.result = some r) (hin : w.pc.inBody = true)
    (hpc' : pc.result = some r) : WriterOk calls order { w with pc := pc } := by
  refine h.goto ?_ (fun _ => h.body hin) ?_
  · rw [written, written, hpc, hpc']
  · rw [hpc', ← hpc]
    exact h.result

theorem WriterOk.all_written (hi : ¬ (w.i : ℤ) < w.call.n)
    (hpc : w.pc.written = 0) : order.chunksOf w.id = w.call.chunks := by
  have hle := h.le
  have heq : w.i = w.call.n.toNat := by omega
  rw [h.chunks, hpc, Nat.add_zero, heq, WriteCall.chunks]

theorem WriterOk.next (hpc : w.pc = .check w.n1) :
    WriterOk calls order { w with i := w.i + w.n1.toNat, pc := .loop } := by
  have hi := h.body (by rw [hpc]; rfl)
  have hbounds := n1_bounds hi
  have hdvd : maxChunk ∣ w.i := by
    rcases h.aligned with hdvd | heq
    · exact hdvd
    · omega
  have hn1 : w.n1 = maxChunk ∨ w.n1 = w.call.n - w.i := by
    unfold Writer.n1
    split
    · exact Or.inl rfl
    · exact Or.inr rfl
  have hmin := n1_le w
  constructor
  · exact h.call
  · simp only
    omega
  · rcases hn1 with hn1 | hn1
    · left
      simp only [hn1, Int.toNat_natCast]
      exact Nat.dvd_add hdvd dvd_rfl
    · right
      simp only
      omega
  · simp [inBody]
  · simp [WritePc.result]
  · rw [h.chunks, hpc]
    rfl

end

omit [DecidableEq P] in
theorem ContentOk.of_vol (h : ContentOk f ip o old order s.vol)
    (hfile : (vol.ftable f).ip = (s.vol.ftable f).ip)
    (hhas : ∀ bytes, HasFile s.vol ip bytes → HasFile vol ip bytes) :
    ContentOk f ip o old order vol :=
  ⟨hfile.trans h.file, hhas _ h.content, h.start, h.small⟩

theorem goto_writer_self : (s.goto p w pc).writer p = some { w with pc := pc } :=
  update_self ..

theorem goto_writer_of_ne {q : P} (hq : q ≠ p) :
    (s.goto p w pc).writer q = s.writer q := update_of_ne hq ..

theorem setVol_goto_vol {g : Volume P → Volume P} :
    ((s.setVol g).goto p w pc).vol = g s.vol := rfl

section

variable (h : WritersOk f ip o old order s) (hw : s.writer p = some w)

include h hw

theorem WritersOk.outside {g : Volume P → Volume P} (hout : w.pc.inside = false)
    (hout' : pc.inside = false) (hok : WriterOk s.calls order { w with pc := pc })
    (hcontent : ContentOk f ip o old order (g s.vol)) (hicache : (g s.vol).icache = s.vol.icache)
    (hftable : (g s.vol).ftable = s.vol.ftable) :
    WritersOk f ip o old order ((s.setVol g).goto p w pc) := by
  refine ⟨?_, ?_, hcontent⟩
  · exact (h.calls.goto hw hok).of_eq rfl rfl rfl
  · apply h.offset.outside (p := p)
    · rw [inside_iff hw, hout]
      simp
    · rw [inside_iff goto_writer_self, hout']
      simp
    · intro q hq
      exact goto_writer_of_ne hq
    · constructor
      · exact congrArg (fun icache => (icache ip).lock) hicache
      · exact congrArg (fun icache => (icache ip).valid) hicache
    · exact congrArg (fun ftable => (ftable f).off) hftable

theorem WritersOk.outside_goto (hout : w.pc.inside = false)
    (hout' : pc.inside = false) (hok : WriterOk s.calls order { w with pc := pc }) :
    WritersOk f ip o old order (s.goto p w pc) :=
  h.outside (g := id) hw hout hout' hok h.content rfl rfl

theorem WritersOk.ret {v : ℤ}
    (hout : w.pc.inside = false) (hdone : v = w.call.n → order.chunksOf w.id = w.call.chunks) :
    WritersOk f ip o old order (s.ret p w v) := by
  refine ⟨h.calls.ret hw hdone, ?_, h.content⟩
  apply h.offset.outside (p := p)
  · rw [inside_iff hw, hout]
    simp
  · rintro ⟨u, hu, _⟩
    have hnone : (s.ret p w v).writer p = none := update_self ..
    rw [hnone] at hu
    cases hu
  · intro q hq
    exact update_of_ne hq ..
  · exact ⟨rfl, rfl⟩
  · rfl

theorem WritersOk.inside {order' : Order} (hin : w.pc.inside = true)
    (hin' : pc.inside = true) (hcalls : CallsOk order' (s.goto p w pc))
    (hlock : (vol.icache ip).lock = (s.vol.icache ip).lock) (hvalid : (vol.icache ip).valid = true)
    (hloaded : ∀ off, pc = .writei off → off = (vol.ftable f).off)
    (hoff : (vol.ftable f).off.toNat + pc.pending = o + order'.bytes.length)
    (hcontent : ContentOk f ip o old order' vol) :
    WritersOk f ip o old order' ((s.setVol fun _ => vol).goto p w pc) := by
  refine ⟨hcalls.of_eq rfl rfl rfl, ?_, hcontent⟩
  refine OffsetOk.inside (p := p) ?_ goto_writer_self hin' hvalid hloaded hoff
  change Owned (vol.icache ip).lock _
  rw [hlock]
  apply h.offset.lock.keep (p := p)
  · rw [inside_iff goto_writer_self, inside_iff hw, hin, hin']
  · intro q hq
    exact inside_of_writer_eq (goto_writer_of_ne hq)

theorem WritersOk.ilock (hpc : w.pc = .ilock) (hlock : (s.vol.icache ip).lock = none) :
    WritersOk f ip o old order ((s.setVol (·.setCore ip fun core =>
      { core with lock := some p, valid := true, node := s.vol.current ip })).goto
        p w .load) := by
  have hok : WriterOk s.calls order { w with pc := .load } :=
    (h.calls.writers p w hw).approach (by rw [hpc]; rfl) (by rw [hpc]; rfl) rfl
  refine ⟨(h.calls.goto hw hok).of_eq rfl rfl rfl, ?_, ?_⟩
  · have hfree := h.offset.lock
    rw [hlock] at hfree
    refine OffsetOk.inside (p := p) ?_ goto_writer_self rfl ?_ (by simp) ?_
    · rw [setVol_goto_vol, setCore_self]
      apply hfree.take
      · rw [inside_iff goto_writer_self]
        rfl
      · intro q hq
        exact inside_of_writer_eq (goto_writer_of_ne hq)
    · rw [setVol_goto_vol, setCore_self]
    · rw [← h.offset.off, pending_of_free hlock]
      rfl
  · refine h.content.of_vol (by rfl) ?_
    intro bytes hfile
    rw [setVol_goto_vol]
    apply hfile.setCore rfl
    exact (current_of_valid (by simp)).trans (by simp)

theorem WritersOk.advance {r : ℤ} (hpc : w.pc = .advance r) (hr : 0 < r) :
    WritersOk f ip o old order
      ((s.setVol (·.addOff f r)).goto p w (.iunlock r)) := by
  have hwriter := h.calls.writers p w hw
  have hin : w.pc.inside = true := by rw [hpc]; rfl
  have hlock := (h.offset.lock p).mpr ((inside_iff hw).mpr hin)
  have hoff := h.offset.off
  rw [pending_of_lock hlock hw, hpc, pending] at hoff
  refine h.inside hw hin rfl ?_ (by rfl) (h.offset.valid p hlock) (by simp) ?_ ?_
  · exact h.calls.goto hw (hwriter.pass (by rw [hpc]; rfl) (by rw [hpc]; rfl) rfl)
  · have hn1 : r = w.n1 := by
      rcases hwriter.result r (by rw [hpc]; rfl) with hr' | hr'
      · omega
      · exact hr'
    have hi := hwriter.body (by rw [hpc]; rfl)
    have hsmall := h.content.small
    simp only [addOff, update_self, pending]
    rw [BitVec.toNat_add, hn1, toNat_ofInt_n1 hi, ← hn1, hoff,
      Nat.mod_eq_of_lt hsmall, Nat.add_zero]
  · refine h.content.of_vol ?_ ?_
    · simp [addOff]
    · intro bytes hfile
      exact hfile.congr rfl rfl rfl rfl rfl rfl

theorem WritersOk.writei {off : BitVec 32} {r : Option (BitVec 32)}
    (hpc : w.pc = .writei off)
    (hrun : Vol.writei devsw ip (fun k => w.call.addr (w.i + k)) off
      (BitVec.ofInt 32 w.n1) s.vol = .ok r vol) :
    ∃ order', WritersOk f ip o old order'
      ((s.setVol fun _ => vol).goto p w (.advance (writeResult r))) := by
  have hwriter := h.calls.writers p w hw
  have hin : w.pc.inside = true := by rw [hpc]; rfl
  have hi := hwriter.body (by rw [hpc]; rfl)
  have hlock := (h.offset.lock p).mpr ((inside_iff hw).mpr hin)
  have hvalid := h.offset.valid p hlock
  have hoff := h.offset.off
  rw [pending_of_lock hlock hw, hpc] at hoff
  simp only [pending, Nat.add_zero] at hoff
  obtain rfl := h.offset.loaded p w off hw hpc
  rcases h.content.content.writei hvalid hrun with
    ⟨rfl, rfl⟩ | ⟨rfl, hstart, hfits, hftable, hlock', hvalid', hfile⟩
  · refine ⟨order, h.inside hw hin rfl ?_ rfl hvalid (by simp [writeResult]) hoff h.content⟩
    refine h.calls.goto hw (hwriter.goto ?_ (fun _ => hi) ?_)
    · rw [hpc]
      rfl
    · intro r hr
      exact Or.inl (some.inj hr).symm
  · have hn1 := n1_eq hi
    have hlength : (BitVec.ofInt 32 w.n1).toNat = (w.call.chunkAt w.i).length := by
      rw [toNat_ofInt_n1 hi, hn1, Int.toNat_natCast]
    have hchunk : (range (BitVec.ofInt 32 w.n1).toNat).map
        (fun k => w.call.addr (w.i + k)) = w.call.chunkAt w.i := by
      rw [hlength, WriteCall.length_chunkAt, WriteCall.chunkAt]
    have hresult : writeResult (some (BitVec.ofInt 32 w.n1)) = w.n1 := toInt_ofInt_n1 hi
    rw [hresult]
    rw [hlength] at hfits
    rw [hchunk] at hfile
    refine ⟨order ++ [(w.id, w.call.chunkAt w.i)],
      h.inside hw hin rfl ?_ hlock' hvalid' (by simp) ?_ ?_⟩
    · refine h.calls.move hw rfl ?_ (fun id hid => Order.chunksOf_concat_of_ne hid) ?_
      · refine ⟨hwriter.call, hwriter.le, hwriter.aligned, fun _ => hi, ?_, ?_⟩
        · intro r hr
          exact Or.inr (some.inj hr).symm
        · have hchunks := hwriter.chunks
          rw [hpc] at hchunks
          rw [Order.chunksOf_concat_self, hchunks]
          change w.call.chunksTo w.i ++ _ = w.call.chunksTo (w.i + w.n1.toNat)
          rw [hn1, Int.toNat_natCast, WriteCall.chunksTo_next]
          · rcases hwriter.aligned with hdvd | heq
            · exact hdvd
            · omega
          · omega
      · intro entry hmem
        rcases mem_append.mp hmem with hmem | hmem
        · exact h.calls.ids entry hmem
        · rw [mem_singleton.mp hmem]
          exact (List.getElem?_eq_some_iff.mp hwriter.call).1
    · rw [hftable, hoff, Order.bytes_concat, length_append, pending,
        hn1, Int.toNat_natCast, Nat.add_assoc]
    · have hold : o ≤ old.length := by
        by_cases hbytes : order.bytes = []
        · rw [hbytes, replaceAt_nil] at hstart
          omega
        · exact h.content.start hbytes
      refine ⟨(congrArg (fun ftable => (ftable f).ip) hftable).trans h.content.file,
        ?_, fun _ => hold, ?_⟩
      · rw [Order.bytes_concat, ← replaceAt_replaceAt hold, ← hoff]
        exact hfile
      · have hmax : maxfile * bsize < 2 ^ 32 := by decide
        rw [Order.bytes_concat, length_append]
        omega

theorem WritersOk.step
    (hstep : WriteStep devsw f s p w t) : ∃ order', WritersOk f ip o old order' t := by
  have hwriter := h.calls.writers p w hw
  cases hstep with
  | enter hpc =>
    refine ⟨order, h.outside_goto hw (by rw [hpc]; rfl) rfl ?_⟩
    apply hwriter.goto
    · rw [hpc]
      rfl
    · simp [inBody]
    · simp [WritePc.result]
  | refuse hpc =>
    refine ⟨order, h.ret hw (by rw [hpc]; rfl) ?_⟩
    intro hn
    apply hwriter.all_written
    · omega
    · rw [hpc]
      rfl
  | turn hpc hi =>
    refine ⟨order, h.outside_goto hw (by rw [hpc]; rfl) rfl ?_⟩
    apply hwriter.goto
    · rw [hpc]
      rfl
    · intro _
      exact hi
    · simp [WritePc.result]
  | leave hpc hi =>
    refine ⟨order, h.ret hw (by rw [hpc]; rfl) ?_⟩
    intro _
    apply hwriter.all_written hi
    rw [hpc]
    rfl
  | beginOp hpc =>
    refine ⟨order, h.outside hw (by rw [hpc]; rfl) rfl ?_ ?_ rfl rfl⟩
    · exact hwriter.approach (by rw [hpc]; rfl) (by rw [hpc]; rfl) rfl
    · exact h.content.of_vol rfl fun _ hfile =>
        hfile.congr rfl rfl rfl rfl rfl rfl
  | ilock hpc hip hlock =>
    obtain rfl := some.inj (h.content.file.symm.trans hip)
    exact ⟨order, h.ilock hw hpc hlock⟩
  | load hpc =>
    have hin : w.pc.inside = true := by rw [hpc]; rfl
    have hlock := (h.offset.lock p).mpr ((inside_iff hw).mpr hin)
    have hoff := h.offset.off
    rw [pending_of_lock hlock hw, hpc] at hoff
    refine ⟨order, h.inside hw hin rfl ?_ rfl (h.offset.valid p hlock) ?_ hoff h.content⟩
    · exact h.calls.goto hw (hwriter.approach (by rw [hpc]; rfl) (by rw [hpc]; rfl) rfl)
    · intro off hoff'
      exact (writei.inj hoff').symm
  | writei hpc hip hrun =>
    obtain rfl := some.inj (h.content.file.symm.trans hip)
    exact h.writei hw hpc hrun
  | advance hpc hr => exact ⟨order, h.advance hw hpc hr⟩
  | skip hpc hr =>
    have hin : w.pc.inside = true := by rw [hpc]; rfl
    have hlock := (h.offset.lock p).mpr ((inside_iff hw).mpr hin)
    have hoff := h.offset.off
    rw [pending_of_lock hlock hw, hpc, pending, Int.toNat_of_nonpos (not_lt.mp hr)] at hoff
    refine ⟨order, h.inside hw hin rfl ?_ rfl (h.offset.valid p hlock) (by simp) hoff h.content⟩
    exact h.calls.goto hw (hwriter.pass (by rw [hpc]; rfl) (by rw [hpc]; rfl) rfl)
  | iunlock hpc hip =>
    obtain rfl := some.inj (h.content.file.symm.trans hip)
    refine ⟨order, ?_, ?_, ?_⟩
    · refine (h.calls.goto hw ?_).of_eq rfl rfl rfl
      exact hwriter.pass (by rw [hpc]; rfl) (by rw [hpc]; rfl) rfl
    · apply h.offset.release hw
      · rw [hpc]
        rfl
      · rw [hpc]
        rfl
      · rw [inside_iff goto_writer_self]
        simp [WritePc.inside]
      · intro q hq
        exact goto_writer_of_ne hq
      · rw [setVol_goto_vol, setCore_self]
      · rfl
    · refine h.content.of_vol (by rfl) ?_
      intro bytes hfile
      rw [setVol_goto_vol]
      apply hfile.setCore rfl
      simp [current, setCore]
  | endOp hpc =>
    refine ⟨order, h.outside hw (by rw [hpc]; rfl) rfl ?_ ?_ rfl rfl⟩
    · exact hwriter.pass (by rw [hpc]; rfl) (by rw [hpc]; rfl) rfl
    · exact h.content.of_vol rfl fun _ hfile =>
        hfile.congr rfl rfl rfl rfl rfl rfl
  | fail hpc hr =>
    refine ⟨order, h.ret hw (by rw [hpc]; rfl) ?_⟩
    have hi := hwriter.body (by rw [hpc]; rfl)
    rw [if_neg hi.ne]
    intro hn
    omega
  | next hpc hr =>
    refine ⟨order, ?_, ?_, h.content⟩
    · exact h.calls.move hw rfl (hwriter.next hpc) (fun _ _ => rfl) h.calls.ids
    · apply h.offset.outside (p := p)
      · rw [inside_iff hw, hpc]
        simp [WritePc.inside]
      · rw [inside_iff goto_writer_self]
        simp [WritePc.inside]
      · intro q hq
        exact goto_writer_of_ne hq
      · exact ⟨rfl, rfl⟩
      · rfl

end

theorem WritersOk.perform {label : P × WriteAction} (h : ∃ order, WritersOk f ip o old order s)
    (hstep : stepOf (writePerform devsw f) s label = some t) :
    ∃ order, WritersOk f ip o old order t := by
  obtain ⟨order, h⟩ := h
  rw [stepOf_eq_some] at hstep
  obtain ⟨p, action⟩ := label
  cases action with
  | call c =>
    simp only [writePerform, bind_eq_ok, await_eq_ok, pure_eq_ok, exists_const] at hstep
    obtain ⟨hp, rfl⟩ := hstep
    refine ⟨order, h.calls.call hp c, ?_, h.content⟩
    apply h.offset.outside (p := p)
    · rintro ⟨w, hw, _⟩
      rw [hp] at hw
      cases hw
    · rw [inside_iff (update_self ..)]
      simp [WritePc.inside]
    · intro q hq
      exact update_of_ne hq ..
    · exact ⟨rfl, rfl⟩
    · rfl
  | advance =>
    simp only [writePerform, bind_eq_ok, awaitSome_eq_ok] at hstep
    obtain ⟨w, hw, hstep⟩ := hstep
    exact h.step hw (writeStep_of_filewriteStep hstep)

end Steps

end Xv6Kernel
