import Xv6Kernel.WriteInterleaving

/-!
# A write in chunks is one write

`filewrite` run alone on a regular file.  Each round of its loop is a transaction that writes
one chunk where the last one ended, so in the end the file has all the bytes in their place,
and no round comes back short.  A single `writei` with all the bytes does the same where there
is room for them in the log.
-/

namespace Xv6Kernel

open TraceExecution StateHoare WordBytes BlockAllocation List

variable {P : Type}

def Volume.locked (s : Volume P) (p : P) (ip : ISlot) : Volume P :=
  s.beginOp.setCore ip fun core =>
    { core with lock := some p, valid := true, node := s.current ip }

def Volume.released (s : Volume P) (ip : ISlot) : Volume P :=
  (s.setCore ip fun core => { core with lock := none }).endOp

/-- The file is open for writing, no process is in the way, and a chunk fits in the log. -/
structure Writable (f : Fin nfile) (ip : ISlot) (s : Volume P) : Prop where
  inode : (s.ftable f).ip = some ip
  writable : (s.ftable f).writable = true
  ref : 1 ≤ (s.icache ip).ref
  lock : (s.icache ip).lock = none
  outstanding : s.outstanding = 0
  logged : s.logged = []
  nlog : 12 ≤ s.sb.nlog

section Locked

variable {s t : Volume P} {ip : ISlot} {p : P} {f : Fin nfile} {bytes : List Byte}

theorem locked_self (s : Volume P) (p : P) (ip : ISlot) : (s.locked p ip).icache ip =
    { s.icache ip with lock := some p, valid := true, node := s.current ip } :=
  Volume.setCore_self ..

theorem current_locked (s : Volume P) (p : P) (ip : ISlot) :
    (s.locked p ip).current ip = s.current ip := by
  rw [current_of_valid (by rw [locked_self]), locked_self]

theorem HasFile.locked (h : HasFile s ip bytes) (p : P) : HasFile (s.locked p ip) ip bytes := by
  refine h.congr rfl rfl rfl rfl ?_ (current_locked s p ip)
  rw [locked_self]

theorem released_self (s : Volume P) (ip : ISlot) :
    (s.released ip).icache ip = { s.icache ip with lock := none } :=
  Volume.setCore_self s ip fun core => { core with lock := none }

theorem current_released (hvalid : (s.icache ip).valid = true) :
    (s.released ip).current ip = s.current ip := by
  have hvalid' : ((s.released ip).icache ip).valid = true := by
    rw [released_self]
    exact hvalid
  rw [current_of_valid hvalid, current_of_valid hvalid', released_self]

theorem Writable.chunk_room (hready : Writable f ip s) {off n : ℕ} (hn : n ≤ maxChunk) :
    s.LogRoom (off / bsize) (blocksFor (off + n)) := by
  have hnlog := hready.nlog
  rw [Volume.LogRoom, hready.logged, Superblock.logLimit]
  simp only [maxChunk, maxOpBlocks, blocksFor, bsize, logSize, length_nil] at *
  omega

theorem need_locked_of_valid {lo hi : ℕ} (hvalid : (s.icache ip).valid = true) :
    (s.locked p ip).need ip lo hi = s.need ip lo hi := by
  refine need_congr ?_ rfl
  rw [locked_self, current_of_valid hvalid]

/-- `writei` inside the transaction: it does not come back short, and there is room for what
is still to come. -/
theorem HasFile.writei_locked (h : HasFile s ip bytes) (devsw : Devsw) (p : P) (src : ℕ → Byte)
    (off n : BitVec 32) (hi : ℕ) (hready : Writable f ip s) (hoff : off.toNat ≤ bytes.length)
    (hfits : off.toNat + n.toNat ≤ maxfile * bsize) (hhi : off.toNat + n.toNat ≤ hi * bsize)
    (hroom : (s.locked p ip).need ip (off.toNat / bsize) hi ≤ s.freeBlocks)
    (hlog : s.LogRoom (off.toNat / bsize) (blocksFor (off.toNat + n.toNat))) :
    ∃ t, Vol.writei devsw ip src off n (s.locked p ip) = .ok (some n) t ∧
      HasFile t ip (replaceAt bytes off.toNat ((range n.toNat).map src)) ∧
      t.sb = s.sb ∧ t.ftable = s.ftable ∧ t.outstanding = 1 ∧
      (t.icache ip).ref = (s.icache ip).ref ∧ (t.icache ip).lock = some p ∧
      (t.icache ip).valid = true ∧
      t.need ip ((off.toNat + n.toNat) / bsize) hi ≤ t.freeBlocks := by
  have hvalid : ((s.locked p ip).icache ip).valid = true := by rw [locked_self]
  have hlocked := h.locked p
  have hnode := current_of_valid hvalid
  have htype := hlocked.type
  have hholes := hlocked.noHoles
  have hcontent := hlocked.content
  rw [hnode] at htype hholes hcontent
  have hlength : bytes.length = ((s.locked p ip).icache ip).node.size.toNat := by
    simp [← hcontent, DiskNode.content]
  have hwithin : maxfile * bsize = 71680 := rfl
  have haccepted : ¬ Refused ((s.locked p ip).icache ip).node.size off n := by
    unfold Refused
    omega
  have howned := hlocked.ownedAt hvalid
  have hentered : (s.locked p ip).outstanding = 1 := by
    change s.outstanding + 1 = 1
    rw [hready.outstanding, zero_add]
  have hspec := ensures_writei (E := Volume.LogFull) devsw (by simp [htype]) (by simp [htype])
    howned hholes src off n hhi fun _ _ => Or.inr ⟨⟨hentered.ge, fun _ => id⟩, hroom⟩
  have hlogged := ensures_writei_room ip devsw (OwnedAt.boot howned) src off n fun _ => hlog
  obtain ⟨r, t, hrun, -, hresult⟩ := hspec.total_of_disjoint hlogged fun _ hfull hnot => hnot hfull
  obtain ⟨rfl, hrewritten, hleft⟩ := hresult haccepted hfits
  obtain ⟨size, addrs, hcore⟩ := hrewritten.apart.core
  rw [locked_self] at hcore
  have hfile : HasFile t ip (replaceAt bytes off.toNat ((range n.toNat).map src)) := by
    rcases hlocked.writei hvalid hrun with ⟨hnone, -⟩ | ⟨-, -, -, -, -, -, hfile⟩
    · contradiction
    · exact hfile
  refine ⟨t, hrun, hfile, hrewritten.apart.sb, hrewritten.apart.ftable,
    hrewritten.apart.outstanding.trans hentered, ?_, ?_, ?_, ?_⟩
  · rw [hcore]
  · rw [hcore]
  · rw [hcore]
  · rcases hleft with hfull | ⟨-, hle⟩
    · exact (hlog.not_logFull (hfull s)).elim
    · exact hle

end Locked

/-! ## One round -/

section Rounds

variable [DecidableEq P] {devsw : Devsw} {f : Fin nfile} {s t : WriteState P} {p : P} {w : Writer}
  {ip : ISlot} {vol : Volume P} {off hi : ℕ} {old : List Byte}

def WriteState.put (s : WriteState P) (p : P) (w : Writer) (vol : Volume P) : WriteState P :=
  { s with vol := vol, writer := Function.update s.writer p (some w) }

theorem put_goto (s : WriteState P) (p : P) (w w' : Writer) (vol : Volume P) (pc : WritePc) :
    (s.put p w vol).goto p w' pc = s.put p { w' with pc := pc } vol := by
  simp [WriteState.put, WriteState.goto]

theorem put_setVol (s : WriteState P) (p : P) (w : Writer) (vol : Volume P)
    (g : Volume P → Volume P) : (s.put p w vol).setVol g = s.put p w (g vol) := rfl

theorem exec_advance {rest : List (P × WriteAction)}
    (hstep : filewriteStep devsw f (s.put p w vol) p w = .ok t) :
    exec (stepOf (writePerform devsw f)) (s.put p w vol) ((p, .advance) :: rest) =
      exec (stepOf (writePerform devsw f)) t rest := by
  have hnext : stepOf (writePerform devsw f) (s.put p w vol) (p, .advance) = some t := by
    rw [stepOf_eq_some]
    simp only [writePerform, WriteState.put, Function.update_self]
    exact hstep
  rw [exec_cons, hnext, Option.bind_some]

/-- Behind the first `w.i` bytes of a call, at the head of the loop. -/
structure ChunksWritten (f : Fin nfile) (ip : ISlot) (p : P) (off hi : ℕ) (old : List Byte)
    (w : Writer) (vol : Volume P) : Prop where
  pc : w.pc = .loop
  ready : Writable f ip vol
  offset : (vol.ftable f).off.toNat = off + w.i
  file : HasFile vol ip (replaceAt old off ((List.range w.i).map w.call.addr))
  room : (vol.locked p ip).need ip ((off + w.i) / bsize) hi ≤ vol.freeBlocks

theorem length_replaceAt_le (hoff : off ≤ old.length) (new : List Byte) :
    off + new.length ≤ (replaceAt old off new).length := by
  simp only [replaceAt, length_append, length_take, length_drop]
  omega

theorem exec_round {t : Volume P} (hmore : (w.i : ℤ) < w.call.n) (hpc : w.pc = .loop)
    (hready : Writable f ip vol) (htype : (vol.current ip).type = .file)
    (hrun : Vol.writei devsw ip (fun k => w.call.addr (w.i + k)) (vol.ftable f).off
      (BitVec.ofInt 32 w.n1) (vol.locked p ip) = .ok (some (BitVec.ofInt 32 w.n1)) t)
    (hftable : t.ftable = vol.ftable) (href : (t.icache ip).ref = (vol.icache ip).ref)
    (hlock : (t.icache ip).lock = some p) (s : WriteState P) :
    exec (stepOf (writePerform devsw f)) (s.put p w vol) (replicate 9 (p, .advance)) =
      some (s.put p { w with i := w.i + w.n1.toNat } ((t.addOff f w.n1).released ip)) := by
  obtain ⟨hpos, hmax⟩ := n1_bounds hmore
  have hresult : writeResult (some (BitVec.ofInt 32 w.n1)) = w.n1 := toInt_ofInt_n1 hmore
  obtain ⟨id, call, i, pc⟩ := w
  obtain rfl : pc = .loop := hpc
  generalize hw1 : Writer.n1 ⟨id, call, i, .loop⟩ = n1 at hpos hmax hrun hresult
  have hn1 : ∀ pc, Writer.n1 ⟨id, call, i, pc⟩ = n1 := fun _ => hw1
  have hinode := hready.inode
  have hinode' : (t.ftable f).ip = some ip := by rw [hftable, hinode]
  have hoff : ((t.addOff f n1).ftable f).ip = some ip := by
    simp [Volume.addOff, hinode']
  have hlocked : lockInode vol.beginOp p ip = .ok (vol.locked p ip) := by
    have htype' : (vol.beginOp.current ip).type ≠ .none := by
      change (vol.current ip).type ≠ .none
      rw [htype]
      decide
    simp only [lockInode, bind_eq_ok, ensure_eq_ok, await_eq_ok, pure_eq_ok, exists_const]
    exact ⟨hready.ref, hready.lock, Or.inr htype', rfl⟩
  have hunlocked : unlockInode (t.addOff f n1) ip =
      .ok ((t.addOff f n1).setCore ip fun core => { core with lock := none }) := by
    simp only [unlockInode, bind_eq_ok, ensure_eq_ok, pure_eq_ok, exists_const]
    have hcore : (t.addOff f n1).icache = t.icache := rfl
    rw [hcore, href, hlock]
    exact ⟨⟨by simp, hready.ref⟩, trivial⟩
  have hturn : filewriteStep devsw f (s.put p ⟨id, call, i, .loop⟩ vol) p ⟨id, call, i, .loop⟩ =
      .ok (s.put p ⟨id, call, i, .beginOp⟩ vol) := by
    simp only [filewriteStep, if_pos hmore, put_goto]
    rfl
  have hbegin : filewriteStep devsw f (s.put p ⟨id, call, i, .beginOp⟩ vol) p
      ⟨id, call, i, .beginOp⟩ = .ok (s.put p ⟨id, call, i, .ilock⟩ vol.beginOp) := by
    simp only [filewriteStep, put_setVol, put_goto, bind_eq_ok, await_eq_ok, pure_eq_ok,
      exists_const, and_true]
    change (vol.logged.length + (vol.outstanding + 1) * maxOpBlocks : ℤ) ≤ logSize
    rw [hready.logged, hready.outstanding]
    decide
  have hilock : filewriteStep devsw f (s.put p ⟨id, call, i, .ilock⟩ vol.beginOp) p
      ⟨id, call, i, .ilock⟩ = .ok (s.put p ⟨id, call, i, .load⟩ (vol.locked p ip)) := by
    simp only [filewriteStep, bind_eq_ok, awaitSome_eq_ok, pure_eq_ok]
    refine ⟨ip, hinode, vol.locked p ip, hlocked, ?_⟩
    rw [put_setVol, put_goto]
  have hload : filewriteStep devsw f (s.put p ⟨id, call, i, .load⟩ (vol.locked p ip)) p
      ⟨id, call, i, .load⟩ =
      .ok (s.put p ⟨id, call, i, .writei (vol.ftable f).off⟩ (vol.locked p ip)) := by
    simp only [filewriteStep, put_goto]
    rfl
  have hwrite : filewriteStep devsw f
      (s.put p ⟨id, call, i, .writei (vol.ftable f).off⟩ (vol.locked p ip)) p
      ⟨id, call, i, .writei (vol.ftable f).off⟩ =
      .ok (s.put p ⟨id, call, i, .advance n1⟩ t) := by
    simp only [filewriteStep, bind_eq_ok, awaitSome_eq_ok, hn1]
    refine ⟨ip, hinode, ?_⟩
    have hvol : (s.put p ⟨id, call, i, .writei (vol.ftable f).off⟩ (vol.locked p ip)).vol =
      vol.locked p ip := rfl
    rw [hvol, hrun]
    simp only [hresult, put_setVol, put_goto]
    rfl
  have hadvance : filewriteStep devsw f (s.put p ⟨id, call, i, .advance n1⟩ t) p
      ⟨id, call, i, .advance n1⟩ = .ok (s.put p ⟨id, call, i, .iunlock n1⟩ (t.addOff f n1)) := by
    simp only [filewriteStep, if_pos hpos, put_setVol, put_goto]
    rfl
  have hiunlock : filewriteStep devsw f (s.put p ⟨id, call, i, .iunlock n1⟩ (t.addOff f n1)) p
      ⟨id, call, i, .iunlock n1⟩ = .ok (s.put p ⟨id, call, i, .endOp n1⟩
        ((t.addOff f n1).setCore ip fun core => { core with lock := none })) := by
    simp only [filewriteStep, bind_eq_ok, awaitSome_eq_ok, pure_eq_ok]
    refine ⟨ip, hoff, _, hunlocked, ?_⟩
    rw [put_setVol, put_goto]
  have hend : filewriteStep devsw f (s.put p ⟨id, call, i, .endOp n1⟩
      ((t.addOff f n1).setCore ip fun core => { core with lock := none })) p
      ⟨id, call, i, .endOp n1⟩ =
      .ok (s.put p ⟨id, call, i, .check n1⟩ ((t.addOff f n1).released ip)) := by
    simp only [filewriteStep, put_setVol, put_goto]
    rfl
  have hcheck : filewriteStep devsw f
      (s.put p ⟨id, call, i, .check n1⟩ ((t.addOff f n1).released ip)) p
      ⟨id, call, i, .check n1⟩ =
      .ok (s.put p ⟨id, call, i + n1.toNat, .loop⟩ ((t.addOff f n1).released ip)) := by
    simp only [filewriteStep, hn1, if_neg (not_lt.mpr hpos.le), ne_eq, not_true_eq_false, if_false,
      put_goto]
    rfl
  simp only [replicate]
  rw [exec_advance hturn, exec_advance hbegin, exec_advance hilock, exec_advance hload,
    exec_advance hwrite, exec_advance hadvance, exec_advance hiunlock, exec_advance hend,
    exec_advance hcheck, exec_nil]

theorem ChunksWritten.round (h : ChunksWritten f ip p off hi old w vol) (devsw : Devsw)
    (hmore : (w.i : ℤ) < w.call.n) (hoff : off ≤ old.length)
    (hfits : off + w.call.n.toNat ≤ maxfile * bsize) (hhi : off + w.call.n.toNat ≤ hi * bsize)
    (s : WriteState P) : ∃ vol',
      exec (stepOf (writePerform devsw f)) (s.put p w vol) (replicate 9 (p, .advance)) =
        some (s.put p { w with i := w.i + w.n1.toNat } vol') ∧
      ChunksWritten f ip p off hi old { w with i := w.i + w.n1.toNat } vol' := by
  obtain ⟨hpos, hmax⟩ := n1_bounds hmore
  have hn1 := toNat_ofInt_n1 hmore
  have hle := n1_le w
  have hready := h.ready
  have hoffset := h.offset
  have hlong : off + w.i ≤ (replaceAt old off ((range w.i).map w.call.addr)).length := by
    have hle := length_replaceAt_le hoff ((range w.i).map w.call.addr)
    rwa [length_map, length_range] at hle
  obtain ⟨t, hrun, hfile, hsb, hftable, houtstanding, href, hlock, hvalid, hroom⟩ :=
    h.file.writei_locked devsw p (fun k => w.call.addr (w.i + k)) (vol.ftable f).off
      (BitVec.ofInt 32 w.n1) hi hready (by omega) (by omega) (by omega)
      (by rw [hoffset]; exact h.room) (hready.chunk_room (by omega))
  refine ⟨(t.addOff f w.n1).released ip,
    exec_round hmore h.pc hready h.file.type hrun hftable href hlock s, ?_⟩
  have hfields : ((t.addOff f w.n1).released ip).ftable f =
      { vol.ftable f with off := (vol.ftable f).off + BitVec.ofInt 32 w.n1 } := by
    rw [← hftable]
    exact Function.update_self ..
  have hcore := released_self (t.addOff f w.n1) ip
  constructor
  case pc => exact h.pc
  case ready =>
    constructor
    case inode =>
      rw [hfields]
      exact hready.inode
    case writable =>
      rw [hfields]
      exact hready.writable
    case ref =>
      rw [hcore]
      exact href.symm ▸ hready.ref
    case lock => rw [hcore]
    case outstanding =>
      change t.outstanding - 1 = 0
      rw [houtstanding, sub_self]
    case logged => exact if_pos houtstanding
    case nlog => exact hsb.symm ▸ hready.nlog
  case offset =>
    have hlimit : maxfile * bsize = 71680 := rfl
    rw [hfields, BitVec.toNat_add, hn1, hoffset]
    change (off + w.i + w.n1.toNat) % 2 ^ 32 = off + (w.i + w.n1.toNat)
    omega
  case file =>
    have hlength : ((range w.i).map w.call.addr).length = w.i := by simp
    have htwice : replaceAt (replaceAt old off ((range w.i).map w.call.addr)) (off + w.i)
        ((range w.n1.toNat).map fun k => w.call.addr (w.i + k)) =
          replaceAt old off ((range (w.i + w.n1.toNat)).map w.call.addr) := by
      rw [range_add, map_append, map_map]
      nth_rewrite 2 [← hlength]
      exact replaceAt_replaceAt hoff
    rw [hn1, hoffset, htwice] at hfile
    exact hfile.congr rfl rfl rfl rfl (by rw [hcore]; rfl) (current_released hvalid)
  case room =>
    have hvalid' : (((t.addOff f w.n1).released ip).icache ip).valid = true := by
      rw [hcore]
      exact hvalid
    have hneed : ((t.addOff f w.n1).released ip).need ip ((off + (w.i + w.n1.toNat)) / bsize) hi =
        t.need ip ((off + (w.i + w.n1.toNat)) / bsize) hi :=
      need_congr (by rw [hcore]; rfl) rfl
    rw [need_locked_of_valid hvalid', hneed, ← Nat.add_assoc]
    rw [hoffset, hn1] at hroom
    exact hroom

theorem ChunksWritten.finish (h : ChunksWritten f ip p off hi old w vol) (devsw : Devsw)
    (hi' : (w.i : ℤ) ≤ w.call.n) (hoff : off ≤ old.length)
    (hfits : off + w.call.n.toNat ≤ maxfile * bsize) (hhi : off + w.call.n.toNat ≤ hi * bsize)
    (s : WriteState P) : ∃ steps w' vol', w'.id = w.id ∧ w'.call = w.call ∧
      exec (stepOf (writePerform devsw f)) (s.put p w vol) (replicate steps (p, .advance)) =
        some ((s.put p w' vol').ret p w' w.call.n) ∧
      ChunksWritten f ip p off hi old w' vol' ∧ (w'.i : ℤ) = w.call.n := by
  generalize hleft : w.call.n.toNat - w.i = left
  induction left using Nat.strong_induction_on generalizing w vol with
  | _ left ih =>
    by_cases hmore : (w.i : ℤ) < w.call.n
    · obtain ⟨vol', hexec, h'⟩ := h.round devsw hmore hoff hfits hhi s
      have hbounds := n1_bounds hmore
      have hle := n1_le w
      obtain ⟨steps, w', vol'', hid, hcall, hrest, hdone⟩ :=
        ih (left - w.n1.toNat) (by omega) h' (by simp only; omega) hfits hhi (by simp only; omega)
      refine ⟨9 + steps, w', vol'', hid, hcall, ?_, hdone⟩
      rw [replicate_add, exec_append, hexec, Option.bind_some]
      exact hrest
    · have hend : (w.i : ℤ) = w.call.n := by omega
      have hstep : filewriteStep devsw f (s.put p w vol) p w =
          .ok ((s.put p w vol).ret p w w.call.n) := by
        simp only [filewriteStep, h.pc, if_neg hmore, WriteState.finish, if_pos hend]
        rfl
      exact ⟨1, w, vol, rfl, rfl, exec_advance hstep, h, hend⟩

end Rounds

/-- `filewrite` run alone returns `n` and leaves all the bytes in the file, whatever their number;
a single `writei` does so where the log has room for it. -/
theorem filewrite_eq_writei [DecidableEq P] (devsw : Devsw) (f : Fin nfile) (s : WriteState P)
    (p : P) (ip : ISlot) (call : WriteCall) {bytes : List Byte} (hidle : s.writer p = none)
    (hready : Writable f ip s.vol) (hfile : HasFile s.vol ip bytes) (hn : 0 ≤ call.n)
    (hoff : (s.vol.ftable f).off ≤ (s.vol.current ip).size)
    (hfits : (s.vol.ftable f).off.toNat + call.n.toNat ≤ maxfile * bsize)
    (hroom : (s.vol.locked p ip).need ip ((s.vol.ftable f).off.toNat / bsize)
      (blocksFor ((s.vol.ftable f).off.toNat + call.n.toNat)) ≤ s.vol.freeBlocks) :
    ∃ steps t, exec (stepOf (writePerform devsw f)) s
        ((p, .call call) :: List.replicate steps (p, .advance)) = some t ∧
      t.writer p = none ∧ t.results = s.results ++ [(s.calls.length, call.n)] ∧
      (t.vol.ftable f).off = (s.vol.ftable f).off + BitVec.ofInt 32 call.n ∧
      (t.vol.current ip).content t.vol.data =
        replaceAt bytes (s.vol.ftable f).off.toNat ((range call.n.toNat).map call.addr) ∧
      (s.vol.LogRoom ((s.vol.ftable f).off.toNat / bsize)
          (blocksFor ((s.vol.ftable f).off.toNat + call.n.toNat)) →
        ∃ u, Vol.writei devsw ip call.addr (s.vol.ftable f).off (BitVec.ofInt 32 call.n)
            (s.vol.locked p ip) = .ok (some (BitVec.ofInt 32 call.n)) u ∧
          (t.vol.current ip).size = (u.icache ip).node.size ∧
          (t.vol.current ip).content t.vol.data = (u.icache ip).node.content u.data) := by
  have hlimit : maxfile * bsize = 71680 := rfl
  have hlength : bytes.length = (s.vol.current ip).size.toNat := by
    rw [← hfile.content, DiskNode.content, List.length_map, List.length_range]
  have hstart : (s.vol.ftable f).off.toNat ≤ bytes.length := by
    rw [hlength]
    exact hoff
  have hcount : (BitVec.ofInt 32 call.n).toNat = call.n.toNat := by
    rw [BitVec.toNat_ofInt]
    omega
  have hhi := le_blocksFor ((s.vol.ftable f).off.toNat + call.n.toNat)
  -- the call, chunk by chunk
  have hcall : stepOf (writePerform devsw f) s (p, .call call) =
      some ({ s with calls := s.calls ++ [call] }.put p
        ⟨s.calls.length, call, 0, .entry⟩ s.vol) := by
    simp only [stepOf_eq_some, writePerform, bind_eq_ok, await_eq_ok, pure_eq_ok, exists_const]
    exact ⟨hidle, rfl⟩
  have hentry : filewriteStep devsw f
      ({ s with calls := s.calls ++ [call] }.put p ⟨s.calls.length, call, 0, .entry⟩ s.vol) p
      ⟨s.calls.length, call, 0, .entry⟩ =
      .ok ({ s with calls := s.calls ++ [call] }.put p ⟨s.calls.length, call, 0, .loop⟩ s.vol) := by
    have hwritable : (({ s with calls := s.calls ++ [call] }.put p
      ⟨s.calls.length, call, 0, .entry⟩ s.vol).vol.ftable f).writable = true := hready.writable
    have hsome : (({ s with calls := s.calls ++ [call] }.put p
      ⟨s.calls.length, call, 0, .entry⟩ s.vol).vol.ftable f).ip.isSome = true :=
      hready.inode ▸ rfl
    simp only [filewriteStep, if_pos hwritable, if_pos hsome, put_goto]
    rfl
  have hloop : ChunksWritten f ip p (s.vol.ftable f).off.toNat
      (blocksFor ((s.vol.ftable f).off.toNat + call.n.toNat)) bytes
      ⟨s.calls.length, call, 0, .loop⟩ s.vol :=
    ⟨rfl, hready, rfl, by rwa [List.range_zero, List.map_nil, replaceAt_nil], hroom⟩
  obtain ⟨steps, w, vol, hid, hsame, hexec, hdone, hend⟩ := hloop.finish devsw hn hstart
    hfits hhi { s with calls := s.calls ++ [call] }
  have hw : w.i = call.n.toNat := by
    change (w.i : ℤ) = call.n at hend
    omega
  have hcontent := hdone.file.content
  rw [hsame, hw] at hcontent
  refine ⟨1 + steps, ({ s with calls := s.calls ++ [call] }.put p w vol).ret p w call.n,
    ?_, ?_, ?_, ?_, hcontent, ?_⟩
  · rw [exec_cons, hcall, Option.bind_some, List.replicate_add, List.replicate_one,
      List.singleton_append, exec_advance hentry]
    exact hexec
  · exact Function.update_self ..
  · change s.results ++ [(w.id, call.n)] = s.results ++ [(s.calls.length, call.n)]
    rw [hid]
  · refine BitVec.eq_of_toNat_eq ?_
    have hoffset := hdone.offset
    change (vol.ftable f).off.toNat = _
    rw [hoffset, hw, BitVec.toNat_add, hcount]
    omega
  · intro hlog
    obtain ⟨u, hrun, hu, -, -, -, -, -, hvalid, -⟩ := hfile.writei_locked devsw p call.addr
      (s.vol.ftable f).off (BitVec.ofInt 32 call.n)
      (blocksFor ((s.vol.ftable f).off.toNat + call.n.toNat)) hready hstart
      (by simp only [hcount]; exact hfits) (by simp only [hcount]; exact hhi) hroom
      (by simp only [hcount]; exact hlog)
    have hcontent' := hu.content
    rw [current_of_valid hvalid, hcount] at hcontent'
    have heq : (vol.current ip).content vol.data = (u.icache ip).node.content u.data :=
      hcontent.trans hcontent'.symm
    refine ⟨u, hrun, BitVec.eq_of_toNat_eq ?_, heq⟩
    have hsizes := congrArg List.length heq
    rw [DiskNode.content, DiskNode.content, List.length_map, List.length_map, List.length_range,
      List.length_range] at hsizes
    exact hsizes

theorem notes_writable : Writable 0 1 notesVolume :=
  ⟨rfl, rfl, by decide, rfl, rfl, rfl, by decide⟩

/-- Three chunks. -/
theorem filewrite_eq_writei_threeChunks : ∃ steps t u,
    exec (stepOf (writePerform noDevices 0)) (WriteState.start notesVolume)
        ((false, .call ⟨fun _ => 7, 4000⟩) :: List.replicate steps (false, .advance)) = some t ∧
      t.results = [(0, 4000)] ∧
      Vol.writei noDevices 1 (fun _ => 7) 0 4000 (notesVolume.locked false 1) = .ok (some 4000) u ∧
      (t.vol.current 1).content t.vol.data = (u.icache 1).node.content u.data := by
  obtain ⟨steps, t, hexec, -, hresults, -, -, hsingle⟩ :=
    filewrite_eq_writei noDevices 0 (WriteState.start notesVolume) false 1 ⟨fun _ => 7, 4000⟩ rfl
      notes_writable notes_hasFile (by decide) (by decide) (by decide) (by decide +kernel)
  obtain ⟨u, hrun, -, hcontent⟩ := hsingle (by decide)
  exact ⟨steps, t, u, hexec, hresults, hrun, hcontent⟩

/-- Thirty blocks in one `writei` are too many for the log. -/
theorem writei_exceeds_transaction :
    Writable 0 1 notesVolume ∧ HasFile notesVolume 1 (replicate 10 0) ∧
      (notesVolume.locked false 1).need 1 0 (blocksFor 15360) ≤ notesVolume.freeBlocks ∧
      ∃ t, Vol.writei noDevices 1 (fun _ => 7) 0 15360 (notesVolume.locked false 1) =
        .error (.panic "too big a transaction") t :=
  ⟨notes_writable, notes_hasFile, by decide +kernel, _, eq_error (by decide +kernel)⟩

end Xv6Kernel
