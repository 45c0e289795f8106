import Xv6Kernel.Pipe

/-!
# A pipe is a FIFO byte stream

The bytes delivered are always a prefix of the bytes stored, and the counters
of the ring are the lengths of the two sequences modulo `2^32`.  What carries
this over the interleavings is that a process between the test of its loop and
the access to `data` holds `p->lock`, so that the test is still true then.
-/

namespace Xv6Kernel

open TraceExecution RingBuffer WordBytes List

namespace PipeSystem

variable {P : Type} [DecidableEq P] {s t : PipeSystem P} {p : P}

structure StreamInvariant (s : PipeSystem P) : Prop where
  tracks : s.ring.Tracks s.stored s.delivered.length
  delivered : s.delivered <+: s.stored
  room : ∀ p addr i, s.pc p = .locked (.writeStore addr i) → ¬ s.ring.Full
  data : ∀ p n i, s.pc p = .locked (.readTake n i) → ¬ s.ring.Empty

omit [DecidableEq P] in
theorem streamInvariant_initial (creator : P) (data : Fin pipesize → Byte) :
    (initial creator data).StreamInvariant := by
  constructor
  · exact Ring.tracks_empty data
  · exact nil_prefix
  · simp [initial]
  · simp [initial]

theorem pipesize_dvd : pipesize ∣ 2 ^ 32 := by decide

theorem pipesize_lt : pipesize < 2 ^ 32 := by decide

section

omit [DecidableEq P]

theorem StreamInvariant.put (hs : s.StreamInvariant) (hfull : ¬ s.ring.Full) (byte : Byte) :
    (s.ring.put byte).Tracks (s.stored ++ [byte]) s.delivered.length ∧
      s.delivered <+: s.stored ++ [byte] := by
  refine ⟨hs.tracks.put pipesize_dvd pipesize_lt hfull byte, ?_⟩
  exact hs.delivered.trans (prefix_append _ _)

theorem StreamInvariant.take (hs : s.StreamInvariant) (hempty : ¬ s.ring.Empty) :
    s.ring.drop.Tracks s.stored (s.delivered ++ [s.ring.front]).length ∧
      s.delivered ++ [s.ring.front] <+: s.stored := by
  have hlt : s.delivered.length < s.stored.length := by
    have hle := hs.tracks.order
    have hne : s.stored.length ≠ s.delivered.length := fun heq =>
      hempty ((hs.tracks.empty_iff pipesize_lt).mpr heq)
    omega
  constructor
  · rw [length_append, length_singleton]
    exact hs.tracks.drop hlt
  · obtain ⟨rest, hrest⟩ := hs.delivered
    have hfront := hs.tracks.front pipesize_dvd hlt
    rw [hfront, prefix_iff_eq_take, length_append, length_singleton, ← take_append_getElem hlt]
    congr 1
    rw [← hrest, take_left]

theorem StreamInvariant.quiet (hs : s.StreamInvariant) (hquiet : Quiet s t) :
    t.StreamInvariant := by
  constructor
  case tracks =>
    rw [hquiet.ring, hquiet.stored, hquiet.delivered]
    exact hs.tracks
  case delivered =>
    rw [hquiet.stored, hquiet.delivered]
    exact hs.delivered
  case room =>
    intro q addr i hq
    rw [hquiet.ring]
    rcases hquiet.arrives q _ hq with hbefore | hentry
    · exact hs.room q addr i hbefore
    · exact hentry.elim
  case data =>
    intro q n i hq
    rw [hquiet.ring]
    rcases hquiet.arrives q _ hq with hbefore | hentry
    · exact hs.data q n i hbefore
    · exact hentry.elim

/-- What remains to be shown of a step with `p->lock` held: only the process
that took it can stand at a position in `pipe.c`. -/
private theorem streamInvariant_of_actor (hlocks : t.LockInvariant)
    (hlock : t.lock = some p ∨ t.lock = none)
    (hbuffer : t.ring.Tracks t.stored t.delivered.length ∧ t.delivered <+: t.stored)
    (hroom : ∀ addr i, t.pc p = .locked (.writeStore addr i) → ¬ t.ring.Full)
    (hdata : ∀ n i, t.pc p = .locked (.readTake n i) → ¬ t.ring.Empty) : t.StreamInvariant := by
  have hactor : ∀ q code, t.pc q = .locked code → q = p := by
    intro q code hq
    have howner := hlocks.owner hq
    rcases hlock with heq | heq
    · rw [howner] at heq
      exact Option.some.inj heq
    · rw [howner] at heq
      cases heq
  refine ⟨hbuffer.1, hbuffer.2, ?_, ?_⟩
  · intro q addr i hq
    obtain rfl := hactor q _ hq
    exact hroom addr i hq
  · intro q n i hq
    obtain rfl := hactor q _ hq
    exact hdata n i hq

end

theorem StreamInvariant.code (hs : s.StreamInvariant) (hlocks : s.LockInvariant)
    (hlocks' : t.LockInvariant) {code : PipeCode} (hpc : s.pc p = .locked code)
    (hcode : CodeOk s p code t) : t.StreamInvariant := by
  have hlock : t.lock = some p ∨ t.lock = none := by
    have howner := hlocks.owner hpc
    rcases hcode.actor.2.2 with ⟨heq, _⟩ | ⟨heq, _⟩
    · exact Or.inl (heq.trans howner)
    · exact Or.inr heq
  have hsame : s.ring.Tracks s.stored s.delivered.length ∧
      s.delivered <+: s.stored := ⟨hs.tracks, hs.delivered⟩
  apply streamInvariant_of_actor hlocks' hlock
  case hbuffer =>
    cases hcode
    case writeStore addr i => exact hs.put (hs.room p addr i hpc) _
    case readTake n i => exact hs.take (hs.data p n i hpc)
    all_goals exact hsame
  case hroom =>
    intro addr i hafter
    cases hcode
    case room hfull => exact hfull
    all_goals simp at hafter
  case hdata =>
    intro n i hafter
    cases hcode
    case readMore hempty => exact hempty
    all_goals simp at hafter

theorem StreamInvariant.step (hs : s.StreamInvariant) (hlocks : s.LockInvariant)
    {action : PipeAction P} (hstep : StepOk s p action t) : t.StreamInvariant := by
  rcases hstep.quiet with hquiet | ⟨_, code, hpc, hcode⟩
  · exact hs.quiet hquiet
  · exact hs.code hlocks (hlocks.step hstep) hpc hcode

theorem streamInvariant_of_run {creator : P} {data : Fin pipesize → Byte}
    {trace : List (P × PipeAction P)} (hexec : exec step (initial creator data) trace = some s) :
    s.LockInvariant ∧ s.StreamInvariant := by
  refine exec_invariant (P := fun s => s.LockInvariant ∧ s.StreamInvariant) ?_
    ⟨lockInvariant_initial creator data, streamInvariant_initial creator data⟩
    hexec
  rintro s ⟨p, action⟩ t ⟨hlocks, hstream⟩ hstep
  have hok := step_ok hstep
  exact ⟨hlocks.step hok, hstream.step hlocks hok⟩

/-- In every run on a pipe the counters are at most `PIPESIZE` apart, the bytes
delivered are a prefix of the bytes stored, and the rest of these are as many
as the counters say. -/
theorem pipe_fifo (creator : P) (data : Fin pipesize → Byte) (trace : List (P × PipeAction P))
    (s : PipeSystem P) (hexec : exec step (initial creator data) trace = some s) :
    (s.ring.nwrite - s.ring.nread).toNat ≤ pipesize ∧
      s.delivered <+: s.stored ∧
      s.stored.length =
        s.delivered.length + (s.ring.nwrite - s.ring.nread).toNat := by
  obtain ⟨_, hstream⟩ := streamInvariant_of_run hexec
  have hdistance := hstream.tracks.distance pipesize_lt
  have horder := hstream.tracks.order
  have hroom := hstream.tracks.room
  refine ⟨?_, hstream.delivered, ?_⟩
  · omega
  · omega

def writeThenRead : List (Unit × PipeAction Unit) :=
  ((), .pipewrite [7, 8]) :: List.replicate 8 ((), .advance) ++
    ((), .piperead 1) :: List.replicate 7 ((), .advance)

theorem pipe_fifo_writeThenRead :
    ∃ s, exec step (initial () fun _ => 0) writeThenRead = some s ∧
      s.stored = [7, 8] ∧ s.delivered = [7] ∧
      (s.ring.nwrite - s.ring.nread).toNat ≤ pipesize ∧
      s.stored.length =
        s.delivered.length + (s.ring.nwrite - s.ring.nread).toNat := by
  have hrun : (exec step (initial () fun _ => 0) writeThenRead).any
      (fun s => s.stored == [7, 8] && s.delivered == [7]) = true := by
    decide +kernel
  obtain ⟨s, hexec, htest⟩ := exec_of_any hrun
  simp only [Bool.and_eq_true, beq_iff_eq] at htest
  have hfifo := pipe_fifo () (fun _ => 0) writeThenRead s hexec
  exact ⟨s, hexec, htest.1, htest.2, hfifo.1, hfifo.2.2⟩

end PipeSystem

end Xv6Kernel
