import Xv6Kernel.TraceExecution
import Mathlib.Logic.Function.Basic

/-!
# Threads that share a state

The code of a thread is a tree: an operation on the shared state, and for every
answer the code that follows.  Each operation is atomic, and between two
operations of a thread the other threads may do anything.  A system of threads
is a labelled step system, and its traces are the interleavings.

A thread that follows a discipline keeps a record of its own: the discipline
says which operations the record allows, which answers it lets the thread
expect, and how the record changes.  Whether a program keeps to a discipline is a
question about the program alone.  Whether the discipline is good for anything
is a question about single operations: if each operation that the record of its
thread allows gives an expected answer and restores an invariant that ties the
shared state to the records of all threads, then the invariant holds in every
interleaving.
-/

namespace ThreadPrograms

open TraceExecution Function

/-- A program over operations `O` with answers `R`. -/
inductive Prog (O : Type) (R : O → Type) (α : Type) : Type
  | ret (a : α)
  | op (o : O) (next : R o → Prog O R α)

variable {O : Type} {R : O → Type} {α β : Type}

namespace Prog

def bind : Prog O R α → (α → Prog O R β) → Prog O R β
  | .ret a, f => f a
  | .op o next, f => .op o fun r => (next r).bind f

def head : Prog O R α → Option O
  | .ret _ => none
  | .op o _ => some o

end Prog

instance : Monad (Prog O R) where
  pure := .ret
  bind := .bind

instance : LawfulMonad (Prog O R) := by
  refine LawfulMonad.mk' _ ?_ (fun _ _ => rfl) ?_
  · intro α x
    change x.bind .ret = x
    induction x with
    | ret a => rfl
    | op o next ih => simp only [Prog.bind, ih]
  · intro α β γ x f g
    change (x.bind f).bind g = x.bind fun a => (f a).bind g
    induction x with
    | ret a => rfl
    | op o next ih => simp only [Prog.bind, ih]

def perform (o : O) : Prog O R (R o) := .op o .ret

structure Pool (P σ O : Type) (R : O → Type) where
  shared : σ
  thread : P → Prog O R Unit

inductive Move (C : Type)
  | call (c : C)
  | advance
  deriving DecidableEq, Repr

/-- What the operations do for a thread, the code of each call, and when a
thread may begin one. -/
structure System (P σ O : Type) (R : O → Type) (C : Type) where
  run : P → (o : O) → σ → Outcome (R o × σ)
  body : C → Prog O R Unit
  may : Pool P σ O R → P → Bool

section System

variable {P σ C : Type} [DecidableEq P]

def System.perform (sys : System P σ O R C) (s : Pool P σ O R) :
    P × Move C → Outcome (Pool P σ O R)
  | (p, .call c) =>
      match s.thread p with
      | .ret _ =>
          if sys.may s p then
            .ok { s with thread := Function.update s.thread p (sys.body c) }
          else blocked
      | .op _ _ => blocked
  | (p, .advance) =>
      match s.thread p with
      | .ret _ => blocked
      | .op o next => do
          let (r, t) ← sys.run p o s.shared
          return { shared := t, thread := Function.update s.thread p (next r) }

def System.step (sys : System P σ O R C) : Pool P σ O R → P × Move C → Option (Pool P σ O R) :=
  stepOf sys.perform

/-- What one step is. -/
inductive StepOk (sys : System P σ O R C) (s : Pool P σ O R) (p : P) :
    Move C → Pool P σ O R → Prop
  | call (c : C) (u : Unit) (hidle : s.thread p = .ret u)
      (hmay : sys.may s p = true) :
      StepOk sys s p (.call c)
        { s with thread := Function.update s.thread p (sys.body c) }
  | advance (o : O) (next : R o → Prog O R Unit) (r : R o) (t : σ)
      (hat : s.thread p = .op o next) (hrun : sys.run p o s.shared = .ok (r, t)) :
      StepOk sys s p .advance
        { shared := t, thread := Function.update s.thread p (next r) }

theorem System.step_ok {sys : System P σ O R C} {s t : Pool P σ O R} {p : P} {move : Move C}
    (hstep : sys.step s (p, move) = some t) : StepOk sys s p move t := by
  simp only [System.step, stepOf_eq_some] at hstep
  cases move with
  | call c =>
    simp only [System.perform] at hstep
    split at hstep
    next u hidle =>
      split at hstep
      next hmay =>
        cases hstep
        exact .call c u hidle hmay
      next => simp at hstep
    next => simp at hstep
  | advance =>
    simp only [System.perform] at hstep
    split at hstep
    next => simp at hstep
    next o next hat =>
      simp only [bind_eq_ok, pure_eq_ok] at hstep
      obtain ⟨⟨r, t⟩, hrun, rfl⟩ := hstep
      exact .advance o next r t hat hrun

end System

structure Discipline (O : Type) (R : O → Type) (Λ : Type) where
  pre : O → Λ → Prop
  resp : (o : O) → R o → Λ → Prop
  next : (o : O) → R o → Λ → Λ

variable {Λ : Type} {d : Discipline O R Λ} {l : Λ}

/-- Run from the record `l`, the program keeps to the discipline, and ends with
a value and a record that satisfy `Q`. -/
def Keeps (d : Discipline O R Λ) : Prog O R α → Λ → (α → Λ → Prop) → Prop
  | .ret a, l, Q => Q a l
  | .op o next, l, Q =>
      d.pre o l ∧ ∀ r, d.resp o r l → Keeps d (next r) (d.next o r l) Q

section Rules

variable {x : Prog O R α} {f : α → Prog O R β}
variable {Q Q' : α → Λ → Prop} {S : β → Λ → Prop}

@[simp] theorem keeps_pure {a : α} :
    Keeps d (pure a : Prog O R α) l Q ↔ Q a l := Iff.rfl

@[simp] theorem keeps_perform {o : O} {Q : R o → Λ → Prop} :
    Keeps d (perform o : Prog O R (R o)) l Q ↔
      d.pre o l ∧ ∀ r, d.resp o r l → Q r (d.next o r l) := Iff.rfl

@[simp] theorem keeps_bind : Keeps d (x >>= f) l S ↔ Keeps d x l fun a l => Keeps d (f a) l S := by
  change Keeps d (x.bind f) l S ↔ _
  induction x generalizing l with
  | ret a => rfl
  | op o next ih =>
    simp only [Prog.bind, Keeps]
    constructor
    · rintro ⟨hpre, hnext⟩
      exact ⟨hpre, fun r hr => (ih r).mp (hnext r hr)⟩
    · rintro ⟨hpre, hnext⟩
      exact ⟨hpre, fun r hr => (ih r).mpr (hnext r hr)⟩

theorem Keeps.mono (hx : Keeps d x l Q) (hQ : ∀ a l, Q a l → Q' a l) : Keeps d x l Q' := by
  induction x generalizing l with
  | ret a => exact hQ a l hx
  | op o next ih => exact ⟨hx.1, fun r hr => ih r (hx.2 r hr)⟩

theorem Keeps.seq (hx : Keeps d x l Q)
    (hf : ∀ a l, Q a l → Keeps d (f a) l S) : Keeps d (x >>= f) l S := by
  rw [keeps_bind]
  exact hx.mono hf

end Rules

section Sound

variable {P σ C : Type} [DecidableEq P] {sys : System P σ O R C}
variable {inv : σ → (P → Λ) → Prop} {idle : Λ → Prop}

/-- The threads have records that satisfy the invariant, and the code that each
still has to run keeps to the discipline. -/
def Disciplined (d : Discipline O R Λ) (inv : σ → (P → Λ) → Prop)
    (idle : Λ → Prop) (s : Pool P σ O R) : Prop :=
  ∃ L : P → Λ, inv s.shared L ∧
    ∀ p, Keeps d (s.thread p) (L p) fun _ => idle

/-- One step, given what the operation that it performs does.  The operation may
also change the records of other threads, as long as their code still keeps to
the discipline. -/
theorem Disciplined.step {s t : Pool P σ O R} {p : P} {move : Move C}
    (hs : Disciplined d inv idle s) (hstep : sys.step s (p, move) = some t)
    (hcall : ∀ L c, inv s.shared L → sys.may s p = true → idle (L p) →
      Keeps d (sys.body c) (L p) fun _ => idle)
    (hop : ∀ L o next r u, inv s.shared L →
      (∀ q, Keeps d (s.thread q) (L q) fun _ => idle) → move = .advance →
      s.thread p = .op o next → sys.run p o s.shared = .ok (r, u) →
      d.resp o r (L p) ∧ ∃ L' : P → Λ, inv u L' ∧ L' p = d.next o r (L p) ∧
        ∀ q, q ≠ p → Keeps d (s.thread q) (L' q) fun _ => idle) :
    Disciplined d inv idle t := by
  obtain ⟨L, hinv, hkeeps⟩ := hs
  have hp := hkeeps p
  cases System.step_ok hstep with
  | call c u hidle hmay =>
    rw [hidle] at hp
    refine ⟨L, hinv, ?_⟩
    intro q
    by_cases hqp : q = p
    · subst q
      simp only [update_self]
      exact hcall L c hinv hmay hp
    · simp only [update_of_ne hqp]
      exact hkeeps q
  | advance o next r u hat hrun =>
    obtain ⟨hresp, L', hinv', hself, hothers⟩ := hop L o next r u hinv hkeeps rfl hat hrun
    rw [hat] at hp
    refine ⟨L', hinv', ?_⟩
    intro q
    by_cases hqp : q = p
    · subst q
      simp only [update_self]
      rw [hself]
      exact hp.2 r hresp
    · simp only [update_of_ne hqp]
      exact hothers q hqp

end Sound

end ThreadPrograms
