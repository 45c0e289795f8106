import Mathlib.Algebra.BigOperators.Group.Finset.Basic
import Mathlib.Data.Fintype.Basic
import Mathlib.Data.List.Basic
import Mathlib.Tactic

/-!
# Executions of a labelled step function

A system is a partial step function: a label names one atomic step of one
party, and `none` means that the step is not enabled.  A trace is a list of
labels, so the order in which the parties move is part of the trace and every
statement over all traces is a statement over all interleavings.

`Always` speaks about every state visited by a trace, `StepsMeet` about the
state in front of every step.  Two rules turn a fact about one step into a
fact about a whole trace.

Kernel code is written in the monad `Outcome`: a computation delivers a
result, blocks, or stops the machine with a message.  Only the first is a step
of the system, so states behind a panic do not exist, and a panic is a
property of the state and the step that would raise it.
-/

namespace TraceExecution

open Finset Option

/-- Literals for two parties. -/
instance neZero_two : NeZero 2 := ⟨two_ne_zero⟩

variable {σ ℓ : Type}

def exec (step : σ → ℓ → Option σ) : σ → List ℓ → Option σ
  | s, [] => some s
  | s, label :: rest => (step s label).bind fun next => exec step next rest

/-- The predicate holds in every state visited by the trace. -/
def Always (step : σ → ℓ → Option σ) (P : σ → Prop) : σ → List ℓ → Prop
  | s, [] => P s
  | s, label :: rest =>
      P s ∧ ∀ next, step s label = some next → Always step P next rest

/-- The condition holds of every step of the trace in the state before it. -/
def StepsMeet (step : σ → ℓ → Option σ) (Q : σ → ℓ → Prop) :
    σ → List ℓ → Prop
  | _, [] => True
  | s, label :: rest =>
      Q s label ∧ ∀ next, step s label = some next → StepsMeet step Q next rest

/-- The steps of the trace are enabled, and the test holds in the state before
each of them. -/
def checkSteps (step : σ → ℓ → Option σ) (test : σ → ℓ → Bool) :
    σ → List ℓ → Bool
  | _, [] => true
  | s, label :: rest =>
      test s label && (step s label).any fun next =>
        checkSteps step test next rest

def Reachable (step : σ → ℓ → Option σ) (init : σ → Prop) (s : σ) : Prop :=
  ∃ start trace, init start ∧ exec step start trace = some s

section Execution

variable {step : σ → ℓ → Option σ} {s t mid : σ} {label : ℓ} {rest trace before : List ℓ}
  {P init : σ → Prop} {Q : σ → ℓ → Prop}

@[simp] theorem exec_nil (s : σ) : exec step s [] = some s := rfl

@[simp] theorem exec_cons (s : σ) (label : ℓ) (rest : List ℓ) :
    exec step s (label :: rest) =
      (step s label).bind fun next => exec step next rest := rfl

theorem exec_cons_eq_some (hexec : exec step s (label :: rest) = some t) :
    ∃ next, step s label = some next ∧ exec step next rest = some t := by
  simpa [bind_eq_some_iff] using hexec

theorem exec_append (s : σ) (before after : List ℓ) :
    exec step s (before ++ after) =
      (exec step s before).bind fun mid => exec step mid after := by
  induction before generalizing s with
  | nil => rfl
  | cons label rest ih =>
    simp only [List.cons_append, exec_cons, bind_assoc]
    congr 1
    funext next
    exact ih next

theorem exec_of_any {test : σ → Bool} (htest : (exec step s trace).any test = true) :
    ∃ t, exec step s trace = some t ∧ test t = true := by
  cases hexec : exec step s trace with
  | none =>
    rw [hexec] at htest
    contradiction
  | some t =>
    rw [hexec] at htest
    exact ⟨t, rfl, htest⟩

theorem Always.head (halways : Always step P s trace) : P s := by
  cases trace with
  | nil => exact halways
  | cons label rest => exact halways.1

theorem Always.cons {next : σ} (hs : P s) (hstep : step s label = some next)
    (hrest : Always step P next rest) : Always step P s (label :: rest) := by
  refine ⟨hs, ?_⟩
  intro other hother
  rw [hstep, some.injEq] at hother
  exact hother ▸ hrest

theorem StepsMeet.cons {next : σ} (hs : Q s label) (hstep : step s label = some next)
    (hrest : StepsMeet step Q next rest) : StepsMeet step Q s (label :: rest) := by
  refine ⟨hs, ?_⟩
  intro other hother
  rw [hstep, some.injEq] at hother
  exact hother ▸ hrest

theorem StepsMeet.snoc (hmeet : StepsMeet step Q s trace) (hexec : exec step s trace = some t)
    (ht : Q t label) : StepsMeet step Q s (trace ++ [label]) := by
  induction trace generalizing s with
  | nil =>
    obtain rfl : s = t := by simpa using hexec
    exact ⟨ht, fun _ _ => trivial⟩
  | cons first rest ih =>
    obtain ⟨next, hstep, hrest⟩ := exec_cons_eq_some hexec
    exact .cons hmeet.1 hstep (ih (hmeet.2 next hstep) hrest)

theorem stepsMeet_of_checkSteps {test : σ → ℓ → Bool}
    (hcheck : checkSteps step test s trace = true) :
    StepsMeet step (fun s label => test s label = true) s trace := by
  induction trace generalizing s with
  | nil => trivial
  | cons label rest ih =>
    simp only [checkSteps, Bool.and_eq_true] at hcheck
    refine ⟨hcheck.1, ?_⟩
    intro next hstep
    have hrest := hcheck.2
    rw [hstep] at hrest
    exact ih hrest

theorem always_of_checkSteps {test : σ → Bool}
    (hcheck : checkSteps step (fun s _ => test s) s trace = true)
    (hlast : (exec step s trace).any test = true) :
    Always step (fun s => test s = true) s trace := by
  induction trace generalizing s with
  | nil => exact hlast
  | cons label rest ih =>
    simp only [checkSteps, Bool.and_eq_true] at hcheck
    refine ⟨hcheck.1, ?_⟩
    intro next hstep
    have hrest := hcheck.2
    rw [hstep] at hrest
    rw [exec_cons, hstep] at hlast
    exact ih hrest hlast

/-- A predicate preserved by every step that meets a condition is preserved by
every trace whose steps meet it. -/
theorem StepsMeet.invariant
    (hpreserved : ∀ s label next, P s → Q s label → step s label = some next → P next) (hs : P s)
    (hmeet : StepsMeet step Q s trace) (hexec : exec step s trace = some t) : P t := by
  induction trace generalizing s with
  | nil =>
    obtain rfl : s = t := by simpa using hexec
    exact hs
  | cons label rest ih =>
    obtain ⟨next, hstep, hrest⟩ := exec_cons_eq_some hexec
    exact ih (hpreserved s label next hs hmeet.1 hstep) (hmeet.2 next hstep) hrest

/-- A predicate preserved by every step into a state that satisfies a condition
is preserved by every trace that visits only such states. -/
theorem Always.invariant {R : σ → Prop}
    (hpreserved : ∀ s label next, P s → R next → step s label = some next → P next) (hs : P s)
    (halways : Always step R s trace) (hexec : exec step s trace = some t) : P t := by
  induction trace generalizing s with
  | nil =>
    obtain rfl : s = t := by simpa using hexec
    exact hs
  | cons label rest ih =>
    obtain ⟨next, hstep, hrest⟩ := exec_cons_eq_some hexec
    have hnext := halways.2 next hstep
    exact ih (hpreserved s label next hs hnext.head hstep) hnext hrest

theorem Always.append {after : List ℓ} (halways : Always step P s (before ++ after))
    (hexec : exec step s before = some mid) : Always step P s before ∧ Always step P mid after := by
  induction before generalizing s with
  | nil =>
    obtain rfl : s = mid := by simpa using hexec
    exact ⟨halways.head, halways⟩
  | cons label rest ih =>
    obtain ⟨next, hstep, hrest⟩ := exec_cons_eq_some hexec
    obtain ⟨hbefore, hafter⟩ := ih (halways.2 next hstep) hrest
    exact ⟨.cons halways.1 hstep hbefore, hafter⟩

theorem stepsMeet_true (s : σ) (trace : List ℓ) : StepsMeet step (fun _ _ => True) s trace := by
  induction trace generalizing s with
  | nil => trivial
  | cons label rest ih => exact ⟨trivial, fun next _ => ih next⟩

/-- A predicate preserved by every step is preserved by every trace. -/
theorem exec_invariant (hpreserved : ∀ s label next, P s → step s label = some next → P next)
    {s t : σ} (hs : P s) (hexec : exec step s trace = some t) : P t :=
  StepsMeet.invariant (fun s label next hs _ => hpreserved s label next hs) hs
    (stepsMeet_true s trace) hexec

/-- An inductive invariant holds in every reachable state. -/
theorem Reachable.invariant (hinit : ∀ s, init s → P s)
    (hpreserved : ∀ s label next, P s → step s label = some next → P next)
    (hreach : Reachable step init s) : P s := by
  obtain ⟨start, trace, hstart, hexec⟩ := hreach
  exact exec_invariant hpreserved (hinit start hstart) hexec

/-- A counter that only some labels raise, by one each, stays below a bound
that the trace has too few of those labels to reach. -/
theorem stepsMeet_counter {count : σ → ℤ} {raises : ℓ → Bool} {bound : ℤ}
    (low : ℤ)
    (hraise : ∀ s label next, step s label = some next → raises label = true →
      low ≤ count s → count s < bound → count next = count s + 1)
    (hkeep : ∀ s label next, step s label = some next → raises label = false →
      count next = count s)
    (hlow : low ≤ count s)
    (hroom : count s + trace.countP raises ≤ bound) :
    StepsMeet step (fun s label => raises label = true → count s < bound)
      s trace := by
  induction trace generalizing s with
  | nil => trivial
  | cons label rest ih =>
    by_cases hlabel : raises label = true
    · rw [List.countP_cons_of_pos hlabel] at hroom
      push_cast at hroom
      have hlt : count s < bound := by omega
      refine ⟨fun _ => hlt, ?_⟩
      intro next hnext
      have hcount := hraise s label next hnext hlabel hlow hlt
      exact ih (by omega) (by omega)
    · rw [List.countP_cons_of_neg hlabel] at hroom
      refine ⟨fun htrue => (hlabel htrue).elim, ?_⟩
      intro next hnext
      have hcount := hkeep s label next hnext (by simpa using hlabel)
      exact ih (by omega) (by omega)

theorem Reachable.after (hreach : Reachable step init s) (hexec : exec step s trace = some t) :
    Reachable step init t := by
  obtain ⟨start, before, hstart, hbefore⟩ := hreach
  refine ⟨start, before ++ trace, hstart, ?_⟩
  rw [exec_append, hbefore]
  exact hexec

theorem Reachable.next {next : σ} (hreach : Reachable step init s)
    (hstep : step s label = some next) : Reachable step init next :=
  hreach.after ((exec_cons s label []).trans (by simp [hstep]))

section Projection

variable {τ : Type} {stepH : τ → ℓ → Option τ} {forget : τ → σ}

theorem exec_forget
    (hforget : ∀ a label b, stepH a label = some b → step (forget a) label = some (forget b))
    {a b : τ} {trace : List ℓ} (hexec : exec stepH a trace = some b) :
    exec step (forget a) trace = some (forget b) := by
  induction trace generalizing a with
  | nil =>
    obtain rfl : a = b := by simpa using hexec
    rfl
  | cons label rest ih =>
    obtain ⟨next, hstep, hrest⟩ := exec_cons_eq_some hexec
    rw [exec_cons, hforget a label next hstep]
    exact ih hrest

theorem StepsMeet.of_forget {Q : σ → ℓ → Prop}
    (hforget : ∀ a label b, stepH a label = some b → step (forget a) label = some (forget b))
    {a : τ} {trace : List ℓ} (hmeet : StepsMeet step Q (forget a) trace) :
    StepsMeet stepH (fun a label => Q (forget a) label) a trace := by
  induction trace generalizing a with
  | nil => trivial
  | cons label rest ih =>
    refine ⟨hmeet.1, ?_⟩
    intro next hstep
    exact ih (hmeet.2 (forget next) (hforget a label next hstep))

end Projection

end Execution

theorem sum_add_of_move {P M : Type} [Fintype P] [DecidableEq P] [AddCommMonoid M] {f g : P → M}
    (p : P) (hothers : ∀ q, q ≠ p → g q = f q) : ∑ q, g q + f p = ∑ q, f q + g p := by
  have hf := add_sum_erase univ f (mem_univ p)
  have hg := add_sum_erase univ g (mem_univ p)
  have hrest : ∑ q ∈ univ.erase p, g q =
      ∑ q ∈ univ.erase p, f q := by
    apply sum_congr rfl
    intro q hq
    exact hothers q (ne_of_mem_erase hq)
  rw [← hf, ← hg, hrest]
  abel

/-- A lock names the party at a position where it is held, if there is one. -/
def Owned {P : Type} (lock : Option P) (holds : P → Prop) : Prop :=
  ∀ p, lock = some p ↔ holds p

section Locks

variable {P : Type} {lock : Option P} {holds after : P → Prop} {p : P}

theorem Owned.keep (howned : Owned lock holds) (hp : after p ↔ holds p)
    (hothers : ∀ q, q ≠ p → (after q ↔ holds q)) : Owned lock after := by
  intro q
  by_cases hq : q = p
  · subst q
    exact (howned p).trans hp.symm
  · exact (howned q).trans (hothers q hq).symm

theorem Owned.take (howned : Owned none holds) (hp : after p)
    (hothers : ∀ q, q ≠ p → (after q ↔ holds q)) : Owned (some p) after := by
  intro q
  by_cases hq : q = p
  · subst q
    exact iff_of_true rfl hp
  · have hfree : ¬ holds q := by
      intro hheld
      simpa using (howned q).mpr hheld
    rw [hothers q hq]
    exact iff_of_false (fun heq => hq (some.inj heq).symm) hfree

theorem Owned.release (howned : Owned lock holds) (hp : holds p) (hleft : ¬ after p)
    (hothers : ∀ q, q ≠ p → (after q ↔ holds q)) : Owned none after := by
  intro q
  by_cases hq : q = p
  · subst q
    exact iff_of_false (by simp) hleft
  · have hother : ¬ holds q := by
      intro hheld
      have hlock := (howned p).mpr hp
      rw [(howned q).mpr hheld] at hlock
      exact hq (some.inj hlock)
    rw [hothers q hq]
    exact iff_of_false (by simp) hother

theorem Owned.pass {q : P} (howned : Owned lock holds) (hp : holds p) (hleft : ¬ after p)
    (hq : after q) (hothers : ∀ r, r ≠ p → r ≠ q → (after r ↔ holds r)) : Owned (some q) after := by
  intro r
  by_cases hrq : r = q
  · subst r
    exact iff_of_true rfl hq
  · have hfree : ¬ after r := by
      intro hafter
      by_cases hrp : r = p
      · exact hleft (hrp ▸ hafter)
      · have hlock := (howned p).mpr hp
        rw [(howned r).mpr ((hothers r hrp hrq).mp hafter)] at hlock
        exact hrp (some.inj hlock)
    exact iff_of_false (fun heq => hrq (some.inj heq).symm) hfree

theorem Owned.unique {q : P} (howned : Owned lock holds) (hp : holds p) (hq : holds q) : p = q := by
  have hlock := (howned p).mpr hp
  rw [(howned q).mpr hq] at hlock
  exact (some.inj hlock).symm

end Locks

inductive Stop
  | blocked
  | panic (msg : String)
  deriving DecidableEq, Repr

abbrev Outcome (α : Type) := Except Stop α

def blocked {α : Type} : Outcome α := .error .blocked

def panic {α : Type} (msg : String) : Outcome α := .error (.panic msg)

def await (condition : Prop) [Decidable condition] : Outcome Unit :=
  if condition then .ok () else blocked

def ensure (condition : Prop) [Decidable condition] (msg : String) : Outcome Unit :=
  if condition then .ok () else panic msg

def awaitSome {α : Type} : Option α → Outcome α
  | some a => .ok a
  | none => blocked

section Outcome

variable {α β : Type} {x : Outcome α} {f : α → Outcome β} {a b : α} {u : Unit} {msg : String}
  {condition : Prop} [Decidable condition]

@[simp] theorem bind_eq_ok {b : β} : (x >>= f) = .ok b ↔ ∃ a, x = .ok a ∧ f a = .ok b := by
  cases x with
  | error | ok => simp [bind, Except.bind]

@[simp] theorem pure_eq_ok : (pure a : Outcome α) = .ok b ↔ a = b := by
  simp [pure, Except.pure]

@[simp] theorem blocked_ne_ok : (blocked : Outcome α) ≠ .ok a := by
  simp [blocked]

@[simp] theorem panic_ne_ok : (panic msg : Outcome α) ≠ .ok a := by
  simp [panic]

@[simp] theorem await_eq_ok : await condition = .ok u ↔ condition := by
  by_cases hcondition : condition
  · simp [await, hcondition]
  · simp [await, hcondition]

@[simp] theorem ensure_eq_ok : ensure condition msg = .ok u ↔ condition := by
  by_cases hcondition : condition
  · simp [ensure, hcondition]
  · simp [ensure, hcondition]

@[simp] theorem awaitSome_eq_ok {x : Option α} : awaitSome x = .ok a ↔ x = some a := by
  cases x with
  | none => simp [awaitSome]
  | some b => simp [awaitSome]

/-! ### When a computation panics -/

variable {text : String}

@[simp] theorem bind_eq_panic :
    (x >>= f) = .error (.panic msg) ↔
      x = .error (.panic msg) ∨ ∃ a, x = .ok a ∧ f a = .error (.panic msg) := by
  cases x with
  | error | ok => simp [bind, Except.bind]

@[simp] theorem map_eq_panic {f : α → β} :
    (f <$> x) = .error (.panic msg) ↔ x = .error (.panic msg) := by
  cases x with
  | error | ok => simp [Functor.map, Except.map]

@[simp] theorem pure_ne_panic : (pure a : Outcome α) ≠ .error (.panic msg) := by
  simp [pure, Except.pure]

@[simp] theorem blocked_ne_panic : (blocked : Outcome α) ≠ .error (.panic msg) := by
  simp [blocked]

@[simp] theorem panic_eq_panic : (panic text : Outcome α) = .error (.panic msg) ↔ text = msg := by
  simp [panic]

@[simp] theorem await_ne_panic : await condition ≠ .error (.panic msg) := by
  by_cases hcondition : condition
  · simp [await, hcondition]
  · simp [await, hcondition]

@[simp] theorem awaitSome_ne_panic {x : Option α} : awaitSome x ≠ .error (.panic msg) := by
  cases x with
  | none => simp [awaitSome, blocked]
  | some a => simp [awaitSome]

@[simp] theorem ensure_eq_panic :
    ensure condition text = .error (.panic msg) ↔ ¬ condition ∧ text = msg := by
  by_cases hcondition : condition
  · simp [ensure, hcondition]
  · simp [ensure, hcondition]

end Outcome

/-- The steps of a system whose actions may block or panic. -/
def stepOf (perform : σ → ℓ → Outcome σ) (s : σ) (label : ℓ) : Option σ :=
  (perform s label).toOption

@[simp] theorem stepOf_eq_some {perform : σ → ℓ → Outcome σ} {s t : σ}
    {label : ℓ} : stepOf perform s label = some t ↔ perform s label = .ok t := by
  unfold stepOf
  cases perform s label with
  | error | ok => simp [Except.toOption]

end TraceExecution
