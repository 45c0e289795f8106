import Mathlib.Data.List.Basic
import Mathlib.Tactic

/-!
# Pre- and postconditions of stateful computations that may stop

A computation in `EStateM ε σ` ends with a result or is stopped by an error; in
both cases there is a state it ended in.  `Ensures x s Q E` says that `x` run
from `s` either delivers a result that satisfies `Q` or stops in a state that
satisfies `E`.  Taking `E` to be false gives total correctness; taking it to be
a property of every intermediate state gives what holds wherever the machine
may halt.
-/

namespace StateHoare

variable {ε σ α β : Type}

def stateOf : EStateM.Result ε σ α → σ
  | .ok _ s => s
  | .error _ s => s

/-- A computation on a part of the state. -/
def zoom {τ : Type} (part : σ → τ) (put : σ → τ → σ) (x : EStateM ε τ α) : EStateM ε σ α :=
  fun s =>
    match x (part s) with
    | .ok a t => .ok a (put s t)
    | .error e t => .error e (put s t)

def Ensures (x : EStateM ε σ α) (s : σ) (Q : α → σ → Prop) (E : σ → Prop) : Prop :=
  match x s with
  | .ok a t => Q a t
  | .error _ t => E t

section Rules

variable {x : EStateM ε σ α} {f : α → EStateM ε σ β} {s : σ}
variable {Q Q' : α → σ → Prop} {R : β → σ → Prop} {E E' : σ → Prop}

theorem Ensures.mono (hx : Ensures x s Q E) (hQ : ∀ a t, Q a t → Q' a t)
    (hE : ∀ t, E t → E' t) : Ensures x s Q' E' := by
  unfold Ensures at hx ⊢
  cases hrun : x s with
  | ok a t =>
    rw [hrun] at hx
    exact hQ a t hx
  | error e t =>
    rw [hrun] at hx
    exact hE t hx

theorem Ensures.post (hx : Ensures x s Q E) (hQ : ∀ a t, Q a t → Q' a t) : Ensures x s Q' E :=
  hx.mono hQ fun _ => id

theorem Ensures.bind (hx : Ensures x s Q E)
    (hf : ∀ a t, Q a t → Ensures (f a) t R E) : Ensures (x >>= f) s R E := by
  unfold Ensures at hx ⊢
  simp only [Bind.bind, EStateM.bind]
  cases hrun : x s with
  | ok a t =>
    rw [hrun] at hx
    exact hf a t hx
  | error e t =>
    rw [hrun] at hx
    exact hx

theorem get_bind_run (g : σ → EStateM ε σ α) (s : σ) : (get >>= g) s = g s s := rfl

@[simp] theorem ensures_pure {a : α} :
    Ensures (pure a : EStateM ε σ α) s Q E ↔ Q a s := Iff.rfl

@[simp] theorem ensures_get {Q : σ → σ → Prop} :
    Ensures (get : EStateM ε σ σ) s Q E ↔ Q s s := Iff.rfl

@[simp] theorem ensures_modify {g : σ → σ} {Q : PUnit → σ → Prop} :
    Ensures (modify g : EStateM ε σ PUnit) s Q E ↔ Q () (g s) := Iff.rfl

@[simp] theorem ensures_throw {e : ε} :
    Ensures (throw e : EStateM ε σ α) s Q E ↔ E s := Iff.rfl

@[simp] theorem ensures_bind :
    Ensures (x >>= f) s R E ↔ Ensures x s (fun a t => Ensures (f a) t R E) E := by
  unfold Ensures
  simp only [Bind.bind, EStateM.bind]
  cases x s with
  | ok a t => rfl
  | error e t => rfl

theorem ensures_zoom {τ : Type} {part : σ → τ} {put : σ → τ → σ} {x : EStateM ε τ α} :
    Ensures (zoom part put x) s Q E ↔
      Ensures x (part s) (fun a t => Q a (put s t)) fun t => E (put s t) := by
  simp only [zoom, Ensures]
  cases x (part s) with
  | ok a t => rfl
  | error e t => rfl

theorem ensures_forM {γ : Type} {body : γ → EStateM ε σ PUnit} {items : List γ}
    (inv : List γ → σ → Prop) (hstart : inv [] s)
    (hbody : ∀ done item rest t, items = done ++ item :: rest → inv done t →
      Ensures (body item) t (fun _ => inv (done ++ [item])) E) :
    Ensures (items.forM body) s (fun _ => inv items) E := by
  have hgeneral : ∀ rest done t, items = done ++ rest → inv done t →
      Ensures (rest.forM body) t (fun _ => inv items) E := by
    intro rest
    induction rest with
    | nil =>
      intro done t heq hinv
      simp only [List.append_nil] at heq
      subst heq
      exact hinv
    | cons item rest ih =>
      intro done t heq hinv
      refine (hbody done item rest t heq hinv).bind ?_
      intro _ t' hinv'
      exact ih (done ++ [item]) t' (by simp [heq]) hinv'
  exact hgeneral items [] s rfl hstart

theorem ensures_forM_range {body : ℕ → EStateM ε σ PUnit} {n : ℕ}
    (inv : ℕ → σ → Prop) (hstart : inv 0 s)
    (hbody : ∀ i t, i < n → inv i t → Ensures (body i) t (fun _ => inv (i + 1)) E) :
    Ensures ((List.range n).forM body) s (fun _ => inv n) E := by
  have hloop : Ensures ((List.range n).forM body) s
      (fun _ => inv (List.range n).length) E := by
    apply ensures_forM (fun done => inv done.length) hstart
    intro done i rest t heq hinv
    have hi : i = done.length := by
      have hget := congrArg (fun items => items[done.length]?) heq
      simp only [List.getElem?_append_right (Nat.le_refl _), Nat.sub_self,
        List.getElem?_cons_zero] at hget
      exact (List.getElem_of_getElem? hget).2 ▸ by simp
    have hlt : i < n := by
      have hlength := congrArg List.length heq
      simp only [List.length_range, List.length_append, List.length_cons] at hlength
      omega
    rw [List.length_append, List.length_singleton, ← hi]
    exact hbody i t hlt (hi ▸ hinv)
  rw [List.length_range] at hloop
  exact hloop

theorem Ensures.stateOf {P : σ → Prop} (hx : Ensures x s (fun _ => P) P) : P (stateOf (x s)) := by
  unfold Ensures at hx
  cases hrun : x s with
  | ok | error =>
    rw [hrun] at hx
    exact hx

theorem ensures_of_ok {a : α} {t : σ} (hrun : x s = .ok a t) : Ensures x s Q E ↔ Q a t := by
  rw [Ensures, hrun]

theorem Ensures.of_ok {a : α} {t : σ} (hx : Ensures x s Q E)
    (hrun : x s = .ok a t) : Q a t := (ensures_of_ok hrun).mp hx

theorem eq_ok [DecidableEq α] {a : α} (htest : (match x s with
    | .ok b _ => decide (b = a)
    | .error _ _ => false) = true) : x s = .ok a (StateHoare.stateOf (x s)) := by
  cases hrun : x s with
  | ok b t =>
    rw [hrun] at htest
    rw [of_decide_eq_true htest, StateHoare.stateOf]
  | error e t =>
    rw [hrun] at htest
    cases htest

theorem eq_error [DecidableEq ε] {e : ε} (htest : (match x s with
    | .ok _ _ => false
    | .error e' _ => decide (e' = e)) = true) : x s = .error e (StateHoare.stateOf (x s)) := by
  cases hrun : x s with
  | ok b t =>
    rw [hrun] at htest
    cases htest
  | error e' t =>
    rw [hrun] at htest
    rw [of_decide_eq_true htest, StateHoare.stateOf]

theorem Ensures.total (hx : Ensures x s Q fun _ => False) : ∃ a t, x s = .ok a t ∧ Q a t := by
  unfold Ensures at hx
  cases hrun : x s with
  | ok a t =>
    rw [hrun] at hx
    exact ⟨a, t, rfl, hx⟩
  | error e t =>
    rw [hrun] at hx
    exact hx.elim

theorem Ensures.total_of_disjoint (hx : Ensures x s Q E) (hx' : Ensures x s Q' E')
    (hdisjoint : ∀ t, E t → ¬ E' t) : ∃ a t, x s = .ok a t ∧ Q a t := by
  unfold Ensures at hx hx'
  cases hrun : x s with
  | ok a t =>
    rw [hrun] at hx
    exact ⟨a, t, rfl, hx⟩
  | error e t =>
    rw [hrun] at hx hx'
    exact (hdisjoint t hx hx').elim

theorem Ensures.eq_ok {b : α} {u : σ}
    (hx : Ensures x s (fun a t => a = b ∧ t = u) fun _ => False) : x s = .ok b u := by
  obtain ⟨a, t, hrun, rfl, rfl⟩ := hx.total
  exact hrun

theorem Ensures.ok_iff {C : Prop} (hx : Ensures x s (fun a t => C ∧ Q a t) fun _ => ¬ C) :
    (∃ a t, x s = .ok a t ∧ Q a t) ↔ C := by
  unfold Ensures at hx
  cases hrun : x s with
  | ok a t =>
    rw [hrun] at hx
    exact iff_of_true ⟨a, t, rfl, hx.2⟩ hx.1
  | error e t =>
    rw [hrun] at hx
    refine iff_of_false ?_ hx
    rintro ⟨a, t, hok, -⟩
    cases hok

end Rules

end StateHoare
