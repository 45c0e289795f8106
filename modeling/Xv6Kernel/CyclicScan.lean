import Mathlib.Data.List.FinRange
import Mathlib.Tactic

/-!
# Cyclic scans of a table

A scan of a table of `n` slots stands at a position between `0` and `n`.
`cyclicGap n p r` is the number of slots the scan still has to pass before it
stands at `r`, going up from `p` and wrapping at `n`; position `n` counts as
position `0`.

`scanOrder` lists the slots as a scan from `p` meets them, and `firstMax`
keeps the first eligible slot of greatest weight met on the way.
-/

namespace CyclicScan

open List

def cyclicGap (n p r : ℕ) : ℕ :=
  if p ≤ r then r - p else r + n - p

@[simp] theorem cyclicGap_self (n p : ℕ) : cyclicGap n p p = 0 := by
  simp [cyclicGap]

@[simp] theorem cyclicGap_zero (n r : ℕ) : cyclicGap n 0 r = r := by
  simp [cyclicGap]

variable {n p r : ℕ}

theorem cyclicGap_end (hr : r < n) : cyclicGap n n r = r := by
  unfold cyclicGap
  split <;> omega

theorem cyclicGap_lt (p : ℕ) (hr : r < n) : cyclicGap n p r < n := by
  unfold cyclicGap
  split <;> omega

theorem cyclicGap_succ (hp : p < n) (hne : p ≠ r) :
    cyclicGap n (p + 1) r + 1 = cyclicGap n p r := by
  unfold cyclicGap
  split <;> split <;> omega

theorem cyclicGap_split {q : ℕ} (hp : p ≤ n) (hr : r < n)
    (hbetween : cyclicGap n p q ≤ cyclicGap n p r) (hq : q < n) :
    cyclicGap n p r = cyclicGap n p q + cyclicGap n q r := by
  unfold cyclicGap at *
  split at hbetween <;> split at hbetween <;> split <;> split <;> omega

def scanOrder (n p : ℕ) : List (Fin n) :=
  (List.finRange n).drop p ++ (List.finRange n).take p

theorem mem_scanOrder (p : ℕ) (q : Fin n) : q ∈ scanOrder n p := by
  have hmem : q ∈ (finRange n).take p ++ (finRange n).drop p := by
    rw [take_append_drop]
    exact mem_finRange q
  unfold scanOrder
  exact mem_append.mpr (mem_append.mp hmem).symm

theorem scanOrder_eq_cons (p : Fin n) :
    scanOrder n p.val = p :: ((finRange n).drop (p.val + 1) ++
      (finRange n).take p.val) := by
  have hlt : p.val < (finRange n).length := by simp
  unfold scanOrder
  rw [drop_eq_getElem_cons hlt]
  simp

theorem scanOrder_pairwise (hp : p ≤ n) :
    (scanOrder n p).Pairwise fun a b =>
      cyclicGap n p a.val < cyclicGap n p b.val := by
  have hdrop : ∀ q ∈ (finRange n).drop p, p ≤ q.val := by
    intro q hq
    obtain ⟨i, hi, rfl⟩ := mem_iff_getElem.mp hq
    simp
  have htake : ∀ q ∈ (finRange n).take p, q.val < p := by
    intro q hq
    obtain ⟨i, hi, rfl⟩ := mem_iff_getElem.mp hq
    simp only [length_take, length_finRange] at hi
    simp
    omega
  have hsorted : (finRange n).Pairwise (· < ·) := pairwise_lt_finRange n
  unfold scanOrder
  rw [pairwise_append]
  refine ⟨?_, ?_, ?_⟩
  · apply (hsorted.sublist (drop_sublist p _)).imp_of_mem
    intro a b ha hb hlt
    have hpa := hdrop a ha
    have hpb := hdrop b hb
    have hval : a.val < b.val := hlt
    simp only [cyclicGap, hpa, hpb, if_true]
    omega
  · apply (hsorted.sublist (take_sublist p _)).imp_of_mem
    intro a b ha hb hlt
    have hpa := htake a ha
    have hpb := htake b hb
    have hval : a.val < b.val := hlt
    unfold cyclicGap
    split <;> split <;> omega
  · intro a ha b hb
    have hpa := hdrop a ha
    have hpb := htake b hb
    have hlt := a.isLt
    unfold cyclicGap
    split <;> split <;> omega

section FirstMax

variable {α : Type*} (eligible : α → Bool) (weight : α → ℤ)

def betterOf (best candidate : α) : α :=
  if eligible candidate = true ∧ weight best < weight candidate then candidate
  else best

def firstMax (start : α) (candidates : List α) : α :=
  candidates.foldl (betterOf eligible weight) start

/-- What a scan for the greatest weight keeps: the start, when no eligible
candidate outweighs it, and otherwise the first candidate that outweighs
everything eligible before it and is outweighed by nothing after it. -/
theorem firstMax_spec (start : α) (candidates : List α) :
    let chosen := firstMax eligible weight start candidates
    (∀ x ∈ candidates, eligible x = true → weight x ≤ weight chosen) ∧
      weight start ≤ weight chosen ∧
      (chosen = start ∨
        ∃ before after, candidates = before ++ chosen :: after ∧
          eligible chosen = true ∧ weight start < weight chosen ∧
          ∀ x ∈ before, eligible x = true → weight x < weight chosen) := by
  induction candidates generalizing start with
  | nil => simp [firstMax]
  | cons head tail ih =>
    have htail := ih (betterOf eligible weight start head)
    have hfold : firstMax eligible weight start (head :: tail) =
        firstMax eligible weight (betterOf eligible weight start head)
          tail := rfl
    rw [hfold]
    dsimp only at htail ⊢
    obtain ⟨hmax, hstart, hfirst⟩ := htail
    by_cases hbetter : eligible head = true ∧ weight start < weight head
    · have hhead : betterOf eligible weight start head = head := by
        simp [betterOf, hbetter]
      rw [hhead] at hmax hstart hfirst ⊢
      refine ⟨?_, by omega, ?_⟩
      · intro x hx helig
        rcases mem_cons.mp hx with heq | hx
        · subst x
          exact hstart
        · exact hmax x hx helig
      · right
        rcases hfirst with hsame | ⟨before, after, hsplit, helig, hlt, hbefore⟩
        · refine ⟨[], tail, by simp [hsame], ?_, ?_, by simp⟩
          · rw [hsame]
            exact hbetter.1
          · rw [hsame]
            exact hbetter.2
        · refine ⟨head :: before, after, by simp [← hsplit], helig, by omega, ?_⟩
          intro x hx hxelig
          rcases mem_cons.mp hx with heq | hx
          · subst x
            exact hlt
          · exact hbefore x hx hxelig
    · have hhead : betterOf eligible weight start head = start := by
        simp only [betterOf, if_neg hbetter]
      rw [hhead] at hmax hstart hfirst ⊢
      have hheadLe : eligible head = true → weight head ≤ weight start := by
        intro helig
        by_contra hgt
        exact hbetter ⟨helig, by omega⟩
      refine ⟨?_, hstart, ?_⟩
      · intro x hx helig
        rcases mem_cons.mp hx with heq | hx
        · subst x
          exact (hheadLe helig).trans hstart
        · exact hmax x hx helig
      · rcases hfirst with hsame | ⟨before, after, hsplit, helig, hlt, hbefore⟩
        · exact Or.inl hsame
        · right
          refine ⟨head :: before, after, by simp [← hsplit], helig, hlt, ?_⟩
          intro x hx hxelig
          rcases mem_cons.mp hx with heq | hx
          · subst x
            exact (hheadLe hxelig).trans_lt hlt
          · exact hbefore x hx hxelig

end FirstMax

theorem firstMax_scanOrder_gap_le {n : ℕ} (eligible : Fin n → Bool) (weight : Fin n → ℤ)
    (p r : Fin n) (hr : eligible r = true) (hmax : ∀ x, eligible x = true → weight x ≤ weight r)
    (hp : eligible p = true) :
    cyclicGap n p.val
        (firstMax eligible weight p (scanOrder n p.val)).val ≤
      cyclicGap n p.val r.val := by
  have hspec := firstMax_spec eligible weight p (scanOrder n p.val)
  dsimp only at hspec
  generalize hchosen :
    firstMax eligible weight p (scanOrder n p.val) = chosen at hspec ⊢
  obtain ⟨hge, _, hfirst⟩ := hspec
  rcases hfirst with hsame | ⟨before, after, hsplit, helig, _, hbefore⟩
  · subst hsame
    simp
  · have hrnot : r ∉ before := by
      intro hmem
      have hlt := hbefore r hmem hr
      have hle := hmax chosen helig
      omega
    have hrmem := mem_scanOrder p.val r
    rw [hsplit] at hrmem
    have hsorted := scanOrder_pairwise (n := n) (p := p.val) p.isLt.le
    rw [hsplit, pairwise_append] at hsorted
    rcases mem_append.mp hrmem with hmem | hmem
    · exact (hrnot hmem).elim
    · rcases mem_cons.mp hmem with heq | hmem
      · rw [heq]
      · exact (rel_of_pairwise_cons hsorted.2.1 hmem).le

end CyclicScan
