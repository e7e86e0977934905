import Mathlib.Algebra.Ring.Nat
import Mathlib.Data.List.Basic
import Mathlib.Data.List.Forall2

/-!
# Labelled runs

`Run step s tr s'` — the labels `tr`, taken in order from `s`, lead to `s'`.  An invariant kept
by every step holds at the end of every run (`Run.invariant`); runs compose (`Run.append`) and take
other labels (`Run.relabel`).  A step relation that every step of another one follows is run along
with it (`Run.simulation`), also where some steps are answered by none (`Run.stuttering`, `Run.observed`) or by one with another label
(`Run.refines`), and deterministic steps lead to one state (`Run.unique`).  A quantity that no step
lowers and that ends as it began stood still (`Run.constant`).  A potential that every step lowers,
but for what its label costs, bounds the length of every run (`Run.bounded`).
-/

namespace Transition

variable {σ ℓ : Type} {step : σ → ℓ → σ → Prop} {s s' s'' : σ}

/-- Finite runs, extended at the end. -/
inductive Run (step : σ → ℓ → σ → Prop) (s : σ) : List ℓ → σ → Prop where
  | nil : Run step s [] s
  | snoc {tr : List ℓ} {l : ℓ} {s' s'' : σ} :
      Run step s tr s' → step s' l s'' → Run step s (tr ++ [l]) s''

theorem Run.single {l : ℓ} (h : step s l s') : Run step s [l] s' := Run.snoc Run.nil h

theorem Run.append {tr tr' : List ℓ} (h : Run step s tr s') (h' : Run step s' tr' s'') :
    Run step s (tr ++ tr') s'' := by
  induction h' with
  | nil => simpa using h
  | snoc _ hl ih => rw [← List.append_assoc]; exact Run.snoc ih hl

theorem Run.mono {step' : σ → ℓ → σ → Prop} {tr : List ℓ} (h : Run step s tr s')
    (hm : ∀ s l s', step s l s' → step' s l s') : Run step' s tr s' := by
  induction h with
  | nil => exact Run.nil
  | snoc _ hl ih => exact Run.snoc ih (hm _ _ _ hl)

/-- **Invariant rule.** -/
theorem Run.invariant {I : σ → Prop} (hstep : ∀ s l s', I s → step s l s' → I s')
    {tr : List ℓ} (h : Run step s tr s') (h0 : I s) : I s' := by
  induction h with
  | nil => exact h0
  | snoc _ hl ih => exact hstep _ _ _ ih hl

/-- **Potential rule.**  What the labels cost is all that lets a run go on. -/
theorem Run.bounded {I : σ → Prop} {potential : σ → Nat} {cost : ℓ → Nat}
    (hstep : ∀ s l s', I s → step s l s' → I s' ∧ potential s' + 1 ≤ potential s + cost l)
    {tr : List ℓ} (h : Run step s tr s') (h0 : I s) :
    I s' ∧ potential s' + tr.length ≤ potential s + (tr.map cost).sum := by
  induction h with
  | nil => exact ⟨h0, Nat.le_refl _⟩
  | @snoc tr l _ _ _ hl ih =>
    obtain ⟨hi, hle⟩ := hstep _ _ _ ih.1 hl
    refine ⟨hi, ?_⟩
    have := ih.2
    simp only [List.length_append, List.length_singleton, List.map_append, List.sum_append,
      List.map_singleton, List.sum_singleton]
    omega

/-- A run under other labels, seen in other states. -/
theorem Run.relabel {τ ℓ' : Type} {step' : τ → ℓ' → τ → Prop} (abs : σ → τ) (g : ℓ → ℓ')
    (hstep : ∀ s l s', step s l s' → step' (abs s) (g l) (abs s')) {tr : List ℓ}
    (h : Run step s tr s') : Run step' (abs s) (tr.map g) (abs s') := by
  induction h with
  | nil => exact Run.nil
  | snoc _ hl ih => rw [List.map_append]; exact Run.snoc ih (hstep _ _ _ hl)

/-- **Simulation rule.**  Related states stay related when every step is answered. -/
theorem Run.simulation {τ : Type} {step' : τ → ℓ → τ → Prop} {R : σ → τ → Prop}
    (hstep : ∀ s l s' t, R s t → step s l s' → ∃ t', step' t l t' ∧ R s' t') {tr : List ℓ}
    (h : Run step s tr s') {t : τ} (h0 : R s t) : ∃ t', Run step' t tr t' ∧ R s' t' := by
  induction h with
  | nil => exact ⟨t, Run.nil, h0⟩
  | snoc _ hl ih =>
    obtain ⟨t₁, hr, h₁⟩ := ih
    obtain ⟨t₂, hl', h₂⟩ := hstep _ _ _ _ h₁ hl
    exact ⟨t₂, Run.snoc hr hl', h₂⟩

/-- **Stuttering rule.**  Under an invariant, a step shows as one step of the abstraction or as
none. -/
theorem Run.stuttering {τ ℓ' : Type} {step' : τ → ℓ' → τ → Prop} {I : σ → Prop} {abs : σ → τ}
    (hstep : ∀ s l s', I s → step s l s' →
      I s' ∧ (abs s' = abs s ∨ ∃ l', step' (abs s) l' (abs s')))
    {tr : List ℓ} (h : Run step s tr s') (h0 : I s) :
    I s' ∧ ∃ tr', Run step' (abs s) tr' (abs s') := by
  induction h with
  | nil => exact ⟨h0, [], Run.nil⟩
  | snoc _ hl ih =>
    obtain ⟨hi, tr', hr⟩ := ih
    obtain ⟨hi', hsame | ⟨l', hl'⟩⟩ := hstep _ _ _ hi hl
    · exact ⟨hi', tr', hsame ▸ hr⟩
    · exact ⟨hi', tr' ++ [l'], Run.snoc hr hl'⟩

/-- **Refinement rule.**  Under an invariant every step shows as a step of the abstraction, whose
label is related to its own. -/
theorem Run.refines {τ ℓ' : Type} {step' : τ → ℓ' → τ → Prop} {I : σ → Prop} {abs : σ → τ}
    {shows : ℓ → ℓ' → Prop}
    (hstep : ∀ s l s', I s → step s l s' → I s' ∧ ∃ l', shows l l' ∧ step' (abs s) l' (abs s'))
    {tr : List ℓ} (h : Run step s tr s') (h0 : I s) :
    I s' ∧ ∃ tr', List.Forall₂ shows tr tr' ∧ Run step' (abs s) tr' (abs s') := by
  induction h with
  | nil => exact ⟨h0, [], List.Forall₂.nil, Run.nil⟩
  | snoc _ hl ih =>
    obtain ⟨hi, tr', htr, hr⟩ := ih
    obtain ⟨hi', l', hsh, hl'⟩ := hstep _ _ _ hi hl
    exact ⟨hi', tr' ++ [l'], List.rel_append htr (List.Forall₂.cons hsh List.Forall₂.nil),
      Run.snoc hr hl'⟩

/-- **Observation rule.**  A run seen through `obs`: steps that show nothing change nothing. -/
theorem Run.observed {τ ℓ' : Type} {step' : τ → ℓ' → τ → Prop} {I : σ → Prop} {abs : σ → τ}
    {obs : ℓ → Option ℓ'}
    (hstep : ∀ s l s', I s → step s l s' → I s' ∧
      (∀ l', obs l = some l' → step' (abs s) l' (abs s')) ∧ (obs l = none → abs s' = abs s))
    {tr : List ℓ} (h : Run step s tr s') (h0 : I s) :
    I s' ∧ Run step' (abs s) (tr.filterMap obs) (abs s') := by
  induction h with
  | nil => exact ⟨h0, Run.nil⟩
  | @snoc tr l s₁ s₂ _ hl ih =>
    obtain ⟨hi, hr⟩ := ih
    obtain ⟨hi', hsome, hnone⟩ := hstep _ _ _ hi hl
    refine ⟨hi', ?_⟩
    rw [List.filterMap_append]
    cases ho : obs l with
    | none => simpa [ho, hnone ho] using hr
    | some l' => simpa [ho] using Run.snoc hr (hsome l' ho)

/-- A quantity that no step lowers and that ends as it began stood still all along. -/
theorem Run.constant {I : σ → Prop} {f : σ → Nat}
    (hstep : ∀ s l s', I s → step s l s' → I s' ∧ f s ≤ f s') {tr : List ℓ} (h : Run step s tr s')
    (h0 : I s) : I s' ∧ f s ≤ f s' ∧
      (f s' = f s → Run (fun s l s' => step s l s' ∧ f s' = f s) s tr s') := by
  induction h with
  | nil => exact ⟨h0, Nat.le_refl _, fun _ => Run.nil⟩
  | snoc _ hl ih =>
    obtain ⟨hi, hle, hrun⟩ := ih
    obtain ⟨hi', hle'⟩ := hstep _ _ _ hi hl
    exact ⟨hi', Nat.le_trans hle hle', fun heq => Run.snoc (hrun (by omega)) ⟨hl, by omega⟩⟩

/-- Deterministic steps. -/
theorem Run.unique (hdet : ∀ s l s' s'', step s l s' → step s l s'' → s' = s'') {tr : List ℓ}
    (h : Run step s tr s') (h' : Run step s tr s'') : s' = s'' := by
  induction h generalizing s'' with
  | nil =>
    generalize htr : ([] : List ℓ) = tr' at h'
    cases h' with
    | nil => rfl
    | snoc => simp at htr
  | @snoc tr l s₁ s₂ _ hl ih =>
    generalize htr : tr ++ [l] = tr' at h'
    cases h' with
    | nil => simp at htr
    | snoc hr hl' =>
      obtain ⟨rfl, hll⟩ := List.append_inj' htr rfl
      cases hll
      rw [← ih hr] at hl'
      exact hdet _ _ _ _ hl hl'

/-- Execute a list of labels with a partial step function. -/
def exec (next : σ → ℓ → Option σ) : σ → List ℓ → Option σ
  | s, [] => some s
  | s, l :: ls => (next s l).bind fun s' => exec next s' ls

/-- An executed list of labels is a run. -/
theorem run_of_exec {next : σ → ℓ → Option σ} :
    ∀ {tr : List ℓ} {s s' : σ}, exec next s tr = some s' →
      Run (fun s l s' => next s l = some s') s tr s'
  | [], s, s', h => by
    simp only [exec, Option.some.injEq] at h
    subst h
    exact Run.nil
  | l :: ls, s, s', h => by
    simp only [exec] at h
    cases hn : next s l with
    | none => simp [hn] at h
    | some t =>
      rw [hn, Option.bind_some] at h
      have hl : Run (fun s l s' => next s l = some s') s [l] t := Run.single hn
      simpa using hl.append (run_of_exec h)

end Transition
