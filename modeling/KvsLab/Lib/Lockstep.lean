import Mathlib.Data.List.Basic

/-!
# Fallible computations in lockstep

`Rel R x y` — the computations `x` and `y` fail alike, or return values related by `R`.  Two
programs of the same shape are compared call by call: `Rel.bind` goes on after a pair of calls,
`Rel.foldlM` does so for a loop.  `bind_ok` takes one computation that returned apart.
-/

namespace Lockstep

variable {ε α α' β β' γ : Type} {R : α → α' → Prop} {S : β → β' → Prop} {x : Except ε α}
  {x' : Except ε α'}

/-- A computation that returned did so in every part. -/
theorem bind_ok {f : α → Except ε β} {b : β} (h : x >>= f = .ok b) :
    ∃ a, x = .ok a ∧ f a = .ok b := by
  cases x with
  | error e => cases h
  | ok a => exact ⟨a, rfl, h⟩

/-- The same failure, or related values. -/
inductive Rel (R : α → α' → Prop) : Except ε α → Except ε α' → Prop where
  | error (e : ε) : Rel R (.error e) (.error e)
  | ok {a : α} {a' : α'} : R a a' → Rel R (.ok a) (.ok a')

theorem Rel.bind {f : α → Except ε β} {f' : α' → Except ε β'} (h : Rel R x x')
    (hf : ∀ a a', R a a' → Rel S (f a) (f' a')) : Rel S (x >>= f) (x' >>= f') := by
  cases h with
  | error e => exact .error e
  | ok h => exact hf _ _ h

theorem Rel.mono {R' : α → α' → Prop} (h : Rel R x x') (hr : ∀ a a', R a a' → R' a a') :
    Rel R' x x' := by
  cases h with
  | error e => exact .error e
  | ok h => exact .ok (hr _ _ h)

/-- A computation that both sides share. -/
theorem Rel.refl (x : Except ε α) : Rel Eq x x := by
  cases x with
  | error e => exact .error e
  | ok a => exact .ok rfl

/-- Where one side returns, so does the other. -/
theorem Rel.of_ok {a : α} (h : Rel R x x') (hx : x = .ok a) : ∃ a', x' = .ok a' ∧ R a a' := by
  subst hx
  cases h with
  | ok h => exact ⟨_, rfl, h⟩

/-- A loop whose body runs in lockstep. -/
theorem Rel.foldlM {f : α → γ → Except ε α} {f' : α' → γ → Except ε α'}
    (hf : ∀ a a' c, R a a' → Rel R (f a c) (f' a' c)) :
    ∀ (l : List γ) {a : α} {a' : α'}, R a a' → Rel R (l.foldlM f a) (l.foldlM f' a')
  | [], _, _, h => .ok h
  | c :: l, _, _, h => (hf _ _ c h).bind fun _ _ h' => Rel.foldlM hf l h'

end Lockstep
