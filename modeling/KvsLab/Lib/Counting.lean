import Mathlib.Data.List.Nodup
import Mathlib.Data.List.Perm.Basic
import Mathlib.Data.List.Count

/-!
# Counting occurrences under a change at one place

Facts about `List.countP` and `List.count` used for resource accounting: a resource is owned
exactly once when the occurrences counted over all possible owners add up to one, and an
operation that changes one owner moves exactly one occurrence.
-/

namespace Counting

variable {α β : Type}

/-- The indicator of a Boolean. -/
def ind (b : Bool) : Nat := if b then 1 else 0

@[simp] theorem ind_false : ind false = 0 := rfl

/-- The elements a predicate keeps, around one place of a list. -/
theorem filter_around (f : α → Bool) {L : List α} {i : Nat} {a : α} (hi : L[i]? = some a) :
    ∃ K, (L.filter f).Perm ([a].filter f ++ K) ∧
      ∀ a', ((L.set i a').filter f).Perm ([a'].filter f ++ K) := by
  obtain ⟨hlt, rfl⟩ := List.getElem?_eq_some_iff.mp hi
  refine ⟨(L.eraseIdx i).filter f, ?_, fun a' => ?_⟩
  · rw [← List.filter_append]
    exact (List.getElem_cons_eraseIdx_perm hlt).symm.filter _
  · rw [← List.filter_append]
    exact (List.set_perm_cons_eraseIdx hlt a').filter _

/-- Two predicates that agree on `L` except possibly at one element of it. -/
theorem countP_agree_off {P Q : α → Bool} {a : α} :
    ∀ {L : List α}, L.Nodup → a ∈ L → (∀ x ∈ L, x ≠ a → P x = Q x) →
      L.countP Q + ind (P a) = L.countP P + ind (Q a)
  | [], _, ha, _ => by cases ha
  | x :: L, hn, ha, h => by
    rw [List.nodup_cons] at hn
    rw [List.countP_cons, List.countP_cons]
    by_cases hx : x = a
    · subst hx
      have hL : L.countP P = L.countP Q := by
        apply List.countP_congr
        intro y hy
        rw [h y (List.mem_cons_of_mem _ hy) (fun e => hn.1 (e ▸ hy))]
      rw [hL]
      unfold ind
      omega
    · have haL : a ∈ L := by
        rcases List.mem_cons.mp ha with e | e
        · exact absurd e.symm hx
        · exact e
      have ih := countP_agree_off hn.2 haL (fun y hy => h y (List.mem_cons_of_mem _ hy))
      rw [h x List.mem_cons_self hx]
      omega

/-- A duplicate-free list counts the elements of a predicate as often as any other
duplicate-free list with the same elements in it. -/
theorem countP_eq_of_mem_iff {P : α → Bool} {L M : List α} (hL : L.Nodup) (hM : M.Nodup)
    (h : ∀ x, P x = true → (x ∈ L ↔ x ∈ M)) : L.countP P = M.countP P := by
  rw [List.countP_eq_length_filter, List.countP_eq_length_filter]
  apply List.Perm.length_eq
  rw [List.perm_ext_iff_of_nodup (hL.filter P) (hM.filter P)]
  intro x
  simp only [List.mem_filter]
  constructor
  · rintro ⟨hx, hp⟩; exact ⟨(h x hp).mp hx, hp⟩
  · rintro ⟨hx, hp⟩; exact ⟨(h x hp).mpr hx, hp⟩

/-- Predicates that agree through `f` count lists with the same image under `f` alike. -/
theorem countP_of_map_eq {f : α → β} {P Q : α → Bool} : ∀ {L M : List α}, M.map f = L.map f →
    (∀ a ∈ L, ∀ b ∈ M, f b = f a → Q b = P a) → M.countP Q = L.countP P
  | [], [], _, _ => rfl
  | [], _ :: _, h, _ => by cases h
  | _ :: _, [], h, _ => by cases h
  | a :: L, b :: M, h, hPQ => by
    rw [List.map_cons, List.map_cons, List.cons.injEq] at h
    rw [List.countP_cons, List.countP_cons, hPQ a List.mem_cons_self b List.mem_cons_self h.1,
      countP_of_map_eq h.2 fun x hx y hy =>
        hPQ x (List.mem_cons_of_mem _ hx) y (List.mem_cons_of_mem _ hy)]

/-- A predicate that implies another and fails at one element where the other holds counts fewer. -/
theorem countP_lt {P Q : α → Bool} {L : List α} {a : α} (h : ∀ x ∈ L, P x = true → Q x = true)
    (ha : a ∈ L) (hQ : Q a = true) (hP : P a = false) : L.countP P < L.countP Q := by
  obtain ⟨L₁, L₂, rfl⟩ := List.append_of_mem ha
  have h₁ : L₁.countP P ≤ L₁.countP Q :=
    List.countP_mono_left fun x hx => h x (List.mem_append_left _ hx)
  have h₂ : L₂.countP P ≤ L₂.countP Q :=
    List.countP_mono_left fun x hx => h x (List.mem_append_right _ (List.mem_cons_of_mem _ hx))
  rw [List.countP_append, List.countP_append, List.countP_cons, List.countP_cons, hP, hQ,
    if_neg Bool.false_ne_true, if_pos rfl]
  omega

/-- At most one occurrence: two elements that satisfy the predicate are equal. -/
theorem eq_of_countP_le_one {P : α → Bool} {a b : α} :
    ∀ {L : List α}, L.countP P ≤ 1 → a ∈ L → b ∈ L → P a = true → P b = true → a = b
  | [], _, ha, _, _, _ => by cases ha
  | x :: L, h, ha, hb, hPa, hPb => by
    rw [List.countP_cons] at h
    have pos : ∀ {c}, c ∈ L → P c = true → 0 < L.countP P := fun hc hPc =>
      List.countP_pos_iff.mpr ⟨_, hc, hPc⟩
    rcases List.mem_cons.mp ha with ea | ha' <;> rcases List.mem_cons.mp hb with eb | hb'
    · rw [ea, eb]
    · subst ea
      have := pos hb' hPb
      rw [if_pos hPa] at h
      omega
    · subst eb
      have := pos ha' hPa
      rw [if_pos hPb] at h
      omega
    · exact eq_of_countP_le_one (by omega) ha' hb' hPa hPb

theorem count_range (n s : Nat) : (List.range n).count s = if s < n then 1 else 0 := by
  split
  · rename_i hs
    exact List.count_eq_one_of_mem List.nodup_range (List.mem_range.mpr hs)
  · rename_i hs
    exact List.count_eq_zero_of_not_mem (fun hm => hs (List.mem_range.mp hm))

/-- A list in which every element below `n` occurs once and nothing else occurs is a
rearrangement of `0 … n - 1`. -/
theorem perm_range_of_count {L : List Nat} {n : Nat}
    (h : ∀ s, L.count s = if s < n then 1 else 0) : L.Perm (List.range n) := by
  rw [List.perm_iff_count]
  intro s
  rw [h s, count_range]

end Counting
