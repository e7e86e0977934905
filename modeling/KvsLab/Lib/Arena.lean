import Mathlib.Data.List.GetD
import Mathlib.Tactic.Ring

/-!
# Byte arenas

A family of flat arenas indexed by `ι`, each a map from offsets to cells.  `memcpy` copies a
range cell by cell; `read` and `write` move a range through a buffer.  The two ways of moving a
range agree (`write_read`), and a range cut into slots of equal size keeps every slot that is
not written (`memcpy_slot_of_ne`, `write_slot_of_ne`).  Copies between different arenas into
disjoint ranges commute (`memcpy_comm`), and repeating one changes nothing (`memcpy_idem`).
Seen at one offset into the slots (`column`), a copy made cell by cell is one copy of the slot: it
happens when that cell is copied, and nothing happens before or after (`column_copyCell`).
-/

namespace Arena

variable {ι β : Type} [DecidableEq ι]

/-- Contents of a family of arenas. -/
abbrev Mem (ι β : Type) := ι → Nat → β

/-- An arena and an offset into it. -/
abbrev Addr (ι : Type) := ι × Nat

/-- Copy `n` cells from `src` to `dst`. -/
def memcpy (m : Mem ι β) (dst src : Addr ι) (n : Nat) : Mem ι β := fun t o =>
  if t = dst.1 ∧ dst.2 ≤ o ∧ o < dst.2 + n then m src.1 (src.2 + (o - dst.2)) else m t o

/-- Read `n` cells into a buffer. -/
def read (m : Mem ι β) (src : Addr ι) (n : Nat) : List β :=
  (List.range n).map fun i => m src.1 (src.2 + i)

/-- Write a buffer. -/
def write (m : Mem ι β) (dst : Addr ι) (bs : List β) : Mem ι β := fun t o =>
  if t = dst.1 ∧ dst.2 ≤ o then (bs[o - dst.2]?).getD (m t o) else m t o

/-- Moving a range through a buffer is the direct copy. -/
theorem write_read (m : Mem ι β) (dst src : Addr ι) (n : Nat) :
    write m dst (read m src n) = memcpy m dst src n := by
  funext t o
  unfold write memcpy read
  by_cases h : t = dst.1 ∧ dst.2 ≤ o
  · rw [if_pos h]
    by_cases hn : o < dst.2 + n
    · rw [if_pos ⟨h.1, h.2, hn⟩, List.getElem?_map, List.getElem?_range (by omega)]
      rfl
    · rw [if_neg (by omega), List.getElem?_eq_none (by simp; omega)]
      rfl
  · rw [if_neg h, if_neg (by tauto)]

/-- One cell. -/
theorem memcpy_one (m : Mem ι β) (dst src : Addr ι) :
    memcpy m dst src 1 = write m dst [m src.1 src.2] :=
  (write_read m dst src 1).symm

/-! ## Copies between arenas -/

/-- A copy that finds its bytes already there. -/
theorem memcpy_eq_self {m : Mem ι β} {dst src : Addr ι} {n : Nat}
    (h : ∀ i < n, m dst.1 (dst.2 + i) = m src.1 (src.2 + i)) : memcpy m dst src n = m := by
  funext t o
  unfold memcpy
  by_cases hr : t = dst.1 ∧ dst.2 ≤ o ∧ o < dst.2 + n
  · obtain ⟨rfl, h1, h2⟩ := hr
    rw [if_pos ⟨rfl, h1, h2⟩, ← h (o - dst.2) (by omega)]
    congr 1
    omega
  · rw [if_neg hr]

/-- A copy into one arena leaves every other arena alone. -/
theorem memcpy_other {m : Mem ι β} {dst src : Addr ι} {n : Nat} {t : ι} (ht : t ≠ dst.1) (o : Nat) :
    memcpy m dst src n t o = m t o :=
  if_neg fun h => ht h.1

theorem memcpy_idem {m : Mem ι β} {dst src : Addr ι} {n : Nat} (h : src.1 ≠ dst.1) :
    memcpy (memcpy m dst src n) dst src n = memcpy m dst src n := by
  refine memcpy_eq_self fun i hi => ?_
  rw [memcpy_other h]
  unfold memcpy
  rw [if_pos ⟨rfl, Nat.le_add_right _ _, Nat.add_lt_add_left hi _⟩, Nat.add_sub_cancel_left]

/-- Copies into disjoint ranges, neither of which reads what the other writes. -/
theorem memcpy_comm {m : Mem ι β} {d d' s s' : Addr ι} {n n' : Nat} (h : s.1 ≠ d'.1)
    (h' : s'.1 ≠ d.1)
    (hd : ∀ o, ¬ (d.1 = d'.1 ∧ (d.2 ≤ o ∧ o < d.2 + n) ∧ d'.2 ≤ o ∧ o < d'.2 + n')) :
    memcpy (memcpy m d s n) d' s' n' = memcpy (memcpy m d' s' n') d s n := by
  funext t o
  by_cases hr : t = d.1 ∧ d.2 ≤ o ∧ o < d.2 + n
  · have hr' : ¬ (t = d'.1 ∧ d'.2 ≤ o ∧ o < d'.2 + n') :=
      fun e => hd o ⟨hr.1.symm.trans e.1, hr.2, e.2⟩
    have hl : memcpy (memcpy m d s n) d' s' n' t o = memcpy m d s n t o := if_neg hr'
    have hx : ∀ m : Mem ι β, memcpy m d s n t o = m s.1 (s.2 + (o - d.2)) := fun m => if_pos hr
    rw [hl, hx, hx, memcpy_other h]
  · have hl : ∀ m : Mem ι β, memcpy m d s n t o = m t o := fun m => if_neg hr
    rw [hl]
    by_cases hr' : t = d'.1 ∧ d'.2 ≤ o ∧ o < d'.2 + n'
    · have hx : ∀ m : Mem ι β, memcpy m d' s' n' t o = m s'.1 (s'.2 + (o - d'.2)) :=
        fun m => if_pos hr'
      rw [hx, hx, memcpy_other h']
    · have hx : ∀ m : Mem ι β, memcpy m d' s' n' t o = m t o := fun m => if_neg hr'
      rw [hx, hx, hl]

/-! ## Slots of equal size -/

theorem slots_disjoint {n s s' i : Nat} (hi : i < n) (hne : s ≠ s') :
    ¬ (s' * n ≤ s * n + i ∧ s * n + i < s' * n + n) := by
  rintro ⟨h1, h2⟩
  rcases Nat.lt_or_gt_of_ne hne with h | h
  · have : (s + 1) * n ≤ s' * n := Nat.mul_le_mul_right n h
    have e : (s + 1) * n = s * n + n := by ring
    omega
  · have : (s' + 1) * n ≤ s * n := Nat.mul_le_mul_right n h
    have e : (s' + 1) * n = s' * n + n := by ring
    omega

/-- A cell is in one slot. -/
theorem slot_of_cell {n s s' i j : Nat} (hi : i < n) (hj : j < n) (h : s * n + i = s' * n + j) :
    s = s' := by
  by_contra hne
  exact slots_disjoint hi hne ⟨by omega, by omega⟩

/-- A slot copy delivers the source slot. -/
theorem memcpy_slot_self {n i : Nat} (m : Mem ι β) (t t' : ι) (s s' : Nat) (hi : i < n) :
    memcpy m (t, s * n) (t', s' * n) n t (s * n + i) = m t' (s' * n + i) := by
  unfold memcpy
  rw [if_pos ⟨rfl, Nat.le_add_right _ _, Nat.add_lt_add_left hi _⟩, Nat.add_sub_cancel_left]

/-- A slot copy keeps every other slot. -/
theorem memcpy_slot_of_ne {n i : Nat} (m : Mem ι β) {t u : ι} {s v : Nat} (src : Addr ι)
    (h : (u, v) ≠ (t, s)) (hi : i < n) :
    memcpy m (t, s * n) src n u (v * n + i) = m u (v * n + i) := by
  unfold memcpy
  rw [if_neg]
  rintro ⟨hu, h1, h2⟩
  have hv : v ≠ s := fun e => h (by rw [hu, e])
  exact slots_disjoint hi hv ⟨h1, h2⟩

/-- A write inside a slot keeps every other slot. -/
theorem write_slot_of_ne {n i k : Nat} (m : Mem ι β) {t u : ι} {s v : Nat} {bs : List β}
    (h : (u, v) ≠ (t, s)) (hi : i < n) (hb : k + bs.length ≤ n) :
    write m (t, s * n + k) bs u (v * n + i) = m u (v * n + i) := by
  unfold write
  by_cases hu : u = t ∧ s * n + k ≤ v * n + i
  · have hv : v ≠ s := fun e => h (by rw [hu.1, e])
    have hd := slots_disjoint (n := n) hi hv
    rw [if_pos hu, List.getElem?_eq_none (by simp only; omega)]
    rfl
  · rw [if_neg hu]

/-- A write inside a slot, read back from the slot. -/
theorem write_slot_self {n i k : Nat} (m : Mem ι β) (t : ι) (s : Nat) (bs : List β) :
    write m (t, s * n + k) bs t (s * n + i) =
      if k ≤ i then (bs[i - k]?).getD (m t (s * n + i)) else m t (s * n + i) := by
  unfold write
  by_cases hk : k ≤ i
  · rw [if_pos ⟨rfl, by simp only; omega⟩, if_pos hk]
    have e : s * n + i - (s * n + k) = i - k := by omega
    simp only [e]
  · rw [if_neg (by simp only; omega), if_neg hk]

/-! ## One offset into every slot -/

/-- Offset `i` of every slot of `n` cells; the other cells are blank. -/
def column (z : β) (n i : Nat) (m : Mem ι β) : Mem ι β := fun t o => if o % n = i then m t o else z

omit [DecidableEq ι] in
theorem column_self {n i : Nat} (z : β) (m : Mem ι β) (t : ι) (s : Nat) (hi : i < n) :
    column z n i m t (s * n + i) = m t (s * n + i) :=
  if_pos (by rw [Nat.mul_add_mod', Nat.mod_eq_of_lt hi])

/-- A cell of a slot, and its offset. -/
theorem exists_of_mem_slot {n s o : Nat} (h : s * n ≤ o ∧ o < s * n + n) :
    ∃ k < n, o = s * n + k ∧ o % n = k := by
  obtain ⟨k, rfl⟩ := Nat.exists_eq_add_of_le h.1
  have hk : k < n := by omega
  exact ⟨k, hk, rfl, by rw [Nat.mul_add_mod', Nat.mod_eq_of_lt hk]⟩

/-- A slot copy, column by column. -/
theorem memcpy_column {n i : Nat} (z : β) (m : Mem ι β) (t t' : ι) (s s' : Nat) :
    memcpy (column z n i m) (t, s * n) (t', s' * n) n =
      column z n i (memcpy m (t, s * n) (t', s' * n) n) := by
  funext u o
  simp only [memcpy, column]
  by_cases hr : u = t ∧ s * n ≤ o ∧ o < s * n + n
  · rw [if_pos hr, if_pos hr]
    obtain ⟨k, hk, rfl, hm⟩ := exists_of_mem_slot hr.2
    simp only [hm, Nat.add_sub_cancel_left, Nat.mul_add_mod', Nat.mod_eq_of_lt hk]
  · rw [if_neg hr, if_neg hr]

/-- Past the end of the slots there is nothing to see. -/
theorem memcpy_column_of_le {n i : Nat} (z : β) (m : Mem ι β) (t t' : ι) (s s' : Nat) (hi : n ≤ i) :
    memcpy (column z n i m) (t, s * n) (t', s' * n) n = column z n i m := by
  refine memcpy_eq_self fun k hk => ?_
  have hne : k ≠ i := Nat.ne_of_lt (Nat.lt_of_lt_of_le hk hi)
  simp only [column, Nat.mul_add_mod', Nat.mod_eq_of_lt hk, if_neg hne]

/-- **A copy of one cell is the copy of the whole slot in its own column, and nothing in the
others.** -/
theorem column_copyCell {n i k : Nat} (z : β) (m : Mem ι β) (t t' : ι) (s s' : Nat) (hk : k < n) :
    column z n i (memcpy m (t, s * n + k) (t', s' * n + k) 1) =
      if k = i then memcpy (column z n i m) (t, s * n) (t', s' * n) n else column z n i m := by
  have hcell : ∀ u o, memcpy m (t, s * n + k) (t', s' * n + k) 1 u o =
      if u = t ∧ o = s * n + k then m t' (s' * n + k) else m u o := by
    intro u o
    unfold memcpy
    by_cases ho : u = t ∧ o = s * n + k
    · rw [if_pos ho, if_pos ⟨ho.1, by simp only; omega, by simp only; omega⟩]
      simp only [ho.2, Nat.sub_self, Nat.add_zero]
    · rw [if_neg ho, if_neg fun h => ho ⟨h.1, by simp only at h; omega⟩]
  split
  · rename_i hki
    subst hki
    rw [memcpy_column]
    funext u o
    unfold column
    split
    · rename_i ho
      rw [hcell]
      unfold memcpy
      by_cases hr : u = t ∧ s * n ≤ o ∧ o < s * n + n
      · obtain ⟨j, -, rfl, hm⟩ := exists_of_mem_slot hr.2
        rw [ho] at hm
        subst hm
        rw [if_pos hr, if_pos ⟨hr.1, rfl⟩]
        simp only [Nat.add_sub_cancel_left]
      · rw [if_neg hr, if_neg fun h => hr ⟨h.1, by omega, by omega⟩]
    · rfl
  · rename_i hki
    funext u o
    unfold column
    split
    · rename_i ho
      rw [hcell, if_neg]
      rintro ⟨-, rfl⟩
      rw [Nat.mul_add_mod', Nat.mod_eq_of_lt hk] at ho
      exact hki ho
    · rfl

/-- A write of one cell, seen at one offset. -/
theorem column_writeCell {n i k : Nat} (z : β) (m : Mem ι β) (t : ι) (s : Nat) (b : β)
    (hk : k < n) : column z n i (write m (t, s * n + k) [b]) =
      if k = i then write (column z n i m) (t, s * n + k) [b] else column z n i m := by
  have hcell : ∀ (m : Mem ι β) u o, write m (t, s * n + k) [b] u o =
      if u = t ∧ o = s * n + k then b else m u o := by
    intro m u o
    unfold write
    by_cases ho : u = t ∧ o = s * n + k
    · rw [if_pos ho, if_pos ⟨ho.1, by simp only; omega⟩]
      simp only [ho.2, Nat.sub_self]
      rfl
    · rw [if_neg ho]
      by_cases hr : u = t ∧ s * n + k ≤ o
      · rw [if_pos hr, List.getElem?_eq_none]
        · rfl
        · have : o ≠ s * n + k := fun e => ho ⟨hr.1, e⟩
          simp only [List.length_singleton]
          omega
      · rw [if_neg hr]
  split
  · rename_i hki
    subst hki
    funext u o
    rw [hcell]
    unfold column
    simp only [hcell]
    by_cases ho : u = t ∧ o = s * n + k
    · rw [if_pos ho, ho.2, Nat.mul_add_mod', Nat.mod_eq_of_lt hk, if_pos rfl, if_pos ⟨ho.1, rfl⟩]
    · rw [if_neg ho]
      rw [if_neg ho]
  · rename_i hki
    funext u o
    unfold column
    split
    · rename_i ho
      rw [hcell, if_neg]
      rintro ⟨-, rfl⟩
      rw [Nat.mul_add_mod', Nat.mod_eq_of_lt hk] at ho
      exact hki ho
    · rfl

end Arena
