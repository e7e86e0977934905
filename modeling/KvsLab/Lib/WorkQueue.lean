import KvsLab.Lib.Run
import Mathlib.Data.List.Nodup

/-!
# Work queues with a claim cursor

One producer appends items, any number of workers claim them at a cursor and mark them done in
any order, and the producer removes done items from the front.  Two histories are kept: every
item ever `queued`, and every claim made.

* `Split q gone A B` — the items are `A`, claimed, and then `B`, not claimed, after the items
  `gone` that were removed.
* `Inv.next` — every action keeps `Inv`, so every run does (`Run.invariant`).
* Consequences: the claims are a prefix of everything queued, in order (`Inv.claims_eq`); an item
  is claimed exactly when it is below the cursor (`Inv.claimed_iff`); done items are below the
  cursor (`Inv.done_lt`), so a removal never takes the cursor below zero (`Inv.cursor_pos`); an
  item being worked on is still queued (`Inv.held`) and has one worker (`Split.exclusive`); and
  while an item is not done, there is work to go on with (`Inv.progress`).
-/

namespace WorkQueue

variable {π ω : Type}

/-- A queued item. -/
structure Item (π : Type) where
  name : π
  done : Bool := false
  deriving DecidableEq

structure Queue (π ω : Type) where
  items : List (Item π)
  cursor : Nat
  holder : ω → Option π
  queued : List π
  claims : List (ω × π)

inductive Act (π ω : Type) where
  | push (x : π)
  | claim (w : ω)
  | finish (w : ω)
  | pop

/-- Mark the item `x` done. -/
def markDone [DecidableEq π] (x : π) (it : Item π) : Item π :=
  if it.name = x then { it with done := true } else it

namespace Queue

/-- One action; `none` where it is not enabled. -/
def next [DecidableEq π] [DecidableEq ω] (q : Queue π ω) : Act π ω → Option (Queue π ω)
  | .push x =>
    if x ∈ q.queued then none
    else some { q with items := q.items ++ [⟨x, false⟩], queued := q.queued ++ [x] }
  | .claim w =>
    match q.holder w, q.items[q.cursor]? with
    | none, some it => some { q with
        cursor := q.cursor + 1
        holder := Function.update q.holder w (some it.name)
        claims := q.claims ++ [(w, it.name)] }
    | _, _ => none
  | .finish w =>
    match q.holder w with
    | some x => some { q with
        items := q.items.map (markDone x)
        holder := Function.update q.holder w none }
    | none => none
  | .pop =>
    match q.items with
    | it :: is => if it.done then some { q with items := is, cursor := q.cursor - 1 } else none
    | [] => none

/-- Removed items, claimed items, and the rest. -/
structure Split (q : Queue π ω) (gone : List π) (A B : List (Item π)) : Prop where
  items : q.items = A ++ B
  cursor : q.cursor = A.length
  queued : q.queued = gone ++ (A.map (·.name) ++ B.map (·.name))
  claims : q.claims.map (·.2) = gone ++ A.map (·.name)
  nodup : q.queued.Nodup
  fresh : ∀ it ∈ B, it.done = false
  held : ∀ w x, q.holder w = some x → (w, x) ∈ q.claims ∧ ∃ it ∈ A, it.name = x ∧ it.done = false
  busy : ∀ it ∈ A, it.done = false → ∃ w, q.holder w = some it.name

def Inv (q : Queue π ω) : Prop := ∃ gone A B, Split q gone A B

variable {q q' : Queue π ω} {gone : List π} {A B : List (Item π)} {w : ω} {x : π}

/-- An empty queue. -/
theorem Inv.empty (h₁ : q.items = []) (h₂ : q.cursor = 0) (h₃ : ∀ w, q.holder w = none)
    (h₄ : q.queued = []) (h₅ : q.claims = []) : q.Inv :=
  ⟨[], [], [], h₁, h₂, h₄, by rw [h₅]; rfl, by rw [h₄]; exact List.nodup_nil, nofun,
    fun w x h => absurd ((h₃ w).symm.trans h) nofun, nofun⟩

/-! ## Consequences -/

theorem Split.claims_nodup (h : Split q gone A B) : (q.claims.map (·.2)).Nodup := by
  have hnd := h.nodup
  rw [h.queued, ← List.append_assoc, List.nodup_append'] at hnd
  rw [h.claims]
  exact hnd.1

theorem Split.exclusive (h : Split q gone A B) {v : ω} (hw : q.holder w = some x)
    (hv : q.holder v = some x) : w = v := by
  have := List.inj_on_of_nodup_map h.claims_nodup (h.held w x hw).1 (h.held v x hv).1 rfl
  exact (Prod.mk.inj this).1

theorem Inv.cursor_le (h : q.Inv) : q.cursor ≤ q.items.length := by
  obtain ⟨gone, A, B, hs⟩ := h
  rw [hs.cursor, hs.items, List.length_append]
  exact Nat.le_add_right _ _

/-- **Claims are made in queue order, none skipped and none made twice.** -/
theorem Inv.claims_eq (h : q.Inv) :
    q.claims.map (·.2) = q.queued.take (q.queued.length - q.items.length + q.cursor) ∧
      q.items.map (·.name) = q.queued.drop (q.queued.length - q.items.length) ∧
      q.queued.Nodup := by
  obtain ⟨gone, A, B, hs⟩ := h
  have hlen : q.queued.length - q.items.length = gone.length := by
    rw [hs.queued, hs.items]
    simp
  rw [hlen, hs.claims]
  refine ⟨?_, ?_, hs.nodup⟩
  · rw [hs.queued, hs.cursor, ← List.append_assoc, List.take_left']
    simp
  · rw [hs.queued, List.drop_left, hs.items, List.map_append]

theorem Inv.claims_nodup (h : q.Inv) : (q.claims.map (·.2)).Nodup := by
  obtain ⟨gone, A, B, hs⟩ := h
  exact hs.claims_nodup

/-- The items below the cursor are the claimed ones. -/
theorem Inv.claimed_iff (h : q.Inv) {i : Nat} {it : Item π} (hi : q.items[i]? = some it) :
    i < q.cursor ↔ it.name ∈ q.claims.map (·.2) := by
  obtain ⟨gone, A, B, hs⟩ := h
  rw [hs.items] at hi
  have hnd := hs.nodup
  rw [hs.queued, ← List.append_assoc, List.nodup_append'] at hnd
  rw [hs.cursor, hs.claims]
  constructor
  · intro hlt
    rw [List.getElem?_append_left hlt] at hi
    exact List.mem_append_right _ (List.mem_map_of_mem (List.mem_of_getElem? hi))
  · intro hm
    by_contra hge
    rw [List.getElem?_append_right (Nat.le_of_not_lt hge)] at hi
    exact hnd.2.2 hm (List.mem_map_of_mem (List.mem_of_getElem? hi))

/-- A done item is below the cursor. -/
theorem Inv.done_lt (h : q.Inv) {i : Nat} {it : Item π} (hi : q.items[i]? = some it)
    (hd : it.done = true) : i < q.cursor := by
  obtain ⟨gone, A, B, hs⟩ := h
  rw [hs.cursor]
  by_contra hge
  rw [hs.items, List.getElem?_append_right (Nat.le_of_not_lt hge)] at hi
  have := hs.fresh it (List.mem_of_getElem? hi)
  rw [hd] at this
  cases this

/-- So the cursor covers the front when the front is removed. -/
theorem Inv.cursor_pos (h : q.Inv) {it : Item π} {is : List (Item π)} (hi : q.items = it :: is)
    (hd : it.done = true) : 0 < q.cursor :=
  h.done_lt (i := 0) (by rw [hi]; rfl) hd

/-- An item being worked on was claimed by its worker, is queued, and is not done. -/
theorem Inv.held (h : q.Inv) (hw : q.holder w = some x) :
    (w, x) ∈ q.claims ∧ ∃ it ∈ q.items, it.name = x ∧ it.done = false := by
  obtain ⟨gone, A, B, hs⟩ := h
  obtain ⟨hc, it, hit, hrest⟩ := hs.held w x hw
  exact ⟨hc, it, by rw [hs.items]; exact List.mem_append_left _ hit, hrest⟩

/-- Unless everything is done, a worker holds an item or the next one can be claimed. -/
theorem Inv.progress (h : q.Inv) : (∀ it ∈ q.items, it.done = true) ∨
    (∃ w x, q.holder w = some x) ∨
      (∃ it, q.items[q.cursor]? = some it) ∧ ∀ w, q.holder w = none := by
  obtain ⟨gone, A, B, hs⟩ := h
  by_cases hheld : ∃ w x, q.holder w = some x
  · exact .inr (.inl hheld)
  have hfree : ∀ w, q.holder w = none := fun w =>
    Option.eq_none_iff_forall_ne_some.mpr fun x hx => hheld ⟨w, x, hx⟩
  have hdone : ∀ it ∈ A, it.done = true := by
    intro it hit
    by_contra hd
    obtain ⟨w, hw⟩ := hs.busy it hit (by simpa using hd)
    exact hheld ⟨w, _, hw⟩
  cases B with
  | nil =>
    left
    intro it hit
    rw [hs.items, List.append_nil] at hit
    exact hdone it hit
  | cons it B =>
    refine .inr (.inr ⟨⟨it, ?_⟩, hfree⟩)
    rw [hs.items, hs.cursor, List.getElem?_append_right (Nat.le_refl _), Nat.sub_self]
    rfl

/-! ## Actions -/

theorem Split.push (h : Split q gone A B) (hx : x ∉ q.queued) :
    Split { q with items := q.items ++ [⟨x, false⟩], queued := q.queued ++ [x] } gone A
      (B ++ [⟨x, false⟩]) := by
  refine ⟨?_, h.cursor, ?_, h.claims, ?_, ?_, h.held, h.busy⟩
  · show q.items ++ [⟨x, false⟩] = A ++ (B ++ [⟨x, false⟩])
    rw [h.items, List.append_assoc]
  · show q.queued ++ [x] = _
    rw [h.queued, List.map_append]
    simp only [List.append_assoc]
    rfl
  · exact List.nodup_append'.mpr ⟨h.nodup, List.nodup_singleton x, fun y hy hm => by
      rw [List.mem_singleton.mp hm] at hy
      exact hx hy⟩
  · intro it hit
    rcases List.mem_append.mp hit with hit | hit
    · exact h.fresh it hit
    · rw [List.mem_singleton.mp hit]

theorem Split.claim [DecidableEq ω] {it : Item π} (h : Split q gone A (it :: B))
    (hw : q.holder w = none) :
    Split { q with
      cursor := q.cursor + 1
      holder := Function.update q.holder w (some it.name)
      claims := q.claims ++ [(w, it.name)] } gone (A ++ [it]) B := by
  refine ⟨?_, ?_, ?_, ?_, h.nodup, fun i hi => h.fresh i (List.mem_cons_of_mem _ hi), ?_, ?_⟩
  · show q.items = _
    rw [h.items, List.append_assoc]
    rfl
  · show q.cursor + 1 = _
    rw [h.cursor, List.length_append]
    rfl
  · show q.queued = _
    rw [h.queued]
    simp
  · show (q.claims ++ [(w, it.name)]).map (·.2) = _
    rw [List.map_append, h.claims]
    simp
  · intro v x hv
    show (v, x) ∈ q.claims ++ [(w, it.name)] ∧ _
    by_cases hvw : v = w
    · subst hvw
      have hv : Function.update q.holder v (some it.name) v = some x := hv
      rw [Function.update_self] at hv
      cases hv
      exact ⟨List.mem_append_right _ List.mem_cons_self, it,
        List.mem_append_right _ List.mem_cons_self, rfl, h.fresh it List.mem_cons_self⟩
    · have hv : Function.update q.holder w (some it.name) v = some x := hv
      rw [Function.update_of_ne hvw] at hv
      obtain ⟨hc, i, hi, hrest⟩ := h.held v x hv
      exact ⟨List.mem_append_left _ hc, i, List.mem_append_left _ hi, hrest⟩
  · intro i hi hd
    show ∃ v, Function.update q.holder w (some it.name) v = some i.name
    rcases List.mem_append.mp hi with hi | hi
    · obtain ⟨v, hv⟩ := h.busy i hi hd
      refine ⟨v, ?_⟩
      rw [Function.update_of_ne (fun e => by rw [e, hw] at hv; cases hv)]
      exact hv
    · rw [List.mem_singleton.mp hi]
      exact ⟨w, Function.update_self _ _ _⟩

theorem markDone_name [DecidableEq π] (x : π) (it : Item π) : (markDone x it).name = it.name := by
  unfold markDone
  split <;> rfl

theorem map_markDone_name [DecidableEq π] (x : π) (l : List (Item π)) :
    (l.map (markDone x)).map (·.name) = l.map (·.name) := by
  rw [List.map_map]
  exact List.map_congr_left fun it _ => markDone_name x it

theorem markDone_of_ne [DecidableEq π] {it : Item π} (h : it.name ≠ x) : markDone x it = it := if_neg h

theorem Split.finish [DecidableEq π] [DecidableEq ω] (h : Split q gone A B)
    (hw : q.holder w = some x) :
    Split { q with
      items := q.items.map (markDone x)
      holder := Function.update q.holder w none } gone (A.map (markDone x)) B := by
  obtain ⟨_, it₀, hit₀, hname, _⟩ := h.held w x hw
  -- the item is a claimed one, so the others are left alone
  have hB : B.map (markDone x) = B := by
    refine (List.map_congr_left fun it hit => ?_).trans (List.map_id' B)
    refine markDone_of_ne fun he => ?_
    have hnd := h.nodup
    rw [h.queued, List.nodup_append', List.nodup_append'] at hnd
    refine hnd.2.1.2.2 (List.mem_map_of_mem hit₀) ?_
    rw [hname, ← he]
    exact List.mem_map_of_mem hit
  refine ⟨?_, ?_, ?_, ?_, h.nodup, h.fresh, ?_, ?_⟩
  · show q.items.map _ = _
    rw [h.items, List.map_append, hB]
  · show q.cursor = _
    rw [h.cursor, List.length_map]
  · show q.queued = _
    rw [h.queued, map_markDone_name]
  · show q.claims.map _ = _
    rw [h.claims, map_markDone_name]
  · intro v y hv
    have hv : Function.update q.holder w none v = some y := hv
    have hvw : v ≠ w := fun e => by
      rw [e, Function.update_self] at hv
      cases hv
    rw [Function.update_of_ne hvw] at hv
    obtain ⟨hc, it, hit, hny, hd⟩ := h.held v y hv
    refine ⟨hc, it, List.mem_map.mpr ⟨it, hit, markDone_of_ne fun he => ?_⟩, hny, hd⟩
    rw [← hny, he] at hv
    exact hvw (h.exclusive hv hw)
  · intro i hi hd
    obtain ⟨it, hit, rfl⟩ := List.mem_map.mp hi
    have hne : it.name ≠ x := fun he => by
      rw [markDone, if_pos he] at hd
      cases hd
    rw [markDone_of_ne hne] at hd ⊢
    obtain ⟨v, hv⟩ := h.busy it hit hd
    refine ⟨v, ?_⟩
    show Function.update q.holder w none v = _
    rw [Function.update_of_ne (fun e => by
      rw [e, hw] at hv
      exact hne (Option.some.inj hv).symm)]
    exact hv

theorem Split.pop {it : Item π} (h : Split q gone (it :: A) B) (hd : it.done = true) :
    Split { q with items := A ++ B, cursor := q.cursor - 1 } (gone ++ [it.name]) A B := by
  refine ⟨rfl, ?_, ?_, ?_, h.nodup, h.fresh, ?_,
    fun i hi => h.busy i (List.mem_cons_of_mem _ hi)⟩
  · show q.cursor - 1 = _
    rw [h.cursor]
    rfl
  · show q.queued = _
    rw [h.queued]
    simp
  · show q.claims.map _ = _
    rw [h.claims]
    simp
  · intro v x hv
    obtain ⟨hc, i, hi, hn, hnd⟩ := h.held v x hv
    refine ⟨hc, i, ?_, hn, hnd⟩
    rcases List.mem_cons.mp hi with rfl | hi
    · rw [hd] at hnd
      cases hnd
    · exact hi

/-- **Every action keeps the invariant.** -/
theorem Inv.next [DecidableEq π] [DecidableEq ω] (h : q.Inv) {act : Act π ω}
    (he : q.next act = some q') : q'.Inv := by
  obtain ⟨gone, A, B, hs⟩ := h
  cases act with
  | push x =>
    simp only [Queue.next] at he
    split at he
    · cases he
    · rename_i hx
      cases he
      exact ⟨_, _, _, hs.push hx⟩
  | claim w =>
    simp only [Queue.next] at he
    split at he
    · rename_i it hw hit
      cases he
      rw [hs.items, hs.cursor, List.getElem?_append_right (Nat.le_refl _), Nat.sub_self] at hit
      cases B with
      | nil => cases hit
      | cons b B =>
        cases hit
        exact ⟨_, _, _, hs.claim hw⟩
    · cases he
  | finish w =>
    simp only [Queue.next] at he
    split at he
    · rename_i x hw
      cases he
      exact ⟨_, _, _, hs.finish hw⟩
    · cases he
  | pop =>
    simp only [Queue.next] at he
    split at he
    · rename_i it is hit
      split at he
      · rename_i hd
        cases he
        rw [hs.items] at hit
        -- the front is done, so it is a claimed item
        cases A with
        | nil =>
          rw [List.nil_append] at hit
          have := hs.fresh it (by rw [hit]; exact List.mem_cons_self)
          rw [hd] at this
          cases this
        | cons a A =>
          obtain ⟨rfl, rfl⟩ := List.cons.inj hit
          exact ⟨_, _, _, hs.pop hd⟩
      · cases he
    · cases he

end Queue

end WorkQueue
