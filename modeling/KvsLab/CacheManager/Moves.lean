import KvsLab.CacheManager
import KvsLab.BlockPool.Blocks

/-!
# The manager's loops over blocks

Each loop of the manager returns on allocated blocks, and what it does to the pool is stated per
block.

* `Shifted l p p'` — migrations of the blocks `l` changed, no reference did.
* `Homed p b` — block `b` is in the compute tier for good, or on its way there.
* One specification per loop: `cancelDemotions_spec`, `demote_spec`, `promoteAll_spec`,
  `allocateAll_spec`, `dropRefs_spec`.
-/

namespace KvsLab

open Counting

namespace BlockPool

variable {p p' q : BlockPool} {id x y b : BlockId} {l l' : List BlockId}

/-- Only migrations of the blocks `l` changed. -/
structure Shifted (l : List BlockId) (p p' : BlockPool) : Prop where
  inv : p'.Inv
  shape : SameShape p p'
  refcount : p'.refcount = p.refcount
  freed : p'.freed = p.freed
  same : ∀ y, y ∉ l → SameBlock p p' y

theorem Shifted.refl (h : p.Inv) (l : List BlockId) : Shifted l p p :=
  ⟨h, .refl p, rfl, rfl, fun y _ => .refl p y⟩

theorem Shifted.mono (h : Shifted l p p') (hs : l ⊆ l') : Shifted l' p p' :=
  ⟨h.inv, h.shape, h.refcount, h.freed, fun y hy => h.same y fun hm => hy (hs hm)⟩

theorem Shifted.trans (h : Shifted l p p') (h' : Shifted l p' q) : Shifted l p q :=
  ⟨h'.inv, h.shape.trans h'.shape, h'.refcount.trans h.refcount, h'.freed.trans h.freed,
    fun y hy => (h.same y hy).trans (h'.same y hy)⟩

theorem Shifted.cons (h : Shifted [id] p p') (h' : Shifted l p' q) : Shifted (id :: l) p q :=
  (h.mono (List.cons_subset_cons _ (List.nil_subset _))).trans
    (h'.mono (List.subset_cons_self _ _))

/-- In the compute tier with no migration in flight, or in a spill tier and on its way to the
compute tier. -/
def Homed (p : BlockPool) (b : BlockId) : Prop :=
  ((p.location b).tier = 0 ∧ p.target b = none) ∨
    ((p.location b).tier ≠ 0 ∧ p.target b = some 0)

theorem SameBlock.homed (h : SameBlock p p' y) : Homed p' y ↔ Homed p y := by
  unfold Homed
  rw [h.location, h.target]

theorem SameBlock.delivered (h : SameBlock p p' y) : Delivered p p' y :=
  ⟨h.refcount, .inl ⟨h.location, h.target⟩⟩

theorem Delivered.homed (h : Delivered p p' y) (hy : Homed p y) : Homed p' y := by
  rcases h.moved with ⟨h1, h2⟩ | ⟨t, h1, h2, h3⟩
  · unfold Homed
    rw [h1, h2]
    exact hy
  · rcases hy with ⟨_, h4⟩ | ⟨_, h4⟩
    · rw [h1] at h4
      cases h4
    · rw [h1] at h4
      cases h4
      exact .inl ⟨h2, h3⟩

/-- Jobs queued for tier `t`, cancelled ones included. -/
def reservedTo (p : BlockPool) (t : TierIndex) : Nat := p.jobs.countP fun j => j.dstTier == t

/-- Worker actions change no migration. -/
theorem Inv.work (h : p.Inv) (ws : List (WorkerId × WorkerAct)) : Shifted [] p (p.work ws) := by
  induction ws generalizing p with
  | nil => exact .refl h _
  | cons a ws ih =>
    show Shifted [] p (((p.workerStep a.1 a.2).getD p).work ws)
    cases he : p.workerStep a.1 a.2 with
    | none => exact ih h
    | some q =>
      have hb := SameBooks.workerStep he
      have hq : Shifted [] p q :=
        ⟨h.workerStep he, hb.shape, hb.refcount, hb.freed, fun y _ => hb.sameBlock y⟩
      exact hq.trans (ih hq.inv)

/-! ## Cancelling -/

theorem cancel_of_target_none (h : p.Inv) (hn : p.target id = none) : p.cancelMigration id = p := by
  refine cancel_of_not_migrating ?_
  rw [h.migrating_eq_isSome, hn]
  rfl

theorem Inv.cancel_shifted (h : p.Inv) (id : BlockId) : Shifted [id] p (p.cancelMigration id) :=
  ⟨h.cancelMigration id, .cancelMigration p id, cancel_refcount p id, cancel_freed,
    fun _ hy => h.cancel_same fun e => hy (List.mem_singleton.mpr e)⟩

theorem Inv.cancel_reservedTo (h : p.Inv) (id : BlockId) (t : TierIndex) :
    (p.cancelMigration id).reservedTo t = p.reservedTo t := by
  unfold reservedTo
  rw [h.cancel_eq, List.countP_map]
  congr 1
  funext j
  simp

theorem Inv.releaseAll_reservedTo (t : TierIndex) : ∀ {l : List BlockId} {p : BlockPool}, p.Inv →
    l.Nodup → (∀ b ∈ l, p.refcount b ≠ 0) → (p.releaseAll l).reservedTo t = p.reservedTo t
  | [], _, _, _, _ => rfl
  | b :: l, p, h, hn, hr => by
    rw [List.nodup_cons] at hn
    have hne : ∀ y ∈ l, y ≠ b := fun y hy e => hn.1 (e ▸ hy)
    have ih := Inv.releaseAll_reservedTo t (h.releaseBlock (hr b List.mem_cons_self)) hn.2
      fun y hy => by
        rw [(h.releaseBlock_same (hne y hy)).refcount]
        exact hr y (List.mem_cons_of_mem _ hy)
    exact ih.trans (h.cancel_reservedTo b t)

/-! ## Synchronous moves -/

theorem Inv.migrate_eq (h : p.Inv) {dst : TierIndex} (hr : p.refcount id ≠ 0)
    (ht : dst < p.numTiers) (hn : p.target id = none) (hne : (p.location id).tier ≠ dst) :
    p.migrate id dst =
      match (p.tiers dst).freeSlots with
      | [] => .ok (false, p)
      | slot :: _ => .ok (true, p.moveBlock id ⟨dst, slot⟩ (p.location id)) := by
  unfold BlockPool.migrate
  simp only [cancel_of_target_none h hn, locate_eq (h.lt_of_refcount hr) hr, bind, Except.bind,
    if_neg (Nat.not_le.mpr ht), if_neg hne]
  rfl

theorem Inv.migrateAsync_eq (h : p.Inv) {dst : TierIndex} (hr : p.refcount id ≠ 0)
    (ht : dst < p.numTiers) :
    p.migrateAsync id dst =
      if (p.location id).tier = dst ∨ p.migrating id = true then .ok (false, p)
      else
        match (p.tiers dst).freeSlots with
        | [] => .ok (false, p)
        | slot :: _ =>
          if (p.tiers (p.location id).tier).hostAddressable && (p.tiers dst).hostAddressable then
            .ok (true, p.enqueue id ⟨dst, slot⟩ (p.location id))
          else .ok (false, p) := by
  unfold BlockPool.migrateAsync
  simp only [locate_eq (h.lt_of_refcount hr) hr, bind, Except.bind, if_neg (Nat.not_le.mpr ht)]
  by_cases h1 : (p.location id).tier = dst
  · rw [if_pos h1, if_pos (.inl h1)]
    rfl
  by_cases h2 : p.migrating id = true
  · rw [if_neg h1, if_pos h2, if_pos (.inr h2)]
    rfl
  rw [if_neg h1, if_neg h2, if_neg (by rintro (h | h) <;> contradiction)]
  cases (p.tiers dst).freeSlots with
  | nil => rfl
  | cons slot slots =>
    cases (p.tiers (p.location id).tier).hostAddressable && (p.tiers dst).hostAddressable <;> rfl

/-- A synchronous move of a block that is not in flight. -/
theorem Inv.migrate_spec (h : p.Inv) {dst : TierIndex} (hr : p.refcount id ≠ 0)
    (ht : dst < p.numTiers) (hn : p.target id = none) (hne : (p.location id).tier ≠ dst) :
    (p.tierFree dst = 0 ∧ p.migrate id dst = .ok (false, p)) ∨
    ∃ p', p.migrate id dst = .ok (true, p') ∧ Shifted [id] p p' ∧
      (p'.location id).tier = dst ∧ p'.target id = none ∧
      (∀ u, p'.tierFree u + (if u = dst then 1 else 0) =
        p.tierFree u + if u = (p.location id).tier then 1 else 0) ∧
      ∀ u, p'.reservedTo u = p.reservedTo u := by
  rw [h.migrate_eq hr ht hn hne]
  cases hs : (p.tiers dst).freeSlots with
  | nil => exact .inl ⟨by unfold tierFree; rw [hs]; rfl, rfl⟩
  | cons slot slots =>
    refine .inr ⟨_, rfl, ⟨h.moveBlock hr (target_eq_none.mp hn) ht hs, .moveBlock _ _ _ _, rfl, rfl,
      fun y hy => moveBlock_same fun e => hy (List.mem_singleton.mpr e)⟩, ?_, hn, ?_, fun _ => rfl⟩
    · show (Function.update p.location id _ id).tier = dst
      rw [Function.update_self]
    · exact moveBlock_tierFree hs

/-- Queueing a move, or not. -/
theorem Inv.migrateAsync_spec (h : p.Inv) {dst : TierIndex} (hr : p.refcount id ≠ 0)
    (ht : dst < p.numTiers) :
    p.migrateAsync id dst = .ok (false, p) ∨
    ∃ p', p.migrateAsync id dst = .ok (true, p') ∧ Shifted [id] p p' ∧ p.target id = none ∧
      (p'.location id) = p.location id ∧ p'.target id = some dst ∧
      ∀ u, p'.tierFree u + (if u = dst then 1 else 0) = p.tierFree u := by
  rw [h.migrateAsync_eq hr ht]
  split
  · exact .inl rfl
  rename_i hnot
  rw [not_or, Bool.not_eq_true] at hnot
  cases hs : (p.tiers dst).freeSlots with
  | nil => exact .inl rfl
  | cons slot slots =>
    show (if _ then _ else _) = _ ∨ _
    split
    · have hn : p.target id = none := by
        rw [← Option.not_isSome_iff_eq_none, ← h.migrating_eq_isSome, hnot.2]
        exact Bool.false_ne_true
      refine .inr ⟨_, rfl, ⟨h.enqueue hr ht hnot.1 hnot.2 hs, .enqueue _ _ _ _, rfl, rfl,
        fun y hy => enqueue_same fun e => hy (List.mem_singleton.mpr e)⟩, hn, rfl, ?_, ?_⟩
      · exact enqueue_target hn
      · exact enqueue_tierFree hs
    · exact .inl rfl

end BlockPool

namespace CacheManager

open BlockPool

variable {p p' : BlockPool} {id b y : BlockId} {ids : List BlockId}

/-! ## Cancelling the demotions of a hit -/

/-- The target left once a demotion is cancelled. -/
def keepPromotion (target : Option TierIndex) : Option TierIndex :=
  if target = some 0 then some 0 else none

theorem keepPromotion_idem (t : Option TierIndex) :
    keepPromotion (keepPromotion t) = keepPromotion t := by
  unfold keepPromotion
  split <;> rfl

/-- One iteration. -/
theorem cancelDemotions_cons (h : p.Inv) :
    cancelDemotions (id :: ids) p =
      if p.target id = none ∨ p.target id = some 0 then cancelDemotions ids p
      else cancelDemotions ids (p.cancelMigration id) := by
  conv_lhs => rw [cancelDemotions]
  rw [h.migrating_eq_isSome]
  cases ht : p.target id with
  | none => simp
  | some t =>
    simp only [Option.isSome_some, if_true, h.migrationTarget_eq ht, bind, Except.bind]
    by_cases h0 : t = 0
    · simp [h0]
    · simp [h0]

/-- **Cancelling leaves locations, slots and promotions alone.** -/
theorem cancelDemotions_spec : ∀ (ids : List BlockId) (p : BlockPool), p.Inv →
    ∃ p', cancelDemotions ids p = .ok p' ∧ Shifted ids p p' ∧ p'.location = p.location ∧
      (∀ u, p'.tierFree u = p.tierFree u) ∧ (∀ u, p'.reservedTo u = p.reservedTo u) ∧
      ∀ b ∈ ids, p'.target b = keepPromotion (p.target b)
  | [], p, h => ⟨p, rfl, .refl h _, rfl, fun _ => rfl, fun _ => rfl, nofun⟩
  | id :: ids, p, h => by
    rw [cancelDemotions_cons h]
    -- what the first iteration leaves
    obtain ⟨q, hq, hs, hloc, hfree, hres, htar⟩ : ∃ q,
        (if p.target id = none ∨ p.target id = some 0 then cancelDemotions ids p
          else cancelDemotions ids (p.cancelMigration id)) = cancelDemotions ids q ∧
        Shifted [id] p q ∧ q.location = p.location ∧ (∀ u, q.tierFree u = p.tierFree u) ∧
        (∀ u, q.reservedTo u = p.reservedTo u) ∧ q.target id = keepPromotion (p.target id) := by
      split
      · rename_i hk
        refine ⟨p, rfl, .refl h _, rfl, fun _ => rfl, fun _ => rfl, ?_⟩
        rcases hk with hk | hk <;> rw [hk] <;> rfl
      · rename_i hk
        refine ⟨_, rfl, h.cancel_shifted id, cancel_location p id, fun u => cancel_tierFree u,
          h.cancel_reservedTo id, ?_⟩
        rw [h.cancel_target, keepPromotion, if_neg fun h0 => hk (.inr h0)]
    rw [hq]
    obtain ⟨p', he, hs', hloc', hfree', hres', htar'⟩ := cancelDemotions_spec ids q hs.inv
    refine ⟨p', he, hs.cons hs', hloc'.trans hloc, fun u => (hfree' u).trans (hfree u),
      fun u => (hres' u).trans (hres u), ?_⟩
    intro b hb
    by_cases hbi : b ∈ ids
    · rw [htar' b hbi]
      by_cases e : b = id
      · rw [e, htar, keepPromotion_idem]
      · rw [(hs.same b fun hm => e (List.mem_singleton.mp hm)).target]
    · have e : b = id := by
        rcases List.mem_cons.mp hb with e | hm
        · exact e
        · exact absurd hm hbi
      rw [(hs'.same b hbi).target, e, htar]

/-! ## Promotions -/

/-- A matched block that has to be brought back. -/
def needsPromotion (p : BlockPool) (b : BlockId) : Bool :=
  (p.location b).tier != 0 && (p.target b).isNone

theorem needsPromotion_congr (h : SameBlock p p' b) :
    needsPromotion p' b = needsPromotion p b := by
  unfold needsPromotion
  rw [h.location, h.target]

theorem needsPromotion_of_homed (h : Homed p b) : needsPromotion p b = false := by
  rcases h with ⟨h1, _⟩ | ⟨_, h2⟩
  · simp [needsPromotion, h1]
  · simp [needsPromotion, h2]

theorem countPromotions_eq (h : p.Inv) : ∀ {ids : List BlockId}, (∀ b ∈ ids, p.refcount b ≠ 0) →
    countPromotions p ids = .ok (ids.countP (needsPromotion p))
  | [], _ => rfl
  | b :: ids, hr => by
    unfold countPromotions
    simp only [h.blockTier_eq (hr b List.mem_cons_self), bind, Except.bind,
      countPromotions_eq h fun c hc => hr c (List.mem_cons_of_mem _ hc)]
    rw [List.countP_cons, Nat.add_comm]
    have hm : p.migrating b = false ↔ (p.target b).isNone = true := by
      rw [h.migrating_eq_isSome]
      cases p.target b <;> simp
    have hiff : ((p.location b).tier ≠ 0 ∧ p.migrating b = false) ↔ needsPromotion p b = true := by
      unfold needsPromotion
      rw [hm, Bool.and_eq_true, bne_iff_ne]
    by_cases hb : needsPromotion p b = true
    · rw [if_pos (hiff.mpr hb), if_pos hb]
      rfl
    · rw [if_neg fun h => hb (hiff.mp h), if_neg hb]
      rfl

/-- **A promotion with a compute slot to spare succeeds.** -/
theorem promote_spec (h : p.Inv) (async : Bool) (hb : needsPromotion p b = true)
    (hr : p.refcount b ≠ 0) (hf : p.numFree ≠ 0) :
    ∃ p', promote async p b = .ok (true, p') ∧ Shifted [b] p p' ∧ Homed p' b ∧
      p'.numFree + 1 = p.numFree := by
  unfold needsPromotion at hb
  rw [Bool.and_eq_true, bne_iff_ne, Option.isNone_iff_eq_none] at hb
  have hsync : ∃ p', p.migrate b 0 = .ok (true, p') ∧ Shifted [b] p p' ∧ Homed p' b ∧
      p'.numFree + 1 = p.numFree := by
    rcases h.migrate_spec hr h.tiers_pos hb.2 hb.1 with ⟨h0, _⟩ | ⟨p', he, hs, h1, h2, h3, _⟩
    · exact absurd h0 hf
    · refine ⟨p', he, hs, .inl ⟨h1, h2⟩, ?_⟩
      have := h3 0
      rw [if_pos rfl, if_neg (Ne.symm hb.1)] at this
      exact this
  unfold promote
  cases async with
  | false => exact hsync
  | true =>
    rcases h.migrateAsync_spec hr h.tiers_pos with he | ⟨p', he, hs, _, h1, h2, h3⟩
    · simp only [he, bind, Except.bind, if_true]
      exact hsync
    · simp only [he, bind, Except.bind, if_true]
      refine ⟨p', rfl, hs, .inr ⟨by rw [h1]; exact hb.1, h2⟩, ?_⟩
      have := h3 0
      rw [if_pos rfl] at this
      exact this

/-- **With a slot for each promotion the loop brings every block home.** -/
theorem promoteAll_spec (async : Bool) : ∀ (ids : List BlockId) (p : BlockPool), p.Inv → ids.Nodup →
    (∀ b ∈ ids, p.refcount b ≠ 0) → (∀ b ∈ ids, needsPromotion p b = true ∨ Homed p b) →
    ids.countP (needsPromotion p) ≤ p.numFree →
    ∃ p', promoteAll async ids p = .ok (ids.countP (needsPromotion p), p') ∧ Shifted ids p p' ∧
      (∀ b ∈ ids, Homed p' b) ∧ (∀ b, Homed p b → SameBlock p p' b) ∧
      p'.numFree + ids.countP (needsPromotion p) = p.numFree
  | [], p, h, _, _, _, _ => ⟨p, rfl, .refl h _, nofun, fun b _ => .refl p b, rfl⟩
  | b :: ids, p, h, hn, hr, hh, hf => by
    rw [List.nodup_cons] at hn
    have hrb := hr b List.mem_cons_self
    have hiff : ((p.location b).tier = 0 ∨ p.migrating b = true) ↔ needsPromotion p b = false := by
      rw [h.migrating_eq_isSome]
      unfold needsPromotion
      cases p.target b <;> simp
    unfold promoteAll
    simp only [h.blockTier_eq hrb, bind, Except.bind]
    rw [List.countP_cons] at hf ⊢
    cases hb : needsPromotion p b with
    | false =>
      rw [if_pos (hiff.mpr hb)]
      rw [hb] at hf
      obtain ⟨p', he, hs, h1, h2, h3⟩ := promoteAll_spec async ids p h hn.2
        (fun c hc => hr c (List.mem_cons_of_mem _ hc)) (fun c hc => hh c (List.mem_cons_of_mem _ hc))
        (by simpa using hf)
      have hbh : Homed p b := by
        rcases hh b List.mem_cons_self with h' | h'
        · rw [hb] at h'; cases h'
        · exact h'
      refine ⟨p', by simpa using he, hs.mono (List.subset_cons_self _ _), ?_, h2, by simpa using h3⟩
      intro c hc
      rcases List.mem_cons.mp hc with rfl | hc
      · exact (h2 c hbh).homed.mpr hbh
      · exact h1 c hc
    | true =>
      rw [if_neg fun h' => by rw [hiff.mp h'] at hb; cases hb]
      rw [hb, if_pos rfl] at hf
      obtain ⟨q, hq, hsq, hbh, hfq⟩ := promote_spec h async hb hrb (by omega)
      have hsame : ∀ c, c ≠ b → SameBlock p q c := fun c hc =>
        hsq.same c fun hm => hc (List.mem_singleton.mp hm)
      have hne : ∀ c ∈ ids, c ≠ b := fun c hc e => hn.1 (e ▸ hc)
      have hcount : ids.countP (needsPromotion q) = ids.countP (needsPromotion p) := by
        apply List.countP_congr
        intro c hc
        rw [needsPromotion_congr (hsame c (hne c hc))]
      obtain ⟨p', he, hs, h1, h2, h3⟩ := promoteAll_spec async ids q hsq.inv hn.2
        (fun c hc => by rw [hsq.refcount]; exact hr c (List.mem_cons_of_mem _ hc))
        (fun c hc => by
          rw [(hsame c (hne c hc)).homed, needsPromotion_congr (hsame c (hne c hc))]
          exact hh c (List.mem_cons_of_mem _ hc))
        (by rw [hcount]; omega)
      simp only [hq, he, hcount]
      refine ⟨p', rfl, hsq.cons hs, ?_, ?_, by rw [hcount] at h3; simp only [if_true]; omega⟩
      · intro c hc
        rcases List.mem_cons.mp hc with rfl | hc
        · exact (h2 c hbh).homed.mpr hbh
        · exact h1 c hc
      · intro c hc
        have hcb : c ≠ b := fun e => by rw [e] at hc; rw [needsPromotion_of_homed hc] at hb; cases hb
        exact (hsame c hcb).trans (h2 c ((hsame c hcb).homed.mpr hc))

/-! ## Allocating -/

/-- What allocating the blocks `ids` leaves. -/
structure Taken (ids : List BlockId) (p p' : BlockPool) : Prop where
  inv : p'.Inv
  shape : SameShape p p'
  nodup : ids.Nodup
  free : ∀ b ∈ ids, p.refcount b = 0
  taken : ∀ b ∈ ids, p'.refcount b = 1 ∧ (p'.location b).tier = 0 ∧ p'.target b = none
  same : ∀ y, y ∉ ids → SameBlock p p' y
  freed : p'.freed = p.freed

/-- **With enough compute slots the table is filled.** -/
theorem allocateAll_spec : ∀ (n : Nat) (p : BlockPool), p.Inv → n ≤ p.numFree →
    ∃ ids p', allocateAll n p = .ok (ids, p') ∧ ids.length = n ∧ Taken ids p p'
  | 0, p, h, _ =>
    ⟨[], p, rfl, rfl, h, .refl p, List.nodup_nil, nofun, nofun, fun y _ => .refl p y, rfl⟩
  | n + 1, p, h, hf => by
    have hslots : (p.tiers 0).freeSlots ≠ [] := fun e => by
      unfold numFree at hf
      rw [e] at hf
      simp at hf
    rcases h.allocate_cases with ⟨_, hnil | hnil⟩ |
        ⟨id, rest, slot, slots, hi, hsl, hr, hlt, he⟩
    · exact absurd hnil (h.freeIds_ne_nil hslots)
    · exact absurd hnil hslots
    have hid : id ≠ kInvalidBlock :=
      Nat.ne_of_lt (Nat.lt_of_lt_of_le hlt (Nat.le_pred_of_lt h.blocks_lt))
    have hfree : (p.takeBlock id slot).numFree + 1 = p.numFree := by
      have : (p.takeBlock id slot).tierFree 0 + _ = p.tierFree 0 := takeBlock_tierFree hsl 0
      rw [if_pos rfl] at this
      exact this
    obtain ⟨ids, p', he', hlen, ht⟩ :=
      allocateAll_spec n (p.takeBlock id slot) (h.takeBlock hi hsl) (by omega)
    obtain ⟨hs1, hs2, hs3⟩ : (p.takeBlock id slot).refcount id = 1 ∧ _ := takeBlock_self slot
    have hnot : id ∉ ids := fun hm => by
      have := ht.free id hm
      omega
    unfold allocateAll
    simp only [he, he', bind, Except.bind, if_neg hid]
    refine ⟨id :: ids, p', rfl, by rw [List.length_cons, hlen], ht.inv,
      (SameShape.takeBlock p id slot).trans ht.shape, List.nodup_cons.mpr ⟨hnot, ht.nodup⟩, ?_, ?_, ?_,
      ht.freed⟩
    · intro b hb
      rcases List.mem_cons.mp hb with rfl | hb
      · exact hr
      · have hne : b ≠ id := fun e => hnot (e ▸ hb)
        have hsame : SameBlock p (p.takeBlock id slot) b := takeBlock_same hne
        rw [← hsame.refcount]
        exact ht.free b hb
    · intro b hb
      rcases List.mem_cons.mp hb with rfl | hb
      · have := ht.same b hnot
        rw [this.refcount, this.location, this.target, hs1, hs2, hs3]
        exact ⟨rfl, rfl, h.target_of_free hr⟩
      · exact ht.taken b hb
    · intro y hy
      rw [List.mem_cons, not_or] at hy
      exact (takeBlock_same hy.1).trans (ht.same y hy.2)

/-! ## Dropping references -/

/-- What dropping one reference on each of the blocks `l` leaves. -/
structure Dropped (l : List BlockId) (p p' : BlockPool) : Prop where
  inv : p'.Inv
  shape : SameShape p p'
  refcount : ∀ y, p'.refcount y = p.refcount y - l.count y
  same : ∀ y, p'.refcount y ≠ 0 → p'.location y = p.location y ∧ p'.target y = p.target y
  freed : p'.freed = p.freed ++ l.filter fun b => p.refcount b == 1

theorem decref_eq (h : p.Inv) (hr : p.refcount b ≠ 0) :
    p.decref b = if p.refcount b = 1 then .ok (true, p.releaseBlock b)
      else .ok (false, { p with refcount := Function.update p.refcount b (p.refcount b - 1) }) := by
  unfold BlockPool.decref
  rw [if_neg (Nat.not_le.mpr (h.lt_of_refcount hr)), if_neg hr]

/-- One reference. -/
theorem decref_dropped (h : p.Inv) (hr : p.refcount b ≠ 0) :
    ∃ f p', p.decref b = .ok (f, p') ∧ Dropped [b] p p' := by
  rw [decref_eq h hr]
  have hcount : ∀ y, y ≠ b → [b].count y = 0 := fun y hy =>
    List.count_eq_zero.mpr fun hm => hy (List.mem_singleton.mp hm)
  by_cases h1 : p.refcount b = 1
  · rw [if_pos h1]
    have hz : (p.releaseBlock b).refcount b = 0 := releaseBlock_refcount
    refine ⟨_, _, rfl, h.releaseBlock hr, .releaseBlock p b, ?_, ?_, ?_⟩
    · intro y
      by_cases e : y = b
      · rw [e, hz, h1]
        simp
      · rw [(h.releaseBlock_same e).refcount, hcount y e, Nat.sub_zero]
    · intro y hy
      have e : y ≠ b := fun e => hy (e ▸ hz)
      exact ⟨(h.releaseBlock_same e).location, (h.releaseBlock_same e).target⟩
    · rw [releaseBlock_freed]
      simp [h1]
  · rw [if_neg h1]
    have hlt := h.refcount_lt b
    refine ⟨_, _, rfl, h.setRefcount hr (by omega) (by omega), ⟨rfl, rfl, rfl, fun _ => rfl,
      fun _ => rfl⟩, ?_, fun y _ => ⟨rfl, rfl⟩, ?_⟩
    · intro y
      show Function.update p.refcount b (p.refcount b - 1) y = _
      by_cases e : y = b
      · rw [e, Function.update_self]
        simp
      · rw [Function.update_of_ne e, hcount y e, Nat.sub_zero]
    · show p.freed = _
      simp [h1]

/-- **Dropping references on distinct allocated blocks returns.** -/
theorem dropRefs_spec : ∀ (l : List BlockId) (p : BlockPool), p.Inv → l.Nodup →
    (∀ b ∈ l, p.refcount b ≠ 0) → ∃ p', dropRefs l p = .ok p' ∧ Dropped l p p'
  | [], p, h, _, _ =>
    ⟨p, rfl, h, .refl p, fun y => by simp, fun y _ => ⟨rfl, rfl⟩, by simp⟩
  | b :: l, p, h, hn, hr => by
    rw [List.nodup_cons] at hn
    obtain ⟨f, q, hq, hd⟩ := decref_dropped h (hr b List.mem_cons_self)
    have hoff : ∀ c, c ≠ b → q.refcount c = p.refcount c := by
      intro c hc
      rw [hd.refcount c, List.count_eq_zero.mpr fun hm => hc (List.mem_singleton.mp hm), Nat.sub_zero]
    have hne : ∀ c ∈ l, c ≠ b := fun c hc e => hn.1 (e ▸ hc)
    obtain ⟨p', he, hd'⟩ := dropRefs_spec l q hd.inv hn.2 fun c hc => by
      rw [hoff c (hne c hc)]
      exact hr c (List.mem_cons_of_mem _ hc)
    unfold dropRefs
    simp only [hq, bind, Except.bind]
    refine ⟨p', he, hd'.inv, hd.shape.trans hd'.shape, ?_, ?_, ?_⟩
    · intro y
      rw [hd'.refcount y, hd.refcount y, List.count_cons, List.count_cons, List.count_nil]
      omega
    · intro y hy
      obtain ⟨h1, h2⟩ := hd'.same y hy
      obtain ⟨h3, h4⟩ := hd.same y fun hz => hy (by rw [hd'.refcount y, hz]; exact Nat.zero_sub _)
      exact ⟨h1.trans h3, h2.trans h4⟩
    · have hfilter : l.filter (fun c => q.refcount c == 1) = l.filter fun c => p.refcount c == 1 :=
        List.filter_congr fun c hc => by rw [hoff c (hne c hc)]
      rw [hd'.freed, hd.freed, hfilter, List.append_assoc, ← List.filter_append]
      rfl

/-! ## Demoting -/

/-- Moves that touch one block each. -/
theorem moveWhile_shifted {move : BlockPool → BlockId → Except Fault (Bool × BlockPool)}
    (hmove : ∀ p id, p.Inv → p.refcount id ≠ 0 → 1 < p.numTiers →
      ∃ b p', move p id = .ok (b, p') ∧ Shifted [id] p p') :
    ∀ (ids : List BlockId) (p : BlockPool), p.Inv → (∀ b ∈ ids, p.refcount b ≠ 0) →
      1 < p.numTiers → ∃ n p', moveWhile move ids p = .ok (n, p') ∧ Shifted ids p p'
  | [], p, h, _, _ => ⟨0, p, rfl, .refl h _⟩
  | id :: ids, p, h, hr, ht => by
    obtain ⟨b, q, hq, hs⟩ := hmove p id h (hr id List.mem_cons_self) ht
    unfold moveWhile
    simp only [hq, bind, Except.bind]
    cases b with
    | false => exact ⟨0, q, rfl, hs.mono (List.cons_subset_cons _ (List.nil_subset _))⟩
    | true =>
      obtain ⟨n, p', he, hs'⟩ := moveWhile_shifted hmove ids q hs.inv
        (fun c hc => by rw [hs.refcount]; exact hr c (List.mem_cons_of_mem _ hc))
        (by rw [hs.shape.numTiers]; exact ht)
      exact ⟨n + 1, p', by simp [he]; rfl, hs.cons hs'⟩

/-- What demoting the first `n` of the blocks `ids` leaves. -/
structure Demoted (ids : List BlockId) (n : Nat) (p p' : BlockPool) : Prop where
  shifted : Shifted (ids.take n) p p'
  moved : ∀ b ∈ ids.take n, (p'.location b).tier = 1 ∧ p'.target b = none
  compute : p'.numFree = p.numFree + n
  spill : p'.tierFree 1 + n = p.tierFree 1
  reserved : ∀ u, p'.reservedTo u = p.reservedTo u

/-- **Demotion goes on until the spill tier is full.** -/
theorem demote_spec : ∀ (ids : List BlockId) (p : BlockPool), p.Inv → ids.Nodup →
    (∀ b ∈ ids, p.refcount b ≠ 0 ∧ (p.location b).tier = 0 ∧ p.target b = none) →
    1 < p.numTiers → ∃ p', moveWhile (fun p id => p.migrate id 1) ids p =
        .ok (min ids.length (p.tierFree 1), p') ∧ Demoted ids (min ids.length (p.tierFree 1)) p p'
  | [], p, h, _, _, _ => by
    refine ⟨p, by simp [moveWhile], ?_⟩
    simp only [List.length_nil, Nat.zero_min]
    exact ⟨.refl h _, nofun, rfl, rfl, fun _ => rfl⟩
  | id :: ids, p, h, hn, hr, ht => by
    rw [List.nodup_cons] at hn
    obtain ⟨hr1, hr2, hr3⟩ := hr id List.mem_cons_self
    unfold moveWhile
    rcases h.migrate_spec hr1 ht hr3 (by rw [hr2]; decide) with
      ⟨h0, he⟩ | ⟨q, he, hs, hq1, hq2, hq3, hq4⟩
    · simp only [he, bind, Except.bind, h0, Nat.min_zero]
      exact ⟨p, rfl, .refl h _, nofun, rfl, by rw [h0], fun _ => rfl⟩
    · have hf0 := hq3 0
      have hf1 := hq3 1
      rw [hr2] at hf0 hf1
      simp only [if_true, Nat.zero_ne_one, Nat.one_ne_zero, if_false, Nat.add_zero] at hf0 hf1
      have hsame : ∀ c ∈ ids, SameBlock p q c := fun c hc =>
        hs.same c fun hm => hn.1 (List.mem_singleton.mp hm ▸ hc)
      obtain ⟨p', he', hd⟩ := demote_spec ids q hs.inv hn.2 (fun c hc => by
        rw [(hsame c hc).refcount, (hsame c hc).location, (hsame c hc).target]
        exact hr c (List.mem_cons_of_mem _ hc)) (by rw [hs.shape.numTiers]; exact ht)
      have hmin : min (id :: ids).length (p.tierFree 1) = min ids.length (q.tierFree 1) + 1 := by
        rw [List.length_cons]
        omega
      rw [hmin]
      generalize min ids.length (q.tierFree 1) = n at he' hd
      simp only [he, he', bind, Except.bind]
      refine ⟨p', rfl, hs.cons hd.shifted, ?_, ?_, ?_, fun u => (hd.reserved u).trans (hq4 u)⟩
      · intro b hb
        rw [List.take_succ_cons] at hb
        rcases List.mem_cons.mp hb with rfl | hb
        · have := hd.shifted.same b fun hm => hn.1 (List.mem_of_mem_take hm)
          rw [this.location, this.target]
          exact ⟨hq1, hq2⟩
        · exact hd.moved b hb
      · have hc : q.numFree = p.numFree + 1 := hf0
        rw [hd.compute, hc]
        omega
      · have := hd.spill
        omega

end CacheManager

end KvsLab
