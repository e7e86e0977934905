import KvsLab.BlockPool.Bytewise.Invariant

/-!
# Byte-wise copies at one offset

* `column` — what a pool in the middle of its copies is at one offset into the blocks: a pool whose
  copies are atomic.  A copy is over there once its byte is copied, and a move once its byte is stored.
* `Shows` — a step shows at an offset as one step of that pool or as none; one lemma for each action,
  and `Sound.next_column` — **every step does, at every offset.**
-/

namespace KvsLab

open Counting Transition

namespace BlockPool

variable {p : BlockPool} {id : BlockId} {w : WorkerId} {m : Arena.Mem TierIndex UInt8}
  {ws : WorkerId → WorkerPc}

/-- What the owners wrote at offset `i`. -/
def onlyAt (i : Nat) (wrote : BlockId → Nat → Option UInt8) : BlockId → Nat → Option UInt8 :=
  fun id k => if k = i then wrote id k else none

/-- A copy under way is over at the offsets it has done. -/
def WorkerPc.past (i : Nat) (done : List Nat) : WorkerPc → WorkerPc
  | .copying ptr => if i ∈ done then .finishing ptr else .copying ptr
  | pc => pc

namespace BytewisePool

variable {f f' : BytewisePool} {i : Nat}

def advanced (f : BytewisePool) (i : Nat) (w : WorkerId) : WorkerPc :=
  WorkerPc.past i (f.copied w) (f.pool.workers w)

/-- So is a move. -/
def landed (f : BytewisePool) (i : Nat) (p : BlockPool) : BlockPool :=
  match f.move with
  | none => p
  | some mv => if i ∈ mv.stored then p.rebind mv.id mv.dst (f.pool.location mv.id) else p

/-- The pool at offset `i` into its blocks. -/
def column (f : BytewisePool) (i : Nat) : OwnedPool :=
  ⟨(f.landed i f.pool).withBytes (Arena.column 0 f.pool.blockBytes i f.pool.mem) (f.advanced i),
    onlyAt i f.owned.wrote⟩

theorem landed_none (hm : f.move = none) (p : BlockPool) : f.landed i p = p := by
  unfold landed
  rw [hm]

theorem landed_of_notMem {mv : Move} (hm : f.move = some mv) (hi : i ∉ mv.stored) (p : BlockPool) :
    f.landed i p = p := by
  unfold landed
  rw [hm]
  exact if_neg hi

theorem landed_of_mem {mv : Move} (hm : f.move = some mv) (hi : i ∈ mv.stored) (p : BlockPool) :
    f.landed i p = p.rebind mv.id mv.dst (f.pool.location mv.id) := by
  unfold landed
  rw [hm]
  exact if_pos hi

/-- A pool before its move, or after it. -/
theorem landed_cases (f : BytewisePool) (i : Nat) : (∀ p, f.landed i p = p) ∨
    ∃ mv, f.move = some mv ∧ ∀ p, f.landed i p = p.rebind mv.id mv.dst (f.pool.location mv.id) := by
  cases hm : f.move with
  | none => exact .inl (landed_none hm)
  | some mv =>
    by_cases hi : i ∈ mv.stored
    · exact .inr ⟨mv, rfl, landed_of_mem hm hi⟩
    · exact .inl (landed_of_notMem hm hi)

theorem landed_congr (hm : f'.move = f.move) (hl : f'.pool.location = f.pool.location)
    (p : BlockPool) : f'.landed i p = f.landed i p := by
  unfold landed
  rw [hm, hl]

/-- Workers find the same jobs. -/
theorem landed_jobs (p : BlockPool) : (f.landed i p).jobs = p.jobs := by
  rcases f.landed_cases i with h | ⟨_, -, h⟩
  · rw [h]
  · rw [h]
    rfl

theorem advanced_update {pc : WorkerPc} {w : WorkerId}
    (hw : f'.pool.workers = Function.update f.pool.workers w pc)
    (hc : ∀ v ≠ w, f'.copied v = f.copied v) :
    f'.advanced i = Function.update (f.advanced i) w (WorkerPc.past i (f'.copied w) pc) := by
  funext v
  unfold advanced
  by_cases hv : v = w
  · subst hv
    rw [hw, Function.update_self, Function.update_self]
  · rw [hw, Function.update_of_ne hv, Function.update_of_ne hv, hc v hv]

/-- Worker `w` copied one more byte. -/
theorem advanced_copying {ptr : JobPtr} {done : List Nat} (hw : f.pool.workers w = .copying ptr)
    (hws : f'.pool.workers = f.pool.workers) (hc : f'.copied = Function.update f.copied w done) :
    f'.advanced i =
      Function.update (f.advanced i) w (if i ∈ done then .finishing ptr else .copying ptr) := by
  have hself : f'.pool.workers = Function.update f.pool.workers w (.copying ptr) := by
    rw [hws, ← hw, Function.update_eq_self]
  have hother : ∀ v ≠ w, f'.copied v = f.copied v := fun v hv => by
    rw [hc, Function.update_of_ne hv]
  rw [advanced_update hself hother, hc, Function.update_self]
  rfl

/-- Its copy returned. -/
theorem advanced_finishing {ptr : JobPtr}
    (hws : f'.pool.workers = Function.update f.pool.workers w (.finishing ptr))
    (hc : f'.copied = f.copied) :
    f'.advanced i = Function.update (f.advanced i) w (.finishing ptr) :=
  advanced_update hws fun v _ => congrFun hc v

end BytewisePool

theorem onlyAt_empty {i : Nat} (wrote : BlockId → Nat → Option UInt8) :
    onlyAt i (Function.update wrote id fun _ => none) =
      Function.update (onlyAt i wrote) id fun _ => none := by
  funext x k
  unfold onlyAt
  by_cases hx : x = id
  · subst hx
    rw [Function.update_self, Function.update_self]
    exact ite_self _
  · rw [Function.update_of_ne hx, Function.update_of_ne hx]

/-- One byte is written. -/
theorem wroteAfter_one (wrote : BlockId → Nat → Option UInt8) (off : Nat) (b : UInt8) (x : BlockId)
    (k : Nat) :
    wroteAfter wrote id off [b] x k = if x = id ∧ k = off then some b else wrote x k := by
  unfold wroteAfter
  by_cases hx : x = id
  swap
  · rw [Function.update_of_ne hx, if_neg fun h => hx h.1]
  subst hx
  rw [Function.update_self]
  by_cases hk : k = off
  · subst hk
    simp only [Nat.le_refl, if_true, Nat.sub_self, and_self]
    rfl
  · simp only [hk, and_false, if_false]
    split
    · rw [List.getElem?_eq_none (by rw [List.length_singleton]; omega), Option.none_or]
    · rfl

theorem onlyAt_wroteAfter {i : Nat} (wrote : BlockId → Nat → Option UInt8) (off : Nat) (b : UInt8) :
    onlyAt i (wroteAfter wrote id off [b]) =
      if off = i then wroteAfter (onlyAt i wrote) id off [b] else onlyAt i wrote := by
  funext x k
  by_cases hoff : off = i
  · rw [if_pos hoff, wroteAfter_one]
    unfold onlyAt
    rw [wroteAfter_one]
    subst hoff
    by_cases hk : k = off
    · simp only [if_pos hk]
    · simp only [if_neg hk, if_neg fun h : x = id ∧ k = off => hk h.2]
  · rw [if_neg hoff]
    unfold onlyAt
    split
    · rename_i hk
      rw [wroteAfter_one, if_neg fun h => hoff (h.2.symm.trans hk)]
    · rfl

/-- A call that copies nothing, at one offset. -/
theorem OwnedPool.next_withBytes {o o' : OwnedPool} {op : PoolOp} (hn : o.pool.NoCopy op)
    (h : o.next (.pool op) = some o') :
    OwnedPool.next ⟨o.pool.withBytes m ws, onlyAt i o.wrote⟩ (.pool op) =
      some ⟨o'.pool.withBytes m ws, onlyAt i o'.wrote⟩ := by
  by_cases ha : op = .allocate
  · subst ha
    obtain ⟨r, ha, h⟩ := Option.bind_eq_some_iff.mp h
    cases h
    simp only [OwnedPool.next, withBytes_allocate, toOption_eq_some ha]
    exact congrArg (fun wr => some (⟨r.2.withBytes m ws, wr⟩ : OwnedPool)) (onlyAt_empty o.wrote).symm
  · -- no other call changes the record
    have hsame := OwnedPool.next_of_pool ha (OwnedPool.next_pool h)
    have he : o' = ⟨o'.pool, o.wrote⟩ := Option.some.inj (h.symm.trans hsame)
    have hwrote : o'.wrote = o.wrote := by rw [he]
    rw [hwrote]
    exact OwnedPool.next_of_pool ha (withBytes_next hn (OwnedPool.next_pool h))

/-- A move that goes ahead. -/
theorem migrate_moves {dst : TierIndex} {slot : Nat} {slots : List Nat} (hid : id < p.numBlocks)
    (hr : p.refcount id ≠ 0) (hm : p.migrating id = false) (ht : dst < p.numTiers)
    (hne : (p.location id).tier ≠ dst) (hsl : (p.tiers dst).freeSlots = slot :: slots) :
    p.next (.migrate id dst) = some (p.moveBlock id ⟨dst, slot⟩ (p.location id)) := by
  have hl : p.locate id = .ok (p.location id) := by
    unfold locate
    rw [if_neg (Nat.not_le.mpr hid), if_neg hr]
  show (p.migrate id dst).toOption.map (·.2) = _
  unfold migrate
  simp only [cancel_of_not_migrating hm, hl, bind, Except.bind, if_neg (Nat.not_le.mpr ht),
    if_neg hne, hsl]
  rfl

namespace BytewisePool

variable {f f' : BytewisePool} {i : Nat}

/-- After a step that leaves the books alone. -/
theorem column_of_books {m₁ : Arena.Mem TierIndex UInt8} {ws₁ : WorkerId → WorkerPc}
    {wr : BlockId → Nat → Option UInt8} (hmv : f'.move = f.move) (hb : f'.pool = f.pool.withBytes m₁ ws₁)
    (hm : Arena.column 0 f.pool.blockBytes i f'.pool.mem = m) (hws : f'.advanced i = ws)
    (hwr : onlyAt i f'.owned.wrote = wr) :
    f'.column i = ⟨(f.landed i f.pool).withBytes m ws, wr⟩ := by
  have hl : f'.pool.location = f.pool.location := by rw [hb]
  have hbb : f'.pool.blockBytes = f.pool.blockBytes := by rw [hb]
  unfold column
  rw [hbb, hm, hws, hwr, landed_congr hmv hl]
  refine congrArg (fun p => (⟨p, wr⟩ : OwnedPool)) ?_
  rw [hb]
  -- only the books are landed
  rcases f.landed_cases i with h | ⟨_, -, h⟩
  · rw [h, h]
  · rw [h, h]
    rfl

/-- The steps of a worker that copy nothing. -/
theorem worker_column {act : WorkerAct} {q : BlockPool} (ha : act.isCopy = false)
    (hq : f.pool.workerStep w act = some q) (hp : f'.pool = q) (hmv : f'.move = f.move)
    (hwr : f'.owned.wrote = f.owned.wrote)
    (hc : f'.copied = if act = .check then Function.update f.copied w [] else f.copied) :
    (f.column i).next (.pool (.worker w act)) = some (f'.column i) := by
  have hb := SameBooks.workerStep hq
  have hland : ∀ r, f'.landed i r = f.landed i r := landed_congr hmv (by rw [hp]; exact hb.location)
  have hbb : f'.pool.blockBytes = f.pool.blockBytes := by rw [hp]; exact hb.shape.blockBytes
  have hcopied : ∀ v ≠ w, f'.copied v = f.copied v := by
    intro v hv
    rw [hc]
    split
    · exact Function.update_of_ne hv _ _
    · rfl
  have hcol : f'.column i = ⟨(f.landed i f'.pool).withBytes
      (Arena.column 0 f.pool.blockBytes i f'.pool.mem) (f'.advanced i),
      onlyAt i f.owned.wrote⟩ := by
    unfold column
    rw [hbb, hwr, hland]
  have hpast : ∀ {pc : WorkerPc}, f.pool.workers w = pc → (∀ ptr, pc ≠ .copying ptr) →
      (f.column i).pool.workers w = pc := by
    intro pc hpc hne
    show WorkerPc.past i (f.copied w) (f.pool.workers w) = _
    rw [hpc]
    cases pc with
    | copying ptr => exact absurd rfl (hne ptr)
    | idle | claimed _ | finishing _ => rfl
  have hjob : ∀ {ptr : JobPtr} {j : MigrationJob}, f.pool.job? ptr = some j →
      (f.column i).pool.job? ptr = some j := by
    intro ptr j hj
    show (f.landed i f.pool).jobs.find? _ = _
    rw [landed_jobs]
    exact hj
  rw [hcol]
  obtain ⟨j, rfl, hw, hj, rfl⟩ | ⟨ptr, j, rfl, hw, hj, rfl⟩ | ⟨_, _, rfl, -, -, -⟩ |
    ⟨_, _, _, rfl, -, -, -, -, -⟩ | ⟨ptr, j, rfl, hw, hj, rfl⟩ := workerStep_cases hq
  · have hj' : (f.column i).pool.jobs[(f.column i).pool.nextUnclaimed]? = some j := by
      unfold column
      rcases f.landed_cases i with h | ⟨_, -, h⟩ <;> rw [h] <;> exact hj
    have hne : PoolOp.worker w .claim ≠ .allocate := nofun
    refine (OwnedPool.next_of_pool hne (claim_enabled (hpast hw nofun) hj')).trans
      (congrArg some ?_)
    rw [advanced_update (congrArg BlockPool.workers hp) hcopied, hp]
    unfold column
    rcases f.landed_cases i with h | ⟨_, -, h⟩ <;> rw [h, h] <;> rfl
  · have hne : PoolOp.worker w .check ≠ .allocate := nofun
    refine (OwnedPool.next_of_pool hne (check_enabled (hpast hw nofun) (hjob hj))).trans
      (congrArg some ?_)
    have hcw : f'.copied w = [] := by
      rw [hc, if_pos rfl]
      exact Function.update_self _ _ _
    have hpc : WorkerPc.past i [] (if j.cancelled then .finishing ptr else .copying ptr) =
        if j.cancelled then .finishing ptr else .copying ptr := by
      cases j.cancelled <;> rfl
    rw [advanced_update (congrArg BlockPool.workers hp) hcopied, hp, hcw, hpc]
    unfold column
    rcases f.landed_cases i with h | ⟨_, -, h⟩
    · rw [h, h]
    · rw [h, h]
      rfl
  · cases ha
  · cases ha
  · have hne : PoolOp.worker w .finish ≠ .allocate := nofun
    refine (OwnedPool.next_of_pool hne (finish_enabled (hpast hw nofun) (hjob hj))).trans
      (congrArg some ?_)
    rw [advanced_update (congrArg BlockPool.workers hp) hcopied, hp]
    unfold column
    rcases f.landed_cases i with h | ⟨_, -, h⟩ <;> rw [h, h] <;> rfl

/-- A worker's copy where its byte is not copied yet. -/
theorem copy_column {ptr : JobPtr} {j : MigrationJob} (hw : f.pool.workers w = .copying ptr)
    (hj : f.pool.job? ptr = some j) (hi : i ∉ f.copied w) :
    (f.column i).next (.pool (.worker w .copy)) = some ⟨(f.landed i f.pool).withBytes
        (Arena.memcpy (Arena.column 0 f.pool.blockBytes i f.pool.mem) j.dst j.src j.bytes)
        (Function.update (f.advanced i) w (.finishing ptr)), onlyAt i f.owned.wrote⟩ := by
  have hcw : (f.column i).pool.workers w = .copying ptr := by
    show WorkerPc.past i (f.copied w) (f.pool.workers w) = _
    rw [hw]
    exact if_neg hi
  have hcj : (f.column i).pool.job? ptr = some j := by
    show (f.landed i f.pool).jobs.find? _ = _
    rw [landed_jobs]
    exact hj
  exact OwnedPool.next_of_pool nofun (copy_enabled hcw hcj)

/-- A move where its byte is not stored yet. -/
theorem Sound.move_column (h : f.Sound) {mv : Move} (hm : f.move = some mv) (hi : i ∉ mv.stored) :
    (f.column i).next (.pool (.migrate mv.id mv.dst.tier)) =
      some ⟨(f.pool.rebind mv.id mv.dst (f.pool.location mv.id)).withBytes
        (Arena.memcpy (Arena.column 0 f.pool.blockBytes i f.pool.mem)
          (mv.dst.tier, mv.dst.slot * f.pool.blockBytes)
          ((f.pool.location mv.id).tier, (f.pool.location mv.id).slot * f.pool.blockBytes)
          f.pool.blockBytes)
        (f.advanced i), onlyAt i f.owned.wrote⟩ := by
  have hmv := h.move mv hm
  obtain ⟨slots, hsl⟩ := hmv.free
  have hcol : (f.column i).pool =
      f.pool.withBytes (Arena.column 0 f.pool.blockBytes i f.pool.mem) (f.advanced i) := by
    show (f.landed i f.pool).withBytes _ _ = _
    rw [landed_of_notMem hm hi]
  have hmig : f.pool.migrating mv.id = false := by
    rw [Bool.eq_false_iff]
    intro e
    obtain ⟨j, hj, hje⟩ := h.inv.migrating_iff.mp e
    exact hmv.noFlight j hj hje
  have hgo := migrate_moves
    (p := f.pool.withBytes (Arena.column 0 f.pool.blockBytes i f.pool.mem) (f.advanced i))
    (h.inv.lt_of_refcount hmv.refs) hmv.refs hmig hmv.tier hmv.other hsl
  rw [← hcol] at hgo
  have hne : PoolOp.migrate mv.id mv.dst.tier ≠ .allocate := nofun
  refine (OwnedPool.next_of_pool hne hgo).trans ?_
  rw [hcol]
  refine congrArg (fun m => some (⟨(f.pool.rebind mv.id mv.dst (f.pool.location mv.id)).withBytes m
    (f.advanced i), onlyAt i f.owned.wrote⟩ : OwnedPool)) ?_
  refine (copySlot_eq _ _ _).trans ?_
  show Arena.memcpy _ (f.pool.slotAddr mv.dst) (f.pool.slotAddr (f.pool.location mv.id)) _ = _
  rw [hmv.dst_addr h.inv h.noWrap, h.inv.block_addr h.noWrap hmv.refs]

/-! ## One action, at one offset -/

/-- What follows shows as one step at the offset `i`, or as none. -/
def Shows (f f' : BytewisePool) (i : Nat) : Prop :=
  f'.column i = f.column i ∨ ∃ o, (f.column i).next o = some (f'.column i)

theorem call_shows {op : PoolOp} {owned : OwnedPool} (hm : f.move = none) (hn : f.pool.NoCopy op)
    (ho : f.owned.next (.pool op) = some owned) : Shows f { f with owned } i := by
  refine .inr ⟨.pool op, ?_⟩
  have hp := OwnedPool.next_pool ho
  obtain ⟨hmem, hwk⟩ := next_quiet hn hp
  have hbb : owned.pool.blockBytes = f.pool.blockBytes := (SameShape.next hp).blockBytes
  unfold column
  rw [landed_none hm, landed_none (f := { f with owned }) hm]
  refine (OwnedPool.next_withBytes hn ho).trans ?_
  unfold advanced
  simp only [pool, hmem, hwk, hbb]

/-- The books an owner's write reads, at an offset. -/
theorem column_books (hm : ∀ mv, f.move = some mv → mv.id ≠ id) :
    (f.column i).pool.refcount = f.pool.refcount ∧
      (f.column i).pool.numBlocks = f.pool.numBlocks ∧
      (f.column i).pool.migrating id = f.pool.migrating id ∧
      (f.column i).pool.blockBytes = f.pool.blockBytes ∧
      (f.column i).pool.location id = f.pool.location id := by
  unfold column
  rcases f.landed_cases i with hl | ⟨mv, hmv, hl⟩
  · rw [hl]
    exact ⟨rfl, rfl, rfl, rfl, rfl⟩
  · -- the block written is not the one being moved
    rw [hl]
    exact ⟨rfl, rfl, rfl, rfl, Function.update_of_ne (hm mv hmv).symm _ _⟩

theorem Sound.write_shows (h : f.Sound) {off : Nat} {b : UInt8} {owned : OwnedPool}
    (hm : ∀ mv, f.move = some mv → mv.id ≠ id)
    (ho : f.owned.next (.write id off [b]) = some owned) : Shows f { f with owned } i := by
  obtain ⟨hr, hmig, hlen, rfl⟩ := OwnedPool.write_cases ho
  have haddr := h.inv.block_addr h.noWrap hr
  have hoff : off < f.pool.blockBytes := hlen
  have hmem := Arena.column_writeCell (i := i) (0 : UInt8) f.pool.mem (f.pool.location id).tier
    (f.pool.location id).slot b hoff
  have hwr : onlyAt i (wroteAfter f.owned.wrote id off [b]) = _ := onlyAt_wroteAfter _ off b
  rw [haddr]
  by_cases hi : off = i
  · refine .inr ⟨.write id off [b], ?_⟩
    rw [if_pos hi] at hmem hwr
    obtain ⟨h1, h2, h3, h4, h5⟩ := column_books (i := i) hm
    have hlen' : off + [b].length ≤ (f.column i).pool.blockBytes := h4.symm ▸ hlen
    have hstep := OwnedPool.write_of (h2.symm ▸ h.inv.lt_of_refcount hr) (h1.symm ▸ hr)
      (h3.trans hmig) hlen'
    rw [h5] at hstep
    have hsa : (f.column i).pool.slotAddr (f.pool.location id) =
        f.pool.slotAddr (f.pool.location id) := by
      unfold slotAddr
      rw [h4]
    rw [hsa, haddr] at hstep
    refine hstep.trans (congrArg some (Eq.symm ?_))
    exact column_of_books rfl rfl hmem rfl hwr
  · rw [if_neg hi] at hmem hwr
    exact .inl (column_of_books rfl rfl hmem rfl hwr)

/-- A byte a worker copies: its whole copy at that offset, and nothing at the others. -/
theorem Sound.copyByte_shows (h : f.Sound) {ptr : JobPtr} {j : MigrationJob} {off : Nat}
    (hw : f.pool.workers w = .copying ptr) (hj : f.pool.job? ptr = some j) (hoff : off < j.bytes)
    (hnew : off ∉ f.copied w) :
    Shows f { f.setPool { f.pool with
        mem := Arena.memcpy f.pool.mem (j.dst.1, j.dst.2 + off) (j.src.1, j.src.2 + off) 1 } with
      copied := Function.update f.copied w (off :: f.copied w) } i := by
  obtain ⟨hjm, hb, hdst, l, hsrc⟩ := h.job_addr hj
  have hmem := Arena.column_copyCell (i := i) (0 : UInt8) f.pool.mem j.dstLoc.tier l.tier
    j.dstLoc.slot l.slot (hb ▸ hoff)
  by_cases hi : off = i
  · refine .inr ⟨.pool (.worker w .copy), (copy_column hw hj (hi ▸ hnew)).trans ?_⟩
    rw [if_pos hi] at hmem
    refine congrArg some (Eq.symm (column_of_books rfl rfl ?_ ?_ rfl))
    · rw [hdst, hsrc, hb]
      exact hmem
    · refine Eq.trans (advanced_copying hw rfl rfl) ?_
      rw [if_pos (by rw [hi]; exact List.mem_cons_self)]
  · left
    rw [if_neg hi] at hmem
    refine column_of_books rfl rfl ?_ ?_ rfl
    · rw [hdst, hsrc]
      exact hmem
    · refine Eq.trans (advanced_copying hw rfl rfl) ?_
      have hold : f.advanced i w = if i ∈ f.copied w then .finishing ptr else .copying ptr := by
        unfold advanced
        rw [hw]
        rfl
      have hiff : i ∈ off :: f.copied w ↔ i ∈ f.copied w :=
        ⟨List.mem_of_ne_of_mem (Ne.symm hi), List.mem_cons_of_mem _⟩
      simp only [hiff]
      rw [← hold, Function.update_eq_self]

/-- A copy that returns was over at the offsets of its blocks already. -/
theorem Sound.copyReturn_shows (h : f.Sound) {ptr : JobPtr} {j : MigrationJob}
    (hw : f.pool.workers w = .copying ptr) (hj : f.pool.job? ptr = some j)
    (hall : ∀ off < j.bytes, off ∈ f.copied w) :
    Shows f (f.setPool { f.pool with
      workers := Function.update f.pool.workers w (.finishing ptr) }) i := by
  obtain ⟨hjm, hb, hdst, l, hsrc⟩ := h.job_addr hj
  by_cases hi : i ∈ f.copied w
  · left
    refine column_of_books rfl rfl rfl (Eq.trans (advanced_finishing (w := w) rfl rfl) ?_) rfl
    have hold : f.advanced i w = .finishing ptr := by
      unfold advanced
      rw [hw]
      exact if_pos hi
    rw [← hold, Function.update_eq_self]
  · -- past the end of the blocks
    refine .inr ⟨.pool (.worker w .copy), (copy_column hw hj hi).trans ?_⟩
    refine congrArg some (Eq.symm (column_of_books rfl rfl ?_ (advanced_finishing rfl rfl) rfl))
    rw [hdst, hsrc, hb]
    refine (Arena.memcpy_column_of_le _ _ _ _ _ _ ?_).symm
    by_contra hlt
    exact hi (hall i (hb ▸ Nat.lt_of_not_le hlt))

theorem moveEnter_shows {dst : Location} (hm : f.move = none) :
    Shows f { f.setPool (f.pool.cancelMigration id) with move := some { id, dst } } i := by
  refine .inr ⟨.pool (.cancelMigration id), ?_⟩
  show some (⟨(f.column i).pool.cancelMigration id, onlyAt i f.owned.wrote⟩ : OwnedPool) = _
  refine congrArg some ?_
  unfold column
  rw [landed_none hm, landed_of_notMem rfl (List.not_mem_nil), withBytes_cancelMigration]
  unfold advanced
  have hbb := (SameShape.cancelMigration f.pool id).blockBytes
  simp only [pool, setPool, cancel_mem, cancel_workers, hbb]

/-- A byte stored by a move: the whole move at that offset, and nothing at the others. -/
theorem Sound.storeByte_shows (h : f.Sound) {mv : Move} {off : Nat}
    {mem : Arena.Mem TierIndex UInt8} (hm : f.move = some mv) (hoff : off < f.pool.blockBytes)
    (hnew : off ∉ mv.stored)
    (he : mem = Arena.memcpy f.pool.mem (mv.dst.tier, mv.dst.slot * f.pool.blockBytes + off)
      ((f.pool.location mv.id).tier,
        (f.pool.location mv.id).slot * f.pool.blockBytes + off) 1) :
    Shows f { f.setPool { f.pool with mem } with
      move := some { mv with stored := off :: mv.stored } } i := by
  have hcell := Arena.column_copyCell (i := i) (0 : UInt8) f.pool.mem mv.dst.tier
    (f.pool.location mv.id).tier mv.dst.slot (f.pool.location mv.id).slot hoff
  rw [← he] at hcell
  by_cases hi : off = i
  · refine .inr ⟨_, (h.move_column hm (hi ▸ hnew)).trans ?_⟩
    rw [if_pos hi] at hcell
    rw [← hcell]
    unfold column
    rw [landed_of_mem rfl (by rw [hi]; exact List.mem_cons_self)]
    rfl
  · left
    rw [if_neg hi] at hcell
    unfold column
    by_cases his : i ∈ mv.stored
    · rw [landed_of_mem hm his, landed_of_mem rfl (List.mem_cons_of_mem _ his), ← hcell]
      rfl
    · rw [landed_of_notMem hm his, ← hcell,
        landed_of_notMem rfl fun e => his (List.mem_of_ne_of_mem (Ne.symm hi) e)]
      rfl

/-- A move that ends was over at the offsets of the block already. -/
theorem Sound.moveLeave_shows (h : f.Sound) {mv : Move} (hm : f.move = some mv)
    (hall : ∀ off < f.pool.blockBytes, off ∈ mv.stored) :
    Shows f { f.setPool (f.pool.rebind mv.id mv.dst (f.pool.location mv.id)) with
      move := none } i := by
  by_cases hi : i ∈ mv.stored
  · left
    unfold column
    rw [landed_none rfl, landed_of_mem hm hi]
    rfl
  · refine .inr ⟨_, (h.move_column hm hi).trans ?_⟩
    unfold column
    rw [landed_none rfl]
    refine congrArg (fun m => some (⟨(f.pool.rebind mv.id mv.dst (f.pool.location mv.id)).withBytes m
      (f.advanced i), onlyAt i f.owned.wrote⟩ : OwnedPool)) ?_
    refine Arena.memcpy_column_of_le _ _ _ _ _ _ ?_
    by_contra hlt
    exact hi (hall i (Nat.lt_of_not_le hlt))

/-- **Every step is, at every offset, one step of a pool whose copies are atomic, or none.** -/
theorem Sound.next_column (h : f.Sound) {op : BytewiseOp} (hs : Steps f op f') (i : Nat) :
    Shows f f' i := by
  cases hs with
  | call hm hn ho => exact call_shows hm hn ho
  | write hm ho => exact h.write_shows hm ho
  | read _ _ => exact .inl rfl
  | @worker w act p ha hp => exact .inr ⟨.pool (.worker w act), worker_column ha hp rfl rfl rfl rfl⟩
  | copyByte hw hj hoff hnew => exact h.copyByte_shows hw hj hoff hnew
  | copyReturn hw hj hall => exact h.copyReturn_shows hw hj hall
  | moveEnter hm _ _ _ _ => exact moveEnter_shows hm
  | fetchByte hm _ =>
    -- the bounce buffer is in no tier
    left
    unfold column landed
    rw [hm]
    rfl
  | storeByte hm hoff hnew hmem => exact h.storeByte_shows hm hoff hnew (h.stored_byte hm hmem)
  | moveLeave hm hall => exact h.moveLeave_shows hm hall

end BytewisePool

end BlockPool

end KvsLab
