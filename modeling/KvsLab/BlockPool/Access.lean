import KvsLab.BlockPool.Bytes
import KvsLab.BlockPool.Blocks

/-!
# Reading and writing a block

`block_offset` and `block_data` resolve an id at the moment of the access; the block's bytes are read
and written at the address they name, through the pointer or through `Tier::read` and
`Tier::write`.

* `contents` — the bytes of a block, and `readBlock_eq`: an access to an allocated block finds them.
* `KeepsBytes p p'` — the bytes of every block that was allocated and not freed since are what they
  were.  `ByteSafe` is what a pool needs for that.
* `ByteSafe.next` — every scheduler call and every worker action carries them.
* `ByteSafe.write` — a write by an owner changes the bytes it names and no other.
-/

namespace KvsLab

open Transition

namespace BlockPool

variable {p p' q : BlockPool} {id : BlockId}

/-! ## Accesses -/

/-- `BlockPool::block_offset`. -/
def blockOffset (p : BlockPool) (id : BlockId) : Except Fault Nat := do
  let loc ← p.locate id
  return sizeMul loc.slot p.blockBytes

/-- `BlockPool::block_data`; `none` is the null pointer of a tier the CPU cannot address. -/
def blockData (p : BlockPool) (id : BlockId) : Except Fault (Option (Arena.Addr TierIndex)) := do
  let loc ← p.locate id
  if !(p.tiers loc.tier).hostAddressable then return none
  return some (loc.tier, sizeMul loc.slot p.blockBytes)

/-- `Tier::read` of a whole block. -/
def readBlock (p : BlockPool) (id : BlockId) : Except Fault (List UInt8) := do
  let tier ← p.blockTier id
  let off ← p.blockOffset id
  return Arena.read p.mem (tier, off) p.blockBytes

/-- `Tier::write` of `bs` into a block, `off` bytes from its start. -/
def writeBlock (p : BlockPool) (id : BlockId) (off : Nat) (bs : List UInt8) :
    Except Fault BlockPool := do
  let tier ← p.blockTier id
  let base ← p.blockOffset id
  return { p with mem := Arena.write p.mem (tier, base + off) bs }

/-- The bytes at a block's location. -/
def contents (p : BlockPool) (id : BlockId) : List UInt8 :=
  (List.range p.blockBytes).map (p.byteAt (p.location id))

@[simp]
theorem length_contents (p : BlockPool) (id : BlockId) : (p.contents id).length = p.blockBytes := by
  unfold contents
  rw [List.length_map, List.length_range]

theorem getElem?_contents (p : BlockPool) (id : BlockId) {i : Nat} (hi : i < p.blockBytes) :
    (p.contents id)[i]? = some (p.byteAt (p.location id) i) := by
  unfold contents
  rw [List.getElem?_map, List.getElem?_range hi]
  rfl

theorem Inv.blockOffset_eq (h : p.Inv) (hw : p.NoWrap) (hr : p.refcount id ≠ 0) :
    p.blockOffset id = .ok ((p.location id).slot * p.blockBytes) := by
  have haddr := congrArg Prod.snd (h.block_addr hw hr)
  unfold blockOffset
  rw [locate_eq (h.lt_of_refcount hr) hr]
  exact congrArg Except.ok haddr

/-- The pointer and the offset name the same bytes. -/
theorem Inv.blockData_eq (h : p.Inv) (hw : p.NoWrap) (hr : p.refcount id ≠ 0)
    (hhost : (p.tiers (p.location id).tier).hostAddressable = true) :
    p.blockData id = .ok (some ((p.location id).tier, (p.location id).slot * p.blockBytes)) := by
  have haddr := h.block_addr hw hr
  unfold blockData
  rw [locate_eq (h.lt_of_refcount hr) hr]
  simp only [bind, Except.bind, hhost, Bool.not_true, Bool.false_eq_true, if_false]
  exact congrArg (fun a => Except.ok (some a)) haddr

theorem Inv.readBlock_eq (h : p.Inv) (hw : p.NoWrap) (hr : p.refcount id ≠ 0) :
    p.readBlock id = .ok (p.contents id) := by
  unfold readBlock
  rw [h.blockTier_eq hr, h.blockOffset_eq hw hr]
  rfl

theorem Inv.writeBlock_eq (h : p.Inv) (hw : p.NoWrap) (hr : p.refcount id ≠ 0) (off : Nat)
    (bs : List UInt8) : p.writeBlock id off bs = .ok { p with
      mem := Arena.write p.mem ((p.location id).tier, (p.location id).slot * p.blockBytes + off) bs } := by
  unfold writeBlock
  rw [h.blockTier_eq hr, h.blockOffset_eq hw hr]
  rfl

/-! ## What calls and workers carry -/

/-- The byte invariant, for a pool whose owners have no record. -/
def ByteSafe (p : BlockPool) : Prop := BytesInv ⟨p, fun _ _ => none⟩

/-- Blocks that were allocated, and were not freed since, have the bytes they had. -/
structure KeepsBytes (p p' : BlockPool) : Prop where
  safe : p'.ByteSafe
  blockBytes : p'.blockBytes = p.blockBytes
  freed : ∃ G, p'.freed = p.freed ++ G ∧ ∀ id, p.refcount id ≠ 0 → id ∉ G →
    p'.refcount id ≠ 0 ∧ p'.contents id = p.contents id

theorem KeepsBytes.trans (h : KeepsBytes p p') (h' : KeepsBytes p' q) : KeepsBytes p q := by
  obtain ⟨G, hG, hk⟩ := h.freed
  obtain ⟨G', hG', hk'⟩ := h'.freed
  refine ⟨h'.safe, h'.blockBytes.trans h.blockBytes, G ++ G', by rw [hG', hG, List.append_assoc], ?_⟩
  intro id hr hn
  rw [List.mem_append, not_or] at hn
  obtain ⟨h1, h2⟩ := hk id hr hn.1
  obtain ⟨h3, h4⟩ := hk' id h1 hn.2
  exact ⟨h3, h4.trans h2⟩

namespace ByteSafe

theorem refl (h : p.ByteSafe) : KeepsBytes p p :=
  ⟨h, rfl, [], (List.append_nil _).symm, fun _ hr _ => ⟨hr, rfl⟩⟩

/-- Owners may as well have written what is there. -/
theorem record (h : p.ByteSafe) :
    BytesInv ⟨p, fun id i => some (p.byteAt (p.location id) i)⟩ :=
  ⟨h.inv, h.queue, h.noWrap, fun _ _ _ _ _ hb => Option.some.inj hb, h.copied⟩

theorem of_record {wrote : BlockId → Nat → Option UInt8} (h : BytesInv ⟨p, wrote⟩) :
    p.ByteSafe :=
  ⟨h.inv, h.queue, h.noWrap, fun _ _ _ _ _ hb => (by cases hb), h.copied⟩

end ByteSafe

/-- A block whose owner is on record with what was there keeps its bytes. -/
theorem BytesInv.contents_eq {wrote : BlockId → Nat → Option UInt8}
    (h' : BytesInv ⟨p', wrote⟩) (hb : p'.blockBytes = p.blockBytes) (hr : p'.refcount id ≠ 0)
    (hw : wrote id = fun i => some (p.byteAt (p.location id) i)) :
    p'.contents id = p.contents id := by
  unfold contents
  rw [hb]
  refine List.map_congr_left fun i hi => ?_
  exact h'.last id hr i (hb ▸ List.mem_range.mp hi) _ (congrFun hw i)

/-- A step frees the block whose last reference it drops, and no other. -/
theorem Inv.next_freed (h : p.Inv) {op : PoolOp} (he : p.next op = some p') :
    ∃ G, p'.freed = p.freed ++ G ∧ ∀ id, p.refcount id ≠ 0 → id ∉ G → p'.refcount id ≠ 0 := by
  have hsame : p'.freed = p.freed → p'.refcount = p.refcount →
      ∃ G, p'.freed = p.freed ++ G ∧ ∀ id, p.refcount id ≠ 0 → id ∉ G → p'.refcount id ≠ 0 :=
    fun hf hr => ⟨[], by rw [hf, List.append_nil], fun id h0 _ => by rwa [hr]⟩
  cases op with
  | allocate =>
    obtain ⟨x, he⟩ := toOption_snd he
    rcases h.allocate_cases with ⟨he', _⟩ | ⟨y, ids, slot, slots, _, _, _, _, he'⟩
    · rw [he] at he'
      cases he'
      exact hsame rfl rfl
    · rw [he] at he'
      cases he'
      refine ⟨[], (List.append_nil _).symm, fun z hz _ => ?_⟩
      show Function.update p.refcount x 1 z ≠ 0
      by_cases e : z = x
      · rw [e, Function.update_self]
        exact Nat.one_ne_zero
      · rwa [Function.update_of_ne e]
  | incref id =>
    simp only [BlockPool.next] at he
    split at he
    · rename_i hlt
      obtain ⟨_, hr, rfl⟩ := incref_ok (toOption_eq_some he)
      refine ⟨[], (List.append_nil _).symm, fun z hz _ => ?_⟩
      show Function.update p.refcount id _ z ≠ 0
      by_cases e : z = id
      · rw [e, Function.update_self, toU32_of_lt hlt]
        exact Nat.succ_ne_zero _
      · rwa [Function.update_of_ne e]
    · cases he
  | decref id =>
    obtain ⟨b, he⟩ := toOption_snd he
    obtain ⟨_, ⟨h1, _, rfl⟩ | ⟨h1, _, rfl⟩⟩ := decref_ok he
    · refine ⟨[id], releaseBlock_freed, fun z hz hn => ?_⟩
      rw [(h.releaseBlock_same fun e => hn (List.mem_singleton.mpr e)).refcount]
      exact hz
    · refine ⟨[], (List.append_nil _).symm, fun z hz _ => ?_⟩
      show Function.update p.refcount id _ z ≠ 0
      by_cases e : z = id
      · rw [e, Function.update_self]
        omega
      · rwa [Function.update_of_ne e]
  | migrate id dst =>
    obtain ⟨b, he⟩ := toOption_snd he
    obtain ⟨_, _, ⟨_, _, rfl⟩ | ⟨_, _, _, rfl⟩ | ⟨_, _, slot, slots, _, rfl⟩⟩ := migrate_cases he
    · exact hsame cancel_freed (cancel_refcount p id)
    · exact hsame cancel_freed (cancel_refcount p id)
    · exact hsame cancel_freed (cancel_refcount p id)
  | migrateAsync id dst =>
    obtain ⟨b, he⟩ := toOption_snd he
    obtain ⟨_, _, ⟨_, rfl, _⟩ | ⟨_, _, _, slot, slots, _, rfl⟩⟩ := migrateAsync_cases he
    · exact hsame rfl rfl
    · exact hsame rfl rfl
  | cancelMigration id =>
    cases he
    exact hsame cancel_freed (cancel_refcount p id)
  | drainMigrations =>
    cases he
    exact hsame (drain_freed p) (drain_refcount p)
  | waitForMigrations =>
    obtain ⟨-, rfl⟩ := waitForMigrations_ok he
    exact hsame (drain_freed p) (drain_refcount p)
  | worker w act =>
    have hb := SameBooks.workerStep he
    exact hsame hb.freed hb.refcount

/-- **Every scheduler call and every worker action carries the bytes of the blocks it does not
free.** -/
theorem ByteSafe.next (h : p.ByteSafe) {op : PoolOp} (he : p.next op = some p') :
    KeepsBytes p p' := by
  obtain ⟨G, hG, hk⟩ := h.inv.next_freed he
  have hbb : p'.blockBytes = p.blockBytes := (SameShape.next he).blockBytes
  by_cases ha : op = .allocate
  · subst ha
    obtain ⟨x, hx⟩ := toOption_snd he
    have hb := h.record.allocate hx
    rcases h.inv.allocate_cases with ⟨he', _⟩ | ⟨y, ids, slot, slots, _, _, hr0, _, he'⟩
    · rw [hx] at he'
      cases he'
      exact h.refl
    · rw [hx] at he'
      cases he'
      refine ⟨.of_record hb, hbb, G, hG, fun id hr hn => ⟨hk id hr hn, ?_⟩⟩
      have hne : id ≠ x := fun e => hr (e ▸ hr0)
      exact hb.contents_eq hbb (hk id hr hn) (Function.update_of_ne hne _ _)
  · have ho : OwnedPool.next ⟨p, fun id i => some (p.byteAt (p.location id) i)⟩ (.pool op) =
        some ⟨p', fun id i => some (p.byteAt (p.location id) i)⟩ := by
      cases op <;> first
        | exact absurd rfl ha
        | simp only [OwnedPool.next, he, bind, Option.bind, pure]
    have hb := h.record.next ho
    exact ⟨.of_record hb, hbb, G, hG, fun id hr hn =>
      ⟨hk id hr hn, hb.contents_eq hbb (hk id hr hn) rfl⟩⟩

/-! ## What owners write -/

/-- A write inside a block is spliced into its bytes. -/
theorem contents_write (p : BlockPool) (id : BlockId) {off : Nat} {bs : List UInt8}
    (hlen : off + bs.length ≤ p.blockBytes) :
    contents { p with
      mem := Arena.write p.mem
        ((p.location id).tier, (p.location id).slot * p.blockBytes + off) bs } id =
      (p.contents id).take off ++ bs ++ (p.contents id).drop (off + bs.length) := by
  refine List.ext_getElem? fun i => ?_
  by_cases hi : i < p.blockBytes
  swap
  · have hi : p.blockBytes ≤ i := Nat.le_of_not_lt hi
    rw [List.getElem?_eq_none (by rw [length_contents]; exact hi),
      List.getElem?_eq_none (by simp; omega)]
  have hself := Arena.write_slot_self (n := p.blockBytes) (i := i) (k := off) p.mem
    (p.location id).tier (p.location id).slot bs
  have hold := getElem?_contents p id hi
  have hnew : ∀ m, (contents { p with mem := m } id)[i]? =
      some (m (p.location id).tier ((p.location id).slot * p.blockBytes + i)) :=
    fun m => getElem?_contents { p with mem := m } id hi
  rw [hnew, hself]
  have htake : ((p.contents id).take off).length = off := by
    rw [List.length_take, length_contents]
    omega
  by_cases hk : off ≤ i
  · by_cases hb : i - off < bs.length
    · rw [if_pos hk, List.append_assoc, List.getElem?_append_right (by omega), htake,
        List.getElem?_append_left hb, List.getElem?_eq_getElem hb]
      rfl
    · rw [if_pos hk, List.getElem?_eq_none (Nat.le_of_not_lt hb), Option.getD_none,
        List.getElem?_append_right (by rw [List.length_append, htake]; omega), List.getElem?_drop,
        List.length_append, htake, show off + bs.length + (i - (off + bs.length)) = i by omega, hold]
      rfl
  · rw [if_neg hk, List.append_assoc, List.getElem?_append_left (by omega),
      List.getElem?_take_of_lt (by omega), hold]
    rfl

/-- **A write by an owner** of a block that is not migrating succeeds inside the block; it changes
those bytes of the block, and no byte of another allocated block. -/
theorem ByteSafe.write (h : p.ByteSafe) {off : Nat} {bs : List UInt8} (hr : p.refcount id ≠ 0)
    (hm : p.migrating id = false) (hlen : off + bs.length ≤ p.blockBytes) :
    ∃ m, p.writeBlock id off bs = .ok { p with mem := m } ∧
      ByteSafe { p with mem := m } ∧
      (∀ x ≠ id, p.refcount x ≠ 0 → contents { p with mem := m } x = p.contents x) ∧
      contents { p with mem := m } id =
        (p.contents id).take off ++ bs ++ (p.contents id).drop (off + bs.length) := by
  have hi : p.Inv := h.inv
  have hw : p.NoWrap := h.noWrap
  have hb := h.record.ownerWrite hr hm hlen
  rw [show BlockPool.slotAddr p (p.location id) = _ from hi.block_addr hw hr] at hb
  refine ⟨_, hi.writeBlock_eq hw hr off bs, .of_record hb, fun x hx hxr => ?_,
    contents_write p id hlen⟩
  exact hb.contents_eq rfl hxr (Function.update_of_ne hx _ _)

end BlockPool

end KvsLab
