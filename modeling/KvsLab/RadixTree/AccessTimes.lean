import KvsLab.RadixTree.Leaf

/-!
# Access times

`touch` gives a node the next tick of the clock, and a split leaves the old time to the tail.

* `Stamped` — no two nodes have one access time, and none is ahead of the clock.
* `walk_restamped` — the walk gives the nodes it goes through later times, all different.
* `Stamped.runWalk`, `touch`, `grown`, `mapPath`, `sub` — what each operation does to the tree
  keeps the times apart.
-/

namespace KvsLab

open KeyedForest

namespace RadixTree

variable {key : List TokenId → UInt64} {t t' : RadixTree} {x : Place}

/-- No two nodes have one access time, and none is ahead of the clock. -/
structure Stamped (t : RadixTree) : Prop where
  nodup : (t.places.map fun x => x.2.lastAccess).Nodup
  le : ∀ x ∈ t.places, x.2.lastAccess ≤ t.clock

theorem Stamped.inj (h : Stamped t) {y : Place} (hx : x ∈ t.places) (hy : y ∈ t.places)
    (e : x.2.lastAccess = y.2.lastAccess) : x = y := List.inj_on_of_nodup_map h.nodup hx hy e

/-- Part of the nodes, under the same clock. -/
theorem Stamped.sub (h : Stamped t) {xs : List Place} (hp : t.places.Perm (xs ++ t'.places))
    (hc : t'.clock = t.clock) : Stamped t' := by
  constructor
  · have := (hp.map fun x => x.2.lastAccess).nodup_iff.mp h.nodup
    rw [List.map_append] at this
    exact (List.nodup_append'.mp this).2.1
  · intro x hx
    rw [hc]
    exact h.le x (hp.mem_iff.mpr (List.mem_append_right _ hx))

/-! ## Times of a forest -/

/-- The access times of a forest, in preorder. -/
def stamps (f : Children) : List Nat := f.vals.map (·.lastAccess)

theorem stamps_cons (k : UInt64) (n : Node) (c r : Children) :
    stamps (.cons k n c r) = n.lastAccess :: (stamps c ++ stamps r) := by
  simp [stamps, KeyedForest.vals]

/-- The access times of `f` are different and not ahead of clock `c`. -/
structure InTime (c : Nat) (f : Children) : Prop where
  nodup : (stamps f).Nodup
  le : ∀ a ∈ stamps f, a ≤ c

theorem inTime_cons {c : Nat} {k : UInt64} {n : Node} {d r : Children} :
    InTime c (.cons k n d r) ↔ InTime c d ∧ InTime c r ∧ (∀ a ∈ stamps d, a ∉ stamps r) ∧
      n.lastAccess ∉ stamps d ∧ n.lastAccess ∉ stamps r ∧ n.lastAccess ≤ c := by
  constructor
  · rintro ⟨hn, hle⟩
    rw [stamps_cons, List.nodup_cons, List.nodup_append', List.mem_append, not_or] at hn
    simp only [stamps_cons, List.mem_cons, List.mem_append, forall_eq_or_imp] at hle
    exact ⟨⟨hn.2.1, fun a ha => hle.2 a (.inl ha)⟩, ⟨hn.2.2.1, fun a ha => hle.2 a (.inr ha)⟩,
      fun a h1 h2 => hn.2.2.2 h1 h2, hn.1.1, hn.1.2, hle.1⟩
  · rintro ⟨hd, hr, hdis, h1, h2, h3⟩
    constructor
    · rw [stamps_cons, List.nodup_cons, List.nodup_append', List.mem_append, not_or]
      exact ⟨⟨h1, h2⟩, hd.nodup, hr.nodup, fun a ha hb => hdis a ha hb⟩
    · intro a ha
      simp only [stamps_cons, List.mem_cons, List.mem_append] at ha
      rcases ha with rfl | ha | ha
      · exact h3
      · exact hd.le a ha
      · exact hr.le a ha

/-- Between clock `c` and clock `c'` some nodes of `f` got new access times, all different. -/
structure Restamped (c : Nat) (f : Children) (c' : Nat) (f' : Children) : Prop where
  clock : c ≤ c'
  inTime : InTime c' f'
  mem : ∀ a ∈ stamps f', a ∈ stamps f ∨ c < a

theorem InTime.mono {c c' : Nat} {f : Children} (h : InTime c f) (hc : c ≤ c') : InTime c' f :=
  ⟨h.nodup, fun a ha => (h.le a ha).trans hc⟩

theorem Restamped.refl {c : Nat} {f : Children} (h : InTime c f) : Restamped c f c f :=
  ⟨Nat.le_refl _, h, fun _ ha => .inl ha⟩

theorem Restamped.next {c c' : Nat} {k : UInt64} {n : Node} {d r r' : Children}
    (h : InTime c (.cons k n d r)) (hr : Restamped c r c' r') :
    Restamped c (.cons k n d r) c' (.cons k n d r') := by
  obtain ⟨hd, _, hdis, h1, h2, h3⟩ := inTime_cons.mp h
  -- a time of the siblings is an old one, or later than everything else
  have hold : ∀ a, a ≤ c → a ∉ stamps r → a ∉ stamps r' := fun a hle hno hm => by
    rcases hr.mem a hm with h' | h'
    · exact hno h'
    · omega
  refine ⟨hr.clock, inTime_cons.mpr ⟨hd.mono hr.clock, hr.inTime, ?_, h1, hold _ h3 h2, ?_⟩, ?_⟩
  · exact fun a ha => hold a (hd.le a ha) (hdis a ha)
  · exact h3.trans hr.clock
  · intro a ha
    simp only [stamps_cons, List.mem_cons, List.mem_append] at ha ⊢
    rcases ha with ha | ha | ha
    · exact .inl (.inl ha)
    · exact .inl (.inr (.inl ha))
    · exact (hr.mem a ha).imp (fun h' => .inr (.inr h')) id

theorem Restamped.into {c c' : Nat} {k : UInt64} {n : Node} {d d' r : Children}
    (h : InTime c (.cons k n d r)) (hd : Restamped (c + 1) d c' d') :
    Restamped c (.cons k n d r) c' (.cons k { n with lastAccess := c + 1 } d' r) := by
  obtain ⟨hd₀, hr, hdis, -, -, -⟩ := inTime_cons.mp h
  have hc := hd.clock
  refine ⟨by omega, inTime_cons.mpr ⟨hd.inTime, hr.mono (by omega), ?_, ?_, ?_, hc⟩, ?_⟩
  · intro a ha hm
    have := hr.le a hm
    rcases hd.mem a ha with h' | h'
    · exact hdis a h' hm
    · omega
  · intro (hm : c + 1 ∈ stamps d')
    rcases hd.mem _ hm with h' | h'
    · have := hd₀.le _ h'
      omega
    · omega
  · intro (hm : c + 1 ∈ stamps r)
    have := hr.le _ hm
    omega
  · intro a ha
    simp only [stamps_cons, List.mem_cons, List.mem_append] at ha ⊢
    rcases ha with rfl | ha | ha
    · exact .inr (Nat.lt_succ_self c)
    · rcases hd.mem a ha with h' | h'
      · exact .inl (.inr (.inl h'))
      · exact .inr (by omega)
    · exact .inl (.inr (.inr ha))

theorem Restamped.split {c : Nat} {k k₁ k₂ : UInt64} {n head tail : Node} {d r : Children}
    (h : InTime c (.cons k n d r)) (hh : head.lastAccess = c + 1)
    (ht : tail.lastAccess = n.lastAccess) :
    Restamped c (.cons k n d r) (c + 1) (.cons k₁ head (.cons k₂ tail d .nil) r) := by
  obtain ⟨hd, hr, hdis, h1, h2, h3⟩ := inTime_cons.mp h
  have hnil : InTime (c + 1) .nil := ⟨List.nodup_nil, fun a ha => (by cases ha)⟩
  have hno : ∀ a ∈ stamps (.nil : Children), False := fun a ha => (by cases ha)
  have htail : InTime (c + 1) (.cons k₂ tail d .nil) := by
    refine inTime_cons.mpr ⟨hd.mono (by omega), hnil, fun a _ hm => hno a hm, ?_, ?_, ?_⟩
    · rwa [ht]
    · exact fun hm => hno _ hm
    · omega
  have hmem : ∀ a ∈ stamps (.cons k₂ tail d .nil), a = n.lastAccess ∨ a ∈ stamps d := by
    intro a ha
    simp only [stamps_cons, List.mem_cons, List.mem_append] at ha
    rcases ha with ha | ha | ha
    · exact .inl (ha.trans ht)
    · exact .inr ha
    · exact (hno a ha).elim
  have hlt : ∀ a ∈ stamps (.cons k₂ tail d .nil), a ≤ c := by
    intro a ha
    rcases hmem a ha with rfl | ha
    · exact h3
    · exact hd.le a ha
  refine ⟨by omega, inTime_cons.mpr ⟨htail, hr.mono (by omega), ?_, ?_, ?_, hh.le⟩, ?_⟩
  · intro a ha hm
    rcases hmem a ha with rfl | ha
    · exact h2 hm
    · exact hdis a ha hm
  · intro hm
    have := hlt _ hm
    omega
  · intro hm
    have := hr.le _ hm
    omega
  · intro a ha
    rw [stamps_cons, List.mem_cons, List.mem_append] at ha
    rw [stamps_cons, List.mem_cons, List.mem_append]
    rcases ha with rfl | ha | ha
    · exact .inr (by omega)
    · rcases hmem a ha with ha | ha
      · exact .inl (.inl ha)
      · exact .inl (.inr (.inl ha))
    · exact .inl (.inr (.inr ha))

/-- The walk stamps the nodes it goes through, each with a later time. -/
theorem walk_restamped {bt : Nat} : ∀ (f : Children) (w : Walk) (f' : Children) (w' : Walk),
    walk key bt f w = .ok (f', w') → InTime w.clock f → Restamped w.clock f w'.clock f'
  | .nil, w, f', w', he, h => by
    cases he
    exact .refl h
  | .cons k n c r, w, f', w', he, h => by
    obtain ⟨hc, hr, -⟩ := inTime_cons.mp h
    simp only [walk, bind, Except.bind, pure, Except.pure] at he
    split at he
    · cases he
      exact .refl h
    split at he
    · split at he
      · cases he
        exact .refl h
      split at he
      · split at he
        · cases he
        · rename_i sp hsp
          cases he
          refine .split h rfl ?_
          unfold splitNode at hsp
          split at hsp
          · cases hsp
          split at hsp
          · cases hsp
          · cases hsp
            rfl
      · split at he
        · cases he
        · rename_i q hq
          cases he
          exact .into h (walk_restamped c _ q.1 q.2 hq (hc.mono (Nat.le_succ _)))
    · split at he
      · cases he
      · rename_i q hq
        cases he
        exact .next h (walk_restamped r w q.1 q.2 hq hr)

theorem stamped_iff : Stamped t ↔ InTime t.clock t.children := by
  have hst : stamps t.children = t.places.map fun x => x.2.lastAccess := by
    unfold stamps
    rw [← map_snd_places t.children Ctx.top, List.map_map]
    rfl
  constructor
  · rintro ⟨h1, h2⟩
    refine ⟨hst ▸ h1, fun a ha => ?_⟩
    rw [hst] at ha
    obtain ⟨x, hx, rfl⟩ := List.mem_map.mp ha
    exact h2 x hx
  · rintro ⟨h1, h2⟩
    exact ⟨hst ▸ h1, fun x hx => h2 _ (hst ▸ List.mem_map_of_mem hx)⟩

theorem Stamped.runWalk (h : Stamped t) {tokens : List TokenId} {limit : Nat} {w : Walk}
    (he : t.runWalk key tokens limit = .ok (t', w)) : Stamped t' := by
  simp only [RadixTree.runWalk, bind, Except.bind, pure, Except.pure] at he
  split at he
  · cases he
  · rename_i q hq
    cases he
    exact stamped_iff.mpr (walk_restamped _ _ q.1 q.2 hq (stamped_iff.mp h)).inTime

theorem Stamped.touch (h : Stamped t) (hw : WF key t) (i : NodeId) : Stamped (t.touch i) := by
  unfold RadixTree.touch setNode
  split
  · exact ⟨h.nodup, fun x hx => (h.le x hx).trans (Nat.le_succ _)⟩
  have hk : Keeps fun n : Node => if n.id = i then { n with lastAccess := t.clock + 1 } else n := by
    constructor <;> intro n <;> split <;> rfl
  have hst : ∀ n : Node, (if n.id = i then { n with lastAccess := t.clock + 1 } else n).lastAccess =
      if n.id = i then t.clock + 1 else n.lastAccess := fun n => by split <;> rfl
  have hpl := hk.places t.children .top
  constructor
  · show (((t.children.map _).places Ctx.push .top).map _).Nodup
    rw [hpl, List.map_map]
    refine (List.Nodup.of_map _ h.nodup).map_on fun x hx y hy e => ?_
    simp only [Function.comp, hst] at e
    have hlx := h.le x hx
    have hly := h.le y hy
    split at e
    · rename_i hxi
      split at e
      · rename_i hyi
        exact place_inj hw.ids_nodup hx hy (hxi.trans hyi.symm)
      · omega
    · split at e
      · omega
      · exact h.inj hx hy e
  · intro x hx
    have hx : x ∈ (t.children.map _).places Ctx.push .top := hx
    rw [hpl] at hx
    obtain ⟨y, hy, rfl⟩ := List.mem_map.mp hx
    have hly := h.le y hy
    simp only [hst]
    split
    · exact Nat.le_refl _
    · exact hly.trans (Nat.le_succ _)

theorem Stamped.grown (h : Stamped t) (hp : t'.places.Perm (x :: t.places))
    (hx : x.2.lastAccess = t.clock + 1) (hc : t'.clock = t.clock + 1) : Stamped t' := by
  constructor
  · refine (hp.map fun x => x.2.lastAccess).nodup_iff.mpr (List.nodup_cons.mpr ⟨fun hm => ?_, h.nodup⟩)
    obtain ⟨y, hy, e⟩ := List.mem_map.mp hm
    have hle := h.le y hy
    have e : y.2.lastAccess = x.2.lastAccess := e
    omega
  · intro y hy
    rcases List.mem_cons.mp (hp.mem_iff.mp hy) with rfl | hy
    · omega
    · have := h.le y hy
      omega

theorem Stamped.mapPath (h : Stamped t) {g : Node → Node} (hk : Keeps g)
    (hg : ∀ n, (g n).lastAccess = n.lastAccess) (l : List NodeId) : Stamped (t.mapPath g l) := by
  have hst : ∀ n, (onPath g l n).lastAccess = n.lastAccess := fun n => by
    unfold onPath
    split
    · exact hg n
    · rfl
  have hpl := mapPath_places hk t l
  constructor
  · rw [hpl, List.map_map]
    simpa only [Function.comp_def, hst] using h.nodup
  · intro x hx
    rw [hpl] at hx
    obtain ⟨y, hy, rfl⟩ := List.mem_map.mp hx
    simp only [hst]
    exact h.le y hy

end RadixTree

end KvsLab
