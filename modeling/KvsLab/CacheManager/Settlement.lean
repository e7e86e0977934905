import KvsLab.CacheManager.GiveBack

/-!
# Settling claims

A served request is settled when its fresh blocks are decref'd and its pin is dropped: by the
release of its handle or by the destruction of it, wherever moves have taken it.  Which calls
settle what is a matter of the three fields `ok`, `owner_` and `pinned` alone, so nothing is
assumed here about the tokens a release is called with.

* `call` — one step of a program over handle variables; releases with any tokens.
* `Grant` — the serial number of a served request, with its fresh blocks and its pin.
* `Ledger` — a system with three ghosts: the claims granted, released and abandoned so far.
* `Balanced` — a granted claim is live, released or abandoned, exactly one of the three, and the lock
  counts are those of the live ones' pins.
* `GivesBack` — what a settlement takes off the references and the lock counts; `SettlesNothing` —
  what any other call leaves alone.
* `settled_once` — **the ledger balances after every program**, each settlement gives back what was
  granted, and no other call gives anything back.
-/

namespace KvsLab

open RadixTree BlockPool CacheManager Transition

/-- The counters of requests and handles. -/
def Stats.tally (st : Stats) : Nat × Nat × Nat × Nat :=
  (st.requests, st.served, st.allocFailures, st.abandoned)

namespace CacheManager

variable {key : List TokenId → UInt64} {m m' : CacheManager} {tokens : List TokenId}

/-! ## Counters -/

theorem maintain_tally (h : m.maintain = .ok m') : m'.stats.tally = m.stats.tally := by
  obtain rfl | ⟨V, k, p, -, -, rfl⟩ := maintain_cases h
  · rfl
  · rfl

theorem makeRoom_tally {demand : Nat} (h : m.makeRoom demand = .ok m') :
    m'.stats.tally = m.stats.tally := by
  obtain rfl | ⟨V, k, p, -, -, rfl⟩ := makeRoom_cases h
  · rfl
  · rfl

theorem reclaim_tally {demand : Nat} : ∀ {fuel : Nat} {m : CacheManager},
    reclaim key demand fuel m = .ok m' → m'.stats.tally = m.stats.tally := by
  intro fuel
  induction fuel with
  | zero =>
    intro m h
    obtain rfl | ⟨k, t, p, -, rfl | ⟨rest, hf, -⟩⟩ := reclaim_cases h
    · rfl
    · rfl
    · cases hf
  | succ fuel ih =>
    intro m h
    obtain rfl | ⟨k, t, p, -, rfl | ⟨rest, hf, h⟩⟩ := reclaim_cases h
    · rfl
    · rfl
    · cases hf
      exact (ih h).trans rfl

theorem lookup_tally {r : Request} (h : m.lookup key tokens = .ok r) :
    r.mgr.stats.tally = Stats.tally { m.stats with requests := m.stats.requests + 1 } := by
  obtain ⟨found, t, t', p, k, -, -, -, -, hr⟩ := lookup_cases h
  rw [hr]

/-- The handle `acquire` returns, and what it counts. -/
theorem acquire_counts {al : Allocation} (h : m.acquire key tokens = .ok (al, m')) :
    (tokens = [] ∧ al = { ok := true } ∧ m'.stats.tally = Stats.tally { m.stats with
      requests := m.stats.requests + 1, served := m.stats.served + 1 }) ∨
    (tokens ≠ [] ∧ al = {} ∧ m'.stats.tally = Stats.tally { m.stats with
      requests := m.stats.requests + 1, allocFailures := m.stats.allocFailures + 1 }) ∨
    (tokens ≠ [] ∧ al.ok = true ∧ al.owner = true ∧ m'.stats.tally = Stats.tally { m.stats with
      requests := m.stats.requests + 1, served := m.stats.served + 1 }) := by
  obtain ⟨ht, rfl, rfl⟩ | ⟨ht, r, m₁, m₂, hr, hm₁, hm₂, hend⟩ := acquire_cases h
  · exact .inl ⟨ht, rfl, rfl⟩
  have htally := (reclaim_tally hm₂).trans ((makeRoom_tally hm₁).trans (lookup_tally hr))
  simp only [Stats.tally, Prod.mk.injEq] at htally
  obtain ⟨h1, h2, h3, h4⟩ := htally
  rcases hend with ⟨-, hrf⟩ | ⟨-, hsv⟩
  · obtain ⟨t, -, rfl, rfl⟩ := refuse_cases hrf
    refine .inr (.inl ⟨ht, rfl, ?_⟩)
    simp only [Stats.tally, h1, h2, h3, h4]
  · obtain ⟨m₃, hst, hmt⟩ := serve_cases hsv
    obtain ⟨k, p, ids, q, -, -, rfl, rfl⟩ := stock_cases hst
    refine .inr (.inr ⟨ht, rfl, rfl, ?_⟩)
    rw [maintain_tally hmt]
    simp only [Stats.tally, h1, h2, h3, h4]

/-- What a release does to the handle. -/
theorem release_handle {al al' : Allocation} {ws : List (WorkerId × WorkerAct)}
    (h : m.release key tokens al ws = .ok (al', m')) :
    m'.stats.tally = m.stats.tally ∧
      ((al.ok = false ∧ al' = al ∧ m' = m) ∨
        (al.ok = true ∧ al' = al.disarm ∧ ∃ n t p p' t',
          m.tree.insert key m.pool tokens al.blocks = .ok (n, t, p) ∧
          dropRefs al.freshBlocks p = .ok p' ∧ unpin t al.pinned = .ok t' ∧
          maintain { m with tree := t', pool := (p'.work ws).drainMigrations } = .ok m')) := by
  obtain ⟨hok, rfl, rfl⟩ | ⟨hok, m₁, hg, hmt⟩ := release_cases h
  · exact ⟨rfl, .inl ⟨hok, rfl, rfl⟩⟩
  · obtain ⟨n, t, p, p', t', hins, hdr, hun, rfl, rfl⟩ := giveBack_cases hg
    have htally := maintain_tally hmt
    exact ⟨htally, .inr ⟨hok, rfl, n, t, p, p', t', hins, hdr, hun, hmt⟩⟩

theorem ready_stats {al : Allocation} {b : Bool} (h : m.ready al = .ok (b, m')) :
    m'.stats = m.stats := by
  obtain rfl | rfl := ready_cases h
  · rfl
  · rfl

end CacheManager

/-! ## The ledger -/

/-- What a served request was given: the blocks it has to decref and the pin it has to drop. -/
structure Grant where
  serial : Nat
  fresh : List BlockId
  pinned : Option NodeId
  deriving DecidableEq, Repr

/-- The handle of a served request that is not settled. -/
def Handle.armed (h : Handle) : Bool := h.alloc.ok && h.alloc.owner

def Handle.grant (h : Handle) : Grant := ⟨h.serial, h.alloc.freshBlocks, h.alloc.pinned⟩

namespace System

variable (key : List TokenId → UInt64)

/-- A step of a program; unlike `next` it releases with any tokens. -/
def call (s : System) : Op → Option (Except Fault System)
  | .release i tokens ws => do
    let h ← s.vars[i]?
    return do
      let (alloc, mgr) ← s.mgr.release key tokens h.alloc ws
      return { s with mgr, vars := s.vars.set i { h with alloc } }
  | op => s.next key op

/-- The armed handles among some variables. -/
def armed (vars : List Handle) : List Handle := vars.filter Handle.armed

/-- The pins of the armed handles among some variables. -/
def pins (vars : List Handle) : List NodeId := (armed vars).filterMap (·.alloc.pinned)

/-- What a step that leads to `s'` grants. -/
def grants (s' : System) : Op → List Grant
  | .acquire tokens =>
    if tokens = [] then [] else (s'.vars.getLast?.toList.filter (·.alloc.ok)).map Handle.grant
  | _ => []

/-- What settling variable `i` settles. -/
def claimAt (s : System) (i : Nat) : List Grant :=
  (armed s.vars[i]?.toList).map Handle.grant

/-- What a step from `s` settles by a release. -/
def releases (s : System) : Op → List Grant
  | .release i _ _ => s.claimAt i
  | _ => []

/-- What a step from `s` settles by abandoning it. -/
def abandons (s : System) : Op → List Grant
  | .destroy i => s.claimAt i
  | .moveAssign i j => if i = j then [] else s.claimAt i
  | _ => []

end System

/-- A system with the claims granted and settled so far. -/
structure Ledger where
  sys : System
  granted : List Grant := []
  released : List Grant := []
  abandoned : List Grant := []

namespace Ledger

variable (key : List TokenId → UInt64)

/-- One step of the system, entered in the ledger. -/
def next (l : Ledger) (op : Op) : Option Ledger := do
  let r ← l.sys.call key op
  let sys ← r.toOption
  return {
    sys
    granted := l.granted ++ sys.grants op
    released := l.released ++ l.sys.releases op
    abandoned := l.abandoned ++ l.sys.abandons op }

def Step (l : Ledger) (op : Op) (l' : Ledger) : Prop := l.next key op = some l'

/-- Every granted claim is with a live handle, released or abandoned, exactly one of the three. -/
structure Balanced (l : Ledger) : Prop where
  once : l.granted.Perm
    ((System.armed l.sys.vars).map Handle.grant ++ (l.released ++ l.abandoned))
  serials : (l.granted.map (·.serial)).Nodup
  count : l.granted.length =
    (System.armed l.sys.vars).length + l.released.length + l.sys.mgr.stats.abandoned
  requests : l.sys.mgr.stats.requests = l.sys.mgr.stats.served + l.sys.mgr.stats.allocFailures
  locks : LockOK (System.pins l.sys.vars) l.sys.mgr.tree.places

/-- The invariant behind it. -/
structure Inv (l : Ledger) : Prop where
  once : l.granted.Perm
    ((System.armed l.sys.vars).map Handle.grant ++ (l.released ++ l.abandoned))
  serials : (l.granted.map (·.serial)).Nodup
  serials_lt : ∀ g ∈ l.granted, g.serial < l.sys.nextSerial
  abandoned : l.sys.mgr.stats.abandoned = l.abandoned.length
  requests : l.sys.mgr.stats.requests = l.sys.mgr.stats.served + l.sys.mgr.stats.allocFailures
  idle : ∀ h ∈ l.sys.vars, h.alloc.ok = true → h.alloc.owner = false →
    h.alloc.blocks = [] ∧ h.alloc.pinned = none

/-- The tree holds the pins of the armed handles and no others. -/
def Pinned (l : Ledger) : Prop := PinnedBy key l.sys.mgr.tree (System.pins l.sys.vars)

variable {key} in
theorem Inv.balanced {l : Ledger} (h : l.Inv) (hp : Pinned key l) : l.Balanced := by
  refine ⟨h.once, h.serials, ?_, h.requests, hp.lockOK⟩
  have := h.once.length_eq
  rw [List.length_append, List.length_append, List.length_map] at this
  rw [h.abandoned, this, Nat.add_assoc]

end Ledger

/-! ## Variables -/

namespace System

variable {vars : List Handle} {h h' : Handle} {i j : Nat}

theorem armed_append (vars vars' : List Handle) : armed (vars ++ vars') = armed vars ++ armed vars' :=
  List.filter_append _ _

theorem armed_disarm (h : Handle) : armed [h.disarm] = [] := rfl

theorem armed_of_armed (ha : h.armed = true) : armed [h] = [h] := by
  unfold System.armed
  rw [List.filter_cons, if_pos ha]
  rfl

theorem armed_of_idle (ha : h.armed = false) : armed [h] = [] := by
  unfold System.armed
  rw [List.filter_cons, if_neg (by rw [ha]; exact Bool.false_ne_true)]
  rfl

/-- The armed handles around one variable. -/
theorem armed_at (hi : vars[i]? = some h) : ∃ K, (armed vars).Perm (armed [h] ++ K) ∧
    ∀ h', (armed (vars.set i h')).Perm (armed [h'] ++ K) :=
  Counting.filter_around Handle.armed hi

/-- Disarming a variable takes its handle out. -/
theorem armed_set (hi : vars[i]? = some h) (hd : armed [h'] = []) :
    (armed vars).Perm (armed [h] ++ armed (vars.set i h')) := by
  obtain ⟨K, hK, hset⟩ := armed_at hi
  have := hset h'
  rw [hd, List.nil_append] at this
  exact hK.trans (this.symm.append_left _)

/-- Moving a handle into a new variable. -/
theorem armed_moveConstruct (hi : vars[i]? = some h) :
    (armed (vars.set i h.disarm ++ [h])).Perm (armed vars) := by
  rw [armed_append]
  exact List.perm_append_comm.trans (armed_set hi (armed_disarm h)).symm

/-- Moving a handle over another takes the other one out. -/
theorem armed_moveAssign (hi : vars[i]? = some h) (hj : vars[j]? = some h') (hij : i ≠ j) :
    (armed vars).Perm (armed [h] ++ armed ((vars.set i h').set j h'.disarm)) := by
  obtain ⟨K, hK, hset⟩ := armed_at hi
  have hj' : (vars.set i h')[j]? = some h' := by
    rw [List.getElem?_set_ne hij]
    exact hj
  have hmoved := (hset h').symm.trans (armed_set hj' (armed_disarm h'))
  exact hK.trans (((List.perm_append_left_iff _).mp hmoved).append_left _)

theorem pins_of_armed (ha : h.armed = true) : pins [h] = h.alloc.pinned.toList := by
  unfold pins
  rw [armed_of_armed ha]
  cases hp : h.alloc.pinned <;> simp [hp]

theorem pins_of_idle (ha : h.armed = false) : pins [h] = [] := by
  unfold pins
  rw [armed_of_idle ha]
  rfl

theorem pins_append (vars vars' : List Handle) : pins (vars ++ vars') = pins vars ++ pins vars' := by
  unfold pins
  rw [armed_append, List.filterMap_append]

theorem pins_perm {vars' : List Handle} (hp : (armed vars).Perm (armed [h] ++ armed vars')) :
    (pins vars).Perm (pins [h] ++ pins vars') := by
  unfold pins
  rw [← List.filterMap_append]
  exact hp.filterMap _

theorem claimAt_eq {s : System} (hi : s.vars[i]? = some h) :
    s.claimAt i = (armed [h]).map Handle.grant := by
  unfold claimAt
  rw [hi]
  rfl

end System

/-! ## One step -/

namespace Ledger

variable {key : List TokenId → UInt64} {l l' : Ledger} {s' : System} {tokens : List TokenId}

/-- What a step enters in the ledger. -/
theorem next_eq {op : Op} (h : l.next key op = some l') : ∃ s', l.sys.call key op = some (.ok s') ∧
    l' = { sys := s', granted := l.granted ++ s'.grants op, released := l.released ++
      l.sys.releases op, abandoned := l.abandoned ++ l.sys.abandons op } := by
  obtain ⟨r, hr, h⟩ := Option.bind_eq_some_iff.mp h
  obtain ⟨s', hs, h⟩ := Option.bind_eq_some_iff.mp h
  cases h
  rw [toOption_eq_some hs] at hr
  exact ⟨s', hr, rfl⟩

/-- A step that settles the claims of the handles `A`, or none. -/
theorem Inv.settle (hl : l.Inv) {A : List Handle}
    (hv : (System.armed l.sys.vars).Perm (A ++ System.armed l'.sys.vars))
    (hg : l'.granted = l.granted)
    (hs : (l'.released ++ l'.abandoned).Perm (A.map Handle.grant ++ (l.released ++ l.abandoned)))
    (hn : l'.sys.nextSerial = l.sys.nextSerial)
    (hab : l'.sys.mgr.stats.abandoned = l'.abandoned.length)
    (hreq : l'.sys.mgr.stats.requests =
      l'.sys.mgr.stats.served + l'.sys.mgr.stats.allocFailures)
    (hidle : ∀ h ∈ l'.sys.vars, h.alloc.ok = true → h.alloc.owner = false →
      h.alloc.blocks = [] ∧ h.alloc.pinned = none) : l'.Inv := by
  refine ⟨?_, by rw [hg]; exact hl.serials, by rw [hg, hn]; exact hl.serials_lt, hab, hreq, hidle⟩
  rw [hg]
  refine hl.once.trans (((hv.map _).append_right _).trans ?_)
  rw [List.map_append, List.append_assoc]
  refine List.perm_append_comm_assoc _ _ _ |>.trans ?_
  exact hs.symm.append_left _

/-- A step that leaves the variables, the counters and the ledger alone. -/
theorem Inv.same (hl : l.Inv) (hv : (System.armed l.sys.vars).Perm (System.armed l'.sys.vars))
    (hg : l'.granted = l.granted) (hr : l'.released = l.released) (ha : l'.abandoned = l.abandoned)
    (hn : l'.sys.nextSerial = l.sys.nextSerial)
    (ht : l'.sys.mgr.stats.tally = l.sys.mgr.stats.tally)
    (hidle : ∀ h ∈ l'.sys.vars, h.alloc.ok = true → h.alloc.owner = false →
      h.alloc.blocks = [] ∧ h.alloc.pinned = none) : l'.Inv := by
  simp only [Stats.tally, Prod.mk.injEq] at ht
  obtain ⟨h1, h2, h3, h4⟩ := ht
  refine hl.settle (A := []) hv hg ?_ hn ?_ ?_ hidle
  · rw [hr, ha]
    exact .refl _
  · rw [h4, ha]
    exact hl.abandoned
  · rw [h1, h2, h3]
    exact hl.requests

theorem Inv.acquire (hl : l.Inv) {al : Allocation} {m' : CacheManager}
    (h : l.sys.mgr.acquire key tokens = .ok (al, m')) {vars : List Handle}
    (hvars : vars = l.sys.vars ++ [⟨al, tokens, l.sys.nextSerial⟩]) :
    Inv { l with
      sys := ⟨m', vars, l.sys.nextSerial + 1⟩
      granted := l.granted ++ System.grants ⟨m', vars, l.sys.nextSerial + 1⟩ (.acquire tokens) } := by
  subst hvars
  have hlt : ∀ g ∈ l.granted, g.serial < l.sys.nextSerial + 1 := fun g hg =>
    Nat.lt_succ_of_lt (hl.serials_lt g hg)
  have hreq := hl.requests
  have hidle : (al.ok = true → al.owner = false → al.blocks = [] ∧ al.pinned = none) →
      ∀ h ∈ l.sys.vars ++ [⟨al, tokens, l.sys.nextSerial⟩], h.alloc.ok = true →
        h.alloc.owner = false → h.alloc.blocks = [] ∧ h.alloc.pinned = none := by
    intro hnew h hh
    rcases List.mem_append.mp hh with hh | hh
    · exact hl.idle h hh
    · rw [List.mem_singleton.mp hh]
      exact hnew
  rcases acquire_counts h with ⟨ht, rfl, htally⟩ | ⟨ht, rfl, htally⟩ | ⟨ht, hok, ho, htally⟩
  all_goals
    simp only [Stats.tally, Prod.mk.injEq] at htally
    obtain ⟨h1, h2, h3, h4⟩ := htally
  · -- the empty sequence: the handle owns nothing
    refine ⟨?_, ?_, ?_, h4.trans hl.abandoned, ?_, hidle fun _ _ => ⟨rfl, rfl⟩⟩
    · simp only [System.grants, if_pos ht, List.append_nil, System.armed_append]
      exact (List.append_nil (System.armed l.sys.vars)).symm ▸ hl.once
    · simp only [System.grants, if_pos ht, List.append_nil]
      exact hl.serials
    · simp only [System.grants, if_pos ht, List.append_nil]
      exact hlt
    · show m'.stats.requests = m'.stats.served + m'.stats.allocFailures
      omega
  · -- refused: the handle is a spent one
    have hnone : System.grants ⟨m', l.sys.vars ++ [⟨{}, tokens, l.sys.nextSerial⟩],
        l.sys.nextSerial + 1⟩ (.acquire tokens) = [] := by
      simp only [System.grants, if_neg ht, List.getLast?_append, List.getLast?_singleton]
      rfl
    refine ⟨?_, ?_, ?_, h4.trans hl.abandoned, ?_, hidle nofun⟩
    · rw [hnone, List.append_nil]
      simp only [System.armed_append]
      exact (List.append_nil (System.armed l.sys.vars)).symm ▸ hl.once
    · rw [hnone, List.append_nil]
      exact hl.serials
    · rw [hnone, List.append_nil]
      exact hlt
    · show m'.stats.requests = m'.stats.served + m'.stats.allocFailures
      omega
  · have hone : System.grants ⟨m', l.sys.vars ++ [⟨al, tokens, l.sys.nextSerial⟩],
        l.sys.nextSerial + 1⟩ (.acquire tokens) =
        [Handle.grant ⟨al, tokens, l.sys.nextSerial⟩] := by
      simp only [System.grants, if_neg ht, List.getLast?_append, List.getLast?_singleton]
      simp [hok]
    have harm : System.armed [⟨al, tokens, l.sys.nextSerial⟩] =
        [⟨al, tokens, l.sys.nextSerial⟩] :=
      System.armed_of_armed (by show (al.ok && al.owner) = true; rw [hok, ho]; rfl)
    refine ⟨?_, ?_, ?_, h4.trans hl.abandoned, ?_, hidle fun _ hno => ?_⟩
    · rw [hone]
      show (l.granted ++ _).Perm ((System.armed (l.sys.vars ++ _)).map _ ++ _)
      rw [System.armed_append, harm, List.map_append, List.append_assoc]
      exact (hl.once.append_right _).trans (by
        rw [List.append_assoc]
        exact List.perm_append_comm.append_left _)
    · rw [hone, List.map_append]
      refine List.nodup_append'.mpr ⟨hl.serials, List.nodup_singleton _, fun n hn hm => ?_⟩
      obtain ⟨g, hg, rfl⟩ := List.mem_map.mp hn
      have : g.serial = l.sys.nextSerial := List.mem_singleton.mp hm
      exact absurd (hl.serials_lt g hg) (by omega)
    · rw [hone]
      intro g hg
      rcases List.mem_append.mp hg with hg | hg
      · exact hlt g hg
      · rw [List.mem_singleton.mp hg]
        exact Nat.lt_succ_self _
    · show m'.stats.requests = m'.stats.served + m'.stats.allocFailures
      omega
    · rw [ho] at hno
      cases hno

theorem idle_set (hl : l.Inv) {i : Nat} {h' : Handle} {vars : List Handle}
    (hv : ∀ h ∈ vars, h ∈ l.sys.vars ∨ h.alloc.ok = false)
    (hd : h'.alloc.ok = false ∨ h' ∈ l.sys.vars) :
    ∀ h ∈ vars.set i h', h.alloc.ok = true → h.alloc.owner = false →
      h.alloc.blocks = [] ∧ h.alloc.pinned = none := by
  intro h hh hok
  rcases List.mem_or_eq_of_mem_set hh with hh | rfl
  · rcases hv h hh with hm | hf
    · exact hl.idle h hm hok
    · rw [hf] at hok
      cases hok
  · rcases hd with hf | hm
    · rw [hf] at hok
      cases hok
    · exact hl.idle h hm hok

theorem Inv.release (hl : l.Inv) {i : Nat} {ws : List (WorkerId × WorkerAct)} {h : Handle}
    {al' : Allocation} {m' : CacheManager} (hi : l.sys.vars[i]? = some h)
    (he : l.sys.mgr.release key tokens h.alloc ws = .ok (al', m')) :
    Inv { l with
      sys := { l.sys with mgr := m', vars := l.sys.vars.set i { h with alloc := al' } }
      released := l.released ++ l.sys.claimAt i } := by
  obtain ⟨htally, hcase⟩ := release_handle he
  simp only [Stats.tally, Prod.mk.injEq] at htally
  obtain ⟨h1, h2, h3, h4⟩ := htally
  have hreq : m'.stats.requests = m'.stats.served + m'.stats.allocFailures := by
    rw [h1, h2, h3]
    exact hl.requests
  have hvars : ∀ k ∈ l.sys.vars, k ∈ l.sys.vars ∨ k.alloc.ok = false := fun k hk => .inl hk
  have hcl := System.claimAt_eq hi
  rcases hcase with ⟨hok, rfl, rfl⟩ | ⟨hok, rfl, _⟩
  · have hnone : System.armed [h] = [] := by
      refine System.armed_of_idle ?_
      show (h.alloc.ok && _) = false
      rw [hok]
      rfl
    refine hl.settle (A := []) ?_ rfl ?_ rfl hl.abandoned hreq
      (idle_set hl hvars (.inr (List.mem_of_getElem? hi)))
    · show (System.armed l.sys.vars).Perm (System.armed (l.sys.vars.set i h))
      rw [System.set_self hi]
    · rw [hcl, hnone]
      simp
  · refine hl.settle (A := System.armed [h]) (System.armed_set hi rfl) rfl ?_ rfl ?_ hreq
      (idle_set hl hvars (.inl rfl))
    · show ((l.released ++ l.sys.claimAt i) ++ l.abandoned).Perm _
      rw [hcl, List.append_assoc]
      exact List.perm_append_comm_assoc _ _ _
    · exact h4.trans hl.abandoned

/-- A destructor, then `vars`, where the destructed handle is out. -/
theorem Inv.destruct (hl : l.Inv) {i : Nat} {h : Handle} {al' : Allocation} {m' : CacheManager}
    (hi : l.sys.vars[i]? = some h) (he : l.sys.mgr.destruct h.alloc = .ok (al', m'))
    {vars : List Handle} (hv : (System.armed l.sys.vars).Perm (System.armed [h] ++ System.armed vars))
    (hidle : ∀ h ∈ vars, h.alloc.ok = true → h.alloc.owner = false →
      h.alloc.blocks = [] ∧ h.alloc.pinned = none) :
    Inv { l with
      sys := { l.sys with mgr := m', vars := vars }
      abandoned := l.abandoned ++ l.sys.claimAt i } := by
  have hcl := System.claimAt_eq hi
  have hperm : (l.released ++ (l.abandoned ++ l.sys.claimAt i)).Perm
      ((System.armed [h]).map Handle.grant ++ (l.released ++ l.abandoned)) := by
    rw [hcl, ← List.append_assoc]
    exact List.perm_append_comm
  rcases destruct_cases he with ⟨ho, _, rfl⟩ | ⟨ho, _, p', t', _, _, rfl⟩
  · refine hl.settle hv rfl hperm rfl ?_ hl.requests hidle
    show _ = (l.abandoned ++ l.sys.claimAt i).length
    rw [hcl, System.armed_of_idle ho, List.map_nil, List.append_nil]
    exact hl.abandoned
  · refine hl.settle hv rfl hperm rfl ?_ hl.requests hidle
    show l.sys.mgr.stats.abandoned + 1 = (l.abandoned ++ l.sys.claimAt i).length
    rw [hcl, System.armed_of_armed ho, hl.abandoned]
    simp

/-- **Every step keeps the ledger balanced.** -/
theorem Inv.next (hl : l.Inv) {op : Op} (he : Step key l op l') : l'.Inv := by
  obtain ⟨s', hc, rfl⟩ := next_eq he
  have hold : ∀ k ∈ l.sys.vars, k ∈ l.sys.vars ∨ k.alloc.ok = false := fun k hk => .inl hk
  cases op with
  | acquire tokens =>
    obtain ⟨-, ⟨al, m'⟩, ha, rfl⟩ := System.acquire_call hc
    simp only [System.releases, System.abandons, List.append_nil]
    exact hl.acquire ha rfl
  | construct =>
    cases hc
    simp only [System.grants, System.releases, System.abandons, List.append_nil]
    refine hl.same ?_ rfl rfl rfl rfl rfl ?_
    · rw [System.armed_append]
      exact (List.append_nil (System.armed l.sys.vars)).symm ▸ .refl _
    · intro h hh hok
      rcases List.mem_append.mp hh with hh | hh
      · exact hl.idle h hh hok
      · rw [List.mem_singleton.mp hh] at hok
        cases hok
  | moveConstruct i =>
    obtain ⟨h, hi, hc⟩ := Option.bind_eq_some_iff.mp hc
    cases hc
    simp only [System.grants, System.releases, System.abandons, List.append_nil]
    refine hl.same (System.armed_moveConstruct hi).symm rfl rfl rfl rfl rfl ?_
    intro k hk
    rcases List.mem_append.mp hk with hk | hk
    · exact idle_set hl hold (.inl rfl) k hk
    · rw [List.mem_singleton.mp hk]
      exact hl.idle h (List.mem_of_getElem? hi)
  | moveAssign i j =>
    obtain ⟨h, hi, hc⟩ := Option.bind_eq_some_iff.mp hc
    obtain ⟨src, hj, hc⟩ := Option.bind_eq_some_iff.mp hc
    simp only [System.grants, System.releases, System.abandons, List.append_nil]
    split at hc
    · rename_i hij
      cases hc
      rw [if_pos hij, List.append_nil]
      exact hl
    · rename_i hij
      rw [if_neg hij]
      obtain ⟨⟨al', m'⟩, hd, rfl⟩ := System.call_ok hc
      refine hl.destruct hi hd (System.armed_moveAssign hi hj hij) ?_
      refine idle_set hl (fun k hk => ?_) (.inl rfl)
      rcases List.mem_or_eq_of_mem_set hk with hk | rfl
      · exact .inl hk
      · exact .inl (List.mem_of_getElem? hj)
  | destroy i =>
    obtain ⟨h, hi, hc⟩ := Option.bind_eq_some_iff.mp hc
    simp only [System.grants, System.releases, System.abandons, List.append_nil]
    obtain ⟨⟨al', m'⟩, hd, rfl⟩ := System.call_ok hc
    rcases destruct_cases hd with ⟨ho, rfl, _⟩ | ⟨_, rfl, _⟩
    · refine hl.destruct hi hd ?_ (idle_set hl hold (.inr (List.mem_of_getElem? hi)))
      show (System.armed l.sys.vars).Perm (_ ++ System.armed (l.sys.vars.set i h))
      rw [System.set_self hi, System.armed_of_idle ho, List.nil_append]
    · exact hl.destruct hi hd (System.armed_set hi rfl) (idle_set hl hold (.inl rfl))
  | release i tokens ws =>
    obtain ⟨h, hi, hc⟩ := Option.bind_eq_some_iff.mp hc
    simp only [System.grants, System.releases, System.abandons, List.append_nil]
    obtain ⟨⟨al', m'⟩, hr, rfl⟩ := System.call_ok hc
    exact hl.release hi hr
  | ready i =>
    obtain ⟨h, hi, hc⟩ := Option.bind_eq_some_iff.mp hc
    simp only [System.grants, System.releases, System.abandons, List.append_nil]
    obtain ⟨⟨b, m'⟩, hr, rfl⟩ := System.call_ok hc
    exact hl.same (.refl _) rfl rfl rfl rfl (congrArg Stats.tally (ready_stats hr)) hl.idle
  | wait =>
    obtain ⟨p, _, hc⟩ := Option.bind_eq_some_iff.mp hc
    cases hc
    simp only [System.grants, System.releases, System.abandons, List.append_nil]
    exact hl.same (.refl _) rfl rfl rfl rfl rfl hl.idle
  | worker w act =>
    obtain ⟨p, _, hc⟩ := Option.bind_eq_some_iff.mp hc
    cases hc
    simp only [System.grants, System.releases, System.abandons, List.append_nil]
    exact hl.same (.refl _) rfl rfl rfl rfl rfl hl.idle

/-! ## What a settlement does -/

/-- A settlement of `g`: one reference is dropped on each fresh block of the claim and one pin along
the path to its node, and no node or stored block goes with it. -/
structure GivesBack (g : Grant) (p p' : BlockPool) (t t' : RadixTree) : Prop where
  drop : dropRefs g.fresh p = .ok p'
  unpin : unpin t g.pinned = .ok t'
  refs : ∀ b, p'.refcount b + g.fresh.count b = p.refcount b
  locks : Unpinned g.pinned t t'

/-- A release publishes the table and settles the claim, and nothing else of it. -/
def ReleaseSettles (key : List TokenId → UInt64) (m m' : CacheManager) (g : Grant) : Prop :=
  ∃ tokens blocks ws n t p p' t', m.tree.insert key m.pool tokens blocks = .ok (n, t, p) ∧
    GivesBack g p p' t t' ∧
    maintain { m with tree := t', pool := (p'.work ws).drainMigrations } = .ok m'

/-- Abandoning settles the claim without publishing, and is counted. -/
def AbandonSettles (m m' : CacheManager) (g : Grant) : Prop :=
  ∃ p' t', GivesBack g m.pool p' m.tree t' ∧
    m' = { m with
      pool := p', tree := t', stats := { m.stats with abandoned := m.stats.abandoned + 1 } }

/-- A call that settles nothing.  On a handle it does not touch the manager, or releases a handle
that has no block and no pin.  An acquire takes references away only with blocks the tree drops, and
waiting and workers take none and leave the tree alone. -/
def SettlesNothing (l : Ledger) (m' : CacheManager) : Op → Prop
  | .acquire _ => Spares l.sys.mgr m' ∧ m'.stats.abandoned = l.sys.mgr.stats.abandoned
  | .release i _ _ => m' = l.sys.mgr ∨ ∃ h, l.sys.vars[i]? = some h ∧
      h.alloc.freshBlocks = [] ∧ h.alloc.pinned = none
  | .construct | .moveConstruct _ | .moveAssign _ _ | .destroy _ => m' = l.sys.mgr
  | .ready _ | .wait | .worker _ _ => m'.tree = l.sys.mgr.tree ∧
      m'.pool.refcount = l.sys.mgr.pool.refcount ∧ m'.stats = l.sys.mgr.stats

theorem GivesBack.of {g : Grant} {p p' : BlockPool} {t t' : RadixTree} {pins : List NodeId}
    (hp : PinnedBy key t (g.pinned.toList ++ pins)) (hd : dropRefs g.fresh p = .ok p')
    (hu : CacheManager.unpin t g.pinned = .ok t') :
    GivesBack g p p' t t' ∧ PinnedBy key t' pins := by
  obtain ⟨hp', hn⟩ := hp.unpin hu
  exact ⟨⟨hd, hu, dropRefs_counts hd, hn⟩, hp'⟩

theorem mem_claimAt {s : System} {i : Nat} {h : Handle} {g : Grant} (hi : s.vars[i]? = some h)
    (hg : g ∈ s.claimAt i) : h.armed = true ∧ g = h.grant := by
  rw [System.claimAt_eq hi] at hg
  obtain ⟨k, hk, rfl⟩ := List.mem_map.mp hg
  obtain ⟨hk, ha⟩ := List.mem_filter.mp hk
  rw [List.mem_singleton.mp hk] at ha ⊢
  exact ⟨ha, rfl⟩

theorem claimAt_nil {s : System} {i : Nat} {h : Handle} (hi : s.vars[i]? = some h)
    (hn : s.claimAt i = []) : h.armed = false := by
  rw [System.claimAt_eq hi, List.map_eq_nil_iff] at hn
  by_contra ha
  rw [System.armed_of_armed (Bool.eq_true_of_not_eq_false ha)] at hn
  cases hn

/-- What the destructor of a variable does, which leaves the handles of `vars`. -/
theorem destruct_settles (hp : Pinned key l) {i : Nat} {h : Handle} {al' : Allocation}
    {m' : CacheManager} (hi : l.sys.vars[i]? = some h)
    (hd : l.sys.mgr.destruct h.alloc = .ok (al', m')) {vars : List Handle}
    (hv : (System.armed l.sys.vars).Perm (System.armed [h] ++ System.armed vars)) :
    PinnedBy key m'.tree (System.pins vars) ∧
      (∀ g ∈ l.sys.claimAt i, AbandonSettles l.sys.mgr m' g) ∧
      (l.sys.claimAt i = [] → m' = l.sys.mgr) := by
  have hpins := hp.perm (System.pins_perm hv)
  rcases destruct_cases hd with ⟨ho, _, rfl⟩ | ⟨ho, _, p', t', hdr, hun, rfl⟩
  · rw [System.pins_of_idle ho] at hpins
    refine ⟨hpins, fun g hg => ?_, fun _ => rfl⟩
    have ha : (h.alloc.ok && h.alloc.owner) = true := (mem_claimAt hi hg).1
    rw [ha] at ho
    cases ho
  · rw [System.pins_of_armed ho] at hpins
    obtain ⟨hg, hp'⟩ := GivesBack.of (g := h.grant) hpins hdr hun
    refine ⟨hp', fun g hm => ?_, fun hn => ?_⟩
    · obtain ⟨-, rfl⟩ := mem_claimAt hi hm
      exact ⟨p', t', hg, rfl⟩
    · have ha : (h.alloc.ok && h.alloc.owner) = false := claimAt_nil hi hn
      rw [ha] at ho
      cases ho

/-- What a release does to a variable. -/
theorem release_settles (hl : l.Inv) (hp : Pinned key l) {i : Nat} {h : Handle} {al' : Allocation}
    {m' : CacheManager} {ws : List (WorkerId × WorkerAct)} (hi : l.sys.vars[i]? = some h)
    (hr : l.sys.mgr.release key tokens h.alloc ws = .ok (al', m')) :
    PinnedBy key m'.tree (System.pins (l.sys.vars.set i { h with alloc := al' })) ∧
      (∀ g ∈ l.sys.claimAt i, ReleaseSettles key l.sys.mgr m' g) ∧
      (l.sys.claimAt i = [] → SettlesNothing l m' (.release i tokens ws)) := by
  obtain ⟨_, ⟨hok, rfl, rfl⟩ | ⟨hok, rfl, n, t, p, p', t', hins, hdr, hun, hmt⟩⟩ := release_handle hr
  · -- the handle is spent
    have ho : h.armed = false := by
      show (h.alloc.ok && _) = false
      rw [hok]
      rfl
    refine ⟨?_, fun g hg => ?_, fun _ => .inl rfl⟩
    · rw [show l.sys.vars.set i { h with alloc := h.alloc } = _ from System.set_self hi]
      exact hp
    · rw [(mem_claimAt hi hg).1] at ho
      cases ho
  · have hpins := hp.perm (System.pins_perm (System.armed_set hi (System.armed_disarm h)))
    have htree : m'.tree = t' := maintain_tree hmt
    by_cases ho : h.armed = true
    · rw [System.pins_of_armed ho] at hpins
      obtain ⟨hg, hp'⟩ := GivesBack.of (g := h.grant) (hpins.insert hins) hdr hun
      refine ⟨htree.symm ▸ hp', fun g hm => ?_, fun hn => ?_⟩
      · obtain ⟨-, rfl⟩ := mem_claimAt hi hm
        exact ⟨tokens, h.alloc.blocks, ws, n, t, p, p', t', hins, hg, hmt⟩
      · rw [claimAt_nil hi hn] at ho
        cases ho
    · have ho : h.armed = false := Bool.eq_false_of_not_eq_true ho
      have hno : h.alloc.owner = false := by
        have ho : (h.alloc.ok && h.alloc.owner) = false := ho
        rwa [hok, Bool.true_and] at ho
      obtain ⟨hb, hpin⟩ := hl.idle h (List.mem_of_getElem? hi) hok hno
      rw [System.pins_of_idle ho] at hpins
      rw [hpin] at hun
      cases hun
      refine ⟨htree.symm ▸ hpins.insert hins, fun g hm => ?_, fun _ => .inr ⟨h, hi, ?_, hpin⟩⟩
      · rw [(mem_claimAt hi hm).1] at ho
        cases ho
      · unfold Allocation.freshBlocks
        rw [hb, List.drop_nil]

theorem acquire_settles (hp : Pinned key l) {al : Allocation} {m' : CacheManager}
    (h : l.sys.mgr.acquire key tokens = .ok (al, m')) :
    PinnedBy key m'.tree (System.pins (l.sys.vars ++ [⟨al, tokens, l.sys.nextSerial⟩])) ∧
      SettlesNothing l m' (.acquire tokens) := by
  obtain ⟨hpin, hsp⟩ := acquire_holds hp h
  have hnew : (System.pins [⟨al, tokens, l.sys.nextSerial⟩]).Perm al.pinned.toList ∧
      m'.stats.abandoned = l.sys.mgr.stats.abandoned := by
    rcases acquire_counts h with ⟨-, rfl, ht⟩ | ⟨-, rfl, ht⟩ | ⟨-, hok, ho, ht⟩
    all_goals
      simp only [Stats.tally, Prod.mk.injEq] at ht
    · exact ⟨.refl _, ht.2.2.2⟩
    · exact ⟨.refl _, ht.2.2.2⟩
    · refine ⟨.of_eq (System.pins_of_armed ?_), ht.2.2.2⟩
      show (al.ok && al.owner) = true
      rw [hok, ho]
      rfl
  refine ⟨hpin.perm ?_, hsp, hnew.2⟩
  rw [System.pins_append]
  exact List.perm_append_comm.trans (hnew.1.symm.append_left _)

/-- **What each step settles**, and that the tree keeps the pins of the claims that are left. -/
theorem Inv.settles (hl : l.Inv) (hp : Pinned key l) {op : Op} (he : Step key l op l') :
    Pinned key l' ∧ (∀ g ∈ l.sys.releases op, ReleaseSettles key l.sys.mgr l'.sys.mgr g) ∧
    (∀ g ∈ l.sys.abandons op, AbandonSettles l.sys.mgr l'.sys.mgr g) ∧
    (l.sys.releases op = [] → l.sys.abandons op = [] → SettlesNothing l l'.sys.mgr op) := by
  obtain ⟨s', hc, rfl⟩ := next_eq he
  cases op with
  | acquire tokens =>
    obtain ⟨-, ⟨al, m'⟩, ha, rfl⟩ := System.acquire_call hc
    obtain ⟨h1, h2⟩ := acquire_settles hp ha
    exact ⟨h1, nofun, nofun, fun _ _ => h2⟩
  | construct =>
    cases hc
    refine ⟨?_, nofun, nofun, fun _ _ => rfl⟩
    show PinnedBy key _ (System.pins (_ ++ [_]))
    rw [System.pins_append]
    exact (List.append_nil (System.pins l.sys.vars)).symm ▸ hp
  | moveConstruct i =>
    obtain ⟨h, hi, hc⟩ := Option.bind_eq_some_iff.mp hc
    cases hc
    exact ⟨hp.perm ((System.armed_moveConstruct hi).symm.filterMap _), nofun, nofun, fun _ _ => rfl⟩
  | moveAssign i j =>
    obtain ⟨h, hi, hc⟩ := Option.bind_eq_some_iff.mp hc
    obtain ⟨src, hj, hc⟩ := Option.bind_eq_some_iff.mp hc
    simp only [System.abandons]
    split at hc
    · rename_i hij
      cases hc
      rw [if_pos hij]
      exact ⟨hp, nofun, nofun, fun _ _ => rfl⟩
    · rename_i hij
      rw [if_neg hij]
      obtain ⟨⟨al', m'⟩, hd, rfl⟩ := System.call_ok hc
      obtain ⟨h1, h2, h3⟩ := destruct_settles hp hi hd (System.armed_moveAssign hi hj hij)
      exact ⟨h1, nofun, h2, fun _ => h3⟩
  | destroy i =>
    obtain ⟨h, hi, hc⟩ := Option.bind_eq_some_iff.mp hc
    obtain ⟨⟨al', m'⟩, hd, rfl⟩ := System.call_ok hc
    have hv : (System.armed l.sys.vars).Perm
        (System.armed [h] ++ System.armed (l.sys.vars.set i { h with alloc := al' })) := by
      rcases destruct_cases hd with ⟨ho, rfl, _⟩ | ⟨_, rfl, _⟩
      · rw [show l.sys.vars.set i { h with alloc := h.alloc } = _ from System.set_self hi,
          System.armed_of_idle ho, List.nil_append]
      · exact System.armed_set hi rfl
    obtain ⟨h1, h2, h3⟩ := destruct_settles hp hi hd hv
    exact ⟨h1, nofun, h2, fun _ => h3⟩
  | release i tokens ws =>
    obtain ⟨h, hi, hc⟩ := Option.bind_eq_some_iff.mp hc
    obtain ⟨⟨al', m'⟩, hr, rfl⟩ := System.call_ok hc
    obtain ⟨h1, h2, h3⟩ := release_settles hl hp hi hr
    exact ⟨h1, h2, nofun, fun hn _ => h3 hn⟩
  | ready i =>
    obtain ⟨h, hi, hc⟩ := Option.bind_eq_some_iff.mp hc
    obtain ⟨⟨b, m'⟩, hr, rfl⟩ := System.call_ok hc
    obtain rfl | rfl := ready_cases hr
    · exact ⟨hp, nofun, nofun, fun _ _ => ⟨rfl, rfl, rfl⟩⟩
    · exact ⟨hp, nofun, nofun, fun _ _ => ⟨rfl, drain_refcount _, rfl⟩⟩
  | wait =>
    obtain ⟨p, hw, hc⟩ := Option.bind_eq_some_iff.mp hc
    cases hc
    obtain ⟨-, rfl⟩ := waitForMigrations_ok hw
    exact ⟨hp, nofun, nofun, fun _ _ => ⟨rfl, drain_refcount _, rfl⟩⟩
  | worker w act =>
    obtain ⟨p, hw, hc⟩ := Option.bind_eq_some_iff.mp hc
    cases hc
    exact ⟨hp, nofun, nofun, fun _ _ => ⟨rfl, (SameBooks.workerStep hw).refcount, rfl⟩⟩

/-! ## Whole programs -/

variable {specs : List TierSpec} {cfg : CacheConfig} {options : Options}
  {mem : Arena.Mem TierIndex UInt8} {m₀ : CacheManager} {tr : List Op}

theorem start_inv (h0 : CacheManager.create specs cfg options mem = .ok m₀) :
    Inv { sys := System.start m₀ } := by
  have hstats : m₀.stats = {} := by
    unfold CacheManager.create at h0
    simp only [bind, Except.bind, pure, Except.pure] at h0
    split at h0
    · cases h0
    split at h0
    · cases h0
    cases h0
    rfl
  refine ⟨.refl _, List.nodup_nil, nofun, ?_, ?_, nofun⟩
  · show m₀.stats.abandoned = 0
    rw [hstats]
  · show m₀.stats.requests = m₀.stats.served + m₀.stats.allocFailures
    rw [hstats]
    rfl

theorem start_pinned (h0 : CacheManager.create specs cfg options mem = .ok m₀) :
    Pinned key { sys := System.start m₀ } := by
  obtain ⟨-, hbt, ht, -⟩ := System.create_ok h0
  refine ⟨?_, ?_, nofun⟩
  · show WF key m₀.tree
    rw [ht]
    exact wf_new key hbt
  · show LockOK [] m₀.tree.places
    rw [ht]
    exact nofun

/-- **Each claim is settled exactly once.**  After any program over handle variables every claim a
served request was granted is with one live handle, or was released, or was abandoned, and never
two of these; the counters agree, and the lock counts are those of the live claims' pins.  A
settlement lowers the references and the lock counts by what was granted, and no other call gives
anything of a claim back.  When releases are called with tokens that agree with the acquired ones,
no call of the program fails. -/
theorem settled_once (h0 : CacheManager.create specs cfg options mem = .ok m₀)
    (hrun : Run (Step key) { sys := System.start m₀ } tr l) :
    l.Balanced ∧
    (∀ op l', Step key l op l' →
      (∀ g ∈ l.sys.releases op, ReleaseSettles key l.sys.mgr l'.sys.mgr g) ∧
      (∀ g ∈ l.sys.abandons op, AbandonSettles l.sys.mgr l'.sys.mgr g) ∧
      (l.sys.releases op = [] → l.sys.abandons op = [] → SettlesNothing l l'.sys.mgr op)) ∧
    ((specs.map (·.numBlocks)).sum < 2 ^ 32 → ∀ tr' s, Run (System.Step key) (System.start m₀) tr' s →
      ∀ op r, s.next key op = some r → ∃ s', r = .ok s') := by
  obtain ⟨hl, hp⟩ : l.Inv ∧ Pinned key l :=
    hrun.invariant (I := fun l => l.Inv ∧ Pinned key l)
      (fun _ _ _ hi hs => ⟨hi.1.next hs, (hi.1.settles hi.2 hs).1⟩)
      ⟨start_inv h0, start_pinned h0⟩
  refine ⟨hl.balanced hp, fun op l' he => (hl.settles hp he).2, fun hfit tr' s hr op r he => ?_⟩
  obtain ⟨s', hs, _⟩ := System.next_spec (System.reach h0 hfit hr) he
  exact ⟨s', hs⟩

/-- One handle is released twice, one is overwritten by a move, and the handle moved there is
dropped; a request is refused, and an empty one is released. -/
def settleTrace : List Op :=
  [.acquire [1, 2, 3, 4], .release 0 [1, 2, 3, 4] [], .release 0 [1, 2, 3, 4] [],
    .acquire [1, 2, 3], .acquire [5, 6], .moveAssign 1 2, .moveAssign 1 1, .release 2 [9] [],
    .destroy 1, .acquire [1, 2, 3, 4, 5, 6, 7, 8, 9, 10, 11, 12], .acquire [], .release 4 [7] []]

theorem settled_once_trace : ∃ (l : Ledger),
    l.granted.map (·.serial) = [0, 1, 2] ∧ l.released.map (·.serial) = [0] ∧
    l.abandoned.map (·.serial) = [1, 2] ∧ l.sys.mgr.stats.abandoned = 2 ∧ l.Balanced := by
  have hs : ((CacheManager.create System.twoTierSpecs System.twoTierConfig {}
      (fun _ _ => 0)).toOption.bind fun m₀ =>
      (exec (next blockKey) { sys := System.start m₀ } settleTrace).map fun l =>
        (l.granted.map (·.serial), l.released.map (·.serial), l.abandoned.map (·.serial),
          l.sys.mgr.stats.abandoned)) = some ([0, 1, 2], [0], [1, 2], 2) := by
    decide +kernel
  obtain ⟨m₀, h0, hm⟩ := Option.bind_eq_some_iff.mp hs
  obtain ⟨l, hx, he⟩ := Option.map_eq_some_iff.mp hm
  obtain ⟨hg, hn⟩ := Prod.mk.inj he
  obtain ⟨hr, hn⟩ := Prod.mk.inj hn
  obtain ⟨ha, hc⟩ := Prod.mk.inj hn
  exact ⟨l, hg, hr, ha, hc, (settled_once (toOption_eq_some h0) (run_of_exec hx)).1⟩

end Ledger

end KvsLab
