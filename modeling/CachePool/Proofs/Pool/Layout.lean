import CachePool.Pool.Model
import CachePool.Proofs.Action
import CachePool.Proofs.Pool.Stack
import Mathlib.Data.List.Range

/-!
# The layout of a pool

Between two calls every node of a pool lies on exactly one of its stacks: the free
nodes hold no payload, the occupied ones hold the parked payloads in order, and the
idle count says how many these are. Taking a payload out moves the top node from
the occupied to the free stack, and parking one moves a node the other way, so
neither of the pool's own expectations is ever broken.
-/

namespace CachePool

namespace Pool

variable {μ τ : Type}

/-- The stacks hold the given nodes, and the occupied ones hold the given payloads. -/
structure Laid (p : Pool τ) (fs os : List NodeId) (parked : List τ) : Prop where
  free : p.free.Holds p.tails fs
  occupied : p.occupied.Holds p.tails os
  nodes : (fs ++ os).Perm (List.range p.capacity.val)
  vacant : ∀ n ∈ fs, p.slots.get n = none
  filled : os.map p.slots.get = parked.map some
  idle : p.idle.toNat = parked.length

/-- The pool on a plain list. -/
def model (p : Pool τ) : PoolModel τ where
  capacity := p.capacity.val
  parked := p.parked
  stats := p.stats

/-- Every node of the pool is on one stack, with a payload exactly if that is the occupied one. -/
def Sound (p : Pool τ) : Prop := ∃ fs os, Laid p fs os p.parked

variable {p : Pool τ} {fs os : List NodeId} {parked rest : List τ} {n : NodeId}
  {payload : τ} {m : μ}

namespace Laid

/-- Each occupied node holds one of the parked payloads. -/
theorem occupied_length (h : Laid p fs os parked) : os.length = parked.length := by
  simpa using congrArg List.length h.filled

/-- The free nodes make up for the payloads that could still be parked. -/
theorem free_length (h : Laid p fs os parked) :
    fs.length + parked.length = p.capacity.val := by
  have hlength := h.nodes.length_eq
  rw [List.length_append, h.occupied_length, List.length_range] at hlength
  exact hlength

/-- No node lies on both stacks. -/
theorem apart (h : Laid p fs os parked) (hn : n ∈ fs) : n ∉ os := by
  have hnodup := h.nodes.nodup_iff.mpr List.nodup_range
  exact fun ho => (List.nodup_append.mp hnodup).2.2 n hn n ho rfl

/-- The walk along the occupied stack meets the parked payloads. -/
theorem parked_eq (h : Laid p fs os parked) : p.parked = parked := by
  have hbound : os.length ≤ p.capacity.val := by
    have hlength := h.free_length
    rw [h.occupied_length]
    omega
  have hwalk : p.parked = (follow p.tails.get p.capacity.val os.head?).filterMap p.slots.get := by
    rw [Pool.parked, h.occupied.head]
    cases os <;> rfl
  rw [hwalk, h.occupied.follow_eq hbound]
  have hfilled := congrArg (List.filterMap id) h.filled
  simpa [List.filterMap_map] using hfilled

theorem model_eq (h : Laid p fs os parked) :
    p.model = { capacity := p.capacity.val, parked, stats := p.stats } := by
  rw [model, h.parked_eq]

theorem sound (h : Laid p fs os parked) : p.Sound := by
  rw [← h.parked_eq] at h
  exact ⟨fs, os, h⟩

end Laid

/-- The tails of a new pool lead from any node down to the first one. -/
theorem path_ofCapacity (capacity : Size) {k : Nat} (hk : k ≤ capacity.val) :
    Path (ofCapacity (τ := τ) capacity).tails.get (List.range k).reverse
      (List.range k).reverse.head? none := by
  induction k with
  | zero => rfl
  | succ k ih =>
    have hlink : (ofCapacity (τ := τ) capacity).tails.get k = (List.range k).reverse.head? := by
      rw [List.head?_reverse, List.getLast?_range, ofCapacity, Table.get_ofList,
        List.getD_eq_getElem?_getD, List.getElem?_map, List.getElem?_range hk]
      rfl
    rw [List.range_succ, List.reverse_concat]
    refine ⟨rfl, ?_⟩
    rw [hlink]
    exact ih (by omega)

/-- A new pool parks nothing, and all its nodes are free. -/
theorem laid_ofCapacity (capacity : Size) :
    Laid (ofCapacity (τ := τ) capacity) (List.range capacity.val).reverse [] [] where
  free := by
    refine ⟨(List.reverse_perm _).nodup_iff.mpr List.nodup_range, ?_,
      path_ofCapacity capacity (Nat.le_refl _)⟩
    have hpos : capacity.val ≠ 0 := Nat.pos_iff_ne_zero.mp capacity.pos
    rw [List.head?_reverse, List.getLast?_range, if_neg hpos]
    rfl
  occupied := ClaimStack.holds_empty _
  nodes := by
    rw [List.append_nil]
    exact List.reverse_perm _
  vacant := fun n _ => Table.get_empty n
  filled := rfl
  idle := rfl

/-- The rules on a plain list start where a new pool does. -/
theorem model_ofCapacity (capacity : Size) :
    (ofCapacity (τ := τ) capacity).model = PoolModel.ofCapacity capacity := by
  rw [(laid_ofCapacity capacity).model_eq]
  rfl

/-- Take the payload parked last out of the pool, if there is one. -/
def unpark : Action (Pool τ × μ) (Option τ) := do
  match ← popOccupied with
  | none => return none
  | some n =>
    modify fun (p, m) => ({ p with idle := p.idle - 1 }, m)
    let payload ← exchange n none
    pushFree n
    match payload with
    | none => throw .occupiedNodeVacant
    | some payload => return some payload

/-- Each round of an acquire takes a payload out and judges it. -/
theorem acquireParked_succ (manager : Manager μ τ) (fuel : Nat) :
    acquireParked manager (fuel + 1) = (do
      match ← unpark with
      | none => build manager
      | some payload =>
        if ← manager.askAbout payload manager.canReuse then
          return payload
        else
          discard manager payload
          acquireParked manager fuel) := by
  rw [acquireParked, unpark]
  simp only [bind_assoc]
  congr 1
  funext top
  cases top with
  | none => rfl
  | some n =>
    simp only [bind_assoc]
    congr 1
    funext _
    congr 1
    funext payload
    cases payload with
    | none => rfl
    | some payload => rfl

theorem popOccupied_nil (h : p.occupied.Holds p.tails []) :
    popOccupied (p, m) = .ok none (p, m) := by
  simp only [popOccupied, h.pop_nil]

theorem popOccupied_cons (h : p.occupied.Holds p.tails (n :: os)) : popOccupied (p, m) =
    .ok (some n) ({ p with occupied := .below os, tails := p.tails.set n none }, m) := by
  simp only [popOccupied, h.pop_cons]

theorem pushFree_eq (h : p.free.Holds p.tails fs) : pushFree n (p, m) =
    .ok () ({ p with free := { head := .node n }, tails := p.tails.set n fs.head? }, m) := by
  simp only [pushFree, h.push_eq]

theorem popFree_nil (h : p.free.Holds p.tails []) : popFree (p, m) = .ok none (p, m) := by
  simp only [popFree, h.pop_nil]

theorem popFree_cons (h : p.free.Holds p.tails (n :: fs)) : popFree (p, m) =
    .ok (some n) ({ p with free := .below fs, tails := p.tails.set n none }, m) := by
  simp only [popFree, h.pop_cons]

theorem pushOccupied_eq (h : p.occupied.Holds p.tails os) : pushOccupied n (p, m) =
    .ok () ({ p with occupied := { head := .node n }, tails := p.tails.set n os.head? }, m) := by
  simp only [pushOccupied, h.push_eq]

theorem exchange_eq (p : Pool τ) (m : μ) (n : NodeId) (payload : Option τ) :
    exchange n payload (p, m) =
      .ok (p.slots.get n) ({ p with slots := p.slots.set n payload }, m) := rfl

/-- A write to the slot of a node outside a list leaves the payloads of the list alone. -/
theorem map_slots_set {slots : Table (Option τ)} (hn : n ∉ os) (content : Option τ) :
    os.map (slots.set n content).get = os.map slots.get := by
  apply List.map_congr_left
  intro k hk
  apply Table.get_set_ne
  rintro rfl
  exact hn hk

namespace Laid

/-- The payload parked last is taken out, and its node becomes free. -/
theorem unpark (h : Laid p fs (n :: os) (payload :: rest)) :
    ∃ p', Pool.unpark (p, m) = .ok (some payload) (p', m) ∧ Laid p' (n :: fs) os rest ∧
      p'.capacity = p.capacity ∧ p'.stats = p.stats := by
  obtain ⟨hslot, hslots⟩ := List.cons.inj h.filled
  have hnf : n ∉ fs := fun hn => h.apart hn List.mem_cons_self
  have hno : n ∉ os := (List.nodup_cons.mp h.occupied.nodup).1
  have hfree : p.free.Holds (p.tails.set n none) fs := h.free.set hnf none
  refine ⟨{ p with
      free := { head := .node n }
      occupied := .below os
      tails := (p.tails.set n none).set n fs.head?
      slots := p.slots.set n none
      idle := p.idle - 1 }, ?_, ?_, rfl, rfl⟩
  · rw [Pool.unpark, Action.bind_ok (popOccupied_cons h.occupied)]
    simp only [Action.modify_bind]
    rw [Action.bind_ok (exchange_eq _ m n none), Action.bind_ok (pushFree_eq hfree)]
    simp only [hslot]
    rfl
  · have hone : (1 : UInt64) ≤ p.idle := by
      rw [UInt64.le_iff_toNat_le, h.idle]
      simp
    exact {
      free := hfree.push hnf
      occupied := h.occupied.pop.set hno _
      nodes := List.perm_middle.symm.trans h.nodes
      vacant := by
        intro k hk
        rw [Table.get_set]
        by_cases hkn : k = n
        · rw [if_pos hkn]
        · rw [if_neg hkn]
          exact h.vacant k (List.mem_of_ne_of_mem hkn hk)
      filled := by
        rw [map_slots_set hno]
        exact hslots
      idle := by
        change (p.idle - 1).toNat = _
        rw [UInt64.toNat_sub_of_le _ _ hone, h.idle]
        simp }

/-- A payload is parked in the node on top of the free ones. -/
theorem park (h : Laid p (n :: fs) os parked) (manager : Manager μ τ) (payload : τ) :
    ∃ p', Pool.park manager payload (p, m) = .ok () (p', m) ∧
      Laid p' fs (n :: os) (payload :: parked) ∧
      p'.capacity = p.capacity ∧ p'.stats = p.stats := by
  have hno : n ∉ os := h.apart List.mem_cons_self
  have hnf : n ∉ fs := (List.nodup_cons.mp h.free.nodup).1
  have hslot : p.slots.get n = none := h.vacant n List.mem_cons_self
  have hoccupied : p.occupied.Holds (p.tails.set n none) os := h.occupied.set hno none
  refine ⟨{ p with
      free := .below fs
      occupied := { head := .node n }
      tails := (p.tails.set n none).set n os.head?
      slots := p.slots.set n (some payload)
      idle := p.idle + 1 }, ?_, ?_, rfl, rfl⟩
  · rw [Pool.park, Action.bind_ok (popFree_cons h.free)]
    simp only [Action.modify_bind]
    rw [Action.bind_ok (exchange_eq _ m n (some payload))]
    simp only [hslot]
    exact pushOccupied_eq hoccupied
  · have hroom : p.idle.toNat + 1 < 2 ^ 64 := by
      have hlength := h.free_length
      have hsize : p.capacity.val < 2 ^ 64 := p.capacity.lt
      rw [List.length_cons] at hlength
      rw [h.idle]
      omega
    exact {
      free := h.free.pop.set hnf _
      occupied := hoccupied.push hno
      nodes := List.perm_middle.trans h.nodes
      vacant := by
        intro k hk
        rw [Table.get_set_ne]
        · exact h.vacant k (List.mem_cons_of_mem n hk)
        · rintro rfl
          exact hnf hk
      filled := by
        rw [List.map_cons, List.map_cons, Table.get_set_self, map_slots_set hno, h.filled]
      idle := by
        change (p.idle + 1).toNat = _
        rw [UInt64.toNat_add, List.length_cons, ← h.idle]
        exact Nat.mod_eq_of_lt hroom }

end Laid

namespace Sound

theorem length_le (h : p.Sound) : p.parked.length ≤ p.capacity.val := by
  obtain ⟨fs, os, h⟩ := h
  have hlength := h.free_length
  omega

theorem idle_eq (h : p.Sound) : p.idle.toNat = p.parked.length := by
  obtain ⟨fs, os, h⟩ := h
  exact h.idle

/-- An event that is counted moves no payload. -/
theorem counted (h : p.Sound) (stats : PoolCounts) : Sound { p with stats } := by
  obtain ⟨fs, os, h⟩ := h
  exact ⟨fs, os, h.free, h.occupied, h.nodes, h.vacant, h.filled, h.idle⟩

/-- From a pool that parks nothing, nothing is taken. -/
theorem unpark_nil (h : p.Sound) (hp : p.parked = []) :
    Pool.unpark (p, m) = .ok none (p, m) := by
  obtain ⟨fs, os, h⟩ := h
  have hos : os = [] := by
    apply List.eq_nil_of_length_eq_zero
    rw [h.occupied_length, hp]
    rfl
  subst hos
  rw [Pool.unpark, Action.bind_ok (popOccupied_nil h.occupied)]
  rfl

/-- The payload parked last is the first one taken. -/
theorem unpark_cons (h : p.Sound) (hp : p.parked = payload :: rest) :
    ∃ p', Pool.unpark (p, m) = .ok (some payload) (p', m) ∧ p'.Sound ∧
      p'.capacity = p.capacity ∧ p'.model = { p.model with parked := rest } := by
  obtain ⟨fs, os, h⟩ := h
  rw [hp] at h
  cases os with
  | nil => cases h.filled
  | cons n os =>
    obtain ⟨p', hrun, hlaid, hcapacity, hstats⟩ := h.unpark (m := m)
    refine ⟨p', hrun, hlaid.sound, hcapacity, ?_⟩
    rw [hlaid.model_eq, hcapacity, hstats]
    rfl

/-- A pool that is full destroys what it should park. -/
theorem park_full (h : p.Sound) (hp : ¬ p.parked.length < p.capacity.val)
    (manager : Manager μ τ) (payload : τ) :
    Pool.park manager payload (p, m) = Pool.discard manager payload (p, m) := by
  obtain ⟨fs, os, h⟩ := h
  have hfs : fs = [] := by
    apply List.eq_nil_of_length_eq_zero
    have hlength := h.free_length
    omega
  subst hfs
  rw [Pool.park, Action.bind_ok (popFree_nil h.free)]

/-- A pool that is not full parks a payload in front of the others. -/
theorem park_room (h : p.Sound) (hp : p.parked.length < p.capacity.val)
    (manager : Manager μ τ) (payload : τ) :
    ∃ p', Pool.park manager payload (p, m) = .ok () (p', m) ∧ p'.Sound ∧
      p'.capacity = p.capacity ∧ p'.model = { p.model with parked := payload :: p.parked } := by
  obtain ⟨fs, os, h⟩ := h
  cases fs with
  | nil =>
    have hlength := h.free_length
    rw [List.length_nil] at hlength
    omega
  | cons n fs =>
    obtain ⟨p', hrun, hlaid, hcapacity, hstats⟩ := h.park (m := m) manager payload
    refine ⟨p', hrun, hlaid.sound, hcapacity, ?_⟩
    rw [hlaid.model_eq, hcapacity, hstats]
    rfl

end Sound

end Pool

end CachePool
