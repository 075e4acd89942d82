import CachePool.Cache.Basic
import CachePool.Proofs.Index.Chains
import CachePool.Proofs.Recency.Sequence

/-!
# Sketches of a cache

A sketch draws a cache with plain sequences in the place of its links and chains,
and with unbounded numbers in the place of its counters. An action carries one
sketch to another if it takes every cache that the first one depicts to a cache
that the second one depicts, and stops at an overflow exactly when a counter of the
second one does not fit its word. Actions are composed by their sketches alone.
-/

namespace CachePool

open Metrics

namespace Metrics.Counter

/-- The measurement only ever grows. The others follow the sizes of the generations. -/
def grows : Counter → Bool
  | youngSize | oldSize | oldCapacity => false
  | _ => true

end Metrics.Counter

/-- A cache with sequences of nodes for its lists and its index, and numbers for its counters. -/
structure Sketch (κ α : Type) where
  config : CacheConfig
  hasher : Hasher κ
  /-- The nodes of the young generation, the most recently used first. -/
  young : List NodeId := []
  /-- The nodes of the old generation, the most recently used first. -/
  old : List NodeId := []
  /-- The indexed nodes, the most recently added first; none while the index names freed nodes. -/
  order : Option (List NodeId) := some []
  entries : NodeId → Option (Entry κ α) := fun _ => none
  unused : NodeId := 0
  /-- What was counted by each counter that grows. -/
  counts : Counter → Nat := fun _ => 0
  /-- The size of the young generation when it was last measured. -/
  youngSize : Nat := 0
  /-- The size of the old generation when it was last measured. -/
  oldSize : Nat := 0

namespace Sketch

variable {κ α : Type}

/-- The sequence of a generation. -/
def side (s : Sketch κ α) : Generation → List NodeId
  | .young => s.young
  | .old => s.old

/-- The sketch with the sequence of a generation replaced. -/
def withSide (s : Sketch κ α) (g : Generation) (ns : List NodeId) : Sketch κ α :=
  match g with
  | .young => { s with young := ns }
  | .old => { s with old := ns }

/-- The slots of a generation. -/
def slots (s : Sketch κ α) : Generation → Nat
  | .young => s.config.youngCapacity.val
  | .old => s.config.oldCapacity.val

/-- The sketch with the entry of a node replaced. -/
def write (s : Sketch κ α) (n : NodeId) (e : Option (Entry κ α)) : Sketch κ α :=
  { s with entries := fun m => if m = n then e else s.entries m }

/-- The sketch with counters raised. -/
def raise (s : Sketch κ α) (raised : List Counter) : Sketch κ α :=
  { s with counts := fun c => s.counts c + raised.count c }

/-- The sketch with the sizes of the generations measured. -/
def gauge (s : Sketch κ α) : Sketch κ α :=
  { s with youngSize := s.young.length, oldSize := s.old.length }

/-! A change of places, entries or counters leaves the rest of a sketch alone. -/

@[simp] theorem withSide_config (s : Sketch κ α) (g : Generation) (ns : List NodeId) :
    (s.withSide g ns).config = s.config := by
  cases g <;> rfl

@[simp] theorem withSide_hasher (s : Sketch κ α) (g : Generation) (ns : List NodeId) :
    (s.withSide g ns).hasher = s.hasher := by
  cases g <;> rfl

@[simp] theorem withSide_order (s : Sketch κ α) (g : Generation) (ns : List NodeId) :
    (s.withSide g ns).order = s.order := by
  cases g <;> rfl

@[simp] theorem write_config (s : Sketch κ α) (n : NodeId) (e : Option (Entry κ α)) :
    (s.write n e).config = s.config := rfl

@[simp] theorem write_hasher (s : Sketch κ α) (n : NodeId) (e : Option (Entry κ α)) :
    (s.write n e).hasher = s.hasher := rfl

@[simp] theorem write_order (s : Sketch κ α) (n : NodeId) (e : Option (Entry κ α)) :
    (s.write n e).order = s.order := rfl

@[simp] theorem raise_config (s : Sketch κ α) (raised : List Counter) :
    (s.raise raised).config = s.config := rfl

@[simp] theorem raise_hasher (s : Sketch κ α) (raised : List Counter) :
    (s.raise raised).hasher = s.hasher := rfl

@[simp] theorem raise_order (s : Sketch κ α) (raised : List Counter) :
    (s.raise raised).order = s.order := rfl

@[simp] theorem gauge_config (s : Sketch κ α) : s.gauge.config = s.config := rfl

@[simp] theorem gauge_hasher (s : Sketch κ α) : s.gauge.hasher = s.hasher := rfl

@[simp] theorem gauge_order (s : Sketch κ α) : s.gauge.order = s.order := rfl

/-- Every counter fits its word. -/
def Fits (s : Sketch κ α) : Prop := ∀ c : Counter, c.grows → s.counts c < UInt64.size

/-- The node is in no generation. -/
def Loose (s : Sketch κ α) (n : NodeId) : Prop := n ∉ s.young ∧ n ∉ s.old

/-- The cache is threaded, chained, filled and counted as the sketch says. -/
structure Depicts (s : Sketch κ α) (c : Cache κ α) : Prop where
  config : c.config = s.config.normalized
  young : c.young.Holds c.links s.young
  youngCapacity : c.young.capacity = s.config.youngCapacity
  old : c.old.Holds c.links s.old
  oldCapacity : c.old.capacity = s.config.oldCapacity
  apart : ∀ n ∈ s.young, n ∉ s.old
  index : ∀ order, s.order = some order → c.index.Indexes c.chain c.entries.get order
  hasher : c.index.hasher = s.hasher
  entries : c.entries.get = s.entries
  unused : c.unused = s.unused
  fresh : ∀ n, s.unused ≤ n → s.entries n = none
  filled : ∀ n, n ∈ s.young ∨ n ∈ s.old → ∃ e, s.entries n = some e
  counts : ∀ counter : Counter, counter.grows → (c.metrics.get counter).toNat = s.counts counter
  youngSize : c.metrics.youngSize.toNat = s.youngSize
  oldSize : c.metrics.oldSize.toNat = s.oldSize
  oldSlots : c.metrics.oldCapacity = s.config.oldCapacity.toWord

/-- The counters of a depicted cache fit their words. -/
theorem Depicts.fits {s : Sketch κ α} {c : Cache κ α} (h : s.Depicts c) : s.Fits := by
  intro counter hgrows
  rw [← h.counts counter hgrows]
  exact UInt64.toNat_lt _

/-- The sketch of a new cache. -/
def ofConfig (config : CacheConfig) (hasher : Hasher κ) : Sketch κ α := { config, hasher }

/-- A new cache is empty in every respect. -/
theorem depicts_ofConfig (config : CacheConfig) (hasher : Hasher κ) :
    (ofConfig config hasher : Sketch κ α).Depicts (Cache.ofConfig config hasher) where
  config := rfl
  young := RecencyList.holds_empty _ _
  youngCapacity := rfl
  old := RecencyList.holds_empty _ _
  oldCapacity := rfl
  apart := by simp [ofConfig]
  index := by
    rintro order he
    obtain rfl : [] = order := Option.some.inj he
    exact KeyIndex.indexes_nil rfl (fun bucket => Table.get_empty bucket) _ _
  hasher := rfl
  entries := funext fun n => Table.get_empty n
  unused := rfl
  fresh := fun _ _ => rfl
  filled := by simp [ofConfig]
  counts := by
    intro counter hgrows
    cases counter <;> first | rfl | cases hgrows
  youngSize := rfl
  oldSize := rfl
  oldSlots := rfl

/-- The action answers, and takes every cache of the first sketch to one of the second, unless a
counter of the second does not fit its word: then it stops at the overflow. -/
structure Carries {ρ : Type} (x : Action (Cache κ α) ρ) (s : Sketch κ α) (a : ρ)
    (s' : Sketch κ α) : Prop where
  le : ∀ c, s.counts c ≤ s'.counts c
  ok : s'.Fits → ∀ c, s.Depicts c → ∃ c', x c = .ok a c' ∧ s'.Depicts c'
  overflow : ¬ s'.Fits → ∀ c, s.Depicts c → ∃ c', x c = .error .additionOverflow c'

namespace Carries

variable {ρ σ : Type} {x : Action (Cache κ α) ρ} {f : ρ → Action (Cache κ α) σ}
  {s s' s'' : Sketch κ α} {a : ρ} {b : σ}

/-- Counters that fit after a growth fitted before it. -/
theorem fits (h : Carries x s a s') (hf : s'.Fits) : s.Fits :=
  fun c hc => Nat.lt_of_le_of_lt (h.le c) (hf c hc)

/-- An action that answers on every depicted cache and counts nothing. -/
theorem of_ok (hcounts : s'.counts = s.counts)
    (h : ∀ c, s.Depicts c → ∃ c', x c = .ok a c' ∧ s'.Depicts c') : Carries x s a s' where
  le := fun c => by rw [hcounts]
  ok := fun _ c hc => h c hc
  overflow := by
    intro hfits c hc
    exact (hfits fun counter hgrows => by rw [hcounts]; exact hc.fits counter hgrows).elim

/-- An action that leaves the cache alone. -/
theorem of_eq (h : ∀ c, s.Depicts c → x c = .ok a c) : Carries x s a s :=
  of_ok rfl fun c hc => ⟨c, h c hc, hc⟩

/-- To give an answer carries every sketch to itself. -/
theorem pure (a : ρ) (s : Sketch κ α) : Carries (Pure.pure a) s a s := of_eq fun _ _ => rfl

/-- Two actions in a row carry along the sketches in a row. -/
theorem bind (hx : Carries x s a s') (hf : Carries (f a) s' b s'') : Carries (x >>= f) s b s'' where
  le := fun c => Nat.le_trans (hx.le c) (hf.le c)
  ok := by
    intro hfits c hc
    obtain ⟨c', hxc, hc'⟩ := hx.ok (hf.fits hfits) c hc
    rw [Action.bind_ok hxc]
    exact hf.ok hfits c' hc'
  overflow := by
    intro hfits c hc
    by_cases hmid : s'.Fits
    · obtain ⟨c', hxc, hc'⟩ := hx.ok hmid c hc
      rw [Action.bind_ok hxc]
      exact hf.overflow hfits c' hc'
    · obtain ⟨c', hxc⟩ := hx.overflow hmid c hc
      exact ⟨c', Action.bind_error hxc⟩

/-- A function of the answer carries along. -/
theorem map {g : ρ → σ} (hx : Carries x s a s') : Carries (g <$> x) s (g a) s' where
  le := hx.le
  ok := by
    intro hfits c hc
    obtain ⟨c', hxc, hc'⟩ := hx.ok hfits c hc
    exact ⟨c', Action.map_ok hxc, hc'⟩
  overflow := by
    intro hfits c hc
    obtain ⟨c', hxc⟩ := hx.overflow hfits c hc
    exact ⟨c', Action.map_error hxc⟩

end Carries

end Sketch

end CachePool
