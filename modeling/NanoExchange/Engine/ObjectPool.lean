import NanoExchange.Types
import Mathlib.Data.Set.Insert

/-!
# The object pool

Resting orders live in a `quantlink::ObjectPool<MEOrder>`, which is not part of
this repository.  The order books use two of its operations, and rely on
nothing but this: an object that is handed out is not in use, and an object
that is returned is free again.  The interface records this as fields, with
the ghost set `live` of the addresses currently handed out.

`ScanPool` is a small concrete pool, used to evaluate the books.
-/

namespace NanoExchange

/-- What the order books rely on of `quantlink::ObjectPool`. -/
class ObjectPool (P : Type) where
  create : Nat → P
  allocate : P → Option (Ptr × P)
  deallocate : P → Ptr → P
  live : P → Set Ptr
  live_create : ∀ size, live (create size) = ∅
  fresh : ∀ {pool pool' : P} {p : Ptr},
    allocate pool = some (p, pool') → p ∉ live pool
  live_allocate : ∀ {pool pool' : P} {p : Ptr},
    allocate pool = some (p, pool') → live pool' = insert p (live pool)
  live_deallocate : ∀ (pool : P) (p : Ptr),
    live (deallocate pool p) = live pool \ {p}

/-- A pool that hands out the lowest free address. -/
structure ScanPool where
  size : Nat
  used : List Ptr

namespace ScanPool

/-- The lowest address below `size` that is not in use. -/
def allocate (pool : ScanPool) : Option (Ptr × ScanPool) :=
  match (List.range pool.size).find? fun p => p ∉ pool.used with
  | some p => some (p, { pool with used := p :: pool.used })
  | none => none

/-- Return an address to the pool. -/
def deallocate (pool : ScanPool) (p : Ptr) : ScanPool :=
  { pool with used := pool.used.filter fun q => q ≠ p }

theorem allocate_eq_some
    {pool pool' : ScanPool} {p : Ptr}
    (h : pool.allocate = some (p, pool')) :
    p ∉ pool.used ∧ pool' = { pool with used := p :: pool.used } := by
  unfold allocate at h
  split at h
  · rename_i q hq
    obtain ⟨rfl, rfl⟩ := Prod.mk.inj (Option.some.inj h)
    have hfree := List.find?_some hq
    exact ⟨by simpa using hfree, rfl⟩
  · cases h

instance : ObjectPool ScanPool where
  create size := ⟨size, []⟩
  allocate := allocate
  deallocate := deallocate
  live pool := {p | p ∈ pool.used}
  live_create size := by
    ext p
    simp
  fresh h := (allocate_eq_some h).1
  live_allocate h := by
    obtain ⟨-, rfl⟩ := allocate_eq_some h
    ext q
    simp
  live_deallocate pool p := by
    ext q
    simp [deallocate]

end ScanPool

end NanoExchange
