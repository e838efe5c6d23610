import NanoExchange.Engine.MatchingEngine
import Mathlib.Data.Set.Card

/-!
# What the object pool is used for

Every object that a book takes from its pool is the object of a resting order,
and goes back to the pool when the order leaves the book: `remove` is the only
way out, and both paths of `replaceOrder` and every fill go through it.
`Tight` is the invariant that says so; with it the number of objects in use is
the number of resting orders.
-/

namespace NanoExchange

open Lib

/-- The pools that come of a pool of `size` objects. -/
inductive ObjectPool.Of {P : Type} [ObjectPool P] (size : Nat) : P → Prop
  | create : Of size (ObjectPool.create size)
  | allocate {pool pool' : P} {p : Ptr} (h : Of size pool)
      (halloc : ObjectPool.allocate pool = some (p, pool')) : Of size pool'
  | deallocate {pool : P} (h : Of size pool) (p : Ptr) :
      Of size (ObjectPool.deallocate pool p)

/-- A pool that hands out objects as long as not all of them are in use. -/
class BoundedPool (P : Type) [ObjectPool P] : Prop where
  exhausted_iff : ∀ {size : Nat} {pool : P}, ObjectPool.Of size pool →
    (ObjectPool.allocate pool = none ↔ size ≤ (ObjectPool.live pool).ncard)

namespace OrderBook

section Heap

variable {h h' : Heap} {level level' : PriceLevel} {order : MEOrder}

/-- Links are no part of what an object is about. -/
theorem info_write_same
    {p : Ptr} {o o' : MEOrder} (ho : h p = some o) (hinfo : o'.info = o.info) :
    (h.write p o').info = h.info := by
  funext q
  rw [Heap.info_write]
  by_cases hq : q = p
  · subst hq
    rw [if_pos rfl, hinfo, Heap.info, ho, Option.map_some]
  · rw [if_neg hq]

theorem info_of_read {p : Ptr} {o : MEOrder} (ho : h.read p = .ok o) :
    h p = some o := by
  unfold Heap.read at ho
  cases hp : h p with
  | none =>
      rw [hp] at ho
      cases ho
  | some o' =>
      rw [hp] at ho
      obtain rfl := Except.ok.inj ho
      rfl

theorem info_unlinkPrev
    (hun : unlinkPrev h level order = .ok (h', level')) :
    h'.info = h.info := by
  unfold unlinkPrev at hun
  split at hun
  · obtain ⟨o, ho, hw⟩ := ok_of_bind hun
    obtain ⟨rfl, -⟩ := Prod.mk.inj (Except.ok.inj hw)
    exact info_write_same (info_of_read ho) rfl
  · obtain ⟨rfl, -⟩ := Prod.mk.inj (Except.ok.inj hun)
    rfl

theorem info_unlinkNext
    (hun : unlinkNext h level order = .ok (h', level')) :
    h'.info = h.info := by
  unfold unlinkNext at hun
  split at hun
  · obtain ⟨o, ho, hw⟩ := ok_of_bind hun
    obtain ⟨rfl, -⟩ := Prod.mk.inj (Except.ok.inj hw)
    exact info_write_same (info_of_read ho) rfl
  · obtain ⟨rfl, -⟩ := Prod.mk.inj (Except.ok.inj hun)
    rfl

theorem info_linkBack
    {p : Ptr} (hlink : linkBack h level p = .ok (h', level')) :
    h'.info = h.info := by
  unfold linkBack at hlink
  split at hlink
  · obtain ⟨rfl, -⟩ := Prod.mk.inj (Except.ok.inj hlink)
    rfl
  · split at hlink
    · cases hlink
    · obtain ⟨o, ho, hrest⟩ := ok_of_bind hlink
      obtain ⟨last, hlast, hw⟩ := ok_of_bind hrest
      obtain ⟨rfl, -⟩ := Prod.mk.inj (Except.ok.inj hw)
      have hfirst : (h.write p { o with prev := level.tail }).info = h.info :=
        info_write_same (info_of_read ho) rfl
      rw [← hfirst]
      exact info_write_same (info_of_read hlast) rfl

end Heap

section Shrinks

variable {Lv P : Type} [ObjectPool P] {size : Nat} {b b' : OrderBook Lv P}

/-- An object is in use exactly if there is an order in it, and every order is
found by its client. -/
structure Tight (size : Nat) (b : OrderBook Lv P) : Prop where
  pool : ObjectPool.Of size b.pool
  live : ∀ p, p ∈ ObjectPool.live b.pool ↔ ∃ o, b.heap.info p = some o
  indexed : ∀ p o, b.heap.info p = some o →
    b.orders.find o.clientId o.clientOrderId = some p

/-- The operation keeps a book tight, and brings no order. -/
structure Shrinks (b b' : OrderBook Lv P) : Prop where
  tight : ∀ size, b.Tight size → b'.Tight size
  find : ∀ c i, b.orders.find c i = none → b'.orders.find c i = none

theorem Shrinks.refl (b : OrderBook Lv P) : b.Shrinks b where
  tight _ h := h
  find _ _ h := h

theorem Shrinks.trans
    {b'' : OrderBook Lv P} (h : b.Shrinks b') (h' : b'.Shrinks b'') :
    b.Shrinks b'' where
  tight size ht := h'.tight size (h.tight size ht)
  find c i hnone := h'.find c i (h.find c i hnone)

theorem shrinks_bump (b : OrderBook Lv P) : b.Shrinks b.bumpMarketOrderId where
  tight _ h := ⟨h.pool, h.live, h.indexed⟩
  find _ _ h := h

/-- Another quantity is written into an object. -/
theorem shrinks_write
    {p : Ptr} {o : MEOrder} (ho : b.heap p = some o) (q : Quantity) :
    b.Shrinks { b with
      heap := b.heap.write p { o with info := o.info.withRemaining q } } where
  tight size h := by
    have hp : b.heap.info p = some o.info := by
      rw [Heap.info, ho, Option.map_some]
    constructor
    · exact h.pool
    · intro p'
      rw [h.live]
      dsimp only
      rw [Heap.info_write]
      by_cases hpp : p' = p
      · subst hpp
        simp [hp]
      · rw [if_neg hpp]
    · intro p' o' ho'
      dsimp only at ho' ⊢
      rw [Heap.info_write] at ho'
      by_cases hpp : p' = p
      · subst hpp
        rw [if_pos rfl] at ho'
        obtain rfl := Option.some.inj ho'
        exact h.indexed p' o.info hp
      · rw [if_neg hpp] at ho'
        exact h.indexed p' o' ho'
  find _ _ h := h

end Shrinks

section Operations

variable {Lv P : Type} [LevelTable Lv] [ObjectPool P] {size : Nat}
  {b b' : OrderBook Lv P}

theorem Tight.init (size : Nat) :
    (OrderBook.init size : OrderBook Lv P).Tight size where
  pool := .create
  live p := by
    simp [OrderBook.init, ObjectPool.live_create, Heap.info]
  indexed p o ho := by
    simp [OrderBook.init, Heap.info] at ho

/-- **`remove` gives the object back.** -/
theorem shrinks_remove {p : Ptr} (hb' : b.remove p = .ok b') :
    b.Shrinks b' := by
  obtain ⟨order, horder, hb'⟩ := ok_of_bind hb'
  obtain ⟨level, -, hb'⟩ := ok_of_bind hb'
  obtain ⟨⟨h₁, level₁⟩, hun₁, hb'⟩ := ok_of_bind hb'
  obtain ⟨⟨h₂, level₂⟩, hun₂, hb'⟩ := ok_of_bind hb'
  obtain rfl := Except.ok.inj hb'
  have hinfo : h₂.info = b.heap.info :=
    (info_unlinkNext hun₂).trans (info_unlinkPrev hun₁)
  have hfree : ∀ q, (h₂.free p).info q =
      if q = p then none else b.heap.info q := by
    intro q
    rw [Heap.info, Heap.free_apply, ← hinfo]
    by_cases hq : q = p
    · rw [if_pos hq, if_pos hq, Option.map_none]
    · rw [if_neg hq, if_neg hq, Heap.info]
  have hp : b.heap.info p = some order.info := by
    rw [Heap.info, info_of_read horder, Option.map_some]
  constructor
  · intro size h
    constructor
    · exact h.pool.deallocate p
    · intro q
      dsimp only
      rw [ObjectPool.live_deallocate, hfree]
      by_cases hq : q = p
      · simp [hq]
      · simpa [hq] using h.live q
    · intro q o hq
      dsimp only at hq ⊢
      rw [hfree] at hq
      by_cases hqp : q = p
      · rw [if_pos hqp] at hq
        cases hq
      · rw [if_neg hqp] at hq
        have hfind := h.indexed q o hq
        rw [NestedIndex.find_unset, if_neg]
        · exact hfind
        · rintro ⟨hc, hi⟩
          have hfind' := h.indexed p order.info hp
          rw [hc, hi, hfind] at hfind'
          exact hqp (Option.some.inj hfind')
  · intro c i hnone
    dsimp only
    rw [NestedIndex.find_unset]
    split
    · rfl
    · exact hnone

/-- **`insert` takes one object**, for an order that its client does not have
yet. -/
theorem Tight.insert
    (h : b.Tight size) {a : OrderArgs}
    (hnew : b.orders.find a.clientId a.clientOrderId = none)
    (hb' : b.insert a = .ok b') :
    b'.Tight size := by
  unfold OrderBook.insert at hb'
  split at hb'
  · cases hb'
  · rename_i p pool halloc
    obtain ⟨levels, -, hb'⟩ := ok_of_bind hb'
    obtain ⟨level, -, hb'⟩ := ok_of_bind hb'
    obtain ⟨⟨h₁, level₁⟩, hlink, hb'⟩ := ok_of_bind hb'
    obtain rfl := Except.ok.inj hb'
    have hinfo : ∀ q, h₁.info q =
        if q = p then some a.toInfo else b.heap.info q := by
      intro q
      rw [info_linkBack hlink, Heap.info_write]
    have hfree : b.heap.info p = none := by
      rw [Option.eq_none_iff_forall_ne_some]
      intro o ho
      exact ObjectPool.fresh halloc ((h.live p).mpr ⟨o, ho⟩)
    constructor
    · exact h.pool.allocate halloc
    · intro q
      dsimp only
      rw [ObjectPool.live_allocate halloc, hinfo, Set.mem_insert_iff]
      by_cases hq : q = p
      · simp [hq]
      · simpa [hq] using h.live q
    · intro q o hq
      dsimp only at hq ⊢
      rw [hinfo] at hq
      rw [NestedIndex.find_set]
      by_cases hqp : q = p
      · rw [if_pos hqp] at hq
        obtain rfl := Option.some.inj hq
        rw [if_pos ⟨rfl, rfl⟩, hqp]
      · rw [if_neg hqp] at hq
        have hfind := h.indexed q o hq
        rw [if_neg]
        · exact hfind
        · rintro ⟨hc, hi⟩
          rw [← hc, ← hi, hnew] at hfind
          cases hfind

theorem shrinks_matchLevel
    (a : OrderArgs) (level : Price) {fuel : Nat} {ch ch' : Channel}
    {q q' : Quantity}
    (hmatch : matchLevel a level fuel b ch q = .ok (b', ch', q')) :
    b.Shrinks b' := by
  induction fuel generalizing b ch q with
  | zero => cases hmatch
  | succ fuel ih =>
      rw [matchLevel] at hmatch
      obtain ⟨head, -, hmatch⟩ := ok_of_bind hmatch
      cases head with
      | none =>
          obtain ⟨rfl, -⟩ := Prod.mk.inj (Except.ok.inj hmatch)
          exact .refl b
      | some p =>
          dsimp only at hmatch
          split at hmatch
          · obtain ⟨rfl, -⟩ := Prod.mk.inj (Except.ok.inj hmatch)
            exact .refl b
          · obtain ⟨resting, hread, hmatch⟩ := ok_of_bind hmatch
            obtain ⟨remaining, -, hmatch⟩ := ok_of_bind hmatch
            obtain ⟨left, -, hmatch⟩ := ok_of_bind hmatch
            have hwrite := shrinks_write (info_of_read hread) left
            refine hwrite.trans ?_
            split at hmatch
            · obtain ⟨b₁, hb₁, hmatch⟩ := ok_of_bind hmatch
              exact (shrinks_remove hb₁).trans (ih hmatch)
            · exact ih hmatch

theorem shrinks_matchAgainst
    (a : OrderArgs) {fuel : Nat} {ch ch' : Channel} {q q' : Quantity}
    (hmatch : matchAgainst a fuel b ch q = .ok (b', ch', q')) :
    b.Shrinks b' := by
  induction fuel generalizing b ch q with
  | zero => cases hmatch
  | succ fuel ih =>
      rw [matchAgainst] at hmatch
      split at hmatch
      · obtain ⟨rfl, -⟩ := Prod.mk.inj (Except.ok.inj hmatch)
        exact .refl b
      · split at hmatch
        · obtain ⟨rfl, -⟩ := Prod.mk.inj (Except.ok.inj hmatch)
          exact .refl b
        · split at hmatch
          · obtain ⟨⟨b₁, ch₁, q₁⟩, hlevel, hmatch⟩ := ok_of_bind hmatch
            exact (shrinks_matchLevel a _ hlevel).trans (ih hmatch)
          · obtain ⟨rfl, -⟩ := Prod.mk.inj (Except.ok.inj hmatch)
            exact .refl b

/-- `match` brings no order, and gives back the objects of those it fills. -/
theorem shrinks_matchOrder
    {a : OrderArgs} {ch ch' : Channel} {q : Quantity}
    (hmatch : b.matchOrder ch a = .ok (b', ch', q)) :
    b.Shrinks b' :=
  shrinks_matchAgainst a hmatch

/-- `cancelOrder` takes no object. -/
theorem shrinks_cancelWith
    {leaves : Quantity → Quantity → Quantity}
    {ch ch' : Channel} {t : TickerId} {c : ClientId} {i : OrderId}
    {qty : Quantity} {token : OrderToken}
    (hok : b.cancelWith leaves ch t c i qty token = .ok (b', ch')) :
    b.Shrinks b' := by
  unfold OrderBook.cancelWith at hok
  split at hok
  · obtain ⟨rfl, -⟩ := Prod.mk.inj (Except.ok.inj hok)
    exact .refl b
  · split at hok
    · obtain ⟨rfl, -⟩ := Prod.mk.inj (Except.ok.inj hok)
      exact .refl b
    · obtain ⟨order, horder, hok⟩ := ok_of_bind hok
      dsimp only at hok
      generalize (if qty = 0 then order.info.remainingQuantity else qty) =
        canceled at hok
      split at hok
      · obtain ⟨rfl, -⟩ := Prod.mk.inj (Except.ok.inj hok)
        exact .refl b
      · obtain ⟨left, -, hok⟩ := ok_of_bind hok
        refine (shrinks_write (info_of_read horder) left).trans ?_
        split at hok
        · obtain ⟨b₁, hb₁, hok⟩ := ok_of_bind hok
          obtain ⟨rfl, -⟩ := Prod.mk.inj (Except.ok.inj hok)
          exact shrinks_remove hb₁
        · obtain ⟨rfl, -⟩ := Prod.mk.inj (Except.ok.inj hok)
          exact .refl _

end Operations

end OrderBook

namespace ScanPool

variable {pool pool' : ScanPool} {p : Ptr}

theorem allocate_lt (h : pool.allocate = some (p, pool')) :
    p < pool.size := by
  unfold allocate at h
  cases hfind : (List.range pool.size).find? fun p => p ∉ pool.used with
  | none =>
      rw [hfind] at h
      cases h
  | some q =>
      rw [hfind] at h
      obtain ⟨rfl, -⟩ := Prod.mk.inj (Option.some.inj h)
      exact List.mem_range.mp (List.mem_of_find?_eq_some hfind)

theorem allocate_eq_none :
    pool.allocate = none ↔
      (Finset.range pool.size : Set Ptr) ⊆ {p | p ∈ pool.used} := by
  unfold allocate
  cases hfind : (List.range pool.size).find? fun p => p ∉ pool.used with
  | none =>
      refine ⟨fun _ q hq => ?_, fun _ => rfl⟩
      have hused := List.find?_eq_none.mp hfind q
        (List.mem_range.mpr (Finset.mem_range.mp hq))
      simpa using hused
  | some q =>
      refine ⟨fun h => (Option.some_ne_none _ h).elim, fun hsub => ?_⟩
      have hlt := List.mem_range.mp (List.mem_of_find?_eq_some hfind)
      have hfree := List.find?_some hfind
      have hused := hsub (Finset.mem_range.mpr hlt)
      exact absurd hused (by simpa using hfree)

/-- What is in use of a `ScanPool` are addresses below its size. -/
theorem bounds {size : Nat} (h : ObjectPool.Of size pool) :
    pool.size = size ∧ ∀ p ∈ pool.used, p < size := by
  induction h with
  | create => exact ⟨rfl, by simp [ObjectPool.create]⟩
  | allocate h halloc ih =>
      obtain ⟨-, rfl⟩ := allocate_eq_some halloc
      refine ⟨ih.1, ?_⟩
      intro q hq
      rcases List.mem_cons.mp hq with rfl | hq
      · rw [← ih.1]
        exact allocate_lt halloc
      · exact ih.2 q hq
  | deallocate h p ih =>
      exact ⟨ih.1, fun q hq => ih.2 q (List.mem_of_mem_filter hq)⟩

instance : BoundedPool ScanPool where
  exhausted_iff {size pool} h := by
    obtain ⟨hsize, hused⟩ := bounds h
    have hsub : ObjectPool.live pool ⊆ (Finset.range size : Set Ptr) := by
      intro p hp
      exact Finset.mem_coe.mpr (Finset.mem_range.mpr (hused p hp))
    have hcard : (Finset.range size : Set Ptr).ncard = size := by
      rw [Set.ncard_coe_finset, Finset.card_range]
    have hnone : ObjectPool.allocate pool = none ↔
        (Finset.range size : Set Ptr) ⊆ ObjectPool.live pool := by
      rw [← hsize]
      exact allocate_eq_none
    rw [hnone]
    constructor
    · intro hfull
      rw [hsub.antisymm hfull, hcard]
    · intro hle
      have heq := Set.eq_of_subset_of_ncard_le hsub (by rwa [hcard])
      exact heq.ge

end ScanPool

section Count

variable {Lv P : Type} [LevelTable Lv] [LawfulLevels Lv] [ObjectPool P]
  {size : Nat} {b : OrderBook Lv P} {A : Ladder}

open OrderBook

/-- **The objects in use are those of the resting orders.** -/
theorem OrderBook.Tight.live_iff
    (h : b.Tight size) {L : Located} (hL : LRep b L) (p : Ptr) :
    p ∈ ObjectPool.live b.pool ↔ ∃ s, ∃ e ∈ L s, e.1 = p := by
  constructor
  · intro hp
    obtain ⟨o, ho⟩ := (h.live p).mp hp
    obtain ⟨s, e, he, hpe, -⟩ := (hL.index _ _ p).mp (h.indexed p o ho)
    exact ⟨s, e, he, hpe⟩
  · rintro ⟨s, e, he, rfl⟩
    exact hL.live s e he

/-- So there are as many of them as orders. -/
theorem OrderBook.Tight.ncard_live
    (h : b.Tight size) (hrep : Rep b A) :
    (ObjectPool.live b.pool).ncard = A.orders.length := by
  obtain ⟨L, hL, hshows, -⟩ := hrep
  have hset : ObjectPool.live b.pool =
      ((L .buy ++ L .sell).map Prod.fst).toFinset := by
    ext p
    rw [h.live_iff hL]
    rw [SetLike.mem_coe, List.mem_toFinset, List.mem_map]
    simp only [List.mem_append]
    constructor
    · rintro ⟨s, e, he, rfl⟩
      cases s with
      | buy => exact ⟨e, .inl he, rfl⟩
      | sell => exact ⟨e, .inr he, rfl⟩
    · rintro ⟨e, he | he, rfl⟩
      · exact ⟨.buy, e, he, rfl⟩
      · exact ⟨.sell, e, he, rfl⟩
  have hnodup : ((L .buy ++ L .sell).map Prod.fst).Nodup := by
    rw [List.map_append, List.nodup_append]
    refine ⟨hL.nodup .buy, hL.nodup .sell, ?_⟩
    rintro p hp q hq rfl
    obtain ⟨e, he, rfl⟩ := List.mem_map.mp hp
    obtain ⟨e', he', hee⟩ := List.mem_map.mp hq
    cases (hL.unique he he' hee.symm).2
  rw [hset, Set.ncard_coe_finset, List.toFinset_card_of_nodup hnodup,
    List.length_map, List.length_append, Ladder.orders, List.length_append,
    hshows .buy, hshows .sell, List.length_map, List.length_map]

/-- The index knows no order that does not rest. -/
theorem Rep.find_eq_none
    (h : Rep b A) {c : ClientId} {i : OrderId}
    (hnew : ∀ o ∈ A.orders, o.key ≠ (c, i)) :
    b.orders.find c i = none := by
  cases hfind : b.orders.find c i with
  | none => rfl
  | some p =>
      obtain ⟨mo, -, hmo⟩ := h.find_some hfind
      obtain ⟨ho, hkey⟩ := Ladder.mem_of_find? hmo
      exact absurd hkey (hnew mo.info ho)

/-- `insert` fails only if the pool has no object left. -/
theorem Rep.allocate_eq_none
    (h : Rep b A) {a : OrderArgs} (hvalid : LawfulLevels.Valid Lv a.price)
    (hfresh : ∀ o ∈ A.orders, o.key ≠ a.toInfo.key) {e : Fault}
    (hfail : b.insert a = .error e) :
    ObjectPool.allocate b.pool = none := by
  obtain ⟨L, hL, hshows, -⟩ := h
  cases halloc : ObjectPool.allocate b.pool with
  | none => rfl
  | some r =>
      have hfreshL : ∀ s, ∀ e ∈ L s, e.2.key ≠ a.toInfo.key := fun s e he =>
        hfresh e.2 (Ladder.mem_orders.mpr ⟨s, hshows.mem he⟩)
      obtain ⟨b', hb', -⟩ := hL.insert_of_allocate hvalid hfreshL halloc
      cases hfail.symm.trans hb'

/-- A bounded pool never has more objects in use than it was made with. -/
theorem ObjectPool.Of.ncard_le
    [BoundedPool P] {pool : P} (h : ObjectPool.Of size pool) :
    (ObjectPool.live pool).Finite ∧ (ObjectPool.live pool).ncard ≤ size := by
  induction h with
  | create =>
      rw [ObjectPool.live_create, Set.ncard_empty]
      exact ⟨Set.finite_empty, Nat.zero_le size⟩
  | @allocate pool pool' p h halloc ih =>
      have hroom : ¬ size ≤ (ObjectPool.live pool).ncard := by
        intro hfull
        rw [(BoundedPool.exhausted_iff h).mpr hfull] at halloc
        cases halloc
      rw [ObjectPool.live_allocate halloc,
        Set.ncard_insert_of_notMem (ObjectPool.fresh halloc) ih.1]
      exact ⟨ih.1.insert p, by omega⟩
  | @deallocate pool h p ih =>
      rw [ObjectPool.live_deallocate]
      exact ⟨ih.1.subset Set.sdiff_subset,
        (Set.ncard_le_ncard Set.sdiff_subset ih.1).trans ih.2⟩

/-- An order can only be inserted at a price that the level table can hold. -/
theorem OrderBook.valid_of_insert
    {a : OrderArgs} {b' : OrderBook Lv P} (hb' : b.insert a = .ok b') :
    LawfulLevels.Valid Lv a.price := by
  unfold OrderBook.insert at hb'
  split at hb'
  · cases hb'
  · obtain ⟨levels, -, hb'⟩ := ok_of_bind hb'
    obtain ⟨level, hfetch, -⟩ := ok_of_bind hb'
    exact LawfulLevels.valid_of_fetch hfetch

end Count

end NanoExchange
