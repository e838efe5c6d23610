import NanoExchange.Engine.Equivalence

/-!
# The representation invariant of the map book

`MapBook.Sound` states the invariant over the book in memory: its two maps, the
links of the orders and the client index, with no reference to a ladder.  It
holds after every run.
-/

namespace NanoExchange

open Lib

namespace OrderBook

/-- The order `o` is found at address `p` in the queue of a level. -/
def QueuedAt {Lv P : Type} [LevelTable Lv] (b : OrderBook Lv P)
    (s : Side) (k : Price) (p : Ptr) (o : OrderInfo) : Prop :=
  ∃ l, b.Queue s k l ∧ p ∈ l ∧ b.heap.info p = some o

end OrderBook

namespace MapBook

/-- The invariant that ties the maps, the queues and the index together. -/
structure Sound {P : Type} (b : MapBook P) : Prop where
  /-- No price is mapped to an empty level. -/
  levels_nonempty : ∀ s k level,
    (b.levels.side s).find? k = some level → level.head ≠ none
  /-- Walking a level from either end visits the same orders in opposite
  orders, and they are orders of that level. -/
  queues : ∀ s k, ∃ l, b.Queue s k l ∧ b.QueueBack s k l.reverse ∧
    ∀ p ∈ l, ∃ o, b.heap.info p = some o ∧ o.side = s ∧ o.price = k
  /-- No order is met twice in one queue. -/
  queue_nodup : ∀ s k l, b.Queue s k l → l.Nodup
  /-- No order sits in two queues. -/
  one_queue : ∀ s k s' k' p o o',
    b.QueuedAt s k p o → b.QueuedAt s' k' p o' → s = s' ∧ k = k'
  /-- The index holds exactly the queued orders, under their own ids. -/
  index : ∀ c i p, b.orders.find c i = some p ↔
    ∃ s k o, b.QueuedAt s k p o ∧ o.clientId = c ∧ o.clientOrderId = i
  /-- No client is mapped to an empty map. -/
  clients_nonempty : b.orders.NoEmpty
  /-- Only GoodTillCancel orders with shares left rest. -/
  resting : ∀ s k p o, b.QueuedAt s k p o →
    o.orderType = .goodTillCancel ∧ 0 < o.remainingQuantity ∧
      o.remainingQuantity ≤ o.initialQuantity
  /-- Market order ids tell resting orders apart. -/
  ids_distinct : ∀ s k p o s' k' p' o',
    b.QueuedAt s k p o → b.QueuedAt s' k' p' o' →
      o.marketOrderId = o'.marketOrderId → p = p'
  /-- Market order ids are below the counter. -/
  ids_below : ∀ s k p o, b.QueuedAt s k p o →
    o.marketOrderId < b.nextMarketOrderId
  /-- Along a queue, market order ids increase from head to tail. -/
  ids_increase : ∀ s k os, b.Fifo s k os →
    (os.map OrderInfo.marketOrderId).Pairwise (· < ·)

end MapBook

namespace LRep

variable {P : Type} [ObjectPool P] {b : MapBook P} {L : Located}

/-- The queued orders are the located ones. -/
theorem queuedAt_iff
    (h : LRep b L) {s : Side} {k : Price} {p : Ptr} {o : OrderInfo} :
    b.QueuedAt s k p o ↔ (p, o) ∈ L s ∧ o.price = k := by
  have hqueue := (h.queue s (k := k) trivial).1
  constructor
  · rintro ⟨l, hl, hp, hinfo⟩
    obtain rfl := hl.unique hqueue
    obtain ⟨e, he, rfl, rfl⟩ := Located.mem_ptrs.mp hp
    obtain rfl : e.2 = o :=
      Option.some.inj ((h.info s e he).symm.trans hinfo)
    exact ⟨he, rfl⟩
  · rintro ⟨he, rfl⟩
    exact ⟨_, hqueue, Located.mem_ptrs.mpr ⟨(p, o), he, rfl, rfl⟩,
      h.info s (p, o) he⟩

theorem sound
    (h : LRep b L) {A : Ladder} (hA : L.Shows A)
    (hnext : A.nextMarketOrderId = b.nextMarketOrderId) (hwf : A.WF)
    (hids : A.Ids) :
    MapBook.Sound b where
  levels_nonempty s k level hlevel := by
    have hends : L.contents s k = some (level.head, level.tail) := by
      have hcontents : MapLevels.Holds b.levels L.contents := h.levels
      rw [← hcontents s k, hlevel]
      rfl
    exact Located.head_ne_none_of_ends hends
  queues s k := by
    obtain ⟨hforward, hback⟩ := h.queue s (k := k) trivial
    refine ⟨_, hforward, hback, fun p hp => ?_⟩
    obtain ⟨e, he, rfl, hprice⟩ := Located.mem_ptrs.mp hp
    exact ⟨e.2, h.info s e he, (h.placed s e he).1, hprice⟩
  queue_nodup s k l hl := by
    rw [hl.unique (h.queue s (k := k) trivial).1]
    exact h.ptrs_nodup s k
  one_queue s k s' k' p o o' hq hq' := by
    obtain ⟨he, hk⟩ := h.queuedAt_iff.mp hq
    obtain ⟨he', hk'⟩ := h.queuedAt_iff.mp hq'
    obtain ⟨heq, hs⟩ := h.unique he he' rfl
    obtain rfl : o = o' := (Prod.ext_iff.mp heq).2
    exact ⟨hs, hk.symm.trans hk'⟩
  index c i p := by
    rw [h.index]
    constructor
    · rintro ⟨s, e, he, rfl, hkey⟩
      obtain ⟨hc, hi⟩ := Prod.ext_iff.mp hkey
      exact ⟨s, e.2.price, e.2, h.queuedAt_iff.mpr ⟨he, rfl⟩, hc, hi⟩
    · rintro ⟨s, k, o, hq, rfl, rfl⟩
      exact ⟨s, (p, o), (h.queuedAt_iff.mp hq).1, rfl, rfl⟩
  clients_nonempty := h.noEmpty
  resting s k p o hq := by
    have ho := Ladder.mem_orders_of_side (hA.mem (h.queuedAt_iff.mp hq).1)
    exact ⟨hwf.orderType o ho, hwf.quantity o ho⟩
  ids_distinct s k p o s' k' p' o' hq hq' heq := by
    have he := (h.queuedAt_iff.mp hq).1
    have he' := (h.queuedAt_iff.mp hq').1
    obtain rfl : o = o' := List.inj_on_of_nodup_map hids.nodup
      (Ladder.mem_orders_of_side (hA.mem he))
      (Ladder.mem_orders_of_side (hA.mem he')) heq
    exact (Prod.ext_iff.mp (h.key_unique he he' rfl)).1
  ids_below s k p o hq := by
    rw [← hnext]
    exact hids.below o
      (Ladder.mem_orders_of_side (hA.mem (h.queuedAt_iff.mp hq).1))
  ids_increase s k os hos := by
    obtain ⟨l, hl, hmap⟩ := hos
    obtain rfl := hl.unique (h.queue s (k := k) trivial).1
    have hos : os = queueAt OrderInfo.price (A.side s) k := by
      rw [h.map_info_ptrs] at hmap
      have hmap := List.map_injective_iff.mpr (Option.some_injective _) hmap
      rw [← hmap, hA s, queueAt, queueAt, List.filter_map]
      rfl
    rw [hos, List.pairwise_map, queueAt]
    refine List.Pairwise.imp_of_mem ?_ ((hids.fifo s).filter _)
    intro x y hx hy hxy
    refine hxy ?_
    have hxk := of_decide_eq_true (List.mem_filter.mp hx).2
    have hyk := of_decide_eq_true (List.mem_filter.mp hy).2
    rw [hxk, hyk]

end LRep

/-- **The representation invariant of the map book** holds after every run of
fewer than `2^63` requests that bring new client order ids, unless the pool
runs out of objects. -/
theorem map_book_sound
    (P : Type) [ObjectPool P] (size : Nat) (n : OrderId)
    {rs : List MEClientRequest} (hfresh : FreshKeys rs)
    (hlen : rs.length < 2 ^ 63) :
    SucceedsWith (OrderBook.run MapLevels P size n rs)
      fun s => MapBook.Sound s.1 := by
  refine (MapBook.run_refines P size n hfresh).imp ?_
  rintro ⟨b, ch⟩ ⟨⟨L, hL, hA, hnext⟩, -⟩
  exact hL.sound hA hnext (Ladder.run_wf n hfresh)
    (Ladder.run_ids n hfresh (length_lt_wordSize hlen))

/-- Two asks of one price, of which a bid takes the first. -/
theorem map_book_sound_example :
    (OrderBook.run MapLevels ScanPool 4 1
        [.make .new 1 0 1 .goodTillCancel .sell 100 5,
          .make .new 1 0 2 .goodTillCancel .sell 100 5,
          .make .new 2 0 1 .goodTillCancel .buy 101 7]).isOk = true ∧
      SucceedsWith (OrderBook.run MapLevels ScanPool 4 1
        [.make .new 1 0 1 .goodTillCancel .sell 100 5,
          .make .new 1 0 2 .goodTillCancel .sell 100 5,
          .make .new 2 0 1 .goodTillCancel .buy 101 7])
        fun s => MapBook.Sound s.1 :=
  ⟨by decide, map_book_sound ScanPool 4 1 (by decide) (by decide)⟩

end NanoExchange
