import NanoExchange.Engine.BookRefinement

/-!
# Reading a book

What can be read off a book in memory without knowing how it came about: the
queue of a level, as a walk along the links meets it, and the orders in it.
A book that represents a ladder shows, at each price, the orders of the ladder
with that price, and the best price of the ladder.
-/

namespace NanoExchange

open Lib

namespace Heap

/-- One step along `next_`. -/
def stepNext (h : Heap) (p : Ptr) : Option (Option Ptr) :=
  (h p).map MEOrder.next

/-- One step along `prev_`. -/
def stepPrev (h : Heap) (p : Ptr) : Option (Option Ptr) :=
  (h p).map MEOrder.prev

end Heap

namespace OrderBook

variable {Lv P : Type} [LevelTable Lv]

/-- Walking the level of a price from its head visits `l`. -/
def Queue (b : OrderBook Lv P) (s : Side) (k : Price) (l : List Ptr) : Prop :=
  ∃ level, LevelTable.fetch b.levels s k = .ok level ∧
    Walk b.heap.stepNext level.head l

/-- Walking the level of a price from its tail visits `l`. -/
def QueueBack (b : OrderBook Lv P) (s : Side) (k : Price) (l : List Ptr) :
    Prop :=
  ∃ level, LevelTable.fetch b.levels s k = .ok level ∧
    Walk b.heap.stepPrev level.tail l

/-- The first-in-first-out list of the orders that rest at a price. -/
def Fifo (b : OrderBook Lv P) (s : Side) (k : Price) (os : List OrderInfo) :
    Prop :=
  ∃ l, b.Queue s k l ∧ l.map b.heap.info = os.map some

/-- The order `o` rests at a price. -/
def Rests (b : OrderBook Lv P) (s : Side) (k : Price) (o : OrderInfo) :
    Prop :=
  ∃ os, b.Fifo s k os ∧ o ∈ os

/-- `orders_[c][i]` points to the order `o`. -/
def Indexes (b : OrderBook Lv P) (c : ClientId) (i : OrderId)
    (o : OrderInfo) : Prop :=
  ∃ p, b.orders.find c i = some p ∧ b.heap.info p = some o

/-- `l` lists the orders that rest on a side: best price first, and at each
price in the order of the queue. -/
structure Lists (b : OrderBook Lv P) (s : Side) (l : List OrderInfo) :
    Prop where
  sorted : InPriority s.precedes OrderInfo.price l
  queues : ∀ k os, b.Fifo s k os → queueAt OrderInfo.price l k = os
  rests : ∀ o ∈ l, b.Rests s o.price o

/-- A level has one queue. -/
theorem Queue.unique
    {b : OrderBook Lv P} {s : Side} {k : Price} {l l' : List Ptr}
    (h : b.Queue s k l) (h' : b.Queue s k l') :
    l = l' := by
  obtain ⟨level, hf, hw⟩ := h
  obtain ⟨level', hf', hw'⟩ := h'
  obtain rfl : level = level' := Except.ok.inj (hf.symm.trans hf')
  exact hw.unique hw'

/-- A level has one list of orders. -/
theorem Fifo.unique
    {b : OrderBook Lv P} {s : Side} {k : Price} {os os' : List OrderInfo}
    (h : b.Fifo s k os) (h' : b.Fifo s k os') :
    os = os' := by
  obtain ⟨l, hq, hmap⟩ := h
  obtain ⟨l', hq', hmap'⟩ := h'
  obtain rfl := hq.unique hq'
  exact List.map_injective_iff.mpr (Option.some_injective _)
    (hmap.symm.trans hmap')

/-- A side has one list. -/
theorem Lists.unique
    {b : OrderBook Lv P} {s : Side} {l l' : List OrderInfo}
    (h : b.Lists s l) (h' : b.Lists s l') :
    l = l' := by
  have hsub : ∀ {m m' : List OrderInfo}, b.Lists s m → b.Lists s m' →
      ∀ k, queueAt OrderInfo.price m k ≠ [] →
        queueAt OrderInfo.price m k = queueAt OrderInfo.price m' k := by
    intro m m' hm hm' k hne
    obtain ⟨o, ho⟩ := List.exists_mem_of_ne_nil _ hne
    obtain ⟨hmem, hk⟩ := List.mem_filter.mp ho
    obtain ⟨os, hos, -⟩ := hm.rests o hmem
    rw [of_decide_eq_true hk] at hos
    rw [hm.queues k os hos, hm'.queues k os hos]
  refine eq_of_queueAt h.sorted h'.sorted fun k => ?_
  by_cases hne : queueAt OrderInfo.price l k = []
  · by_contra hdiff
    have hne' : queueAt OrderInfo.price l' k ≠ [] :=
      fun hnil => hdiff (hne.trans hnil.symm)
    exact hdiff (hsub h' h k hne').symm
  · exact hsub h h' k hne

end OrderBook

variable {Lv P : Type} [LevelTable Lv] [LawfulLevels Lv] [ObjectPool P]
variable {b : OrderBook Lv P}

namespace LRep

variable {L : Located}

/-- The level of a price has the ends of its queue. -/
theorem fetch
    (h : LRep b L) (s : Side) {k : Price} (hk : LawfulLevels.Valid Lv k) :
    ∃ level, LevelTable.fetch b.levels s k = .ok level ∧
      level.head = (L.ptrs s k).head? ∧
      level.tail = (L.ptrs s k).getLast? := by
  cases hE : L.contents s k with
  | none =>
      obtain ⟨level, hfetch, hhead, htail⟩ :=
        LawfulLevels.fetch_closed h.levels hk hE
      rw [Located.contents, Located.ends_eq_none] at hE
      exact ⟨level, hfetch, by rw [hhead, hE]; rfl, by rw [htail, hE]; rfl⟩
  | some e =>
      obtain ⟨level, hfetch, hhead, htail, -⟩ :=
        LawfulLevels.fetch_ok h.levels hk hE
      have hne : L.ptrs s k ≠ [] := by
        intro hnil
        rw [Located.contents, Located.ends_eq_none.mpr hnil] at hE
        cases hE
      rw [Located.contents, Located.ends_of_ne_nil hne] at hE
      obtain rfl := Option.some.inj hE
      exact ⟨level, hfetch, hhead, htail⟩

/-- The queue of a level, walked from either end. -/
theorem queue
    (h : LRep b L) (s : Side) {k : Price} (hk : LawfulLevels.Valid Lv k) :
    b.Queue s k (L.ptrs s k) ∧ b.QueueBack s k (L.ptrs s k).reverse := by
  obtain ⟨level, hfetch, hhead, htail⟩ := h.fetch s hk
  have hread : ∀ {β : Type} (f : MEOrder → Option β), ∀ p ∈ L.ptrs s k,
      (b.heap p).map f = some ((b.heap p).bind f) := by
    intro β f p hp
    obtain ⟨mo, hmo⟩ := h.read hp
    rw [hmo]
    rfl
  refine ⟨⟨level, hfetch, ?_⟩, ⟨level, hfetch, ?_⟩⟩
  · rw [hhead]
    exact Walk.forward (h.linked s k) (hread MEOrder.next)
  · rw [htail]
    exact Walk.backward (h.linked s k) (hread MEOrder.prev)

/-- The orders at the addresses of a queue. -/
theorem map_info_ptrs
    (h : LRep b L) (s : Side) (k : Price) :
    (L.ptrs s k).map b.heap.info =
      ((queueAt slotPrice (L s) k).map Prod.snd).map some := by
  rw [Located.ptrs, List.map_map, List.map_map]
  refine List.map_congr_left fun e he => ?_
  exact h.info s e (List.mem_of_mem_filter he)

end LRep

namespace Rep

variable {A : Ladder}

/-- **The book shows the orders of the ladder at every price.** -/
theorem fifo
    (h : Rep b A) (s : Side) {k : Price} (hk : LawfulLevels.Valid Lv k) :
    b.Fifo s k (queueAt OrderInfo.price (A.side s) k) := by
  obtain ⟨L, hL, hA, -⟩ := h
  refine ⟨L.ptrs s k, (hL.queue s hk).1, ?_⟩
  rw [hL.map_info_ptrs, hA s, queueAt, queueAt, List.filter_map]
  rfl

/-- The orders of the ladder have prices that the table can hold. -/
theorem valid
    (h : Rep b A) {s : Side} {o : OrderInfo} (ho : o ∈ A.side s) :
    LawfulLevels.Valid Lv o.price := by
  obtain ⟨L, hL, hA, -⟩ := h
  obtain ⟨p, hp⟩ := hA.exists_mem ho
  exact (hL.placed s (p, o) hp).2

/-- Every order of the ladder rests at its price. -/
theorem rests
    (h : Rep b A) {s : Side} {o : OrderInfo} (ho : o ∈ A.side s) :
    b.Rests s o.price o :=
  ⟨_, h.fifo s (h.valid ho), List.mem_filter.mpr ⟨ho, by simp⟩⟩

/-- What rests at a price is an order of the ladder. -/
theorem mem_of_rests
    (h : Rep b A) {s : Side} {k : Price} {o : OrderInfo}
    (ho : b.Rests s k o) :
    o ∈ A.side s ∧ o.price = k := by
  obtain ⟨os, hfifo, hmem⟩ := ho
  obtain ⟨l, ⟨level, hfetch, -⟩, -⟩ := id hfifo
  have hk := LawfulLevels.valid_of_fetch hfetch
  rw [hfifo.unique (h.fifo s hk), queueAt, List.mem_filter] at hmem
  exact ⟨hmem.1, by simpa using hmem.2⟩

theorem rests_iff
    (h : Rep b A) {s : Side} {k : Price} {o : OrderInfo} :
    b.Rests s k o ↔ o ∈ A.side s ∧ o.price = k := by
  refine ⟨h.mem_of_rests, ?_⟩
  rintro ⟨ho, rfl⟩
  exact h.rests ho

/-- What is walked at a price is what the ladder has at it. -/
theorem eq_queueAt
    (h : Rep b A) {s : Side} {k : Price} {os : List OrderInfo}
    (hos : b.Fifo s k os) : os = queueAt OrderInfo.price (A.side s) k := by
  obtain ⟨l, ⟨level, hfetch, -⟩, -⟩ := id hos
  exact hos.unique (h.fifo s (LawfulLevels.valid_of_fetch hfetch))

theorem fifo_of_ne_nil
    (h : Rep b A) {s : Side} {k : Price}
    (hne : queueAt OrderInfo.price (A.side s) k ≠ []) :
    b.Fifo s k (queueAt OrderInfo.price (A.side s) k) := by
  obtain ⟨x, hx⟩ := List.exists_mem_of_ne_nil _ hne
  obtain ⟨hmem, hk⟩ := List.mem_filter.mp hx
  obtain ⟨os, hos, -⟩ := h.rests_iff.mpr ⟨hmem, of_decide_eq_true hk⟩
  rwa [← h.eq_queueAt hos]

/-- **The ladder lists the resting orders.** -/
theorem lists (h : Rep b A) (s : Side) :
    b.Lists s (A.side s) where
  sorted := by
    obtain ⟨L, hL, hA, -⟩ := h
    rw [hA s, InPriority, List.pairwise_map]
    exact hL.sorted s
  queues _ _ hos := (h.eq_queueAt hos).symm
  rests o ho := h.rests_iff.mpr ⟨ho, rfl⟩

/-- The index leads to the orders of the ladder. -/
theorem indexes_iff
    (h : Rep b A) {c : ClientId} {i : OrderId} {o : OrderInfo} :
    b.Indexes c i o ↔ A.find? (c, i) = some o := by
  constructor
  · rintro ⟨p, hf, hinfo⟩
    obtain ⟨mo, hmo, hfind⟩ := h.find_some hf
    rw [Heap.info, hmo] at hinfo
    exact hfind.trans hinfo
  · intro hfind
    cases hf : b.orders.find c i with
    | none =>
        rw [h.find_none hf] at hfind
        cases hfind
    | some p =>
        obtain ⟨mo, hmo, hfind'⟩ := h.find_some hf
        obtain rfl := Option.some.inj (hfind.symm.trans hfind')
        exact ⟨p, hf, by simp [Heap.info, hmo]⟩

/-- The index has an entry for the clients with resting orders. -/
theorem lookup_eq_none_iff
    (h : Rep b A) {c : ClientId} :
    b.orders.lookup c = none ↔ ∀ o ∈ A.orders, o.clientId ≠ c := by
  obtain ⟨L, hL, hA, -⟩ := h
  constructor
  · rintro hc o ho rfl
    obtain ⟨s, hs⟩ := Ladder.mem_orders.mp ho
    obtain ⟨p, hp⟩ := hA.exists_mem hs
    have hfind := (hL.index _ _ p).mpr ⟨s, (p, o), hp, rfl, rfl⟩
    rw [NestedIndex.find, hc] at hfind
    cases hfind
  · intro hno
    cases hc : b.orders.lookup c with
    | none => rfl
    | some client =>
        obtain ⟨i, p, hi⟩ : ∃ i p, client.lookup i = some p := by
          by_contra hempty
          simp only [not_exists] at hempty
          refine hL.noEmpty c client hc (Finmap.ext_lookup fun i => ?_)
          rw [Finmap.lookup_empty]
          exact Option.eq_none_iff_forall_ne_some.mpr (hempty i)
        have hfind : b.orders.find c i = some p := by
          simp [NestedIndex.find, hc, hi]
        obtain ⟨s, e, he, -, hkey⟩ := (hL.index c i p).mp hfind
        exact absurd (Prod.ext_iff.mp hkey).1
          (hno e.2 (Ladder.mem_orders_of_side (hA.mem he)))

/-- **The best level of a side is that of the first order of the ladder.** -/
theorem best (h : Rep b A) (s : Side) :
    LevelTable.best b.levels s = (A.side s).head?.map OrderInfo.price := by
  obtain ⟨L, hL, hA, -⟩ := h
  rw [hA s]
  cases hbest : LevelTable.best b.levels s with
  | none =>
      rw [hL.best_none hbest]
      rfl
  | some k =>
      obtain ⟨-, p, o, t, hs, rfl⟩ := hL.best_some hbest
      rw [hs]
      rfl

end Rep

end NanoExchange
