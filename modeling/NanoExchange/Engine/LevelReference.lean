import NanoExchange.Engine.Equivalence

/-!
# The level that a sweep refers to

`match` binds `PriceLevel& priceLevel = it->second` and then fills orders while
`priceLevel.head != nullptr`.  `remove(restingOrder)` in the loop body may
erase the map node of that very level.

`GuardedLevels` are the same two maps, read through such a reference: the loop
condition looks its price up, and finding no level there is a dangling access.
A sweep of the guarded book is the sweep of the book up to the first such
access, and `level_references_valid_iff` says when there is none.
-/

namespace NanoExchange

open Lib

/-- The two ordered maps, with the head of a level read only where there is a
level. -/
structure GuardedLevels where
  maps : MapLevels

namespace GuardedLevels

/-- `priceLevel.head`, where `priceLevel` refers to what a lookup finds. -/
def head : Option PriceLevel → Except Fault (Option Ptr)
  | none => .error .badPointer
  | some level => .ok level.head

instance : LevelTable GuardedLevels where
  empty := ⟨LevelTable.empty⟩
  best lv s := LevelTable.best lv.maps s
  levelPrice lv s price := LevelTable.levelPrice lv.maps s price
  loopHead lv s price := head ((lv.maps.side s).find? price)
  openLevel lv s price := do
    let maps ← LevelTable.openLevel lv.maps s price
    .ok ⟨maps⟩
  fetch lv s price := LevelTable.fetch lv.maps s price
  store lv s price level := ⟨LevelTable.store lv.maps s price level⟩
  closeLevel lv s price := ⟨LevelTable.closeLevel lv.maps s price⟩
  tradeUpdate := LevelTable.tradeUpdate MapLevels

theorem trades : TradesIn GuardedLevels Dialect.map := by
  intro tickerId o fill matchId
  rfl

end GuardedLevels

namespace OrderBook

variable {P : Type} [ObjectPool P]

/-- The book with its levels behind references. -/
def guarded (b : MapBook P) : OrderBook GuardedLevels P where
  pool := b.pool
  heap := b.heap
  levels := ⟨b.levels⟩
  orders := b.orders
  nextMarketOrderId := b.nextMarketOrderId

/-- `remove` does not use the reference of the loop. -/
theorem guarded_remove
    {b b' : MapBook P} {p : Ptr} (h : b.remove p = .ok b') :
    b.guarded.remove p = .ok b'.guarded := by
  unfold remove at h ⊢
  cases horder : b.heap.read p with
  | error e =>
      rw [horder] at h
      cases h
  | ok order =>
      have hfetch : LevelTable.fetch b.levels order.info.side order.info.price =
          .ok (b.levels.level order.info.side order.info.price) := rfl
      have hfetch' : LevelTable.fetch b.guarded.levels order.info.side
          order.info.price =
            .ok (b.levels.level order.info.side order.info.price) := rfl
      rw [horder, ok_bind] at h
      rw [show b.guarded.heap.read p = .ok order from horder, ok_bind]
      simp only [hfetch, ok_bind] at h
      simp only [hfetch', ok_bind]
      cases hprev : unlinkPrev b.heap
          (b.levels.level order.info.side order.info.price) order with
      | error e =>
          rw [hprev] at h
          cases h
      | ok x =>
          obtain ⟨h₁, level₁⟩ := x
          rw [hprev, ok_bind] at h
          rw [show unlinkPrev b.guarded.heap _ order = .ok (h₁, level₁) from
            hprev, ok_bind]
          cases hnext : unlinkNext h₁ level₁ order with
          | error e =>
              simp only [hnext] at h
              cases h
          | ok y =>
              obtain ⟨h₂, level₂⟩ := y
              simp only [hnext, ok_bind] at h ⊢
              obtain rfl := Except.ok.inj h
              by_cases hhead : level₂.head = none
              · simp [guarded, hhead, LevelTable.closeLevel, LevelTable.store]
              · simp [guarded, hhead, LevelTable.store]

/-- The best opposite level outlasts the incoming order: it is not within the
limit, or it holds more shares than the order wants. -/
def BestOutlasts {Lv : Type} [LevelTable Lv] (b : OrderBook Lv P)
    (a : OrderArgs) : Prop :=
  ∀ k os, LevelTable.best b.levels a.side.opposite = some k →
    a.side.crosses a.price k → b.Fifo a.side.opposite k os →
      a.initialQuantity < (os.map OrderInfo.remainingQuantity).sum

/-- `b'` is a book that `addOrder` or `replaceOrder`, called on `b`, runs
`match` on. -/
def EntersMatch {Lv : Type} [LevelTable Lv] (b b' : OrderBook Lv P) : Prop :=
  b' = b.bumpMarketOrderId ∨
    ∃ c i p, b.orders.find c i = some p ∧ b.bumpMarketOrderId.remove p = .ok b'

end OrderBook

/-- The shares that rest at a price of a side. -/
def Located.sharesAt (L : Located) (s : Side) (k : Price) : Quantity :=
  ((queueAt slotPrice (L s) k).map fun e => e.2.remainingQuantity).sum

theorem Located.sharesAt_eq_zero
    {L : Located} {s : Side} {k : Price} (h : L.ptrs s k = []) :
    L.sharesAt s k = 0 := by
  rw [Located.sharesAt, List.map_eq_nil_iff.mp h]
  rfl

theorem Located.sharesAt_cons
    {L : Located} {s : Side} {p : Ptr} {o : OrderInfo}
    {t : List (Ptr × OrderInfo)} (hs : L s = (p, o) :: t) :
    L.sharesAt s o.price =
      o.remainingQuantity +
        Located.sharesAt (Function.update L s t) s o.price := by
  rw [Located.sharesAt, Located.sharesAt, Function.update_self, hs, queueAt,
    List.filter_cons_of_pos (by simp [slotPrice]), List.map_cons,
    List.sum_cons, queueAt]

/-- A fault of the loop condition is the fault of the loop. -/
theorem OrderBook.matchLevel_fault
    {Lv P : Type} [LevelTable Lv] [ObjectPool P] {a : OrderArgs} {k : Price}
    {fuel : Nat} {b : OrderBook Lv P} {ch : Channel} {q : Quantity} {e : Fault}
    (hhead : LevelTable.loopHead b.levels a.side.opposite k = .error e)
    (hfuel : 0 < fuel) :
    matchLevel a k fuel b ch q = .error e := by
  obtain ⟨fuel, rfl⟩ := Nat.exists_eq_succ_of_ne_zero hfuel.ne'
  simp only [matchLevel, hhead, error_bind]

/-- Nothing is left to match. -/
theorem OrderBook.matchAgainst_zero
    {Lv P : Type} [LevelTable Lv] [ObjectPool P] (a : OrderArgs)
    (b : OrderBook Lv P) (ch : Channel) {fuel : Nat} (hfuel : 0 < fuel) :
    matchAgainst a fuel b ch 0 = .ok (b, ch, 0) := by
  obtain ⟨fuel, rfl⟩ := Nat.exists_eq_succ_of_ne_zero hfuel.ne'
  cases hbest : LevelTable.best b.levels a.side.opposite with
  | none => simp only [matchAgainst, hbest]
  | some k => simp only [matchAgainst, hbest, if_true]

namespace LRep

variable {P : Type} [ObjectPool P] {b : MapBook P} {L : Located}

/-- A level with orders is in its map. -/
theorem guarded_loopHead_some
    (h : LRep b L) {s : Side} {p : Ptr} {o : OrderInfo}
    {t : List (Ptr × OrderInfo)} (hs : L s = (p, o) :: t) :
    LevelTable.loopHead b.guarded.levels s o.price = .ok (some p) := by
  obtain ⟨l, hl⟩ := ptrs_head hs
  have hholds : MapLevels.Holds b.levels L.contents := h.levels
  have hlevel := hholds s o.price
  rw [Located.contents, hl] at hlevel
  obtain ⟨level, hfind, hends⟩ := Option.map_eq_some_iff.mp hlevel
  have hhead : level.head = some p := congrArg Prod.fst hends
  show GuardedLevels.head ((b.levels.side s).find? o.price) = _
  rw [hfind, GuardedLevels.head, hhead]

/-- A level without orders is not. -/
theorem guarded_loopHead_none
    (h : LRep b L) {s : Side} {k : Price} (hnone : L.ptrs s k = []) :
    LevelTable.loopHead b.guarded.levels s k = .error .badPointer := by
  have hholds : MapLevels.Holds b.levels L.contents := h.levels
  have hlevel := hholds s k
  rw [Located.contents, hnone] at hlevel
  have hfind : (b.levels.side s).find? k = none :=
    Option.map_eq_none_iff.mp hlevel
  show GuardedLevels.head ((b.levels.side s).find? k) = _
  rw [hfind, GuardedLevels.head]

variable {a : OrderArgs}

/-- The head order is filled and leaves both books. -/
theorem guarded_full
    (h : LRep b L) {p : Ptr} {o : OrderInfo} {t : List (Ptr × OrderInfo)}
    (hs : L a.side.opposite = (p, o) :: t) (ch : Channel) {q : Quantity}
    (hq : q ≠ 0) (hle : o.remainingQuantity ≤ q) (fuel : Nat) :
    ∃ b₂ ch₂, LRep b₂ (Function.update L a.side.opposite t) ∧
      OrderBook.matchLevel a o.price (fuel + 1) b ch q =
        OrderBook.matchLevel a o.price fuel b₂ ch₂
          (q - o.remainingQuantity) ∧
      OrderBook.matchLevel a o.price (fuel + 1) b.guarded ch q =
        OrderBook.matchLevel a o.price fuel b₂.guarded ch₂
          (q - o.remainingQuantity) := by
  obtain ⟨mo, hmo, rfl⟩ : ∃ mo, b.heap p = some mo ∧ mo.info = o :=
    Heap.exists_of_info (h.info _ (p, o) (by rw [hs]; simp))
  have hfill := OrderBook.matchLevel_fill MapBook.trades fuel ch
    (h.loopHead_some hs trivial) (h.levelPrice_head hs) hmo hq
  have hguard := OrderBook.matchLevel_fill (b := b.guarded)
    GuardedLevels.trades fuel ch (h.guarded_loopHead_some hs) rfl hmo hq
  have hwrite := h.fillHead hs hmo 0
  dsimp only at hfill hguard
  rw [Nat.min_eq_right hle, Nat.sub_self, if_pos rfl] at hfill hguard
  obtain ⟨b₂, hremove, hrep, -⟩ := hwrite.remove
    (p := p) (o := mo.info.withRemaining 0) (s := a.side.opposite)
    (by rw [Function.update_self]; exact List.mem_cons_self)
  rw [hwrite.drop_head (Function.update_self ..), Function.update_idem] at hrep
  rw [hremove, ok_bind] at hfill
  have hremove' := OrderBook.guarded_remove hremove
  exact ⟨b₂, _, hrep, hfill, hguard.trans (congrArg (· >>= _) hremove')⟩

/-- The head order gives all that is wanted: the level stays in its map. -/
theorem guarded_part
    (h : LRep b L) {p : Ptr} {o : OrderInfo} {t : List (Ptr × OrderInfo)}
    (hs : L a.side.opposite = (p, o) :: t) (ch : Channel) {q : Quantity}
    (hq : q ≠ 0) (hlt : q < o.remainingQuantity) {fuel : Nat}
    (hfuel : 0 < fuel) :
    ∃ b₂ ch₂,
      OrderBook.matchLevel a o.price (fuel + 1) b ch q = .ok (b₂, ch₂, 0) ∧
      OrderBook.matchLevel a o.price (fuel + 1) b.guarded ch q =
        .ok (b₂.guarded, ch₂, 0) := by
  obtain ⟨mo, hmo, rfl⟩ : ∃ mo, b.heap p = some mo ∧ mo.info = o :=
    Heap.exists_of_info (h.info _ (p, o) (by rw [hs]; simp))
  have hfill := OrderBook.matchLevel_fill MapBook.trades fuel ch
    (h.loopHead_some hs trivial) (h.levelPrice_head hs) hmo hq
  have hguard := OrderBook.matchLevel_fill (b := b.guarded)
    GuardedLevels.trades fuel ch (h.guarded_loopHead_some hs) rfl hmo hq
  have hwrite := h.fillHead hs hmo (mo.info.remainingQuantity - q)
  have hhead := hwrite.loopHead_some (Function.update_self ..) trivial
  have hhead' := hwrite.guarded_loopHead_some (Function.update_self ..)
  dsimp only at hfill hguard
  rw [Nat.min_eq_left hlt.le, Nat.sub_self,
    if_neg (Nat.sub_ne_zero_of_lt hlt), ok_bind] at hfill hguard
  exact ⟨_, _, hfill.trans (OrderBook.matchLevel_stop hhead (.inr rfl) hfuel),
    hguard.trans (OrderBook.matchLevel_stop hhead' (.inr rfl) hfuel)⟩

/-- **The inner loop with the level behind a reference.**  It is the inner loop
of the book if the level holds more than is wanted; otherwise its condition is
evaluated once more after the level has been erased. -/
theorem matchLevel_guarded
    {k : Price} (h : LRep b L) (ch : Channel) {q : Quantity} {fuel : Nat}
    {l : List (Ptr × OrderInfo)} (hs : L a.side.opposite = l)
    (hbest : ∀ e ∈ l, ¬ a.side.opposite.precedes e.2.price k)
    (hqty : ∀ e ∈ l, 0 < e.2.remainingQuantity) (hfuel : q < fuel) :
    (q < L.sharesAt a.side.opposite k →
      ∃ b₂ ch₂, OrderBook.matchLevel a k fuel b ch q = .ok (b₂, ch₂, 0) ∧
        OrderBook.matchLevel a k fuel b.guarded ch q =
          .ok (b₂.guarded, ch₂, 0)) ∧
    (L.sharesAt a.side.opposite k ≤ q →
      OrderBook.matchLevel a k fuel b.guarded ch q = .error .badPointer) := by
  have hpos : 0 < fuel := Nat.zero_lt_of_lt hfuel
  induction l generalizing b L ch q fuel with
  | nil =>
      have hnone : L.ptrs a.side.opposite k = [] := by
        rw [Located.ptrs, hs]
        rfl
      rw [Located.sharesAt_eq_zero hnone]
      exact ⟨fun hlt => absurd hlt (Nat.not_lt_zero q),
        fun _ => OrderBook.matchLevel_fault (h.guarded_loopHead_none hnone)
          hpos⟩
  | cons e t ih =>
      obtain ⟨p, o⟩ := e
      by_cases ho : o.price = k
      swap
      · have hnone := h.ptrs_eq_nil (hs ▸ hbest) hs ho
        rw [Located.sharesAt_eq_zero hnone]
        exact ⟨fun hlt => absurd hlt (Nat.not_lt_zero q),
          fun _ => OrderBook.matchLevel_fault (h.guarded_loopHead_none hnone)
            hpos⟩
      subst ho
      have hshares := Located.sharesAt_cons hs
      have hpos' : 0 < o.remainingQuantity := hqty (p, o) List.mem_cons_self
      by_cases hq : q = 0
      · subst hq
        refine ⟨fun _ => ⟨b, ch, ?_, ?_⟩, fun hle => by lia⟩
        · exact OrderBook.matchLevel_stop (h.loopHead_some hs trivial)
            (.inr rfl) hpos
        · exact OrderBook.matchLevel_stop (h.guarded_loopHead_some hs)
            (.inr rfl) hpos
      obtain ⟨fuel, rfl⟩ := Nat.exists_eq_succ_of_ne_zero hpos.ne'
      by_cases hle : o.remainingQuantity ≤ q
      · obtain ⟨b₁, ch₁, hrep, hstep, hguard⟩ :=
          h.guarded_full hs ch hq hle fuel
        have hrest := ih (q := q - o.remainingQuantity) hrep ch₁
          (Function.update_self ..)
          (fun e he => hbest e (List.mem_cons_of_mem _ he))
          (fun e he => hqty e (List.mem_cons_of_mem _ he))
          (show q - o.remainingQuantity < fuel by lia) (by lia)
        rw [hstep, hguard, hshares]
        exact ⟨fun hlt => hrest.1 (by lia), fun hle => hrest.2 (by lia)⟩
      · obtain ⟨b₂, ch₂, hstep, hguard⟩ :=
          h.guarded_part hs ch hq (not_le.mp hle) (show 0 < fuel by lia)
        exact ⟨fun _ => ⟨b₂, ch₂, hstep, hguard⟩, fun hle' => by lia⟩

/-- The best level is one that orders rest at. -/
theorem sharesAt_best_pos
    (h : LRep b L) {s : Side} {k : Price}
    (hqty : ∀ e ∈ L s, 0 < e.2.remainingQuantity)
    (hbest : LevelTable.best b.levels s = some k) :
    0 < L.sharesAt s k := by
  obtain ⟨-, p, o, t, hs, rfl⟩ := h.best_some hbest
  rw [Located.sharesAt_cons hs]
  exact Nat.add_pos_left (hqty (p, o) (by rw [hs]; exact List.mem_cons_self)) _

/-- If the best level outlasts the incoming order, the loops of `match` are
the same with the level behind a reference. -/
theorem matchAgainst_outlasted
    (h : LRep b L) (ch : Channel) {q : Quantity} {fuel : Nat}
    (hqty : ∀ e ∈ L a.side.opposite, 0 < e.2.remainingQuantity)
    (hfuel : q < fuel)
    (hlast : ∀ k, LevelTable.best b.levels a.side.opposite = some k →
      a.side.crosses a.price k → q < L.sharesAt a.side.opposite k) :
    ∃ b₂ ch₂ q₂, OrderBook.matchAgainst a fuel b ch q = .ok (b₂, ch₂, q₂) ∧
      OrderBook.matchAgainst a fuel b.guarded ch q =
        .ok (b₂.guarded, ch₂, q₂) := by
  obtain ⟨fuel, rfl⟩ := Nat.exists_eq_succ_of_ne_zero
    (Nat.zero_lt_of_lt hfuel).ne'
  by_cases hq : q = 0
  · subst hq
    exact ⟨b, ch, 0, OrderBook.matchAgainst_zero a b ch hfuel,
      OrderBook.matchAgainst_zero a b.guarded ch hfuel⟩
  cases hbest : LevelTable.best b.levels a.side.opposite with
  | none =>
      have hbest' : LevelTable.best b.guarded.levels a.side.opposite = none :=
        hbest
      refine ⟨b, ch, q, ?_, ?_⟩
      · simp only [OrderBook.matchAgainst, hbest]
      · simp only [OrderBook.matchAgainst, hbest']
  | some k =>
      have hbest' : LevelTable.best b.guarded.levels a.side.opposite = some k :=
        hbest
      have hprice : LevelTable.levelPrice b.levels a.side.opposite k = k := rfl
      have hprice' :
          LevelTable.levelPrice b.guarded.levels a.side.opposite k = k := rfl
      by_cases hcross : a.side.crosses a.price k
      · obtain ⟨hle, -⟩ := h.best_some hbest
        obtain ⟨b₂, ch₂, hlevel, hguard⟩ :=
          (h.matchLevel_guarded ch rfl hle hqty (Nat.lt_succ_self q)).1
            (hlast k hbest hcross)
        have hpos : 0 < fuel := by lia
        refine ⟨b₂, ch₂, 0, ?_, ?_⟩
        · simp only [OrderBook.matchAgainst, hbest, hq, if_false, hprice,
            hcross, if_true, hlevel, ok_bind,
            OrderBook.matchAgainst_zero a b₂ ch₂ hpos]
        · simp only [OrderBook.matchAgainst, hbest', hq, if_false, hprice',
            hcross, if_true, hguard, ok_bind,
            OrderBook.matchAgainst_zero a b₂.guarded ch₂ hpos]
      · refine ⟨b, ch, q, ?_, ?_⟩
        · simp only [OrderBook.matchAgainst, hbest, hq, if_false, hprice,
            hcross]
        · simp only [OrderBook.matchAgainst, hbest', hq, if_false, hprice',
            hcross]

/-- If the incoming order exhausts the best level, the loop refers to a level
that is no longer there. -/
theorem matchAgainst_exhausted
    (h : LRep b L) (ch : Channel) {q : Quantity} {fuel : Nat}
    (hqty : ∀ e ∈ L a.side.opposite, 0 < e.2.remainingQuantity)
    (hfuel : q < fuel) {k : Price}
    (hbest : LevelTable.best b.levels a.side.opposite = some k)
    (hcross : a.side.crosses a.price k)
    (hshares : L.sharesAt a.side.opposite k ≤ q) :
    OrderBook.matchAgainst a fuel b.guarded ch q = .error .badPointer := by
  obtain ⟨fuel, rfl⟩ := Nat.exists_eq_succ_of_ne_zero
    (Nat.zero_lt_of_lt hfuel).ne'
  have hpos := h.sharesAt_best_pos hqty hbest
  have hq : q ≠ 0 := by lia
  have hbest' : LevelTable.best b.guarded.levels a.side.opposite = some k :=
    hbest
  have hprice' :
      LevelTable.levelPrice b.guarded.levels a.side.opposite k = k := rfl
  obtain ⟨hle, -⟩ := h.best_some hbest
  have hguard :=
    (h.matchLevel_guarded ch rfl hle hqty (Nat.lt_succ_self q)).2 hshares
  simp only [OrderBook.matchAgainst, hbest', hq, if_false, hprice', hcross,
    if_true, hguard, error_bind]

end LRep

namespace Rep

variable {P : Type} [ObjectPool P] {b : MapBook P} {A : Ladder}

/-- **When `match` refers to a level that is gone.** -/
theorem guarded_match
    (h : Rep b A) (hqty : ∀ o ∈ A.orders, 0 < o.remainingQuantity)
    (ch : Channel) (a : OrderArgs) :
    (b.BestOutlasts a → ∃ b₂ ch₂ q, b.matchOrder ch a = .ok (b₂, ch₂, q) ∧
      b.guarded.matchOrder ch a = .ok (b₂.guarded, ch₂, q)) ∧
    (¬ b.BestOutlasts a →
      b.guarded.matchOrder ch a = .error .badPointer) := by
  have hfifo : ∀ k, b.Fifo a.side.opposite k
      (queueAt OrderInfo.price (A.side a.side.opposite) k) :=
    fun k => h.fifo _ trivial
  obtain ⟨L, hL, hA, -⟩ := h
  have hshares : ∀ k, L.sharesAt a.side.opposite k =
      ((queueAt OrderInfo.price (A.side a.side.opposite) k).map
        OrderInfo.remainingQuantity).sum := by
    intro k
    rw [Located.sharesAt, hA, queueAt, queueAt, List.filter_map, List.map_map]
    rfl
  have hqtyL : ∀ e ∈ L a.side.opposite, 0 < e.2.remainingQuantity :=
    fun e he => hqty e.2 (Ladder.mem_orders.mpr ⟨_, hA.mem he⟩)
  constructor
  · intro hlast
    refine hL.matchAgainst_outlasted ch hqtyL (Nat.lt_succ_self _) ?_
    intro k hbest hcross
    rw [hshares]
    exact hlast k _ hbest hcross (hfifo k)
  · intro hlast
    simp only [OrderBook.BestOutlasts, not_forall, not_lt] at hlast
    obtain ⟨k, os, hbest, hcross, hos, hle⟩ := hlast
    rw [hos.unique (hfifo k), ← hshares] at hle
    exact hL.matchAgainst_exhausted ch hqtyL (Nat.lt_succ_self _) hbest hcross
      hle

/-- The books that `match` runs on are the book, but for an order that is to
be replaced. -/
theorem entersMatch
    (h : Rep b A) (hwf : A.WF) {b' : MapBook P} (hb' : b.EntersMatch b') :
    ∃ A', Rep b' A' ∧ A.Trims A' := by
  have hbump := Ladder.trims_bump hwf
  rcases hb' with rfl | ⟨c, i, p, hf, hremove⟩
  · exact ⟨_, h.bump, hbump⟩
  · obtain ⟨b₁, hb₁, hrep⟩ := h.bump.remove (c := c) (i := i) hf
    obtain rfl := Except.ok.inj (hb₁.symm.trans hremove)
    exact ⟨_, hrep, hbump.trans (Ladder.trims_erase (hbump.wf hwf) _)⟩

end Rep

/-- **When a sweep refers only to levels that are there.**  On every book that
a run leads to, `match` reads no level through a reference to an erased map
node if and only if the best opposite level outlasts the incoming order. -/
theorem level_references_valid_iff
    (P : Type) [ObjectPool P] (size : Nat) (n : OrderId)
    {rs : List MEClientRequest} (hfresh : FreshKeys rs)
    {b : MapBook P} {ch : Channel}
    (hrun : OrderBook.run MapLevels P size n rs = .ok (b, ch))
    {b' : MapBook P} (hb' : b.EntersMatch b') (ch' : Channel)
    (a : OrderArgs) :
    (b'.guarded.matchOrder ch' a ≠ .error .badPointer ↔ b'.BestOutlasts a) ∧
      (b'.BestOutlasts a → ∃ b₂ ch₂ q,
        b'.matchOrder ch' a = .ok (b₂, ch₂, q) ∧
        b'.guarded.matchOrder ch' a = .ok (b₂.guarded, ch₂, q)) := by
  have hrep := (MapBook.run_refines P size n hfresh).of_ok hrun
  have hwf := Ladder.run_wf n hfresh
  obtain ⟨A', hrep', htrims⟩ := hrep.1.entersMatch hwf hb'
  have hqty : ∀ o ∈ A'.orders, 0 < o.remainingQuantity :=
    fun o ho => ((htrims.wf hwf).quantity o ho).1
  obtain ⟨hok, hstale⟩ := hrep'.guarded_match hqty ch' a
  refine ⟨⟨fun hne => ?_, fun hlast hstop => ?_⟩, hok⟩
  · by_contra hlast
    exact hne (hstale hlast)
  · obtain ⟨b₂, ch₂, q, -, hguard⟩ := hok hlast
    rw [hguard] at hstop
    cases hstop

/-- The ask of five shares that the examples below meet. -/
def restingAsk : List MEClientRequest :=
  [.make .new 1 0 1 .goodTillCancel .sell 100 5]

/-- A bid of `q` shares at the price of the ask. -/
def crossingBid (q : Quantity) : OrderArgs where
  tickerId := 0
  clientId := 2
  clientOrderId := 1
  marketOrderId := 2
  orderType := .goodTillCancel
  price := 100
  initialQuantity := q
  side := .buy
  orderToken := OrderToken.zero

/-- A bid takes the only order of the best level: the loop condition is then
evaluated on a level that `remove` has erased. -/
theorem level_reference_dangles :
    ∃ s, OrderBook.run MapLevels ScanPool 4 1 restingAsk = .ok s ∧
      s.1.EntersMatch s.1.bumpMarketOrderId ∧
      s.1.bumpMarketOrderId.guarded.matchOrder s.2 (crossingBid 5) =
        .error .badPointer :=
  ⟨_, rfl, .inl rfl, rfl⟩

/-- A bid takes a part of the ask. -/
theorem level_references_valid_iff_example :
    ∃ s, OrderBook.run MapLevels ScanPool 4 1 restingAsk = .ok s ∧
      (s.1.bumpMarketOrderId.guarded.matchOrder s.2 (crossingBid 3) ≠
          .error .badPointer ↔
        s.1.bumpMarketOrderId.BestOutlasts (crossingBid 3)) ∧
      (s.1.bumpMarketOrderId.BestOutlasts (crossingBid 3) → ∃ b₂ ch₂ q,
        s.1.bumpMarketOrderId.matchOrder s.2 (crossingBid 3) =
          .ok (b₂, ch₂, q) ∧
        s.1.bumpMarketOrderId.guarded.matchOrder s.2 (crossingBid 3) =
          .ok (b₂.guarded, ch₂, q)) :=
  ⟨_, rfl, level_references_valid_iff ScanPool 4 1
    (show FreshKeys restingAsk by decide) rfl (.inl rfl) _ (crossingBid 3)⟩

end NanoExchange
