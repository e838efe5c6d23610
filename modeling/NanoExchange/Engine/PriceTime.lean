import NanoExchange.Engine.LevelReference
import NanoExchange.Lib.Allocation

/-!
# Matching is greedy allocation in price-time priority

`match` is compared with a reference that knows no levels and no loops: list
the opposite orders within the limit, best price first and in queue order, and
hand the incoming quantity out along the list (`allocate`).

The list is in queue order, which the source keeps by appending.  It is in
ascending order of market order ids as long as `nextMarketOrderId`, a 64-bit
counter, has not come round.
-/

namespace NanoExchange

open Lib

/-- What the fills make of a resting order. -/
def OrderInfo.afterFills (fills : List (OrderInfo × Quantity))
    (o : OrderInfo) : Option OrderInfo :=
  match fills.lookup o with
  | none => some o
  | some fill =>
      if fill = o.remainingQuantity then none
      else some (o.withRemaining (o.remainingQuantity - fill))

/-- The events of some fills of an incoming order that wants `q` shares, with
match ids from `n` on. -/
def fillEvents (a : OrderArgs) :
    OrderId → Quantity → List (OrderInfo × Quantity) → List Event
  | _, _, [] => []
  | n, q, (o, fill) :: fills =>
      .filled a (o.withRemaining (o.remainingQuantity - fill)) fill (q - fill)
          n ::
        fillEvents a ((n + 1) % wordSize) (q - fill) fills

namespace OrderInfo

theorem afterFills_nil (o : OrderInfo) : o.afterFills [] = some o := by
  rfl

theorem afterFills_self
    (o : OrderInfo) (fill : Quantity) (fills : List (OrderInfo × Quantity)) :
    o.afterFills ((o, fill) :: fills) =
      if fill = o.remainingQuantity then none
      else some (o.withRemaining (o.remainingQuantity - fill)) := by
  simp [afterFills]

theorem afterFills_of_ne
    {o x : OrderInfo} (h : x ≠ o) (fill : Quantity)
    (fills : List (OrderInfo × Quantity)) :
    x.afterFills ((o, fill) :: fills) = x.afterFills fills := by
  have hbeq : (x == o) = false := beq_eq_false_iff_ne.mpr h
  simp [afterFills, List.lookup_cons, hbeq]

theorem afterFills_price
    {fills : List (OrderInfo × Quantity)} {o x : OrderInfo}
    (h : o.afterFills fills = some x) :
    x.price = o.price := by
  unfold afterFills at h
  split at h
  · obtain rfl := Option.some.inj h
    rfl
  · split_ifs at h
    obtain rfl := Option.some.inj h
    rfl

/-- Fills of an order that is not in a list leave the list alone. -/
theorem filterMap_afterFills_cons
    {o : OrderInfo} {l : List OrderInfo} (h : o ∉ l) (fill : Quantity)
    (fills : List (OrderInfo × Quantity)) :
    l.filterMap (afterFills ((o, fill) :: fills)) =
      l.filterMap (afterFills fills) := by
  refine List.filterMap_congr fun x hx => afterFills_of_ne ?_ fill fills
  rintro rfl
  exact h hx

theorem filterMap_afterFills_nil (l : List OrderInfo) :
    l.filterMap (afterFills []) = l := by
  rw [show afterFills [] = some from funext afterFills_nil,
    List.filterMap_some]

end OrderInfo

/-- **A sweep is a greedy allocation**, if what is within reach comes first. -/
theorem sweep_eq_allocate
    {R : Price → Prop} [DecidablePred R] {a : OrderArgs} (n : OrderId)
    (q : Quantity) {l : List OrderInfo}
    (hfirst : l.Pairwise fun x y => R y.price → R x.price)
    (hnodup : l.Nodup) (hpos : ∀ o ∈ l, 0 < o.remainingQuantity) :
    let fills := allocate OrderInfo.remainingQuantity q
      (l.filter fun o => R o.price)
    (sweep R a n q l).fills = fillEvents a n q fills ∧
      (sweep R a n q l).resting = l.filterMap (OrderInfo.afterFills fills) := by
  induction l generalizing n q with
  | nil => exact ⟨rfl, rfl⟩
  | cons o l ih =>
      obtain ⟨hhead, htail⟩ := List.pairwise_cons.mp hfirst
      obtain ⟨hnew, hnodup⟩ := List.nodup_cons.mp hnodup
      have hpos' : ∀ x ∈ l, 0 < x.remainingQuantity :=
        fun x hx => hpos x (List.mem_cons_of_mem _ hx)
      by_cases hq : q = 0
      · subst hq
        rw [allocate_zero, sweep_zero]
        exact ⟨rfl, (OrderInfo.filterMap_afterFills_nil _).symm⟩
      by_cases ho : R o.price
      swap
      · have hnone : ((o :: l).filter fun x => R x.price) = [] := by
          refine List.filter_eq_nil_iff.mpr fun x hx hRx => ?_
          rcases List.mem_cons.mp hx with rfl | hx
          · exact ho (of_decide_eq_true hRx)
          · exact ho (hhead x hx (of_decide_eq_true hRx))
        rw [hnone, allocate_nil, sweep_stop n q l ho]
        exact ⟨rfl, (OrderInfo.filterMap_afterFills_nil _).symm⟩
      rw [List.filter_cons_of_pos (by simpa using ho)]
      by_cases hle : o.remainingQuantity ≤ q
      · obtain ⟨hfills, hresting⟩ := ih ((n + 1) % wordSize)
          (q - o.remainingQuantity) htail hnodup hpos'
        rw [allocate_full hq hle, sweep_full hq ho hle]
        constructor
        · rw [fillEvents, Nat.sub_self, ← hfills]
        · rw [List.filterMap_cons_none (by
            rw [OrderInfo.afterFills_self, if_pos rfl]),
            OrderInfo.filterMap_afterFills_cons hnew, ← hresting]
      · have hlt := not_le.mp hle
        rw [allocate_part hq hlt.le, sweep_part hq ho hle]
        constructor
        · rw [fillEvents, fillEvents, Nat.sub_self]
        · rw [List.filterMap_cons_some (by
            rw [OrderInfo.afterFills_self, if_neg hlt.ne]),
            OrderInfo.filterMap_afterFills_cons hnew,
            OrderInfo.filterMap_afterFills_nil]

namespace Ladder

/-- On a side whose ids are in order, time priority is the order of ids. -/
theorem priority_of_ids
    {A : Ladder} (h : A.WF) {s : Side}
    (hids : (A.side s).Pairwise fun x y =>
      x.price = y.price → x.marketOrderId < y.marketOrderId) :
    (A.side s).Pairwise fun x y => s.precedes x.price y.price ∨
      x.price = y.price ∧ x.marketOrderId < y.marketOrderId := by
  refine List.Pairwise.imp₂ (fun x y hxy hid => ?_) (h.sorted s) hids
  by_cases hprice : x.price = y.price
  · exact .inr ⟨hprice, hid hprice⟩
  · exact .inl (s.precedes_of_not (fun e => hprice e.symm) hxy)

end Ladder

/-- The book `b'` and the messages in `ch'` are what the fills of an incoming
order make of `b` and `ch`. -/
structure Filled {Lv P : Type} [LevelTable Lv] (a : OrderArgs)
    (fills : List (OrderInfo × Quantity)) (b b' : OrderBook Lv P)
    (ch ch' : Channel) : Prop where
  /-- Each fill is reported to both parties and to the public, at the price of
  the resting order, and nothing else is. -/
  reports : ch'.outputs = ch.outputs ++
    (fillEvents a ch.matchIds a.initialQuantity fills).flatMap
      (Event.outputs Dialect.map)
  /-- The opposite queues lose what is filled; all other orders stay as they
  are and where they are. -/
  opposite : ∀ k os, b.Fifo a.side.opposite k os →
    b'.Fifo a.side.opposite k (os.filterMap (OrderInfo.afterFills fills))
  own : ∀ k os, b.Fifo a.side k os → b'.Fifo a.side k os

namespace Rep

variable {P : Type} [ObjectPool P] {b : MapBook P} {A : Ladder}

/-- **`match` is a greedy allocation.** -/
theorem filled
    (h : Rep b A) (hwf : A.WF) (ch : Channel) (a : OrderArgs) :
    let L := (A.side a.side.opposite).filter
      fun o => a.side.crosses a.price o.price
    ∃ b' ch', b.matchOrder ch a = .ok (b', ch', a.initialQuantity -
        min a.initialQuantity (L.map OrderInfo.remainingQuantity).sum) ∧
      Filled a (allocate OrderInfo.remainingQuantity a.initialQuantity L)
        b b' ch ch' := by
  have hfirst := hwf.crossing_first a.side a.price
  obtain ⟨hfills, hresting⟩ := sweep_eq_allocate (a := a) ch.matchIds
    a.initialQuantity hfirst (hwf.side_nodup _) (hwf.side_pos _)
  obtain ⟨b', hb', hrep⟩ := h.matchOrder MapBook.trades ch a
    fun o ho => (hwf.quantity o ho).1
  have hrest : ∀ S : Quantity,
      a.initialQuantity - S = a.initialQuantity - min a.initialQuantity S := by
    intro S
    lia
  rw [sweep_remaining_eq hfirst, hrest] at hb'
  refine ⟨b', _, hb', ?_, ?_, ?_⟩
  · rw [Channel.report, hfills]
  · intro k os hos
    have hfifo := hrep.fifo a.side.opposite (k := k) trivial
    rw [Ladder.setSide_side_self, hresting,
      queueAt_filterMap fun _ _ => OrderInfo.afterFills_price,
      ← h.eq_queueAt hos] at hfifo
    exact hfifo
  · intro k os hos
    have hfifo := hrep.fifo a.side (k := k) trivial
    rw [Ladder.setSide_side_of_ne _ (Side.ne_opposite _),
      ← h.eq_queueAt hos] at hfifo
    exact hfifo

end Rep

/-- **Matching is greedy allocation in price-time priority.**  On every book
that a run leads to, and that `match` is run on, `match` hands the quantity out
along the opposite orders within the limit, best price first and in queue
order; that order is ascending in the market order ids while the id counter
cannot have come round. -/
theorem match_allocates_in_priority
    (P : Type) [ObjectPool P] (size : Nat) (n : OrderId)
    {rs : List MEClientRequest} (hfresh : FreshKeys rs)
    {b₀ : MapBook P} {ch₀ : Channel}
    (hrun : OrderBook.run MapLevels P size n rs = .ok (b₀, ch₀))
    {b : MapBook P} (hb : b = b₀ ∨ b₀.EntersMatch b) (ch : Channel)
    (a : OrderArgs) :
    ∃ l b' ch', b.Lists a.side.opposite l ∧
      let L := l.filter fun o => a.side.crosses a.price o.price
      let fills := allocate OrderInfo.remainingQuantity a.initialQuantity L
      b.matchOrder ch a = .ok (b', ch', a.initialQuantity -
          min a.initialQuantity (L.map OrderInfo.remainingQuantity).sum) ∧
        Filled a fills b b' ch ch' ∧
        fills.map Prod.fst <+: L ∧
        (∀ e ∈ fills.dropLast, e.2 = e.1.remainingQuantity) ∧
        (rs.length + 1 < wordSize → L.Pairwise fun x y =>
          a.side.opposite.precedes x.price y.price ∨
            x.price = y.price ∧ x.marketOrderId < y.marketOrderId) := by
  obtain ⟨hrep, -⟩ := (MapBook.run_refines P size n hfresh).of_ok hrun
  have hwf := Ladder.run_wf n hfresh
  obtain ⟨A, hA, htrims⟩ : ∃ A, Rep b A ∧ (Ladder.run n rs).ladder.Trims A := by
    rcases hb with rfl | hb
    · exact ⟨_, hrep, fun s => .refl (hwf.side_pos s)⟩
    · exact hrep.entersMatch hwf hb
  have hAwf := htrims.wf hwf
  obtain ⟨b', ch', hmatch, hfilled⟩ := hA.filled hAwf ch a
  refine ⟨_, b', ch', hA.lists _, hmatch, hfilled, allocate_prefix _ _,
    allocate_dropLast _ _, fun hlen => List.Pairwise.filter _ ?_⟩
  have hids := (Ladder.run_ids n hfresh hlen).fifo a.side.opposite
  exact Ladder.priority_of_ids hAwf
    ((htrims _).pairwise (fun _ _ => Iff.rfl) hids)

/-- A bid takes the first ask and a part of the second. -/
theorem match_allocates_in_priority_example :
    ∃ s, OrderBook.run MapLevels ScanPool 4 1
        [.make .new 1 0 1 .goodTillCancel .sell 100 5,
          .make .new 1 0 2 .goodTillCancel .sell 99 2] = .ok s ∧
      ∃ l b' ch', s.1.Lists Side.buy.opposite l ∧
        let L := l.filter fun o => Side.buy.crosses 100 o.price
        let fills := allocate OrderInfo.remainingQuantity 5 L
        s.1.matchOrder s.2 (crossingBid 5) = .ok (b', ch', 5 -
            min 5 (L.map OrderInfo.remainingQuantity).sum) ∧
          Filled (crossingBid 5) fills s.1 b' s.2 ch' ∧
          fills.map Prod.fst <+: L ∧
          (∀ e ∈ fills.dropLast, e.2 = e.1.remainingQuantity) ∧
          (2 + 1 < wordSize → L.Pairwise fun x y =>
            Side.buy.opposite.precedes x.price y.price ∨
              x.price = y.price ∧ x.marketOrderId < y.marketOrderId) := by
  have hfresh : FreshKeys [.make .new 1 0 1 .goodTillCancel .sell 100 5,
      .make .new 1 0 2 .goodTillCancel .sell 99 2] := by decide
  exact ⟨_, rfl, match_allocates_in_priority ScanPool 4 1 hfresh rfl (.inl rfl)
    _ (crossingBid 5)⟩

section Wrapped

/-- A FillAndKill bid that finds no ask, and leaves nothing but its id. -/
def killedBid (i : OrderId) : MEClientRequest :=
  .make .new 1 0 i .fillAndKill .buy 100 1

/-- An ask of a second client. -/
def lateAsk (i : OrderId) : MEClientRequest :=
  .make .new 2 0 i .goodTillCancel .sell 100 5

/-- Killed bids use up market order ids. -/
theorem run_killedBids (k : Nat) :
    ∃ ch, OrderBook.run MapLevels ScanPool 4 1
        ((List.range k).map killedBid) =
      .ok ({ (OrderBook.init 4 : MapBook ScanPool) with
        nextMarketOrderId := (k + 1) % wordSize }, ch) := by
  induction k with
  | zero => exact ⟨_, rfl⟩
  | succ k ih =>
      obtain ⟨ch, hch⟩ := ih
      have hmod : ((k + 1) % wordSize + 1) % wordSize =
          (k + 1 + 1) % wordSize := Nat.mod_add_mod _ _ _
      unfold OrderBook.run OrderBook.processAll at hch ⊢
      rw [List.range_succ, List.map_append, List.foldlM_append, hch, ok_bind,
        ← hmod]
      exact ⟨_, rfl⟩

theorem freshKeys_killedBids (k : Nat) :
    FreshKeys ((List.range k).map killedBid ++ [lateAsk 1, lateAsk 2]) := by
  have hkeys : ((List.range k).map killedBid ++
      [lateAsk 1, lateAsk 2]).filterMap MEClientRequest.newKey =
        (List.range k).map (fun i => (1, i)) ++ [(2, 1), (2, 2)] := by
    rw [List.filterMap_append, List.filterMap_map]
    congr 1
    exact List.filterMap_eq_map (f := fun i : Nat => ((1 : Nat), i)) ▸ rfl
  rw [FreshKeys, hkeys, List.nodup_append]
  refine ⟨?_, by decide, ?_⟩
  · exact List.nodup_range.map fun i j h => (Prod.mk.inj h).2
  · rintro x hx y hy rfl
    obtain ⟨i, -, rfl⟩ := List.mem_map.mp hx
    simp at hy

/-- Two asks whose ids are the last one before the counter comes round and the
first one after: the second comes behind the first in the queue, and before it
in the order of ids. -/
theorem match_out_of_id_order :
    ∃ rs s x y b' ch', FreshKeys rs ∧
      OrderBook.run MapLevels ScanPool 4 1 rs = .ok s ∧
      s.1.Fifo .sell 100 [x, y] ∧ y.marketOrderId < x.marketOrderId ∧
      s.1.matchOrder s.2 (crossingBid 1) = .ok (b', ch', 0) ∧
      b'.Fifo .sell 100 [x.withRemaining 4, y] := by
  have hrun : ∀ ch : Channel, ∃ s x y b' ch',
      [lateAsk 1, lateAsk 2].foldlM
        (fun s r => OrderBook.processRequest s.1 s.2 r)
        ({ (OrderBook.init 4 : MapBook ScanPool) with
          nextMarketOrderId := wordSize - 1 }, ch) = .ok s ∧
      s.1.Fifo .sell 100 [x, y] ∧
      x.marketOrderId = wordSize - 1 ∧
      y.marketOrderId = (wordSize - 1 + 1) % wordSize ∧
      s.1.matchOrder s.2 (crossingBid 1) = .ok (b', ch', 0) ∧
      b'.Fifo .sell 100 [x.withRemaining 4, y] :=
    fun ch => ⟨_, _, _, _, _, rfl,
      ⟨[0, 1], ⟨_, rfl, .visit rfl (.visit rfl .done)⟩, rfl⟩, rfl, rfl, rfl,
      ⟨[0, 1], ⟨_, rfl, .visit rfl (.visit rfl .done)⟩, rfl⟩⟩
  obtain ⟨ch, hch⟩ := run_killedBids (wordSize - 2)
  have hlast : (wordSize - 2 + 1) % wordSize = wordSize - 1 := by decide
  rw [hlast] at hch
  obtain ⟨s, x, y, b', ch', hs, hq, hx, hy, hmatch⟩ := hrun ch
  have hlt : y.marketOrderId < x.marketOrderId := by
    rw [hy, hx]
    decide
  refine ⟨_, s, x, y, b', ch', freshKeys_killedBids (wordSize - 2), ?_, hq, hlt,
    hmatch⟩
  unfold OrderBook.run OrderBook.processAll at hch ⊢
  rw [List.foldlM_append, hch, ok_bind]
  exact hs

end Wrapped

end NanoExchange
