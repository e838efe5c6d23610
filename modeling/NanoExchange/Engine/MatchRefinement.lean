import NanoExchange.Engine.Representation
import NanoExchange.Engine.Sweep

/-!
# The sweep of a book is the sweep of its ladder

The two nested loops of `match`, over a book in memory, perform exactly the
fills of `sweep` over the ladder it represents, in the same order and with the
same reports.  The inner loop is a sweep whose reach is one price
(`LRep.matchLevel_ok`); re-fetching the best level and sweeping it again is a
sweep of everything that crosses (`sweep_level`, `LRep.matchAgainst_ok`).

The iteration bounds of the loops are never reached, since every order holds
at least one share.
-/

namespace NanoExchange

open Lib

namespace Channel

/-- The channel after some events have been reported. -/
def report (ch : Channel) (d : Dialect) (n : OrderId) (es : List Event) :
    Channel where
  matchIds := n
  outputs := ch.outputs ++ es.flatMap (Event.outputs d)

theorem report_nil (ch : Channel) (d : Dialect) :
    ch.report d ch.matchIds [] = ch := by
  simp [report]

theorem report_append
    (ch : Channel) (d : Dialect) (n m : OrderId) (es fs : List Event) :
    (ch.report d n es).report d m fs = ch.report d m (es ++ fs) := by
  simp [report]

theorem report_cons
    (ch : Channel) (d : Dialect) (n m : OrderId) (e : Event)
    (es : List Event) :
    (ch.report d n [e]).report d m es = ch.report d m (e :: es) :=
  ch.report_append d n m [e] es

end Channel

/-- The TRADE updates of a book are those of the dialect. -/
def TradesIn (Lv : Type) [LevelTable Lv] (d : Dialect) : Prop :=
  ∀ tickerId o fill matchId,
    LevelTable.tradeUpdate Lv tickerId o fill matchId =
      tradeUpdate tickerId o fill (d.tradeMatchId matchId)

namespace LRep

variable {Lv P : Type} [LevelTable Lv] [LawfulLevels Lv] [ObjectPool P]
variable {b : OrderBook Lv P} {L : Located}

/-- Reading the head of a level while a sweep is at it. -/
theorem loopHead_none
    (h : LRep b L) {s : Side} {k : Price} (hk : LawfulLevels.Valid Lv k)
    (hnone : L.ptrs s k = []) :
    LevelTable.loopHead b.levels s k = .ok none := by
  rw [LawfulLevels.loopHead_eq s h.levels hk, Located.contents, hnone]
  rfl

theorem ptrs_head
    {s : Side} {p : Ptr} {o : OrderInfo} {t : List (Ptr × OrderInfo)}
    (hs : L s = (p, o) :: t) :
    ∃ l, L.ptrs s o.price = p :: l := by
  rw [Located.ptrs, queueAt, hs, List.filter_cons_of_pos (by simp [slotPrice])]
  exact ⟨_, rfl⟩

theorem loopHead_some
    (h : LRep b L) {s : Side} {p : Ptr} {o : OrderInfo}
    {t : List (Ptr × OrderInfo)} (hs : L s = (p, o) :: t)
    (hk : LawfulLevels.Valid Lv o.price) :
    LevelTable.loopHead b.levels s o.price = .ok (some p) := by
  obtain ⟨l, hl⟩ := ptrs_head hs
  rw [LawfulLevels.loopHead_eq s h.levels hk, Located.contents, hl]
  rfl

theorem levelPrice_head
    (h : LRep b L) {s : Side} {p : Ptr} {o : OrderInfo}
    {t : List (Ptr × OrderInfo)} (hs : L s = (p, o) :: t) :
    LevelTable.levelPrice b.levels s o.price = o.price := by
  obtain ⟨l, hl⟩ := ptrs_head hs
  refine LawfulLevels.levelPrice_eq h.levels ?_
  rw [Located.contents, hl]
  rfl

/-- While a sweep is at a price that nothing precedes, either the first order
has that price or no order has. -/
theorem ptrs_eq_nil
    (h : LRep b L) {s : Side} {k : Price}
    (hbest : ∀ e ∈ L s, ¬ s.precedes e.2.price k)
    {p : Ptr} {o : OrderInfo} {t : List (Ptr × OrderInfo)}
    (hs : L s = (p, o) :: t) (ho : o.price ≠ k) :
    L.ptrs s k = [] := by
  refine List.eq_nil_iff_forall_not_mem.mpr fun q hq => ?_
  obtain ⟨e, he, -, hek⟩ := Located.mem_ptrs.mp hq
  have hsorted := h.sorted s
  rw [hs] at he hsorted hbest
  rcases List.mem_cons.mp he with rfl | he
  · exact ho hek
  · have hle : ¬ s.precedes e.2.price o.price :=
      (List.pairwise_cons.mp hsorted).1 e he
    rw [hek] at hle
    exact ho (Std.Trichotomous.trichotomous _ _
      (hbest (p, o) List.mem_cons_self) hle)

/-- One fill of the order at the front of a side: the order is overwritten
with what is left of it. -/
theorem fillHead
    (h : LRep b L) {s : Side} {p : Ptr} {o : OrderInfo} {mo : MEOrder}
    {t : List (Ptr × OrderInfo)} (hs : L s = (p, o) :: t)
    (hmo : b.heap p = some mo) (left : Quantity) :
    LRep { b with
        heap := b.heap.write p { mo with info := o.withRemaining left } }
      (Function.update L s ((p, o.withRemaining left) :: t)) := by
  have hmem : (p, o) ∈ L s := by
    rw [hs]
    exact List.mem_cons_self
  rw [← h.rewrite_head hs]
  exact h.write hmem hmo rfl rfl rfl

end LRep

namespace OrderBook

variable {Lv P : Type} [LevelTable Lv] [ObjectPool P]

/-- The part of the inner loop's body before the recursive call. -/
theorem matchLevel_fill
    {d : Dialect} (hd : TradesIn Lv d)
    {a : OrderArgs} {k : Price} (fuel : Nat) {b : OrderBook Lv P}
    (ch : Channel) {q : Quantity} {p : Ptr} {mo : MEOrder}
    (hhead : LevelTable.loopHead b.levels a.side.opposite k = .ok (some p))
    (hprice : LevelTable.levelPrice b.levels a.side.opposite k = mo.info.price)
    (hmo : b.heap p = some mo) (hq : q ≠ 0) :
    matchLevel a k (fuel + 1) b ch q =
      let fill := min q mo.info.remainingQuantity
      let o := mo.info.withRemaining (mo.info.remainingQuantity - fill)
      let b₁ := { b with heap := b.heap.write p { mo with info := o } }
      let ch₁ := ch.report d ((ch.matchIds + 1) % wordSize)
        [.filled a o fill (q - fill) ch.matchIds]
      (if mo.info.remainingQuantity - fill = 0 then b₁.remove p
        else .ok b₁) >>= fun b₂ => matchLevel a k fuel b₂ ch₁ (q - fill) := by
  have hsub₁ : subQuantity q (min q mo.info.remainingQuantity) =
      .ok (q - min q mo.info.remainingQuantity) :=
    subQuantity_of_le (Nat.min_le_left _ _)
  have hsub₂ : subQuantity mo.info.remainingQuantity
      (min q mo.info.remainingQuantity) =
      .ok (mo.info.remainingQuantity - min q mo.info.remainingQuantity) :=
    subQuantity_of_le (Nat.min_le_right _ _)
  simp only [matchLevel, hhead, ok_bind, hq, if_false, Heap.read_ok hmo,
    hsub₁, hsub₂, hprice]
  simp only [Channel.report, Channel.nextMatchId, Channel.peekMatchId,
    Channel.sendClientResponse, Channel.sendMarketUpdate, Event.outputs,
    hd _ _ _ _, List.append_assoc, List.flatMap_cons, List.flatMap_nil,
    List.cons_append, List.nil_append, List.append_nil,
    OrderInfo.withRemaining_price]
  split_ifs <;> rfl

/-- The inner loop stops at once at a level without orders, or when nothing is
wanted. -/
theorem matchLevel_stop
    {a : OrderArgs} {k : Price} {fuel : Nat} {b : OrderBook Lv P}
    {ch : Channel} {q : Quantity} {head : Option Ptr}
    (hhead : LevelTable.loopHead b.levels a.side.opposite k = .ok head)
    (hstop : head = none ∨ q = 0) (hfuel : 0 < fuel) :
    matchLevel a k fuel b ch q = .ok (b, ch, q) := by
  obtain ⟨fuel, rfl⟩ := Nat.exists_eq_succ_of_ne_zero hfuel.ne'
  simp only [matchLevel, hhead, ok_bind]
  rcases hstop with rfl | rfl
  · rfl
  · cases head <;> rfl

end OrderBook

namespace LRep

variable {Lv P : Type} [LevelTable Lv] [LawfulLevels Lv] [ObjectPool P]
variable {d : Dialect} {a : OrderArgs}

section Head

variable {b : OrderBook Lv P} {L : Located} {p : Ptr} {o : OrderInfo}
variable {t : List (Ptr × OrderInfo)} {q : Quantity}

/-- The head order is filled and leaves the book. -/
theorem matchLevel_full
    (hd : TradesIn Lv d) (h : LRep b L)
    (hs : L a.side.opposite = (p, o) :: t)
    (hk : LawfulLevels.Valid Lv o.price) (ch : Channel) (hq : q ≠ 0)
    (hle : o.remainingQuantity ≤ q) (fuel : Nat) :
    ∃ b₂, OrderBook.matchLevel a o.price (fuel + 1) b ch q =
        OrderBook.matchLevel a o.price fuel b₂
          (ch.report d ((ch.matchIds + 1) % wordSize)
            [.filled a (o.withRemaining 0) o.remainingQuantity
              (q - o.remainingQuantity) ch.matchIds])
          (q - o.remainingQuantity) ∧
      LRep b₂ (Function.update L a.side.opposite t) ∧
      b₂.nextMarketOrderId = b.nextMarketOrderId := by
  obtain ⟨mo, hmo, rfl⟩ : ∃ mo, b.heap p = some mo ∧ mo.info = o :=
    Heap.exists_of_info (h.info _ (p, o) (by rw [hs]; simp))
  have hfill := OrderBook.matchLevel_fill hd fuel ch (h.loopHead_some hs hk)
    (h.levelPrice_head hs) hmo hq
  have hwrite := h.fillHead hs hmo 0
  dsimp only at hfill
  rw [Nat.min_eq_right hle, Nat.sub_self, if_pos rfl] at hfill
  obtain ⟨b₂, hremove, hrep, hnext⟩ := hwrite.remove
    (p := p) (o := mo.info.withRemaining 0) (s := a.side.opposite)
    (by rw [Function.update_self]; exact List.mem_cons_self)
  rw [hwrite.drop_head (Function.update_self ..), Function.update_idem] at hrep
  rw [hremove, ok_bind] at hfill
  exact ⟨b₂, hfill, hrep, hnext⟩

/-- The head order gives all that is wanted and stays. -/
theorem matchLevel_part
    (hd : TradesIn Lv d) (h : LRep b L)
    (hs : L a.side.opposite = (p, o) :: t)
    (hk : LawfulLevels.Valid Lv o.price) (ch : Channel) (hq : q ≠ 0)
    (hlt : q < o.remainingQuantity) {fuel : Nat} (hfuel : 0 < fuel) :
    ∃ b₂, OrderBook.matchLevel a o.price (fuel + 1) b ch q =
        .ok (b₂, ch.report d ((ch.matchIds + 1) % wordSize)
          [.filled a (o.withRemaining (o.remainingQuantity - q)) q 0
            ch.matchIds], 0) ∧
      LRep b₂ (Function.update L a.side.opposite
        ((p, o.withRemaining (o.remainingQuantity - q)) :: t)) ∧
      b₂.nextMarketOrderId = b.nextMarketOrderId := by
  obtain ⟨mo, hmo, rfl⟩ : ∃ mo, b.heap p = some mo ∧ mo.info = o :=
    Heap.exists_of_info (h.info _ (p, o) (by rw [hs]; simp))
  have hfill := OrderBook.matchLevel_fill hd fuel ch (h.loopHead_some hs hk)
    (h.levelPrice_head hs) hmo hq
  have hwrite := h.fillHead hs hmo (mo.info.remainingQuantity - q)
  have hhead' := hwrite.loopHead_some (Function.update_self ..) hk
  dsimp only at hfill
  rw [Nat.min_eq_left hlt.le, Nat.sub_self,
    if_neg (Nat.sub_ne_zero_of_lt hlt), ok_bind] at hfill
  exact ⟨_, hfill.trans (OrderBook.matchLevel_stop hhead' (.inr rfl) hfuel),
    hwrite, rfl⟩

end Head

/-- **The inner loop of `match` sweeps one price.** -/
theorem matchLevel_ok
    (hd : TradesIn Lv d) {k : Price} (hk : LawfulLevels.Valid Lv k)
    {b : OrderBook Lv P} {L : Located} (ch : Channel) {q : Quantity}
    {fuel : Nat} {l : List (Ptr × OrderInfo)}
    (h : LRep b L) (hs : L a.side.opposite = l)
    (hbest : ∀ e ∈ l, ¬ a.side.opposite.precedes e.2.price k)
    (hqty : ∀ e ∈ l, 0 < e.2.remainingQuantity)
    (hfuel : q < fuel) :
    let r := sweep (· = k) a ch.matchIds q (l.map Prod.snd)
    ∃ b' l', OrderBook.matchLevel a k fuel b ch q =
        .ok (b', ch.report d r.matchIds r.fills, r.remaining) ∧
      LRep b' (Function.update L a.side.opposite l') ∧
      l'.map Prod.snd = r.resting ∧
      b'.nextMarketOrderId = b.nextMarketOrderId := by
  have hpos : 0 < fuel := Nat.zero_lt_of_lt hfuel
  induction l generalizing b L ch q fuel with
  | nil =>
      have hnone : L.ptrs a.side.opposite k = [] := by
        rw [Located.ptrs, hs]
        rfl
      refine ⟨b, [], ?_, ?_, rfl, rfl⟩
      · rw [OrderBook.matchLevel_stop (h.loopHead_none hk hnone) (.inl rfl)
          hpos]
        simp [sweep, Channel.report_nil]
      · rwa [← hs, Function.update_eq_self]
  | cons e t ih =>
      obtain ⟨p, o⟩ := e
      have hself : LRep b (Function.update L a.side.opposite ((p, o) :: t)) := by
        rwa [← hs, Function.update_eq_self]
      by_cases ho : o.price = k
      swap
      · have hnone := h.ptrs_eq_nil (hs ▸ hbest) hs ho
        refine ⟨b, (p, o) :: t, ?_, hself, ?_, rfl⟩
        · rw [OrderBook.matchLevel_stop (h.loopHead_none hk hnone) (.inl rfl)
            hpos]
          rw [List.map_cons, sweep_stop _ _ _ ho, Channel.report_nil]
        · rw [List.map_cons, sweep_stop _ _ _ ho]
      subst ho
      have hhead := h.loopHead_some hs hk
      by_cases hq : q = 0
      · subst hq
        refine ⟨b, (p, o) :: t, ?_, hself, ?_, rfl⟩
        · rw [OrderBook.matchLevel_stop hhead (.inr rfl) hpos, sweep_zero,
            Channel.report_nil]
        · rw [sweep_zero]
      obtain ⟨fuel, rfl⟩ := Nat.exists_eq_succ_of_ne_zero hpos.ne'
      by_cases hle : o.remainingQuantity ≤ q
      · have ho : 0 < o.remainingQuantity := hqty (p, o) List.mem_cons_self
        obtain ⟨b₂, hfill, hrep, hnext⟩ :=
          h.matchLevel_full hd hs hk ch hq hle fuel
        obtain ⟨b', l', hloop, hrep', hmap, hnext'⟩ :=
          ih (ch.report d ((ch.matchIds + 1) % wordSize)
              [.filled a (o.withRemaining 0) o.remainingQuantity
                (q - o.remainingQuantity) ch.matchIds])
            hrep (Function.update_self ..)
            (fun e he => hbest e (List.mem_cons_of_mem _ he))
            (fun e he => hqty e (List.mem_cons_of_mem _ he))
            (show q - o.remainingQuantity < fuel by lia) (by lia)
        rw [Function.update_idem] at hrep'
        rw [List.map_cons, sweep_full (R := (· = o.price)) hq rfl hle]
        refine ⟨b', l', ?_, hrep', hmap, hnext'.trans hnext⟩
        rw [hfill, hloop, Channel.report_cons]
        rfl
      · rw [List.map_cons, sweep_part (R := (· = o.price)) hq rfl hle]
        obtain ⟨b₂, hfill, hrep, hnext⟩ :=
          h.matchLevel_part hd hs hk ch hq (by lia)
            (show 0 < fuel by lia)
        exact ⟨b₂, _, hfill, hrep, rfl, hnext⟩

/-- A side without a best level is empty. -/
theorem best_none
    {b : OrderBook Lv P} {L : Located} (h : LRep b L) {s : Side}
    (hbest : LevelTable.best b.levels s = none) :
    L s = [] := by
  cases hs : L s with
  | nil => rfl
  | cons e t =>
      obtain ⟨l, hl⟩ := ptrs_head (p := e.1) (o := e.2) hs
      have hnone := LawfulLevels.best_none h.levels hbest e.2.price
      rw [Located.contents, Located.ends_eq_none, hl] at hnone
      cases hnone

/-- The best level of a side is that of its first order. -/
theorem best_some
    {b : OrderBook Lv P} {L : Located} (h : LRep b L) {s : Side} {k : Price}
    (hbest : LevelTable.best b.levels s = some k) :
    (∀ e ∈ L s, ¬ s.precedes e.2.price k) ∧
      ∃ p o t, L s = (p, o) :: t ∧ o.price = k := by
  obtain ⟨hsome, hmin⟩ := LawfulLevels.best_some h.levels hbest
  have hopen : ∀ e ∈ L s, (L.contents s e.2.price).isSome := by
    intro e he
    rw [Located.contents, Located.ends_of_ne_nil]
    · rfl
    · exact List.ne_nil_of_mem (Located.mem_ptrs.mpr ⟨e, he, rfl, rfl⟩)
  have hle : ∀ e ∈ L s, ¬ s.precedes e.2.price k :=
    fun e he => hmin _ (hopen e he)
  refine ⟨hle, ?_⟩
  have hne : L.ptrs s k ≠ [] := by
    intro hnil
    rw [Located.contents, Located.ends_eq_none.mpr hnil] at hsome
    cases hsome
  cases hs : L s with
  | nil =>
      rw [Located.ptrs, hs] at hne
      exact absurd rfl hne
  | cons e t =>
      refine ⟨e.1, e.2, t, rfl, ?_⟩
      by_contra hek
      exact hne (h.ptrs_eq_nil hle hs hek)

/-- **The outer loop of `match` sweeps all that crosses.** -/
theorem matchAgainst_ok
    (hd : TradesIn Lv d) {b : OrderBook Lv P} {L : Located} (ch : Channel)
    {q : Quantity} {fuel : Nat} (h : LRep b L)
    (hqty : ∀ e ∈ L a.side.opposite, 0 < e.2.remainingQuantity)
    (hfuel : q < fuel) :
    let r := sweep (a.side.crosses a.price) a ch.matchIds q
      ((L a.side.opposite).map Prod.snd)
    ∃ b' l', OrderBook.matchAgainst a fuel b ch q =
        .ok (b', ch.report d r.matchIds r.fills, r.remaining) ∧
      LRep b' (Function.update L a.side.opposite l') ∧
      l'.map Prod.snd = r.resting ∧
      b'.nextMarketOrderId = b.nextMarketOrderId := by
  induction fuel generalizing b L ch q with
  | zero => exact absurd hfuel (Nat.not_lt_zero q)
  | succ fuel ih =>
      have hself : LRep b
          (Function.update L a.side.opposite (L a.side.opposite)) := by
        rwa [Function.update_eq_self]
      cases hbest : LevelTable.best b.levels a.side.opposite with
      | none =>
          refine ⟨b, _, ?_, hself, ?_, rfl⟩
          · simp [OrderBook.matchAgainst, hbest, h.best_none hbest, sweep_nil,
              Channel.report_nil]
          · simp [h.best_none hbest, sweep_nil]
      | some k =>
          obtain ⟨hle, p, o, t, hs, rfl⟩ := h.best_some hbest
          by_cases hq : q = 0
          · subst hq
            refine ⟨b, _, ?_, hself, by rw [sweep_zero], rfl⟩
            simp [OrderBook.matchAgainst, hbest, sweep_zero,
              Channel.report_nil]
          have hprice := h.levelPrice_head hs
          by_cases hcross : a.side.crosses a.price o.price
          swap
          · refine ⟨b, _, ?_, hself, ?_, rfl⟩
            · simp only [OrderBook.matchAgainst, hbest, hq, if_false, hprice,
                hcross, hs, List.map_cons, sweep_stop _ _ _ hcross,
                Channel.report_nil]
            · rw [hs, List.map_cons, sweep_stop _ _ _ hcross]
          have hmem : (p, o) ∈ L a.side.opposite := by
            rw [hs]
            exact List.mem_cons_self
          obtain ⟨b₁, l₁, hlevel, hrep₁, hmap₁, hnext₁⟩ :=
            matchLevel_ok (k := o.price) hd (h.placed _ _ hmem).2 ch h rfl hle
              hqty (Nat.lt_succ_self q)
          generalize hr₁ : sweep (· = o.price) a ch.matchIds q
            ((L a.side.opposite).map Prod.snd) = r₁ at hlevel hmap₁
          have hlt : r₁.remaining < fuel := by
            have hprogress := sweep_remaining_lt (R := (· = o.price)) (a := a)
              hq rfl (hqty _ hmem) ch.matchIds (t.map Prod.snd)
            rw [← hr₁, hs]
            exact lt_of_lt_of_le hprogress (Nat.lt_succ_iff.mp hfuel)
          have hqty₁ : ∀ e ∈ Function.update L a.side.opposite l₁
              a.side.opposite, 0 < e.2.remainingQuantity := by
            rw [Function.update_self]
            intro e he
            rw [← hr₁] at hmap₁
            refine sweep_resting_pos ?_ e.2
              (hmap₁ ▸ List.mem_map_of_mem he)
            intro o' ho'
            obtain ⟨e', he', rfl⟩ := List.mem_map.mp ho'
            exact hqty e' he'
          obtain ⟨b₂, l₂, hrest, hrep₂, hmap₂, hnext₂⟩ :=
            ih (ch.report d r₁.matchIds r₁.fills) hrep₁ hqty₁ hlt
          rw [Function.update_self, hmap₁] at hrest hmap₂
          rw [Function.update_idem] at hrep₂
          rw [sweep_level hcross, hr₁]
          refine ⟨b₂, l₂, ?_, hrep₂, hmap₂, hnext₂.trans hnext₁⟩
          simp only [OrderBook.matchAgainst, hbest, hq, if_false, hprice,
            hcross, if_true, hlevel, ok_bind, hrest, Channel.report_append]
          rfl

end LRep

end NanoExchange
