import NanoExchange.Engine.MatchingEngine
import NanoExchange.Engine.Trades
import NanoExchange.Lib.Lists

/-!
# Fills and their match ids

All books of an engine draw their match ids from one counter, so over a whole
run the fills are numbered 1, 2, 3, ... in the order in which they happen
(`Numbered`, which composes over histories).  Each fill moves shares between
two orders of opposite sides at the price of the resting one (`Event.Proper`).
The fills are what the requests have traded in the books (`Trading`).

From this follows what the streams of the engine show of the fills: each is
told once to either party and once to the public, under one number.
-/

namespace NanoExchange

open Lib

/-- A fill moves shares, within the limit of the incoming order, against an
order of the opposite side. -/
def Event.Proper : Event → Prop
  | .filled a o fill _ _ =>
      0 < fill ∧ a.side.crosses a.price o.price ∧ o.side = a.side.opposite
  | _ => True

/-- The fills of a history are numbered from `n` on, and `m` is the next
number; as long as the counter does not wrap. -/
def Numbered (n : OrderId) (es : List Event) (m : OrderId) : Prop :=
  n + (es.filterMap Event.fillId).length < wordSize →
    es.filterMap Event.fillId =
      List.range' n (es.filterMap Event.fillId).length ∧
    m = n + (es.filterMap Event.fillId).length

namespace Numbered

theorem none
    {es : List Event} (h : es.filterMap Event.fillId = []) (n : OrderId) :
    Numbered n es n := by
  intro _
  simp [h]

theorem append
    {n m k : OrderId} {es fs : List Event}
    (h₁ : Numbered n es m) (h₂ : Numbered m fs k) :
    Numbered n (es ++ fs) k := by
  intro hlt
  rw [List.filterMap_append, List.length_append] at hlt ⊢
  obtain ⟨he, rfl⟩ := h₁ (by lia)
  obtain ⟨hf, rfl⟩ := h₂ (by lia)
  refine ⟨?_, by lia⟩
  rw [he, hf, List.length_range', List.length_range', List.range'_append_1]

theorem sweep
    {R : Price → Prop} [DecidablePred R] (a : OrderArgs) (n : OrderId)
    (q : Quantity) (l : List OrderInfo) :
    Numbered n (NanoExchange.sweep R a n q l).fills
      (NanoExchange.sweep R a n q l).matchIds := by
  have hone : ∀ (m : OrderId) (o : OrderInfo) (fill remaining : Quantity),
      Numbered m [.filled a o fill remaining m] ((m + 1) % wordSize) := by
    intro m o fill remaining hlt
    refine ⟨by simp [Event.fillId], ?_⟩
    exact Nat.mod_eq_of_lt hlt
  induction l generalizing n q with
  | nil => exact none rfl n
  | cons o l ih =>
      by_cases hq : q = 0
      · rw [hq, sweep_zero]
        exact none rfl n
      by_cases ho : R o.price
      · by_cases hle : o.remainingQuantity ≤ q
        · rw [sweep_full hq ho hle]
          exact (hone n _ _ _).append (ih _ _)
        · rw [sweep_part hq ho hle]
          exact hone n _ _ _
      · rw [sweep_stop n q l ho]
        exact none rfl n

theorem enter
    (A : Ladder) (n : OrderId) (replacing : Bool) (a : OrderArgs) :
    Numbered n (A.enter n replacing a).events
      (A.enter n replacing a).matchIds := by
  have hsweep := Numbered.sweep (R := a.side.crosses a.price) a n
    a.initialQuantity (A.side a.side.opposite)
  rcases A.enter_cases n replacing a with
    ⟨-, heq⟩ | ⟨-, -, heq⟩ | ⟨-, -, heq⟩
  · rw [heq]
    exact hsweep
  · rw [heq]
    exact hsweep.append (none rfl _)
  · rw [heq]
    exact hsweep.append (none rfl _)

/-- **The fills of a request are numbered.** -/
theorem step (A : Ladder) (n : OrderId) (r : MEClientRequest) :
    Numbered n (A.step n r).events (A.step n r).matchIds := by
  rcases A.step_shapes n r with
    ⟨e, -, heq, he⟩ | ⟨o, -, -, -, heq⟩ | ⟨-, heq⟩ | ⟨old, -, -, -, heq⟩
  · rw [heq]
    refine none ?_ n
    rcases he with rfl | ⟨o, -, rfl⟩ <;> rfl
  · rw [heq]
    exact none rfl n
  · have hhead : Numbered n [.accepted (A.newArgs r)] n := none rfl n
    rw [heq]
    exact hhead.append (Numbered.enter _ n false _)
  · have hhead : Numbered n [.modified (A.replacementArgs r old.side) old] n :=
      none rfl n
    rw [heq]
    exact hhead.append (Numbered.enter _ n true _)

/-- **The fills of a run are numbered 1, 2, 3, ...** -/
theorem run (rs : List MEClientRequest) :
    Numbered 1 (Market.run rs).events (Market.run rs).matchIds := by
  refine foldl_invariant (g := Market.next)
    (fun M (_ : List MEClientRequest) => Numbered 1 M.events M.matchIds)
    ?_ (t := Market.start) (l := rs) (none rfl 1)
  intro M r l hM
  exact hM.append (step _ _ _)

end Numbered

namespace Event

theorem proper_sweep
    (a : OrderArgs) (n : OrderId) (q : Quantity) {l : List OrderInfo}
    (hl : ∀ o ∈ l, 0 < o.remainingQuantity ∧ o.side = a.side.opposite) :
    ∀ e ∈ (sweep (a.side.crosses a.price) a n q l).fills, e.Proper := by
  induction l generalizing n q with
  | nil => simp [sweep]
  | cons o l ih =>
      obtain ⟨hpos, hside⟩ := hl o List.mem_cons_self
      by_cases hq : q = 0
      · simp [hq, sweep_zero]
      by_cases ho : a.side.crosses a.price o.price
      · by_cases hle : o.remainingQuantity ≤ q
        · rw [sweep_full hq ho hle]
          intro e he
          rcases List.mem_cons.mp he with rfl | he
          · exact ⟨hpos, ho, hside⟩
          · exact ih _ _ (fun x hx => hl x (List.mem_cons_of_mem _ hx)) e he
        · rw [sweep_part hq ho hle]
          intro e he
          rw [List.mem_singleton] at he
          subst he
          exact ⟨Nat.pos_of_ne_zero hq, ho, hside⟩
      · simp [sweep_stop n q l ho]

theorem proper_enter
    {A : Ladder} (h : A.WF) (n : OrderId) (replacing : Bool) (a : OrderArgs) :
    ∀ e ∈ (A.enter n replacing a).events, e.Proper := by
  have hsweep := proper_sweep a n a.initialQuantity
    fun o (ho : o ∈ A.side a.side.opposite) =>
      ⟨h.side_pos _ o ho, h.placed _ o ho⟩
  intro e he
  rcases Ladder.mem_enter_events he with he | ⟨q, rfl⟩ | ⟨q, rfl⟩
  · exact hsweep e he
  · trivial
  · trivial

/-- **Every fill of a request is proper.** -/
theorem proper_step
    {A : Ladder} (h : A.WF) (n : OrderId) (r : MEClientRequest) :
    ∀ e ∈ (A.step n r).events, e.Proper := by
  rcases A.step_shapes n r with
    ⟨e, -, heq, he⟩ | ⟨o, -, -, -, heq⟩ | ⟨-, heq⟩ | ⟨old, -, -, -, heq⟩
  · rw [heq]
    rcases he with rfl | ⟨o, -, rfl⟩ <;>
      simp [Proper, Ladder.rejection]
  · rw [heq]
    simp [Proper]
  · have hbump := (Ladder.trims_bump h).wf h
    rw [heq]
    simpa [Proper] using proper_enter hbump n false (A.newArgs r)
  · rw [heq]
    simpa [Proper] using
      proper_enter (Ladder.wf_erase_bump h old.key) n true
        (A.replacementArgs r old.side)

/-- **Every fill of a run is proper.** -/
theorem proper_run {rs : List MEClientRequest} (h : FreshKeys rs) :
    ∀ e ∈ (Market.run rs).events, e.Proper := by
  have hinv := foldl_invariant (g := Market.next)
    (fun M l => M.Ready l ∧ ∀ e ∈ M.events, e.Proper) ?_
    (t := Market.start) (l := rs) ⟨Market.Ready.start h, by simp [Market.start]⟩
  · exact hinv.2
  · rintro M r l ⟨hready, hM⟩
    refine ⟨hready.next, fun e he => ?_⟩
    rcases List.mem_append.mp he with he | he
    · exact hM e he
    · exact proper_step (hready.wf _) _ r e he

end Event

namespace Market

theorem sent_responses (d : Dialect) (M : Market) :
    (M.sent d).responses = M.events.flatMap (Event.responses d) :=
  List.filterMap_flatMap

theorem sent_updates (d : Dialect) (M : Market) :
    (M.sent d).updates = M.events.flatMap (Event.updates d) :=
  List.filterMap_flatMap

end Market

/-- The fills of a history, in the order in which they have happened. -/
def Market.fills (M : Market) : List Fill :=
  fillsOf M.events

/-- The messages about one fill: `x` to the owner of the resting order, `y` to
the owner of the incoming order, `u` to the public. -/
structure FillMessages (f : Fill) (x y : MEClientResponse)
    (u : MEMarketUpdate) : Prop where
  executed : x.status = .executed ∧ y.status = .executed
  trade : u.type = .trade
  matchId : x.matchId = f.matchId ∧ y.matchId = f.matchId ∧
    u.matchId = f.matchId
  resting : x.clientId = f.resting.clientId ∧
    x.clientOrderId = f.resting.clientOrderId ∧
    x.marketOrderId = f.resting.marketOrderId ∧ x.side = f.resting.side
  incoming : y.clientId = f.incoming.clientId ∧
    y.clientOrderId = f.incoming.clientOrderId ∧
    y.marketOrderId = f.incoming.marketOrderId ∧ y.side = f.incoming.side
  sides : f.incoming.side = f.resting.side.opposite
  quantity : 0 < f.shares ∧ x.executedQty = f.shares ∧
    y.executedQty = f.shares ∧ u.qty = f.shares
  /-- The price is the limit of the resting order. -/
  price : x.executionPrice = f.resting.price ∧
    y.executionPrice = f.resting.price ∧ u.price = f.resting.price
  /-- The price is within the limit of the incoming order. -/
  limit : f.incoming.side.crosses f.incoming.price f.resting.price
  ticker : x.tickerId = f.incoming.tickerId ∧
    y.tickerId = f.incoming.tickerId ∧ u.tickerId = f.incoming.tickerId
  order : u.marketOrderId = f.resting.marketOrderId

theorem Event.fill_messages
    {e : Event} (h : e.Proper) {f : Fill} (hf : e.fill? = some f) :
    ∃ x y u, e.responses Dialect.map = [x, y] ∧
      e.updates Dialect.map = [u] ∧ FillMessages f x y u := by
  cases e with
  | filled a o fill remaining matchId =>
      obtain ⟨hpos, hcross, hside⟩ := h
      obtain rfl := Option.some.inj hf
      refine ⟨_, _, _, rfl, rfl, ⟨rfl, rfl⟩, rfl, ⟨rfl, rfl, rfl⟩,
        ⟨rfl, rfl, rfl, rfl⟩, ⟨rfl, rfl, rfl, rfl⟩, ?_, ⟨hpos, rfl, rfl, rfl⟩,
        ⟨rfl, rfl, rfl⟩, hcross, ⟨rfl, rfl, rfl⟩, rfl⟩
      show a.side = o.side.opposite
      rw [hside, Side.opposite_opposite]
  | _ => cases hf

/-- **The fills of a run, as its streams show them.** -/
structure FillsReported (ch : Channel) (fills : List Fill) : Prop where
  /-- The k-th fill has the match id k. -/
  numbered : fills.map Fill.matchId = List.range' 1 fills.length
  counter : ch.matchIds = fills.length + 1
  /-- The TRADE updates carry the match ids 1, 2, 3, ... in this order. -/
  trades : (ch.updates.filter fun u => u.type = .trade).map
    MEMarketUpdate.matchId = List.range' 1 fills.length
  /-- So do the EXECUTED responses, two of each. -/
  executions : (ch.responses.filter fun r => r.status = .executed).map
    MEClientResponse.matchId =
      (List.range' 1 fills.length).flatMap fun k => [k, k]
  /-- Two adjacent responses and one update carry the match id of a fill, and
  they are about this fill. -/
  messages : ∀ f ∈ fills, ∃ x y u,
    ch.responses.filter (fun r => r.matchId = f.matchId) = [x, y] ∧
    [x, y] <:+: ch.responses ∧
    ch.updates.filter (fun u => u.matchId = f.matchId) = [u] ∧
    FillMessages f x y u
  /-- No other message carries a match id. -/
  others : (∀ r ∈ ch.responses,
      r.status ≠ .executed → r.matchId = orderIdInvalid) ∧
    ∀ u ∈ ch.updates, u.type ≠ .trade → u.matchId = orderIdInvalid

namespace Event

theorem trade_ids (e : Event) :
    ((e.updates Dialect.map).filter fun u => u.type = .trade).map
      MEMarketUpdate.matchId = e.fillId.toList := by
  cases h : e.fillId with
  | none =>
      have hnone : (e.updates Dialect.map).filter
          (fun u => u.type = .trade) = [] :=
        List.filter_eq_nil_iff.mpr fun u hu => by
          simp [(updates_of_fillId_none h _ u hu).1]
      rw [hnone]
      rfl
  | some k =>
      cases e with
      | filled =>
          obtain rfl := Option.some.inj h
          rfl
      | _ => cases h

theorem execution_ids (e : Event) :
    ((e.responses Dialect.map).filter fun r => r.status = .executed).map
      MEClientResponse.matchId = e.fillId.toList.flatMap fun k => [k, k] := by
  cases h : e.fillId with
  | none =>
      have hnone : (e.responses Dialect.map).filter
          (fun r => r.status = .executed) = [] :=
        List.filter_eq_nil_iff.mpr fun r hr => by
          simp [(responses_of_fillId_none h _ r hr).1]
      rw [hnone]
      rfl
  | some k =>
      cases e with
      | filled =>
          obtain rfl := Option.some.inj h
          rfl
      | _ => cases h

theorem matchId_of_not_executed (e : Event) :
    ∀ r ∈ e.responses Dialect.map,
      r.status ≠ .executed → r.matchId = orderIdInvalid := by
  cases h : e.fillId with
  | none => exact fun r hr _ => (responses_of_fillId_none h _ r hr).2
  | some k =>
      cases e with
      | filled =>
          intro r hr hstatus
          rcases List.mem_pair.mp hr with rfl | rfl <;>
            exact absurd rfl hstatus
      | _ => cases h

theorem matchId_of_not_trade (e : Event) :
    ∀ u ∈ e.updates Dialect.map,
      u.type ≠ .trade → u.matchId = orderIdInvalid := by
  cases h : e.fillId with
  | none => exact fun u hu _ => (updates_of_fillId_none h _ u hu).2
  | some k =>
      cases e with
      | filled =>
          intro u hu htype
          obtain rfl := List.mem_singleton.mp hu
          exact absurd rfl htype
      | _ => cases h

/-- The match ids that the messages of an event can carry. -/
theorem matchId_cases (e : Event) :
    (∀ r ∈ e.responses Dialect.map,
      some r.matchId = e.fillId ∨ r.matchId = orderIdInvalid) ∧
    ∀ u ∈ e.updates Dialect.map,
      some u.matchId = e.fillId ∨ u.matchId = orderIdInvalid := by
  cases h : e.fillId with
  | none =>
      exact ⟨fun r hr => .inr (responses_of_fillId_none h _ r hr).2,
        fun u hu => .inr (updates_of_fillId_none h _ u hu).2⟩
  | some k =>
      cases e with
      | filled a o fill remaining matchId =>
          obtain rfl := Option.some.inj h
          constructor
          · intro r hr
            rcases List.mem_pair.mp hr with rfl | rfl <;> exact .inl rfl
          · intro u hu
            obtain rfl := List.mem_singleton.mp hu
            exact .inl rfl
      | _ => cases h

end Event

namespace Market

/-- The match ids of the fills. -/
theorem fills_matchId (M : Market) :
    M.fills.map Fill.matchId = M.events.filterMap Event.fillId := by
  rw [fills, fillsOf, List.map_filterMap]
  exact (List.filterMap_congr fun e _ => e.fillId_eq).symm

/-- A fill with a number of its own is the only one of its event, and no other
event has the number. -/
theorem split_at_fill
    {M : Market} (hnodup : (M.events.filterMap Event.fillId).Nodup) {f : Fill}
    (hf : f ∈ M.fills) :
    ∃ E₁ e E₂, M.events = E₁ ++ e :: E₂ ∧ e.fill? = some f ∧
      ∀ e' ∈ E₁ ++ E₂, e'.fillId ≠ some f.matchId := by
  have hmem : f.matchId ∈ M.events.filterMap Event.fillId := by
    rw [← fills_matchId]
    exact List.mem_map_of_mem hf
  obtain ⟨E₁, e, E₂, hE, hek, hother⟩ :=
    exists_split_of_mem_filterMap hmem hnodup
  refine ⟨E₁, e, E₂, hE, ?_, hother⟩
  rw [e.fillId_eq] at hek
  obtain ⟨f', hf', hid⟩ := Option.map_eq_some_iff.mp hek
  have hmem' : f' ∈ M.fills :=
    List.mem_filterMap.mpr ⟨e, hE ▸ by simp, hf'⟩
  rw [← fills_matchId] at hnodup
  rw [hf', List.inj_on_of_nodup_map hnodup hmem' hf hid]

/-- **The messages about a fill**, and no others, carry its match id. -/
theorem messages_of_fill
    {M : Market} (hnodup : (M.events.filterMap Event.fillId).Nodup)
    (hproper : ∀ e ∈ M.events, e.Proper) {f : Fill} (hf : f ∈ M.fills)
    (hvalid : f.matchId ≠ orderIdInvalid) :
    ∃ x y u,
      (M.sent Dialect.map).responses.filter
        (fun r => r.matchId = f.matchId) = [x, y] ∧
      [x, y] <:+: (M.sent Dialect.map).responses ∧
      (M.sent Dialect.map).updates.filter
        (fun u => u.matchId = f.matchId) = [u] ∧
      FillMessages f x y u := by
  obtain ⟨E₁, e, E₂, hE, hef, hother⟩ := split_at_fill hnodup hf
  obtain ⟨x, y, u, hxy, hu, hmsg⟩ :=
    e.fill_messages (hproper e (hE ▸ by simp)) hef
  refine ⟨x, y, u, ?_, ?_, ?_, hmsg⟩
  · rw [sent_responses, hE, ← hxy]
    refine filter_flatMap_split (fun e' he' r hr hrk => ?_) (fun r hr => ?_)
    · have hrk := of_decide_eq_true hrk
      rcases e'.matchId_cases.1 r hr with h | h
      · exact hother e' he' (hrk ▸ h.symm)
      · exact hvalid (hrk ▸ h)
    · rw [hxy] at hr
      rcases List.mem_pair.mp hr with rfl | rfl
      · exact decide_eq_true hmsg.matchId.1
      · exact decide_eq_true hmsg.matchId.2.1
  · rw [sent_responses, hE, List.flatMap_append, List.flatMap_cons, hxy]
    exact ⟨_, _, by rw [List.append_assoc]⟩
  · rw [sent_updates, hE, ← hu]
    refine filter_flatMap_split (fun e' he' v hv hvk => ?_) (fun v hv => ?_)
    · have hvk := of_decide_eq_true hvk
      rcases e'.matchId_cases.2 v hv with h | h
      · exact hother e' he' (hvk ▸ h.symm)
      · exact hvalid (hvk ▸ h)
    · rw [hu, List.mem_singleton] at hv
      rw [hv]
      exact decide_eq_true hmsg.matchId.2.2

/-- A numbered history is reported fill by fill. -/
theorem fills_reported
    {M : Market} (hnum : Numbered 1 M.events M.matchIds)
    (hproper : ∀ e ∈ M.events, e.Proper) (hlt : M.fills.length < 2 ^ 63) :
    FillsReported (M.sent Dialect.map) M.fills := by
  have hlength : (M.events.filterMap Event.fillId).length = M.fills.length := by
    rw [← fills_matchId, List.length_map]
  have hword : 1 + (M.events.filterMap Event.fillId).length < wordSize := by
    unfold wordSize
    omega
  obtain ⟨hids, hcounter⟩ := hnum hword
  rw [hlength] at hids hcounter
  have hnumbered : M.fills.map Fill.matchId =
      List.range' 1 M.fills.length := by
    rw [fills_matchId, hids]
  have hflat : M.events.flatMap (fun e => e.fillId.toList) =
      M.events.filterMap Event.fillId :=
    (List.filterMap_eq_flatMap_toList Event.fillId M.events).symm
  constructor
  · exact hnumbered
  · exact hcounter.trans (Nat.add_comm _ _)
  · rw [sent_updates, List.filter_flatMap, List.map_flatMap, ← hids, ← hflat]
    exact List.flatMap_congr fun e _ => e.trade_ids
  · rw [sent_responses, List.filter_flatMap, List.map_flatMap, ← hids, ← hflat,
      List.flatMap_assoc]
    exact List.flatMap_congr fun e _ => e.execution_ids
  · intro f hf
    have hnodup : (M.events.filterMap Event.fillId).Nodup := by
      rw [hids]
      exact List.nodup_range'
    refine messages_of_fill hnodup hproper hf ?_
    have hid := List.mem_map_of_mem (f := Fill.matchId) hf
    rw [hnumbered, List.mem_range'_1] at hid
    unfold orderIdInvalid wordSize
    lia
  · rw [sent_responses, sent_updates]
    constructor
    · intro r hr hstatus
      obtain ⟨e, -, hre⟩ := List.mem_flatMap.mp hr
      exact e.matchId_of_not_executed r hre hstatus
    · intro u hu htype
      obtain ⟨e, -, hue⟩ := List.mem_flatMap.mp hu
      exact e.matchId_of_not_trade u hue htype

/-- The number of fills of a history is the number of its TRADE updates. -/
theorem length_trades (M : Market) :
    ((M.sent Dialect.map).updates.filter fun u => u.type = .trade).length =
      (M.events.filterMap Event.fillId).length := by
  rw [← List.length_map (f := MEMarketUpdate.matchId), sent_updates,
    List.filter_flatMap, List.map_flatMap,
    List.filterMap_eq_flatMap_toList Event.fillId]
  exact congrArg List.length (List.flatMap_congr fun e _ => e.trade_ids)

end Market

/-- The order rests somewhere in the book. -/
def OrderBook.Resting {Lv P : Type} [LevelTable Lv] (b : OrderBook Lv P)
    (o : OrderInfo) : Prop :=
  ∃ s k, b.Rests s k o

namespace MatchingEngine

variable (Lv P : Type) [LevelTable Lv] [BookImpl Lv] [ObjectPool P]
variable (books poolSize : Nat)

/-- **What a run has traded**: the fills of each request account for what
happens to the book of its ticker, and they are fills of the order that the
request brings. -/
inductive Trading : List MEClientRequest → List Fill → Prop
  | start : Trading [] []
  | request {rs : List MEClientRequest} {fs gs : List Fill}
      {r : MEClientRequest} {e e' : MatchingEngine Lv P}
      {b b' : OrderBook Lv P} (before : Trading rs fs)
      (run_before : run Lv P books poolSize rs = .ok e)
      (run_after : run Lv P books poolSize (rs ++ [r]) = .ok e')
      (book_before : e.tickerOrderBook[r.tickerId]? = some b)
      (book_after : e'.tickerOrderBook[r.tickerId]? = some b')
      (brought : ∀ f ∈ gs, r.Brings f.incoming.toInfo)
      (trades : Trades b.Resting b'.Resting r.Names gs) :
      Trading (rs ++ [r]) (fs ++ gs)

end MatchingEngine

section Runs

variable {Lv P : Type} [LevelTable Lv] [LawfulLevels Lv] [ObjectPool P]

theorem Rep.resting_iff
    {b : OrderBook Lv P} {A : Ladder} (h : Rep b A) (o : OrderInfo) :
    b.Resting o ↔ o ∈ A.orders := by
  rw [Ladder.mem_orders]
  constructor
  · rintro ⟨s, k, ho⟩
    exact ⟨s, (h.rests_iff.mp ho).1⟩
  · rintro ⟨s, ho⟩
    exact ⟨s, _, h.rests_iff.mpr ⟨ho, rfl⟩⟩

variable [BookImpl Lv] [LawfulBook Lv]

/-- **The fills of the market are what the run has traded in the books.** -/
theorem MatchingEngine.trading_of_run
    {books poolSize : Nat} {rs : List MEClientRequest}
    (hfresh : FreshKeys rs) (htickers : TickersInRange books rs)
    (hprice : ∀ r ∈ rs, Priced Lv r) {e : MatchingEngine Lv P}
    (he : run Lv P books poolSize rs = .ok e) :
    Trading Lv P books poolSize rs (Market.run rs).fills := by
  induction rs using List.reverseRecOn generalizing e with
  | nil => exact .start
  | append_singleton rs r ih =>
      have hfresh' : FreshKeys rs :=
        hfresh.sublist ((List.sublist_append_left rs [r]).filterMap _)
      have htickers' : TickersInRange books rs :=
        fun x hx => htickers x (List.mem_append_left _ hx)
      have hprice' : ∀ x ∈ rs, Priced Lv x :=
        fun x hx => hprice x (List.mem_append_left _ hx)
      obtain ⟨e₀, he₀, -⟩ := foldlM_append_ok he
      have hrep := (run_refines P books poolSize hfresh htickers
        hprice).of_ok he
      have hrep₀ := (run_refines P books poolSize hfresh' htickers'
        hprice').of_ok he₀
      have hticker : r.tickerId < books :=
        htickers r (List.mem_append_right _ (List.mem_singleton_self r))
      have hready := Market.run_ready hfresh
      obtain ⟨b, hb⟩ : ∃ b, e₀.tickerOrderBook[r.tickerId]? = some b :=
        ⟨_, List.getElem?_eq_getElem (hrep₀.books.symm ▸ hticker)⟩
      obtain ⟨b', hb'⟩ : ∃ b, e.tickerOrderBook[r.tickerId]? = some b :=
        ⟨_, List.getElem?_eq_getElem (hrep.books.symm ▸ hticker)⟩
      have hbook := hrep.book _ b' hb'
      rw [Market.run_append, Market.next_ladder_self] at hbook
      have hfills : (Market.run (rs ++ [r])).fills =
          (Market.run rs).fills ++
            fillsOf ((Market.run rs).respond r).events := by
        rw [Market.run_append]
        exact fillsOf_append _ _
      rw [hfills]
      refine .request (ih hfresh' htickers' hprice' he₀) he₀ he hb hb'
        (fun f hf => Ladder.brings_of_step hf) ?_
      exact (Ladder.step_trades (hready.wf r.tickerId) _
        (hready.admits _).head).congr (hrep₀.book _ b hb).resting_iff
          hbook.resting_iff

end Runs

/-- **Each trade is reported once to each party and once to the public, under
one match number**: in every run of an engine with map books that performs
fewer than `2^63` fills, over any number of tickers. -/
theorem engine_fills_reported
    (P : Type) [ObjectPool P] (books poolSize : Nat)
    {rs : List MEClientRequest} (hfresh : FreshKeys rs)
    (htickers : TickersInRange books rs) :
    SucceedsWith (MatchingEngine.run MapLevels P books poolSize rs) fun e =>
      MatchingEngine.Trading MapLevels P books poolSize rs
          (Market.run rs).fills ∧
        ((Market.run rs).fills.length < 2 ^ 63 →
          FillsReported e.channel (Market.run rs).fills) := by
  have hprice : ∀ r ∈ rs, Priced MapLevels r := fun _ _ _ => trivial
  rcases MatchingEngine.run_refines P books poolSize hfresh htickers hprice
    with hfull | ⟨e, he, hrep⟩
  · exact .inl hfull
  · refine .inr ⟨e, he, ?_, fun hlt => ?_⟩
    · exact MatchingEngine.trading_of_run hfresh htickers hprice he
    · have hsent : e.channel = (Market.run rs).sent Dialect.map := hrep.sent
      rw [hsent]
      exact Market.fills_reported (Numbered.run rs) (Event.proper_run hfresh)
        hlt

/-- Two asks that one bid takes, and a bid of another ticker. -/
def takenOrders : List MEClientRequest :=
  [.make .new 1 0 1 .goodTillCancel .sell 100 5,
    .make .new 1 0 2 .goodTillCancel .sell 101 5,
    .make .new 2 0 1 .goodTillCancel .buy 101 7,
    .make .new 2 1 3 .goodTillCancel .buy 50 1,
    .make .new 1 1 3 .fillAndKill .sell 50 1]

/-- Two fills by one bid, and one more on another ticker. -/
theorem engine_fills_reported_example :
    ∃ e, MatchingEngine.run MapLevels ScanPool 2 4 takenOrders = .ok e ∧
      (Market.run takenOrders).fills.map (fun f =>
        (f.matchId, f.resting.clientId, f.incoming.clientId, f.shares)) =
          [(1, 1, 2, 5), (2, 1, 2, 2), (3, 2, 1, 1)] ∧
      MatchingEngine.Trading MapLevels ScanPool 2 4 takenOrders
        (Market.run takenOrders).fills ∧
      FillsReported e.channel (Market.run takenOrders).fills := by
  obtain ⟨e, he⟩ : ∃ e,
      MatchingEngine.run MapLevels ScanPool 2 4 takenOrders = .ok e :=
    ⟨_, rfl⟩
  have hfills : (Market.run takenOrders).fills.map (fun f =>
      (f.matchId, f.resting.clientId, f.incoming.clientId, f.shares)) =
        [(1, 1, 2, 5), (2, 1, 2, 2), (3, 2, 1, 1)] := by
    decide
  obtain ⟨htrading, hreported⟩ :=
    (engine_fills_reported ScanPool 2 4 (by decide) (by decide)).of_ok he
  refine ⟨e, he, hfills, htrading, hreported ?_⟩
  have hlength := congrArg List.length hfills
  rw [List.length_map] at hlength
  rw [hlength]
  decide

end NanoExchange
