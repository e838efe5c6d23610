import NanoExchange.Engine.Equivalence

/-!
# The matching engine

`matching_engine.cpp`: one order book for each ticker, all of them sending
through the engine and drawing match ids from its one counter.  A request is
handed to the book that its ticker id indexes; the index is not checked, and an
index past the end of the vector is `Fault.outOfRange`.

`Market` is the abstract engine, one ladder for each ticker.  `run_refines`
says that every run of an engine is a run of the market, in the dialect of the
books it is built with.
-/

namespace NanoExchange

open Lib

/-- The engine: `ticker_order_book_`, and what the books share. -/
structure MatchingEngine (Lv P : Type) where
  tickerOrderBook : List (OrderBook Lv P)
  channel : Channel

namespace MatchingEngine

variable {Lv P : Type} [LevelTable Lv] [BookImpl Lv] [ObjectPool P]

/-- The constructor. -/
def init (books : Nat) (poolSize : Nat) : MatchingEngine Lv P where
  tickerOrderBook := List.replicate books (OrderBook.init poolSize)
  channel := {}

def processClientRequest (e : MatchingEngine Lv P)
    (request : MEClientRequest) : Except Fault (MatchingEngine Lv P) :=
  match e.tickerOrderBook[request.tickerId]? with
  | none => .error .outOfRange
  | some b => do
      let (b, ch) ← b.processRequest e.channel request
      .ok { tickerOrderBook := e.tickerOrderBook.set request.tickerId b
            channel := ch }

/-- A request that is processed indexes a book. -/
theorem tickerId_lt_of_ok
    {e e' : MatchingEngine Lv P} {r : MEClientRequest}
    (h : e.processClientRequest r = .ok e') :
    r.tickerId < e.tickerOrderBook.length := by
  unfold processClientRequest at h
  cases hbook : e.tickerOrderBook[r.tickerId]? with
  | none =>
      rw [hbook] at h
      cases h
  | some b => exact (List.getElem?_eq_some_iff.mp hbook).1

/-- A run of a fresh engine. -/
def run (Lv P : Type) [LevelTable Lv] [BookImpl Lv] [ObjectPool P]
    (books poolSize : Nat) (rs : List MEClientRequest) :
    Except Fault (MatchingEngine Lv P) :=
  rs.foldlM processClientRequest (init books poolSize)

end MatchingEngine

/-- The resting orders of every ticker, the next match id and the history. -/
structure Market where
  ladder : TickerId → Ladder
  matchIds : OrderId
  events : List Event

namespace Market

/-- The market before any request. -/
def start : Market where
  ladder _ := Ladder.empty
  matchIds := 1
  events := []

/-- What a request makes happen. -/
def respond (M : Market) (r : MEClientRequest) : StepResult :=
  (M.ladder r.tickerId).step M.matchIds r

/-- The market after one more request. -/
def next (M : Market) (r : MEClientRequest) : Market where
  ladder := Function.update M.ladder r.tickerId (M.respond r).ladder
  matchIds := (M.respond r).matchIds
  events := M.events ++ (M.respond r).events

/-- The run of a market. -/
def run (rs : List MEClientRequest) : Market :=
  rs.foldl next start

@[simp] theorem next_ladder_self (M : Market) (r : MEClientRequest) :
    (M.next r).ladder r.tickerId = (M.respond r).ladder := by
  simp [next]

theorem next_ladder_of_ne
    (M : Market) {r : MEClientRequest} {t : TickerId} (h : t ≠ r.tickerId) :
    (M.next r).ladder t = M.ladder t := by
  simp [next, h]

theorem run_append (rs : List MEClientRequest) (r : MEClientRequest) :
    run (rs ++ [r]) = (run rs).next r := by
  simp [run]

/-- All ladders are well formed and new to the keys to come. -/
structure Ready (M : Market) (rs : List MEClientRequest) : Prop where
  wf : ∀ t, (M.ladder t).WF
  admits : ∀ t, (M.ladder t).Admits rs

theorem Ready.start {rs : List MEClientRequest} (h : FreshKeys rs) :
    Market.start.Ready rs :=
  ⟨fun _ => Ladder.WF.empty, fun _ => Ladder.Admits.empty h⟩

theorem Ready.next
    {M : Market} {r : MEClientRequest} {rs : List MEClientRequest}
    (h : M.Ready (r :: rs)) :
    (M.next r).Ready rs := by
  have hfresh := (h.admits r.tickerId).head
  constructor
  · intro t
    by_cases ht : t = r.tickerId
    · subst ht
      rw [Market.next_ladder_self]
      exact Ladder.step_wf (h.wf _) _ hfresh
    · rw [Market.next_ladder_of_ne _ ht]
      exact h.wf t
  · intro t
    by_cases ht : t = r.tickerId
    · subst ht
      rw [Market.next_ladder_self]
      exact (h.admits _).step (h.wf _) _
    · rw [Market.next_ladder_of_ne _ ht]
      exact (h.admits t).tail

/-- **Every run of the market is ready for the requests that follow.** -/
theorem run_ready
    {rs : List MEClientRequest} {l : List MEClientRequest}
    (h : FreshKeys (rs ++ l)) :
    (run rs).Ready l := by
  have hready := foldl_invariant (g := Market.next)
    (fun M l' => M.Ready (l' ++ l)) (fun M r l' hM => hM.next)
    (t := Market.start) (l := rs) (Ready.start h)
  exact hready

/-- Every request of a run meets the condition `C`, in the state of its
ticker before it. -/
def EachStep (C : Ladder → MEClientRequest → Prop)
    (rs : List MEClientRequest) : Prop :=
  ∀ pre r post, rs = pre ++ r :: post → C ((run pre).ladder r.tickerId) r

theorem eachStep_iff_take
    {C : Ladder → MEClientRequest → Prop} {rs : List MEClientRequest} :
    EachStep C rs ↔ ∀ i : Fin rs.length,
      C ((run (rs.take i)).ladder (rs.get i).tickerId) (rs.get i) := by
  constructor
  · intro h i
    refine h (rs.take i) (rs.get i) (rs.drop (i + 1)) ?_
    rw [List.get_eq_getElem, ← List.drop_eq_getElem_cons,
      List.take_append_drop]
  · rintro h pre r post rfl
    have hi : pre.length < (pre ++ r :: post).length := by simp
    simpa using h ⟨pre.length, hi⟩

instance (C : Ladder → MEClientRequest → Prop) [∀ A r, Decidable (C A r)]
    (rs : List MEClientRequest) : Decidable (EachStep C rs) :=
  decidable_of_iff _ eachStep_iff_take.symm

/-- **The invariant rule of a run of the market**, for a run whose requests
all meet `C`: each step may use that the ladder of its ticker is well formed. -/
theorem run_induction
    {C : Ladder → MEClientRequest → Prop} (I : Market → Prop)
    (hstart : I start)
    (hstep : ∀ M r, (∀ t, (M.ladder t).WF) →
      (M.ladder r.tickerId).Fresh r → C (M.ladder r.tickerId) r → I M →
      I (M.next r))
    {rs : List MEClientRequest} (hfresh : FreshKeys rs)
    (hC : EachStep C rs) :
    I (run rs) := by
  have hpre : ∀ pre post, rs = pre ++ post → I (run pre) := by
    intro pre
    induction pre using List.reverseRecOn with
    | nil => exact fun _ _ => hstart
    | append_singleton pre r ih =>
        intro post hsplit
        rw [List.append_assoc] at hsplit
        have hready : (run pre).Ready (r :: post) :=
          run_ready (by rwa [hsplit] at hfresh)
        rw [run_append]
        exact hstep _ r hready.wf (hready.admits _).head
          (hC pre r post hsplit) (ih _ hsplit)
  exact hpre rs [] (List.append_nil rs).symm

/-- The id counters of a run of the market. -/
theorem run_next_le
    {rs : List MEClientRequest} (h : FreshKeys rs) (t : TickerId) :
    ((run rs).ladder t).nextMarketOrderId ≤ rs.length + 1 := by
  induction rs using List.reverseRecOn with
  | nil => exact le_rfl
  | append_singleton rs r ih =>
      have hwf := (run_ready h).wf r.tickerId
      have hfresh : FreshKeys rs :=
        h.sublist ((List.sublist_append_left rs [r]).filterMap _)
      have hrun := ih hfresh
      rw [run_append, List.length_append, List.length_singleton]
      by_cases ht : t = r.tickerId
      · subst ht
        rw [next_ladder_self]
        exact (Ladder.step_next_le hwf _ r).trans (Nat.succ_le_succ hrun)
      · rw [next_ladder_of_ne _ ht]
        exact hrun.trans (Nat.le_succ _)

/-- While no counter can wrap, every request keeps the ids of every ticker
apart. -/
theorem next_ids
    {M : Market} (hwf : ∀ t, (M.ladder t).WF) (hids : ∀ t, (M.ladder t).Ids)
    {r : MEClientRequest}
    (hbound : (M.ladder r.tickerId).nextMarketOrderId + 1 < wordSize) :
    ∀ t, ((M.next r).ladder t).Ids := by
  intro t
  by_cases ht : t = r.tickerId
  · subst ht
    rw [next_ladder_self]
    exact Ladder.step_ids (hwf _) (hids _) _ r hbound
  · rw [next_ladder_of_ne _ ht]
    exact hids t

/-- In a run of fewer than `2^63` requests no counter can wrap. -/
theorem eachStep_bound
    {rs : List MEClientRequest} (h : FreshKeys rs)
    (hlen : rs.length < 2 ^ 63) :
    EachStep (fun A _ => A.nextMarketOrderId + 1 < wordSize) rs := by
  rintro pre r post rfl
  have hpre : FreshKeys pre :=
    h.sublist ((List.sublist_append_left pre _).filterMap _)
  have hle := run_next_le hpre r.tickerId
  rw [List.length_append, List.length_cons] at hlen
  unfold wordSize
  lia

/-- The ladders of every run are well formed. -/
theorem run_wf {rs : List MEClientRequest} (h : FreshKeys rs) (t : TickerId) :
    ((run rs).ladder t).WF :=
  (run_ready (l := []) (by rwa [List.append_nil])).wf t

end Market

/-- The request indexes one of the `n` books. -/
def TickersInRange (n : Nat) (rs : List MEClientRequest) : Prop :=
  ∀ r ∈ rs, r.tickerId < n

instance (n : Nat) (rs : List MEClientRequest) :
    Decidable (TickersInRange n rs) :=
  inferInstanceAs (Decidable (∀ r ∈ rs, r.tickerId < n))

/-- The channel of the engine after the history of a market. -/
def Market.sent (d : Dialect) (M : Market) : Channel where
  matchIds := M.matchIds
  outputs := M.events.flatMap (Event.outputs d)

namespace MatchingEngine

variable {Lv : Type} [LevelTable Lv] [LawfulLevels Lv] [BookImpl Lv]
variable [LawfulBook Lv] {P : Type} [ObjectPool P]

/-- The engine `e` represents the market `M` of its `n` tickers. -/
structure Represents (n : Nat) (e : MatchingEngine Lv P) (M : Market) :
    Prop where
  books : e.tickerOrderBook.length = n
  book : ∀ t b, e.tickerOrderBook[t]? = some b → Rep b (M.ladder t)
  sent : e.channel = M.sent (LawfulBook.dialect Lv)

theorem Represents.init (n poolSize : Nat) :
    Represents n (MatchingEngine.init n poolSize : MatchingEngine Lv P)
      Market.start where
  books := List.length_replicate
  book t b hb := by
    obtain rfl : OrderBook.init poolSize = b := by
      have hmem := List.mem_of_getElem? hb
      exact (List.eq_of_mem_replicate hmem).symm
    exact ⟨_, LRep.init poolSize, fun _ => rfl, rfl⟩
  sent := rfl

/-- One request. -/
theorem Represents.processClientRequest
    {n : Nat} {e : MatchingEngine Lv P} {M : Market} (h : Represents n e M)
    {r : MEClientRequest} {rs : List MEClientRequest}
    (hM : M.Ready (r :: rs)) (hticker : r.tickerId < n)
    (hprice : Priced Lv r) :
    SucceedsWith (e.processClientRequest r)
      fun e' => Represents n e' (M.next r) := by
  obtain ⟨b, hb⟩ : ∃ b, e.tickerOrderBook[r.tickerId]? = some b :=
    ⟨_, List.getElem?_eq_getElem (h.books.symm ▸ hticker)⟩
  have hstep := (h.book _ _ hb).processRequest (hM.wf _) e.channel hprice
    (hM.admits _).head
  rw [h.sent] at hstep
  simp only [MatchingEngine.processClientRequest, hb, h.sent]
  rcases hstep with hfull | ⟨b', hb', hrep⟩
  · rw [hfull]
    exact .inl rfl
  · refine .inr ⟨_, by rw [hb', ok_bind], ?_, ?_, ?_⟩
    · simpa using h.books
    · intro t b'' hb''
      by_cases ht : t = r.tickerId
      · subst ht
        rw [List.getElem?_set_self (h.books.symm ▸ hticker)] at hb''
        obtain rfl := Option.some.inj hb''
        rw [Market.next_ladder_self]
        exact hrep
      · have ht' : r.tickerId ≠ t := fun e => ht e.symm
        rw [List.getElem?_set_ne ht'] at hb''
        rw [Market.next_ladder_of_ne _ ht]
        exact h.book t b'' hb''
    · simp [Channel.report, Market.sent, Market.next, Market.respond]

/-- **Every run of an engine is a run of the market.** -/
theorem run_refines
    (P : Type) [ObjectPool P] (n poolSize : Nat) {rs : List MEClientRequest}
    (hfresh : FreshKeys rs) (htickers : TickersInRange n rs)
    (hprice : ∀ r ∈ rs, Priced Lv r) :
    SucceedsWith (MatchingEngine.run Lv P n poolSize rs)
      fun e => Represents n e (Market.run rs) := by
  have hsim := run_simulation
    (f := fun (e : MatchingEngine Lv P) r => e.processClientRequest r)
    (g := Market.next) (Represents n)
    (fun M l => M.Ready l ∧ ∀ r ∈ l, r.tickerId < n ∧ Priced Lv r)
    Fault.poolExhausted ?_ (s := MatchingEngine.init n poolSize)
    (t := Market.start) (l := rs) (Represents.init n poolSize)
    ⟨Market.Ready.start hfresh, fun r hr => ⟨htickers r hr, hprice r hr⟩⟩
  · rcases hsim with hfull | ⟨e, he, hR, -⟩
    · exact .inl hfull
    · exact .inr ⟨e, he, hR⟩
  · rintro e M r l hR ⟨hready, hl⟩
    obtain ⟨hticker, hpriced⟩ := hl r List.mem_cons_self
    rcases hR.processClientRequest hready hticker hpriced with
      hfull | ⟨e', he', hR'⟩
    · exact .inl hfull
    · exact .inr ⟨e', he', hR', hready.next,
        fun r' hr' => hl r' (List.mem_cons_of_mem _ hr')⟩

/-- Every request of a run meets the condition `C`, in the state of its book
before it. -/
def EachStep (Lv P : Type) [LevelTable Lv] [BookImpl Lv] [ObjectPool P]
    (n poolSize : Nat) (C : OrderBook Lv P → MEClientRequest → Prop)
    (rs : List MEClientRequest) : Prop :=
  ∀ pre r post e b, rs = pre ++ r :: post →
    MatchingEngine.run Lv P n poolSize pre = .ok e →
    e.tickerOrderBook[r.tickerId]? = some b → C b r

/-- The engine after the first requests of a run. -/
theorem represents_prefix
    {n poolSize : Nat} {rs pre post : List MEClientRequest}
    (hsplit : rs = pre ++ post) (hfresh : FreshKeys rs)
    (htickers : TickersInRange n rs) (hprice : ∀ r ∈ rs, Priced Lv r)
    {e : MatchingEngine Lv P} (he : run Lv P n poolSize pre = .ok e) :
    Represents n e (Market.run pre) := by
  have hmem : ∀ r ∈ pre, r ∈ rs := fun r hr => by
    rw [hsplit]
    exact List.mem_append_left _ hr
  rw [hsplit] at hfresh
  exact (run_refines P n poolSize
    (hfresh.sublist ((List.sublist_append_left pre post).filterMap _))
    (fun r hr => htickers r (hmem r hr))
    fun r hr => hprice r (hmem r hr)).of_ok he

/-- What holds of the ladders holds of the books of a run. -/
theorem EachStep.of_ladder
    {n poolSize : Nat} {D : Ladder → MEClientRequest → Prop}
    {rs : List MEClientRequest} (h : Market.EachStep D rs)
    (C : OrderBook Lv P → MEClientRequest → Prop)
    (hC : ∀ b A r, Rep b A → D A r → C b r)
    (hfresh : FreshKeys rs) (htickers : TickersInRange n rs)
    (hprice : ∀ r ∈ rs, Priced Lv r) :
    EachStep Lv P n poolSize C rs := by
  intro pre r post e b hsplit he hb
  have hrep := represents_prefix hsplit hfresh htickers hprice he
  exact hC b _ r (hrep.book _ b hb) (h pre r post hsplit)

/-- What holds of the books of a run holds of the ladders. -/
theorem EachStep.ladder
    {n poolSize : Nat} {C : OrderBook Lv P → MEClientRequest → Prop}
    {rs : List MEClientRequest} (h : EachStep Lv P n poolSize C rs)
    (D : Ladder → MEClientRequest → Prop)
    (hC : ∀ b A r, Rep b A → C b r → D A r)
    (hfresh : FreshKeys rs) (htickers : TickersInRange n rs)
    (hprice : ∀ r ∈ rs, Priced Lv r) {e : MatchingEngine Lv P}
    (hrun : MatchingEngine.run Lv P n poolSize rs = .ok e) :
    Market.EachStep D rs := by
  intro pre r post hsplit
  rw [hsplit] at hrun
  obtain ⟨e₁, he₁, -⟩ := foldlM_append_ok hrun
  have hrep := represents_prefix hsplit hfresh htickers hprice he₁
  have hticker : r.tickerId < n := htickers r (by rw [hsplit]; simp)
  obtain ⟨b, hb⟩ : ∃ b, e₁.tickerOrderBook[r.tickerId]? = some b :=
    ⟨_, List.getElem?_eq_getElem (hrep.books.symm ▸ hticker)⟩
  exact hC b _ r (hrep.book _ _ hb) (h pre r post e₁ b hsplit he₁ hb)

end MatchingEngine

end NanoExchange
