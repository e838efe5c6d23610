import NanoExchange.Engine.Deeds
import NanoExchange.Engine.MatchingEngine

/-!
# Tickers are independent

What a book does to the channel is fixed by its own requests; the requests of
other tickers only decide which match ids its fills are numbered with.  So the
messages of a ticker are the transcript of deeds that its requests fix, with
the numbers of one run or of another.
-/

namespace NanoExchange

open Lib

section Transcripts

/-- The number of match ids that deeds draw. -/
def draws : List Deed → Nat
  | [] => 0
  | .send _ :: ds => draws ds
  | .fill _ :: ds => draws ds + 1

/-- The messages of deeds whose fills are numbered with `ids`, each cut down
to 64 bits. -/
def transcript : List Nat → List Deed → List Output
  | _, [] => []
  | ids, .send o :: ds => o :: transcript ids ds
  | ids, .fill drafts :: ds =>
      drafts.map (Draft.stamp (ids.headD 0 % wordSize)) ++
        transcript ids.tail ds

theorem draws_append (ds ds' : List Deed) :
    draws (ds ++ ds') = draws ds + draws ds' := by
  induction ds with
  | nil => simp [draws]
  | cons d ds ih =>
      cases d with
      | send o => exact ih
      | fill drafts =>
          simp only [List.cons_append, draws, ih]
          omega

theorem transcript_append
    {ids : List Nat} {ds : List Deed} (h : ids.length = draws ds)
    (ids' : List Nat) (ds' : List Deed) :
    transcript (ids ++ ids') (ds ++ ds') =
      transcript ids ds ++ transcript ids' ds' := by
  induction ds generalizing ids with
  | nil =>
      obtain rfl := List.length_eq_zero_iff.mp h
      rfl
  | cons d ds ih =>
      cases d with
      | send o => exact congrArg (o :: ·) (ih h)
      | fill drafts =>
          cases ids with
          | nil => cases h
          | cons k ids =>
              simp only [List.cons_append, transcript, List.headD_cons,
                List.tail_cons, List.append_assoc, ih (Nat.succ.inj h)]

/-- What deeds make of a channel that has drawn all ids below `n`. -/
theorem Channel.foldl_perform
    {ch : Channel} {n : Nat} (h : ch.matchIds = n % wordSize)
    (ds : List Deed) :
    ds.foldl Channel.perform ch =
      { matchIds := (n + draws ds) % wordSize
        outputs := ch.outputs ++
          transcript (List.range' n (draws ds)) ds } := by
  induction ds generalizing ch n with
  | nil => simp [draws, transcript, ← h]
  | cons d ds ih =>
      cases d with
      | send o =>
          have hsend : (ch.perform (.send o)).matchIds = n % wordSize := h
          rw [List.foldl_cons, ih hsend]
          simp [Channel.perform, draws, transcript]
      | fill drafts =>
          have hnext : (ch.perform (.fill drafts)).matchIds =
              (n + 1) % wordSize := by
            show (ch.matchIds + 1) % wordSize = _
            rw [h, Nat.mod_add_mod]
          rw [List.foldl_cons, ih hnext]
          simp [Channel.perform, draws, transcript, List.range'_succ, h,
            Nat.add_assoc, Nat.add_comm 1]

theorem Draft.About.stamp
    {t : TickerId} {d : Draft} (h : d.output.About t) (m : OrderId) :
    (d.stamp m).About t := by
  cases d with
  | fixed o => exact h
  | numbered o => cases o <;> exact h

/-- Deeds about a ticker send messages about it. -/
theorem transcript_about
    {t : TickerId} {ds : List Deed} (h : ∀ d ∈ ds, d.About t)
    (ids : List Nat) :
    ∀ o ∈ transcript ids ds, o.About t := by
  induction ds generalizing ids with
  | nil => simp [transcript]
  | cons d ds ih =>
      obtain ⟨hd, hds⟩ := List.forall_mem_cons.mp h
      cases d with
      | send o => exact List.forall_mem_cons.mpr ⟨hd, ih hds ids⟩
      | fill drafts =>
          intro o ho
          rcases List.mem_append.mp ho with ho | ho
          · obtain ⟨d, hmem, rfl⟩ := List.mem_map.mp ho
            exact Draft.About.stamp (hd d hmem) _
          · exact ih hds ids.tail o ho

/-- The message without its match id. -/
def Output.unnumbered (o : Output) : Output :=
  o.withMatchId orderIdInvalid

theorem Draft.stamp_unnumbered (m m' : OrderId) (d : Draft) :
    (d.stamp m).unnumbered = (d.stamp m').unnumbered := by
  cases d with
  | fixed o => rfl
  | numbered o => cases o <;> rfl

/-- Only the match ids of a transcript depend on the ids that are drawn. -/
theorem transcript_unnumbered (ids ids' : List Nat) (ds : List Deed) :
    (transcript ids ds).map Output.unnumbered =
      (transcript ids' ds).map Output.unnumbered := by
  induction ds generalizing ids ids' with
  | nil => rfl
  | cons d ds ih =>
      cases d with
      | send o => exact congrArg (o.unnumbered :: ·) (ih ids ids')
      | fill drafts =>
          simp only [transcript, List.map_append, List.map_map]
          rw [ih ids.tail ids'.tail]
          congr 1
          exact List.map_congr_left fun d _ => d.stamp_unnumbered _ _

end Transcripts

namespace MatchingEngine

variable {Lv P : Type} [LevelTable Lv] [BookImpl Lv] [ObjectPool P]
variable {e e' : MatchingEngine Lv P} {t : TickerId}

/-- For ticker `t` the engine has the book `ob` and has sent the messages of
`ds`, numbered in the order in which the match ids were drawn. -/
structure Did (e : MatchingEngine Lv P) (t : TickerId)
    (ob : Option (OrderBook Lv P)) (ds : List Deed) : Prop where
  book : e.tickerOrderBook[t]? = ob
  sent : ∃ n ids, e.channel.matchIds = n % wordSize ∧
    (ids ++ [n]).Pairwise (· < ·) ∧ ids.length = draws ds ∧
    e.channel.outputs.filter (fun o => o.tickerId = t) = transcript ids ds

omit [BookImpl Lv] in
theorem Did.init (books poolSize : Nat) (t : TickerId) :
    (init books poolSize : MatchingEngine Lv P).Did t
      (init books poolSize : MatchingEngine Lv P).tickerOrderBook[t]? [] where
  book := rfl
  sent := ⟨1, [], rfl, List.pairwise_singleton _ _, rfl, rfl⟩

/-- A request of the ticker. -/
theorem Did.own
    {b b' : OrderBook Lv P} {ds ds' : List Deed} (h : e.Did t (some b) ds)
    {r : MEClientRequest} (hr : r.tickerId = t)
    (habout : ∀ d ∈ ds', Deed.About t d)
    (hok : ∀ ch, b.processRequest ch r = .ok (b', ds'.foldl Channel.perform ch))
    (hstep : e.processClientRequest r = .ok e') :
    e'.Did t (some b') (ds ++ ds') := by
  subst hr
  obtain ⟨n, ids, hn, hids, hlen, hsent⟩ := h.sent
  have he' : e' = { tickerOrderBook := e.tickerOrderBook.set r.tickerId b'
                    channel := ds'.foldl Channel.perform e.channel } := by
    unfold processClientRequest at hstep
    simp only [h.book, hok, ok_bind, Except.ok.injEq] at hstep
    exact hstep.symm
  subst he'
  constructor
  · exact List.getElem?_set_self (List.getElem?_eq_some_iff.mp h.book).1
  · refine ⟨n + draws ds', ids ++ List.range' n (draws ds'), ?_, ?_, ?_, ?_⟩
    · rw [Channel.foldl_perform hn]
    · rw [List.append_assoc, ← List.range'_1_concat]
      rw [List.pairwise_append] at hids ⊢
      refine ⟨hids.1, List.pairwise_lt_range', fun i hi j hj => ?_⟩
      have hlt := hids.2.2 i hi n (List.mem_singleton_self n)
      have hle := (List.mem_range'_1.mp hj).1
      exact lt_of_lt_of_le hlt hle
    · rw [List.length_append, hlen, List.length_range', draws_append]
    · rw [Channel.foldl_perform hn, List.filter_append, hsent,
        transcript_append hlen]
      exact congrArg _ (List.filter_eq_self.mpr fun o ho =>
        decide_eq_true ((transcript_about habout _ o ho).tickerId_eq))

variable [ObliviousBook Lv]

/-- What a request does to an engine. -/
theorem processClientRequest_cases
    {r : MEClientRequest} (h : e.processClientRequest r = .ok e') :
    ∃ (b b' : OrderBook Lv P) (ds : List Deed),
      e.tickerOrderBook[r.tickerId]? = some b ∧
      (∀ d ∈ ds, Deed.About r.tickerId d) ∧
      (∀ ch, b.processRequest ch r = .ok (b', ds.foldl Channel.perform ch)) ∧
      e' = { tickerOrderBook := e.tickerOrderBook.set r.tickerId b'
             channel := ds.foldl Channel.perform e.channel } := by
  unfold processClientRequest at h
  cases hb : e.tickerOrderBook[r.tickerId]? with
  | none =>
      simp only [hb] at h
      cases h
  | some b =>
      simp only [hb] at h
      rcases b.processRequest_oblivious r with ⟨f, hf⟩ | ⟨b', ds, hok⟩
      · simp only [hf, error_bind] at h
        cases h
      · refine ⟨b, b', ds.map Subtype.val, rfl, ?_, fun ch => ?_, ?_⟩
        · intro d hd
          obtain ⟨d, -, rfl⟩ := List.mem_map.mp hd
          exact d.2
        · simp only [hok, List.foldl_map]
        · simp only [hok, ok_bind, Except.ok.injEq] at h
          rw [← h, List.foldl_map]

/-- Requests of other tickers draw match ids, and do nothing else. -/
theorem Did.other
    {ob : Option (OrderBook Lv P)} {ds : List Deed} (h : e.Did t ob ds)
    {r : MEClientRequest} (hr : r.tickerId ≠ t)
    (hstep : e.processClientRequest r = .ok e') :
    e'.Did t ob ds := by
  obtain ⟨n, ids, hn, hids, hlen, hsent⟩ := h.sent
  obtain ⟨b, b', ds', -, habout, -, rfl⟩ := processClientRequest_cases hstep
  have hnone : (transcript (List.range' n (draws ds')) ds').filter
      (fun o => o.tickerId = t) = [] :=
    List.filter_eq_nil_iff.mpr fun o ho => by
      simpa [(transcript_about habout _ o ho).tickerId_eq] using hr
  constructor
  · rw [List.getElem?_set_ne hr]
    exact h.book
  · refine ⟨n + draws ds', ids, ?_, ?_, hlen, ?_⟩
    · rw [Channel.foldl_perform hn]
    · rw [List.pairwise_append] at hids ⊢
      exact ⟨hids.1, List.pairwise_singleton _ _, fun i hi j hj => by
        obtain rfl := List.mem_singleton.mp hj
        exact lt_of_lt_of_le (hids.2.2 i hi n (List.mem_singleton_self n))
          (Nat.le_add_right _ _)⟩
    · rw [Channel.foldl_perform hn, List.filter_append, hnone, List.append_nil]
      exact hsent

/-- Requests of other tickers, one after the other. -/
theorem Did.others
    {ob : Option (OrderBook Lv P)} {ds : List Deed} (h : e.Did t ob ds)
    {rs : List MEClientRequest} (hrs : rs.filter (fun r => r.tickerId = t) = [])
    (hrun : rs.foldlM processClientRequest e = .ok e') :
    e'.Did t ob ds := by
  induction rs generalizing e with
  | nil =>
      obtain rfl := Except.ok.inj hrun
      exact h
  | cons r rs ih =>
      obtain ⟨hr, hrest⟩ := List.filter_eq_nil_iff.mp hrs |> List.forall_mem_cons.mp
      rw [List.foldlM_cons] at hrun
      cases hstep : e.processClientRequest r with
      | error f =>
          rw [hstep] at hrun
          cases hrun
      | ok e₁ =>
          rw [hstep] at hrun
          exact ih (h.other (by simpa using hr) hstep)
            (List.filter_eq_nil_iff.mpr hrest) hrun

omit [ObliviousBook Lv] in
/-- A run up to the last request of a ticker. -/
theorem run_split
    {books poolSize : Nat} {ts rs : List MEClientRequest} {r : MEClientRequest}
    (hrs : rs.filter (fun r => r.tickerId = t) = ts ++ [r])
    (hrun : run Lv P books poolSize rs = .ok e) :
    r.tickerId = t ∧ ∃ (pre post : List MEClientRequest)
        (e₁ e₂ : MatchingEngine Lv P),
      pre.filter (fun r => r.tickerId = t) = ts ∧
      post.filter (fun r => r.tickerId = t) = [] ∧
      run Lv P books poolSize pre = .ok e₁ ∧
      e₁.processClientRequest r = .ok e₂ ∧
      post.foldlM processClientRequest e₂ = .ok e := by
  obtain ⟨pre, l, rfl, hpre, hl⟩ := List.filter_eq_append_iff.mp hrs
  obtain ⟨l₁, post, rfl, hl₁, hr, hpost⟩ := List.filter_eq_cons_iff.mp hl
  refine ⟨by simpa using hr, pre ++ l₁, post, ?_⟩
  rw [← List.append_assoc] at hrun
  obtain ⟨e₁, hrun₁, hrest⟩ := foldlM_append_ok hrun
  rw [List.foldlM_cons] at hrest
  cases hstep : e₁.processClientRequest r with
  | error f =>
      rw [hstep] at hrest
      cases hrest
  | ok e₂ =>
      rw [hstep] at hrest
      refine ⟨e₁, e₂, ?_, hpost, hrun₁, hstep, hrest⟩
      rw [List.filter_append, hpre, List.filter_eq_nil_iff.mpr hl₁,
        List.append_nil]

/-- **What an engine does for a ticker is fixed by the requests of the
ticker.** -/
theorem run_did
    (books poolSize : Nat) (t : TickerId) (ts : List MEClientRequest) :
    ∃ ob ds, ∀ rs (e : MatchingEngine Lv P),
      rs.filter (fun r => r.tickerId = t) = ts →
      run Lv P books poolSize rs = .ok e → e.Did t ob ds := by
  induction ts using List.reverseRecOn with
  | nil =>
      exact ⟨_, _, fun rs e hrs hrun =>
        (Did.init books poolSize t).others hrs hrun⟩
  | append_singleton ts r ih =>
      obtain ⟨ob, ds, hdid⟩ := ih
      cases ob with
      | none =>
          refine ⟨none, [], fun rs e hrs hrun => ?_⟩
          obtain ⟨rfl, pre, post, e₁, e₂, hpre, -, hrun₁, hstep, -⟩ :=
            run_split hrs hrun
          have hnone := (hdid pre e₁ hpre hrun₁).book
          obtain ⟨b, -, -, hb, -⟩ := processClientRequest_cases hstep
          cases hnone.symm.trans hb
      | some b =>
          rcases b.processRequest_oblivious r with ⟨f, hf⟩ | ⟨b', ds', hok⟩
          · refine ⟨none, [], fun rs e hrs hrun => ?_⟩
            obtain ⟨rfl, pre, post, e₁, e₂, hpre, -, hrun₁, hstep, -⟩ :=
              run_split hrs hrun
            have hbook := (hdid pre e₁ hpre hrun₁).book
            simp only [processClientRequest, hbook, hf, error_bind] at hstep
            cases hstep
          · refine ⟨some b', ds ++ ds'.map Subtype.val,
              fun rs e hrs hrun => ?_⟩
            obtain ⟨rfl, pre, post, e₁, e₂, hpre, hpost, hrun₁, hstep, hrest⟩ :=
              run_split hrs hrun
            refine ((hdid pre e₁ hpre hrun₁).own rfl (fun d hd => ?_)
              (fun ch => ?_) hstep).others hpost hrest
            · obtain ⟨d, -, rfl⟩ := List.mem_map.mp hd
              exact d.2
            · simp only [hok, List.foldl_map]

end MatchingEngine

/-- A response without its match id. -/
def MEClientResponse.unnumbered (r : MEClientResponse) : MEClientResponse :=
  { r with matchId := orderIdInvalid }

/-- A market update without its match id. -/
def MEMarketUpdate.unnumbered (u : MEMarketUpdate) : MEMarketUpdate :=
  { u with matchId := orderIdInvalid }

/-- Two engines have done the same for ticker `t`, up to the match ids. -/
structure SameForTicker {Lv P : Type} (e e' : MatchingEngine Lv P)
    (t : TickerId) : Prop where
  book : e.tickerOrderBook[t]? = e'.tickerOrderBook[t]?
  responses :
    (e.channel.responses.filter fun r => r.tickerId = t).map
        MEClientResponse.unnumbered =
      (e'.channel.responses.filter fun r => r.tickerId = t).map
        MEClientResponse.unnumbered
  updates :
    (e.channel.updates.filter fun u => u.tickerId = t).map
        MEMarketUpdate.unnumbered =
      (e'.channel.updates.filter fun u => u.tickerId = t).map
        MEMarketUpdate.unnumbered
  /-- The messages of both are the same drafts, numbered with match ids that
  are drawn in the same order. -/
  numbering : ∃ ds ids ids', ids.length = draws ds ∧ ids'.length = draws ds ∧
    ids.Pairwise (· < ·) ∧ ids'.Pairwise (· < ·) ∧
    e.channel.outputs.filter (fun o => o.tickerId = t) = transcript ids ds ∧
    e'.channel.outputs.filter (fun o => o.tickerId = t) = transcript ids' ds

section Views

variable (t : TickerId) (l : List Output)

/-- The responses about a ticker are those among the messages about it. -/
theorem unnumbered_responses :
    ((l.filterMap Output.response?).filter fun r => r.tickerId = t).map
        MEClientResponse.unnumbered =
      ((l.filter fun o => o.tickerId = t).map Output.unnumbered).filterMap
        Output.response? := by
  rw [List.filter_filterMap, List.map_filterMap, List.filterMap_map,
    List.filterMap_filter]
  refine List.filterMap_congr fun o _ => ?_
  cases o with
  | response r => by_cases h : r.tickerId = t <;>
      simp [h, Output.tickerId, Output.unnumbered, Output.withMatchId,
        MEClientResponse.unnumbered]
  | update u => by_cases h : u.tickerId = t <;>
      simp [h, Output.tickerId, Output.unnumbered, Output.withMatchId]

theorem unnumbered_updates :
    ((l.filterMap Output.update?).filter fun u => u.tickerId = t).map
        MEMarketUpdate.unnumbered =
      ((l.filter fun o => o.tickerId = t).map Output.unnumbered).filterMap
        Output.update? := by
  rw [List.filter_filterMap, List.map_filterMap, List.filterMap_map,
    List.filterMap_filter]
  refine List.filterMap_congr fun o _ => ?_
  cases o with
  | response r => by_cases h : r.tickerId = t <;>
      simp [h, Output.tickerId, Output.unnumbered, Output.withMatchId]
  | update u => by_cases h : u.tickerId = t <;>
      simp [h, Output.tickerId, Output.unnumbered, Output.withMatchId,
        MEMarketUpdate.unnumbered]

end Views

/-- **Tickers are independent.**  Two runs of an engine with the same requests
for ticker `t` leave the same book of `t`, and send the same messages about
`t` up to the match ids, which they draw in the same order. -/
theorem tickers_independent
    (Lv P : Type) [LevelTable Lv] [BookImpl Lv] [ObliviousBook Lv]
    [ObjectPool P] (books poolSize : Nat) (t : TickerId)
    {rs rs' : List MEClientRequest}
    (hsame : rs.filter (fun r => r.tickerId = t) =
      rs'.filter fun r => r.tickerId = t)
    {e e' : MatchingEngine Lv P}
    (hrun : MatchingEngine.run Lv P books poolSize rs = .ok e)
    (hrun' : MatchingEngine.run Lv P books poolSize rs' = .ok e') :
    SameForTicker e e' t := by
  obtain ⟨ob, ds, hdid⟩ : ∃ ob ds, ∀ (rs₁ : List MEClientRequest)
      (e₁ : MatchingEngine Lv P),
      rs₁.filter (fun r => r.tickerId = t) =
        rs.filter (fun r => r.tickerId = t) →
      MatchingEngine.run Lv P books poolSize rs₁ = .ok e₁ →
      e₁.Did t ob ds :=
    MatchingEngine.run_did books poolSize t _
  have h := hdid rs e rfl hrun
  have h' := hdid rs' e' hsame.symm hrun'
  obtain ⟨n, ids, -, hids, hlen, hsent⟩ := h.sent
  obtain ⟨n', ids', -, hids', hlen', hsent'⟩ := h'.sent
  constructor
  · exact h.book.trans h'.book.symm
  · unfold Channel.responses
    rw [unnumbered_responses, unnumbered_responses, hsent, hsent',
      transcript_unnumbered ids ids']
  · unfold Channel.updates
    rw [unnumbered_updates, unnumbered_updates, hsent, hsent',
      transcript_unnumbered ids ids']
  · exact ⟨ds, ids, ids', hlen, hlen', (List.pairwise_append.mp hids).1,
      (List.pairwise_append.mp hids').1, hsent, hsent'⟩

section Interleaved

/-- An ask, and a bid that takes a part of it. -/
def tradeOfTicker : List MEClientRequest :=
  [.make .new 1 0 1 .goodTillCancel .sell 100 5,
    .make .new 2 0 1 .goodTillCancel .buy 100 2]

/-- A trade of another ticker comes in between. -/
def tradeAmongOthers : List MEClientRequest :=
  [.make .new 1 0 1 .goodTillCancel .sell 100 5,
    .make .new 1 1 2 .goodTillCancel .sell 50 1,
    .make .new 2 1 2 .goodTillCancel .buy 50 1,
    .make .new 2 0 1 .goodTillCancel .buy 100 2]

theorem tickers_independent_example :
    ∃ e e',
      MatchingEngine.run MapLevels ScanPool 2 4 tradeOfTicker = .ok e ∧
      MatchingEngine.run MapLevels ScanPool 2 4 tradeAmongOthers = .ok e' ∧
      SameForTicker e e' 0 := by
  obtain ⟨e, he⟩ : ∃ e,
      MatchingEngine.run MapLevels ScanPool 2 4 tradeOfTicker = .ok e :=
    ⟨_, rfl⟩
  obtain ⟨e', he'⟩ : ∃ e,
      MatchingEngine.run MapLevels ScanPool 2 4 tradeAmongOthers = .ok e :=
    ⟨_, rfl⟩
  exact ⟨e, e', he, he',
    tickers_independent MapLevels ScanPool 2 4 0 (by decide) he he'⟩

end Interleaved

end NanoExchange
