import NanoExchange.Gateway.Registry
import NanoExchange.Engine.Fills
import NanoExchange.Engine.Prices

/-!
# Gateway and engine together

A `Desk` is the token registry of the gateway and a matching engine with map
books, with the decoded requests that are on their way from one to the other.
Messages of any clients are decoded one by one; the engine takes the requests
under way in any order.  `answers` keeps, for each request that the engine has
taken, the responses that it has sent for it.

The invariant ties the three together: every request under way and every
resting order names slots of the registry that hold its own client, ticker and
token.
-/

namespace NanoExchange

open Lib

structure Desk (P : Type) where
  tokens : OrderTokenManager
  engine : MatchingEngine MapLevels P
  inFlight : List MEClientRequest := []
  answers : List (MEClientRequest × List MEClientResponse) := []

inductive DeskAction where
  /-- A message of a client is decoded. -/
  | decode (clientId : ClientId) (message : List UInt8)
  /-- The engine takes one of the requests under way. -/
  | process (k : Nat)

namespace Desk

section Model

variable {P : Type} [ObjectPool P]

def init (books poolSize tokenPoolSz : Nat) : Desk P where
  tokens := .init tokenPoolSz
  engine := .init books poolSize

def step (L : OuchLayout) (d : Desk P) : DeskAction → Except Fault (Desk P)
  | .decode clientId message =>
      let res := L.decodeOuch message clientId d.tokens
      .ok { d with
        tokens := res.2
        inFlight := d.inFlight ++ res.1.toList }
  | .process k =>
      match d.inFlight[k]? with
      | none => .ok d
      | some r => do
          let engine ← d.engine.processClientRequest r
          let responses := engine.channel.responses.drop
            d.engine.channel.responses.length
          .ok { d with
            engine := engine
            inFlight := d.inFlight.eraseIdx k
            answers := d.answers ++ [(r, responses)] }

def run (L : OuchLayout) (P : Type) [ObjectPool P]
    (books poolSize tokenPoolSz : Nat) (actions : List DeskAction) :
    Except Fault (Desk P) :=
  actions.foldlM (step L) (init books poolSize tokenPoolSz)

end Model

end Desk

/-- An ENTER_ORDER names one of `n` books. -/
def DeskAction.InRange (L : OuchLayout) (n : Nat) : DeskAction → Prop
  | .decode _ message => message.head? = some L.enterOrder →
      L.stock message % 2 ^ 32 < n
  | .process _ => True

instance (L : OuchLayout) (n : Nat) (a : DeskAction) :
    Decidable (a.InRange L n) :=
  match a with
  | .decode _ message =>
      inferInstanceAs (Decidable (message.head? = some L.enterOrder →
        L.stock message % 2 ^ 32 < n))
  | .process _ => inferInstanceAs (Decidable True)

namespace OrderTokenManager

/-- The slot of an id that has been given out. -/
structure Holds (m : OrderTokenManager) (id : OrderId) (info : TokenInfo) :
    Prop where
  positive : 0 < id
  given : id < m.nextInternalId
  slot : m.slot id = info

variable {m : OrderTokenManager} {id : OrderId} {info : TokenInfo}

theorem Holds.getToken (h : m.Holds id info) :
    m.getToken id = some info.token := by
  rw [OrderTokenManager.getToken, if_pos ⟨h.positive, h.given⟩, h.slot]

/-- What a client and a token resolve to. -/
theorem Sound.holds_getID
    (h : m.Sound) {c : ClientId} {t : OrderToken} (hid : m.getID c t ≠ 0) :
    m.Holds (m.getID c t)
      ⟨t, (m.slot (m.getID c t)).tickerId, c⟩ := by
  obtain ⟨hlt, htoken, hclient⟩ := h.resolves c t hid
  refine ⟨Nat.pos_of_ne_zero hid, hlt, ?_⟩
  generalize m.slot (m.getID c t) = info at htoken hclient ⊢
  obtain ⟨token, ticker, client⟩ := info
  simp only at htoken hclient
  rw [htoken, hclient]

/-- A registration gives out a new slot and leaves the others. -/
theorem Holds.registerNewToken
    (h : m.Holds id info) (c : ClientId) (t : OrderToken) (k : TickerId) :
    (m.registerNewToken c t k).2.Holds id info := by
  by_cases hroom : m.HasRoom
  · have hnext := (registerNewToken_fst hroom c t k).2.1
    refine ⟨h.positive, ?_, ?_⟩
    · rw [hnext]
      exact h.given.trans (Nat.lt_succ_self _)
    · rw [slot_registerNewToken hroom, if_neg (Nat.ne_of_lt h.given), h.slot]
  · rw [registerNewToken_full hroom]
    exact h

theorem holds_registerNewToken
    (h : m.Sound) (hroom : m.HasRoom) (c : ClientId) (t : OrderToken)
    (k : TickerId) :
    (m.registerNewToken c t k).2.Holds m.nextInternalId ⟨t, k, c⟩ where
  positive := h.positive
  given := by
    rw [(registerNewToken_fst hroom c t k).2.1]
    exact Nat.lt_succ_self _
  slot := by rw [slot_registerNewToken hroom, if_pos rfl]

end OrderTokenManager

/-- The slots that a decoded request names are its own: that of the order it is
about, and that of the order it brings. -/
def Registered (m : OrderTokenManager) (r : MEClientRequest) : Prop :=
  match r.action with
  | .new | .cancel =>
      m.Holds r.clientOrderId ⟨r.orderToken, r.tickerId, r.clientId⟩
  | .modify =>
      (∃ t, m.Holds r.clientOrderId ⟨t, r.tickerId, r.clientId⟩) ∧
        m.Holds r.newClientOrderId ⟨r.orderToken, r.tickerId, r.clientId⟩

namespace Registered

variable {m : OrderTokenManager} {r : MEClientRequest}

theorem registerNewToken
    (h : Registered m r) (c : ClientId) (t : OrderToken) (k : TickerId) :
    Registered (m.registerNewToken c t k).2 r := by
  unfold Registered at *
  cases haction : r.action with
  | new | cancel =>
      simp only [haction] at h ⊢
      exact h.registerNewToken c t k
  | modify =>
      simp only [haction] at h ⊢
      obtain ⟨⟨t₀, hold⟩, hnew⟩ := h
      exact ⟨⟨t₀, hold.registerNewToken c t k⟩, hnew.registerNewToken c t k⟩

/-- The order that a request brings has the slot of its own id. -/
theorem newIdentity
    (h : Registered m r) {i : Identity} (hi : r.newIdentity = some i) :
    m.Holds i.2.1 ⟨i.2.2, r.tickerId, i.1⟩ := by
  unfold Registered at h
  unfold MEClientRequest.newIdentity MEClientRequest.newKey at hi
  cases haction : r.action with
  | new =>
      simp only [haction, Option.map_some, Option.some.injEq] at h hi
      subst hi
      exact h
  | cancel => simp [haction] at hi
  | modify =>
      simp only [haction, Option.map_some, Option.some.injEq] at h hi
      subst hi
      exact h.2

/-- The id that a request brings has been given out. -/
theorem newKey_lt
    (h : Registered m r) {k : ClientId × OrderId} (hk : r.newKey = some k) :
    k.2 < m.nextInternalId := by
  have hi : r.newIdentity = some (k.1, k.2, r.orderToken) := by
    rw [MEClientRequest.newIdentity, hk, Option.map_some]
  exact (h.newIdentity hi).given

/-- The order that a request names is one of its client and ticker. -/
theorem named
    (h : Registered m r) :
    ∃ t, m.Holds r.clientOrderId ⟨t, r.tickerId, r.clientId⟩ := by
  unfold Registered at h
  cases haction : r.action with
  | new | cancel =>
      simp only [haction] at h
      exact ⟨_, h⟩
  | modify =>
      simp only [haction] at h
      exact h.1

end Registered

/-- The tickers of the slots in use are below `n`. -/
def TickersBelow (n : Nat) (m : OrderTokenManager) : Prop :=
  ∀ id info, m.Holds id info → info.tickerId < n

theorem TickersBelow.registerNewToken
    {n : Nat} {m : OrderTokenManager} (h : TickersBelow n m) (c : ClientId)
    (t : OrderToken) {k : TickerId} (hk : k < n) :
    TickersBelow n (m.registerNewToken c t k).2 := by
  by_cases hroom : m.HasRoom
  · intro id info hholds
    obtain ⟨hpos, hlt, rfl⟩ := hholds
    rw [(OrderTokenManager.registerNewToken_fst hroom c t k).2.1] at hlt
    rw [OrderTokenManager.slot_registerNewToken hroom]
    by_cases hid : id = m.nextInternalId
    · rw [if_pos hid]
      exact hk
    · rw [if_neg hid]
      exact h id _ ⟨hpos, lt_of_le_of_ne (Nat.lt_succ_iff.mp hlt) hid, rfl⟩
  · rw [OrderTokenManager.registerNewToken_full hroom]
    exact h

/-- **What decoding a message does to the registry**: it stays sound and keeps
its slots, and the request names slots of its own. -/
theorem OuchLayout.decodeOuch_registers
    (L : OuchLayout) (data : List UInt8) (c : ClientId)
    {m : OrderTokenManager} (h : m.Sound) :
    (L.decodeOuch data c m).2.Sound ∧
    (∀ id info, m.Holds id info → (L.decodeOuch data c m).2.Holds id info) ∧
    (∀ r, Registered m r → Registered (L.decodeOuch data c m).2 r) ∧
    (∀ r, (L.decodeOuch data c m).1 = some r →
      Registered (L.decodeOuch data c m).2 r ∧ r.clientId = c ∧
        ∀ k, r.newKey = some k → k.2 = m.nextInternalId) ∧
    ∀ n, TickersBelow n m →
      (∀ r, (L.decodeOuch data c m).1 = some r → r.action = .new →
        r.tickerId < n) →
      TickersBelow n (L.decodeOuch data c m).2 := by
  refine ⟨L.sound_decodeOuch data c h, ?_⟩
  rcases L.decodeOuch_cases data c h with
    heq | ⟨r, -, heq, hroom, haction, hclient, hid, -, -⟩ |
      ⟨r, -, heq, haction, hclient, -, hid, hne, hticker, -⟩ |
      ⟨r, -, heq, hroom, haction, hclient, hid, hne, hnew, -, hticker⟩
  · rw [heq]
    exact ⟨fun _ _ h => h, fun _ h => h, nofun, fun _ h _ => h⟩
  · rw [heq]
    refine ⟨fun _ _ h => h.registerNewToken _ _ _,
      fun _ h => h.registerNewToken _ _ _, ?_, ?_⟩
    · rintro r' ⟨⟩
      refine ⟨?_, hclient, ?_⟩
      · simp only [Registered, haction, hid, hclient]
        exact OrderTokenManager.holds_registerNewToken h hroom _ _ _
      · rintro k hk
        simp only [MEClientRequest.newKey, haction, Option.some.injEq] at hk
        rw [← hk]
        exact hid
    · intro n hn hrange
      exact hn.registerNewToken _ _ (hrange r rfl haction)
  · rw [heq]
    refine ⟨fun _ _ h => h, fun _ h => h, ?_, fun _ h _ => h⟩
    rintro r' ⟨⟩
    refine ⟨?_, hclient, ?_⟩
    · have hholds := h.holds_getID (hid ▸ hne)
      simp only [Registered, haction, hclient, hticker]
      rw [hid]
      exact hholds
    · simp [MEClientRequest.newKey, haction]
  · have hholds := h.holds_getID (hid ▸ hne)
    rw [← hid] at hholds
    rw [heq]
    refine ⟨fun _ _ h => h.registerNewToken _ _ _,
      fun _ h => h.registerNewToken _ _ _, ?_, ?_⟩
    · rintro r' ⟨⟩
      refine ⟨?_, hclient, ?_⟩
      · simp only [Registered, haction, hnew, hclient]
        refine ⟨⟨tokenAt data L.replaceExistingToken, ?_⟩,
          OrderTokenManager.holds_registerNewToken h hroom _ _ _⟩
        rw [hticker]
        exact hholds.registerNewToken _ _ _
      · rintro k hk
        simp only [MEClientRequest.newKey, haction, Option.some.injEq] at hk
        rw [← hk]
        exact hnew
    · intro n hn _
      refine hn.registerNewToken _ _ ?_
      rw [hticker]
      exact hn r.clientOrderId _ ⟨hholds.positive, hholds.given, rfl⟩

/-- What the gateway may expect of a response: its token is the one under which
the order is registered; the rejection of a replacement carries the token of
the replacement. -/
def TokenCarried (m : OrderTokenManager) (r : MEClientRequest)
    (x : MEClientResponse) : Prop :=
  if x.status = .cancelRejected ∧ r.action = .modify then
    m.getToken r.newClientOrderId = some x.orderToken
  else m.getToken x.clientOrderId = some x.orderToken

theorem TokenCarried.extend
    {m m' : OrderTokenManager} {r : MEClientRequest} {x : MEClientResponse}
    (h : TokenCarried m r x)
    (hholds : ∀ id info, m.Holds id info → m'.Holds id info) :
    TokenCarried m' r x := by
  have htoken : ∀ id t, m.getToken id = some t → m'.getToken id = some t := by
    intro id t hid
    unfold OrderTokenManager.getToken at hid
    split_ifs at hid with hgiven
    have hslot := hholds id _ ⟨hgiven.1, hgiven.2, rfl⟩
    rw [hslot.getToken, hid]
  unfold TokenCarried at *
  split_ifs at h ⊢ with hreject
  · exact htoken _ _ h
  · exact htoken _ _ h

/-- The orders that rest after a request were resting before, or the request
brings them. -/
theorem Market.identity_next
    {M : Market} {r : MEClientRequest} {rest : List MEClientRequest}
    (hready : M.Ready (r :: rest)) {t : TickerId} {o : OrderInfo}
    (ho : o ∈ ((M.next r).ladder t).orders) :
    (∃ o' ∈ (M.ladder t).orders, o.identity = o'.identity) ∨
      t = r.tickerId ∧ r.newIdentity = some o.identity := by
  rcases Market.terms_next (hready.wf _) ho with
    ⟨o', ho', hterms⟩ | ⟨ht, hbrings⟩
  · exact .inl ⟨o', ho', OrderInfo.identity_of_terms hterms⟩
  · exact .inr ⟨ht, hbrings.identity⟩

namespace Desk

variable {P : Type} [ObjectPool P]

/-- The requests that the engine has taken. -/
def processed (d : Desk P) : List MEClientRequest :=
  d.answers.map Prod.fst

/-- The market that the engine represents. -/
def market (d : Desk P) : Market :=
  Market.run d.processed

/-- How registry, requests and engine hang together, for `n` books. -/
structure Tied (n : Nat) (d : Desk P) : Prop where
  tokens : d.tokens.Sound
  requests : ∀ r ∈ d.processed ++ d.inFlight, Registered d.tokens r
  fresh : FreshKeys (d.processed ++ d.inFlight)
  engine : MatchingEngine.Represents n d.engine d.market
  orders : ∀ t, ∀ o ∈ (d.market.ladder t).orders,
    d.tokens.Holds o.clientOrderId ⟨o.orderToken, t, o.clientId⟩
  answered : d.engine.channel.responses = d.answers.flatMap Prod.snd
  carried : ∀ p ∈ d.answers, ∀ x ∈ p.2, TokenCarried d.tokens p.1 x

namespace Tied

variable {n : Nat} {d : Desk P} {L : OuchLayout}

theorem init (n poolSize tokenPoolSz : Nat) :
    Tied n (Desk.init n poolSize tokenPoolSz : Desk P) where
  tokens := .init tokenPoolSz
  requests := nofun
  fresh := List.nodup_nil
  engine := .init n poolSize
  orders t o ho := by
    cases ho
  answered := rfl
  carried := nofun

theorem ready (h : Tied n d) {r : MEClientRequest}
    {rest : List MEClientRequest} (hperm : d.inFlight.Perm (r :: rest)) :
    d.market.Ready (r :: rest) := by
  refine Market.run_ready ?_
  have hkeys := (hperm.append_left d.processed).filterMap
    MEClientRequest.newKey
  exact hkeys.nodup_iff.mp h.fresh

/-- A request that brings the next id is fresh. -/
theorem fresh_concat
    (h : Tied n d) {r : MEClientRequest}
    (hr : ∀ k, r.newKey = some k → k.2 = d.tokens.nextInternalId) :
    FreshKeys (d.processed ++ (d.inFlight ++ [r])) := by
  have hfresh := h.fresh
  unfold FreshKeys at hfresh ⊢
  rw [← List.append_assoc, List.filterMap_append, List.filterMap_cons,
    List.filterMap_nil]
  cases hkey : r.newKey with
  | none => simpa using hfresh
  | some k =>
      refine List.nodup_append.mpr ⟨hfresh, List.nodup_singleton k, ?_⟩
      intro k₁ hk₁ k₂ hk₂ heq
      obtain ⟨r₁, hr₁, hkey₁⟩ := List.mem_filterMap.mp hk₁
      have hlt := (h.requests r₁ hr₁).newKey_lt hkey₁
      rw [heq, List.mem_singleton.mp hk₂, hr k hkey] at hlt
      exact Nat.lt_irrefl _ hlt

theorem decode
    (h : Tied n d) (c : ClientId) (message : List UInt8) :
    ∃ d', d.step L (.decode c message) = .ok d' ∧ Tied n d' := by
  obtain ⟨hsound, hholds, hregistered, hrequest, -⟩ :=
    L.decodeOuch_registers message c h.tokens
  refine ⟨_, rfl, hsound, ?_, ?_, h.engine,
    fun t o ho => hholds _ _ (h.orders t o ho), h.answered,
    fun p hp x hx => (h.carried p hp x hx).extend hholds⟩
  · intro r hr
    rcases List.mem_append.mp hr with hr | hr
    · exact hregistered r (h.requests r (List.mem_append_left _ hr))
    · rcases List.mem_append.mp hr with hr | hr
      · exact hregistered r (h.requests r (List.mem_append_right _ hr))
      · exact (hrequest r (Option.mem_toList.mp hr)).1
  · cases hres : (L.decodeOuch message c d.tokens).1 with
    | none =>
        show FreshKeys (d.processed ++ (d.inFlight ++ []))
        rw [List.append_nil]
        exact h.fresh
    | some r =>
        show FreshKeys (d.processed ++ (d.inFlight ++ [r]))
        exact h.fresh_concat (hrequest r hres).2.2

/-- The order of the requests under way does not matter. -/
theorem perm
    (h : Tied n d) {l : List MEClientRequest} (hperm : l.Perm d.inFlight) :
    Tied n { d with inFlight := l } where
  tokens := h.tokens
  requests r hr := h.requests r ((hperm.append_left d.processed).subset hr)
  fresh :=
    ((hperm.append_left d.processed).filterMap _).nodup_iff.mpr h.fresh
  engine := h.engine
  orders := h.orders
  answered := h.answered
  carried := h.carried

/-- The responses to the request that the engine takes next carry the tokens
of the registry. -/
theorem carried_respond
    (h : Tied n d) {r : MEClientRequest} (hr : Registered d.tokens r)
    {x : MEClientResponse}
    (hx : x ∈ (d.market.respond r).events.flatMap
      (Event.responses Dialect.map)) :
    TokenCarried d.tokens r x := by
  obtain ⟨e, he, hx⟩ := List.mem_flatMap.mp hx
  have hrejects := Event.rejects_of_cancelRejected hx
  unfold TokenCarried
  rcases Ladder.step_events_identity _ r he
      (Event.identity_of_mem_responses hx) with
    ⟨⟨o, ho, hid⟩, hcancel⟩ | ⟨hnew, hnot⟩ | ⟨hid, hreject, hold⟩
  · simp only [MEClientResponse.identity, OrderInfo.identity,
      Prod.mk.injEq] at hid
    obtain ⟨-, hoid, htoken⟩ := hid
    rw [if_neg, hoid, htoken, (h.orders _ o ho).getToken]
    rintro ⟨hstatus, hmodify⟩
    rw [hcancel (hrejects.mp hstatus)] at hmodify
    cases hmodify
  · rw [if_neg fun hand => hnot (hrejects.mp hand.1)]
    exact (hr.newIdentity hnew).getToken
  · simp only [MEClientResponse.identity, MEClientRequest.identity,
      Prod.mk.injEq] at hid
    obtain ⟨-, hoid, htoken⟩ := hid
    unfold Registered at hr
    cases haction : r.action with
    | new => exact absurd haction hold
    | cancel =>
        simp only [haction] at hr
        rw [if_neg (by simp), hoid, htoken]
        exact hr.getToken
    | modify =>
        simp only [haction] at hr
        rw [if_pos ⟨hrejects.mpr hreject, rfl⟩, htoken]
        exact hr.2.getToken

/-- The orders that rest after the engine has taken a request have slots of
their own. -/
theorem orders_next
    (h : Tied n d) {r : MEClientRequest} {rest : List MEClientRequest}
    (hready : d.market.Ready (r :: rest)) (hr : Registered d.tokens r)
    (t : TickerId) :
    ∀ o ∈ ((d.market.next r).ladder t).orders,
      d.tokens.Holds o.clientOrderId ⟨o.orderToken, t, o.clientId⟩ := by
  intro o ho
  rcases Market.identity_next hready ho with ⟨o', ho', hid⟩ | ⟨rfl, hnew⟩
  · have hholds := h.orders _ o' ho'
    simp only [OrderInfo.identity, Prod.mk.injEq] at hid
    obtain ⟨hclient, hoid, htoken⟩ := hid
    rw [hclient, hoid, htoken]
    exact hholds
  · exact hr.newIdentity hnew

/-- **The engine takes one of the requests under way**, unless it finds its
object pool empty. -/
theorem take
    (h : Tied n d) {k : Nat} {r : MEClientRequest}
    (hk : d.inFlight[k]? = some r) (hticker : r.tickerId < n) :
    SucceedsWith (d.step L (.process k)) fun d' =>
      Tied n d' ∧ d'.tokens = d.tokens ∧ d'.market = d.market.next r ∧
        d'.inFlight = d.inFlight.eraseIdx k ∧
        d'.answers = d.answers ++ [(r, (d.market.respond r).events.flatMap
          (Event.responses Dialect.map))] := by
  obtain ⟨hlt, hget⟩ := List.getElem?_eq_some_iff.mp hk
  have hperm : d.inFlight.Perm (r :: d.inFlight.eraseIdx k) := by
    rw [← hget]
    exact (List.getElem_cons_eraseIdx_perm hlt).symm
  have hready := h.ready hperm
  have hr : Registered d.tokens r :=
    h.requests r (List.mem_append_right _ (List.mem_of_getElem? hk))
  simp only [Desk.step, hk]
  rcases h.engine.processClientRequest hready hticker (fun _ => trivial)
    with hfull | ⟨e, he, hrep⟩
  · rw [hfull]
    exact .inl rfl
  have hsent : e.channel.responses = d.engine.channel.responses ++
      (d.market.respond r).events.flatMap (Event.responses Dialect.map) := by
    rw [hrep.sent, h.engine.sent, Market.sent_responses,
      Market.sent_responses, Market.next, List.flatMap_append]
    rfl
  rw [he, ok_bind, hsent, List.drop_left]
  refine .inr ⟨_, rfl, ?_⟩
  generalize hd' : Desk.mk d.tokens e (d.inFlight.eraseIdx k)
    (d.answers ++ [(r, (d.market.respond r).events.flatMap
      (Event.responses Dialect.map))]) = d'
  have hprocessed : d'.processed = d.processed ++ [r] := by
    simp [← hd', processed]
  have hmarket : d'.market = d.market.next r := by
    rw [market, hprocessed, Market.run_append]
    rfl
  have hall : (d.processed ++ [r] ++ d.inFlight.eraseIdx k).Perm
      (d.processed ++ d.inFlight) := by
    rw [List.append_assoc]
    exact (hperm.append_left d.processed).symm
  have htokens : d'.tokens = d.tokens := by rw [← hd']
  have hflight : d'.inFlight = d.inFlight.eraseIdx k := by rw [← hd']
  have hanswers : d'.answers = d.answers ++
      [(r, (d.market.respond r).events.flatMap
        (Event.responses Dialect.map))] := by rw [← hd']
  have hengine : d'.engine = e := by rw [← hd']
  refine ⟨⟨?_, ?_, ?_, ?_, ?_, ?_, ?_⟩, htokens, hmarket, hflight,
    hanswers⟩
  · exact htokens ▸ h.tokens
  · rw [hprocessed, hflight, htokens]
    exact fun r' hr' => h.requests r' (hall.subset hr')
  · rw [hprocessed, hflight]
    exact (hall.filterMap _).nodup_iff.mpr h.fresh
  · rw [hmarket, hengine]
    exact hrep
  · rw [hmarket, htokens]
    exact h.orders_next hready hr
  · rw [hengine, hanswers, hsent, List.flatMap_append, ← h.answered,
      List.flatMap_cons, List.flatMap_nil, List.append_nil]
  · rw [hanswers, htokens]
    intro p hp x hx
    rcases List.mem_append.mp hp with hp | hp
    · exact h.carried p hp x hx
    · obtain rfl := List.mem_singleton.mp hp
      exact h.carried_respond hr hx

end Tied

/-- **The invariant of a desk** with `n` books: all orders are of their
tickers. -/
structure Inv (n : Nat) (d : Desk P) : Prop extends Tied n d where
  tickers : TickersBelow n d.tokens

namespace Inv

variable {n : Nat} {d : Desk P} {L : OuchLayout}

theorem init (n poolSize tokenPoolSz : Nat) :
    Inv n (Desk.init n poolSize tokenPoolSz : Desk P) where
  toTied := .init n poolSize tokenPoolSz
  tickers id info h := by
    have hlt : id < 1 := h.given
    have hpos := h.positive
    lia

theorem decode
    (h : Inv n d) {c : ClientId} {message : List UInt8}
    (hrange : (DeskAction.decode c message).InRange L n) :
    ∃ d', d.step L (.decode c message) = .ok d' ∧ Inv n d' := by
  obtain ⟨d', hd', htied⟩ := h.toTied.decode (L := L) c message
  have htokens : d'.tokens = (L.decodeOuch message c d.tokens).2 := by
    rw [← Except.ok.inj hd']
  refine ⟨d', hd', htied, ?_⟩
  rw [htokens]
  refine (L.decodeOuch_registers message c h.tokens).2.2.2.2 n h.tickers
    fun r hr hnew => ?_
  rcases L.decodeOuch_cases message c h.tokens with
    heq | ⟨r', hhead, heq, -, -, -, -, -, hticker⟩ |
      ⟨r', -, heq, haction, -⟩ | ⟨r', -, heq, -, haction, -⟩ <;>
    rw [heq] at hr
  · cases hr
  · obtain rfl := Option.some.inj hr
    rw [hticker]
    exact hrange hhead
  · obtain rfl := Option.some.inj hr
    cases haction.symm.trans hnew
  · obtain rfl := Option.some.inj hr
    cases haction.symm.trans hnew

/-- The requests under way are for the books of the engine. -/
theorem inRange
    (h : Inv n d) {r : MEClientRequest} (hr : r ∈ d.inFlight) :
    r.tickerId < n := by
  obtain ⟨t, hnamed⟩ := (h.requests r (List.mem_append_right _ hr)).named
  exact h.tickers _ _ hnamed

theorem take
    (h : Inv n d) {k : Nat} {r : MEClientRequest}
    (hk : d.inFlight[k]? = some r) :
    SucceedsWith (d.step L (.process k)) fun d' =>
      Inv n d' ∧ d'.tokens = d.tokens ∧ d'.market = d.market.next r ∧
        d'.inFlight = d.inFlight.eraseIdx k ∧
        d'.answers = d.answers ++ [(r, (d.market.respond r).events.flatMap
          (Event.responses Dialect.map))] := by
  refine (h.toTied.take hk (h.inRange (List.mem_of_getElem? hk))).imp ?_
  rintro d' ⟨htied, htokens, hrest⟩
  exact ⟨⟨htied, htokens ▸ h.tickers⟩, htokens, hrest⟩

theorem process
    (h : Inv n d) (k : Nat) :
    SucceedsWith (d.step L (.process k)) fun d' => Inv n d' := by
  cases hk : d.inFlight[k]? with
  | none => exact .inr ⟨d, by simp only [Desk.step, hk], h⟩
  | some r => exact (h.take hk).imp fun d' hd' => hd'.1

theorem step
    (h : Inv n d) {a : DeskAction} (ha : a.InRange L n) :
    SucceedsWith (d.step L a) fun d' => Inv n d' := by
  cases a with
  | decode c message => exact .inr (h.decode ha)
  | process k => exact h.process k

end Inv

/-- **Every run keeps the invariant.** -/
theorem foldlM_inv
    {P : Type} [ObjectPool P] {L : OuchLayout} {n : Nat} {d : Desk P}
    (h : Inv n d) {actions : List DeskAction}
    (hrange : ∀ a ∈ actions, a.InRange L n) :
    SucceedsWith (actions.foldlM (step L) d) (Inv n) := by
  refine (SucceedsWith.foldlM
    (fun d l => Inv n d ∧ ∀ a ∈ l, a.InRange L n) ?_ ⟨h, hrange⟩).imp
      fun d hd => hd.1
  rintro d a l ⟨hd, hl⟩
  exact (hd.step (hl a List.mem_cons_self)).imp fun d' hd' =>
    ⟨hd', fun a' ha' => hl a' (List.mem_cons_of_mem _ ha')⟩

theorem run_inv
    (L : OuchLayout) (P : Type) [ObjectPool P]
    (books poolSize tokenPoolSz : Nat) {actions : List DeskAction}
    (hrange : ∀ a ∈ actions, a.InRange L books) :
    SucceedsWith (run L P books poolSize tokenPoolSz actions) (Inv books) :=
  foldlM_inv (Inv.init books poolSize tokenPoolSz) hrange

end Desk

end NanoExchange
