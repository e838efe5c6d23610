import NanoExchange.Gateway.Isolation
import NanoExchange.Gateway.Replies

/-!
# From message to request

Every request of a run comes from one complete message, and what the engine has
answered are such requests.  `Recorded` is the invariant of a run that says so.
The engine of an exchange is that of a run on the requests it has taken
(`run_engine`).
-/

namespace NanoExchange

open Lib

/-- The price of the request, and the quantity of the order that it brings, are
numbers of 32 bits. -/
structure MEClientRequest.Narrow (r : MEClientRequest) : Prop where
  price : r.price < 2 ^ 32
  qty : r.action ≠ .cancel → r.qty < 2 ^ 32

namespace OuchLayout

/-- The request is what a complete message has been decoded to. -/
structure Sent (L : OuchLayout) (message : List UInt8)
    (r : MEClientRequest) : Prop where
  complete : Framing.Complete L.ouchMsgSize message
  decoded : L.Enters message r ∨
    (r.action = .cancel ∧ message.head? = some L.cancelOrder ∧ r.price = 0) ∨
    L.Replaces message r

/-- The price field of an ENTER_ORDER or a REPLACE_ORDER. -/
def sentPrice (L : OuchLayout) (message : List UInt8) : List UInt8 :=
  if message.head? = some L.enterOrder then field message L.enterPrice 4
  else field message L.replacePrice 4

/-- A field of four bytes is a number of 32 bits. -/
theorem ofBigEndian_field_lt (message : List UInt8) (offset : Nat) :
    ofBigEndian (field message offset 4) < 2 ^ 32 := by
  have hlen : (field message offset 4).length ≤ 4 := List.length_take_le _ _
  refine (ofBigEndian_lt _).trans_le ?_
  exact Nat.pow_le_pow_right (by decide : 0 < 256) hlen

namespace Sent

variable {L : OuchLayout} {message : List UInt8} {r : MEClientRequest}

/-- A complete message has the size of its type. -/
theorem length (h : L.Sent message r) {t : UInt8}
    (hhead : message.head? = some t) : message.length = L.ouchMsgSize t := by
  obtain ⟨t', rest, rfl, hlen⟩ := h.complete
  obtain rfl := Option.some.inj hhead
  exact hlen

theorem enters
    (h : L.Sent message r) (hnew : r.action = .new) :
    L.Enters message r ∧ message.length = L.enterOrderSize := by
  rcases h.decoded with henters | ⟨hcancel, -⟩ | hreplaces
  · refine ⟨henters, (h.length henters.head).trans ?_⟩
    rw [ouchMsgSize, if_pos rfl]
  · cases hnew.symm.trans hcancel
  · cases hnew.symm.trans hreplaces.action

theorem replaces
    (h : L.Sent message r) (hmodify : r.action = .modify) :
    L.Replaces message r ∧ message.length = L.replaceOrderSize := by
  obtain ⟨-, hreplace, hcancel⟩ := L.types_distinct
  rcases h.decoded with henters | ⟨hcanceled, -⟩ | hreplaces
  · cases hmodify.symm.trans henters.action
  · cases hmodify.symm.trans hcanceled
  · refine ⟨hreplaces, (h.length hreplaces.head).trans ?_⟩
    rw [ouchMsgSize, if_neg hreplace.symm, if_neg hcancel.symm, if_pos rfl]

/-- **The price of a request fits into 32 bits.** -/
theorem price_lt (h : L.Sent message r) : r.price < 2 ^ 32 := by
  rcases h.decoded with henters | ⟨-, -, hzero⟩ | hreplaces
  · rw [henters.price]
    exact ofBigEndian_field_lt _ _
  · rw [hzero]
    decide
  · rw [hreplaces.price]
    exact ofBigEndian_field_lt _ _

theorem narrow (h : L.Sent message r) (K : L.PackedFields) : r.Narrow := by
  refine ⟨h.price_lt, fun hcancel => ?_⟩
  rcases h.decoded with henters | ⟨haction, -⟩ | hreplaces
  · rw [henters.qty, K.enterShares]
    exact ofBigEndian_field_lt _ _
  · exact absurd haction hcancel
  · rw [hreplaces.qty, K.replaceShares]
    exact ofBigEndian_field_lt _ _

/-- The price of an order is the one that the message has which brings it. -/
theorem sentPrice
    (h : L.Sent message r) (K : L.PackedFields) {o : OrderInfo}
    (hbrings : r.Brings o) :
    toBigEndian 4 o.price = L.sentPrice message := by
  obtain ⟨-, hreplace, -⟩ := L.types_distinct
  rw [hbrings.price, OuchLayout.sentPrice]
  cases haction : r.action with
  | new =>
      obtain ⟨henters, hlen⟩ := h.enters haction
      rw [if_pos henters.head, henters.price]
      exact toBigEndian_field (hlen ▸ K.enter_inside.2.2)
  | cancel =>
      have hid := hbrings.identity
      simp [MEClientRequest.newIdentity, MEClientRequest.newKey,
        haction] at hid
  | modify =>
      obtain ⟨hreplaces, hlen⟩ := h.replaces haction
      rw [hreplaces.head, if_neg fun heq =>
        hreplace (Option.some.inj heq).symm, hreplaces.price]
      exact toBigEndian_field (hlen ▸ K.replace_inside.2.2)

end Sent

end OuchLayout

namespace OrderServer

variable {L : OuchLayout} {cid : ClientId}

theorem mem_decodeAll
    {tokens : OrderTokenManager} {messages : List (List UInt8)}
    {p : MEClientRequest × List UInt8}
    (hp : p ∈ (decodeAll L cid tokens messages).1) :
    p.2 ∈ messages ∧ ∃ m, (L.decodeOuch p.2 cid m).1 = some p.1 := by
  induction messages generalizing tokens with
  | nil => cases hp
  | cons message messages ih =>
      rw [← List.singleton_append, decodeAll_append] at hp
      rcases List.mem_append.mp hp with hp | hp
      · simp only [decodeAll, List.foldl_cons, List.foldl_nil,
          List.nil_append, List.mem_map, Option.mem_toList] at hp
        obtain ⟨r, hr, rfl⟩ := hp
        exact ⟨List.mem_cons_self, _, hr⟩
      · obtain ⟨hmem, hdecoded⟩ := ih hp
        exact ⟨List.mem_cons_of_mem _ hmem, hdecoded⟩

/-- **A call of `onRecv` decodes complete messages.** -/
theorem sent_of_recv
    {env : Surroundings} {s s' : OrderServer} (hfits : s.fifo.Fits)
    {fd : Nat} {bytes : List UInt8} {kernelTime : Nat}
    (hs' : s.step L env (.recv fd bytes kernelTime) = .ok s')
    (h : ∀ x ∈ s.decoded, L.Sent x.message x.request) :
    ∀ x ∈ s'.decoded, L.Sent x.message x.request := by
  obtain ⟨t, ht, hdecodes, -⟩ :=
    recv_decodes (L := L) env hfits fd bytes kernelTime
  obtain rfl := Except.ok.inj (ht.symm.trans hs')
  intro x hx
  have hmem := List.mem_map_of_mem (f := payload) hx
  rw [hdecodes.decoded] at hmem
  rcases List.mem_append.mp hmem with hold | hnew
  · obtain ⟨y, hy, heq⟩ := List.mem_map.mp hold
    obtain ⟨hrequest, hmessage⟩ := Prod.mk.inj heq
    rw [← hrequest, ← hmessage]
    exact h y hy
  · obtain ⟨hframe, m, hdecoded⟩ := mem_decodeAll hnew
    exact ⟨Framing.complete_of_mem_frames hframe,
      OuchLayout.decodeOuch_some hdecoded⟩

end OrderServer

namespace Exchange

variable {P : Type} [ObjectPool P] {n : Nat} {L : OuchLayout}
  {R : OuchReplies} {env : Surroundings} {e e' : Exchange P}

/-- **Where requests and replies come from**: from messages, and from what the
engine has answered. -/
structure Recorded (L : OuchLayout) (e : Exchange P) : Prop where
  decoded : ∀ x ∈ e.server.decoded, L.Sent x.message x.request
  answered : ∀ p ∈ e.answers, ∃ x ∈ e.server.decoded, x.request = p.1
  queued : ∀ y ∈ e.responseQ, ∃ p ∈ e.answers, y ∈ p.2
  delivered : ∀ conn y, (conn, y) ∈ e.staged → ∃ p ∈ e.answers, y ∈ p.2

namespace Recorded

theorem init (n poolSize fifoPending tokenPoolSz : Nat) :
    Recorded L (Exchange.init n poolSize fifoPending tokenPoolSz :
      Exchange P) where
  decoded := nofun
  answered := nofun
  queued := nofun
  delivered := nofun

theorem onRecv
    (h : Recorded L e) (hinv : Inv n e) {fd : Nat} {bytes : List UInt8}
    {kernelTime : Nat} (he' : e.onRecv L env fd bytes kernelTime = .ok e') :
    Recorded L e' := by
  obtain ⟨s, hs, rfl⟩ := onRecv_ok he'
  obtain ⟨-, G, hdecoded, -⟩ := hinv.works.recv hs
  refine ⟨OrderServer.sent_of_recv hinv.works.fits hs h.decoded, ?_,
    h.queued, h.delivered⟩
  intro p hp
  obtain ⟨x, hx, hrequest⟩ := h.answered p hp
  refine ⟨x, ?_, hrequest⟩
  show x ∈ s.decoded
  rw [hdecoded]
  exact List.mem_append_left _ hx

theorem process
    (h : Recorded L e) (hinv : Inv n e) (he' : e.process = .ok e') :
    Recorded L e' := by
  rcases process_cases he' with
    ⟨-, rfl⟩ | ⟨x, q, engine, responses, hq, -, -, rfl⟩
  · exact h
  have hx : x ∈ e.server.decoded := (hinv.take hq he').1
  refine ⟨h.decoded, ?_, ?_, ?_⟩
  · intro p hp
    rcases List.mem_append.mp hp with hp | hp
    · exact h.answered p hp
    · obtain rfl := List.mem_singleton.mp hp
      exact ⟨x, hx, rfl⟩
  · intro y hy
    rcases List.mem_append.mp hy with hy | hy
    · obtain ⟨p, hp, hyp⟩ := h.queued y hy
      exact ⟨p, List.mem_append_left _ hp, hyp⟩
    · exact ⟨(x.request, responses),
        List.mem_append_right _ (List.mem_singleton_self _), hy⟩
  · intro conn y hy
    obtain ⟨p, hp, hyp⟩ := h.delivered conn y hy
    exact ⟨p, List.mem_append_left _ hp, hyp⟩

omit [ObjectPool P] in
theorem drain
    (h : Recorded L e) (clock : Nat → Nat) :
    Recorded L (e.drainResponses R clock) := by
  obtain ⟨outbound, more, heq, hmore⟩ :=
    deliverAll_eq (R := R) clock 0 e.responseQ e
  unfold drainResponses
  rw [heq]
  refine ⟨h.decoded, h.answered, nofun, fun conn y hy => ?_⟩
  rcases List.mem_append.mp hy with hy | hy
  · exact h.delivered conn y hy
  · exact h.queued y (hmore conn y hy).1

/-- **Every step keeps the record.** -/
theorem step
    (h : Recorded L e) (hinv : Inv n e) {i : ExchangeInput}
    (he' : e.step L R env i = .ok e') : Recorded L e' := by
  cases i with
  | recv fd bytes kernelTime => exact h.onRecv hinv he'
  | publish =>
      obtain rfl := Except.ok.inj he'
      exact ⟨h.decoded, h.answered, h.queued, h.delivered⟩
  | disconnect fd =>
      obtain rfl := Except.ok.inj he'
      have hsame := OrderServer.onDisconnect_sameRequests e.server fd
      refine ⟨?_, ?_, h.queued, h.delivered⟩
      · exact hsame.decoded.symm ▸ h.decoded
      · exact hsame.decoded.symm ▸ h.answered
  | process => exact h.process hinv he'
  | drain clock =>
      obtain rfl := Except.ok.inj he'
      exact h.drain clock

end Recorded

variable {books poolSize fifoPending tokenPoolSz : Nat}

theorem run_recorded
    {inputs : List ExchangeInput}
    (he : run L R env P books poolSize fifoPending tokenPoolSz inputs =
      .ok e) : Recorded L e := by
  induction inputs using List.reverseRecOn generalizing e with
  | nil =>
      obtain rfl := Except.ok.inj he
      exact .init books poolSize fifoPending tokenPoolSz
  | append_singleton inputs i ih =>
      obtain ⟨e₀, he₀, hlast⟩ := foldlM_append_ok he
      have hstep : e₀.step L R env i = .ok e := by
        simpa using hlast
      exact (ih he₀).step (run_inv he₀).1 hstep

/-- A step takes one request to the engine, or none. -/
theorem step_processed
    {i : ExchangeInput} (he' : e.step L R env i = .ok e') :
    (e'.engine = e.engine ∧ e'.desk.processed = e.desk.processed) ∨
    ∃ r, e.engine.processClientRequest r = .ok e'.engine ∧
      e'.desk.processed = e.desk.processed ++ [r] := by
  cases i with
  | recv fd bytes kernelTime =>
      obtain ⟨s, -, rfl⟩ := onRecv_ok he'
      exact .inl ⟨rfl, rfl⟩
  | publish | disconnect fd =>
      obtain rfl := Except.ok.inj he'
      exact .inl ⟨rfl, rfl⟩
  | process =>
      rcases process_cases he' with
        ⟨-, rfl⟩ | ⟨x, q, engine, responses, -, hengine, -, rfl⟩
      · exact .inl ⟨rfl, rfl⟩
      · refine .inr ⟨x.request, hengine, ?_⟩
        exact List.map_append
  | drain clock =>
      obtain rfl := Except.ok.inj he'
      obtain ⟨outbound, more, heq, -⟩ :=
        deliverAll_eq (R := R) clock 0 e.responseQ e
      left
      unfold drainResponses
      rw [heq]
      exact ⟨rfl, rfl⟩

/-- **The engine of an exchange has been run on the requests it has taken.** -/
theorem run_engine
    {inputs : List ExchangeInput}
    (he : run L R env P books poolSize fifoPending tokenPoolSz inputs =
      .ok e) :
    MatchingEngine.run MapLevels P books poolSize e.desk.processed =
      .ok e.engine := by
  induction inputs using List.reverseRecOn generalizing e with
  | nil =>
      obtain rfl := Except.ok.inj he
      rfl
  | append_singleton inputs i ih =>
      obtain ⟨e₀, he₀, hlast⟩ := foldlM_append_ok he
      have hstep : e₀.step L R env i = .ok e := by
        simpa using hlast
      rcases step_processed hstep with ⟨hengine, hsame⟩ | ⟨r, hr, hmore⟩
      · rw [hsame, hengine]
        exact ih he₀
      · have hrun := ih he₀
        unfold MatchingEngine.run at hrun ⊢
        rw [hmore, List.foldlM_append, hrun, ok_bind, List.foldlM_cons, hr]
        rfl

/-- And they name books of the engine. -/
theorem run_tickers
    {inputs : List ExchangeInput}
    (he : run L R env P books poolSize fifoPending tokenPoolSz inputs =
      .ok e) :
    TickersInRange books e.desk.processed := by
  induction inputs using List.reverseRecOn generalizing e with
  | nil =>
      obtain rfl := Except.ok.inj he
      nofun
  | append_singleton inputs i ih =>
      obtain ⟨e₀, he₀, hlast⟩ := foldlM_append_ok he
      have hstep : e₀.step L R env i = .ok e := by
        simpa using hlast
      rcases step_processed hstep with ⟨-, hsame⟩ | ⟨r, hr, hmore⟩
      · rw [hsame]
        exact ih he₀
      · have htied : Desk.Tied books e₀.desk := (run_inv he₀).1.works.tied
        have hticker := MatchingEngine.tickerId_lt_of_ok hr
        have hbooks : e₀.engine.tickerOrderBook.length = books :=
          htied.engine.books
        rw [hbooks] at hticker
        rw [hmore]
        intro r' hr'
        rcases List.mem_append.mp hr' with hr' | hr'
        · exact ih he₀ r' hr'
        · rw [List.mem_singleton.mp hr']
          exact hticker

theorem Inv.freshKeys (h : Inv n e) : FreshKeys e.desk.processed := by
  have htied : Desk.Tied n e.desk := h.works.tied
  exact htied.fresh.sublist ((List.sublist_append_left _ _).filterMap _)

/-- Later steps take more requests to the engine. -/
theorem processed_mono
    {inputs : List ExchangeInput}
    (he' : inputs.foldlM (step L R env) e = .ok e') :
    e.desk.processed <+: e'.desk.processed := by
  induction inputs using List.reverseRecOn generalizing e' with
  | nil =>
      obtain rfl := Except.ok.inj he'
      exact List.prefix_rfl
  | append_singleton inputs i ih =>
      obtain ⟨e₁, he₁, hlast⟩ := foldlM_append_ok he'
      have hstep : e₁.step L R env i = .ok e' := by
        simpa using hlast
      rcases step_processed hstep with ⟨-, hsame⟩ | ⟨r, -, hmore⟩
      · rw [hsame]
        exact ih he₁
      · rw [hmore]
        exact (ih he₁).trans (List.prefix_append _ _)

omit [ObjectPool P] in
theorem Recorded.narrow
    (h : Recorded L e) (K : L.PackedFields) {r : MEClientRequest}
    (hr : r ∈ e.desk.processed) :
    r.Narrow := by
  obtain ⟨p, hp, rfl⟩ := List.mem_map.mp hr
  obtain ⟨x, hx, hrequest⟩ := h.answered p hp
  rw [← hrequest]
  exact (h.decoded x hx).narrow K

end Exchange

/-- The packed OUCH structs. -/
def OuchLayout.packedFields : OuchLayout.packed.PackedFields where
  enterSharesAt := 16
  replaceSharesAt := 29
  enterShares _ := rfl
  replaceShares _ := rfl
  enter_inside := by
    unfold OrderFields.Inside
    decide
  stock_inside := by decide
  replace_inside := by
    unfold OrderFields.Inside
    decide

end NanoExchange
