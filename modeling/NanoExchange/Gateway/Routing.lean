import NanoExchange.Engine.MatchingEngine
import NanoExchange.Gateway.OrderServer

/-!
# From client bytes to an order book

Which book a request reaches is decided by the bytes of a client: by the stock
field of its ENTER_ORDER, and for cancels and replacements by the ticker that
the token registry keeps for the order.  `OrderServer.Inv` ties the requests
under way to the messages they came from, over any run of the gateway.
-/

namespace NanoExchange

open Lib

namespace OrderServer

variable (L : OuchLayout) (env : Surroundings) (G : TickerId → Prop)

/-- What holds in every state of a gateway, for a property `G` of tickers. -/
structure Inv (s : OrderServer) : Prop where
  fits : s.fifo.Fits
  /-- No request is lost, doubled or made up. -/
  conserved : (s.handled ++ s.underway).Perm s.decoded
  /-- The ticker of a new order is its narrowed stock value. -/
  narrowed : ∀ x ∈ s.decoded, x.request.action = .new →
    x.request.tickerId = L.stock x.message % 2 ^ 32
  /-- If new orders have tickers with the property, all requests have. -/
  tickers : (∀ x ∈ s.decoded, x.request.action = .new →
      G x.request.tickerId) →
    s.tokenManager.Slots G ∧ ∀ x ∈ s.decoded, G x.request.tickerId

variable {L G} {s : OrderServer}

namespace Inv

theorem init (fifoPending tokenPoolSz : Nat) :
    Inv L G (OrderServer.init fifoPending tokenPoolSz) where
  fits := FifoNdProcess.Fits.init fifoPending
  conserved := List.Perm.refl _
  narrowed x hx := by cases hx
  tickers _ := ⟨OrderTokenManager.Slots.init G tokenPoolSz, fun x hx => by
    cases hx⟩

/-- One message. -/
theorem onMessage
    (h : Inv L G s) (cid : ClientId) (kernelTime : Nat)
    (message : List UInt8) :
    ∃ s', s.onMessage L env cid kernelTime message = .ok s' ∧
      Inv L G s' := by
  have hkeeps := fun hslots : s.tokenManager.Slots G =>
    OuchLayout.decodeOuch_keeps hslots L message cid
  unfold OrderServer.onMessage
  dsimp only
  cases hres : (L.decodeOuch message cid s.tokenManager).1 with
  | none =>
      refine ⟨_, rfl, h.fits, h.conserved, h.narrowed, fun hG => ?_⟩
      obtain ⟨hslots, hall⟩ := h.tickers hG
      exact ⟨(hkeeps hslots (by simp [hres])).1, hall⟩
  | some r =>
      dsimp only
      obtain ⟨s', hs', hmoves⟩ := stage_ok env (s := { s with
        tokenManager := (L.decodeOuch message cid s.tokenManager).2
        decoded := s.decoded ++ [⟨kernelTime, r, message⟩] }) h.fits
        ⟨kernelTime, r, message⟩
      refine ⟨s', hs', hmoves.fits, ?_, ?_, ?_⟩
      · rw [hmoves.handled, hmoves.decoded]
        refine (hmoves.underway.append_left _).trans ?_
        rw [← List.append_assoc]
        exact h.conserved.append_right _
      · rw [hmoves.decoded]
        intro x hx hnew
        rcases List.mem_append.mp hx with hx | hx
        · exact h.narrowed x hx hnew
        · obtain rfl := List.mem_singleton.mp hx
          exact OuchLayout.decodeOuch_new hres hnew
      · rw [hmoves.decoded, hmoves.tokenManager]
        intro hG
        obtain ⟨hslots, hall⟩ := h.tickers fun x hx =>
          hG x (List.mem_append_left _ hx)
        obtain ⟨hm, hr⟩ := hkeeps hslots fun r' hr' hnew => by
          obtain rfl := Option.some.inj (hres.symm.trans hr')
          exact hG _ (List.mem_append_right _ (List.mem_singleton_self _)) hnew
        refine ⟨hm, fun x hx => ?_⟩
        rcases List.mem_append.mp hx with hx | hx
        · exact hall x hx
        · obtain rfl := List.mem_singleton.mp hx
          exact hr r hres

theorem publish (h : Inv L G s) : Inv L G (s.publishPendingOrders env) := by
  have hmoves := publishPendingOrders_moves env h.fits
  refine ⟨hmoves.fits, ?_, h.narrowed, h.tickers⟩
  refine List.Perm.trans (List.Perm.append_left _ ?_) h.conserved
  have hperm := hmoves.underway
  rwa [List.append_nil] at hperm

theorem onRecv
    (h : Inv L G s) (fd kernelTime : Nat) :
    ∃ s', s.onRecv L env fd kernelTime = .ok s' ∧ Inv L G s' := by
  have hclient : Inv L G
      (if s.fdToClientId fd = none then s.registerClient fd else s) := by
    split_ifs
    · exact ⟨h.fits, h.conserved, h.narrowed, h.tickers⟩
    · exact h
  unfold OrderServer.onRecv
  dsimp only
  obtain ⟨s', rest, hloop, h'⟩ := onRecvLoop_invariant L env (Inv L G)
    (fun s message hs => hs.onMessage env _ kernelTime message) le_rfl hclient
  rw [hloop, ok_bind]
  exact ⟨_, rfl, h'.fits, h'.conserved, h'.narrowed, h'.tickers⟩

/-- **Every step keeps the invariant, and none fails.** -/
theorem step
    (h : Inv L G s) (i : Input) :
    ∃ s', s.step L env i = .ok s' ∧ Inv L G s' := by
  cases i with
  | recv fd bytes kernelTime =>
      exact Inv.onRecv env
        (s := { s with
          inbound := Function.update s.inbound fd (s.inbound fd ++ bytes) })
        ⟨h.fits, h.conserved, h.narrowed, h.tickers⟩ fd kernelTime
  | publish => exact ⟨_, rfl, h.publish env⟩
  | disconnect fd =>
      refine ⟨_, rfl, ?_⟩
      unfold onDisconnect
      split
      · exact ⟨h.fits, h.conserved, h.narrowed, h.tickers⟩
      · exact ⟨h.fits, h.conserved, h.narrowed, h.tickers⟩
  | process =>
      have hconserved := h.conserved
      unfold OrderServer.step
      cases hq : s.requestQ with
      | nil => exact ⟨s, rfl, h⟩
      | cons x q =>
          refine ⟨_, rfl, h.fits, ?_, h.narrowed, h.tickers⟩
          rw [underway, hq] at hconserved
          simpa [underway] using hconserved

end Inv

/-- **No run of the gateway fails, and the invariant holds after it.** -/
theorem run_inv
    (L : OuchLayout) (G : TickerId → Prop) (fifoPending tokenPoolSz : Nat)
    (inputs : List Input) :
    ∃ s, run L env fifoPending tokenPoolSz inputs = .ok s ∧ Inv L G s :=
  foldlM_invariant (Inv L G) (fun _ i h => h.step env i)
    (Inv.init fifoPending tokenPoolSz) inputs

end OrderServer

/-- The request indexes one of `n` books, and a new order the book that its
message names. -/
structure RightBook (L : OuchLayout) (n : Nat) (x : RecvClientRequest) :
    Prop where
  inRange : x.request.tickerId < n
  named : x.request.action = .new →
    x.request.tickerId = L.stock x.message

/-- The stock values of the new orders name books, and fit into the 32 bits of
a ticker id. -/
def StocksInRange (L : OuchLayout) (n : Nat) (l : List RecvClientRequest) :
    Prop :=
  ∀ x ∈ l, x.request.action = .new →
    L.stock x.message < n ∧ L.stock x.message < 2 ^ 32

/-- **When the bytes of clients select the right books.**  In every run of the
gateway, for an engine with `n` books: if every ENTER_ORDER that has been
registered names a book, by a stock value that fits into 32 bits, then every
request that the engine has taken indexes a book, and a new order the book that
its message names; and if no request is still under way, only then. -/
theorem client_bytes_select_books
    (L : OuchLayout) (env : Surroundings) (n fifoPending tokenPoolSz : Nat)
    (inputs : List Input) :
    ∃ s, OrderServer.run L env fifoPending tokenPoolSz inputs = .ok s ∧
      (StocksInRange L n s.decoded → ∀ x ∈ s.handled, RightBook L n x) ∧
      (s.underway = [] → (∀ x ∈ s.handled, RightBook L n x) →
        StocksInRange L n s.decoded) := by
  obtain ⟨s, hs, hinv⟩ := OrderServer.run_inv env L (· < n) fifoPending
    tokenPoolSz inputs
  refine ⟨s, hs, ?_, ?_⟩
  · intro hrange x hx
    have hnamed : ∀ y ∈ s.decoded, y.request.action = .new →
        y.request.tickerId = L.stock y.message := by
      intro y hy hnew
      rw [hinv.narrowed y hy hnew]
      exact Nat.mod_eq_of_lt (hrange y hy hnew).2
    have htickers := (hinv.tickers fun y hy hnew => by
      rw [hnamed y hy hnew]
      exact (hrange y hy hnew).1).2
    have hdecoded : x ∈ s.decoded :=
      hinv.conserved.subset (List.mem_append_left _ hx)
    exact ⟨htickers x hdecoded, hnamed x hdecoded⟩
  · intro hdrained hright x hx hnew
    have hperm := hinv.conserved
    rw [hdrained, List.append_nil] at hperm
    obtain ⟨hlt, hnamed⟩ := hright x (hperm.symm.subset hx)
    have hstock := hnamed hnew
    refine ⟨hstock ▸ hlt, ?_⟩
    rw [← hstock, hinv.narrowed x hx hnew]
    exact Nat.mod_lt _ (Nat.two_pow_pos 32)

/-- The packed OUCH structs. -/
def OuchLayout.packed : OuchLayout where
  enterOrder := 79
  cancelOrder := 88
  replaceOrder := 85
  types_distinct := by decide
  enterOrderSize := 49
  cancelOrderSize := 19
  replaceOrderSize := 47
  sizes_pos := by decide
  enterToken := 1
  enterBuySell := 15
  enterStock := 20
  enterPrice := 28
  enterTimeInForce := 32
  cancelToken := 1
  replaceExistingToken := 1
  replaceReplacementToken := 15
  replacePrice := 33
  replaceTimeInForce := 37
  enterShares message := ofBigEndian (field message 16 4)
  cancelShares message := ofBigEndian (field message 15 4)
  replaceShares message := ofBigEndian (field message 29 4)

/-- A stable sort, and a request queue with room. -/
def Surroundings.roomy : Surroundings where
  stdSort :=
    { sort := List.insertionSort fun a b => a.timeNanos ≤ b.timeNanos
      perm := List.perm_insertionSort _
      sorted := by
        have htrans : IsTrans RecvClientRequest
            fun a b => a.timeNanos ≤ b.timeNanos :=
          ⟨fun _ _ _ h h' => le_trans h h'⟩
        have htotal : Std.Total
            fun a b : RecvClientRequest => a.timeNanos ≤ b.timeNanos :=
          ⟨fun _ _ => le_total _ _⟩
        exact List.pairwise_insertionSort _ }
  room _ := 1000

/-- An ENTER_ORDER to buy 5 shares at price 100 of the given stock. -/
def enterOrderMessage (stock : Nat) : List UInt8 :=
  79 :: List.replicate 14 65 ++ [66] ++ toBigEndian 4 5 ++
    toBigEndian 8 stock ++ toBigEndian 4 100 ++ toBigEndian 4 99998 ++
    List.replicate 13 32

/-- A message for stock 4 makes an engine with 4 books index past the end of
its vector, and one for stock `2^32 + 1` reaches the book of ticker 1. -/
theorem client_bytes_select_wrong_books :
    ∃ s, OrderServer.run OuchLayout.packed Surroundings.roomy 16 16
        [.recv 7 (enterOrderMessage 4) 0,
          .recv 8 (enterOrderMessage (2 ^ 32 + 1)) 1, .publish, .process,
          .process] = .ok s ∧
      ∃ x y, s.handled = [x, y] ∧
        x.request.action = .new ∧ x.request.tickerId = 4 ∧
        (MatchingEngine.init 4 4 : MatchingEngine MapLevels
          ScanPool).processClientRequest x.request = .error .outOfRange ∧
        y.request.action = .new ∧ y.request.tickerId = 1 ∧
        OuchLayout.packed.stock y.message = 2 ^ 32 + 1 := by
  have hhandled : ((OrderServer.run OuchLayout.packed Surroundings.roomy 16 16
      [.recv 7 (enterOrderMessage 4) 0,
        .recv 8 (enterOrderMessage (2 ^ 32 + 1)) 1, .publish, .process,
        .process]).toOption.map fun s => s.handled.map fun x =>
          (x.request.action, x.request.tickerId,
            OuchLayout.packed.stock x.message)) =
      some [(.new, 4, 4), (.new, 1, 2 ^ 32 + 1)] := by
    decide
  obtain ⟨s, hs, -⟩ := OrderServer.run_inv Surroundings.roomy
    OuchLayout.packed (fun _ => True) 16 16 [.recv 7 (enterOrderMessage 4) 0,
      .recv 8 (enterOrderMessage (2 ^ 32 + 1)) 1, .publish, .process, .process]
  refine ⟨s, hs, ?_⟩
  rw [hs] at hhandled
  obtain ⟨x, l, hxl, hx, hl⟩ :=
    List.map_eq_cons_iff.mp (Option.some.inj hhandled)
  obtain ⟨y, l', rfl, hy, hl'⟩ := List.map_eq_cons_iff.mp hl
  obtain rfl := List.map_eq_nil_iff.mp hl'
  simp only [Prod.mk.injEq] at hx hy
  refine ⟨x, y, hxl, hx.1, hx.2.1, ?_, hy⟩
  simp [MatchingEngine.processClientRequest, MatchingEngine.init, hx.2.1]

end NanoExchange
