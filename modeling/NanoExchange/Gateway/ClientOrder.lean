import NanoExchange.Gateway.Rounds
import NanoExchange.Lib.Lists

/-!
# The order of one client's requests

`std::sort` may exchange requests that have the same time, and all messages of
one read have the same time.  The requests of a client keep the order in which
it has sent them as long as no two of them with one time wait in the buffer
together.
-/

namespace NanoExchange

open Lib

namespace OrderServer

variable {L : OuchLayout} {env : Surroundings} {s s' : OrderServer}

/-- The requests of client `c`. -/
def ofClient (c : ClientId) (l : List RecvClientRequest) :
    List RecvClientRequest :=
  l.filter fun x => x.request.clientId = c

@[simp] theorem ofClient_append
    (c : ClientId) (l l' : List RecvClientRequest) :
    ofClient c (l ++ l') = ofClient c l ++ ofClient c l' :=
  List.filter_append ..

theorem mem_ofClient
    {c : ClientId} {x : RecvClientRequest} {l : List RecvClientRequest} :
    x ∈ ofClient c l ↔ x ∈ l ∧ x.request.clientId = c := by
  simp [ofClient]

/-- The times of each client's requests do not decrease. -/
def TimesRise (l : List RecvClientRequest) : Prop :=
  l.Pairwise fun a b => a.request.clientId = b.request.clientId →
    a.timeNanos ≤ b.timeNanos

instance (l : List RecvClientRequest) : Decidable (TimesRise l) :=
  inferInstanceAs (Decidable (l.Pairwise _))

/-- For each client, what has reached the queue and then what is pending are
its requests in the order in which they were decoded; those that are pending
have increasing times. -/
structure InClientOrder (s : OrderServer) : Prop where
  fits : s.fifo.Fits
  order : ∀ c, ofClient c (s.handled ++ s.requestQ ++ s.fifo.pending) =
    ofClient c s.decoded
  times : ∀ c, (ofClient c s.fifo.pending).Pairwise
    fun a b => a.timeNanos < b.timeNanos

namespace InClientOrder

theorem init (fifoPending tokenPoolSz : Nat) :
    InClientOrder (OrderServer.init fifoPending tokenPoolSz) where
  fits := .init fifoPending
  order _ := rfl
  times _ := List.Pairwise.nil

/-- Sorting does not exchange requests of one client. -/
theorem ordered (h : InClientOrder s) (S : StdSort) (c : ClientId) :
    ofClient c (s.fifo.ordered S) = ofClient c s.fifo.pending := by
  unfold FifoNdProcess.ordered
  split_ifs
  · rfl
  · exact filter_eq_of_perm_of_sorted (S.perm _) (S.sorted _) (h.times c)

theorem publish (h : InClientOrder s) :
    InClientOrder (s.publishPendingOrders env) := by
  have hordered := h.ordered env.stdSort
  have hfits := (publishPendingOrders_moves env h.fits).fits
  by_cases hnil : s.fifo.pending = []
  · have heq : s.fifo.publishPendingOrders env.stdSort (env.room s.publishes) =
        (s.fifo, []) := if_pos hnil
    refine ⟨hfits, fun c => ?_, fun c => ?_⟩
    · simp only [publishPendingOrders, heq, List.append_nil]
      exact h.order c
    · simp only [publishPendingOrders, heq]
      exact h.times c
  · have heq : s.fifo.publishPendingOrders env.stdSort (env.room s.publishes) =
        ({ s.fifo with
          pending := (s.fifo.ordered env.stdSort).drop (env.room s.publishes)
          pendingSorted := true },
          (s.fifo.ordered env.stdSort).take (env.room s.publishes)) :=
      if_neg hnil
    have hsplit : ∀ c,
        ofClient c ((s.fifo.ordered env.stdSort).take
          (env.room s.publishes)) ++
        ofClient c ((s.fifo.ordered env.stdSort).drop
          (env.room s.publishes)) = ofClient c s.fifo.pending := by
      intro c
      rw [← ofClient_append, List.take_append_drop, hordered]
    refine ⟨hfits, fun c => ?_, fun c => ?_⟩
    · have horder := h.order c
      simp only [publishPendingOrders, heq, ofClient_append] at horder ⊢
      rw [← horder, ← hsplit c]
      simp only [List.append_assoc]
    · have htimes := h.times c
      rw [← hsplit c, List.pairwise_append] at htimes
      simp only [publishPendingOrders, heq]
      exact htimes.2.1

theorem makeRoom (h : InClientOrder s) : InClientOrder (s.makeRoom env) := by
  unfold OrderServer.makeRoom
  split_ifs
  · exact h.publish
  · exact h

/-- A request enters the buffer behind earlier ones of its client. -/
theorem enter
    (h : InClientOrder s) {x : RecvClientRequest}
    (hx : ∀ y ∈ s.fifo.pending, y.request.clientId = x.request.clientId →
      y.timeNanos < x.timeNanos)
    {tokens : OrderTokenManager} {capacity : Nat}
    (hs' : s' = { s with
      tokenManager := tokens
      decoded := s.decoded ++ [x]
      fifo :=
        { capacity := capacity
          pending := s.fifo.pending ++ [x]
          pendingSorted := false } })
    (hfits : s'.fifo.Fits) : InClientOrder s' := by
  refine ⟨hfits, fun c => ?_, fun c => ?_⟩
  · rw [hs']
    dsimp only
    rw [← List.append_assoc, ofClient_append, h.order c, ofClient_append]
  · rw [hs']
    dsimp only
    rw [ofClient_append, List.pairwise_append]
    refine ⟨h.times c, List.Pairwise.filter _ (List.pairwise_singleton _ _),
      fun y hy z hz => ?_⟩
    obtain ⟨hy, hyc⟩ := mem_ofClient.mp hy
    obtain ⟨hz, hzc⟩ := mem_ofClient.mp hz
    obtain rfl := List.mem_singleton.mp hz
    exact hx y hy (hyc.trans hzc.symm)

end InClientOrder

theorem makeRoom_decoded (env : Surroundings) (s : OrderServer) :
    (s.makeRoom env).decoded = s.decoded := by
  unfold makeRoom
  split_ifs <;> rfl

variable (L env) in
/-- The request of a message, if there is one, would enter the buffer without
meeting one of its client and time there. -/
def EntersApart (cid : ClientId) (kernelTime : Nat) (s : OrderServer)
    (message : List UInt8) : Prop :=
  ∀ r, (L.decodeOuch message cid s.tokenManager).1 = some r →
    ∀ y ∈ (s.makeRoom env).fifo.pending,
      y.request.clientId = r.clientId → y.timeNanos ≠ kernelTime

/-- One message. -/
theorem InClientOrder.onMessage
    (h : InClientOrder s) {cid : ClientId} {kernelTime : Nat}
    {message : List UInt8}
    (hs' : s.onMessage L env cid kernelTime message = .ok s')
    (htimes : TimesRise s'.decoded)
    (hapart : EntersApart L env cid kernelTime s message) :
    InClientOrder s' := by
  rcases onMessage_cases env L h.fits cid kernelTime message with
    ⟨t, ht, -, rfl⟩ | ⟨t, r, capacity, ht, hr, heq, hfits, -⟩
  · obtain rfl := Except.ok.inj (ht.symm.trans hs')
    exact ⟨h.fits, h.order, h.times⟩
  · obtain rfl := Except.ok.inj (ht.symm.trans hs')
    have hroom : InClientOrder (s.makeRoom env) := h.makeRoom
    have hdecoded := makeRoom_decoded env s
    refine hroom.enter (x := ⟨kernelTime, r, message⟩) ?_
      (by rw [hdecoded]; exact heq) hfits
    intro y hy hclient
    -- the pending request was decoded before, and has another time
    have hmem : y ∈ s.decoded := by
      have hqueued : y ∈ ofClient r.clientId ((s.makeRoom env).handled ++
          (s.makeRoom env).requestQ ++ (s.makeRoom env).fifo.pending) :=
        mem_ofClient.mpr ⟨List.mem_append_right _ hy, hclient⟩
      rw [hroom.order, hdecoded] at hqueued
      exact (mem_ofClient.mp hqueued).1
    rw [heq] at htimes
    have hle := (List.pairwise_append.mp htimes).2.2 y hmem _
      (List.mem_singleton_self _) hclient
    exact lt_of_le_of_ne hle (hapart r hr y hy hclient)

theorem onMessage_decoded
    (hfits : s.fifo.Fits) {cid : ClientId} {kernelTime : Nat}
    {message : List UInt8}
    (hs' : s.onMessage L env cid kernelTime message = .ok s') :
    s'.fifo.Fits ∧ s.decoded <+: s'.decoded := by
  rcases onMessage_cases env L hfits cid kernelTime message with
    ⟨t, ht, -, rfl⟩ | ⟨t, r, capacity, ht, -, heq, hfits', -⟩
  · obtain rfl := Except.ok.inj (ht.symm.trans hs')
    exact ⟨hfits, List.prefix_refl _⟩
  · obtain rfl := Except.ok.inj (ht.symm.trans hs')
    refine ⟨hfits', ?_⟩
    rw [heq]
    exact List.prefix_append _ _

/-- The messages of one call of `onRecv`. -/
theorem InClientOrder.messages
    (h : InClientOrder s) {cid : ClientId} {kernelTime : Nat}
    {messages : List (List UInt8)}
    (hs' : messages.foldlM (fun s m => s.onMessage L env cid kernelTime m) s =
      .ok s')
    (htimes : TimesRise s'.decoded)
    (hapart : ∀ pre m post s₁, messages = pre ++ m :: post →
      pre.foldlM (fun s m => s.onMessage L env cid kernelTime m) s = .ok s₁ →
      EntersApart L env cid kernelTime s₁ m) :
    InClientOrder s' := by
  induction messages using List.reverseRecOn generalizing s' with
  | nil =>
      obtain rfl : s = s' := Except.ok.inj hs'
      exact h
  | append_singleton messages m ih =>
      obtain ⟨s₁, hs₁, hlast⟩ := foldlM_append_ok hs'
      have hmessage : s₁.onMessage L env cid kernelTime m = .ok s' := by
        simpa using hlast
      obtain ⟨s₂, hs₂, hdecodes, -⟩ := foldlM_onMessage_decodes (L := L)
        env cid h.fits kernelTime messages
      obtain rfl := Except.ok.inj (hs₂.symm.trans hs₁)
      have hprefix := (onMessage_decoded hdecodes.fits hmessage).2
      have h₁ := ih hs₂ (htimes.sublist hprefix.sublist)
        fun pre m' post t hsplit => hapart pre m' (post ++ [m]) t
          (by rw [hsplit, List.append_assoc, List.cons_append])
      exact h₁.onMessage hmessage htimes (hapart messages m [] s₂ rfl hs₂)

variable (L env) in
/-- In a call of `onRecv`, every request enters the buffer apart from those of
its client and time. -/
def RecvApart (s : OrderServer) (fd kernelTime : Nat) : Prop :=
  ∀ pre m post s₁,
    (Framing.frames L.ouchMsgSize (s.inbound fd)).1 = pre ++ m :: post →
    pre.foldlM (fun s' m => s'.onMessage L env (s.clientOf fd) kernelTime m)
      (s.withClient fd) = .ok s₁ →
    EntersApart L env (s.clientOf fd) kernelTime s₁ m

variable (L env) in
/-- The same for the calls that an input makes. -/
def StaysApart (s : OrderServer) : Input → Prop
  | .recv fd bytes kernelTime => RecvApart L env { s with
      inbound := Function.update s.inbound fd (s.inbound fd ++ bytes) } fd
        kernelTime
  | .publish | .disconnect _ | .process => True

theorem onDisconnect_sameRequests (s : OrderServer) (fd : Nat) :
    SameRequests s (s.onDisconnect fd) := by
  unfold onDisconnect
  split
  · exact ⟨rfl, rfl, rfl, rfl, rfl, rfl⟩
  · exact ⟨rfl, rfl, rfl, rfl, rfl, rfl⟩

/-- The engine takes the first request of the queue, if there is one. -/
theorem step_process_cases (L : OuchLayout) (env : Surroundings)
    (s : OrderServer) :
    (s.requestQ = [] ∧ s.step L env .process = .ok s) ∨
    ∃ x q, s.requestQ = x :: q ∧ s.step L env .process =
      .ok { s with requestQ := q, handled := s.handled ++ [x] } := by
  cases hq : s.requestQ with
  | nil => exact .inl ⟨rfl, by simp only [step, hq]⟩
  | cons x q => exact .inr ⟨x, q, rfl, by simp only [step, hq]⟩

theorem InClientOrder.of_same
    (h : InClientOrder s) (hsame : SameRequests s s') : InClientOrder s' where
  fits := hsame.fifo ▸ h.fits
  order c := by
    rw [hsame.handled, hsame.requestQ, hsame.fifo, hsame.decoded]
    exact h.order c
  times c := by
    rw [hsame.fifo]
    exact h.times c

theorem InClientOrder.recv
    (h : InClientOrder s) {fd : Nat} {bytes : List UInt8} {kernelTime : Nat}
    (hs' : s.step L env (.recv fd bytes kernelTime) = .ok s')
    (htimes : TimesRise s'.decoded)
    (hapart : StaysApart L env s (.recv fd bytes kernelTime)) :
    InClientOrder s' := by
  have hmessages : ∀ pre m post s₁,
      (Framing.frames L.ouchMsgSize (s.inbound fd ++ bytes)).1 =
        pre ++ m :: post →
      pre.foldlM (fun s' m => s'.onMessage L env (s.clientOf fd) kernelTime m)
        (s.arrive fd bytes) = .ok s₁ →
      EntersApart L env (s.clientOf fd) kernelTime s₁ m := by
    intro pre m post s₁ hsplit
    refine hapart pre m post s₁ ?_
    simp only [Function.update_self]
    exact hsplit
  rw [recv_eq] at hs'
  cases hfold : (Framing.frames L.ouchMsgSize
      (s.inbound fd ++ bytes)).1.foldlM
      (fun s' m => s'.onMessage L env (s.clientOf fd) kernelTime m)
      (s.arrive fd bytes) with
  | error e =>
      rw [hfold] at hs'
      cases hs'
  | ok t =>
      rw [hfold, ok_bind] at hs'
      obtain rfl := Except.ok.inj hs'
      have ht : InClientOrder t :=
        (h.of_same (arrive_sameRequests s fd bytes)).messages hfold htimes
          hmessages
      exact ht.of_same ⟨rfl, rfl, rfl, rfl, rfl, rfl⟩

/-- **Every step keeps the order of each client's requests.** -/
theorem InClientOrder.step
    (h : InClientOrder s) {i : Input} (hs' : s.step L env i = .ok s')
    (htimes : TimesRise s'.decoded) (hapart : StaysApart L env s i) :
    InClientOrder s' := by
  cases i with
  | recv fd bytes kernelTime => exact h.recv hs' htimes hapart
  | publish =>
      obtain rfl := Except.ok.inj hs'
      exact h.publish
  | disconnect fd =>
      obtain rfl := Except.ok.inj hs'
      exact h.of_same (onDisconnect_sameRequests s fd)
  | process =>
      rcases step_process_cases L env s with ⟨-, heq⟩ | ⟨x, q, hq, heq⟩
      · obtain rfl := Except.ok.inj (heq.symm.trans hs')
        exact h
      · obtain rfl := Except.ok.inj (heq.symm.trans hs')
        refine ⟨h.fits, fun c => ?_, h.times⟩
        have horder := h.order c
        rw [hq] at horder
        simpa using horder

/-- A step forgets nothing that was decoded. -/
theorem step_decoded
    (hfits : s.fifo.Fits) {i : Input} (hs' : s.step L env i = .ok s') :
    s.decoded <+: s'.decoded := by
  cases i with
  | recv fd bytes kernelTime =>
      let I : OrderServer → Prop := fun t =>
        t.fifo.Fits ∧ s.decoded <+: t.decoded
      have hsockets : ∀ t t', SameRequests t t' → I t → I t' := by
        rintro t t' hsame ⟨hfits, hprefix⟩
        exact ⟨hsame.fifo ▸ hfits, hsame.decoded ▸ hprefix⟩
      have hmessage : ∀ t message, I t →
          ∃ t', t.onMessage L env (s.clientOf fd) kernelTime message =
            .ok t' ∧ I t' := by
        rintro t message ⟨hfits, hprefix⟩
        obtain ⟨t', ht', -⟩ := onMessage_decodes (L := L)
          env (s.clientOf fd) hfits kernelTime message
        obtain ⟨hfits', hprefix'⟩ := onMessage_decoded hfits ht'
        exact ⟨t', ht', hfits', hprefix.trans hprefix'⟩
      obtain ⟨t, ht, -, hprefix⟩ := recv_invariant I hsockets hmessage
        ⟨hfits, List.prefix_refl _⟩ bytes
      obtain rfl := Except.ok.inj (ht.symm.trans hs')
      exact hprefix
  | publish =>
      obtain rfl := Except.ok.inj hs'
      exact List.prefix_refl _
  | disconnect fd =>
      obtain rfl := Except.ok.inj hs'
      rw [(onDisconnect_sameRequests s fd).decoded]
  | process =>
      rcases step_process_cases L env s with ⟨-, heq⟩ | ⟨x, q, -, heq⟩
      · obtain rfl := Except.ok.inj (heq.symm.trans hs')
        exact List.prefix_refl _
      · obtain rfl := Except.ok.inj (heq.symm.trans hs')
        exact List.prefix_refl _

theorem run_inClientOrder
    {fifoPending tokenPoolSz : Nat} {inputs : List Input}
    (hs : run L env fifoPending tokenPoolSz inputs = .ok s)
    (htimes : TimesRise s.decoded)
    (hapart : ∀ pre i post s₀, inputs = pre ++ i :: post →
      run L env fifoPending tokenPoolSz pre = .ok s₀ →
      StaysApart L env s₀ i) :
    InClientOrder s := by
  induction inputs using List.reverseRecOn generalizing s with
  | nil =>
      obtain rfl := Except.ok.inj hs
      exact .init fifoPending tokenPoolSz
  | append_singleton inputs i ih =>
      obtain ⟨s₀, hs₀, hlast⟩ := foldlM_append_ok hs
      have hstep : s₀.step L env i = .ok s := by
        simpa using hlast
      obtain ⟨t, ht, hinv⟩ :=
        run_inv env L (fun _ => True) fifoPending tokenPoolSz inputs
      obtain rfl := Except.ok.inj (ht.symm.trans hs₀)
      have hprefix := step_decoded hinv.fits hstep
      have h₀ := ih ht (htimes.sublist hprefix.sublist)
        fun pre i' post s₁ hsplit => hapart pre i' (post ++ [i]) s₁
          (by rw [hsplit, List.append_assoc, List.cons_append])
      exact h₀.step hstep htimes (hapart inputs i [] t rfl ht)

/-- **The requests of a client reach the engine in the order in which it has
sent them**: in every run in which the times of each client's requests do not
decrease and no request enters the buffer while one of its client and time is
there. -/
theorem client_order_kept
    (L : OuchLayout) (env : Surroundings) {fifoPending tokenPoolSz : Nat}
    {inputs : List Input} {s : OrderServer}
    (hs : run L env fifoPending tokenPoolSz inputs = .ok s)
    (htimes : TimesRise s.decoded)
    (hapart : ∀ pre i post s₀, inputs = pre ++ i :: post →
      run L env fifoPending tokenPoolSz pre = .ok s₀ →
      StaysApart L env s₀ i) (c : ClientId) :
    ofClient c (s.handled ++ s.requestQ) <+: ofClient c s.decoded := by
  have horder := run_inClientOrder hs htimes hapart
  refine ⟨ofClient c s.fifo.pending, ?_⟩
  rw [← ofClient_append, horder.order c]

/-- A call of `onRecv` for one message, with room in the buffer. -/
theorem recvApart_of_single
    {fd kernelTime : Nat} (message : List UInt8)
    (hframes : (Framing.frames L.ouchMsgSize (s.inbound fd)).1 = [message])
    (hroom : s.fifo.pending.length < s.fifo.capacity)
    (hpending : ∀ y ∈ s.fifo.pending, y.timeNanos ≠ kernelTime) :
    RecvApart L env s fd kernelTime := by
  intro pre m post s₁ hsplit hs₁ r _ y hy _
  rw [hframes] at hsplit
  obtain ⟨rfl, -⟩ : pre = [] ∧ m = message := by
    cases pre with
    | nil => exact ⟨rfl, (List.cons.inj hsplit).1.symm⟩
    | cons a pre => simp at hsplit
  obtain rfl := Except.ok.inj hs₁
  have hfifo := (withClient_sameRequests s fd).fifo
  rw [makeRoom, hfifo, if_neg (Nat.not_le_of_lt hroom), hfifo] at hy
  exact hpending y hy

/-- Two orders of one client, in two reads. -/
def twoReads : List Input :=
  [.recv 7 (enterOrderMessage 0) 3, .recv 7 (enterOrderMessage 1) 5, .publish]

theorem client_order_kept_example :
    ∃ s, run OuchLayout.packed Surroundings.roomy 16 16 twoReads = .ok s ∧
      TimesRise s.decoded ∧
      ofClient 1 (s.handled ++ s.requestQ) <+: ofClient 1 s.decoded := by
  have hrun : ((run OuchLayout.packed Surroundings.roomy 16 16
      twoReads).toOption.map fun s => decide (TimesRise s.decoded)) =
      some true := by
    decide
  have hfirst : ((run OuchLayout.packed Surroundings.roomy 16 16
      [.recv 7 (enterOrderMessage 0) 3]).toOption.map fun s =>
        (s.fifo.pending.map RecvClientRequest.timeNanos, s.fifo.capacity,
          s.inbound 7)) = some ([3], 16, []) := by
    decide
  obtain ⟨s, hs, htimes⟩ := exists_of_toOption_map hrun
  obtain ⟨s₁, hs₁, hpending⟩ := exists_of_toOption_map hfirst
  simp only [Prod.mk.injEq] at hpending
  obtain ⟨htimes₁, hcapacity, hinbound⟩ := hpending
  refine ⟨s, hs, of_decide_eq_true htimes, client_order_kept
    OuchLayout.packed Surroundings.roomy hs (of_decide_eq_true htimes) ?_ 1⟩
  rintro pre i post s₀ hsplit hs₀
  rcases pre with _ | ⟨a, _ | ⟨b, pre⟩⟩
  · -- the first read finds an empty buffer
    obtain ⟨rfl, -⟩ := List.cons.inj hsplit
    obtain rfl := Except.ok.inj hs₀
    exact recvApart_of_single (enterOrderMessage 0) rfl
      (show 0 < 16 by decide) nofun
  · -- the second finds the request of the first
    obtain ⟨rfl, htail⟩ := List.cons.inj hsplit
    obtain ⟨rfl, -⟩ := List.cons.inj htail
    obtain rfl := Except.ok.inj (hs₁.symm.trans hs₀)
    have hlen := congrArg List.length htimes₁
    rw [List.length_map] at hlen
    refine recvApart_of_single (enterOrderMessage 1) ?_ ?_ ?_
    · simp only [Function.update_self, hinbound]
      decide
    · show s₁.fifo.pending.length < s₁.fifo.capacity
      rw [hlen, hcapacity]
      decide
    · intro y hy
      have hmem := List.mem_map_of_mem (f := RecvClientRequest.timeNanos) hy
      rw [htimes₁, List.mem_singleton] at hmem
      rw [hmem]
      decide
  · obtain ⟨-, htail⟩ := List.cons.inj hsplit
    obtain ⟨-, htail⟩ := List.cons.inj htail
    cases pre with
    | nil =>
        obtain ⟨rfl, -⟩ := List.cons.inj htail
        trivial
    | cons c pre => simp at htail

end OrderServer

/-- A sort that exchanges equal elements, and a request queue with room. -/
def Surroundings.unstable : Surroundings where
  stdSort :=
    { sort := fun l => Surroundings.roomy.stdSort.sort l.reverse
      perm := fun l =>
        (Surroundings.roomy.stdSort.perm l.reverse).trans l.reverse_perm
      sorted := fun l => Surroundings.roomy.stdSort.sorted l.reverse }
  room _ := 1000

/-- A CANCEL_ORDER of all shares, for the token of letters A. -/
def cancelOrderMessage : List UInt8 :=
  88 :: List.replicate 14 65 ++ toBigEndian 4 0

namespace OrderServer

/-- An order and its cancel arrive in one read, and the cancel reaches the
queue first. -/
theorem cancel_overtakes_order :
    ∃ s, run OuchLayout.packed Surroundings.unstable 16 16
        [.recv 7 (enterOrderMessage 0 ++ cancelOrderMessage) 5, .publish] =
        .ok s ∧
      TimesRise s.decoded ∧
      (ofClient 1 s.decoded).map (fun x => x.request.action) =
        [.new, .cancel] ∧
      (ofClient 1 (s.handled ++ s.requestQ)).map
        (fun x => x.request.action) = [.cancel, .new] := by
  have hobserved : ((run OuchLayout.packed Surroundings.unstable 16 16
      [.recv 7 (enterOrderMessage 0 ++ cancelOrderMessage) 5,
        .publish]).toOption.map fun s => (decide (TimesRise s.decoded),
          (ofClient 1 s.decoded).map (fun x => x.request.action),
          (ofClient 1 (s.handled ++ s.requestQ)).map
            (fun x => x.request.action))) =
      some (true, [.new, .cancel], [.cancel, .new]) := by
    decide
  obtain ⟨s, hs, hobserved⟩ := exists_of_toOption_map hobserved
  simp only [Prod.mk.injEq, decide_eq_true_eq] at hobserved
  exact ⟨s, hs, hobserved⟩

end OrderServer

end NanoExchange
