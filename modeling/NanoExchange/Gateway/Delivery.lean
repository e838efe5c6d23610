import NanoExchange.Gateway.Isolation
import NanoExchange.Lib.Framing

/-!
# Every client gets its responses, once and in order

`drainResponses` pops a response, looks its socket up and appends the encoded
message to the send buffer.  `Delivers` says what this comes to: the messages
on the socket of a connected client are those of its responses among all that
have been popped, in the order in which the engine has sent them.

So a client that cuts the stream of its connection at the sizes of the messages
gets one message for each of its responses, and lacks only what is still in the
queue (`client_reads_responses`).
-/

namespace NanoExchange

open Lib

namespace OuchReplies

/-- The messages encode the responses, each at some time. -/
inductive Encodes (R : OuchReplies) :
    List MEClientResponse → List (List UInt8) → Prop
  | nil : Encodes R [] []
  | concat {l : List MEClientResponse} {ms : List (List UInt8)}
      (h : Encodes R l ms) (resp : MEClientResponse) (now : Nat) :
      Encodes R (l ++ [resp]) (ms ++ [R.encodeOuch resp now])

/-- What a client relies on: a message begins with its type byte, and `size`
tells its size. -/
structure Readable (R : OuchReplies) (size : UInt8 → Nat) : Prop where
  first : ∀ s, (R.layout s).offset .type = 0
  size_eq : ∀ s, size (R.typeByte s) = (R.layout s).size

variable {R : OuchReplies} {size : UInt8 → Nat}

theorem Readable.head_encodeOuch
    (h : R.Readable size) (resp : MEClientResponse) (now : Nat) :
    ∃ rest, R.encodeOuch resp now = R.typeByte resp.status :: rest := by
  obtain ⟨-, hpos⟩ := R.length_encodeOuch resp now
  have hmem : (ReplyField.type, [R.typeByte resp.status]) ∈
      R.values resp now := by
    simp [values]
  have htype := StructLayout.field_fill (R.assigns_values resp now)
    (R.layout resp.status) 32 hmem
  rw [h.first, ← encodeOuch] at htype
  cases hm : R.encodeOuch resp now with
  | nil =>
      rw [hm] at hpos
      cases hpos
  | cons t rest =>
      rw [hm] at htype
      obtain ⟨rfl, -⟩ := List.cons.inj htype
      exact ⟨rest, rfl⟩

theorem Readable.complete
    (h : R.Readable size) (resp : MEClientResponse) (now : Nat) :
    Framing.Complete size (R.encodeOuch resp now) := by
  obtain ⟨rest, hm⟩ := h.head_encodeOuch resp now
  refine ⟨_, rest, hm, ?_⟩
  rw [(R.length_encodeOuch resp now).1, h.size_eq]

/-- Encoded responses are cut at the right places. -/
theorem Encodes.frames
    {l : List MEClientResponse} {ms : List (List UInt8)} (h : R.Encodes l ms)
    (hsize : R.Readable size) :
    Framing.frames size ms.flatten = (ms, []) := by
  refine Framing.frames_flatten ?_
  induction h with
  | nil => nofun
  | concat h resp now ih =>
      intro m hm
      rcases List.mem_append.mp hm with hm | hm
      · exact ih m hm
      · rw [List.mem_singleton.mp hm]
        exact hsize.complete resp now

end OuchReplies

namespace Exchange

variable {P : Type} {R : OuchReplies} {e e' : Exchange P}

/-- The responses that have been staged on the connection of a socket. -/
def stagedOn (e : Exchange P) (fd : Nat) : List MEClientResponse :=
  (e.staged.filter fun p => p.1 = e.connection fd).map Prod.snd

/-- The responses to a client. -/
def ofClient (c : ClientId) (l : List MEClientResponse) :
    List MEClientResponse :=
  l.filter fun y => y.clientId = c

theorem ofClient_append
    (c : ClientId) (l l' : List MEClientResponse) :
    ofClient c (l ++ l') = ofClient c l ++ ofClient c l' :=
  List.filter_append l l'

theorem ofClient_eq_nil
    {c : ClientId} {l : List MEClientResponse}
    (h : ∀ y ∈ l, y.clientId ≠ c) : ofClient c l = [] :=
  List.filter_eq_nil_iff.mpr fun y hy => by simpa using h y hy

/-- **What is on the sockets**, when the responses `popped` have been taken off
the queue. -/
structure Delivers (R : OuchReplies) (popped : List MEClientResponse)
    (e : Exchange P) : Prop where
  socket : ∀ fd c,
    e.server.fdToClientId fd = some c ↔ e.server.clientToSocket c = some fd
  past : ∀ conn y, (conn, y) ∈ e.staged → conn.2 ≤ e.sessions conn.1
  idle : ∀ fd, e.server.fdToClientId fd = none →
    e.stagedOn fd = [] ∧ e.outbound fd = []
  stream : ∀ fd c, e.server.fdToClientId fd = some c →
    e.stagedOn fd = ofClient c popped
  bytes : ∀ fd, ∃ ms, R.Encodes (e.stagedOn fd) ms ∧
    e.outbound fd = ms.flatten

namespace Delivers

variable {popped : List MEClientResponse}

/-- Only what is on the sockets matters. -/
theorem of_same
    (h : Delivers R popped e)
    (hfds : e'.server.fdToClientId = e.server.fdToClientId)
    (hsockets : e'.server.clientToSocket = e.server.clientToSocket)
    (hsessions : e'.sessions = e.sessions) (hstaged : e'.staged = e.staged)
    (houtbound : e'.outbound = e.outbound) :
    Delivers R popped e' := by
  have hon : ∀ fd, e'.stagedOn fd = e.stagedOn fd := by
    intro fd
    rw [stagedOn, stagedOn, connection, connection, hstaged, hsessions]
  constructor
  · rw [hfds, hsockets]
    exact h.socket
  · rw [hstaged, hsessions]
    exact h.past
  · intro fd hfd
    rw [hfds] at hfd
    rw [hon, houtbound]
    exact h.idle fd hfd
  · intro fd c hfd
    rw [hfds] at hfd
    rw [hon]
    exact h.stream fd c hfd
  · intro fd
    rw [hon, houtbound]
    exact h.bytes fd

/-- A response to one client, put on its socket. -/
theorem stage
    (h : Delivers R popped e) (resp : MEClientResponse) (now : Nat) {fd : Nat}
    (hfd : e.server.clientToSocket resp.clientId = some fd) :
    Delivers R (popped ++ [resp]) { e with
      outbound := Function.update e.outbound fd
        (e.outbound fd ++ R.encodeOuch resp now)
      staged := e.staged ++ [(e.connection fd, resp)] } := by
  have hclient := (h.socket fd _).mpr hfd
  generalize he' : ({ e with
      outbound := Function.update e.outbound fd
        (e.outbound fd ++ R.encodeOuch resp now)
      staged := e.staged ++ [(e.connection fd, resp)] } : Exchange P) = e'
  have hon : ∀ fd', e'.stagedOn fd' = e.stagedOn fd' ++
      if fd' = fd then [resp] else [] := by
    intro fd'
    have hsplit : e'.stagedOn fd' = ((e.staged ++
        [(e.connection fd, resp)]).filter fun p =>
          p.1 = e.connection fd').map Prod.snd := by
      subst he'
      rfl
    rw [hsplit, List.filter_append, List.map_append]
    by_cases hfd' : fd' = fd
    · simp [stagedOn, hfd']
    · have hne : e.connection fd ≠ e.connection fd' :=
        fun heq => hfd' (Prod.ext_iff.mp heq).1.symm
      simp [stagedOn, hfd', hne]
  have hself : e'.stagedOn fd = e.stagedOn fd ++ [resp] := by
    rw [hon, if_pos rfl]
  have hother : ∀ fd', fd' ≠ fd → e'.stagedOn fd' = e.stagedOn fd' := by
    intro fd' hne
    rw [hon, if_neg hne, List.append_nil]
  have hserver : e'.server = e.server := by
    subst he'
    rfl
  constructor
  · rw [hserver]
    exact h.socket
  · subst he'
    intro conn y hy
    rcases List.mem_append.mp hy with hy | hy
    · exact h.past conn y hy
    · obtain ⟨rfl, -⟩ := Prod.mk.inj (List.mem_singleton.mp hy)
      exact Nat.le_refl _
  · intro fd' hnone
    rw [hserver] at hnone
    have hne : fd' ≠ fd := by
      rintro rfl
      cases hnone.symm.trans hclient
    obtain ⟨hstaged, houtbound⟩ := h.idle fd' hnone
    refine ⟨(hother fd' hne).trans hstaged, ?_⟩
    subst he'
    exact (Function.update_of_ne hne _ _).trans houtbound
  · intro fd' c hc
    rw [hserver] at hc
    rw [ofClient_append]
    by_cases hne : fd' = fd
    · subst hne
      obtain rfl := Option.some.inj (hclient.symm.trans hc)
      rw [hself, h.stream _ _ hc]
      simp [ofClient]
    · have hnot : resp.clientId ≠ c := by
        rintro rfl
        exact hne (Option.some.inj (((h.socket fd' _).mp hc).symm.trans hfd))
      rw [hother fd' hne, h.stream _ _ hc, ofClient_eq_nil (l := [resp]) (by
        simpa using hnot), List.append_nil]
  · intro fd'
    by_cases hne : fd' = fd
    · subst hne
      obtain ⟨ms, hms, hbytes⟩ := h.bytes fd'
      refine ⟨ms ++ [R.encodeOuch resp now], ?_, ?_⟩
      · rw [hself]
        exact hms.concat resp now
      · subst he'
        rw [List.flatten_append, ← hbytes]
        simp
    · obtain ⟨ms, hms, hbytes⟩ := h.bytes fd'
      refine ⟨ms, by rwa [hother fd' hne], ?_⟩
      subst he'
      exact (Function.update_of_ne hne _ _).trans hbytes

/-- A response to a client that is gone is dropped. -/
theorem drop
    (h : Delivers R popped e) {resp : MEClientResponse}
    (hnone : e.server.clientToSocket resp.clientId = none) :
    Delivers R (popped ++ [resp]) e where
  socket := h.socket
  past := h.past
  idle := h.idle
  stream fd c hc := by
    have hnot : resp.clientId ≠ c := by
      rintro rfl
      cases hnone.symm.trans ((h.socket fd _).mp hc)
    rw [ofClient_append, ofClient_eq_nil (l := [resp]) (by simpa using hnot),
      List.append_nil]
    exact h.stream fd c hc
  bytes := h.bytes

/-- One turn of the loop of `drainResponses`. -/
theorem deliver
    (h : Delivers R popped e) (resp : MEClientResponse) (now : Nat) :
    Delivers R (popped ++ [resp]) (e.deliver R resp now) := by
  unfold Exchange.deliver
  cases hfd : e.server.clientToSocket resp.clientId with
  | none => exact h.drop hfd
  | some fd =>
      dsimp only
      rw [if_pos (R.length_encodeOuch resp now).2]
      exact h.stage resp now hfd

theorem deliverAll
    (h : Delivers R popped e) (clock : Nat → Nat) (k : Nat)
    (q : List MEClientResponse) :
    Delivers R (popped ++ q) (Exchange.deliverAll R clock k q e) := by
  induction q generalizing popped e k with
  | nil =>
      rw [List.append_nil]
      exact h
  | cons resp q ih =>
      have hrest := ih (h.deliver resp (clock k)) (k + 1)
      rw [List.append_assoc] at hrest
      exact hrest

theorem drain (h : Delivers R popped e) (clock : Nat → Nat) :
    Delivers R (popped ++ e.responseQ) (e.drainResponses R clock) :=
  (h.deliverAll clock 0 e.responseQ).of_same rfl rfl rfl rfl rfl

/-- A connection that is lost takes its stream along. -/
theorem onDisconnect (h : Delivers R popped e) (fd : Nat) :
    Delivers R popped (e.onDisconnect fd) := by
  have hself : (e.onDisconnect fd).stagedOn fd = [] := by
    have hnone : ((e.onDisconnect fd).staged.filter
        fun p => p.1 = (e.onDisconnect fd).connection fd) = [] := by
      refine List.filter_eq_nil_iff.mpr fun p hp heq => ?_
      have hpast := h.past p.1 p.2 hp
      rw [of_decide_eq_true heq] at hpast
      simp [connection, Exchange.onDisconnect] at hpast
    rw [stagedOn, hnone, List.map_nil]
  have hother : ∀ fd', fd' ≠ fd →
      (e.onDisconnect fd).stagedOn fd' = e.stagedOn fd' ∧
        (e.onDisconnect fd).outbound fd' = e.outbound fd' := by
    intro fd' hne
    have hconn : (e.onDisconnect fd).connection fd' = e.connection fd' :=
      congrArg (Prod.mk fd') (Function.update_of_ne hne _ _)
    exact ⟨by rw [stagedOn, stagedOn, hconn]; rfl,
      Function.update_of_ne hne _ _⟩
  have hclosed : (e.onDisconnect fd).outbound fd = [] :=
    Function.update_self ..
  have hfds : (e.onDisconnect fd).server.fdToClientId =
      Function.update e.server.fdToClientId fd none :=
    (OrderServer.onDisconnect_sockets e.server fd).1
  constructor
  · intro fd' c
    show (e.server.onDisconnect fd).fdToClientId fd' = some c ↔
      (e.server.onDisconnect fd).clientToSocket c = some fd'
    unfold OrderServer.onDisconnect
    cases hfd : e.server.fdToClientId fd with
    | none => exact h.socket fd' c
    | some cid =>
        have hcid := (h.socket fd cid).mp hfd
        dsimp only
        by_cases hne : fd' = fd
        · subst hne
          rw [Function.update_self]
          constructor
          · intro hnone
            cases hnone
          · intro hc
            by_cases heq : c = cid
            · subst heq
              rw [Function.update_self] at hc
              cases hc
            · rw [Function.update_of_ne heq] at hc
              have hback := (h.socket fd' c).mpr hc
              exact absurd (Option.some.inj (hfd.symm.trans hback)).symm heq
        · rw [Function.update_of_ne hne]
          by_cases heq : c = cid
          · subst heq
            rw [Function.update_self]
            constructor
            · intro hc
              have hto := (h.socket fd' c).mp hc
              exact absurd (Option.some.inj (hto.symm.trans hcid)) hne
            · intro hnone
              cases hnone
          · rw [Function.update_of_ne heq]
            exact h.socket fd' c
  · intro conn y hy
    have hpast := h.past conn y hy
    show conn.2 ≤ Function.update e.sessions fd (e.sessions fd + 1) conn.1
    by_cases hne : conn.1 = fd
    · rw [hne] at hpast ⊢
      rw [Function.update_self]
      exact Nat.le_succ_of_le hpast
    · rwa [Function.update_of_ne hne]
  · intro fd' hnone
    by_cases hne : fd' = fd
    · subst hne
      exact ⟨hself, hclosed⟩
    · rw [hfds, Function.update_of_ne hne] at hnone
      rw [(hother fd' hne).1, (hother fd' hne).2]
      exact h.idle fd' hnone
  · intro fd' c hc
    have hne : fd' ≠ fd := by
      rintro rfl
      rw [hfds, Function.update_self] at hc
      cases hc
    rw [hfds, Function.update_of_ne hne] at hc
    rw [(hother fd' hne).1]
    exact h.stream fd' c hc
  · intro fd'
    by_cases hne : fd' = fd
    · subst hne
      rw [hself, hclosed]
      exact ⟨[], .nil, rfl⟩
    · rw [(hother fd' hne).1, (hother fd' hne).2]
      exact h.bytes fd'

/-- A socket without a client gets one that has no responses yet. -/
theorem connect
    (h : Delivers R popped e) (fd : Nat)
    (hnew : e.server.fdToClientId fd = none →
      e.server.clientToSocket e.server.nextClientId = none ∧
      ∀ y ∈ popped, y.clientId ≠ e.server.nextClientId) :
    Delivers R popped (e.connect fd) := by
  by_cases hnone : e.server.fdToClientId fd = none
  · obtain ⟨hfree, hunused⟩ := hnew hnone
    have hserver : (e.connect fd).server = e.server.registerClient fd :=
      if_pos hnone
    have hon : ∀ fd', (e.connect fd).stagedOn fd' = e.stagedOn fd' :=
      fun _ => rfl
    have hfds : (e.connect fd).server.fdToClientId =
        Function.update e.server.fdToClientId fd
          (some e.server.nextClientId) := by
      rw [hserver]
      rfl
    constructor
    · intro fd' c
      rw [hserver]
      show Function.update e.server.fdToClientId fd
          (some e.server.nextClientId) fd' = some c ↔
        Function.update e.server.clientToSocket e.server.nextClientId
          (some fd) c = some fd'
      by_cases hne : fd' = fd
      · subst hne
        rw [Function.update_self]
        constructor
        · intro hc
          rw [← Option.some.inj hc, Function.update_self]
        · intro hc
          by_cases heq : c = e.server.nextClientId
          · rw [heq]
          · rw [Function.update_of_ne heq] at hc
            cases hnone.symm.trans ((h.socket fd' c).mpr hc)
      · rw [Function.update_of_ne hne]
        by_cases heq : c = e.server.nextClientId
        · subst heq
          rw [Function.update_self]
          constructor
          · intro hc
            cases hfree.symm.trans ((h.socket fd' _).mp hc)
          · intro hc
            exact absurd (Option.some.inj hc).symm hne
        · rw [Function.update_of_ne heq]
          exact h.socket fd' c
    · exact h.past
    · intro fd' hnone'
      have hne : fd' ≠ fd := by
        rintro rfl
        rw [hfds, Function.update_self] at hnone'
        cases hnone'
      rw [hfds, Function.update_of_ne hne] at hnone'
      exact h.idle fd' hnone'
    · intro fd' c hc
      rw [hon]
      by_cases hne : fd' = fd
      · subst hne
        rw [hfds, Function.update_self] at hc
        obtain rfl := Option.some.inj hc
        rw [(h.idle fd' hnone).1, ofClient_eq_nil hunused]
      · rw [hfds, Function.update_of_ne hne] at hc
        exact h.stream fd' c hc
    · exact h.bytes
  · have hserver : (e.connect fd).server = e.server := if_neg hnone
    exact h.of_same (by rw [hserver]) (by rw [hserver]) rfl rfl rfl

end Delivers

/-- **The invariant of a run**: the responses that the engine has sent are
those popped and those queued, each is to a client that has got an id, and the
sockets carry what has been popped. -/
structure Keeps (R : OuchReplies) (popped : List MEClientResponse)
    (e : Exchange P) : Prop where
  queue : e.engine.channel.responses = popped ++ e.responseQ
  known : ∀ y ∈ e.engine.channel.responses,
    ∃ conn, GotId e.registered conn y.clientId
  delivers : Delivers R popped e

/-- The next id is one that no connection has got. -/
theorem GotId.ne_next
    {registered : List Connection} (hcount : registered.length + 1 ≤ wordSize)
    {conn : Connection} {c : ClientId} (h : GotId registered conn c) :
    c ≠ (registered.length + 1) % wordSize := by
  obtain ⟨k, hk, hc⟩ := h
  have hlt := (List.getElem?_eq_some_iff.mp hk).1
  intro hnext
  have hmod : (k + 1) % wordSize = (registered.length + 1) % wordSize :=
    hc.symm.trans hnext
  unfold wordSize at hmod hcount
  omega

section Runs

variable [ObjectPool P] {n : Nat} {L : OuchLayout} {env : Surroundings}
  {popped : List MEClientResponse}

/-- Connections that have got an id keep it. -/
theorem registered_mono
    {i : ExchangeInput} (he' : e.step L R env i = .ok e') :
    e.registered <+: e'.registered := by
  cases i with
  | recv fd bytes kernelTime =>
      obtain ⟨s, -, rfl⟩ := onRecv_ok he'
      dsimp only
      split_ifs
      · exact List.prefix_append _ _
      · exact List.prefix_rfl
  | publish =>
      obtain rfl := Except.ok.inj he'
      exact List.prefix_rfl
  | disconnect fd =>
      obtain rfl := Except.ok.inj he'
      exact List.prefix_rfl
  | process =>
      rcases process_cases he' with
        ⟨-, rfl⟩ | ⟨x, q, engine, responses, -, -, -, rfl⟩
      · exact List.prefix_rfl
      · exact List.prefix_rfl
  | drain clock =>
      obtain rfl := Except.ok.inj he'
      obtain ⟨outbound, more, heq, -⟩ :=
        deliverAll_eq (R := R) clock 0 e.responseQ e
      unfold drainResponses
      rw [heq]

/-- What the engine sends about the first request of the queue. -/
theorem Inv.process_sends
    (h : Inv n e) {x : RecvClientRequest} {q : List RecvClientRequest}
    (hq : e.server.requestQ = x :: q) (he' : e.process = .ok e') :
    e'.engine.channel.responses = e.engine.channel.responses ++
        (e.desk.market.respond x.request).events.flatMap
          (Event.responses Dialect.map) ∧
      e'.responseQ = e.responseQ ++
        (e.desk.market.respond x.request).events.flatMap
          (Event.responses Dialect.map) := by
  have hanswered : e.engine.channel.responses = e.answers.flatMap Prod.snd :=
    h.works.tied.answered
  have hanswered' : e'.engine.channel.responses =
      e'.answers.flatMap Prod.snd :=
    (h.process he').works.tied.answered
  obtain ⟨-, -, -, -, -, -, hqueue⟩ := h.take hq he'
  refine ⟨?_, hqueue⟩
  rcases process_cases he' with
    ⟨hnil, -⟩ | ⟨x', q', engine, responses, -, -, -, heq⟩
  · cases hnil.symm.trans hq
  · rw [heq] at hqueue
    have hresponses := List.append_cancel_left hqueue
    rw [hanswered', hanswered, heq, ← hresponses]
    simp

namespace Keeps

theorem onRecv
    (h : Keeps R popped e) (hinv : Inv n e) (howned : Owned e) {fd : Nat}
    {bytes : List UInt8} {kernelTime : Nat}
    (he' : e.onRecv L env fd bytes kernelTime = .ok e')
    (hcount : e'.registered.length ≤ wordSize) :
    Keeps R popped e' := by
  obtain ⟨s, hs, rfl⟩ := onRecv_ok he'
  obtain ⟨hfds, hsockets, -⟩ := OrderServer.recv_sockets hinv.works.fits hs
  have hconnect := h.delivers.connect fd (by
    intro hnone
    dsimp only at hcount
    rw [if_pos hnone, List.length_append, List.length_singleton] at hcount
    have hnext : ∀ conn c, GotId e.registered conn c →
        c ≠ e.server.nextClientId := by
      intro conn c hgot
      rw [howned.next]
      exact hgot.ne_next hcount
    constructor
    · cases hsocket : e.server.clientToSocket e.server.nextClientId with
      | none => rfl
      | some fd' =>
          have hgot := howned.live fd' _ (howned.socket _ fd' hsocket)
          exact absurd rfl (hnext _ _ hgot)
    · intro y hy
      obtain ⟨conn, hgot⟩ := h.known y (by
        rw [h.queue]
        exact List.mem_append_left _ hy)
      exact hnext conn _ hgot)
  refine ⟨h.queue, ?_, hconnect.of_same hfds hsockets rfl rfl rfl⟩
  intro y hy
  obtain ⟨conn, hgot⟩ := h.known y hy
  refine ⟨conn, ?_⟩
  dsimp only
  split_ifs
  · exact hgot.concat _
  · exact hgot

theorem process
    (h : Keeps R popped e) (hinv : Inv n e) (howned : Owned e)
    (he' : e.process = .ok e') :
    Keeps R popped e' := by
  have hinv' := hinv.process he'
  have howned' := howned.process he'
  rcases process_cases he' with
    ⟨-, rfl⟩ | ⟨x, q, engine, responses, hq, -, -, heq⟩
  · exact h
  obtain ⟨hsent, hqueue⟩ := hinv.process_sends hq he'
  constructor
  · rw [hsent, h.queue, List.append_assoc, ← hqueue]
  · intro y hy
    rw [hsent] at hy
    rcases List.mem_append.mp hy with hy | hy
    · rw [heq]
      exact h.known y hy
    · obtain ⟨z, hz, hconcerns⟩ := hinv'.queued y (by
        rw [hqueue]
        exact List.mem_append_right _ hy)
      obtain ⟨conn, hconn⟩ := hinv'.arrived hz
      have hgot := howned'.sent conn z hconn
      have hclient : z.request.clientId = y.clientId := by
        rcases hconcerns with hid | hid
        · exact (MEClientRequest.newKey_of_newIdentity hid).2.2.symm
        · exact (Prod.ext_iff.mp hid).1
      exact ⟨conn, hclient ▸ hgot⟩
  · rw [heq]
    exact h.delivers.of_same rfl rfl rfl rfl rfl

/-- **Every step keeps it.** -/
theorem step
    (h : Keeps R popped e) (hinv : Inv n e) (howned : Owned e)
    {i : ExchangeInput} (he' : e.step L R env i = .ok e')
    (hcount : e'.registered.length ≤ wordSize) :
    ∃ popped', Keeps R popped' e' := by
  cases i with
  | recv fd bytes kernelTime =>
      exact ⟨popped, h.onRecv hinv howned he' hcount⟩
  | publish =>
      obtain rfl := Except.ok.inj he'
      exact ⟨popped, h.queue, h.known, h.delivers.of_same rfl rfl rfl rfl rfl⟩
  | disconnect fd =>
      obtain rfl := Except.ok.inj he'
      exact ⟨popped, h.queue, h.known, h.delivers.onDisconnect fd⟩
  | process => exact ⟨popped, h.process hinv howned he'⟩
  | drain clock =>
      obtain rfl := Except.ok.inj he'
      have hdrain := h.delivers.drain clock
      obtain ⟨outbound, more, heq, -⟩ :=
        deliverAll_eq (R := R) clock 0 e.responseQ e
      unfold drainResponses at hdrain ⊢
      rw [heq] at hdrain ⊢
      refine ⟨popped ++ e.responseQ, ?_, h.known, hdrain⟩
      rw [List.append_nil]
      exact h.queue

end Keeps

theorem run_keeps
    {books poolSize fifoPending tokenPoolSz : Nat}
    {inputs : List ExchangeInput}
    (he : run L R env P books poolSize fifoPending tokenPoolSz inputs =
      .ok e) (hcount : e.registered.length ≤ wordSize) :
    ∃ popped, Keeps R popped e := by
  induction inputs using List.reverseRecOn generalizing e with
  | nil =>
      obtain rfl := Except.ok.inj he
      refine ⟨[], rfl, nofun, ?_⟩
      refine ⟨fun _ _ => ⟨nofun, nofun⟩, nofun, fun _ _ => ⟨rfl, rfl⟩, nofun,
        fun _ => ⟨[], .nil, rfl⟩⟩
  | append_singleton inputs i ih =>
      obtain ⟨e₀, he₀, hlast⟩ := foldlM_append_ok he
      have hstep : e₀.step L R env i = .ok e := by
        simpa using hlast
      have hlen := (registered_mono hstep).length_le
      obtain ⟨hinv, howned⟩ := run_inv he₀
      obtain ⟨popped, h⟩ := ih he₀ (hlen.trans hcount)
      exact h.step hinv howned hstep hcount

end Runs

end Exchange

/-- **A connected client reads its responses**, in every run in which at most
`2^64` connections have got a client id.  It cuts what has been put on its
socket at the sizes of the messages.  Nothing is left over, and the messages
are the responses that the engine has sent to the client, each once and in the
order in which they have been sent, as far as they are not in the queue. -/
theorem client_reads_responses
    (L : OuchLayout) (R : OuchReplies) (env : Surroundings) (P : Type)
    [ObjectPool P] (books poolSize fifoPending tokenPoolSz : Nat)
    {inputs : List ExchangeInput} {e : Exchange P}
    (he : Exchange.run L R env P books poolSize fifoPending tokenPoolSz
      inputs = .ok e)
    (hcount : e.registered.length ≤ wordSize)
    {size : UInt8 → Nat} (hsize : R.Readable size) {fd : Nat} {c : ClientId}
    (hfd : e.server.fdToClientId fd = some c) :
    ∃ read messages, R.Encodes read messages ∧
      Framing.frames size (e.outbound fd) = (messages, []) ∧
      Exchange.ofClient c e.engine.channel.responses =
        read ++ Exchange.ofClient c e.responseQ := by
  obtain ⟨popped, hkeeps⟩ := Exchange.run_keeps he hcount
  obtain ⟨messages, hencodes, hbytes⟩ := hkeeps.delivers.bytes fd
  rw [hkeeps.delivers.stream fd c hfd] at hencodes
  refine ⟨Exchange.ofClient c popped, messages, hencodes, ?_, ?_⟩
  · rw [hbytes]
    exact hencodes.frames hsize
  · rw [hkeeps.queue, Exchange.ofClient_append]

/-- The sizes of the packed structs. -/
def OuchReplies.packedSize (t : UInt8) : Nat :=
  if t = 65 then 66
  else if t = 69 then 40
  else if t = 67 then 28
  else if t = 73 then 23
  else if t = 85 then 80
  else 0

/-- The second of two clients has read that its order is accepted, and has not
read yet that it is canceled. -/
theorem client_reads_responses_example :
    ∃ e : Exchange ScanPool,
      Exchange.run OuchLayout.packed OuchReplies.packed Surroundings.roomy
        ScanPool 1 4 16 16 (twoClients ++ [.process]) = .ok e ∧
      (e.outbound 8).length = 66 ∧
      (Exchange.ofClient 2 e.engine.channel.responses).map
        MEClientResponse.status = [.accepted, .canceled] ∧
      ∃ read messages, OuchReplies.packed.Encodes read messages ∧
        Framing.frames OuchReplies.packedSize (e.outbound 8) =
          (messages, []) ∧
        Exchange.ofClient 2 e.engine.channel.responses =
          read ++ Exchange.ofClient 2 e.responseQ := by
  have hobserved : ((Exchange.run OuchLayout.packed OuchReplies.packed
      Surroundings.roomy ScanPool 1 4 16 16
      (twoClients ++ [.process])).toOption.map fun e =>
        (e.registered.length, e.server.fdToClientId 8, (e.outbound 8).length,
          (Exchange.ofClient 2 e.engine.channel.responses).map
            MEClientResponse.status)) =
      some (3, some 2, 66, [.accepted, .canceled]) := by
    decide +kernel
  obtain ⟨e, he, hobserved⟩ := exists_of_toOption_map hobserved
  obtain ⟨hregistered, hobserved⟩ := Prod.mk.inj hobserved
  obtain ⟨hfd, hobserved⟩ := Prod.mk.inj hobserved
  obtain ⟨hlength, hstatus⟩ := Prod.mk.inj hobserved
  have hsize : OuchReplies.packed.Readable OuchReplies.packedSize :=
    ⟨fun s => by cases s <;> rfl, fun s => by cases s <;> rfl⟩
  refine ⟨e, he, hlength, hstatus, client_reads_responses OuchLayout.packed
    OuchReplies.packed Surroundings.roomy ScanPool 1 4 16 16 he ?_ hsize hfd⟩
  rw [hregistered]
  decide

end NanoExchange
