import NanoExchange.Lib.Transport
import NanoExchange.Network.Freshness

/-!
# The recovery service

`snapshot_stream.h` serves its TCP clients one after the other, between two
turns of the streamer's loop: `handleClient` reads a request from a socket and
answers it.  The request may arrive in pieces, the answer may be taken in
pieces, and a client that says nothing or takes nothing is dropped after a
deadline.

A `Peer` is the socket of such a client, with the scripts of what its reads
find and what its writes take.  The bytes of a request are `S`, or `R` and the
sequence number of the client.

`requests_answered` says what the clients of one call of `serveRequests` get:
each the beginning of the answer to its own request, whatever the others do.
-/

namespace NanoExchange

open Lib

/-- The socket of a client of the service. -/
structure Peer where
  arrivals : List (List UInt8)
  windows : List Nat
  received : List UInt8 := []

/-- The write loop on the socket of a client; its result is not looked at. -/
def Peer.sendAll (p : Peer) (data : List UInt8) : Peer :=
  { p with
    windows := (Lib.sendAll p.windows data).2.1
    received := p.received ++ (Lib.sendAll p.windows data).1 }

/-- A client that `accept` returns, and what the service reads its clock and
its hash maps by while it serves the client. -/
structure Visit where
  peer : Peer
  clock : Nat → Nat
  it : Iteration

namespace SnapshotService

/-- `serveReplay`: the status byte and the frames are sent one after the
other. -/
def sendReplay (s : SnapshotService) (fuel clientSeq : Nat) (p : Peer) :
    Except Fault Peer :=
  if clientSeq ≥ s.streamer.lastSeqNum then .ok (p.sendAll [67])
  else
    let oldestReplayable :=
      if s.streamer.lastSeqNum > replayCapacity then
        s.streamer.lastSeqNum - replayCapacity
      else 0
    if clientSeq < oldestReplayable then .ok (p.sendAll [78])
    else do
      let p := p.sendAll [82]
      let scratch ←
        s.streamer.replayLoop fuel ((clientSeq + 1) % wordSize) []
      .ok (p.sendAll scratch)

section Steps

variable (L : ItchLayout) (fuel : Nat)

def handleClient (s : SnapshotService) (v : Visit) :
    Except Fault (SnapshotService × Peer) :=
  match recvExact 1 v.peer.arrivals with
  | none => .ok (s, v.peer)
  | some (request, arrivals) =>
      let p := { v.peer with arrivals := arrivals }
      if request = [83] then do
        let (s, buf) ← s.serveSnapshot L v.clock v.it
        .ok (s, p.sendAll buf)
      else if request = [82] then
        match recvExact 8 p.arrivals with
        | none => .ok (s, p)
        | some (clientSeq, arrivals) => do
            let p ← s.sendReplay fuel (ofBigEndian clientSeq)
              { p with arrivals := arrivals }
            .ok (s, p)
      else .ok (s, p)

/-- `serveRequests`: the clients that have connected, in the order in which
`accept` returns them. -/
def serveRequests : SnapshotService → List Visit →
    Except Fault (SnapshotService × List Peer)
  | s, [] => .ok (s, [])
  | s, v :: visits => do
      let (s, p) ← s.handleClient L fuel v
      let (s, peers) ← serveRequests s visits
      .ok (s, p :: peers)

/-- What the streamer does next: a step of one of the threads, or it takes the
clients that have connected. -/
inductive ServiceAction where
  | feed (a : FeedAction)
  | accept (visits : List Visit)

def serviceStep (s : SnapshotService) :
    ServiceAction → Except Fault SnapshotService
  | .feed a => s.step L (.feed a)
  | .accept visits => do
      let (s, _) ← s.serveRequests L fuel visits
      .ok s

end Steps

/-- The writes on the sockets of the clients fail once and for all. -/
def ServiceAction.Steady : ServiceAction → Prop
  | .feed _ => True
  | .accept visits => ∀ v ∈ visits, Lib.Steady v.peer.windows

end SnapshotService

/-- What a client asks for. -/
inductive RecoveryRequest where
  | snapshot
  | replay (clientSeq : Nat)
  /-- Not a request, or only a part of one. -/
  | other
deriving DecidableEq

/-- The request that some bytes begin with. -/
def RecoveryRequest.ofBytes (data : List UInt8) : RecoveryRequest :=
  match data with
  | [] => .other
  | t :: data =>
      if t = 83 then .snapshot
      else if t = 82 ∧ 8 ≤ data.length then .replay (ofBigEndian (data.take 8))
      else .other

/-- The bytes that a client sends. -/
def RecoveryRequest.bytes : RecoveryRequest → List UInt8
  | .snapshot => [83]
  | .replay clientSeq => 82 :: toBigEndian 8 clientSeq
  | .other => []

/-- The client has asked for this. -/
def Peer.request (p : Peer) : RecoveryRequest :=
  .ofBytes (ready p.arrivals)

/-- The client has been sent the beginning of an answer, and all of it if its
socket takes as many writes as there are bytes. -/
structure Peer.Took (p p' : Peer) (answer : List UInt8) : Prop where
  part : ∃ sent, sent <+: answer ∧ p'.received = p.received ++ sent
  all : answer.length ≤ p.windows.length →
    p'.received = p.received ++ answer

namespace Peer.Took

variable {p : Peer}

theorem sendAll (h : Steady p.windows) (answer : List UInt8) :
    p.Took (p.sendAll answer) answer := by
  obtain ⟨hpre, hall⟩ := sendAll_prefix p.windows answer
  constructor
  · exact ⟨_, hpre, rfl⟩
  · intro hroom
    rw [Peer.sendAll, hall.mp (h.sendAll_ok hroom).1]

/-- Two writes are as good as one: after one that fails nothing more is
taken. -/
theorem sendAll_sendAll (h : Steady p.windows) (front back : List UInt8) :
    p.Took ((p.sendAll front).sendAll back) (front ++ back) := by
  obtain ⟨hpre, hall⟩ := sendAll_prefix p.windows front
  obtain ⟨hpre', hall'⟩ := sendAll_prefix (p.sendAll front).windows back
  constructor
  · refine ⟨_, ?_, List.append_assoc _ _ _⟩
    cases hflag : (Lib.sendAll p.windows front).2.2 with
    | true =>
        rw [hall.mp hflag]
        exact (List.prefix_append_right_inj front).mpr hpre'
    | false =>
        have hnone : (p.sendAll front).windows = [] := h.sendAll_fails hflag
        have hnothing : (Lib.sendAll (p.sendAll front).windows back).1 = [] := by
          rw [hnone]
          cases back <;> rfl
        rw [hnothing, List.append_nil]
        exact hpre.trans (List.prefix_append front back)
  · intro hroom
    rw [List.length_append] at hroom
    have hfront : front.length ≤ p.windows.length := by omega
    obtain ⟨hflag, hleft⟩ := h.sendAll_ok hfront
    have hsteady : Steady (p.sendAll front).windows := fun hmem =>
      h ((sendAll_suffix p.windows front).subset hmem)
    have hroom' : back.length ≤ (p.sendAll front).windows.length := by
      show back.length ≤ (Lib.sendAll p.windows front).2.1.length
      omega
    show (p.received ++ _) ++ _ = _
    rw [hall.mp hflag, hall'.mp (hsteady.sendAll_ok hroom').1,
      List.append_assoc]

end Peer.Took

namespace SnapshotService

variable {T : ItchTypes} {n : Nat} {us : List MEMarketUpdate}
  {s s' : SnapshotService}

/-- What the streamer has handled, published and put into its ring. -/
structure Serving (T : ItchTypes) (n : Nat) (us : List MEMarketUpdate)
    (s : SnapshotService) : Prop where
  fresh : ∃ k, Fresh T n us k s
  published : ∃ E D, Feed.Published T.layout n us E D s.feed

/-- The services differ at most in the snapshot buffer and in what is known of
it. -/
def SameBook (s s' : SnapshotService) : Prop :=
  s'.maxTickers = s.maxTickers ∧ ∃ dirty, s'.feed = { s.feed with
    streamer := { s.feed.streamer with
      book := { s.feed.streamer.book with dirty := dirty } } }

theorem SameBook.refl (s : SnapshotService) : s.SameBook s :=
  ⟨rfl, s.feed.streamer.book.dirty, rfl⟩

theorem SameBook.trans
    {s'' : SnapshotService} (h : s.SameBook s') (h' : s'.SameBook s'') :
    s.SameBook s'' := by
  obtain ⟨hmax, dirty, hfeed⟩ := h
  obtain ⟨hmax', dirty', hfeed'⟩ := h'
  refine ⟨hmax'.trans hmax, dirty', ?_⟩
  rw [hfeed', hfeed]

theorem SameBook.published
    {E D : List SnapshotUpdate} (hsame : s.SameBook s')
    (h : Feed.Published T.layout n us E D s.feed) :
    Feed.Published T.layout n us E D s'.feed := by
  obtain ⟨-, dirty, hfeed⟩ := hsame
  rw [hfeed]
  exact ⟨h.entries, h.made, h.stream, h.udp, h.ready, h.streamer.tickers,
    h.streamer.last, h.streamer.ring⟩

/-- The buffer is of use: it is served as it is. -/
def Settled (s : SnapshotService) : Prop :=
  s.streamer.book.dirty = false ∧ s.snapshotBuf ≠ []

theorem Settled.serveSnapshot
    (h : s.Settled) (L : ItchLayout) (clock : Nat → Nat) (it : Iteration) :
    s.serveSnapshot L clock it = .ok (s, s.snapshotBuf) := by
  have hclean : ¬ (s.streamer.book.dirty = true ∨ s.snapshotBuf = []) := by
    rintro (hdirty | hempty)
    · rw [h.1] at hdirty
      cases hdirty
    · exact h.2 hempty
  rw [SnapshotService.serveSnapshot, if_neg hclean]
  rfl

/-- Serving a snapshot settles the service. -/
theorem serveSnapshot_settles
    {clock : Nat → Nat} {it : Iteration} {buf : List UInt8}
    (h : s.serveSnapshot T.layout clock it = .ok (s', buf)) :
    s.SameBook s' ∧ buf = s'.snapshotBuf ∧ s'.Settled := by
  by_cases hbake : s.streamer.book.dirty = true ∨ s.snapshotBuf = []
  · rw [SnapshotService.serveSnapshot, if_pos hbake, bakeSnapshot] at h
    dsimp only at h
    cases hbuf : (List.range s.maxTickers).foldlM
        (appendTicker T.layout clock it s.streamer.book.shadowBook)
        (appendCtrl T.layout clock snapCtrlStart s.streamer.lastSeqNum [])
      with
    | error e =>
        rw [hbuf] at h
        cases h
    | ok body =>
        rw [hbuf] at h
        obtain ⟨rfl, rfl⟩ := Prod.mk.inj (Except.ok.inj h)
        refine ⟨⟨rfl, false, rfl⟩, rfl, rfl, ?_⟩
        have hne := T.layout.nonempty (ctrlMessage (clock body.length)
          snapCtrlEnd s.streamer.lastSeqNum)
        simp [appendCtrl, hne]
  · rw [SnapshotService.serveSnapshot, if_neg hbake] at h
    obtain ⟨rfl, rfl⟩ := Prod.mk.inj (Except.ok.inj h)
    rw [not_or, Bool.not_eq_true] at hbake
    exact ⟨.refl s, rfl, hbake.1, hbake.2⟩

/-- What a client is sent by a service that is at `s'` when the call of
`serveRequests` is over. -/
def Answered (s s' : SnapshotService) (p p' : Peer) : Prop :=
  match p.request with
  | .snapshot => p.Took p' s'.snapshotBuf
  | .replay clientSeq =>
      p.Took p' (SnapshotStreamer.replayAnswer s.streamer.lastSeqNum
        s.feed.udp clientSeq)
  | .other => p'.received = p.received

theorem SameBook.lastSeqNum (h : s.SameBook s') :
    s'.streamer.lastSeqNum = s.streamer.lastSeqNum := by
  obtain ⟨-, dirty, hfeed⟩ := h
  rw [streamer, hfeed]
  rfl

theorem SameBook.answered
    {s₁ : SnapshotService} (h : s.SameBook s₁) {p p' : Peer}
    (hanswered : s₁.Answered s' p p') : s.Answered s' p p' := by
  have hudp : s₁.feed.udp = s.feed.udp := by
    obtain ⟨-, dirty, hfeed⟩ := h
    rw [hfeed]
  unfold Answered at hanswered ⊢
  rw [h.lastSeqNum, hudp] at hanswered
  exact hanswered

namespace Serving

theorem init (ring : Nat → ReplayEntry) :
    Serving T n us (SnapshotService.init n ring us) where
  fresh := ⟨0, Fresh.init ring⟩
  published := ⟨[], [], .init ring⟩

/-- What the streamer has handled is the beginning of the stream. -/
theorem lastSeqNum
    (h : s.Serving T n us) (hlen : us.length < wordSize) :
    Fresh T n us s.streamer.lastSeqNum s := by
  obtain ⟨k, hk⟩ := h.fresh
  have hle := hk.numbered.handled
  have hlast := hk.last
  rw [Nat.mod_eq_of_lt (Nat.lt_of_le_of_lt hle hlen)] at hlast
  rw [hlast]
  exact hk

/-- A snapshot request is answered with a snapshot, and changes nothing but
the buffer. -/
theorem serveSnapshot
    (h : s.Serving T n us) (hn : n ≤ 2 ^ 16) (clock : Nat → Nat)
    (it : Iteration) :
    ∃ s', s.serveSnapshot T.layout clock it = .ok (s', s'.snapshotBuf) ∧
      s'.Serving T n us ∧ s.SameBook s' ∧ s'.Settled ∧
      s'.Shown T s'.snapshotBuf := by
  obtain ⟨k, hk⟩ := h.fresh
  obtain ⟨E, D, hpublished⟩ := h.published
  obtain ⟨s', hs', hk', hshown⟩ := hk.serveSnapshot hn clock it
  obtain ⟨hsame, -, hsettled⟩ := serveSnapshot_settles hs'
  exact ⟨s', hs', ⟨⟨k, hk'⟩, E, D, hsame.published hpublished⟩, hsame,
    hsettled, hshown⟩

/-- Every step of the threads and every request of another client. -/
theorem step
    (hn : n ≤ 2 ^ 16) (hwire : ∀ u ∈ us, OnWire u)
    (htickers : ∀ u ∈ us, u.tickerId < n) (hlen : us.length < wordSize)
    (s : SnapshotService) (a : SnapshotAction) (h : s.Serving T n us) :
    ∃ s', s.step T.layout a = .ok s' ∧ s'.Serving T n us := by
  have hengine : ∀ u ∈ us, EngineUpdate n u :=
    fun u hu => ⟨(hwire u hu).incremental, htickers u hu⟩
  cases a with
  | serve clock it =>
      obtain ⟨s', hs', h', -⟩ := h.serveSnapshot hn clock it
      refine ⟨s', ?_, h'⟩
      rw [SnapshotService.step, hs']
      rfl
  | feed a =>
      obtain ⟨s', hs', hfresh⟩ := Fresh.step hn hwire htickers s (.feed a) h.fresh
      obtain ⟨f, hf, hpublished⟩ :=
        Feed.Published.step hengine hlen s.feed a h.published
      refine ⟨s', hs', hfresh, ?_⟩
      rw [SnapshotService.step, hf] at hs'
      obtain rfl := Except.ok.inj hs'
      exact hpublished

/-- A replay request is answered with the datagrams after the number of the
client. -/
theorem sendReplay_took
    (h : s.Serving T n us) (hlen : us.length + 1 < wordSize) {fuel : Nat}
    (hfuel : replayCapacity < fuel) (clientSeq : Nat) {p : Peer}
    (hsteady : Steady p.windows) :
    ∃ p', s.sendReplay fuel clientSeq p = .ok p' ∧
      p.Took p' (SnapshotStreamer.replayAnswer s.streamer.lastSeqNum
        s.feed.udp clientSeq) := by
  obtain ⟨E, D, hpublished⟩ := h.published
  obtain ⟨htake, hle⟩ := hpublished.drained
  have hkeeps : s.streamer.Keeps n D := hpublished.streamer
  have hD : D.length + 1 < wordSize := by
    have hE := hpublished.length_le
    rw [hpublished.udp, List.length_map] at hle
    omega
  rw [sendReplay, SnapshotStreamer.replayAnswer, hkeeps.last, htake]
  by_cases hcurrent : clientSeq ≥ D.length
  · rw [if_pos hcurrent, if_pos hcurrent]
    exact ⟨_, rfl, .sendAll hsteady [67]⟩
  rw [if_neg hcurrent, if_neg hcurrent]
  dsimp only
  by_cases hgap : D.length - clientSeq > replayCapacity
  · rw [if_pos (SnapshotStreamer.lt_oldestReplayable_iff.mpr hgap),
      if_pos hgap]
    exact ⟨_, rfl, .sendAll hsteady [78]⟩
  · rw [if_neg (SnapshotStreamer.lt_oldestReplayable_iff.not.mpr hgap),
      if_neg hgap, Nat.mod_eq_of_lt (by omega),
      hkeeps.replayLoop hD (by omega) (by omega) (by omega), ok_bind,
      List.nil_append]
    exact ⟨_, rfl, .sendAll_sendAll hsteady [82] _⟩

/-- **One client.** -/
theorem handleClient_answered
    (h : s.Serving T n us) (hn : n ≤ 2 ^ 16)
    (hlen : us.length + 1 < wordSize) {fuel : Nat}
    (hfuel : replayCapacity < fuel) {v : Visit}
    (hsteady : Steady v.peer.windows) :
    ∃ s' p', s.handleClient T.layout fuel v = .ok (s', p') ∧
      s'.Serving T n us ∧ s.SameBook s' ∧ (s.Settled → s' = s) ∧
      s.Answered s' v.peer p' ∧
      (v.peer.request = .snapshot →
        s'.Settled ∧ s'.Shown T s'.snapshotBuf) := by
  unfold handleClient Answered Peer.request
  rcases recvExact_eq 1 v.peer.arrivals with
    ⟨hread, hshort⟩ | ⟨arrivals, hread, hone, hrest⟩
  · have hnone : ready v.peer.arrivals = [] :=
      List.length_eq_zero_iff.mp (Nat.lt_one_iff.mp hshort)
    rw [hread, hnone]
    exact ⟨s, v.peer, rfl, h, .refl s, fun _ => rfl, rfl, nofun⟩
  · obtain ⟨t, data, hready⟩ :=
      List.exists_cons_of_ne_nil (List.length_pos_iff.mp hone)
    rw [hready] at hread hrest ⊢
    have hleft : ready arrivals = data := hrest
    have hreadOne : recvExact 1 v.peer.arrivals = some ([t], arrivals) := hread
    rw [hreadOne]
    dsimp only
    rw [RecoveryRequest.ofBytes]
    by_cases hsnapshot : t = 83
    · subst hsnapshot
      obtain ⟨s', hs', h', hsame, hsettled, hshown⟩ :=
        h.serveSnapshot hn v.clock v.it
      rw [if_pos rfl, if_pos rfl, hs', ok_bind]
      have htook := Peer.Took.sendAll
        (p := { v.peer with arrivals := arrivals }) hsteady s'.snapshotBuf
      refine ⟨s', _, rfl, h', hsame, fun hclean => ?_,
        ⟨htook.part, htook.all⟩, fun _ => ⟨hsettled, hshown⟩⟩
      rw [hclean.serveSnapshot] at hs'
      exact (Prod.mk.inj (Except.ok.inj hs')).1.symm
    rw [if_neg (by simpa using hsnapshot), if_neg hsnapshot]
    by_cases hreplay : t = 82
    · subst hreplay
      rw [if_pos rfl]
      rcases recvExact_eq 8 arrivals with
        ⟨hread, hshort⟩ | ⟨arrivals', hread, hall, -⟩
      · rw [hleft] at hshort
        rw [hread, if_neg (by omega)]
        exact ⟨s, _, rfl, h, .refl s, fun _ => rfl, rfl, nofun⟩
      · rw [hleft] at hread hall
        obtain ⟨p', hp', htook⟩ := h.sendReplay_took hlen hfuel
          (ofBigEndian (data.take 8))
          (p := { v.peer with arrivals := arrivals' }) hsteady
        rw [hread, if_pos ⟨rfl, hall⟩]
        dsimp only
        rw [hp', ok_bind]
        exact ⟨s, p', rfl, h, .refl s, fun _ => rfl, ⟨htook.part, htook.all⟩,
          nofun⟩
    · rw [if_neg (by simpa using hreplay), if_neg fun hc => hreplay hc.1]
      exact ⟨s, _, rfl, h, .refl s, fun _ => rfl, rfl, nofun⟩

/-- **The clients of one call of `serveRequests`.**  Each gets the beginning of
the answer to its own request, and all of it if it takes it.  All snapshots of
the call are the same bytes. -/
theorem serveRequests_answered
    (h : s.Serving T n us) (hn : n ≤ 2 ^ 16)
    (hlen : us.length + 1 < wordSize) {fuel : Nat}
    (hfuel : replayCapacity < fuel) {visits : List Visit}
    (hsteady : ∀ v ∈ visits, Steady v.peer.windows) :
    ∃ s' peers, s.serveRequests T.layout fuel visits = .ok (s', peers) ∧
      s'.Serving T n us ∧ s.SameBook s' ∧ (s.Settled → s' = s) ∧
      List.Forall₂ (fun v p' => s.Answered s' v.peer p') visits peers ∧
      ((∃ v ∈ visits, v.peer.request = .snapshot) →
        s'.Shown T s'.snapshotBuf) := by
  induction visits generalizing s with
  | nil =>
      exact ⟨s, [], rfl, h, .refl s, fun _ => rfl, .nil, nofun⟩
  | cons v visits ih =>
      obtain ⟨hv, hsteady⟩ := List.forall_mem_cons.mp hsteady
      obtain ⟨s₁, p', hclient, h₁, hsame₁, hkept₁, hanswered, hsnapshot⟩ :=
        h.handleClient_answered hn hlen hfuel hv
      obtain ⟨s', peers, hrest, h', hsame', hkept', hanswers, hshown⟩ :=
        ih h₁ hsteady
      refine ⟨s', p' :: peers, ?_, h', hsame₁.trans hsame', ?_, ?_, ?_⟩
      · rw [serveRequests, hclient, ok_bind]
        dsimp only
        rw [hrest]
        rfl
      · intro hsettled
        obtain rfl := hkept₁ hsettled
        exact hkept' hsettled
      · refine .cons ?_ (hanswers.imp fun _ _ => hsame₁.answered)
        unfold Answered at hanswered ⊢
        cases hrequest : v.peer.request with
        | snapshot =>
            rw [hrequest] at hanswered
            obtain rfl := hkept' (hsnapshot hrequest).1
            exact hanswered
        | replay clientSeq =>
            rw [hrequest] at hanswered
            exact hanswered
        | other =>
            rw [hrequest] at hanswered
            exact hanswered
      · rintro ⟨w, hw, hrequest⟩
        rcases List.mem_cons.mp hw with rfl | hw
        · obtain ⟨hsettled, hshown₁⟩ := hsnapshot hrequest
          obtain rfl := hkept' hsettled
          exact hshown₁
        · exact hshown ⟨w, hw, hrequest⟩

theorem serviceStep
    (hn : n ≤ 2 ^ 16) (hwire : ∀ u ∈ us, OnWire u)
    (htickers : ∀ u ∈ us, u.tickerId < n) (hlen : us.length + 1 < wordSize)
    {fuel : Nat} (hfuel : replayCapacity < fuel) {a : ServiceAction}
    (ha : a.Steady) (h : s.Serving T n us) :
    ∃ s', s.serviceStep T.layout fuel a = .ok s' ∧ s'.Serving T n us := by
  cases a with
  | feed a => exact h.step hn hwire htickers (by omega) s (.feed a)
  | accept visits =>
      obtain ⟨s', peers, hserve, h', -⟩ :=
        h.serveRequests_answered hn hlen hfuel ha
      refine ⟨s', ?_, h'⟩
      rw [SnapshotService.serviceStep, hserve]
      rfl

theorem service
    (hn : n ≤ 2 ^ 16) (hwire : ∀ u ∈ us, OnWire u)
    (htickers : ∀ u ∈ us, u.tickerId < n) (hlen : us.length + 1 < wordSize)
    {fuel : Nat} (hfuel : replayCapacity < fuel)
    {schedule : List ServiceAction} (hsteady : ∀ a ∈ schedule, a.Steady)
    (h : s.Serving T n us) :
    ∃ s', schedule.foldlM (SnapshotService.serviceStep T.layout fuel) s =
        .ok s' ∧ s'.Serving T n us := by
  induction schedule generalizing s with
  | nil => exact ⟨s, rfl, h⟩
  | cons a schedule ih =>
      obtain ⟨ha, hsteady⟩ := List.forall_mem_cons.mp hsteady
      obtain ⟨s₁, hs₁, h₁⟩ :=
        h.serviceStep hn hwire htickers hlen hfuel ha
      rw [List.foldlM_cons, hs₁, ok_bind]
      exact ih hsteady h₁

end Serving

/-- **Recovery clients get their answers**, whatever pieces their requests
arrive in and whatever the other clients do.  After every schedule of the
threads and of earlier clients, the clients of one call of `serveRequests` are
sent the beginning of what they have asked for, and all of it if they take it:
the datagrams after their sequence number, or the snapshot of the book, which
is the same for all of them, or nothing if they have not asked.  The streamer
itself is as it was. -/
theorem requests_answered
    (T : ItchTypes) {n : Nat} (hn : n ≤ 2 ^ 16) (ring : Nat → ReplayEntry)
    {us : List MEMarketUpdate} (hwire : ∀ u ∈ us, OnWire u)
    (htickers : ∀ u ∈ us, u.tickerId < n) (hlen : us.length + 1 < wordSize)
    {fuel : Nat} (hfuel : replayCapacity < fuel)
    {schedule : List ServiceAction} (hschedule : ∀ a ∈ schedule, a.Steady)
    {visits : List Visit} (hvisits : ∀ v ∈ visits, Steady v.peer.windows) :
    ∃ s s' peers,
      schedule.foldlM (serviceStep T.layout fuel) (init n ring us) = .ok s ∧
      s.serveRequests T.layout fuel visits = .ok (s', peers) ∧
      s.SameBook s' ∧
      List.Forall₂ (fun v p' => s.Answered s' v.peer p') visits peers ∧
      ((∃ v ∈ visits, v.peer.request = .snapshot) → ∃ b ms,
        (us.take s.streamer.lastSeqNum).foldlM ShadowBook.applyToBook
          (ShadowBook.init n) = .ok b ∧
        T.parse s'.snapshotBuf = some ms ∧
        IsSnapshot n s.streamer.lastSeqNum b.viewAt ms) := by
  obtain ⟨s, hs, h⟩ := (Serving.init (T := T) ring).service hn hwire htickers
    hlen hfuel hschedule
  obtain ⟨s', peers, hserve, h', hsame, -, hanswers, hshown⟩ :=
    h.serveRequests_answered hn hlen hfuel hvisits
  refine ⟨s, s', peers, hs, hserve, hsame, hanswers, fun hasked => ?_⟩
  obtain ⟨ms, hbuf, hfits, hsnapshot⟩ := hshown hasked
  have hfresh := h'.lastSeqNum (Nat.lt_of_succ_lt hlen)
  have hrange : ∀ u ∈ us.take s.streamer.lastSeqNum,
      u.tickerId < (ShadowBook.init n).shadowBook.length := by
    intro u hu
    rw [ShadowBook.init, List.length_replicate]
    exact htickers u (List.mem_of_mem_take hu)
  obtain ⟨b, hb, -, hview⟩ := ShadowBook.viewAt_foldlM_applyToBook hrange
  refine ⟨b, ms, hb, ?_, ?_⟩
  · rw [hbuf]
    exact ItchTypes.parse_bytes hfits
  · rw [hview, ShadowBook.viewAt_init, ← hsame.lastSeqNum, ← hfresh.book]
    rw [hfresh.maxTickers] at hsnapshot
    exact hsnapshot

/-- An order is entered and canceled. -/
theorem onWire_quoteUpdates :
    ∀ u ∈ [Feed.quoteUpdate 0, Feed.quoteUpdate 1], OnWire u := by
  intro u hu
  simp only [List.mem_cons, List.not_mem_nil, or_false] at hu
  rcases hu with rfl | rfl
  all_goals exact ⟨trivial, by decide, by decide, by decide, by decide,
    by decide, by decide⟩

/-- A client that says nothing; one that asks for a snapshot and takes only the
beginning; one that has nothing and asks for a replay, in two pieces. -/
def threeClients : List Visit :=
  [⟨⟨[], [], []⟩, fun _ => 6, byId⟩,
    ⟨⟨[[83]], [5, 5], []⟩, fun _ => 7, byId⟩,
    ⟨⟨[[82, 0, 0], [0, 0, 0, 0, 0, 0]], List.replicate 64 1, []⟩,
      fun _ => 8, byId⟩]

/-- The first of two updates has been handled when they come. -/
theorem requests_answered_example :
    ∃ s s' peers,
      [ServiceAction.feed (.encode 5), .feed .send, .feed .push,
          .feed .drain, .accept threeClients].foldlM
        (serviceStep (ItchTypes.mk 65 68 69 85 (by decide)).layout
          (replayCapacity + 1))
        (init 1 (fun _ => ⟨[], [], 0⟩)
          [Feed.quoteUpdate 0, Feed.quoteUpdate 1]) = .ok s ∧
      s.serveRequests (ItchTypes.mk 65 68 69 85 (by decide)).layout
        (replayCapacity + 1) threeClients = .ok (s', peers) ∧
      List.Forall₂ (fun v p' => s.Answered s' v.peer p') threeClients
        peers := by
  have hsteady : ∀ v ∈ threeClients, Steady v.peer.windows := by
    decide
  have hschedule : ∀ a ∈ [ServiceAction.feed (.encode 5), .feed .send,
      .feed .push, .feed .drain, .accept threeClients], a.Steady := by
    simpa [ServiceAction.Steady] using hsteady
  obtain ⟨s, s', peers, hs, hserve, -, hanswers, -⟩ := requests_answered
    (ItchTypes.mk 65 68 69 85 (by decide)) (n := 1) (by decide)
    (fun _ => ⟨[], [], 0⟩) onWire_quoteUpdates (by decide) (by decide)
    (Nat.lt_succ_self replayCapacity) hschedule hsteady
  exact ⟨s, s', peers, hs, hserve, hanswers⟩

end SnapshotService

end NanoExchange
