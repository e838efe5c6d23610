import NanoExchange.Network.Recovery
import Mathlib.Logic.Relation

/-!
# Recovering from a lossy feed

UDP loses, repeats and reorders datagrams, and the connections to the recovery
service may break, while the live feed goes on and other clients are served.  A
`Session` is the service and one subscriber, with the answers that are on their
way.

`subscriber_never_astray` says that in every order of the steps of all of them
the subscriber has exactly the quotes that belong to its number, and
`subscriber_recovers` that, wherever it is, one replay, or one snapshot after a
replay was refused, brings it to where the streamer is.
-/

namespace NanoExchange

open Lib

/-- The service, a subscriber, and the answers that are on their way to it. -/
structure Session where
  service : SnapshotService
  subscriber : Subscriber
  answers : List (RecoveryRequest × List UInt8)

namespace Session

def init (n : Nat) (ring : Nat → ReplayEntry) (us : List MEMarketUpdate) :
    Session where
  service := SnapshotService.init n ring us
  subscriber := ⟨0, fun _ _ => none⟩
  answers := []

/-- What happens next.  Of the bytes of a request any part may arrive, and of
an answer any part may be taken; datagrams and answers come late, in any order,
more than once or not at all. -/
inductive Step (T : ItchTypes) (fuel : Nat) : Session → Session → Prop where
  /-- A thread, or the service and its other clients. -/
  | service {σ : Session} {s' : SnapshotService} (a : SnapshotService.ServiceAction)
      (steady : a.Steady)
      (ok : σ.service.serviceStep T.layout fuel a = .ok s') :
      Step T fuel σ { σ with service := s' }
  /-- The service handles a request of the subscriber. -/
  | ask {σ : Session} {s' : SnapshotService} {p' : Peer}
      (q : RecoveryRequest) (v : Visit)
      (current : q = .snapshot ∨ q = .replay σ.subscriber.seq)
      (arrives : ready v.peer.arrivals <+: q.bytes)
      (steady : Steady v.peer.windows) (new : v.peer.received = [])
      (ok : σ.service.handleClient T.layout fuel v = .ok (s', p')) :
      Step T fuel σ { σ with
        service := s'
        answers := (q, p'.received) :: σ.answers }
  /-- A datagram arrives. -/
  | hear {σ : Session} (d : List UInt8) (sent : d ∈ σ.service.feed.udp) :
      Step T fuel σ { σ with subscriber := σ.subscriber.hear T d }
  /-- An answer arrives. -/
  | take {σ : Session} (answer : RecoveryRequest × List UInt8)
      (sent : answer ∈ σ.answers) :
      Step T fuel σ { σ with
        subscriber := σ.subscriber.take T answer.1 answer.2 }

end Session

namespace Session

variable {T : ItchTypes} {n : Nat} {us : List MEMarketUpdate} {fuel : Nat}
  {σ σ' : Session}

/-- Nobody has been led astray, and nobody will be by what is on its way. -/
structure Sound (T : ItchTypes) (n : Nat) (us : List MEMarketUpdate)
    (σ : Session) : Prop where
  serving : σ.service.Serving T n us
  follows : σ.subscriber.Follows (imageAfter us) σ.service.feed.udp.length
  harmless : ∀ answer ∈ σ.answers,
    Harmless T us σ.service.feed.udp.length answer

end Session

/-- Nothing that has been sent is taken back. -/
theorem Feed.udp_le_of_step
    {L : ItchLayout} {f f' : Feed} {a : FeedAction}
    (h : f.step L a = .ok f') :
    f.udp.length ≤ f'.udp.length := by
  unfold Feed.step at h
  cases a with
  | encode now =>
      dsimp only at h
      split at h <;> obtain rfl := Except.ok.inj h <;> exact Nat.le_refl _
  | send =>
      dsimp only at h
      split at h
      · split at h
        · obtain rfl := Except.ok.inj h
          simp [sendToIncrementalNetwork]
        · obtain rfl := Except.ok.inj h
          exact Nat.le_refl _
      · obtain rfl := Except.ok.inj h
        exact Nat.le_refl _
  | push =>
      dsimp only at h
      split at h <;> obtain rfl := Except.ok.inj h <;> exact Nat.le_refl _
  | advance =>
      dsimp only at h
      split at h <;> obtain rfl := Except.ok.inj h <;> exact Nat.le_refl _
  | drain =>
      dsimp only at h
      split at h
      · obtain rfl := Except.ok.inj h
        exact Nat.le_refl _
      · rename_i snap rest _
        cases hdrain : f.streamer.drain snap with
        | error e =>
            rw [hdrain] at h
            cases h
        | ok streamer =>
            rw [hdrain] at h
            obtain rfl := Except.ok.inj h
            exact Nat.le_refl _

section Steps

variable {T : ItchTypes} {n : Nat} {us : List MEMarketUpdate} {fuel : Nat}
  {s s' : SnapshotService}

/-- Nor does any action of the service take something back. -/
theorem SnapshotService.Serving.udp_le
    (hn : n ≤ 2 ^ 16) (hlen : us.length + 1 < wordSize)
    (hfuel : replayCapacity < fuel) (h : s.Serving T n us)
    {a : SnapshotService.ServiceAction} (ha : a.Steady)
    (hs' : s.serviceStep T.layout fuel a = .ok s') :
    s.feed.udp.length ≤ s'.feed.udp.length := by
  cases a with
  | feed a =>
      unfold SnapshotService.serviceStep SnapshotService.step at hs'
      dsimp only at hs'
      cases hfeed : s.feed.step T.layout a with
      | error e =>
          rw [hfeed] at hs'
          cases hs'
      | ok f =>
          rw [hfeed] at hs'
          obtain rfl := Except.ok.inj hs'
          exact Feed.udp_le_of_step hfeed
  | accept visits =>
      obtain ⟨s₁, peers, hserve, -, hsame, -⟩ :=
        h.serveRequests_answered hn hlen hfuel ha
      rw [SnapshotService.serviceStep, hserve] at hs'
      obtain rfl := Except.ok.inj hs'
      obtain ⟨-, dirty, hfeed⟩ := hsame
      rw [hfeed]

namespace Session

variable {σ σ' : Session}

theorem Sound.init (ring : Nat → ReplayEntry) :
    Sound T n us (Session.init n ring us) where
  serving := .init ring
  follows := ⟨Nat.le_refl 0, rfl⟩
  harmless := by
    intro answer hanswer
    simp [Session.init] at hanswer

/-- What happens to the service does no harm to what is known so far. -/
theorem Sound.mono
    (h : Sound T n us σ) (hs' : s'.Serving T n us)
    (hle : σ.service.feed.udp.length ≤ s'.feed.udp.length) :
    Sound T n us { σ with service := s' } where
  serving := hs'
  follows := h.follows.mono hle
  harmless := by
    intro answer hanswer len' hlen' r hr
    exact h.harmless answer hanswer len' (hle.trans hlen') r hr

theorem Sound.seq_lt
    (h : Sound T n us σ) (hlen : us.length + 1 < wordSize) :
    σ.subscriber.seq < wordSize := by
  have hpublished := h.follows.published
  obtain ⟨E, D, hfeed⟩ := h.serving.published
  have hE := hfeed.length_le
  rw [hfeed.udp, List.length_map] at hpublished
  omega

theorem Sound.step
    (hn : n ≤ 2 ^ 16) (hwire : ∀ u ∈ us, OnWire u)
    (htickers : ∀ u ∈ us, u.tickerId < n) (hlen : us.length + 1 < wordSize)
    (hknown : ModifiesKnown (ShadowBook.init n) us)
    (hfuel : replayCapacity < fuel) (h : Sound T n us σ)
    (hstep : Step T fuel σ σ') :
    Sound T n us σ' := by
  cases hstep with
  | service a steady ok =>
      obtain ⟨s', hs', hserving⟩ :=
        h.serving.serviceStep hn hwire htickers hlen hfuel steady
      have hle := h.serving.udp_le hn hlen hfuel steady ok
      obtain rfl := Except.ok.inj (hs'.symm.trans ok)
      exact h.mono hserving hle
  | ask q v current arrives steady new ok =>
      obtain ⟨s', p', hs', hserving, hsame, -, hanswered, hsnapshot⟩ :=
        h.serving.handleClient_answered hn hlen hfuel steady
      obtain ⟨rfl, rfl⟩ := Prod.mk.inj (Except.ok.inj (hs'.symm.trans ok))
      have hle : σ.service.feed.udp.length ≤ s'.feed.udp.length := by
        obtain ⟨-, dirty, hfeed⟩ := hsame
        rw [hfeed]
      have hseq : ∀ clientSeq, q = .replay clientSeq →
          clientSeq < wordSize := by
        rintro clientSeq rfl
        rcases current with hcurrent | hcurrent
        · cases hcurrent
        · obtain rfl := RecoveryRequest.replay.inj hcurrent
          exact h.seq_lt hlen
      have hq : v.peer.request = .other ∨ v.peer.request = q := by
        rcases RecoveryRequest.ofBytes_prefix arrives hseq with
          hother | ⟨hall, -⟩
        · exact .inl hother
        · exact .inr hall
      have hharmless := h.serving.harmless hwire htickers hknown hlen hserving
        hsame new hq hanswered fun hrequest => (hsnapshot hrequest).2
      have hmono := h.mono hserving hle
      refine ⟨hmono.serving, hmono.follows, ?_⟩
      intro answer hanswer
      rcases List.mem_cons.mp hanswer with rfl | hanswer
      · exact fun len' hlen' => hharmless len' (hle.trans hlen')
      · exact hmono.harmless answer hanswer
  | hear d sent =>
      have hfollows := h.serving.hear_follows hwire htickers hknown hlen sent
        h.follows
      exact ⟨h.serving, hfollows, h.harmless⟩
  | take answer sent =>
      have hfollows := h.harmless answer sent _ (Nat.le_refl _) _ h.follows
      exact ⟨h.serving, hfollows, h.harmless⟩

/-- A run of the session. -/
abbrev Runs (T : ItchTypes) (fuel : Nat) : Session → Session → Prop :=
  Relation.ReflTransGen (Step T fuel)

/-- The threads of the service follow a schedule. -/
theorem Runs.feed
    {schedule : List FeedAction} {f : Feed}
    (hf : schedule.foldlM (Feed.step T.layout) σ.service.feed = .ok f) :
    Runs T fuel σ
      { σ with service := { σ.service with feed := f } } := by
  induction schedule generalizing σ with
  | nil =>
      obtain rfl := Except.ok.inj hf
      exact .refl
  | cons a schedule ih =>
      cases hstep : σ.service.feed.step T.layout a with
      | error e =>
          rw [List.foldlM_cons, hstep] at hf
          cases hf
      | ok f₁ =>
          rw [List.foldlM_cons, hstep, ok_bind] at hf
          have hservice : σ.service.serviceStep T.layout fuel (.feed a) =
              .ok { σ.service with feed := f₁ } := by
            rw [SnapshotService.serviceStep, SnapshotService.step, hstep]
            rfl
          exact .head (.service (.feed a) trivial hservice) (ih hf)

/-- Datagrams arrive. -/
theorem Runs.hear
    {heard : List (List UInt8)} (hheard : ∀ d ∈ heard, d ∈ σ.service.feed.udp) :
    Runs T fuel σ { σ with
      subscriber := heard.foldl (Subscriber.hear T) σ.subscriber } := by
  induction heard generalizing σ with
  | nil => exact .refl
  | cons d heard ih =>
      obtain ⟨hd, hheard⟩ := List.forall_mem_cons.mp hheard
      exact .head (.hear d hd) (ih hheard)

theorem Sound.runs
    (hn : n ≤ 2 ^ 16) (hwire : ∀ u ∈ us, OnWire u)
    (htickers : ∀ u ∈ us, u.tickerId < n) (hlen : us.length + 1 < wordSize)
    (hknown : ModifiesKnown (ShadowBook.init n) us)
    (hfuel : replayCapacity < fuel) (h : Sound T n us σ)
    (hruns : Runs T fuel σ σ') :
    Sound T n us σ' := by
  induction hruns with
  | refl => exact h
  | tail _ hlast ih =>
      exact ih.step hn hwire htickers hlen hknown hfuel hlast

/-- What the subscriber shows is the shadow book after a part of the updates. -/
theorem Sound.shows
    (h : Sound T n us σ) (htickers : ∀ u ∈ us, u.tickerId < n) :
    ∃ b, (us.take σ.subscriber.seq).foldlM ShadowBook.applyToBook
        (ShadowBook.init n) = .ok b ∧
      σ.subscriber.state = b.viewAt := by
  have hrange : ∀ u ∈ us.take σ.subscriber.seq,
      u.tickerId < (ShadowBook.init n).shadowBook.length := by
    intro u hu
    rw [ShadowBook.init, List.length_replicate]
    exact htickers u (List.mem_of_mem_take hu)
  obtain ⟨b, hb, -, hview⟩ := ShadowBook.viewAt_foldlM_applyToBook hrange
  refine ⟨b, hb, ?_⟩
  rw [hview, ShadowBook.viewAt_init]
  exact h.follows.state

end Session

/-- The whole request arrives on a new connection. -/
structure Peer.Asks (p : Peer) (q : RecoveryRequest) : Prop where
  arrives : ready p.arrivals = q.bytes
  steady : Steady p.windows
  new : p.received = []

/-- It is understood. -/
theorem Peer.Asks.request
    {p : Peer} {q : RecoveryRequest} (h : p.Asks q) (hsome : q ≠ .other)
    (hq : ∀ clientSeq, q = .replay clientSeq → clientSeq < wordSize) :
    p.request = q := by
  have hprefix : ready p.arrivals <+: q.bytes := by
    rw [h.arrives]
  rcases RecoveryRequest.ofBytes_prefix hprefix hq with hother | ⟨hall, -⟩
  · rw [h.arrives] at hother
    cases q with
    | other => exact absurd rfl hsome
    | snapshot => cases hother
    | replay clientSeq => simp [RecoveryRequest.bytes, RecoveryRequest.ofBytes] at hother
  · exact hall

namespace Session

variable {σ : Session}

/-- **A replay brings the subscriber to where the streamer is**, if it has not
missed too much. -/
theorem Sound.take_replay
    (hn : n ≤ 2 ^ 16) (hwire : ∀ u ∈ us, OnWire u)
    (htickers : ∀ u ∈ us, u.tickerId < n) (hlen : us.length + 1 < wordSize)
    (hknown : ModifiesKnown (ShadowBook.init n) us)
    (hfuel : replayCapacity < fuel) (h : Sound T n us σ) {v : Visit}
    (hasks : v.peer.Asks (.replay σ.subscriber.seq))
    (hroom : (SnapshotStreamer.replayAnswer σ.service.streamer.lastSeqNum
      σ.service.feed.udp σ.subscriber.seq).length ≤ v.peer.windows.length) :
    ∃ s' p', σ.service.handleClient T.layout fuel v = .ok (s', p') ∧
      (replayCapacity < σ.service.streamer.lastSeqNum - σ.subscriber.seq →
        p'.received = [78]) ∧
      (σ.service.streamer.lastSeqNum - σ.subscriber.seq ≤ replayCapacity →
        σ.subscriber.take T (.replay σ.subscriber.seq) p'.received =
          if σ.service.streamer.lastSeqNum ≤ σ.subscriber.seq then
            σ.subscriber
          else ⟨σ.service.streamer.lastSeqNum,
            σ.service.streamer.book.viewAt⟩) := by
  have hseq := h.seq_lt hlen
  have hrequest := hasks.request nofun fun clientSeq heq => by
    obtain rfl := RecoveryRequest.replay.inj heq
    exact hseq
  obtain ⟨s', p', hs', -, -, -, hanswered, -⟩ :=
    h.serving.handleClient_answered hn hlen hfuel hasks.steady
  unfold SnapshotService.Answered at hanswered
  rw [hrequest] at hanswered
  have hreceived := hanswered.all hroom
  rw [hasks.new, List.nil_append, SnapshotStreamer.replayAnswer] at hreceived
  refine ⟨s', p', hs', fun hgap => ?_, fun hgap => ?_⟩
  · rw [hreceived, if_neg (by omega), if_pos (by omega)]
  · rw [hreceived]
    by_cases hcurrent : σ.service.streamer.lastSeqNum ≤ σ.subscriber.seq
    · rw [if_pos hcurrent, if_pos hcurrent]
      rfl
    · rw [if_neg hcurrent, if_neg hcurrent, if_neg (by omega)]
      obtain ⟨frames, hflat, hnumbers, hframes⟩ :=
        h.serving.replayFrames hwire htickers hknown hlen σ.subscriber.seq
      rw [hflat]
      have hfollows := Subscriber.hear_follows hframes
        (List.prefix_refl _) h.follows
      have hlast := Subscriber.seq_hear (fun e he => (hframes e he).1)
        hnumbers
      have hnumber : σ.subscriber.seq + (σ.service.streamer.lastSeqNum -
          σ.subscriber.seq) = σ.service.streamer.lastSeqNum := by
        omega
      rw [hnumber] at hlast
      have hstate := hfollows.state
      rw [hlast, ← h.serving.book (Nat.lt_of_succ_lt hlen)] at hstate
      rw [← hlast, ← hstate]
      rfl

/-- **A snapshot brings the subscriber to where the streamer is.** -/
theorem Sound.take_snapshot
    (hn : n ≤ 2 ^ 16) (hlen : us.length + 1 < wordSize)
    (hfuel : replayCapacity < fuel) (h : Sound T n us σ) {v : Visit}
    (hasks : v.peer.Asks .snapshot) :
    ∃ s' p', σ.service.handleClient T.layout fuel v = .ok (s', p') ∧
      (s'.snapshotBuf.length ≤ v.peer.windows.length →
        σ.subscriber.take T .snapshot p'.received =
          ⟨σ.service.streamer.lastSeqNum,
            σ.service.streamer.book.viewAt⟩) := by
  have hrequest := hasks.request nofun nofun
  obtain ⟨s', p', hs', hserving, hsame, -, hanswered, hsnapshot⟩ :=
    h.serving.handleClient_answered hn hlen hfuel hasks.steady
  have hword := Nat.lt_of_succ_lt hlen
  obtain ⟨ms, hbuf, hfits, hlisted⟩ :=
    hserving.snapshot hword (hsnapshot hrequest).2
  refine ⟨s', p', hs', fun hroom => ?_⟩
  unfold SnapshotService.Answered at hanswered
  rw [hrequest] at hanswered
  have hreceived := hanswered.all hroom
  rw [hasks.new, List.nil_append, hbuf] at hreceived
  have hbook := h.serving.book hword
  have hF := fun t ht => hserving.imageAfter_of_le hword (t := t) ht
  rw [hreceived, hbook, ← hsame.lastSeqNum]
  exact Subscriber.restart_whole hfits hlisted hF

end Session

end Steps

namespace Session

/-- **A subscriber is never led astray.**  Whatever order the threads, the
other clients, the datagrams and the answers come in, and whatever part of the
requests and answers is lost, the subscriber has exactly the quotes of the book
after as many updates as its number says. -/
theorem subscriber_never_astray
    (T : ItchTypes) {n : Nat} (hn : n ≤ 2 ^ 16) (ring : Nat → ReplayEntry)
    {us : List MEMarketUpdate} (hwire : ∀ u ∈ us, OnWire u)
    (htickers : ∀ u ∈ us, u.tickerId < n) (hlen : us.length + 1 < wordSize)
    (hknown : ModifiesKnown (ShadowBook.init n) us) {fuel : Nat}
    (hfuel : replayCapacity < fuel) {σ : Session}
    (hruns : Runs T fuel (init n ring us) σ) :
    σ.subscriber.seq ≤ σ.service.feed.udp.length ∧
      (∃ b, (us.take σ.subscriber.seq).foldlM ShadowBook.applyToBook
          (ShadowBook.init n) = .ok b ∧
        σ.subscriber.state = b.viewAt) ∧
      (σ.subscriber.seq = σ.service.streamer.lastSeqNum →
        σ.subscriber.state = σ.service.streamer.book.viewAt) := by
  have h := (Sound.init (T := T) ring).runs hn hwire htickers hlen hknown
    hfuel hruns
  refine ⟨h.follows.published, h.shows htickers, fun hseq => ?_⟩
  rw [h.serving.book (Nat.lt_of_succ_lt hlen), ← hseq]
  exact h.follows.state

/-- A bid that is entered and replaced. -/
def replacedBid : List MEMarketUpdate :=
  [⟨0, 1, .add, .buy, 100, 10, orderIdInvalid, orderIdInvalid⟩,
    ⟨0, 1, .modify, .buy, 101, 8, 2, orderIdInvalid⟩]

theorem onWire_replacedBid : ∀ u ∈ replacedBid, OnWire u := by
  intro u hu
  simp only [replacedBid, List.mem_cons, List.not_mem_nil, or_false] at hu
  rcases hu with rfl | rfl
  all_goals exact ⟨trivial, by decide, by decide, by decide, by decide,
    by decide, by decide⟩

theorem modifiesKnown_replacedBid :
    ModifiesKnown (ShadowBook.init 1) replacedBid := by
  refine (along_concat (l := [_])).mpr
    ⟨(along_concat (l := [])).mpr ⟨along_nil, nofun⟩, fun _ => ?_⟩
  exact ⟨_, _, _, rfl, rfl, rfl, rfl⟩

/-- The second datagram comes before the first, and once more after it. -/
theorem subscriber_never_astray_example :
    ∃ σ, Runs (.mk 65 68 69 85 (by decide)) (replayCapacity + 1)
        (init 1 (fun _ => ⟨[], [], 0⟩) replacedBid) σ ∧
      σ.subscriber.seq = 2 ∧
      ∃ b, replacedBid.foldlM ShadowBook.applyToBook
          (ShadowBook.init 1) = .ok b ∧
        σ.subscriber.state = b.viewAt := by
  have hrun : ∃ σ, Runs (.mk 65 68 69 85 (by decide)) (replayCapacity + 1)
      (init 1 (fun _ => ⟨[], [], 0⟩) replacedBid) σ ∧
      σ.subscriber.seq = 2 := by
    refine ⟨_, .tail (.tail (.tail (.tail (.tail (.tail (.tail (.tail (.tail
      .refl
      (.service (.feed (.encode 5)) trivial rfl))
      (.service (.feed .send) trivial rfl))
      (.service (.feed .push) trivial rfl))
      (.service (.feed .advance) trivial rfl))
      (.service (.feed (.encode 6)) trivial rfl))
      (.service (.feed .send) trivial rfl))
      (.hear _ (.tail _ (.head _))))
      (.hear _ (.head _)))
      (.hear _ (.tail _ (.head _))), rfl⟩
  obtain ⟨σ, hruns, hseq⟩ := hrun
  have h := subscriber_never_astray _ (by decide) _ onWire_replacedBid
    (by decide) (by decide) modifiesKnown_replacedBid (Nat.lt_succ_self _)
    hruns
  rw [hseq] at h
  exact ⟨σ, hruns, hseq, h.2.1⟩

/-- **A subscriber can always recover.**  Wherever a run has brought it, a
replay takes it to the number and the quotes of the streamer, or is refused
with `N` because it has missed too much; a snapshot always does. -/
theorem subscriber_recovers
    (T : ItchTypes) {n : Nat} (hn : n ≤ 2 ^ 16) (ring : Nat → ReplayEntry)
    {us : List MEMarketUpdate} (hwire : ∀ u ∈ us, OnWire u)
    (htickers : ∀ u ∈ us, u.tickerId < n) (hlen : us.length + 1 < wordSize)
    (hknown : ModifiesKnown (ShadowBook.init n) us) {fuel : Nat}
    (hfuel : replayCapacity < fuel) {σ : Session}
    (hruns : Runs T fuel (init n ring us) σ) :
    (∀ v : Visit, v.peer.Asks (.replay σ.subscriber.seq) →
      (SnapshotStreamer.replayAnswer σ.service.streamer.lastSeqNum
        σ.service.feed.udp σ.subscriber.seq).length ≤ v.peer.windows.length →
      ∃ s' p', σ.service.handleClient T.layout fuel v = .ok (s', p') ∧
        (replayCapacity < σ.service.streamer.lastSeqNum - σ.subscriber.seq →
          p'.received = [78]) ∧
        (σ.service.streamer.lastSeqNum - σ.subscriber.seq ≤ replayCapacity →
          σ.subscriber.take T (.replay σ.subscriber.seq) p'.received =
            if σ.service.streamer.lastSeqNum ≤ σ.subscriber.seq then
              σ.subscriber
            else ⟨σ.service.streamer.lastSeqNum,
              σ.service.streamer.book.viewAt⟩)) ∧
      ∀ v : Visit, v.peer.Asks .snapshot →
        ∃ s' p', σ.service.handleClient T.layout fuel v = .ok (s', p') ∧
          (s'.snapshotBuf.length ≤ v.peer.windows.length →
            σ.subscriber.take T .snapshot p'.received =
              ⟨σ.service.streamer.lastSeqNum,
                σ.service.streamer.book.viewAt⟩) := by
  have h := (Sound.init (T := T) ring).runs hn hwire htickers hlen hknown
    hfuel hruns
  constructor
  · intro v hasks hroom
    exact h.take_replay hn hwire htickers hlen hknown hfuel hasks hroom
  · intro v hasks
    exact h.take_snapshot hn hlen hfuel hasks

/-- A subscriber that has heard nothing asks for a replay, in two pieces. -/
theorem subscriber_recovers_example :
    ∃ σ s' p', Runs (.mk 65 68 69 85 (by decide)) (replayCapacity + 1)
        (init 1 (fun _ => ⟨[], [], 0⟩) replacedBid) σ ∧
      σ.service.handleClient
        (ItchTypes.mk 65 68 69 85 (by decide)).layout (replayCapacity + 1)
        ⟨⟨[[82, 0, 0], [0, 0, 0, 0, 0, 0]], List.replicate 128 1, []⟩,
          fun _ => 8, SnapshotService.byId⟩ = .ok (s', p') ∧
      σ.subscriber.take (.mk 65 68 69 85 (by decide)) (.replay 0)
        p'.received = ⟨2, σ.service.streamer.book.viewAt⟩ := by
  have hrun : ∃ σ, Runs (.mk 65 68 69 85 (by decide)) (replayCapacity + 1)
      (init 1 (fun _ => ⟨[], [], 0⟩) replacedBid) σ ∧
      σ.subscriber.seq = 0 ∧ σ.service.streamer.lastSeqNum = 2 ∧
      (SnapshotStreamer.replayAnswer 2 σ.service.feed.udp 0).length ≤ 128 := by
    refine ⟨_, .tail (.tail (.tail (.tail (.tail (.tail (.tail (.tail (.tail
      .refl
      (.service (.feed (.encode 5)) trivial rfl))
      (.service (.feed .send) trivial rfl))
      (.service (.feed .push) trivial rfl))
      (.service (.feed .advance) trivial rfl))
      (.service (.feed (.encode 6)) trivial rfl))
      (.service (.feed .send) trivial rfl))
      (.service (.feed .push) trivial rfl))
      (.service (.feed .drain) trivial rfl))
      (.service (.feed .drain) trivial rfl), rfl, rfl, by decide⟩
  obtain ⟨σ, hruns, hseq, hlast, hroom⟩ := hrun
  obtain ⟨hreplay, -⟩ := subscriber_recovers _ (by decide) _
    onWire_replacedBid (by decide) (by decide) modifiesKnown_replacedBid
    (Nat.lt_succ_self _) hruns
  rw [hseq, hlast] at hreplay
  obtain ⟨s', p', hs', -, htake⟩ := hreplay
    ⟨⟨[[82, 0, 0], [0, 0, 0, 0, 0, 0]], List.replicate 128 1, []⟩,
      fun _ => 8, SnapshotService.byId⟩ ⟨by decide, by decide, rfl⟩ hroom
  exact ⟨σ, s', p', hruns, hs', htake (by decide)⟩

end Session

end NanoExchange
