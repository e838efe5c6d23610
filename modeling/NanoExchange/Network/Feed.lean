import NanoExchange.Network.Itch
import NanoExchange.Network.ShadowBook

/-!
# The market data feed

`marketdata_publisher.h` and `snapshot_stream.h`: the publisher thread encodes
each update of the engine once, sends the bytes on UDP under the next sequence
number and pushes them to the streamer; the streamer thread applies the update
to its shadow book, keeps the bytes in the replay ring and answers replay
requests from it.

The two threads meet only in the queue between them.  A schedule is a list of
actions, in any order; an action that is not enabled changes nothing.  The
steps of the publisher's loop are separate actions.  The streamer handles an
entry of the queue and a request one at a time, so each is one action; a replay
request sends bytes and changes nothing, so `serveReplay` is a function of the
state.

The engine's updates are all in the first queue from the start: that one of
them arrives late is the same as that the publisher takes it late.
-/

namespace NanoExchange

open Lib

/-- `REPLAY_CAPACITY` -/
def replayCapacity : Nat := 8192

structure SnapshotUpdate where
  update : MEMarketUpdate
  seqNum : Nat
  bytes : List UInt8
  len : Nat
deriving DecidableEq

/-- The update, encoded into the zeroed buffer under a sequence number. -/
def SnapshotUpdate.make (L : ItchLayout) (now : Nat) (u : MEMarketUpdate)
    (seqNum : Nat) : SnapshotUpdate where
  update := u
  seqNum := seqNum
  bytes := L.encode now u ++
    List.replicate (itchMaxMsgSize - (L.encode now u).length) 0
  len := (L.encode now u).length

/-- `[seq][payload]`, the datagram of an update. -/
def SnapshotUpdate.datagram (snap : SnapshotUpdate) : List UInt8 :=
  toBigEndian 8 snap.seqNum ++ snap.bytes.take snap.len

structure ReplayEntry where
  seqBe : List UInt8
  bytes : List UInt8
  len : Nat

/-- What `serveReplay` copies from an entry. -/
def ReplayEntry.frame (e : ReplayEntry) : List UInt8 :=
  e.seqBe ++ e.bytes.take e.len

structure SnapshotStreamer where
  book : ShadowBook
  lastSeqNum : Nat := 0
  replayBuffer : Nat → ReplayEntry

namespace SnapshotStreamer

/-- `(seq - 1) & (REPLAY_CAPACITY - 1)`, in 64-bit arithmetic. -/
def slot (seq : Nat) : Nat :=
  ((seq + (wordSize - 1)) % wordSize) &&& (replayCapacity - 1)

/-- `writeReplayEntry`: the payload is copied over the first `len_` bytes of
the old one. -/
def writeReplayEntry (s : SnapshotStreamer) (snap : SnapshotUpdate) :
    SnapshotStreamer :=
  let e := s.replayBuffer (slot snap.seqNum)
  { s with
    replayBuffer := Function.update s.replayBuffer (slot snap.seqNum)
      { seqBe := toBigEndian 8 snap.seqNum
        bytes := snap.bytes.take snap.len ++ e.bytes.drop snap.len
        len := snap.len % 2 ^ 16 } }

/-- One entry of the streamer's queue. -/
def drain (s : SnapshotStreamer) (snap : SnapshotUpdate) :
    Except Fault SnapshotStreamer := do
  let book ← s.book.applyToBook snap.update
  let s := { s with book := book }.writeReplayEntry snap
  .ok { s with lastSeqNum := snap.seqNum }

/-- The loop of `serveReplay`, with a bound on its iterations. -/
def replayLoop (s : SnapshotStreamer) :
    Nat → Nat → List UInt8 → Except Fault (List UInt8)
  | 0, _, _ => .error .outOfFuel
  | fuel + 1, seq, scratch =>
      if seq ≤ s.lastSeqNum then
        s.replayLoop fuel ((seq + 1) % wordSize)
          (scratch ++ (s.replayBuffer (slot seq)).frame)
      else .ok scratch

/-- `serveReplay`: the bytes sent to the client, `C`, `N`, or `R` and the
frames. -/
def serveReplay (s : SnapshotStreamer) (fuel clientSeq : Nat) :
    Except Fault (List UInt8) :=
  if clientSeq ≥ s.lastSeqNum then .ok [67]
  else
    let oldestReplayable :=
      if s.lastSeqNum > replayCapacity then s.lastSeqNum - replayCapacity
      else 0
    if clientSeq < oldestReplayable then .ok [78]
    else do
      let scratch ← s.replayLoop fuel ((clientSeq + 1) % wordSize) []
      .ok (82 :: scratch)

end SnapshotStreamer

/-- Where the publisher is in its loop. -/
inductive Phase where
  | idle
  | encoded (snap : SnapshotUpdate)
  | sent (snap : SnapshotUpdate)
  | pushed

/-- The two threads, the queues between them and what has been sent on UDP. -/
structure Feed where
  marketUpdates : List MEMarketUpdate
  nextSeqNum : Nat := 1
  phase : Phase := .idle
  udp : List (List UInt8) := []
  streamerUpdates : List SnapshotUpdate := []
  streamer : SnapshotStreamer

/-- What a thread can do next. -/
inductive FeedAction where
  /-- Take an update and encode it, at the given time. -/
  | encode (now : Nat)
  /-- Send the encoded bytes, unless there are none. -/
  | send
  /-- `streamer_updates_.pushBlocking(snap)` -/
  | push
  /-- `updateNextRead` and `++next_seq_num_` -/
  | advance
  /-- The streamer handles the next entry of its queue. -/
  | drain

namespace Feed

/-- Both threads before their first step; the replay ring is not
initialised. -/
def init (maxTickers : Nat) (ring : Nat → ReplayEntry)
    (updates : List MEMarketUpdate) : Feed where
  marketUpdates := updates
  streamer := { book := ShadowBook.init maxTickers, replayBuffer := ring }

/-- `sendToIncrementalNetwork`: one datagram with the current sequence number
and the first `len` bytes of the buffer. -/
def sendToIncrementalNetwork (f : Feed) (data : List UInt8) (len : Nat) :
    Feed :=
  { f with udp := f.udp ++ [toBigEndian 8 f.nextSeqNum ++ data.take len] }

def step (L : ItchLayout) (f : Feed) : FeedAction → Except Fault Feed
  | .encode now =>
      match f.phase, f.marketUpdates with
      | .idle, u :: _ =>
          .ok { f with phase := .encoded (.make L now u f.nextSeqNum) }
      | _, _ => .ok f
  | .send =>
      match f.phase with
      | .encoded snap =>
          if snap.len > 0 then
            .ok { f.sendToIncrementalNetwork snap.bytes snap.len with
              phase := .sent snap }
          else .ok { f with phase := .pushed }
      | _ => .ok f
  | .push =>
      match f.phase with
      | .sent snap =>
          .ok { f with
            streamerUpdates := f.streamerUpdates ++ [snap]
            phase := .pushed }
      | _ => .ok f
  | .advance =>
      match f.phase with
      | .pushed =>
          .ok { f with
            marketUpdates := f.marketUpdates.tail
            nextSeqNum := (f.nextSeqNum + 1) % wordSize
            phase := .idle }
      | _ => .ok f
  | .drain =>
      match f.streamerUpdates with
      | [] => .ok f
      | snap :: rest => do
          let streamer ← f.streamer.drain snap
          .ok { f with streamerUpdates := rest, streamer := streamer }

/-- A run of the feed under a schedule. -/
def run (L : ItchLayout) (maxTickers : Nat) (ring : Nat → ReplayEntry)
    (updates : List MEMarketUpdate) (schedule : List FeedAction) :
    Except Fault Feed :=
  schedule.foldlM (step L) (init maxTickers ring updates)

end Feed

end NanoExchange
