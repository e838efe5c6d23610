import NanoExchange.Network.Feed

/-!
# Snapshots of the shadow book

`snapshot_stream.h` answers a snapshot request with a buffer of ITCH messages
that it bakes from the shadow book: the Add Orders of each ticker, between
control messages that are Order Deletes with a reserved stock locate code.  The
buffer is kept, and baked again only if it is empty or the book has changed.

The iteration order of a hash map is not specified; an `Iteration` is any
listing of the entries, and each request has its own.  The timestamps of the
messages are read from a clock while the buffer grows, so the clock of a
request is a function of the length of the buffer.

The service is the feed with the streamer's snapshot buffer.  Requests are
served between the steps of the two threads.
-/

namespace NanoExchange

open Lib

/-- `SNAP_CTRL_START` -/
def snapCtrlStart : Nat := 0xBBBB

/-- `SNAP_CTRL_CLEAR` -/
def snapCtrlClear : Nat := 0xCCCC

/-- `SNAP_CTRL_END` -/
def snapCtrlEnd : Nat := 0xEEEE

/-- The order in which `for (const auto& [order_id, order] : shadow_book_[t])`
visits a map. -/
structure Iteration where
  entries : TickerId → ShadowMap → List (OrderId × MEMarketUpdate)
  nodup : ∀ t orders, ((entries t orders).map Prod.fst).Nodup
  mem : ∀ t orders m u,
    (m, u) ∈ entries t orders ↔ orders.lookup m = some u

/-- The control message with a code in the place of the stock locate. -/
def ctrlMessage (now code value : Nat) : ItchMessage :=
  .orderDelete ⟨code, 0, now % 2 ^ 48⟩ value

/-- `append_ctrl` -/
def appendCtrl (L : ItchLayout) (clock : Nat → Nat) (code value : Nat)
    (buf : List UInt8) : List UInt8 :=
  buf ++ L.bytes (ctrlMessage (clock buf.length) code value)

/-- The body of the inner loop of `bakeSnapshot`. -/
def appendOrder (L : ItchLayout) (clock : Nat → Nat) (buf : List UInt8)
    (entry : OrderId × MEMarketUpdate) : List UInt8 :=
  let add := { entry.2 with type := .add }
  let data := L.encode (clock buf.length) add
  if data.length > 0 then buf ++ data else buf

/-- The body of the outer loop of `bakeSnapshot`. -/
def appendTicker (L : ItchLayout) (clock : Nat → Nat) (it : Iteration)
    (shadowBook : List ShadowMap) (buf : List UInt8) (t : TickerId) :
    Except Fault (List UInt8) :=
  match shadowBook[t]? with
  | none => .error .outOfRange
  | some orders =>
      .ok ((it.entries t orders).foldl (appendOrder L clock)
        (appendCtrl L clock snapCtrlClear t buf))

/-- The feed and the snapshot buffer of its streamer. -/
structure SnapshotService where
  feed : Feed
  maxTickers : Nat
  snapshotBuf : List UInt8 := []

/-- A step of one of the threads, or a snapshot request. -/
inductive SnapshotAction where
  | feed (a : FeedAction)
  | serve (clock : Nat → Nat) (it : Iteration)

namespace SnapshotService

def init (maxTickers : Nat) (ring : Nat → ReplayEntry)
    (updates : List MEMarketUpdate) : SnapshotService where
  feed := Feed.init maxTickers ring updates
  maxTickers := maxTickers

/-- The members of the streamer. -/
def streamer (s : SnapshotService) : SnapshotStreamer :=
  s.feed.streamer

def bakeSnapshot (L : ItchLayout) (clock : Nat → Nat) (it : Iteration)
    (s : SnapshotService) : Except Fault SnapshotService := do
  let buf := appendCtrl L clock snapCtrlStart s.streamer.lastSeqNum []
  let buf ← (List.range s.maxTickers).foldlM
    (appendTicker L clock it s.streamer.book.shadowBook) buf
  let buf := appendCtrl L clock snapCtrlEnd s.streamer.lastSeqNum buf
  let book := { s.streamer.book with dirty := false }
  let streamer := { s.streamer with book := book }
  .ok { s with
    feed := { s.feed with streamer := streamer }
    snapshotBuf := buf }

/-- `serveSnapshot`: the bytes sent to the client. -/
def serveSnapshot (L : ItchLayout) (clock : Nat → Nat) (it : Iteration)
    (s : SnapshotService) : Except Fault (SnapshotService × List UInt8) := do
  let s ←
    if s.streamer.book.dirty = true ∨ s.snapshotBuf = [] then
      s.bakeSnapshot L clock it
    else .ok s
  .ok (s, s.snapshotBuf)

def step (L : ItchLayout) (s : SnapshotService) :
    SnapshotAction → Except Fault SnapshotService
  | .feed a => do
      let feed ← s.feed.step L a
      .ok { s with feed := feed }
  | .serve clock it => do
      let (s, _) ← s.serveSnapshot L clock it
      .ok s

def run (L : ItchLayout) (maxTickers : Nat) (ring : Nat → ReplayEntry)
    (updates : List MEMarketUpdate) (schedule : List SnapshotAction) :
    Except Fault SnapshotService :=
  schedule.foldlM (step L) (init maxTickers ring updates)

end SnapshotService

end NanoExchange
