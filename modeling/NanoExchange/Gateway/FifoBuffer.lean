import NanoExchange.Gateway.Ouch
import NanoExchange.Gateway.Fifo
import NanoExchange.Lib.Outcome

/-!
# The sequencer in memory

`FifoNdProcess` in `Fifo.lean` keeps the pending requests as a list.  The
source keeps them at the front of a vector that is longer, with a counter, and
shifts what a partial publication leaves to the front in place.  `FifoBuffer`
is that vector; `FifoBuffer.view` forgets what lies behind the counter, and each
operation is the one of `FifoNdProcess` on the view.

`Sequencer` stages requests as `OrderServer::onRecv` does.  It keeps what has
been staged and, for each call of `publishPendingOrders`, what was pushed and
what was left.
-/

namespace NanoExchange

open Lib

/-- The value-initialised entries of the vector. -/
def RecvClientRequest.blank : RecvClientRequest :=
  ⟨0, MEClientRequest.blank 0, []⟩

/-- `std::move(v + first, v + first + count, v)`, entry by entry. -/
def moveToFront {α : Type*} (first count : Nat) (v : List α) : List α :=
  (List.range count).foldl (fun v i =>
    match v[first + i]? with
    | some x => v.set i x
    | none => v) v

/-- **The shift in place reads no entry that it has written.** -/
theorem moveToFront_eq {α : Type*} {first count : Nat} {v : List α}
    (h : first + count ≤ v.length) :
    moveToFront first count v = (v.drop first).take count ++ v.drop count := by
  induction count with
  | zero => simp [moveToFront]
  | succ count ih =>
      have hlt : first + count < v.length := h
      have ih := ih (Nat.le_of_lt hlt)
      unfold moveToFront at ih ⊢
      rw [List.range_succ, List.foldl_append, ih, List.foldl_cons,
        List.foldl_nil]
      have hlen : ((v.drop first).take count).length = count := by
        rw [List.length_take, List.length_drop]
        omega
      -- the entry to read lies behind those already written
      have hread : ((v.drop first).take count ++ v.drop count)[first + count]? =
          some v[first + count] := by
        rw [List.getElem?_append_right (by omega), hlen, List.getElem?_drop,
          show count + (first + count - count) = first + count by omega,
          List.getElem?_eq_getElem hlt]
      rw [hread]
      dsimp only
      rw [List.set_append_right _ _ (by omega), hlen, Nat.sub_self,
        List.drop_eq_getElem_cons (show count < v.length by omega),
        List.set_cons_zero, List.take_add_one, List.getElem?_drop,
        List.getElem?_eq_getElem hlt, Option.toList_some, List.append_assoc]
      rfl

structure FifoBuffer where
  pendingOrders : List RecvClientRequest
  pendingSize : Nat := 0
  pendingSorted : Bool := true

namespace FifoBuffer

/-- The constructor. -/
def init (maxPending : Nat) : FifoBuffer where
  pendingOrders := List.replicate (max maxPending 1) .blank

/-- `addToPending`; `none` where the source returns false. -/
def addToPending (f : FifoBuffer) (x : RecvClientRequest) :
    Option FifoBuffer :=
  if f.pendingSize ≥ f.pendingOrders.length then none
  else some {
    pendingOrders := f.pendingOrders.set f.pendingSize x
    pendingSize := f.pendingSize + 1
    pendingSorted := false }

/-- The call of `std::sort` on the first `pending_size_` entries. -/
def sortPending (S : StdSort) (f : FifoBuffer) : FifoBuffer :=
  if f.pendingSorted then f
  else { f with
    pendingOrders := S.sort (f.pendingOrders.take f.pendingSize) ++
      f.pendingOrders.drop f.pendingSize
    pendingSorted := true }

/-- The loop that pushes, from `published` on; `accepts k` says whether the
queue takes entry `k`. -/
def pushLoop (accepts : Nat → Bool) (f : FifoBuffer) :
    Nat → Nat → List RecvClientRequest →
      Except Fault (Nat × List RecvClientRequest)
  | 0, _, _ => .error .outOfFuel
  | fuel + 1, published, queue =>
      if published < f.pendingSize then
        match f.pendingOrders[published]? with
        | none => .error .outOfRange
        | some x =>
            if accepts published then
              f.pushLoop accepts fuel (published + 1) (queue ++ [x])
            else .ok (published, queue)
      else .ok (published, queue)

/-- `publishPendingOrders`: the buffer after it, and what has been pushed. -/
def publishPendingOrders (S : StdSort) (accepts : Nat → Bool)
    (f : FifoBuffer) : Except Fault (FifoBuffer × List RecvClientRequest) :=
  if f.pendingSize = 0 then .ok (f, [])
  else do
    let f := f.sortPending S
    let (published, queue) ← f.pushLoop accepts (f.pendingSize + 1) 0 []
    if published ≠ 0 then
      .ok ({ f with
        pendingOrders := moveToFront published (f.pendingSize - published)
          f.pendingOrders
        pendingSize := f.pendingSize - published }, queue)
    else .ok (f, queue)

def growPending (f : FifoBuffer) : FifoBuffer :=
  { f with
    pendingOrders := f.pendingOrders ++
      List.replicate f.pendingOrders.length .blank }

/-- The requests that are pending. -/
def view (f : FifoBuffer) : FifoNdProcess where
  capacity := f.pendingOrders.length
  pending := f.pendingOrders.take f.pendingSize
  pendingSorted := f.pendingSorted

/-- The counter stays inside the vector. -/
def Bounded (f : FifoBuffer) : Prop :=
  f.pendingSize ≤ f.pendingOrders.length

theorem view_init (maxPending : Nat) :
    (init maxPending).view = FifoNdProcess.init maxPending := by
  simp [view, init, FifoNdProcess.init]

variable {f : FifoBuffer}

theorem length_view (h : f.Bounded) :
    f.view.pending.length = f.pendingSize := by
  rw [view, List.length_take, Nat.min_eq_left h]

/-- `addToPending` on the view. -/
theorem view_addToPending (h : f.Bounded) (x : RecvClientRequest) :
    (f.addToPending x).map view = f.view.addToPending x ∧
      ∀ f', f.addToPending x = some f' → f'.Bounded := by
  unfold addToPending FifoNdProcess.addToPending
  rw [length_view h]
  by_cases hfull : f.pendingSize ≥ f.pendingOrders.length
  · rw [if_pos hfull, if_pos (by exact hfull)]
    exact ⟨rfl, nofun⟩
  · rw [if_neg hfull, if_neg (by exact hfull)]
    have hlt := Nat.lt_of_not_ge hfull
    constructor
    · have htake : (f.pendingOrders.set f.pendingSize x).take
          (f.pendingSize + 1) = f.pendingOrders.take f.pendingSize ++ [x] := by
        rw [List.take_add_one, List.getElem?_set_self hlt, Option.toList_some,
          List.take_set_of_le (Nat.le_refl _)]
      simp [view, htake]
    · rintro f' ⟨⟩
      rw [Bounded, List.length_set]
      exact hlt

/-- `growPending` on the view. -/
theorem view_growPending (h : f.Bounded) :
    f.growPending.view = f.view.growPending ∧ f.growPending.Bounded := by
  have hbounded : f.pendingSize ≤ f.pendingOrders.length := h
  constructor
  · simp only [growPending, view, FifoNdProcess.growPending,
      List.length_append, List.length_replicate,
      List.take_append_of_le_length hbounded, Nat.mul_two]
  · simp only [Bounded, growPending, List.length_append]
    omega

/-- Sorting puts the pending requests into the order in which they are
pushed. -/
theorem view_sortPending (S : StdSort) (h : f.Bounded) :
    (f.sortPending S).view = { f.view with
        pending := f.view.ordered S
        pendingSorted := true } ∧
      (f.sortPending S).pendingSize = f.pendingSize ∧
      (f.sortPending S).Bounded := by
  unfold sortPending FifoNdProcess.ordered
  by_cases hsorted : f.pendingSorted = true
  · rw [if_pos hsorted, if_pos (by exact hsorted)]
    exact ⟨by rw [view, hsorted], rfl, h⟩
  · rw [if_neg hsorted, if_neg (by exact hsorted)]
    have hlen : (S.sort (f.pendingOrders.take f.pendingSize)).length =
        f.pendingSize := by
      rw [(S.perm _).length_eq]
      exact length_view h
    have hbounded : f.pendingSize ≤ f.pendingOrders.length := h
    have htotal : (S.sort (f.pendingOrders.take f.pendingSize) ++
        f.pendingOrders.drop f.pendingSize).length =
        f.pendingOrders.length := by
      rw [List.length_append, hlen, List.length_drop]
      omega
    refine ⟨?_, rfl, ?_⟩
    · simp only [view, htotal, List.take_left' hlen]
    · rw [Bounded, htotal]
      exact hbounded

/-- The shift drops the published requests. -/
theorem view_moveToFront {room : Nat} (h : f.Bounded)
    (hroom : room ≤ f.pendingSize) :
    ({ f with
        pendingOrders := moveToFront room (f.pendingSize - room)
          f.pendingOrders
        pendingSize := f.pendingSize - room } : FifoBuffer).view =
      { f.view with pending := f.view.pending.drop room } ∧
    ({ f with
        pendingOrders := moveToFront room (f.pendingSize - room)
          f.pendingOrders
        pendingSize := f.pendingSize - room } : FifoBuffer).Bounded := by
  have hbounded : f.pendingSize ≤ f.pendingOrders.length := h
  have hfits : room + (f.pendingSize - room) ≤ f.pendingOrders.length := by
    omega
  have hmove := moveToFront_eq hfits
  have hdrop : ((f.pendingOrders.drop room).take
      (f.pendingSize - room)).length = f.pendingSize - room := by
    rw [List.length_take, List.length_drop]
    omega
  have htotal : (moveToFront room (f.pendingSize - room)
      f.pendingOrders).length = f.pendingOrders.length := by
    rw [hmove, List.length_append, hdrop, List.length_drop]
    omega
  constructor
  · have htake : (moveToFront room (f.pendingSize - room)
        f.pendingOrders).take (f.pendingSize - room) =
        (f.pendingOrders.drop room).take (f.pendingSize - room) := by
      rw [hmove, List.take_left' hdrop]
    simp only [view, htotal, htake, List.drop_take]
  · rw [Bounded, htotal]
    exact (Nat.sub_le _ _).trans hbounded

/-- The loop pushes the pending requests up to the first one that the queue
does not take. -/
theorem pushLoop_eq
    (accepts : Nat → Bool) (h : f.Bounded) {fuel published : Nat}
    (hle : published ≤ f.pendingSize)
    (hfuel : f.pendingSize < published + fuel) :
    ∃ room, published ≤ room ∧ room ≤ f.pendingSize ∧
      f.pushLoop accepts fuel published (f.view.pending.take published) =
        .ok (room, f.view.pending.take room) := by
  induction fuel generalizing published with
  | zero => omega
  | succ fuel ih =>
      unfold pushLoop
      by_cases hlt : published < f.pendingSize
      · have hmem : published < f.pendingOrders.length :=
          Nat.lt_of_lt_of_le hlt h
        rw [if_pos hlt, List.getElem?_eq_getElem hmem]
        dsimp only
        by_cases haccepts : accepts published = true
        · have htake : f.view.pending.take (published + 1) =
              f.view.pending.take published ++ [f.pendingOrders[published]] := by
            rw [List.take_add_one, view, List.getElem?_take_of_lt hlt,
              List.getElem?_eq_getElem hmem, Option.toList_some]
          have hfuel' : f.pendingSize < published + 1 + fuel := by
            omega
          obtain ⟨room, hroom, hsize, heq⟩ := ih (Nat.succ_le_of_lt hlt) hfuel'
          rw [if_pos haccepts, ← htake]
          exact ⟨room, Nat.le_of_succ_le hroom, hsize, heq⟩
        · rw [if_neg haccepts]
          exact ⟨published, Nat.le_refl _, hle, rfl⟩
      · rw [if_neg hlt]
        exact ⟨published, Nat.le_refl _, hle, rfl⟩

/-- **`publishPendingOrders` on the view**: the queue had room for some
number of requests. -/
theorem view_publishPendingOrders
    (S : StdSort) (accepts : Nat → Bool) (h : f.Bounded) :
    ∃ f' queue room, f.publishPendingOrders S accepts = .ok (f', queue) ∧
      f.view.publishPendingOrders S room = (f'.view, queue) ∧
      f'.Bounded := by
  unfold publishPendingOrders
  have hlength := length_view h
  by_cases hzero : f.pendingSize = 0
  · have hnil : f.view.pending = [] := by
      rw [← List.length_eq_zero_iff, hlength, hzero]
    rw [if_pos hzero]
    exact ⟨f, [], 0, rfl, if_pos hnil, h⟩
  · have hnil : f.view.pending ≠ [] := by
      rw [← List.length_pos_iff, hlength]
      omega
    have hpublish : ∀ room, f.view.publishPendingOrders S room =
        ({ f.view with
          pending := (f.view.ordered S).drop room
          pendingSorted := true }, (f.view.ordered S).take room) :=
      fun room => if_neg hnil
    obtain ⟨hview, hsize, hbounded⟩ := view_sortPending S h
    have hfuel : (f.sortPending S).pendingSize <
        0 + ((f.sortPending S).pendingSize + 1) := by
      omega
    obtain ⟨room, -, hroom, hloop⟩ := pushLoop_eq accepts hbounded
      (Nat.zero_le _) hfuel
    rw [List.take_zero, hview] at hloop
    rw [if_neg hzero]
    dsimp only
    rw [hloop, ok_bind]
    by_cases hpublished : room = 0
    · refine ⟨f.sortPending S, _, room, if_neg (by simp [hpublished]), ?_,
        hbounded⟩
      rw [hpublish, hview, hpublished, List.drop_zero]
    · obtain ⟨hmoved, hbounded'⟩ := view_moveToFront hbounded hroom
      refine ⟨_, _, room, if_pos hpublished, ?_, hbounded'⟩
      rw [hpublish, hmoved, hview]

end FifoBuffer

/-- The sequencer, what has been staged, and what each call of
`publishPendingOrders` has pushed and left. -/
structure Sequencer where
  buffer : FifoBuffer
  staged : List RecvClientRequest := []
  calls : List (List RecvClientRequest × List RecvClientRequest) := []

/-- What is done with the sequencer; `accepts` is how the request queue
behaves in a call of `publishPendingOrders`. -/
inductive SequencerOp where
  | stage (x : RecvClientRequest) (accepts : Nat → Bool)
  | publish (accepts : Nat → Bool)

namespace Sequencer

/-- What has been pushed so far. -/
def pushed (s : Sequencer) : List RecvClientRequest :=
  s.calls.flatMap Prod.fst

def publish (S : StdSort) (accepts : Nat → Bool) (s : Sequencer) :
    Except Fault Sequencer := do
  let (buffer, queue) ← s.buffer.publishPendingOrders S accepts
  .ok { s with
    buffer := buffer
    calls := s.calls ++ [(queue, buffer.view.pending)] }

/-- A request has found room in the buffer. -/
def retain (s : Sequencer) (x : RecvClientRequest) (buffer : FifoBuffer) :
    Sequencer :=
  { s with buffer := buffer, staged := s.staged ++ [x] }

/-- The staging of a decoded request in `onRecv`. -/
def stage (S : StdSort) (x : RecvClientRequest) (accepts : Nat → Bool)
    (s : Sequencer) : Except Fault Sequencer :=
  match s.buffer.addToPending x with
  | some buffer => .ok (s.retain x buffer)
  | none => do
      let s ← s.publish S accepts
      match s.buffer.addToPending x with
      | some buffer => .ok (s.retain x buffer)
      | none =>
          match s.buffer.growPending.addToPending x with
          | some buffer => .ok (s.retain x buffer)
          | none => .error .assertFailed

def step (S : StdSort) (s : Sequencer) :
    SequencerOp → Except Fault Sequencer
  | .stage x accepts => s.stage S x accepts
  | .publish accepts => s.publish S accepts

def run (S : StdSort) (maxPending : Nat) (ops : List SequencerOp) :
    Except Fault Sequencer :=
  ops.foldlM (step S) { buffer := FifoBuffer.init maxPending }

/-- One call pushes in time order, and nothing that it leaves is earlier. -/
def InTimeOrder
    (call : List RecvClientRequest × List RecvClientRequest) : Prop :=
  call.1.Pairwise (fun a b => a.timeNanos ≤ b.timeNanos) ∧
    ∀ x ∈ call.1, ∀ y ∈ call.2, x.timeNanos ≤ y.timeNanos

/-- What holds in every state: nothing is lost or made up, a buffer that is
marked as sorted is sorted, and every call was in time order. -/
structure Keeps (s : Sequencer) : Prop where
  bounded : s.buffer.Bounded
  fits : s.buffer.view.Fits
  sorted : s.buffer.view.Sorted
  kept : (s.pushed ++ s.buffer.view.pending).Perm s.staged
  calls : ∀ call ∈ s.calls, InTimeOrder call

variable {S : StdSort} {s : Sequencer}

theorem Keeps.publish
    (h : s.Keeps) (accepts : Nat → Bool) :
    ∃ s', s.publish S accepts = .ok s' ∧ s'.Keeps ∧ s'.staged = s.staged := by
  obtain ⟨buffer, queue, room, hpublish, hview, hbounded⟩ :=
    FifoBuffer.view_publishPendingOrders S accepts h.bounded
  have hfits := h.fits.publish S room
  have hperm := s.buffer.view.publishPendingOrders_perm S room
  obtain ⟨hsorted, hpushed, hleft⟩ := h.sorted.publish S room
  rw [hview] at hfits hperm hsorted hpushed hleft
  unfold Sequencer.publish
  rw [hpublish, ok_bind]
  refine ⟨_, rfl, ⟨hbounded, hfits, hsorted, ?_, ?_⟩, rfl⟩
  · show ((s.calls ++ [(queue, buffer.view.pending)]).flatMap Prod.fst ++
      buffer.view.pending).Perm s.staged
    rw [List.flatMap_append, List.flatMap_singleton, List.append_assoc]
    exact (hperm.append_left _).trans h.kept
  · intro call hcall
    rcases List.mem_append.mp hcall with hcall | hcall
    · exact h.calls call hcall
    · rw [List.mem_singleton.mp hcall]
      exact ⟨hpushed, hleft⟩

/-- A request that finds room is kept. -/
theorem Keeps.retain
    (h : s.Keeps) {f buffer : FifoBuffer} {x : RecvClientRequest}
    (hbounded : f.Bounded) (hfits : f.view.Fits)
    (hpending : f.view.pending = s.buffer.view.pending)
    (hadd : f.addToPending x = some buffer) :
    (s.retain x buffer).Keeps := by
  obtain ⟨hview, hbounded'⟩ := FifoBuffer.view_addToPending hbounded x
  rw [hadd, Option.map_some] at hview
  obtain ⟨hfits', hbehind⟩ := hfits.add hview.symm
  refine ⟨hbounded' buffer hadd, hfits',
    FifoNdProcess.Sorted.addToPending hview.symm, ?_, h.calls⟩
  show (s.pushed ++ buffer.view.pending).Perm (s.staged ++ [x])
  rw [hbehind, hpending, ← List.append_assoc]
  exact h.kept.append_right [x]

/-- **The assertion of `onRecv` does not fail**: after the buffer has been
grown the request finds room. -/
theorem Keeps.stage
    (h : s.Keeps) (x : RecvClientRequest) (accepts : Nat → Bool) :
    ∃ s', s.stage S x accepts = .ok s' ∧ s'.Keeps ∧
      s'.staged = s.staged ++ [x] := by
  unfold Sequencer.stage
  cases hfirst : s.buffer.addToPending x with
  | some buffer =>
      exact ⟨_, rfl, h.retain h.bounded h.fits rfl hfirst, rfl⟩
  | none =>
      obtain ⟨s₁, hpublish, h₁, hstaged⟩ := h.publish (S := S) accepts
      dsimp only
      rw [hpublish, ok_bind]
      cases hsecond : s₁.buffer.addToPending x with
      | some buffer =>
          refine ⟨_, rfl, h₁.retain h₁.bounded h₁.fits rfl hsecond, ?_⟩
          rw [Sequencer.retain, hstaged]
      | none =>
          obtain ⟨hgrown, hbounded⟩ := FifoBuffer.view_growPending h₁.bounded
          obtain ⟨f', hadd, -, -⟩ := h₁.fits.grow x
          have hfits : s₁.buffer.growPending.view.Fits := by
            have hpos := h₁.fits.positive
            have hlen := h₁.fits.fits
            rw [hgrown]
            exact ⟨Nat.mul_pos hpos Nat.two_pos,
              hlen.trans (Nat.le_mul_of_pos_right _ Nat.two_pos)⟩
          have hthird :=
            (FifoBuffer.view_addToPending hbounded x).1
          rw [hgrown, hadd] at hthird
          obtain ⟨buffer, hbuffer, -⟩ := Option.map_eq_some_iff.mp hthird
          dsimp only
          rw [hbuffer]
          refine ⟨_, rfl, h₁.retain hbounded hfits ?_ hbuffer, ?_⟩
          · rw [hgrown]
            rfl
          · rw [Sequencer.retain, hstaged]

theorem Keeps.init (maxPending : Nat) :
    Keeps { buffer := FifoBuffer.init maxPending } where
  bounded := Nat.zero_le _
  fits := by
    rw [FifoBuffer.view_init]
    exact .init maxPending
  sorted := by
    rw [FifoBuffer.view_init]
    exact .init maxPending
  kept := List.Perm.refl _
  calls := nofun

/-- The request that an operation stages. -/
def staging : SequencerOp → Option RecvClientRequest
  | .stage x _ => some x
  | .publish _ => none

/-- **The sequencer loses, repeats and invents no request, and publishes each
batch in time order.**  This holds for every initial size of the buffer, every
sequence of operations and every behaviour of the request queue, and the
assertion of `onRecv` does not fail. -/
theorem sequencer_keeps_every_request
    (S : StdSort) (maxPending : Nat) (ops : List SequencerOp) :
    ∃ s, run S maxPending ops = .ok s ∧
      s.staged = ops.filterMap staging ∧
      (s.pushed ++ s.buffer.view.pending).Perm s.staged ∧
      ∀ call ∈ s.calls, InTimeOrder call := by
  have hrun : ∀ s : Sequencer, s.Keeps →
      ∃ s', ops.foldlM (step S) s = .ok s' ∧ s'.Keeps ∧
        s'.staged = s.staged ++ ops.filterMap staging := by
    induction ops with
    | nil => exact fun s h => ⟨s, rfl, h, (List.append_nil _).symm⟩
    | cons op ops ih =>
        intro s h
        obtain ⟨s₁, hs₁, h₁, hstaged₁⟩ : ∃ s₁, s.step S op = .ok s₁ ∧
            s₁.Keeps ∧ s₁.staged = s.staged ++ (staging op).toList := by
          cases op with
          | stage x accepts => exact h.stage x accepts
          | publish accepts =>
              obtain ⟨s₁, hs₁, h₁, hstaged⟩ := h.publish (S := S) accepts
              exact ⟨s₁, hs₁, h₁, by rw [hstaged]; simp [staging]⟩
        obtain ⟨s', hs', h', hstaged'⟩ := ih s₁ h₁
        refine ⟨s', ?_, h', ?_⟩
        · rw [List.foldlM_cons, hs₁, ok_bind]
          exact hs'
        · rw [hstaged', hstaged₁, List.append_assoc]
          cases hop : staging op <;> simp [hop]
  obtain ⟨s, hs, h, hstaged⟩ := hrun _ (.init maxPending)
  exact ⟨s, hs, hstaged, h.kept, h.calls⟩

end Sequencer

end NanoExchange
