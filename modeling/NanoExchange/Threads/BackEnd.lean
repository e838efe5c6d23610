import NanoExchange.Types
import NanoExchange.Lib.Reach

/-!
# The publisher and the streamer thread

The run loops of `marketdata_publisher.h` and `snapshot_stream.h` and the two
queues in front of them.  What the publisher encodes, and what the streamer
does with an entry, is not of interest here: an update goes out on UDP under
its sequence number if `encode` produces bytes for it, which it does for the
incremental updates.

`taken`, `published` and `streamed` are the history: the updates that have been
popped off the first queue, those that have been sent on UDP, and the entries
that have been popped off the second.
-/

namespace NanoExchange

open Lib

instance : DecidablePred UpdateType.Incremental := fun t =>
  match t with
  | .add | .cancel | .modify | .trade => isTrue trivial
  | .snapshotStart | .clear | .snapshotEnd => isFalse id

/-- The updates with the sequence numbers that the publisher gives them. -/
def numbered (us : List MEMarketUpdate) : List (Nat × MEMarketUpdate) :=
  us.mapIdx fun i u => ((i + 1) % wordSize, u)

@[simp] theorem numbered_append_singleton
    (us : List MEMarketUpdate) (u : MEMarketUpdate) :
    numbered (us ++ [u]) =
      numbered us ++ [((us.length + 1) % wordSize, u)] := by
  simp [numbered]

inductive PublisherPhase where
  /-- `while (run_.load(...))` -/
  | test
  /-- `getNextRead`, `encode` and the send on UDP -/
  | poll
  /-- `streamer_updates_.pushBlocking(snap)` -/
  | push (snap : Nat × MEMarketUpdate)
  /-- `updateNextRead` and `++next_seq_num_` -/
  | advance
  | exited
deriving DecidableEq

/-- The publisher is at work on the first update of the queue. -/
def PublisherPhase.Sending : PublisherPhase → Prop
  | .push _ | .advance => True
  | _ => False

inductive StreamerPhase where
  /-- `while (run_.load(...))` -/
  | test
  /-- The loop that drains `streamer_updates_`. -/
  | drain
  | exited
deriving DecidableEq

structure BackEnd where
  marketUpdateQ : List MEMarketUpdate := []
  publisherPhase : PublisherPhase := .test
  nextSeqNum : Nat := 1
  streamerUpdates : List (Nat × MEMarketUpdate) := []
  streamerPhase : StreamerPhase := .test
  taken : List MEMarketUpdate := []
  published : List (Nat × MEMarketUpdate) := []
  streamed : List (Nat × MEMarketUpdate) := []

namespace BackEnd

/-- A step of the publisher thread, under the value of `run_` and the effective
capacity of `streamer_updates_`. -/
def publisher (capacity : Nat) (run : Bool) (b : BackEnd) : Option BackEnd :=
  match b.publisherPhase with
  | .test => some { b with publisherPhase := if run then .poll else .exited }
  | .poll =>
      match b.marketUpdateQ with
      | [] => some { b with publisherPhase := .test }
      | u :: _ =>
          if u.type.Incremental then
            some { b with
              published := b.published ++ [(b.nextSeqNum, u)]
              publisherPhase := .push (b.nextSeqNum, u) }
          else some { b with publisherPhase := .advance }
  | .push snap =>
      if b.streamerUpdates.length < capacity then
        some { b with
          streamerUpdates := b.streamerUpdates ++ [snap]
          publisherPhase := .advance }
      else none
  | .advance =>
      some { b with
        marketUpdateQ := b.marketUpdateQ.tail
        nextSeqNum := (b.nextSeqNum + 1) % wordSize
        taken := b.taken ++ b.marketUpdateQ.take 1
        publisherPhase := .test }
  | .exited => none

/-- A step of the streamer thread, under the value of `run_`. -/
def streamer (run : Bool) (b : BackEnd) : Option BackEnd :=
  match b.streamerPhase with
  | .test => some { b with streamerPhase := if run then .drain else .exited }
  | .drain =>
      match b.streamerUpdates with
      | [] => some { b with streamerPhase := .test }
      | snap :: rest =>
          some { b with
            streamerUpdates := rest
            streamed := b.streamed ++ [snap] }
  | .exited => none

/-- The entry that waits to be pushed to the streamer. -/
def inHand (b : BackEnd) : List (Nat × MEMarketUpdate) :=
  match b.publisherPhase with
  | .push snap => [snap]
  | _ => []

/-- The updates that are out: those that have been popped, and the first of the
queue once it has been sent. -/
def out (b : BackEnd) : List MEMarketUpdate :=
  match b.publisherPhase with
  | .push _ | .advance => b.taken ++ b.marketUpdateQ.take 1
  | _ => b.taken

/-- **The invariant of the two threads**, when the updates `us` have been
pushed to the first queue. -/
structure Serves (us : List MEMarketUpdate) (b : BackEnd) : Prop where
  queued : us = b.taken ++ b.marketUpdateQ
  published : b.published = numbered b.out
  streamed : b.streamed ++ b.streamerUpdates ++ b.inHand = b.published
  sending : b.publisherPhase.Sending → b.marketUpdateQ ≠ []
  seqNum : b.nextSeqNum = (b.taken.length + 1) % wordSize
  incremental : ∀ u ∈ us, u.type.Incremental

namespace Serves

variable {us : List MEMarketUpdate} {b b' : BackEnd}

theorem init : Serves [] {} where
  queued := rfl
  published := rfl
  streamed := rfl
  sending := False.elim
  seqNum := rfl
  incremental := by simp

/-- The engine pushes an update. -/
theorem push
    (h : b.Serves us) {u : MEMarketUpdate} (hu : u.type.Incremental) :
    Serves (us ++ [u]) { b with marketUpdateQ := b.marketUpdateQ ++ [u] } where
  queued := by
    rw [h.queued, List.append_assoc]
  published := by
    rw [h.published]
    cases hphase : b.publisherPhase with
    | test | poll | exited => simp only [out, hphase]
    | push | advance =>
        have hne := h.sending (by rw [hphase]; trivial)
        have hlen := List.length_pos_iff.mpr hne
        simp only [out, hphase, List.take_append_of_le_length hlen]
  streamed := h.streamed
  sending _ := by simp
  seqNum := h.seqNum
  incremental := by
    simpa [or_imp, forall_and] using ⟨h.incremental, hu⟩

theorem publisher
    {capacity : Nat} {run : Bool} (h : b.Serves us)
    (hstep : b.publisher capacity run = some b') :
    b'.Serves us := by
  obtain ⟨hqueued, hpublished, hstreamed, hsending, hseq, hinc⟩ := h
  unfold BackEnd.publisher at hstep
  cases hphase : b.publisherPhase with
  | test =>
      simp only [hphase, Option.some.injEq] at hstep
      subst hstep
      simp only [out, inHand, hphase] at hpublished hstreamed
      cases run <;>
        exact ⟨hqueued, hpublished, hstreamed, False.elim, hseq, hinc⟩
  | poll =>
      simp only [out, inHand, hphase] at hpublished hstreamed
      cases hq : b.marketUpdateQ with
      | nil =>
          simp only [hphase, hq, Option.some.injEq] at hstep
          subst hstep
          exact ⟨hq ▸ hqueued, hpublished, hstreamed, False.elim, hseq, hinc⟩
      | cons u rest =>
          have hu : u.type.Incremental := hinc u (by simp [hqueued, hq])
          simp only [hphase, hq, if_pos hu, Option.some.injEq] at hstep
          subst hstep
          refine ⟨hq ▸ hqueued, ?_, ?_, fun _ => List.cons_ne_nil _ _, hseq,
            hinc⟩
          · show b.published ++ [(b.nextSeqNum, u)] =
              numbered (b.taken ++ [u])
            rw [numbered_append_singleton, hpublished, hseq]
          · show b.streamed ++ b.streamerUpdates ++ [(b.nextSeqNum, u)] = _
            rw [List.append_nil] at hstreamed
            rw [hstreamed]
  | push snap =>
      simp only [out, inHand, hphase] at hpublished hstreamed
      simp only [hphase] at hstep hsending
      split_ifs at hstep
      obtain rfl := Option.some.inj hstep
      refine ⟨hqueued, hpublished, ?_, hsending, hseq, hinc⟩
      show b.streamed ++ (b.streamerUpdates ++ [snap]) ++ [] = b.published
      rw [← hstreamed]
      simp
  | advance =>
      simp only [out, inHand, hphase] at hpublished hstreamed
      simp only [hphase, Option.some.injEq] at hstep
      subst hstep
      have hne := hsending (by rw [hphase]; trivial)
      obtain ⟨u, rest, hq⟩ := List.exists_cons_of_ne_nil hne
      refine ⟨?_, hpublished, hstreamed, False.elim, ?_, hinc⟩
      · rw [hqueued, hq]
        simp
      · show (b.nextSeqNum + 1) % wordSize = _
        rw [hseq, hq, Nat.mod_add_mod]
        simp
  | exited => simp only [hphase, reduceCtorEq] at hstep

theorem streamer
    {run : Bool} (h : b.Serves us) (hstep : b.streamer run = some b') :
    b'.Serves us := by
  obtain ⟨hqueued, hpublished, hstreamed, hsending, hseq, hinc⟩ := h
  unfold BackEnd.streamer at hstep
  cases hphase : b.streamerPhase with
  | test =>
      simp only [hphase, Option.some.injEq] at hstep
      subst hstep
      exact ⟨hqueued, hpublished, hstreamed, hsending, hseq, hinc⟩
  | drain =>
      cases hq : b.streamerUpdates with
      | nil =>
          simp only [hphase, hq, Option.some.injEq] at hstep
          subst hstep
          exact ⟨hqueued, hpublished, hq ▸ hstreamed, hsending, hseq, hinc⟩
      | cons snap rest =>
          simp only [hphase, hq, Option.some.injEq] at hstep
          subst hstep
          refine ⟨hqueued, hpublished, ?_, hsending, hseq, hinc⟩
          show b.streamed ++ [snap] ++ rest ++ b.inHand = b.published
          rw [← hstreamed, hq]
          simp
  | exited => simp only [hphase, reduceCtorEq] at hstep

end Serves

end BackEnd

end NanoExchange
