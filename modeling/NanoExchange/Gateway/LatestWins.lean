import NanoExchange.Gateway.Registry
import Mathlib.Data.List.Induction

/-!
# The latest registration wins

A history of the registry is the list of its calls with the ids that they
returned.  `Recorded` connects the registry to its history: the ids given out
are consecutive, `getID` is the last entry of the history under a client and a
token, and every slot that is in use holds what the call that filled it brought.

A key of `token_to_id_` is a view into such a slot.  Slots in use are not
written again (`slot_after`), so neither are the keys.
-/

namespace NanoExchange

/-- The arguments of a call of `registerNewToken`. -/
structure Registration where
  clientId : ClientId
  ouchToken : OrderToken
  tickerId : TickerId
deriving DecidableEq

/-- What a call leaves in its slot. -/
def Registration.info (r : Registration) : TokenInfo :=
  ⟨r.ouchToken, r.tickerId, r.clientId⟩

namespace OrderTokenManager

/-- The registry after a sequence of calls. -/
def after (m : OrderTokenManager) (calls : List Registration) :
    OrderTokenManager :=
  calls.foldl
    (fun m r => (m.registerNewToken r.clientId r.ouchToken r.tickerId).2) m

/-- The calls, each with the id that it returned. -/
def history (m : OrderTokenManager) :
    List Registration → List (OrderId × Registration)
  | [] => []
  | r :: calls =>
      let called := m.registerNewToken r.clientId r.ouchToken r.tickerId
      (called.1, r) :: called.2.history calls

/-- The calls of a history that were given an id. -/
def issued (log : List (OrderId × Registration)) :
    List (OrderId × Registration) :=
  log.filter fun e => e.1 ≠ 0

/-- The last successful registration of a token by a client. -/
def latest (log : List (OrderId × Registration)) (c : ClientId)
    (t : OrderToken) : Option (OrderId × Registration) :=
  ((issued log).filter
    fun e => e.2.clientId = c ∧ e.2.ouchToken = t).getLast?

variable {m : OrderTokenManager} {log : List (OrderId × Registration)}

theorem after_append (m : OrderTokenManager) (l₁ l₂ : List Registration) :
    m.after (l₁ ++ l₂) = (m.after l₁).after l₂ :=
  List.foldl_append

theorem history_append (m : OrderTokenManager) (l₁ l₂ : List Registration) :
    m.history (l₁ ++ l₂) = m.history l₁ ++ (m.after l₁).history l₂ := by
  induction l₁ generalizing m with
  | nil => rfl
  | cons r l₁ ih =>
      rw [List.cons_append, history, history, ih]
      rfl

theorem issued_append (l₁ l₂ : List (OrderId × Registration)) :
    issued (l₁ ++ l₂) = issued l₁ ++ issued l₂ :=
  List.filter_append l₁ l₂

/-- A call that was turned down is not counted. -/
theorem issued_concat_zero (r : Registration) :
    issued (log ++ [(0, r)]) = issued log := by
  rw [issued_append]
  simp [issued]

theorem issued_concat {id : OrderId} (hid : id ≠ 0) (r : Registration) :
    issued (log ++ [(id, r)]) = issued log ++ [(id, r)] := by
  rw [issued_append]
  simp [issued, hid]

/-- A new entry is the latest one for its own client and token. -/
theorem latest_concat {id : OrderId} (hid : id ≠ 0) (r : Registration)
    (c : ClientId) (t : OrderToken) :
    latest (log ++ [(id, r)]) c t =
      if c = r.clientId ∧ t = r.ouchToken then some (id, r)
      else latest log c t := by
  unfold latest
  rw [issued_concat hid, List.filter_append]
  by_cases h : c = r.clientId ∧ t = r.ouchToken
  · rw [if_pos h]
    simp [h.1, h.2]
  · have h' : ¬ (r.clientId = c ∧ r.ouchToken = t) := fun e =>
      h ⟨e.1.symm, e.2.symm⟩
    rw [if_neg h]
    simp [h']

/-- The registry is what its history says. -/
structure Recorded (size : Nat) (m : OrderTokenManager)
    (log : List (OrderId × Registration)) : Prop where
  sound : m.Sound
  slots : m.idToToken.length = size + 1
  next : m.nextInternalId = (issued log).length + 1
  ids : (issued log).map Prod.fst = List.range' 1 (issued log).length
  resolves : ∀ c t, m.getID c t = (latest log c t).elim 0 Prod.fst
  kept : ∀ e ∈ issued log, m.slot e.1 = e.2.info

namespace Recorded

variable {size : Nat}

theorem init (size : Nat) : Recorded size (OrderTokenManager.init size) [] where
  sound := Sound.init size
  slots := List.length_replicate
  next := rfl
  ids := rfl
  resolves _ _ := rfl
  kept e he := by cases he

theorem id_bounds
    (h : Recorded size m log) {e : OrderId × Registration}
    (he : e ∈ issued log) :
    0 < e.1 ∧ e.1 < m.nextInternalId := by
  have hmem : e.1 ∈ (issued log).map Prod.fst := List.mem_map_of_mem he
  obtain ⟨hpos, hlt⟩ := List.mem_range'_1.mp (h.ids ▸ hmem)
  rw [h.next, Nat.add_comm]
  exact ⟨hpos, hlt⟩

/-- One more call, with the id that it returned. -/
theorem step (h : Recorded size m log) (r : Registration) :
    Recorded size
      (m.registerNewToken r.clientId r.ouchToken r.tickerId).2
      (log ++ [((m.registerNewToken r.clientId r.ouchToken r.tickerId).1,
        r)]) := by
  by_cases hroom : m.HasRoom
  · obtain ⟨hid, hnext, hlength⟩ :=
      registerNewToken_fst hroom r.clientId r.ouchToken r.tickerId
    have hslot :=
      slot_registerNewToken hroom r.clientId r.ouchToken r.tickerId
    have hne : m.nextInternalId ≠ 0 := Nat.ne_of_gt h.sound.positive
    rw [hid]
    have hissued : issued (log ++ [(m.nextInternalId, r)]) =
        issued log ++ [(m.nextInternalId, r)] := issued_concat hne r
    refine ⟨h.sound.registerNewToken _ _ _, hlength.trans h.slots, ?_, ?_,
      ?_, ?_⟩
    · rw [hnext, hissued, h.next, List.length_append]
      rfl
    · rw [hissued, List.map_append, h.ids, List.length_append, h.next,
        List.map_singleton, List.length_singleton, List.range'_concat,
        Nat.one_mul, Nat.add_comm 1]
    · intro c t
      rw [getID_registerNewToken h.sound hroom, latest_concat hne,
        h.resolves]
      split_ifs
      · rfl
      · rfl
    · intro e he
      rw [hissued] at he
      rcases List.mem_append.mp he with he | he
      · rw [hslot, if_neg (Nat.ne_of_lt (h.id_bounds he).2)]
        exact h.kept e he
      · obtain rfl := List.mem_singleton.mp he
        rw [hslot, if_pos rfl]
        rfl
  · rw [registerNewToken_full hroom]
    have hissued : issued (log ++ [(0, r)]) = issued log :=
      issued_concat_zero r
    have hlatest : latest (log ++ [(0, r)]) = latest log := by
      unfold latest
      rw [hissued]
    refine ⟨h.sound, h.slots, ?_, ?_, ?_, ?_⟩
    · rw [hissued]
      exact h.next
    · rw [hissued]
      exact h.ids
    · rw [hlatest]
      exact h.resolves
    · rw [hissued]
      exact h.kept

/-- The registry and its history after any sequence of calls. -/
theorem run (size : Nat) (calls : List Registration) :
    Recorded size ((OrderTokenManager.init size).after calls)
      ((OrderTokenManager.init size).history calls) := by
  induction calls using List.reverseRecOn with
  | nil => exact init size
  | append_singleton calls r ih =>
      rw [after_append, history_append]
      exact ih.step r

end Recorded

end OrderTokenManager

end NanoExchange
