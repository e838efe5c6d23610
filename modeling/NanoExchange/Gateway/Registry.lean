import NanoExchange.Gateway.Ouch

/-!
# What the token registry says

`getID` as a function of client and token, and what a registration changes of
it: the new id for its own client and token, nothing else.  A key of
`token_to_id_` is read through a slot that was written when the token was first
registered; slots are written once, so the keys do not change.

`decodeOuch_cases` says everything that decoding a message can do.
-/

namespace NanoExchange

namespace OrderTokenManager

/-- `getToken`; `none` where the source returns a null pointer. -/
def getToken (m : OrderTokenManager) (id : OrderId) : Option OrderToken :=
  if 0 < id ∧ id < m.nextInternalId then some (m.slot id).token else none

/-- The slots in use are there, the keys are read from them, and what a client
and a token resolve to is an id that was registered for them. -/
structure Sound (m : OrderTokenManager) : Prop where
  positive : 0 < m.nextInternalId
  bounded : m.nextInternalId ≤ m.idToToken.length
  views : ∀ c, ∀ e ∈ m.tokenToId c, e.1 < m.nextInternalId
  resolves : ∀ c t, m.getID c t ≠ 0 →
    m.getID c t < m.nextInternalId ∧
      (m.slot (m.getID c t)).token = t ∧
      (m.slot (m.getID c t)).clientId = c

/-- There is a slot left. -/
def HasRoom (m : OrderTokenManager) : Prop :=
  m.nextInternalId < m.idToToken.length

variable {m : OrderTokenManager}

theorem registerNewToken_full
    (h : ¬ m.HasRoom) (c : ClientId) (t : OrderToken) (k : TickerId) :
    m.registerNewToken c t k = (0, m) :=
  if_pos (Nat.le_of_not_lt h)

theorem registerNewToken_fst
    (h : m.HasRoom) (c : ClientId) (t : OrderToken) (k : TickerId) :
    (m.registerNewToken c t k).1 = m.nextInternalId ∧
      (m.registerNewToken c t k).2.nextInternalId = m.nextInternalId + 1 ∧
      (m.registerNewToken c t k).2.idToToken.length =
        m.idToToken.length := by
  unfold registerNewToken
  rw [if_neg (Nat.not_le_of_lt h)]
  exact ⟨rfl, rfl, List.length_set⟩

/-- A registration writes one slot. -/
theorem slot_registerNewToken
    (h : m.HasRoom) (c : ClientId) (t : OrderToken) (k : TickerId)
    (id : Nat) :
    (m.registerNewToken c t k).2.slot id =
      if id = m.nextInternalId then ⟨t, k, c⟩ else m.slot id := by
  unfold registerNewToken
  rw [if_neg (Nat.not_le_of_lt h)]
  dsimp only [slot]
  by_cases hid : id = m.nextInternalId
  · subst hid
    rw [List.getElem?_set_self h, if_pos rfl]
    rfl
  · have hne : m.nextInternalId ≠ id := fun e => hid e.symm
    rw [List.getElem?_set_ne hne, if_neg hid]

/-- The entry under a token, in a map whose keys are read through `token`. -/
def findToken (token : Nat → OrderToken) (t : OrderToken)
    (entries : List (Nat × OrderId)) : OrderId :=
  match entries.find? fun e => token e.1 = t with
  | some e => e.2
  | none => 0

theorem getID_eq_findToken (m : OrderTokenManager) (c : ClientId)
    (t : OrderToken) :
    m.getID c t = findToken (fun v => (m.slot v).token) t (m.tokenToId c) :=
  rfl

theorem findToken_congr
    (token token' : Nat → OrderToken) {entries : List (Nat × OrderId)}
    (h : ∀ e ∈ entries, token e.1 = token' e.1) (t : OrderToken) :
    findToken token t entries = findToken token' t entries := by
  induction entries with
  | nil => rfl
  | cons e entries ih =>
      have ih := ih fun e he => h e (List.mem_cons_of_mem _ he)
      by_cases ht : token' e.1 = t
      · simp [findToken, h e List.mem_cons_self, ht]
      · simpa [findToken, h e List.mem_cons_self, ht] using ih

/-- `insert_or_assign` replaces the value under the token, or adds an entry. -/
theorem findToken_insertOrAssign
    (m : OrderTokenManager) {t : OrderToken} {id : OrderId}
    (hid : (m.slot id).token = t) (t' : OrderToken)
    (entries : List (Nat × OrderId)) :
    findToken (fun v => (m.slot v).token) t'
        (m.insertOrAssign t id entries) =
      if t' = t then id
      else findToken (fun v => (m.slot v).token) t' entries := by
  induction entries with
  | nil =>
      by_cases ht : t' = t
      · simp [insertOrAssign, findToken, hid, ht]
      · have hne : t ≠ t' := fun e => ht e.symm
        simp [insertOrAssign, findToken, hid, ht, hne]
  | cons e entries ih =>
      obtain ⟨view, old⟩ := e
      unfold insertOrAssign
      by_cases hview : (m.slot view).token = t
      · rw [if_pos hview]
        by_cases ht : t' = t
        · subst ht
          simp [findToken, hview]
        · have hne : (m.slot view).token ≠ t' := fun e =>
            ht (e.symm.trans hview)
          simp [findToken, hne, ht]
      · rw [if_neg hview]
        by_cases hview' : (m.slot view).token = t'
        · have hne : t' ≠ t := fun e => hview (hview'.trans e)
          simp [findToken, hview', hne]
        · simpa [findToken, hview'] using ih

/-- The views of a map after `insert_or_assign`. -/
theorem view_of_mem_insertOrAssign
    {t : OrderToken} {id : OrderId} {entries : List (Nat × OrderId)}
    {e : Nat × OrderId} (he : e ∈ m.insertOrAssign t id entries) :
    e.1 = id ∨ ∃ e' ∈ entries, e.1 = e'.1 := by
  induction entries with
  | nil =>
      rw [insertOrAssign, List.mem_singleton] at he
      exact .inl (by rw [he])
  | cons x entries ih =>
      unfold insertOrAssign at he
      split_ifs at he with hview
      · rcases List.mem_cons.mp he with rfl | he
        · exact .inr ⟨x, List.mem_cons_self, rfl⟩
        · exact .inr ⟨e, List.mem_cons_of_mem _ he, rfl⟩
      · rcases List.mem_cons.mp he with rfl | he
        · exact .inr ⟨x, List.mem_cons_self, rfl⟩
        · rcases ih he with heq | ⟨e', he', heq⟩
          · exact .inl heq
          · exact .inr ⟨e', List.mem_cons_of_mem _ he', heq⟩

/-- The maps after a registration; the keys are compared when the slot of the
new id has been written. -/
theorem tokenToId_registerNewToken
    (h : m.HasRoom) (c : ClientId) (t : OrderToken) (k : TickerId) :
    ∃ m₁ : OrderTokenManager,
      m₁.slot = (m.registerNewToken c t k).2.slot ∧
      (m.registerNewToken c t k).2.tokenToId = Function.update m.tokenToId c
        (m₁.insertOrAssign t m.nextInternalId (m.tokenToId c)) := by
  unfold registerNewToken
  rw [if_neg (Nat.not_le_of_lt h)]
  exact ⟨{ m with
    idToToken := m.idToToken.set m.nextInternalId ⟨t, k, c⟩ }, rfl, rfl⟩

/-- **A registration changes what its own client and token resolve to, and
nothing else.** -/
theorem getID_registerNewToken
    (h : m.Sound) (hroom : m.HasRoom) (c c' : ClientId) (t t' : OrderToken)
    (k : TickerId) :
    (m.registerNewToken c t k).2.getID c' t' =
      if c' = c ∧ t' = t then m.nextInternalId else m.getID c' t' := by
  have hslot := slot_registerNewToken hroom c t k
  -- the keys are read from slots that are not written
  have hkeys : ∀ c', ∀ e ∈ m.tokenToId c',
      ((m.registerNewToken c t k).2.slot e.1).token = (m.slot e.1).token := by
    intro c' e he
    rw [hslot, if_neg (Nat.ne_of_lt (h.views c' e he))]
  obtain ⟨m₁, hslot₁, hmaps⟩ := tokenToId_registerNewToken hroom c t k
  rw [getID_eq_findToken, getID_eq_findToken, hmaps]
  by_cases hc : c' = c
  · subst hc
    have hid : (m₁.slot m.nextInternalId).token = t := by
      rw [hslot₁, hslot, if_pos rfl]
    rw [Function.update_self, ← hslot₁, findToken_insertOrAssign _ hid,
      hslot₁, findToken_congr _ (fun v => (m.slot v).token) (hkeys c')]
    simp only [true_and]
  · rw [Function.update_of_ne hc, if_neg fun e => hc e.1]
    exact findToken_congr _ _ (hkeys c') t'

theorem Sound.init (size : Nat) : (OrderTokenManager.init size).Sound where
  positive := Nat.one_pos
  bounded := by
    show 1 ≤ (List.replicate (size + 1) _).length
    rw [List.length_replicate]
    exact Nat.succ_le_succ (Nat.zero_le size)
  views c e he := by simp [OrderTokenManager.init] at he
  resolves c t h := absurd rfl h

theorem Sound.registerNewToken
    (h : m.Sound) (c : ClientId) (t : OrderToken) (k : TickerId) :
    (m.registerNewToken c t k).2.Sound := by
  by_cases hroom : m.HasRoom
  · obtain ⟨-, hnext, hlength⟩ := registerNewToken_fst hroom c t k
    have hslot := slot_registerNewToken hroom c t k
    refine ⟨hnext ▸ Nat.succ_pos _, hnext ▸ hlength ▸ hroom, ?_, ?_⟩
    · intro c' e he
      rw [hnext]
      obtain ⟨m₁, -, hmaps⟩ := tokenToId_registerNewToken hroom c t k
      rw [hmaps] at he
      by_cases hc : c' = c
      · subst hc
        rw [Function.update_self] at he
        rcases view_of_mem_insertOrAssign he with heq | ⟨e', he', heq⟩
        · rw [heq]
          exact Nat.lt_succ_self _
        · rw [heq]
          exact (h.views c' e' he').trans (Nat.lt_succ_self _)
      · rw [Function.update_of_ne hc] at he
        exact (h.views c' e he).trans (Nat.lt_succ_self _)
    · intro c' t'
      rw [getID_registerNewToken h hroom, hnext]
      by_cases hct : c' = c ∧ t' = t
      · rw [if_pos hct]
        intro _
        rw [hslot, if_pos rfl]
        exact ⟨Nat.lt_succ_self _, hct.2.symm, hct.1.symm⟩
      · rw [if_neg hct]
        intro hid
        obtain ⟨hlt, htoken, hclient⟩ := h.resolves c' t' hid
        rw [hslot, if_neg (Nat.ne_of_lt hlt)]
        exact ⟨hlt.trans (Nat.lt_succ_self _), htoken, hclient⟩
  · rw [registerNewToken_full hroom]
    exact h

end OrderTokenManager

namespace OuchLayout

variable {m : OrderTokenManager} (L : OuchLayout) (data : List UInt8)
  (c : ClientId)

/-- A new order is registered, unless there is no slot left. -/
theorem decodeEnter_cases (h : m.Sound) :
    L.decodeEnter data c m = (none, m) ∨
    ∃ r, L.decodeEnter data c m =
        (some r, (m.registerNewToken c r.orderToken r.tickerId).2) ∧
      m.HasRoom ∧ r.action = .new ∧ r.clientId = c ∧
      r.clientOrderId = m.nextInternalId ∧
      r.orderToken = tokenAt data L.enterToken ∧
      r.tickerId = L.stock data % 2 ^ 32 := by
  unfold decodeEnter
  dsimp only
  by_cases hroom : m.HasRoom
  · have hid := (OrderTokenManager.registerNewToken_fst hroom c
      (tokenAt data L.enterToken) (L.stock data % 2 ^ 32)).1
    rw [if_neg (by rw [hid]; exact Nat.ne_of_gt h.positive)]
    exact .inr ⟨_, rfl, hroom, rfl, rfl, hid, rfl, rfl⟩
  · rw [OrderTokenManager.registerNewToken_full hroom, if_pos rfl]
    exact .inl rfl

/-- A cancel names the order that its token resolves to. -/
theorem decodeCancel_cases :
    L.decodeCancel data c m = none ∨
    ∃ r, L.decodeCancel data c m = some r ∧
      r.action = .cancel ∧ r.clientId = c ∧
      r.orderToken = tokenAt data L.cancelToken ∧
      r.clientOrderId = m.getID c r.orderToken ∧ r.clientOrderId ≠ 0 ∧
      r.tickerId = (m.slot r.clientOrderId).tickerId ∧
      r.qty = L.cancelShares data := by
  unfold decodeCancel
  dsimp only
  split_ifs with hid
  · exact .inl rfl
  · exact .inr ⟨_, rfl, rfl, rfl, rfl, rfl, hid, rfl, rfl⟩

/-- The cancel of an order that its token resolves to is accepted. -/
theorem decodeOuch_cancel
    (hhead : data.head? = some L.cancelOrder)
    (hid : m.getID c (tokenAt data L.cancelToken) ≠ 0) :
    ∃ r, L.decodeOuch data c m = (some r, m) ∧
      r.action = .cancel ∧ r.clientId = c ∧
      r.clientOrderId = m.getID c (tokenAt data L.cancelToken) ∧
      r.tickerId = (m.slot r.clientOrderId).tickerId ∧
      r.qty = L.cancelShares data := by
  cases data with
  | nil => cases hhead
  | cons byte rest =>
      have hbyte : byte = L.cancelOrder := Option.some.inj hhead
      have hne : byte ≠ L.enterOrder := hbyte ▸ L.types_distinct.1.symm
      simp only [decodeOuch, if_neg hne, if_pos hbyte, decodeCancel,
        if_neg hid]
      exact ⟨_, rfl, rfl, rfl, rfl, rfl, rfl⟩

/-- The replacement of an order that its token resolves to is registered,
unless there is no slot left. -/
theorem decodeReplace_cases (h : m.Sound) :
    L.decodeReplace data c m = (none, m) ∨
    ∃ r, L.decodeReplace data c m =
        (some r, (m.registerNewToken c r.orderToken r.tickerId).2) ∧
      m.HasRoom ∧ r.action = .modify ∧ r.clientId = c ∧
      r.clientOrderId = m.getID c (tokenAt data L.replaceExistingToken) ∧
      r.clientOrderId ≠ 0 ∧ r.newClientOrderId = m.nextInternalId ∧
      r.orderToken = tokenAt data L.replaceReplacementToken ∧
      r.tickerId = (m.slot r.clientOrderId).tickerId := by
  unfold decodeReplace
  dsimp only
  split_ifs with hid hnew
  · exact .inl rfl
  · by_cases hroom : m.HasRoom
    · rw [(OrderTokenManager.registerNewToken_fst hroom c _ _).1] at hnew
      exact absurd hnew (Nat.ne_of_gt h.positive)
    · rw [OrderTokenManager.registerNewToken_full hroom]
      exact .inl rfl
  · by_cases hroom : m.HasRoom
    · exact .inr ⟨_, rfl, hroom, rfl, rfl, rfl, hid,
        (OrderTokenManager.registerNewToken_fst hroom c _ _).1, rfl, rfl⟩
    · rw [OrderTokenManager.registerNewToken_full hroom] at hnew
      exact absurd rfl hnew

/-- **What decoding a message can do**: turn it down, register a new order,
name an order to cancel, or register the replacement of an order. -/
theorem decodeOuch_cases (h : m.Sound) :
    L.decodeOuch data c m = (none, m) ∨
    (∃ r, data.head? = some L.enterOrder ∧ L.decodeOuch data c m =
        (some r, (m.registerNewToken c r.orderToken r.tickerId).2) ∧
      m.HasRoom ∧ r.action = .new ∧ r.clientId = c ∧
      r.clientOrderId = m.nextInternalId ∧
      r.orderToken = tokenAt data L.enterToken ∧
      r.tickerId = L.stock data % 2 ^ 32) ∨
    (∃ r, data.head? = some L.cancelOrder ∧
      L.decodeOuch data c m = (some r, m) ∧
      r.action = .cancel ∧ r.clientId = c ∧
      r.orderToken = tokenAt data L.cancelToken ∧
      r.clientOrderId = m.getID c r.orderToken ∧ r.clientOrderId ≠ 0 ∧
      r.tickerId = (m.slot r.clientOrderId).tickerId ∧
      r.qty = L.cancelShares data) ∨
    (∃ r, data.head? = some L.replaceOrder ∧ L.decodeOuch data c m =
        (some r, (m.registerNewToken c r.orderToken r.tickerId).2) ∧
      m.HasRoom ∧ r.action = .modify ∧ r.clientId = c ∧
      r.clientOrderId = m.getID c (tokenAt data L.replaceExistingToken) ∧
      r.clientOrderId ≠ 0 ∧ r.newClientOrderId = m.nextInternalId ∧
      r.orderToken = tokenAt data L.replaceReplacementToken ∧
      r.tickerId = (m.slot r.clientOrderId).tickerId) := by
  cases data with
  | nil => exact .inl rfl
  | cons byte rest =>
      unfold decodeOuch
      dsimp only
      split_ifs with henter hcancel hreplace
      · rcases L.decodeEnter_cases (byte :: rest) c h with hnone | ⟨r, hnew⟩
        · exact .inl hnone
        · exact .inr (.inl ⟨r, congrArg some henter, hnew⟩)
      · rcases L.decodeCancel_cases (byte :: rest) c (m := m) with
          hnone | ⟨r, hr, hcanceled⟩
        · exact .inl (by rw [hnone])
        · exact .inr (.inr (.inl ⟨r, congrArg some hcancel, by rw [hr],
            hcanceled⟩))
      · rcases L.decodeReplace_cases (byte :: rest) c h with
          hnone | ⟨r, hreplaced⟩
        · exact .inl hnone
        · exact .inr (.inr (.inr ⟨r, congrArg some hreplace, hreplaced⟩))
      · exact .inl rfl

theorem sound_decodeOuch (h : m.Sound) : (L.decodeOuch data c m).2.Sound := by
  rcases L.decodeOuch_cases data c h with
    heq | ⟨r, -, heq, -⟩ | ⟨r, -, heq, -⟩ | ⟨r, -, heq, -⟩ <;> rw [heq]
  · exact h
  · exact h.registerNewToken _ _ _
  · exact h
  · exact h.registerNewToken _ _ _

end OuchLayout

end NanoExchange
