import NanoExchange.Gateway.Routing
import NanoExchange.Lib.Framing

/-!
# Framing of client messages

TCP delivers the bytes of a client in pieces of any size.  `onRecv` cuts the
messages out of the receive buffer and keeps the rest for the next call.

`framingLoop` is the loop of `onRecv` with any treatment of a message; with
`onMessage` it is `onRecvLoop`, and with one that writes the messages down it
tells which slices of the buffer are passed to `decodeOuch`.  By
`framingLoop_eq` it goes through the frames of the buffer.
-/

namespace NanoExchange

open Lib

namespace OrderServer

section Loop

variable (L : OuchLayout) {σ : Type}

/-- The loop of `onRecv`, with a treatment of the messages. -/
def framingLoop (handle : σ → List UInt8 → Except Fault σ) :
    Nat → List UInt8 → σ → Except Fault (σ × List UInt8)
  | _, [], s => .ok (s, [])
  | 0, _ :: _, _ => .error .outOfFuel
  | fuel + 1, t :: rest, s =>
      let msgLen := L.ouchMsgSize t
      if msgLen = 0 then framingLoop handle fuel rest s
      else if (t :: rest).length < msgLen then .ok (s, t :: rest)
      else do
        let s ← handle s ((t :: rest).take msgLen)
        framingLoop handle fuel ((t :: rest).drop msgLen) s

theorem onRecvLoop_eq_framingLoop
    (env : Surroundings) (cid : ClientId) (kernelTime fuel : Nat)
    (data : List UInt8) (s : OrderServer) :
    onRecvLoop L env cid kernelTime fuel data s =
      framingLoop L (fun s m => s.onMessage L env cid kernelTime m) fuel data
        s := by
  induction fuel generalizing data s with
  | zero => cases data <;> rfl
  | succ fuel ih =>
      cases data with
      | nil => rfl
      | cons t rest => simp only [onRecvLoop, framingLoop, ih]

/-- **The loop treats the frames of the buffer one after the other.** -/
theorem framingLoop_eq
    {handle : σ → List UInt8 → Except Fault σ} {fuel : Nat}
    {data : List UInt8} (hfuel : data.length ≤ fuel) (s : σ) :
    framingLoop L handle fuel data s =
      (Framing.frames L.ouchMsgSize data).1.foldlM handle s >>= fun s =>
        .ok (s, (Framing.frames L.ouchMsgSize data).2) := by
  induction data using Framing.frames_induction L.ouchMsgSize
    generalizing fuel s with
  | hnil =>
      rw [framingLoop, Framing.frames_nil, List.foldlM_nil]
      rfl
  | hskip t rest hzero ih =>
      obtain ⟨fuel, rfl⟩ := Nat.exists_eq_succ_of_ne_zero
        (Nat.ne_of_gt (Nat.lt_of_lt_of_le (Nat.succ_pos _) hfuel))
      rw [framingLoop, if_pos hzero, ih (Nat.le_of_succ_le_succ hfuel),
        Framing.frames_skip hzero]
  | hshort t rest hlt =>
      obtain ⟨fuel, rfl⟩ := Nat.exists_eq_succ_of_ne_zero
        (Nat.ne_of_gt (Nat.lt_of_lt_of_le (Nat.succ_pos _) hfuel))
      have hzero : L.ouchMsgSize t ≠ 0 := Nat.ne_of_gt (Nat.zero_lt_of_lt hlt)
      rw [framingLoop, if_neg hzero, if_pos hlt, Framing.frames_short hlt,
        List.foldlM_nil]
      rfl
  | hmessage t rest hzero hlt ih =>
      obtain ⟨fuel, rfl⟩ := Nat.exists_eq_succ_of_ne_zero
        (Nat.ne_of_gt (Nat.lt_of_lt_of_le (Nat.succ_pos _) hfuel))
      have hdrop := Framing.length_drop_lt hzero rest
      rw [framingLoop, if_neg hzero, if_neg hlt,
        Framing.frames_message hzero hlt, List.foldlM_cons]
      cases handle s ((t :: rest).take (L.ouchMsgSize t)) with
      | error e => rfl
      | ok s₁ =>
          rw [ok_bind, ok_bind]
          exact ih (hdrop.trans (Nat.le_of_succ_le_succ hfuel)) s₁

end Loop

/-- **What staging and publishing leave alone**: everything but the sequencer
and the request queue. -/
structure SameSockets (s s' : OrderServer) : Prop where
  inbound : s'.inbound = s.inbound
  fdToClientId : s'.fdToClientId = s.fdToClientId
  clientToSocket : s'.clientToSocket = s.clientToSocket
  nextClientId : s'.nextClientId = s.nextClientId

variable (L : OuchLayout) (env : Surroundings)

theorem stage_sameSockets
    {s s' : OrderServer} {x : RecvClientRequest}
    (h : s.stage env x = .ok s') : SameSockets s s' := by
  unfold stage at h
  split at h
  · obtain rfl := Except.ok.inj h
    exact ⟨rfl, rfl, rfl, rfl⟩
  · dsimp only at h
    split at h
    · obtain rfl := Except.ok.inj h
      exact ⟨rfl, rfl, rfl, rfl⟩
    · split at h
      · obtain rfl := Except.ok.inj h
        exact ⟨rfl, rfl, rfl, rfl⟩
      · cases h

/-- One message after another is decoded: the requests with their messages,
and the registry after them. -/
def decodeAll (cid : ClientId) (tokens : OrderTokenManager)
    (messages : List (List UInt8)) :
    List (MEClientRequest × List UInt8) × OrderTokenManager :=
  messages.foldl (fun st message =>
    let res := L.decodeOuch message cid st.2
    (st.1 ++ res.1.toList.map fun r => (r, message), res.2)) ([], tokens)

/-- A request and its message, without the time. -/
def payload (x : RecvClientRequest) : MEClientRequest × List UInt8 :=
  (x.request, x.message)

/-- The registry and the history after messages of client `cid`. -/
structure Decodes (cid : ClientId) (messages : List (List UInt8))
    (s s' : OrderServer) : Prop where
  fits : s'.fifo.Fits
  tokenManager : s'.tokenManager =
    (decodeAll L cid s.tokenManager messages).2
  decoded : s'.decoded.map payload = s.decoded.map payload ++
    (decodeAll L cid s.tokenManager messages).1

variable {L} {cid : ClientId} {s s' : OrderServer}

theorem foldl_decode_prefix
    (reqs : List (MEClientRequest × List UInt8)) (tokens : OrderTokenManager)
    (messages : List (List UInt8)) :
    messages.foldl (fun st message =>
        let res := L.decodeOuch message cid st.2
        (st.1 ++ res.1.toList.map fun r => (r, message), res.2))
        (reqs, tokens) =
      (reqs ++ (decodeAll L cid tokens messages).1,
        (decodeAll L cid tokens messages).2) := by
  induction messages generalizing reqs tokens with
  | nil => simp [decodeAll]
  | cons m messages ih =>
      rw [decodeAll, List.foldl_cons, List.foldl_cons, ih, ih]
      simp

theorem decodeAll_append
    (tokens : OrderTokenManager) (ms ms' : List (List UInt8)) :
    decodeAll L cid tokens (ms ++ ms') =
      ((decodeAll L cid tokens ms).1 ++
          (decodeAll L cid (decodeAll L cid tokens ms).2 ms').1,
        (decodeAll L cid (decodeAll L cid tokens ms).2 ms').2) := by
  unfold decodeAll
  rw [List.foldl_append]
  exact foldl_decode_prefix _ _ ms'

theorem Decodes.refl (hfits : s.fifo.Fits) : Decodes L cid [] s s where
  fits := hfits
  tokenManager := rfl
  decoded := by simp [decodeAll]

theorem Decodes.trans
    {s₁ : OrderServer} {ms ms' : List (List UInt8)}
    (h : Decodes L cid ms s s₁) (h' : Decodes L cid ms' s₁ s') :
    Decodes L cid (ms ++ ms') s s' where
  fits := h'.fits
  tokenManager := by
    rw [h'.tokenManager, h.tokenManager, decodeAll_append]
  decoded := by
    rw [h'.decoded, h.decoded, h.tokenManager, decodeAll_append,
      List.append_assoc]

variable (cid) in
/-- One message of `onRecv`. -/
theorem onMessage_decodes
    (hfits : s.fifo.Fits) (kernelTime : Nat) (message : List UInt8) :
    ∃ s', s.onMessage L env cid kernelTime message = .ok s' ∧
      Decodes L cid [message] s s' ∧ SameSockets s s' := by
  unfold onMessage
  dsimp only
  cases hres : (L.decodeOuch message cid s.tokenManager).1 with
  | none =>
      refine ⟨_, rfl, ⟨hfits, ?_, ?_⟩, rfl, rfl, rfl, rfl⟩
      · simp [decodeAll]
      · simp [decodeAll, hres]
  | some r =>
      dsimp only
      obtain ⟨s', hs', hmoves⟩ := stage_ok env (s := { s with
        tokenManager := (L.decodeOuch message cid s.tokenManager).2
        decoded := s.decoded ++ [⟨kernelTime, r, message⟩] }) hfits
        ⟨kernelTime, r, message⟩
      have hsockets := stage_sameSockets env hs'
      refine ⟨s', hs', ⟨hmoves.fits, ?_, ?_⟩, hsockets.inbound,
        hsockets.fdToClientId, hsockets.clientToSocket, hsockets.nextClientId⟩
      · rw [hmoves.tokenManager]
        simp [decodeAll]
      · rw [hmoves.decoded]
        simp [decodeAll, hres, payload]

variable (cid) in
theorem foldlM_onMessage_decodes
    (hfits : s.fifo.Fits) (kernelTime : Nat) (messages : List (List UInt8)) :
    ∃ s', messages.foldlM
        (fun s m => s.onMessage L env cid kernelTime m) s = .ok s' ∧
      Decodes L cid messages s s' ∧ SameSockets s s' := by
  induction messages generalizing s with
  | nil => exact ⟨s, rfl, .refl hfits, rfl, rfl, rfl, rfl⟩
  | cons m messages ih =>
      obtain ⟨s₁, hs₁, h₁, hsame₁⟩ :=
        onMessage_decodes (L := L) env cid hfits kernelTime m
      obtain ⟨s', hs', h', hsame'⟩ := ih h₁.fits
      refine ⟨s', ?_, h₁.trans h', hsame'.inbound.trans hsame₁.inbound,
        hsame'.fdToClientId.trans hsame₁.fdToClientId,
        hsame'.clientToSocket.trans hsame₁.clientToSocket,
        hsame'.nextClientId.trans hsame₁.nextClientId⟩
      rw [List.foldlM_cons, hs₁, ok_bind, hs']

variable (s) in
/-- The client that a socket has, or will have when its first bytes
arrive. -/
def clientOf (fd : Nat) : ClientId :=
  (s.fdToClientId fd).getD s.nextClientId

variable (s) in
/-- The gateway after the check at the beginning of `onRecv`. -/
def withClient (fd : Nat) : OrderServer :=
  if s.fdToClientId fd = none then s.registerClient fd else s

theorem withClient_eq (s : OrderServer) (fd : Nat) :
    (s.withClient fd).fdToClientId fd = some (s.clientOf fd) ∧
      (s.withClient fd).inbound = s.inbound ∧
      (s.withClient fd).fifo = s.fifo ∧
      (s.withClient fd).tokenManager = s.tokenManager ∧
      (s.withClient fd).decoded = s.decoded := by
  unfold withClient clientOf
  by_cases hnone : s.fdToClientId fd = none
  · rw [if_pos hnone]
    simp [registerClient, hnone]
  · obtain ⟨cid, hcid⟩ := Option.ne_none_iff_exists'.mp hnone
    rw [if_neg hnone, hcid]
    simp

/-- `onRecv` treats the frames of the receive buffer. -/
theorem onRecv_eq (s : OrderServer) (fd kernelTime : Nat) :
    s.onRecv L env fd kernelTime =
      (Framing.frames L.ouchMsgSize (s.inbound fd)).1.foldlM
        (fun s' m => s'.onMessage L env (s.clientOf fd) kernelTime m)
        (s.withClient fd) >>= fun s' => .ok { s' with
          inbound := Function.update s'.inbound fd
            (Framing.frames L.ouchMsgSize (s.inbound fd)).2 } := by
  obtain ⟨hclient, hinbound, -⟩ := s.withClient_eq fd
  unfold OrderServer.onRecv
  dsimp only
  rw [show (if s.fdToClientId fd = none then s.registerClient fd else s) =
      s.withClient fd from rfl, hclient, Option.getD_some, hinbound,
    onRecvLoop_eq_framingLoop, framingLoop_eq L le_rfl, bind_assoc]
  rfl

variable (s) in
/-- The gateway when bytes have arrived on a socket, and the socket has its
client. -/
def arrive (fd : Nat) (bytes : List UInt8) : OrderServer :=
  { s with
    inbound :=
      Function.update s.inbound fd (s.inbound fd ++ bytes) }.withClient fd

theorem arrive_eq (s : OrderServer) (fd : Nat) (bytes : List UInt8) :
    s.arrive fd bytes = { s.withClient fd with
      inbound := Function.update s.inbound fd (s.inbound fd ++ bytes) } := by
  unfold arrive withClient
  split_ifs <;> rfl

/-- **A call of `onRecv` for bytes that have arrived.** -/
theorem recv_eq
    (s : OrderServer) (fd : Nat) (bytes : List UInt8) (kernelTime : Nat) :
    s.step L env (.recv fd bytes kernelTime) =
      (Framing.frames L.ouchMsgSize (s.inbound fd ++ bytes)).1.foldlM
        (fun s' m => s'.onMessage L env (s.clientOf fd) kernelTime m)
        (s.arrive fd bytes) >>= fun s' => .ok { s' with
          inbound := Function.update s'.inbound fd
            (Framing.frames L.ouchMsgSize (s.inbound fd ++ bytes)).2 } := by
  show OrderServer.onRecv L env _ fd kernelTime = _
  rw [onRecv_eq]
  simp only [Function.update_self]
  rfl

theorem recv_decodes
    (hfits : s.fifo.Fits) (fd : Nat) (bytes : List UInt8) (kernelTime : Nat) :
    ∃ s', s.step L env (.recv fd bytes kernelTime) = .ok s' ∧
      Decodes L (s.clientOf fd)
        (Framing.frames L.ouchMsgSize (s.inbound fd ++ bytes)).1 s s' ∧
      s'.inbound = Function.update s.inbound fd
        (Framing.frames L.ouchMsgSize (s.inbound fd ++ bytes)).2 ∧
      s'.clientOf fd = s.clientOf fd := by
  obtain ⟨hclient, hinbound, hfifo, htokens, hdecoded⟩ :=
    withClient_eq { s with
      inbound := Function.update s.inbound fd (s.inbound fd ++ bytes) } fd
  obtain ⟨s₂, hs₂, h₂, hsame⟩ :=
    foldlM_onMessage_decodes (L := L) env (s.clientOf fd)
      (show (s.arrive fd bytes).fifo.Fits by rw [arrive, hfifo]; exact hfits)
      kernelTime (Framing.frames L.ouchMsgSize (s.inbound fd ++ bytes)).1
  rw [recv_eq, hs₂, ok_bind]
  rw [← arrive] at hclient hinbound htokens hdecoded
  refine ⟨_, rfl, ⟨h₂.fits, ?_, ?_⟩, ?_, ?_⟩
  · exact h₂.tokenManager.trans (by rw [htokens])
  · exact h₂.decoded.trans (by rw [hdecoded, htokens])
  · dsimp only
    rw [hsame.inbound, hinbound, Function.update_idem]
  · simp only [clientOf]
    rw [hsame.fdToClientId, hclient, Option.getD_some]
    rfl

variable (L) in
/-- The slices of a buffer that the loop of `onRecv` passes to `decodeOuch`. -/
def slices (data : List UInt8) : Except Fault (List (List UInt8)) := do
  let (messages, _) ← framingLoop L
    (fun messages message => .ok (messages ++ [message])) data.length data []
  .ok messages

theorem foldlM_record (log messages : List (List UInt8)) :
    messages.foldlM (fun log m => .ok (log ++ [m]) :
      List (List UInt8) → List UInt8 → Except Fault _) log =
      .ok (log ++ messages) := by
  induction messages generalizing log with
  | nil => simp [pure, Except.pure]
  | cons m messages ih => rw [List.foldlM_cons, ok_bind, ih]; simp

theorem slices_eq (data : List UInt8) :
    slices L data = .ok (Framing.frames L.ouchMsgSize data).1 := by
  rw [slices, framingLoop_eq L le_rfl, foldlM_record]
  rfl

variable (L) in
/-- A piece of the stream of socket `fd` arrives and `onRecv` is called; the
second component keeps the slices passed to `decodeOuch`. -/
def receive (fd : Nat) (st : OrderServer × List (List UInt8))
    (piece : List UInt8 × Nat) :
    Except Fault (OrderServer × List (List UInt8)) := do
  let messages ← slices L (st.1.inbound fd ++ piece.1)
  let s ← st.1.step L env (.recv fd piece.1 piece.2)
  .ok (s, st.2 ++ messages)

variable (L) in
/-- What has become of the bytes `stream` of socket `fd`. -/
structure Received (fd : Nat) (s₀ : OrderServer) (stream : List UInt8)
    (st : OrderServer × List (List UInt8)) : Prop where
  messages : st.2 = (Framing.frames L.ouchMsgSize stream).1
  left : st.1.inbound fd = (Framing.frames L.ouchMsgSize stream).2
  client : st.1.clientOf fd = s₀.clientOf fd
  decodes : Decodes L (s₀.clientOf fd) st.2 s₀ st.1

theorem Received.receive
    {fd : Nat} {s₀ : OrderServer} {stream : List UInt8}
    {st : OrderServer × List (List UInt8)} (h : Received L fd s₀ stream st)
    (piece : List UInt8 × Nat) :
    ∃ st', receive L env fd st piece = .ok st' ∧
      Received L fd s₀ (stream ++ piece.1) st' := by
  obtain ⟨s', hs', hdecodes, hinbound, hclient⟩ :=
    recv_decodes (L := L) env h.decodes.fits fd piece.1 piece.2
  refine ⟨(s', st.2 ++
      (Framing.frames L.ouchMsgSize (st.1.inbound fd ++ piece.1)).1), ?_, ?_,
    ?_, hclient.trans h.client, ?_⟩
  · rw [OrderServer.receive, slices_eq, ok_bind, hs', ok_bind]
  · dsimp only
    rw [Framing.frames_append stream, ← h.messages, ← h.left]
  · dsimp only
    rw [hinbound, Function.update_self, Framing.frames_append stream,
      ← h.left]
  · rw [h.client] at hdecodes
    exact h.decodes.trans hdecodes

/-- A stream in pieces. -/
theorem received_of_pieces
    {s₀ : OrderServer} (hfits : s₀.fifo.Fits) {fd : Nat}
    (hempty : s₀.inbound fd = []) (pieces : List (List UInt8 × Nat)) :
    ∃ st, pieces.foldlM (receive L env fd) (s₀, []) = .ok st ∧
      Received L fd s₀ (pieces.map Prod.fst).flatten st := by
  induction pieces using List.reverseRecOn with
  | nil => exact ⟨_, rfl, rfl, hempty, rfl, .refl hfits⟩
  | append_singleton pieces piece ih =>
      obtain ⟨st, hst, h⟩ := ih
      obtain ⟨st', hst', h'⟩ := h.receive env piece
      refine ⟨st', ?_, ?_⟩
      · rw [List.foldlM_append, hst, ok_bind, List.foldlM_cons, hst', ok_bind]
        rfl
      · simpa using h'

/-- **Framing is independent of TCP segmentation.**  A client connects to a
gateway that has made any run.  However its stream is split into pieces, the
slices passed to `decodeOuch`, the requests decoded from them, the registry
and the bytes left in the buffer are those of the stream in one piece; the
slices are the greedy parse of the stream, and what is left is empty or lacks
bytes to be a message. -/
theorem framing_independent_of_segmentation
    (L : OuchLayout) (env : Surroundings) {fifoPending tokenPoolSz : Nat}
    {inputs : List Input} {s : OrderServer}
    (hs : run L env fifoPending tokenPoolSz inputs = .ok s) {fd : Nat}
    (hempty : s.inbound fd = []) (pieces : List (List UInt8 × Nat))
    (time : Nat) :
    ∃ s₁ s₂ messages,
      pieces.foldlM (receive L env fd) (s, []) = .ok (s₁, messages) ∧
      receive L env fd (s, []) ((pieces.map Prod.fst).flatten, time) =
        .ok (s₂, messages) ∧
      messages =
        (Framing.frames L.ouchMsgSize (pieces.map Prod.fst).flatten).1 ∧
      s₁.decoded.map payload = s₂.decoded.map payload ∧
      s₁.decoded.map payload = s.decoded.map payload ++
        (decodeAll L (s.clientOf fd) s.tokenManager messages).1 ∧
      s₁.tokenManager = s₂.tokenManager ∧
      s₁.inbound fd = s₂.inbound fd ∧
      (s₁.inbound fd = [] ∨ ∃ more, more ≠ [] ∧
        Framing.Complete L.ouchMsgSize (s₁.inbound fd ++ more)) := by
  obtain ⟨s', hs', hinv⟩ :=
    run_inv env L (fun _ => True) fifoPending tokenPoolSz inputs
  obtain rfl := Except.ok.inj (hs'.symm.trans hs)
  obtain ⟨⟨s₁, messages⟩, hpieces, h₁⟩ :=
    received_of_pieces (L := L) env hinv.fits hempty pieces
  have hstart : Received L fd s' [] (s', []) :=
    ⟨rfl, hempty, rfl, .refl hinv.fits⟩
  obtain ⟨⟨s₂, messages₂⟩, hone, h₂⟩ :=
    hstart.receive env ((pieces.map Prod.fst).flatten, time)
  rw [List.nil_append] at h₂
  have hmessages : messages₂ = messages := h₂.messages.trans h₁.messages.symm
  subst hmessages
  refine ⟨s₁, s₂, messages₂, hpieces, hone, h₁.messages, ?_,
    h₁.decodes.decoded, ?_, h₁.left.trans h₂.left.symm, ?_⟩
  · exact h₁.decodes.decoded.trans h₂.decodes.decoded.symm
  · exact h₁.decodes.tokenManager.trans h₂.decodes.tokenManager.symm
  · have hleft : s₁.inbound fd = _ := h₁.left
    rw [hleft]
    rcases Framing.frames_left L.ouchMsgSize (pieces.map Prod.fst).flatten
      with hnil | ⟨t, rest, htail, hlt⟩
    · exact .inl hnil
    · right
      refine ⟨List.replicate (L.ouchMsgSize t - (t :: rest).length) 0, ?_,
        t, rest ++ List.replicate (L.ouchMsgSize t - (t :: rest).length) 0, ?_,
        ?_⟩
      · rw [← List.length_pos_iff, List.length_replicate]
        omega
      · rw [htail, List.cons_append]
      · rw [htail, List.length_append, List.length_replicate]
        omega

/-- An ENTER_ORDER behind a byte of no message, cut in its middle. -/
theorem framing_independent_of_segmentation_example :
    ∃ s₁ s₂ messages,
      [([(0 : UInt8)] ++ (enterOrderMessage 1).take 20, 5),
        ((enterOrderMessage 1).drop 20, 9)].foldlM
        (receive OuchLayout.packed Surroundings.roomy 7)
        (init 16 16, []) = .ok (s₁, messages) ∧
      receive OuchLayout.packed Surroundings.roomy 7 (init 16 16, [])
        (([([(0 : UInt8)] ++ (enterOrderMessage 1).take 20, 5),
          ((enterOrderMessage 1).drop 20, 9)].map Prod.fst).flatten, 11) =
        .ok (s₂, messages) ∧
      s₁.tokenManager = s₂.tokenManager := by
  have hrun : run OuchLayout.packed Surroundings.roomy 16 16 [] =
      .ok (init 16 16) := rfl
  have hempty : (init 16 16).inbound 7 = [] := rfl
  obtain ⟨s₁, s₂, messages, h₁, h₂, -, -, -, htokens, -⟩ :=
    framing_independent_of_segmentation OuchLayout.packed Surroundings.roomy
      hrun hempty
      [([(0 : UInt8)] ++ (enterOrderMessage 1).take 20, 5),
        ((enterOrderMessage 1).drop 20, 9)] 11
  exact ⟨s₁, s₂, messages, h₁, h₂, htokens⟩

end OrderServer

end NanoExchange
