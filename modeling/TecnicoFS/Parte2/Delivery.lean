-- Every request reaches its handler as the client meant it: the receiver splits the bytes
-- on the pipe of the server into the messages that were written, in their order, and the
-- handler reads the arguments of the client out of the buffer of the session.
import TecnicoFS.Lib.Framing
import TecnicoFS.Lib.Steps
import TecnicoFS.Parte2.Decoding
import TecnicoFS.Parte2.Server

open byte_memory framing

namespace tecnicofs.parte2

/-! ## The clients and the receiver -/

/-- A request of a client, with the session that the client has. -/
structure Issued where
  session_id : Int
  call : Call

/-- A message on the pipe of the server. -/
structure Sent where
  client : Nat
  request : Issued
  bytes : List UInt8

/-- What came of a message: the handler ran with a session and its arguments, or the client was
told that there is no session for it. -/
inductive Outcome
  | ran (sessionID : Int) (args : Call)
  | refused (client_pipe_name : CString)
  deriving DecidableEq

/-- The bytes of a round of the receiver, the session that was free in it, and what came of them,
unless the behaviour is undefined. -/
structure Taken where
  bytes : List UInt8
  availableSession : Option Nat
  outcome : Option Outcome

/-- The requests that the clients are still to issue, the pipe of the server, the variables of the
receiver, the buffers of the sessions and of their workers, and the history. -/
structure Wire where
  todo : Nat → List Issued
  pipe : List UInt8
  vars : ReceiverVars
  info : Nat → Memory
  buffer : Nat → Memory
  sent : List Sent
  taken : List Taken

inductive WireStep
  /-- A client issues its next request. `buffer` is what its stack held. -/
  | issue (c : Nat) (buffer : Memory)
  /-- A round of the receiver, with what lies behind the pipe, the session that
  `getAvailableSession` has for a mount, and the handler on the buffer of the session. -/
  | receive (pipeEnd : PipeEnd) (availableSession : Option Nat) (newBuffer : Memory)

/-- `writeToBufferPC`, and the request of the session in the hands of its worker. The arrays have
`S` elements. -/
def Wire.run (s : Wire) (sessionID : Int) (bytes : List UInt8) : Option Outcome × Wire :=
  if 0 ≤ sessionID ∧ sessionID < S then
    let i := sessionID.toNat
    let info := store (s.info i) 0 bytes
    let buffer := readFromBufferPC (s.buffer i) info
    ((runClientRequest buffer).map fun r => .ran r.1 r.2,
      { s with
        info := Function.update s.info i info
        buffer := Function.update s.buffer i buffer })
  else (none, s)

def Wire.deliver (s : Wire) : Option Delivery → Option Outcome × Wire
  | none => (none, s)
  | some (.refuse client_pipe_name) => (some (.refused client_pipe_name), s)
  | some (.put sessionID bytes) => s.run sessionID bytes

def wireStep (s : Wire) : WireStep → Option Wire
  | .issue c buffer =>
    match s.todo c with
    | [] => none
    | r :: rest =>
      let bytes := r.call.message buffer r.session_id
      some { s with
        todo := Function.update s.todo c rest
        pipe := s.pipe ++ bytes
        sent := s.sent ++ [⟨c, r, bytes⟩] }
  | .receive pipeEnd availableSession newBuffer =>
    if ∃ i ∈ availableSession, S ≤ i then none
    else
      (readMessage pipeEnd s.vars s.pipe).bind fun r =>
        let bytes := s.pipe.take (s.pipe.length - r.2.2.length)
        let s := { s with vars := r.2.1, pipe := r.2.2 }
        match r.1 with
        | .skipped => some s
        | .opCode opCode =>
          let d := s.deliver (parte2.deliver opCode s.vars.bufferIn newBuffer availableSession)
          some { d.2 with taken := s.taken ++ [⟨bytes, availableSession, d.1⟩] }
        | .exited => none

/-- Nothing was sent yet. What lies in the buffers does not matter. -/
def FirstWire (todo : Nat → List Issued) (s : Wire) : Prop :=
  s.todo = todo ∧ s.pipe = [] ∧ s.sent = [] ∧ s.taken = []

/-! ## The law -/

/-- The arguments fit in the message, and the session is one that a mount has given. -/
def Issued.Proper (r : Issued) : Prop :=
  r.call.Fits ∧ (r.call.opCode ≠ .mount → 0 ≤ r.session_id ∧ r.session_id < S)

/-- What is to come of a request. -/
def Issued.expected (r : Issued) (availableSession : Option Nat) : Outcome :=
  match r.call, availableSession with
  | .tfsMount client_pipe_path, none => .refused client_pipe_path
  | .tfsMount client_pipe_path, some i => .ran i (.tfsMount client_pipe_path)
  | args, _ => .ran r.session_id args

/-- The receiver took exactly the bytes of the message, and its handler had the arguments of the
client. -/
def Recovered (m : Sent) (t : Taken) : Prop :=
  t.bytes = m.bytes ∧ t.outcome = some (m.request.expected t.availableSession)

/-- The messages that were taken are the first ones that were sent, and the rest lies in the pipe.
A client can issue its next request, which puts the message behind the others. The receiver can
take the next message when there is one, and takes all of it. Each client has sent its requests in
order. -/
structure Delivered (todo : Nat → List Issued) (s : Wire) : Prop where
  recovered : ∀ (k : Nat) (t : Taken), s.taken[k]? = some t →
    ∃ m, s.sent[k]? = some m ∧ Recovered m t
  rest : s.pipe = ((s.sent.drop s.taken.length).map Sent.bytes).flatten
  issue : ∀ c r rest, s.todo c = r :: rest → ∀ buffer, ∃ s',
    wireStep s (.issue c buffer) = some s' ∧
      s'.pipe = s.pipe ++ r.call.message buffer r.session_id ∧
      s'.sent = s.sent ++ [⟨c, r, r.call.message buffer r.session_id⟩] ∧ s'.taken = s.taken
  next : s.taken.length < s.sent.length → ∀ pipeEnd availableSession newBuffer,
    (∀ i ∈ availableSession, i < S) → ∃ s',
      wireStep s (.receive pipeEnd availableSession newBuffer) = some s' ∧
        s'.taken.length = s.taken.length + 1
  order : ∀ c, (s.sent.filter fun m => m.client = c).map Sent.request ++ s.todo c = todo c

/-! ## One message -/

theorem expected_mount {r : Issued} {p : CString} (hr : r.call = .tfsMount p) (i : Option Nat) :
    r.expected i = match i with
      | none => .refused p
      | some i => .ran i (.tfsMount p) := by
  unfold Issued.expected
  rw [hr]
  cases i <;> rfl

theorem expected_call {r : Issued} (hr : r.call.opCode ≠ .mount) (i : Option Nat) :
    r.expected i = .ran r.session_id r.call := by
  unfold Issued.expected
  split
  · rename_i h
    exact absurd (congrArg Call.opCode h) hr
  · rename_i h
    exact absurd (congrArg Call.opCode h) hr
  · rfl

/-- A session of the server has room in an `int`. -/
theorem session_fits {i : Int} (h0 : 0 ≤ i) (hS : i < S) : FitsInt i := by
  unfold FitsInt S at *
  omega

theorem Wire.run_fst (s : Wire) {sessionID : Int} (h0 : 0 ≤ sessionID) (hS : sessionID < S)
    (bytes : List UInt8) :
    (s.run sessionID bytes).1 =
      (runClientRequest (readFromBufferPC (s.buffer sessionID.toNat)
        (store (s.info sessionID.toNat) 0 bytes))).map fun r => .ran r.1 r.2 := by
  unfold Wire.run
  rw [if_pos ⟨h0, hS⟩]

/-- What the receiver does with a message brings the arguments to the handler. -/
theorem Wire.deliver_message (s : Wire) {r : Issued} (hr : r.Proper) (buffer newBuffer : Memory)
    {bufferIn : Memory} (hm : SameBelow r.call.opCode.messageSize bufferIn
      (r.call.fill buffer r.session_id)) {availableSession : Option Nat}
    (hfree : ∀ i ∈ availableSession, i < S) :
    (s.deliver (parte2.deliver r.call.opCode.code bufferIn newBuffer availableSession)).1 =
      some (r.expected availableSession) := by
  obtain ⟨hfits, hsess⟩ := hr
  by_cases hc : r.call.opCode = .mount
  · obtain ⟨p, hp⟩ : ∃ p, r.call = .tfsMount p := by
      cases hcall : r.call <;> first | exact ⟨_, rfl⟩ | (rw [hcall] at hc; cases hc)
    rw [hp] at hm hfits
    rw [hc, deliver_mount newBuffer hfits hm, expected_mount hp]
    cases availableSession with
    | none => rfl
    | some i =>
      have hi : i < S := hfree i rfl
      have hint : FitsInt i := session_fits (by omega) (by omega)
      have hrun := runClientRequest_mount newBuffer hint hfits
        (sameBelow_readFromBufferPC (s.buffer i) (s.info i)
          (store (storeInt (store newBuffer 0 [1]) 1 i) 5 p.bytes) (by decide))
      simp only [Wire.deliver, Wire.run_fst s (Int.natCast_nonneg i) (by omega),
        Int.toNat_natCast, hrun, Option.map_some]
  · obtain ⟨h0, hS⟩ := hsess hc
    have hint := session_fits h0 hS
    have hrun := runClientRequest_message hint hfits hc
      (sameBelow_readFromBufferPC (s.buffer r.session_id.toNat) (s.info r.session_id.toNat)
        (r.call.fill buffer r.session_id) (messageSize_le r.call.opCode).2)
    rw [deliver_call newBuffer hint h0 hc hm, expected_call hc]
    simp only [Wire.deliver, Wire.run_fst s h0 hS, Call.message, hrun, Option.map_some]

theorem Wire.run_keeps (s : Wire) (sessionID : Int) (bytes : List UInt8) :
    (s.run sessionID bytes).2.todo = s.todo ∧ (s.run sessionID bytes).2.pipe = s.pipe ∧
      (s.run sessionID bytes).2.sent = s.sent := by
  unfold Wire.run
  split <;> exact ⟨rfl, rfl, rfl⟩

theorem Wire.deliver_keeps (s : Wire) (d : Option Delivery) :
    (s.deliver d).2.todo = s.todo ∧ (s.deliver d).2.pipe = s.pipe ∧
      (s.deliver d).2.sent = s.sent := by
  rcases d with _ | d
  · exact ⟨rfl, rfl, rfl⟩
  · cases d with
    | refuse p => exact ⟨rfl, rfl, rfl⟩
    | put i bytes => exact s.run_keeps i bytes

/-- A round of the receiver with a message at the head of the pipe takes just this message. -/
theorem receive_message {s : Wire} {r : Issued} (hr : r.Proper) (pipeEnd : PipeEnd)
    (buffer newBuffer : Memory) {rest : List UInt8}
    (hpipe : s.pipe = r.call.message buffer r.session_id ++ rest) {availableSession : Option Nat}
    (hfree : ∀ i ∈ availableSession, i < S) :
    ∃ s', wireStep s (.receive pipeEnd availableSession newBuffer) = some s' ∧ s'.todo = s.todo ∧
      s'.sent = s.sent ∧ s'.pipe = rest ∧
      s'.taken = s.taken ++ [⟨r.call.message buffer r.session_id, availableSession,
        some (r.expected availableSession)⟩] := by
  obtain ⟨v, hread, hm⟩ := readMessage_message pipeEnd s.vars buffer r.session_id r.call rest
  have hno : ¬ ∃ i ∈ availableSession, S ≤ i := by
    rintro ⟨i, hi, hS⟩
    exact absurd (hfree i hi) (by omega)
  have hbytes : s.pipe.take (s.pipe.length - rest.length) = r.call.message buffer r.session_id := by
    rw [hpipe, List.length_append, Nat.add_sub_cancel, List.take_left]
  rw [← hpipe] at hread
  have hout := Wire.deliver_message { s with vars := v, pipe := rest } hr buffer newBuffer hm hfree
  have hkeep := Wire.deliver_keeps { s with vars := v, pipe := rest }
    (parte2.deliver r.call.opCode.code v.bufferIn newBuffer availableSession)
  simp only [wireStep, if_neg hno, hread, Option.bind_some, hbytes, hout]
  exact ⟨_, rfl, hkeep.1, hkeep.2.2, hkeep.2.1, rfl⟩

/-! ## Runs -/

/-- The invariant: what is in the pipe are whole messages of proper requests. -/
structure Wire.Inv (todo : Nat → List Issued) (s : Wire) : Prop where
  inFlight : InFlight (fun a => getClientInfoMaxSize a 0 true) Sent.bytes s.pipe s.sent
    s.taken.length
  message : ∀ m ∈ s.sent, m.request.Proper ∧
    ∃ buffer, m.bytes = m.request.call.message buffer m.request.session_id
  proper : ∀ c, ∀ r ∈ s.todo c, r.Proper
  recovered : ∀ (k : Nat) (t : Taken), s.taken[k]? = some t →
    ∃ m, s.sent[k]? = some m ∧ Recovered m t
  order : ∀ c, (s.sent.filter fun m => m.client = c).map Sent.request ++ s.todo c = todo c

theorem message_framed (buffer : Memory) (session_id : Int) (c : Call) :
    Framed (fun a => getClientInfoMaxSize a 0 true) (c.message buffer session_id) :=
  ⟨_, _, message_eq buffer session_id c, by
    simp only [load_length, getClientInfoMaxSize_read]⟩

section
variable {todo : Nat → List Issued} {s s' : Wire} (h : s.Inv todo)
include h

theorem Wire.Inv.issue {c : Nat} {buffer : Memory} (he : wireStep s (.issue c buffer) = some s') :
    s'.Inv todo := by
  simp only [wireStep] at he
  split at he
  · cases he
  · rename_i r rest htodo
    cases he
    have hr := h.proper c r (by simp [htodo])
    have hframed : Framed (fun a => getClientInfoMaxSize a 0 true)
        (Sent.bytes ⟨c, r, r.call.message buffer r.session_id⟩) := message_framed ..
    refine ⟨h.inFlight.send hframed, ?_, ?_, ?_, ?_⟩
    · intro m hm
      rcases List.mem_append.mp hm with hm | hm
      · exact h.message m hm
      · rw [List.mem_singleton.mp hm]
        exact ⟨hr, buffer, rfl⟩
    · intro c' r' hr'
      simp only at hr'
      by_cases hc : c' = c
      · subst hc
        rw [Function.update_self] at hr'
        exact h.proper c' r' (by simp [htodo, hr'])
      · rw [Function.update_of_ne hc] at hr'
        exact h.proper c' r' hr'
    · intro k t ht
      obtain ⟨m, hm, hrec⟩ := h.recovered k t ht
      refine ⟨m, ?_, hrec⟩
      rw [List.getElem?_append_left (List.getElem?_eq_some_iff.mp hm).1]
      exact hm
    · intro c'
      simp only
      by_cases hc : c' = c
      · subst hc
        rw [Function.update_self, List.filter_append, List.map_append, List.append_assoc]
        simpa [htodo] using h.order c'
      · rw [Function.update_of_ne hc, List.filter_append, List.map_append]
        simpa [Ne.symm hc] using h.order c'

/-- The next round takes the next message. -/
theorem Wire.Inv.next (hlt : s.taken.length < s.sent.length) (pipeEnd : PipeEnd)
    (newBuffer : Memory) {availableSession : Option Nat} (hfree : ∀ i ∈ availableSession, i < S) :
    ∃ s', wireStep s (.receive pipeEnd availableSession newBuffer) = some s' ∧
      s'.taken.length = s.taken.length + 1 ∧ s'.Inv todo := by
  obtain ⟨rest, hpipe, hrest⟩ := h.inFlight.next hlt
  obtain ⟨hr, buffer, hmsg⟩ := h.message _ (List.getElem_mem hlt)
  rw [hmsg] at hpipe
  obtain ⟨s', he, htodo, hsent, hpipe', htaken⟩ :=
    receive_message hr pipeEnd buffer newBuffer hpipe hfree
  have hlen : s'.taken.length = s.taken.length + 1 := by
    rw [htaken, List.length_append, List.length_singleton]
  refine ⟨s', he, hlen, ?_, ?_, ?_, ?_, ?_⟩
  · rw [hpipe', hsent, hlen]
    exact hrest
  · rw [hsent]
    exact h.message
  · rw [htodo]
    exact h.proper
  · intro k t ht
    rw [hsent]
    rw [htaken] at ht
    rcases Nat.lt_or_ge k s.taken.length with hk | hk
    · rw [List.getElem?_append_left hk] at ht
      exact h.recovered k t ht
    · rw [List.getElem?_append_right hk, List.getElem?_singleton] at ht
      split at ht
      · obtain rfl : k = s.taken.length := by omega
        cases ht
        exact ⟨_, List.getElem?_eq_getElem hlt, hmsg.symm, rfl⟩
      · cases ht
  · rw [hsent, htodo]
    exact h.order

omit h in
/-- The end of the input changes nothing. -/
theorem receive_nil (hpipe : s.pipe = []) {pipeEnd : PipeEnd} {availableSession : Option Nat}
    {newBuffer : Memory}
    (he : wireStep s (.receive pipeEnd availableSession newBuffer) = some s') : s' = s := by
  simp only [wireStep] at he
  split at he
  · cases he
  rw [hpipe, readMessage_nil] at he
  cases hclosed : pipeEnd.closed <;> cases hreopens : pipeEnd.reopens <;>
    simp only [hclosed, hreopens, if_true, if_false, Bool.false_eq_true, Option.bind_none,
      Option.bind_some, reduceCtorEq, Option.some.injEq] at he
  rw [← he, ← hpipe]

theorem Wire.Inv.step {a : WireStep} (he : wireStep s a = some s') : s'.Inv todo := by
  cases a with
  | issue c buffer => exact h.issue he
  | receive pipeEnd availableSession newBuffer =>
    by_cases hpipe : s.pipe = []
    · rw [receive_nil hpipe he]
      exact h
    have hfree : ∀ i ∈ availableSession, i < S := by
      intro i hi
      by_contra hge
      simp only [wireStep] at he
      rw [if_pos ⟨i, hi, Nat.le_of_not_lt hge⟩] at he
      cases he
    obtain ⟨t, ht, _, hinv⟩ := h.next (h.inFlight.lt hpipe) pipeEnd newBuffer hfree
    rw [he, Option.some.injEq] at ht
    rwa [ht]

theorem Wire.Inv.delivered : Delivered todo s where
  recovered := h.recovered
  rest := h.inFlight.stream
  issue := by
    intro c r rest htodo buffer
    simp only [wireStep, htodo]
    exact ⟨_, rfl, rfl, rfl, rfl⟩
  next := by
    intro hlt pipeEnd availableSession newBuffer hfree
    obtain ⟨s', he, hlen, _⟩ := h.next hlt pipeEnd newBuffer hfree
    exact ⟨s', he, hlen⟩
  order := h.order

end

theorem FirstWire.inv {todo : Nat → List Issued} {s : Wire} (h : FirstWire todo s)
    (hproper : ∀ c, ∀ r ∈ todo c, r.Proper) : s.Inv todo := by
  obtain ⟨htodo, hpipe, hsent, htaken⟩ := h
  refine ⟨?_, ?_, ?_, ?_, ?_⟩ <;> simp only [htodo, hpipe, hsent, htaken]
  · exact InFlight.empty
  · simp
  · exact hproper
  · simp
  · simp

/-- In every interleaving of the requests of any number of clients, the receiver takes the
messages one by one as they were written, and each request reaches its handler with the session
and the arguments of its client. -/
theorem every_request_reaches_its_handler (todo : Nat → List Issued)
    (hproper : ∀ c, ∀ r ∈ todo c, r.Proper) (s s' : Wire) (h : FirstWire todo s)
    (as : List WireStep) (he : steps.after wireStep s as = some s') : Delivered todo s' := by
  have hr : steps.Reachable wireStep (FirstWire todo) s' := (steps.Reachable.start h).after he
  have hinv : s'.Inv todo :=
    hr.invariant (fun t ht => ht.inv hproper) fun t a t' ht hstep => ht.step hstep
  exact hinv.delivered

/-- One client mounts and opens a file, the other one writes to a file. -/
def twoClients (c : Nat) : List Issued :=
  if c = 0 then
    [⟨0, .tfsMount ⟨[112], by decide⟩⟩, ⟨3, .tfsOpen ⟨[slash, 122], by decide⟩ TFS_O_CREAT⟩]
  else if c = 1 then [⟨4, .tfsWrite 0 [1, 2, 3]⟩]
  else []

theorem twoClients_proper : ∀ c, ∀ r ∈ twoClients c, r.Proper := by
  intro c r hr
  unfold twoClients at hr
  split_ifs at hr
  · rcases List.mem_cons.mp hr with rfl | hr
    · exact ⟨by decide, fun h => absurd rfl h⟩
    · rw [List.mem_singleton.mp hr]
      exact ⟨by decide, fun _ => by decide⟩
  · rw [List.mem_singleton.mp hr]
    exact ⟨by decide, fun _ => by decide⟩
  · cases hr

/-- Nothing was sent yet, and every buffer is zero. -/
def quietWire : Wire := ⟨twoClients, [], ⟨0, fun _ => 0⟩, fun _ _ => 0, fun _ _ => 0, [], []⟩

/-- The messages of the two clients mix, and the receiver takes them. -/
def mixed : List WireStep :=
  [.issue 0 (fun _ => 9), .issue 1 (fun _ => 9), .receive ⟨false, true⟩ (some 3) (fun _ => 9),
    .issue 0 (fun _ => 9), .receive ⟨true, true⟩ none (fun _ => 9),
    .receive ⟨true, true⟩ none (fun _ => 9)]

theorem mixed_possible : (steps.after wireStep quietWire mixed).isSome = true := by decide +kernel

/-- Of the three messages, the mount got the session that was free, and the others their own. -/
theorem three_requests_reach_their_handlers : ∃ s, steps.after wireStep quietWire mixed = some s ∧
    Delivered twoClients s ∧ s.pipe = [] ∧ s.taken.map Taken.outcome =
      [some (.ran 3 (.tfsMount ⟨[112], by decide⟩)), some (.ran 4 (.tfsWrite 0 [1, 2, 3])),
        some (.ran 3 (.tfsOpen ⟨[slash, 122], by decide⟩ TFS_O_CREAT))] := by
  have he := (Option.some_get mixed_possible).symm
  refine ⟨_, he, every_request_reaches_its_handler twoClients twoClients_proper quietWire _
    ⟨rfl, rfl, rfl, rfl⟩ mixed he, by decide +kernel, by decide +kernel⟩

end tecnicofs.parte2
