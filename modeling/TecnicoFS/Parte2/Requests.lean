-- One session of the server and its client, which sends a request when it has
-- the reply to the one before: every request is executed exactly once, if no
-- signal is late.
import TecnicoFS.Lib.Steps
import TecnicoFS.Parte2.Mailbox

namespace tecnicofs.parte2

/-- A request as it lies in the buffer of the session: the operation code and the bytes behind
it. -/
structure Request where
  opCode : OpCode
  info : List UInt8
  deriving DecidableEq

/-- The bytes of a reply. -/
abbrev Reply := List UInt8

/-- Where the receiver is with a message of this session. -/
inductive Receiver
  /-- At the read from the pipe. -/
  | reading
  /-- At `writeToBufferPC`. -/
  | copying (r : Request)
  /-- At `pthread_cond_signal`. -/
  | signalling
  deriving DecidableEq

/-- A session, its client, and the history of both: the requests that were sent, those that were
copied into the buffer, those that were executed with their replies, and the replies that the
client has read. -/
structure Session where
  box : Mailbox Request Request
  receiver : Receiver
  serverPipe : List Request
  clientPipe : List Reply
  clientWaits : Bool
  sent : List Request
  copied : List Request
  executed : List (Request × Reply)
  received : List Reply
  deriving DecidableEq

/-- The session when the server starts, before its client has sent anything. -/
def firstSession : Session :=
  ⟨.first, .reading, [], [], false, [], [], [], []⟩

inductive SessionStep
  /-- The client sends a request. -/
  | send (r : Request)
  /-- The client reads a reply. -/
  | readReply
  | receive
  | writeToBufferPC
  | signal
  | lock
  | test
  | readFromBufferPC
  /-- The request is run, with some reply of the file system. -/
  | runClientRequest (reply : Reply)

def Session.setBox (s : Session) (b : Mailbox Request Request) : Session := { s with box := b }

def sessionStep (s : Session) : SessionStep → Option Session
  | .send r =>
    if s.clientWaits then none
    else some { s with serverPipe := s.serverPipe ++ [r], clientWaits := true, sent := s.sent ++ [r] }
  | .readReply =>
    match s.clientWaits, s.clientPipe with
    | true, reply :: rest =>
      some { s with clientPipe := rest, clientWaits := false, received := s.received ++ [reply] }
    | _, _ => none
  | .receive =>
    match s.receiver, s.serverPipe with
    | .reading, r :: rest => some { s with receiver := .copying r, serverPipe := rest }
    | _, _ => none
  | .writeToBufferPC =>
    match s.receiver with
    | .copying r =>
      (s.box.put r).map fun b =>
        { s with box := b, receiver := .signalling, copied := s.copied ++ [r] }
    | _ => none
  | .signal =>
    match s.receiver with
    | .signalling => some { s with box := s.box.signal, receiver := .reading }
    | _ => none
  | .lock => s.box.lock.map s.setBox
  | .test => s.box.test.map s.setBox
  | .readFromBufferPC => (s.box.take id).map s.setBox
  | .runClientRequest reply =>
    match s.box.worker with
    | .running r =>
      some { s with
        box := { s.box with worker := if r.opCode = .shutdown then .gone else .test }
        clientPipe := s.clientPipe ++ [reply]
        executed := s.executed ++ [(r, reply)] }
    | _ => none

/-- A signal is late when the worker has already taken the request and waits for the next one. -/
def LateSignal (s : Session) : SessionStep → Prop
  | .signal => s.box.worker = .waiting ∧ s.box.readable = false
  | _ => False

/-! ## Where the requests are -/

/-- The request that the worker runs. -/
def Mailbox.inHands (b : Mailbox Request Request) : List Request :=
  match b.worker with
  | .running r => [r]
  | _ => []

/-- The request in the buffer that was not taken yet. -/
def Mailbox.inBuffer (b : Mailbox Request Request) : List Request :=
  if b.readable then b.info.toList else []

/-- What was copied and not executed yet. -/
def Session.pending (s : Session) : List Request := s.box.inHands ++ s.box.inBuffer

def Receiver.holds : Receiver → List Request
  | .copying r => [r]
  | _ => []

/-- Each request that was copied was executed once or is still to be executed, in the order in
which they were copied, one at most is still to be executed, and the k-th reply that the client
has read is the reply to its k-th request. -/
structure ExactlyOnce (s : Session) : Prop where
  copied : s.copied = s.executed.map Prod.fst ++ s.pending
  one : s.pending.length ≤ 1
  replies : ∀ (k : Nat) (reply : Reply), s.received[k]? = some reply →
    ∃ r, s.sent[k]? = some r ∧ s.executed[k]? = some (r, reply)

/-- The invariant: one request or reply is on its way while the client waits, and none
otherwise. -/
structure Session.Inv (s : Session) : Prop where
  sent : s.sent = s.copied ++ (s.receiver.holds ++ s.serverPipe)
  copied : s.copied = s.executed.map Prod.fst ++ s.pending
  replies : s.executed.map Prod.snd = s.received ++ s.clientPipe
  one : s.pending.length + (s.receiver.holds.length + s.serverPipe.length) + s.clientPipe.length =
    if s.clientWaits then 1 else 0
  copying_readable : s.box.worker = .copying ∨ s.box.worker = .woken → s.box.readable = true

theorem Session.Inv.exactlyOnce {s : Session} (h : s.Inv) : ExactlyOnce s where
  copied := h.copied
  one := by
    have := h.one
    split at this <;> omega
  replies := by
    intro k reply hk
    have hlt : k < s.received.length := (List.getElem?_eq_some_iff.mp hk).1
    have hsnd : (s.executed.map Prod.snd)[k]? = some reply := by
      rw [h.replies, List.getElem?_append_left hlt, hk]
    rw [List.getElem?_map, Option.map_eq_some_iff] at hsnd
    obtain ⟨⟨r, reply'⟩, he, rfl⟩ := hsnd
    refine ⟨r, ?_, he⟩
    have hlen : k < s.executed.length := (List.getElem?_eq_some_iff.mp he).1
    rw [h.sent, h.copied, List.append_assoc, List.getElem?_append_left (by simpa using hlen),
      List.getElem?_map, he]
    rfl

theorem firstSession_inv : firstSession.Inv where
  sent := rfl
  copied := rfl
  replies := rfl
  one := rfl
  copying_readable := by simp [firstSession, Mailbox.first]

/-! ## Every step -/

/-- A step of the worker that leaves what is pending where it is. -/
theorem Session.Inv.setBox {s : Session} (h : s.Inv) {b : Mailbox Request Request}
    (hp : b.inHands ++ b.inBuffer = s.pending)
    (hr : b.worker = .copying ∨ b.worker = .woken → b.readable = true) : (s.setBox b).Inv where
  sent := h.sent
  copied := h.copied.trans (congrArg _ hp.symm)
  replies := h.replies
  one := by
    have hpend : (s.setBox b).pending = s.pending := hp
    rw [hpend]
    exact h.one
  copying_readable := hr

theorem Mailbox.inHands_of_not_running {b : Mailbox Request Request}
    (h : ∀ r, b.worker ≠ .running r) : b.inHands = [] := by
  unfold Mailbox.inHands
  split
  · rename_i r hr
    exact absurd hr (h r)
  · rfl

theorem Session.Inv.send {s : Session} (h : s.Inv) (r : Request) (hw : s.clientWaits = false) :
    Session.Inv { s with
      serverPipe := s.serverPipe ++ [r], clientWaits := true, sent := s.sent ++ [r] } where
  sent := by simp [h.sent]
  copied := h.copied
  replies := h.replies
  one := by
    have := h.one
    simp only [hw, Bool.false_eq_true, if_false] at this
    simp only [Session.pending, List.length_append, List.length_singleton, if_true] at this ⊢
    omega
  copying_readable := h.copying_readable

theorem Session.Inv.readReply {s : Session} (h : s.Inv) {reply : Reply} {rest : List Reply}
    (hw : s.clientWaits = true) (hp : s.clientPipe = reply :: rest) :
    Session.Inv { s with
      clientPipe := rest, clientWaits := false, received := s.received ++ [reply] } where
  sent := h.sent
  copied := h.copied
  replies := by simp [h.replies, hp]
  one := by
    have := h.one
    simp only [hw, hp, if_true] at this
    simp only [Session.pending, List.length_append, List.length_cons, Bool.false_eq_true,
      if_false] at this ⊢
    omega
  copying_readable := h.copying_readable

theorem Session.Inv.receive {s : Session} (h : s.Inv) {r : Request} {rest : List Request}
    (hr : s.receiver = .reading) (hp : s.serverPipe = r :: rest) :
    Session.Inv { s with receiver := .copying r, serverPipe := rest } where
  sent := by simp [h.sent, hr, hp, Receiver.holds]
  copied := h.copied
  replies := h.replies
  one := by
    have := h.one
    simp only [hr, hp, Receiver.holds, List.length_nil, List.length_cons] at this
    simp only [Session.pending, Receiver.holds, List.length_append, List.length_cons,
      List.length_nil] at this ⊢
    omega
  copying_readable := h.copying_readable

/-- The buffer is empty when a request is copied into it. -/
theorem Session.Inv.writeToBufferPC {s : Session} (h : s.Inv) {r : Request}
    (hr : s.receiver = .copying r) (hfree : s.box.mutexFree = true) :
    Session.Inv { s with
      box := { s.box with readable := true, info := some r }
      receiver := .signalling
      copied := s.copied ++ [r] } := by
  have hone := h.one
  have hnone : s.pending = [] := by
    simp only [hr, Receiver.holds, List.length_singleton] at hone
    apply List.eq_nil_of_length_eq_zero
    split at hone <;> omega
  have hnew : Mailbox.inHands { s.box with readable := true, info := some r } = [] := by
    apply Mailbox.inHands_of_not_running
    intro r' hw
    simp only at hw
    simp [Mailbox.mutexFree, hw] at hfree
  have hpending : Session.pending { s with
      box := { s.box with readable := true, info := some r }
      receiver := .signalling
      copied := s.copied ++ [r] } = [r] := by
    unfold Session.pending
    rw [hnew]
    rfl
  exact
    { sent := by simp [h.sent, hr, Receiver.holds]
      copied := by
        rw [hpending]
        simp [h.copied, hnone]
      replies := h.replies
      one := by
        rw [hpending]
        simpa [hnone, hr, Receiver.holds] using hone
      copying_readable := fun _ => rfl }

theorem Session.Inv.signal {s : Session} (h : s.Inv) (hr : s.receiver = .signalling)
    (hok : ¬ LateSignal s .signal) :
    Session.Inv { s with box := s.box.signal, receiver := .reading } := by
  have hsame : Session.Inv { s with receiver := .reading } :=
    ⟨by simpa [hr, Receiver.holds] using h.sent, h.copied, h.replies,
      by simpa [hr, Receiver.holds, Session.pending] using h.one, h.copying_readable⟩
  rcases s.box.signal_cases with ⟨hw, he⟩ | ⟨_, he⟩ <;> rw [he]
  · have hreadable : s.box.readable = true := by
      by_contra hc
      exact hok ⟨hw, by simpa using hc⟩
    refine hsame.setBox ?_ fun _ => hreadable
    simp [Mailbox.inHands, Mailbox.inBuffer, Session.pending, hw]
  · exact hsame

/-- One request goes from the hands of the worker to the executed ones. -/
theorem Session.Inv.runClientRequest {s : Session} (h : s.Inv) {r : Request} (reply : Reply)
    (hw : s.box.worker = .running r) {w : Worker Request} (hnext : w = .test ∨ w = .gone) :
    Session.Inv { s with
      box := { s.box with worker := w }
      clientPipe := s.clientPipe ++ [reply]
      executed := s.executed ++ [(r, reply)] } := by
  have hone := h.one
  have hhands : s.box.inHands = [r] := by simp [Mailbox.inHands, hw]
  have hbuffer : s.box.inBuffer = [] := by
    simp only [Session.pending, hhands, List.length_append, List.length_singleton] at hone
    apply List.eq_nil_of_length_eq_zero
    split at hone <;> omega
  have hpending : Session.pending { s with
      box := { s.box with worker := w }
      clientPipe := s.clientPipe ++ [reply]
      executed := s.executed ++ [(r, reply)] } = [] := by
    have hempty : Mailbox.inHands { s.box with worker := w } = [] :=
      Mailbox.inHands_of_not_running fun r' hc => by rcases hnext with rfl | rfl <;> cases hc
    have hsame : Mailbox.inBuffer { s.box with worker := w } = s.box.inBuffer := rfl
    unfold Session.pending
    rw [hempty, hsame, hbuffer]
    rfl
  exact
    { sent := h.sent
      copied := by
        rw [hpending, h.copied, Session.pending, hhands, hbuffer]
        simp
      replies := by simp [h.replies]
      one := by
        rw [hpending]
        simp only [Session.pending, hhands, hbuffer, List.length_append, List.length_singleton,
          List.length_nil] at hone ⊢
        omega
      copying_readable := fun hc => by rcases hnext with rfl | rfl <;> simp at hc }

/-- Every step but a late signal keeps the invariant. -/
theorem Session.Inv.step {s s' : Session} {a : SessionStep} (h : s.Inv) (hok : ¬ LateSignal s a)
    (he : sessionStep s a = some s') : s'.Inv := by
  cases a with
  | send r =>
    simp only [sessionStep, Option.ite_none_left_eq_some, Bool.not_eq_true, Option.some.injEq] at he
    obtain ⟨hw, rfl⟩ := he
    exact h.send r hw
  | readReply =>
    simp only [sessionStep] at he
    split at he <;> cases he
    exact h.readReply (by assumption) (by assumption)
  | receive =>
    simp only [sessionStep] at he
    split at he <;> cases he
    exact h.receive (by assumption) (by assumption)
  | writeToBufferPC =>
    simp only [sessionStep] at he
    split at he
    · obtain ⟨b, hb, rfl⟩ := Option.map_eq_some_iff.mp he
      obtain ⟨hfree, rfl⟩ := Mailbox.put_eq_some hb
      exact h.writeToBufferPC (by assumption) hfree
    · cases he
  | signal =>
    simp only [sessionStep] at he
    split at he <;> cases he
    exact h.signal (by assumption) hok
  | lock =>
    obtain ⟨b, hb, rfl⟩ := Option.map_eq_some_iff.mp he
    rcases Mailbox.lock_eq_some hb with ⟨hw, rfl⟩ | ⟨hw, rfl⟩
    · refine h.setBox ?_ (by simp)
      simp [Mailbox.inHands, Mailbox.inBuffer, Session.pending, hw]
    · refine h.setBox ?_ fun _ => h.copying_readable (Or.inr hw)
      simp [Mailbox.inHands, Mailbox.inBuffer, Session.pending, hw]
  | test =>
    obtain ⟨b, hb, rfl⟩ := Option.map_eq_some_iff.mp he
    obtain ⟨hw, rfl⟩ := Mailbox.test_eq_some hb
    refine h.setBox ?_ fun hc => ?_
    · cases hr : s.box.readable <;>
        simp [Mailbox.inHands, Mailbox.inBuffer, Session.pending, hw, hr]
    · simp only at hc ⊢
      split at hc <;> simp_all
  | readFromBufferPC =>
    obtain ⟨b, hb, rfl⟩ := Option.map_eq_some_iff.mp he
    obtain ⟨r, hw, hinfo, rfl⟩ := Mailbox.take_eq_some hb
    have hreadable := h.copying_readable (Or.inl hw)
    refine h.setBox ?_ (by simp)
    simp [Mailbox.inHands, Mailbox.inBuffer, Session.pending, hw, hinfo, hreadable]
  | runClientRequest reply =>
    simp only [sessionStep] at he
    split at he <;> cases he
    apply h.runClientRequest reply (by assumption)
    split
    · exact Or.inr rfl
    · exact Or.inl rfl

/-- In every run in which no signal is late, every request is executed exactly once in every
state. -/
theorem every_request_is_executed_once {as : List SessionStep}
    (hok : steps.Meets sessionStep (fun s a => ¬ LateSignal s a) firstSession as) :
    steps.Always sessionStep ExactlyOnce firstSession as :=
  (steps.always_of_meets (fun _ _ _ h hok he => h.step hok he) firstSession_inv hok).mono
    fun _ h => h.exactlyOnce

def openRequest : Request := ⟨.open, [97]⟩
def closeRequest : Request := ⟨.close, [0]⟩

/-- The worker holds its mutex before the first request comes, and one request is executed. -/
theorem one_request_is_executed :
    steps.Always sessionStep ExactlyOnce firstSession
      [.lock, .test, .send openRequest, .receive, .writeToBufferPC, .signal, .lock,
        .readFromBufferPC, .runClientRequest [0]] :=
  every_request_is_executed_once <|
    steps.meets_cons rfl id <| steps.meets_cons rfl id <| steps.meets_cons rfl id <|
    steps.meets_cons rfl id <| steps.meets_cons rfl id <|
    steps.meets_cons rfl (fun h => absurd h.2 (by decide)) <| steps.meets_cons rfl id <|
    steps.meets_cons rfl id <| steps.meets_cons rfl id trivial

/-- The receiver copies the first request before the worker has its mutex, and signals when the
worker waits for the next one. -/
theorem a_late_signal_runs_a_request_again :
    ∃ s, steps.Reachable sessionStep (firstSession = ·) s ∧ ¬ ExactlyOnce s ∧
      s.copied = [openRequest] ∧ s.executed = [(openRequest, [0]), (openRequest, [1])] ∧
      s.sent = [openRequest, closeRequest] ∧ s.received = [[0], [1]] := by
  have hrun : (steps.after sessionStep firstSession
        [.send openRequest, .receive, .writeToBufferPC, .lock, .test, .readFromBufferPC,
          .runClientRequest [0], .test, .signal, .lock, .readFromBufferPC, .runClientRequest [1],
          .readReply, .send closeRequest, .readReply]).map
      (fun s => (s.copied, s.executed, s.sent, s.received)) =
    some ([openRequest], [(openRequest, [0]), (openRequest, [1])], [openRequest, closeRequest],
      [[0], [1]]) := by
    decide +kernel
  obtain ⟨s, hs, hhist⟩ := Option.map_eq_some_iff.mp hrun
  simp only [Prod.mk.injEq] at hhist
  obtain ⟨hcopied, hexecuted, hsent, hreceived⟩ := hhist
  refine ⟨s, (steps.Reachable.start rfl).after hs, fun h => ?_, hcopied, hexecuted, hsent, hreceived⟩
  have hlen := congrArg List.length h.copied
  simp [hcopied, hexecuted] at hlen

end tecnicofs.parte2
