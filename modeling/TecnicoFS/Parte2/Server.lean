-- The server of the second part (`fs/tfs_server.c`) and its clients
-- (`client/tecnicofs_client_api.c`): the receiver, the worker of each session,
-- the table of sessions, and any number of clients, one step at a time.
import TecnicoFS.Lib.Steps
import TecnicoFS.Parte2.Mailbox
import Mathlib.Logic.Function.Basic

namespace tecnicofs.parte2

/-- The number of sessions. -/
abbrev S : Nat := 20

/-- A value of `clientsFHandle`: -1, -2, or a descriptor, which is named by the client whose pipe
is open under it. -/
inductive FHandle
  | free
  | reserved
  | mounted (client : Nat)
  deriving DecidableEq, Repr

/-- A request. The session id of a mount is filled in by the receiver. The client is in the
message as the name of its pipe for a mount only; nothing reads it in the other requests. -/
structure Message where
  opCode : OpCode
  sessionID : Nat
  client : Nat
  deriving DecidableEq

/-- Where a worker is in the handler of a request. -/
inductive Stage
  /-- `handle_tfs_mount`, at `openClientSession`. -/
  | openClientSession
  /-- `handle_tfs_mount`, at the reply. -/
  | replyMount
  /-- At the read of `clientsFHandle`. -/
  | readFHandle
  /-- `handle_tfs_unmount`, at the first `finishClientSession`. -/
  | finishFirst (fclient : FHandle)
  /-- `handle_tfs_unmount`, at the reply. -/
  | replyUnmount (fclient : FHandle) (out : Int)
  /-- `handle_tfs_unmount`, at the second `finishClientSession`. -/
  | finishAgain
  /-- The other handlers, at the operation and the reply. What the operation waits for is not
  modelled: the step comes when it goes on, which a shutdown does only once no file is open. -/
  | replyCall (fclient : FHandle)
  /-- At the `finishClientSession` after a reply that could not be written. -/
  | finishFailed
  deriving DecidableEq

structure Handler where
  msg : Message
  stage : Stage
  deriving DecidableEq

inductive ReceiverPlace
  /-- At the read from the pipe of the server. -/
  | reading
  /-- At `sendUserCountFullMessage`, with the pipe of the client. -/
  | refusing (client : Nat)
  /-- At `writeToBufferPC`. -/
  | copying (m : Message)
  /-- At `pthread_cond_signal`. -/
  | signalling (sessionID : Nat)
  deriving DecidableEq

/-- Where a client is. `left` says that it has called `tfs_unmount` since its `tfs_mount`. -/
inductive Client
  | outside
  /-- In `tfs_mount`, at the read of the reply. -/
  | mounting
  /-- Between two calls, after a `tfs_mount` that returned 0. -/
  | ready (session_id : Nat) (left : Bool)
  /-- In another call, at the read of the reply. -/
  | calling (session_id : Nat) (left : Bool)
  /-- In `tfs_unmount`, at the read of the reply. -/
  | unmounting (session_id : Nat)
  deriving DecidableEq

structure Server where
  clientsFHandle : Nat → FHandle
  box : Nat → Mailbox Message Handler
  receiver : ReceiverPlace
  serverPipe : List Message
  client : Nat → Client
  clientPipe : Nat → List Int
  exited : Bool

/-- The server when it starts, without clients. -/
def firstServer : Server where
  clientsFHandle := fun _ => .free
  box := fun _ => .first
  receiver := .reading
  serverPipe := []
  client := fun _ => .outside
  clientPipe := fun _ => []
  exited := false

/-! ## Parts of the steps -/

/-- `getAvailableSession`: the first free session. -/
def availableSession (clientsFHandle : Nat → FHandle) : Option Nat :=
  (List.range S).find? fun i => decide (clientsFHandle i = .free)

def Server.setFHandle (s : Server) (i : Nat) (h : FHandle) : Server :=
  { s with clientsFHandle := Function.update s.clientsFHandle i h }

def Server.setBox (s : Server) (i : Nat) (b : Mailbox Message Handler) : Server :=
  { s with box := Function.update s.box i b }

def Server.setWorker (s : Server) (i : Nat) (w : Worker Handler) : Server :=
  s.setBox i { s.box i with worker := w }

def Server.setClient (s : Server) (c : Nat) (p : Client) : Server :=
  { s with client := Function.update s.client c p }

def Server.setPipe (s : Server) (c : Nat) (replies : List Int) : Server :=
  { s with clientPipe := Function.update s.clientPipe c replies }

/-- `write(fclient, &out, sizeof(int))`, or none when it fails: there is no descriptor, or nobody
has the pipe open for reading. -/
def Server.reply (s : Server) (fclient : FHandle) (out : Int) : Option Server :=
  match fclient with
  | .mounted c => if s.client c = .outside then none else some (s.setPipe c (s.clientPipe c ++ [out]))
  | _ => none

/-- The first stage of the handler of a request. -/
def handlerOf (m : Message) : Handler :=
  ⟨m, if m.opCode = .mount then .openClientSession else .readFHandle⟩

/-- The handler of `m` returns. After a shutdown the worker ends the server. -/
def Server.returns (s : Server) (i : Nat) (m : Message) : Server :=
  if m.opCode = .shutdown then { s.setWorker i .gone with exited := true } else s.setWorker i .test

/-- The next step of the handler that worker `i` runs. The operation of a call gives `out`. -/
def Server.handle (s : Server) (i : Nat) (m : Message) (out : Int) : Stage → Option Server
  | .openClientSession =>
    if s.client m.client = .outside then some { s with exited := true }
    else some ((s.setFHandle m.sessionID (.mounted m.client)).setWorker i
      (.running ⟨m, .replyMount⟩))
  | .replyMount =>
    match s.reply (.mounted m.client) m.sessionID with
    | some s => some (s.returns i m)
    | none => some (s.setWorker i (.running ⟨m, .finishFailed⟩))
  | .readFHandle =>
    let fclient := s.clientsFHandle m.sessionID
    if m.opCode = .unmount then
      match fclient with
      | .mounted _ => some (s.setWorker i (.running ⟨m, .finishFirst fclient⟩))
      | _ => some (s.setWorker i (.running ⟨m, .replyUnmount fclient (-1)⟩))
    else some (s.setWorker i (.running ⟨m, .replyCall fclient⟩))
  | .finishFirst fclient =>
    some ((s.setFHandle m.sessionID .free).setWorker i (.running ⟨m, .replyUnmount fclient 0⟩))
  | .replyUnmount fclient out =>
    some (((s.reply fclient out).getD s).setWorker i (.running ⟨m, .finishAgain⟩))
  | .finishAgain => some ((s.setFHandle m.sessionID .free).returns i m)
  | .replyCall fclient =>
    if out < -1 then none
    else
      match s.reply fclient out with
      | some s => some (s.returns i m)
      | none => some (s.setWorker i (.running ⟨m, .finishFailed⟩))
  | .finishFailed => some ((s.setFHandle m.sessionID .free).returns i m)

/-! ## The steps -/

inductive ServerStep
  | tfsMount (c : Nat)
  | tfsUnmount (c : Nat)
  /-- Any other call of the client: open, close, write, read or shutdown. -/
  | call (c : Nat) (opCode : OpCode)
  | readReply (c : Nat)
  /-- The read of a message, with `getAvailableSession` when it is a mount. -/
  | receive
  | sendUserCountFullMessage
  | writeToBufferPC
  | signal
  | lock (i : Nat)
  | test (i : Nat)
  | readFromBufferPC (i : Nat)
  /-- One step of `runClientRequest`. -/
  | runClientRequest (i : Nat) (out : Int)

/-- The client goes on with the reply that it has read. -/
def Client.afterReply (out : Int) : Client → Client
  | .mounting => if out = -1 then .outside else .ready out.toNat false
  | .calling session_id left => .ready session_id left
  | .unmounting session_id => if 0 ≤ out then .outside else .ready session_id true
  | p => p

/-- The client sends `m` and waits. -/
def Server.send (s : Server) (m : Message) (p : Client) : Server :=
  { s.setClient m.client p with serverPipe := s.serverPipe ++ [m] }

def clientStep (s : Server) : ServerStep → Option Server
  | .tfsMount c =>
    match s.client c with
    | .outside => some ((s.setPipe c []).send ⟨.mount, 0, c⟩ .mounting)
    | _ => none
  | .tfsUnmount c =>
    match s.client c with
    | .ready session_id _ => some (s.send ⟨.unmount, session_id, c⟩ (.unmounting session_id))
    | _ => none
  | .call c opCode =>
    match s.client c with
    | .ready session_id left =>
      if opCode = .mount ∨ opCode = .unmount then none
      else some (s.send ⟨opCode, session_id, c⟩ (.calling session_id left))
    | _ => none
  | .readReply c =>
    match s.client c, s.clientPipe c with
    | .outside, _ => none
    | .ready _ _, _ => none
    | p, out :: rest => some ((s.setPipe c rest).setClient c (p.afterReply out))
    | _, [] => none
  | _ => none

/-- The steps of the receiver. Between two messages it waits. Where no client has the pipe open, the
code opens it again, and that waits as well. -/
def receiverStep (s : Server) : ServerStep → Option Server
  | .receive =>
    match s.receiver, s.serverPipe with
    | .reading, m :: rest =>
      let s := { s with serverPipe := rest }
      if m.opCode = .mount then
        match availableSession s.clientsFHandle with
        | some i => some { s.setFHandle i .reserved with receiver := .copying { m with sessionID := i } }
        | none => some { s with receiver := .refusing m.client }
      else if m.sessionID < S then some { s with receiver := .copying m }
      else none
    | _, _ => none
  | .sendUserCountFullMessage =>
    match s.receiver with
    | .refusing client =>
      match s.reply (.mounted client) (-1) with
      | some s => some { s with receiver := .reading }
      | none => some { s with exited := true }
    | _ => none
  | .writeToBufferPC =>
    match s.receiver with
    | .copying m =>
      ((s.box m.sessionID).put m).map fun b =>
        { s.setBox m.sessionID b with receiver := .signalling m.sessionID }
    | _ => none
  | .signal =>
    match s.receiver with
    | .signalling i => some { s.setBox i (s.box i).signal with receiver := .reading }
    | _ => none
  | _ => none

def workerStep (s : Server) : ServerStep → Option Server
  | .lock i => (s.box i).lock.map (s.setBox i)
  | .test i => (s.box i).test.map (s.setBox i)
  | .readFromBufferPC i => ((s.box i).take handlerOf).map (s.setBox i)
  | .runClientRequest i out =>
    match (s.box i).worker with
    | .running h => s.handle i h.msg out h.stage
    | _ => none
  | _ => none

def serverStep (s : Server) (a : ServerStep) : Option Server :=
  match a with
  | .tfsMount _ | .tfsUnmount _ | .call _ _ | .readReply _ => clientStep s a
  | .receive | .sendUserCountFullMessage | .writeToBufferPC | .signal =>
    if s.exited then none else receiverStep s a
  | .lock _ | .test _ | .readFromBufferPC _ | .runClientRequest _ _ =>
    if s.exited then none else workerStep s a

/-! ## What a step does -/

/-- A step is one of a client, of the receiver or of a worker. -/
theorem serverStep_cases {s s' : Server} {a : ServerStep} (he : serverStep s a = some s') :
    clientStep s a = some s' ∨ receiverStep s a = some s' ∨ workerStep s a = some s' := by
  cases a with
  | tfsMount | tfsUnmount | call | readReply => exact Or.inl he
  | receive | sendUserCountFullMessage | writeToBufferPC | signal =>
    exact Or.inr (Or.inl (Option.ite_none_left_eq_some.mp he).2)
  | lock | test | readFromBufferPC | runClientRequest =>
    exact Or.inr (Or.inr (Option.ite_none_left_eq_some.mp he).2)

/-- What a step of a client leaves. -/
inductive ClientMoves (s : Server) : ServerStep → Server → Prop
  | tfsMount {c : Nat} : s.client c = .outside →
      ClientMoves s (.tfsMount c) ((s.setPipe c []).send ⟨.mount, 0, c⟩ .mounting)
  | tfsUnmount {c id : Nat} {left : Bool} : s.client c = .ready id left →
      ClientMoves s (.tfsUnmount c) (s.send ⟨.unmount, id, c⟩ (.unmounting id))
  | call {c id : Nat} {left : Bool} {opCode : OpCode} : s.client c = .ready id left →
      opCode ≠ .mount → opCode ≠ .unmount →
      ClientMoves s (.call c opCode) (s.send ⟨opCode, id, c⟩ (.calling id left))
  | readReply {c : Nat} {out : Int} {rest : List Int} : s.clientPipe c = out :: rest →
      s.client c ≠ .outside → (∀ id left, s.client c ≠ .ready id left) →
      ClientMoves s (.readReply c) ((s.setPipe c rest).setClient c ((s.client c).afterReply out))

theorem clientStep_moves {s s' : Server} {a : ServerStep} (he : clientStep s a = some s') :
    ClientMoves s a s' := by
  cases a with
  | tfsMount c =>
    simp only [clientStep] at he
    split at he <;> cases he
    exact .tfsMount (by assumption)
  | tfsUnmount c =>
    simp only [clientStep] at he
    split at he <;> cases he
    exact .tfsUnmount (by assumption)
  | call c opCode =>
    simp only [clientStep] at he
    split at he
    · rename_i hc
      split at he
      · cases he
      · rename_i hop
        rw [not_or] at hop
        cases he
        exact .call hc hop.1 hop.2
    · cases he
  | readReply c =>
    simp only [clientStep] at he
    split at he
    · cases he
    · cases he
    · rename_i hp houtside hready
      cases he
      exact .readReply hp houtside hready
    · cases he
  | _ => cases he

/-- What a step of the receiver leaves. It takes a message off the pipe (a mount that gets a
session, a mount that gets none, or another request), or goes on with the one that it has. -/
inductive ReceiverMoves (s : Server) : ServerStep → Server → Prop
  | reserve {m : Message} {rest : List Message} {i : Nat} : s.receiver = .reading →
      s.serverPipe = m :: rest → m.opCode = .mount → availableSession s.clientsFHandle = some i →
      ReceiverMoves s .receive { { s with serverPipe := rest }.setFHandle i .reserved with
        receiver := .copying { m with sessionID := i } }
  | full {m : Message} {rest : List Message} : s.receiver = .reading → s.serverPipe = m :: rest →
      m.opCode = .mount → availableSession s.clientsFHandle = none →
      ReceiverMoves s .receive { s with serverPipe := rest, receiver := .refusing m.client }
  | request {m : Message} {rest : List Message} : s.receiver = .reading →
      s.serverPipe = m :: rest → m.opCode ≠ .mount → m.sessionID < S →
      ReceiverMoves s .receive { s with serverPipe := rest, receiver := .copying m }
  | refuse {c : Nat} {t : Server} : s.receiver = .refusing c →
      s.reply (.mounted c) (-1) = some t →
      ReceiverMoves s .sendUserCountFullMessage { t with receiver := .reading }
  | refuseFailed {c : Nat} : s.receiver = .refusing c → s.reply (.mounted c) (-1) = none →
      ReceiverMoves s .sendUserCountFullMessage { s with exited := true }
  | copy {m : Message} : s.receiver = .copying m → (s.box m.sessionID).mutexFree = true →
      ReceiverMoves s .writeToBufferPC { s.setBox m.sessionID
        { s.box m.sessionID with readable := true, info := some m } with
        receiver := .signalling m.sessionID }
  | signal {i : Nat} : s.receiver = .signalling i →
      ReceiverMoves s .signal { s.setBox i (s.box i).signal with receiver := .reading }

theorem receiverStep_moves {s s' : Server} {a : ServerStep} (he : receiverStep s a = some s') :
    ReceiverMoves s a s' := by
  cases a with
  | receive =>
    simp only [receiverStep] at he
    split at he
    · rename_i hr hp
      split at he
      · rename_i hop
        split at he <;> cases he
        · exact .reserve hr hp hop (by assumption)
        · exact .full hr hp hop (by assumption)
      · rename_i hop
        split at he <;> cases he
        exact .request hr hp hop (by assumption)
    · cases he
  | sendUserCountFullMessage =>
    simp only [receiverStep] at he
    split at he
    · rename_i hr
      split at he <;> cases he
      · exact .refuse hr (by assumption)
      · exact .refuseFailed hr (by assumption)
    · cases he
  | writeToBufferPC =>
    simp only [receiverStep] at he
    split at he
    · rename_i hr
      obtain ⟨b, hb, rfl⟩ := Option.map_eq_some_iff.mp he
      obtain ⟨hfree, rfl⟩ := Mailbox.put_eq_some hb
      exact .copy hr hfree
    · cases he
  | signal =>
    simp only [receiverStep] at he
    split at he
    · rename_i hr
      cases he
      exact .signal hr
    · cases he
  | _ => cases he

end tecnicofs.parte2
