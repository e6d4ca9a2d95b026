-- The server as a whole: the clients and the threads of the server, with what their
-- messages carry, and the file system behind them.
import TecnicoFS.Parte2.ConcurrentCalls
import TecnicoFS.Parte2.Progress
import TecnicoFS.Parte2.RemoteCalls
import Mathlib.Data.List.Forall2

open linearizability file_store

namespace tecnicofs.parte2

/-- The operation code of the call of a client. -/
def opCodeOf : FileCall → OpCode
  | .tfsOpen _ _ => .open
  | .tfsClose _ => .close
  | .tfsRead _ _ => .read
  | .tfsWrite _ _ => .write

/-- The arguments have room in a message, and the reply has room in the pipe of the client, so that
it arrives at once: the number and `len` bytes for a read. -/
def InOneMessage : FileCall → Prop
  | .tfsOpen name _ => name.strlen ≤ 39
  | .tfsClose fhandle => FitsInt fhandle
  | .tfsRead fhandle len => FitsInt fhandle ∧ len + 4 ≤ PIPE_BUF
  | .tfsWrite fhandle buffer => FitsInt fhandle ∧ buffer.length ≤ 1024

instance : (c : FileCall) → Decidable (InOneMessage c)
  | .tfsOpen _ _ => inferInstanceAs (Decidable (_ ≤ _))
  | .tfsClose _ => inferInstanceAs (Decidable (FitsInt _))
  | .tfsRead _ _ => inferInstanceAs (Decidable (_ ∧ _))
  | .tfsWrite _ _ => inferInstanceAs (Decidable (_ ∧ _))

/-- The server with its file system. Next to each message is the call that it carries: none for a
mount and an unmount. -/
structure Service where
  server : Server
  fs : State
  pipeCalls : List (Option FileCall)
  receiverCall : Option FileCall
  boxCall : Nat → Option FileCall
  workerCall : Nat → Option FileCall
  /-- What the operation has given to a worker that has not replied yet. -/
  answer : Nat → Option (Int × List UInt8)
  /-- The bytes behind the number in the pipe of a client. -/
  replyBytes : Nat → List UInt8
  /-- The calls of the clients, and the number of the last call of each client. -/
  history : History FileCall (Int × List UInt8)
  callOf : Nat → Nat

/-- When the server starts. -/
def firstService (fs : State) : Service :=
  ⟨firstServer, fs, [], none, fun _ => none, fun _ => none, fun _ => none, fun _ => [], .first,
    fun _ => 0⟩

inductive ServiceStep
  /-- A client sends the request of a call. -/
  | request (c : Nat) (call : FileCall)
  /-- A worker makes the call of its request, in one section under `single_global_lock`. -/
  | operate (i : Nat)
  /-- Any other step of the server or a client. -/
  | server (a : ServerStep)

/-- The bytes of the answer of worker `i` go into the pipe of its client. -/
def Service.writeBytes (d : Service) (i : Nat) : FHandle → Service
  | .mounted c =>
    if d.server.client c = .outside then d
    else
      let bytes := ((d.answer i).map Prod.snd).getD []
      { d with replyBytes := Function.update d.replyBytes c (d.replyBytes c ++ bytes) }
  | _ => d

/-- What happens to the calls beside the messages in a step of the server. -/
def Service.carry (d : Service) : ServerStep → Service
  | .tfsMount c =>
    { d with pipeCalls := d.pipeCalls ++ [none], replyBytes := Function.update d.replyBytes c [] }
  | .tfsUnmount _ => { d with pipeCalls := d.pipeCalls ++ [none] }
  | .readReply c =>
    match d.server.client c, d.server.clientPipe c with
    | .calling _ _, out :: _ =>
      -- the one `read` of the client takes the number and all bytes behind it
      { d with
        history := d.history.ret (d.callOf c) (out, d.replyBytes c)
        replyBytes := Function.update d.replyBytes c [] }
    | _, _ => d
  | .receive => { d with receiverCall := d.pipeCalls.headD none, pipeCalls := d.pipeCalls.tail }
  | .writeToBufferPC =>
    match d.server.receiver with
    | .copying m => { d with boxCall := Function.update d.boxCall m.sessionID d.receiverCall }
    | _ => d
  | .readFromBufferPC i => { d with workerCall := Function.update d.workerCall i (d.boxCall i) }
  | .runClientRequest i _ =>
    match (d.server.box i).worker with
    | .running ⟨_, .replyCall fclient⟩ =>
      { d.writeBytes i fclient with answer := Function.update d.answer i none }
    | _ => d
  | _ => d

/-- The calls of the clients are requests, and a worker replies with what its operation gave. -/
def Service.ready (d : Service) : ServerStep → Bool
  | .call _ _ => false
  | .runClientRequest i out =>
    match (d.server.box i).worker with
    | .running ⟨_, .replyCall _⟩ => (d.answer i).map Prod.fst == some out
    | _ => true
  | _ => true

def serviceStep (d : Service) : ServiceStep → Option Service
  | .request c call =>
    if InOneMessage call then
      (serverStep d.server (.call c (opCodeOf call))).map fun s =>
        { d with
          server := s
          pipeCalls := d.pipeCalls ++ [some call]
          history := d.history.call call
          callOf := Function.update d.callOf c d.history.calls.length }
    else none
  | .operate i =>
    if d.server.exited then none
    else
      match (d.server.box i).worker, d.workerCall i, d.answer i with
      | .running ⟨_, .replyCall _⟩, some call, none =>
        (exec d.fs (opOf call)).map fun r =>
          { d with
            fs := r.2
            answer := Function.update d.answer i (some (r.1.ret, r.1.bytes)) }
      | _, _, _ => none
  | .server a =>
    if d.ready a then (serverStep d.server a).map fun s => { d.carry a with server := s } else none

/-- The step does nothing hasty with sessions and signals, and nothing careless with files. -/
def Allowed (d : Service) : ServiceStep → Prop
  | .request _ _ => True
  | .operate i => ∀ call, d.workerCall i = some call → CarefulOn d.fs (opOf call)
  | .server a => ¬ Hasty d.server a

/-- The calls of the clients answer like one store of files, in some order in which each of them
comes between its begin and its end, and the disk shows this store. -/
def OneStore (d : Service) : Prop :=
  ∃ order st, Linearization (answerIn limits) file_store.empty d.history.calls order st ∧
    Shows d.fs st

/-! ## Where the calls are -/

/-- The message carries the last call of its client, which was not made yet. -/
def Service.Asked (d : Service) (order : List (Nat × (Int × List UInt8))) (m : Message)
    (call : Option FileCall) : Prop :=
  m.opCode ≠ .mount → m.opCode ≠ .unmount → ∃ x ∈ d.history.calls[d.callOf m.client]?,
    call = some x.op ∧ d.callOf m.client ∉ order.map Prod.fst

/-- Worker `i` has the request of `m`: its call was not made yet, or the answer is the one in the
order. -/
def Service.InHands (d : Service) (order : List (Nat × (Int × List UInt8))) (i : Nat)
    (m : Message) : Prop :=
  match d.answer i with
  | none => d.Asked order m (d.workerCall i)
  | some b => (d.callOf m.client, b) ∈ order

theorem Service.InHands.mono {d d' : Service} {order order' : List (Nat × (Int × List UInt8))}
    {i : Nat} {m : Message} (h : d.InHands order i m) (hanswer : d'.answer i = d.answer i)
    (hcall : d'.workerCall i = d.workerCall i)
    (hasked : ∀ call, d.Asked order m call → d'.Asked order' m call)
    (hdone : ∀ b, (d.callOf m.client, b) ∈ order → (d'.callOf m.client, b) ∈ order') :
    d'.InHands order' i m := by
  unfold Service.InHands at h ⊢
  rw [hanswer, hcall]
  split at h
  · exact hasked _ h
  · exact hdone _ h

/-- Beside each message that the server has not answered is the call of its client. -/
structure Service.Carries (d : Service) (order : List (Nat × (Int × List UInt8))) : Prop where
  pipe : List.Forall₂ (d.Asked order) d.server.serverPipe d.pipeCalls
  receiver : ∀ m, d.server.receiver = .copying m → d.Asked order m d.receiverCall
  box : ∀ i m, (d.server.box i).readable = true → (d.server.box i).info = some m →
    d.Asked order m (d.boxCall i)
  worker : ∀ i h, (d.server.box i).worker = .running h → h.stage.phase ≠ none →
    d.InHands order i h.msg
  idle : ∀ i, (∀ m fclient, (d.server.box i).worker ≠ .running ⟨m, .replyCall fclient⟩) →
    d.answer i = none

/-- The client is in a call, at the read of the reply. -/
def Server.Calls (s : Server) (c : Nat) : Prop := ∃ id left, s.client c = .calling id left

/-- The reply in the pipe of a client that is in a call is the answer in the order. -/
structure Service.Replies (d : Service) (order : List (Nat × (Int × List UInt8))) : Prop where
  reply : ∀ c out, d.server.Calls c → d.server.clientPipe c = [out] →
    (d.callOf c, (out, d.replyBytes c)) ∈ order
  noBytes : ∀ c, d.server.clientPipe c = [] ∨ ¬ d.server.Calls c → d.replyBytes c = []
  begun : ∀ c, d.server.Calls c → d.callOf c < d.history.calls.length
  apart : ∀ c c', c ≠ c' → d.server.Calls c → d.server.Calls c' → d.callOf c ≠ d.callOf c'

/-- The order of the calls that were made. -/
structure Service.InOrder (d : Service) (w : Nat → Spot) (order : List (Nat × (Int × List UInt8)))
    (st : Store CString UInt8) : Prop where
  server : d.server.Inv w
  lin : Linearizes (answerIn limits) file_store.empty d.history order st
  shows : Shows d.fs st
  carries : d.Carries order
  replies : d.Replies order

/-- The client of a call that is on its way is in this call. -/
theorem Server.Inv.calls {s : Server} {w : Nat → Spot} (h : s.Inv w) {x : Spot} {m : Message}
    {p : Phase} (ht : Token s.serverPipe s.receiver s.box x m p) (hmount : m.opCode ≠ .mount)
    (hunmount : m.opCode ≠ .unmount) : s.Calls m.client := by
  refine ⟨m.sessionID, false, ?_⟩
  rw [(h.token ht).2.client, Message.waits]
  split
  · exact absurd (by assumption) hmount
  · exact absurd (by assumption) hunmount
  · rfl

theorem forall₂_of_mem {α β : Type*} {R Q : α → β → Prop} {as : List α} {bs : List β}
    (h : List.Forall₂ R as bs) (hRQ : ∀ a ∈ as, ∀ b, R a b → Q a b) : List.Forall₂ Q as bs := by
  induction h with
  | nil => exact .nil
  | cons hab _ ih =>
    exact .cons (hRQ _ List.mem_cons_self _ hab)
      (ih fun a ha b => hRQ a (List.mem_cons_of_mem _ ha) b)

/-- The history and the order grow, and the places of the messages stay. -/
theorem Service.Carries.grow {d d' : Service} {order order' : List (Nat × (Int × List UInt8))}
    (h : d.Carries order) (hpipe : d'.server.serverPipe = d.server.serverPipe)
    (hreceiver : d'.server.receiver = d.server.receiver) (hbox : d'.server.box = d.server.box)
    (hpipeCalls : d'.pipeCalls = d.pipeCalls) (hreceiverCall : d'.receiverCall = d.receiverCall)
    (hboxCall : d'.boxCall = d.boxCall)
    (hasked : ∀ {x m p call}, Token d.server.serverPipe d.server.receiver d.server.box x m p →
      (∀ i, x ≠ .worker i) → d.Asked order m call → d'.Asked order' m call)
    (hworker : ∀ i h, (d.server.box i).worker = .running h → h.stage.phase ≠ none →
      d.InHands order i h.msg → d'.InHands order' i h.msg)
    (hidle : ∀ i, d.answer i = none →
      (∀ m fclient, (d.server.box i).worker ≠ .running ⟨m, .replyCall fclient⟩) →
        d'.answer i = none) : d'.Carries order' where
  pipe := by
    rw [hpipe, hpipeCalls]
    exact forall₂_of_mem h.pipe fun m hm call hc => hasked (.pipe hm) (by simp) hc
  receiver := by
    rw [hreceiver, hreceiverCall]
    exact fun m hm => hasked (.copying hm) (by simp) (h.receiver m hm)
  box := by
    rw [hbox, hboxCall]
    exact fun i m hr hi => hasked (.box hr hi) (by simp) (h.box i m hr hi)
  worker := by
    rw [hbox]
    exact fun i hh hrun hp => hworker i hh hrun hp (h.worker i hh hrun hp)
  idle := by
    rw [hbox]
    exact fun i hno => hidle i (h.idle i hno) hno

/-- The box of session `i` changes, and its worker keeps its call or loses it. -/
theorem Service.Carries.of_box {d d' : Service} {order : List (Nat × (Int × List UInt8))}
    (h : d.Carries order) (i : Nat) (b : Mailbox Message Handler)
    (hpipe : d'.server.serverPipe = d.server.serverPipe)
    (hreceiver : ∀ m, d'.server.receiver = .copying m → d.server.receiver = .copying m)
    (hbox : d'.server.box = Function.update d.server.box i b)
    (hcalls : d'.pipeCalls = d.pipeCalls ∧ d'.receiverCall = d.receiverCall ∧
      d'.boxCall = d.boxCall ∧ d'.history = d.history ∧ d'.callOf = d.callOf)
    (hothers : ∀ j, j ≠ i → d'.workerCall j = d.workerCall j ∧ d'.answer j = d.answer j)
    (hread : b.readable = true → (d.server.box i).readable = true ∧ b.info = (d.server.box i).info)
    (hworker : ∀ hh, b.worker = .running hh → hh.stage.phase ≠ none → d'.InHands order i hh.msg)
    (hidle : (∀ m fclient, b.worker ≠ .running ⟨m, .replyCall fclient⟩) → d'.answer i = none) :
    d'.Carries order := by
  obtain ⟨hpipeCalls, hreceiverCall, hboxCall, hhistory, hcallOf⟩ := hcalls
  have hasked : ∀ m call, d.Asked order m call → d'.Asked order m call := by
    unfold Service.Asked
    rw [hhistory, hcallOf]
    exact fun _ _ ha => ha
  refine ⟨?_, fun m hm => ?_, fun j m hr hi => ?_, fun j hh hrun hp => ?_, fun j hno => ?_⟩
  · rw [hpipe, hpipeCalls]
    exact h.pipe.imp hasked
  · rw [hreceiverCall]
    exact hasked _ _ (h.receiver m (hreceiver m hm))
  · rw [hboxCall]
    by_cases hj : j = i
    · subst hj
      rw [hbox, Function.update_self] at hr hi
      obtain ⟨hold, hinfo⟩ := hread hr
      exact hasked _ _ (h.box j m hold (hinfo ▸ hi))
    · rw [hbox, Function.update_of_ne hj] at hr hi
      exact hasked _ _ (h.box j m hr hi)
  · by_cases hj : j = i
    · subst hj
      rw [hbox, Function.update_self] at hrun
      exact hworker hh hrun hp
    · rw [hbox, Function.update_of_ne hj] at hrun
      have hin := h.worker j hh hrun hp
      obtain ⟨hcall, hans⟩ := hothers j hj
      exact hin.mono hans hcall (hasked _) fun b hb => by rw [hcallOf]; exact hb
  · by_cases hj : j = i
    · subst hj
      rw [hbox, Function.update_self] at hno
      exact hidle hno
    · rw [hbox, Function.update_of_ne hj] at hno
      rw [(hothers j hj).2]
      exact h.idle j hno

theorem Service.Replies.congr {d d' : Service} {order : List (Nat × (Int × List UInt8))}
    (h : d.Replies order) (hclient : d'.server.client = d.server.client)
    (hpipe : d'.server.clientPipe = d.server.clientPipe) (hbytes : d'.replyBytes = d.replyBytes)
    (hhistory : d'.history = d.history) (hcallOf : d'.callOf = d.callOf) : d'.Replies order := by
  have hcalls : ∀ c, d'.server.Calls c ↔ d.server.Calls c := by
    intro c
    unfold Server.Calls
    rw [hclient]
  constructor <;> simp only [hcalls, hpipe, hbytes, hhistory, hcallOf]
  · exact h.reply
  · exact h.noBytes
  · exact h.begun
  · exact h.apart

/-- What is new is about client `c`. -/
theorem Service.Replies.of_client {d d' : Service} {order : List (Nat × (Int × List UInt8))}
    (h : d.Replies order) (c : Nat)
    (hothers : ∀ c', c' ≠ c → d'.server.client c' = d.server.client c' ∧
      d'.server.clientPipe c' = d.server.clientPipe c' ∧ d'.replyBytes c' = d.replyBytes c' ∧
      d'.callOf c' = d.callOf c')
    (hlen : d.history.calls.length ≤ d'.history.calls.length)
    (hself : d'.server.Calls c →
      (∀ out, d'.server.clientPipe c = [out] → (d'.callOf c, (out, d'.replyBytes c)) ∈ order) ∧
      d'.callOf c < d'.history.calls.length ∧
      ∀ c', c' ≠ c → d.server.Calls c' → d'.callOf c ≠ d.callOf c')
    (hbytes : d'.server.clientPipe c = [] ∨ ¬ d'.server.Calls c → d'.replyBytes c = []) :
    d'.Replies order := by
  have hcalls : ∀ c', c' ≠ c → (d'.server.Calls c' ↔ d.server.Calls c') := by
    intro c' hc
    unfold Server.Calls
    rw [(hothers c' hc).1]
  refine ⟨fun c' out hc hp => ?_, fun c' hc => ?_, fun c' hc => ?_, fun c' c'' hne hc hc' => ?_⟩
  · by_cases he : c' = c
    · subst he
      exact (hself hc).1 out hp
    · obtain ⟨_, hpipe, hb, hcall⟩ := hothers c' he
      rw [hcall, hb]
      exact h.reply c' out ((hcalls c' he).mp hc) (hpipe ▸ hp)
  · by_cases he : c' = c
    · subst he
      exact hbytes hc
    · obtain ⟨_, hpipe, hb, _⟩ := hothers c' he
      rw [hb]
      rw [hpipe, hcalls c' he] at hc
      exact h.noBytes c' hc
  · by_cases he : c' = c
    · subst he
      exact (hself hc).2.1
    · rw [(hothers c' he).2.2.2]
      exact Nat.lt_of_lt_of_le (h.begun c' ((hcalls c' he).mp hc)) hlen
  · by_cases he : c' = c
    · subst he
      have hc'' : c'' ≠ c' := hne.symm
      rw [(hothers c'' hc'').2.2.2]
      exact (hself hc).2.2 c'' hc'' ((hcalls c'' hc'').mp hc')
    · by_cases he' : c'' = c
      · subst he'
        rw [(hothers c' he).2.2.2]
        exact ((hself hc').2.2 c' he ((hcalls c' he).mp hc)).symm
      · rw [(hothers c' he).2.2.2, (hothers c'' he').2.2.2]
        exact h.apart c' c'' hne ((hcalls c' he).mp hc) ((hcalls c'' he').mp hc')

/-! ## The steps with calls -/

section
variable {d d' : Service} {w : Nat → Spot} {order : List (Nat × (Int × List UInt8))}
  {st : Store CString UInt8} (h : d.InOrder w order st)
include h

/-- A worker makes the call of its request: this is the moment of the call. -/
theorem Service.InOrder.operate {i : Nat} (hok : Allowed d (.operate i))
    (he : serviceStep d (.operate i) = some d') : ∃ order' st', d'.InOrder w order' st' := by
  simp only [serviceStep] at he
  split at he
  · cases he
  split at he
  · rename_i m fclient call hrun hcall hans
    obtain ⟨r, hr, rfl⟩ := Option.map_eq_some_iff.mp he
    have ht : Token d.server.serverPipe d.server.receiver d.server.box (.worker i) m .served :=
      .worker hrun rfl
    obtain ⟨_, ⟨hmount, hunmount, _⟩, _⟩ := (h.server.box i).worker _ hrun
    have hin := h.carries.worker i _ hrun (by simp [Stage.phase])
    unfold Service.InHands at hin
    rw [hans] at hin
    obtain ⟨x, hx, hop, hno⟩ := hin hmount hunmount
    rw [hcall, Option.some.injEq] at hop
    subst hop
    -- the file system answers like the store
    obtain ⟨r', s', hr', hshown, hshows⟩ := h.shows.exec (h.shows.careful (hok _ hcall))
    obtain rfl : r = (r', s') := Option.some.inj (hr.symm.trans hr')
    rw [storeExec_opOf] at hshown hshows
    have hanswer : (r'.ret, r'.bytes) = (answerIn limits st x.op).1 := by
      have hret := congrArg (fun y => y.1) hshown
      have hbytes := congrArg (fun y => y.2.1) hshown
      exact Prod.ext hret hbytes
    have hasked : ∀ {y m' p call}, Token d.server.serverPipe d.server.receiver d.server.box y m' p →
        y ≠ .worker i → d.Asked order m' call →
        d.Asked (order ++ [(d.callOf m.client, (answerIn limits st x.op).1)]) m' call := by
      intro y m' p call ht' hy ha hmount' hunmount'
      obtain ⟨x', hx', hop', hno'⟩ := ha hmount' hunmount'
      refine ⟨x', hx', hop', fun hc => ?_⟩
      rw [List.map_append, List.mem_append, List.map_singleton, List.mem_singleton] at hc
      refine hc.elim hno' ?_
      exact h.replies.apart _ _ (h.server.other (h.server.token ht).1 ht' hy)
        (h.server.calls ht' hmount' hunmount') (h.server.calls ht hmount hunmount)
    refine ⟨order ++ [(d.callOf m.client, (answerIn limits st x.op).1)], (answerIn limits st x.op).2,
      h.server, h.lin.point hx hno, hshows, ?_, ?_⟩
    · refine h.carries.grow rfl rfl rfl rfl rfl rfl (fun ht' hy ha => hasked ht' (hy i) ha)
        (fun j hh hrun' hp ha => ?_) fun j hj hidle => ?_
      · by_cases hji : j = i
        · subst hji
          obtain rfl := Worker.running.inj (hrun'.symm.trans hrun)
          unfold Service.InHands
          simp only [Function.update_self, hanswer]
          exact List.mem_append_right _ List.mem_cons_self
        · obtain ⟨p, hp⟩ := Option.ne_none_iff_exists'.mp hp
          exact ha.mono (Function.update_of_ne hji ..) rfl
            (fun _ => hasked (.worker hrun' hp) (by simpa using hji))
            fun _ hb => List.mem_append_left _ hb
      · have hji : j ≠ i := by
          rintro rfl
          exact hidle m fclient hrun
        simp only [Function.update_of_ne hji]
        exact hj
    · exact ⟨fun c out hc hp => List.mem_append_left _ (h.replies.reply c out hc hp),
        h.replies.noBytes, h.replies.begun, h.replies.apart⟩
  · cases he

/-- A client sends the request of a call. -/
theorem Service.InOrder.request {c : Nat} {call : FileCall}
    (he : serviceStep d (.request c call) = some d') : ∃ w', d'.InOrder w' order st := by
  simp only [serviceStep] at he
  split at he
  · obtain ⟨s, hs, rfl⟩ := Option.map_eq_some_iff.mp he
    obtain ⟨w', hinv⟩ := h.server.client_step (a := .call c (opCodeOf call)) hs
    simp only [serverStep, clientStep] at hs
    split at hs
    · rename_i id left hc
      split at hs <;> cases hs
      have hw := h.server.ready c id left hc
      have hempty := h.server.no_reply (c := c) (by simp [hw])
      have hne : ∀ {x m p}, Token d.server.serverPipe d.server.receiver d.server.box x m p →
          m.client ≠ c := fun ht => h.server.other hw ht (by cases ht <;> simp)
      have hasked : ∀ {x m p o}, Token d.server.serverPipe d.server.receiver d.server.box x m p →
          d.Asked order m o → Service.Asked { d with
            history := d.history.call call
            callOf := Function.update d.callOf c d.history.calls.length } order m o := by
        intro x m p o ht ha hmount hunmount
        obtain ⟨y, hy, hop, hno⟩ := ha hmount hunmount
        simp only [Function.update_of_ne (hne ht)]
        refine ⟨y, ?_, hop, hno⟩
        rw [d.history.call_of_lt call (List.getElem?_eq_some_iff.mp hy).1]
        exact hy
      refine ⟨w', hinv, h.lin.call call, h.shows, ?_, ?_⟩
      · refine ⟨?_, fun m hm => hasked (.copying hm) (h.carries.receiver m hm),
          fun i m hr hi => hasked (.box hr hi) (h.carries.box i m hr hi), fun i hh hrun hp => ?_,
          h.carries.idle⟩
        · refine List.rel_append (forall₂_of_mem h.carries.pipe fun m hm o => hasked (.pipe hm))
            (.cons (fun _ _ => ?_) .nil)
          simp only [Function.update_self]
          exact ⟨_, d.history.call_last call, rfl, fun hc =>
            absurd (h.lin.lt_of_mem hc) (Nat.lt_irrefl _)⟩
        · obtain ⟨p, hp'⟩ := Option.ne_none_iff_exists'.mp hp
          have ht : Token d.server.serverPipe d.server.receiver d.server.box (.worker i) hh.msg p :=
            .worker hrun hp'
          refine (h.carries.worker i hh hrun hp).mono rfl rfl (fun _ => hasked ht) fun b hb => ?_
          simp only [Function.update_of_ne (hne ht)]
          exact hb
      · refine h.replies.of_client c (fun c' hc' => ?_) ?_ (fun _ => ⟨?_, ?_, ?_⟩) fun _ => ?_
        · exact ⟨Function.update_of_ne hc' .., rfl, rfl, Function.update_of_ne hc' ..⟩
        · simp [History.call]
        · intro out hp
          simp [Server.send, Server.setClient, hempty] at hp
        · simp [History.call]
        · intro c' hc' hcalls
          have := h.replies.begun c' hcalls
          simp only [Function.update_self]
          omega
        · exact h.replies.noBytes c (Or.inl hempty)
    · cases hs
  · cases he

end

/-! ## The other steps -/

section
variable {d : Service} {w : Nat → Spot} {order : List (Nat × (Int × List UInt8))}
  {st : Store CString UInt8} (h : d.InOrder w order st) {s : Server} {w' : Nat → Spot}
  (hinv : s.Inv w')
include h hinv

/-- A client sends a mount or an unmount. -/
theorem Service.InOrder.sent (pipe : Nat → List Int) {c : Nat} {m : Message} {p : Client}
    {bytes : Nat → List UInt8} (hs : s = Server.send { d.server with clientPipe := pipe } m p) (hm : m.client = c)
    (hop : m.opCode = .mount ∨ m.opCode = .unmount) (hp : ∀ id left, p ≠ .calling id left)
    (hothers : ∀ c', c' ≠ c → pipe c' = d.server.clientPipe c' ∧ bytes c' = d.replyBytes c')
    (hself : bytes c = []) :
    Service.InOrder { d with
      server := s, pipeCalls := d.pipeCalls ++ [none], replyBytes := bytes } w' order st := by
  have hclient : ∀ c', c' ≠ c → s.client c' = d.server.client c' := by
    intro c' hc
    rw [hs]
    exact Function.update_of_ne (hm ▸ hc) ..
  refine ⟨hinv, h.lin, h.shows, ?_, ?_⟩
  · refine ⟨?_, ?_, ?_, ?_, ?_⟩ <;> subst hs
    · refine List.rel_append h.carries.pipe (.cons (fun hmount hunmount => ?_) .nil)
      exact (hop.elim hmount hunmount).elim
    · exact h.carries.receiver
    · exact h.carries.box
    · exact h.carries.worker
    · exact h.carries.idle
  · refine h.replies.of_client c (fun c' hc => ⟨hclient c' hc, ?_, (hothers c' hc).2, rfl⟩) le_rfl ?_
      fun _ => hself
    · rw [hs]
      exact (hothers c' hc).1
    · rintro ⟨id, left, hcl⟩
      have hnew : s.client c = p := by
        rw [hs, ← hm]
        exact Function.update_self ..
      exact absurd (hnew.symm.trans hcl) (hp id left)

/-- A client reads the reply to its call, or to a mount or an unmount. -/
theorem Service.InOrder.readReply {c : Nat}
    (hs : clientStep d.server (.readReply c) = some s) :
    Service.InOrder { d.carry (.readReply c) with server := s } w' order st := by
  cases clientStep_moves hs with
  | @readReply _ out rest hp _ _ =>
    obtain ⟨_, _, hout, hfits⟩ := (h.server.reply c).resolve_left (by simp [hp])
    rw [hp] at hout
    cases hout
    have hothers : ∀ c', c' ≠ c →
        ((d.server.setPipe c []).setClient c ((d.server.client c).afterReply out)).client c' =
          d.server.client c' ∧
        (d.server.setPipe c []).clientPipe c' = d.server.clientPipe c' := fun c' hc =>
      ⟨Function.update_of_ne hc .., d.server.setPipe_other hc []⟩
    have hdone : ¬ ((d.server.setPipe c []).setClient c
        ((d.server.client c).afterReply out)).Calls c := by
      rintro ⟨id, left, hcl⟩
      have hself : ((d.server.setPipe c []).setClient c ((d.server.client c).afterReply out)).client c =
          (d.server.client c).afterReply out := Function.update_self ..
      exact afterReply_not_calling hfits id left (hself.symm.trans hcl)
    by_cases hcalls : d.server.Calls c
    · obtain ⟨id, left, hcl⟩ := id hcalls
      have hcarry : d.carry (.readReply c) = { d with
          history := d.history.ret (d.callOf c) (out, d.replyBytes c)
          replyBytes := Function.update d.replyBytes c [] } := by
        simp only [Service.carry, hcl, hp]
      have hasked : ∀ m call, d.Asked order m call → Service.Asked { d with
          history := d.history.ret (d.callOf c) (out, d.replyBytes c) } order m call := by
        intro m call ha hmount hunmount
        obtain ⟨x, hx, hop, hno⟩ := ha hmount hunmount
        obtain ⟨x', hx', hop'⟩ := GoOn.ret d.history (d.callOf c) (out, d.replyBytes c) _ x hx
        exact ⟨x', hx', hop'.symm ▸ hop, hno⟩
      rw [hcarry]
      refine ⟨hinv, h.lin.ret (h.replies.reply c out hcalls hp), h.shows, ?_, ?_⟩
      · refine h.carries.grow rfl rfl rfl rfl rfl rfl (fun _ _ ha => hasked _ _ ha)
          (fun i hh _ _ hin => ?_) fun _ hnone _ => hnone
        exact hin.mono rfl rfl (hasked _) fun _ hb => hb
      · refine h.replies.of_client c (fun c' hc => ?_) ?_ (fun hc => absurd hc hdone)
          fun _ => Function.update_self ..
        · exact ⟨(hothers c' hc).1, (hothers c' hc).2, Function.update_of_ne hc .., rfl⟩
        · simp [History.ret]
    · have hcarry : d.carry (.readReply c) = d := by
        simp only [Service.carry]
        split
        · rename_i hcl _
          exact absurd ⟨_, _, hcl⟩ hcalls
        · rfl
      rw [hcarry]
      refine ⟨hinv, h.lin, h.shows, ?_, ?_⟩
      · exact ⟨h.carries.pipe, h.carries.receiver, h.carries.box, h.carries.worker, h.carries.idle⟩
      · exact h.replies.of_client c (fun c' hc => ⟨(hothers c' hc).1, (hothers c' hc).2, rfl, rfl⟩)
          le_rfl (fun hc => absurd hc hdone) fun _ => h.replies.noBytes c (Or.inr hcalls)

theorem Service.InOrder.client_step {a : ServerStep} (hready : d.ready a = true)
    (hs : clientStep d.server a = some s) :
    Service.InOrder { d.carry a with server := s } w' order st := by
  cases clientStep_moves hs with
  | @tfsMount c _ =>
    exact h.sent hinv (Function.update d.server.clientPipe c []) rfl rfl (Or.inl rfl)
      (by simp) (fun c' hc => ⟨Function.update_of_ne hc .., Function.update_of_ne hc ..⟩)
      (Function.update_self ..)
  | @tfsUnmount c _ _ hc =>
    refine h.sent hinv d.server.clientPipe rfl rfl (Or.inr rfl) (by simp)
      (fun _ _ => ⟨rfl, rfl⟩) (h.replies.noBytes c (Or.inr ?_))
    rintro ⟨id, left, hcl⟩
    rw [hc] at hcl
    cases hcl
  | readReply _ _ _ => exact h.readReply hinv hs
  | call _ _ _ => cases hready

/-! ### The receiver -/

/-- The receiver takes a message off the pipe, and its call with it. -/
theorem Service.InOrder.receive {m : Message} {rest : List Message}
    (hp : d.server.serverPipe = m :: rest) (hrest : s.serverPipe = rest)
    (hbox : s.box = d.server.box) (hclient : s.client = d.server.client)
    (hclientPipe : s.clientPipe = d.server.clientPipe)
    (hreceiver : ∀ m', s.receiver = .copying m' → m' = m ∨ m'.opCode = .mount) :
    Service.InOrder { d.carry .receive with server := s } w' order st := by
  have hpipe := h.carries.pipe
  rw [hp] at hpipe
  rcases hcalls : d.pipeCalls with _ | ⟨call, calls⟩
  · rw [hcalls] at hpipe
    cases hpipe
  rw [hcalls] at hpipe
  obtain ⟨hm, hcarried⟩ := List.forall₂_cons.mp hpipe
  have hcarry : d.carry .receive = { d with receiverCall := call, pipeCalls := calls } := by
    simp only [Service.carry, hcalls, List.headD_cons, List.tail_cons]
  rw [hcarry]
  refine ⟨hinv, h.lin, h.shows, ?_, h.replies.congr hclient hclientPipe rfl rfl rfl⟩
  refine ⟨?_, fun m' hm' => ?_, ?_, ?_, ?_⟩ <;> simp only [hrest, hbox]
  · exact hcarried
  · rcases hreceiver m' hm' with rfl | hmount
    · exact hm
    · exact fun hno => absurd hmount hno
  · exact h.carries.box
  · exact h.carries.worker
  · exact h.carries.idle

theorem Service.InOrder.receiver_step {a : ServerStep} (hs : receiverStep d.server a = some s) :
    Service.InOrder { d.carry a with server := s } w' order st := by
  cases receiverStep_moves hs with
  | reserve _ hp hop _ =>
    refine h.receive hinv hp rfl rfl rfl rfl fun m' hm' => Or.inr ?_
    cases hm'
    exact hop
  | full _ hp _ _ => exact h.receive hinv hp rfl rfl rfl rfl fun m' hm' => by cases hm'
  | request _ hp _ _ =>
    refine h.receive hinv hp rfl rfl rfl rfl fun m' hm' => Or.inl ?_
    cases hm'
    rfl
  | refuseFailed hr hreply =>
    rw [(h.server.refuse hr).1] at hreply
    cases hreply
  | @refuse c _ hr hreply =>
    rw [(h.server.refuse hr).1, Option.some.injEq] at hreply
    subst hreply
    have hclient : d.server.client c = .mounting :=
      (h.server.token (.refusing hr)).2.client
    have hno : ¬ d.server.Calls c := by
      rintro ⟨id, left, hcl⟩
      rw [hclient] at hcl
      cases hcl
    refine ⟨hinv, h.lin, h.shows, ?_, ?_⟩
    · exact ⟨h.carries.pipe, fun m hm => (by cases hm), h.carries.box, h.carries.worker,
        h.carries.idle⟩
    · exact h.replies.of_client c
        (fun c' hc => ⟨rfl, d.server.setPipe_other hc _, rfl, rfl⟩) le_rfl
        (fun hc => absurd hc hno) fun _ => h.replies.noBytes c (Or.inr hno)
  | @copy m hr _ =>
    have hcarry : d.carry .writeToBufferPC =
        { d with boxCall := Function.update d.boxCall m.sessionID d.receiverCall } := by
      simp only [Service.carry, hr]
    rw [hcarry]
    refine ⟨hinv, h.lin, h.shows, ?_, h.replies.congr rfl rfl rfl rfl rfl⟩
    have hworker : ∀ j, ((d.server.setBox m.sessionID
        { d.server.box m.sessionID with readable := true, info := some m }).box j).worker =
          (d.server.box j).worker := by
      intro j
      by_cases hj : j = m.sessionID
      · rw [hj, d.server.setBox_self]
      · rw [d.server.setBox_other hj]
    refine ⟨h.carries.pipe, fun _ hm => (by cases hm), fun j m' hread hi => ?_,
      fun j hh hrun => h.carries.worker j hh ((hworker j).symm.trans hrun),
      fun j hno => h.carries.idle j fun m' f hrun => hno m' f ((hworker j).trans hrun)⟩
    by_cases hj : j = m.sessionID
    · subst hj
      simp only [d.server.setBox_self, Option.some.injEq] at hi
      subst hi
      simp only [Function.update_self]
      exact h.carries.receiver m hr
    · simp only [d.server.setBox_other hj] at hread hi
      simp only [Function.update_of_ne hj]
      exact h.carries.box j m' hread hi
  | @signal i hr =>
    refine ⟨hinv, h.lin, h.shows, ?_, h.replies.congr rfl rfl rfl rfl rfl⟩
    refine h.carries.of_box i (d.server.box i).signal rfl (fun m hm => by cases hm) rfl
      ⟨rfl, rfl, rfl, rfl, rfl⟩ (fun _ _ => ⟨rfl, rfl⟩) ?_ ?_ ?_ <;>
      rcases (d.server.box i).signal_cases with ⟨hw, he⟩ | ⟨_, he⟩ <;> rw [he]
    · exact fun hread => ⟨hread, rfl⟩
    · exact fun hread => ⟨hread, rfl⟩
    · exact fun hh hrun => by cases hrun
    · exact h.carries.worker i
    · exact fun _ => h.carries.idle i fun m f hrun => by rw [hw] at hrun; cases hrun
    · exact h.carries.idle i

end

/-! ### The workers -/

/-- What a step of the handler does to the messages and the replies. -/
structure HandlerStep (s : Server) (i : Nat) (m : Message) (st : Stage) (out : Int) (s' : Server)
    (wk : Worker Handler) : Prop where
  box : s'.box = (s.setWorker i wk).box
  serverPipe : s'.serverPipe = s.serverPipe
  receiver : s'.receiver = s.receiver
  client : s'.client = s.client
  /-- The worker goes on with the same request, or is done with it. -/
  worker : ∀ hh, wk = .running hh → hh.msg = m ∧
    (hh.stage.phase ≠ none → st.phase ≠ none ∧ ∀ fclient, st ≠ .replyCall fclient)
  /-- A reply comes to the client of the request. -/
  pipe : (s'.clientPipe = s.clientPipe ∧ ∀ fclient, st ≠ .replyCall fclient) ∨
    ∃ out', s'.clientPipe = (s.setPipe m.client (s.clientPipe m.client ++ [out'])).clientPipe ∧
      ((¬ s.Calls m.client ∧ ∀ fclient, st ≠ .replyCall fclient) ∨
        (st = .replyCall (.mounted m.client) ∧ out' = out))

theorem Server.Inv.handlerStep {s s' : Server} {w : Nat → Spot} (h : s.Inv w) {i : Nat}
    {m : Message} {st : Stage} {out : Int} (hrun : (s.box i).worker = .running ⟨m, st⟩)
    (he : s.handle i m out st = some s') : ∃ wk, HandlerStep s i m st out s' wk := by
  -- only a client that mounts or unmounts can be at a reply before the one to a call
  have hno : ∀ p, st.phase = some p → m.opCode = .mount ∨ m.opCode = .unmount →
      ¬ s.Calls m.client := by
    rintro p hp hop ⟨id, left, hc⟩
    have hclient := (h.token (.worker hrun hp)).2.client
    simp only at hclient
    rw [hc] at hclient
    rcases hop with hop | hop <;> simp [Message.waits, hop] at hclient
  cases h.handle_cases hrun he with
  | openClientSession =>
    exact ⟨_, rfl, rfl, rfl, rfl, fun hh hw => by cases hw; simp [Stage.phase],
      Or.inl ⟨rfl, by simp⟩⟩
  | replyMount hop =>
    obtain ⟨wk, hb, hwk, _, _, _, hp, hr, hc, _, hq⟩ := Server.returns_cases
      (s.setPipe m.client (s.clientPipe m.client ++ [(m.sessionID : Int)])) i m
    refine ⟨wk, hb, hp, hr, hc, fun hh hw => ?_,
      Or.inr ⟨_, hq, Or.inl ⟨hno .opened rfl (Or.inl hop), by simp⟩⟩⟩
    rcases hwk with rfl | rfl <;> cases hw
  | readUnmount _ =>
    exact ⟨_, rfl, rfl, rfl, rfl, fun hh hw => by cases hw; simp [Stage.phase],
      Or.inl ⟨rfl, by simp⟩⟩
  | readCall _ _ =>
    exact ⟨_, rfl, rfl, rfl, rfl, fun hh hw => by cases hw; simp [Stage.phase],
      Or.inl ⟨rfl, by simp⟩⟩
  | finishFirst _ =>
    exact ⟨_, rfl, rfl, rfl, rfl, fun hh hw => by cases hw; simp [Stage.phase],
      Or.inl ⟨rfl, by simp⟩⟩
  | replyUnmount hop =>
    exact ⟨_, rfl, rfl, rfl, rfl, fun hh hw => by cases hw; simp [Stage.phase],
      Or.inr ⟨_, rfl, Or.inl ⟨hno .finished rfl (Or.inr hop), by simp⟩⟩⟩
  | finishAgain =>
    obtain ⟨wk, hb, hwk, _, _, _, hp, hr, hc, _, hq⟩ :=
      (s.setFHandle m.sessionID .free).returns_cases i m
    refine ⟨wk, hb, hp, hr, hc, fun hh hw => ?_, Or.inl ⟨hq, by simp⟩⟩
    rcases hwk with rfl | rfl <;> cases hw
  | replyCall _ _ =>
    obtain ⟨wk, hb, hwk, _, _, _, hp, hr, hc, _, hq⟩ := Server.returns_cases
      (s.setPipe m.client (s.clientPipe m.client ++ [out])) i m
    refine ⟨wk, hb, hp, hr, hc, fun hh hw => ?_, Or.inr ⟨_, hq, Or.inr ⟨rfl, rfl⟩⟩⟩
    rcases hwk with rfl | rfl <;> cases hw

section
variable {d : Service} {w : Nat → Spot} {order : List (Nat × (Int × List UInt8))}
  {st : Store CString UInt8} (h : d.InOrder w order st) {s : Server} {w' : Nat → Spot}
  (hinv : s.Inv w')
include h hinv

/-- A worker replies with what its operation has given. -/
theorem Service.InOrder.replyCall {i : Nat} {out : Int} {m : Message} {wk : Worker Handler}
    (hrun : (d.server.box i).worker = .running ⟨m, .replyCall (.mounted m.client)⟩)
    (hready : d.ready (.runClientRequest i out) = true)
    (hstep : HandlerStep d.server i m (.replyCall (.mounted m.client)) out s wk)
    (hpipe : s.clientPipe =
      (d.server.setPipe m.client (d.server.clientPipe m.client ++ [out])).clientPipe) :
    Service.InOrder { d.carry (.runClientRequest i out) with server := s } w' order st := by
  have ht : Token d.server.serverPipe d.server.receiver d.server.box (.worker i) m .served :=
    .worker hrun rfl
  obtain ⟨_, ⟨hmount, hunmount, _⟩, _⟩ := (h.server.box i).worker _ hrun
  have hcalls := h.server.calls ht hmount hunmount
  have hempty := h.server.no_reply (c := m.client) (by simp [(h.server.token ht).1])
  have hin : d.server.client m.client ≠ .outside := by
    obtain ⟨_, _, hc⟩ := hcalls
    rw [hc]
    simp
  -- the answer of the operation is the one in the order
  obtain ⟨⟨out', bytes⟩, hans, rfl⟩ : ∃ b, d.answer i = some b ∧ b.1 = out := by
    simp only [Service.ready, hrun, beq_iff_eq] at hready
    exact Option.map_eq_some_iff.mp hready
  have hmem : (d.callOf m.client, (out', bytes)) ∈ order := by
    have hhands := h.carries.worker i _ hrun (by simp [Stage.phase])
    unfold Service.InHands at hhands
    rw [hans] at hhands
    exact hhands
  have hbytes : d.replyBytes m.client ++ bytes = bytes := by
    rw [h.replies.noBytes _ (Or.inl hempty), List.nil_append]
  have hcarry : d.carry (.runClientRequest i out') = { d with
      replyBytes := Function.update d.replyBytes m.client bytes
      answer := Function.update d.answer i none } := by
    simp only [Service.carry, hrun, Service.writeBytes, hin, if_false, hans, Option.map_some,
      Option.getD_some, hbytes]
  have hreply : s.clientPipe m.client = [out'] := by
    rw [hpipe, hempty]
    exact Function.update_self ..
  have hstill : s.Calls m.client := by
    unfold Server.Calls
    rw [hstep.client]
    exact hcalls
  rw [hcarry]
  refine ⟨hinv, h.lin, h.shows, ?_, ?_⟩
  · refine h.carries.of_box i { d.server.box i with worker := wk } hstep.serverPipe
      (fun m' hm' => hstep.receiver ▸ hm') hstep.box ⟨rfl, rfl, rfl, rfl, rfl⟩
      (fun j hj => ⟨rfl, Function.update_of_ne hj ..⟩) (fun hread => ⟨hread, rfl⟩)
      (fun hh hw hp => ?_) fun _ => Function.update_self ..
    exact absurd rfl (((hstep.worker hh hw).2 hp).2 _)
  · refine h.replies.of_client m.client (fun c hc => ⟨congrFun hstep.client c,
      hpipe ▸ d.server.setPipe_other hc _, Function.update_of_ne hc .., rfl⟩) le_rfl
      (fun _ => ⟨fun out hout => ?_, h.replies.begun _ hcalls, fun c hc hc' =>
        h.replies.apart _ _ hc.symm hcalls hc'⟩) fun hc => ?_
    · rw [hreply, List.singleton_inj] at hout
      simp only [Function.update_self]
      exact hout ▸ hmem
    · rw [hreply] at hc
      exact hc.elim (fun he => by cases he) fun hno => absurd hstill hno

/-- A step of a handler that makes no call, or replies to it. -/
theorem Service.InOrder.handle {i : Nat} {out : Int} {m : Message} {stage : Stage}
    (hrun : (d.server.box i).worker = .running ⟨m, stage⟩)
    (hready : d.ready (.runClientRequest i out) = true)
    (hs : d.server.handle i m out stage = some s) :
    Service.InOrder { d.carry (.runClientRequest i out) with server := s } w' order st := by
  obtain ⟨wk, hstep⟩ := h.server.handlerStep hrun hs
  have hkeeps : (∀ fclient, stage ≠ .replyCall fclient) →
      d.carry (.runClientRequest i out) = d ∧ Service.Carries { d with server := s } order := by
    intro hno
    have hnone : d.answer i = none := h.carries.idle i fun m' f hrun' => by
      rw [hrun] at hrun'
      cases hrun'
      exact hno f rfl
    constructor
    · simp only [Service.carry, hrun]
      split
      · rename_i hw
        cases hw
        exact absurd rfl (hno _)
      · rfl
    · refine h.carries.of_box i { d.server.box i with worker := wk } hstep.serverPipe
        (fun m' hm' => hstep.receiver ▸ hm') hstep.box ⟨rfl, rfl, rfl, rfl, rfl⟩
        (fun _ _ => ⟨rfl, rfl⟩) (fun hread => ⟨hread, rfl⟩) (fun hh hw hp => ?_) fun _ => hnone
      obtain ⟨hmsg, hphase⟩ := hstep.worker hh hw
      rw [hmsg]
      exact h.carries.worker i _ hrun (hphase hp).1
  rcases hstep.pipe with ⟨hpipe, hno⟩ | ⟨out', hpipe, ⟨hcalls, hno⟩ | ⟨rfl, rfl⟩⟩
  · obtain ⟨hcarry, hcarries⟩ := hkeeps hno
    rw [hcarry]
    exact ⟨hinv, h.lin, h.shows, hcarries, h.replies.congr hstep.client hpipe rfl rfl rfl⟩
  · obtain ⟨hcarry, hcarries⟩ := hkeeps hno
    rw [hcarry]
    have hstill : ¬ s.Calls m.client := by
      unfold Server.Calls
      rw [hstep.client]
      exact hcalls
    refine ⟨hinv, h.lin, h.shows, hcarries, h.replies.of_client m.client (fun c hc => ?_) le_rfl
      (fun hc => absurd hc hstill) fun _ => h.replies.noBytes _ (Or.inr hcalls)⟩
    exact ⟨congrFun hstep.client c, hpipe ▸ d.server.setPipe_other hc _, rfl, rfl⟩
  · exact h.replyCall hinv hrun hready hstep hpipe

theorem Service.InOrder.worker_step {a : ServerStep} (hready : d.ready a = true)
    (hs : workerStep d.server a = some s) :
    Service.InOrder { d.carry a with server := s } w' order st := by
  -- a worker that runs nothing before and after the step
  have hquiet : ∀ i b, s = d.server.setBox i b → (∀ hh, (d.server.box i).worker ≠ .running hh) →
      (∀ hh, b.worker ≠ .running hh) →
      (b.readable = true → (d.server.box i).readable = true ∧ b.info = (d.server.box i).info) →
      Service.InOrder { d with server := s } w' order st := by
    rintro i b rfl hold hnew hread
    refine ⟨hinv, h.lin, h.shows, ?_, h.replies.congr rfl rfl rfl rfl rfl⟩
    exact h.carries.of_box i b rfl (fun _ hm => hm) rfl ⟨rfl, rfl, rfl, rfl, rfl⟩
      (fun _ _ => ⟨rfl, rfl⟩) hread (fun hh hw => absurd hw (hnew hh))
      fun _ => h.carries.idle i fun m f => hold _
  cases a with
  | lock i =>
    obtain ⟨b, hb, rfl⟩ := Option.map_eq_some_iff.mp hs
    rcases Mailbox.lock_eq_some hb with ⟨hw, rfl⟩ | ⟨hw, rfl⟩
    · exact hquiet i _ rfl (by simp [hw]) (by simp) fun hread => ⟨hread, rfl⟩
    · exact hquiet i _ rfl (by simp [hw]) (by simp) fun hread => ⟨hread, rfl⟩
  | test i =>
    obtain ⟨b, hb, rfl⟩ := Option.map_eq_some_iff.mp hs
    obtain ⟨hw, rfl⟩ := Mailbox.test_eq_some hb
    refine hquiet i _ rfl (by simp [hw]) (fun hh => ?_) fun hread => ⟨hread, rfl⟩
    cases (d.server.box i).readable <;> simp
  | readFromBufferPC i =>
    obtain ⟨b, hb, rfl⟩ := Option.map_eq_some_iff.mp hs
    obtain ⟨m, hw, hi, rfl⟩ := Mailbox.take_eq_some hb
    have hreadable := (h.server.box i).wake (Or.inl hw)
    have hnone : d.answer i = none := h.carries.idle i fun m' f hrun => by
      rw [hw] at hrun
      cases hrun
    refine ⟨hinv, h.lin, h.shows, ?_, h.replies.congr rfl rfl rfl rfl rfl⟩
    refine h.carries.of_box i
      { d.server.box i with readable := false, worker := .running (handlerOf m) } rfl
      (fun _ hm => hm) rfl ⟨rfl, rfl, rfl, rfl, rfl⟩ (fun j hj => ⟨Function.update_of_ne hj .., rfl⟩)
      (fun hread => by cases hread) (fun hh hrun _ => ?_) fun _ => hnone
    cases hrun
    unfold Service.InHands
    simp only [Service.carry, hnone, Function.update_self]
    exact h.carries.box i m hreadable hi
  | runClientRequest i out =>
    simp only [workerStep] at hs
    split at hs
    · exact h.handle hinv (by assumption) hready hs
    · cases hs
  | _ => cases hs

end

/-! ## Whole runs -/

theorem Service.InOrder.step {d d' : Service} {w : Nat → Spot}
    {order : List (Nat × (Int × List UInt8))} {st : Store CString UInt8}
    (h : d.InOrder w order st) {a : ServiceStep} (hok : Allowed d a)
    (he : serviceStep d a = some d') : ∃ w' order' st', d'.InOrder w' order' st' := by
  cases a with
  | request c call =>
    obtain ⟨w', h'⟩ := h.request he
    exact ⟨w', order, st, h'⟩
  | operate i =>
    obtain ⟨order', st', h'⟩ := h.operate hok he
    exact ⟨w, order', st', h'⟩
  | server a =>
    obtain ⟨hready, he⟩ := Option.ite_none_right_eq_some.mp he
    obtain ⟨s, hs, rfl⟩ := Option.map_eq_some_iff.mp he
    obtain ⟨w', hinv⟩ := h.server.step hok hs
    refine ⟨w', order, st, ?_⟩
    rcases serverStep_cases hs with hs | hs | hs
    · exact h.client_step hinv hready hs
    · exact h.receiver_step hinv hs
    · exact h.worker_step hinv hready hs

theorem Initial.service_inOrder {fs : State} (hfs : Initial fs) :
    (firstService fs).InOrder (fun _ => .nowhere) [] file_store.empty where
  server := firstServer_inv
  lin := .first _
  shows := hfs.shows
  carries := ⟨.nil, fun m hm => (by cases hm), fun i m hr => (by cases hr),
    fun i hh hw => (by cases hw), fun _ _ => rfl⟩
  replies := by
    have hno : ∀ c, ¬ (firstService fs).server.Calls c := by
      rintro c ⟨_, _, hc⟩
      cases hc
    exact ⟨fun c _ hc => absurd hc (hno c), fun _ _ => rfl, fun c hc => absurd hc (hno c),
      fun c _ _ hc => absurd hc (hno c)⟩

/-- In every run of the clients, the receiver and the workers, in whatever order they step, the
calls of the clients answer like one store of files. -/
theorem all_clients_see_one_store {fs : State} (hfs : Initial fs) {as : List ServiceStep}
    (hm : steps.Meets serviceStep Allowed (firstService fs) as) :
    steps.Always serviceStep OneStore (firstService fs) as := by
  have hall : steps.Always serviceStep (fun d => ∃ w order st, d.InOrder w order st)
      (firstService fs) as :=
    steps.always_of_meets (fun _ _ _ ⟨_, _, _, h⟩ hok he => h.step hok he)
      ⟨_, _, _, hfs.service_inOrder⟩ hm
  exact hall.mono fun _ ⟨_, order, st, h⟩ => ⟨order, st, h.lin.toLinearization, h.shows⟩

/-- A client mounts session 0 and creates a file. -/
def mountsAndOpens : List ServiceStep :=
  [.server (.tfsMount 5), .server .receive, .server .writeToBufferPC, .server .signal,
   .server (.lock 0), .server (.test 0), .server (.readFromBufferPC 0),
   .server (.runClientRequest 0 0), .server (.runClientRequest 0 0), .server (.readReply 5),
   .request 5 (.tfsOpen pathA TFS_O_CREAT), .server .receive, .server (.test 0),
   .server .writeToBufferPC, .server .signal, .server (.lock 0), .server (.readFromBufferPC 0),
   .server (.runClientRequest 0 0), .operate 0, .server (.runClientRequest 0 0),
   .server (.readReply 5)]

theorem a_client_mounts_and_opens :
    steps.Always serviceStep OneStore (firstService firstState) mountsAndOpens := by
  have hopen : ∀ s, CarefulOn s (.tfsOpen (some pathA) TFS_O_CREAT) := fun _ =>
    ⟨fun _ => ⟨pathA, rfl, by decide, by decide⟩, fun hc => absurd hc.1 (by decide)⟩
  apply all_clients_see_one_store firstState_initial
  apply steps.meets_cons rfl id
  apply steps.meets_cons rfl
  · rintro ⟨_, _, _, _, ⟨_, _, hb⟩ | hb⟩ <;> cases hb
  apply steps.meets_cons rfl id
  apply steps.meets_cons rfl
  · rintro ⟨_, hi, hw, _⟩
    cases hi
    cases hw
  apply steps.meets_cons rfl id
  apply steps.meets_cons rfl id
  apply steps.meets_cons rfl id
  apply steps.meets_cons rfl id
  apply steps.meets_cons rfl id
  apply steps.meets_cons rfl id
  apply steps.meets_cons rfl trivial
  apply steps.meets_cons rfl
  · rintro ⟨⟨_, hm, hop⟩, _⟩
    cases hm
    cases hop
  apply steps.meets_cons rfl id
  apply steps.meets_cons rfl id
  apply steps.meets_cons rfl
  · rintro ⟨_, hi, _, hr⟩
    cases hi
    cases hr
  apply steps.meets_cons rfl id
  apply steps.meets_cons rfl id
  apply steps.meets_cons rfl id
  -- the steps behind the operation are allowed in every state
  refine fun _ _ => ⟨fun call hcall => ?_, fun _ _ => ⟨id, fun _ _ => ⟨id, trivial⟩⟩⟩
  cases hcall
  exact hopen _

end tecnicofs.parte2
