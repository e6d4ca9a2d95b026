-- The server answers. While a client waits, its request or the reply is somewhere,
-- some thread of the server can go on, and the work that is left becomes less with
-- every step.
import TecnicoFS.Common.Counting
import TecnicoFS.Lib.Progress
import TecnicoFS.Parte2.Exclusivity
import Mathlib.Algebra.Order.BigOperators.Group.Finset

open progress

namespace tecnicofs.parte2

/-! ## The work that is left -/

/-- How many steps a handler is from its end, at most. -/
def Stage.work : Stage → Nat
  | .finishAgain | .finishFailed => 1
  | .replyMount | .replyUnmount _ _ | .replyCall _ => 2
  | .openClientSession | .finishFirst _ => 3
  | .readFHandle => 4

def Worker.work : Worker Handler → Nat
  | .waiting | .copying | .gone => 0
  | .test | .woken => 1
  | .start => 2
  | .running h => h.stage.work + 1

/-- A request in the buffer is still to be run. -/
def Mailbox.work (b : Mailbox Message Handler) : Nat :=
  b.worker.work + if b.readable then 6 else 0

def ReceiverPlace.work : ReceiverPlace → Nat
  | .reading => 0
  | .refusing _ => 1
  | .signalling _ => 2
  | .copying _ => 9

/-- A bound on the steps of the server until nothing is left to do. -/
def Server.work (s : Server) : Nat :=
  10 * s.serverPipe.length + s.receiver.work + ∑ i ∈ Finset.range S, (s.box i).work

/-- The steps of the receiver and of the workers of the sessions. -/
def ServersOwn : ServerStep → Prop
  | .receive | .sendUserCountFullMessage | .writeToBufferPC | .signal => True
  | .lock i | .test i | .readFromBufferPC i | .runClientRequest i _ => i < S
  | .tfsMount _ | .tfsUnmount _ | .call _ _ | .readReply _ => False

/-! ## No request is lost -/

/-- The client is at the read of a reply. -/
def Client.Waits : Client → Prop
  | .mounting | .calling _ _ | .unmounting _ => True
  | .outside | .ready _ _ => False

/-- The client has a reply, or a request at the server. -/
def Server.Answers (s : Server) (c : Nat) : Prop :=
  s.clientPipe c ≠ [] ∨ ∃ x m p, Token s.serverPipe s.receiver s.box x m p ∧ m.client = c

/-- The sessions in use are sessions of the table, a worker that waits with a request in its buffer
is signalled next, and the server has each client that waits in mind. -/
structure Server.Live (s : Server) : Prop where
  sessions : ∀ i, s.clientsFHandle i ≠ .free → i < S
  used : ∀ i, (s.box i).readable = true ∨ (∃ h, (s.box i).worker = .running h) → i < S
  copying : ∀ m, s.receiver = .copying m → m.sessionID < S
  signalled : ∀ i, (s.box i).readable = true → (s.box i).worker = .waiting →
    s.receiver = .signalling i
  there : s.exited = false → ∀ i, (s.box i).worker ≠ .gone
  answers : ∀ c, (s.client c).Waits → s.Answers c

/-- The message is in the buffer, or in the hands of the worker. -/
def Mailbox.Has (b : Mailbox Message Handler) (m : Message) : Prop :=
  b.info = some m ∨ ∃ h, b.worker = .running h ∧ h.msg = m

/-- The server runs, and no shutdown is on its way to it. -/
structure Server.Running (s : Server) : Prop where
  serverPipe : ∀ m ∈ s.serverPipe, m.opCode ≠ .shutdown
  receiver : ∀ m, s.receiver = .copying m → m.opCode ≠ .shutdown
  box : ∀ i m, (s.box i).Has m → m.opCode ≠ .shutdown
  exited : s.exited = false

/-- The client calls `tfs_shutdown_after_all_closed`. -/
def CallsShutdown : ServerStep → Prop
  | .call _ opCode => opCode = .shutdown
  | _ => False

instance : (a : ServerStep) → Decidable (CallsShutdown a)
  | .call _ _ => inferInstanceAs (Decidable (_ = _))
  | .tfsMount _ | .tfsUnmount _ | .readReply _ | .receive | .sendUserCountFullMessage
  | .writeToBufferPC | .signal | .lock _ | .test _ | .readFromBufferPC _
  | .runClientRequest _ _ => inferInstanceAs (Decidable False)

/-! ## The workers -/

/-- What a step of worker `i` does, which leaves its mailbox as `b`. -/
structure WorkerMoves (s : Server) (i : Nat) (b : Mailbox Message Handler) (s' : Server) : Prop where
  box : s'.box = Function.update s.box i b
  serverPipe : s'.serverPipe = s.serverPipe
  receiver : s'.receiver = s.receiver
  client : s'.client = s.client
  sessions : ∀ j, s'.clientsFHandle j ≠ .free → s.clientsFHandle j ≠ .free ∨
    (j = i ∧ ∃ h, (s.box i).worker = .running h)
  replies : ∀ c, s.clientPipe c ≠ [] → s'.clientPipe c ≠ []
  exits : (s'.exited = false → s.exited = false) ∧ (b.worker = .gone → s'.exited = true)
  messages : ∀ m, b.Has m → (s.box i).Has m
  /-- Only a shutdown ends the server. -/
  ends : s'.exited = true → s.exited = true ∨ ∃ m, (s.box i).Has m ∧ m.opCode = .shutdown
  work : b.work < (s.box i).work
  used : b.readable = true ∨ (∃ h, b.worker = .running h) →
    (s.box i).readable = true ∨ ∃ h, (s.box i).worker = .running h
  waiting : b.worker = .waiting → b.readable = false
  /-- The request in the buffer stays there, or comes to the worker. -/
  inBuffer : ∀ m, (s.box i).readable = true → (s.box i).info = some m →
    (b.readable = true ∧ b.info = some m) ∨
      ∃ h, b.worker = .running h ∧ h.msg = m ∧ h.stage.phase ≠ none
  /-- The request that the worker runs stays there, or is answered. -/
  inHands : ∀ h, (s.box i).worker = .running h → h.stage.phase ≠ none →
    s'.clientPipe h.msg.client ≠ [] ∨
      ∃ h', b.worker = .running h' ∧ h'.msg = h.msg ∧ h'.stage.phase ≠ none

/-- A step in which the worker takes no request, gives none away and touches no session. -/
theorem WorkerMoves.of_setBox {s : Server} {i : Nat} {b : Mailbox Message Handler}
    (hreadable : b.readable = (s.box i).readable) (hinfo : b.info = (s.box i).info)
    (hold : ∀ h, (s.box i).worker ≠ .running h) (hnew : ∀ h, b.worker ≠ .running h)
    (hwait : b.worker = .waiting → b.readable = false) (hgone : b.worker ≠ .gone)
    (hwork : b.worker.work < (s.box i).worker.work) : WorkerMoves s i b (s.setBox i b) where
  box := rfl
  serverPipe := rfl
  receiver := rfl
  client := rfl
  sessions := fun _ hj => Or.inl hj
  replies := fun _ hc => hc
  exits := ⟨id, fun hw => absurd hw hgone⟩
  messages := by
    rintro m (hi | ⟨h, hh, _⟩)
    · exact Or.inl (hinfo ▸ hi)
    · exact absurd hh (hnew h)
  ends := Or.inl
  work := by
    unfold Mailbox.work
    rw [hreadable]
    omega
  used := by
    rintro (hr | ⟨h, hh⟩)
    · exact Or.inl (hreadable ▸ hr)
    · exact absurd hh (hnew h)
  waiting := hwait
  inBuffer := fun m hr hi => Or.inl ⟨hreadable ▸ hr, hinfo ▸ hi⟩
  inHands := fun h hh => absurd hh (hold h)

/-- A step of the handler that leaves worker `i` as `wk`. -/
theorem WorkerMoves.of_handler {s s' : Server} {i : Nat} {h : Handler} {wk : Worker Handler}
    (hrun : (s.box i).worker = .running h) (hbox : s'.box = (s.setWorker i wk).box)
    (hpipe : s'.serverPipe = s.serverPipe) (hreceiver : s'.receiver = s.receiver)
    (hclient : s'.client = s.client)
    (hsessions : ∀ j, s'.clientsFHandle j ≠ .free → s.clientsFHandle j ≠ .free ∨ j = i)
    (hreplies : ∀ c, s.clientPipe c ≠ [] → s'.clientPipe c ≠ [])
    (hexits : (s'.exited = false → s.exited = false) ∧ (wk = .gone → s'.exited = true))
    (hmsg : ∀ h', wk = .running h' → h'.msg = h.msg)
    (hends : s'.exited = true → s.exited = true ∨ h.msg.opCode = .shutdown)
    (hwork : wk.work < h.stage.work + 1) (hwait : wk ≠ .waiting)
    (hhands : h.stage.phase ≠ none → s'.clientPipe h.msg.client ≠ [] ∨
      ∃ h', wk = .running h' ∧ h'.msg = h.msg ∧ h'.stage.phase ≠ none) :
    WorkerMoves s i { s.box i with worker := wk } s' where
  box := hbox
  serverPipe := hpipe
  receiver := hreceiver
  client := hclient
  sessions := fun j hj => (hsessions j hj).imp_right fun he => ⟨he, h, hrun⟩
  replies := hreplies
  exits := hexits
  messages := by
    rintro m (hi | ⟨h', hh, rfl⟩)
    · exact Or.inl hi
    · exact Or.inr ⟨h, hrun, (hmsg h' hh).symm⟩
  ends := fun he => (hends he).imp_right fun hop => ⟨h.msg, Or.inr ⟨h, hrun, rfl⟩, hop⟩
  work := by
    unfold Mailbox.work
    rw [hrun]
    exact Nat.add_lt_add_right hwork _
  used := fun _ => Or.inr ⟨h, hrun⟩
  waiting := fun hw => absurd hw hwait
  inBuffer := fun m hr hi => Or.inl ⟨hr, hi⟩
  inHands := by
    intro h' hh
    rw [hrun] at hh
    cases hh
    exact hhands

/-- How the handler of `m` returns. -/
theorem Server.returns_cases (s : Server) (i : Nat) (m : Message) :
    ∃ wk, (s.returns i m).box = (s.setWorker i wk).box ∧ (wk = .test ∨ wk = .gone) ∧
      (wk = .gone → (s.returns i m).exited = true) ∧
      ((s.returns i m).exited = false → s.exited = false) ∧
      ((s.returns i m).exited = true → s.exited = true ∨ m.opCode = .shutdown) ∧
      (s.returns i m).serverPipe = s.serverPipe ∧ (s.returns i m).receiver = s.receiver ∧
      (s.returns i m).client = s.client ∧ (s.returns i m).clientsFHandle = s.clientsFHandle ∧
      (s.returns i m).clientPipe = s.clientPipe := by
  unfold Server.returns
  split
  · rename_i hop
    exact ⟨.gone, rfl, Or.inr rfl, fun _ => rfl, by simp, fun _ => Or.inr hop, rfl, rfl, rfl, rfl,
      rfl⟩
  · exact ⟨.test, rfl, Or.inl rfl, by simp, id, Or.inl, rfl, rfl, rfl, rfl, rfl⟩

theorem setFHandle_used {s : Server} {i j : Nat} {e : FHandle}
    (hj : (s.setFHandle i e).clientsFHandle j ≠ .free) : s.clientsFHandle j ≠ .free ∨ j = i := by
  by_cases hji : j = i
  · exact Or.inr hji
  · have hsame : (s.setFHandle i e).clientsFHandle j = s.clientsFHandle j :=
      Function.update_of_ne hji ..
    exact Or.inl (hsame ▸ hj)

theorem Server.setPipe_other (s : Server) {c c' : Nat} (hc : c' ≠ c) (replies : List Int) :
    (s.setPipe c replies).clientPipe c' = s.clientPipe c' :=
  Function.update_of_ne hc ..

theorem setPipe_replies {s : Server} {c : Nat} {out : Int} :
    (s.setPipe c (s.clientPipe c ++ [out])).clientPipe c ≠ [] ∧
      ∀ c', s.clientPipe c' ≠ [] →
        (s.setPipe c (s.clientPipe c ++ [out])).clientPipe c' ≠ [] := by
  have hself : (s.setPipe c (s.clientPipe c ++ [out])).clientPipe c ≠ [] := by
    simp [Server.setPipe]
  refine ⟨hself, fun c' hc => ?_⟩
  by_cases he : c' = c
  · exact he ▸ hself
  · rw [s.setPipe_other he]
    exact hc

/-- The handler returns, and its request is answered. -/
theorem WorkerMoves.of_returns {s t : Server} {i : Nat} {h : Handler}
    (hrun : (s.box i).worker = .running h) (hbox : t.box = s.box)
    (hpipe : t.serverPipe = s.serverPipe) (hreceiver : t.receiver = s.receiver)
    (hclient : t.client = s.client) (hexited : t.exited = s.exited)
    (hsessions : ∀ j, t.clientsFHandle j ≠ .free → s.clientsFHandle j ≠ .free ∨ j = i)
    (hreplies : ∀ c, s.clientPipe c ≠ [] → t.clientPipe c ≠ [])
    (hhands : h.stage.phase ≠ none → t.clientPipe h.msg.client ≠ []) :
    ∃ b, WorkerMoves s i b (t.returns i h.msg) := by
  obtain ⟨wk, hb, hwk, hgone, hout, hends, hp, hr, hc, hf, hq⟩ := t.returns_cases i h.msg
  have hwork : wk.work < h.stage.work + 1 := by
    rcases hwk with rfl | rfl <;> cases h.stage <;> simp only [Worker.work, Stage.work] <;> omega
  have hwait : wk ≠ .waiting := by
    rcases hwk with rfl | rfl <;> simp
  have hmsg : ∀ h', wk = .running h' → h'.msg = h.msg := by
    rcases hwk with rfl | rfl <;> simp
  refine ⟨_, WorkerMoves.of_handler hrun ?_ (hp.trans hpipe) (hr.trans hreceiver)
    (hc.trans hclient) (hf ▸ hsessions) (hq ▸ hreplies)
    ⟨fun he => hexited ▸ hout he, hgone⟩ hmsg (hexited ▸ hends) hwork hwait
    fun hph => Or.inl (hq ▸ hhands hph)⟩
  rw [hb, Server.setWorker, Server.setWorker, Server.setBox, Server.setBox, hbox]

section
variable {s : Server} {w : Nat → Spot} (h : s.Inv w) {i : Nat}
include h

theorem Server.Inv.handle_moves {m : Message} {st : Stage}
    (hrun : (s.box i).worker = .running ⟨m, st⟩) {s' : Server} {out : Int}
    (he : s.handle i m out st = some s') : ∃ b, WorkerMoves s i b s' := by
  obtain ⟨hid, _, _⟩ := (h.box i).worker _ hrun
  simp only at hid
  -- a stage that is followed by stage `st'` of the same request
  have hnext : ∀ st' : Stage, st'.work < st.work → st'.phase ≠ none →
      ∃ b, WorkerMoves s i b (s.setWorker i (.running ⟨m, st'⟩)) := fun st' hlt hph =>
    ⟨_, .of_handler hrun rfl rfl rfl rfl (fun _ hj => Or.inl hj) (fun _ hc => hc) ⟨id, by simp⟩
      (by simp) Or.inl (Nat.add_lt_add_right hlt 1) (by simp)
      fun _ => Or.inr ⟨⟨m, st'⟩, rfl, rfl, hph⟩⟩
  have hsession : ∀ (e : FHandle) (st' : Stage), st'.work < st.work → st'.phase ≠ none →
      ∃ b, WorkerMoves s i b
        ((s.setFHandle m.sessionID e).setWorker i (.running ⟨m, st'⟩)) := fun e st' hlt hph =>
    ⟨_, .of_handler hrun rfl rfl rfl rfl
      (fun j hj => (setFHandle_used hj).imp_right fun hji => hji.trans hid) (fun _ hc => hc)
      ⟨id, by simp⟩ (by simp) Or.inl (Nat.add_lt_add_right hlt 1) (by simp)
      fun _ => Or.inr ⟨⟨m, st'⟩, rfl, rfl, hph⟩⟩
  have hanswer : ∀ out, ∃ b, WorkerMoves s i b
      ((s.setPipe m.client (s.clientPipe m.client ++ [out])).returns i m) := fun out =>
    WorkerMoves.of_returns hrun rfl rfl rfl rfl rfl (fun _ hj => Or.inl hj) setPipe_replies.2
      fun _ => setPipe_replies.1
  cases h.handle_cases hrun he with
  | openClientSession => exact hsession _ _ (by simp [Stage.work]) (by simp [Stage.phase])
  | replyMount _ => exact hanswer _
  | readUnmount _ => exact hnext _ (by simp [Stage.work]) (by simp [Stage.phase])
  | readCall _ _ => exact hnext _ (by simp [Stage.work]) (by simp [Stage.phase])
  | finishFirst _ => exact hsession _ _ (by simp [Stage.work]) (by simp [Stage.phase])
  | replyUnmount _ =>
    exact ⟨_, .of_handler hrun rfl rfl rfl rfl (fun _ hj => Or.inl hj) setPipe_replies.2
      ⟨id, by simp⟩ (by simp) Or.inl (by simp [Worker.work, Stage.work]) (by simp)
      fun _ => Or.inl setPipe_replies.1⟩
  | finishAgain =>
    exact WorkerMoves.of_returns hrun rfl rfl rfl rfl rfl
      (fun j hj => (setFHandle_used hj).imp_right fun hji => hji.trans hid) (fun _ hc => hc)
      fun hp => absurd rfl hp
  | replyCall _ _ => exact hanswer _

/-- `readFromBufferPC`: the request comes to the worker. -/
theorem Server.Inv.take_moves {m : Message} (hw : (s.box i).worker = .copying)
    (hi : (s.box i).info = some m) :
    WorkerMoves s i { s.box i with readable := false, worker := .running (handlerOf m) }
      (s.setBox i { s.box i with readable := false, worker := .running (handlerOf m) }) where
  box := rfl
  serverPipe := rfl
  receiver := rfl
  client := rfl
  sessions := fun _ hj => Or.inl hj
  replies := fun _ hc => hc
  exits := ⟨id, by simp⟩
  messages := by
    rintro m' (hi' | ⟨h', hh, rfl⟩)
    · exact Or.inl hi'
    · obtain rfl : handlerOf m = h' := by simpa using hh
      exact Or.inl hi
  ends := Or.inl
  work := by
    have hreadable := (h.box i).wake (Or.inl hw)
    unfold handlerOf
    split <;> simp [Mailbox.work, Worker.work, Stage.work, hw, hreadable]
  used := fun _ => Or.inl ((h.box i).wake (Or.inl hw))
  waiting := by simp
  inBuffer := by
    intro m' _ hi'
    rw [hi] at hi'
    cases hi'
    refine Or.inr ⟨handlerOf m, rfl, rfl, ?_⟩
    unfold handlerOf
    split <;> simp [Stage.phase]
  inHands := fun hh hrun => by rw [hw] at hrun; cases hrun

theorem Server.Inv.worker_moves {s' : Server} {a : ServerStep} (he : workerStep s a = some s') :
    ∃ i b, WorkerMoves s i b s' ∧ (ServersOwn a → i < S) := by
  cases a with
  | lock i =>
    obtain ⟨b, hb, rfl⟩ := Option.map_eq_some_iff.mp he
    rcases Mailbox.lock_eq_some hb with ⟨hw, rfl⟩ | ⟨hw, rfl⟩
    · exact ⟨i, _, .of_setBox rfl rfl (by simp [hw]) (by simp) (by simp) (by simp)
        (by simp [Worker.work, hw]), id⟩
    · exact ⟨i, _, .of_setBox rfl rfl (by simp [hw]) (by simp) (by simp) (by simp)
        (by simp [Worker.work, hw]), id⟩
  | test i =>
    obtain ⟨b, hb, rfl⟩ := Option.map_eq_some_iff.mp he
    obtain ⟨hw, rfl⟩ := Mailbox.test_eq_some hb
    refine ⟨i, _, .of_setBox rfl rfl (by simp [hw]) ?_ ?_ ?_ ?_, id⟩
    all_goals cases hr : (s.box i).readable <;> simp [Worker.work, hw]
  | readFromBufferPC i =>
    obtain ⟨b, hb, rfl⟩ := Option.map_eq_some_iff.mp he
    obtain ⟨m, hw, hi, rfl⟩ := Mailbox.take_eq_some hb
    exact ⟨i, _, h.take_moves hw hi, id⟩
  | runClientRequest i out =>
    simp only [workerStep] at he
    split at he
    · obtain ⟨b, hm⟩ := h.handle_moves (by assumption) he
      exact ⟨i, b, hm, id⟩
    · cases he
  | _ => cases he

end

section
variable {s s' : Server} {i : Nat} {b : Mailbox Message Handler} (hm : WorkerMoves s i b s')
include hm

theorem WorkerMoves.box_other {j : Nat} (hj : j ≠ i) : s'.box j = s.box j := by
  rw [hm.box, Function.update_of_ne hj]

theorem WorkerMoves.box_self : s'.box i = b := by
  rw [hm.box, Function.update_self]

theorem WorkerMoves.runs_token {h : Handler} (hrun : b.worker = .running h)
    (hp : h.stage.phase ≠ none) :
    ∃ x p, Token s'.serverPipe s'.receiver s'.box x h.msg p := by
  obtain ⟨p, hp⟩ := Option.ne_none_iff_exists'.mp hp
  exact ⟨_, p, .worker (i := i) (hm.box_self ▸ hrun) hp⟩

theorem WorkerMoves.answers {c : Nat} (hc : s.Answers c) : s'.Answers c := by
  rcases hc with hc | ⟨x, m, p, ht, rfl⟩
  · exact Or.inl (hm.replies c hc)
  cases ht with
  | pipe hp => exact Or.inr ⟨_, m, _, .pipe (hm.serverPipe ▸ hp), rfl⟩
  | refusing hr => exact Or.inr ⟨_, _, _, .refusing (hm.receiver.trans hr), rfl⟩
  | copying hr => exact Or.inr ⟨_, m, _, .copying (hm.receiver.trans hr), rfl⟩
  | @box j _ hr hi =>
    by_cases hj : j = i
    · subst hj
      rcases hm.inBuffer m hr hi with ⟨hr', hi'⟩ | ⟨h, hrun, rfl, hp⟩
      · have hbox := hm.box_self.symm
        exact Or.inr ⟨_, m, _, .box (i := j) (hbox ▸ hr') (hbox ▸ hi'), rfl⟩
      · obtain ⟨x, p, ht⟩ := hm.runs_token hrun hp
        exact Or.inr ⟨x, _, p, ht, rfl⟩
    · have hbox := (hm.box_other hj).symm
      exact Or.inr ⟨_, m, _, .box (i := j) (hbox ▸ hr) (hbox ▸ hi), rfl⟩
  | @worker j h _ hrun hp =>
    by_cases hj : j = i
    · subst hj
      rcases hm.inHands h hrun (by simp [hp]) with ha | ⟨h', hrun', hmsg, hp'⟩
      · exact Or.inl ha
      · obtain ⟨x, p, ht⟩ := hm.runs_token hrun' hp'
        exact Or.inr ⟨x, _, p, ht, congrArg _ hmsg⟩
    · exact Or.inr ⟨_, _, _, .worker (i := j) (hm.box_other hj ▸ hrun) hp, rfl⟩

theorem WorkerMoves.live (h : s.Live) : s'.Live where
  sessions := by
    intro j hj
    rcases hm.sessions j hj with hj | ⟨rfl, hrun⟩
    · exact h.sessions j hj
    · exact h.used j (Or.inr hrun)
  used := by
    intro j hj
    by_cases hji : j = i
    · subst hji
      rw [hm.box_self] at hj
      exact h.used j (hm.used hj)
    · rw [hm.box_other hji] at hj
      exact h.used j hj
  copying := fun m hr => h.copying m (hm.receiver.symm.trans hr)
  signalled := by
    intro j hr hw
    rw [hm.receiver]
    by_cases hji : j = i
    · subst hji
      rw [hm.box_self] at hr hw
      rw [hm.waiting hw] at hr
      cases hr
    · rw [hm.box_other hji] at hr hw
      exact h.signalled j hr hw
  there := by
    intro he j hw
    by_cases hji : j = i
    · subst hji
      rw [hm.box_self] at hw
      rw [hm.exits.2 hw] at he
      cases he
    · rw [hm.box_other hji] at hw
      exact h.there (hm.exits.1 he) j hw
  answers := fun c hc => hm.answers (h.answers c (hm.client ▸ hc))

theorem WorkerMoves.running (h : s.Running) : s'.Running where
  serverPipe := hm.serverPipe ▸ h.serverPipe
  receiver := hm.receiver ▸ h.receiver
  box := by
    intro j m hj
    by_cases hji : j = i
    · subst hji
      rw [hm.box_self] at hj
      exact h.box j m (hm.messages m hj)
    · rw [hm.box_other hji] at hj
      exact h.box j m hj
  exited := by
    by_contra hno
    rcases hm.ends (by simpa using hno) with he | ⟨m, hhas, hop⟩
    · rw [h.exited] at he
      cases he
    · exact h.box i m hhas hop

theorem WorkerMoves.work_lt (hi : i < S) : s'.work < s.work := by
  have hsum := sum_update_add hi s.box b Mailbox.work
  have hlt := hm.work
  unfold Server.work
  rw [hm.box, hm.serverPipe, hm.receiver]
  omega

end

/-! ## The receiver -/

theorem Server.setBox_self (s : Server) (i : Nat) (b : Mailbox Message Handler) :
    (s.setBox i b).box i = b :=
  Function.update_self ..

theorem Server.setBox_other (s : Server) {i j : Nat} (hj : j ≠ i) (b : Mailbox Message Handler) :
    (s.setBox i b).box j = s.box j :=
  Function.update_of_ne hj ..

theorem availableSession_lt {clientsFHandle : Nat → FHandle} {i : Nat}
    (h : availableSession clientsFHandle = some i) : i < S :=
  List.mem_range.mp (List.mem_of_find?_eq_some h)

/-- Nothing is in the buffer into which the receiver is about to copy. -/
theorem Server.Inv.unread {s : Server} {w : Nat → Spot} (h : s.Inv w) {m : Message}
    (hr : s.receiver = .copying m) :
    (s.box m.sessionID).readable = false := by
  by_contra hc
  rw [Bool.not_eq_false] at hc
  obtain ⟨hw, hfits⟩ := h.token (.copying hr)
  obtain ⟨m', hi, hid⟩ := (h.box _).info hc
  obtain ⟨hw', hfits'⟩ := h.token (.box hc hi)
  by_cases hop : m.opCode = .mount
  · have hquiet := (h.quiet m hr hop).1
    rw [hc] at hquiet
    cases hquiet
  · have hmine := hfits.entry (.mounted m.client) (by simp [Message.entry, hop])
    by_cases hop' : m'.opCode = .mount
    · have hreserved := hfits'.entry .reserved (by simp [Message.entry, hop'])
      rw [hid, hmine] at hreserved
      cases hreserved
    · have htheirs := hfits'.entry (.mounted m'.client) (by simp [Message.entry, hop'])
      rw [hid, hmine, FHandle.mounted.injEq] at htheirs
      rw [← htheirs, hw] at hw'
      cases hw'

section
variable {s : Server} (hl : s.Live)
include hl

/-- The receiver has read the first message, and goes on to `r` with it. -/
theorem Server.Live.receive {m : Message} {rest : List Message}
    (hr : s.receiver = .reading) (hp : s.serverPipe = m :: rest) {f : Nat → FHandle}
    {r : ReceiverPlace} (hsessions : ∀ j, f j ≠ .free → j < S)
    (hcopying : ∀ m', r = .copying m' → m'.sessionID < S)
    (hgoes : r = .refusing m.client ∨ ∃ m', r = .copying m' ∧ m'.client = m.client) :
    Server.Live { s with clientsFHandle := f, serverPipe := rest, receiver := r } ∧
      Server.work { s with clientsFHandle := f, serverPipe := rest, receiver := r } < s.work := by
  constructor
  · refine ⟨hsessions, hl.used, hcopying, fun i hread hw => ?_, hl.there, fun c hc => ?_⟩
    · have := hl.signalled i hread hw
      rw [hr] at this
      cases this
    · rcases hl.answers c hc with ha | ⟨x, m', p, ht, rfl⟩
      · exact Or.inl ha
      cases ht with
      | pipe hm =>
        rw [hp] at hm
        rcases List.mem_cons.mp hm with rfl | hm
        · rcases hgoes with hg | ⟨m'', hg, hc⟩
          · exact Or.inr ⟨_, _, _, .refusing hg, rfl⟩
          · exact Or.inr ⟨_, m'', _, .copying hg, hc⟩
        · exact Or.inr ⟨_, m', _, .pipe hm, rfl⟩
      | refusing hm => rw [hr] at hm; cases hm
      | copying hm => rw [hr] at hm; cases hm
      | box hr' hi => exact Or.inr ⟨_, m', _, .box hr' hi, rfl⟩
      | worker hrun hph => exact Or.inr ⟨_, _, _, .worker hrun hph, rfl⟩
  · have hwork : r.work ≤ 9 := by
      rcases hgoes with rfl | ⟨m', rfl, _⟩ <;> simp [ReceiverPlace.work]
    have hzero : s.receiver.work = 0 := by simp [hr, ReceiverPlace.work]
    simp only [Server.work, hp, hzero, List.length_cons]
    omega

theorem Server.Live.refuse {c : Nat} (hr : s.receiver = .refusing c) :
    Server.Live { s.setPipe c (s.clientPipe c ++ [-1]) with receiver := .reading } ∧
      Server.work { s.setPipe c (s.clientPipe c ++ [-1]) with receiver := .reading } < s.work := by
  constructor
  · refine ⟨hl.sessions, hl.used, fun m hm => (by cases hm), fun i hread hw => ?_, hl.there,
      fun c' hc' => ?_⟩
    · have := hl.signalled i hread hw
      rw [hr] at this
      cases this
    · rcases hl.answers c' hc' with ha | ⟨x, m, p, ht, rfl⟩
      · exact Or.inl (setPipe_replies.2 c' ha)
      cases ht with
      | pipe hm => exact Or.inr ⟨_, m, _, .pipe hm, rfl⟩
      | refusing hm =>
        rw [hr] at hm
        cases hm
        exact Or.inl setPipe_replies.1
      | copying hm => rw [hr] at hm; cases hm
      | box hr' hi => exact Or.inr ⟨_, m, _, .box hr' hi, rfl⟩
      | worker hrun hph => exact Or.inr ⟨_, _, _, .worker hrun hph, rfl⟩
  · simp only [Server.work, Server.setPipe, hr, ReceiverPlace.work]
    omega

theorem Server.Live.writeToBufferPC {m : Message} (hr : s.receiver = .copying m)
    (hunread : (s.box m.sessionID).readable = false) :
    let b := { s.box m.sessionID with readable := true, info := some m }
    Server.Live { s.setBox m.sessionID b with receiver := .signalling m.sessionID } ∧
      Server.work { s.setBox m.sessionID b with receiver := .signalling m.sessionID } < s.work := by
  intro b
  have hsession := hl.copying m hr
  have hself : (s.setBox m.sessionID b).box m.sessionID = b := s.setBox_self ..
  have hworker : ∀ j, ((s.setBox m.sessionID b).box j).worker = (s.box j).worker := by
    intro j
    by_cases hj : j = m.sessionID
    · rw [hj, hself]
    · rw [s.setBox_other hj]
  constructor
  · refine ⟨hl.sessions, fun j hj => ?_, fun m hm => (by cases hm), fun j hread hw => ?_,
      fun he j => (hworker j).symm ▸ hl.there he j, fun c hc => ?_⟩
    · by_cases hji : j = m.sessionID
      · exact hji ▸ hsession
      · simp only [s.setBox_other hji] at hj
        exact hl.used j hj
    · by_cases hji : j = m.sessionID
      · rw [hji]
      · simp only [s.setBox_other hji] at hread hw
        have := hl.signalled j hread hw
        rw [hr] at this
        cases this
    · rcases hl.answers c hc with ha | ⟨x, m', p, ht, rfl⟩
      · exact Or.inl ha
      cases ht with
      | pipe hm => exact Or.inr ⟨_, m', _, .pipe hm, rfl⟩
      | refusing hm => rw [hr] at hm; cases hm
      | copying hm =>
        rw [hr] at hm
        cases hm
        have hread : ((s.setBox m.sessionID b).box m.sessionID).readable = true := by rw [hself]
        have hinfo : ((s.setBox m.sessionID b).box m.sessionID).info = some m := by rw [hself]
        exact Or.inr ⟨_, m, _, .box (i := m.sessionID) hread hinfo, rfl⟩
      | @box j _ hread hi =>
        have hj : j ≠ m.sessionID := by
          rintro rfl
          rw [hunread] at hread
          cases hread
        have hbox := (s.setBox_other hj b).symm
        exact Or.inr ⟨_, m', _, .box (i := j) (hbox ▸ hread) (hbox ▸ hi), rfl⟩
      | @worker j hh _ hrun hph =>
        exact Or.inr ⟨_, _, _, .worker (i := j) ((hworker j).trans hrun) hph, rfl⟩
  · have hsum := sum_update_add hsession s.box b Mailbox.work
    have hb : b.work = (s.box m.sessionID).work + 6 := by
      simp only [Mailbox.work, b, hunread, if_true, Bool.false_eq_true, if_false]
    simp only [Server.work, Server.setBox, hr, ReceiverPlace.work]
    omega

theorem Server.Live.signal {i : Nat} (hr : s.receiver = .signalling i) :
    Server.Live { s.setBox i (s.box i).signal with receiver := .reading } ∧
      Server.work { s.setBox i (s.box i).signal with receiver := .reading } < s.work := by
  have hwork : (s.box i).signal.work ≤ (s.box i).work + 1 := by
    rcases (s.box i).signal_cases with ⟨hw, he⟩ | ⟨_, he⟩ <;> rw [he]
    · simp only [Mailbox.work, Worker.work, hw]
      omega
    · omega
  have hkept : ∀ j, ((s.setBox i (s.box i).signal).box j).readable = (s.box j).readable ∧
      ((s.setBox i (s.box i).signal).box j).info = (s.box j).info ∧
      ∀ h, ((s.setBox i (s.box i).signal).box j).worker = .running h ↔
        (s.box j).worker = .running h := by
    intro j
    by_cases hj : j = i
    · subst hj
      rw [s.setBox_self]
      rcases (s.box j).signal_cases with ⟨hw, he⟩ | ⟨_, he⟩
      · simp [he, hw]
      · simp [he]
    · simp [s.setBox_other hj]
  have hwaiting : ((s.setBox i (s.box i).signal).box i).worker ≠ .waiting := by
    rw [s.setBox_self]
    rcases (s.box i).signal_cases with ⟨hw, he⟩ | ⟨hw, he⟩ <;> simp [he, hw]
  have hgone : ∀ j, ((s.setBox i (s.box i).signal).box j).worker = .gone →
      (s.box j).worker = .gone := by
    intro j
    by_cases hj : j = i
    · subst hj
      rw [s.setBox_self]
      rcases (s.box j).signal_cases with ⟨hw, he⟩ | ⟨hw, he⟩ <;> simp [he]
    · simp [s.setBox_other hj]
  constructor
  · refine ⟨hl.sessions, fun j hj => hl.used j ?_, fun m hm => (by cases hm), fun j hread hw => ?_,
      fun he j hg => hl.there he j (hgone j hg), fun c hc => ?_⟩
    · rw [← (hkept j).1]
      exact hj.imp_right fun ⟨h, hrun⟩ => ⟨h, ((hkept j).2.2 h).mp hrun⟩
    · have hj : j ≠ i := by
        rintro rfl
        exact hwaiting hw
      simp only [s.setBox_other hj] at hread hw
      have hsig := hl.signalled j hread hw
      rw [hr, ReceiverPlace.signalling.injEq] at hsig
      exact absurd hsig.symm hj
    · rcases hl.answers c hc with ha | ⟨x, m, p, ht, rfl⟩
      · exact Or.inl ha
      cases ht with
      | pipe hm => exact Or.inr ⟨_, m, _, .pipe hm, rfl⟩
      | refusing hm => rw [hr] at hm; cases hm
      | copying hm => rw [hr] at hm; cases hm
      | @box j _ hread hi =>
        exact Or.inr ⟨_, m, _, .box (i := j) ((hkept j).1.trans hread) ((hkept j).2.1.trans hi), rfl⟩
      | @worker j h _ hrun hph =>
        exact Or.inr ⟨_, _, _, .worker (i := j) (((hkept j).2.2 h).mpr hrun) hph, rfl⟩
  · have hsum : ∑ j ∈ Finset.range S, (Function.update s.box i (s.box i).signal j).work ≤
        ∑ j ∈ Finset.range S, (s.box j).work + 1 := by
      by_cases hi : i < S
      · have := sum_update_add hi s.box (s.box i).signal Mailbox.work
        omega
      · have hsame : ∀ j ∈ Finset.range S,
            (Function.update s.box i (s.box i).signal j).work = (s.box j).work := by
          intro j hj
          rw [Function.update_of_ne]
          rintro rfl
          exact hi (Finset.mem_range.mp hj)
        rw [Finset.sum_congr rfl hsame]
        omega
    simp only [Server.work, Server.setBox, hr, ReceiverPlace.work]
    omega

end

/-- Every step of the receiver but a hasty one. -/
theorem Server.Live.receiver_step {s s' : Server} {w : Nat → Spot} (hl : s.Live) (h : s.Inv w)
    {a : ServerStep} (he : receiverStep s a = some s') : s'.Live ∧ s'.work < s.work := by
  cases receiverStep_moves he with
  | @reserve m rest i hr hp _ hi =>
    refine hl.receive hr hp (fun j hj => ?_) (fun m' hm' => ?_) (Or.inr ⟨_, rfl, rfl⟩)
    · rcases setFHandle_used (s := s) hj with hj | rfl
      · exact hl.sessions j hj
      · exact availableSession_lt hi
    · cases hm'
      exact availableSession_lt hi
  | full hr hp _ _ => exact hl.receive hr hp hl.sessions (fun m' hm' => by cases hm') (Or.inl rfl)
  | request hr hp _ hid =>
    refine hl.receive hr hp hl.sessions (fun m' hm' => ?_) (Or.inr ⟨_, rfl, rfl⟩)
    cases hm'
    exact hid
  | refuse hr hreply =>
    rw [(h.refuse hr).1, Option.some.injEq] at hreply
    subst hreply
    exact hl.refuse hr
  | refuseFailed hr hreply =>
    rw [(h.refuse hr).1] at hreply
    cases hreply
  | copy hr _ => exact hl.writeToBufferPC hr (h.unread hr)
  | signal hr => exact hl.signal hr

/-- The receiver takes a message that is no shutdown, or leaves the pipe as it is. -/
theorem Server.Running.receiver_step {s s' : Server} {w : Nat → Spot} (h : s.Running)
    (hinv : s.Inv w) {a : ServerStep} (he : receiverStep s a = some s') : s'.Running := by
  have htaken : ∀ {m rest}, s.serverPipe = m :: rest →
      m.opCode ≠ .shutdown ∧ ∀ m' ∈ rest, m'.opCode ≠ .shutdown := by
    intro m rest hp
    have hall := h.serverPipe
    rw [hp, List.forall_mem_cons] at hall
    exact hall
  cases receiverStep_moves he with
  | reserve _ hp _ _ =>
    obtain ⟨hm, hrest⟩ := htaken hp
    exact ⟨hrest, by simpa using hm, h.box, h.exited⟩
  | full _ hp _ _ => exact ⟨(htaken hp).2, by simp, h.box, h.exited⟩
  | request _ hp _ _ =>
    obtain ⟨hm, hrest⟩ := htaken hp
    exact ⟨hrest, by simpa using hm, h.box, h.exited⟩
  | refuse hr hreply =>
    rw [(hinv.refuse hr).1, Option.some.injEq] at hreply
    subst hreply
    exact ⟨h.serverPipe, by simp, h.box, h.exited⟩
  | refuseFailed hr hreply =>
    rw [(hinv.refuse hr).1] at hreply
    cases hreply
  | @copy m hr _ =>
    refine ⟨h.serverPipe, by simp, fun j m' hj => ?_, h.exited⟩
    by_cases hji : j = m.sessionID
    · subst hji
      simp only [s.setBox_self] at hj
      rcases hj with hi | hw
      · cases hi
        exact h.receiver m hr
      · exact h.box _ m' (Or.inr hw)
    · simp only [s.setBox_other hji] at hj
      exact h.box j m' hj
  | @signal i hr =>
    refine ⟨h.serverPipe, by simp, fun j m' hj => ?_, h.exited⟩
    by_cases hji : j = i
    · subst hji
      simp only [s.setBox_self] at hj
      refine h.box j m' ?_
      rcases (s.box j).signal_cases with ⟨_, he⟩ | ⟨_, he⟩ <;> rw [he] at hj
      · exact Or.inl (by simpa [Mailbox.Has] using hj)
      · exact hj
    · simp only [s.setBox_other hji] at hj
      exact h.box j m' hj

/-! ## The clients -/

theorem Client.afterReply_not_waits {p : Client} (hp : p.Waits) (out : Int) :
    ¬ (p.afterReply out).Waits := by
  cases p with
  | outside => exact hp.elim
  | mounting => simp only [Client.afterReply]; split <;> exact id
  | ready session_id left => exact hp.elim
  | calling session_id left => exact id
  | unmounting session_id => simp only [Client.afterReply]; split <;> exact id

section
variable {s : Server} (hl : s.Live)
include hl

/-- A step of client `c`, which leaves nothing out of the pipe of the server. -/
theorem Server.Live.of_client {s' : Server} (c : Nat)
    (hsessions : s'.clientsFHandle = s.clientsFHandle) (hbox : s'.box = s.box)
    (hreceiver : s'.receiver = s.receiver) (hexited : s'.exited = s.exited)
    (hpipe : ∀ m ∈ s.serverPipe, m ∈ s'.serverPipe)
    (hothers : ∀ c', c' ≠ c → s'.client c' = s.client c' ∧ s'.clientPipe c' = s.clientPipe c')
    (hc : (s'.client c).Waits → s'.Answers c) : s'.Live := by
  refine ⟨hsessions ▸ hl.sessions, hbox ▸ hl.used, hreceiver ▸ hl.copying,
    hbox ▸ hreceiver ▸ hl.signalled, hbox ▸ hexited ▸ hl.there, fun c' hw => ?_⟩
  by_cases he : c' = c
  · exact he ▸ hc (he ▸ hw)
  obtain ⟨hclient, hreplies⟩ := hothers c' he
  rw [hclient] at hw
  rcases hl.answers c' hw with ha | ⟨x, m, p, ht, rfl⟩
  · exact Or.inl (hreplies ▸ ha)
  unfold Server.Answers
  rw [hbox, hreceiver]
  cases ht with
  | pipe hm => exact Or.inr ⟨_, m, _, .pipe (hpipe m hm), rfl⟩
  | refusing hr => exact Or.inr ⟨_, _, _, .refusing hr, rfl⟩
  | copying hr => exact Or.inr ⟨_, m, _, .copying hr, rfl⟩
  | box hr hi => exact Or.inr ⟨_, m, _, .box hr hi, rfl⟩
  | worker hrun hp => exact Or.inr ⟨_, _, _, .worker hrun hp, rfl⟩

theorem Server.Live.send (m : Message) (p : Client) : (s.send m p).Live :=
  hl.of_client m.client rfl rfl rfl rfl (fun _ hm => List.mem_append_left _ hm)
    (fun _ hc => ⟨Function.update_of_ne hc .., rfl⟩)
    fun _ => Or.inr ⟨_, m, _, .pipe (List.mem_append_right _ List.mem_cons_self), rfl⟩

theorem Server.Live.client_step {s' : Server} {a : ServerStep} (he : clientStep s a = some s') :
    s'.Live := by
  cases clientStep_moves he with
  | @tfsMount c hc =>
    have hemptied : (s.setPipe c []).Live :=
      hl.of_client c rfl rfl rfl rfl (fun _ hm => hm)
        (fun c' hc' => ⟨rfl, s.setPipe_other hc' []⟩) fun hw => by
          have hsame : (s.setPipe c []).client c = s.client c := rfl
          rw [hsame, hc] at hw
          exact hw.elim
    exact hemptied.send _ _
  | tfsUnmount _ => exact hl.send _ _
  | call _ _ _ => exact hl.send _ _
  | @readReply c out rest _ houtside hready =>
    refine hl.of_client c rfl rfl rfl rfl (fun _ hm => hm)
      (fun c' hc' => ⟨Function.update_of_ne hc' .., Function.update_of_ne hc' ..⟩) fun hw => ?_
    have hold : (s.client c).Waits := by
      rcases hp : s.client c with _ | _ | _ | _ | _
      · exact houtside hp
      · trivial
      · exact hready _ _ hp
      · trivial
      · trivial
    have hself : ((s.setPipe c rest).setClient c ((s.client c).afterReply out)).client c =
        (s.client c).afterReply out := Function.update_self ..
    rw [hself] at hw
    exact absurd hw (Client.afterReply_not_waits hold out)

end

theorem Server.Running.send {s : Server} (h : s.Running) {m : Message} (hm : m.opCode ≠ .shutdown)
    (p : Client) : (s.send m p).Running := by
  refine ⟨fun m' hm' => ?_, h.receiver, h.box, h.exited⟩
  rcases List.mem_append.mp hm' with hold | hnew
  · exact h.serverPipe m' hold
  · rw [List.mem_singleton.mp hnew]
    exact hm

theorem Server.Running.client_step {s s' : Server} (h : s.Running) {a : ServerStep}
    (ha : ¬ CallsShutdown a) (he : clientStep s a = some s') : s'.Running := by
  cases clientStep_moves he with
  | @tfsMount c _ =>
    have hemptied : (s.setPipe c []).Running := ⟨h.serverPipe, h.receiver, h.box, h.exited⟩
    exact hemptied.send (by simp) _
  | tfsUnmount _ => exact h.send (by simp) _
  | call _ _ _ =>
    apply h.send
    exact ha
  | readReply _ _ _ => exact ⟨h.serverPipe, h.receiver, h.box, h.exited⟩

/-! ## Every step -/

/-- Without a shutdown the server runs on. -/
theorem Server.Running.step {s s' : Server} {w : Nat → Spot} (h : s.Running) (hinv : s.Inv w)
    {a : ServerStep} (ha : ¬ CallsShutdown a) (he : serverStep s a = some s') : s'.Running := by
  rcases serverStep_cases he with he | he | he
  · exact h.client_step ha he
  · exact h.receiver_step hinv he
  · obtain ⟨i, b, hm, _⟩ := hinv.worker_moves he
    exact hm.running h

/-- A step of the server itself leaves less to do. -/
theorem Server.Live.step {s s' : Server} {w : Nat → Spot} (hl : s.Live) (h : s.Inv w)
    {a : ServerStep} (he : serverStep s a = some s') :
    s'.Live ∧ (ServersOwn a → s'.work < s.work) := by
  rcases serverStep_cases he with he | he | he
  · have hno : ¬ ServersOwn a := by cases clientStep_moves he <;> exact id
    exact ⟨hl.client_step he, fun ho => absurd ho hno⟩
  · obtain ⟨hl', hlt⟩ := hl.receiver_step h he
    exact ⟨hl', fun _ => hlt⟩
  · obtain ⟨i, b, hm, hi⟩ := h.worker_moves he
    exact ⟨hm.live hl, fun ho => hm.work_lt (hi ho)⟩

/-! ## Some thread can go on -/

/-- A thread of the server can take a step. -/
def CanGo (s : Server) : Prop := ∃ a s', ServersOwn a ∧ serverStep s a = some s'

theorem canGo_of_receiver {s s' : Server} (hexit : s.exited = false) {a : ServerStep}
    (ha : a = .receive ∨ a = .sendUserCountFullMessage ∨ a = .writeToBufferPC ∨ a = .signal)
    (he : receiverStep s a = some s') : CanGo s := by
  refine ⟨a, s', ?_, ?_⟩
  · rcases ha with rfl | rfl | rfl | rfl <;> trivial
  · rcases ha with rfl | rfl | rfl | rfl <;> simpa [serverStep, hexit] using he

theorem canGo_of_worker {s s' : Server} (hexit : s.exited = false) {a : ServerStep}
    (ha : ServersOwn a) (he : workerStep s a = some s') : CanGo s := by
  refine ⟨a, s', ha, ?_⟩
  cases a <;> simp only [workerStep, reduceCtorEq] at he
  all_goals simpa [serverStep, hexit, workerStep] using he

/-- A handler can always go on: what the operation of a call gives is not below -1. -/
theorem Server.handle_possible (s : Server) (i : Nat) (m : Message) (st : Stage) :
    ∃ s', s.handle i m 0 st = some s' := by
  cases st with
  | openClientSession =>
    simp only [Server.handle]
    split <;> exact ⟨_, rfl⟩
  | replyMount =>
    simp only [Server.handle]
    split <;> exact ⟨_, rfl⟩
  | readFHandle =>
    simp only [Server.handle]
    split
    · split <;> exact ⟨_, rfl⟩
    · exact ⟨_, rfl⟩
  | replyCall fclient =>
    have hout : ¬ (0 : Int) < -1 := by omega
    simp only [Server.handle, hout, if_false]
    split <;> exact ⟨_, rfl⟩
  | finishFirst | replyUnmount | finishAgain | finishFailed => exact ⟨_, rfl⟩

section
variable {s : Server} {w : Nat → Spot} (h : s.Inv w) (hl : s.Live) (hexit : s.exited = false)
include h hl hexit

/-- The worker of a session goes on when it has the mutex or a request. -/
theorem worker_canGo {i : Nat} (hi : i < S)
    (hw : (s.box i).mutexFree = false ∨ ((s.box i).readable = true ∧ s.receiver ≠ .signalling i)) :
    CanGo s := by
  rcases hworker : (s.box i).worker with _ | _ | _ | _ | _ | hh | _
  · exact canGo_of_worker hexit (a := .lock i) hi (by simp [workerStep, Mailbox.lock, hworker]; rfl)
  · exact canGo_of_worker hexit (a := .test i) hi (by simp [workerStep, Mailbox.test, hworker]; rfl)
  · rcases hw with hw | ⟨hread, hr⟩
    · simp [Mailbox.mutexFree, hworker] at hw
    · exact absurd (hl.signalled i hread hworker) hr
  · exact canGo_of_worker hexit (a := .lock i) hi (by simp [workerStep, Mailbox.lock, hworker]; rfl)
  · obtain ⟨m, hm, _⟩ := (h.box i).info ((h.box i).wake (Or.inl hworker))
    exact canGo_of_worker hexit (a := .readFromBufferPC i) hi
      (by simp [workerStep, Mailbox.take, hworker, hm]; rfl)
  · obtain ⟨s', he⟩ := s.handle_possible i hh.msg hh.stage
    exact canGo_of_worker hexit (a := .runClientRequest i 0) hi (by simpa [workerStep, hworker])
  · exact absurd hworker (hl.there hexit i)

/-- The receiver, or the worker that it waits for, goes on with a message. -/
theorem receiver_canGo (hr : s.receiver ≠ .reading) : CanGo s := by
  rcases hplace : s.receiver with _ | c | m | i
  · exact absurd hplace hr
  · exact canGo_of_receiver hexit (a := .sendUserCountFullMessage) (by simp)
      (by simp [receiverStep, hplace, (h.refuse hplace).1]; rfl)
  · by_cases hfree : (s.box m.sessionID).mutexFree = true
    · exact canGo_of_receiver hexit (a := .writeToBufferPC) (by simp)
        (by simp [receiverStep, hplace, Mailbox.put, hfree]; rfl)
    · exact worker_canGo h hl hexit (hl.copying m hplace) (Or.inl (by simpa using hfree))
  · exact canGo_of_receiver hexit (a := .signal) (by simp) (by simp [receiverStep, hplace]; rfl)

theorem pipe_canGo (hr : s.receiver = .reading) {m : Message} (hm : m ∈ s.serverPipe) : CanGo s := by
  rcases hp : s.serverPipe with _ | ⟨m', rest⟩
  · rw [hp] at hm
    cases hm
  suffices he : ∃ s', receiverStep s .receive = some s' by
    obtain ⟨s', he⟩ := he
    exact canGo_of_receiver hexit (Or.inl rfl) he
  simp only [receiverStep, hr, hp]
  split
  · split <;> exact ⟨_, rfl⟩
  · rename_i hop
    have hfits := (h.token (.pipe (hp ▸ List.mem_cons_self))).2
    have hentry := hfits.entry (.mounted m'.client) (by simp [Message.entry, hop])
    have hlt : m'.sessionID < S := hl.sessions _ (by simp [hentry])
    exact ⟨_, if_pos hlt⟩

/-- While there is a request without a reply, the server can go on. -/
theorem token_canGo {x : Spot} {m : Message} {p : Phase}
    (ht : Token s.serverPipe s.receiver s.box x m p) : CanGo s := by
  by_cases hr : s.receiver = .reading
  · cases ht with
    | pipe hm => exact pipe_canGo h hl hexit hr hm
    | refusing hc => rw [hr] at hc; cases hc
    | copying hc => rw [hr] at hc; cases hc
    | @box i _ hread _ =>
      exact worker_canGo h hl hexit (hl.used i (Or.inl hread)) (Or.inr ⟨hread, by simp [hr]⟩)
    | @worker i hh _ hrun _ =>
      exact worker_canGo h hl hexit (hl.used i (Or.inr ⟨hh, hrun⟩))
        (Or.inl (by simp [Mailbox.mutexFree, hrun]))
  · exact receiver_canGo h hl hexit hr

end

theorem Server.Live.work_pos {s : Server} (hl : s.Live) {x : Spot} {m : Message} {p : Phase}
    (ht : Token s.serverPipe s.receiver s.box x m p) : 0 < s.work := by
  have hbox : ∀ i, i < S → (s.box i).work ≤ ∑ j ∈ Finset.range S, (s.box j).work := fun i hi =>
    Finset.single_le_sum (f := fun j => (s.box j).work) (fun _ _ => Nat.zero_le _)
      (Finset.mem_range.mpr hi)
  unfold Server.work
  cases ht with
  | pipe hm =>
    have := List.length_pos_of_mem hm
    omega
  | refusing hr | copying hr =>
    simp only [hr, ReceiverPlace.work]
    omega
  | @box i _ hread _ =>
    have hle := hbox i (hl.used i (Or.inl hread))
    have hpos : 6 ≤ (s.box i).work := by simp [Mailbox.work, hread]
    omega
  | @worker i hh _ hrun _ =>
    have hle := hbox i (hl.used i (Or.inr ⟨hh, hrun⟩))
    have hpos : 0 < (s.box i).work := by
      simp only [Mailbox.work, hrun, Worker.work]
      omega
    omega

/-! ## Whole runs -/

/-- Each client that waits has its reply. -/
def AllAnswered (s : Server) : Prop := ∀ c, (s.client c).Waits → s.clientPipe c ≠ []

/-- No client is hasty, and none calls a shutdown: its reply may have to wait for the other clients,
which may have files open. -/
def Calm (s : Server) (a : ServerStep) : Prop := ¬ Hasty s a ∧ ¬ CallsShutdown a

instance (s : Server) (a : ServerStep) : Decidable (Calm s a) :=
  inferInstanceAs (Decidable (_ ∧ _))

/-- The three invariants. -/
structure Server.Served (s : Server) : Prop where
  inv : ∃ w, s.Inv w
  live : s.Live
  running : s.Running

theorem Server.Served.step {s s' : Server} (h : s.Served) {a : ServerStep} (hok : Calm s a)
    (he : serverStep s a = some s') : s'.Served ∧ (ServersOwn a → s'.work < s.work) := by
  obtain ⟨w, hinv⟩ := h.inv
  obtain ⟨hl, hlt⟩ := h.live.step hinv he
  exact ⟨⟨hinv.step hok.1 he, hl, h.running.step hinv hok.2 he⟩, hlt⟩

theorem Server.Served.goes_on {s : Server} (h : s.Served) (hno : ¬ AllAnswered s) :
    0 < s.work ∧ CanGo s := by
  obtain ⟨w, hinv⟩ := h.inv
  simp only [AllAnswered, not_forall, not_not] at hno
  obtain ⟨c, hc, hempty⟩ := hno
  obtain ⟨x, m, p, ht, _⟩ := (h.live.answers c hc).resolve_left fun hp => hp hempty
  exact ⟨h.live.work_pos ht, token_canGo hinv h.live h.running.exited ht⟩

end tecnicofs.parte2
