-- The steps of the workers (`threadSender` and the handlers) keep each request at
-- one place, too.
import TecnicoFS.Parte2.Sessions

namespace tecnicofs.parte2

/-! ## Steps of the workers -/

/-- The requests after a worker went to another place. -/
theorem Token.of_setWorker {s : Server} {i : Nat} {wk : Worker Handler} {y : Spot} {m : Message}
    {p : Phase} (ht : Token s.serverPipe s.receiver (s.setWorker i wk).box y m p) :
    (y ≠ .worker i ∧ Token s.serverPipe s.receiver s.box y m p) ∨
      (y = .worker i ∧ ∃ hh, wk = .running hh ∧ hh.msg = m ∧ hh.stage.phase = some p) := by
  cases ht with
  | pipe hm => exact Or.inl ⟨by simp, .pipe hm⟩
  | refusing hm => exact Or.inl ⟨by simp, .refusing hm⟩
  | copying hm => exact Or.inl ⟨by simp, .copying hm⟩
  | @box j _ hr hi =>
    refine Or.inl ⟨by simp, ?_⟩
    by_cases hj : j = i
    · subst hj
      simp only [Server.setWorker, Server.setBox, Function.update_self] at hr hi
      exact .box hr hi
    · simp only [Server.setWorker, Server.setBox, Function.update_of_ne hj] at hr hi
      exact .box hr hi
  | @worker j hh _ hrun hp =>
    by_cases hj : j = i
    · subst hj
      simp only [Server.setWorker, Server.setBox, Function.update_self] at hrun
      exact Or.inr ⟨rfl, hh, hrun, rfl, hp⟩
    · simp only [Server.setWorker, Server.setBox, Function.update_of_ne hj] at hrun
      exact Or.inl ⟨fun he => hj (Spot.worker.inj he), .worker hrun hp⟩

section
variable {s : Server} {w : Nat → Spot} (h : s.Inv w) {i : Nat} {m : Message} {st : Stage}
  (hrun : (s.box i).worker = .running ⟨m, st⟩)
include h hrun

/-- The boxes after the worker of `m` went on to another stage. -/
theorem Server.Inv.box_stage {clientsFHandle : Nat → FHandle} {st' : Stage} (hst : StageOk m st')
    (hagain : st' = .finishAgain → clientsFHandle i = .free)
    (hfree : ∀ j ≠ i, s.clientsFHandle j = .free → clientsFHandle j = .free) (j : Nat) :
    BoxOk clientsFHandle j ((s.setWorker i (.running ⟨m, st'⟩)).box j) := by
  obtain ⟨hid, _, hreadable⟩ := (h.box i).worker _ hrun
  by_cases hj : j = i
  · subst hj
    simp only [Server.setWorker, Server.setBox, Function.update_self]
    exact ⟨(h.box j).info, fun hh he => by cases he; exact ⟨hid, hst, hreadable⟩,
      fun m' he => by cases he; exact hagain rfl, by simp⟩
  · simp only [Server.setWorker, Server.setBox, Function.update_of_ne hj]
    exact (h.box j).congr fun _ => hfree j hj

/-- The boxes after the handler of `m` returned. -/
theorem Server.Inv.box_return {clientsFHandle : Nat → FHandle} {wk : Worker Handler}
    (hwk : wk = .test ∨ wk = .gone)
    (hfree : ∀ j ≠ i, s.clientsFHandle j = .free → clientsFHandle j = .free) (j : Nat) :
    BoxOk clientsFHandle j ((s.setWorker i wk).box j) := by
  by_cases hj : j = i
  · subst hj
    simp only [Server.setWorker, Server.setBox, Function.update_self]
    rcases hwk with rfl | rfl <;> exact ⟨(h.box j).info, by simp, by simp, by simp⟩
  · simp only [Server.setWorker, Server.setBox, Function.update_of_ne hj]
    exact (h.box j).congr fun _ => hfree j hj

/-- No request is on its way to the session of a worker that runs one. -/
theorem Server.Inv.quiet_worker (wk : Worker Handler) (m' : Message)
    (hm : s.receiver = .copying m') (hop : m'.opCode = .mount) :
    Quiet ((s.setWorker i wk).box m'.sessionID) := by
  have hq := h.quiet m' hm hop
  have hne : m'.sessionID ≠ i := by
    rintro rfl
    exact hq.2 _ hrun
  simp only [Server.setWorker, Server.setBox, Function.update_of_ne hne]
  exact hq

/-- A stage that writes no reply and touches no session. -/
theorem Server.Inv.stage {st' : Stage} (hst : StageOk m st') (hp : st'.phase = st.phase)
    (hagain : st' ≠ .finishAgain) : (s.setWorker i (.running ⟨m, st'⟩)).Inv w where
  token := by
    intro y m' p ht
    rcases Token.of_setWorker (s := s) ht with ⟨_, ht'⟩ | ⟨rfl, hh, he, rfl, hp'⟩
    · exact h.token ht'
    · cases he
      have ht : Token s.serverPipe s.receiver s.box (.worker i) m p :=
        @Token.worker _ _ _ i ⟨m, st⟩ p hrun (hp.symm.trans hp')
      exact h.token ht
  nodup := h.nodup
  box := h.box_stage hrun hst (fun he => (hagain he).elim) fun _ _ he => he
  quiet := h.quiet_worker hrun _
  reply := h.reply
  outside := h.outside
  ready := h.ready
  held := h.held

/-- A stage that changes the session of the request. -/
theorem Server.Inv.stage_session {st' : Stage} {p q : Phase} {e : FHandle} (hst : StageOk m st')
    (hp : st.phase = some p) (hp' : st'.phase = some q) (hagain : st' ≠ .finishAgain)
    (he : m.entry q = some e)
    (hmounted : ∀ c, s.clientsFHandle i = .mounted c →
      c = m.client ∧ ∃ id, s.client m.client = .unmounting id)
    (hothers : ∀ {y m'' r}, m''.client ≠ m.client → m''.sessionID = i →
      Token s.serverPipe s.receiver s.box y m'' r → m''.entry r = none) :
    ((s.setFHandle m.sessionID e).setWorker i (.running ⟨m, st'⟩)).Inv
      (Function.update w m.client (.worker i)) := by
  obtain ⟨hid, _, _⟩ := (h.box i).worker _ hrun
  obtain ⟨hw, hfits⟩ := h.token (.worker hrun hp)
  simp only at hid hw hfits
  have hother : ∀ {id}, id ≠ i → Function.update s.clientsFHandle m.sessionID e id =
      s.clientsFHandle id := fun hne => Function.update_of_ne (hid ▸ hne) ..
  refine h.advance _ (.worker i) (by simp [hw]) (by simp [hw]) rfl rfl ?_ ?_ ?_ h.nodup
    (h.box_stage hrun hst (fun he => (hagain he).elim) fun j hj hf => (hother hj).trans hf)
    (h.quiet_worker hrun _)
  · intro id c hm
    by_cases hne : id = i
    · subst hne
      obtain ⟨rfl, hun⟩ := hmounted c hm
      exact Or.inr ⟨rfl, hun⟩
    · exact Or.inl ((hother hne).trans hm)
  · intro y m' r ht
    rcases Token.of_setWorker (s := s) ht with ⟨hy, ht'⟩ | ⟨rfl, hh, he', rfl, hr⟩
    · exact Or.inl ⟨h.other hw ht' hy, ht'⟩
    · cases he'
      rw [hp', Option.some.injEq] at hr
      subst hr
      refine Or.inr ⟨rfl, rfl, hfits.client, fun e' he' => ?_⟩
      rw [he, Option.some.injEq] at he'
      subst he'
      exact Function.update_self ..
  · intro y m' r hne ht e' he' hold
    by_cases hid' : m'.sessionID = i
    · rw [hothers hne hid' ht] at he'
      cases he'
    · exact (hother hid').trans hold

/-- The reply is written to the client of the request. -/
theorem Server.Inv.worker_reply {p : Phase} {out : Int} (hp : st.phase = some p)
    (hfits : ReplyFits s.clientsFHandle m.client out (s.client m.client)) {wk : Worker Handler}
    (hbox : ∀ j, BoxOk s.clientsFHandle j ((s.setWorker i wk).box j))
    (hwk : ∀ hh, wk = .running hh → hh.stage.phase = none) (exited : Bool) :
    Server.Inv { (s.setPipe m.client (s.clientPipe m.client ++ [out])).setWorker i wk with
      exited := exited } (Function.update w m.client .reply) := by
  obtain ⟨hw, _⟩ := h.token (.worker hrun hp)
  simp only at hw
  refine h.deliver _ (by simp [hw]) (by simp [hw]) hfits rfl rfl rfl ?_ h.nodup hbox
    (h.quiet_worker hrun _)
  intro y m' q ht
  rcases Token.of_setWorker (s := s) ht with ⟨hy, ht'⟩ | ⟨rfl, hh, he, rfl, hq⟩
  · exact ⟨h.other hw ht' hy, ht'⟩
  · rw [hwk hh he] at hq
    cases hq

end

/-- The entry of a request in the table is a reservation only for a mount, and a descriptor only
for its own client. -/
theorem Message.entry_cases {m : Message} {p : Phase} {e : FHandle} (he : m.entry p = some e) :
    (e = .reserved ∧ p = .served ∧ m.opCode = .mount) ∨ e = .mounted m.client ∨
      (e = .free ∧ p = .finished) := by
  cases p with
  | asked =>
    by_cases hop : m.opCode = .mount <;> simp [Message.entry, hop] at he
    exact Or.inr (Or.inl he.symm)
  | served =>
    by_cases hop : m.opCode = .mount <;> simp [Message.entry, hop] at he
    · exact Or.inl ⟨he.symm, rfl, hop⟩
    · exact Or.inr (Or.inl he.symm)
  | opened => exact Or.inr (Or.inl (Option.some.inj he).symm)
  | finished => exact Or.inr (Or.inr ⟨(Option.some.inj he).symm, rfl⟩)

theorem Server.returns_eq (s : Server) (i : Nat) (m : Message) :
    ∃ wk, (wk = .test ∨ wk = .gone) ∧ ∃ exited,
      ∀ s' : Server, s'.exited = s.exited → s'.returns i m = { s'.setWorker i wk with exited := exited } := by
  unfold Server.returns
  by_cases hop : m.opCode = .shutdown
  · exact ⟨.gone, Or.inr rfl, true, fun s' _ => by rw [if_pos hop]⟩
  · refine ⟨.test, Or.inl rfl, s.exited, fun s' he => ?_⟩
    rw [if_neg hop, ← he]
    rfl

section
variable {s : Server} {w : Nat → Spot} (h : s.Inv w) {i : Nat} {m : Message}
include h

theorem Server.Inv.openClientSession (hrun : (s.box i).worker = .running ⟨m, .openClientSession⟩) :
    ((s.setFHandle m.sessionID (.mounted m.client)).setWorker i (.running ⟨m, .replyMount⟩)).Inv
      (Function.update w m.client (.worker i)) := by
  obtain ⟨hid, hst, hreadable⟩ := (h.box i).worker _ hrun
  simp only [StageOk] at hid hst
  have hfits := (h.token (.worker (p := .served) hrun rfl)).2
  have hentry : s.clientsFHandle i = .reserved := by
    have := hfits.entry .reserved (by simp [Message.entry, hst])
    rwa [hid] at this
  refine h.stage_session hrun (p := .served) (q := .opened) hst rfl rfl (by simp) rfl ?_ ?_
  · intro c hc
    rw [hentry] at hc
    cases hc
  · intro y m' q hne hid' ht
    by_contra hno
    obtain ⟨e, he⟩ := Option.ne_none_iff_exists'.mp hno
    have hse := (h.token ht).2.entry e he
    rw [hid', hentry] at hse
    subst hse
    -- a reservation belongs to a mount on its way, and this one is with the worker
    obtain ⟨_, rfl, hop⟩ := (Message.entry_cases he).resolve_right (by simp)
    cases ht with
    | copying hm => exact (h.quiet m' hm hop).2 _ (hid' ▸ hrun)
    | @box j _ hr hi =>
      obtain ⟨m'', hi', hid''⟩ := (h.box j).info hr
      rw [hi] at hi'
      cases hi'
      rw [← hid'', hid', hreadable] at hr
      cases hr
    | @worker j hh _ hrun' hp =>
      have hj := ((h.box j).worker _ hrun').1
      rw [hid'] at hj
      subst hj
      rw [hrun] at hrun'
      cases hrun'
      exact hne rfl

theorem Server.Inv.finishFirst {fclient : FHandle}
    (hrun : (s.box i).worker = .running ⟨m, .finishFirst fclient⟩) :
    ((s.setFHandle m.sessionID .free).setWorker i
      (.running ⟨m, .replyUnmount fclient 0⟩)).Inv (Function.update w m.client (.worker i)) := by
  obtain ⟨hid, hst, _⟩ := (h.box i).worker _ hrun
  simp only [StageOk] at hid hst
  have hfits := (h.token (.worker (p := .served) hrun rfl)).2
  have hclient : s.client m.client = .unmounting m.sessionID := by
    rw [hfits.client, Message.waits, hst.1]
  have hentry : s.clientsFHandle i = .mounted m.client := by
    have := hfits.entry (.mounted m.client) (by simp [Message.entry, hst.1])
    rwa [hid] at this
  refine h.stage_session hrun (p := .served) (q := .finished) ⟨hst.1, hst.2, rfl⟩ rfl rfl (by simp)
    rfl ?_ ?_
  · intro c hc
    rw [hentry] at hc
    exact ⟨(FHandle.mounted.inj hc).symm, _, hclient⟩
  · intro y m' q hne hid' ht
    by_contra hno
    obtain ⟨e, he⟩ := Option.ne_none_iff_exists'.mp hno
    have hse := (h.token ht).2.entry e he
    rw [hid', hentry] at hse
    subst hse
    rcases Message.entry_cases he with ⟨hc, _⟩ | hc | ⟨hc, _⟩
    · cases hc
    · exact hne (FHandle.mounted.inj hc).symm
    · cases hc

theorem Server.Inv.finishAgain (hrun : (s.box i).worker = .running ⟨m, .finishAgain⟩) :
    ((s.setFHandle m.sessionID .free).returns i m).Inv w := by
  obtain ⟨hid, _, _⟩ := (h.box i).worker _ hrun
  have hfree := (h.box i).again m hrun
  have hsame : s.setFHandle m.sessionID .free = s := by
    simp only at hid
    unfold Server.setFHandle
    rw [hid, ← hfree, Function.update_eq_self]
  obtain ⟨wk, hwk, exited, hret⟩ := s.returns_eq i m
  rw [hsame, hret s rfl]
  exact
    { token := by
        intro y m' p ht
        rcases Token.of_setWorker (s := s) ht with ⟨_, ht'⟩ | ⟨rfl, hh, he, _⟩
        · exact h.token ht'
        · rcases hwk with rfl | rfl <;> cases he
      nodup := h.nodup
      box := h.box_return hrun hwk fun _ _ hf => hf
      quiet := h.quiet_worker hrun wk
      reply := h.reply
      outside := h.outside
      ready := h.ready
      held := h.held }

/-- The reply reaches the client, and the handler returns. -/
theorem Server.Inv.reply_return {st : Stage} (hrun : (s.box i).worker = .running ⟨m, st⟩)
    {p : Phase} {out : Int} (hp : st.phase = some p)
    (hfits : ReplyFits s.clientsFHandle m.client out (s.client m.client)) :
    ((s.setPipe m.client (s.clientPipe m.client ++ [out])).returns i m).Inv
      (Function.update w m.client .reply) := by
  obtain ⟨wk, hwk, exited, hret⟩ := s.returns_eq i m
  rw [hret (s.setPipe m.client (s.clientPipe m.client ++ [out])) rfl]
  refine h.worker_reply hrun hp hfits (h.box_return hrun hwk fun _ _ hf => hf) ?_ exited
  rintro hh rfl
  rcases hwk with hwk | hwk <;> cases hwk

/-- The client of a request that the worker runs can read its reply. -/
theorem Server.Inv.reply_eq {st : Stage} (hrun : (s.box i).worker = .running ⟨m, st⟩) {p : Phase}
    (hp : st.phase = some p) (out : Int) :
    s.reply (.mounted m.client) out = some (s.setPipe m.client (s.clientPipe m.client ++ [out])) := by
  have hw := (h.token (.worker hrun hp)).1
  have hin := h.not_outside (c := m.client) (by simp [hw])
  simp only [Server.reply, hin, if_false]

/-- What a step of the handler of `m` leaves: no reply fails. -/
inductive HandlerMoves (s : Server) (i : Nat) (m : Message) (out : Int) : Stage → Server → Prop
  | openClientSession : HandlerMoves s i m out .openClientSession
      ((s.setFHandle m.sessionID (.mounted m.client)).setWorker i (.running ⟨m, .replyMount⟩))
  | replyMount : m.opCode = .mount → HandlerMoves s i m out .replyMount
      ((s.setPipe m.client (s.clientPipe m.client ++ [(m.sessionID : Int)])).returns i m)
  | readUnmount : m.opCode = .unmount → HandlerMoves s i m out .readFHandle
      (s.setWorker i (.running ⟨m, .finishFirst (.mounted m.client)⟩))
  | readCall : m.opCode ≠ .mount → m.opCode ≠ .unmount → HandlerMoves s i m out .readFHandle
      (s.setWorker i (.running ⟨m, .replyCall (.mounted m.client)⟩))
  | finishFirst : m.opCode = .unmount →
      HandlerMoves s i m out (.finishFirst (.mounted m.client))
        ((s.setFHandle m.sessionID .free).setWorker i
          (.running ⟨m, .replyUnmount (.mounted m.client) 0⟩))
  | replyUnmount : m.opCode = .unmount →
      HandlerMoves s i m out (.replyUnmount (.mounted m.client) 0)
        ((s.setPipe m.client (s.clientPipe m.client ++ [0])).setWorker i
          (.running ⟨m, .finishAgain⟩))
  | finishAgain : HandlerMoves s i m out .finishAgain ((s.setFHandle m.sessionID .free).returns i m)
  | replyCall : m.opCode ≠ .mount → m.opCode ≠ .unmount →
      HandlerMoves s i m out (.replyCall (.mounted m.client))
        ((s.setPipe m.client (s.clientPipe m.client ++ [out])).returns i m)

theorem Server.Inv.handle_cases {st : Stage} (hrun : (s.box i).worker = .running ⟨m, st⟩)
    {s' : Server} {out : Int} (he : s.handle i m out st = some s') : HandlerMoves s i m out st s' := by
  obtain ⟨_, hst, _⟩ := (h.box i).worker _ hrun
  simp only at hst
  cases st with
  | openClientSession =>
    have hw := (h.token (.worker (p := .served) hrun rfl)).1
    have hin := h.not_outside (c := m.client) (by simp [hw])
    simp only [Server.handle, hin, if_false, Option.some.injEq] at he
    exact he ▸ .openClientSession
  | replyMount =>
    simp only [Server.handle, h.reply_eq hrun (p := .opened) rfl, Option.some.injEq] at he
    exact he ▸ .replyMount hst
  | readFHandle =>
    simp only [StageOk] at hst
    have hentry := (h.token (.worker (p := .served) hrun rfl)).2.entry (.mounted m.client)
      (by simp [Message.entry, hst])
    simp only at hentry
    simp only [Server.handle, hentry] at he
    split at he <;> cases he
    · exact .readUnmount (by assumption)
    · exact .readCall hst (by assumption)
  | finishFirst fclient =>
    obtain ⟨hop, rfl⟩ := hst
    cases he
    exact .finishFirst hop
  | replyUnmount fclient out' =>
    obtain ⟨hop, rfl, rfl⟩ := hst
    simp only [Server.handle, h.reply_eq hrun (p := .finished) rfl, Option.getD_some,
      Option.some.injEq] at he
    exact he ▸ .replyUnmount hop
  | finishAgain =>
    cases he
    exact .finishAgain
  | replyCall fclient =>
    obtain ⟨hmount, hunmount, rfl⟩ := hst
    simp only [Server.handle, h.reply_eq hrun (p := .served) rfl] at he
    split at he <;> cases he
    exact .replyCall hmount hunmount
  | finishFailed => exact hst.elim

theorem Server.Inv.handle {st : Stage} (hrun : (s.box i).worker = .running ⟨m, st⟩) {s' : Server}
    {out : Int} (he : s.handle i m out st = some s') : ∃ w', s'.Inv w' := by
  cases h.handle_cases hrun he with
  | openClientSession => exact ⟨_, h.openClientSession hrun⟩
  | replyMount hop =>
    have hfits := (h.token (.worker (p := .opened) hrun rfl)).2
    refine ⟨_, h.reply_return hrun (p := .opened) rfl ?_⟩
    rw [hfits.client, Message.waits, hop]
    refine Or.inr ⟨by omega, ?_⟩
    rw [Int.toNat_natCast]
    exact hfits.entry _ rfl
  | readUnmount hop => exact ⟨w, h.stage hrun ⟨hop, rfl⟩ rfl (by simp)⟩
  | readCall hmount hunmount => exact ⟨w, h.stage hrun ⟨hmount, hunmount, rfl⟩ rfl (by simp)⟩
  | finishFirst _ => exact ⟨_, h.finishFirst hrun⟩
  | replyUnmount hop =>
    obtain ⟨hid, _, _⟩ := (h.box i).worker _ hrun
    have hfits := (h.token (.worker (p := .finished) hrun rfl)).2
    have hentry : s.clientsFHandle i = .free := hid ▸ hfits.entry _ rfl
    have hreply : ReplyFits s.clientsFHandle m.client 0 (s.client m.client) := by
      rw [hfits.client, Message.waits, hop]
      rfl
    have hagain : StageOk m .finishAgain := hop
    exact ⟨_, h.worker_reply hrun (p := .finished) rfl hreply
      (h.box_stage hrun hagain (fun _ => hentry) fun _ _ hf => hf)
      (fun hh he' => by cases he'; rfl) s.exited⟩
  | finishAgain => exact ⟨w, h.finishAgain hrun⟩
  | replyCall hmount hunmount =>
    have hfits := (h.token (.worker (p := .served) hrun rfl)).2
    refine ⟨_, h.reply_return hrun (p := .served) rfl ?_⟩
    rw [hfits.client, Message.waits]
    split
    · exact absurd (by assumption) hmount
    · exact absurd (by assumption) hunmount
    · trivial

end

/-- `readFromBufferPC`: the request of the buffer goes into the hands of the worker. -/
theorem Server.Inv.readFromBufferPC {s : Server} {w : Nat → Spot} (h : s.Inv w) {i : Nat}
    {m : Message} (hw : (s.box i).worker = .copying) (hi : (s.box i).info = some m) :
    (s.setBox i { s.box i with readable := false, worker := .running (handlerOf m) }).Inv
      (Function.update w m.client (.worker i)) := by
  have hreadable := (h.box i).wake (Or.inl hw)
  obtain ⟨hspot, hfits⟩ := h.token (.box hreadable hi)
  obtain ⟨m', hm', hid⟩ := (h.box i).info hreadable
  rw [hi] at hm'
  cases hm'
  have hstage : StageOk m (handlerOf m).stage ∧ (handlerOf m).stage.phase = some .served ∧
      (handlerOf m).stage ≠ .finishAgain := by
    unfold handlerOf
    by_cases hop : m.opCode = .mount <;> simp [hop, StageOk, Stage.phase]
  refine h.advance _ (.worker i) (by simp [hspot]) (by simp [hspot]) rfl rfl
    (fun _ _ hm => Or.inl hm) (fun {y m' p} ht => ?_) (fun _ _ _ _ he => he) h.nodup
    (fun j => ?_) (fun m' hm' hop => ?_)
  · cases ht with
    | pipe hm => exact Or.inl ⟨h.other hspot (.pipe hm) (by simp), .pipe hm⟩
    | refusing hm => exact Or.inl ⟨h.other hspot (.refusing hm) (by simp), .refusing hm⟩
    | copying hm => exact Or.inl ⟨h.other hspot (.copying hm) (by simp), .copying hm⟩
    | @box j _ hr hi' =>
      by_cases hj : j = i
      · subst hj
        simp [Server.setBox] at hr
      · simp only [Server.setBox, Function.update_of_ne hj] at hr hi'
        exact Or.inl ⟨h.other hspot (.box hr hi') (by simpa using hj), .box hr hi'⟩
    | @worker j hh _ hrun hp =>
      by_cases hj : j = i
      · subst hj
        simp only [Server.setBox, Function.update_self, Worker.running.injEq] at hrun
        subst hrun
        rw [hstage.2.1, Option.some.injEq] at hp
        subst hp
        exact Or.inr ⟨rfl, rfl, hfits⟩
      · simp only [Server.setBox, Function.update_of_ne hj] at hrun
        exact Or.inl ⟨h.other hspot (.worker hrun hp) (by simp), .worker hrun hp⟩
  · by_cases hj : j = i
    · subst hj
      simp only [Server.setBox, Function.update_self]
      refine ⟨by simp, fun hh he => ?_, fun m' he => ?_, by simp⟩
      · cases he
        exact ⟨hid, hstage.1, rfl⟩
      · rw [Worker.running.injEq] at he
        rw [he] at hstage
        exact (hstage.2.2 rfl).elim
    · simp only [Server.setBox, Function.update_of_ne hj]
      exact h.box j
  · have hq := h.quiet m' hm' hop
    have hne : m'.sessionID ≠ i := by
      rintro rfl
      exact absurd (hq.1.symm.trans hreadable) (by simp)
    simp only [Server.setBox, Function.update_of_ne hne]
    exact hq

theorem Server.Inv.worker_step {s s' : Server} {w : Nat → Spot} (h : s.Inv w) {a : ServerStep}
    (he : workerStep s a = some s') : ∃ w', s'.Inv w' := by
  cases a with
  | lock i =>
    obtain ⟨b, hb, rfl⟩ := Option.map_eq_some_iff.mp he
    rcases Mailbox.lock_eq_some hb with ⟨_, rfl⟩ | ⟨hw, rfl⟩
    · exact ⟨w, h.setBox rfl rfl (by simp) (by simp)⟩
    · exact ⟨w, h.setBox rfl rfl (by simp) fun _ => (h.box i).wake (Or.inr hw)⟩
  | test i =>
    obtain ⟨b, hb, rfl⟩ := Option.map_eq_some_iff.mp he
    obtain ⟨_, rfl⟩ := Mailbox.test_eq_some hb
    refine ⟨w, h.setBox rfl rfl (fun hh => ?_) fun hc => ?_⟩
    · simp only
      split <;> nofun
    · simp only at hc ⊢
      split at hc
      · assumption
      · rcases hc with hc | hc <;> cases hc
  | readFromBufferPC i =>
    obtain ⟨b, hb, rfl⟩ := Option.map_eq_some_iff.mp he
    obtain ⟨m, hw, hi, rfl⟩ := Mailbox.take_eq_some hb
    exact ⟨_, h.readFromBufferPC hw hi⟩
  | runClientRequest i out =>
    simp only [workerStep] at he
    split at he
    · exact h.handle (by assumption) he
    · cases he
  | _ => cases he

end tecnicofs.parte2
