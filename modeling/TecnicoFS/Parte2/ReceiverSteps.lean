-- The steps of the receiver (`threadReceiver`) keep each request at one place, if
-- it takes no session too early and signals no worker too late.
import TecnicoFS.Parte2.Sessions

namespace tecnicofs.parte2

/-! ## Hasty steps -/

/-- The worker of the session has made the first `finishClientSession` of an unmount, or left it
out, and not yet the second one. -/
def BetweenFinishes (b : Mailbox Message Handler) : Prop :=
  ∃ m, (∃ fclient out, b.worker = .running ⟨m, .replyUnmount fclient out⟩) ∨
    b.worker = .running ⟨m, .finishAgain⟩

/-- The step gives away a session whose worker is between the two, or signals a worker that waits
with nothing in its buffer. -/
def Hasty (s : Server) : ServerStep → Prop
  | .receive => (∃ m, s.serverPipe.head? = some m ∧ m.opCode = .mount) ∧
      ∃ i, availableSession s.clientsFHandle = some i ∧ BetweenFinishes (s.box i)
  | .signal => ∃ i, s.receiver = .signalling i ∧ (s.box i).worker = .waiting ∧
      (s.box i).readable = false
  | _ => False

/-- The worker is at one of the stages behind the first `finishClientSession`. -/
def Worker.betweenFinishes : Worker Handler → Bool
  | .running ⟨_, .replyUnmount _ _⟩ | .running ⟨_, .finishAgain⟩ => true
  | _ => false

theorem Worker.betweenFinishes_iff {b : Mailbox Message Handler} :
    b.worker.betweenFinishes = true ↔ BetweenFinishes b := by
  constructor
  · intro h
    unfold betweenFinishes at h
    split at h
    · rename_i m fclient out hw
      exact ⟨m, Or.inl ⟨fclient, out, hw⟩⟩
    · rename_i m hw
      exact ⟨m, Or.inr hw⟩
    · cases h
  · rintro ⟨m, ⟨fclient, out, hw⟩ | hw⟩ <;> rw [hw] <;> rfl

instance (b : Mailbox Message Handler) : Decidable (BetweenFinishes b) :=
  decidable_of_iff _ Worker.betweenFinishes_iff

def ReceiverPlace.signals : ReceiverPlace → Option Nat
  | .signalling i => some i
  | _ => none

theorem ReceiverPlace.signals_iff {r : ReceiverPlace} {i : Nat} :
    i ∈ r.signals ↔ r = .signalling i := by
  cases r <;> simp [signals]

instance (s : Server) : (a : ServerStep) → Decidable (Hasty s a)
  | .receive => inferInstanceAs (Decidable ((∃ m ∈ s.serverPipe.head?, m.opCode = .mount) ∧
      ∃ i ∈ availableSession s.clientsFHandle, BetweenFinishes (s.box i)))
  | .signal =>
    decidable_of_iff (∃ i ∈ s.receiver.signals, (s.box i).worker = .waiting ∧
      (s.box i).readable = false)
      (exists_congr fun _ => and_congr_left fun _ => ReceiverPlace.signals_iff)
  | .tfsMount _ | .tfsUnmount _ | .call _ _ | .readReply _ | .sendUserCountFullMessage
  | .writeToBufferPC | .lock _ | .test _ | .readFromBufferPC _ | .runClientRequest _ _ =>
    inferInstanceAs (Decidable False)

/-! ## Steps of the receiver -/

theorem Message.entry_ne_free (m : Message) :
    m.entry .asked ≠ some .free ∧ m.entry .served ≠ some .free ∧ m.entry .opened ≠ some .free := by
  refine ⟨?_, ?_, by simp [Message.entry]⟩ <;> unfold Message.entry <;> by_cases hop : m.opCode = .mount <;> simp [hop]

/-- A request for which the session is free is in the hands of a worker, behind the first
`finishClientSession` of an unmount. -/
theorem Token.worker_of_free {serverPipe : List Message} {receiver : ReceiverPlace}
    {box : Nat → Mailbox Message Handler} {x : Spot} {m : Message} {p : Phase}
    (ht : Token serverPipe receiver box x m p) (he : m.entry p = some .free) :
    ∃ i h, (box i).worker = .running h ∧ h.msg = m ∧ BetweenFinishes (box i) := by
  obtain ⟨h1, h2, h3⟩ := m.entry_ne_free
  cases ht with
  | pipe _ => exact absurd he h1
  | refusing _ => exact absurd he h1
  | copying _ => exact absurd he h2
  | box _ _ => exact absurd he h2
  | @worker i h p hrun hp =>
    refine ⟨i, h, hrun, rfl, ?_⟩
    obtain ⟨m, stage⟩ := h
    cases stage <;> cases hp
    · exact absurd he h2
    · exact absurd he h3
    · exact absurd he h2
    · exact absurd he h2
    · exact ⟨m, Or.inl ⟨_, _, hrun⟩⟩
    · exact absurd he h2

/-- A free session has no request on its way, if its worker is not between the two calls of
`finishClientSession`. -/
theorem Server.Inv.free_quiet {s : Server} {w : Nat → Spot} (h : s.Inv w) {i : Nat}
    (hfree : s.clientsFHandle i = .free) (hb : ¬ BetweenFinishes (s.box i)) : Quiet (s.box i) := by
  have hentry : ∀ {x m p}, Token s.serverPipe s.receiver s.box x m p → m.sessionID = i →
      ∀ e, m.entry p = some e → e = .free := by
    intro x m p ht hid e he
    rw [← (h.token ht).2.entry e he, hid]
    exact hfree
  constructor
  · by_contra hc
    rw [Bool.not_eq_false] at hc
    obtain ⟨m, hm, hid⟩ := (h.box i).info hc
    have := hentry (.box hc hm) hid
    by_cases hop : m.opCode = .mount <;> simp [Message.entry, hop] at this
  · intro hh hrun
    obtain ⟨hid, hstage, _⟩ := (h.box i).worker _ hrun
    rcases hp : hh.stage.phase with _ | p
    · obtain ⟨m, stage⟩ := hh
      cases stage <;> simp only [Stage.phase, reduceCtorEq] at hp
      · exact hb ⟨m, Or.inr hrun⟩
      · exact hstage
    · have ht : Token s.serverPipe s.receiver s.box (.worker i) hh.msg p := .worker hrun hp
      obtain ⟨e, he⟩ : ∃ e, hh.msg.entry p = some e := by
        cases p with
        | asked => cases hs : hh.stage <;> rw [hs] at hp <;> cases hp
        | served => by_cases hop : hh.msg.opCode = .mount <;> simp [Message.entry, hop]
        | opened => exact ⟨_, rfl⟩
        | finished => exact ⟨_, rfl⟩
      obtain ⟨j, hh', hrun', hmsg, hb'⟩ := ht.worker_of_free (hentry ht hid e he ▸ he)
      have hji := ((h.box j).worker hh' hrun').1
      rw [hmsg, hid] at hji
      exact hb (hji ▸ hb')

/-- The first message of the pipe comes to the receiver, and its client has no other one. -/
theorem Server.Inv.head_token {s : Server} {w : Nat → Spot} (h : s.Inv w) {m : Message}
    {rest : List Message} (hp : s.serverPipe = m :: rest) :
    w m.client = .pipe ∧ Fits s.client s.clientsFHandle m .asked ∧
      (rest.map Message.client).Nodup ∧ ∀ m' ∈ rest, m'.client ≠ m.client := by
  have ht := h.token (.pipe (hp ▸ List.mem_cons_self))
  have hn := h.nodup
  rw [hp, List.map_cons, List.nodup_cons] at hn
  exact ⟨ht.1, ht.2, hn.2, fun m' hm' he => hn.1 (he ▸ List.mem_map_of_mem hm')⟩

/-- `getAvailableSession` finds session `i`. -/
theorem Server.Inv.reserve {s : Server} {w : Nat → Spot} (h : s.Inv w) {m : Message}
    {rest : List Message} {i : Nat} (hp : s.serverPipe = m :: rest)
    (hop : m.opCode = .mount) (hfree : s.clientsFHandle i = .free)
    (hb : ¬ BetweenFinishes (s.box i)) :
    Server.Inv { { s with serverPipe := rest }.setFHandle i .reserved with
      receiver := .copying { m with sessionID := i } } (Function.update w m.client .receiver) := by
  obtain ⟨hw, hfits, hnodup, hrest⟩ := h.head_token hp
  have hquiet := h.free_quiet hfree hb
  have hother : ∀ {id e}, s.clientsFHandle id = e → e ≠ .free →
      Function.update s.clientsFHandle i .reserved id = e := by
    intro id e he hne
    by_cases hid : id = i
    · subst hid
      exact (hne (he.symm.trans hfree)).elim
    · rw [Function.update_of_ne hid, he]
  refine h.advance _ .receiver (by simp [hw]) (by simp [hw]) rfl rfl
    (fun id c' hm => Or.inl (hother hm (by simp))) (fun {y m' p} ht => ?_) (fun {y m' p} _ ht e he hid => ?_)
    hnodup (fun j => (h.box j).congr fun hagain hj => ?_) (fun m' hm' _ => ?_)
  · cases ht with
    | pipe hm => exact Or.inl ⟨hrest _ hm, .pipe (hp ▸ List.mem_cons_of_mem _ hm)⟩
    | refusing hm => cases hm
    | copying hm =>
      cases hm
      refine Or.inr ⟨rfl, rfl, ?_, fun e he => ?_⟩
      · have := hfits.client
        simp only [Message.waits, hop] at this ⊢
        exact this
      · simp only [Message.entry, hop, if_true, Option.some.injEq] at he
        subst he
        exact Function.update_self ..
    | box hr' hi => exact Or.inl ⟨h.other hw (.box hr' hi) (by simp), .box hr' hi⟩
    | worker hr' hp' => exact Or.inl ⟨h.other hw (.worker hr' hp') (by simp), .worker hr' hp'⟩
  · by_cases hj : m'.sessionID = i
    · -- only a worker has a request for which its session is free, and worker `i` has none
      have hfree' : e = .free := hid.symm.trans (hj ▸ hfree)
      subst hfree'
      obtain ⟨j, hh, hrun, hmsg, _⟩ := ht.worker_of_free he
      have hji := ((h.box j).worker hh hrun).1
      rw [hmsg, hj] at hji
      subst hji
      exact (hquiet.2 hh hrun).elim
    · exact (Function.update_of_ne hj ..).trans hid
  · by_cases hji : j = i
    · subst hji
      obtain ⟨m', hrun⟩ := hagain
      exact (hquiet.2 _ hrun).elim
    · exact (Function.update_of_ne hji ..).trans hj
  · cases hm'
    exact hquiet

/-- The receiver goes on with a message that asks for no session, or gets none. -/
theorem Server.Inv.receive {s : Server} {w : Nat → Spot} (h : s.Inv w) {m : Message}
    {rest : List Message} (hp : s.serverPipe = m :: rest) {r : ReceiverPlace}
    (hr : (r = .refusing m.client ∧ m.opCode = .mount) ∨ (r = .copying m ∧ m.opCode ≠ .mount)) :
    Server.Inv { s with serverPipe := rest, receiver := r }
      (Function.update w m.client .receiver) := by
  obtain ⟨hw, hfits, hnodup, hrest⟩ := h.head_token hp
  refine h.advance _ .receiver (by simp [hw]) (by simp [hw]) rfl rfl
    (fun _ _ hm => Or.inl hm) (fun {y m' p} ht => ?_) (fun _ _ _ _ he => he)
    hnodup h.box (fun m' hm' hop => ?_)
  · cases ht with
    | pipe hm => exact Or.inl ⟨hrest _ hm, .pipe (hp ▸ List.mem_cons_of_mem _ hm)⟩
    | refusing hm =>
      rcases hr with ⟨rfl, hop⟩ | ⟨rfl, _⟩ <;> cases hm
      refine Or.inr ⟨rfl, rfl, ?_, fun _ he => by cases he⟩
      have := hfits.client
      rw [Message.waits, hop] at this
      exact this
    | copying hm =>
      rcases hr with ⟨rfl, _⟩ | ⟨rfl, hop⟩ <;> cases hm
      refine Or.inr ⟨rfl, rfl, hfits.client, fun e he => hfits.entry e ?_⟩
      simpa [Message.entry, hop] using he
    | box hr' hi => exact Or.inl ⟨h.other hw (.box hr' hi) (by simp), .box hr' hi⟩
    | worker hr' hp' => exact Or.inl ⟨h.other hw (.worker hr' hp') (by simp), .worker hr' hp'⟩
  · rcases hr with ⟨rfl, _⟩ | ⟨rfl, hne⟩ <;> cases hm'
    exact absurd hop hne

/-- The request is copied into the buffer of its session. -/
theorem Server.Inv.writeToBufferPC {s : Server} {w : Nat → Spot} (h : s.Inv w) {m : Message}
    (hr : s.receiver = .copying m) (hfree : (s.box m.sessionID).mutexFree = true) :
    Server.Inv { s.setBox m.sessionID
        { s.box m.sessionID with readable := true, info := some m } with
      receiver := .signalling m.sessionID }
      (Function.update w m.client (.box m.sessionID)) := by
  obtain ⟨hw, hfits⟩ := h.token (.copying hr)
  have hidle : ∀ hh, (s.box m.sessionID).worker ≠ .running hh := fun hh hrun => by
    simp [Mailbox.mutexFree, hrun] at hfree
  refine h.advance _ (.box m.sessionID) (by simp [hw]) (by simp [hw]) rfl rfl
    (fun _ _ hm => Or.inl hm) (fun {y m' p} ht => ?_) (fun _ _ _ _ he => he)
    h.nodup (fun j => ?_) (fun _ hm' _ => by cases hm')
  · cases ht with
    | pipe hm => exact Or.inl ⟨h.other hw (.pipe hm) (by simp), .pipe hm⟩
    | refusing hm => cases hm
    | copying hm => cases hm
    | @box j _ hr' hi =>
      by_cases hj : j = m.sessionID
      · subst hj
        simp only [Server.setBox, Function.update_self, Option.some.injEq] at hi
        subst hi
        exact Or.inr ⟨rfl, rfl, hfits⟩
      · simp only [Server.setBox, Function.update_of_ne hj] at hr' hi
        exact Or.inl ⟨h.other hw (.box hr' hi) (by simp), .box hr' hi⟩
    | @worker j hh _ hrun hp' =>
      by_cases hj : j = m.sessionID
      · subst hj
        simp only [Server.setBox, Function.update_self] at hrun
        exact (hidle hh hrun).elim
      · simp only [Server.setBox, Function.update_of_ne hj] at hrun
        exact Or.inl ⟨h.other hw (.worker hrun hp') (by simp), .worker hrun hp'⟩
  · by_cases hj : j = m.sessionID
    · subst hj
      simp only [Server.setBox, Function.update_self]
      exact ⟨fun _ => ⟨m, rfl, rfl⟩, fun hh hrun => (hidle hh hrun).elim,
        fun _ hrun => (hidle _ hrun).elim, fun _ => rfl⟩
    · simp only [Server.setBox, Function.update_of_ne hj]
      exact h.box j

/-- `sendUserCountFullMessage` answers -1 to the mount that the receiver cannot serve. -/
theorem Server.Inv.refuse {s : Server} {w : Nat → Spot} (h : s.Inv w) {c : Nat}
    (hm : s.receiver = .refusing c) :
    s.reply (.mounted c) (-1) = some (s.setPipe c (s.clientPipe c ++ [-1])) ∧
      Server.Inv { s.setPipe c (s.clientPipe c ++ [-1]) with receiver := .reading }
        (Function.update w c .reply) := by
  obtain ⟨hw, hfits⟩ := h.token (.refusing hm)
  have hin := h.not_outside (c := c) (by simp [hw])
  have hreply : ReplyFits s.clientsFHandle c (-1) (s.client c) := by
    rw [hfits.client]
    exact Or.inl rfl
  refine ⟨by simp only [Server.reply, hin, if_false], ?_⟩
  refine h.deliver _ (by simp [hw]) (by simp [hw]) hreply rfl rfl rfl
    (fun {y m p} ht => ?_) h.nodup h.box fun _ hm' _ => by cases hm'
  cases ht with
  | pipe hm' => exact ⟨h.other hw (.pipe hm') (by simp), .pipe hm'⟩
  | refusing hm' => cases hm'
  | copying hm' => cases hm'
  | box hr hi => exact ⟨h.other hw (.box hr hi) (by simp), .box hr hi⟩
  | worker hr hp => exact ⟨h.other hw (.worker hr hp) (by simp), .worker hr hp⟩

/-- The receiver is back at its read, with no message in hand. -/
theorem Server.Inv.read {s : Server} {w : Nat → Spot} (h : s.Inv w) :
    Server.Inv { s with receiver := .reading } w where
  token := fun ht => by
    cases ht with
    | pipe hm => exact h.token (.pipe hm)
    | refusing hm => cases hm
    | copying hm => cases hm
    | box hr hi' => exact h.token (.box hr hi')
    | worker hr hp => exact h.token (.worker hr hp)
  nodup := h.nodup
  box := h.box
  quiet := fun _ hm _ => by cases hm
  reply := h.reply
  outside := h.outside
  ready := h.ready
  held := h.held

/-- A signal wakes a worker whose buffer is readable, or nobody. -/
theorem Server.Inv.signal {s : Server} {w : Nat → Spot} (h : s.Inv w) {i : Nat}
    (hready : (s.box i).worker = .waiting → (s.box i).readable = true) :
    Server.Inv { s.setBox i (s.box i).signal with receiver := .reading } w := by
  have hread := h.read
  rcases (s.box i).signal_cases with ⟨hw, hb⟩ | ⟨_, hb⟩ <;> rw [hb]
  · exact hread.setBox (i := i) rfl rfl (by simp) fun _ => hready hw
  · have hself : Function.update s.box i (s.box i) = s.box := Function.update_eq_self ..
    unfold Server.setBox
    rw [hself]
    exact hread

theorem availableSession_eq_some {clientsFHandle : Nat → FHandle} {i : Nat}
    (h : availableSession clientsFHandle = some i) : clientsFHandle i = .free := by
  simpa using (List.find?_range_eq_some.mp h).1

theorem Server.Inv.receiver_step {s s' : Server} {w : Nat → Spot} (h : s.Inv w) {a : ServerStep}
    (hok : ¬ Hasty s a) (he : receiverStep s a = some s') : ∃ w', s'.Inv w' := by
  cases receiverStep_moves he with
  | @reserve m rest i _ hp hop hi =>
    refine ⟨_, h.reserve hp hop (availableSession_eq_some hi) fun hb => hok ?_⟩
    exact ⟨⟨m, by rw [hp]; rfl, hop⟩, i, hi, hb⟩
  | full _ hp hop _ => exact ⟨_, h.receive hp (Or.inl ⟨rfl, hop⟩)⟩
  | request _ hp hop _ => exact ⟨_, h.receive hp (Or.inr ⟨rfl, hop⟩)⟩
  | refuse hr hreply =>
    obtain ⟨hanswer, hinv⟩ := h.refuse hr
    rw [hanswer, Option.some.injEq] at hreply
    subst hreply
    exact ⟨_, hinv⟩
  | refuseFailed hr hreply =>
    rw [(h.refuse hr).1] at hreply
    cases hreply
  | copy hr hfree => exact ⟨_, h.writeToBufferPC hr hfree⟩
  | @signal i hr =>
    refine ⟨w, h.signal fun hw => ?_⟩
    by_contra hc
    exact hok ⟨i, hr, hw, by simpa using hc⟩

end tecnicofs.parte2
