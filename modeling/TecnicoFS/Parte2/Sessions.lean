-- Where the request of each client is: while a client waits, its request or the
-- reply is at one place of the server, and this place says what the table of
-- sessions holds. The steps of a client keep that so.
import TecnicoFS.Parte2.Server

namespace tecnicofs.parte2

/-! ## Where a request is -/

inductive Spot
  | nowhere
  | pipe
  | receiver
  | box (i : Nat)
  | worker (i : Nat)
  | reply
  deriving DecidableEq

/-- How far a request has come: sent, on its way to the worker with a session, mounted, and
unmounted by the first `finishClientSession`. -/
inductive Phase
  | asked
  | served
  | opened
  | finished

/-- The phase in which a handler has a request whose reply was not written yet. -/
def Stage.phase : Stage → Option Phase
  | .openClientSession | .readFHandle | .finishFirst _ | .replyCall _ => some .served
  | .replyMount => some .opened
  | .replyUnmount _ _ => some .finished
  | .finishAgain | .finishFailed => none

/-- A request without a reply, where it is and in which phase. -/
inductive Token (serverPipe : List Message) (receiver : ReceiverPlace)
    (box : Nat → Mailbox Message Handler) : Spot → Message → Phase → Prop
  | pipe {m} : m ∈ serverPipe → Token serverPipe receiver box .pipe m .asked
  | refusing {c} : receiver = .refusing c →
      Token serverPipe receiver box .receiver ⟨.mount, 0, c⟩ .asked
  | copying {m} : receiver = .copying m → Token serverPipe receiver box .receiver m .served
  | box {i m} : (box i).readable = true → (box i).info = some m →
      Token serverPipe receiver box (.box i) m .served
  | worker {i h p} : (box i).worker = .running h → h.stage.phase = some p →
      Token serverPipe receiver box (.worker i) h.msg p

/-- The call in which the client of a request is. -/
def Message.waits (m : Message) : Client :=
  match m.opCode with
  | .mount => .mounting
  | .unmount => .unmounting m.sessionID
  | _ => .calling m.sessionID false

/-- What the table of sessions holds for a request in a phase. -/
def Message.entry (m : Message) : Phase → Option FHandle
  | .asked => if m.opCode = .mount then none else some (.mounted m.client)
  | .served => if m.opCode = .mount then some .reserved else some (.mounted m.client)
  | .opened => some (.mounted m.client)
  | .finished => some .free

structure Fits (client : Nat → Client) (clientsFHandle : Nat → FHandle) (m : Message) (p : Phase) :
    Prop where
  client : client m.client = m.waits
  entry : ∀ h, m.entry p = some h → clientsFHandle m.sessionID = h

/-- A stage of the handler of `m`. -/
def StageOk (m : Message) : Stage → Prop
  | .openClientSession | .replyMount => m.opCode = .mount
  | .readFHandle => m.opCode ≠ .mount
  | .finishFirst fclient => m.opCode = .unmount ∧ fclient = .mounted m.client
  | .replyUnmount fclient out => m.opCode = .unmount ∧ fclient = .mounted m.client ∧ out = 0
  | .finishAgain => m.opCode = .unmount
  | .replyCall fclient => m.opCode ≠ .mount ∧ m.opCode ≠ .unmount ∧ fclient = .mounted m.client
  | .finishFailed => False

/-- The reply that waits in the pipe of a client is one for its call. -/
def ReplyFits (clientsFHandle : Nat → FHandle) (c : Nat) (out : Int) : Client → Prop
  | .mounting => out = -1 ∨ (0 ≤ out ∧ clientsFHandle out.toNat = .mounted c)
  | .calling _ _ => True
  | .unmounting _ => out = 0
  | _ => False

/-- A buffer and its worker, for session `i`. -/
structure BoxOk (clientsFHandle : Nat → FHandle) (i : Nat) (b : Mailbox Message Handler) : Prop where
  info : b.readable = true → ∃ m, b.info = some m ∧ m.sessionID = i
  worker : ∀ h, b.worker = .running h →
    h.msg.sessionID = i ∧ StageOk h.msg h.stage ∧ b.readable = false
  again : ∀ m, b.worker = .running ⟨m, .finishAgain⟩ → clientsFHandle i = .free
  wake : b.worker = .copying ∨ b.worker = .woken → b.readable = true

/-- Nothing is in the buffer or in the hands of the worker. -/
def Quiet (b : Mailbox Message Handler) : Prop :=
  b.readable = false ∧ ∀ h, b.worker ≠ .running h

/-- The invariant, with the spot `w c` of the request or the reply of each client. -/
structure Server.Inv (s : Server) (w : Nat → Spot) : Prop where
  token : ∀ {x m p}, Token s.serverPipe s.receiver s.box x m p →
    w m.client = x ∧ Fits s.client s.clientsFHandle m p
  nodup : (s.serverPipe.map Message.client).Nodup
  box : ∀ i, BoxOk s.clientsFHandle i (s.box i)
  quiet : ∀ m, s.receiver = .copying m → m.opCode = .mount → Quiet (s.box m.sessionID)
  reply : ∀ c, s.clientPipe c = [] ∨
    (w c = .reply ∧ ∃ out, s.clientPipe c = [out] ∧ ReplyFits s.clientsFHandle c out (s.client c))
  outside : ∀ c, s.client c = .outside → w c = .nowhere
  ready : ∀ c id left, s.client c = .ready id left → w c = .nowhere
  held : ∀ c id left, s.client c = .ready id left ∨ s.client c = .calling id left →
    left = false ∧ s.clientsFHandle id = .mounted c

theorem firstServer_inv : firstServer.Inv fun _ => .nowhere where
  token := fun h => by cases h <;> simp_all [firstServer, Mailbox.first]
  nodup := List.nodup_nil
  box := fun _ => by constructor <;> simp [firstServer, Mailbox.first]
  quiet := by simp [firstServer]
  reply := fun _ => Or.inl rfl
  outside := fun _ _ => rfl
  ready := fun _ _ _ _ => rfl
  held := by simp [firstServer]

/-! ## What the invariant gives -/

section
variable {s : Server} {w : Nat → Spot} (h : s.Inv w)
include h

/-- A client whose request is somewhere has no reply. -/
theorem Server.Inv.no_reply {c : Nat} (hw : w c ≠ .reply) : s.clientPipe c = [] :=
  (h.reply c).resolve_right fun hr => hw hr.1

/-- A client whose request is somewhere is in a call. -/
theorem Server.Inv.not_outside {c : Nat} (hw : w c ≠ .nowhere) : s.client c ≠ .outside :=
  fun hc => hw (h.outside c hc)

/-- Whose request is at another place than that of client `c` is another client. -/
theorem Server.Inv.other {c : Nat} {x y : Spot} {m : Message} {p : Phase} (hw : w c = x)
    (ht : Token s.serverPipe s.receiver s.box y m p) (hy : y ≠ x) : m.client ≠ c := by
  rintro rfl
  exact hy ((h.token ht).1.symm.trans hw)

/-- The tokens after a step in which the request of client `c` comes to `x`. The tokens of the
other clients stay, with what they say. -/
theorem Server.Inv.move (s' : Server) (c : Nat) (x : Spot)
    (hold : ∀ {y m p}, Token s'.serverPipe s'.receiver s'.box y m p →
      (m.client ≠ c ∧ Token s.serverPipe s.receiver s.box y m p) ∨
        (m.client = c ∧ y = x ∧ Fits s'.client s'.clientsFHandle m p))
    (hclient : ∀ c', c' ≠ c → s'.client c' = s.client c')
    (hentry : ∀ {y m p}, m.client ≠ c → Token s.serverPipe s.receiver s.box y m p →
      ∀ e, m.entry p = some e → s.clientsFHandle m.sessionID = e →
        s'.clientsFHandle m.sessionID = e)
    {y : Spot} {m : Message} {p : Phase} (ht : Token s'.serverPipe s'.receiver s'.box y m p) :
    Function.update w c x m.client = y ∧ Fits s'.client s'.clientsFHandle m p := by
  rcases hold ht with ⟨hm, ht'⟩ | ⟨hm, rfl, hf⟩
  · obtain ⟨hw, hf⟩ := h.token ht'
    refine ⟨by rw [Function.update_of_ne hm, hw], by rw [hclient _ hm]; exact hf.client, ?_⟩
    intro e he
    exact hentry hm ht' e he (hf.entry e he)
  · exact ⟨by rw [hm, Function.update_self], hf⟩

end

theorem BoxOk.congr {clientsFHandle clientsFHandle' : Nat → FHandle} {i : Nat}
    {b : Mailbox Message Handler} (h : BoxOk clientsFHandle i b)
    (he : (∃ m, b.worker = .running ⟨m, .finishAgain⟩) → clientsFHandle i = .free →
      clientsFHandle' i = .free) : BoxOk clientsFHandle' i b :=
  ⟨h.info, h.worker, fun m hm => he ⟨m, hm⟩ (h.again m hm), h.wake⟩

/-! ## Where a request goes -/

/-- A client without a request has none when the request of another one moves. -/
theorem nowhere_moved {w : Nat → Spot} {c c' : Nat} (hw : w c ≠ .nowhere) (x : Spot)
    (hc : w c' = .nowhere) : Function.update w c x c' = .nowhere := by
  rw [Function.update_of_ne]
  · exact hc
  · rintro rfl
    exact hw hc

/-- A step of the server that moves the request of client `c` to `x`. Sessions stay mounted, but
for the one that `c` unmounts. -/
theorem Server.Inv.advance {s : Server} {w : Nat → Spot} (h : s.Inv w) (s' : Server) {c : Nat}
    (x : Spot) (hw : w c ≠ .nowhere) (hr : w c ≠ .reply) (hclient : s'.client = s.client)
    (hpipe : s'.clientPipe = s.clientPipe)
    (hmounted : ∀ id c', s.clientsFHandle id = .mounted c' → s'.clientsFHandle id = .mounted c' ∨
      (c' = c ∧ ∃ id', s.client c = .unmounting id'))
    (htoken : ∀ {y m p}, Token s'.serverPipe s'.receiver s'.box y m p →
      (m.client ≠ c ∧ Token s.serverPipe s.receiver s.box y m p) ∨
        (m.client = c ∧ y = x ∧ Fits s'.client s'.clientsFHandle m p))
    (hentry : ∀ {y m p}, m.client ≠ c → Token s.serverPipe s.receiver s.box y m p →
      ∀ e, m.entry p = some e → s.clientsFHandle m.sessionID = e →
        s'.clientsFHandle m.sessionID = e)
    (hnodup : (s'.serverPipe.map Message.client).Nodup)
    (hbox : ∀ i, BoxOk s'.clientsFHandle i (s'.box i))
    (hquiet : ∀ m, s'.receiver = .copying m → m.opCode = .mount → Quiet (s'.box m.sessionID)) :
    s'.Inv (Function.update w c x) where
  token := h.move s' c x htoken (fun c' _ => by rw [hclient]) hentry
  nodup := hnodup
  box := hbox
  quiet := hquiet
  reply := by
    intro c'
    rw [hpipe]
    by_cases hc : c' = c
    · subst hc
      exact Or.inl (h.no_reply hr)
    · rw [Function.update_of_ne hc, hclient]
      refine (h.reply c').imp_right fun ⟨hw', out, hout, hfits⟩ => ⟨hw', out, hout, ?_⟩
      rcases hcl : s.client c' with _ | _ | _ | _ | _ <;> rw [hcl] at hfits
      · exact hfits
      · refine hfits.imp_right fun ⟨h0, hm⟩ => ⟨h0, ?_⟩
        exact (hmounted _ _ hm).resolve_right fun he => hc he.1
      · exact hfits
      · exact hfits
      · exact hfits
  outside := by
    intro c' hc
    rw [hclient] at hc
    exact nowhere_moved hw _ (h.outside c' hc)
  ready := by
    intro c' id left hc
    rw [hclient] at hc
    exact nowhere_moved hw _ (h.ready c' id left hc)
  held := by
    intro c' id left hc
    rw [hclient] at hc
    obtain ⟨hleft, hm⟩ := h.held c' id left hc
    refine ⟨hleft, (hmounted id c' hm).resolve_right ?_⟩
    rintro ⟨rfl, id', hun⟩
    rw [hun] at hc
    rcases hc with hc | hc <;> cases hc

/-- A box changes in a way that moves no request. -/
theorem Server.Inv.setBox {s : Server} {w : Nat → Spot} (h : s.Inv w) {i : Nat}
    {b : Mailbox Message Handler} (hreadable : b.readable = (s.box i).readable)
    (hinfo : b.info = (s.box i).info) (hb : ∀ hh, b.worker ≠ .running hh)
    (hwake : b.worker = .copying ∨ b.worker = .woken → b.readable = true) :
    (s.setBox i b).Inv w where
  token := by
    intro y m p ht
    cases ht with
    | pipe hm => exact h.token (.pipe hm)
    | refusing hm => exact h.token (.refusing hm)
    | copying hm => exact h.token (.copying hm)
    | @box j _ hr hi =>
      by_cases hj : j = i
      · subst hj
        simp only [Server.setBox, Function.update_self] at hr hi
        exact h.token (.box (hreadable ▸ hr) (hinfo ▸ hi))
      · simp only [Server.setBox, Function.update_of_ne hj] at hr hi
        exact h.token (.box hr hi)
    | @worker j hh _ hrun hp =>
      by_cases hj : j = i
      · subst hj
        simp only [Server.setBox, Function.update_self] at hrun
        exact (hb hh hrun).elim
      · simp only [Server.setBox, Function.update_of_ne hj] at hrun
        exact h.token (.worker hrun hp)
  nodup := h.nodup
  box := by
    intro j
    by_cases hj : j = i
    · subst hj
      simp only [Server.setBox, Function.update_self]
      exact ⟨fun hr => hinfo ▸ (h.box j).info (hreadable ▸ hr), fun hh hrun => (hb hh hrun).elim,
        fun _ hrun => (hb _ hrun).elim, hwake⟩
    · simp only [Server.setBox, Function.update_of_ne hj]
      exact h.box j
  quiet := by
    intro m hm hop
    have hq := h.quiet m hm hop
    by_cases hj : m.sessionID = i
    · rw [hj] at hq ⊢
      simp only [Server.setBox, Function.update_self]
      exact ⟨hreadable.trans hq.1, hb⟩
    · simp only [Server.setBox, Function.update_of_ne hj]
      exact hq
  reply := h.reply
  outside := h.outside
  ready := h.ready
  held := h.held

/-- A reply comes to the pipe of a client whose request was at the server. -/
theorem Server.Inv.deliver {s : Server} {w : Nat → Spot} (h : s.Inv w) (s' : Server) {c : Nat}
    {out : Int} (hw : w c ≠ .nowhere) (hr : w c ≠ .reply)
    (hfits : ReplyFits s.clientsFHandle c out (s.client c))
    (hclient : s'.client = s.client) (hfh : s'.clientsFHandle = s.clientsFHandle)
    (hpipe : s'.clientPipe = Function.update s.clientPipe c (s.clientPipe c ++ [out]))
    (htoken : ∀ {y m p}, Token s'.serverPipe s'.receiver s'.box y m p →
      m.client ≠ c ∧ Token s.serverPipe s.receiver s.box y m p)
    (hnodup : (s'.serverPipe.map Message.client).Nodup)
    (hbox : ∀ i, BoxOk s'.clientsFHandle i (s'.box i))
    (hquiet : ∀ m, s'.receiver = .copying m → m.opCode = .mount → Quiet (s'.box m.sessionID)) :
    s'.Inv (Function.update w c .reply) where
  token := h.move s' c .reply (fun ht => Or.inl (htoken ht)) (fun c' _ => by rw [hclient])
    fun _ _ _ _ he => by rw [hfh]; exact he
  nodup := hnodup
  box := hbox
  quiet := hquiet
  reply := by
    intro c'
    rw [hpipe, hfh, hclient]
    by_cases hc : c' = c
    · subst hc
      refine Or.inr ⟨Function.update_self .., out, ?_, hfits⟩
      rw [Function.update_self, h.no_reply hr]
      rfl
    · rw [Function.update_of_ne hc, Function.update_of_ne hc]
      exact h.reply c'
  outside := by
    intro c' hc
    rw [hclient] at hc
    exact nowhere_moved hw _ (h.outside c' hc)
  ready := by
    intro c' id left hc
    rw [hclient] at hc
    exact nowhere_moved hw _ (h.ready c' id left hc)
  held := by
    rw [hclient, hfh]
    exact h.held

/-! ## Steps of the client -/

/-- A client that has no request on its way sends one. -/
theorem Server.Inv.send {s : Server} {w : Nat → Spot} (h : s.Inv w) {m : Message}
    (hw : w m.client = .nowhere)
    (hentry : m.opCode ≠ .mount → s.clientsFHandle m.sessionID = .mounted m.client) :
    (s.send m m.waits).Inv (Function.update w m.client .pipe) := by
  have hwaits : m.waits ≠ .outside ∧ (∀ id left, m.waits ≠ .ready id left) ∧
      ∀ id left, m.waits = .calling id left →
        left = false ∧ id = m.sessionID ∧ m.opCode ≠ .mount := by
    unfold Message.waits
    split <;> simp_all
  have hother : ∀ c, c ≠ m.client → (s.send m m.waits).client c = s.client c := fun c hc =>
    Function.update_of_ne hc _ _
  have hself : (s.send m m.waits).client m.client = m.waits := Function.update_self ..
  have hnotin : m.client ∉ s.serverPipe.map Message.client := by
    intro hm
    obtain ⟨m', hm', he⟩ := List.mem_map.mp hm
    have := (h.token (.pipe hm')).1
    rw [he, hw] at this
    cases this
  exact
    { token := by
        refine h.move _ m.client .pipe (fun {y m' p} ht => ?_) hother fun _ _ _ _ he => he
        have hold : ∀ {y m' p}, Token s.serverPipe s.receiver s.box y m' p → m'.client ≠ m.client :=
          fun ht => h.other hw ht (by cases ht <;> simp)
        cases ht with
        | pipe hm =>
          rcases List.mem_append.mp hm with hm | hm
          · exact Or.inl ⟨hold (.pipe hm), .pipe hm⟩
          · rw [List.mem_singleton.mp hm]
            refine Or.inr ⟨rfl, rfl, hself, fun e he => ?_⟩
            simp only [Message.entry] at he
            split at he
            · cases he
            · rename_i hne
              cases he
              exact hentry hne
        | refusing hr => exact Or.inl ⟨hold (.refusing hr), .refusing hr⟩
        | copying hr => exact Or.inl ⟨hold (.copying hr), .copying hr⟩
        | box hr hi => exact Or.inl ⟨hold (.box hr hi), .box hr hi⟩
        | worker hr hp => exact Or.inl ⟨hold (.worker hr hp), .worker hr hp⟩
      nodup := by
        simp only [Server.send, List.map_append, List.map_cons, List.map_nil]
        refine List.nodup_append.mpr ⟨h.nodup, List.pairwise_singleton .., fun c hc c' hc' => ?_⟩
        rw [List.mem_singleton.mp hc']
        exact fun he => hnotin (he ▸ hc)
      box := h.box
      quiet := h.quiet
      reply := by
        intro c
        by_cases hc : c = m.client
        · subst hc
          exact Or.inl (h.no_reply (by simp [hw]))
        · rw [hother c hc, Function.update_of_ne hc]
          exact h.reply c
      outside := by
        intro c hc
        by_cases he : c = m.client
        · subst he
          rw [hself] at hc
          exact absurd hc hwaits.1
        · rw [hother c he] at hc
          rw [Function.update_of_ne he]
          exact h.outside c hc
      ready := by
        intro c id left hc
        by_cases he : c = m.client
        · subst he
          rw [hself] at hc
          exact absurd hc (hwaits.2.1 id left)
        · rw [hother c he] at hc
          rw [Function.update_of_ne he]
          exact h.ready c id left hc
      held := by
        intro c id left hc
        by_cases he : c = m.client
        · subst he
          rw [hself] at hc
          obtain ⟨hleft, hid, hop⟩ := hwaits.2.2 id left (hc.resolve_left (hwaits.2.1 id left))
          exact ⟨hleft, hid ▸ hentry hop⟩
        · rw [hother c he] at hc
          exact h.held c id left hc }

/-- What a client holds after it has read a reply that fits. -/
theorem afterReply_ready {clientsFHandle : Nat → FHandle} {c : Nat} {out : Int} {p : Client}
    (hfits : ReplyFits clientsFHandle c out p)
    (hheld : ∀ id left, p = .calling id left → left = false ∧ clientsFHandle id = .mounted c)
    {id : Nat} {left : Bool} (he : p.afterReply out = .ready id left) :
    left = false ∧ clientsFHandle id = .mounted c := by
  cases p with
  | outside => cases he
  | mounting =>
    simp only [Client.afterReply] at he
    split at he
    · cases he
    · cases he
      exact ⟨rfl, (hfits.resolve_left (by assumption)).2⟩
  | ready id' left' => exact hfits.elim
  | calling id' left' =>
    cases he
    exact hheld id left rfl
  | unmounting id' =>
    have hout : out = 0 := hfits
    simp [Client.afterReply, hout] at he

theorem afterReply_not_calling {clientsFHandle : Nat → FHandle} {c : Nat} {out : Int} {p : Client}
    (hfits : ReplyFits clientsFHandle c out p) (id : Nat) (left : Bool) :
    p.afterReply out ≠ .calling id left := by
  cases p with
  | outside => nofun
  | mounting => simp only [Client.afterReply]; split <;> nofun
  | ready id' left' => exact hfits.elim
  | calling id' left' => nofun
  | unmounting id' => simp only [Client.afterReply]; split <;> nofun

/-- A client reads the reply to its call. -/
theorem Server.Inv.readReply {s : Server} {w : Nat → Spot} (h : s.Inv w) {c : Nat} {out : Int}
    {rest : List Int} (hp : s.clientPipe c = out :: rest) :
    ((s.setPipe c rest).setClient c ((s.client c).afterReply out)).Inv
      (Function.update w c .nowhere) := by
  obtain ⟨hw, out', hout, hfits⟩ := (h.reply c).resolve_left (by simp [hp])
  rw [hp] at hout
  cases hout
  have hother : ∀ c', c' ≠ c →
      ((s.setPipe c []).setClient c ((s.client c).afterReply out)).client c' = s.client c' :=
    fun c' hc => Function.update_of_ne hc _ _
  have hself : ((s.setPipe c []).setClient c ((s.client c).afterReply out)).client c =
      (s.client c).afterReply out := Function.update_self ..
  exact
    { token := by
        refine h.move ((s.setPipe c []).setClient c _) c .nowhere
          (fun {y m' p} ht => Or.inl ⟨h.other hw ht (by cases ht <;> simp), ht⟩) hother
          fun _ _ _ _ he => he
      nodup := h.nodup
      box := h.box
      quiet := h.quiet
      reply := by
        intro c'
        by_cases hc : c' = c
        · subst hc
          exact Or.inl (Function.update_self ..)
        · have hpipe : ((s.setPipe c []).setClient c ((s.client c).afterReply out)).clientPipe c' =
              s.clientPipe c' := Function.update_of_ne hc _ _
          rw [hpipe, hother c' hc, Function.update_of_ne hc]
          exact h.reply c'
      outside := by
        intro c' hc
        by_cases he : c' = c
        · subst he
          exact Function.update_self ..
        · rw [hother c' he] at hc
          rw [Function.update_of_ne he]
          exact h.outside c' hc
      ready := by
        intro c' id left hc
        by_cases he : c' = c
        · subst he
          exact Function.update_self ..
        · rw [hother c' he] at hc
          rw [Function.update_of_ne he]
          exact h.ready c' id left hc
      held := by
        intro c' id left hc
        by_cases he : c' = c
        · subst he
          rw [hself] at hc
          exact afterReply_ready hfits (fun id left hc => h.held c' id left (Or.inr hc))
            (hc.resolve_right (afterReply_not_calling hfits id left))
        · rw [hother c' he] at hc
          exact h.held c' id left hc }

theorem Server.Inv.client_step {s s' : Server} {w : Nat → Spot} (h : s.Inv w) {a : ServerStep}
    (he : clientStep s a = some s') : ∃ w', s'.Inv w' := by
  cases clientStep_moves he with
  | @tfsMount c hc =>
    have hw := h.outside c hc
    have hsame : (s.setPipe c []).Inv w := by
      have hpipe : Function.update s.clientPipe c [] = s.clientPipe := by
        rw [← h.no_reply (c := c) (by simp [hw]), Function.update_eq_self]
      unfold Server.setPipe
      rw [hpipe]
      exact h
    exact ⟨_, hsame.send (m := ⟨.mount, 0, c⟩) hw fun hne => absurd rfl hne⟩
  | @tfsUnmount c id left hc =>
    exact ⟨_, h.send (m := ⟨.unmount, id, c⟩) (h.ready c id left hc)
      fun _ => (h.held c id left (Or.inl hc)).2⟩
  | @call c id left opCode hc hmount hunmount =>
    obtain ⟨hleft, hentry⟩ := h.held c id left (Or.inl hc)
    have hwaits : (Message.mk opCode id c).waits = .calling id left := by
      unfold Message.waits
      rw [hleft]
      cases opCode <;> simp_all
    rw [← hwaits]
    exact ⟨_, h.send (m := ⟨opCode, id, c⟩) (h.ready c id left hc) fun _ => hentry⟩
  | readReply hp _ _ => exact ⟨_, h.readReply hp⟩

end tecnicofs.parte2
