-- Exclusive sessions: two clients that are mounted have different sessions, and a
-- session becomes free only by the request of its own client.
import TecnicoFS.Parte2.ReceiverSteps
import TecnicoFS.Parte2.WorkerSteps

namespace tecnicofs.parte2

/-! ## What is wanted -/

/-- The client has got session `id` from `tfs_mount`, and has not called `tfs_unmount` since. -/
def HoldsSession (s : Server) (c id : Nat) : Prop :=
  s.client c = .ready id false ∨ s.client c = .calling id false

/-- Two clients hold different sessions, and a session that is reserved or mounted becomes free
only by a step of its worker in an unmount of the client that has mounted it. -/
structure SessionLaws (s : Server) : Prop where
  distinct : ∀ c c' id, HoldsSession s c id → HoldsSession s c' id → c = c'
  own_reset : ∀ a s' i, serverStep s a = some s' → s.clientsFHandle i ≠ .free →
    s'.clientsFHandle i = .free →
    ∃ h out, a = .runClientRequest i out ∧ (s.box i).worker = .running h ∧
      h.msg.opCode = .unmount ∧ s.clientsFHandle i = .mounted h.msg.client

theorem Server.Inv.distinct {s : Server} {w : Nat → Spot} (h : s.Inv w) {c c' id : Nat}
    (hc : HoldsSession s c id) (hc' : HoldsSession s c' id) : c = c' := by
  have h1 := (h.held c id false hc).2
  have h2 := (h.held c' id false hc').2
  rw [h1] at h2
  exact FHandle.mounted.inj h2

/-! ## Who frees a session -/

theorem clientStep_clientsFHandle {s s' : Server} {a : ServerStep}
    (he : clientStep s a = some s') : s'.clientsFHandle = s.clientsFHandle := by
  cases clientStep_moves he <;> rfl

theorem Server.reply_clientsFHandle {s s' : Server} {fclient : FHandle} {out : Int}
    (he : s.reply fclient out = some s') : s'.clientsFHandle = s.clientsFHandle := by
  unfold Server.reply at he
  split at he
  · split at he <;> cases he
    rfl
  · cases he

theorem Server.returns_clientsFHandle (s : Server) (i : Nat) (m : Message) :
    (s.returns i m).clientsFHandle = s.clientsFHandle := by
  unfold Server.returns
  split <;> rfl

/-- The receiver frees no session. -/
theorem receiverStep_clientsFHandle {s s' : Server} {a : ServerStep}
    (he : receiverStep s a = some s') {i : Nat} (hfree : s'.clientsFHandle i = .free) :
    s.clientsFHandle i = .free := by
  cases receiverStep_moves he with
  | @reserve _ _ j _ _ _ _ =>
    by_cases hij : i = j
    · subst hij
      simp [Server.setFHandle] at hfree
    · simpa [Server.setFHandle, Function.update_of_ne hij] using hfree
  | refuse _ hreply => exact Server.reply_clientsFHandle hreply ▸ hfree
  | full _ _ _ _ => exact hfree
  | request _ _ _ _ => exact hfree
  | refuseFailed _ _ => exact hfree
  | copy _ _ => exact hfree
  | signal _ => exact hfree

/-- A handler frees its own session, in the first `finishClientSession` of an unmount. -/
theorem Server.Inv.handle_frees {s s' : Server} {w : Nat → Spot} (h : s.Inv w) {i : Nat} {m : Message}
    {st : Stage} {out : Int} (hrun : (s.box i).worker = .running ⟨m, st⟩)
    (he : s.handle i m out st = some s') {j : Nat} (hheld : s.clientsFHandle j ≠ .free)
    (hfree : s'.clientsFHandle j = .free) :
    j = i ∧ m.opCode = .unmount ∧ s.clientsFHandle i = .mounted m.client := by
  obtain ⟨hid, _, _⟩ := (h.box i).worker _ hrun
  simp only at hid
  have hself : ∀ {e}, Function.update s.clientsFHandle m.sessionID e j = .free → j = i := by
    intro e hj
    by_contra hne
    rw [Function.update_of_ne (by rwa [hid])] at hj
    exact hheld hj
  cases h.handle_cases hrun he with
  | openClientSession =>
    obtain rfl := hself hfree
    rw [← hid] at hfree
    simp [Server.setFHandle, Server.setWorker, Server.setBox] at hfree
  | finishFirst hop =>
    have hfits := (h.token (.worker (p := .served) hrun rfl)).2
    have hentry := hfits.entry (.mounted m.client) (by simp [Message.entry, hop])
    exact ⟨hself hfree, hop, hid ▸ hentry⟩
  | finishAgain =>
    -- the first one has freed it
    rw [Server.returns_clientsFHandle] at hfree
    obtain rfl := hself hfree
    exact absurd ((h.box j).again m hrun) hheld
  | replyMount _ =>
    rw [Server.returns_clientsFHandle] at hfree
    exact absurd hfree hheld
  | replyCall _ _ =>
    rw [Server.returns_clientsFHandle] at hfree
    exact absurd hfree hheld
  | readUnmount _ => exact absurd hfree hheld
  | readCall _ _ => exact absurd hfree hheld
  | replyUnmount _ => exact absurd hfree hheld

/-- A session that is not free becomes free by the unmount of the client that has it. -/
theorem Server.Inv.own_reset {s s' : Server} {w : Nat → Spot} (h : s.Inv w) {a : ServerStep}
    (he : serverStep s a = some s') {i : Nat} (hheld : s.clientsFHandle i ≠ .free)
    (hfree : s'.clientsFHandle i = .free) :
    ∃ hh out, a = .runClientRequest i out ∧ (s.box i).worker = .running hh ∧
      hh.msg.opCode = .unmount ∧ s.clientsFHandle i = .mounted hh.msg.client := by
  have hclient : clientStep s a ≠ some s' := fun he => hheld (clientStep_clientsFHandle he ▸ hfree)
  have hreceiver : receiverStep s a ≠ some s' := fun he =>
    hheld (receiverStep_clientsFHandle he hfree)
  have hworker : workerStep s a = some s' :=
    ((serverStep_cases he).resolve_left hclient).resolve_left hreceiver
  cases a with
  | lock j =>
    obtain ⟨b, _, rfl⟩ := Option.map_eq_some_iff.mp hworker
    exact absurd hfree hheld
  | test j =>
    obtain ⟨b, _, rfl⟩ := Option.map_eq_some_iff.mp hworker
    exact absurd hfree hheld
  | readFromBufferPC j =>
    obtain ⟨b, _, rfl⟩ := Option.map_eq_some_iff.mp hworker
    exact absurd hfree hheld
  | runClientRequest j out =>
    simp only [workerStep] at hworker
    split at hworker
    · rename_i hh hrun
      obtain ⟨rfl, hop, hentry⟩ := h.handle_frees hrun hworker hheld hfree
      exact ⟨hh, out, rfl, hrun, hop, hentry⟩
    · cases hworker
  | _ => cases hworker

/-! ## The laws -/

/-- Every step but a hasty one keeps the invariant. -/
theorem Server.Inv.step {s s' : Server} {w : Nat → Spot} (h : s.Inv w) {a : ServerStep}
    (hok : ¬ Hasty s a) (he : serverStep s a = some s') : ∃ w', s'.Inv w' := by
  rcases serverStep_cases he with he | he | he
  · exact h.client_step he
  · exact h.receiver_step hok he
  · exact h.worker_step he

theorem Server.Inv.laws {s : Server} {w : Nat → Spot} (h : s.Inv w) : SessionLaws s :=
  ⟨fun _ _ _ => h.distinct, fun _ _ _ he hheld hfree => h.own_reset he hheld hfree⟩

/-- The sessions are exclusive in every run of the server and its clients that takes no hasty
step. -/
theorem sessions_are_exclusive (as : List ServerStep)
    (hm : steps.Meets serverStep (fun s a => ¬ Hasty s a) firstServer as) :
    steps.Always serverStep SessionLaws firstServer as := by
  have hinv : steps.Always serverStep (fun s => ∃ w, s.Inv w) firstServer as :=
    steps.always_of_meets (fun _ _ _ ⟨_, h⟩ hok he => h.step hok he) ⟨_, firstServer_inv⟩ hm
  exact hinv.mono fun _ ⟨_, h⟩ => h.laws

/-- Client 5 and client 6 mount, and get the sessions 0 and 1. -/
def twoMounts : List ServerStep :=
  [.lock 0, .test 0, .lock 1, .test 1, .tfsMount 5, .tfsMount 6,
    .receive, .writeToBufferPC, .signal, .lock 0, .readFromBufferPC 0,
    .runClientRequest 0 0, .runClientRequest 0 0, .test 0, .readReply 5,
    .receive, .writeToBufferPC, .signal, .lock 1, .readFromBufferPC 1,
    .runClientRequest 1 0, .runClientRequest 1 0, .test 1, .readReply 6]

/-- Client 5 unmounts session 0. -/
def oneUnmounts : List ServerStep :=
  [.tfsUnmount 5, .receive, .writeToBufferPC, .signal, .lock 0, .readFromBufferPC 0,
    .runClientRequest 0 0, .runClientRequest 0 0, .runClientRequest 0 0, .runClientRequest 0 0,
    .test 0, .readReply 5]

theorem two_clients_have_sessions_of_their_own :
    (steps.after serverStep firstServer twoMounts).map (fun s => (s.client 5, s.client 6)) =
        some (.ready 0 false, .ready 1 false) ∧
      (steps.after serverStep firstServer (twoMounts ++ oneUnmounts)).map
          (fun s => (s.client 5, s.client 6)) = some (.outside, .ready 1 false) ∧
      steps.Always serverStep SessionLaws firstServer (twoMounts ++ oneUnmounts) :=
  ⟨by decide +kernel, by decide +kernel, sessions_are_exclusive _ (by decide +kernel)⟩

/-- Client 0 unmounts session 0, client 1 gets it between the two calls of
`finishClientSession`, and the second call gives it to client 2 as well. -/
def handedOutTwice : List ServerStep :=
  [.lock 0, .test 0,
   .tfsMount 0, .receive, .writeToBufferPC, .signal, .lock 0, .readFromBufferPC 0,
   .runClientRequest 0 0, .runClientRequest 0 0, .test 0, .readReply 0,
   .tfsUnmount 0, .receive, .writeToBufferPC, .signal, .lock 0, .readFromBufferPC 0,
   .runClientRequest 0 0, .runClientRequest 0 0, .runClientRequest 0 0,
   .tfsMount 1, .receive, .runClientRequest 0 0, .test 0, .writeToBufferPC, .signal,
   .tfsMount 2, .receive, .lock 0, .readFromBufferPC 0, .runClientRequest 0 0,
   .runClientRequest 0 0, .test 0, .readReply 1,
   .writeToBufferPC, .signal, .lock 0, .readFromBufferPC 0, .runClientRequest 0 0,
   .runClientRequest 0 0, .readReply 2]

theorem a_session_is_handed_out_twice :
    ∃ s, steps.Reachable serverStep (firstServer = ·) s ∧ HoldsSession s 1 0 ∧
      HoldsSession s 2 0 ∧ ¬ SessionLaws s := by
  have hrun : (steps.after serverStep firstServer handedOutTwice).map
      (fun s => (s.client 1, s.client 2)) = some (.ready 0 false, .ready 0 false) := by
    decide +kernel
  obtain ⟨s, hs, hclients⟩ := Option.map_eq_some_iff.mp hrun
  obtain ⟨h1, h2⟩ := Prod.mk.inj hclients
  have hone : HoldsSession s 1 0 := Or.inl h1
  have htwo : HoldsSession s 2 0 := Or.inl h2
  refine ⟨s, (steps.Reachable.start rfl).after hs, hone, htwo, fun hlaws => ?_⟩
  exact absurd (hlaws.distinct 1 2 0 hone htwo) (by decide)

end tecnicofs.parte2
