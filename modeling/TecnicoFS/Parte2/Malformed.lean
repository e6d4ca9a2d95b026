-- Messages that no client of the API writes: an unknown operation code, or a session id
-- that is not mounted. The receiver checks neither. A message of this kind is harmless
-- only where it happens to change nothing.
import TecnicoFS.Parte2.Decoding
import TecnicoFS.Parte2.Operations
import TecnicoFS.Parte2.Server

open byte_memory

namespace tecnicofs.parte2

/-! ## A round of the receiver, on any bytes -/

/-- What a round of the receiver can touch, and the file system. -/
structure ByteServer where
  clientsFHandle : Nat → FHandle
  box : Nat → Mailbox Memory Memory
  fs : State
  vars : ReceiverVars
  pipe : List UInt8

/-- Where the receiver is after a part of its round. -/
inductive RoundEnd
  /-- At the read of the next message. -/
  | reading
  /-- At `writeToBufferPC`. -/
  | copying (sessionID : Int) (bytes : List UInt8)
  /-- Behind an access outside an array, or a `strcpy` that leaves its buffer. -/
  | undefined
  /-- In `exit`. -/
  | exited
  deriving DecidableEq

/-- The first part of a round: the reads, `getAvailableSession` for what is taken for a mount, and
`sendUserCountFullMessage`. `opens` says which pipes of clients can be opened and written. -/
def ByteServer.receive (s : ByteServer) (e : PipeEnd) (newBuffer : Memory)
    (opens : CString → Bool) : Option (RoundEnd × ByteServer) :=
  (readMessage e s.vars s.pipe).map fun r =>
    let s := { s with vars := r.2.1, pipe := r.2.2 }
    match r.1 with
    | .skipped => (.reading, s)
    | .exited => (.exited, s)
    | .opCode opCode =>
      match deliver opCode s.vars.bufferIn newBuffer (availableSession s.clientsFHandle) with
      | none => (.undefined, s)
      | some (.refuse client_pipe_name) => (if opens client_pipe_name then .reading else .exited, s)
      | some (.put sessionID bytes) =>
        (.copying sessionID bytes,
          if (getClientRequestInfo opCode s.vars.bufferIn).sessionID < 0 then
            { s with
              clientsFHandle := Function.update s.clientsFHandle sessionID.toNat .reserved }
          else s)

/-- The bytes of a session's buffer, which is zero before the first copy. -/
def infoOf (b : Mailbox Memory Memory) : Memory := b.info.getD fun _ => 0

/-- The second part of a round: `writeToBufferPC` and the signal. It waits for the mutex of the
session. -/
def ByteServer.copy (s : ByteServer) (sessionID : Int) (bytes : List UInt8) :
    Option (RoundEnd × ByteServer) :=
  if 0 ≤ sessionID ∧ sessionID < S then
    let i := sessionID.toNat
    ((s.box i).put (store (infoOf (s.box i)) 0 bytes)).map fun b =>
      (.reading, { s with box := Function.update s.box i b.signal })
  else some (.undefined, s)

/-! ## When a message does nothing -/

/-- The request that waits in the buffer of a session. -/
def pendingRequest (b : Mailbox Memory Memory) : Option (List UInt8) :=
  if b.readable then some (load (infoOf b) 0 MAX_THREAD_INPUT_SIZE) else none

/-- No slot and no pending request has changed, no worker was woken, and the file system is the
same. -/
structure Untouched (s s' : ByteServer) : Prop where
  clientsFHandle : s'.clientsFHandle = s.clientsFHandle
  pending : ∀ i, pendingRequest (s'.box i) = pendingRequest (s.box i)
  worker : ∀ i, (s'.box i).worker = (s.box i).worker
  fs : s'.fs = s.fs

/-- The operation codes 1 to 7. -/
def KnownCode (opCode : UInt8) : Prop := 1 ≤ opCode.toNat ∧ opCode.toNat ≤ 7

/-- The session id in a message. What is missing of it is what lay in the buffer of the
receiver. -/
def sessionIn (s : ByteServer) (body : List UInt8) : Int :=
  loadInt (store s.vars.bufferIn 1 body) 1

/-- A message whose operation code is unknown, or whose session id is not the one of a mounted
session. A message with a known code is as long as the code says. -/
def Malformed (s : ByteServer) (opCode : UInt8) (body : List UInt8) : Prop :=
  ¬ KnownCode opCode ∨
    KnownCode opCode ∧ opCode ≠ 1 ∧ body.length = getClientInfoMaxSize opCode 0 true ∧
      ¬ (0 ≤ sessionIn s body ∧ sessionIn s body < S ∧
        ∃ c, s.clientsFHandle (sessionIn s body).toNat = .mounted c)

/-- The receiver takes the next well-formed message, and has all its bytes. -/
def ReadsNext (v : ReceiverVars) (pipe : List UInt8) : Prop :=
  ∀ e buffer session_id c rest, pipe = Call.message buffer session_id c ++ rest →
    ∃ v', readMessage e v pipe = some (.opCode c.opCode.code, v', rest) ∧
      SameBelow c.opCode.messageSize v'.bufferIn (c.fill buffer session_id)

/-- The message does nothing: the receiver takes just its bytes, and neither part of the round
changes anything. `t` is the state at the copy: the workers may have changed it since the read. -/
def Ignored (s t : ByteServer) (e : PipeEnd) (newBuffer : Memory) (opens : CString → Bool)
    (rest : List UInt8) : Prop :=
  ∃ p s', s.receive e newBuffer opens = some (p, s') ∧ s'.pipe = rest ∧ ReadsNext s'.vars s'.pipe ∧
    Untouched s s' ∧ (p = .reading ∨ ∃ sessionID bytes, p = .copying sessionID bytes ∧
      ∃ t', t.copy sessionID bytes = some (.reading, t') ∧ Untouched t t')

/-- The message happens to change nothing. Either the second read gives no bytes, because no known
code was read before or because nothing is behind the code and every client has closed the pipe:
then a message of one byte is skipped, if the pipe can be opened again. Or the reads take just this
message, and either its session id is below zero, no session is free and the file that the bytes
behind the code name can be opened, or the buffer of its session holds a request that was not taken
yet and starts with the bytes that are copied. -/
def Harmless (s t : ByteServer) (e : PipeEnd) (opens : CString → Bool) (opCode : UInt8)
    (body rest : List UInt8) : Prop :=
  let n := getClientInfoMaxSize opCode s.vars.bytesToRead true
  if n = 0 ∨ (body ++ rest = [] ∧ e.closed = true) then body = [] ∧ e.reopens = true
  else
    body ≠ [] ∧ (body.length = n ∨ body.length < n ∧ rest = []) ∧
      if sessionIn s body < 0 then
        availableSession s.clientsFHandle = none ∧
          ∃ p, strAt (store s.vars.bufferIn 1 body) 1 40 = some p ∧ opens p = true
      else
        sessionIn s body < S ∧
          let b := t.box (sessionIn s body).toNat
          let bytes := (opCode :: body).take (getClientInfoMaxSize opCode 0 false)
          b.readable = true ∧ b.worker ≠ .waiting ∧ load (infoOf b) 0 bytes.length = bytes

/-! ## The two parts of the round -/

theorem readsNext (v : ReceiverVars) (pipe : List UInt8) : ReadsNext v pipe := by
  rintro e buffer session_id c rest rfl
  exact readMessage_message e v buffer session_id c rest

theorem knownCode_iff {opCode : UInt8} : KnownCode opCode ↔ ∃ o : OpCode, o.code = opCode := by
  constructor
  · rintro ⟨hlo, hhi⟩
    have hcases : opCode.toNat = 1 ∨ opCode.toNat = 2 ∨ opCode.toNat = 3 ∨ opCode.toNat = 4 ∨
        opCode.toNat = 5 ∨ opCode.toNat = 6 ∨ opCode.toNat = 7 := by omega
    have hcode : opCode = UInt8.ofNat opCode.toNat := (UInt8.ofNat_toNat).symm
    rcases hcases with h | h | h | h | h | h | h <;> rw [h] at hcode <;> rw [hcode]
    · exact ⟨.mount, rfl⟩
    · exact ⟨.unmount, rfl⟩
    · exact ⟨.open, rfl⟩
    · exact ⟨.close, rfl⟩
    · exact ⟨.write, rfl⟩
    · exact ⟨.read, rfl⟩
    · exact ⟨.shutdown, rfl⟩
  · rintro ⟨o, rfl⟩
    cases o <;> exact ⟨by decide, by decide⟩

/-- An unknown code leaves the size as it was. -/
theorem getClientInfoMaxSize_unknown {opCode : UInt8} (h : ¬ KnownCode opCode) (len : Nat)
    (mode : Bool) : getClientInfoMaxSize opCode len mode = len := by
  unfold KnownCode at h
  unfold getClientInfoMaxSize
  split <;> omega

theorem untouched_refl (s : ByteServer) (v : ReceiverVars) (pipe : List UInt8) :
    Untouched s { s with vars := v, pipe := pipe } :=
  ⟨rfl, fun _ => rfl, fun _ => rfl, rfl⟩

theorem load_store_prefix (m : Memory) {bytes : List UInt8} {n : Nat} (hn : bytes.length ≤ n) :
    load (store m 0 bytes) 0 n = load m 0 n ↔ load m 0 bytes.length = bytes := by
  obtain ⟨k, rfl⟩ : ∃ k, n = bytes.length + k := ⟨n - bytes.length, by omega⟩
  have hrest : load (store m 0 bytes) (0 + bytes.length) k = load m (0 + bytes.length) k :=
    load_store_disjoint m 0 _ k bytes (Or.inr le_rfl)
  rw [load_append, load_append, load_store_same, hrest, List.append_cancel_right_eq]
  exact eq_comm

/-- A buffer after the copy. -/
def written (b : Mailbox Memory Memory) (bytes : List UInt8) : Mailbox Memory Memory :=
  { b with readable := true, info := some (store (infoOf b) 0 bytes) }

/-- A buffer after the copy and the signal is as it was exactly if it held these bytes in a request
that was not taken yet, and no worker waits. -/
theorem put_signal_iff (b : Mailbox Memory Memory) {bytes : List UInt8}
    (hlen : bytes.length ≤ MAX_THREAD_INPUT_SIZE) :
    (pendingRequest (written b bytes).signal = pendingRequest b ∧
        (written b bytes).signal.worker = b.worker) ↔
      b.readable = true ∧ b.worker ≠ .waiting ∧ load (infoOf b) 0 bytes.length = bytes := by
  have hpending : pendingRequest (written b bytes) =
      some (load (store (infoOf b) 0 bytes) 0 MAX_THREAD_INPUT_SIZE) := rfl
  rcases Mailbox.signal_cases (written b bytes) with ⟨hw, he⟩ | ⟨hw, he⟩ <;> rw [he]
  · -- the worker was woken
    have hb : b.worker = .waiting := hw
    simp [hb]
  · have hb : b.worker ≠ .waiting := hw
    rw [hpending]
    unfold pendingRequest
    cases b.readable with
    | false => simp
    | true => simpa [hb, written] using load_store_prefix (infoOf b) hlen

theorem copy_untouched_iff {t : ByteServer} {sessionID : Int} {bytes : List UInt8}
    (h0 : 0 ≤ sessionID) (hfree : sessionID < S → (t.box sessionID.toNat).mutexFree = true)
    (hlen : bytes.length ≤ MAX_THREAD_INPUT_SIZE) :
    (∃ t', t.copy sessionID bytes = some (.reading, t') ∧ Untouched t t') ↔
      sessionID < S ∧ (t.box sessionID.toNat).readable = true ∧
        (t.box sessionID.toNat).worker ≠ .waiting ∧
        load (infoOf (t.box sessionID.toNat)) 0 bytes.length = bytes := by
  unfold ByteServer.copy
  by_cases hS : sessionID < S
  · have hiff := put_signal_iff (t.box sessionID.toNat) hlen
    have hput : (t.box sessionID.toNat).put (store (infoOf (t.box sessionID.toNat)) 0 bytes) =
        some (written (t.box sessionID.toNat) bytes) := if_pos (hfree hS)
    simp only [h0, hS, and_self, if_true, true_and, hput, Option.map_some]
    rw [← hiff]
    constructor
    · rintro ⟨t', ht, hsame⟩
      obtain rfl := congrArg Prod.snd (Option.some.inj ht)
      have hpending := hsame.pending sessionID.toNat
      have hworker := hsame.worker sessionID.toNat
      simp only [Function.update_self] at hpending hworker
      exact ⟨hpending, hworker⟩
    · rintro ⟨hpending, hworker⟩
      refine ⟨_, rfl, rfl, fun i => ?_, fun i => ?_, rfl⟩ <;> by_cases hi : i = sessionID.toNat
      · subst hi
        simp only [Function.update_self]
        exact hpending
      · simp only [Function.update_of_ne hi]
      · subst hi
        simp only [Function.update_self]
        exact hworker
      · simp only [Function.update_of_ne hi]
  · simp only [hS, and_false, if_false, false_and, iff_false]
    rintro ⟨t', ht, _⟩
    cases ht

/-! ## The law -/

section
variable {s t : ByteServer} {e : PipeEnd} {opCode : UInt8} {body rest : List UInt8}
  {newBuffer : Memory} {opens : CString → Bool} {n : Nat}
  (hpipe : s.pipe = opCode :: (body ++ rest))
  (hn : getClientInfoMaxSize opCode s.vars.bytesToRead true = n)
include hpipe hn

/-- A code behind which the receiver reads nothing is skipped. -/
theorem ignored_skipped (hend : n = 0 ∨ (body ++ rest = [] ∧ e.closed = true)) :
    Ignored s t e newBuffer opens rest ↔ body = [] ∧ e.reopens = true := by
  have hreceive : s.receive e newBuffer opens =
      some (if e.reopens then .reading else .exited,
        { s with vars := { s.vars with bytesToRead := n }, pipe := body ++ rest }) := by
    unfold ByteServer.receive
    rw [hpipe, readMessage_cons, hn, readFromPipe_end e hend]
    cases e.reopens <;> rfl
  constructor
  · rintro ⟨p, s', he, hrest, _, _, hp⟩
    rw [hreceive] at he
    obtain ⟨rfl, rfl⟩ := Prod.mk.inj (Option.some.inj he)
    refine ⟨by simpa using hrest, ?_⟩
    -- the process has ended if the pipe was not opened again
    by_contra hclosed
    simp [hclosed] at hp
  · rintro ⟨rfl, hopen⟩
    refine ⟨_, _, hreceive, rfl, readsNext _ _, untouched_refl s _ _, Or.inl ?_⟩
    rw [if_pos hopen]

theorem receive_read (hpos : n ≠ 0) (hne : body ++ rest ≠ []) :
    readMessage e s.vars s.pipe = some (.opCode opCode,
      ⟨n, store (store s.vars.bufferIn 1 ((body ++ rest).take n)) 0 [opCode]⟩,
      (body ++ rest).drop n) := by
  rw [hpipe, readMessage_cons, hn, readFromPipe_bytes e hpos hne]
  rfl

end

theorem receive_pipe {s s' : ByteServer} {e : PipeEnd} {newBuffer : Memory}
    {opens : CString → Bool} {p : RoundEnd} {r : Read × ReceiverVars × List UInt8}
    (hread : readMessage e s.vars s.pipe = some r)
    (he : s.receive e newBuffer opens = some (p, s')) : s'.pipe = r.2.2 := by
  obtain ⟨read, v, pipe⟩ := r
  unfold ByteServer.receive at he
  rw [hread, Option.map_some, Option.some.injEq] at he
  obtain rfl := congrArg Prod.snd he
  cases read with
  | skipped => rfl
  | exited => rfl
  | opCode opCode =>
    simp only
    split
    · rfl
    · rfl
    · simp only
      split <;> rfl

/-- The reads leave just what comes behind the message if it is as long as the receiver expects, or
shorter and the last one in the pipe. -/
theorem drop_eq_rest_iff {α : Type*} {body rest : List α} {n : Nat} :
    (body ++ rest).drop n = rest ↔ body.length = n ∨ body.length < n ∧ rest = [] := by
  constructor
  · intro h
    have hlen := congrArg List.length h
    rw [List.length_drop, List.length_append] at hlen
    by_cases hrest : rest = []
    · subst hrest
      simp only [List.length_nil] at hlen
      rcases Nat.lt_or_ge body.length n with hlt | hge
      · exact Or.inr ⟨hlt, rfl⟩
      · exact Or.inl (by omega)
    · have := List.length_pos_iff.mpr hrest
      omega
  · rintro (rfl | ⟨hlt, rfl⟩)
    · exact List.drop_left
    · rw [List.append_nil]
      exact List.drop_of_length_le hlt.le

theorem take_eq_body {α : Type*} {body rest : List α} {n : Nat}
    (h : body.length = n ∨ body.length < n ∧ rest = []) : (body ++ rest).take n = body := by
  rcases h with rfl | ⟨hlt, rfl⟩
  · exact List.take_left
  · rw [List.append_nil]
    exact List.take_of_length_le hlt.le

/-- What the receiver copies to the session of a message. -/
theorem load_copied (m : Memory) {opCode : UInt8} {body : List UInt8} {k : Nat}
    (hk : k = 0 ∨ k = body.length + 1) :
    load (store (store m 1 body) 0 [opCode]) 0 k = (opCode :: body).take k := by
  rcases hk with rfl | rfl
  · rfl
  · have hbody : load (store (store m 1 body) 0 [opCode]) 1 body.length = body := by
      rw [load_store_disjoint _ 0 1 _ _ (Or.inr le_rfl)]
      exact load_store_same m 1 body
    have hop : load (store (store m 1 body) 0 [opCode]) 0 1 = [opCode] := by
      simp [load, store_singleton]
    rw [Nat.add_comm, load_append, Nat.zero_add, hbody, hop, Nat.add_comm,
      List.take_of_length_le (by simp)]
    rfl

section
variable {s t : ByteServer} {opCode : UInt8} {body : List UInt8}

theorem Malformed.not_mount (hm : Malformed s opCode body) : opCode ≠ 1 := by
  rintro rfl
  rcases hm with hno | ⟨_, hne, _⟩
  · exact hno ⟨by decide, by decide⟩
  · exact hne rfl

/-- The size of the copy of a message that was read. -/
theorem Malformed.copySize (hm : Malformed s opCode body) :
    getClientInfoMaxSize opCode 0 false = 0 ∨
      getClientInfoMaxSize opCode 0 false = body.length + 1 ∧ body.length + 1 ≤ 1041 := by
  rcases hm with hno | ⟨hknown, hne, hlen, _⟩
  · exact Or.inl (getClientInfoMaxSize_unknown hno 0 false)
  · obtain ⟨o, rfl⟩ := knownCode_iff.mp hknown
    have ho : o ≠ .mount := fun h => hne (congrArg OpCode.code h)
    have hsize := messageSize_le o
    rw [getClientInfoMaxSize_read] at hlen
    rw [getClientInfoMaxSize_copy ho]
    omega

variable {rest : List UInt8} {e : PipeEnd} {newBuffer : Memory} {opens : CString → Bool}

section
variable (hm : Malformed s opCode body) {n : Nat}
  (hread : readMessage e s.vars s.pipe = some (.opCode opCode,
    ⟨n, store (store s.vars.bufferIn 1 body) 0 [opCode]⟩, rest))
include hm hread

/-- A session id below zero is taken for a mount. -/
theorem ignored_as_mount (hneg : sessionIn s body < 0) :
    Ignored s t e newBuffer opens rest ↔ availableSession s.clientsFHandle = none ∧
      ∃ p, strAt (store s.vars.bufferIn 1 body) 1 40 = some p ∧ opens p = true := by
  have hsess : loadInt (store (store s.vars.bufferIn 1 body) 0 [opCode]) 1 = sessionIn s body :=
    loadInt_store_outside _ 0 1 _ (Or.inr le_rfl)
  have hstr : strAt (store (store s.vars.bufferIn 1 body) 0 [opCode]) 1 40 =
      strAt (store s.vars.bufferIn 1 body) 1 40 :=
    strAt_congr (load_store_disjoint _ 0 1 40 _ (Or.inr le_rfl))
  unfold Ignored ByteServer.receive deliver getClientRequestInfo
  simp only [hread, Option.map_some, if_neg hm.not_mount, hsess, hstr, hneg, if_true]
  cases strAt (store s.vars.bufferIn 1 body) 1 40 with
  | none =>
    -- the string leaves the buffer
    simp
  | some name =>
    cases havail : availableSession s.clientsFHandle with
    | none =>
      constructor
      · rintro ⟨p, s', he, _, _, _, hp⟩
        refine ⟨rfl, name, rfl, ?_⟩
        obtain rfl := congrArg Prod.fst (Option.some.inj he)
        by_contra hno
        rcases hp with hp | ⟨sessionID, bytes, hp, _⟩ <;> simp [hno] at hp
      · rintro ⟨_, name', hname, hopens⟩
        cases hname
        refine ⟨_, _, rfl, rfl, readsNext _ _, untouched_refl s _ _, Or.inl ?_⟩
        simp [hopens]
    | some i =>
      -- the session is reserved
      refine iff_of_false ?_ (by simp)
      rintro ⟨p, s', he, _, _, hsame, _⟩
      obtain rfl := congrArg Prod.snd (Option.some.inj he)
      have hslot := congrFun hsame.clientsFHandle i
      have hfree : s.clientsFHandle i = .free := by simpa using List.find?_some havail
      have hset : Function.update s.clientsFHandle (i : Int).toNat .reserved i = .reserved := by
        rw [Int.toNat_natCast, Function.update_self]
      exact absurd (hset.symm.trans (hslot.trans hfree)) (by decide)

/-- Any other message goes to the buffer that its session id names. -/
theorem ignored_as_request (hpos : 0 ≤ sessionIn s body)
    (hfree : sessionIn s body < S → (t.box (sessionIn s body).toNat).mutexFree = true) :
    Ignored s t e newBuffer opens rest ↔
      sessionIn s body < S ∧
        let b := t.box (sessionIn s body).toNat
        let bytes := (opCode :: body).take (getClientInfoMaxSize opCode 0 false)
        b.readable = true ∧ b.worker ≠ .waiting ∧ load (infoOf b) 0 bytes.length = bytes := by
  have hsess : loadInt (store (store s.vars.bufferIn 1 body) 0 [opCode]) 1 = sessionIn s body :=
    loadInt_store_outside _ 0 1 _ (Or.inr le_rfl)
  have hcopy := @load_copied s.vars.bufferIn opCode body _ (hm.copySize.imp id And.left)
  have hneg : ¬ sessionIn s body < 0 := by omega
  have hlen : ((opCode :: body).take (getClientInfoMaxSize opCode 0 false)).length ≤
      MAX_THREAD_INPUT_SIZE := by
    have hmin := List.length_take_le (getClientInfoMaxSize opCode 0 false) (opCode :: body)
    unfold MAX_THREAD_INPUT_SIZE
    rcases hm.copySize with h0 | ⟨hsize, hle⟩ <;> omega
  have hreceive : s.receive e newBuffer opens = some
      (.copying (sessionIn s body) ((opCode :: body).take (getClientInfoMaxSize opCode 0 false)),
        { s with vars := ⟨n, store (store s.vars.bufferIn 1 body) 0 [opCode]⟩, pipe := rest }) := by
    unfold ByteServer.receive deliver getClientRequestInfo
    simp only [hread, Option.map_some, if_neg hm.not_mount, hsess, hneg, if_false, nullClientInfo,
      hcopy]
  simp only
  rw [← copy_untouched_iff hpos hfree hlen]
  constructor
  · rintro ⟨p, s', he, _, _, _, hp⟩
    rw [hreceive] at he
    obtain rfl := congrArg Prod.fst (Option.some.inj he)
    rcases hp with hp | ⟨sessionID, bytes, hp, hcopied⟩ <;> cases hp
    exact hcopied
  · intro hcopied
    exact ⟨_, _, hreceive, rfl, readsNext _ _, untouched_refl s _ _, Or.inr ⟨_, _, rfl, hcopied⟩⟩

end

/-- A malformed message at the head of the pipe does nothing exactly if it is harmless. The copy
comes when the mutex of the session is free. -/
theorem a_malformed_message_is_ignored_only_where_harmless (hm : Malformed s opCode body)
    (hpipe : s.pipe = opCode :: (body ++ rest))
    (hfree : ∀ i : Nat, sessionIn s body = i → (t.box i).mutexFree = true) :
    Ignored s t e newBuffer opens rest ↔ Harmless s t e opens opCode body rest := by
  unfold Harmless
  by_cases hend : getClientInfoMaxSize opCode s.vars.bytesToRead true = 0 ∨
      (body ++ rest = [] ∧ e.closed = true)
  · simp only [hend, if_true]
    exact ignored_skipped hpipe rfl hend
  simp only [hend, if_false]
  have hn := (not_or.mp hend).1
  by_cases hne : body ++ rest = []
  · -- the receiver waits for the bytes of the next message
    refine iff_of_false ?_ (fun h => h.1 (List.append_eq_nil_iff.mp hne).1)
    rintro ⟨p, s', he, _⟩
    have hwait : readFromPipe e (getClientInfoMaxSize opCode s.vars.bytesToRead true)
        (body ++ rest) = none := by
      unfold readFromPipe
      rw [if_neg hend, if_pos hne]
    unfold ByteServer.receive at he
    rw [hpipe, readMessage_cons, hwait] at he
    cases he
  have hread := receive_read (e := e) hpipe rfl hn hne
  by_cases hall : body.length = getClientInfoMaxSize opCode s.vars.bytesToRead true ∨
      body.length < getClientInfoMaxSize opCode s.vars.bytesToRead true ∧ rest = []
  · rw [take_eq_body hall, drop_eq_rest_iff.mpr hall] at hread
    have hbody : body ≠ [] := by
      rintro rfl
      rcases hall with hlen | ⟨_, rfl⟩
      · exact hn hlen.symm
      · exact hne rfl
    simp only [hbody, hall, ne_eq, not_false_eq_true, true_and]
    split
    · rename_i hneg
      exact ignored_as_mount hm hread hneg
    · rename_i hneg
      obtain ⟨i, hi⟩ := Int.eq_ofNat_of_zero_le (Int.not_lt.mp hneg)
      apply ignored_as_request hm hread (Int.not_lt.mp hneg)
      intro _
      rw [hi, Int.toNat_natCast]
      exact hfree i hi
  · refine iff_of_false ?_ (fun h => hall h.2.1)
    rintro ⟨p, s', he, hrest, _⟩
    exact hall (drop_eq_rest_iff.mp ((receive_pipe hread he).symm.trans hrest))

end

/-- The server when it starts, with these bytes on its pipe. -/
def startedWith (pipe : List UInt8) : ByteServer :=
  ⟨fun _ => .free, fun _ => .first, (tfsInit zeroed).2, ⟨0, fun _ => 0⟩, pipe⟩

/-- Clients still have the pipe open, and it can be opened again. -/
def writersLeft : PipeEnd := ⟨false, true⟩

/-- It is skipped as well behind a mount, once no client has the pipe open. -/
theorem an_unknown_code_is_skipped :
    Ignored (startedWith [9]) (startedWith []) writersLeft (fun _ => 0) (fun _ => false) [] ∧
      Ignored { startedWith [9] with vars := ⟨40, fun _ => 0⟩ } (startedWith []) ⟨true, true⟩
        (fun _ => 0) (fun _ => false) [] := by
  have hm : Malformed (startedWith [9]) 9 [] := Or.inl fun h => absurd h.2 (by decide)
  have hm' : Malformed { startedWith [9] with vars := ⟨40, fun _ => 0⟩ } 9 [] :=
    Or.inl fun h => absurd h.2 (by decide)
  exact ⟨(a_malformed_message_is_ignored_only_where_harmless hm rfl fun _ _ => rfl).mpr ⟨rfl, rfl⟩,
    (a_malformed_message_is_ignored_only_where_harmless hm' rfl fun _ _ => rfl).mpr ⟨rfl, rfl⟩⟩

/-- The session of the message was never mounted, and yet its shutdown is run. -/
theorem a_shutdown_without_a_session_is_run :
    Malformed (startedWith [7, 0, 0, 0, 0]) 7 [0, 0, 0, 0] ∧
      ¬ Ignored (startedWith [7, 0, 0, 0, 0]) (startedWith []) writersLeft (fun _ => 0)
        (fun _ => false) [] ∧
      ∃ s t bytes, (startedWith [7, 0, 0, 0, 0]).receive writersLeft (fun _ => 0)
          (fun _ => false) =
          some (.copying 0 bytes, s) ∧
        s.copy 0 bytes = some (.reading, t) ∧
        runClientRequest (readFromBufferPC (fun _ => 0) (infoOf (t.box 0))) =
          some (0, .tfsShutdownAfterAllClosed) := by
  have hm : Malformed (startedWith [7, 0, 0, 0, 0]) 7 [0, 0, 0, 0] := by
    refine Or.inr ⟨⟨by decide, by decide⟩, by decide, rfl, ?_⟩
    rintro ⟨_, _, c, hc⟩
    cases hc
  refine ⟨hm, ?_, _, _, _, rfl, rfl, by decide +kernel⟩
  intro h
  have hreadable := ((ignored_as_request hm rfl (by decide) fun _ => rfl).mp h).2.1
  cases hreadable

end tecnicofs.parte2
