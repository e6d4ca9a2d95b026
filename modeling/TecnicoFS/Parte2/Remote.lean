-- A write and a read of a client, from its buffer to the file system of the server and back,
-- beside the same calls on the server itself. The buffers of the messages are as large as the
-- largest message, so a longer write leaves them.
import TecnicoFS.Parte2.Decoding
import TecnicoFS.Parte2.Handles
import TecnicoFS.Parte2.Server

open byte_memory

namespace tecnicofs.parte2

/-- What a pipe takes in one piece. -/
abbrev PIPE_BUF : Nat := 4096

/-- The session of a client that is alone, what lies in the buffers on the way, and the pipe of the
client. Of a reply of `n` bytes, its one read gets the first `arrived n`. -/
structure Connection where
  session_id : Int
  wBuffer : Memory
  pipeEnd : PipeEnd
  vars : ReceiverVars
  newBuffer : Memory
  info : Memory
  buffer : Memory
  bufferOut : Memory
  rBuffer : Memory
  arrived : Nat → Nat
  mounted : 0 ≤ session_id ∧ session_id < S
  whole : ∀ n ≤ PIPE_BUF, n ≤ arrived n

/-- How a call ends: outside of a buffer, undefined in the file system, or with its return value,
the bytes for the caller, the state of the server, and what stays in the pipe of the client. -/
inductive CallEnd
  | outside
  | undefined
  | returns (ret : Int) (bytes : List UInt8) (state : State) (left : List UInt8)

/-- The call on the server itself. -/
def localEnd : Option (Answer × State) → CallEnd
  | none => .undefined
  | some (r, s) => .returns r.ret r.bytes s []

section
variable (e : Connection)

/-- The message of a request, through the pipe of the server and the buffer of the session, to the
handler. -/
def Connection.request (c : Call) : Option (Int × Call) :=
  match readMessage e.pipeEnd e.vars (c.message e.wBuffer e.session_id) with
  | some (.opCode opCode, v, []) =>
    match deliver opCode v.bufferIn e.newBuffer none with
    | some (.put _ bytes) => runClientRequest (readFromBufferPC e.buffer (store e.info 0 bytes))
    | _ => none
  | _ => none

/-- `tfs_write` of the client, and `handle_tfs_write`. -/
def Connection.tfsWrite (s : State) (fhandle : Int) (bytes : List UInt8) : CallEnd :=
  -- the copy to `wBuffer`, which has 1041 bytes
  if 1041 < 1 + 2 * 4 + 8 + bytes.length then .outside
  else
    match e.request (.tfsWrite fhandle bytes) with
    | some (_, .tfsWrite fhandle toWrite) =>
      match parte2.tfsWrite s fhandle toWrite with
      | none => .undefined
      | some (r, s) =>
        let reply := load (storeInt e.bufferOut 0 r.ret) 0 4
        let serverAnswer := loadInt (store e.rBuffer 0 (reply.take (e.arrived 4))) 0
        .returns serverAnswer [] s (reply.drop (e.arrived 4))
    | _ => .outside

/-- `tfs_read` of the client, and `handle_tfs_read`. Both buffers for the reply have `len + 4`
bytes, a sum that wraps. -/
def Connection.tfsRead (s : State) (fhandle : Int) (len : Nat) : CallEnd :=
  let readBytesFromServer := sizeT ((len : Int) + 4)
  match e.request (.tfsRead fhandle len) with
  | some (_, .tfsRead fhandle len) =>
    let numberOfBytes := sizeT ((len : Int) + 4)
    match parte2.tfsRead s fhandle len with
    | none => .undefined
    | some (r, s) =>
      if numberOfBytes < 4 + r.bytes.length then .outside
      else
        let reply := load (storeInt (store e.bufferOut 4 r.bytes) 0 r.ret) 0 numberOfBytes
        let n := min (e.arrived numberOfBytes) readBytesFromServer
        let rBuffer := store e.rBuffer 0 (reply.take n)
        let serverAnswer := loadInt rBuffer 0
        if serverAnswer ≤ 0 then .returns serverAnswer [] s (reply.drop n)
        else if readBytesFromServer < 4 + serverAnswer.toNat then .outside
        else .returns serverAnswer (load rBuffer 4 serverAnswer.toNat) s (reply.drop n)
  | _ => .outside

end

/-! ## The way to the handler -/

theorem Connection.request_eq (e : Connection) {c : Call} (hfits : c.Fits)
    (hc : c.opCode ≠ .mount) : e.request c = some (e.session_id, c) := by
  have hint : FitsInt e.session_id := by
    have := e.mounted
    unfold FitsInt S at *
    omega
  obtain ⟨v, hread, hm⟩ := readMessage_message e.pipeEnd e.vars e.wBuffer e.session_id c []
  rw [List.append_nil] at hread
  unfold Connection.request
  simp only [hread, deliver_call e.newBuffer hint e.mounted.1 hc hm]
  exact runClientRequest_message hint hfits hc
    (sameBelow_readFromBufferPC e.buffer e.info _ (messageSize_le c.opCode).2)

/-! ## What the file system answers -/

/-- A length inside of `fs_data` is the same number as an `int`. -/
theorem ssizeT_of_le {n : Nat} (h : n ≤ FS_DATA_SIZE) : ssizeT n = n ∧ FitsInt (ssizeT n) := by
  unfold FS_DATA_SIZE at h
  have he := ssizeT_of_lt (n := n) (by omega)
  refine ⟨he, ?_⟩
  rw [he]
  unfold FitsInt
  omega

theorem tfsWrite_answer {s s' : State} {fhandle : Int} {buffer : List UInt8} {r : Answer}
    (h : tfsWrite s fhandle buffer = some (r, s')) : FitsInt r.ret ∧ r.bytes = [] := by
  obtain ⟨⟨ret, t⟩, hw, he⟩ := Option.map_eq_some_iff.mp h
  obtain ⟨rfl, rfl⟩ := Prod.mk.injEq _ _ _ _ ▸ he
  refine ⟨?_, rfl⟩
  have hfail : FitsInt (-1) := by decide
  simp only [tfsWriteUnsynchronized] at hw
  split at hw
  · cases hw
    exact hfail
  split at hw
  · cases hw
    exact hfail
  split at hw
  · split at hw
    · cases hw
      exact hfail
    -- the copy is inside of `fs_data`, and so is its length
    obtain ⟨m, hcopy, he⟩ := Option.map_eq_some_iff.mp hw
    cases he
    unfold memcpyIn at hcopy
    split at hcopy
    · rename_i hin
      exact (ssizeT_of_le (by omega)).2
    · cases hcopy
  · cases hw
    exact (ssizeT_of_le (by omega)).2

theorem bytesToRead_le (i_size of_offset len : Nat) : bytesToRead i_size of_offset len ≤ len := by
  unfold bytesToRead
  split <;> omega

/-- A read fails and gives nothing, or returns how many bytes it gives. -/
theorem tfsRead_answer {s s' : State} {fhandle : Int} {len : Nat} {r : Answer}
    (h : tfsRead s fhandle len = some (r, s')) :
    FitsInt r.ret ∧ r.bytes.length ≤ len ∧
      (r.ret = -1 ∧ r.bytes = [] ∨ r.ret = r.bytes.length) := by
  obtain ⟨⟨⟨ret, bytes⟩, t⟩, hr, he⟩ := Option.map_eq_some_iff.mp h
  obtain ⟨rfl, rfl⟩ := Prod.mk.injEq _ _ _ _ ▸ he
  have hfail : FitsInt (-1) := by decide
  simp only [tfsReadUnsynchronized] at hr
  split at hr
  · cases hr
    exact ⟨hfail, Nat.zero_le _, Or.inl ⟨rfl, rfl⟩⟩
  split at hr
  · cases hr
    exact ⟨hfail, Nat.zero_le _, Or.inl ⟨rfl, rfl⟩⟩
  split at hr
  · split at hr
    · cases hr
      exact ⟨hfail, Nat.zero_le _, Or.inl ⟨rfl, rfl⟩⟩
    obtain ⟨bytes, hcopy, he⟩ := Option.map_eq_some_iff.mp hr
    cases he
    unfold memcpyOut at hcopy
    split at hcopy
    · rename_i hin
      cases hcopy
      obtain ⟨hret, hfits⟩ := ssizeT_of_le (Nat.le_of_add_left_le hin)
      refine ⟨hfits, ?_, Or.inr ?_⟩
      · rw [load_length]
        exact bytesToRead_le ..
      · rw [load_length]
        exact hret
    · cases hcopy
  · rename_i h0
    cases hr
    obtain ⟨hret, hfits⟩ := ssizeT_of_le (Nat.not_lt.mp h0 |>.trans (Nat.zero_le _))
    refine ⟨hfits, Nat.zero_le _, Or.inr ?_⟩
    apply hret.trans
    rw [Nat.eq_zero_of_not_pos h0]
    rfl

/-! ## Agreement -/

section
variable (e : Connection) (s : State) {fhandle : Int}

/-- A copy to the start of a buffer is read back there. -/
theorem load_store_start (m m' : Memory) {a k n : Nat} (h : a + k ≤ n) :
    load (store m 0 (load m' 0 n)) a k = load m' a k :=
  (sameBelow_store m m' n).load h

theorem loadInt_store_start (m m' : Memory) {n : Nat} (h : 4 ≤ n) :
    loadInt (store m 0 (load m' 0 n)) 0 = loadInt m' 0 :=
  (sameBelow_store m m' n).loadInt h

theorem remote_write_of_le (hf : FitsInt fhandle) {bytes : List UInt8}
    (hlen : bytes.length ≤ 1024) :
    e.tfsWrite s fhandle bytes = localEnd (tfsWrite s fhandle bytes) := by
  have hfits : (Call.tfsWrite fhandle bytes).Fits := ⟨hf, hlen⟩
  unfold Connection.tfsWrite
  rw [if_neg (by omega), e.request_eq hfits (by simp [Call.opCode])]
  simp only
  rcases hw : tfsWrite s fhandle bytes with _ | ⟨r, s'⟩
  · rfl
  obtain ⟨⟨hlo, hhi⟩, hbytes⟩ := tfsWrite_answer hw
  -- the answer is an `int`, which the client reads at once
  have hall : 4 ≤ e.arrived 4 := e.whole 4 (by decide)
  have hsize := load_length (storeInt e.bufferOut 0 r.ret) 0 4
  simp only [localEnd, hbytes]
  rw [List.take_of_length_le (by omega), List.drop_eq_nil_of_le (by omega),
    loadInt_store_start _ _ (le_refl 4), loadInt_storeInt_same _ _ _ hlo hhi]

theorem remote_write_iff (hf : FitsInt fhandle) (bytes : List UInt8) :
    e.tfsWrite s fhandle bytes = localEnd (tfsWrite s fhandle bytes) ↔ bytes.length ≤ 1024 := by
  refine ⟨fun h => ?_, remote_write_of_le e s hf⟩
  by_contra hlong
  unfold Connection.tfsWrite at h
  rw [if_pos (by omega)] at h
  rcases hw : tfsWrite s fhandle bytes with _ | ⟨r, s'⟩ <;> rw [hw] at h <;> cases h

/-- A length near 2 ^ 64 leaves no room for the answer itself. -/
theorem remote_read_outside (hf : FitsInt fhandle) {len : Nat} (hlen : len < 2 ^ 64)
    (hwrap : 2 ^ 64 ≤ len + 4) {r : Answer} {s' : State}
    (hr : tfsRead s fhandle len = some (r, s')) : e.tfsRead s fhandle len = .outside := by
  have hfits : (Call.tfsRead fhandle len).Fits := ⟨hf, hlen⟩
  have hsize : sizeT ((len : Int) + 4) < 4 + r.bytes.length := by
    unfold sizeT
    omega
  unfold Connection.tfsRead
  rw [e.request_eq hfits (by simp [Call.opCode])]
  simp only [hr]
  rw [if_pos hsize]

theorem remote_read_of_arrived (hf : FitsInt fhandle) {len : Nat} (hlen : len + 4 < 2 ^ 64)
    (harrived : len + 4 ≤ e.arrived (len + 4)) {r : Answer} {s' : State}
    (hr : tfsRead s fhandle len = some (r, s')) :
    e.tfsRead s fhandle len = localEnd (some (r, s')) := by
  have hfits : (Call.tfsRead fhandle len).Fits := ⟨hf, by omega⟩
  have hsize : sizeT ((len : Int) + 4) = len + 4 := by
    unfold sizeT
    omega
  obtain ⟨⟨hlo, hhi⟩, hle, hret⟩ := tfsRead_answer hr
  unfold Connection.tfsRead
  rw [e.request_eq hfits (by simp [Call.opCode])]
  simp only [hr, hsize]
  rw [if_neg (by omega), min_eq_right harrived]
  -- the whole reply is in `rBuffer`: the answer, and the bytes behind it
  rw [List.take_of_length_le (le_of_eq (load_length ..)),
    List.drop_eq_nil_of_le (le_of_eq (load_length ..)), loadInt_store_start _ _ (by omega),
    loadInt_storeInt_same _ _ _ hlo hhi]
  by_cases hpos : r.ret ≤ 0
  · have hnil : r.bytes = [] := by
      rcases hret with ⟨_, hb⟩ | hret
      · exact hb
      · exact List.eq_nil_of_length_eq_zero (by omega)
    rw [if_pos hpos]
    simp only [localEnd, hnil]
  · have hn : r.ret.toNat = r.bytes.length := by
      rcases hret with ⟨hm, _⟩ | hret
      · omega
      · rw [hret, Int.toNat_natCast]
    rw [if_neg hpos, if_neg (by omega), hn, load_store_start _ _ (by omega)]
    simp only [localEnd, storeInt]
    rw [load_store_disjoint _ _ _ _ _ (Or.inr (by simp)), load_store_same]

/-- What the one read did not get is still in the pipe. -/
theorem remote_read_partial (hf : FitsInt fhandle) {len : Nat} (hlen : len + 4 < 2 ^ 64)
    (harrived : e.arrived (len + 4) < len + 4) {r r' : Answer} {t s' : State}
    (hr : tfsRead s fhandle len = some (r, s')) :
    e.tfsRead s fhandle len ≠ localEnd (some (r', t)) := by
  have hfits : (Call.tfsRead fhandle len).Fits := ⟨hf, by omega⟩
  have hsize : sizeT ((len : Int) + 4) = len + 4 := by
    unfold sizeT
    omega
  have hleft : ∀ m : Memory,
      (load m 0 (len + 4)).drop (min (e.arrived (len + 4)) (len + 4)) ≠ [] := by
    intro m h
    have := List.drop_eq_nil_iff.mp h
    rw [load_length] at this
    omega
  unfold Connection.tfsRead
  rw [e.request_eq hfits (by simp [Call.opCode])]
  simp only [hr, hsize, localEnd]
  intro h
  split at h
  · cases h
  split at h
  · exact hleft _ (CallEnd.returns.inj h).2.2.2
  split at h
  · cases h
  · exact hleft _ (CallEnd.returns.inj h).2.2.2

theorem remote_read_iff (hf : FitsInt fhandle) {len : Nat} (hlen : len < 2 ^ 64) {r : Answer}
    {s' : State} (hr : tfsRead s fhandle len = some (r, s')) :
    e.tfsRead s fhandle len = localEnd (some (r, s')) ↔
      len + 4 < 2 ^ 64 ∧ len + 4 ≤ e.arrived (len + 4) := by
  constructor
  · intro h
    by_cases hwrap : len + 4 < 2 ^ 64
    · refine ⟨hwrap, Nat.not_lt.mp fun harrived => ?_⟩
      exact remote_read_partial e s hf hwrap harrived hr h
    · rw [remote_read_outside e s hf hlen (by omega) hr] at h
      cases h
  · rintro ⟨hwrap, harrived⟩
    exact remote_read_of_arrived e s hf hwrap harrived hr

end

/-- A call through the server agrees with the call on the server exactly if its buffers have room
for it, and the reply to a read arrives at once. -/
theorem a_remote_call_agrees_where_its_message_fits (e : Connection) (s : State) (fhandle : Int)
    (hf : FitsInt fhandle) :
    (∀ bytes : List UInt8,
      (e.tfsWrite s fhandle bytes = localEnd (tfsWrite s fhandle bytes) ↔ bytes.length ≤ 1024)) ∧
    ∀ len < 2 ^ 64, ∀ r s', tfsRead s fhandle len = some (r, s') →
      (e.tfsRead s fhandle len = localEnd (some (r, s')) ↔
        len + 4 < 2 ^ 64 ∧ len + 4 ≤ e.arrived (len + 4)) :=
  ⟨remote_write_iff e s hf, fun _ hlen _ _ hr => remote_read_iff e s hf hlen hr⟩

/-- A client in session 0, with a pipe that gives every reply at once. -/
def alone : Connection where
  session_id := 0
  wBuffer := fun _ => 0
  pipeEnd := ⟨false, true⟩
  vars := ⟨0, fun _ => 0⟩
  newBuffer := fun _ => 0
  info := fun _ => 0
  buffer := fun _ => 0
  bufferOut := fun _ => 0
  rBuffer := fun _ => 0
  arrived := id
  mounted := by decide
  whole := fun _ _ => le_refl _

/-- A file with two bytes, and a second handle at its start. -/
def openedTwice : List Op :=
  [.tfsOpen (some pathA) TFS_O_CREAT, .tfsWrite 0 [5, 6], .tfsOpen (some pathA) 0]

theorem openedTwice_possible : (steps.after next firstState openedTwice).isSome = true := by
  decide +kernel

/-- The state after these calls. -/
def openedState : State := (steps.after next firstState openedTwice).get openedTwice_possible

theorem openedState_reachable : Reachable openedState :=
  steps.Reachable.after (.start firstState_initial) (Option.some_get openedTwice_possible).symm

theorem openedState_read :
    (tfsRead openedState 1 8).map (fun r => (r.1.ret, r.1.bytes)) = some (2, [5, 6]) := by
  decide +kernel

theorem two_bytes_are_read_remotely : Reachable openedState ∧
    alone.tfsWrite openedState 1 [7] = localEnd (tfsWrite openedState 1 [7]) ∧
    ∃ r s, tfsRead openedState 1 8 = some (r, s) ∧ (r.ret, r.bytes) = (2, [5, 6]) ∧
      alone.tfsRead openedState 1 8 = localEnd (some (r, s)) := by
  obtain ⟨⟨r, s⟩, hr, hbytes⟩ := Option.map_eq_some_iff.mp openedState_read
  have h := a_remote_call_agrees_where_its_message_fits alone openedState 1 (by decide)
  refine ⟨openedState_reachable, (h.1 [7]).mpr (by decide), r, s, hr, hbytes, ?_⟩
  exact (h.2 8 (by decide) r s hr).mpr ⟨by decide, by decide⟩

/-- A write of 1025 bytes is a short write on the server, but the client copies 1025 bytes behind
the 17 of the header in a buffer of 1041. -/
theorem a_long_write_leaves_the_buffer : Reachable openedState ∧
    (tfsWrite openedState 1 (List.replicate 1025 7)).map (fun r => r.1.ret) = some 1024 ∧
    alone.tfsWrite openedState 1 (List.replicate 1025 7) = .outside ∧
    alone.tfsWrite openedState 1 (List.replicate 1025 7) ≠
      localEnd (tfsWrite openedState 1 (List.replicate 1025 7)) := by
  have hret : (tfsWrite openedState 1 (List.replicate 1025 7)).map (fun r => r.1.ret) =
      some 1024 := by decide +kernel
  have hout : alone.tfsWrite openedState 1 (List.replicate 1025 7) = .outside := by
    unfold Connection.tfsWrite
    rw [if_pos (by rw [List.length_replicate]; decide)]
  refine ⟨openedState_reachable, hret, hout, ?_⟩
  obtain ⟨⟨r, s⟩, hw, _⟩ := Option.map_eq_some_iff.mp hret
  rw [hout, hw]
  intro h
  cases h

end tecnicofs.parte2
