-- Clients that call through the server: each request goes over the pipe to the
-- handler and its answer back, and all clients see one store of files.
import TecnicoFS.Parte2.Remote
import TecnicoFS.Parte2.StoreRefinement

open byte_memory file_store

namespace tecnicofs.parte2

section
variable (e : Connection)

/-- The answer that a handler writes into the pipe of the client, and the read of the client. -/
def Connection.answerEnd (out : Int) (s : State) : CallEnd :=
  let reply := load (storeInt e.bufferOut 0 out) 0 4
  let serverAnswer := loadInt (store e.rBuffer 0 (reply.take (e.arrived 4))) 0
  .returns serverAnswer [] s (reply.drop (e.arrived 4))

/-- `tfs_open` of the client, and `handle_tfs_open`. -/
def Connection.tfsOpen (s : State) (name : CString) (flags : BitVec 32) : CallEnd :=
  -- the copies to `buffer`, which has 49 bytes
  if 49 < 1 + 4 + name.strlen + 1 + 4 then .outside
  else
    match e.request (.tfsOpen name flags) with
    | some (_, .tfsOpen fileName flags) =>
      match parte2.tfsOpen s (some fileName) flags with
      | none => .undefined
      | some (r, s) => e.answerEnd r.ret s
    | _ => .outside

/-- `tfs_close` of the client, and `handle_tfs_close`. -/
def Connection.tfsClose (s : State) (fhandle : Int) : CallEnd :=
  match e.request (.tfsClose fhandle) with
  | some (_, .tfsClose fhandle) =>
    let r := parte2.tfsClose s fhandle
    e.answerEnd r.1.ret r.2
  | _ => .outside

def Connection.call (s : State) : FileCall → CallEnd
  | .tfsOpen name flags => e.tfsOpen s name flags
  | .tfsClose fhandle => e.tfsClose s fhandle
  | .tfsRead fhandle len => e.tfsRead s fhandle len
  | .tfsWrite fhandle buffer => e.tfsWrite s fhandle buffer

/-- The buffers have room for the call, and the reply to a read arrives at once. -/
def Connection.Carries : FileCall → Prop
  | .tfsOpen name _ => name.strlen ≤ 39
  | .tfsClose fhandle => FitsInt fhandle
  | .tfsRead fhandle len => FitsInt fhandle ∧ len + 4 < 2 ^ 64 ∧ len + 4 ≤ e.arrived (len + 4)
  | .tfsWrite fhandle buffer => FitsInt fhandle ∧ buffer.length ≤ 1024

end

/-- The call on the server itself. -/
def opOf : FileCall → Op
  | .tfsOpen name flags => .tfsOpen (some name) flags
  | .tfsClose fhandle => .tfsClose fhandle
  | .tfsRead fhandle len => .tfsRead fhandle len
  | .tfsWrite fhandle buffer => .tfsWrite fhandle buffer

/-- A call of one of the clients: what it returns and the bytes it gives. It is undefined if it
goes wrong on its way, and a call that leaves bytes in its pipe is not followed by another one. -/
def remoteExec (s : State) (a : Connection × FileCall) : Option ((Int × List UInt8) × State) :=
  match a.1.call s a.2 with
  | .returns ret bytes s [] => some ((ret, bytes), s)
  | _ => none

/-- What a client may ask for: what its connection carries, and what the file system allows. -/
def CarefulClient (st : Store CString UInt8) (a : Connection × FileCall) : Prop :=
  a.1.Carries a.2 ∧ Careful st (opOf a.2)

/-! ## Each call -/

theorem fitsInt_failure : FitsInt (-1) := by decide

theorem addToOpenFileTable_fits (s : State) (inumber : Int) (offset : Nat) :
    FitsInt (addToOpenFileTable s inumber offset).1 := by
  rcases addToOpenFileTable_cases s inumber offset with he | ⟨i, hi, _, he⟩
  · rw [he]
    exact fitsInt_failure
  · rw [he]
    unfold FitsInt MAX_OPEN_FILES at *
    simp only
    omega

theorem openExisting_fits (s : State) (flags : BitVec 32) (inum : Int) :
    FitsInt (openExisting s flags inum).1 := by
  unfold openExisting
  cases inodeGet inum with
  | none => exact fitsInt_failure
  | some inode =>
    simp only
    by_cases ht : (if hasFlag flags TFS_O_TRUNC then truncateInode s.disk inode
      else (0, s.disk)).1 = -1
    · rw [if_pos ht]
      exact fitsInt_failure
    · rw [if_neg ht]
      exact addToOpenFileTable_fits ..

theorem openNew_fits {s : State} {name : Option CString} {r : Int × State}
    (h : openNew s name = some r) : FitsInt r.1 := by
  unfold openNew at h
  simp only at h
  split at h
  · cases h
    exact fitsInt_failure
  · obtain ⟨sub_name, _, rfl⟩ := Option.map_eq_some_iff.mp h
    split
    · exact fitsInt_failure
    · exact addToOpenFileTable_fits ..

theorem tfsOpen_answer {s s' : State} {name : Option CString} {flags : BitVec 32} {r : Answer}
    (h : tfsOpen s name flags = some (r, s')) : FitsInt r.ret ∧ r.bytes = [] := by
  unfold tfsOpen at h
  split at h
  · cases h
    exact ⟨fitsInt_failure, rfl⟩
  · obtain ⟨t, ht, he⟩ := Option.map_eq_some_iff.mp h
    cases he
    refine ⟨?_, rfl⟩
    unfold tfsOpenUnsynchronized at ht
    simp only at ht
    split at ht
    · cases ht
      exact openExisting_fits ..
    · split at ht
      · exact openNew_fits ht
      · cases ht
        exact fitsInt_failure

theorem tfsClose_answer (s : State) (fhandle : Int) :
    FitsInt (tfsClose s fhandle).1.ret ∧ (tfsClose s fhandle).1.bytes = [] := by
  rcases tfsClose_cases s fhandle with ⟨_, he⟩ | ⟨i, _, _, _, he⟩
  · rw [he]
    exact ⟨fitsInt_failure, rfl⟩
  · have hzero : FitsInt 0 := by decide
    rw [he]
    exact ⟨hzero, rfl⟩

section
variable (e : Connection)

/-- The client reads the answer that the handler wrote. -/
theorem Connection.answerEnd_eq {out : Int} (hfits : FitsInt out) (s : State) :
    e.answerEnd out s = .returns out [] s [] := by
  have hall : 4 ≤ e.arrived 4 := e.whole 4 (by decide)
  have hsize := load_length (storeInt e.bufferOut 0 out) 0 4
  unfold Connection.answerEnd
  simp only
  rw [List.take_of_length_le (by omega), List.drop_eq_nil_of_le (by omega),
    loadInt_store_start _ _ (le_refl 4), loadInt_storeInt_same _ _ _ hfits.1 hfits.2]

theorem remote_open (s : State) {name : CString} (hname : name.strlen ≤ 39) (flags : BitVec 32) :
    e.tfsOpen s name flags = localEnd (tfsOpen s (some name) flags) := by
  have hfits : (Call.tfsOpen name flags).Fits := hname
  unfold Connection.tfsOpen
  rw [if_neg (by omega), e.request_eq hfits (by simp [Call.opCode])]
  simp only
  rcases ho : tfsOpen s (some name) flags with _ | ⟨r, s'⟩
  · rfl
  · obtain ⟨hint, hbytes⟩ := tfsOpen_answer ho
    simp only [e.answerEnd_eq hint, localEnd, hbytes]

theorem remote_close (s : State) {fhandle : Int} (hf : FitsInt fhandle) :
    e.tfsClose s fhandle = localEnd (some (tfsClose s fhandle)) := by
  have hfits : (Call.tfsClose fhandle).Fits := hf
  obtain ⟨hint, hbytes⟩ := tfsClose_answer s fhandle
  unfold Connection.tfsClose
  rw [e.request_eq hfits (by simp [Call.opCode])]
  simp only [e.answerEnd_eq hint, localEnd, hbytes]

/-- A call that its connection carries does what the same call does on the server itself. -/
theorem Connection.call_eq {s s' : State} {c : FileCall} {r : Answer} (hc : e.Carries c)
    (he : exec s (opOf c) = some (r, s')) : e.call s c = .returns r.ret r.bytes s' [] := by
  cases c with
  | tfsOpen name flags => exact (remote_open e s hc flags).trans (congrArg localEnd he)
  | tfsClose fhandle => exact (remote_close e s hc).trans (congrArg localEnd he)
  | tfsRead fhandle len => exact remote_read_of_arrived e s hc.1 hc.2.1 hc.2.2 he
  | tfsWrite fhandle buffer => exact (remote_write_of_le e s hc.1 hc.2).trans (congrArg localEnd he)

end

/-! ## Runs -/

theorem storeExec_opOf (st : Store CString UInt8) (c : FileCall) :
    storeExec st (opOf c) = file_store.exec limits st c.inStore := by
  cases c <;> rfl

theorem remoteExec_refines : refinement.Refines remoteExec (fun st a => answerIn limits st a.2)
    CarefulClient id id Shows := by
  constructor
  rintro s st ⟨e, c⟩ h ⟨hcarries, hcareful⟩
  obtain ⟨r, s', he, hshown, hshows⟩ := h.exec hcareful
  rw [storeExec_opOf] at hshown hshows
  have hret : r.ret = returned (file_store.exec limits st c.inStore).1.ret :=
    congrArg (fun x => x.1) hshown
  have hbytes : r.bytes = (file_store.exec limits st c.inStore).1.bytes :=
    congrArg (fun x => x.2.1) hshown
  refine ⟨_, s', ?_, rfl, hshows⟩
  unfold remoteExec answerIn
  simp only [e.call_eq hcarries he, hret, hbytes]

/-- Clients that call through the server, one call after the other, see one store of files: every
request reaches its handler, and every client gets the answer of the store, with nothing left in
its pipe. -/
theorem clients_see_a_file_store {s : State} (hs : Initial s) {calls : List (Connection × FileCall)}
    (hcalls : runs.Meets (fun st a => answerIn limits st a.2) CarefulClient empty calls) :
    ∃ t, refinement.run remoteExec s calls =
        some ((runs.run (fun st a => answerIn limits st a.2) empty calls).1, t) ∧
      Shows t (runs.run (fun st a => answerIn limits st a.2) empty calls).2 := by
  obtain ⟨answers, t, hrun, hsame, hshows⟩ := remoteExec_refines.run hs.shows hcalls
  rw [List.map_id, List.map_id] at hsame
  exact ⟨t, hsame ▸ hrun, hshows⟩

/-- A second client, in session 1. -/
def beside : Connection := { alone with session_id := 1, mounted := by decide }

/-- What one client writes is read by the other one. -/
theorem a_write_of_one_client_is_read_by_another : ∃ t,
    refinement.run remoteExec firstState
      [(alone, .tfsOpen pathA TFS_O_CREAT), (alone, .tfsWrite 0 [5, 6]), (beside, .tfsOpen pathA 0),
        (beside, .tfsRead 1 8), (beside, .tfsClose 1)] =
      some ([(0, []), (2, []), (1, []), (2, [5, 6]), (0, [])], t) := by
  have hshort : NameFits (some pathA) TFS_O_CREAT := fun _ => ⟨pathA, rfl, by decide, by decide⟩
  have hcalls : runs.Meets (fun st a => answerIn limits st a.2) CarefulClient empty
      [(alone, .tfsOpen pathA TFS_O_CREAT), (alone, .tfsWrite 0 [5, 6]), (beside, .tfsOpen pathA 0),
        (beside, .tfsRead 1 8), (beside, .tfsClose 1)] := by
    refine ⟨⟨show _ ≤ _ by decide, hshort, fun h => by cases h⟩, ⟨⟨by decide, by decide⟩, by decide, by decide⟩,
      ⟨show _ ≤ _ by decide, fun h => ?_, fun h => ?_⟩, ⟨⟨by decide, by decide, by decide⟩, rfl⟩,
      ⟨show FitsInt _ by decide, trivial⟩, trivial⟩
    · exact absurd h (by decide)
    · exact absurd h (by decide)
  obtain ⟨t, hrun, _⟩ := clients_see_a_file_store firstState_initial hcalls
  exact ⟨t, hrun⟩

end tecnicofs.parte2
