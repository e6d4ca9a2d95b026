-- What a handler reads is what the client has put into its message, for every kind of
-- request, whatever lay in the buffers before.
import TecnicoFS.Parte2.Messages

open byte_memory

namespace tecnicofs.parte2

/-- A value of the C type `int`. -/
def FitsInt (v : Int) : Prop := -2 ^ 31 ≤ v ∧ v < 2 ^ 31

instance (v : Int) : Decidable (FitsInt v) := inferInstanceAs (Decidable (_ ∧ _))

/-- The arguments that the buffers of the client have room for. -/
def Call.Fits : Call → Prop
  | .tfsMount client_pipe_path => client_pipe_path.strlen ≤ 39
  | .tfsOpen name _ => name.strlen ≤ 39
  | .tfsClose fhandle => FitsInt fhandle
  | .tfsWrite fhandle bytes => FitsInt fhandle ∧ bytes.length ≤ 1024
  | .tfsRead fhandle len => FitsInt fhandle ∧ len < 2 ^ 64
  | .tfsUnmount | .tfsShutdownAfterAllClosed => True

instance : (c : Call) → Decidable c.Fits
  | .tfsMount _ => inferInstanceAs (Decidable (_ ≤ _))
  | .tfsOpen _ _ => inferInstanceAs (Decidable (_ ≤ _))
  | .tfsClose fhandle => inferInstanceAs (Decidable (FitsInt fhandle))
  | .tfsWrite fhandle _ => inferInstanceAs (Decidable (FitsInt fhandle ∧ _ ≤ _))
  | .tfsRead fhandle _ => inferInstanceAs (Decidable (FitsInt fhandle ∧ _ < _))
  | .tfsUnmount | .tfsShutdownAfterAllClosed => inferInstanceAs (Decidable True)

/-- The two memories agree below `n`. -/
def SameBelow (n : Nat) (m m' : Memory) : Prop := ∀ i < n, m i = m' i

/-! ## Strings -/

@[simp] theorem bytes_length (s : CString) : s.bytes.length = s.strlen + 1 := by
  simp [CString.bytes, CString.strlen]

theorem strAt_congr {m m' : Memory} {a n : Nat} (h : load m a n = load m' a n) :
    strAt m a n = strAt m' a n := by
  unfold strAt
  simp only [h]

/-- A string that was stored is read back. -/
theorem strAt_store_same (m : Memory) (a n : Nat) (s : CString) (hn : s.strlen < n) :
    strAt (store m a s.bytes) a n = some s := by
  obtain ⟨k, rfl⟩ : ∃ k, n = s.bytes.length + k := ⟨n - s.bytes.length, by simp; omega⟩
  have hload : ∃ xs, load (store m a s.bytes) a (s.bytes.length + k) = s.chars ++ 0 :: xs := by
    rw [load_append, load_store_same, CString.bytes, List.append_assoc]
    exact ⟨_, rfl⟩
  obtain ⟨xs, hload⟩ := hload
  unfold strAt
  simp only [hload]
  rw [if_pos (by simp), Option.some.injEq]
  obtain ⟨chars, hnul⟩ := s
  rw [CString.mk.injEq]
  exact takeWhile_nul hnul xs

/-! ## The layout of each message -/

section
variable {n : Nat} {m m' : Memory} (h : SameBelow n m m')
include h

theorem SameBelow.load {a k : Nat} (ha : a + k ≤ n) : load m a k = load m' a k :=
  load_congr fun i hi => h (a + i) (by omega)

theorem SameBelow.loadInt {a : Nat} (ha : a + 4 ≤ n) : loadInt m a = loadInt m' a :=
  loadInt_congr fun i hi => h (a + i) (by omega)

theorem SameBelow.loadNat {a k : Nat} (ha : a + k ≤ n) : loadNat m a k = loadNat m' a k :=
  loadNat_congr fun i hi => h (a + i) (by omega)

theorem SameBelow.strAt {a k : Nat} (ha : a + k ≤ n) : strAt m a k = strAt m' a k :=
  strAt_congr (h.load ha)

end

section
variable (buffer : Memory) (session_id : Int)

theorem fill_opCode (c : Call) : c.fill buffer session_id 0 = c.opCode.code := by
  cases c <;> simp (disch := omega) only [Call.fill, Call.opCode, storeInt, store_outside,
    store_singleton, Function.update_self]

theorem fill_session (hsid : FitsInt session_id) {c : Call} (hc : c.opCode ≠ .mount) :
    loadInt (c.fill buffer session_id) 1 = session_id := by
  obtain ⟨hlo, hhi⟩ := hsid
  cases c <;> simp (disch := omega) only [Call.fill, loadInt_store_outside,
    loadInt_storeInt_disjoint, loadInt_storeInt_same]
  exact absurd rfl hc

theorem fill_path (p : CString) (hp : p.strlen ≤ 39) :
    strAt ((Call.tfsMount p).fill buffer session_id) 1 40 = some p :=
  strAt_store_same _ 1 40 p (by omega)

theorem fill_name (name : CString) (flags : BitVec 32) (hname : name.strlen ≤ 39) :
    strAt ((Call.tfsOpen name flags).fill buffer session_id) 5 41 = some name := by
  -- the flags lie behind the name
  simp only [Call.fill, storeInt]
  rw [store_comm _ _ _ _ _ (Or.inl (by rw [bytes_length]; omega))]
  exact strAt_store_same _ 5 41 name (by omega)

theorem fill_flags (name : CString) (flags : BitVec 32) :
    loadInt ((Call.tfsOpen name flags).fill buffer session_id) (5 + name.strlen + 1) =
      flags.toInt := by
  have hlo := flags.le_toInt
  have hhi := flags.toInt_lt
  exact loadInt_storeInt_same _ _ _ hlo hhi

theorem fill_fhandle {c : Call} {fhandle : Int} (hf : FitsInt fhandle)
    (hc : c = .tfsClose fhandle ∨ (∃ bytes, c = .tfsWrite fhandle bytes) ∨
      ∃ len, c = .tfsRead fhandle len) :
    loadInt (c.fill buffer session_id) 5 = fhandle := by
  obtain ⟨hlo, hhi⟩ := hf
  rcases hc with rfl | ⟨bytes, rfl⟩ | ⟨len, rfl⟩ <;>
    simp (disch := omega) only [Call.fill, loadInt_store_outside, loadInt_storeInt_same]

theorem fill_len (fhandle : Int) (len : Nat) (hlen : len < 2 ^ 64) :
    loadNat ((Call.tfsRead fhandle len).fill buffer session_id) 9 8 = len :=
  loadNat_store_same _ 9 8 len (by omega)

theorem fill_bytes (fhandle : Int) (bytes : List UInt8) (hlen : bytes.length < 2 ^ 64) :
    loadNat ((Call.tfsWrite fhandle bytes).fill buffer session_id) 9 8 = bytes.length ∧
      load ((Call.tfsWrite fhandle bytes).fill buffer session_id) 17 bytes.length = bytes := by
  refine ⟨?_, load_store_same _ 17 bytes⟩
  simp only [Call.fill]
  rw [loadNat_store_outside _ _ _ _ _ (by omega)]
  exact loadNat_store_same _ 9 8 bytes.length (by omega)

end

/-! ## What the handlers read -/

/-- The handler of a request in a buffer that starts with its message reads its arguments. A mount
is laid out again before, and comes below. -/
theorem runClientRequest_message {buffer m : Memory} {session_id : Int} {c : Call}
    (hsid : FitsInt session_id) (hfits : c.Fits) (hc : c.opCode ≠ .mount)
    (hm : SameBelow c.opCode.messageSize m (c.fill buffer session_id)) :
    runClientRequest m = some (session_id, c) := by
  have hpos : 5 ≤ c.opCode.messageSize := by cases c <;> simp [Call.opCode, OpCode.messageSize]
  have hop : m 0 = c.opCode.code := (hm 0 (by omega)).trans (fill_opCode buffer session_id c)
  have hsess : loadInt m 1 = session_id :=
    (hm.loadInt (by omega)).trans (fill_session buffer session_id hsid hc)
  cases c <;> simp only [Call.opCode, OpCode.code, OpCode.messageSize, Call.Fits] at hop hm hfits <;>
    simp only [runClientRequest, hop, UInt8.reduceToNat]
  case tfsMount p => exact absurd rfl hc
  case tfsUnmount => simp only [handleTfsUnmount, hsess]
  case tfsOpen name flags =>
    have hname := (hm.strAt (by decide)).trans (fill_name buffer session_id name flags hfits)
    have hflags := (hm.loadInt (by omega)).trans (fill_flags buffer session_id name flags)
    simp only [handleTfsOpen, hsess, hname, hflags, Option.map_some, BitVec.ofInt_toInt]
  case tfsClose fhandle =>
    have hfh := (hm.loadInt (by decide)).trans
      (fill_fhandle buffer session_id hfits (Or.inl rfl))
    simp only [handleTfsClose, hsess, hfh]
  case tfsWrite fhandle bytes =>
    have hfh := (hm.loadInt (by decide)).trans
      (fill_fhandle buffer session_id hfits.1 (Or.inr (Or.inl ⟨bytes, rfl⟩)))
    have hlong := hfits.2
    obtain ⟨hlen, hbytes⟩ := fill_bytes buffer session_id fhandle bytes (by omega)
    have hlen' := (hm.loadNat (by decide)).trans hlen
    have hbytes' := (hm.load (by omega)).trans hbytes
    have hroom : 1 + 16 + bytes.length ≤ 1041 := by omega
    simp only [handleTfsWrite, hsess, hfh, hlen', hbytes', hroom, if_true]
  case tfsRead fhandle len =>
    have hfh := (hm.loadInt (by decide)).trans
      (fill_fhandle buffer session_id hfits.1 (Or.inr (Or.inr ⟨len, rfl⟩)))
    have hlen := (hm.loadNat (by decide)).trans (fill_len buffer session_id fhandle len hfits.2)
    simp only [handleTfsRead, hsess, hfh, hlen]
  case tfsShutdownAfterAllClosed => simp only [handleTfsShutdownAfterAllClosed, hsess]

/-! ## From the pipe to the buffer of the worker -/

theorem code_injective : Function.Injective OpCode.code := by
  intro o o' h
  cases o <;> cases o' <;> first | rfl | exact absurd h (by decide)

theorem getClientInfoMaxSize_read (o : OpCode) (len : Nat) :
    getClientInfoMaxSize o.code len true = o.messageSize - 1 := by
  cases o <;> rfl

theorem getClientInfoMaxSize_copy {o : OpCode} (ho : o ≠ .mount) (len : Nat) :
    getClientInfoMaxSize o.code len false = o.messageSize := by
  cases o <;> first | exact absurd rfl ho | rfl

/-- A copy of the first `n` bytes. -/
theorem sameBelow_store (m m' : Memory) (n : Nat) : SameBelow n (store m 0 (load m' 0 n)) m' := by
  intro i hi
  have hlt : i < (load m' 0 n).length := by rwa [load_length]
  have := store_at m 0 i (load m' 0 n) hlt
  rw [Nat.zero_add] at this
  rw [this]
  simp [load]

theorem sameBelow_readFromBufferPC (buffer info m : Memory) {n : Nat} (hn : n ≤ 1041) :
    SameBelow n (readFromBufferPC buffer (store info 0 (load m 0 n))) m := by
  intro i hi
  unfold readFromBufferPC
  rw [sameBelow_store buffer (store info 0 (load m 0 n)) 1041 i (by omega)]
  exact sameBelow_store info m n i hi

theorem messageSize_le (o : OpCode) : 5 ≤ o.messageSize ∧ o.messageSize ≤ 1041 := by
  cases o <;> simp [OpCode.messageSize]

theorem message_eq (buffer : Memory) (session_id : Int) (c : Call) :
    c.message buffer session_id =
      c.opCode.code :: load (c.fill buffer session_id) 1 (c.opCode.messageSize - 1) := by
  obtain ⟨hpos, _⟩ := messageSize_le c.opCode
  obtain ⟨n, hn⟩ : ∃ n, c.opCode.messageSize = 1 + n := ⟨c.opCode.messageSize - 1, by omega⟩
  unfold Call.message
  rw [hn, load_append, Nat.add_sub_cancel_left, Nat.zero_add]
  simp [load, fill_opCode]

theorem readFromPipe_end (e : PipeEnd) {nBytes : Nat} {pipe : List UInt8}
    (h : nBytes = 0 ∨ (pipe = [] ∧ e.closed = true)) :
    readFromPipe e nBytes pipe = some (if e.reopens then .ended else .exited, pipe) :=
  if_pos h

theorem readFromPipe_bytes (e : PipeEnd) {nBytes : Nat} {pipe : List UInt8} (hn : nBytes ≠ 0)
    (hpipe : pipe ≠ []) :
    readFromPipe e nBytes pipe = some (.bytes (pipe.take nBytes), pipe.drop nBytes) := by
  unfold readFromPipe
  rw [if_neg (by simp [hn, hpipe]), if_neg hpipe]

/-- Between two messages, the end of the input makes a round without a message. -/
theorem readMessage_nil (e : PipeEnd) (v : ReceiverVars) :
    readMessage e v [] =
      if e.closed then some (if e.reopens then .skipped else .exited, v, []) else none := by
  unfold readMessage readFromPipe
  cases e.closed <;> cases e.reopens <;> rfl

/-- Behind the operation code the receiver reads as much as the code says. -/
theorem readMessage_cons (e : PipeEnd) (v : ReceiverVars) (opCode : UInt8) (pipe : List UInt8) :
    readMessage e v (opCode :: pipe) =
      (readFromPipe e (getClientInfoMaxSize opCode v.bytesToRead true) pipe).map fun second =>
        let bytesToRead := getClientInfoMaxSize opCode v.bytesToRead true
        match second with
        | (.bytes bytes, pipe) =>
          (.opCode opCode, ⟨bytesToRead, store (store v.bufferIn 1 bytes) 0 [opCode]⟩, pipe)
        | (.ended, pipe) => (.skipped, { v with bytesToRead }, pipe)
        | (.exited, pipe) => (.exited, { v with bytesToRead }, pipe) := by
  unfold readMessage
  rw [readFromPipe_bytes e (by decide) (by simp)]
  rfl

/-- The receiver takes a message off the pipe, whatever is behind it. -/
theorem readMessage_message (e : PipeEnd) (v : ReceiverVars) (buffer : Memory) (session_id : Int)
    (c : Call) (rest : List UInt8) :
    ∃ v', readMessage e v (c.message buffer session_id ++ rest) =
        some (.opCode c.opCode.code, v', rest) ∧
      SameBelow c.opCode.messageSize v'.bufferIn (c.fill buffer session_id) := by
  obtain ⟨hpos, _⟩ := messageSize_le c.opCode
  have hlen : (load (c.fill buffer session_id) 1 (c.opCode.messageSize - 1)).length =
      c.opCode.messageSize - 1 := load_length ..
  have hne : load (c.fill buffer session_id) 1 (c.opCode.messageSize - 1) ++ rest ≠ [] := by
    rw [ne_eq, List.append_eq_nil_iff, ← List.length_eq_zero_iff]
    omega
  rw [message_eq, List.cons_append, readMessage_cons, getClientInfoMaxSize_read,
    readFromPipe_bytes e (by omega) hne, List.drop_left' hlen, List.take_left' hlen]
  refine ⟨_, rfl, fun i hi => ?_⟩
  simp only
  rcases Nat.eq_zero_or_pos i with rfl | hi0
  · rw [fill_opCode, store_singleton, Function.update_self]
  · rw [store_outside _ _ _ _ (Or.inr hi0)]
    obtain ⟨j, rfl⟩ : ∃ j, i = 1 + j := ⟨i - 1, by omega⟩
    rw [store_at _ 1 j _ (by rw [hlen]; omega)]
    simp [load]

/-! ## The delivery -/

section
variable {buffer bufferIn : Memory} {session_id : Int} {c : Call} (newBuffer : Memory)

theorem deliver_call (hsid : FitsInt session_id) (hpos : 0 ≤ session_id) (hc : c.opCode ≠ .mount)
    (hm : SameBelow c.opCode.messageSize bufferIn (c.fill buffer session_id))
    (availableSession : Option Nat) :
    deliver c.opCode.code bufferIn newBuffer availableSession =
      some (.put session_id (c.message buffer session_id)) := by
  obtain ⟨hsize, _⟩ := messageSize_le c.opCode
  have hsess : loadInt bufferIn 1 = session_id :=
    (hm.loadInt (by omega)).trans (fill_session buffer session_id hsid hc)
  have hcode : c.opCode.code ≠ 1 := fun h1 => hc (code_injective (h1.trans rfl))
  unfold deliver getClientRequestInfo
  simp only [if_neg hcode, hsess, getClientInfoMaxSize_copy hc]
  rw [if_neg (by omega), hm.load (by omega)]
  rfl

theorem deliver_mount {p : CString} (hp : p.strlen ≤ 39)
    (hm : SameBelow 41 bufferIn ((Call.tfsMount p).fill buffer session_id))
    (availableSession : Option Nat) :
    deliver OpCode.mount.code bufferIn newBuffer availableSession =
      some (match availableSession with
        | none => .refuse p
        | some i =>
          .put i (load (store (storeInt (store newBuffer 0 [1]) 1 i) 5 p.bytes) 0 45)) := by
  have hpath := (hm.strAt (by decide)).trans (fill_path buffer session_id p hp)
  unfold deliver getClientRequestInfo
  simp only [OpCode.code, if_true, hpath, Option.map_some]
  rw [if_pos (by decide)]
  cases availableSession <;> rfl

/-- The handler of a mount reads the session and the pipe from the new layout. -/
theorem runClientRequest_mount {m : Memory} {i : Nat} {p : CString} (hi : FitsInt i)
    (hp : p.strlen ≤ 39)
    (hm : SameBelow 45 m (store (storeInt (store newBuffer 0 [1]) 1 i) 5 p.bytes)) :
    runClientRequest m = some ((i : Int), .tfsMount p) := by
  have hop : m 0 = 1 := by
    rw [hm 0 (by decide)]
    simp (disch := omega) only [storeInt, store_outside, store_singleton, Function.update_self]
  have hsess : loadInt m 1 = i := by
    rw [hm.loadInt (by decide), loadInt_store_outside _ _ _ _ (Or.inl (by decide))]
    exact loadInt_storeInt_same _ _ _ hi.1 hi.2
  have hpath : strAt m 5 40 = some p :=
    (hm.strAt (by decide)).trans (strAt_store_same _ 5 40 p (by omega))
  simp only [runClientRequest, hop, UInt8.reduceToNat, handleTfsMount, hsess, hpath,
    Option.map_some]

end

end tecnicofs.parte2
