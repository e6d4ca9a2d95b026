-- The bytes of the requests: what the client puts into a message
-- (`client/tecnicofs_client_api.c`), how the receiver takes it off the pipe and hands it
-- to a session, and what the handlers read out of the buffer of the session
-- (`fs/tfs_server.c`).
import TecnicoFS.Common.Basics
import TecnicoFS.Lib.ByteMemory
import TecnicoFS.Parte2.Mailbox
import Mathlib.Data.List.TakeWhile

open byte_memory

namespace tecnicofs.parte2

abbrev MAX_THREAD_INPUT_SIZE : Nat := 1041

/-- The operation codes of `common.h`. -/
def OpCode.code : OpCode → UInt8
  | .mount => 1
  | .unmount => 2
  | .open => 3
  | .close => 4
  | .write => 5
  | .read => 6
  | .shutdown => 7

/-- A request with its arguments. The length of a write is the number of its bytes. -/
inductive Call
  | tfsMount (client_pipe_path : CString)
  | tfsUnmount
  | tfsOpen (name : CString) (flags : BitVec 32)
  | tfsClose (fhandle : Int)
  | tfsWrite (fhandle : Int) (bytes : List UInt8)
  | tfsRead (fhandle : Int) (len : Nat)
  | tfsShutdownAfterAllClosed
  deriving DecidableEq

def Call.opCode : Call → OpCode
  | .tfsMount _ => .mount
  | .tfsUnmount => .unmount
  | .tfsOpen _ _ => .open
  | .tfsClose _ => .close
  | .tfsWrite _ _ => .write
  | .tfsRead _ _ => .read
  | .tfsShutdownAfterAllClosed => .shutdown

/-! ## The client -/

/-- The buffer of a call on the stack of the client, which held `buffer` before. -/
def Call.fill (buffer : Memory) (session_id : Int) : Call → Memory
  | .tfsMount client_pipe_path =>
    store (store buffer 0 [OpCode.mount.code]) 1 client_pipe_path.bytes
  | .tfsUnmount => storeInt (store buffer 0 [OpCode.unmount.code]) 1 session_id
  | .tfsOpen name flags =>
    let buffer := storeInt (store buffer 0 [OpCode.open.code]) 1 session_id
    let buffer := store buffer (1 + 4) name.bytes
    storeInt buffer (1 + 4 + name.strlen + 1) flags.toInt
  | .tfsClose fhandle =>
    let buffer := storeInt (store buffer 0 [OpCode.close.code]) 1 session_id
    storeInt buffer (1 + 4) fhandle
  | .tfsWrite fhandle bytes =>
    let wBuffer := storeInt (store buffer 0 [OpCode.write.code]) 1 session_id
    let wBuffer := storeInt wBuffer (1 + 4) fhandle
    let wBuffer := store wBuffer (1 + 2 * 4) (natBytes 8 bytes.length)
    store wBuffer (1 + 2 * 4 + 8) bytes
  | .tfsRead fhandle len =>
    let wBuffer := storeInt (store buffer 0 [OpCode.read.code]) 1 session_id
    let wBuffer := storeInt wBuffer (1 + 4) fhandle
    store wBuffer (1 + 2 * 4) (natBytes 8 len)
  | .tfsShutdownAfterAllClosed => storeInt (store buffer 0 [OpCode.shutdown.code]) 1 session_id

/-- How many bytes of its buffer the client writes to the pipe of the server. -/
def OpCode.messageSize : OpCode → Nat
  | .mount => 41
  | .unmount => 5
  | .open => 49
  | .close => 9
  | .write => 1041
  | .read => 17
  | .shutdown => 5

def Call.message (buffer : Memory) (session_id : Int) (c : Call) : List UInt8 :=
  load (c.fill buffer session_id) 0 c.opCode.messageSize

/-! ## The receiver -/

/-- Mode 1 for a read from the pipe of the server, mode 0 for a copy to a session. An unknown
operation code leaves `len` as it is. -/
def getClientInfoMaxSize (opCode : UInt8) (len : Nat) (mode : Bool) : Nat :=
  match opCode.toNat with
  | 1 => if mode then 40 else 45
  | 2 => 5 - mode.toNat
  | 3 => 49 - mode.toNat
  | 4 => 9 - mode.toNat
  | 5 => 1041 - mode.toNat
  | 6 => 17 - mode.toNat
  | 7 => 5 - mode.toNat
  | _ => len

structure ClientRequestInfo where
  sessionID : Int
  clientInfoMaxSize : Nat

def nullClientInfo : ClientRequestInfo := ⟨0, 0⟩

def getClientRequestInfo (opCode : UInt8) (bufferFromClient : Memory) : ClientRequestInfo :=
  let clientInfo := nullClientInfo
  if opCode = 1 then { clientInfo with sessionID := -1 }
  else
    { sessionID := loadInt bufferFromClient 1
      clientInfoMaxSize := getClientInfoMaxSize opCode clientInfo.clientInfoMaxSize false }

/-- The string at address `a`, if it ends within `n` bytes: `strcpy` to a buffer of that size is
not defined otherwise. -/
def strAt (m : Memory) (a n : Nat) : Option CString :=
  if 0 ∈ load m a n then
    some ⟨(load m a n).takeWhile (· ≠ 0), fun h => by simpa using List.mem_takeWhile_imp h⟩
  else none

/-- The variables of the receiver that outlive a round of its loop. -/
structure ReceiverVars where
  bytesToRead : Nat
  bufferIn : Memory

/-- What a read of the pipe of the server finds behind the last byte in it. -/
structure PipeEnd where
  /-- No client has the pipe open for writing any more, and the read ends. Otherwise it waits. -/
  closed : Bool
  /-- The `open` in `readFromPipe` succeeds. -/
  reopens : Bool

/-- How `readFromPipe` ends. -/
inductive PipeRead
  /-- It returns 0, with these bytes in the buffer. -/
  | bytes (bytes : List UInt8)
  /-- It returns 1, and the buffer is as it was. -/
  | ended
  /-- In `exit`. -/
  | exited

/-- `readFromPipe`, and what stays in the pipe. A read gives what is there, up to `nBytes`. It
returns 0 at the end of the input, and when it is asked for no bytes. Then the pipe is opened
again, but the receiver goes on with the old descriptor. A failure of the read is left out. -/
def readFromPipe (e : PipeEnd) (nBytes : Nat) (pipe : List UInt8) :
    Option (PipeRead × List UInt8) :=
  if nBytes = 0 ∨ (pipe = [] ∧ e.closed = true) then
    some (if e.reopens then .ended else .exited, pipe)
  else if pipe = [] then none
  else some (.bytes (pipe.take nBytes), pipe.drop nBytes)

/-- How the reads of a round end. -/
inductive Read
  /-- One of them returned 1, and the next round begins. -/
  | skipped
  | opCode (opCode : UInt8)
  | exited

/-- The reads of a round: what they give, the variables after them, and what stays in the pipe. -/
def readMessage (e : PipeEnd) (v : ReceiverVars) (pipe : List UInt8) :
    Option (Read × ReceiverVars × List UInt8) :=
  (readFromPipe e 1 pipe).bind fun first =>
    match first with
    | (.bytes bytes, pipe) =>
      let opCode := bytes.headD 0
      let bytesToRead := getClientInfoMaxSize opCode v.bytesToRead true
      (readFromPipe e bytesToRead pipe).map fun second =>
        match second with
        | (.bytes bytes, pipe) =>
          (.opCode opCode, ⟨bytesToRead, store (store v.bufferIn 1 bytes) 0 [opCode]⟩, pipe)
        | (.ended, pipe) => (.skipped, { v with bytesToRead }, pipe)
        | (.exited, pipe) => (.exited, { v with bytesToRead }, pipe)
    | (.ended, pipe) => some (.skipped, v, pipe)
    | (.exited, pipe) => some (.exited, v, pipe)

/-- What the receiver does with a message. -/
inductive Delivery
  /-- `sendUserCountFullMessage`, to this pipe. -/
  | refuse (client_pipe_name : CString)
  /-- `writeToBufferPC`, with the bytes that it copies. -/
  | put (sessionID : Int) (bytes : List UInt8)
  deriving DecidableEq

/-- A message with a session id below zero is taken for a mount: it gets the session that
`getAvailableSession` gave, and is laid out again in `newBuffer`. -/
def deliver (opCode : UInt8) (bufferIn newBuffer : Memory) (availableSession : Option Nat) :
    Option Delivery :=
  let clientInfo := getClientRequestInfo opCode bufferIn
  if clientInfo.sessionID < 0 then
    (strAt bufferIn 1 40).map fun client_pipe_name =>
      match availableSession with
      | none => .refuse client_pipe_name
      | some sessionID =>
        let newBuffer := storeInt (store newBuffer 0 [opCode]) 1 sessionID
        .put sessionID (load (store newBuffer 5 client_pipe_name.bytes) 0 45)
  else some (.put clientInfo.sessionID (load bufferIn 0 clientInfo.clientInfoMaxSize))

/-! ## The session -/

/-- `readFromBufferPC`: the whole buffer of the session goes to the buffer of the worker. -/
def readFromBufferPC (buffer info : Memory) : Memory := store buffer 0 (load info 0 1041)

section
variable (buffer : Memory) (bufferIn : Nat)

/-! What each handler reads behind the operation code: the session id and the arguments. A string
that does not fit, or bytes behind the end of the buffer, make the behaviour undefined. -/

def handleTfsMount : Option (Int × Call) :=
  (strAt buffer (bufferIn + 4) 40).map fun client_pipe_name =>
    (loadInt buffer bufferIn, .tfsMount client_pipe_name)

def handleTfsUnmount : Option (Int × Call) := some (loadInt buffer bufferIn, .tfsUnmount)

def handleTfsOpen : Option (Int × Call) :=
  (strAt buffer (bufferIn + 4) 41).map fun fileName =>
    let flags := loadInt buffer (bufferIn + 4 + fileName.strlen + 1)
    (loadInt buffer bufferIn, .tfsOpen fileName (BitVec.ofInt 32 flags))

def handleTfsClose : Option (Int × Call) :=
  some (loadInt buffer bufferIn, .tfsClose (loadInt buffer (bufferIn + 4)))

def handleTfsWrite : Option (Int × Call) :=
  let len := loadNat buffer (bufferIn + 8) 8
  if bufferIn + 16 + len ≤ MAX_THREAD_INPUT_SIZE then
    some (loadInt buffer bufferIn,
      .tfsWrite (loadInt buffer (bufferIn + 4)) (load buffer (bufferIn + 16) len))
  else none

def handleTfsRead : Option (Int × Call) :=
  some (loadInt buffer bufferIn,
    .tfsRead (loadInt buffer (bufferIn + 4)) (loadNat buffer (bufferIn + 2 * 4) 8))

def handleTfsShutdownAfterAllClosed : Option (Int × Call) :=
  some (loadInt buffer bufferIn, .tfsShutdownAfterAllClosed)

end

/-- The handler that the operation code chooses. Every unknown one is a shutdown. -/
def runClientRequest (buffer : Memory) : Option (Int × Call) :=
  match (buffer 0).toNat with
  | 1 => handleTfsMount buffer 1
  | 2 => handleTfsUnmount buffer 1
  | 3 => handleTfsOpen buffer 1
  | 4 => handleTfsClose buffer 1
  | 5 => handleTfsWrite buffer 1
  | 6 => handleTfsRead buffer 1
  | _ => handleTfsShutdownAfterAllClosed buffer 1

end tecnicofs.parte2
