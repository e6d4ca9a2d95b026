-- The buffer of one session of the server (`tfs_server.c`) with its mutex and
-- its condition variable: the receiver puts a request into it, and the worker
-- of the session takes it out and runs it.
import Mathlib.Data.Option.Basic

namespace tecnicofs.parte2

/-- The operation codes 1 to 7 of a request. -/
inductive OpCode
  | mount
  | unmount
  | open
  | close
  | write
  | read
  | shutdown
  deriving DecidableEq, Repr

/-- Where a worker is in `threadSender`. While it runs a request it keeps a `κ`. -/
inductive Worker (κ : Type)
  /-- Before its first `pthread_mutex_lock`. -/
  | start
  /-- At the test of `readable`, with the mutex. -/
  | test
  /-- In `pthread_cond_wait`, without the mutex. -/
  | waiting
  /-- In `pthread_cond_wait`, signalled: it wants the mutex back. -/
  | woken
  /-- At `readFromBufferPC`, with the mutex. -/
  | copying
  /-- In `runClientRequest`, with the mutex. -/
  | running (k : κ)
  /-- Behind the loop, at `exit`. -/
  | gone
  deriving DecidableEq

/-- One of `threadBuffers` and its worker. Nothing was copied yet when `info` is none. -/
structure Mailbox (ρ κ : Type) where
  readable : Bool
  info : Option ρ
  worker : Worker κ
  deriving DecidableEq

/-- A mailbox when the server starts. -/
def Mailbox.first {ρ κ : Type} : Mailbox ρ κ := ⟨false, none, .start⟩

section
variable {ρ κ : Type} (b : Mailbox ρ κ)

/-- The worker holds the mutex of its session everywhere else. -/
def Mailbox.mutexFree : Bool :=
  match b.worker with
  | .start | .waiting | .woken => true
  | _ => false

/-- `writeToBufferPC`: lock, copy, set `readable`, unlock. -/
def Mailbox.put (r : ρ) : Option (Mailbox ρ κ) :=
  if b.mutexFree then some { b with readable := true, info := some r } else none

/-- `pthread_cond_signal`. It is lost when nobody waits. -/
def Mailbox.signal : Mailbox ρ κ :=
  match b.worker with
  | .waiting => { b with worker := .woken }
  | _ => b

/-- The worker gets the mutex: for the first time, or back from the wait. -/
def Mailbox.lock : Option (Mailbox ρ κ) :=
  match b.worker with
  | .start => some { b with worker := .test }
  | .woken => some { b with worker := .copying }
  | _ => none

/-- The test of `readable`. It is not made again after the wait. -/
def Mailbox.test : Option (Mailbox ρ κ) :=
  match b.worker with
  | .test => some { b with worker := if b.readable then .copying else .waiting }
  | _ => none

/-- `readFromBufferPC`: copy, clear `readable`. -/
def Mailbox.take (k : ρ → κ) : Option (Mailbox ρ κ) :=
  match b.worker, b.info with
  | .copying, some r => some { b with readable := false, worker := .running (k r) }
  | _, _ => none

/-! ## What each step does -/

variable {b} {b' : Mailbox ρ κ}

theorem Mailbox.put_eq_some {r : ρ} (h : b.put r = some b') :
    b.mutexFree = true ∧ b' = { b with readable := true, info := some r } := by
  unfold Mailbox.put at h
  split at h
  · cases h
    exact ⟨by assumption, rfl⟩
  · cases h

theorem Mailbox.signal_cases (b : Mailbox ρ κ) :
    (b.worker = .waiting ∧ b.signal = { b with worker := .woken }) ∨
      (b.worker ≠ .waiting ∧ b.signal = b) := by
  unfold Mailbox.signal
  split
  · exact Or.inl ⟨by assumption, rfl⟩
  · exact Or.inr ⟨by assumption, rfl⟩

theorem Mailbox.lock_eq_some (h : b.lock = some b') :
    (b.worker = .start ∧ b' = { b with worker := .test }) ∨
      (b.worker = .woken ∧ b' = { b with worker := .copying }) := by
  unfold Mailbox.lock at h
  split at h <;> cases h
  · exact Or.inl ⟨by assumption, rfl⟩
  · exact Or.inr ⟨by assumption, rfl⟩

theorem Mailbox.test_eq_some (h : b.test = some b') :
    b.worker = .test ∧
      b' = { b with worker := if b.readable then .copying else .waiting } := by
  unfold Mailbox.test at h
  split at h <;> cases h
  exact ⟨by assumption, rfl⟩

theorem Mailbox.take_eq_some {k : ρ → κ} (h : b.take k = some b') :
    ∃ r, b.worker = .copying ∧ b.info = some r ∧
      b' = { b with readable := false, worker := .running (k r) } := by
  unfold Mailbox.take at h
  split at h <;> cases h
  exact ⟨_, by assumption, by assumption, rfl⟩

end

end tecnicofs.parte2
