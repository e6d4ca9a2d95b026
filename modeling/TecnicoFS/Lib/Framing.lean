-- Messages in a stream of bytes. The first byte of a message says how many bytes
-- follow it, so a reader that keeps to this takes the messages apart again.
import Mathlib.Data.List.Basic

namespace framing

variable {α β : Type*} (need : α → Nat) (encode : β → List α)

/-- A first element, and behind it as many as it asks for. -/
def Framed (m : List α) : Prop := ∃ a body, m = a :: body ∧ body.length = need a

/-- What was sent is what was received and what is still in the stream, in this order. -/
structure InFlight (stream : List α) (sent : List β) (received : Nat) : Prop where
  le : received ≤ sent.length
  stream : stream = ((sent.drop received).map encode).flatten
  framed : ∀ b ∈ sent, Framed need (encode b)

variable {need encode}

theorem InFlight.empty : InFlight need encode [] [] 0 where
  le := Nat.le_refl 0
  stream := rfl
  framed := fun b hb => by cases hb

variable {stream : List α} {sent : List β} {received : Nat}

theorem InFlight.send (h : InFlight need encode stream sent received) {b : β}
    (hb : Framed need (encode b)) :
    InFlight need encode (stream ++ encode b) (sent ++ [b]) received where
  le := by
    have := h.le
    rw [List.length_append]
    omega
  stream := by
    rw [h.stream, List.drop_append_of_le_length h.le]
    simp
  framed := by
    intro c hc
    rcases List.mem_append.mp hc with hc | hc
    · exact h.framed c hc
    · rw [List.mem_singleton.mp hc]
      exact hb

/-- A stream that is not empty has a message to be received. -/
theorem InFlight.lt (h : InFlight need encode stream sent received) (hne : stream ≠ []) :
    received < sent.length := by
  by_contra hge
  have hall : received = sent.length := Nat.le_antisymm h.le (Nat.le_of_not_lt hge)
  rw [h.stream, hall, List.drop_length] at hne
  exact hne rfl

/-- The first bytes of the stream are the next message. -/
theorem InFlight.next (h : InFlight need encode stream sent received)
    (hlt : received < sent.length) :
    ∃ rest, stream = encode sent[received] ++ rest ∧
      InFlight need encode rest sent (received + 1) := by
  refine ⟨((sent.drop (received + 1)).map encode).flatten, ?_, hlt, rfl, h.framed⟩
  rw [h.stream, List.drop_eq_getElem_cons hlt, List.map_cons, List.flatten_cons]

end framing
