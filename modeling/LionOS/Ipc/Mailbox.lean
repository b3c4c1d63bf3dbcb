import Mathlib.Tactic.Common

/-!
# The mailbox

A buffer of 64 bytes and the number of them that belong to the message held.
`send` replaces the message, `peek` copies it out and `drain` also drops it.
-/

namespace LionOS.Ipc

/-- Capacity of the mailbox. -/
def mailboxCap : Nat := 64

/-- The mailbox. -/
structure Mailbox where
  data : List UInt8
  len : Nat
  length_data : data.length = mailboxCap
  len_le : len ≤ mailboxCap

namespace Mailbox

/-- An empty mailbox. -/
def new : Mailbox := ⟨List.replicate mailboxCap 0, 0, by simp, by simp⟩

/-- Overwrite the mailbox with a message, cut to the capacity; also the number of bytes
stored. -/
def send (b : Mailbox) (msg : List UInt8) : Mailbox × Nat :=
  let n := min msg.length mailboxCap
  (⟨msg.take n ++ b.data.drop n, n, by
    simp only [List.length_append, List.length_take, List.length_drop, b.length_data]
    omega, Nat.min_le_right _ _⟩, n)

/-- Copy the message to the front of `out`; also the number of bytes copied. -/
def peek (b : Mailbox) (out : List UInt8) : List UInt8 × Nat :=
  let n := min b.len out.length
  (b.data.take n ++ out.drop n, n)

/-- Copy the message out and drop it. -/
def drain (b : Mailbox) (out : List UInt8) : Mailbox × List UInt8 × Nat :=
  (⟨b.data, 0, b.length_data, Nat.zero_le _⟩, b.peek out)

end Mailbox

end LionOS.Ipc
