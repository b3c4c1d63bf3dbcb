import LionOS.Ipc.Mailbox
import Mathlib.Data.List.TakeDrop

/-!
# What the mailbox delivers

The mailbox is meant to hold one message. The bytes of a longer message before it stay in the
array, but they never come out again: the message held is the first `len` bytes, and a drain
leaves none of them, whether or not its buffer had room for all.
-/

namespace LionOS.Ipc

namespace Mailbox

variable {b : Mailbox} {msg out : List UInt8}

/-- The message held. -/
def held (b : Mailbox) : List UInt8 := b.data.take b.len

theorem length_held (b : Mailbox) : b.held.length = b.len := by
  rw [held, List.length_take, b.length_data]
  exact Nat.min_eq_left b.len_le

theorem held_send (b : Mailbox) (msg : List UInt8) :
    (b.send msg).1.held = msg.take mailboxCap := by
  simp only [held, send]
  rw [List.take_left' (by rw [List.length_take]; omega), List.take_eq_take_iff]
  omega

/-- What comes out is the front of the message, as far as the buffer has room. -/
theorem peek_eq (b : Mailbox) (out : List UInt8) :
    b.peek out = (b.held.take out.length ++ out.drop (min b.len out.length),
      min b.len out.length) := by
  rw [peek, held, List.take_take, Nat.min_comm]

end Mailbox

/-- A call of the mailbox, with the buffer the caller gives it. -/
inductive Call
  | send (msg : List UInt8)
  | peek (out : List UInt8)
  | drain (out : List UInt8)
  deriving DecidableEq, Repr

namespace Call

/-- The mailbox a call leaves, and the bytes it returns in its buffer. -/
def apply (b : Mailbox) : Call → Mailbox × List UInt8
  | send msg => ((b.send msg).1, [])
  | peek out =>
    let (out, n) := b.peek out
    (b, out.take n)
  | drain out =>
    let (b, out, n) := b.drain out
    (b, out.take n)

def isSend : Call → Bool
  | send _ => true
  | _ => false

/-- The buffer of a drain. -/
def drainBuffer? : Call → Option (List UInt8)
  | drain out => some out
  | _ => none

end Call

/-- The mailbox after the calls. -/
def run (b : Mailbox) (calls : List Call) : Mailbox :=
  calls.foldl (fun b call => (call.apply b).1) b

/-- The bytes the drains among the calls return, one after the other. -/
def drained (b : Mailbox) : List Call → List UInt8
  | [] => []
  | call :: calls =>
    (if call.drainBuffer?.isSome then (call.apply b).2 else []) ++ drained (call.apply b).1 calls

/-- The room in the buffer of the first drain. -/
def firstRoom (calls : List Call) : Nat :=
  ((calls.findSome? Call.drainBuffer?).map List.length).getD 0

variable {b : Mailbox} {calls : List Call}

theorem take_peek (b : Mailbox) (out : List UInt8) :
    (b.peek out).1.take (b.peek out).2 = b.held.take out.length := by
  rw [Mailbox.peek_eq]
  refine List.take_left' ?_
  rw [List.length_take, b.length_held, Nat.min_comm]

/-- An empty mailbox returns nothing until the next send. -/
theorem drained_of_empty (hb : b.held = []) (hsend : ∀ call ∈ calls, call.isSend = false) :
    drained b calls = [] ∧ (run b calls).held = [] := by
  induction calls generalizing b with
  | nil => exact ⟨rfl, hb⟩
  | cons call calls ih =>
    have hrest := fun c hc => hsend c (List.mem_cons_of_mem _ hc)
    cases call with
    | send msg => exact absurd (hsend _ List.mem_cons_self) Bool.noConfusion
    | peek out => exact ih hb hrest
    | drain out =>
      have hnone : (b.drain out).1.held = [] := rfl
      obtain ⟨hdrained, hheld⟩ := ih hnone hrest
      refine ⟨?_, hheld⟩
      show (b.peek out).1.take (b.peek out).2 ++ drained (b.drain out).1 calls = []
      rw [take_peek, hb, hdrained, List.take_nil, List.append_nil]

/-- Until the next send the first drain returns what its buffer has room for, and the others
return nothing. -/
theorem drained_eq (b : Mailbox) (hsend : ∀ call ∈ calls, call.isSend = false) :
    drained b calls = b.held.take (firstRoom calls) := by
  induction calls with
  | nil => rfl
  | cons call calls ih =>
    have hrest := fun c hc => hsend c (List.mem_cons_of_mem _ hc)
    cases call with
    | send msg => exact absurd (hsend _ List.mem_cons_self) Bool.noConfusion
    | peek out => exact ih hrest
    | drain out =>
      have hnone : (b.drain out).1.held = [] := rfl
      show (b.peek out).1.take (b.peek out).2 ++ drained (b.drain out).1 calls = _
      rw [take_peek, (drained_of_empty hnone hrest).1, List.append_nil]
      rfl

/-- A drain leaves nothing for the drains after it. -/
theorem held_of_drained (b : Mailbox) (hsend : ∀ call ∈ calls, call.isSend = false)
    (hdrain : ∃ out, Call.drain out ∈ calls) : (run b calls).held = [] := by
  induction calls with
  | nil =>
    obtain ⟨out, hout⟩ := hdrain
    exact absurd hout List.not_mem_nil
  | cons call calls ih =>
    have hrest := fun c hc => hsend c (List.mem_cons_of_mem _ hc)
    cases call with
    | send msg => exact absurd (hsend _ List.mem_cons_self) Bool.noConfusion
    | peek out =>
      obtain ⟨out', hout⟩ := hdrain
      have hmem := (List.mem_cons.mp hout).resolve_left Call.noConfusion
      exact ih hrest ⟨out', hmem⟩
    | drain out => exact (drained_of_empty (b := (b.drain out).1) rfl hrest).2

/-- The room the message needs. -/
theorem take_firstRoom_eq_iff (msg : List UInt8) (k : Nat) :
    (msg.take mailboxCap).take k = msg.take mailboxCap ↔ min msg.length mailboxCap ≤ k := by
  rw [List.take_eq_self_iff, List.length_take, Nat.min_comm]

/-- Whatever was called before a message is sent, the drains up to the next send return the
front of this message and nothing else: the first of them as much as its buffer has room for,
the others nothing. The whole of it is returned exactly when it fits in that first buffer. -/
theorem drained_after_send (before : List Call) (msg : List UInt8) (calls : List Call)
    (hsend : ∀ call ∈ calls, call.isSend = false) :
    let b := ((run Mailbox.new before).send msg).1
    drained b calls = (msg.take mailboxCap).take (firstRoom calls) ∧
      drained b calls <+: msg.take mailboxCap ∧
      (drained b calls = msg.take mailboxCap ↔ min msg.length mailboxCap ≤ firstRoom calls) ∧
      ((∃ out, Call.drain out ∈ calls) → ∀ out, ((run b calls).drain out).2.2 = 0) := by
  intro b
  have hdrained := drained_eq b hsend
  rw [Mailbox.held_send] at hdrained
  refine ⟨hdrained, ?_, ?_, fun hdrain out => ?_⟩
  · rw [hdrained]
    exact List.take_prefix ..
  · rw [hdrained]
    exact take_firstRoom_eq_iff msg (firstRoom calls)
  · have hempty := held_of_drained b hsend hdrain
    have hlen := (run b calls).length_held
    rw [hempty, List.length_nil] at hlen
    show min (run b calls).len out.length = 0
    rw [← hlen, Nat.zero_min]

/-- A short message after a longer one, with a peek before it is drained. -/
theorem drained_after_send_short :
    drained ((run Mailbox.new [.send [9, 9, 9, 9]]).send [1, 2]).1
        [.peek [0], .drain [0, 0, 0], .drain [0, 0, 0]] = [1, 2] :=
  (drained_after_send [.send [9, 9, 9, 9]] [1, 2]
    [.peek [0], .drain [0, 0, 0], .drain [0, 0, 0]] (by decide)).1

/-- A message of nine bytes is drained with the buffer of `SYS_RECV`: the ninth byte is lost. -/
theorem exists_drained_lost :
    ¬ ∀ (msg : List UInt8) (calls : List Call), (∀ call ∈ calls, call.isSend = false) →
      let b := (Mailbox.new.send msg).1
      ∀ out, out ≠ [] → ((run b calls).drain out).2.2 = 0 →
        drained b calls = msg.take mailboxCap := by
  intro h
  have hlost := h [1, 2, 3, 4, 5, 6, 7, 8, 9] [.drain (List.replicate 8 0)] (by decide)
    (List.replicate 8 0) (by decide) rfl
  rw [drained_eq _ (by decide), Mailbox.held_send, take_firstRoom_eq_iff] at hlost
  exact absurd hlost (by decide)

end LionOS.Ipc
