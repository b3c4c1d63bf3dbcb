import LionOS.Console.Serial
import LionOS.Sync.SpinLock

/-!
# Serial output from several contexts

The main loop and the interrupt handlers write to one port. Each public writer takes `LOCK`
once, waits before every byte until the transmitter is empty, and gives the lock back behind
the last byte. Contexts are interleaved at every access to the lock and to the port, and the
transmitter shifts bytes out whenever it likes.
-/

namespace LionOS.Console

open Lib TestAndSet Sync

/-- What has gone out on the line, and what waits in the transmitter's FIFO. -/
structure Uart where
  line : List UInt8
  fifo : List UInt8

/-- `init` enables the FIFO. -/
def fifoDepth : Nat := 16

namespace Uart

/-- The line status register. Bit 5 is set while nothing waits; the others may be anything. -/
def lineStatus (u : Uart) (other : UInt8) : UInt8 :=
  if u.fifo.isEmpty then other ||| 0x20 else other &&& 0xDF

/-- A byte written to the port is lost if the FIFO is full. -/
def outb (u : Uart) (byte : UInt8) : Uart :=
  if u.fifo.length < fifoDepth then { u with fifo := u.fifo ++ [byte] } else u

/-- The transmitter sends one byte. -/
def shift (u : Uart) : Uart :=
  match u.fifo with
  | [] => u
  | b :: rest => ⟨u.line ++ [b], rest⟩

/-- The bytes written that were not lost. -/
def accepted (u : Uart) : List UInt8 := u.line ++ u.fifo

@[simp] theorem accepted_shift (u : Uart) : u.shift.accepted = u.accepted := by
  unfold shift accepted
  split
  next h => rw [h]
  next b rest h => simp [h]

/-- The wait loop is left exactly when nothing waits in the FIFO. -/
theorem lineStatus_and_eq_zero (u : Uart) (other : UInt8) :
    u.lineStatus other &&& 0x20 = 0 ↔ u.fifo ≠ [] := by
  unfold lineStatus
  cases u.fifo with
  | nil =>
    refine iff_of_false (fun h => ?_) (by simp)
    have hbit := congrArg (fun x : UInt8 => x.toBitVec.getLsbD 5) h
    simp at hbit
  | cons b rest =>
    refine iff_of_true ?_ (by simp)
    rw [List.isEmpty_cons, if_neg (by simp), UInt8.and_assoc]
    exact UInt8.and_zero

/-- Nothing is lost that is written while the FIFO is empty. -/
theorem accepted_outb {u : Uart} (h : u.fifo = []) (byte : UInt8) :
    (u.outb byte).accepted = u.accepted ++ [byte] := by
  simp [outb, accepted, h, fifoDepth]

end Uart

/-- A call of one of the public writers. -/
inductive SerialCall where
  | writeByte (byte : UInt8)
  | writeRaw (bytes : List UInt8)
  | writeStr (s : String)
  | writeHex (value : UInt64)
  | writeDec (value : UInt64)

/-- The bytes sent under the lock. The digits of `write_dec` are found before it is taken, and
there is room for them all. -/
def SerialCall.bytes : SerialCall → List UInt8
  | .writeByte byte => [byte]
  | .writeRaw bytes => bytes
  | .writeStr s => Console.writeStr s
  | .writeHex value => Console.writeHex value.toNat
  | .writeDec value => (Console.writeDec value.toNat).toOption.getD []

/-- Where a context stands: between calls, in the loop of `LOCK.lock()`, in front of the wait
loop of the next byte with the lock, or behind it. -/
inductive SerialPc where
  | idle
  | locking (bytes : List UInt8)
  | waiting (bytes : List UInt8)
  | ready (byte : UInt8) (rest : List UInt8)

/-- The message a context has begun without the lock. -/
def SerialPc.wants : SerialPc → List (List UInt8)
  | .locking bytes => [bytes]
  | _ => []

/-- The sections of the library's lock are messages. -/
def SerialPc.place : SerialPc → Place UInt8
  | .waiting bytes => .inside bytes
  | .ready byte rest => .inside (byte :: rest)
  | _ => .outside

@[simp] theorem SerialPc.place_idle : SerialPc.idle.place = .outside := rfl

@[simp] theorem SerialPc.place_locking (bytes : List UInt8) :
    (SerialPc.locking bytes).place = .outside := rfl

@[simp] theorem SerialPc.place_waiting (bytes : List UInt8) :
    (SerialPc.waiting bytes).place = .inside bytes := rfl

@[simp] theorem SerialPc.place_ready (byte : UInt8) (rest : List UInt8) :
    (SerialPc.ready byte rest).place = .inside (byte :: rest) := rfl

/-- The port, the lock, and the contexts with the calls they have not begun. -/
structure Writers (ι : Type) where
  uart : Uart
  lock : SpinLock Unit
  pc : ι → SerialPc
  todo : ι → List SerialCall

/-- A context makes its next access, with some value in the other bits of the status register,
or the transmitter sends a byte. -/
inductive SerialEvent (ι : Type) where
  | access (p : ι) (other : UInt8)
  | shift

namespace Writers

variable {ι : Type} [DecidableEq ι] {c : Writers ι} {p q : ι} {byte : UInt8}
  {bytes rest : List UInt8}

/-- Behind `init`. -/
def init (prog : ι → List SerialCall) : Writers ι where
  uart := ⟨[], []⟩
  lock := .new ()
  pc _ := .idle
  todo := prog

/-- The next access of one context. -/
def access (c : Writers ι) (p : ι) (other : UInt8) : Writers ι :=
  match c.pc p with
  | .idle =>
    match c.todo p with
    | [] => c
    | call :: calls =>
      { c with
        pc := Function.update c.pc p (.locking call.bytes)
        todo := Function.update c.todo p calls }
  | .locking bytes =>
    match c.lock.swap with
    | (true, lock) => { c with lock := lock }
    | (false, lock) => { c with lock := lock, pc := Function.update c.pc p (.waiting bytes) }
  | .waiting [] => { c with lock := c.lock.unlock, pc := Function.update c.pc p .idle }
  | .waiting (byte :: rest) =>
    if c.uart.lineStatus other &&& 0x20 = 0 then c
    else { c with pc := Function.update c.pc p (.ready byte rest) }
  | .ready byte rest =>
    { c with uart := c.uart.outb byte, pc := Function.update c.pc p (.waiting rest) }

def step (c : Writers ι) : SerialEvent ι → Writers ι
  | .access p other => c.access p other
  | .shift => { c with uart := c.uart.shift }

def run (c : Writers ι) (es : List (SerialEvent ι)) : Writers ι := es.foldl step c

/-- The messages of a context that have not got the lock yet. -/
def pending (c : Writers ι) (p : ι) : List (List UInt8) :=
  (c.pc p).wants ++ (c.todo p).map SerialCall.bytes

/-- What has been accepted is the value that the library's lock protects. -/
def toState (c : Writers ι) : State ι UInt8 (List UInt8) where
  held := c.lock.held
  value := c.uart.accepted
  place p := (c.pc p).place
  todo := c.pending

/-- The value gets one byte longer. -/
def emit (out : List UInt8) (byte : UInt8) : List UInt8 := out ++ [byte]

theorem foldl_emit (bytes out : List UInt8) : bytes.foldl emit out = out ++ bytes := by
  induction bytes generalizing out with
  | nil => simp
  | cons b bytes ih => rw [List.foldl_cons, ih, emit, List.append_assoc, List.singleton_append]

/-! ## Messages as sections -/

theorem place_update (pc : ι → SerialPc) (p : ι) (x : SerialPc) :
    (fun q => (Function.update pc p x q).place) =
      Function.update (fun q => (pc q).place) p x.place :=
  Function.comp_update SerialPc.place pc p x

/-- With the lock a context wants nothing, wherever it stands. -/
theorem pending_update (hin : (c.pc p).wants = []) (uart : Uart) (lock : SpinLock Unit)
    {x : SerialPc} (hx : x.wants = []) :
    pending { c with uart := uart, lock := lock, pc := Function.update c.pc p x } = c.pending := by
  funext q
  by_cases hq : q = p
  · subst hq
    simp [pending, hin, hx]
  · simp [pending, Function.update_of_ne hq]

/-- Beginning a call is no move of the library's lock yet. -/
theorem toState_access_idle (hpc : c.pc p = .idle) (other : UInt8) :
    (c.access p other).toState = c.toState := by
  cases htodo : c.todo p with
  | nil => simp [access, hpc, htodo]
  | cons call calls =>
    have hpending : (c.access p other).pending = c.pending := by
      funext q
      by_cases hq : q = p
      · subst hq
        simp [pending, SerialPc.wants, access, hpc, htodo]
      · simp [pending, access, hpc, htodo, Function.update_of_ne hq]
    have hplace : (fun q => ((c.access p other).pc q).place) = fun q => (c.pc q).place := by
      simp only [access, hpc, htodo, place_update]
      exact Function.update_eq_self_iff.mpr (by simp [hpc])
    rw [toState, toState, hpending, hplace]
    simp [access, hpc, htodo]

/-- Getting the lock begins a message. -/
theorem toState_access_locking (hpc : c.pc p = .locking bytes) (hfree : c.lock.held = false)
    (other : UInt8) : (c.access p other).toState = c.toState.move emit p := by
  have hout : c.toState.place p = .outside := by simp [toState, hpc]
  have htodo : c.toState.todo p = bytes :: (c.todo p).map SerialCall.bytes := by
    simp [toState, pending, SerialPc.wants, hpc]
  have hswap : c.lock.swap = (false, ⟨true, c.lock.value⟩) := by rw [SpinLock.swap, hfree]
  have hpending : (c.access p other).pending =
      Function.update c.pending p ((c.todo p).map SerialCall.bytes) := by
    funext q
    by_cases hq : q = p
    · subst hq
      simp [pending, SerialPc.wants, access, hpc, hswap]
    · simp [pending, access, hpc, hswap, Function.update_of_ne hq]
  rw [State.move_enter hout hfree htodo, toState, hpending]
  simp [access, hpc, hswap, State.enter, toState, place_update]

/-- Reading the status register is no move. -/
theorem toState_access_poll (hpc : c.pc p = .waiting (byte :: rest)) (other : UInt8) :
    (c.access p other).toState = c.toState := by
  simp only [access, hpc]
  split
  · rfl
  · have hpending := pending_update (c := c) (p := p) (by rw [hpc]; rfl) c.uart c.lock
      (x := .ready byte rest) rfl
    have hplace : (fun q => (Function.update c.pc p (.ready byte rest) q).place) =
        fun q => (c.pc q).place := by
      rw [place_update]
      exact Function.update_eq_self_iff.mpr (by simp [hpc])
    rw [toState, toState, hpending, hplace]

/-- Writing to the port sends the byte if the FIFO is empty. -/
theorem toState_access_ready (hpc : c.pc p = .ready byte rest) (hempty : c.uart.fifo = [])
    (other : UInt8) : (c.access p other).toState = c.toState.move emit p := by
  have hin : c.toState.place p = .inside (byte :: rest) := by simp [toState, hpc]
  have hpending := pending_update (c := c) (p := p) (by rw [hpc]; rfl) (c.uart.outb byte)
    c.lock (x := .waiting rest) rfl
  rw [State.move_perform hin]
  simp only [access, hpc]
  rw [toState, hpending, place_update, Uart.accepted_outb hempty]
  rfl

/-- Giving the lock back ends the message. -/
theorem toState_access_unlock (hpc : c.pc p = .waiting []) (other : UInt8) :
    (c.access p other).toState = c.toState.move emit p := by
  have hin : c.toState.place p = .inside [] := by simp [toState, hpc]
  have hpending := pending_update (c := c) (p := p) (by rw [hpc]; rfl) c.uart
    c.lock.unlock (x := .idle) rfl
  rw [State.move_leave hin]
  simp only [access, hpc]
  rw [toState, hpending, place_update]
  rfl

/-- A context behind the wait loop finds the FIFO empty. -/
def PortClear (c : Writers ι) : Prop := ∀ p byte rest, c.pc p = .ready byte rest → c.uart.fifo = []

/-- An access is a move of the library's lock, or none. -/
theorem toState_access (hclear : c.PortClear) (p : ι) (other : UInt8) :
    (c.access p other).toState = c.toState ∨
      (c.access p other).toState = c.toState.move emit p := by
  cases hpc : c.pc p with
  | idle => exact Or.inl (toState_access_idle hpc other)
  | locking bytes =>
    cases hheld : c.lock.held with
    | true => exact Or.inl (by simp [access, hpc, SpinLock.swap_of_held hheld])
    | false => exact Or.inr (toState_access_locking hpc hheld other)
  | waiting bytes =>
    cases bytes with
    | nil => exact Or.inr (toState_access_unlock hpc other)
    | cons byte rest => exact Or.inl (toState_access_poll hpc other)
  | ready byte rest => exact Or.inr (toState_access_ready hpc (hclear p byte rest hpc) other)

theorem toState_shift (c : Writers ι) : (c.step .shift).toState = c.toState := by
  simp only [step, toState, Uart.accepted_shift]
  rfl

/-- A context that is not behind the wait loop says nothing about the FIFO. -/
theorem PortClear.update (h : c.PortClear) (lock : SpinLock Unit) {x : SerialPc}
    {todo : ι → List SerialCall} (hx : ∀ byte rest, x = .ready byte rest → c.uart.fifo = []) :
    PortClear { c with lock := lock, pc := Function.update c.pc p x, todo := todo } := by
  intro q byte rest hq
  by_cases hqp : q = p
  · subst hqp
    exact hx byte rest (by simpa using hq)
  · exact h q byte rest (by simpa [Function.update_of_ne hqp] using hq)

variable {prog : ι → List (List UInt8)} {order : List (ι × List UInt8)}

/-- The byte written is the only one that a context had been waiting to write. -/
private theorem portClear_access_ready (hserial : Serial emit [] prog order c.toState)
    (hpc : c.pc p = .ready byte rest) (other : UInt8) : (c.access p other).PortClear := by
  intro q byte' rest' hq
  simp only [access, hpc] at hq
  by_cases hqp : q = p
  · subst hqp
    simp at hq
  · have hin : c.toState.place p = .inside (byte :: rest) := by simp [toState, hpc]
    have hout := (hserial.inside p _ hin).2.1 q hqp
    rw [Function.update_of_ne hqp] at hq
    simp [toState, hq] at hout

theorem PortClear.step (h : c.PortClear) (hserial : Serial emit [] prog order c.toState)
    (e : SerialEvent ι) : (c.step e).PortClear := by
  cases e with
  | shift =>
    intro p byte rest hp
    have hempty := h p byte rest hp
    simp [Writers.step, Uart.shift, hempty]
  | access p other =>
    change (c.access p other).PortClear
    cases hpc : c.pc p with
    | idle =>
      cases htodo : c.todo p with
      | nil => simpa [access, hpc, htodo] using h
      | cons call calls =>
        simp only [access, hpc, htodo]
        exact h.update c.lock (by simp)
    | locking bytes =>
      cases hheld : c.lock.held with
      | true => simpa [access, hpc, SpinLock.swap_of_held hheld] using h
      | false =>
        simp only [access, hpc, SpinLock.swap, hheld]
        exact h.update _ (by simp)
    | waiting bytes =>
      cases bytes with
      | nil =>
        simp only [access, hpc]
        exact h.update _ (by simp)
      | cons byte rest =>
        simp only [access, hpc]
        split
        · exact h
        next hready =>
          refine h.update c.lock fun _ _ _ => ?_
          rw [c.uart.lineStatus_and_eq_zero] at hready
          exact not_not.mp hready
    | ready byte rest => exact portClear_access_ready hserial hpc other

/-- The messages begun so far are `order`, and no byte is about to be lost. -/
def Orderly (prog : ι → List (List UInt8)) (c : Writers ι) : Prop :=
  c.PortClear ∧ ∃ order, Serial emit [] prog order c.toState

theorem orderly_init (prog : ι → List SerialCall) :
    Orderly (fun p => (prog p).map SerialCall.bytes) (init prog) := by
  refine ⟨fun p byte rest (hp : SerialPc.idle = _) => SerialPc.noConfusion hp, [], ?_⟩
  have hinit : (init prog).toState =
      TestAndSet.init [] fun p => (prog p).map SerialCall.bytes := rfl
  rw [hinit]
  exact serial_init ..

theorem Orderly.step (h : Orderly prog c) (e : SerialEvent ι) : Orderly prog (c.step e) := by
  obtain ⟨hclear, order, hserial⟩ := h
  refine ⟨hclear.step hserial e, ?_⟩
  cases e with
  | shift => exact ⟨order, by rw [toState_shift]; exact hserial⟩
  | access p other =>
    rcases c.toState_access hclear p other with hsame | hmove
    · exact ⟨order, by rw [Writers.step, hsame]; exact hserial⟩
    · obtain ⟨order', -, hserial'⟩ := hserial.move p
      exact ⟨order', by rw [Writers.step, hmove]; exact hserial'⟩

theorem Orderly.run (h : Orderly prog c) (es : List (SerialEvent ι)) : Orderly prog (c.run es) := by
  induction es generalizing c with
  | nil => exact h
  | cons e es ih => exact ih (h.step e)

/-- **Messages are never torn.** For any contexts, any calls each of them makes, and any order of
their accesses and of the transmitter's own steps: the bytes the port has accepted are whole
messages one after another, the last of them as far as its writer has come. No byte is lost,
and each context's messages come in the order of its calls. -/
theorem messages_whole (prog : ι → List SerialCall) (es : List (SerialEvent ι)) :
    ∃ order : List (ι × List UInt8),
      let c := (init prog).run es
      (∀ p, sectionsOf p order ++ c.pending p = (prog p).map SerialCall.bytes) ∧
        ((∀ p, (c.pc p).place = .outside) → c.uart.accepted = actions order) ∧
        ∀ p left, (c.pc p).place = .inside left → ∃ before done,
          order = before ++ [(p, done ++ left)] ∧ c.uart.accepted = actions before ++ done := by
  obtain ⟨-, order, h⟩ := (orderly_init prog).run es
  refine ⟨order, h.programs, fun hout => ?_, fun p left hp => ?_⟩
  · have hvalue := (h.outside hout).2
    rwa [foldl_emit, List.nil_append] at hvalue
  · obtain ⟨-, -, before, done, horder, hvalue⟩ := h.inside p left hp
    rw [foldl_emit, List.nil_append] at hvalue
    exact ⟨before, done, horder, hvalue⟩

/-! ## A handler that writes -/

/-- Only `q` runs on the processor; the transmitter goes on. -/
def OnlyRuns (q : ι) (es : List (SerialEvent ι)) : Prop :=
  ∀ p other, .access p other ∈ es → p = q

/-- While another context has the lock, `q` gets no further than the loop of `lock`. -/
theorem Orderly.blocked (h : Orderly prog c) {left : List UInt8}
    (hp : (c.pc p).place = .inside left) (hne : p ≠ q) {es : List (SerialEvent ι)}
    (hes : OnlyRuns q es) : (c.run es).toState = c.toState := by
  induction es generalizing c with
  | nil => rfl
  | cons e es ih =>
    have hsame : (c.step e).toState = c.toState := by
      cases e with
      | shift => exact c.toState_shift
      | access r other =>
        obtain rfl : r = q := hes r other List.mem_cons_self
        obtain ⟨hclear, order, hserial⟩ := h
        rcases c.toState_access hclear r other with hsame | hmove
        · exact hsame
        · have hnot : p ∉ [r] := by simpa using hne
          exact hmove.trans (hserial.run_blocked hp hnot)
    have hplace : ((c.step e).pc p).place = .inside left :=
      (congrArg (fun s => s.place p) hsame).trans hp
    exact (ih (h.step e) hplace fun r other hmem => hes r other (List.mem_cons_of_mem _ hmem)).trans
      hsame

theorem run_append (c : Writers ι) (es es' : List (SerialEvent ι)) :
    c.run (es ++ es') = (c.run es).run es' := by
  rw [run, List.foldl_append]
  rfl

omit [DecidableEq ι] in
theorem OnlyRuns.append {es es' : List (SerialEvent ι)} (h : OnlyRuns q es) (h' : OnlyRuns q es') :
    OnlyRuns q (es ++ es') := by
  intro p other hmem
  rcases List.mem_append.mp hmem with hmem | hmem
  · exact h p other hmem
  · exact h' p other hmem

omit [DecidableEq ι] in
theorem onlyRuns_access (q : ι) (n : Nat) :
    OnlyRuns q (List.replicate n (SerialEvent.access q 0)) := by
  intro p other hmem
  have heq := List.eq_of_mem_replicate hmem
  cases heq
  rfl

/-- In time the transmitter has sent everything. -/
theorem exists_drained (c : Writers ι) (q : ι) : ∃ es, OnlyRuns q es ∧ ∃ uart : Uart,
    uart.fifo = [] ∧ c.run es = { c with uart := uart } := by
  obtain ⟨⟨line, fifo⟩, lock, pc, todo⟩ := c
  induction fifo generalizing line with
  | nil => exact ⟨[], onlyRuns_access q 0, ⟨line, []⟩, rfl, rfl⟩
  | cons b fifo ih =>
    obtain ⟨es, honly, uart, hempty, hrun⟩ := ih (line ++ [b])
    refine ⟨.shift :: es, fun p other hmem => ?_, uart, hempty, hrun⟩
    exact honly p other (by simpa using hmem)

/-- `q` is between calls and has `calls` to make. -/
def Returned (c : Writers ι) (q : ι) (calls : List SerialCall) : Prop :=
  c.pc q = .idle ∧ c.todo q = calls

/-- A context that has the lock can send the rest of its message and return. -/
private theorem exists_returned (hpc : c.pc q = .waiting bytes) :
    ∃ es, OnlyRuns q es ∧ (c.run es).Returned q (c.todo q) := by
  induction bytes generalizing c with
  | nil =>
    refine ⟨_, onlyRuns_access q 1, ?_⟩
    have hunlock : c.access q 0 =
        { c with lock := c.lock.unlock, pc := Function.update c.pc q .idle } := by
      simp only [access, hpc]
    change (c.access q 0).Returned q (c.todo q)
    rw [hunlock]
    exact ⟨Function.update_self .., rfl⟩
  | cons byte rest ih =>
    obtain ⟨es, hes, uart, hempty, hdrained⟩ := c.exists_drained q
    let c₁ : Writers ι :=
      { c with uart := uart.outb byte, pc := Function.update c.pc q (.waiting rest) }
    have hready : uart.lineStatus 0 &&& 0x20 ≠ 0 :=
      fun h => (uart.lineStatus_and_eq_zero 0).mp h hempty
    have hwrite : (c.run es).run (List.replicate 2 (.access q 0)) = c₁ := by
      rw [hdrained]
      simp [run, step, access, hpc, hready, c₁]
    obtain ⟨es', hes', hreturned⟩ := ih (c := c₁) (Function.update_self ..)
    refine ⟨es ++ List.replicate 2 (.access q 0) ++ es',
      (hes.append (onlyRuns_access q 2)).append hes', ?_⟩
    rw [run_append, run_append, hwrite]
    exact hreturned

/-- **A handler that writes hangs on the lock.** In every state that can be reached, let a context
`q` that is between calls interrupt the others and make a call: alone on the processor it can
come back from the call exactly when nobody it has interrupted has the lock. -/
theorem handler_returns_iff (prog : ι → List SerialCall) (es : List (SerialEvent ι)) (q : ι)
    (call : SerialCall) (calls : List SerialCall)
    (hq : ((init prog).run es).Returned q (call :: calls)) :
    (∃ es', OnlyRuns q es' ∧ (((init prog).run es).run es').Returned q calls) ↔
      ((init prog).run es).lock.held = false := by
  have h := (orderly_init prog).run es
  generalize (init prog).run es = c at h hq ⊢
  obtain ⟨hpc, htodo⟩ := hq
  constructor
  · rintro ⟨es', hes', hpc', htodo'⟩
    by_contra hheld
    obtain ⟨hclear, order, hserial⟩ := h
    obtain ⟨p, left, hp⟩ : ∃ p left, (c.pc p).place = .inside left := by
      by_contra hnone
      refine hheld (hserial.outside fun p => ?_).1
      cases hplace : (c.pc p).place with
      | outside => exact hplace
      | inside left => exact absurd ⟨p, left, hplace⟩ hnone
    have hne : p ≠ q := by
      rintro rfl
      simp [hpc] at hp
    have hsame := Orderly.blocked ⟨hclear, order, hserial⟩ hp hne hes'
    have hpending : (c.run es').pending q = c.pending q := congrArg (fun s => s.todo q) hsame
    have hlength := congrArg List.length hpending
    simp [pending, SerialPc.wants, hpc, hpc', htodo, htodo'] at hlength
  · intro hfree
    let c₁ : Writers ι :=
      { c with
        lock := ⟨true, c.lock.value⟩
        pc := Function.update c.pc q (.waiting call.bytes)
        todo := Function.update c.todo q calls }
    have henter : c.run (List.replicate 2 (.access q 0)) = c₁ := by
      simp [run, step, access, hpc, htodo, SpinLock.swap, hfree, c₁]
    obtain ⟨es', hes', hreturned⟩ := exists_returned (c := c₁) (Function.update_self ..)
    refine ⟨_, (onlyRuns_access q 2).append hes', ?_⟩
    rw [run_append, henter]
    simpa [c₁] using hreturned

/-- The main loop and a handler, each with one byte to send. -/
def twoWriters : Bool → List SerialCall
  | false => [.writeByte 0x61]
  | true => [.writeByte 0x21]

/-- The handler fires when the main loop has just got the lock. -/
theorem handler_hangs : ¬ ∃ es', OnlyRuns true es' ∧
    (((init twoWriters).run [.access false 0, .access false 0]).run es').Returned true [] := by
  rw [handler_returns_iff twoWriters _ true (.writeByte 0x21) [] ⟨rfl, rfl⟩]
  decide

end Writers

end LionOS.Console
