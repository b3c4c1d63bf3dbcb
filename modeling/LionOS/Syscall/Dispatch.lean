import LionOS.Console.Serial
import LionOS.Ipc.Mailbox
import LionOS.User.UserRange

/-!
# The system call dispatcher

`syscall_dispatch` counts the call, acts on its number and reports on the serial
console. The one call that reads memory at an address the user passes is
`SYS_PUTS`. Its pointer goes through the range check of `user_copy_in`, so what the
console shows depends on no memory outside the recorded user range.
-/

namespace LionOS.Syscall

open Paging User Console Ipc

/-- System call numbers. -/
def sysExit : Nat := 0
def sysPutc : Nat := 1
def sysPuts : Nat := 2
def sysGetc : Nat := 3
def sysLedget : Nat := 4
def sysSleep : Nat := 5
def sysRecv : Nat := 6
def sysSend : Nat := 7

/-- The error for an unknown number. -/
def errnoEnosys : Int := -38

/-- What a system call reads and changes. -/
structure Kernel (σ : Type) where
  machine : Machine σ
  /-- The number of calls so far. -/
  syscalls : Nat
  mailbox : Mailbox
  range : UserRange

/-- What a system call shows: the bytes it sends to the console and the value it returns. -/
structure Reply where
  serial : List UInt8
  ret : Int
  deriving DecidableEq, Repr

variable {σ : Type}

/-- Copy at most 64 bytes from the user and print them; zero bytes when the copy is
refused. -/
def puts (a0 a1 : Nat) (k : Kernel σ) : Except Halt Reply := do
  let n := min a1 64
  let copied ← userCopyIn k.range k.machine a0 n
  let ok ← writeDec (if copied.isSome then 1 else 0)
  .ok ⟨writeStr "LIONOS_SYS_PUTS ok=" ++ ok ++ writeStr " str=\"" ++
    copied.getD (List.replicate n 0) ++ writeStr "\"\r\n", 0⟩

/-- Print the code selector the user passed and its stack pointer. -/
def getc (a0 userRsp : Nat) : Reply :=
  ⟨writeStr "LIONOS_USER_CS=" ++ writeHex a0 ++ writeStr " rstk=" ++ writeHex userRsp ++
    writeStr "\r\n", 0⟩

/-- Drain the mailbox and print the length and the first eight bytes of the message. -/
def recv (b : Mailbox) : Except Halt (Reply × Mailbox) := do
  let (b, tmp, n) := b.drain (List.replicate 8 0)
  let head := tmp.foldl (fun acc x => acc <<< 8 % 2 ^ 64 ||| x.toNat) 0
  let count ← writeDec n
  .ok (⟨writeStr "LIONOS_SHELL_READ n=" ++ count ++ writeStr " head=" ++ writeHex head ++
    writeStr "\r\n", 0⟩, b)

/-- Put an acknowledgement in the mailbox. -/
def send (b : Mailbox) : Except Halt (Reply × Mailbox) := do
  let (b, n) := b.send (writeStr "ok!")
  let count ← writeDec n
  .ok (⟨writeStr "LIONOS_SHELL_WROTE n=" ++ count ++ writeStr "\r\n", 0⟩, b)

/-- Print the number of calls. -/
def exit (count : Nat) : Except Halt Reply := do
  let count ← writeDec count
  .ok ⟨writeStr "LIONOS_USER_CALLS=" ++ count ++ writeStr "\r\n", 0⟩

/-- What the dispatcher does once the call is counted. -/
def serve (num a0 a1 userRsp : Nat) (k : Kernel σ) : Except Halt (Reply × Kernel σ) :=
  if num = sysPuts then do
    let r ← puts a0 a1 k
    .ok (r, k)
  else if num = sysGetc then .ok (getc a0 userRsp, k)
  else if num = sysRecv then do
    let (r, b) ← recv k.mailbox
    .ok (r, { k with mailbox := b })
  else if num = sysSend then do
    let (r, b) ← send k.mailbox
    .ok (r, { k with mailbox := b })
  else if num = sysPutc ∨ num = sysSleep ∨ num = sysLedget then .ok (⟨[], 0⟩, k)
  else if num = sysExit then do
    let r ← exit k.syscalls
    .ok (r, k)
  else .ok (⟨[], errnoEnosys⟩, k)

/-- The dispatcher. -/
def syscallDispatch (num a0 a1 _a2 _a3 userRsp : Nat) (k : Kernel σ) :
    Except Halt (Reply × Kernel σ) := do
  let count ← checked (k.syscalls + 1)
  serve num a0 a1 userRsp { k with syscalls := count }

/-- The ranges the kernel can have recorded: none yet, or that of a program it has
brought up. -/
inductive Recorded : UserRange → Prop
  | unset : Recorded ⟨0, 0⟩
  | loaded {σ : Type} [FrameSource σ] {cpu : Bool} {elf : Slice} {s : Machine σ} {l : Loaded σ}
      (h : bringUp cpu elf s = .ok (some l)) : Recorded l.range

/-- A recorded range ends at a page boundary, hence before the last machine word. -/
theorem Recorded.stop_lt {r : UserRange} (h : Recorded r) : r.stop < 2 ^ 64 - 1 := by
  cases h with
  | unset => decide
  | loaded h =>
    obtain ⟨i, n, segs, -, -, -, hl⟩ := bringUp_eq_ok h
    obtain ⟨-, hrange, htop⟩ := loadProgram_mapped hl
    rw [hrange]
    change i.val * 2 ^ 39 + stackIndex segs * 4096 + 4096 < 2 ^ 64 - 1
    omega

-- The sum in `user_copy_in` saturates at that word, so a range that ended there would let
-- every pointer above its start pass.
example : inUserRange ⟨4096, 2 ^ 64 - 1⟩ (2 ^ 64 - 1) 64 = true := by decide

/-- Two machines hold the same bytes in a range, and fault at the same addresses there. -/
def AgreeOn (r : UserRange) (s s' : Machine σ) : Prop :=
  ∀ a, r.start ≤ a → a < r.stop → s.loadByte a = s'.loadByte a

private theorem copyFrom_congr {s s' : Machine σ} {src n : Nat}
    (h : ∀ a, src ≤ a → a < src + n → s.loadByte a = s'.loadByte a) :
    s.copyFrom src n = s'.copyFrom src n := by
  induction n with
  | zero => rfl
  | succ n ih =>
    have hinit := ih fun a ha ha' => h a ha (by omega)
    have hlast := h (src + n) (by omega) (by omega)
    simp only [Machine.copyFrom, hinit, hlast]

/-- The copy from the user depends only on the recorded range. -/
theorem userCopyIn_congr {r : UserRange} {s s' : Machine σ} (hr : Recorded r)
    (h : AgreeOn r s s') (src n : Nat) : userCopyIn r s src n = userCopyIn r s' src n := by
  unfold userCopyIn
  by_cases hstart : r.start = 0
  · have hrefused : inUserRange r src n = false := by simp [inUserRange, hstart]
    simp [hrefused]
  cases hpass : inUserRange r src n with
  | false => simp
  | true =>
    obtain ⟨hlo, hhi⟩ := (inUserRange_iff hstart hr.stop_lt).mp hpass
    rw [copyFrom_congr fun a ha ha' => h a (by omega) (by omega)]

/-- The same kernel with another memory. -/
def Kernel.withMachine (k : Kernel σ) (s : Machine σ) : Kernel σ := { k with machine := s }

private theorem puts_congr {k : Kernel σ} {s : Machine σ} (hr : Recorded k.range)
    (h : AgreeOn k.range k.machine s) (a0 a1 : Nat) :
    puts a0 a1 (k.withMachine s) = puts a0 a1 k := by
  have hcopy := userCopyIn_congr hr h a0 (min a1 64)
  simp only [puts, Kernel.withMachine, hcopy]

/-- Serving a call does the same with another memory that agrees on the user range. -/
private theorem serve_withMachine {k : Kernel σ} {s : Machine σ} (hr : Recorded k.range)
    (h : AgreeOn k.range k.machine s) (num a0 a1 userRsp : Nat) :
    serve num a0 a1 userRsp (k.withMachine s) =
      (serve num a0 a1 userRsp k).map fun rk => (rk.1, rk.2.withMachine s) := by
  unfold serve
  by_cases hputs : num = sysPuts
  · rw [if_pos hputs, if_pos hputs, puts_congr hr h]
    cases puts a0 a1 k with
    | error e => rfl
    | ok r => rfl
  rw [if_neg hputs, if_neg hputs]
  split
  · rfl
  split
  · change (recv k.mailbox >>= _) = _
    cases recv k.mailbox with
    | error e => rfl
    | ok rb => rfl
  split
  · change (send k.mailbox >>= _) = _
    cases send k.mailbox with
    | error e => rfl
    | ok rb => rfl
  split
  · rfl
  split
  · change (exit k.syscalls >>= _) = _
    cases exit k.syscalls with
    | error e => rfl
    | ok r => rfl
  · rfl

theorem syscallDispatch_withMachine {k : Kernel σ} {s : Machine σ} (hr : Recorded k.range)
    (h : AgreeOn k.range k.machine s) (num a0 a1 a2 a3 userRsp : Nat) :
    syscallDispatch num a0 a1 a2 a3 userRsp (k.withMachine s) =
      (syscallDispatch num a0 a1 a2 a3 userRsp k).map fun rk => (rk.1, rk.2.withMachine s) := by
  change (checked (k.syscalls + 1) >>= _) = (checked (k.syscalls + 1) >>= _).map _
  cases checked (k.syscalls + 1) with
  | error e => rfl
  | ok count =>
    exact serve_withMachine (k := { k with syscalls := count }) hr h num a0 a1 userRsp

/-- Two kernels that differ only in memory outside the user range. -/
structure Kernel.Alike (k k' : Kernel σ) : Prop where
  range : k'.range = k.range
  mailbox : k'.mailbox = k.mailbox
  syscalls : k'.syscalls = k.syscalls
  memory : AgreeOn k.range k.machine k'.machine

theorem Kernel.Alike.eq_withMachine {k k' : Kernel σ} (h : k.Alike k') :
    k' = k.withMachine k'.machine := by
  obtain ⟨s', syscalls', mailbox', range'⟩ := k'
  obtain ⟨rfl, rfl, rfl, -⟩ := h
  rfl

/-- **A system call shows nothing outside the user range.** For every recorded range,
whatever the number and the arguments, two kernels that agree on the range, the mailbox
and the counter send the same bytes to the console and return the same value. -/
theorem syscallDispatch_shows_user_range {k k' : Kernel σ} (hr : Recorded k.range)
    (h : k.Alike k') (num a0 a1 a2 a3 userRsp : Nat) :
    (syscallDispatch num a0 a1 a2 a3 userRsp k').map Prod.fst =
      (syscallDispatch num a0 a1 a2 a3 userRsp k).map Prod.fst := by
  rw [h.eq_withMachine, syscallDispatch_withMachine hr h.memory]
  cases syscallDispatch num a0 a1 a2 a3 userRsp k with
  | error e => rfl
  | ok rk => rfl

/-- An address below a blank top-level entry cannot be read. -/
theorem loadByte_of_blank {s : Machine σ} {a : Nat}
    (h : tableRead s.mem s.pml4 (index4 a) = 0) : s.loadByte a = none := by
  unfold Machine.loadByte Machine.physical
  rw [h]
  split <;> rfl

/-- The boot machine with another byte at address zero. -/
def secretMachine : Machine Frames.FrameAllocator :=
  bootMachine.setMem (setByte bootMachine.mem 0 0x53)

/-- A pointer to the last byte of memory, past every range, prints the same whatever the
rest of memory holds. -/
theorem puts_past_user_range :
    ∃ l, bringUp true (textElf 0 2) bootMachine = .ok (some l) ∧
      (syscallDispatch sysPuts (2 ^ 64 - 1) 64 0 0 0 ⟨secretMachine, 0, Mailbox.new, l.range⟩).map
          Prod.fst =
        (syscallDispatch sysPuts (2 ^ 64 - 1) 64 0 0 0 ⟨bootMachine, 0, Mailbox.new, l.range⟩).map
          Prod.fst := by
  have hsegs : (loadSegments (textElf 0 2) []).toOption = some (1, [textSegment 0 2]) := by
    decide +kernel
  have hentry : entryPoint (textElf 0 2) = some 0 := by decide +kernel
  obtain ⟨l, -, -, hup, hl, -⟩ := bringUp_text (by decide) (by decide) hentry (by decide) hsegs
  have hrange : l.range = ⟨0x8000000000, 0x8000002000⟩ := (loadProgram_mapped hl).2.1
  have hagree : AgreeOn l.range bootMachine secretMachine := by
    intro a ha ha'
    rw [hrange] at ha ha'
    change 0x8000000000 ≤ a at ha
    change a < 0x8000002000 at ha'
    have hindex : index4 a = 1 := by
      apply Fin.ext
      rw [index4, indexAt_val]
      change a / 2 ^ 39 % 512 = 1
      omega
    -- The region's top-level entry is blank in both memories.
    have hboot : bootMachine.loadByte a = none := by
      apply loadByte_of_blank
      rw [hindex]
      decide +kernel
    have hsecret : secretMachine.loadByte a = none := by
      apply loadByte_of_blank
      rw [hindex]
      decide +kernel
    rw [hboot, hsecret]
  have halike : Kernel.Alike ⟨bootMachine, 0, Mailbox.new, l.range⟩
      ⟨secretMachine, 0, Mailbox.new, l.range⟩ := ⟨rfl, rfl, rfl, hagree⟩
  exact ⟨l, hup, syscallDispatch_shows_user_range (.loaded hup) halike ..⟩

/-- The arguments of a system call. -/
structure Call where
  num : Nat
  a0 : Nat
  a1 : Nat
  a2 : Nat
  a3 : Nat
  userRsp : Nat

/-- What a sequence of system calls shows, up to the first that stops the kernel. -/
def replies : List Call → Kernel σ → List (Except Halt Reply)
  | [], _ => []
  | c :: calls, k =>
    match syscallDispatch c.num c.a0 c.a1 c.a2 c.a3 c.userRsp k with
    | .error e => [.error e]
    | .ok (r, k) => .ok r :: replies calls k

/-- No call changes memory or the range. -/
theorem syscallDispatch_keeps {num a0 a1 a2 a3 userRsp : Nat} {k k' : Kernel σ} {r : Reply}
    (h : syscallDispatch num a0 a1 a2 a3 userRsp k = .ok (r, k')) :
    k'.machine = k.machine ∧ k'.range = k.range := by
  obtain ⟨count, -, h⟩ := bind_eq_ok.mp h
  unfold serve at h
  split at h
  · obtain ⟨r, -, h⟩ := bind_eq_ok.mp h
    cases h
    exact ⟨rfl, rfl⟩
  split at h
  · cases h
    exact ⟨rfl, rfl⟩
  split at h
  · obtain ⟨⟨r, b⟩, -, h⟩ := bind_eq_ok.mp h
    cases h
    exact ⟨rfl, rfl⟩
  split at h
  · obtain ⟨⟨r, b⟩, -, h⟩ := bind_eq_ok.mp h
    cases h
    exact ⟨rfl, rfl⟩
  split at h
  · cases h
    exact ⟨rfl, rfl⟩
  split at h
  · obtain ⟨r, -, h⟩ := bind_eq_ok.mp h
    cases h
    exact ⟨rfl, rfl⟩
  · cases h
    exact ⟨rfl, rfl⟩

/-- Nor does any sequence of calls show anything outside the range. -/
theorem replies_withMachine {k : Kernel σ} {s : Machine σ} (hr : Recorded k.range)
    (h : AgreeOn k.range k.machine s) (calls : List Call) :
    replies calls (k.withMachine s) = replies calls k := by
  induction calls generalizing k with
  | nil => rfl
  | cons c calls ih =>
    simp only [replies, syscallDispatch_withMachine hr h]
    cases hc : syscallDispatch c.num c.a0 c.a1 c.a2 c.a3 c.userRsp k with
    | error e => rfl
    | ok rk =>
      obtain ⟨r, k₁⟩ := rk
      obtain ⟨hm, hrange⟩ := syscallDispatch_keeps hc
      have htail : replies calls (k₁.withMachine s) = replies calls k₁ := by
        apply ih
        · rwa [hrange]
        · rwa [hrange, hm]
      exact congrArg (Except.ok r :: ·) htail

end LionOS.Syscall
