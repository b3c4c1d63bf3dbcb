import LionOS.Gdt.Descriptors
import LionOS.Lib.X86

/-!
# The system-call entry stub

`lion_syscall_entry` is reached from ring 3 on the user's stack. It keeps the user
stack pointer in `r13`, switches to the kernel stack, saves what `sysretq` needs,
calls the dispatcher with the user's arguments and returns.
-/

namespace LionOS.Syscall

open Lib

/-- The `STAR` register: kernel code selector in bits 32 to 47, user base above. -/
def starValue : Word :=
  (BitVec.ofNat 64 Gdt.userCode <<< 48) ||| (BitVec.ofNat 64 Gdt.kernelCode <<< 32)

/-- The flags cleared on entry: interrupts. -/
def sfmaskValue : Word := 1 <<< 9

/-- The registers `enable` programs. -/
def enable (lstar : Word) : Msrs := ⟨starValue, lstar, sfmaskValue⟩

/-- The stub up to the call: the state in which the dispatcher is called. -/
def entryArguments (c : Cpu) (kstack : Word) : Cpu :=
  let c := c.mov .r13 .rsp
  let c := c.set .rsp kstack
  let c := c.push (c.reg .rcx)
  let c := c.push (c.reg .r11)
  let c := c.push (c.reg .r13)
  let c := c.mov .r9 .r13
  let c := c.mov .r8 .r10
  let c := c.mov .rcx .rdx
  let c := c.mov .rdx .rsi
  let c := c.mov .rsi .rdi
  c.mov .rdi .rax

/-- The stub from the return of the dispatcher on. -/
def entryReturn (c : Cpu) (msrs : Msrs) : Cpu :=
  let c := c.pop .r13
  let c := c.pop .r11
  let c := c.pop .rcx
  let c := c.mov .rsp .r13
  c.sysretq msrs

/-- The state after the dispatcher, called from the stub with return address `back`. -/
def dispatched {top : Nat} (c : Cpu) (kstack back : Word) (dispatch : Callee top) : Cpu :=
  dispatch.run ((entryArguments c kstack).push back)

/-- The whole stub. -/
def lionSyscallEntry {top : Nat} (c : Cpu) (kstack back : Word) (msrs : Msrs)
    (dispatch : Callee top) : Cpu :=
  entryReturn (dispatched c kstack back dispatch) msrs

/-- A ring-3 state at a `syscall` instruction; `rip` is the address behind it. Flags that
`sysretq` cannot restore are clear in ring 3 and bit 1 is always set. -/
structure UserState extends Cpu where
  rflags_valid : (rflags &&& 0x3C7FD7#64) ||| 2#64 = rflags

/-- The kernel stack of the stub, with room for its frame. -/
structure KernelStack where
  top : Word
  /-- The stack is 8192 bytes long. -/
  room : 8192 ≤ top.toNat

section

variable (c : Cpu) (k : KernelStack) (back : Word) (dispatch : Callee k.top.toNat)

/-- Registers at the call. -/
theorem entryArguments_reg (r : Reg) : (entryArguments c k.top).reg r =
    match r with
    | .rdi => c.reg .rax
    | .rsi => c.reg .rdi
    | .rdx => c.reg .rsi
    | .rcx => c.reg .rdx
    | .r8 => c.reg .r10
    | .r9 => c.reg .rsp
    | .r13 => c.reg .rsp
    | .rsp => k.top - 24#64
    | r => c.reg r := by
  cases r <;> simp [entryArguments]
  bv_omega

/-- Memory at the call: the frame holds what `sysretq` needs. -/
theorem entryArguments_mem : (entryArguments c k.top).mem =
    store (store (store c.mem (k.top - 8#64) (c.reg .rcx)) (k.top - 16#64) (c.reg .r11))
      (k.top - 24#64)
      (c.reg .rsp) := by
  have h1 : k.top - 8#64 - 8#64 = k.top - 16#64 := by bv_omega
  have h2 : k.top - 16#64 - 8#64 = k.top - 24#64 := by bv_omega
  simp [entryArguments, h1, h2]

/-- The frame survives the dispatcher. -/
private theorem load_dispatched {a : Word} (h : k.top.toNat - 24 ≤ a.toNat)
    (h' : a.toNat + 8 ≤ k.top.toNat) :
    load (dispatched c k.top back dispatch).mem a = load (entryArguments c k.top).mem a := by
  have hroom := k.room
  have hrsp : ((entryArguments c k.top).push back).reg .rsp = k.top - 32#64 := by
    rw [Cpu.push_reg, if_pos rfl, entryArguments_reg]
    bv_omega
  have hnat : (k.top - 32#64).toNat = k.top.toNat - 32 := by bv_omega
  have hsp : ((entryArguments c k.top).reg .rsp - 8#64).toNat = k.top.toNat - 32 := by
    rw [entryArguments_reg]
    bv_omega
  apply load_congr
  intro x hx hx'
  rw [dispatched, dispatch.frame _ x (by rw [hrsp, hnat]; omega) (by omega), Cpu.push_mem]
  exact store_of_outside _ _ (by rw [hsp]; omega)

/-- What is popped after the dispatcher is what was pushed before it. -/
theorem frame_dispatched :
    load (dispatched c k.top back dispatch).mem (k.top - 24#64) = c.reg .rsp ∧
      load (dispatched c k.top back dispatch).mem (k.top - 16#64) = c.reg .r11 ∧
      load (dispatched c k.top back dispatch).mem (k.top - 8#64) = c.reg .rcx := by
  have hroom := k.room
  have h8 : (k.top - 8#64).toNat = k.top.toNat - 8 := by bv_omega
  have h16 : (k.top - 16#64).toNat = k.top.toNat - 16 := by bv_omega
  have h24 : (k.top - 24#64).toNat = k.top.toNat - 24 := by bv_omega
  refine ⟨?_, ?_, ?_⟩
  · rw [load_dispatched _ _ _ _ (by omega) (by omega), entryArguments_mem, load_store_self]
  · rw [load_dispatched _ _ _ _ (by omega) (by omega), entryArguments_mem,
      load_store_of_apart _ _ (by omega), load_store_self]
  · rw [load_dispatched _ _ _ _ (by omega) (by omega), entryArguments_mem,
      load_store_of_apart _ _ (by omega), load_store_of_apart _ _ (by omega), load_store_self]

/-- Registers the stub's return path does not touch. -/
theorem entryReturn_reg (msrs : Msrs) {r : Reg} (h : r ∉ [Reg.rsp, .r13, .r11, .rcx]) :
    (entryReturn c msrs).reg r = c.reg r := by
  simp only [List.mem_cons, List.not_mem_nil, or_false, not_or] at h
  simp [entryReturn, Cpu.sysretq, Cpu.pop_reg, h]

/-- Registers the stub leaves as the dispatcher does and the dispatcher as the user did. -/
theorem lionSyscallEntry_saved (msrs : Msrs) {r : Reg} (hr : r ∈ calleeSaved) (hne : r ≠ .r13) :
    (lionSyscallEntry c k.top back msrs dispatch).reg r = c.reg r := by
  have hsaved : (dispatched c k.top back dispatch).reg r = (entryArguments c k.top).reg r := by
    rw [dispatched, dispatch.saved _ r hr, Cpu.push_reg, if_neg]
    rintro rfl
    exact absurd hr (by decide)
  have hout : r ∉ [Reg.rsp, .r13, .r11, .rcx] := by
    revert hr hne
    cases r <;> decide
  rw [lionSyscallEntry, entryReturn_reg _ _ hout, hsaved, entryArguments_reg]
  revert hr hne
  cases r <;> simp [calleeSaved]

/-- The stub, seen from the state `syscall` leaves: the stack pointer, the return address
and the flags come back, and `r13` is left with the stack pointer. -/
theorem lionSyscallEntry_spec (msrs : Msrs) :
    let f := lionSyscallEntry c k.top back msrs dispatch
    f.rip = c.reg .rcx ∧ f.rflags = (c.reg .r11 &&& 0x3C7FD7#64) ||| 2#64 ∧
      f.reg .rsp = c.reg .rsp ∧ f.reg .r13 = c.reg .rsp ∧
      f.reg .rax = (dispatched c k.top back dispatch).reg .rax := by
  intro f
  obtain ⟨hsp, h11, hcx⟩ := frame_dispatched c k back dispatch
  have hrsp : (dispatched c k.top back dispatch).reg .rsp = k.top - 24#64 := by
    rw [dispatched, dispatch.rsp, Cpu.push_reg, if_pos rfl, entryArguments_reg]
    bv_omega
  have h1 : k.top - 24#64 + 8#64 = k.top - 16#64 := by bv_omega
  have h2 : k.top - 16#64 + 8#64 = k.top - 8#64 := by bv_omega
  refine ⟨?_, ?_, ?_, ?_, ?_⟩
  · simp [f, lionSyscallEntry, entryReturn, Cpu.sysretq, Cpu.pop_reg, hrsp, h1, h2, hcx]
  · simp [f, lionSyscallEntry, entryReturn, Cpu.sysretq, Cpu.pop_reg, hrsp, h1, h11]
  · simp [f, lionSyscallEntry, entryReturn, Cpu.sysretq, Cpu.pop_reg, hrsp, hsp]
  · simp [f, lionSyscallEntry, entryReturn, Cpu.sysretq, Cpu.pop_reg, hrsp, hsp]
  · exact entryReturn_reg _ _ (by decide)

end

/-- A system call made in state `u` passes the user's arguments, returns behind the
instruction with the dispatcher's result and keeps the callee-saved registers. -/
structure PreservesContext (u : UserState) (k : KernelStack) (back : Word) (msrs : Msrs)
    (dispatch : Callee k.top.toNat) : Prop where
  arguments : ((entryArguments (u.syscall msrs) k.top).reg .rdi = u.reg .rax ∧
    (entryArguments (u.syscall msrs) k.top).reg .rsi = u.reg .rdi ∧
    (entryArguments (u.syscall msrs) k.top).reg .rdx = u.reg .rsi ∧
    (entryArguments (u.syscall msrs) k.top).reg .rcx = u.reg .rdx ∧
    (entryArguments (u.syscall msrs) k.top).reg .r8 = u.reg .r10 ∧
    (entryArguments (u.syscall msrs) k.top).reg .r9 = u.reg .rsp)
  rip : (lionSyscallEntry (u.syscall msrs) k.top back msrs dispatch).rip = u.rip
  rflags : (lionSyscallEntry (u.syscall msrs) k.top back msrs dispatch).rflags = u.rflags
  result : (lionSyscallEntry (u.syscall msrs) k.top back msrs dispatch).reg .rax =
    (dispatched (u.syscall msrs) k.top back dispatch).reg .rax
  saved : ∀ r ∈ [Reg.rbx, .rbp, .rsp, .r12, .r13, .r14, .r15],
    (lionSyscallEntry (u.syscall msrs) k.top back msrs dispatch).reg r = u.reg r

/-- Registers `syscall` does not fill keep the user's values. -/
theorem syscall_reg (u : Cpu) (msrs : Msrs) {r : Reg} (h : r ≠ .rcx) (h' : r ≠ .r11) :
    (u.syscall msrs).reg r = u.reg r := by
  simp [Cpu.syscall, h, h']

/-- Every callee-saved register but `r13` comes back to the user. -/
private theorem lionSyscallEntry_user (u : Cpu) (k : KernelStack) (back : Word) (msrs : Msrs)
    (dispatch : Callee k.top.toNat) {r : Reg} (hr : r ∈ calleeSaved) (hne : r ≠ .r13) :
    (lionSyscallEntry (u.syscall msrs) k.top back msrs dispatch).reg r = u.reg r := by
  rw [lionSyscallEntry_saved _ _ _ _ _ hr hne]
  apply syscall_reg
  · rintro rfl
    exact absurd hr (by decide)
  · rintro rfl
    exact absurd hr (by decide)

/-- **A system call preserves the user's context exactly when `r13` held the stack
pointer.** Everything else the convention promises always holds. -/
theorem preservesContext_iff (u : UserState) (k : KernelStack) (back : Word) (msrs : Msrs)
    (dispatch : Callee k.top.toNat) :
    PreservesContext u k back msrs dispatch ↔ u.reg .r13 = u.reg .rsp := by
  obtain ⟨hrip, hflags, hrsp, h13, hrax⟩ :=
    lionSyscallEntry_spec (u.syscall msrs) k back dispatch msrs
  have hsp : (u.syscall msrs).reg .rsp = u.reg .rsp := syscall_reg _ _ (by decide) (by decide)
  constructor
  · intro h
    rw [← h.saved .r13 (by decide), h13, hsp]
  · intro h
    refine ⟨?_, ?_, ?_, hrax, ?_⟩
    · simp only [entryArguments_reg]
      refine ⟨?_, ?_, ?_, ?_, ?_, ?_⟩ <;> exact syscall_reg _ _ (by decide) (by decide)
    · rw [hrip]
      simp [Cpu.syscall]
    · rw [hflags]
      simpa [Cpu.syscall] using u.rflags_valid
    · intro r hr
      by_cases hs : r = .rsp
      · rw [hs, hrsp, hsp]
      · by_cases h3 : r = .r13
        · rw [h3, h13, hsp, h]
        · apply lionSyscallEntry_user _ _ _ _ _ _ h3
          revert hr hs
          cases r <;> decide

/-- A dispatcher that returns zero and touches nothing. -/
def quietDispatch (top : Nat) : Callee top where
  run c := (c.set .rax 0#64).ret
  saved c r hr := by
    have hs : r ≠ .rsp := by
      rintro rfl
      exact absurd hr (by decide)
    have ha : r ≠ .rax := by
      rintro rfl
      exact absurd hr (by decide)
    simp [Cpu.ret, hs, ha]
  rsp c := by simp [Cpu.ret]
  rip c := by simp [Cpu.ret]
  frame c x _ _ := rfl

/-- A user program that keeps a counter in `r13`. -/
def counterUser : UserState where
  reg r := match r with
    | .rsp => 0x8000003000#64
    | .r13 => 7#64
    | _ => 0#64
  rip := 0x8000001020#64
  rflags := 2#64
  cs := 0x2B#16
  ss := 0x33#16
  mem := fun _ => 0
  rflags_valid := by decide

/-- After a system call the counter holds the user's stack pointer. -/
theorem counter_clobbered :
    let k : KernelStack := ⟨0xFFFF800000002000#64, by decide⟩
    let msrs := enable 0xFFFF800000100000#64
    let dispatch := quietDispatch k.top.toNat
    (lionSyscallEntry (counterUser.syscall msrs) k.top 0 msrs dispatch).reg .r13 =
        0x8000003000#64 ∧
      ¬ PreservesContext counterUser k 0 msrs dispatch := by
  intro k msrs dispatch
  obtain ⟨-, -, -, h13, -⟩ := lionSyscallEntry_spec (counterUser.syscall msrs) k 0 dispatch msrs
  have hsp : (counterUser.syscall msrs).reg .rsp = 0x8000003000#64 := by
    rw [syscall_reg _ _ (by decide) (by decide)]
    rfl
  refine ⟨h13.trans hsp, fun h => ?_⟩
  have hbad := h.saved .r13 (by decide)
  rw [h13, hsp] at hbad
  exact absurd hbad (by decide)

end LionOS.Syscall
