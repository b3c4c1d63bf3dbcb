import LionOS.Lib.Memory
import Mathlib.Data.List.Nodup
import Mathlib.Logic.Function.Basic
import Mathlib.Tactic.Cases

/-!
# A processor with registers, a stack and fast system calls

General-purpose registers, flags, code and stack selectors and a byte memory, with
the instructions that move words between registers and the stack and the ones that
change the privilege level: `syscall`, `sysretq` and `iretq`.
-/

namespace Lib

/-- A 64-bit machine word. -/
abbrev Word := BitVec 64

/-- Read the word at `a`. -/
def load (m : Mem) (a : Word) : Word := BitVec.ofNat 64 (read64 m a.toNat)

/-- Write the word `v` at `a`. -/
def store (m : Mem) (a v : Word) : Mem := write64 m a.toNat v.toNat

@[simp] theorem load_store_self (m : Mem) (a v : Word) : load (store m a v) a = v := by
  rw [load, store, read64_write64 m _ v.isLt, BitVec.ofNat_toNat, BitVec.setWidth_eq]

/-- A store is not seen by a load from another place. -/
theorem load_store_of_apart (m : Mem) {a b : Word} (v : Word)
    (h : a.toNat + 8 ≤ b.toNat ∨ b.toNat + 8 ≤ a.toNat) : load (store m b v) a = load m a := by
  rw [load, load, store, read64_write64_of_apart m _ h]

theorem store_of_outside (m : Mem) {a : Word} {x : Nat} (v : Word)
    (h : x < a.toNat ∨ a.toNat + 8 ≤ x) : store m a v x = m x :=
  write64_of_outside m _ h

theorem load_congr {m m' : Mem} {a : Word}
    (h : ∀ x, a.toNat ≤ x → x < a.toNat + 8 → m x = m' x) : load m a = load m' a := by
  rw [load, load, read64_congr h]

/-- The general-purpose registers. -/
inductive Reg where
  | rax | rbx | rcx | rdx | rsi | rdi | rbp | rsp
  | r8 | r9 | r10 | r11 | r12 | r13 | r14 | r15
  deriving DecidableEq, Repr

/-- The part of the processor's state that the instructions below touch. -/
structure Cpu where
  reg : Reg → Word
  rip : Word
  rflags : Word
  cs : BitVec 16
  ss : BitVec 16
  mem : Mem

/-- The model-specific registers of the fast system calls. -/
structure Msrs where
  star : Word
  lstar : Word
  sfmask : Word

namespace Cpu

/-- Load a register. -/
def set (c : Cpu) (r : Reg) (v : Word) : Cpu := { c with reg := Function.update c.reg r v }

/-- Copy a register. -/
def mov (c : Cpu) (dst src : Reg) : Cpu := c.set dst (c.reg src)

/-- Store a word to memory. -/
def write (c : Cpu) (a v : Word) : Cpu := { c with mem := store c.mem a v }

/-- Push a word. -/
def push (c : Cpu) (v : Word) : Cpu := (c.set .rsp (c.reg .rsp - 8#64)).write (c.reg .rsp - 8#64) v

/-- Pop a word into a register. -/
def pop (c : Cpu) (r : Reg) : Cpu :=
  (c.set .rsp (c.reg .rsp + 8#64)).set r (load c.mem (c.reg .rsp))

/-- Return to the address on top of the stack. -/
def ret (c : Cpu) : Cpu :=
  { c.set .rsp (c.reg .rsp + 8#64) with rip := load c.mem (c.reg .rsp) }

/-- The current privilege level. -/
def cpl (c : Cpu) : BitVec 16 := c.cs &&& 3#16

/-- Enter the kernel: the return address and flags go to registers, the stack stays. -/
def syscall (c : Cpu) (msrs : Msrs) : Cpu :=
  { (c.set .rcx c.rip).set .r11 c.rflags with
    rip := msrs.lstar
    rflags := c.rflags &&& ~~~msrs.sfmask
    cs := (msrs.star >>> 32).setWidth 16 &&& 0xFFFC#16
    ss := (msrs.star >>> 32).setWidth 16 + 8#16 }

/-- Return to ring 3 from the registers `syscall` filled. -/
def sysretq (c : Cpu) (msrs : Msrs) : Cpu :=
  { c with
    rip := c.reg .rcx
    rflags := (c.reg .r11 &&& 0x3C7FD7#64) ||| 2#64
    cs := ((msrs.star >>> 48).setWidth 16 + 16#16) ||| 3#16
    ss := ((msrs.star >>> 48).setWidth 16 + 8#16) ||| 3#16 }

/-- Return from an interrupt: pop the instruction pointer, the code selector, the flags,
the stack pointer and the stack selector. -/
def iretq (c : Cpu) : Cpu :=
  let sp := c.reg .rsp
  { c.set .rsp (load c.mem (sp + 24#64)) with
    rip := load c.mem sp
    cs := (load c.mem (sp + 8#64)).setWidth 16
    rflags := load c.mem (sp + 16#64)
    ss := (load c.mem (sp + 32#64)).setWidth 16 }

section

variable (c : Cpu) (r q : Reg) (a v : Word)

@[simp] theorem set_reg : (c.set r v).reg q = if q = r then v else c.reg q :=
  Function.update_apply ..

@[simp] theorem set_mem : (c.set r v).mem = c.mem := rfl

@[simp] theorem set_cs : (c.set r v).cs = c.cs := rfl

@[simp] theorem set_ss : (c.set r v).ss = c.ss := rfl

@[simp] theorem write_reg : (c.write a v).reg = c.reg := rfl

@[simp] theorem write_mem : (c.write a v).mem = store c.mem a v := rfl

@[simp] theorem push_reg : (c.push v).reg q = if q = .rsp then c.reg .rsp - 8#64 else c.reg q := by
  simp [push]

@[simp] theorem push_mem : (c.push v).mem = store c.mem (c.reg .rsp - 8#64) v := rfl

@[simp] theorem mov_reg : (c.mov r q).reg = Function.update c.reg r (c.reg q) := rfl

@[simp] theorem mov_mem : (c.mov r q).mem = c.mem := rfl

@[simp] theorem pop_mem : (c.pop r).mem = c.mem := rfl

theorem pop_reg : (c.pop r).reg q =
    if q = r then load c.mem (c.reg .rsp) else if q = .rsp then c.reg .rsp + 8#64 else c.reg q := by
  simp [pop]

end

end Cpu

/-- The registers a called function must preserve. -/
def calleeSaved : List Reg := [.rbx, .rbp, .r12, .r13, .r14, .r15]

/-- A function that obeys the calling convention on a stack that ends at `top`, from its
first instruction, with the return address on top of the stack, to the instruction
after the call. -/
structure Callee (top : Nat) where
  run : Cpu → Cpu
  saved : ∀ c, ∀ r ∈ calleeSaved, (run c).reg r = c.reg r
  rsp : ∀ c, (run c).reg .rsp = c.reg .rsp + 8#64
  rip : ∀ c, (run c).rip = load c.mem (c.reg .rsp)
  /-- The caller's part of the stack is not touched. -/
  frame : ∀ c x, (c.reg .rsp).toNat + 8 ≤ x → x < top → (run c).mem x = c.mem x

namespace Cpu

/-- Push registers, one after the other. -/
def pushAll (c : Cpu) : List Reg → Cpu
  | [] => c
  | r :: rs => (c.push (c.reg r)).pushAll rs

/-- Pop registers, one after the other. -/
def popAll (c : Cpu) : List Reg → Cpu
  | [] => c
  | r :: rs => (c.pop r).popAll rs

variable {c : Cpu} {rs : List Reg} {q r : Reg}

/-- Pushing moves the stack pointer and no other register. -/
theorem pushAll_reg (h : .rsp ∉ rs) : (c.pushAll rs).reg q =
    if q = .rsp then c.reg .rsp - BitVec.ofNat 64 (8 * rs.length) else c.reg q := by
  induction rs generalizing c with
  | nil =>
    by_cases hq : q = .rsp
    · simp [pushAll, hq]
    · simp [pushAll, hq]
  | cons r rs ih =>
    rw [pushAll, ih (fun hm => h (List.mem_cons_of_mem _ hm))]
    by_cases hq : q = .rsp
    · simp only [hq, if_true, push_reg, List.length_cons]
      bv_omega
    · simp only [hq, if_false, push_reg]

/-- Pushing writes below the stack pointer. -/
theorem pushAll_mem_of_outside {x : Nat} (h : .rsp ∉ rs)
    (hroom : 8 * rs.length ≤ (c.reg .rsp).toNat)
    (hx : x < (c.reg .rsp).toNat - 8 * rs.length ∨ (c.reg .rsp).toNat ≤ x) :
    (c.pushAll rs).mem x = c.mem x := by
  induction rs generalizing c with
  | nil => rfl
  | cons r rs ih =>
    simp only [List.length_cons] at hroom hx
    have hsp : ((c.push (c.reg r)).reg .rsp).toNat = (c.reg .rsp).toNat - 8 := by
      rw [push_reg, if_pos rfl]
      bv_omega
    have hlow : (c.reg .rsp - 8#64).toNat = (c.reg .rsp).toNat - 8 := by bv_omega
    rw [pushAll, ih (fun hm => h (List.mem_cons_of_mem _ hm)) (by omega) (by omega), push_mem]
    exact store_of_outside _ _ (by omega)

/-- The words below the stack pointer hold the registers, the last one lowest. -/
theorem load_pushAll {k : Nat} (h : .rsp ∉ rs) (hroom : 8 * rs.length ≤ (c.reg .rsp).toNat)
    (hk : k < rs.length) :
    load (c.pushAll rs).mem (c.reg .rsp - BitVec.ofNat 64 (8 * (k + 1))) = c.reg rs[k] := by
  induction rs generalizing c k with
  | nil => simp at hk
  | cons r rs ih =>
    obtain ⟨hr, hrs⟩ : r ≠ .rsp ∧ .rsp ∉ rs := by
      simp only [List.mem_cons, not_or] at h
      exact ⟨Ne.symm h.1, h.2⟩
    simp only [List.length_cons] at hroom hk
    have hsp : (c.push (c.reg r)).reg .rsp = c.reg .rsp - 8#64 := by rw [push_reg, if_pos rfl]
    have hnat : (c.reg .rsp - 8#64).toNat = (c.reg .rsp).toNat - 8 := by bv_omega
    cases k with
    | zero =>
      have hfirst : load (c.push (c.reg r)).mem (c.reg .rsp - 8#64) = c.reg r := by
        rw [push_mem, load_store_self]
      refine Eq.trans ?_ hfirst
      apply load_congr
      intro x hx hx'
      apply pushAll_mem_of_outside hrs
      · rw [hsp, hnat]
        omega
      · rw [hsp, hnat]
        right
        have : (c.reg .rsp - BitVec.ofNat 64 (8 * (0 + 1))).toNat = (c.reg .rsp).toNat - 8 := by
          bv_omega
        omega
    | succ k =>
      have hi := ih (c := c.push (c.reg r)) (k := k) hrs (by rw [hsp, hnat]; omega) (by omega)
      have hne : rs[k] ≠ .rsp := fun he => hrs (he ▸ List.getElem_mem (by omega))
      rw [hsp, push_reg, if_neg hne] at hi
      have hadr : c.reg .rsp - BitVec.ofNat 64 (8 * (k + 1 + 1)) =
          c.reg .rsp - 8#64 - BitVec.ofNat 64 (8 * (k + 1)) := by bv_omega
      rw [pushAll, List.getElem_cons_succ, ← hi, hadr]

theorem popAll_mem : (c.popAll rs).mem = c.mem := by
  induction rs generalizing c with
  | nil => rfl
  | cons r rs ih => rw [popAll, ih, pop_mem]

/-- Popping moves the stack pointer up. -/
theorem popAll_rsp (h : .rsp ∉ rs) :
    (c.popAll rs).reg .rsp = c.reg .rsp + BitVec.ofNat 64 (8 * rs.length) := by
  induction rs generalizing c with
  | nil => simp [popAll]
  | cons r rs ih =>
    simp only [List.mem_cons, not_or] at h
    rw [popAll, ih h.2, pop_reg, if_neg h.1, if_pos rfl, List.length_cons]
    bv_omega

/-- Registers that are not popped keep their value. -/
theorem popAll_reg_of_notMem (h : q ∉ rs) (hq : q ≠ .rsp) : (c.popAll rs).reg q = c.reg q := by
  induction rs generalizing c with
  | nil => rfl
  | cons r rs ih =>
    simp only [List.mem_cons, not_or] at h
    rw [popAll, ih h.2, pop_reg, if_neg h.1, if_neg hq]

/-- Registers are popped from the stack pointer upwards. -/
theorem popAll_reg {k : Nat} (h : .rsp ∉ rs) (hn : rs.Nodup) (hk : k < rs.length) :
    (c.popAll rs).reg rs[k] = load c.mem (c.reg .rsp + BitVec.ofNat 64 (8 * k)) := by
  induction rs generalizing c k with
  | nil => simp at hk
  | cons r rs ih =>
    simp only [List.mem_cons, not_or] at h
    obtain ⟨hr, hrs⟩ := List.nodup_cons.mp hn
    cases k with
    | zero =>
      rw [List.getElem_cons_zero, popAll, popAll_reg_of_notMem hr (Ne.symm h.1), pop_reg,
        if_pos rfl]
      simp
    | succ k =>
      have hadr : c.reg .rsp + 8#64 + BitVec.ofNat 64 (8 * k) =
          c.reg .rsp + BitVec.ofNat 64 (8 * (k + 1)) := by bv_omega
      rw [List.getElem_cons_succ, popAll, ih h.2 hrs (by simpa using hk), pop_mem, pop_reg,
        if_neg h.1, if_pos rfl, hadr]

end Cpu

end Lib
