import LionOS.Syscall.Dispatch
import LionOS.Syscall.Entry
import Mathlib.Logic.Relation

/-!
# The flags the kernel runs with

`syscall` clears the flags named in `SFMASK` and leaves the others as ring 3 had them.
The kernel opens the SMAP window with `stac` only around the copy of `user_copy_in`. The
states below are the points a system call goes through; between two instructions that the
source spells out, compiled code may change anything but `AC` and `DF`.
-/

namespace LionOS.Syscall

open Lib User

/-- The alignment-check flag, which with SMAP lets ring 0 touch user pages. -/
def acFlag (c : Cpu) : Bool := c.rflags.getLsbD 18

/-- The direction flag. -/
def dfFlag (c : Cpu) : Bool := c.rflags.getLsbD 10

/-- `lion_stac`. -/
def stac (c : Cpu) : Cpu := { c with rflags := c.rflags ||| (1#64 <<< 18) }

/-- `lion_clac`. -/
def clac (c : Cpu) : Cpu := { c with rflags := c.rflags &&& ~~~(1#64 <<< 18) }

/-- The instructions of the entry stub before the call of the dispatcher. -/
def entryInstructions (kstack : Word) : List (Cpu → Cpu) :=
  [fun c => c.mov .r13 .rsp,
   fun c => c.set .rsp kstack,
   fun c => c.push (c.reg .rcx),
   fun c => c.push (c.reg .r11),
   fun c => c.push (c.reg .r13),
   fun c => c.mov .r9 .r13,
   fun c => c.mov .r8 .r10,
   fun c => c.mov .rcx .rdx,
   fun c => c.mov .rdx .rsi,
   fun c => c.mov .rsi .rdi,
   fun c => c.mov .rdi .rax]

/-- The instructions of the stub between the dispatcher's return and `sysretq`. -/
def returnInstructions : List (Cpu → Cpu) :=
  [fun c => c.pop .r13, fun c => c.pop .r11, fun c => c.pop .rcx, fun c => c.mov .rsp .r13]

theorem foldl_entryInstructions (c : Cpu) (kstack : Word) :
    (entryInstructions kstack).foldl (fun c i => i c) c = entryArguments c kstack := rfl

theorem foldl_returnInstructions (c : Cpu) (msrs : Msrs) :
    (returnInstructions.foldl (fun c i => i c) c).sysretq msrs = entryReturn c msrs := rfl

/-- No instruction of the stub changes the flags. -/
theorem entryInstructions_rflags {kstack : Word} {i : Cpu → Cpu}
    (h : i ∈ entryInstructions kstack) (c : Cpu) : (i c).rflags = c.rflags := by
  simp only [entryInstructions, List.mem_cons, List.not_mem_nil, or_false] at h
  rcases h with rfl | rfl | rfl | rfl | rfl | rfl | rfl | rfl | rfl | rfl | rfl <;> rfl

theorem returnInstructions_rflags {i : Cpu → Cpu} (h : i ∈ returnInstructions) (c : Cpu) :
    (i c).rflags = c.rflags := by
  simp only [returnInstructions, List.mem_cons, List.not_mem_nil, or_false] at h
  rcases h with rfl | rfl | rfl | rfl <;> rfl

/-- A flag that `SFMASK` does not name goes into the kernel as it was. -/
theorem getLsbD_syscall (c : Cpu) (lstar : Word) {i : Nat} (hi : i < 64)
    (h : sfmaskValue.getLsbD i = false) :
    (c.syscall (enable lstar)).rflags.getLsbD i = c.rflags.getLsbD i := by
  change (c.rflags &&& ~~~sfmaskValue).getLsbD i = _
  rw [BitVec.getLsbD_and, BitVec.getLsbD_not, h, decide_eq_true hi, Bool.not_false, Bool.and_true,
    Bool.and_true]

theorem acFlag_syscall (c : Cpu) (lstar : Word) : acFlag (c.syscall (enable lstar)) = acFlag c :=
  getLsbD_syscall c lstar (by decide) (by decide)

theorem dfFlag_syscall (c : Cpu) (lstar : Word) : dfFlag (c.syscall (enable lstar)) = dfFlag c :=
  getLsbD_syscall c lstar (by decide) (by decide)

theorem dfFlag_stac (c : Cpu) : dfFlag (stac c) = dfFlag c := by
  rw [dfFlag, stac, BitVec.getLsbD_or]
  exact Bool.or_false _

theorem acFlag_clac (c : Cpu) : acFlag (clac c) = false := by
  rw [acFlag, clac, BitVec.getLsbD_and]
  exact Bool.and_false _

theorem dfFlag_clac (c : Cpu) : dfFlag (clac c) = dfFlag c := by
  rw [dfFlag, clac, BitVec.getLsbD_and]
  exact Bool.and_true _

/-- The machine between two steps: in ring 3, in the stub, at the first instruction of the
dispatcher, in it before the copy, in the SMAP window, in it after the copy, and in the
stub on the way back. -/
inductive Point where
  | user (u : UserState)
  | stub (rest : List (Cpu → Cpu)) (c : Cpu)
  | entered (c : Cpu)
  | serving (num a0 a1 : Word) (c : Cpu)
  | window (c : Cpu)
  | served (c : Cpu)
  | leaving (rest : List (Cpu → Cpu)) (c : Cpu)

/-- What bring-up has set: the entry address, the kernel stack, whether SMAP is on and the
user range; and the address behind the call in the stub. -/
structure Setup where
  lstar : Word
  kstack : Word
  smap : Bool
  range : UserRange
  back : Word

/-- Compiled code leaves both flags alone. -/
def KeepsFlags (c c' : Cpu) : Prop := acFlag c' = acFlag c ∧ dfFlag c' = dfFlag c

/-- The call gets as far as the copy of `user_copy_in`. -/
def Copies (r : UserRange) (num a0 a1 : Word) : Prop :=
  num.toNat = sysPuts ∧ inUserRange r a0.toNat (min a1.toNat 64) = true

/-- One step. Ring 3 makes system calls in the states `may` holds of. -/
inductive CallStep (k : Setup) (may : UserState → Prop) : Point → Point → Prop
  | run (u u' : UserState) : CallStep k may (.user u) (.user u')
  | syscall {u : UserState} (h : may u) :
    CallStep k may (.user u) (.stub (entryInstructions k.kstack) (u.syscall (enable k.lstar)))
  | stub (i : Cpu → Cpu) (rest : List (Cpu → Cpu)) (c : Cpu) :
    CallStep k may (.stub (i :: rest) c) (.stub rest (i c))
  | call (c : Cpu) : CallStep k may (.stub [] c) (.entered (c.push k.back))
  | enter {c c' : Cpu} (h : KeepsFlags c c') :
    CallStep k may (.entered c) (.serving (c.reg .rdi) (c.reg .rsi) (c.reg .rdx) c')
  | serve {num a0 a1 : Word} {c c' : Cpu} (h : KeepsFlags c c') :
    CallStep k may (.serving num a0 a1 c) (.serving num a0 a1 c')
  | stac {num a0 a1 : Word} {c : Cpu} (hsmap : k.smap) (h : Copies k.range num a0 a1) :
    CallStep k may (.serving num a0 a1 c) (.window (stac c))
  | copy {c c' : Cpu} (h : KeepsFlags c c') : CallStep k may (.window c) (.window c')
  | clac (c : Cpu) : CallStep k may (.window c) (.served (clac c))
  | pass {num a0 a1 : Word} {c : Cpu} (h : ¬ (k.smap ∧ Copies k.range num a0 a1)) :
    CallStep k may (.serving num a0 a1 c) (.served c)
  | finish {c c' : Cpu} (h : KeepsFlags c c') : CallStep k may (.served c) (.served c')
  | ret (c : Cpu) : CallStep k may (.served c) (.leaving returnInstructions c.ret)
  | leave (i : Cpu → Cpu) (rest : List (Cpu → Cpu)) (c : Cpu) :
    CallStep k may (.leaving (i :: rest) c) (.leaving rest (i c))
  | sysret {c : Cpu} {u : UserState} (h : u.toCpu = c.sysretq (enable k.lstar)) :
    CallStep k may (.leaving [] c) (.user u)

variable {k : Setup} {may : UserState → Prop}

/-- With SMAP on, `AC` is clear in ring 0 outside the window, and `DF` is clear at the
first instruction of the dispatcher. -/
def Guarded (smap : Bool) : Point → Prop
  | .user _ => True
  | .entered c => (smap → acFlag c = false) ∧ dfFlag c = false
  | .window _ => True
  | .stub _ c | .serving _ _ _ c | .served c | .leaving _ c => smap → acFlag c = false

/-- Both flags are clear in the kernel. -/
def Clear (smap : Bool) (c : Cpu) : Prop := (smap → acFlag c = false) ∧ dfFlag c = false

/-- What every point of a run keeps: both flags clear, up to `AC` in the window, and only
instructions of the stub still to run. -/
def Kept (k : Setup) : Point → Prop
  | .user _ => True
  | .stub rest c => (∀ i ∈ rest, i ∈ entryInstructions k.kstack) ∧ Clear k.smap c
  | .entered c | .serving _ _ _ c | .served c => Clear k.smap c
  | .window c => dfFlag c = false
  | .leaving rest c => (∀ i ∈ rest, i ∈ returnInstructions) ∧ Clear k.smap c

theorem Clear.of_rflags {smap : Bool} {c c' : Cpu} (h : Clear smap c)
    (hflags : c'.rflags = c.rflags) : Clear smap c' := by
  simpa only [Clear, acFlag, dfFlag, hflags] using h

theorem Clear.of_keepsFlags {smap : Bool} {c c' : Cpu} (h : Clear smap c)
    (hflags : KeepsFlags c c') : Clear smap c' := by
  obtain ⟨hac, hdf⟩ := hflags
  simpa only [Clear, hac, hdf] using h

theorem Kept.guarded {p : Point} (h : Kept k p) : Guarded k.smap p := by
  cases p with
  | user u => trivial
  | stub rest c => exact h.2.1
  | entered c => exact h
  | serving num a0 a1 c => exact h.1
  | window c => trivial
  | served c => exact h.1
  | leaving rest c => exact h.2.1

/-- A step keeps the flags clear if ring 3 makes its calls with them clear. -/
theorem Kept.step (hmay : ∀ u, may u → Clear k.smap u.toCpu) {p p' : Point} (h : Kept k p)
    (hstep : CallStep k may p p') : Kept k p' := by
  cases hstep with
  | run u u' => trivial
  | syscall hu =>
    refine ⟨fun i hi => hi, ?_⟩
    rw [Clear, acFlag_syscall, dfFlag_syscall]
    exact hmay _ hu
  | stub i rest c =>
    refine ⟨fun j hj => h.1 j (List.mem_cons_of_mem _ hj), ?_⟩
    exact h.2.of_rflags (entryInstructions_rflags (h.1 i List.mem_cons_self) c)
  | call c => exact h.2.of_rflags rfl
  | enter hkeep => exact h.of_keepsFlags hkeep
  | serve hkeep => exact h.of_keepsFlags hkeep
  | stac hsmap hcopies => exact (dfFlag_stac _).trans h.2
  | copy hkeep => exact hkeep.2.trans h
  | clac c => exact ⟨fun _ => acFlag_clac c, (dfFlag_clac c).trans h⟩
  | pass hnot => exact h
  | finish hkeep => exact h.of_keepsFlags hkeep
  | ret c => exact ⟨fun i hi => hi, h.of_rflags rfl⟩
  | leave i rest c =>
    refine ⟨fun j hj => h.1 j (List.mem_cons_of_mem _ hj), ?_⟩
    exact h.2.of_rflags (returnInstructions_rflags (h.1 i List.mem_cons_self) c)
  | sysret hu => trivial

theorem Kept.run (hmay : ∀ u, may u → Clear k.smap u.toCpu) {p p' : Point} (h : Kept k p)
    (hrun : Relation.ReflTransGen (CallStep k may) p p') : Kept k p' := by
  induction hrun with
  | refl => exact h
  | tail _ hstep ih => exact ih.step hmay hstep

/-- The stub takes the flags to the dispatcher as it found them. -/
theorem reaches_entered (k : Setup) (may : UserState → Prop) (rest : List (Cpu → Cpu)) (c : Cpu)
    (hrest : ∀ i ∈ rest, i ∈ entryInstructions k.kstack) :
    ∃ c', c'.rflags = c.rflags ∧
      Relation.ReflTransGen (CallStep k may) (.stub rest c) (.entered c') := by
  induction rest generalizing c with
  | nil => exact ⟨c.push k.back, rfl, .single (.call c)⟩
  | cons i rest ih =>
    obtain ⟨c', hflags, hrun⟩ := ih (i c) fun j hj => hrest j (List.mem_cons_of_mem _ hj)
    refine ⟨c', hflags.trans (entryInstructions_rflags (hrest i List.mem_cons_self) c), ?_⟩
    exact .head (.stub i rest c) hrun

/-- **When the kernel runs with its own `AC` and `DF`.** In every run from ring 3, whatever
bring-up has set: `AC` is clear at every point in ring 0 outside the window while SMAP is
on, and `DF` is clear whenever the dispatcher is entered, if and only if ring 3 never makes
a system call with `DF` set or, SMAP on, with `AC` set. -/
theorem guarded_iff (k : Setup) (may : UserState → Prop) (start : UserState) :
    (∀ p, Relation.ReflTransGen (CallStep k may) (.user start) p → Guarded k.smap p) ↔
      ∀ u, may u → (k.smap → acFlag u.toCpu = false) ∧ dfFlag u.toCpu = false := by
  constructor
  · intro h u hu
    have hcall : Relation.ReflTransGen (CallStep k may) (.user start)
        (.stub (entryInstructions k.kstack) (u.syscall (enable k.lstar))) :=
      .head (.run start u) (.single (.syscall hu))
    obtain ⟨c, hflags, hrun⟩ := reaches_entered k may
      (entryInstructions k.kstack) (u.syscall (enable k.lstar)) fun i hi => hi
    have hentered : Clear k.smap c := h _ (hcall.trans hrun)
    have hclear : Clear k.smap (u.syscall (enable k.lstar)) := hentered.of_rflags hflags.symm
    rwa [Clear, acFlag_syscall, dfFlag_syscall] at hclear
  · intro hmay p hrun
    have hstart : Kept k (.user start) := trivial
    exact (hstart.run hmay hrun).guarded

/-- A program that sets both flags before a call. -/
def flagsUser : UserState where
  reg _ := 0#64
  rip := 0x8000001020#64
  rflags := 0x40402#64
  cs := 0x2B#16
  ss := 0x33#16
  mem := fun _ => 0
  rflags_valid := by decide

/-- With SMAP on, the kernel runs the stub with `AC` set and enters the dispatcher with
both flags set. -/
theorem flags_reach_dispatcher :
    let k : Setup := ⟨0xFFFF800000100000#64, 0xFFFF800000002000#64, true, ⟨0, 0⟩, 0#64⟩
    ¬ Guarded k.smap (.stub (entryInstructions k.kstack) (flagsUser.syscall (enable k.lstar))) ∧
      ∃ c, Relation.ReflTransGen (CallStep k fun _ => True) (.user flagsUser) (.entered c) ∧
        acFlag c = true ∧ dfFlag c = true ∧ ¬ Guarded k.smap (.entered c) := by
  intro k
  obtain ⟨c, hflags, hrun⟩ := reaches_entered k (fun _ => True)
    (entryInstructions k.kstack) (flagsUser.syscall (enable k.lstar)) fun i hi => hi
  have hac : acFlag (flagsUser.syscall (enable k.lstar)) = true := by
    rw [acFlag_syscall]
    decide
  have hdf : dfFlag (flagsUser.syscall (enable k.lstar)) = true := by
    rw [dfFlag_syscall]
    decide
  have hacc : acFlag c = true := by rw [acFlag, hflags, ← acFlag, hac]
  have hdfc : dfFlag c = true := by rw [dfFlag, hflags, ← dfFlag, hdf]
  refine ⟨fun h => ?_, c, .head (.syscall trivial) hrun, hacc, hdfc, fun h => ?_⟩
  · exact absurd (h rfl) (by rw [hac]; decide)
  · exact absurd h.2 (by rw [hdfc]; decide)

end LionOS.Syscall
