import LionOS.Lib.X86
import Mathlib.Logic.Relation
import Mathlib.Tactic.IntervalCases

/-!
# Context switches are faithful coroutines

`context_switch` pushes the callee-saved registers of the running context, stores its
stack pointer in its slot, loads the stack pointer of the next context and pops that
context's registers. Stacks are disjoint regions and slots lie outside them. While a
context runs it may change anything but the stacks of the others and the slots.
-/

namespace LionOS.Sched

open Lib Relation

/-- The registers `context_switch` pushes, in order. -/
def pushedRegs : List Reg := [.rbx, .rbp, .r12, .r13, .r14, .r15]

/-- The registers `context_switch` pops, in order. -/
def poppedRegs : List Reg := [.r15, .r14, .r13, .r12, .rbp, .rbx]

/-- The first half of `context_switch`: push the registers and store the stack pointer in
the slot. -/
def saveContext (c : Cpu) : Cpu :=
  let c := c.pushAll pushedRegs
  let c := c.mov .rax .rsp
  c.write (c.reg .rdi) (c.reg .rax)

/-- The second half: take the next stack pointer, pop the registers and return. -/
def loadContext (c : Cpu) : Cpu :=
  let c := c.mov .rsp .rsi
  let c := c.popAll poppedRegs
  c.ret

/-- `context_switch`, from its first instruction to its return. -/
def contextSwitch (c : Cpu) : Cpu := loadContext (saveContext c)

/-- Per-task stack size in bytes. -/
def stackSize : Nat := 8192

/-- Store `n` zero words downwards from `p`; the memory and the position below. -/
def zeroDown (m : Mem) (p : Word) : Nat → Mem × Word
  | 0 => (m, p)
  | n + 1 => zeroDown (store m p 0#64) (p - 8#64) n

/-- `alloc_task_stack` on the allocated block at `base`: the memory and the stack pointer
of the synthetic frame. -/
def allocTaskStack (m : Mem) (base taskEntry : Word) : Mem × Word :=
  let m := zeroBytes m base.toNat stackSize
  let top := base + BitVec.ofNat 64 stackSize
  let p := top - 8#64
  let m := store m p taskEntry
  let p := p - 8#64
  let r := zeroDown m p 6
  (r.1, r.2 + 8#64)

section

variable (c : Cpu)

/-- The slot store comes last. -/
theorem saveContext_mem : (saveContext c).mem =
    store (c.pushAll pushedRegs).mem (c.reg .rdi) (c.reg .rsp - 48#64) := by
  have hdi : (c.pushAll pushedRegs).reg .rdi = c.reg .rdi := Cpu.pushAll_reg (by decide)
  have hsp : (c.pushAll pushedRegs).reg .rsp = c.reg .rsp - 48#64 := Cpu.pushAll_reg (by decide)
  simp [saveContext, hdi, hsp]

theorem saveContext_rsi : (saveContext c).reg .rsi = c.reg .rsi := by
  have hsi : (c.pushAll pushedRegs).reg .rsi = c.reg .rsi := Cpu.pushAll_reg (by decide)
  simp [saveContext, hsi]

theorem loadContext_mem : (loadContext c).mem = c.mem := by
  simp [loadContext, Cpu.ret, Cpu.popAll_mem]

/-- The registers are loaded from the next stack pointer upwards. -/
theorem loadContext_popped {k : Nat} (hk : k < poppedRegs.length) :
    (loadContext c).reg poppedRegs[k] = load c.mem (c.reg .rsi + BitVec.ofNat 64 (8 * k)) := by
  have hne : poppedRegs[k] ≠ .rsp := by
    intro he
    have hm : Reg.rsp ∈ poppedRegs := he ▸ List.getElem_mem hk
    exact absurd hm (by decide)
  have hrsp : Reg.rsp ∉ poppedRegs := by decide
  have hpop := Cpu.popAll_reg (c := c.mov .rsp .rsi) hrsp (by decide) hk
  simp only [loadContext, Cpu.ret, Cpu.set_reg, if_neg hne, hpop]
  simp

theorem loadContext_rsp : (loadContext c).reg .rsp = c.reg .rsi + 56#64 := by
  have hrsp : Reg.rsp ∉ poppedRegs := by decide
  have hpop := Cpu.popAll_rsp (c := c.mov .rsp .rsi) hrsp
  have hlen : poppedRegs.length = 6 := rfl
  simp only [loadContext, Cpu.ret, Cpu.set_reg, if_true, hpop, hlen, Cpu.mov_reg,
    Function.update_self]
  bv_omega

theorem loadContext_rip : (loadContext c).rip = load c.mem (c.reg .rsi + 48#64) := by
  have hrsp : Reg.rsp ∉ poppedRegs := by decide
  have hpop := Cpu.popAll_rsp (c := c.mov .rsp .rsi) hrsp
  have hlen : poppedRegs.length = 6 := rfl
  simp only [loadContext, Cpu.ret, Cpu.popAll_mem, hpop, hlen, Cpu.mov_reg, Function.update_self,
    Cpu.mov_mem]

end

/-! ## Stacks and slots -/

/-- Where the contexts `ι` have their stacks, `[lo i, hi i)`, and their slots. -/
structure Layout (ι : Type*) where
  lo : ι → Nat
  hi : ι → Nat
  slot : ι → Word
  hi_lt : ∀ i, hi i < 2 ^ 64
  stacks_apart : ∀ i j, i ≠ j → hi i ≤ lo j ∨ hi j ≤ lo i
  slots_apart : ∀ i j, i ≠ j →
    (slot i).toNat + 8 ≤ (slot j).toNat ∨ (slot j).toNat + 8 ≤ (slot i).toNat
  slots_outside : ∀ i j, (slot i).toNat + 8 ≤ lo j ∨ hi j ≤ (slot i).toNat

/-- What a suspended context is to continue with: registers, instruction and stack
pointer, and the memory that held its stack. -/
structure Context where
  reg : Reg → Word
  rip : Word
  rsp : Word
  mem : Mem

/-- The context of a caller of `context_switch`, at the first instruction of the callee:
it is to continue behind its call. -/
def Context.ofCall (c : Cpu) : Context where
  reg := c.reg
  rip := load c.mem (c.reg .rsp)
  rsp := c.reg .rsp + 8#64
  mem := c.mem

/-- The context a synthetic frame stands for: zero registers, entering `task_entry` on an
empty stack that ends at `top`. -/
def Context.synthetic (m : Mem) (taskEntry top : Word) : Context where
  reg := fun _ => 0#64
  rip := taskEntry
  rsp := top
  mem := m

/-- The processor and the context that runs. -/
structure Running (ι : Type*) where
  cpu : Cpu
  running : ι

section

variable {ι : Type*} (L : Layout ι)

/-- Memory `m` keeps context `x` suspended for slot `i`. -/
structure Suspended (m : Mem) (i : ι) (x : Context) : Prop where
  lo_le : L.lo i ≤ (load m (L.slot i)).toNat
  le_hi : (load m (L.slot i)).toNat + 56 ≤ L.hi i
  rsp_eq : x.rsp = load m (L.slot i) + 56#64
  regs : ∀ k (hk : k < poppedRegs.length),
    load m (load m (L.slot i) + BitVec.ofNat 64 (8 * k)) = x.reg poppedRegs[k]
  rip_eq : load m (load m (L.slot i) + 48#64) = x.rip
  stack : ∀ y, x.rsp.toNat ≤ y → y < L.hi i → m y = x.mem y

/-- Processor `c` runs slot `i` as context `x` was left. -/
structure Resumed (c : Cpu) (i : ι) (x : Context) : Prop where
  regs : ∀ r ∈ calleeSaved, c.reg r = x.reg r
  rip_eq : c.rip = x.rip
  rsp_eq : c.reg .rsp = x.rsp
  stack : ∀ y, x.rsp.toNat ≤ y → y < L.hi i → c.mem y = x.mem y

/-- The running context is at the first instruction of
`context_switch(&its_slot, rsp of j)`, with room for six words below the return
address on its own stack. -/
structure CallsSwitch (w : Running ι) (j : ι) : Prop where
  other : j ≠ w.running
  slot_eq : w.cpu.reg .rdi = L.slot w.running
  next_eq : w.cpu.reg .rsi = load w.cpu.mem (L.slot j)
  room : L.lo w.running + 48 ≤ (w.cpu.reg .rsp).toNat
  inside : (w.cpu.reg .rsp).toNat + 8 ≤ L.hi w.running

/-- One step: the running context works on its own stack and on memory that is no stack
and no slot, or it switches. -/
inductive CoStep (w : Running ι) : Running ι → Prop
  | work {c : Cpu}
      (hstacks : ∀ j x, j ≠ w.running → L.lo j ≤ x → x < L.hi j → c.mem x = w.cpu.mem x)
      (hslots : ∀ j x, (L.slot j).toNat ≤ x → x < (L.slot j).toNat + 8 → c.mem x = w.cpu.mem x) :
      CoStep w ⟨c, w.running⟩
  | switch {j : ι} (hcall : CallsSwitch L w j) : CoStep w ⟨contextSwitch w.cpu, j⟩

/-- A step after which `i` does not run. -/
def StepsPast (i : ι) (w w' : Running ι) : Prop := CoStep L w w' ∧ w'.running ≠ i

variable {L} {m m' : Mem} {i j : ι} {x : Context} {w w' : Running ι}

/-- A context stays suspended as long as its stack and its slot are not written. -/
theorem Suspended.congr (h : Suspended L m i x)
    (hstack : ∀ y, L.lo i ≤ y → y < L.hi i → m' y = m y)
    (hslot : ∀ y, (L.slot i).toNat ≤ y → y < (L.slot i).toNat + 8 → m' y = m y) :
    Suspended L m' i x := by
  have hsp : load m' (L.slot i) = load m (L.slot i) := load_congr hslot
  have hlo := h.lo_le
  have hhi := h.le_hi
  have hlt := L.hi_lt i
  have hrsp : x.rsp.toNat = (load m (L.slot i)).toNat + 56 := by
    rw [h.rsp_eq]
    bv_omega
  have hload : ∀ k, k ≤ 6 → load m' (load m (L.slot i) + BitVec.ofNat 64 (8 * k)) =
      load m (load m (L.slot i) + BitVec.ofNat 64 (8 * k)) := by
    intro k hk
    have hnat : (load m (L.slot i) + BitVec.ofNat 64 (8 * k)).toNat =
        (load m (L.slot i)).toNat + 8 * k := by bv_omega
    apply load_congr
    intro y hy hy'
    exact hstack y (by omega) (by omega)
  have h48 : BitVec.ofNat 64 (8 * 6) = 48#64 := by decide
  refine ⟨by rw [hsp]; exact hlo, by rw [hsp]; exact hhi, by rw [hsp]; exact h.rsp_eq, ?_, ?_, ?_⟩
  · intro k hk
    have hk' : k < 6 := hk
    rw [hsp, hload k (by omega)]
    exact h.regs k hk
  · rw [hsp, ← h48, hload 6 le_rfl, h48]
    exact h.rip_eq
  · intro y hy hy'
    rw [hstack y (by omega) hy']
    exact h.stack y hy hy'

/-- `context_switch` writes the caller's stack below its stack pointer and its slot. -/
theorem CallsSwitch.mem_of_outside (h : CallsSwitch L w j) {y : Nat}
    (hstack : y < L.lo w.running ∨ (w.cpu.reg .rsp).toNat ≤ y)
    (hslot : y < (L.slot w.running).toNat ∨ (L.slot w.running).toNat + 8 ≤ y) :
    (contextSwitch w.cpu).mem y = w.cpu.mem y := by
  have hroom := h.room
  have hlen : pushedRegs.length = 6 := rfl
  rw [contextSwitch, loadContext_mem, saveContext_mem, h.slot_eq,
    store_of_outside _ _ hslot]
  exact Cpu.pushAll_mem_of_outside (by decide) (by omega) (by omega)

/-- It does not write the slot of another context. -/
theorem CallsSwitch.mem_slot (h : CallsSwitch L w j) (hi : w.running ≠ i) {y : Nat}
    (hy : (L.slot i).toNat ≤ y) (hy' : y < (L.slot i).toNat + 8) :
    (contextSwitch w.cpu).mem y = w.cpu.mem y := by
  have hroom := h.room
  have hin := h.inside
  have hslots := L.slots_apart i w.running (Ne.symm hi)
  have hout := L.slots_outside i w.running
  exact h.mem_of_outside (by omega) (by omega)

/-- The caller of `context_switch` is suspended as it called. -/
theorem CallsSwitch.suspended (h : CallsSwitch L w j) :
    Suspended L (contextSwitch w.cpu).mem w.running (.ofCall w.cpu) := by
  have hroom := h.room
  have hin := h.inside
  have hlt := L.hi_lt w.running
  have hout := L.slots_outside w.running w.running
  have hlen : pushedRegs.length = 6 := rfl
  have hmem : (contextSwitch w.cpu).mem =
      store (w.cpu.pushAll pushedRegs).mem (L.slot w.running) (w.cpu.reg .rsp - 48#64) := by
    rw [contextSwitch, loadContext_mem, saveContext_mem, h.slot_eq]
  have hsp : load (contextSwitch w.cpu).mem (L.slot w.running) = w.cpu.reg .rsp - 48#64 := by
    rw [hmem, load_store_self]
  have hnat : (w.cpu.reg .rsp - 48#64).toNat = (w.cpu.reg .rsp).toNat - 48 := by bv_omega
  refine ⟨by rw [hsp]; omega, by rw [hsp]; omega, ?_, ?_, ?_, ?_⟩
  · rw [hsp, Context.ofCall]
    bv_omega
  · intro k hk
    have hk' : k < 6 := hk
    have hadr : w.cpu.reg .rsp - 48#64 + BitVec.ofNat 64 (8 * k) =
        w.cpu.reg .rsp - BitVec.ofNat 64 (8 * (5 - k + 1)) := by bv_omega
    have hword : (w.cpu.reg .rsp - BitVec.ofNat 64 (8 * (5 - k + 1))).toNat =
        (w.cpu.reg .rsp).toNat - 48 + 8 * k := by bv_omega
    have hrev : pushedRegs[5 - k] = poppedRegs[k] := by
      interval_cases k <;> rfl
    rw [hsp, hadr, hmem, load_store_of_apart _ _ (by omega),
      Cpu.load_pushAll (by decide) (by omega) (by omega), hrev]
    rfl
  · have hadr : w.cpu.reg .rsp - 48#64 + 48#64 = w.cpu.reg .rsp := by bv_omega
    rw [hsp, hadr, Context.ofCall]
    apply load_congr
    intro y hy hy'
    exact h.mem_of_outside (Or.inr hy) (by omega)
  · intro y hy hy'
    have hrsp : (Context.ofCall w.cpu).rsp.toNat = (w.cpu.reg .rsp).toNat + 8 := by
      rw [Context.ofCall]
      bv_omega
    exact h.mem_of_outside (Or.inr (by omega)) (by omega)

/-- A step of another context leaves a context suspended. -/
theorem Suspended.step (h : Suspended L w.cpu.mem i x) (hi : w.running ≠ i)
    (hstep : CoStep L w w') : Suspended L w'.cpu.mem i x := by
  cases hstep with
  | work hstacks hslots =>
    exact h.congr (fun y hy hy' => hstacks i y (Ne.symm hi) hy hy') (hslots i)
  | switch hcall =>
    have hroom := hcall.room
    have hin := hcall.inside
    have hapart := L.stacks_apart i w.running (Ne.symm hi)
    have hout := L.slots_outside w.running i
    apply h.congr
    · intro y hy hy'
      exact hcall.mem_of_outside (by omega) (by omega)
    · intro y hy hy'
      exact hcall.mem_slot hi hy hy'

/-- A context stays suspended as long as it does not run. -/
theorem Suspended.run (h : Suspended L w.cpu.mem i x) (hi : w.running ≠ i)
    (hrun : ReflTransGen (StepsPast L i) w w') :
    Suspended L w'.cpu.mem i x ∧ w'.running ≠ i := by
  induction hrun with
  | refl => exact ⟨h, hi⟩
  | tail _ hstep ih => exact ⟨ih.1.step ih.2 hstep.1, hstep.2⟩

/-- Switching to a suspended context resumes it. -/
theorem Suspended.resumed (h : Suspended L w.cpu.mem i x) (hcall : CallsSwitch L w i) :
    Resumed L (contextSwitch w.cpu) i x := by
  have h' := h.step (Ne.symm hcall.other) (CoStep.switch hcall)
  have hmem : (saveContext w.cpu).mem = (contextSwitch w.cpu).mem := by
    rw [contextSwitch, loadContext_mem]
  have hslot : load (contextSwitch w.cpu).mem (L.slot i) = load w.cpu.mem (L.slot i) := by
    apply load_congr
    intro y hy hy'
    exact hcall.mem_slot (Ne.symm hcall.other) hy hy'
  have hnext : (saveContext w.cpu).reg .rsi = load (contextSwitch w.cpu).mem (L.slot i) := by
    rw [saveContext_rsi, hcall.next_eq, hslot]
  refine ⟨?_, ?_, ?_, h'.stack⟩
  · intro r hr
    have hpop : r ∈ poppedRegs := by
      revert hr
      cases r <;> decide
    obtain ⟨k, hk, rfl⟩ := List.getElem_of_mem hpop
    rw [contextSwitch, loadContext_popped _ hk, hmem, hnext]
    exact h'.regs k hk
  · rw [contextSwitch, loadContext_rip, hmem, hnext]
    exact h'.rip_eq
  · rw [contextSwitch, loadContext_rsp, hnext]
    exact h'.rsp_eq.symm

/-! ## Synthetic frames -/

theorem zeroDown_position (m : Mem) (p : Word) (n : Nat) :
    (zeroDown m p n).2 = p - BitVec.ofNat 64 (8 * n) := by
  induction n generalizing m p with
  | zero => simp [zeroDown]
  | succ n ih =>
    rw [zeroDown, ih]
    bv_omega

theorem zeroDown_of_outside (m : Mem) {p : Word} {n y : Nat} (hroom : 8 * n ≤ p.toNat)
    (hy : y + 8 * n < p.toNat + 8 ∨ p.toNat + 8 ≤ y) : (zeroDown m p n).1 y = m y := by
  induction n generalizing m p with
  | zero => rfl
  | succ n ih =>
    have hnat : (p - 8#64).toNat = p.toNat - 8 := by bv_omega
    rw [zeroDown, ih _ (by omega) (by omega)]
    exact store_of_outside _ _ (by omega)

theorem load_zeroDown (m : Mem) {p : Word} {n k : Nat} (hroom : 8 * n ≤ p.toNat) (hk : k < n) :
    load (zeroDown m p n).1 (p - BitVec.ofNat 64 (8 * k)) = 0#64 := by
  induction n generalizing m p k with
  | zero => omega
  | succ n ih =>
    have hnat : (p - 8#64).toNat = p.toNat - 8 := by bv_omega
    cases k with
    | zero =>
      have hp : p - BitVec.ofNat 64 (8 * 0) = p := by bv_omega
      rw [hp, zeroDown, ← load_store_self m p 0#64]
      apply load_congr
      intro y hy hy'
      rw [load_store_self]
      exact zeroDown_of_outside _ (by omega) (by omega)
    | succ k =>
      have hadr : p - BitVec.ofNat 64 (8 * (k + 1)) = p - 8#64 - BitVec.ofNat 64 (8 * k) := by
        bv_omega
      rw [hadr, zeroDown]
      exact ih _ (by omega) (by omega)

/-- The frame `alloc_task_stack` builds is the suspended context that enters `task_entry`
with zero registers on an empty stack. -/
theorem suspended_allocTaskStack (m : Mem) {base taskEntry : Word} (hlo : L.lo i = base.toNat)
    (hhi : L.hi i = base.toNat + stackSize) :
    Suspended L (store (allocTaskStack m base taskEntry).1 (L.slot i)
        (allocTaskStack m base taskEntry).2) i
      (.synthetic m taskEntry (base + BitVec.ofNat 64 stackSize)) := by
  have hlt := L.hi_lt i
  have hout := L.slots_outside i i
  have hsize : stackSize = 8192 := rfl
  rw [hhi, hsize] at hlt
  rw [hlo, hhi, hsize] at hout
  have htop : base + BitVec.ofNat 64 stackSize = base + 8192#64 := by rw [hsize]
  simp only [allocTaskStack, htop, zeroDown_position]
  generalize zeroBytes m base.toNat stackSize = m₁
  have hsp : base + 8192#64 - 8#64 - 8#64 - BitVec.ofNat 64 (8 * 6) + 8#64 = base + 8136#64 := by
    bv_omega
  have hnat : (base + 8136#64).toNat = base.toNat + 8136 := by bv_omega
  have hp : (base + 8192#64 - 8#64 - 8#64).toNat = base.toNat + 8176 := by bv_omega
  rw [hsp]
  refine ⟨?_, ?_, ?_, ?_, ?_, ?_⟩
  · rw [load_store_self, hlo]
    omega
  · rw [load_store_self, hhi, hsize]
    omega
  · rw [load_store_self, Context.synthetic]
    bv_omega
  · intro k hk
    have hk' : k < 6 := hk
    have hadr : base + 8136#64 + BitVec.ofNat 64 (8 * k) =
        base + 8192#64 - 8#64 - 8#64 - BitVec.ofNat 64 (8 * (5 - k)) := by bv_omega
    have hword : (base + 8192#64 - 8#64 - 8#64 - BitVec.ofNat 64 (8 * (5 - k))).toNat =
        base.toNat + 8136 + 8 * k := by bv_omega
    rw [load_store_self, hadr, load_store_of_apart _ _ (by omega),
      load_zeroDown _ (by omega) (by omega)]
    rfl
  · have hadr : base + 8136#64 + 48#64 = base + 8192#64 - 8#64 := by bv_omega
    have hword : (base + 8192#64 - 8#64).toNat = base.toNat + 8184 := by bv_omega
    rw [load_store_self, hadr, load_store_of_apart _ _ (by omega), Context.synthetic]
    refine Eq.trans ?_ (load_store_self m₁ (base + 8192#64 - 8#64) taskEntry)
    apply load_congr
    intro y hy hy'
    exact zeroDown_of_outside _ (by omega) (by omega)
  · intro y hy hy'
    have hrsp : (base + 8192#64).toNat = base.toNat + 8192 := by bv_omega
    rw [Context.synthetic] at hy
    simp only [hrsp] at hy
    omega

end

/-- **Context switches are faithful coroutines.** A context that was switched out by
`context_switch` and is later switched in from its slot continues behind its call with
its callee-saved registers, its stack pointer and its stack as they were, whatever the
other contexts did meanwhile; and a frame built by `alloc_task_stack` first enters
`task_entry` with zero registers and the stack pointer at the top of its stack. -/
theorem contextSwitch_coroutine {ι : Type*} (L : Layout ι) (i : ι) :
    (∀ (w w' : Running ι) (j : ι), w.running = i → CallsSwitch L w j →
        ReflTransGen (StepsPast L i) ⟨contextSwitch w.cpu, j⟩ w' → CallsSwitch L w' i →
        Resumed L (contextSwitch w'.cpu) i (.ofCall w.cpu)) ∧
      ∀ (m : Mem) (base taskEntry : Word) (w w' : Running ι), L.lo i = base.toNat →
        L.hi i = base.toNat + stackSize → w.running ≠ i →
        w.cpu.mem = store (allocTaskStack m base taskEntry).1 (L.slot i)
          (allocTaskStack m base taskEntry).2 →
        ReflTransGen (StepsPast L i) w w' → CallsSwitch L w' i →
        (contextSwitch w'.cpu).rip = taskEntry ∧
          (∀ r ∈ calleeSaved, (contextSwitch w'.cpu).reg r = 0#64) ∧
          ((contextSwitch w'.cpu).reg .rsp).toNat = L.hi i := by
  constructor
  · rintro w w' j rfl hcall hrun hback
    obtain ⟨hsus, -⟩ :=
      Suspended.run (w := ⟨contextSwitch w.cpu, j⟩) hcall.suspended hcall.other hrun
    exact hsus.resumed hback
  · intro m base taskEntry w w' hlo hhi hne hmem hrun hcall
    have hsus : Suspended L w.cpu.mem i
        (.synthetic m taskEntry (base + BitVec.ofNat 64 stackSize)) := by
      rw [hmem]
      exact suspended_allocTaskStack m hlo hhi
    have hres := (hsus.run hne hrun).1.resumed hcall
    refine ⟨hres.rip_eq, hres.regs, ?_⟩
    have hlt := L.hi_lt i
    have hsize : stackSize = 8192 := rfl
    rw [hres.rsp_eq, hhi, Context.synthetic]
    rw [hhi] at hlt
    simp only [hsize] at hlt ⊢
    bv_omega

/-- The boot context and one task. -/
def twoStacks : Layout Bool where
  lo b := if b then 0x20000 else 0x10000
  hi b := if b then 0x22000 else 0x12000
  slot b := if b then 0x1008#64 else 0x1000#64
  hi_lt := by decide
  stacks_apart := by decide
  slots_apart := by decide
  slots_outside := by decide

/-- The boot context about to switch to a fresh task. -/
def bootCalls : Running Bool :=
  let a := allocTaskStack (fun _ => 0) 0x20000#64 0x5000#64
  { running := false
    cpu :=
      { reg := fun r => match r with
          | .rsp => 0x11F00#64
          | .rdi => 0x1000#64
          | .rsi => a.2
          | .rbx => 7#64
          | _ => 0#64
        rip := 0x4000#64
        rflags := 2#64
        cs := 0x08#16
        ss := 0x10#16
        mem := store a.1 0x1008#64 a.2 } }

/-- The task, some work later, about to switch back. -/
def taskCalls : Running Bool :=
  let c := contextSwitch bootCalls.cpu
  ⟨((c.set .rsp 0x21F00#64).set .rdi 0x1008#64).set .rsi (load c.mem 0x1000#64), true⟩

/-- There and back: the task starts with zero registers at the top of its stack, and the
boot context comes back with its own. -/
theorem contextSwitch_coroutine_there_and_back :
    (contextSwitch bootCalls.cpu).rip = 0x5000#64 ∧
      (contextSwitch bootCalls.cpu).reg .rbx = 0#64 ∧
      ((contextSwitch bootCalls.cpu).reg .rsp).toNat = 0x22000 ∧
      (contextSwitch taskCalls.cpu).reg .rbx = 7#64 ∧
      (contextSwitch taskCalls.cpu).reg .rsp = 0x11F08#64 := by
  have hboot : CallsSwitch twoStacks bootCalls true :=
    ⟨by decide, rfl, (load_store_self ..).symm, by decide, by decide⟩
  have htask : CallsSwitch twoStacks taskCalls false := by
    refine ⟨by decide, ?_, ?_, ?_, ?_⟩
    · simp [taskCalls, twoStacks]
    · simp [taskCalls, twoStacks]
    · simp [taskCalls, twoStacks]
    · simp [taskCalls, twoStacks]
  have hwork : StepsPast twoStacks false ⟨contextSwitch bootCalls.cpu, true⟩ taskCalls :=
    ⟨.work (fun _ _ _ _ _ => rfl) (fun _ _ _ _ => rfl), by decide⟩
  obtain ⟨hrip, hregs, hrsp⟩ := (contextSwitch_coroutine twoStacks true).2 (fun _ => 0) 0x20000#64
    0x5000#64 bootCalls bootCalls (by decide) (by decide) (by decide) rfl .refl hboot
  have hres := (contextSwitch_coroutine twoStacks false).1 bootCalls taskCalls true rfl hboot
    (.single hwork) htask
  exact ⟨hrip, hregs .rbx (by decide), hrsp, hres.regs .rbx (by decide), hres.rsp_eq⟩

end LionOS.Sched
