import LionOS.Gdt.TaskState
import LionOS.Syscall.Entry

/-!
# Selectors in ring 3

Ring 3 is entered twice over: once by `iretq`, with selectors `bring_up` passes, and
then by `sysretq`, which derives them from `STAR`. The base in `STAR` is the user
code selector itself, and `sysretq` adds 16 to it for the code selector, which
leaves the table.
-/

namespace LionOS.Syscall

open Lib Gdt

/-- The descriptor the processor finds depends on its eight bytes. -/
theorem read_congr {m m' : Mem} {a : Nat} (h : ∀ x, a ≤ x → x < a + 8 → m x = m' x) :
    SegmentDescriptor.read m a = SegmentDescriptor.read m' a := by
  have hread : ∀ o n, o + n ≤ 8 → readLE m (a + o) n = readLE m' (a + o) n :=
    fun o n hn => readLE_congr fun x hx hx' => h x (by omega) (by omega)
  simp only [SegmentDescriptor.read, SegmentDescriptor.mk.injEq]
  exact ⟨hread 0 2 (by decide), hread 2 2 (by decide), hread 4 1 (by decide),
    hread 5 1 (by decide), hread 6 1 (by decide), hread 7 1 (by decide)⟩

/-- A flat descriptor is read back as it was stored. -/
private theorem read_store_flat (m : Mem) (a : Nat) {access granularity : Nat} (h : access < 256)
    (h' : granularity < 256) :
    SegmentDescriptor.read ((SegmentDescriptor.flat access granularity).store m a) a =
      SegmentDescriptor.flat access granularity := by
  have hread : ∀ f o, (f, o) ∈ SegmentDescriptor.layout.offsets →
      readLE ((SegmentDescriptor.flat access granularity).store m a) (a + o)
          (SegmentDescriptor.layout.type f).size =
        (SegmentDescriptor.flat access granularity).value f %
          256 ^ (SegmentDescriptor.layout.type f).size :=
    fun f o hf => CStruct.readLE_store hf
  simp only [SegmentDescriptor.read, SegmentDescriptor.flat, SegmentDescriptor.mk.injEq]
  refine ⟨hread .limitLow 0 (by decide), hread .baseLow 2 (by decide), hread .baseMid 4 (by decide),
    (hread .access 5 (by decide)).trans ?_, (hread .granularity 6 (by decide)).trans ?_,
    hread .baseHigh 7 (by decide)⟩
  · exact Nat.mod_eq_of_lt h
  · exact Nat.mod_eq_of_lt h'

/-- Slots 5 and 6 hold the user descriptors. -/
theorem read_setup (m : Mem) (base : Nat) :
    SegmentDescriptor.read (setup m base) (base + 5 * 8) = SegmentDescriptor.newUserCode ∧
      SegmentDescriptor.read (setup m base) (base + 6 * 8) = SegmentDescriptor.newUserData := by
  obtain ⟨m₁, hm₁⟩ : ∃ m₁, setup m base = SegmentDescriptor.newUserData.store
      (SegmentDescriptor.newUserCode.store m₁ (base + 5 * 8)) (base + 6 * 8) := ⟨_, rfl⟩
  rw [hm₁]
  constructor
  · rw [read_congr fun x hx hx' => SegmentDescriptor.store_of_outside _ _ (by omega)]
    exact read_store_flat m₁ (base + 5 * 8) (by decide) (by decide)
  · exact read_store_flat _ (base + 6 * 8) (by decide) (by decide)

/-- Byte offset of the descriptor a selector names. -/
def selectorOffset (sel : Nat) : Nat := sel >>> 3 * 8

/-- Privilege level of a descriptor. -/
def dpl (d : SegmentDescriptor) : Nat := d.access >>> 5 &&& 3

/-- A selector names descriptor `d` of the table, inside its limit. -/
def Names (m : Mem) (gdtr : Gdtr) (sel : Nat) (d : SegmentDescriptor) : Prop :=
  selectorOffset sel + 7 ≤ gdtr.limit ∧
    SegmentDescriptor.read m (gdtr.base + selectorOffset sel) = d

/-- The selectors of a processor are the user ones and name the ring-3 descriptors. -/
structure SelectorsValid (m : Mem) (gdtr : Gdtr) (c : Cpu) : Prop where
  cs : c.cs.toNat = userCode ||| 3
  ss : c.ss.toNat = userData ||| 3
  code : Names m gdtr c.cs.toNat SegmentDescriptor.newUserCode
  data : Names m gdtr c.ss.toNat SegmentDescriptor.newUserData
  code_dpl : dpl SegmentDescriptor.newUserCode = 3
  data_dpl : dpl SegmentDescriptor.newUserData = 3

/-- With the user selectors, validity is a fact about the table `setup` wrote. -/
theorem selectorsValid_of_user (m : Mem) (base : Nat) {c : Cpu} (hcs : c.cs = 0x2B#16)
    (hss : c.ss = 0x33#16) : SelectorsValid (setup m base) (setupGdtr base) c := by
  have hc : c.cs.toNat = userCode ||| 3 := by rw [hcs]; decide
  have hs : c.ss.toNat = userData ||| 3 := by rw [hss]; decide
  refine ⟨hc, hs, ?_, ?_, by decide, by decide⟩
  · rw [hc]
    have hin : selectorOffset (userCode ||| 3) + 7 ≤ gdtTssEntries * 8 - 1 := by decide
    exact ⟨hin, (read_setup m base).1⟩
  · rw [hs]
    have hin : selectorOffset (userData ||| 3) + 7 ≤ gdtTssEntries * 8 - 1 := by decide
    exact ⟨hin, (read_setup m base).2⟩

/-- `lion_usermode_go`: build the frame and return into ring 3. -/
def lionUsermodeGo (c : Cpu) : Cpu :=
  let c := c.mov .rax .r8
  let c := c.push (c.reg .rcx)
  let c := c.push (c.reg .rsi)
  let c := c.push (c.reg .rax)
  let c := c.push (c.reg .rdx)
  let c := c.push (c.reg .rdi)
  c.iretq

/-- The processor at the end of `bring_up`, with room for the frame on its stack. -/
structure BootState extends Cpu where
  room : 40 ≤ (reg .rsp).toNat

/-- `bring_up`'s descent to ring 3: the call of `usermode_go`. -/
def dropToUser (b : BootState) (entryVa userStackTop : Word) : Cpu :=
  let c := b.toCpu
  let c := c.set .rdi entryVa
  let c := c.set .rsi userStackTop
  let c := c.set .rdx (BitVec.ofNat 64 userCode ||| 3#64)
  let c := c.set .rcx (BitVec.ofNat 64 userData ||| 3#64)
  let c := c.set .r8 2#64
  lionUsermodeGo c

/-- The descent enters ring 3 with the user selectors. -/
theorem dropToUser_selectors (b : BootState) (entryVa userStackTop : Word) :
    (dropToUser b entryVa userStackTop).cs = 0x2B#16 ∧
      (dropToUser b entryVa userStackTop).ss = 0x33#16 := by
  have hroom := b.room
  have h40 : b.reg .rsp - 8#64 - 8#64 - 8#64 - 8#64 - 8#64 + 8#64 =
      b.reg .rsp - 8#64 - 8#64 - 8#64 - 8#64 := by bv_omega
  have h8 : b.reg .rsp - 8#64 - 8#64 - 8#64 - 8#64 - 8#64 + 32#64 = b.reg .rsp - 8#64 := by bv_omega
  constructor
  · simp only [dropToUser, lionUsermodeGo, Cpu.iretq]
    simp [h40]
    rw [load_store_of_apart _ _ (by bv_omega), load_store_self]
    decide
  · simp only [dropToUser, lionUsermodeGo, Cpu.iretq]
    simp [h8]
    rw [load_store_of_apart _ _ (by bv_omega), load_store_of_apart _ _ (by bv_omega),
      load_store_of_apart _ _ (by bv_omega), load_store_of_apart _ _ (by bv_omega),
      load_store_self]
    decide

/-- What happens between two states of a run. -/
inductive Event where
  | user
  | syscall
  | kernel
  | sysretq
  deriving DecidableEq

/-- One step: user code and kernel code leave the selectors alone, and system calls and
returns load them. -/
inductive Step (msrs : Msrs) : Cpu → Event → Cpu → Prop
  | user {c c' : Cpu} (h : c.cpl = 3#16) (hcs : c'.cs = c.cs) (hss : c'.ss = c.ss) :
      Step msrs c .user c'
  | syscall {c : Cpu} (h : c.cpl = 3#16) : Step msrs c .syscall (c.syscall msrs)
  | kernel {c c' : Cpu} (h : c.cpl = 0#16) (hcs : c'.cs = c.cs) (hss : c'.ss = c.ss) :
      Step msrs c .kernel c'
  | sysretq {c : Cpu} (h : c.cpl = 0#16) : Step msrs c .sysretq (c.sysretq msrs)

/-- A run: the events and the state after each. -/
inductive Trace (msrs : Msrs) : Cpu → List (Event × Cpu) → Prop
  | nil {c : Cpu} : Trace msrs c []
  | cons {c c' : Cpu} {e : Event} {l : List (Event × Cpu)} (h : Step msrs c e c')
      (ht : Trace msrs c' l) : Trace msrs c ((e, c') :: l)

/-- As long as no `sysretq` was executed: the user selectors in ring 3, the kernel's in
ring 0. -/
def UserOrKernel (c : Cpu) : Prop :=
  (c.cs = 0x2B#16 ∧ c.ss = 0x33#16) ∨ c.cs = 0x08#16

theorem syscall_cs (c : Cpu) (lstar : Word) : (c.syscall (enable lstar)).cs = 0x08#16 := by
  simp only [Cpu.syscall, enable]
  decide

theorem sysretq_cs (c : Cpu) (lstar : Word) : (c.sysretq (enable lstar)).cs = 0x3B#16 := by
  simp only [Cpu.sysretq, enable]
  decide

/-- A step other than `sysretq` keeps the selectors among the expected ones. -/
theorem UserOrKernel.step {lstar : Word} {c c' : Cpu} {e : Event} (h : UserOrKernel c)
    (hstep : Step (enable lstar) c e c') (he : e ≠ .sysretq) : UserOrKernel c' := by
  cases hstep with
  | user _ hcs hss => simpa only [UserOrKernel, hcs, hss] using h
  | syscall _ => exact Or.inr (syscall_cs c lstar)
  | kernel _ hcs hss => simpa only [UserOrKernel, hcs, hss] using h
  | sysretq _ => exact absurd rfl he

theorem UserOrKernel.trace {lstar : Word} {c : Cpu} {l : List (Event × Cpu)} (h : UserOrKernel c)
    (ht : Trace (enable lstar) c l) (hl : ∀ p ∈ l, p.1 ≠ .sysretq) : ∀ p ∈ l, UserOrKernel p.2 := by
  induction ht with
  | nil => simp
  | cons hstep _ ih =>
    have h' := h.step hstep (hl _ (List.mem_cons_self ..))
    intro p hp
    rcases List.mem_cons.mp hp with rfl | hp
    · exact h'
    · exact ih h' (fun q hq => hl q (List.mem_cons_of_mem _ hq)) p hp

/-- The expected selectors are valid in ring 3. -/
theorem UserOrKernel.valid {c : Cpu} (h : UserOrKernel c) (m : Mem) (base : Nat)
    (hcpl : c.cpl = 3#16) : SelectorsValid (setup m base) (setupGdtr base) c := by
  rcases h with ⟨hcs, hss⟩ | hcs
  · exact selectorsValid_of_user m base hcs hss
  · rw [Cpu.cpl, hcs] at hcpl
    exact absurd hcpl (by decide)

/-- A state reached by `sysretq` is in ring 3 with a selector outside the table. -/
theorem sysretq_invalid {lstar : Word} {c : Cpu} {l : List (Event × Cpu)}
    (ht : Trace (enable lstar) c l) {p : Event × Cpu} (hp : p ∈ l) (he : p.1 = .sysretq) :
    p.2.cpl = 3#16 ∧ p.2.cs = 0x3B#16 := by
  induction ht with
  | nil => simp at hp
  | cons hstep _ ih =>
    rcases List.mem_cons.mp hp with rfl | hp
    · obtain rfl : _ = Event.sysretq := he
      cases hstep with
      | sysretq _ =>
        have hcs := sysretq_cs ‹Cpu› lstar
        exact ⟨by rw [Cpu.cpl, hcs]; decide, hcs⟩
    · exact ih hp

/-- Code selector `0x3B` is not valid. -/
theorem not_selectorsValid {m : Mem} {gdtr : Gdtr} {c : Cpu} (h : c.cs = 0x3B#16) :
    ¬ SelectorsValid m gdtr c := by
  intro hv
  have hcs := hv.cs
  rw [h] at hcs
  exact absurd hcs (by decide)

/-- **Ring-3 selectors are valid exactly as long as no system call has returned.** In
every run from the descent of `bring_up`, all ring-3 states have the selectors of the
installed ring-3 descriptors if and only if no step of the run is a `sysretq`. -/
theorem selectors_valid_iff_no_sysretq (b : BootState) (entryVa userStackTop lstar : Word) (m : Mem)
    (idx : Fin 512) {l : List (Event × Cpu)}
    (ht : Trace (enable lstar) (dropToUser b entryVa userStackTop) l) :
    (∀ c ∈ dropToUser b entryVa userStackTop :: l.map Prod.snd, c.cpl = 3#16 →
        SelectorsValid (setup m (regionBase idx)) (setupGdtr (regionBase idx)) c) ↔
      ∀ p ∈ l, p.1 ≠ .sysretq := by
  have hstart : UserOrKernel (dropToUser b entryVa userStackTop) :=
    Or.inl (dropToUser_selectors b entryVa userStackTop)
  constructor
  · intro h p hp he
    obtain ⟨hcpl, hcs⟩ := sysretq_invalid ht hp he
    have hmem : p.2 ∈ dropToUser b entryVa userStackTop :: l.map Prod.snd :=
      List.mem_cons_of_mem _ (List.mem_map_of_mem hp)
    exact not_selectorsValid hcs (h p.2 hmem hcpl)
  · intro hl c hc hcpl
    rcases List.mem_cons.mp hc with rfl | hc
    · exact hstart.valid m _ hcpl
    · obtain ⟨p, hp, rfl⟩ := List.mem_map.mp hc
      exact (hstart.trace ht hl p hp).valid m _ hcpl

/-- A boot state with its stack below `0x9000`. -/
def sampleBoot : BootState where
  reg r := match r with
    | .rsp => 0x9000#64
    | _ => 0#64
  rip := 0#64
  rflags := 2#64
  cs := 0x08#16
  ss := 0x10#16
  mem := fun _ => 0
  room := by decide

/-- The sample descent is in ring 3. -/
theorem sampleBoot_cpl : (dropToUser sampleBoot 0x8000001000#64 0x8000003000#64).cpl = 3#16 := by
  rw [Cpu.cpl, (dropToUser_selectors ..).1]
  decide

/-- A run that makes one system call and is still in the kernel. -/
theorem selectors_valid_in_first_syscall :
    let u := dropToUser sampleBoot 0x8000001000#64 0x8000003000#64
    let c := u.syscall (enable 0xFFFF800000100000#64)
    Trace (enable 0xFFFF800000100000#64) u [(.syscall, c)] ∧
      ∀ s ∈ [u, c], s.cpl = 3#16 →
        SelectorsValid (setup (fun _ => 0) (regionBase 2)) (setupGdtr (regionBase 2)) s := by
  intro u c
  have ht : Trace (enable 0xFFFF800000100000#64) u [(.syscall, c)] :=
    .cons (.syscall sampleBoot_cpl) .nil
  exact ⟨ht, (selectors_valid_iff_no_sysretq sampleBoot _ _ _ _ 2 ht).mpr (by simp)⟩

/-- After the first system call has returned, ring 3 runs with code selector `0x3B`, whose
descriptor would end at byte 63 of a table with limit 55. -/
theorem selectors_after_first_return :
    let u := dropToUser sampleBoot 0x8000001000#64 0x8000003000#64
    let msrs := enable 0xFFFF800000100000#64
    let r := (u.syscall msrs).sysretq msrs
    Trace msrs u [(.syscall, u.syscall msrs), (.sysretq, r)] ∧ r.cpl = 3#16 ∧
      r.cs.toNat ≠ userCode ||| 3 ∧
      ¬ selectorOffset r.cs.toNat + 7 ≤ (setupGdtr (regionBase 2)).limit ∧
      ¬ SelectorsValid (setup (fun _ => 0) (regionBase 2)) (setupGdtr (regionBase 2)) r := by
  intro u msrs r
  have hk : (u.syscall msrs).cpl = 0#16 := by
    rw [Cpu.cpl, syscall_cs]
    decide
  have hcs : r.cs = 0x3B#16 := sysretq_cs _ _
  refine ⟨.cons (.syscall sampleBoot_cpl) (.cons (.sysretq hk) .nil), ?_, ?_, ?_,
    not_selectorsValid hcs⟩
  · rw [Cpu.cpl, hcs]
    decide
  · rw [hcs]
    decide
  · rw [hcs]
    decide

end LionOS.Syscall
