import LionOS.Syscall.Dispatch
import LionOS.User.Confinement

/-!
# A program and its process

Ring 3 loads, stores and calls the kernel, through page tables that it shares with the kernel.
What it sees of this is a process: a memory of bytes that change only when the program stores
to them, and system calls that read this memory. Whatever the program does, the machine and
the process go on alike, and the program changes nothing but its own bytes.
-/

namespace LionOS.Syscall

open Lib Paging User Console Ipc

variable {σ : Type}

/-- What a program does. -/
inductive Action where
  | load (virt : Nat)
  | store (virt : Nat) (b : UInt8)
  | call (c : Call)

/-- What comes of it. -/
inductive Outcome where
  | byte (b : UInt8)
  | stored
  | reply (r : Reply)
  deriving DecidableEq, Repr

/-- An action on the machine. A fault of ring 3 halts the kernel. -/
def Kernel.act (k : Kernel σ) : Action → Except Halt (Outcome × Kernel σ)
  | .load virt =>
    if k.machine.UserAccessible virt then
      match k.machine.loadByte virt with
      | none => .error .pageFault
      | some b => .ok (.byte b, k)
    else .error .pageFault
  | .store virt b =>
    if k.machine.UserAccessible virt then
      match k.machine.storeByte virt b with
      | none => .error .pageFault
      | some s => .ok (.stored, k.withMachine s)
    else .error .pageFault
  | .call c => do
    let (r, k) ← syscallDispatch c.num c.a0 c.a1 c.a2 c.a3 c.userRsp k
    .ok (.reply r, k)

/-- A process. -/
structure Process where
  memory : Nat → Option UInt8
  syscalls : Nat
  mailbox : Mailbox
  range : UserRange

namespace Process

/-- The `n` bytes at `src`, if the process has them all. -/
def bytes (p : Process) (src : Nat) : Nat → Option (List UInt8)
  | 0 => some []
  | n + 1 => (p.bytes src n).bind fun l => (p.memory (src + n)).map fun b => l ++ [b]

/-- The copy of `n` bytes of the process; `none` where the range check refuses it. -/
def copyIn (p : Process) (src n : Nat) : Except Halt (Option (List UInt8)) :=
  if inUserRange p.range src n then
    match p.bytes src n with
    | none => .error .pageFault
    | some l => .ok (some l)
  else .ok none

/-- `SYS_PUTS` as the process sees it. -/
def puts (p : Process) (a0 a1 : Nat) : Except Halt Reply := do
  let n := min a1 64
  let copied ← p.copyIn a0 n
  let ok ← writeDec (if copied.isSome then 1 else 0)
  .ok ⟨writeStr "LIONOS_SYS_PUTS ok=" ++ ok ++ writeStr " str=\"" ++
    copied.getD (List.replicate n 0) ++ writeStr "\"\r\n", 0⟩

/-- A call once it is counted. -/
def serve (p : Process) (c : Call) : Except Halt (Reply × Process) :=
  if c.num = sysPuts then do
    let r ← p.puts c.a0 c.a1
    .ok (r, p)
  else if c.num = sysGetc then .ok (getc c.a0 c.userRsp, p)
  else if c.num = sysRecv then do
    let (r, b) ← recv p.mailbox
    .ok (r, { p with mailbox := b })
  else if c.num = sysSend then do
    let (r, b) ← send p.mailbox
    .ok (r, { p with mailbox := b })
  else if c.num = sysPutc ∨ c.num = sysSleep ∨ c.num = sysLedget then .ok (⟨[], 0⟩, p)
  else if c.num = sysExit then do
    let r ← exit p.syscalls
    .ok (r, p)
  else .ok (⟨[], errnoEnosys⟩, p)

/-- An action of the process. -/
def act (p : Process) : Action → Except Halt (Outcome × Process)
  | .load virt =>
    match p.memory virt with
    | none => .error .pageFault
    | some b => .ok (.byte b, p)
  | .store virt b =>
    if (p.memory virt).isSome then
      .ok (.stored, { p with memory := Function.update p.memory virt (some b) })
    else .error .pageFault
  | .call c => do
    let count ← checked (p.syscalls + 1)
    let (r, p) ← serve { p with syscalls := count } c
    .ok (.reply r, p)

end Process

/-- The outcomes of a program's actions, up to the first that halts the kernel, and what is
left then. -/
def perform {κ : Type} (act : κ → Action → Except Halt (Outcome × κ)) :
    List Action → κ → List (Except Halt Outcome) × κ
  | [], k => ([], k)
  | a :: actions, k =>
    match act k a with
    | .error e => ([.error e], k)
    | .ok (o, k) =>
      let (outcomes, k) := perform act actions k
      (.ok o :: outcomes, k)

/-- The process the machine shows to ring 3. -/
def Kernel.process (k : Kernel σ) : Process where
  memory v := if k.machine.UserAccessible v then k.machine.loadByte v else none
  syscalls := k.syscalls
  mailbox := k.mailbox
  range := k.range

/-! ## Memory between stores -/

theorem Process.bytes_eq {p : Process} {src n : Nat} {f : Nat → UInt8}
    (h : ∀ j < n, p.memory (src + j) = some (f j)) :
    p.bytes src n = some ((List.range n).map f) := by
  induction n with
  | zero => rfl
  | succ n ih =>
    rw [bytes, ih fun j hj => h j (by omega), h n (by omega), List.range_succ, List.map_append]
    rfl

theorem Process.serve_keeps {p p' : Process} {c : Call} {r : Reply}
    (h : p.serve c = .ok (r, p')) : p'.memory = p.memory ∧ p'.syscalls = p.syscalls := by
  unfold serve at h
  split at h
  · obtain ⟨r, -, h⟩ := bind_eq_ok.mp h
    cases h
    exact ⟨rfl, rfl⟩
  split at h
  · cases h
    exact ⟨rfl, rfl⟩
  split at h
  · obtain ⟨⟨r, b⟩, -, h⟩ := bind_eq_ok.mp h
    cases h
    exact ⟨rfl, rfl⟩
  split at h
  · obtain ⟨⟨r, b⟩, -, h⟩ := bind_eq_ok.mp h
    cases h
    exact ⟨rfl, rfl⟩
  split at h
  · cases h
    exact ⟨rfl, rfl⟩
  split at h
  · obtain ⟨r, -, h⟩ := bind_eq_ok.mp h
    cases h
    exact ⟨rfl, rfl⟩
  · cases h
    exact ⟨rfl, rfl⟩

/-- A byte is there until the program stores to it. -/
theorem Process.memory_perform {p : Process} {v : Nat} {actions : List Action}
    (h : ∀ b, Action.store v b ∉ actions) :
    (perform act actions p).2.memory v = p.memory v := by
  induction actions generalizing p with
  | nil => rfl
  | cons a actions ih =>
    have hrest : ∀ b, Action.store v b ∉ actions := fun b hb => h b (List.mem_cons_of_mem _ hb)
    rw [perform]
    cases hact : act p a with
    | error e => rfl
    | ok op =>
      obtain ⟨o, p'⟩ := op
      refine (ih hrest).trans ?_
      cases a with
      | load w =>
        simp only [act] at hact
        split at hact
        · exact absurd hact (by simp)
        · cases hact
          rfl
      | store w b =>
        simp only [act] at hact
        split at hact
        · cases hact
          refine Function.update_of_ne ?_ _ _
          rintro rfl
          exact h b List.mem_cons_self
        · exact absurd hact (by simp)
      | call c =>
        obtain ⟨count, -, hact⟩ := bind_eq_ok.mp hact
        obtain ⟨⟨r, p''⟩, hserve, hact⟩ := bind_eq_ok.mp hact
        cases hact
        rw [(serve_keeps hserve).1]

theorem Process.syscalls_perform (p : Process) (actions : List Action) :
    (perform act actions p).2.syscalls ≤ p.syscalls + actions.length := by
  induction actions generalizing p with
  | nil => exact le_rfl
  | cons a actions ih =>
    have hone : ∀ o p', act p a = .ok (o, p') → p'.syscalls ≤ p.syscalls + 1 := by
      intro o p' hact
      cases a with
      | load w =>
        simp only [act] at hact
        split at hact
        · exact absurd hact (by simp)
        · cases hact
          exact Nat.le_succ _
      | store w b =>
        simp only [act] at hact
        split at hact
        · cases hact
          exact Nat.le_succ _
        · exact absurd hact (by simp)
      | call c =>
        obtain ⟨count, hcount, hact⟩ := bind_eq_ok.mp hact
        obtain ⟨⟨r, p''⟩, hserve, hact⟩ := bind_eq_ok.mp hact
        cases hact
        rw [(serve_keeps hserve).2]
        exact (checked_eq_ok hcount).2.le
    rw [perform, List.length_cons]
    cases hact : act p a with
    | error e => exact Nat.le_add_right _ _
    | ok op =>
      obtain ⟨o, p'⟩ := op
      have hlast := ih p'
      have hfirst := hone o p' hact
      dsimp only
      omega

/-! ## One action -/

/-- The region of a kernel whose user range lies in it. -/
structure Confined (i : Fin 512) (m₀ : Mem) (H : Nat → Prop) [FrameSource σ] (k : Kernel σ) :
    Prop where
  region : Confines i m₀ H k.machine
  range : ∀ src n, inUserRange k.range src n = true →
    i.val * 2 ^ 39 ≤ src ∧ src + n ≤ i.val * 2 ^ 39 + 2 ^ 39

section

variable [FrameSource σ] {i : Fin 512} {m₀ : Mem} {H : Nat → Prop} {k k' : Kernel σ}
  (hlt : i.val < 256)

include hlt

/-- In the region the process has what the kernel reads. -/
theorem Confined.memory_region (h : Confined i m₀ H k) {v : Nat} (hv : v < 2 ^ 39) :
    k.process.memory (i.val * 2 ^ 39 + v) = k.machine.loadByte (i.val * 2 ^ 39 + v) := by
  unfold Kernel.process
  by_cases ha : k.machine.UserAccessible (i.val * 2 ^ 39 + v)
  · exact if_pos ha
  · rw [h.region.userAccessible_iff hlt hv, Bool.not_eq_true, Option.isSome_eq_false_iff,
      Option.isNone_iff_eq_none] at ha
    simp only [ha, ite_self]

/-- Outside it has nothing. -/
theorem Confined.region_of_memory (h : Confined i m₀ H k) {v : Nat} {b : UInt8}
    (hb : k.process.memory v = some b) :
    ∃ w < 2 ^ 39, v = i.val * 2 ^ 39 + w ∧ k.machine.UserAccessible v ∧
      k.machine.loadByte v = some b := by
  simp only [Kernel.process, Option.ite_none_right_eq_some] at hb
  obtain ⟨ha, hload⟩ := hb
  obtain ⟨w, hw, hv⟩ := h.region.region_of_accessible hlt ha (Machine.canonical_of_loadByte hload)
  exact ⟨w, hw, hv, ha, hload⟩

theorem Confined.bytes_eq (h : Confined i m₀ H k) {src n : Nat}
    (hr : i.val * 2 ^ 39 ≤ src ∧ src + n ≤ i.val * 2 ^ 39 + 2 ^ 39) :
    k.process.bytes src n = k.machine.copyFrom src n := by
  induction n with
  | zero => rfl
  | succ n ih =>
    have hlast : k.process.memory (src + n) = k.machine.loadByte (src + n) := by
      have hmem := h.memory_region hlt (v := src + n - i.val * 2 ^ 39) (by omega)
      rwa [Nat.add_sub_cancel' (by omega)] at hmem
    rw [Process.bytes, Machine.copyFrom, ih (by omega), hlast]

/-- What `SYS_PUTS` copies is in the memory of the process. -/
theorem Confined.copyIn_eq (h : Confined i m₀ H k) (src n : Nat) :
    k.process.copyIn src n = userCopyIn k.range k.machine src n := by
  unfold userCopyIn Process.copyIn
  change (if inUserRange k.range src n then _ else _) = _
  by_cases hr : inUserRange k.range src n = true
  · have hbytes := h.bytes_eq hlt (h.range _ _ hr)
    cases hcopy : k.machine.copyFrom src n with
    | none => simp only [hr, if_true, hbytes, hcopy]
    | some l => simp only [hr, if_true, hbytes, hcopy]
  · rw [if_neg hr, if_neg hr]

theorem Confined.puts_eq (h : Confined i m₀ H k) (a0 a1 : Nat) :
    k.process.puts a0 a1 = puts a0 a1 k := by
  simp only [Process.puts, puts, h.copyIn_eq hlt]

theorem Confined.serve_eq (h : Confined i m₀ H k) (c : Call) :
    k.process.serve c =
      (serve c.num c.a0 c.a1 c.userRsp k).map fun rk => (rk.1, rk.2.process) := by
  unfold serve Process.serve
  by_cases hputs : c.num = sysPuts
  · rw [if_pos hputs, if_pos hputs, h.puts_eq hlt]
    cases puts c.a0 c.a1 k with
    | error e => rfl
    | ok r => rfl
  rw [if_neg hputs, if_neg hputs]
  split
  · rfl
  split
  · change (recv k.mailbox >>= _) = _
    cases recv k.mailbox with
    | error e => rfl
    | ok rb => rfl
  split
  · change (send k.mailbox >>= _) = _
    cases send k.mailbox with
    | error e => rfl
    | ok rb => rfl
  split
  · rfl
  split
  · change (exit k.syscalls >>= _) = _
    cases exit k.syscalls with
    | error e => rfl
    | ok r => rfl
  · rfl

/-- What an action leaves unchanged: the translations, what ring 3 can reach, the range, and
every byte of memory that is not the program's. -/
structure Untouched (i : Fin 512) (k k' : Kernel σ) : Prop where
  translate : ∀ v, k'.machine.translate v = k.machine.translate v
  physical : ∀ v < 2 ^ 39, k'.machine.physical (i.val * 2 ^ 39 + v) =
    k.machine.physical (i.val * 2 ^ 39 + v)
  reach : ∀ v, k'.machine.UserAccessible v ↔ k.machine.UserAccessible v
  range : k'.range = k.range
  mem : ∀ x, (∀ v < 2 ^ 39, k.machine.physical (i.val * 2 ^ 39 + v) ≠ some x) →
    k'.machine.mem x = k.machine.mem x

omit hlt [FrameSource σ] in
theorem Untouched.refl (hmachine : k'.machine = k.machine) (hrange : k'.range = k.range) :
    Untouched i k k' := by
  refine ⟨fun v => ?_, fun v _ => ?_, fun v => ?_, hrange, fun x _ => ?_⟩ <;> rw [hmachine]

omit hlt [FrameSource σ] in
theorem Untouched.trans {k'' : Kernel σ} (h : Untouched i k k') (h' : Untouched i k' k'') :
    Untouched i k k'' where
  translate v := (h'.translate v).trans (h.translate v)
  physical v hv := (h'.physical v hv).trans (h.physical v hv)
  reach v := (h'.reach v).trans (h.reach v)
  range := h'.range.trans h.range
  mem x hx := by
    refine (h'.mem x fun v hv => ?_).trans (h.mem x hx)
    rw [h.physical v hv]
    exact hx v hv

/-- A store is a store to the process, and to nothing else. -/
theorem Confined.store (h : Confined i m₀ H k) {v : Nat} {b : UInt8} {s : Machine σ}
    (hmem : (k.process.memory v).isSome = true) (hs : k.machine.storeByte v b = some s) :
    Confined i m₀ H (k.withMachine s) ∧ Untouched i k (k.withMachine s) ∧
      (k.withMachine s).process =
        { k.process with memory := Function.update k.process.memory v (some b) } := by
  obtain ⟨c, hc⟩ := Option.isSome_iff_exists.mp hmem
  obtain ⟨w, hw, rfl, ha, -⟩ := h.region_of_memory hlt hc
  obtain ⟨hregion, htranslate, hreach, hload, hother⟩ := h.region.store hlt hw hs
  have hconf : Confined i m₀ H (k.withMachine s) := ⟨hregion, h.range⟩
  refine ⟨hconf, ⟨htranslate, fun u hu => (hload u hu).1, hreach, rfl,
    fun x hx => hother x (hx w hw)⟩, ?_⟩
  have hmemory : (k.withMachine s).process.memory =
      Function.update k.process.memory (i.val * 2 ^ 39 + w) (some b) := by
    funext u
    by_cases hu : ∃ w' < 2 ^ 39, u = i.val * 2 ^ 39 + w'
    · obtain ⟨w', hw', rfl⟩ := hu
      rw [hconf.memory_region hlt hw']
      change s.loadByte _ = _
      rw [(hload w' hw').2]
      by_cases hww : w' = w
      · rw [hww, if_pos rfl, Function.update_self]
      · have hne : i.val * 2 ^ 39 + w' ≠ i.val * 2 ^ 39 + w := by omega
        rw [if_neg hww, Function.update_of_ne hne, h.memory_region hlt hw']
    · have hne : u ≠ i.val * 2 ^ 39 + w := fun he => hu ⟨w, hw, he⟩
      have hnone : ∀ {k : Kernel σ}, Confined i m₀ H k → k.process.memory u = none := by
        intro k hk
        refine Option.eq_none_iff_forall_ne_some.mpr fun c hc => ?_
        obtain ⟨w', hw', he, -⟩ := hk.region_of_memory hlt hc
        exact hu ⟨w', hw', he⟩
      rw [Function.update_of_ne hne, hnone hconf, hnone h]
  rw [← hmemory]
  rfl

/-- The machine does for an action what the process does. -/
theorem Confined.act_eq (h : Confined i m₀ H k) (a : Action) :
    k.process.act a = (k.act a).map (fun ok => (ok.1, ok.2.process)) ∧
      ∀ o k', k.act a = .ok (o, k') → Confined i m₀ H k' ∧ Untouched i k k' := by
  cases a with
  | load v =>
    have hcases : k.process.memory v = none ∧ k.act (.load v) = .error .pageFault ∨
        ∃ b, k.process.memory v = some b ∧ k.act (.load v) = .ok (.byte b, k) := by
      simp only [Kernel.process, Kernel.act]
      by_cases ha : k.machine.UserAccessible v
      · simp only [if_pos ha]
        cases k.machine.loadByte v with
        | none => exact Or.inl ⟨rfl, rfl⟩
        | some b => exact Or.inr ⟨b, rfl, rfl⟩
      · exact Or.inl ⟨if_neg ha, if_neg ha⟩
    rcases hcases with ⟨hmem, hact⟩ | ⟨b, hmem, hact⟩
    · simp [Process.act, hmem, hact, Except.map]
    · refine ⟨by simp [Process.act, hmem, hact, Except.map], fun o k' hok => ?_⟩
      obtain ⟨-, rfl⟩ := Prod.mk.inj (Except.ok.inj (hact.symm.trans hok))
      exact ⟨h, .refl rfl rfl⟩
  | store v b =>
    have hcases : k.process.memory v = none ∧ k.act (.store v b) = .error .pageFault ∨
        ∃ s, (k.process.memory v).isSome = true ∧ k.machine.storeByte v b = some s ∧
          k.act (.store v b) = .ok (.stored, k.withMachine s) := by
      simp only [Kernel.process, Kernel.act, Machine.loadByte, Machine.storeByte]
      by_cases ha : k.machine.UserAccessible v
      · simp only [if_pos ha]
        cases k.machine.physical v with
        | none => exact Or.inl ⟨rfl, rfl⟩
        | some x => exact Or.inr ⟨_, rfl, rfl, rfl⟩
      · exact Or.inl ⟨if_neg ha, if_neg ha⟩
    rcases hcases with ⟨hmem, hact⟩ | ⟨s, hmem, hs, hact⟩
    · simp [Process.act, hmem, hact, Except.map]
    · obtain ⟨hconf, hkept, hprocess⟩ := h.store hlt hmem hs
      refine ⟨by simp [Process.act, hmem, hact, hprocess, Except.map], fun o k' hok => ?_⟩
      obtain ⟨-, rfl⟩ := Prod.mk.inj (Except.ok.inj (hact.symm.trans hok))
      exact ⟨hconf, hkept⟩
  | call c =>
    constructor
    · simp only [Process.act, Kernel.act, syscallDispatch]
      change (checked (k.syscalls + 1) >>= _) = _
      cases checked (k.syscalls + 1) with
      | error e => rfl
      | ok count =>
        have hcount : Confined i m₀ H { k with syscalls := count } := ⟨h.region, h.range⟩
        have hserve := hcount.serve_eq hlt c
        change (Process.serve { k.process with syscalls := count } c >>= _) = _
        have hprocess : { k.process with syscalls := count } =
            Kernel.process { k with syscalls := count } := rfl
        rw [hprocess, hserve]
        change _ = Except.map _ (serve c.num c.a0 c.a1 c.userRsp { k with syscalls := count } >>= _)
        cases serve c.num c.a0 c.a1 c.userRsp { k with syscalls := count } with
        | error e => rfl
        | ok rk => rfl
    · intro o k' hok
      obtain ⟨⟨r, k₁⟩, hcall, hok⟩ := bind_eq_ok.mp hok
      obtain ⟨-, rfl⟩ := Prod.mk.inj (Except.ok.inj hok)
      obtain ⟨hmachine, hrange⟩ := syscallDispatch_keeps hcall
      refine ⟨⟨?_, ?_⟩, .refl hmachine hrange⟩
      · rw [hmachine]
        exact h.region
      · rw [hrange]
        exact h.range

/-- A program's run on the machine is its run on the process. -/
theorem Confined.perform_eq (h : Confined i m₀ H k) (actions : List Action) :
    perform Process.act actions k.process =
        ((perform Kernel.act actions k).1, (perform Kernel.act actions k).2.process) ∧
      Confined i m₀ H (perform Kernel.act actions k).2 ∧
      Untouched i k (perform Kernel.act actions k).2 := by
  induction actions generalizing k with
  | nil => exact ⟨rfl, h, .refl rfl rfl⟩
  | cons a actions ih =>
    obtain ⟨heq, hkeep⟩ := h.act_eq hlt a
    simp only [perform, heq]
    cases hact : k.act a with
    | error e => exact ⟨rfl, h, .refl rfl rfl⟩
    | ok ok =>
      obtain ⟨o, k₁⟩ := ok
      obtain ⟨h₁, hkept₁⟩ := hkeep o k₁ hact
      obtain ⟨hrest, hconf, hkept⟩ := ih h₁
      simp only [Except.map, hrest]
      exact ⟨trivial, hconf, hkept₁.trans hkept⟩

end

/-! ## The program of two bytes -/

theorem bootMachine_closed (v : Nat) : ¬ bootMachine.UserAccessible v := by
  have hroot : bootMachine.pml4 = 0x1000 := by decide
  rintro ⟨⟨hpresent, huser⟩, -⟩
  rw [hroot] at hpresent huser
  by_cases hi : index4 v = 0
  · rw [hi] at huser
    exact huser (by decide)
  · have hz : tableRead bootMachine.mem 0x1000 (index4 v) = 0 :=
      bootMachine_entries (Or.inl ⟨rfl, hi⟩)
    rw [hz] at hpresent
    exact hpresent rfl

theorem loadSegments_text : loadSegments (textElf 0 2) [] = .ok (1, [textSegment 0 2]) :=
  eq_ok_of_toOption (by decide +kernel)

theorem bringUp_text_zero :
    ∃ l, bringUp true (textElf 0 2) bootMachine = .ok (some l) ∧
      loadProgram 0x8000000000 (textElf 0 2) [textSegment 0 2] bootMachine = .ok l := by
  have hentry : entryPoint (textElf 0 2) = some 0 := by decide +kernel
  have hsegs : (loadSegments (textElf 0 2) []).toOption = some (1, [textSegment 0 2]) := by
    rw [loadSegments_text]
    rfl
  obtain ⟨l, -, -, hup, hl, -⟩ := bringUp_text (by decide) (by decide) hentry (by decide) hsegs
  exact ⟨l, hup, hl⟩

theorem textSegment_room :
    ∀ g ∈ [textSegment 0 2], g.vaddr + g.memsz + 4096 ≤ 2 ^ 39 := by
  intro g hg
  rw [List.mem_singleton.mp hg]
  decide

section

variable [FrameSource σ] {s : Machine σ} {cpu : Bool} {elf : Slice} {l : Loaded σ} {i : Fin 512}
  {n : Nat} {segs : List Segment} {k : Kernel σ}
  (htree : s.Tree) (hsupply : Supplies s.frames fun f => f < 2 ^ 40 ∧ ¬ s.Reachable (f * 4096))
  (hclosed : ∀ v, Canonical v → ¬ s.UserAccessible v) (hfree : s.findFreeTopIndex = some i)
  (hsegs : loadSegments elf [] = .ok (n, segs)) (hup : bringUp cpu elf s = .ok (some l))
  (hin : ∀ g ∈ segs, g.vaddr + g.memsz + 4096 ≤ 2 ^ 39)
  (hmachine : k.machine = l.machine) (hrange : k.range = l.range)

include hfree hsegs hup

/-- The load that `bring_up` made. -/
theorem loadProgram_of_bringUp :
    i.val < 256 ∧ loadProgram (i.val * 2 ^ 39) elf segs s = .ok l := by
  obtain ⟨i', n', segs', hfree', hlt, hsegs', hl⟩ := bringUp_eq_ok hup
  obtain rfl := Option.some.inj (hfree'.symm.trans hfree)
  obtain ⟨-, rfl⟩ := Prod.mk.inj (Except.ok.inj (hsegs'.symm.trans hsegs))
  exact ⟨hlt, hl⟩

include htree hsupply hclosed hin hmachine hrange

theorem confined_of_bringUp (hsz : ∀ g ∈ segs, g.filesz ≤ g.memsz) :
    Confined i s.mem (fun f => ∃ n, f ∈ handed n s.frames) k := by
  obtain ⟨hlt, hl⟩ := loadProgram_of_bringUp hfree hsegs hup
  constructor
  · rw [hmachine]
    exact loadProgram_confines hlt htree hsupply hclosed hfree hin hsz hl
  · intro src n hr
    rw [hrange] at hr
    have hroom := stackIndex_le hin
    by_cases hpos : 0 < i.val
    · have hbase : 0 < i.val * 2 ^ 39 := Nat.mul_pos hpos (Nat.two_pow_pos 39)
      obtain ⟨hlo, hhi⟩ := (inUserRange_loaded hbase (by omega) hl).mp hr
      rw [Nat.add_assoc] at hhi
      exact ⟨hlo, hhi.trans (Nat.add_le_add_left hroom _)⟩
    · -- A program at base zero has no range.
      have hstart : l.range.start = 0 := by
        rw [(loadProgram_mapped hl).2.1]
        change i.val * 2 ^ 39 = 0
        omega
      simp [inUserRange, hstart] at hr

/-- **A program has a memory of its own.** Where the tables form a tree that lets ring 3 reach
nothing, the allocator hands out new frames, and the segments of an ELF file lie in their
region, with room for the stack page, and are not shorter than their file parts: once
`bring_up` has loaded the file, whatever the program loads, stores and calls, at whatever
addresses, every outcome is that of a process with a memory of bytes, up to the first fault.
The kernel's translations, what ring 3 can reach, the user range and all memory but the
program's bytes stay as they are. -/
theorem program_runs_as_process (hsz : ∀ g ∈ segs, g.filesz ≤ g.memsz) (actions : List Action) :
    perform Process.act actions k.process =
        ((perform Kernel.act actions k).1, (perform Kernel.act actions k).2.process) ∧
      Untouched i k (perform Kernel.act actions k).2 := by
  have hlt := (loadProgram_of_bringUp hfree hsegs hup).1
  have hconf := confined_of_bringUp htree hsupply hclosed hfree hsegs hup hin hmachine hrange hsz
  obtain ⟨heq, -, hkept⟩ := hconf.perform_eq hlt actions
  exact ⟨heq, hkept⟩

/-- **The console shows the file.** If moreover the file's segments are loadable, and the base
is not zero: whatever the program has done, as long as it has not stored to them and the
counter of calls has not overflowed, `SYS_PUTS` prints the bytes of the file for as much as 64
bytes of a segment, and calls that a success. -/
theorem puts_prints_file (hd : Describes elf segs) (hload : Loadable segs) (hpos : 0 < i.val)
    {g : Segment} (hg : g ∈ segs) {j len : Nat} (hj : j + min len 64 ≤ g.memsz)
    {actions : List Action}
    (hkeep : ∀ m < min len 64, ∀ b,
      Action.store (i.val * 2 ^ 39 + g.vaddr + (j + m)) b ∉ actions)
    (hcount : k.syscalls + actions.length + 1 < 2 ^ 64) (a2 a3 userRsp : Nat) :
    (syscallDispatch sysPuts (i.val * 2 ^ 39 + g.vaddr + j) len a2 a3 userRsp
        (perform Kernel.act actions k).2).map Prod.fst =
      .ok ⟨writeStr "LIONOS_SYS_PUTS ok=1 str=\"" ++
        (List.range (min len 64)).map (fun m => elf.mem (g.fileOff + (j + m))) ++
          writeStr "\"\r\n", 0⟩ := by
  obtain ⟨hlt, hl⟩ := loadProgram_of_bringUp hfree hsegs hup
  have hconf := confined_of_bringUp htree hsupply hclosed hfree hsegs hup hin hmachine hrange
    hd.filesz_le
  obtain ⟨heq, hconf', hkept⟩ := hconf.perform_eq hlt actions
  have hcalls := Process.syscalls_perform k.process actions
  rw [heq] at hcalls
  generalize (perform Kernel.act actions k).2 = k' at heq hconf' hkept hcalls ⊢
  have hcount' : k'.syscalls + 1 < 2 ^ 64 := (Nat.succ_le_succ hcalls).trans_lt hcount
  have himage := loadProgram_image hlt htree hsupply hfree hd hload hin hl
  have hfull : ∀ m < min len 64, j + m < g.filesz := by
    intro m hm
    have hback := hload.backed hd hg (v := g.vaddr + (j + m)) ⟨by omega, by omega⟩
    omega
  have hmem : ∀ m < min len 64, k'.process.memory (i.val * 2 ^ 39 + g.vaddr + j + m) =
      some (elf.mem (g.fileOff + (j + m))) := by
    intro m hm
    have hroom := hin g hg
    have hproc : k'.process = (perform Process.act actions k.process).2 := by rw [heq]
    rw [hproc, Nat.add_assoc _ j m, Process.memory_perform (hkeep m hm), Nat.add_assoc,
      hconf.memory_region hlt (by omega), hmachine, ← Nat.add_assoc, himage g hg _ (by omega),
      if_pos (hfull m hm)]
  have hpass : inUserRange k'.range (i.val * 2 ^ 39 + g.vaddr + j) (min len 64) = true := by
    have hbase : 0 < i.val * 2 ^ 39 := Nat.mul_pos hpos (Nat.two_pow_pos 39)
    rw [hkept.range, hrange, inUserRange_loaded hbase (by omega) hl]
    have hend : g.vaddr + g.memsz ≤ stackIndex segs * 4096 := by
      by_contra hlt
      have := lt_stackIndex.mpr ⟨g, hg, Nat.lt_of_not_le hlt⟩
      omega
    omega
  have hputs : puts (i.val * 2 ^ 39 + g.vaddr + j) len k' =
      .ok ⟨writeStr "LIONOS_SYS_PUTS ok=1 str=\"" ++
        (List.range (min len 64)).map (fun m => elf.mem (g.fileOff + (j + m))) ++
          writeStr "\"\r\n", 0⟩ := by
    rw [← hconf'.puts_eq hlt]
    have hcopy : k'.process.copyIn (i.val * 2 ^ 39 + g.vaddr + j) (min len 64) =
        .ok (some ((List.range (min len 64)).map fun m => elf.mem (g.fileOff + (j + m)))) := by
      have hpass' : inUserRange k'.process.range _ _ = true := hpass
      rw [Process.copyIn, if_pos hpass', Process.bytes_eq hmem]
    have htext : writeStr "LIONOS_SYS_PUTS ok=" ++ [0x31] ++ writeStr " str=\"" =
        writeStr "LIONOS_SYS_PUTS ok=1 str=\"" := by decide
    have hdec : writeDec 1 = .ok [0x31] := rfl
    rw [Process.puts, hcopy, ← htext]
    simp only [Bind.bind, Except.bind, Option.isSome_some, if_true, hdec, Option.getD_some]
  have hdispatch : syscallDispatch sysPuts (i.val * 2 ^ 39 + g.vaddr + j) len a2 a3 userRsp k' =
      (puts (i.val * 2 ^ 39 + g.vaddr + j) len { k' with syscalls := k'.syscalls + 1 }).map
        fun r => (r, { k' with syscalls := k'.syscalls + 1 }) := by
    rw [syscallDispatch, checked_of_lt hcount']
    rfl
  have hputs' : puts (i.val * 2 ^ 39 + g.vaddr + j) len { k' with syscalls := k'.syscalls + 1 } =
      puts (i.val * 2 ^ 39 + g.vaddr + j) len k' := rfl
  rw [hdispatch, hputs', hputs]
  rfl

end

/-- The program writes over its own first byte, reads it back, and faults at address zero. -/
theorem text_runs_as_process :
    ∃ l, bringUp true (textElf 0 2) bootMachine = .ok (some l) ∧
      (perform Kernel.act [.store 0x8000000000 7, .load 0x8000000000, .load 0]
        ⟨l.machine, 0, Mailbox.new, l.range⟩).1 =
          [.ok .stored, .ok (.byte 7), .error .pageFault] := by
  obtain ⟨l, hup, hl⟩ := bringUp_text_zero
  have hd : Describes (textElf 0 2) [textSegment 0 2] := textSegment_describes le_rfl
  obtain ⟨heq, -⟩ := program_runs_as_process (k := ⟨l.machine, 0, Mailbox.new, l.range⟩)
    bootMachine_tree bootMachine_supplies (fun v _ => bootMachine_closed v) bootMachine_free
    loadSegments_text hup textSegment_room rfl rfl hd.filesz_le
    [.store 0x8000000000 7, .load 0x8000000000, .load 0]
  have hconf := confined_of_bringUp (k := ⟨l.machine, 0, Mailbox.new, l.range⟩)
    bootMachine_tree bootMachine_supplies (fun v _ => bootMachine_closed v) bootMachine_free
    loadSegments_text hup textSegment_room rfl rfl hd.filesz_le
  have himage := loadProgram_image (by decide) bootMachine_tree bootMachine_supplies
    bootMachine_free hd (textSegment_loadable rfl) textSegment_room hl
  have hfirst := (hconf.memory_region (by decide) (v := 0) (by decide)).trans
    (himage _ List.mem_cons_self 0 (by decide))
  have hzero : (Kernel.process ⟨l.machine, 0, Mailbox.new, l.range⟩).memory 0 = none := by
    refine Option.eq_none_iff_forall_ne_some.mpr fun b hb => ?_
    obtain ⟨w, -, hw, -⟩ := hconf.region_of_memory (by decide) hb
    have hval : (1 : Fin 512).val = 1 := rfl
    rw [hval] at hw
    omega
  refine ⟨l, hup, (congrArg Prod.fst heq).symm.trans ?_⟩
  have hmem : ((Kernel.process ⟨l.machine, 0, Mailbox.new, l.range⟩).memory 0x8000000000).isSome =
      true := by
    rw [show (0x8000000000 : Nat) = (1 : Fin 512).val * 2 ^ 39 + 0 from rfl, hfirst]
    rfl
  simp [perform, Process.act, hmem, hzero]

/-- It prints its two bytes after it has stored to its stack. -/
theorem puts_prints_text :
    ∃ l, bringUp true (textElf 0 2) bootMachine = .ok (some l) ∧
      (syscallDispatch sysPuts 0x8000000000 2 0 0 0
          (perform Kernel.act [.store 0x8000001000 5] ⟨l.machine, 0, Mailbox.new, l.range⟩).2).map
            Prod.fst =
        .ok ⟨writeStr "LIONOS_SYS_PUTS ok=1 str=\"" ++ [0x90, 0xC3] ++ writeStr "\"\r\n", 0⟩ := by
  obtain ⟨l, hup, -⟩ := bringUp_text_zero
  have hd : Describes (textElf 0 2) [textSegment 0 2] := textSegment_describes le_rfl
  have hj : 0 + min 2 64 ≤ (textSegment 0 2).memsz := by decide
  have hcount : 0 + [Action.store 0x8000001000 5].length + 1 < 2 ^ 64 := by decide
  have hkeep : ∀ m < min 2 64, ∀ b,
      Action.store ((1 : Fin 512).val * 2 ^ 39 + (textSegment 0 2).vaddr + (0 + m)) b ∉
        [Action.store 0x8000001000 5] := by
    intro m hm b hb
    have haddr := (Action.store.inj (List.mem_singleton.mp hb)).1
    have hbase : (1 : Fin 512).val * 2 ^ 39 + (textSegment 0 2).vaddr = 0x8000000000 := rfl
    omega
  have hputs := puts_prints_file (k := ⟨l.machine, 0, Mailbox.new, l.range⟩) bootMachine_tree
    bootMachine_supplies (fun v _ => bootMachine_closed v) bootMachine_free loadSegments_text hup
    textSegment_room rfl rfl hd (textSegment_loadable rfl) (by decide) List.mem_cons_self hj
    hkeep hcount 0 0 0
  exact ⟨l, hup, hputs⟩

end LionOS.Syscall
