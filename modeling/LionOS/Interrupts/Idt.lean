import LionOS.Gdt.Descriptors
import LionOS.Lib.Bits

/-!
# The interrupt descriptor table

A table of 256 gates of 16 bytes, laid out by `repr(C)`. `init` fills in the gates of the
faults and loads the table's address, and `install` changes gates in place after that. The
processor decodes the sixteen bytes of a vector by its own manual.
-/

namespace LionOS.Interrupts

open Lib

/-- Fields of `IdtEntry`, in declaration order. -/
inductive IdtField where
  | baseLow | selector | ist | typeAttr | baseMid | baseHi | reserved
  deriving DecidableEq, Repr

/-- One gate. -/
structure IdtEntry where
  baseLow : Nat
  selector : Nat
  ist : Nat
  typeAttr : Nat
  baseMid : Nat
  baseHi : Nat
  reserved : Nat
  deriving DecidableEq, Repr

namespace IdtEntry

/-- The layout of a gate. -/
def layout : CStruct IdtField where
  fields := [.baseLow, .selector, .ist, .typeAttr, .baseMid, .baseHi, .reserved]
  type
    | .baseLow | .selector | .baseMid => .uint 2
    | .ist | .typeAttr => .uint 1
    | .baseHi | .reserved => .uint 4
  align_pos f := by cases f <;> decide

/-- The value of each field. -/
def value (e : IdtEntry) : IdtField → Nat
  | .baseLow => e.baseLow
  | .selector => e.selector
  | .ist => e.ist
  | .typeAttr => e.typeAttr
  | .baseMid => e.baseMid
  | .baseHi => e.baseHi
  | .reserved => e.reserved

/-- The all-zero gate, which is not present. -/
def missing : IdtEntry := ⟨0, 0, 0, 0, 0, 0, 0⟩

/-- A present 64-bit interrupt gate for ring 0. -/
def interruptGate (handler selector ist : Nat) : IdtEntry where
  baseLow := handler &&& 0xFFFF
  selector := selector
  ist := ist &&& 0x07
  typeAttr := 0x8E
  baseMid := (handler >>> 16) &&& 0xFFFF
  baseHi := (handler >>> 32) &&& 0xFFFFFFFF
  reserved := 0

/-- Store a gate at `a`. -/
def store (e : IdtEntry) (m : Mem) (a : Nat) : Mem := layout.store m a e.value

end IdtEntry

/-- `IDT_SIZE`. -/
def idtSize : Nat := 256

/-- `Idt::new` in memory at `a`: every gate is missing. -/
def idtNew (m : Mem) (a : Nat) : Mem :=
  (List.range idtSize).foldl (fun m i => IdtEntry.missing.store m (a + 16 * i)) m

/-- `Idt::set` on the table at `a`. -/
def idtSet (m : Mem) (a : Nat) (index : UInt8) (handler : UInt64) (ist : UInt8) : Mem :=
  (IdtEntry.interruptGate handler.toNat Gdt.kernelCode ist.toNat).store m (a + 16 * index.toNat)

/-- What `lidt` is given: the last byte of the table, and its address. -/
structure Idtr where
  limit : Nat
  base : Nat
  deriving DecidableEq, Repr

/-- `idtr_of`, with the 16-bit limit. -/
def idtrOf (a : Nat) : Idtr := ⟨(16 * idtSize - 1) % 2 ^ 16, a⟩

/-- A gate as the manual decodes it. -/
structure Gate where
  present : Bool
  dpl : Nat
  kind : Nat
  ist : Nat
  selector : Nat
  offset : Nat
  deriving DecidableEq, Repr

/-- The sixteen bytes at `a`: the offset in three parts, the selector, three bits of the
interrupt stack table, and the byte with the type, the privilege level and the present bit. -/
def hardwareGate (m : Mem) (a : Nat) : Gate where
  present := readLE m (a + 5) 1 / 128 % 2 == 1
  dpl := readLE m (a + 5) 1 / 32 % 4
  kind := readLE m (a + 5) 1 % 16
  ist := readLE m (a + 4) 1 % 8
  selector := readLE m (a + 2) 2
  offset := readLE m a 2 + 2 ^ 16 * readLE m (a + 6) 2 + 2 ^ 32 * readLE m (a + 8) 4

/-- The gate of a vector, if the whole of it is within the limit. -/
def vectorGate (m : Mem) (idtr : Idtr) (vector : UInt8) : Option Gate :=
  if 16 * vector.toNat + 15 ≤ idtr.limit then
    some (hardwareGate m (idtr.base + 16 * vector.toNat))
  else none

variable {m m' : Mem} {a : Nat}

theorem IdtEntry.offsets : layout.offsets = [(.baseLow, 0), (.selector, 2), (.ist, 4),
    (.typeAttr, 5), (.baseMid, 6), (.baseHi, 8), (.reserved, 12)] ∧ layout.size = 16 := by
  decide

theorem IdtEntry.finish : layout.finish layout.fields 0 = 16 := by
  decide

/-- A gate depends on its sixteen bytes. -/
theorem hardwareGate_congr (h : ∀ x, a ≤ x → x < a + 16 → m x = m' x) :
    hardwareGate m a = hardwareGate m' a := by
  have hread : ∀ o n, o + n ≤ 16 → readLE m (a + o) n = readLE m' (a + o) n :=
    fun o n ho => readLE_congr fun x hx hx' => h x (by omega) (by omega)
  have hlow := hread 0 2 (by omega)
  rw [Nat.add_zero] at hlow
  simp only [hardwareGate, hlow, hread 2 2 (by omega), hread 4 1 (by omega), hread 5 1 (by omega),
    hread 6 2 (by omega), hread 8 4 (by omega)]

/-- Storing a gate changes its sixteen bytes. -/
theorem IdtEntry.store_of_outside (e : IdtEntry) (m : Mem) {a x : Nat}
    (h : x < a ∨ a + 16 ≤ x) : e.store m a x = m x := by
  refine CStruct.store_of_outside ?_
  rwa [IdtEntry.finish]

/-- The fields fit their types. -/
def IdtEntry.Fits (e : IdtEntry) : Prop := ∀ f, e.value f < 256 ^ (layout.type f).size

/-- What the processor finds in a stored gate. -/
theorem hardwareGate_store {e : IdtEntry} (h : e.Fits) (m : Mem) (a : Nat) :
    hardwareGate (e.store m a) a =
      { present := e.typeAttr / 128 % 2 == 1
        dpl := e.typeAttr / 32 % 4
        kind := e.typeAttr % 16
        ist := e.ist % 8
        selector := e.selector
        offset := e.baseLow + 2 ^ 16 * e.baseMid + 2 ^ 32 * e.baseHi } := by
  have hread : ∀ f o, (f, o) ∈ IdtEntry.layout.offsets →
      readLE (e.store m a) (a + o) (IdtEntry.layout.type f).size = e.value f := by
    intro f o hmem
    rw [IdtEntry.store, CStruct.readLE_store hmem, Nat.mod_eq_of_lt (h f)]
  obtain ⟨hoffsets, -⟩ := IdtEntry.offsets
  rw [hoffsets] at hread
  have hlow : readLE (e.store m a) a 2 = e.baseLow := hread .baseLow 0 (by simp)
  have hselector : readLE (e.store m a) (a + 2) 2 = e.selector := hread .selector 2 (by simp)
  have hist : readLE (e.store m a) (a + 4) 1 = e.ist := hread .ist 4 (by simp)
  have htype : readLE (e.store m a) (a + 5) 1 = e.typeAttr := hread .typeAttr 5 (by simp)
  have hmid : readLE (e.store m a) (a + 6) 2 = e.baseMid := hread .baseMid 6 (by simp)
  have hhigh : readLE (e.store m a) (a + 8) 4 = e.baseHi := hread .baseHi 8 (by simp)
  simp only [hardwareGate, hlow, hselector, hist, htype, hmid, hhigh]

/-- The gate of a handler in ring 0. -/
def Gate.interrupt (handler : UInt64) (ist : UInt8) : Gate where
  present := true
  dpl := 0
  kind := 0xE
  ist := ist.toNat % 8
  selector := Gdt.kernelCode
  offset := handler.toNat

/-- The gate of an entry that was never set. -/
def Gate.absent : Gate := ⟨false, 0, 0, 0, 0, 0⟩

/-- The processor finds nothing present in a missing gate. -/
theorem hardwareGate_missing (m : Mem) (a : Nat) :
    hardwareGate (IdtEntry.missing.store m a) a = Gate.absent :=
  hardwareGate_store (fun f => by cases f <;> decide) m a

/-- The parts of an address are cut to their fields. -/
private theorem interruptGate_eq (handler : UInt64) (ist : UInt8) :
    IdtEntry.interruptGate handler.toNat Gdt.kernelCode ist.toNat =
      ⟨handler.toNat % 2 ^ 16, Gdt.kernelCode, ist.toNat % 2 ^ 3, 0x8E,
        handler.toNat / 2 ^ 16 % 2 ^ 16, handler.toNat / 2 ^ 32 % 2 ^ 32, 0⟩ := by
  have hlow : handler.toNat &&& 0xFFFF = handler.toNat % 2 ^ 16 :=
    Nat.and_two_pow_sub_one_eq_mod _ 16
  have hmid : (handler.toNat >>> 16) &&& 0xFFFF = handler.toNat / 2 ^ 16 % 2 ^ 16 :=
    shiftRight_and_field _ 16 16
  have hhigh : (handler.toNat >>> 32) &&& 0xFFFFFFFF = handler.toNat / 2 ^ 32 % 2 ^ 32 :=
    shiftRight_and_field _ 32 32
  have hist : ist.toNat &&& 0x07 = ist.toNat % 2 ^ 3 := Nat.and_two_pow_sub_one_eq_mod _ 3
  rw [IdtEntry.interruptGate, hlow, hmid, hhigh, hist]

/-- The processor finds the whole handler address and three bits of `ist` in a gate. -/
theorem hardwareGate_interruptGate (m : Mem) (a : Nat) (handler : UInt64) (ist : UInt8) :
    hardwareGate ((IdtEntry.interruptGate handler.toNat Gdt.kernelCode ist.toNat).store m a) a =
      Gate.interrupt handler ist := by
  have hlt : handler.toNat < 2 ^ 64 := handler.toNat_lt
  rw [interruptGate_eq, hardwareGate_store]
  · have hoffset : handler.toNat % 2 ^ 16 + 2 ^ 16 * (handler.toNat / 2 ^ 16 % 2 ^ 16) +
        2 ^ 32 * (handler.toNat / 2 ^ 32 % 2 ^ 32) = handler.toNat := by omega
    have hist : ist.toNat % 2 ^ 3 % 8 = ist.toNat % 8 := by omega
    simp only [Gate.interrupt, hoffset, hist]
    rfl
  · intro f
    cases f with
    | baseLow => exact Nat.mod_lt _ (by decide)
    | selector => exact (by decide : Gdt.kernelCode < 256 ^ 2)
    | ist => exact (Nat.mod_lt _ (by decide)).trans (by decide : 2 ^ 3 < 256 ^ 1)
    | typeAttr => exact (by decide : 0x8E < 256 ^ 1)
    | baseMid => exact Nat.mod_lt _ (by decide)
    | baseHi => exact Nat.mod_lt _ (by decide)
    | reserved => exact (by decide : 0 < 256 ^ 4)

/-- A call that sets a gate: the vector, the handler and the interrupt stack. -/
abbrev SetCall := UInt8 × UInt64 × UInt8

/-- The memory behind calls on the table at `a`. -/
def setAll (a : Nat) (m : Mem) (calls : List SetCall) : Mem :=
  calls.foldl (fun m c => idtSet m a c.1 c.2.1 c.2.2) m

/-- The gate of the last call for a vector. -/
def lastGate (vector : UInt8) (calls : List SetCall) : Gate :=
  calls.foldl (fun g c => if c.1 = vector then Gate.interrupt c.2.1 c.2.2 else g) Gate.absent

/-- No gate of a new table is present. -/
theorem hardwareGate_idtNew (m : Mem) (a : Nat) (vector : UInt8) :
    hardwareGate (idtNew m a) (a + 16 * vector.toNat) = Gate.absent := by
  have hindex : vector.toNat < idtSize := vector.toNat_lt
  rw [idtNew]
  generalize idtSize = n at hindex
  induction n with
  | zero => omega
  | succ n ih =>
    rw [List.range_succ, List.foldl_append, List.foldl_cons, List.foldl_nil]
    by_cases hlast : vector.toNat = n
    · rw [hlast, hardwareGate_missing]
    · rw [← ih (by omega)]
      exact hardwareGate_congr fun x hx hx' => IdtEntry.store_of_outside _ _ (by omega)

theorem idtNew_of_outside (m : Mem) {a x : Nat} (h : x < a ∨ a + 16 * idtSize ≤ x) :
    idtNew m a x = m x := by
  rw [idtNew]
  generalize idtSize = n at h
  induction n with
  | zero => rfl
  | succ n ih =>
    rw [List.range_succ, List.foldl_append, List.foldl_cons, List.foldl_nil,
      IdtEntry.store_of_outside _ _ (by omega), ih (by omega)]

/-- One call changes the gate of its vector. -/
private theorem hardwareGate_idtSet (m : Mem) (a : Nat) (index vector : UInt8) (handler : UInt64)
    (ist : UInt8) :
    hardwareGate (idtSet m a index handler ist) (a + 16 * vector.toNat) =
      if index = vector then Gate.interrupt handler ist
      else hardwareGate m (a + 16 * vector.toNat) := by
  by_cases h : index = vector
  · rw [if_pos h, ← h]
    exact hardwareGate_interruptGate ..
  · rw [if_neg h]
    have hne : index.toNat ≠ vector.toNat := fun heq => h (UInt8.toNat_inj.mp heq)
    exact hardwareGate_congr fun x hx hx' => IdtEntry.store_of_outside _ _ (by omega)

/-- The gates behind calls are those of the last call for each vector. -/
theorem hardwareGate_setAll {calls : List SetCall} {g : Gate} {vector : UInt8}
    (h : hardwareGate m (a + 16 * vector.toNat) = g) :
    hardwareGate (setAll a m calls) (a + 16 * vector.toNat) =
      calls.foldl (fun g c => if c.1 = vector then Gate.interrupt c.2.1 c.2.2 else g) g := by
  induction calls generalizing m g with
  | nil => exact h
  | cons c calls ih =>
    refine ih ?_
    rw [hardwareGate_idtSet, h]

theorem setAll_of_outside {calls : List SetCall} {x : Nat} (h : x < a ∨ a + 16 * idtSize ≤ x) :
    setAll a m calls x = m x := by
  induction calls generalizing m with
  | nil => rfl
  | cons c calls ih =>
    have hindex : c.1.toNat < 256 := c.1.toNat_lt
    refine ih.trans (IdtEntry.store_of_outside _ _ ?_)
    rw [idtSize] at h
    omega

/-- The addresses of the handlers. -/
structure Handlers where
  divideError : UInt64
  invalidOpcode : UInt64
  doubleFault : UInt64
  generalProtectionFault : UInt64
  pageFault : UInt64
  timerIsr : UInt64
  keyboardIsr : UInt64
  mouseIsr : UInt64

/-- The gates of `idt::init`. -/
def Handlers.idtInit (h : Handlers) : List SetCall :=
  [(0x00, h.divideError, 0), (0x06, h.invalidOpcode, 0), (0x08, h.doubleFault, 1),
    (0x0D, h.generalProtectionFault, 0), (0x0E, h.pageFault, 0)]

/-- The gates of `interrupts::init`, in front of and behind `lidt`. -/
def Handlers.gates (h : Handlers) : List SetCall :=
  h.idtInit ++ [(0x20, h.timerIsr, 0), (0x21, h.keyboardIsr, 0), (0x2C, h.mouseIsr, 0)]

/-- **Every vector goes to its last handler.** The kernel's table lies anywhere in any memory.
After `init` and whatever calls of `install` follow, the processor finds for each of the 256
vectors the ring-0 interrupt gate of the last call for it, with the whole 64-bit address and
the stack index cut to three bits, and a gate that is not present if there was no call. No
byte outside of the table has changed. -/
theorem vectors_after_installs (m : Mem) (a : Nat) (h : Handlers) (installs : List SetCall) :
    let m' := setAll a (idtNew m a) (h.gates ++ installs)
    (∀ vector, vectorGate m' (idtrOf a) vector = some (lastGate vector (h.gates ++ installs))) ∧
      ∀ x, (x < a ∨ a + 16 * idtSize ≤ x) → m' x = m x := by
  refine ⟨fun vector => ?_, fun x hx => ?_⟩
  · have hindex : vector.toNat < 256 := vector.toNat_lt
    rw [vectorGate, if_pos (by simp only [idtrOf, idtSize]; omega)]
    exact congrArg some (hardwareGate_setAll (hardwareGate_idtNew m a vector))
  · rw [setAll_of_outside hx, idtNew_of_outside m hx]

end LionOS.Interrupts
