import Mathlib.Data.UInt
import Mathlib.Logic.Function.Basic
import Mathlib.Logic.Relation
import Mathlib.Tactic.Common

/-!
# The virtio queue

The driver and the device share one request buffer, three descriptors and the two rings.
`xfer` stores a request, publishes it and polls for a completion; the device fetches what
has been published and completes it later. The steps of the two interleave freely: every
store of the driver and every byte of the device is a step of its own.
-/

namespace LionOS.Virtio

def descFNext : Nat := 0x0001

def descFWrite : Nat := 0x0002

/-- A descriptor of the queue. -/
structure Descriptor where
  addr : Nat
  len : Nat
  flags : Nat
  next : Nat
  deriving DecidableEq, Repr

/-- The frames the driver shares with the device: the request with its header, data and
status, the descriptors, `avail.idx` with its ring, and `used.idx`. -/
structure Shared where
  reqType : Nat
  reserved : Nat
  sector : Nat
  data : Nat → UInt8
  status : UInt8
  desc : Nat → Descriptor
  availIdx : UInt16
  ring : Nat → UInt16
  usedIdx : UInt16

/-- A store of the driver. -/
inductive Store where
  | reqType (v : Nat)
  | reserved (v : Nat)
  | sector (v : Nat)
  | status (v : UInt8)
  | descAddr (n v : Nat)
  | descLen (n v : Nat)
  | descFlags (n v : Nat)
  | descNext (n v : Nat)
  | availIdx (v : UInt16)
  | ring (slot : Nat) (v : UInt16)
  deriving DecidableEq, Repr

/-- The memory after a store. -/
def Shared.store (m : Shared) : Store → Shared
  | .reqType v => { m with reqType := v }
  | .reserved v => { m with reserved := v }
  | .sector v => { m with sector := v }
  | .status v => { m with status := v }
  | .descAddr n v => { m with desc := Function.update m.desc n { m.desc n with addr := v } }
  | .descLen n v => { m with desc := Function.update m.desc n { m.desc n with len := v } }
  | .descFlags n v => { m with desc := Function.update m.desc n { m.desc n with flags := v } }
  | .descNext n v => { m with desc := Function.update m.desc n { m.desc n with next := v } }
  | .availIdx v => { m with availIdx := v }
  | .ring slot v => { m with ring := Function.update m.ring slot v }

/-- The memory after a list of stores. -/
def Shared.stores (m : Shared) (l : List Store) : Shared := l.foldl Shared.store m

/-- What `setup_queue` has settled: the size of the queue and the request frame. -/
structure Queue where
  qsz : UInt16
  buf : Nat
  qsz_pos : 0 < qsz.toNat
  qsz_le : qsz.toNat ≤ 256

/-- Write the descriptor `n`. -/
def writeDes (n addr len flags next : Nat) : List Store :=
  [.descAddr n addr, .descLen n len, .descFlags n flags, .descNext n next]

/-- The stores of `xfer` that lay down the request. -/
def prepare (q : Queue) (lba : Nat) : List Store :=
  [.reqType 0, .reserved 0, .sector lba, .status 0] ++
    writeDes 0 q.buf 16 descFNext 1 ++
    writeDes 1 (q.buf + 512) 512 (descFWrite ||| descFNext) 2 ++
    writeDes 2 (q.buf + 1024) 1 descFWrite 0

/-- The stores of `xfer` that publish it. -/
def publish (q : Queue) (head : UInt16) : List Store :=
  [.availIdx (head + 1), .ring (head % q.qsz).toNat 0]

/-- The stores of `xfer`, in order. -/
def xferStores (q : Queue) (head : UInt16) (lba : Nat) : List Store :=
  prepare q lba ++ publish q head

/-- How often `xfer` looks for a completion. -/
def pollBound : Nat := 40000000

/-- A read of sector `lba` into `out`. -/
structure Read where
  lba : Nat
  out : Nat → UInt8

/-- Where the driver is: between calls, with stores to go, about to read `used.idx`, polling
with some turns left, copying the data out, or back with a result. -/
inductive Driver where
  | idle
  | storing (r : Read) (rest : List Store)
  | poking (r : Read)
  | polling (r : Read) (done : UInt16) (left : Nat)
  | copying (r : Read) (n : Nat)
  | returned (r : Read) (ok : Bool)

/-- How far the device is with a request: so many bytes of data written, or everything but
`used.idx`. -/
inductive Stage where
  | writing (n : Nat)
  | answered
  deriving DecidableEq, Repr

/-- A request the device has fetched. -/
structure Job where
  sector : Nat
  stage : Stage
  deriving DecidableEq, Repr

/-- The driver, the device and what they share; `seen` is how much of the avail ring the
device has fetched. -/
structure Sys where
  mem : Shared
  driver : Driver
  availHead : UInt16
  seen : UInt16
  jobs : List Job

/-- No call of `xfer` is under way. -/
def Driver.between : Driver → Prop
  | .idle | .returned _ _ => True
  | _ => False

/-- A step of the driver. Its callers call `xfer` in the states `may` holds of. -/
inductive DriverStep (q : Queue) (may : Sys → Prop) : Sys → Sys → Prop
  | call {s : Sys} (r : Read) (h : s.driver.between) (hmay : may s) :
    DriverStep q may s { s with driver := .storing r (xferStores q s.availHead r.lba) }
  | store {s : Sys} {r : Read} {st : Store} {rest : List Store}
      (h : s.driver = .storing r (st :: rest)) :
    DriverStep q may s { s with mem := s.mem.store st, driver := .storing r rest }
  | placed {s : Sys} {r : Read} (h : s.driver = .storing r []) :
    DriverStep q may s { s with driver := .poking r, availHead := s.availHead + 1 }
  | look {s : Sys} {r : Read} (h : s.driver = .poking r) :
    DriverStep q may s { s with driver := .polling r s.mem.usedIdx pollBound }
  | again {s : Sys} {r : Read} {done : UInt16} {left : Nat}
      (h : s.driver = .polling r done (left + 1)) (hused : s.mem.usedIdx = done) :
    DriverStep q may s { s with driver := .polling r done left }
  | giveUp {s : Sys} {r : Read} {done : UInt16} (h : s.driver = .polling r done 0) :
    DriverStep q may s { s with driver := .returned r false }
  | arrived {s : Sys} {r : Read} {done : UInt16} {left : Nat}
      (h : s.driver = .polling r done (left + 1)) (hused : s.mem.usedIdx ≠ done) :
    DriverStep q may s { s with driver := .copying r 0 }
  | copy {s : Sys} {r : Read} {n : Nat} (h : s.driver = .copying r n) (hn : n < 512) :
    DriverStep q may s
      { s with driver := .copying { r with out := Function.update r.out n (s.mem.data n) } (n + 1) }
  | finish {s : Sys} {r : Read} (h : s.driver = .copying r 512) :
    DriverStep q may s { s with driver := .returned r (s.mem.status == 0) }

/-- A step of the device. It fetches the header of the driver's chain once something is
published that it has not seen, writes the sector byte by byte, then the status, zero only
after all the data, and counts the request as used. Requests it has fetched make progress
in any order. -/
inductive DeviceStep (disk : Nat → Nat → UInt8) : Sys → Sys → Prop
  | fetch {s : Sys} (h : s.mem.availIdx ≠ s.seen) :
    DeviceStep disk s
      { s with seen := s.seen + 1, jobs := s.jobs ++ [⟨s.mem.sector, .writing 0⟩] }
  | data {s : Sys} {before after : List Job} {sector n : Nat}
      (h : s.jobs = before ++ ⟨sector, .writing n⟩ :: after) (hn : n < 512) :
    DeviceStep disk s
      { s with
        mem := { s.mem with data := Function.update s.mem.data n (disk sector n) }
        jobs := before ++ ⟨sector, .writing (n + 1)⟩ :: after }
  | status {s : Sys} {before after : List Job} {sector n : Nat} {v : UInt8}
      (h : s.jobs = before ++ ⟨sector, .writing n⟩ :: after) (hv : v = 0 → n = 512) :
    DeviceStep disk s
      { s with
        mem := { s.mem with status := v }
        jobs := before ++ ⟨sector, .answered⟩ :: after }
  | used {s : Sys} {before after : List Job} {sector : Nat}
      (h : s.jobs = before ++ ⟨sector, .answered⟩ :: after) :
    DeviceStep disk s
      { s with
        mem := { s.mem with usedIdx := s.mem.usedIdx + 1 }
        jobs := before ++ after }

/-- A step of either. -/
def Step (q : Queue) (disk : Nat → Nat → UInt8) (may : Sys → Prop) (s s' : Sys) : Prop :=
  DriverStep q may s s' ∨ DeviceStep disk s s'

/-- Any number of steps. -/
abbrev Reaches (q : Queue) (disk : Nat → Nat → UInt8) (may : Sys → Prop) : Sys → Sys → Prop :=
  Relation.ReflTransGen (Step q disk may)

/-- The state `setup_queue` leaves, with whatever the frames held before. -/
def Sys.start (m : Shared) : Sys where
  mem := m
  driver := .idle
  availHead := 0
  seen := 0
  jobs := []

section

variable {disk : Nat → Nat → UInt8} {s s' : Sys}

theorem DeviceStep.driver_eq (h : DeviceStep disk s s') : s'.driver = s.driver := by
  cases h <;> rfl

theorem DeviceStep.ring_eq (h : DeviceStep disk s s') : s'.mem.ring = s.mem.ring := by
  cases h <;> rfl

theorem DeviceStep.desc_eq (h : DeviceStep disk s s') : s'.mem.desc = s.mem.desc := by
  cases h <;> rfl

/-- With nothing to fetch and nothing under way the device is still. -/
theorem DeviceStep.not_quiet (h : DeviceStep disk s s') (hidx : s.mem.availIdx = s.seen)
    (hjobs : s.jobs = []) : False := by
  cases h with
  | fetch hnew => exact hnew hidx
  | data hj _ => simp [hjobs] at hj
  | status hj _ => simp [hjobs] at hj
  | used hj => simp [hjobs] at hj

end

end LionOS.Virtio
