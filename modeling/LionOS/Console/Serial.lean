import LionOS.User.Elf

/-!
# The serial console

Each writer is the list of bytes it sends to COM1. The lock around every message
and the wait for the transmitter do not change which bytes go out.
-/

namespace LionOS.Console

open User

/-- The bytes of a string. -/
def writeStr (s : String) : List UInt8 := s.toUTF8.data.toList

/-- The digits `write_hex` picks from. -/
def hexDigits : List UInt8 :=
  [0x30, 0x31, 0x32, 0x33, 0x34, 0x35, 0x36, 0x37, 0x38, 0x39, 0x61, 0x62, 0x63, 0x64, 0x65, 0x66]

/-- A machine word as sixteen lower-case hexadecimal digits, the highest first. -/
def writeHex (value : Nat) : List UInt8 :=
  (List.range 16).reverse.map fun k => hexDigits.getD (value >>> (4 * k) &&& 0xF) 0

/-- The digit loop of `write_dec` with `i` bytes of the buffer still free and the digits
in `out` behind them. The index would go below zero when the buffer is full. -/
def decLoop (n : Nat) (out : List UInt8) : Nat → Except Halt (List UInt8)
  | 0 => if n = 0 then .ok out else .error .overflow
  | i + 1 =>
    if n = 0 then .ok out
    else decLoop (n / 10) (UInt8.ofNat (0x30 + n % 10) :: out) i

/-- A machine word in decimal. -/
def writeDec (value : Nat) : Except Halt (List UInt8) :=
  if value = 0 then .ok [0x30] else decLoop value [] 20

/-- The buffer has room for a number of `i` digits. -/
theorem decLoop_ok {i n : Nat} (out : List UInt8) (h : n < 10 ^ i) :
    ∃ bytes, decLoop n out i = .ok bytes := by
  induction i generalizing n out with
  | zero => exact ⟨out, if_pos (by simpa using h)⟩
  | succ i ih =>
    by_cases hn : n = 0
    · exact ⟨out, if_pos hn⟩
    · obtain ⟨bytes, hb⟩ := ih (UInt8.ofNat (0x30 + n % 10) :: out)
        (show n / 10 < 10 ^ i by rw [Nat.pow_succ] at h; omega)
      exact ⟨bytes, by rw [decLoop, if_neg hn, hb]⟩

/-- Every machine word is written: twenty digits are enough. -/
theorem writeDec_ok {value : Nat} (h : value < 2 ^ 64) : ∃ bytes, writeDec value = .ok bytes := by
  unfold writeDec
  split
  next => exact ⟨_, rfl⟩
  next => exact decLoop_ok [] (by omega)

end LionOS.Console
