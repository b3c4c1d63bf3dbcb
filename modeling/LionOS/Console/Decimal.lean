import LionOS.Console.Serial
import LionOS.Lib.Numerals

/-!
# Decimal output

`write_dec` and the clock's `dec_ascii` fill a buffer with digits from its end on. The first has
twenty bytes and takes one off its index in every turn; the second has twelve and also looks
whether there is room.
-/

namespace LionOS.Console

open Lib User

/-- The character of a digit. -/
def asciiDigit (d : Nat) : UInt8 := UInt8.ofNat (0x30 + d)

namespace Buffered

/-- The loop of `write_dec` on its buffer, from an index on. -/
def decLoop {size : Nat} (buf : Vector UInt8 size) (n : Nat) :
    (i : Nat) → i ≤ size → Except Halt (Vector UInt8 size × Nat)
  | 0, _ => if n = 0 then .ok (buf, 0) else .error .overflow
  | i + 1, h =>
    if n = 0 then .ok (buf, i + 1)
    else decLoop (buf.set i (asciiDigit (n % 10)) h) (n / 10) i (Nat.le_of_succ_le h)

/-- `write_dec` with its buffer of twenty bytes. -/
def writeDec (value : Nat) : Except Halt (List UInt8) :=
  if value = 0 then .ok [0x30]
  else
    (decLoop (Vector.replicate 20 0) value 20 le_rfl).map fun r => r.1.toList.drop r.2

/-- The loop of `dec_ascii`, which ends where the buffer does. -/
def asciiLoop {size : Nat} (buf : Vector UInt8 size) (n : Nat) :
    (i : Nat) → i ≤ size → Vector UInt8 size × Nat
  | 0, _ => (buf, 0)
  | i + 1, h =>
    if n = 0 then (buf, i + 1)
    else asciiLoop (buf.set i (asciiDigit (n % 10)) h) (n / 10) i (Nat.le_of_succ_le h)

end Buffered

/-- Render a number into the caller's buffer; the result is the text in it. -/
def decAscii (n : Nat) (buf : Vector UInt8 12) : List UInt8 :=
  let r :=
    if n = 0 then (buf.set 11 0x30 (Nat.lt_succ_self 11), 11)
    else Buffered.asciiLoop buf n 12 le_rfl
  r.1.toList.drop r.2

/-- The digit that a character is. -/
def digitValue (c : UInt8) : Nat := c.toNat - 0x30

/-- The characters write the number in decimal. -/
structure IsDecimal (bytes : List UInt8) (n : Nat) : Prop where
  ascii : ∀ c ∈ bytes, 0x30 ≤ c ∧ c ≤ 0x39
  numeral : IsNumeral 10 (bytes.map digitValue) n

variable {n i size : Nat} {out bytes : List UInt8} {buf : Vector UInt8 size}

theorem toNat_asciiDigit {d : Nat} (hd : d < 10) : (asciiDigit d).toNat = 0x30 + d :=
  UInt8.toNat_ofNat_of_lt' (show 0x30 + d < 2 ^ 8 by omega)

private theorem digitValue_asciiDigit {d : Nat} (hd : d < 10) : digitValue (asciiDigit d) = d := by
  rw [digitValue, toNat_asciiDigit hd, Nat.add_sub_cancel_left]

theorem isDecimal_map {ds : List Nat} (h : IsNumeral 10 ds n) :
    IsDecimal (ds.map asciiDigit) n where
  ascii := by
    intro c hc
    obtain ⟨d, hd, rfl⟩ := List.mem_map.mp hc
    have hlt := h.lt_base d hd
    rw [UInt8.le_iff_toNat_le, UInt8.le_iff_toNat_le, toNat_asciiDigit hlt]
    exact ⟨Nat.le_add_right 48 d, Nat.add_le_add_left (Nat.le_of_lt_succ hlt) 48⟩
  numeral := by
    have hdigits : (ds.map asciiDigit).map digitValue = ds :=
      calc (ds.map asciiDigit).map digitValue = ds.map (digitValue ∘ asciiDigit) := List.map_map
        _ = ds.map id :=
          List.map_congr_left fun d hd => digitValue_asciiDigit (h.lt_base d hd)
        _ = ds := List.map_id ds
    rwa [hdigits]

/-- What the loop of `write_dec` puts in front of the bytes it is given. -/
theorem decLoop_eq (h : decLoop n out i = .ok bytes) :
    bytes = (highDigits 10 n).map asciiDigit ++ out := by
  induction i generalizing n out with
  | zero =>
    rw [decLoop] at h
    split at h
    next hn =>
      rw [hn, highDigits_zero]
      exact (Except.ok.inj h).symm
    · cases h
  | succ i ih =>
    rw [decLoop] at h
    split at h
    next hn =>
      rw [hn, highDigits_zero]
      exact (Except.ok.inj h).symm
    next hn =>
      rw [ih h, highDigits_of_ne_zero (by decide) hn, List.map_append, List.append_assoc]
      rfl

/-- It succeeds exactly if there is a byte for each digit. -/
theorem decLoop_ok_iff : (∃ bytes, decLoop n out i = .ok bytes) ↔ n < 10 ^ i := by
  refine ⟨?_, decLoop_ok out⟩
  rintro ⟨bytes, h⟩
  induction i generalizing n out with
  | zero =>
    rw [decLoop] at h
    split at h
    next hn => rw [hn]; exact Nat.one_pos
    · cases h
  | succ i ih =>
    rw [decLoop] at h
    split at h
    next hn => rw [hn]; exact Nat.pow_pos (by decide)
    next hn =>
      have hrest := ih h
      rw [Nat.pow_succ]
      omega

/-- A byte goes in front of those from the next index on. -/
theorem drop_set (buf : Vector UInt8 size) (h : i < size) (c : UInt8) :
    (buf.set i c h).toList.drop i = c :: buf.toList.drop (i + 1) := by
  have hlen : i < (buf.toList.set i c).length := by
    rw [List.length_set, Vector.length_toList]
    exact h
  rw [Vector.toList_set, List.drop_eq_getElem_cons hlen, List.getElem_set_self,
    List.drop_set_of_lt (Nat.lt_succ_self i)]

/-- The bytes behind the index are those of the list. -/
theorem Buffered.decLoop_map (buf : Vector UInt8 size) (n : Nat) (hi : i ≤ size) :
    (Buffered.decLoop buf n i hi).map (fun r => r.1.toList.drop r.2) =
      Console.decLoop n (buf.toList.drop i) i := by
  induction i generalizing buf n with
  | zero =>
    rw [Buffered.decLoop, Console.decLoop]
    split
    · rfl
    · rfl
  | succ i ih =>
    rw [Buffered.decLoop, Console.decLoop]
    split
    · rfl
    · rw [ih, drop_set]
      rfl

/-- Where the loop of `write_dec` does not stop the kernel, the other one does the same. -/
theorem Buffered.asciiLoop_of_decLoop {buf : Vector UInt8 size} {hi : i ≤ size}
    {r : Vector UInt8 size × Nat} (h : Buffered.decLoop buf n i hi = .ok r) :
    Buffered.asciiLoop buf n i hi = r := by
  induction i generalizing buf n with
  | zero =>
    rw [Buffered.decLoop] at h
    split at h
    · exact Except.ok.inj h
    · cases h
  | succ i ih =>
    rw [Buffered.decLoop] at h
    rw [Buffered.asciiLoop]
    split at h
    next hn =>
      rw [if_pos hn]
      exact Except.ok.inj h
    next hn =>
      rw [if_neg hn]
      exact ih h

/-- Where it would, the other one leaves the lowest digits, as many as there is room for. -/
theorem Buffered.asciiLoop_bytes (buf : Vector UInt8 size) (n : Nat) (hi : i ≤ size) :
    ∃ ds : List Nat, (∀ d ∈ ds, d < 10) ∧ numeralValue 10 ds = n % 10 ^ i ∧
      (Buffered.asciiLoop buf n i hi).1.toList.drop (Buffered.asciiLoop buf n i hi).2 =
        ds.map asciiDigit ++ buf.toList.drop i := by
  induction i generalizing buf n with
  | zero => exact ⟨[], fun d hd => absurd hd List.not_mem_nil, (Nat.mod_one n).symm, rfl⟩
  | succ i ih =>
    rw [Buffered.asciiLoop]
    split
    next hn =>
      rw [hn, Nat.zero_mod]
      exact ⟨[], fun d hd => absurd hd List.not_mem_nil, rfl, rfl⟩
    next hn =>
      obtain ⟨ds, hds, hvalue, hbytes⟩ :=
        ih (buf.set i (asciiDigit (n % 10)) hi) (n / 10) (Nat.le_of_succ_le hi)
      refine ⟨ds ++ [n % 10], ?_, ?_, ?_⟩
      · rw [List.forall_mem_append]
        refine ⟨hds, fun d hd => ?_⟩
        rw [List.mem_singleton.mp hd]
        exact Nat.mod_lt n (by decide)
      · rw [numeralValue_concat, hvalue, Nat.pow_succ', Nat.mod_mul, Nat.add_comm]
      · rw [hbytes, drop_set, List.map_append, List.append_assoc]
        rfl

/-- The list of digits is what the buffer holds. -/
theorem Buffered.writeDec_eq (value : Nat) : Buffered.writeDec value = Console.writeDec value := by
  rw [Buffered.writeDec, Console.writeDec, Buffered.decLoop_map]
  rfl

/-- `write_dec` sends the number in decimal. -/
theorem isDecimal_writeDec (h : writeDec n = .ok bytes) : IsDecimal bytes n := by
  rw [writeDec] at h
  split at h
  next hn =>
    rw [hn, ← Except.ok.inj h]
    exact isDecimal_map (isNumeral_zero (by decide))
  next hn =>
    rw [decLoop_eq h, List.append_nil]
    exact isDecimal_map (isNumeral_highDigits (by decide) hn)

/-- The loop of `dec_ascii` leaves the digits of a number that has room. -/
theorem Buffered.asciiLoop_eq (buf : Vector UInt8 size) (h : n < 10 ^ size) :
    (Buffered.asciiLoop buf n size le_rfl).1.toList.drop
      (Buffered.asciiLoop buf n size le_rfl).2 = (highDigits 10 n).map asciiDigit := by
  have hbehind : buf.toList.drop size = [] := List.drop_of_length_le (by simp)
  obtain ⟨bytes, hbytes⟩ := decLoop_ok [] h
  have hmap := Buffered.decLoop_map buf n le_rfl
  rw [hbehind, hbytes] at hmap
  cases hloop : Buffered.decLoop buf n size le_rfl with
  | error e =>
    rw [hloop] at hmap
    cases hmap
  | ok r =>
    rw [hloop] at hmap
    rw [Buffered.asciiLoop_of_decLoop hloop, ← List.append_nil (List.map _ _), ← decLoop_eq hbytes]
    exact Except.ok.inj hmap

/-- Twelve bytes have room for the digits of 32 bits. -/
private theorem decAscii_eq (h : n < 2 ^ 32) (buf : Vector UInt8 12) :
    writeDec n = .ok (decAscii n buf) := by
  obtain ⟨bytes, hbytes⟩ := writeDec_ok (show n < 2 ^ 64 by omega)
  rw [hbytes, decAscii]
  rw [writeDec] at hbytes
  by_cases hn : n = 0
  · have hlast : buf.toList.drop 12 = [] := List.drop_of_length_le (by simp)
    rw [if_pos hn] at hbytes ⊢
    rw [drop_set, hlast, Except.ok.inj hbytes]
  · rw [if_neg hn] at hbytes ⊢
    rw [Buffered.asciiLoop_eq buf (by omega), decLoop_eq hbytes, List.append_nil]

/-- **Decimal output is faithful.** `write_dec` sends every machine word in decimal, with no digit
more than its buffer has room for, and `dec_ascii` renders every number of 32 bits the same. -/
theorem decimal_faithful (value : UInt64) (n : UInt32) (buf : Vector UInt8 12) :
    (∃ bytes, Buffered.writeDec value.toNat = .ok bytes ∧ IsDecimal bytes value.toNat) ∧
      Buffered.writeDec n.toNat = .ok (decAscii n.toNat buf) := by
  rw [Buffered.writeDec_eq, Buffered.writeDec_eq]
  obtain ⟨bytes, hbytes⟩ := writeDec_ok value.toNat_lt
  exact ⟨⟨bytes, hbytes, isDecimal_writeDec hbytes⟩, decAscii_eq n.toNat_lt buf⟩

end LionOS.Console
