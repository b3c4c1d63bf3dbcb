import LionOS.Fs.Volume
import Mathlib.Data.List.DropRight
import Mathlib.Data.List.Sort

/-!
# File names

A string is the list of its UTF-8 bytes. Short names are bytes and long names UTF-16
units, and neither need be well formed: each is decoded with the replacement
character in place of what is not.
-/

namespace LionOS.Fs

open Lib

/-- The replacement character. -/
def replacement : List UInt8 := [0xEF, 0xBF, 0xBD]

/-- What a lead byte asks for: the number of bytes that follow, and the range of the first
of them. -/
def utf8Lead (b : UInt8) : Option (Nat × UInt8 × UInt8) :=
  if 0xC2 ≤ b && b ≤ 0xDF then some (1, 0x80, 0xBF)
  else if b == 0xE0 then some (2, 0xA0, 0xBF)
  else if b == 0xED then some (2, 0x80, 0x9F)
  else if 0xE1 ≤ b && b ≤ 0xEF then some (2, 0x80, 0xBF)
  else if b == 0xF0 then some (3, 0x90, 0xBF)
  else if 0xF1 ≤ b && b ≤ 0xF3 then some (3, 0x80, 0xBF)
  else if b == 0xF4 then some (3, 0x80, 0x8F)
  else none

/-- The rest of the bytes when `pending` is the start of a character that lacks `left` bytes,
the next one from `lo` to `hi`. What a character has of valid bytes before it breaks off is
replaced as a whole. -/
def utf8Rest (pending : List UInt8) (left : Nat) (lo hi : UInt8) : List UInt8 → List UInt8
  | [] => if pending.isEmpty then [] else replacement
  | b :: rest =>
    if !pending.isEmpty && lo ≤ b && b ≤ hi then
      if left ≤ 1 then pending ++ b :: utf8Rest [] 0 0 0 rest
      else utf8Rest (pending ++ [b]) (left - 1) 0x80 0xBF rest
    else
      (if pending.isEmpty then [] else replacement) ++
        if b < 0x80 then b :: utf8Rest [] 0 0 0 rest
        else
          match utf8Lead b with
          | none => replacement ++ utf8Rest [] 0 0 0 rest
          | some (n, lo, hi) => utf8Rest [b] n lo hi rest

/-- `String::from_utf8_lossy`. -/
def utf8Lossy (bytes : List UInt8) : List UInt8 := utf8Rest [] 0 0 0 bytes

/-- `String::from_utf16_lossy`. -/
def utf16Lossy : List Nat → List UInt8
  | [] => []
  | [u] =>
    if u < 0xD800 || 0xE000 ≤ u then String.utf8EncodeChar (Char.ofNat u) else replacement
  | u :: v :: rest =>
    if u < 0xD800 || 0xE000 ≤ u then
      String.utf8EncodeChar (Char.ofNat u) ++ utf16Lossy (v :: rest)
    else if u < 0xDC00 && 0xDC00 ≤ v && v < 0xE000 then
      String.utf8EncodeChar (Char.ofNat (0x10000 + (u - 0xD800) * 0x400 + (v - 0xDC00))) ++
        utf16Lossy rest
    else replacement ++ utf16Lossy (v :: rest)

/-- The FAT32 directory entry. -/
structure DirEntry where
  /-- 8.3, padded with spaces. -/
  name : Vector UInt8 11
  cluster : Nat
  size : Nat
  isDir : Bool
  longName : Option (List UInt8)
  deriving DecidableEq, Repr

/-- The 8.3 name as base and extension. A leading 0x05 stands for 0xE5. -/
def DirEntry.shortName (e : DirEntry) : List UInt8 :=
  let name := if e.name[0] = 0x05 then 0xE5 :: e.name.toList.drop 1 else e.name.toList
  let base := (name.take 8).takeWhile (· ≠ 0x20)
  let ext := (name.drop 8).takeWhile (· ≠ 0x20)
  utf8Lossy (base ++ if ext.isEmpty then [] else 0x2E :: ext)

/-- A letter in lower case. -/
def asciiLower (b : UInt8) : UInt8 := if 0x41 ≤ b && b ≤ 0x5A then b + 0x20 else b

/-- Equal up to the case of ASCII letters. -/
def eqAsciiCaseInsensitive (a b : List UInt8) : Bool :=
  a.length == b.length && (a.zip b).all fun p => asciiLower p.1 == asciiLower p.2

/-- A path component names the entry, by its long or its short name. -/
def entryMatches (e : DirEntry) (comp : List UInt8) : Bool :=
  (e.longName.toList ++ [e.shortName]).any fun n => eqAsciiCaseInsensitive n comp

/-- One long-name record: its sequence number and thirteen UTF-16 units. -/
abbrev LfnChunk := Nat × List Nat

/-- The units of the long-name record at `off`. -/
def lfnChars (b : Sector) (off : Nat) : List Nat :=
  (List.range 13).map fun i =>
    rd16 b (if i ≤ 4 then off + 1 + i * 2
      else if i ≤ 10 then off + 14 + (i - 5) * 2
      else off + 28 + (i - 11) * 2)

/-- Put the collected records in order and decode them, without the padding at the end. -/
def lfnReassemble (lfn : List LfnChunk) : Option (List UInt8) :=
  if lfn.isEmpty then none
  else
    let sorted := lfn.insertionSort fun a b => a.1 ≤ b.1
    let chars := (sorted.flatMap Prod.snd).rdropWhile fun u => u == 0x0000 || u == 0xFFFF
    if chars.isEmpty then none else some (utf16Lossy chars)

end LionOS.Fs
