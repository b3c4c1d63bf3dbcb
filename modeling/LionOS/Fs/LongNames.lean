import LionOS.Fs.Directory
import Mathlib.Data.List.Forall2

/-!
# Long names

A long name is written as UTF-16, thirteen units to a record, and each record has its
number. The scan collects the records in front of a short one, wherever sectors and
clusters end, and puts them in the order of their numbers. Whatever order they lie in,
what is decoded is the name.
-/

namespace LionOS.Fs

open Lib

/-- The UTF-16 units of a character. -/
def utf16Units (c : Char) : List Nat :=
  if c.toNat < 0x10000 then [c.toNat]
  else [0xD800 + (c.toNat - 0x10000) / 0x400, 0xDC00 + (c.toNat - 0x10000) % 0x400]

/-- The UTF-16 units of a text. -/
def encodeUtf16 (text : List Char) : List Nat := text.flatMap utf16Units

/-- A character's number is no surrogate's. -/
theorem char_toNat_cases (c : Char) :
    c.toNat < 0xD800 ∨ 0xE000 ≤ c.toNat ∧ c.toNat < 0x110000 := by
  rcases c.valid with h | ⟨hlo, hhi⟩
  · exact Or.inl h
  · exact Or.inr ⟨by change 0xDFFF < c.toNat at hlo; omega, hhi⟩

theorem lt_of_mem_encodeUtf16 {text : List Char} {u : Nat} (h : u ∈ encodeUtf16 text) :
    u < 2 ^ 16 := by
  obtain ⟨c, -, hu⟩ := List.mem_flatMap.mp h
  have hc := char_toNat_cases c
  unfold utf16Units at hu
  split at hu
  · rw [List.mem_singleton] at hu
    omega
  · rw [List.mem_pair] at hu
    omega

/-- A unit that is no surrogate is a character of its own. -/
theorem utf16Lossy_cons {u : Nat} (h : u < 0xD800 ∨ 0xE000 ≤ u) (rest : List Nat) :
    utf16Lossy (u :: rest) = String.utf8EncodeChar (Char.ofNat u) ++ utf16Lossy rest := by
  have hcond : (decide (u < 0xD800) || decide (0xE000 ≤ u)) = true := by simpa using h
  cases rest with
  | nil => simp only [utf16Lossy, hcond, if_true, List.append_nil]
  | cons v rest => simp only [utf16Lossy, hcond, if_true]

/-- Two surrogates are one character. -/
theorem utf16Lossy_pair {u v : Nat} (hu : 0xD800 ≤ u ∧ u < 0xDC00) (hv : 0xDC00 ≤ v ∧ v < 0xE000)
    (rest : List Nat) :
    utf16Lossy (u :: v :: rest) =
      String.utf8EncodeChar (Char.ofNat (0x10000 + (u - 0xD800) * 0x400 + (v - 0xDC00))) ++
        utf16Lossy rest := by
  have hbmp : (decide (u < 0xD800) || decide (0xE000 ≤ u)) = false := by
    simp only [Bool.or_eq_false_iff, decide_eq_false_iff_not]
    omega
  have hpair : (decide (u < 0xDC00) && decide (0xDC00 ≤ v) && decide (v < 0xE000)) = true := by
    simp only [Bool.and_eq_true, decide_eq_true_eq]
    omega
  rw [utf16Lossy]
  simp only [hbmp, hpair, Bool.false_eq_true, if_false, if_true]

/-- Encoding is undone by decoding. -/
theorem utf16Lossy_encodeUtf16 (text : List Char) :
    utf16Lossy (encodeUtf16 text) = text.flatMap String.utf8EncodeChar := by
  induction text with
  | nil => rfl
  | cons c text ih =>
    have hc := char_toNat_cases c
    rw [encodeUtf16, List.flatMap_cons, List.flatMap_cons, utf16Units]
    split
    · rw [List.singleton_append, utf16Lossy_cons (by omega), Char.ofNat_toNat]
      exact congrArg _ ih
    · have hnum : 0x10000 + (0xD800 + (c.toNat - 0x10000) / 0x400 - 0xD800) * 0x400 +
          (0xDC00 + (c.toNat - 0x10000) % 0x400 - 0xDC00) = c.toNat := by
        omega
      rw [List.cons_append, List.singleton_append,
        utf16Lossy_pair (by omega) (by omega), hnum, Char.ofNat_toNat]
      exact congrArg _ ih

/-- What fills the last record behind the name: a zero and then ones. -/
def lfnPadding (n : Nat) : List Nat :=
  if n % 13 = 0 then [] else 0 :: List.replicate (12 - n % 13) 0xFFFF

/-- One record of a name as it is to be written. -/
structure LfnPart where
  seq : Nat
  last : Bool
  units : List Nat
  deriving DecidableEq, Repr

/-- The records of a name: thirteen units each, numbered from 1. -/
def lfnParts (units : List Nat) : List LfnPart :=
  (List.range ((units.length + 12) / 13)).map fun i =>
    { seq := i + 1
      last := i + 1 == (units.length + 12) / 13
      units := ((units ++ lfnPadding units.length).drop (13 * i)).take 13 }

/-- Where a record has its units. -/
def unitOffsets : List Nat := [1, 3, 5, 7, 9, 14, 16, 18, 20, 22, 24, 28, 30]

/-- The record on the disk is this one. Its type, its checksum and its cluster are left
open. -/
structure Record.Encodes (r : Record) (part : LfnPart) : Prop where
  number : r.name0 = UInt8.ofNat (part.seq ||| if part.last then 0x40 else 0)
  longName : r.attr = 0x0F
  units : ∀ p ∈ unitOffsets.zip part.units,
    r.sector (r.off + p.1) = UInt8.ofNat p.2 ∧
      r.sector (r.off + p.1 + 1) = UInt8.ofNat (p.2 / 256)

instance (r : Record) (part : LfnPart) : Decidable (r.Encodes part) :=
  decidable_of_iff (r.name0 = UInt8.ofNat (part.seq ||| if part.last then 0x40 else 0) ∧
      r.attr = 0x0F ∧ ∀ p ∈ unitOffsets.zip part.units,
        r.sector (r.off + p.1) = UInt8.ofNat p.2 ∧
          r.sector (r.off + p.1 + 1) = UInt8.ofNat (p.2 / 256))
    ⟨fun ⟨hn, ha, hu⟩ => ⟨hn, ha, hu⟩, fun ⟨hn, ha, hu⟩ => ⟨hn, ha, hu⟩⟩

theorem length_lfnPadding (n : Nat) : n + (lfnPadding n).length = 13 * ((n + 12) / 13) := by
  unfold lfnPadding
  split
  · rw [List.length_nil]
    omega
  · rw [List.length_cons, List.length_replicate]
    omega

/-- Pieces of thirteen, laid end to end. -/
private theorem flatMap_range_pieces (l : List Nat) (k : Nat) :
    (List.range k).flatMap (fun i => (l.drop (13 * i)).take 13) = l.take (13 * k) := by
  induction k with
  | zero => simp
  | succ k ih =>
    rw [List.range_succ, List.flatMap_append, ih, List.flatMap_singleton, Nat.mul_succ,
      List.take_add]

/-- The records in their order spell the name and its padding. -/
theorem lfnParts_flatMap_units (units : List Nat) :
    (lfnParts units).flatMap LfnPart.units = units ++ lfnPadding units.length := by
  have hlen := length_lfnPadding units.length
  rw [lfnParts, List.flatMap_map, flatMap_range_pieces, List.take_of_length_le]
  rw [List.length_append, hlen]

section

variable {units : List Nat} {part : LfnPart}

/-- A record of a name of at most 255 units is full, and its number fits five bits. -/
theorem bounds_of_mem_lfnParts (hlen : units.length ≤ 255) (h : part ∈ lfnParts units) :
    1 ≤ part.seq ∧ part.seq < 32 ∧ part.units.length = 13 := by
  obtain ⟨i, hi, rfl⟩ := List.mem_map.mp h
  have hlt := List.mem_range.mp hi
  have hpadded := length_lfnPadding units.length
  refine ⟨by simp, by simp only; omega, ?_⟩
  simp only [List.length_take, List.length_drop, List.length_append, hpadded]
  omega

theorem units_lt_of_mem_lfnParts (hunits : ∀ u ∈ units, u < 2 ^ 16) (h : part ∈ lfnParts units) :
    ∀ u ∈ part.units, u < 2 ^ 16 := by
  obtain ⟨i, hi, rfl⟩ := List.mem_map.mp h
  intro u hu
  rcases List.mem_append.mp (List.mem_of_mem_drop (List.mem_of_mem_take hu)) with hu | hu
  · exact hunits u hu
  · unfold lfnPadding at hu
    split at hu
    · simp at hu
    · rcases List.mem_cons.mp hu with rfl | hu
      · decide
      · rw [List.eq_of_mem_replicate hu]
        decide

/-- Records are numbered in their order. -/
theorem lfnParts_pairwise (units : List Nat) :
    (lfnParts units).Pairwise fun a b => a.seq < b.seq := by
  rw [lfnParts, List.pairwise_map]
  refine List.pairwise_lt_range.imp fun {i j} hij => ?_
  simpa using hij

end

/-- Two bytes that spell a unit. -/
private theorem rd16_spelled {b : Sector} {off u : Nat} (hu : u < 2 ^ 16)
    (hlo : b off = UInt8.ofNat u) (hhi : b (off + 1) = UInt8.ofNat (u / 256)) :
    rd16 b off = u := by
  simp only [rd16, readLE, hlo, hhi, UInt8.toNat_ofNat']
  omega

namespace Record.Encodes

variable {r : Record} {part : LfnPart}

/-- The units are read where they were written. -/
theorem lfnChars_eq (h : r.Encodes part) (hlen : part.units.length = 13)
    (hlt : ∀ u ∈ part.units, u < 2 ^ 16) : lfnChars r.sector r.off = part.units := by
  have htable : ∀ i (hi : i < 13), unitOffsets[i] =
      if i ≤ 4 then 1 + i * 2 else if i ≤ 10 then 14 + (i - 5) * 2 else 28 + (i - 11) * 2 := by
    decide
  have hoffset : ∀ i (hi : i < 13), (if i ≤ 4 then r.off + 1 + i * 2
      else if i ≤ 10 then r.off + 14 + (i - 5) * 2 else r.off + 28 + (i - 11) * 2) =
        r.off + unitOffsets[i] := by
    intro i hi
    rw [htable i hi]
    split_ifs <;> omega
  refine List.ext_getElem (by simp [lfnChars, hlen]) fun i hi hi' => ?_
  have hi13 : i < 13 := by omega
  have hmem : (unitOffsets[i], part.units[i]) ∈ unitOffsets.zip part.units := by
    rw [List.mem_iff_getElem]
    exact ⟨i, by simp [unitOffsets, hlen, hi13], List.getElem_zip⟩
  obtain ⟨hlo, hhi⟩ := h.units _ hmem
  simp only [lfnChars, List.getElem_map, List.getElem_range]
  rw [hoffset i hi13]
  exact rd16_spelled (hlt _ (List.getElem_mem hi')) hlo hhi

/-- The record is a long name's and in use. -/
theorem name0_facts (h : r.Encodes part) (hpos : 1 ≤ part.seq) (hlt : part.seq < 32) :
    r.name0 ≠ 0 ∧ r.isDeleted = false ∧ (r.name0 &&& 0x1F).toNat = part.seq := by
  have hfacts : ∀ seq < 32, ∀ last : Bool, 1 ≤ seq →
      UInt8.ofNat (seq ||| if last then 0x40 else 0) ≠ 0 ∧
        (UInt8.ofNat (seq ||| if last then 0x40 else 0) == 0xE5) = false ∧
        (UInt8.ofNat (seq ||| if last then 0x40 else 0) &&& 0x1F).toNat = seq := by
    decide
  rw [isDeleted, h.number]
  exact hfacts part.seq hlt part.last hpos

theorem isLong (h : r.Encodes part) : r.isLong = true := by
  rw [Record.isLong, h.longName]
  decide

/-- What is kept of the record is its number and its units. -/
theorem chunk_eq (h : r.Encodes part) (hpos : 1 ≤ part.seq) (hseq : part.seq < 32)
    (hlen : part.units.length = 13) (hlt : ∀ u ∈ part.units, u < 2 ^ 16) :
    r.chunk = (part.seq, part.units) := by
  rw [chunk, h.lfnChars_eq hlen hlt, (h.name0_facts hpos hseq).2.2]

end Record.Encodes

/-! ## The scan of a name -/

/-- The scan collects long-name records. -/
theorem scan_long {rs : List Record}
    (h : ∀ r ∈ rs, r.name0 ≠ 0 ∧ r.isDeleted = false ∧ r.isLong = true) (lfn : List LfnChunk)
    (rest : List Record) : scan lfn (rs ++ rest) = scan (lfn ++ rs.map Record.chunk) rest := by
  induction rs generalizing lfn with
  | nil => simp
  | cons r rs ih =>
    obtain ⟨hend, hdel, hlong⟩ := h r (List.mem_cons_self ..)
    have htail := ih (fun r hr => h r (List.mem_cons_of_mem _ hr)) (lfn ++ [r.chunk])
    simp only [List.cons_append, scan, hend, hdel, hlong, if_false, if_true, Bool.false_eq_true,
      htail, List.map_cons, List.append_assoc, List.nil_append]

/-- Nothing is pending behind a record that is deleted or short. -/
theorem scan_append_settled {rs : List Record} (hend : ∀ r ∈ rs, r.name0 ≠ 0) (hne : rs ≠ [])
    (hlast : ∀ r, rs.getLast? = some r → r.isDeleted = true ∨ r.isLong = false)
    (lfn : List LfnChunk) (rest : List Record) :
    scan lfn (rs ++ rest) = scan lfn rs ++ scan [] rest := by
  induction rs generalizing lfn with
  | nil => exact absurd rfl hne
  | cons r rs ih =>
    have hr := hend r (List.mem_cons_self ..)
    have hstep : ∀ tail, scan lfn (r :: tail) =
        if r.isDeleted then scan [] tail
        else if r.isLong then scan (lfn ++ [r.chunk]) tail
        else (r, r.entry lfn) :: scan [] tail := by
      intro tail
      rw [scan, if_neg hr]
    cases rs with
    | nil =>
      rw [List.singleton_append, hstep, hstep]
      rcases hlast r rfl with hdel | hlong
      · simp only [hdel, if_true, scan, List.nil_append]
      · simp only [hlong, Bool.false_eq_true, if_false, scan]
        split
        · rfl
        · rfl
    | cons r' rs =>
      have htail := ih (fun r hr => hend r (List.mem_cons_of_mem _ hr)) (by simp)
        (fun x hx => hlast x (by rw [List.getLast?_cons_cons]; exact hx))
      rw [List.cons_append, hstep, hstep]
      split
      · exact htail _
      split
      · exact htail _
      · rw [htail, List.cons_append]

/-- No long-name record waits for a short one behind these records, which do not end the
directory. -/
structure Settled (rs : List Record) : Prop where
  goesOn : ∀ r ∈ rs, r.name0 ≠ 0
  last : ∀ r, rs.getLast? = some r → r.isDeleted = true ∨ r.isLong = false

theorem Settled.scan_append {rs : List Record} (h : Settled rs) (rest : List Record) :
    scan [] (rs ++ rest) = scan [] rs ++ scan [] rest := by
  by_cases hne : rs = []
  · rw [hne]
    rfl
  · exact scan_append_settled h.goesOn hne h.last [] rest

/-- Padding behind a name is dropped. -/
theorem rdropWhile_append_of_forall {α : Type*} {p : α → Bool} {l pad : List α}
    (hpad : ∀ x ∈ pad, p x = true) : (l ++ pad).rdropWhile p = l.rdropWhile p := by
  induction pad using List.reverseRecOn with
  | nil => rw [List.append_nil]
  | append_singleton pad x ih =>
    rw [← List.append_assoc, List.rdropWhile_concat_pos _ _ _ (hpad x (by simp))]
    exact ih fun y hy => hpad y (by simp [hy])

/-- Records in any order are sorted by their numbers. -/
theorem insertionSort_placed {placed parts : List LfnChunk} (hperm : placed.Perm parts)
    (hsorted : parts.Pairwise fun a b => a.1 < b.1) :
    placed.insertionSort (fun a b => a.1 ≤ b.1) = parts := by
  have htotal : Std.Total fun a b : LfnChunk => a.1 ≤ b.1 := ⟨fun a b => Nat.le_total ..⟩
  have htrans : IsTrans LfnChunk fun a b => a.1 ≤ b.1 := ⟨fun a b c => Nat.le_trans⟩
  have hnodup : (parts.map Prod.fst).Nodup := List.pairwise_map.mpr (hsorted.imp Nat.ne_of_lt)
  have hplaced : (placed.insertionSort fun a b => a.1 ≤ b.1).Pairwise fun a b => a.1 ≤ b.1 :=
    List.pairwise_insertionSort _ placed
  refine List.Perm.eq_of_pairwise ?_ hplaced (hsorted.imp Nat.le_of_lt)
    ((List.perm_insertionSort _ placed).trans hperm)
  intro a b ha hb hab hba
  have ha' : a ∈ parts := hperm.mem_iff.mp ((List.mem_insertionSort _).mp ha)
  exact List.inj_on_of_nodup_map hnodup ha' hb (Nat.le_antisymm hab hba)

/-- A name that can be written: 1 to 255 units, none of which is padding. -/
structure IsLongName (text : List Char) : Prop where
  pos : 1 ≤ (encodeUtf16 text).length
  le : (encodeUtf16 text).length ≤ 255
  units : ∀ u ∈ encodeUtf16 text, u ≠ 0x0000 ∧ u ≠ 0xFFFF

/-- The records of a name on the disk, in any order. -/
def WritesName (longs : List Record) (text : List Char) : Prop :=
  ∃ placed : List LfnPart, placed.Perm (lfnParts (encodeUtf16 text)) ∧
    List.Forall₂ Record.Encodes longs placed

section

variable {text : List Char} {longs : List Record}

/-- The scan takes them for long-name records and keeps their numbers and units. -/
theorem WritesName.chunks (h : WritesName longs text) (hname : IsLongName text) :
    (∀ r ∈ longs, r.name0 ≠ 0 ∧ r.isDeleted = false ∧ r.isLong = true) ∧
      (longs.map Record.chunk).Perm
        ((lfnParts (encodeUtf16 text)).map fun part => (part.seq, part.units)) := by
  obtain ⟨placed, hperm, hencodes⟩ := h
  have hpart : ∀ part ∈ placed, 1 ≤ part.seq ∧ part.seq < 32 ∧ part.units.length = 13 ∧
      ∀ u ∈ part.units, u < 2 ^ 16 := by
    intro part hpart
    have hmem := hperm.mem_iff.mp hpart
    obtain ⟨hpos, hlt, hlen⟩ := bounds_of_mem_lfnParts hname.le hmem
    exact ⟨hpos, hlt, hlen, units_lt_of_mem_lfnParts (fun u => lt_of_mem_encodeUtf16) hmem⟩
  have hchunks : (∀ r ∈ longs, r.name0 ≠ 0 ∧ r.isDeleted = false ∧ r.isLong = true) ∧
      longs.map Record.chunk = placed.map fun part => (part.seq, part.units) := by
    clear hperm
    induction hencodes with
    | nil => simp
    | @cons r part longs placed hr hencodes ih =>
      obtain ⟨hpos, hlt, hlen, hunits⟩ := hpart part (List.mem_cons_self ..)
      obtain ⟨hlong, hmap⟩ := ih fun part hp => hpart part (List.mem_cons_of_mem _ hp)
      obtain ⟨hend, hdel, -⟩ := hr.name0_facts hpos hlt
      rw [List.forall_mem_cons, List.map_cons, List.map_cons, hmap,
        hr.chunk_eq hpos hlt hlen hunits]
      exact ⟨⟨⟨hend, hdel, hr.isLong⟩, hlong⟩, rfl⟩
  refine ⟨hchunks.1, ?_⟩
  rw [hchunks.2]
  exact hperm.map _

/-- **The name is put together again**, from its records in any order. -/
theorem WritesName.lfnReassemble_eq (h : WritesName longs text) (hname : IsLongName text) :
    lfnReassemble (longs.map Record.chunk) = some (text.flatMap String.utf8EncodeChar) := by
  obtain ⟨-, hperm⟩ := h.chunks hname
  have hsort := insertionSort_placed hperm
    (List.pairwise_map.mpr ((lfnParts_pairwise (encodeUtf16 text)).imp id))
  have hspelled : ((lfnParts (encodeUtf16 text)).map fun part => (part.seq, part.units)).flatMap
      Prod.snd = encodeUtf16 text ++ lfnPadding (encodeUtf16 text).length := by
    rw [List.flatMap_map]
    exact lfnParts_flatMap_units _
  have hpadding : ∀ u ∈ lfnPadding (encodeUtf16 text).length,
      (u == 0x0000 || u == 0xFFFF) = true := by
    intro u hu
    unfold lfnPadding at hu
    split at hu
    · simp at hu
    · rcases List.mem_cons.mp hu with rfl | hu
      · rfl
      · rw [List.eq_of_mem_replicate hu]
        rfl
  have hunits : (encodeUtf16 text).rdropWhile (fun u => u == 0x0000 || u == 0xFFFF) =
      encodeUtf16 text := by
    rw [List.rdropWhile_eq_self_iff]
    intro hne
    simpa using hname.units _ (List.getLast_mem hne)
  have hne : (encodeUtf16 text).isEmpty = false := by
    rw [List.isEmpty_eq_false_iff]
    exact List.ne_nil_of_length_pos hname.pos
  have hsome : (longs.map Record.chunk).isEmpty = false := by
    rw [List.isEmpty_eq_false_iff]
    intro hnil
    rw [hnil] at hperm
    have hparts := hperm.nil_eq
    rw [← hparts] at hspelled
    simp only [List.flatMap_nil] at hspelled
    exact List.isEmpty_eq_false_iff.mp hne (List.append_eq_nil_iff.mp hspelled.symm).1
  simp only [lfnReassemble, hsome, hsort, hspelled, rdropWhile_append_of_forall hpadding, hunits,
    hne, Bool.false_eq_true, if_false, utf16Lossy_encodeUtf16]

end

section

variable {dev : BlockDevice} {info : FatInfo}

/-- **Long names come back.** For every directory on a device whose sectors can be read, and
every name whose records lie in any order directly in front of a short record, at a place
in the first thousand clusters where no long-name record waits: `list_dir` yields the
short record with that name, behind what the records in front give and before what the
records behind give. -/
theorem listDir_long_name {c : Nat} {cs : List Nat} (hread : AllRead dev info)
    (hchain : Chain dev info (c :: cs)) {before longs after : List Record} {short : Record}
    {text : List Char} (hname : IsLongName text) (hlongs : WritesName longs text)
    (hbefore : Settled before) (hlive : short.name0 ≠ 0 ∧ short.isDeleted = false)
    (hshort : short.isLong = false)
    (hrecords : dirRecords dev info ((c :: cs).take 1000) = before ++ (longs ++ short :: after))
    (out : List DirEntry) :
    listDir dev info c out = some (true, out ++ ((scan [] before).map Prod.snd ++
      { short.entry [] with longName := some (text.flatMap String.utf8EncodeChar) } ::
        (scan [] after).map Prod.snd)) := by
  have hentry : short.entry (longs.map Record.chunk) =
      { short.entry [] with longName := some (text.flatMap String.utf8EncodeChar) } := by
    rw [Record.entry, hlongs.lfnReassemble_eq hname]
    rfl
  rw [listDir_eq hread hchain, hrecords, hbefore.scan_append,
    scan_long (hlongs.chunks hname).1, scan, if_neg hlive.1]
  simp only [hlive.2, hshort, Bool.false_eq_true, if_false, List.nil_append, List.map_append,
    List.map_cons, hentry]

end

/-! ## Disks with a long name -/

/-- The disk with another sector at `lba`. -/
def withSector (dev : BlockDevice) (lba : Nat) (b : Sector) : BlockDevice :=
  fun x => if x = lba then some b else dev x

section

variable {dev : BlockDevice} {info : FatInfo} {lba : Nat} {b : Sector}

theorem AllRead.withSector (h : AllRead dev info) : AllRead (withSector dev lba b) info := by
  intro x hx
  unfold Fs.withSector
  split
  · exact ⟨b, rfl⟩
  · exact h x hx

/-- A sector behind the FAT does not change a chain. -/
theorem Chain.withSector {cs : List Nat} (h : Chain dev info cs)
    (hlba : info.reservedSectors.toNat + info.sectorsPerFat.toNat ≤ lba) :
    Chain (withSector dev lba b) info cs := by
  have hfat : ∀ c, readFatEntry (Fs.withSector dev lba b) info c = readFatEntry dev info c := by
    intro c
    unfold readFatEntry
    simp only
    split
    · rfl
    next hin =>
      rw [Fs.withSector, if_neg (by omega)]
  induction h with
  | last hc h hmark => exact .last hc (by rw [hfat, h]) hmark
  | link hc h _ ih => exact .link hc (by rw [hfat, h]) ih

/-- A sector of other clusters does not change a directory. -/
theorem dirRecords_withSector {cs : List Nat}
    (h : ∀ c ∈ cs, ∀ s < info.spc, info.firstSector c + s ≠ lba) :
    dirRecords (withSector dev lba b) info cs = dirRecords dev info cs := by
  refine List.flatMap_congr fun c hc => List.flatMap_congr fun s hs => ?_
  rw [sectorRecords, withSector, if_neg (h c hc s (List.mem_range.mp hs))]
  rfl

end

/-- A sector with the two records of `hello lion.txt`, the second first, and the short record
behind them. -/
def nameSector : Sector :=
  sectorOf [0x42, 0x74, 0, 0, 0, 0xFF, 0xFF, 0xFF, 0xFF, 0xFF, 0xFF, 0x0F,
    0, 0x5A, 0xFF, 0xFF, 0xFF, 0xFF, 0xFF, 0xFF, 0xFF, 0xFF,
    0xFF, 0xFF, 0xFF, 0xFF, 0, 0, 0xFF, 0xFF, 0xFF, 0xFF,
    1, 0x68, 0, 0x65, 0, 0x6C, 0, 0x6C, 0, 0x6F, 0, 0x0F,
    0, 0x5A, 0x20, 0, 0x6C, 0, 0x69, 0, 0x6F, 0,
    0x6E, 0, 0x2E, 0, 0, 0, 0x74, 0, 0x78, 0,
    0x48, 0x45, 0x4C, 0x4C, 0x4F, 0x4C, 0x7E, 0x31, 0x54, 0x58, 0x54, 0x20,
    0, 0, 0, 0, 0, 0, 0, 0, 0, 0,
    0, 0, 0, 0, 3, 0, 0x10, 0, 0, 0]

/-- The name in it. -/
def lionName : List Char := "hello lion.txt".toList

/-- Its long-name records, its short record and those behind. -/
theorem nameSector_records :
    ∃ longs short after, records nameSector = longs ++ short :: after ∧
      IsLongName lionName ∧ WritesName longs lionName ∧
      (short.name0 ≠ 0 ∧ short.isDeleted = false) ∧ short.isLong = false ∧ scan [] after = [] := by
  refine ⟨[⟨nameSector, 0⟩, ⟨nameSector, 32⟩], ⟨nameSector, 64⟩,
    (List.range' 3 13).map fun i => ⟨nameSector, i * 32⟩, rfl, ?_, ?_, by decide,
    by decide, ?_⟩
  · exact ⟨by decide, by decide, by decide⟩
  · exact ⟨(lfnParts (encodeUtf16 lionName)).reverse, List.reverse_perm _, by decide⟩
  · rfl

/-- The name in the root directory comes back. -/
theorem listDir_long_name_lion :
    ∃ e, listDir (withSector helloDisk 4 nameSector) helloInfo 2 [] = some (true, [e]) ∧
      e.longName = some (lionName.flatMap String.utf8EncodeChar) := by
  obtain ⟨longs, short, after, hrecords, hname, hlongs, hlive, hshort, hafter⟩ :=
    nameSector_records
  have hroot : dirRecords (withSector helloDisk 4 nameSector) helloInfo ([2].take 1000) =
      [] ++ (longs ++ short :: after) := hrecords
  have hlist := listDir_long_name helloDisk_allRead.withSector
    ((helloDisk_chain (Or.inl rfl)).withSector (by decide)) hname hlongs ⟨by simp, by simp⟩ hlive
    hshort hroot []
  rw [hafter] at hlist
  exact ⟨_, hlist, rfl⟩

/-- A name in cluster 1001 of a directory is not listed. -/
theorem name_past_thousand_clusters :
    AllRead (withSector longDisk 1009 nameSector) longInfo ∧
      Chain (withSector longDisk 1009 nameSector) longInfo (List.range' 2 1001) ∧
      ∃ before longs short after,
        dirRecords (withSector longDisk 1009 nameSector) longInfo (List.range' 2 1001) =
          before ++ (longs ++ short :: after) ∧
        IsLongName lionName ∧ WritesName longs lionName ∧ Settled before ∧
        (short.name0 ≠ 0 ∧ short.isDeleted = false) ∧ short.isLong = false ∧
        listDir (withSector longDisk 1009 nameSector) longInfo 2 [] = some (true, []) := by
  have hchain : Chain (withSector longDisk 1009 nameSector) longInfo (List.range' 2 1001) :=
    (longDisk_chain (k := 1000) le_rfl).withSector (by decide)
  obtain ⟨longs, short, after, hrecords, hname, hlongs, hlive, hshort, -⟩ := nameSector_records
  have happend : List.range' 2 1001 = List.range' 2 1000 ++ [1002] :=
    (List.range'_append_1 (s := 2) (m := 1000) (n := 1)).symm
  have hfirst : dirRecords (withSector longDisk 1009 nameSector) longInfo (List.range' 2 1000) =
      dirRecords longDisk longInfo (List.range' 2 1000) := by
    refine dirRecords_withSector fun c hc s hs => ?_
    have hc' := List.mem_range'_1.mp hc
    change 9 + (c - 2) * 1 + s ≠ 1009
    change s < 1 at hs
    omega
  have hall : dirRecords (withSector longDisk 1009 nameSector) longInfo (List.range' 2 1001) =
      dirRecords longDisk longInfo (List.range' 2 1000) ++ (longs ++ short :: after) := by
    rw [happend, dirRecords, List.flatMap_append, ← hrecords]
    exact congrArg (· ++ records nameSector) hfirst
  have hsettled : Settled (dirRecords longDisk longInfo (List.range' 2 1000)) := by
    refine ⟨fun r hr => by rw [longDisk_deleted r hr]; decide, fun r hr => Or.inl ?_⟩
    rw [Record.isDeleted, longDisk_deleted r (List.mem_of_getLast? hr)]
    rfl
  refine ⟨longDisk_allRead.withSector, hchain, _, longs, short, after, hall, hname, hlongs,
    hsettled, hlive, hshort, ?_⟩
  have hcons : List.range' 2 1001 = 2 :: List.range' 3 1000 := List.range'_succ
  have htake : (List.range' 2 1001).take 1000 = List.range' 2 1000 := by
    rw [happend]
    exact List.take_left' List.length_range'
  rw [hcons] at hchain htake
  rw [listDir_eq longDisk_allRead.withSector hchain, htake, hfirst, scan_deleted longDisk_deleted]
  rfl

end LionOS.Fs
