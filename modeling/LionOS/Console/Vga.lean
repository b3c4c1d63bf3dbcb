import LionOS.Lib.Terminal
import Mathlib.Data.UInt
import Mathlib.Tactic.Common

/-!
# The VGA text console

The driver keeps a cursor and writes cells of two bytes into the text buffer. It is meant to be a
terminal of 25 rows of 80 columns. A character that is written looks after the bottom of the
screen when the cursor has moved on; a line feed does not.
-/

namespace LionOS.Console

open Lib

def vgaCols : Nat := 80

def vgaRows : Nat := 25

/-- The cells of the text buffer, and `CURSOR_ROW` and `CURSOR_COL`. -/
structure Vga where
  buffer : Nat → UInt16
  cursorRow : Nat
  cursorCol : Nat

/-- A cell: the low byte of the character under its attribute. -/
def vgaCell (ch : Char) (attr : UInt8) : UInt16 :=
  UInt16.ofNat (ch.toNat % 256) ||| (UInt16.ofNat attr.toNat <<< 8)

namespace Vga

/-- Write one cell; what is off the screen is ignored. -/
def putCell (v : Vga) (row col : Nat) (ch : Char) (attr : UInt8) : Vga :=
  if vgaRows ≤ row ∨ vgaCols ≤ col then v
  else { v with buffer := Function.update v.buffer (row * vgaCols + col) (vgaCell ch attr) }

/-- Blank the whole screen. -/
def clear (v : Vga) (attr : UInt8) : Vga :=
  let v := (List.range vgaRows).foldl
    (fun v row => (List.range vgaCols).foldl (fun v col => v.putCell row col ' ' attr) v) v
  { v with cursorRow := 0, cursorCol := 0 }

/-- `core::ptr::copy` of all rows but the first to the top of the screen. -/
def moveRows (v : Vga) : Vga :=
  { v with
    buffer := fun i =>
      if i < (vgaRows - 1) * vgaCols then v.buffer (i + vgaCols) else v.buffer i }

/-- Scroll up one row and blank the last one. -/
def scroll (v : Vga) : Vga :=
  (List.range vgaCols).foldl (fun v col => v.putCell (vgaRows - 1) col ' ' 0x07) v.moveRows

/-- The end of a turn of the loop of `write`: on to the next column, to the next row behind the
last column, and up by a row below the last row. -/
def advanceCursor (v : Vga) : Vga :=
  let v := { v with cursorCol := v.cursorCol + 1 }
  let v :=
    if vgaCols ≤ v.cursorCol then { v with cursorCol := 0, cursorRow := v.cursorRow + 1 } else v
  if vgaRows ≤ v.cursorRow then { v.scroll with cursorRow := vgaRows - 1 } else v

/-- A turn of the loop of `write`. After a line feed the rest of the turn is left out. -/
def writeChar (v : Vga) (attr : UInt8) (ch : Char) : Vga :=
  if ch = '\n' then { v with cursorRow := v.cursorRow + 1, cursorCol := 0 }
  else (v.putCell v.cursorRow v.cursorCol ch attr).advanceCursor

/-- Write a string at the cursor. -/
def write (v : Vga) (s : String) (attr : UInt8) : Vga :=
  s.toList.foldl (fun v ch => v.writeChar attr ch) v

variable {v : Vga} {row col i n : Nat} {ch : Char} {attr : UInt8}

theorem putCell_of_lt (hrow : row < vgaRows) (hcol : col < vgaCols) :
    v.putCell row col ch attr =
      { v with buffer := Function.update v.buffer (row * vgaCols + col) (vgaCell ch attr) } :=
  if_neg (by omega)

/-- Blanks along a row. -/
theorem foldl_putCell (hrow : row < vgaRows) (hn : n ≤ vgaCols) :
    (List.range n).foldl (fun v col => v.putCell row col ch attr) v =
      { v with
        buffer := fun i =>
          if row * vgaCols ≤ i ∧ i < row * vgaCols + n then vgaCell ch attr else v.buffer i } := by
  induction n with
  | zero =>
    have hnone : ∀ i, ¬ (row * vgaCols ≤ i ∧ i < row * vgaCols + 0) := fun i h => by omega
    simp only [if_neg (hnone _)]
    rfl
  | succ n ih =>
    rw [List.range_succ, List.foldl_append, ih (by omega), List.foldl_cons, List.foldl_nil,
      putCell_of_lt hrow hn]
    congr 1
    funext i
    rw [Function.update_apply]
    dsimp only
    rw [← ite_or]
    exact if_congr (by omega) rfl rfl

theorem scroll_eq (v : Vga) :
    v.scroll = { v with
      buffer := fun i =>
        if 24 * 80 ≤ i ∧ i < 24 * 80 + 80 then vgaCell ' ' 0x07
        else if i < 24 * 80 then v.buffer (i + 80) else v.buffer i } := by
  rw [scroll, foldl_putCell (by decide) le_rfl]
  rfl

theorem advanceCursor_of_lt (hcol : v.cursorCol + 1 < 80) (hrow : v.cursorRow < 25) :
    v.advanceCursor = { v with cursorCol := v.cursorCol + 1 } := by
  have hwrap : ¬ vgaCols ≤ v.cursorCol + 1 := Nat.not_le.mpr hcol
  have hlast : ¬ vgaRows ≤ v.cursorRow := Nat.not_le.mpr hrow
  simp only [advanceCursor, hwrap, hlast, if_false]

/-- Behind the last column, but not on the last row. -/
theorem advanceCursor_of_wrap (hcol : ¬ v.cursorCol + 1 < 80) (hrow : v.cursorRow + 1 < 25) :
    v.advanceCursor = { v with cursorRow := v.cursorRow + 1, cursorCol := 0 } := by
  have hwrap : vgaCols ≤ v.cursorCol + 1 := Nat.not_lt.mp hcol
  have hlast : ¬ vgaRows ≤ v.cursorRow + 1 := Nat.not_le.mpr hrow
  simp only [advanceCursor, hwrap, hlast, if_true, if_false]

theorem advanceCursor_of_scroll (hcol : ¬ v.cursorCol + 1 < 80) (hrow : ¬ v.cursorRow + 1 < 25) :
    v.advanceCursor = { v.scroll with cursorRow := 24, cursorCol := 0 } := by
  have hwrap : vgaCols ≤ v.cursorCol + 1 := Nat.not_lt.mp hcol
  have hlast : vgaRows ≤ v.cursorRow + 1 := Nat.not_lt.mp hrow
  simp only [advanceCursor, hwrap, hlast, if_true, scroll_eq]
  rfl

/-- Blanks on the first rows. -/
private theorem foldl_putCell_rows (hn : n ≤ vgaRows) :
    (List.range n).foldl (fun v row => (List.range vgaCols).foldl
      (fun v col => v.putCell row col ch attr) v) v =
      { v with
        buffer := fun i => if i < n * vgaCols then vgaCell ch attr else v.buffer i } := by
  induction n with
  | zero =>
    simp only [Nat.zero_mul, Nat.not_lt_zero, if_false]
    rfl
  | succ n ih =>
    rw [List.range_succ, List.foldl_append, ih (by omega), List.foldl_cons, List.foldl_nil,
      foldl_putCell hn le_rfl]
    congr 1
    funext i
    dsimp only
    rw [Nat.succ_mul, ← ite_or]
    exact if_congr (by omega) rfl rfl

theorem clear_eq (v : Vga) (attr : UInt8) :
    v.clear attr = ⟨fun i => if i < 25 * 80 then vgaCell ' ' attr else v.buffer i, 0, 0⟩ := by
  rw [clear, foldl_putCell_rows le_rfl]
  rfl

end Vga

/-- A screen of the console. -/
abbrev Screen := Terminal UInt16 25 80

/-- The attribute in the high byte, the character in the low one. -/
def cellOf (ch : Char) (attr : UInt8) : UInt16 := UInt16.ofNat (attr.toNat * 256 + ch.toNat)

/-- What writing a character sends to the terminal. -/
def outputOf (ch : Char) (attr : UInt8) : Output UInt16 :=
  if ch = '\n' then .newLine else .char (cellOf ch attr)

/-- A new row is blank, light grey on black. -/
def blankCell : UInt16 := cellOf ' ' 0x07

/-- The screen after `clear`. -/
def clearedScreen (attr : UInt8) : Screen :=
  Terminal.cleared (cellOf ' ' attr) (by decide) (by decide)

/-- The screen after the characters are written, each with its attribute. -/
def screenAfter (attr : UInt8) (text : List (Char × UInt8)) : Screen :=
  (clearedScreen attr).sendAll blankCell (text.map fun p => outputOf p.1 p.2)

/-- The driver shows the screen, cell by cell, and has the cursor where it is. -/
structure Shows (v : Vga) (t : Screen) : Prop where
  row_eq : v.cursorRow = t.row.val
  col_eq : v.cursorCol = t.col.val
  cell_eq : ∀ (r : Fin 25) (c : Fin 80), v.buffer (r.val * 80 + c.val) = t.cell r c

variable {v : Vga} {t : Screen} {ch : Char} {attr : UInt8}

theorem vgaCell_eq (hch : ch.toNat < 256) (attr : UInt8) : vgaCell ch attr = cellOf ch attr := by
  have hattr := attr.toNat_lt
  have hhigh : attr.toNat <<< 8 < 2 ^ 16 := by
    rw [Nat.shiftLeft_eq]
    omega
  apply UInt16.toNat_inj.mp
  have hsize : UInt16.size = 2 ^ 16 := rfl
  rw [vgaCell, cellOf, UInt16.toNat_or, UInt16.toNat_shiftLeft, Nat.mod_eq_of_lt hch,
    UInt16.toNat_ofNat_of_lt' (by omega), UInt16.toNat_ofNat_of_lt' (by omega),
    UInt16.toNat_ofNat_of_lt' (by omega)]
  change ch.toNat ||| attr.toNat <<< 8 % 2 ^ 16 = attr.toNat * 2 ^ 8 + ch.toNat
  rw [Nat.mod_eq_of_lt hhigh, Nat.or_comm, ← Nat.shiftLeft_add_eq_or_of_lt hch, Nat.shiftLeft_eq]

theorem shows_clear (v : Vga) (attr : UInt8) : Shows (v.clear attr) (clearedScreen attr) := by
  rw [Vga.clear_eq]
  refine ⟨rfl, rfl, fun r c => ?_⟩
  have hr := r.isLt
  have hc := c.isLt
  dsimp only
  rw [if_pos (by omega)]
  exact vgaCell_eq (by decide) attr

/-- A line feed that does not leave the screen. -/
theorem Shows.newLine (h : Shows v t) (hrow : t.row.val + 1 < 25) :
    Shows (v.writeChar attr '\n') (t.newLine blankCell) := by
  rw [Terminal.newLine_of_lt hrow]
  exact ⟨congrArg (· + 1) h.row_eq, rfl, h.cell_eq⟩

/-- The screen moves up. -/
theorem Shows.scroll (h : Shows v t) (hrow : ¬ t.row.val + 1 < 25) :
    Shows { v.scroll with cursorRow := 24, cursorCol := 0 } (t.newLine blankCell) := by
  have hlast : t.row.val = 24 := by
    have hlt := t.row.isLt
    omega
  rw [Terminal.newLine_of_last hrow, Vga.scroll_eq]
  refine ⟨hlast.symm, rfl, fun r c => ?_⟩
  have hr := r.isLt
  have hc := c.isLt
  dsimp only [Terminal.scrollUp]
  split
  next hin =>
    rw [dif_neg (by omega)]
    exact vgaCell_eq (by decide) 0x07
  next hin =>
    rw [if_pos (by omega), dif_pos (by omega)]
    have hcell := h.cell_eq ⟨r.val + 1, by omega⟩ c
    dsimp only at hcell
    rw [← hcell]
    congr 1
    omega

/-- A character in its cell. -/
theorem Shows.store (h : Shows v t) (hch : ch.toNat < 256) (attr : UInt8) :
    Shows (v.putCell v.cursorRow v.cursorCol ch attr) (t.store (cellOf ch attr)) := by
  have hrow := t.row.isLt
  have hcol := t.col.isLt
  have hv := h.row_eq
  have hv' := h.col_eq
  rw [Vga.putCell_of_lt (by unfold vgaRows; omega) (by unfold vgaCols; omega)]
  refine ⟨hv, hv', fun r c => ?_⟩
  have hr := r.isLt
  have hc := c.isLt
  rw [Terminal.store_cell, ← vgaCell_eq hch, ← h.cell_eq r c]
  dsimp only
  rw [Function.update_apply, hv, hv']
  unfold vgaCols
  by_cases hcell : r = t.row ∧ c = t.col
  · rw [if_pos hcell, if_pos (by rw [hcell.1, hcell.2])]
  · rw [if_neg hcell, if_neg]
    intro heq
    exact hcell ⟨Fin.ext (by omega), Fin.ext (by omega)⟩

/-- A character that is no line feed is written as the terminal writes it. -/
theorem Shows.writeChar (h : Shows v t) (hch : ch.toNat < 256) (hne : ch ≠ '\n')
    (attr : UInt8) :
    Shows (v.writeChar attr ch) (t.send blankCell (.char (cellOf ch attr))) := by
  have hstore := h.store hch attr
  rw [Vga.writeChar, if_neg hne, Terminal.send]
  generalize v.putCell v.cursorRow v.cursorCol ch attr = w at hstore ⊢
  generalize t.store (cellOf ch attr) = u at hstore ⊢
  have hrow := hstore.row_eq
  have hcol := hstore.col_eq
  have hlt := u.row.isLt
  by_cases hwrap : u.col.val + 1 < 80
  · rw [Terminal.advance_of_lt hwrap, Vga.advanceCursor_of_lt (by omega) (by omega)]
    exact ⟨hrow, congrArg (· + 1) hcol, hstore.cell_eq⟩
  · rw [Terminal.advance_of_last hwrap]
    by_cases hlast : u.row.val + 1 < 25
    · rw [Terminal.newLine_of_lt hlast, Vga.advanceCursor_of_wrap (by omega) (by omega)]
      exact ⟨congrArg (· + 1) hrow, rfl, hstore.cell_eq⟩
    · rw [Vga.advanceCursor_of_scroll (by omega) (by omega)]
      exact hstore.scroll hlast

/-- The characters of a list of calls, each with the attribute it is written with. -/
def written (calls : List (String × UInt8)) : List (Char × UInt8) :=
  calls.flatMap fun call => call.1.toList.map fun ch => (ch, call.2)

/-- The calls of `write`, one after the other. -/
def writeAll (v : Vga) (calls : List (String × UInt8)) : Vga :=
  calls.foldl (fun v call => v.write call.1 call.2) v

/-- As long as no more than these calls is written, however the characters are cut into calls,
the driver shows the screen of the terminal. -/
def FollowsTerminal (v : Vga) (attr : UInt8) (calls : List (String × UInt8)) : Prop :=
  ∀ calls', written calls' <+: written calls →
    Shows (writeAll (v.clear attr) calls') (screenAfter attr (written calls'))

/-- No line feed is written while the cursor of the terminal is on the last row. -/
def NoLineFeedOnLastRow (attr : UInt8) (calls : List (String × UInt8)) : Prop :=
  ∀ before a behind, written calls = before ++ ('\n', a) :: behind →
    (screenAfter attr before).row.val + 1 < 25

variable {text : List (Char × UInt8)} {calls : List (String × UInt8)}

theorem written_cons (call : String × UInt8) (calls : List (String × UInt8)) :
    written (call :: calls) =
      (call.1.toList.map fun ch => (ch, call.2)) ++ written calls :=
  List.flatMap_cons

theorem writeAll_eq (v : Vga) (calls : List (String × UInt8)) :
    writeAll v calls = (written calls).foldl (fun v p => v.writeChar p.2 p.1) v := by
  induction calls generalizing v with
  | nil => rfl
  | cons call calls ih =>
    rw [writeAll, List.foldl_cons, ← writeAll, ih, written_cons, List.foldl_append, List.foldl_map]
    rfl

/-- One call for each character. -/
theorem written_singles (text : List (Char × UInt8)) :
    written (text.map fun p => (String.ofList [p.1], p.2)) = text := by
  induction text with
  | nil => rfl
  | cons p text ih =>
    rw [List.map_cons, written_cons, ih, String.toList_ofList]
    rfl

theorem screenAfter_concat (attr : UInt8) (text : List (Char × UInt8)) (ch : Char) (a : UInt8) :
    screenAfter attr (text ++ [(ch, a)]) =
      (screenAfter attr text).send blankCell (outputOf ch a) := by
  rw [screenAfter, List.map_append, Terminal.sendAll, List.foldl_append]
  rfl

/-- The run lemma: the induction is on the characters from the last one back, since the
condition is about what is written before a line feed. -/
theorem shows_foldl (v : Vga) (attr : UInt8) (hbytes : ∀ p ∈ text, p.1.toNat < 256)
    (hlines : ∀ before a behind, text = before ++ ('\n', a) :: behind →
      (screenAfter attr before).row.val + 1 < 25) :
    Shows (text.foldl (fun v p => v.writeChar p.2 p.1) (v.clear attr)) (screenAfter attr text) := by
  induction text using List.reverseRecOn with
  | nil => exact shows_clear v attr
  | append_singleton text p ih =>
    obtain ⟨ch, a⟩ := p
    have hshown := ih (fun p hp => hbytes p (List.mem_append_left _ hp))
      fun before b behind heq => hlines before b (behind ++ [(ch, a)]) (by rw [heq]; simp)
    rw [List.foldl_append, List.foldl_cons, List.foldl_nil, screenAfter_concat, outputOf]
    by_cases hfeed : ch = '\n'
    · subst hfeed
      rw [if_pos rfl]
      exact hshown.newLine (hlines text a [] rfl)
    · rw [if_neg hfeed]
      exact hshown.writeChar (hbytes (ch, a) (by simp)) hfeed a

/-- A line feed on the last row takes the cursor off the screen. -/
private theorem not_shows_lineFeed (h : Shows v t) (hrow : ¬ t.row.val + 1 < 25) (u : Screen) :
    ¬ Shows (v.writeChar attr '\n') u := by
  intro hshown
  have hv : v.cursorRow + 1 = u.row.val := hshown.row_eq
  have hlt := u.row.isLt
  have hrow' := h.row_eq
  omega

/-- The console is a scrolling terminal exactly as long as no line feed is written on the last
row: the turn of the loop that handles it never comes to the test for the bottom of the
screen. -/
theorem followsTerminal_iff (v : Vga) (attr : UInt8) (calls : List (String × UInt8))
    (hbytes : ∀ p ∈ written calls, p.1.toNat < 256) :
    FollowsTerminal v attr calls ↔ NoLineFeedOnLastRow attr calls := by
  constructor
  · intro h before a behind heq
    by_contra hrow
    have hbefore := h (before.map fun p => (String.ofList [p.1], p.2))
      (by rw [written_singles, heq]; exact List.prefix_append _ _)
    have hfeed := h ((before ++ [('\n', a)]).map fun p => (String.ofList [p.1], p.2))
      (by rw [written_singles, heq]; exact ⟨behind, by simp⟩)
    rw [writeAll_eq, written_singles] at hbefore hfeed
    rw [List.foldl_append, List.foldl_cons, List.foldl_nil] at hfeed
    exact not_shows_lineFeed hbefore hrow _ hfeed
  · intro h calls' hprefix
    obtain ⟨rest, hrest⟩ := hprefix
    rw [writeAll_eq]
    apply shows_foldl v attr
    · exact fun p hp => hbytes p (by rw [← hrest]; exact List.mem_append_left _ hp)
    · intro before a behind heq
      exact h before a (behind ++ rest) (by rw [← hrest, heq]; simp)

theorem followsTerminal_iff_hello :
    (∀ p ∈ written [("hi\n", 7)], p.1.toNat < 256) ∧
      (FollowsTerminal ⟨fun _ => 0, 0, 0⟩ 7 [("hi\n", 7)] ↔
        NoLineFeedOnLastRow 7 [("hi\n", 7)]) :=
  ⟨by decide, followsTerminal_iff ⟨fun _ => 0, 0, 0⟩ 7 [("hi\n", 7)] (by decide)⟩

/-- Twenty-five line feeds and the cursor is on row 25, below the screen. -/
theorem lineFeeds_leave_screen :
    (writeAll (Vga.clear ⟨fun _ => 0, 0, 0⟩ 7)
      [("\n\n\n\n\n\n\n\n\n\n\n\n\n\n\n\n\n\n\n\n\n\n\n\n\n", 7)]).cursorRow = 25 ∧
      ¬ FollowsTerminal ⟨fun _ => 0, 0, 0⟩ 7
        [("\n\n\n\n\n\n\n\n\n\n\n\n\n\n\n\n\n\n\n\n\n\n\n\n\n", 7)] := by
  have hrow : (writeAll (Vga.clear ⟨fun _ => 0, 0, 0⟩ 7)
      [("\n\n\n\n\n\n\n\n\n\n\n\n\n\n\n\n\n\n\n\n\n\n\n\n\n", 7)]).cursorRow = 25 := by
    rw [Vga.clear_eq]
    decide
  refine ⟨hrow, fun h => ?_⟩
  have hshown := (h _ (List.prefix_refl _)).row_eq
  have hlt := (screenAfter 7 (written
    [("\n\n\n\n\n\n\n\n\n\n\n\n\n\n\n\n\n\n\n\n\n\n\n\n\n", 7)])).row.isLt
  omega

end LionOS.Console
