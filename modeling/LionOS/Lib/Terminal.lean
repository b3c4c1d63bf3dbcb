import Mathlib.Data.Fin.Basic
import Mathlib.Logic.Function.Basic

/-!
# Scrolling terminals

A screen of rows and columns with a cursor on it. A character goes where the cursor is, and the
cursor moves on; behind the last column a new line begins, and behind the last row the screen
moves up by one row to make room.
-/

namespace Lib

variable {α : Type}

/-- A screen and its cursor, which is always on it. -/
structure Terminal (α : Type) (rows cols : Nat) where
  cell : Fin rows → Fin cols → α
  row : Fin rows
  col : Fin cols

/-- What is sent to a terminal. -/
inductive Output (α : Type)
  | char (a : α)
  | newLine

namespace Terminal

variable {rows cols : Nat}

/-- The screen one row further up. -/
def scrollUp (blank : α) (cell : Fin rows → Fin cols → α) : Fin rows → Fin cols → α :=
  fun r c => if h : r.val + 1 < rows then cell ⟨r.val + 1, h⟩ c else blank

/-- The cursor goes to the start of the next row. -/
def newLine (blank : α) (t : Terminal α rows cols) : Terminal α rows cols :=
  if h : t.row.val + 1 < rows then
    { t with row := ⟨t.row.val + 1, h⟩, col := ⟨0, t.col.pos⟩ }
  else { t with cell := scrollUp blank t.cell, col := ⟨0, t.col.pos⟩ }

/-- A character at the cursor. -/
def store (t : Terminal α rows cols) (a : α) : Terminal α rows cols :=
  { t with cell := Function.update t.cell t.row (Function.update (t.cell t.row) t.col a) }

/-- The cursor moves on by one column. -/
def advance (blank : α) (t : Terminal α rows cols) : Terminal α rows cols :=
  if h : t.col.val + 1 < cols then { t with col := ⟨t.col.val + 1, h⟩ } else t.newLine blank

/-- The terminal after one output. -/
def send (blank : α) (t : Terminal α rows cols) : Output α → Terminal α rows cols
  | .char a => (t.store a).advance blank
  | .newLine => t.newLine blank

/-- The terminal after a list of them. -/
def sendAll (blank : α) (t : Terminal α rows cols) (out : List (Output α)) :
    Terminal α rows cols :=
  out.foldl (send blank) t

/-- An empty screen with the cursor in its first cell. -/
def cleared (a : α) (hrows : 0 < rows) (hcols : 0 < cols) : Terminal α rows cols :=
  ⟨fun _ _ => a, ⟨0, hrows⟩, ⟨0, hcols⟩⟩

variable {blank : α} {t : Terminal α rows cols}

theorem newLine_of_lt (h : t.row.val + 1 < rows) :
    t.newLine blank = { t with row := ⟨t.row.val + 1, h⟩, col := ⟨0, t.col.pos⟩ } := dif_pos h

theorem newLine_of_last (h : ¬ t.row.val + 1 < rows) :
    t.newLine blank = { t with cell := scrollUp blank t.cell, col := ⟨0, t.col.pos⟩ } :=
  dif_neg h

theorem advance_of_lt (h : t.col.val + 1 < cols) :
    t.advance blank = { t with col := ⟨t.col.val + 1, h⟩ } := dif_pos h

theorem advance_of_last (h : ¬ t.col.val + 1 < cols) :
    t.advance blank = t.newLine blank := dif_neg h

/-- Only the cell at the cursor changes. -/
theorem store_cell (a : α) (r : Fin rows) (c : Fin cols) :
    (t.store a).cell r c = if r = t.row ∧ c = t.col then a else t.cell r c := by
  by_cases hr : r = t.row
  · subst hr
    simp [store, Function.update_apply]
  · simp [store, hr]

end Terminal

end Lib
