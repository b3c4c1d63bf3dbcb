import LionOS.Launcher.Selection

/-!
# The setup wizard

Three pages, each left by Enter: the welcome page, the list of tools and the component picker. The
first two wait for Enter and for nothing else; only the picker looks at Quit.
-/

namespace LionOS.Launcher

/-- A decoded key press. -/
inductive Key
  | up
  | down
  | toggle
  | enter
  | quit
  | number (n : UInt8)
  | unknown
  deriving DecidableEq

/-- The names of `HOST_TOOLS`. -/
def hostTools : List String := ["qemu", "rust", "nasm", "g++", "zig", "mtools"]

/-- How far the wizard gets with the keys it is given: it waits for another key, it returns, or
it hands a selection to `run_with_progress`. -/
inductive Outcome
  | waiting
  | quit
  | progress (sel : Selection) (fromRelease : Bool) (steps : List String)
  deriving DecidableEq

/-- Read keys up to one of the wanted ones. `none` is still waiting. -/
def waitFor (wanted : List Key) : List Key → Option (List Key)
  | [] => none
  | key :: keys => if wanted.contains key then some keys else waitFor wanted keys

/-- The selection and the cursor of the picker. -/
structure Picker where
  sel : Selection
  cursor : Nat
  deriving DecidableEq

namespace Picker

/-- Toggle the component of a row, if there is one. -/
def toggleRow (p : Picker) (row : Nat) : Picker :=
  match components[row]? with
  | some c => { p with sel := p.sel.toggle c.key }
  | none => p

/-- A key that does not leave the picker. -/
def press (p : Picker) : Key → Picker
  | .up => { p with cursor := p.cursor - 1 }
  | .down => { p with cursor := min (p.cursor + 1) (components.length - 1) }
  | .number n => p.toggleRow (n.toNat - 1)
  | .toggle => p.toggleRow p.cursor
  | _ => p

/-- The loop of the picker, and what comes after it. -/
def loop (p : Picker) : List Key → Outcome
  | [] => .waiting
  | .enter :: _ => .progress p.sel false (hostTools ++ ["build"])
  | .quit :: _ => .quit
  | key :: keys => (p.press key).loop keys

end Picker

/-- The interactive path. -/
def runWizard (fromRelease : Bool) (keys : List Key) : Outcome :=
  match waitFor [.enter] keys with
  | none => .waiting
  | some keys =>
    match waitFor [.enter] keys with
    | none => .waiting
    | some keys =>
      if fromRelease then .progress .default true ["qemu", "prebuilt disk"]
      else Picker.loop ⟨.default, 0⟩ keys

/-- The keys of each page: welcome, tools, picker, and what is pressed later. -/
def pages (keys : List Key) : List (List Key) := keys.splitOn .enter

/-- A row of the roster. -/
abbrev Row := Fin components.length

/-- The row a key leads to. -/
def Row.next (row : Row) : Key → Row
  | .up => ⟨row.val - 1, by omega⟩
  | .down => if h : row.val + 1 < components.length then ⟨row.val + 1, h⟩ else row
  | _ => row

/-- The components that keys toggle, from a row on: a number its component, Space the one of the
row. -/
def toggled (row : Row) : List Key → List String
  | [] => []
  | .number n :: keys => (rosterKeys[n.toNat - 1]?).toList ++ toggled row keys
  | .toggle :: keys => components[row].key :: toggled row keys
  | key :: keys => toggled (row.next key) keys

def firstRow : Row := ⟨0, by decide⟩

/-- Quit on one of the three pages returns without a build; where there is none the third Enter
builds the default selection with the toggles of the picker; the cursor stays on the roster. -/
structure ObeysKeys (keys : List Key) : Prop where
  quits : (∃ page ∈ (pages keys).take 3, Key.quit ∈ page) → runWizard false keys = .quit
  builds : 4 ≤ (pages keys).length → (∀ page ∈ (pages keys).take 3, Key.quit ∉ page) →
    ∃ picked ∈ (pages keys)[2]?, runWizard false keys =
      .progress (Selection.default.toggleAll (toggled firstRow picked)) false
        (hostTools ++ ["build"])
  cursor_lt : ∀ picked ∈ (pages keys)[2]?, ∀ typed, typed <+: picked →
    (typed.foldl Picker.press ⟨.default, 0⟩).cursor < components.length

variable {keys rest : List Key} {p : Picker} {row : Row}

/-- Keys other than Enter are dropped. -/
theorem waitFor_append (h : Key.enter ∉ keys) (rest : List Key) :
    waitFor [.enter] (keys ++ rest) = waitFor [.enter] rest := by
  induction keys with
  | nil => rfl
  | cons key keys ih =>
    have hne := (List.ne_of_not_mem_cons h).symm
    rw [List.cons_append, waitFor, if_neg (by simpa using hne)]
    exact ih (List.not_mem_of_not_mem_cons h)

theorem waitFor_of_not_mem (h : Key.enter ∉ keys) : waitFor [.enter] keys = none := by
  have hall := waitFor_append h []
  rwa [List.append_nil] at hall

theorem waitFor_enter (keys : List Key) : waitFor [.enter] (.enter :: keys) = some keys := rfl

theorem toggleRow_eq (sel : Selection) (cursor row : Nat) :
    (Picker.mk sel cursor).toggleRow row =
      ⟨sel.toggleAll (rosterKeys[row]?).toList, cursor⟩ := by
  rw [Picker.toggleRow, rosterKeys, List.getElem?_map]
  cases components[row]? with
  | none => rfl
  | some c => rfl

theorem toggleAll_append (sel : Selection) (keys rest : List String) :
    sel.toggleAll (keys ++ rest) = (sel.toggleAll keys).toggleAll rest :=
  List.foldl_append

/-- Down stops at the last row. -/
theorem Row.val_next_down (row : Row) :
    (row.next .down).val = min (row.val + 1) (components.length - 1) := by
  have hrow := row.isLt
  by_cases h : row.val + 1 < components.length
  · have hnext : row.next .down = ⟨row.val + 1, h⟩ := dif_pos h
    rw [hnext]
    dsimp only
    omega
  · have hnext : row.next .down = row := dif_neg h
    rw [hnext]
    omega

private theorem toggled_number (row : Row) (n : UInt8) (keys : List Key) :
    toggled row (.number n :: keys) =
      (rosterKeys[n.toNat - 1]?).toList ++ toggled row keys := rfl

/-- A key moves the cursor along the rows, and toggles what it stands for. -/
theorem press_eq (key : Key) (sel : Selection) (row : Row) :
    ∃ sel', (Picker.mk sel row.val).press key = ⟨sel', (row.next key).val⟩ ∧
      ∀ keys, sel.toggleAll (toggled row (key :: keys)) =
        sel'.toggleAll (toggled (row.next key) keys) := by
  cases key with
  | up => exact ⟨sel, rfl, fun _ => rfl⟩
  | down => exact ⟨sel, congrArg (Picker.mk sel) row.val_next_down.symm, fun _ => rfl⟩
  | number n =>
    refine ⟨_, toggleRow_eq sel row.val (n.toNat - 1), fun keys => ?_⟩
    rw [toggled_number, toggleAll_append]
    rfl
  | toggle =>
    refine ⟨_, toggleRow_eq sel row.val row.val, fun keys => ?_⟩
    have hkey : rosterKeys[row.val]? = some components[row].key := by
      rw [rosterKeys, List.getElem?_map, List.getElem?_eq_getElem row.isLt]
      rfl
    rw [hkey]
    rfl
  | enter => exact ⟨sel, rfl, fun _ => rfl⟩
  | quit => exact ⟨sel, rfl, fun _ => rfl⟩
  | unknown => exact ⟨sel, rfl, fun _ => rfl⟩

theorem loop_cons {key : Key} (henter : key ≠ .enter) (hquit : key ≠ .quit) (p : Picker)
    (keys : List Key) : p.loop (key :: keys) = (p.press key).loop keys := by
  cases key with
  | enter => exact absurd rfl henter
  | quit => exact absurd rfl hquit
  | _ => rfl

/-- The picker returns at the first Quit. -/
theorem loop_of_quit (henter : Key.enter ∉ keys) (hquit : Key.quit ∈ keys) (p : Picker)
    (rest : List Key) : p.loop (keys ++ rest) = .quit := by
  induction keys generalizing p with
  | nil => cases hquit
  | cons key keys ih =>
    by_cases hkey : key = .quit
    · rw [hkey]
      rfl
    · have hne := (List.ne_of_not_mem_cons henter).symm
      rw [List.cons_append, loop_cons hne hkey]
      refine ih (List.not_mem_of_not_mem_cons henter) ?_ _
      exact (List.mem_cons.mp hquit).resolve_left (Ne.symm hkey)

/-- Keys toggle what they stand for, and leave the cursor on a row. -/
theorem foldl_press (keys : List Key) (sel : Selection) (row : Row) :
    ∃ row' : Row, keys.foldl Picker.press ⟨sel, row.val⟩ =
      ⟨sel.toggleAll (toggled row keys), row'.val⟩ := by
  induction keys generalizing sel row with
  | nil => exact ⟨row, rfl⟩
  | cons key keys ih =>
    obtain ⟨sel', hpress, htoggled⟩ := press_eq key sel row
    obtain ⟨row', hrest⟩ := ih sel' (row.next key)
    refine ⟨row', ?_⟩
    rw [List.foldl_cons, hpress, hrest, htoggled]

/-- Without Enter and Quit the picker goes on. -/
theorem loop_append (henter : Key.enter ∉ keys) (hquit : Key.quit ∉ keys) (p : Picker)
    (rest : List Key) : p.loop (keys ++ rest) = (keys.foldl Picker.press p).loop rest := by
  induction keys generalizing p with
  | nil => rfl
  | cons key keys ih =>
    have hne := (List.ne_of_not_mem_cons henter).symm
    have hnq := (List.ne_of_not_mem_cons hquit).symm
    rw [List.cons_append, loop_cons hne hnq, List.foldl_cons]
    exact ih (List.not_mem_of_not_mem_cons henter) (List.not_mem_of_not_mem_cons hquit) _

/-- How far the keys get: not beyond the second page, on the picker, or beyond it. -/
inductive Reaches : List Key → Prop
  | welcome {w : List Key} (hw : Key.enter ∉ w) : Reaches w
  | tools {w t : List Key} (hw : Key.enter ∉ w) (ht : Key.enter ∉ t) : Reaches (w ++ .enter :: t)
  | picker {w t c : List Key} (hw : Key.enter ∉ w) (ht : Key.enter ∉ t) (hc : Key.enter ∉ c) :
      Reaches (w ++ .enter :: (t ++ .enter :: c))
  | confirmed {w t c : List Key} (hw : Key.enter ∉ w) (ht : Key.enter ∉ t) (hc : Key.enter ∉ c)
      (rest : List Key) : Reaches (w ++ .enter :: (t ++ .enter :: (c ++ .enter :: rest)))

theorem reaches (keys : List Key) : Reaches keys := by
  by_cases hwelcome : Key.enter ∈ keys
  · obtain ⟨w, keys, rfl, hw⟩ := List.eq_append_cons_of_mem hwelcome
    by_cases htools : Key.enter ∈ keys
    · obtain ⟨t, keys, rfl, ht⟩ := List.eq_append_cons_of_mem htools
      by_cases hpicker : Key.enter ∈ keys
      · obtain ⟨c, rest, rfl, hc⟩ := List.eq_append_cons_of_mem hpicker
        exact .confirmed hw ht hc rest
      · exact .picker hw ht hpicker
    · exact .tools hw htools
  · exact .welcome hwelcome

theorem pages_of_not_mem (h : Key.enter ∉ keys) : pages keys = [keys] :=
  List.splitOn_eq_singleton h

theorem pages_append (h : Key.enter ∉ keys) (rest : List Key) :
    pages (keys ++ .enter :: rest) = keys :: pages rest :=
  List.splitOn_append_cons_self_of_not_mem h rest

/-- With two pages left by Enter the wizard is on the picker. -/
theorem runWizard_picker {w t : List Key} (hw : Key.enter ∉ w) (ht : Key.enter ∉ t)
    (keys : List Key) :
    runWizard false (w ++ .enter :: (t ++ .enter :: keys)) =
      Picker.loop ⟨.default, firstRow.val⟩ keys := by
  rw [runWizard, waitFor_append hw, waitFor_enter]
  dsimp only
  rw [waitFor_append ht, waitFor_enter]
  rfl

/-- The wizard quits exactly on a Quit of the third page. -/
theorem runWizard_eq_quit_iff (keys : List Key) :
    runWizard false keys = .quit ↔ ∃ picked ∈ (pages keys)[2]?, Key.quit ∈ picked := by
  cases reaches keys with
  | welcome hw =>
    rw [runWizard, waitFor_of_not_mem hw, pages_of_not_mem hw]
    simp
  | tools hw ht =>
    rw [runWizard, waitFor_append hw, waitFor_enter, pages_append hw, pages_of_not_mem ht]
    dsimp only
    rw [waitFor_of_not_mem ht]
    simp
  | @picker w t c hw ht hc =>
    have hpages : (pages (w ++ .enter :: (t ++ .enter :: c)))[2]? = some c := by
      rw [pages_append hw, pages_append ht, pages_of_not_mem hc]
      rfl
    rw [runWizard_picker hw ht, hpages]
    by_cases hquit : Key.quit ∈ c
    · have hloop := loop_of_quit hc hquit ⟨.default, firstRow.val⟩ []
      rw [List.append_nil] at hloop
      simp [hloop, hquit]
    · have hloop := loop_append hc hquit ⟨.default, firstRow.val⟩ []
      rw [List.append_nil] at hloop
      simp [hloop, hquit, Picker.loop]
  | @confirmed w t c hw ht hc rest =>
    have hpages : (pages (w ++ .enter :: (t ++ .enter :: (c ++ .enter :: rest))))[2]? = some c := by
      rw [pages_append hw, pages_append ht, pages_append hc]
      rfl
    rw [runWizard_picker hw ht, hpages]
    by_cases hquit : Key.quit ∈ c
    · simp [loop_of_quit hc hquit, hquit]
    · simp [loop_append hc hquit, hquit, Picker.loop]

/-- Without Quit on the third page, the third Enter builds what has been picked. -/
theorem runWizard_builds (hlen : 4 ≤ (pages keys).length)
    (hquit : ∀ page ∈ (pages keys).take 3, Key.quit ∉ page) :
    ∃ picked ∈ (pages keys)[2]?, runWizard false keys =
      .progress (Selection.default.toggleAll (toggled firstRow picked)) false
        (hostTools ++ ["build"]) := by
  cases reaches keys with
  | welcome hw =>
    rw [pages_of_not_mem hw] at hlen
    simp at hlen
  | tools hw ht =>
    rw [pages_append hw, pages_of_not_mem ht] at hlen
    simp at hlen
  | picker hw ht hc =>
    rw [pages_append hw, pages_append ht, pages_of_not_mem hc] at hlen
    simp at hlen
  | @confirmed w t c hw ht hc rest =>
    rw [pages_append hw, pages_append ht, pages_append hc] at hquit ⊢
    obtain ⟨row, hpressed⟩ := foldl_press c .default firstRow
    refine ⟨c, rfl, ?_⟩
    rw [runWizard_picker hw ht, loop_append hc (hquit c (by simp)), hpressed]
    rfl

/-- The cursor of the picker stays on the roster. -/
private theorem foldl_press_cursor_lt (keys : List Key) :
    (keys.foldl Picker.press ⟨.default, 0⟩).cursor < components.length := by
  obtain ⟨row, hpressed⟩ := foldl_press keys .default firstRow
  change (keys.foldl Picker.press ⟨.default, firstRow.val⟩).cursor < _
  rw [hpressed]
  exact row.isLt

/-- The wizard obeys its keys exactly if a Quit on one of the first two pages is followed by one
on the picker. -/
theorem obeysKeys_iff (keys : List Key) :
    ObeysKeys keys ↔ ((∃ page ∈ (pages keys).take 2, Key.quit ∈ page) →
      ∃ picked ∈ (pages keys)[2]?, Key.quit ∈ picked) := by
  have htake : (pages keys).take 3 = (pages keys).take 2 ++ (pages keys)[2]?.toList :=
    List.take_add_one
  constructor
  · rintro ⟨hquits, -, -⟩ ⟨page, hpage, hquit⟩
    refine (runWizard_eq_quit_iff keys).mp (hquits ⟨page, ?_, hquit⟩)
    rw [htake]
    exact List.mem_append_left _ hpage
  · intro h
    refine ⟨?_, runWizard_builds, fun _ _ typed _ => foldl_press_cursor_lt typed⟩
    rintro ⟨page, hpage, hquit⟩
    refine (runWizard_eq_quit_iff keys).mpr ?_
    rw [htake] at hpage
    rcases List.mem_append.mp hpage with hfirst | hthird
    · exact h ⟨page, hfirst, hquit⟩
    · exact ⟨page, Option.mem_toList.mp hthird, hquit⟩

/-- Quit on the welcome page, then Enter three times: everything is installed. -/
theorem quit_ignored :
    runWizard false [.quit, .enter, .enter, .enter] =
        .progress .default false (hostTools ++ ["build"]) ∧
      ¬ ObeysKeys [.quit, .enter, .enter, .enter] := by
  have hrun : runWizard false [.quit, .enter, .enter, .enter] =
      .progress .default false (hostTools ++ ["build"]) := rfl
  refine ⟨hrun, fun h => ?_⟩
  have hquit := h.quits ⟨[.quit], by decide, by decide⟩
  rw [hrun] at hquit
  cases hquit

end LionOS.Launcher
