import LionOS.Launcher.Manifest
import LionOS.Launcher.Toml
import LionOS.Lib.Occurrences

/-!
# Toggling a loaded selection

`toggle` takes out one occurrence of a key, so it relies on every key being there once. The
defaults have every key once; the reader of saved selections keeps a key as often as the document
lists it.
-/

namespace LionOS.Launcher

open Lib

namespace Selection

/-- The required components are enabled, no key is there twice, and a toggle of any other key
changes that key alone. -/
structure TogglesRight (s : Selection) : Prop where
  required : ∀ k, isRequired k = true → s.isEnabled k = true
  nodup : s.enabled.Nodup
  flips : ∀ k, isRequired k = false → (s.toggle k).isEnabled k = !s.isEnabled k
  others : ∀ k, isRequired k = false → ∀ j ≠ k, (s.toggle k).isEnabled j = s.isEnabled j

/-- The part of it that every toggle keeps. -/
structure Clean (s : Selection) : Prop where
  required : ∀ k, isRequired k = true → k ∈ s.enabled
  nodup : s.enabled.Nodup

variable {s : Selection} {k j text : String}

theorem Clean.toggle (h : s.Clean) (k : String) : (s.toggle k).Clean := by
  obtain ⟨-, heq⟩ | ⟨hreq, -, heq⟩ | ⟨-, hnew, heq⟩ := toggle_cases s k
  · rwa [heq]
  · rw [heq]
    refine ⟨fun j hj => ?_, h.nodup.erase k⟩
    have hne : j ≠ k := by
      rintro rfl
      exact hreq hj
    exact (List.mem_erase_of_ne hne).mpr (h.required j hj)
  · rw [heq]
    refine ⟨fun j hj => List.mem_append_left _ (h.required j hj), ?_⟩
    refine List.nodup_append.mpr ⟨h.nodup, List.nodup_singleton k, ?_⟩
    rintro a ha b hb rfl
    exact hnew (List.mem_singleton.mp hb ▸ ha)

theorem Clean.toggleAll (h : s.Clean) (keys : List String) : (s.toggleAll keys).Clean := by
  induction keys generalizing s with
  | nil => exact h
  | cons k keys ih => exact ih (h.toggle k)

theorem isEnabled_iff : s.isEnabled k = true ↔ k ∈ s.enabled := List.contains_iff_mem

theorem isEnabled_toggle_self (hnodup : s.enabled.Nodup) (hk : isRequired k = false) :
    (s.toggle k).isEnabled k = !s.isEnabled k := by
  obtain ⟨hreq, -⟩ | ⟨-, hmem, heq⟩ | ⟨-, hnew, heq⟩ := toggle_cases s k
  · rw [hk] at hreq
    exact absurd hreq Bool.false_ne_true
  · rw [heq, isEnabled_iff.mpr hmem, Bool.not_true, ← Bool.not_eq_true, isEnabled_iff]
    exact fun h => (List.Nodup.mem_erase_iff hnodup).mp h |>.1 rfl
  · have hoff : s.isEnabled k = false := by
      rw [← Bool.not_eq_true, isEnabled_iff]
      exact hnew
    rw [heq, hoff, Bool.not_false, isEnabled_iff]
    exact List.mem_append_right _ (List.mem_singleton_self k)

private theorem isEnabled_toggle_of_ne (s : Selection) (hne : j ≠ k) :
    (s.toggle k).isEnabled j = s.isEnabled j := by
  obtain ⟨-, heq⟩ | ⟨-, -, heq⟩ | ⟨-, -, heq⟩ := toggle_cases s k
  · rw [heq]
  · rw [heq, Bool.eq_iff_iff, isEnabled_iff, isEnabled_iff, List.mem_erase_of_ne hne]
  · rw [heq, Bool.eq_iff_iff, isEnabled_iff, isEnabled_iff]
    simp [hne]

theorem Clean.togglesRight (h : s.Clean) : s.TogglesRight where
  required k hk := isEnabled_iff.mpr (h.required k hk)
  nodup := h.nodup
  flips _ hk := isEnabled_toggle_self h.nodup hk
  others _ _ _ hne := isEnabled_toggle_of_ne s hne

theorem default_clean : default.Clean := ⟨default_valid.required, default_valid.nodup⟩

/-- The keys of a document, in the order and as often as it has them. -/
def listedKeys (text : String) : List String := ((lines text).foldl readLine (false, [])).2

private theorem foldl_mergeRequired_eq (roster : List Component) (enabled : List String) :
    roster.foldl mergeRequired enabled =
      ((roster.filter (·.required)).map (·.key)).foldl pushNew enabled := by
  induction roster generalizing enabled with
  | nil => rfl
  | cons c roster ih =>
    rw [List.foldl_cons, ih, mergeRequired, List.filter_cons]
    cases c.required with
    | false => rfl
    | true =>
      rw [if_pos rfl, List.map_cons, List.foldl_cons, pushNew, Bool.true_and]
      cases enabled.contains c.key <;> rfl

theorem fromToml_eq (text : String) :
    fromToml text = .ok ⟨requiredComponents.foldl pushNew (listedKeys text)⟩ := by
  have hlist : (components.filter (·.required)).map (·.key) = requiredComponents := by decide
  rw [← hlist, ← foldl_mergeRequired_eq]
  rfl

private theorem nodup_merged_iff (listed : List String) :
    (requiredComponents.foldl pushNew listed).Nodup ↔ listed.Nodup :=
  ⟨fun h => (prefix_foldl_pushNew _ _).sublist.nodup h, nodup_foldl_pushNew⟩

theorem listedKeys_nodup_iff (h : fromToml text = .ok s) :
    (listedKeys text).Nodup ↔ s.enabled.Nodup := by
  rw [fromToml_eq, Except.ok.injEq] at h
  rw [← h, nodup_merged_iff]

theorem required_of_fromToml (h : fromToml text = .ok s) (hk : isRequired k = true) :
    k ∈ s.enabled := by
  rw [fromToml_eq, Except.ok.injEq] at h
  rw [← h, mem_foldl_pushNew, mem_requiredComponents_iff]
  exact .inr hk

end Selection

/-- The line is a heading. -/
def IsHeading (line : String) : Prop := startsWith (trim line) "[" = true

/-- The line is under a heading that starts with `[components]`. -/
def InComponents (ls : List String) (i : Nat) : Prop :=
  ∃ h < i, (∃ line ∈ ls[h]?, startsWith (trim line) "[components]" = true) ∧
    ∀ j, h < j → j ≤ i → ∀ line ∈ ls[j]?, ¬ IsHeading line

/-- Piece `j` of line `i`, between the quotes, is the key `k`. -/
def Lists (text : String) (i j : Nat) (k : String) : Prop :=
  InComponents (lines text) i ∧ ∃ line ∈ (lines text)[i]?,
    startsWith (trim line) "enabled" = true ∧ (splitQuotes (trim line))[j]? = some k ∧
      isToken k = true

/-- No key is listed in two places. -/
def ListsOnce (text : String) : Prop :=
  ∀ i j i' j' k, Lists text i j k → Lists text i' j' k → i = i' ∧ j = j'

/-- The pieces that the reader looks at, line by line. -/
def rows : Bool → List String → List (List String)
  | _, [] => []
  | capture, l :: ls =>
    if startsWith (trim l) "[" then [] :: rows (startsWith (trim l) "[components]") ls
    else (if capture && startsWith (trim l) "enabled" then splitQuotes (trim l) else []) ::
      rows capture ls

theorem foldl_readLine (ls : List String) (capture : Bool) (enabled : List String) :
    (ls.foldl Selection.readLine (capture, enabled)).2 =
      enabled ++ (rows capture ls).flatten.filter isToken := by
  induction ls generalizing capture enabled with
  | nil => exact (List.append_nil enabled).symm
  | cons l ls ih =>
    rw [List.foldl_cons, rows]
    by_cases hheading : startsWith (trim l) "[" = true
    · rw [Selection.readLine, if_pos hheading, if_pos hheading, ih, List.flatten_cons,
        List.nil_append]
    · rw [Selection.readLine, if_neg hheading, if_neg hheading]
      dsimp only
      split
      · rw [ih, List.flatten_cons, List.filter_append, ← List.append_assoc,
          List.map_congr_left fun tok _ => knownKey_eq tok, List.map_id']
      · rw [ih, List.flatten_cons, List.nil_append]

/-- The reader looks at the line: it began with that, or it is under the right heading. -/
def Captured (capture : Bool) (ls : List String) (i : Nat) : Prop :=
  (capture = true ∧ ∀ j ≤ i, ∀ line ∈ ls[j]?, ¬ IsHeading line) ∨ InComponents ls i

variable {capture : Bool} {l : String} {ls : List String} {i j : Nat}

theorem captured_zero : Captured capture (l :: ls) 0 ↔ capture = true ∧ ¬ IsHeading l := by
  constructor
  · rintro (⟨hc, hnone⟩ | ⟨h, hlt, -⟩)
    · exact ⟨hc, hnone 0 le_rfl l rfl⟩
    · exact absurd hlt (Nat.not_lt_zero h)
  · rintro ⟨hc, hl⟩
    refine .inl ⟨hc, fun j hj line hline => ?_⟩
    obtain rfl : j = 0 := Nat.le_zero.mp hj
    obtain rfl : l = line := Option.some.inj hline
    exact hl

/-- Behind the first line, the last heading is that line or a later one. -/
theorem inComponents_succ :
    InComponents (l :: ls) (i + 1) ↔ InComponents ls i ∨
      startsWith (trim l) "[components]" = true ∧ ∀ j ≤ i, ∀ line ∈ ls[j]?, ¬ IsHeading line := by
  constructor
  · rintro ⟨h, hlt, ⟨line, hline, hcomponents⟩, hnone⟩
    cases h with
    | zero =>
      obtain rfl : l = line := Option.some.inj hline
      exact .inr ⟨hcomponents, fun j hj => hnone (j + 1) (Nat.succ_pos j) (by omega)⟩
    | succ h =>
      exact .inl ⟨h, by omega, ⟨line, hline, hcomponents⟩, fun j hj hji =>
        hnone (j + 1) (by omega) (by omega)⟩
  · rintro (⟨h, hlt, ⟨line, hline, hcomponents⟩, hnone⟩ | ⟨hcomponents, hnone⟩)
    · refine ⟨h + 1, by omega, ⟨line, hline, hcomponents⟩, fun j hj hji => ?_⟩
      cases j with
      | zero => omega
      | succ j => exact hnone j (by omega) (by omega)
    · refine ⟨0, Nat.succ_pos i, ⟨l, rfl, hcomponents⟩, fun j hj hji => ?_⟩
      cases j with
      | zero => omega
      | succ j => exact hnone j (by omega)

private theorem none_heading_succ :
    (∀ j ≤ i + 1, ∀ line ∈ (l :: ls)[j]?, ¬ IsHeading line) ↔
      ¬ IsHeading l ∧ ∀ j ≤ i, ∀ line ∈ ls[j]?, ¬ IsHeading line := by
  constructor
  · exact fun h => ⟨h 0 (Nat.zero_le _) l rfl, fun j hj => h (j + 1) (by omega)⟩
  · rintro ⟨hl, hrest⟩ j hj line hline
    cases j with
    | zero =>
      obtain rfl : l = line := Option.some.inj hline
      exact hl
    | succ j => exact hrest j (by omega) line hline

theorem captured_succ :
    Captured capture (l :: ls) (i + 1) ↔
      Captured (startsWith (trim l) "[components]" || capture && !startsWith (trim l) "[")
        ls i := by
  rw [Captured, Captured, inComponents_succ, none_heading_succ, IsHeading, Bool.or_eq_true,
    Bool.and_eq_true, Bool.not_eq_true', Bool.not_eq_true]
  generalize startsWith (trim l) "[components]" = components
  generalize startsWith (trim l) "[" = heading
  tauto

private theorem isHeading_of_components {line : String}
    (h : startsWith (trim line) "[components]" = true) : IsHeading line := by
  have hshort : "[".toList <+: "[components]".toList := by decide
  rw [startsWith, List.isPrefixOf_iff_prefix] at h
  rw [IsHeading, startsWith, List.isPrefixOf_iff_prefix]
  exact hshort.trans h

private theorem rows_cons (capture : Bool) (l : String) (ls : List String) :
    rows capture (l :: ls) =
      (if capture && !startsWith (trim l) "[" && startsWith (trim l) "enabled" then
        splitQuotes (trim l) else []) ::
      rows (startsWith (trim l) "[components]" || capture && !startsWith (trim l) "[") ls := by
  rw [rows]
  by_cases hheading : startsWith (trim l) "[" = true
  · rw [if_pos hheading, hheading, Bool.not_true, Bool.and_false, Bool.or_false]
    rfl
  · have hother : startsWith (trim l) "[components]" = false := by
      rw [← Bool.not_eq_true]
      exact fun h => hheading (isHeading_of_components h)
    rw [if_neg hheading, hother, Bool.eq_false_of_not_eq_true hheading, Bool.not_false,
      Bool.and_true, Bool.false_or]

/-- The pieces that the reader looks at are those of the lines under the right heading. -/
private theorem entryAt_rows :
    entryAt (rows capture ls) i j = some k ↔ Captured capture ls i ∧ ∃ line ∈ ls[i]?,
      startsWith (trim line) "enabled" = true ∧ (splitQuotes (trim line))[j]? = some k := by
  induction ls generalizing capture i with
  | nil => simp [rows, entryAt]
  | cons l ls ih =>
    rw [rows_cons]
    cases i with
    | zero =>
      rw [entryAt_cons_zero, captured_zero, IsHeading, List.getElem?_cons_zero]
      simp only [Option.mem_some_iff, exists_eq_left', Bool.not_eq_true]
      generalize startsWith (trim l) "[" = heading
      generalize startsWith (trim l) "enabled" = enabled
      cases capture <;> cases heading <;> cases enabled <;> simp
    | succ i => rw [entryAt_cons_succ, ih, captured_succ, List.getElem?_cons_succ]

private theorem lists_iff :
    Lists text i j k ↔
      entryAt (rows false (lines text)) i j = some k ∧ isToken k = true := by
  rw [entryAt_rows, Lists, Captured]
  simp only [Bool.false_eq_true, false_and, false_or]
  constructor
  · rintro ⟨hin, line, hline, henabled, hpiece, htoken⟩
    exact ⟨⟨hin, line, hline, henabled, hpiece⟩, htoken⟩
  · rintro ⟨⟨hin, line, hline, henabled, hpiece⟩, htoken⟩
    exact ⟨hin, line, hline, henabled, hpiece, htoken⟩

theorem listsOnce_iff : (Selection.listedKeys text).Nodup ↔ ListsOnce text := by
  rw [Selection.listedKeys, foldl_readLine, List.nil_append, nodup_filter_flatten_iff]
  simp only [ListsOnce, lists_iff]
  constructor
  · exact fun h i j i' j' k hk hk' => h i j i' j' k hk.2 hk.1 hk'.1
  · exact fun h i j i' j' k ht hk hk' => h i j i' j' k ⟨hk, ht⟩ ⟨hk', ht⟩

/-- A loaded selection toggles as it should exactly if the document lists no key in two places:
of a key that is there twice, a toggle takes one away. -/
theorem togglesRight_iff (text : String) (s : Selection) (h : Selection.fromToml text = .ok s) :
    (∀ keys, (Selection.default.toggleAll keys).TogglesRight) ∧
      ((∀ keys, (s.toggleAll keys).TogglesRight) ↔ ListsOnce text) := by
  refine ⟨fun keys => (Selection.default_clean.toggleAll keys).togglesRight, ?_⟩
  rw [← listsOnce_iff, Selection.listedKeys_nodup_iff h]
  constructor
  · exact fun hall => (hall []).nodup
  · intro hnodup keys
    exact (Selection.Clean.toggleAll ⟨fun k hk => Selection.required_of_fromToml h hk, hnodup⟩
      keys).togglesRight

theorem togglesRight_iff_pci :
    ∃ s, Selection.fromToml "[components]\nenabled = [\"pci\"]" = .ok s ∧
      (s.toggleAll ["pci", "ai"]).TogglesRight :=
  ⟨_, rfl, (togglesRight_iff "[components]\nenabled = [\"pci\"]" _ rfl).2.mpr
    (listsOnce_iff.mp (by decide +kernel)) ["pci", "ai"]⟩

/-- Toggling `pci` off leaves it enabled. -/
theorem pci_twice :
    ∃ s, Selection.fromToml "[components]\nenabled = [\"pci\", \"pci\"]" = .ok s ∧
      s.isEnabled "pci" = true ∧ (s.toggle "pci").isEnabled "pci" = true ∧ ¬ s.TogglesRight := by
  refine ⟨⟨["pci", "pci", "core", "sched", "syscall", "ipc", "serial"]⟩, by decide +kernel,
    by decide, by decide, fun h => ?_⟩
  exact absurd h.nodup (by decide)

end LionOS.Launcher
