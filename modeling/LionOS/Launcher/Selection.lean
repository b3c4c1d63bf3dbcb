import Mathlib.Data.List.Sort
import Mathlib.Tactic.Ring

/-!
# The component picker

A `Selection` is the list of enabled component keys in the order they were ticked. The
picker starts from the roster and toggles keys; a required key cannot be un-ticked.
-/

namespace LionOS.Launcher

/-- A component the user can enable or disable at install time. -/
structure Component where
  key : String
  label : String
  required : Bool
  recommended : Bool
  deriving DecidableEq, Repr

/-- The full component roster. -/
def components : List Component :=
  [⟨"core", "kernel core", true, true⟩,
   ⟨"sched", "scheduler", true, true⟩,
   ⟨"syscall", "syscall / ring-3", true, true⟩,
   ⟨"ipc", "IPC", true, true⟩,
   ⟨"serial", "serial debug", true, true⟩,
   ⟨"seditor", "text editor", false, true⟩,
   ⟨"explorer", "file explorer", false, true⟩,
   ⟨"ai", "AI stub", false, true⟩,
   ⟨"theme", "theming", false, true⟩,
   ⟨"dock", "dock app bar", false, true⟩,
   ⟨"virtio_blk", "virtio-blk driver", false, true⟩,
   ⟨"ide", "ATA/IDE driver", false, true⟩,
   ⟨"pci", "PCI enumeration", false, true⟩,
   ⟨"gfx", "graphics / compositor", false, true⟩]

/-- The keys of the roster. -/
def rosterKeys : List String := components.map (·.key)

/-- A chosen set of enabled component keys. -/
structure Selection where
  enabled : List String
  deriving DecidableEq, Repr

namespace Selection

/-- Is `key` in the required roster? -/
def isRequired (key : String) : Bool := components.any fun c => c.key == key && c.required

/-- Is `key` currently enabled? -/
def isEnabled (s : Selection) (key : String) : Bool := s.enabled.contains key

/-- Toggle `key`; a required component is a no-op. -/
def toggle (s : Selection) (key : String) : Selection :=
  if isRequired key then s
  else
    match s.enabled.idxOf? key with
    | some pos => ⟨s.enabled.eraseIdx pos⟩
    | none => ⟨s.enabled ++ [key]⟩

/-- The enabled keys joined by commas. -/
def csv (s : Selection) : String := ",".intercalate s.enabled

/-- Where the roster has the key; past every place where it does not. -/
def rosterPosition (key : String) : Nat :=
  (components.findIdx? (·.key == key)).getD (2 ^ 64 - 1)

/-- All recommended components, plus every required one, in roster order. -/
def default : Selection where
  enabled :=
    ((components.filter fun c => c.required || c.recommended).map (·.key)).insertionSort
      fun a b => rosterPosition a ≤ rosterPosition b

/-- What the picker keeps: roster keys, each at most once, and all the required ones. -/
structure Valid (s : Selection) : Prop where
  nodup : s.enabled.Nodup
  roster : ∀ k ∈ s.enabled, k ∈ rosterKeys
  required : ∀ k, isRequired k → k ∈ s.enabled

/-- A required key is one of the roster. -/
theorem mem_rosterKeys_of_isRequired {k : String} (h : isRequired k) : k ∈ rosterKeys := by
  obtain ⟨c, hc, hkey⟩ := List.any_eq_true.mp h
  simp only [Bool.and_eq_true, beq_iff_eq] at hkey
  exact List.mem_map.mpr ⟨c, hc, hkey.1⟩

private theorem default_eq : default.enabled = rosterKeys := by decide

theorem default_valid : default.Valid where
  nodup := by
    rw [default_eq]
    decide
  roster := by
    rw [default_eq]
    exact fun _ h => h
  required := by
    rw [default_eq]
    exact fun _ => mem_rosterKeys_of_isRequired

/-- A toggle takes the key out or puts it at the end. -/
theorem toggle_cases (s : Selection) (key : String) :
    (isRequired key ∧ s.toggle key = s) ∨
      (¬ isRequired key ∧ key ∈ s.enabled ∧ s.toggle key = ⟨s.enabled.erase key⟩) ∨
      (¬ isRequired key ∧ key ∉ s.enabled ∧ s.toggle key = ⟨s.enabled ++ [key]⟩) := by
  unfold toggle
  by_cases hreq : isRequired key
  · exact .inl ⟨hreq, if_pos hreq⟩
  · rw [if_neg hreq]
    by_cases hmem : key ∈ s.enabled
    · refine .inr (.inl ⟨hreq, hmem, ?_⟩)
      rw [List.erase_eq_eraseIdx]
      cases hpos : s.enabled.idxOf? key with
      | none => exact absurd hmem (List.idxOf?_eq_none_iff.mp hpos)
      | some pos => rfl
    · refine .inr (.inr ⟨hreq, hmem, ?_⟩)
      rw [List.idxOf?_eq_none_iff.mpr hmem]

theorem Valid.toggle {s : Selection} {key : String} (h : s.Valid) (hkey : key ∈ rosterKeys) :
    (s.toggle key).Valid := by
  obtain ⟨-, heq⟩ | ⟨hreq, -, heq⟩ | ⟨-, hnew, heq⟩ := toggle_cases s key
  · rwa [heq]
  · rw [heq]
    refine ⟨h.nodup.erase key, fun k hk => h.roster k (List.mem_of_mem_erase hk), ?_⟩
    intro k hk
    have hne : k ≠ key := by
      rintro rfl
      exact hreq hk
    exact (List.mem_erase_of_ne hne).mpr (h.required k hk)
  · rw [heq]
    refine ⟨?_, ?_, fun k hk => List.mem_append_left _ (h.required k hk)⟩
    · exact List.nodup_append.mpr ⟨h.nodup, List.nodup_singleton key, by
        rintro a ha b hb rfl
        exact hnew (List.mem_singleton.mp hb ▸ ha)⟩
    · intro k hk
      rcases List.mem_append.mp hk with hk | hk
      · exact h.roster k hk
      · exact List.mem_singleton.mp hk ▸ hkey

/-- The selection after a sequence of toggles. -/
def toggleAll (s : Selection) (keys : List String) : Selection := keys.foldl toggle s

/-- Every history of toggles on roster keys keeps a valid selection valid. -/
theorem Valid.toggleAll {s : Selection} {keys : List String} (h : s.Valid)
    (hkeys : ∀ k ∈ keys, k ∈ rosterKeys) : (s.toggleAll keys).Valid := by
  induction keys generalizing s with
  | nil => exact h
  | cons key keys ih =>
    exact ih (h.toggle (hkeys key (by simp))) fun k hk => hkeys k (by simp [hk])

end Selection

end LionOS.Launcher
