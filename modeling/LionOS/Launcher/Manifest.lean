import LionOS.Launcher.Selection

/-!
# The component manifest

The build script merges the exported selection with its own list of required components
and writes the result into the kernel as `ENABLED` and `CSV`.
-/

namespace LionOS.Launcher

/-- The components that are present whatever the picker said. -/
def requiredComponents : List String := ["core", "sched", "syscall", "ipc", "serial"]

/-- The pieces of a text between the commas. -/
def splitCommas (text : String) : List String := (text.toList.splitOn ',').map String.ofList

/-- Append a key that is not there yet. -/
def pushNew (keys : List String) (k : String) : List String :=
  if keys.contains k then keys else keys ++ [k]

/-- The constants of the generated `component_manifest.rs`. -/
structure Manifest where
  required : List String
  enabled : List String
  csv : String
  deriving DecidableEq, Repr

/-- The manifest built with the given value of `LIONOS_COMPONENTS`. -/
def generateManifest (env : Option String) : Manifest :=
  let raw := env.getD ""
  let user := (splitCommas raw).filter fun s => !s.isEmpty
  let keys := (requiredComponents ++ user).foldl pushNew []
  { required := requiredComponents, enabled := keys, csv := ",".intercalate keys }

theorem mem_foldl_pushNew {ks keys : List String} {k : String} :
    k ∈ ks.foldl pushNew keys ↔ k ∈ keys ∨ k ∈ ks := by
  induction ks generalizing keys with
  | nil => simp
  | cons a ks ih =>
    rw [List.foldl_cons, ih, pushNew]
    by_cases ha : a ∈ keys
    · rw [if_pos (by simpa using ha), List.mem_cons]
      constructor
      · rintro (hk | hk)
        · exact .inl hk
        · exact .inr (.inr hk)
      · rintro (hk | rfl | hk)
        · exact .inl hk
        · exact .inl ha
        · exact .inr hk
    · rw [if_neg (by simpa using ha)]
      simp [or_assoc]

theorem nodup_foldl_pushNew {ks keys : List String} (h : keys.Nodup) :
    (ks.foldl pushNew keys).Nodup := by
  induction ks generalizing keys with
  | nil => exact h
  | cons a ks ih =>
    rw [List.foldl_cons, pushNew]
    by_cases ha : a ∈ keys
    · rw [if_pos (by simpa using ha)]
      exact ih h
    · rw [if_neg (by simpa using ha)]
      refine ih (List.nodup_append.mpr ⟨h, List.nodup_singleton a, ?_⟩)
      rintro b hb c hc rfl
      exact ha (List.mem_singleton.mp hc ▸ hb)

theorem prefix_foldl_pushNew (ks keys : List String) : keys <+: ks.foldl pushNew keys := by
  induction ks generalizing keys with
  | nil => exact List.prefix_rfl
  | cons a ks ih =>
    refine List.IsPrefix.trans ?_ (ih _)
    rw [pushNew]
    split
    · exact List.prefix_rfl
    · exact List.prefix_append keys [a]

/-- No roster key is empty or has a comma in it. -/
theorem rosterKeys_plain : ∀ k ∈ rosterKeys, k.isEmpty = false ∧ ',' ∉ k.toList := by
  decide

/-- What is joined with commas is split again. -/
theorem splitCommas_intercalate {keys : List String} (hne : keys ≠ [])
    (h : ∀ k ∈ keys, ',' ∉ k.toList) : splitCommas (",".intercalate keys) = keys := by
  have hsplit : (",".intercalate keys).toList.splitOn ',' = keys.map String.toList := by
    rw [String.toList_intercalate]
    refine List.splitOn_intercalate ',' ?_ (by simpa using hne)
    intro l hl
    obtain ⟨k, hk, rfl⟩ := List.mem_map.mp hl
    exact h k hk
  rw [splitCommas, hsplit, List.map_map]
  simp

/-- The two lists of required components name the same ones. -/
theorem mem_requiredComponents_iff {k : String} :
    k ∈ requiredComponents ↔ Selection.isRequired k := by
  have hlist : requiredComponents = (components.filter (·.required)).map (·.key) := by decide
  simp only [hlist, Selection.isRequired, List.any_eq_true, List.mem_map, List.mem_filter,
    Bool.and_eq_true, beq_iff_eq]
  exact exists_congr fun c => by rw [and_assoc, and_comm (a := c.required = true)]

variable {s : Selection}

/-- The build script reads the selection's own keys back. -/
private theorem user_csv (h : s.Valid) :
    (splitCommas s.csv).filter (fun k => !k.isEmpty) = s.enabled := by
  have hne : s.enabled ≠ [] := List.ne_nil_of_mem (h.required "core" (by decide))
  rw [Selection.csv, splitCommas_intercalate hne fun k hk => (rosterKeys_plain k (h.roster k hk)).2]
  refine List.filter_eq_self.mpr fun k hk => ?_
  rw [(rosterKeys_plain k (h.roster k hk)).1]
  rfl

/-- The keys of the manifest are those of the selection. -/
theorem mem_generateManifest (h : s.Valid) {k : String} :
    k ∈ (generateManifest (some s.csv)).enabled ↔ k ∈ s.enabled := by
  simp only [generateManifest, Option.getD_some, user_csv h]
  rw [mem_foldl_pushNew]
  simp only [List.not_mem_nil, false_or, List.mem_append, mem_requiredComponents_iff]
  exact ⟨fun hk => hk.elim (h.required k) id, .inr⟩

private theorem required_prefix_generateManifest (env : Option String) :
    requiredComponents <+: (generateManifest env).enabled := by
  have hrequired : requiredComponents.foldl pushNew [] = requiredComponents := by decide
  simp only [generateManifest, List.foldl_append, hrequired]
  exact prefix_foldl_pushNew _ _

/-- **The picker's choice is what the kernel boots with.** After every history of toggles
on roster keys, the manifest built from the exported selection enables the selected keys
and no others, each once, the required ones first, and its `CSV` splits into `ENABLED`. -/
theorem generateManifest_toggleAll (keys : List String) (hkeys : ∀ k ∈ keys, k ∈ rosterKeys) :
    let s := Selection.default.toggleAll keys
    let m := generateManifest (some s.csv)
    (∀ k, k ∈ m.enabled ↔ k ∈ s.enabled) ∧ m.enabled.Nodup ∧
      requiredComponents <+: m.enabled ∧ m.enabled = splitCommas m.csv := by
  intro s m
  have hvalid : s.Valid := Selection.default_valid.toggleAll hkeys
  have hmem : ∀ k, k ∈ m.enabled ↔ k ∈ s.enabled := fun k => mem_generateManifest hvalid
  refine ⟨hmem, nodup_foldl_pushNew List.nodup_nil, required_prefix_generateManifest _, ?_⟩
  have hne : m.enabled ≠ [] :=
    List.ne_nil_of_mem ((hmem "core").mpr (hvalid.required "core" (by decide)))
  refine (splitCommas_intercalate hne fun k hk => ?_).symm
  exact (rosterKeys_plain k (hvalid.roster k ((hmem k).mp hk))).2

/-- The editor un-ticked and ticked again, and an attempt to un-tick the scheduler. -/
theorem generateManifest_toggleAll_seditor :
    let s := Selection.default.toggleAll ["seditor", "sched", "seditor"]
    let m := generateManifest (some s.csv)
    (∀ k, k ∈ m.enabled ↔ k ∈ s.enabled) ∧ m.enabled.Nodup ∧
      requiredComponents <+: m.enabled ∧ m.enabled = splitCommas m.csv :=
  generateManifest_toggleAll ["seditor", "sched", "seditor"] (by decide)

end LionOS.Launcher
