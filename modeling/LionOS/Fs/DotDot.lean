import LionOS.Fs.ShortNames

/-!
# The way back to the root

The `..` record of a directory in the root stores cluster 0 for the root. A walk from
cluster 0 is an empty one, so a path that goes through such a record and on leads
nowhere, wherever it would lead from the root.
-/

namespace LionOS.Fs

open Lib

/-- The entries of the first thousand clusters of the directory at `c`. -/
def dirEntries (dev : BlockDevice) (info : FatInfo) (c : Nat) : List DirEntry :=
  (scan [] (dirRecords dev info (walkClusters dev info 1000 c))).map Prod.snd

/-- The first entry of that name in the directory at `c`. -/
def IsNamed (dev : BlockDevice) (info : FatInfo) (c : Nat) (comp : List UInt8) (e : DirEntry) :
    Prop :=
  (dirEntries dev info c).find? (fun x => entryMatches x comp) = some e

/-- The components name an entry, each in the directory of the one before. -/
inductive LeadsTo (dev : BlockDevice) (info : FatInfo) : Nat → List (List UInt8) → DirEntry → Prop
  | last {c : Nat} {comp : List UInt8} {e : DirEntry} (h : IsNamed dev info c comp e) :
      LeadsTo dev info c [comp] e
  | down {c : Nat} {comp : List UInt8} {rest : List (List UInt8)} {d e : DirEntry}
      (h : IsNamed dev info c comp d) (hdir : d.isDir = true)
      (hrest : LeadsTo dev info d.cluster rest e) : LeadsTo dev info c (comp :: rest) e

/-- The clusters where directories start. A record with cluster 0 has none of its own. -/
inductive IsDirectory (dev : BlockDevice) (info : FatInfo) : Nat → Prop
  | root : IsDirectory dev info info.rootCluster.toNat
  | sub {c : Nat} {e : DirEntry} (h : IsDirectory dev info c) (hmem : e ∈ dirEntries dev info c)
      (hdir : e.isDir = true) (hne : e.cluster ≠ 0) : IsDirectory dev info e.cluster

/-- The name of the record that leads to the parent. -/
def dotdot : List UInt8 := [0x2E, 0x2E]

/-- Every sector can be read, every directory is a chain, and the directories in the root
have a `..` record that stores cluster 0. -/
structure WellFormed (dev : BlockDevice) (info : FatInfo) : Prop where
  read : AllRead dev info
  chain : ∀ c, IsDirectory dev info c → ∃ cs, Chain dev info (c :: cs)
  parent : ∀ d ∈ dirEntries dev info info.rootCluster.toNat, d.isDir = true →
    ∃ p, IsNamed dev info d.cluster dotdot p ∧ p.isDir = true ∧ p.cluster = 0

section

variable {dev : BlockDevice} {info : FatInfo}

/-- Cluster 0 has no entries. -/
theorem dirEntries_zero : dirEntries dev info 0 = [] := rfl

/-- A directory of a well-formed volume is listed whole, up to its thousandth cluster. -/
theorem WellFormed.listDir_eq (hwf : WellFormed dev info) {c : Nat}
    (hc : c = 0 ∨ IsDirectory dev info c) :
    listDir dev info c [] = some (true, dirEntries dev info c) := by
  rcases hc with rfl | hc
  · rfl
  · obtain ⟨cs, hchain⟩ := hwf.chain c hc
    rw [Fs.listDir_eq hwf.read hchain, dirEntries, hchain.walkClusters_eq]
    rfl

/-- A directory entry leads to a directory, or to cluster 0. -/
theorem IsNamed.isDirectory {c : Nat} {comp : List UInt8} {e : DirEntry}
    (h : IsNamed dev info c comp e) (hc : c = 0 ∨ IsDirectory dev info c)
    (hdir : e.isDir = true) : e.cluster = 0 ∨ IsDirectory dev info e.cluster := by
  have hmem := List.mem_of_find?_eq_some h
  rcases hc with rfl | hc
  · rw [dirEntries_zero] at hmem
    simp at hmem
  · by_cases hzero : e.cluster = 0
    · exact Or.inl hzero
    · exact Or.inr (.sub hc hmem hdir hzero)

/-- The turn of the loop in a directory of the volume. -/
theorem WellFormed.resolveFrom_cons (hwf : WellFormed dev info) {c : Nat}
    (hc : c = 0 ∨ IsDirectory dev info c) (comp : List UInt8) (rest : List (List UInt8)) :
    resolveFrom dev info c (comp :: rest) =
      match (dirEntries dev info c).find? fun x => entryMatches x comp with
      | none => some none
      | some e =>
        if rest.isEmpty then some (some e)
        else if !e.isDir then some none
        else resolveFrom dev info e.cluster rest :=
  resolveFrom_of_listDir (hwf.listDir_eq hc) comp rest

theorem LeadsTo.ne_nil {c : Nat} {comps : List (List UInt8)} {e : DirEntry}
    (h : LeadsTo dev info c comps e) : comps ≠ [] := by
  cases h with
  | last => simp
  | down => simp

/-- Components that lead to an entry are followed, and then the rest from there. -/
theorem WellFormed.resolveFrom_leadsTo (hwf : WellFormed dev info) {c : Nat}
    (hc : c = 0 ∨ IsDirectory dev info c) {comps : List (List UInt8)} {e : DirEntry}
    (h : LeadsTo dev info c comps e) (rest : List (List UInt8)) :
    resolveFrom dev info c (comps ++ rest) =
      if rest.isEmpty then some (some e)
      else if !e.isDir then some none
      else resolveFrom dev info e.cluster rest := by
  induction h with
  | last h =>
    rw [List.singleton_append, hwf.resolveFrom_cons hc]
    rw [IsNamed] at h
    simp only [h]
  | @down c comp comps d e h hdir hrest ih =>
    have hne : (comps ++ rest).isEmpty = false := by simp [hrest.ne_nil]
    have htail := ih (h.isDirectory hc hdir)
    rw [IsNamed] at h
    rw [List.cons_append, hwf.resolveFrom_cons hc]
    simp only [h, hne, hdir, Bool.not_true, Bool.false_eq_true, if_false, htail]

/-- What a path resolves to is what it leads to. -/
theorem WellFormed.leadsTo_of_resolveFrom (hwf : WellFormed dev info) {c : Nat}
    (hc : c = 0 ∨ IsDirectory dev info c) (comps : List (List UInt8)) :
    ∃ r, resolveFrom dev info c comps = some r ∧
      ∀ e, r = some e → LeadsTo dev info c comps e := by
  induction comps generalizing c with
  | nil => exact ⟨none, rfl, by simp⟩
  | cons comp rest ih =>
    rw [hwf.resolveFrom_cons hc]
    cases hfind : (dirEntries dev info c).find? fun x => entryMatches x comp with
    | none => exact ⟨none, rfl, by simp⟩
    | some d =>
      cases rest with
      | nil =>
        refine ⟨some d, rfl, fun e he => ?_⟩
        obtain rfl := Option.some.inj he
        exact .last hfind
      | cons comp' rest =>
        cases hdir : d.isDir with
        | false =>
          refine ⟨none, ?_, by simp⟩
          simp [hdir]
        | true =>
          obtain ⟨r, hr, hleads⟩ := ih (IsNamed.isDirectory hfind hc hdir)
          refine ⟨r, ?_, fun e he => .down hfind hdir (hleads e he)⟩
          simp only [hdir, List.isEmpty_cons, Bool.not_true, Bool.false_eq_true, if_false, hr]

/-- A path resolves to nothing when it leads nowhere, and only then. -/
theorem WellFormed.resolveFrom_eq_none_iff (hwf : WellFormed dev info) {c : Nat}
    (hc : c = 0 ∨ IsDirectory dev info c) (comps : List (List UInt8)) :
    resolveFrom dev info c comps = some none ↔ ¬ ∃ e, LeadsTo dev info c comps e := by
  constructor
  · rintro hnone ⟨e, he⟩
    have hsome := hwf.resolveFrom_leadsTo hc he []
    rw [List.append_nil, hnone] at hsome
    simp at hsome
  · intro hno
    obtain ⟨r, hr, hleads⟩ := hwf.leadsTo_of_resolveFrom hc comps
    cases r with
    | none => exact hr
    | some e => exact absurd ⟨e, hleads e rfl⟩ hno

end

/-- A slash separates components. -/
theorem components_append (path path' : List UInt8) :
    components (path ++ 0x2F :: path') = components path ++ components path' := by
  rw [components, List.splitOn_append_cons_self, List.filter_append]
  rfl

/-- The path into a directory, back by its `..` record and on. -/
def throughParent (name q : List UInt8) : List UInt8 := name ++ 0x2F :: (dotdot ++ 0x2F :: q)

theorem components_throughParent {name : List UInt8} (hslash : 0x2F ∉ name) (hne : name ≠ [])
    (q : List UInt8) : components (throughParent name q) = [name, dotdot] ++ components q := by
  rw [throughParent, components_append, components_append, components_singleton hslash hne]
  rfl

section

variable {fs : Fs} {dev : BlockDevice}

/-- The path leads to the `..` record or nowhere. -/
theorem WellFormed.resolve_throughParent (hwf : WellFormed dev fs.info) {name : List UInt8}
    {d : DirEntry} (hslash : 0x2F ∉ name) (hne : name ≠ [])
    (hd : IsNamed dev fs.info fs.info.rootCluster.toNat name d) (hdir : d.isDir = true)
    (q : List UInt8) :
    ∃ p, resolve dev fs.info (throughParent name q) =
      some (if (components q).isEmpty then some p else none) := by
  obtain ⟨p, hp, hpdir, hzero⟩ := hwf.parent d (List.mem_of_find?_eq_some hd) hdir
  have hleads : LeadsTo dev fs.info fs.info.rootCluster.toNat [name, dotdot] p :=
    .down hd hdir (.last hp)
  refine ⟨p, ?_⟩
  rw [resolve, components_throughParent hslash hne,
    hwf.resolveFrom_leadsTo (Or.inr .root) hleads, hzero, resolveFrom_zero]
  simp only [hpdir, Bool.not_true, Bool.false_eq_true, if_false]
  split
  · rfl
  · rfl

/-- **Back to the root.** On every well-formed volume, for every directory in the root and
every path: going into the directory, back by its `..` record and on along the path finds
and reads the same as the path alone exactly when the path has components and leads
nowhere. -/
theorem throughParent_same_iff (hwf : WellFormed dev fs.info) {name : List UInt8} {d : DirEntry}
    (hslash : 0x2F ∉ name) (hne : name ≠ [])
    (hd : IsNamed dev fs.info fs.info.rootCluster.toNat name d) (hdir : d.isDir = true)
    (q : List UInt8) :
    (fs.findByPath dev (throughParent name q) = fs.findByPath dev q ∧
      ∀ out, fs.readPath dev (throughParent name q) out = fs.readPath dev q out) ↔
      components q ≠ [] ∧
        ¬ ∃ e, LeadsTo dev fs.info fs.info.rootCluster.toNat (components q) e := by
  obtain ⟨p, hp⟩ := hwf.resolve_throughParent hslash hne hd hdir q
  rw [← hwf.resolveFrom_eq_none_iff (Or.inr .root)]
  constructor
  · rintro ⟨hfind, -⟩
    rw [findByPath, findByPath, hp] at hfind
    by_cases hq : components q = []
    · rw [resolve_of_components_nil hq, hq] at hfind
      simp at hfind
    · rw [List.isEmpty_eq_false_iff.mpr hq] at hfind
      exact ⟨hq, hfind.symm⟩
  · rintro ⟨hq, hnone⟩
    have hresolve : resolve dev fs.info q = some none := hnone
    rw [List.isEmpty_eq_false_iff.mpr hq] at hp
    refine ⟨by rw [findByPath, findByPath, hp, hresolve]; rfl, fun out => ?_⟩
    rw [readPath, readPath, hp, hresolve]
    rfl

end

/-- The root directory in cluster 2 with `HELLO.TXT` in cluster 3 and the directory `SUB` in
cluster 4, which has its two dot records. -/
def subDisk : BlockDevice := fun lba =>
  if lba = 2 ∨ lba = 3 then
    some (sectorOf [0xF8, 0xFF, 0xFF, 0x0F, 0xFF, 0xFF, 0xFF, 0x0F, 0xFF, 0xFF, 0xFF, 0x0F,
      0xFF, 0xFF, 0xFF, 0x0F, 0xFF, 0xFF, 0xFF, 0x0F])
  else if lba = 4 then
    some (sectorOf [0x48, 0x45, 0x4C, 0x4C, 0x4F, 0x20, 0x20, 0x20, 0x54, 0x58, 0x54, 0x20,
      0, 0, 0, 0, 0, 0, 0, 0, 0, 0, 0, 0, 0, 0, 3, 0, 16, 0, 0, 0,
      0x53, 0x55, 0x42, 0x20, 0x20, 0x20, 0x20, 0x20, 0x20, 0x20, 0x20, 0x10,
      0, 0, 0, 0, 0, 0, 0, 0, 0, 0, 0, 0, 0, 0, 4, 0, 0, 0, 0, 0])
  else if lba = 5 then some (sectorOf helloText)
  else if lba = 6 then
    some (sectorOf [0x2E, 0x20, 0x20, 0x20, 0x20, 0x20, 0x20, 0x20, 0x20, 0x20, 0x20, 0x10,
      0, 0, 0, 0, 0, 0, 0, 0, 0, 0, 0, 0, 0, 0, 4, 0, 0, 0, 0, 0,
      0x2E, 0x2E, 0x20, 0x20, 0x20, 0x20, 0x20, 0x20, 0x20, 0x20, 0x20, 0x10,
      0, 0, 0, 0, 0, 0, 0, 0, 0, 0, 0, 0, 0, 0, 0, 0, 0, 0, 0, 0])
  else some (sectorOf [])

/-- The entry of an empty directory record. -/
def dirEntry (name : Vector UInt8 11) (cluster : Nat) : DirEntry :=
  { emptyFile name with cluster := cluster, isDir := true }

/-- The entry of `SUB`. -/
def subEntry : DirEntry :=
  dirEntry #v[0x53, 0x55, 0x42, 0x20, 0x20, 0x20, 0x20, 0x20, 0x20, 0x20, 0x20] 4

/-- The entry of the `..` record. -/
def parentEntry : DirEntry :=
  dirEntry #v[0x2E, 0x2E, 0x20, 0x20, 0x20, 0x20, 0x20, 0x20, 0x20, 0x20, 0x20] 0

theorem subDisk_root :
    ∃ e, dirEntries subDisk helloInfo 2 = [e, subEntry] ∧ e.isDir = false ∧
      entryMatches e (ascii "sub") = false ∧ entryMatches e (ascii "hello.txt") = true :=
  ⟨{ emptyFile #v[0x48, 0x45, 0x4C, 0x4C, 0x4F, 0x20, 0x20, 0x20, 0x54, 0x58, 0x54] with
    cluster := 3, size := 16 }, by decide⟩

theorem subDisk_sub :
    ∃ e, dirEntries subDisk helloInfo 4 = [e, parentEntry] ∧ e.cluster = 4 ∧
      entryMatches e dotdot = false :=
  ⟨dirEntry #v[0x2E, 0x20, 0x20, 0x20, 0x20, 0x20, 0x20, 0x20, 0x20, 0x20, 0x20] 4,
    by decide⟩

theorem subDisk_isDirectory {c : Nat} (h : IsDirectory subDisk helloInfo c) : c = 2 ∨ c = 4 := by
  obtain ⟨hello, hroot, hfile, -⟩ := subDisk_root
  obtain ⟨dot, hsub, hdot, -⟩ := subDisk_sub
  induction h with
  | root => exact Or.inl rfl
  | @sub c e h hmem hdir hne ih =>
    refine Or.inr ?_
    rcases ih with rfl | rfl
    · rw [hroot, List.mem_pair] at hmem
      rcases hmem with rfl | rfl
      · simp [hfile] at hdir
      · rfl
    · rw [hsub, List.mem_pair] at hmem
      rcases hmem with rfl | rfl
      · exact hdot
      · exact absurd rfl hne

theorem subDisk_isNamed :
    IsNamed subDisk helloInfo 2 (ascii "sub") subEntry ∧
      IsNamed subDisk helloInfo 4 dotdot parentEntry := by
  obtain ⟨hello, hroot, -, hname, -⟩ := subDisk_root
  obtain ⟨dot, hsub, -, hdot⟩ := subDisk_sub
  have hself : entryMatches subEntry (ascii "sub") = true := by decide
  have hparent : entryMatches parentEntry dotdot = true := by decide
  constructor
  · simp [IsNamed, hroot, hname, hself]
  · simp [IsNamed, hsub, hdot, hparent]

theorem subDisk_wellFormed : WellFormed subDisk helloInfo := by
  refine ⟨?_, fun c hc => ⟨[], ?_⟩, ?_⟩
  · intro lba _
    unfold subDisk
    split_ifs <;> exact ⟨_, rfl⟩
  · have hmark : readFatEntry subDisk helloInfo c = some 0x0FFFFFFF := by
      rcases subDisk_isDirectory hc with rfl | rfl
      · decide
      · decide
    have hdata : helloInfo.IsData c := by
      rcases subDisk_isDirectory hc with rfl | rfl
      · decide
      · decide
    exact .last hdata hmark (by decide)
  · obtain ⟨hello, hroot, hfile, -⟩ := subDisk_root
    intro d hd hdir
    rw [show helloInfo.rootCluster.toNat = 2 from rfl, hroot, List.mem_pair] at hd
    rcases hd with rfl | rfl
    · simp [hfile] at hdir
    · exact ⟨parentEntry, subDisk_isNamed.2, rfl, rfl⟩

/-- A name that is not in the root is not found either way. -/
theorem throughParent_same_missing :
    findByPath ⟨helloInfo⟩ subDisk (throughParent (ascii "sub") (ascii "none")) =
      findByPath ⟨helloInfo⟩ subDisk (ascii "none") ∧
    ∀ out, readPath ⟨helloInfo⟩ subDisk (throughParent (ascii "sub") (ascii "none")) out =
      readPath ⟨helloInfo⟩ subDisk (ascii "none") out := by
  have hnone : resolveFrom subDisk helloInfo 2 (components (ascii "none")) = some none := by
    decide
  exact (@throughParent_same_iff ⟨helloInfo⟩ _ subDisk_wellFormed _ _ (by decide) (by decide)
    subDisk_isNamed.1 rfl (ascii "none")).mpr
      ⟨by decide, (subDisk_wellFormed.resolveFrom_eq_none_iff (Or.inr .root) _).mp hnone⟩

/-- `hello.txt` is not found by way of `SUB`. -/
theorem hello_not_found_through_sub :
    WellFormed subDisk helloInfo ∧
      IsNamed subDisk helloInfo helloInfo.rootCluster.toNat (ascii "sub") subEntry ∧
      subEntry.isDir = true ∧
      findByPath ⟨helloInfo⟩ subDisk (ascii "sub/../hello.txt") = some none ∧
      ∃ e, findByPath ⟨helloInfo⟩ subDisk (ascii "hello.txt") = some (some e) := by
  refine ⟨subDisk_wellFormed, subDisk_isNamed.1, rfl, by decide, ?_⟩
  have hsome : ((findByPath ⟨helloInfo⟩ subDisk (ascii "hello.txt")).bind id).isSome := by
    decide
  obtain ⟨e, he⟩ := Option.isSome_iff_exists.mp hsome
  obtain ⟨r, hr, rfl⟩ := Option.bind_eq_some_iff.mp he
  exact ⟨e, hr⟩

end LionOS.Fs
