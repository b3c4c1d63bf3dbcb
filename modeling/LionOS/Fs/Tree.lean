import LionOS.Fs.Boot
import LionOS.Fs.DotDot
import LionOS.Lib.Naming
import Mathlib.Tactic.IntervalCases

/-!
# The tree on a volume

What a volume is for: files with their bytes, and directories whose entries go by a long
and a short name. On a volume that stores such a tree, paths lead in the volume where they
lead in the tree, reading returns the bytes of the file there, and listing the entries.
-/

namespace LionOS.Fs

open Lib

/-- An entry of a directory: the names it goes by and the node it leads to. -/
structure Link (ι : Type*) where
  names : List (List UInt8)
  node : ι

/-- What a node holds. -/
inductive Content (ι : Type*) where
  | file (bytes : List UInt8)
  | dir (links : List (Link ι))

/-- The files and directories of a volume. Dot entries lead back, so that it need not be a
tree in the strict sense. -/
abbrev Tree (ι : Type*) := ι → Content ι

namespace Tree

variable {ι : Type*}

/-- Names are equal up to the case of ASCII letters. -/
def naming (t : Tree ι) : Naming ι (Link ι) (List UInt8) where
  entries n :=
    match t n with
    | .file _ => none
    | .dir links => some links
  named l name := l.names.any fun x => eqAsciiCaseInsensitive x name
  node := Link.node

theorem entries_eq_some {t : Tree ι} {n : ι} {links : List (Link ι)} :
    t.naming.entries n = some links ↔ t n = .dir links := by
  simp only [naming]
  cases t n with
  | file bytes => simp
  | dir links' => simp

/-- The bytes of the file at a path. -/
def read (t : Tree ι) (root : ι) (path : List (List UInt8)) : Option (List UInt8) :=
  (t.naming.walk root path).bind fun n =>
    match t n with
    | .file bytes => some bytes
    | .dir _ => none

/-- The entries of the directory at a path. -/
def list (t : Tree ι) (root : ι) (path : List (List UInt8)) : Option (List (Link ι)) :=
  (t.naming.walk root path).bind t.naming.entries

end Tree

/-! ## The directories of a volume -/

/-- What a directory entry leads to. -/
inductive Item where
  | dir (cluster : Nat)
  | file (cluster size : Nat)
  deriving DecidableEq, Repr

/-- The item of an entry. -/
def DirEntry.item (e : DirEntry) : Item :=
  if e.isDir then .dir e.cluster else .file e.cluster e.size

/-- The names of an entry, the long one first. -/
def DirEntry.names (e : DirEntry) : List (List UInt8) := e.longName.toList ++ [e.shortName]

/-- The directories as they lie on the volume. -/
def naming (dev : BlockDevice) (info : FatInfo) : Naming Item DirEntry (List UInt8) where
  entries
    | .dir c => some (dirEntries dev info c)
    | .file _ _ => none
  named := entryMatches
  node := DirEntry.item

section

variable {dev : BlockDevice} {info : FatInfo}

/-- Where every directory on the way can be listed, the loop over the components follows the
path. -/
theorem resolveFrom_walk {κ γ : Type*} {M : Naming κ γ (List UInt8)} {R : Item → κ → Prop}
    (hlist : ∀ c n, R (.dir c) n → listDir dev info c [] = some (true, dirEntries dev info c))
    (hrep : Naming.Represents (naming dev info) M R) {c : Nat} {n : κ} (hn : R (.dir c) n)
    {comps : List (List UInt8)} (hne : comps ≠ []) :
    ∃ r, resolveFrom dev info c comps = some r ∧
      r.map DirEntry.item = (naming dev info).walk (.dir c) comps := by
  induction comps generalizing c n with
  | nil => exact absurd rfl hne
  | cons comp rest ih =>
    have hfound := hrep.find hn comp
    rw [resolveFrom_of_listDir (hlist c n hn), Naming.walk]
    rw [show (naming dev info).find (.dir c) comp =
      (dirEntries dev info c).find? fun e => entryMatches e comp from rfl] at hfound ⊢
    cases he : (dirEntries dev info c).find? fun e => entryMatches e comp with
    | none => exact ⟨none, rfl, rfl⟩
    | some e =>
      cases rest with
      | nil => exact ⟨some e, rfl, rfl⟩
      | cons comp' rest =>
        simp only [List.isEmpty_cons, Bool.false_eq_true, if_false, Option.bind_some]
        cases hdir : e.isDir with
        | false =>
          refine ⟨none, rfl, ?_⟩
          have hitem : (naming dev info).node e = .file e.cluster e.size := by
            simp [naming, DirEntry.item, hdir]
          rw [hitem]
          rfl
        | true =>
          have hitem : (naming dev info).node e = .dir e.cluster := by
            simp [naming, DirEntry.item, hdir]
          rw [he] at hfound
          generalize M.find n comp = l at hfound
          cases hfound with
          | some hl =>
            have hnode := hl.node
            rw [hitem] at hnode ⊢
            exact ih hnode (by simp)

end

/-! ## Trees on volumes -/

section

variable {ι : Type*}

/-- The entry is the record of the link. -/
structure RecordOf (loc : ι → Item) (e : DirEntry) (l : Link ι) : Prop where
  names : e.names = l.names
  item : e.item = loc l.node

theorem forall₂_recordOf {loc : ι → Item} {es : List DirEntry} {links : List (Link ι)}
    (h : es.map (fun e => (e.names, e.item)) = links.map fun l => (l.names, loc l.node)) :
    List.Forall₂ (RecordOf loc) es links := by
  induction es generalizing links with
  | nil =>
    rw [List.map_eq_nil_iff.mp h.symm]
    exact .nil
  | cons e es ih =>
    obtain ⟨l, links, rfl, hl, htail⟩ := List.map_eq_cons_iff.mp h.symm
    obtain ⟨hnames, hitem⟩ := Prod.mk.inj hl
    exact .cons ⟨hnames.symm, hitem.symm⟩ (ih htail.symm)

/-- The records of a listing have the names of the entries. -/
theorem map_names_eq {loc : ι → Item} {es : List DirEntry} {links : List (Link ι)}
    (h : List.Forall₂ (RecordOf loc) es links) : es.map DirEntry.names = links.map Link.names := by
  induction h with
  | nil => rfl
  | cons hel _ ih => rw [List.map_cons, List.map_cons, hel.names, ih]

/-- The volume stores the content at the item: a file of at most a thousand clusters, a
directory of at most a thousand clusters, or a directory without clusters, which is how the
way back to the root is recorded. -/
inductive Stores (dev : BlockDevice) (info : FatInfo) (loc : ι → Item) : Item → Content ι → Prop
  | file {c : Nat} {clusters : List Nat} {bytes : List UInt8}
      (hfile : IsFile dev info c bytes.length clusters) (hlen : clusters.length ≤ 1000)
      (hbytes : IsStart dev info (fun k => clusters[k]?) bytes) :
      Stores dev info loc (.file c bytes.length) (.file bytes)
  | dir {c : Nat} {cs : List Nat} {links : List (Link ι)} (hchain : Chain dev info (c :: cs))
      (hlen : cs.length < 1000)
      (hlinks : List.Forall₂ (RecordOf loc)
        ((scan [] (dirRecords dev info (c :: cs))).map Prod.snd) links) :
      Stores dev info loc (.dir c) (.dir links)
  | hole : Stores dev info loc (.dir 0) (.dir [])

/-- Every node of the tree is stored at its item. -/
def Holds (dev : BlockDevice) (info : FatInfo) (t : Tree ι) (loc : ι → Item) : Prop :=
  ∀ n, Stores dev info loc (loc n) (t n)

variable {dev : BlockDevice} {info : FatInfo} {t : Tree ι} {loc : ι → Item}

theorem Stores.exists_links {c : Nat} {content : Content ι}
    (h : Stores dev info loc (.dir c) content) : ∃ links, content = .dir links := by
  cases h with
  | dir => exact ⟨_, rfl⟩
  | hole => exact ⟨_, rfl⟩

theorem Stores.exists_bytes {c size : Nat} {content : Content ι}
    (h : Stores dev info loc (.file c size) content) : ∃ bytes, content = .file bytes := by
  cases h with
  | file => exact ⟨_, rfl⟩

/-- A stored directory is listed whole. -/
theorem Stores.listDir_eq (hread : AllRead dev info) {c : Nat} {links : List (Link ι)}
    (h : Stores dev info loc (.dir c) (.dir links)) (out : List DirEntry) :
    listDir dev info c out = some (true, out ++ dirEntries dev info c) ∧
      List.Forall₂ (RecordOf loc) (dirEntries dev info c) links := by
  cases h with
  | @dir _ cs _ hchain hlen hlinks =>
    have hall : (c :: cs).take 1000 = c :: cs := by
      refine List.take_of_length_le ?_
      rw [List.length_cons]
      omega
    rw [Fs.listDir_eq hread hchain, dirEntries, hchain.walkClusters_eq, hall]
    exact ⟨rfl, hlinks⟩
  | hole =>
    rw [dirEntries_zero, List.append_nil]
    exact ⟨rfl, .nil⟩

/-- A stored file that is not empty is read whole. -/
theorem Stores.readFile_eq (hread : AllRead dev info) (hspc : 0 < info.spc) {c size : Nat}
    {bytes : List UInt8} (h : Stores dev info loc (.file c size) (.file bytes))
    (out : List UInt8) :
    size = bytes.length ∧
      readFile dev info c size out =
        if bytes = [] then some (false, out) else some (true, out ++ bytes) := by
  cases h with
  | @file _ clusters _ hfile hlen hbytes =>
    refine ⟨rfl, ?_⟩
    split
    next hnil =>
      -- An empty file has no clusters.
      subst hnil
      have hzero : clusters = [] := by
        refine List.eq_nil_of_length_eq_zero (hfile.count.trans (Nat.div_eq_of_lt ?_))
        simp only [List.length_nil]
        omega
      rw [hfile.empty hzero]
      rfl
    next hne =>
      obtain ⟨bytes', hr, hlen', hstart⟩ := (readFile_appendsFile_iff hread hspc hfile).mpr
        ⟨List.length_pos_iff.mpr hne, hlen⟩
      have hsame : bytes' = bytes := by
        refine List.ext_getElem? fun k => ?_
        by_cases hk : k < bytes.length
        · rw [← hstart k (by omega), hbytes k hk]
        · rw [List.getElem?_eq_none (by omega), List.getElem?_eq_none (by omega)]
      rw [hr, hsame]

/-- The volume represents the tree. -/
theorem Holds.represents (hread : AllRead dev info) (h : Holds dev info t loc) :
    Naming.Represents (naming dev info) t.naming fun item n => item = loc n := by
  rintro item n rfl
  have hn := h n
  cases hitem : loc n with
  | file c size =>
    rw [hitem] at hn
    obtain ⟨bytes, hbytes⟩ := hn.exists_bytes
    rw [show t.naming.entries n = none by simp [Tree.naming, hbytes]]
    exact .none
  | dir c =>
    rw [hitem] at hn
    obtain ⟨links, hlinks⟩ := hn.exists_links
    rw [Tree.entries_eq_some.mpr hlinks]
    rw [hlinks] at hn
    refine .some ((hn.listDir_eq hread []).2.imp fun e l hel => ⟨fun name => ?_, hel.item⟩)
    change entryMatches e name = l.names.any _
    rw [← hel.names]
    rfl

theorem Holds.listDir_root (hread : AllRead dev info) (h : Holds dev info t loc) {c : Nat} {n : ι}
    (hn : Item.dir c = loc n) : listDir dev info c [] = some (true, dirEntries dev info c) := by
  have hstored := h n
  rw [← hn] at hstored
  obtain ⟨links, hlinks⟩ := hstored.exists_links
  rw [hlinks] at hstored
  exact (hstored.listDir_eq hread []).1

/-- A path with components is resolved to the record of the node it leads to. -/
theorem Holds.resolve_eq (hread : AllRead dev info) (h : Holds dev info t loc) {root : ι}
    (hroot : loc root = .dir info.rootCluster.toNat) {path : List UInt8}
    (hne : components path ≠ []) :
    ∃ r, resolve dev info path = some r ∧
      r.map DirEntry.item = (t.naming.walk root (components path)).map loc := by
  have hrep := h.represents hread
  obtain ⟨r, hr, hwalk⟩ := resolveFrom_walk (fun c n => h.listDir_root hread) hrep hroot.symm hne
  refine ⟨r, hr, hwalk.trans ?_⟩
  have hsame := hrep.walk hroot.symm (components path)
  generalize (naming dev info).walk (.dir info.rootCluster.toNat) (components path) = item
    at hsame ⊢
  generalize t.naming.walk root (components path) = n at hsame ⊢
  cases hsame with
  | none => rfl
  | some hitem => exact congrArg some hitem

/-- What is read of an entry that is the record of a node. -/
theorem Holds.read_item (hread : AllRead dev info) (hspc : 0 < info.spc)
    (h : Holds dev info t loc) {e : DirEntry} {n : ι} (hitem : e.item = loc n)
    (out : List UInt8) :
    (if e.isDir then some (false, out) else readFile dev info e.cluster e.size out) =
      match t n with
      | .file (b :: bytes) => some (true, out ++ b :: bytes)
      | _ => some (false, out) := by
  have hn := h n
  rw [← hitem, DirEntry.item] at hn
  cases hdir : e.isDir with
  | true =>
    rw [hdir, if_pos rfl] at hn
    obtain ⟨links, hlinks⟩ := hn.exists_links
    rw [hlinks]
    rfl
  | false =>
    rw [hdir, if_neg Bool.false_ne_true] at hn
    obtain ⟨bytes, hbytes⟩ := hn.exists_bytes
    rw [hbytes] at hn ⊢
    rw [if_neg Bool.false_ne_true, (hn.readFile_eq hread hspc out).2]
    cases bytes with
    | nil => rfl
    | cons b bytes => rfl

/-- The records listed of a directory. -/
theorem Holds.list_item (hread : AllRead dev info) (h : Holds dev info t loc) {c : Nat} {n : ι}
    (hn : Item.dir c = loc n) {links : List (Link ι)} (hlinks : t n = .dir links) :
    ∃ es, List.Forall₂ (RecordOf loc) es links ∧
      ∀ out, listDir dev info c out = some (true, out ++ es) := by
  have hstored := h n
  rw [← hn, hlinks] at hstored
  exact ⟨_, (hstored.listDir_eq hread []).2, fun out => (hstored.listDir_eq hread out).1⟩

variable {fs : Fs} {root : ι} {path : List UInt8}

/-- Reading by path is reading in the tree. -/
theorem Holds.readPath_eq (hread : AllRead dev fs.info) (hspc : 0 < fs.info.spc)
    (h : Holds dev fs.info t loc) (hroot : loc root = .dir fs.info.rootCluster.toNat)
    (out : List UInt8) :
    fs.readPath dev path out = some
      (match t.read root (components path) with
        | some (b :: bytes) => (true, out ++ b :: bytes)
        | _ => (false, out)) := by
  rw [Tree.read]
  by_cases hcomps : components path = []
  · obtain ⟨links, hlinks⟩ := (hroot ▸ h root).exists_links
    rw [readPath, resolve_of_components_nil hcomps, hcomps, Naming.walk, Option.bind_some]
    simp only [hlinks]
    rfl
  · obtain ⟨r, hr, hitem⟩ := h.resolve_eq hread hroot hcomps
    rw [readPath, hr]
    cases r with
    | none =>
      have hno : t.naming.walk root (components path) = none := by simpa using hitem.symm
      rw [hno]
      rfl
    | some e =>
      obtain ⟨n, hn, hloc⟩ := Option.map_eq_some_iff.mp hitem.symm
      simp only [Option.bind_eq_bind, Option.bind_some, hn, h.read_item hread hspc hloc.symm]
      cases t n with
      | dir links => rfl
      | file bytes =>
        cases bytes with
        | nil => rfl
        | cons b bytes => rfl

/-- Listing a path is listing in the tree. -/
theorem Holds.lsPath_eq (hread : AllRead dev fs.info) (h : Holds dev fs.info t loc)
    (hroot : loc root = .dir fs.info.rootCluster.toNat) {links : List (Link ι)}
    (hlist : t.list root (components path) = some links)
    (hpath : components path ≠ [] ∨ isRootPath path = true) :
    ∃ es, List.Forall₂ (RecordOf loc) es links ∧
      ∀ out, fs.lsPath dev path out = some (true, out ++ es) := by
  obtain ⟨n, hn, hentries⟩ := Option.bind_eq_some_iff.mp hlist
  have hlinks := Tree.entries_eq_some.mp hentries
  by_cases hcomps : components path = []
  · rw [hcomps, Naming.walk, Option.some.injEq] at hn
    subst hn
    obtain ⟨es, hall, hes⟩ := h.list_item hread hroot.symm hlinks
    refine ⟨es, hall, fun out => ?_⟩
    rw [lsPath, hpath.resolve_left (not_not.mpr hcomps), if_pos rfl]
    exact hes out
  · obtain ⟨r, hr, hitem⟩ := h.resolve_eq hread hroot hcomps
    rw [hn, Option.map_some, Option.map_eq_some_iff] at hitem
    obtain ⟨e, rfl, hloc⟩ := hitem
    -- What the tree lists is recorded as a directory.
    have hstored := h n
    rw [← hloc, DirEntry.item, hlinks] at hstored
    cases hdir : e.isDir with
    | false =>
      rw [hdir, if_neg Bool.false_ne_true] at hstored
      obtain ⟨bytes, hbytes⟩ := hstored.exists_bytes
      cases hbytes
    | true =>
      rw [DirEntry.item, hdir, if_pos rfl] at hloc
      obtain ⟨es, hall, hes⟩ := h.list_item hread hloc hlinks
      refine ⟨es, hall, fun out => ?_⟩
      rw [lsPath_of_resolve hr]
      exact hes out

/-- Slashes alone, two or more, are not listed. -/
theorem lsPath_of_slashes (hcomps : components path = []) (hpath : isRootPath path = false)
    (out : List DirEntry) : fs.lsPath dev path out = some (false, out) := by
  rw [lsPath, hpath, resolve_of_components_nil hcomps]
  rfl

/-- A path that leads nowhere is not listed. -/
theorem Holds.lsPath_nowhere (hread : AllRead dev fs.info) (h : Holds dev fs.info t loc)
    (hroot : loc root = .dir fs.info.rootCluster.toNat)
    (hno : t.naming.walk root (components path) = none) (out : List DirEntry) :
    fs.lsPath dev path out = some (false, out) := by
  have hcomps : components path ≠ [] := by
    intro hcomps
    rw [hcomps, Naming.walk] at hno
    cases hno
  obtain ⟨r, hr, hitem⟩ := h.resolve_eq hread hroot hcomps
  rw [hno, Option.map_none, Option.map_eq_none_iff] at hitem
  have hpath : isRootPath path = false := by
    rw [← Bool.not_eq_true]
    exact fun hroots => hcomps (components_of_isRootPath hroots)
  rw [lsPath, hpath, hr, hitem]
  rfl

/-- A volume that can be mounted has clusters with sectors. -/
private theorem mount_spc_pos {fs : Fs} (h : mount dev = some (.ok fs)) : 0 < fs.info.spc := by
  unfold mount at h
  split at h
  · cases h
  next b hb =>
    obtain ⟨r, hr, hmap⟩ := Option.map_eq_some_iff.mp h
    cases r with
    | error e => cases hmap
    | ok info =>
      obtain rfl := Except.ok.inj hmap
      exact parseBoot_spc_pos hr

/-- **A mounted volume is the tree it stores.** On every volume that can be mounted, whose
sectors can be read and which stores a tree with its root at the root cluster, for every
path: `read_path` returns true and appends the bytes of the file the path leads to in the
tree, and returns false with nothing appended when it leads to an empty file, to a directory
or nowhere; `ls_path` appends the records of the entries of the directory it leads to, and
returns false when it leads nowhere. Slashes alone are the root for `ls_path` only when
there is at most one, and two or more are refused. -/
theorem volume_is_tree (hmount : mount dev = some (.ok fs))
    (hread : AllRead dev fs.info) (h : Holds dev fs.info t loc)
    (hroot : loc root = .dir fs.info.rootCluster.toNat) (path : List UInt8) :
    (∀ out, fs.readPath dev path out = some
      (match t.read root (components path) with
        | some (b :: bytes) => (true, out ++ b :: bytes)
        | _ => (false, out))) ∧
    (∀ links, t.list root (components path) = some links →
      components path ≠ [] ∨ isRootPath path = true →
        ∃ es, List.Forall₂ (RecordOf loc) es links ∧
          ∀ out, fs.lsPath dev path out = some (true, out ++ es)) ∧
    (components path = [] ∧ isRootPath path = false ∨
        t.naming.walk root (components path) = none →
      ∀ out, fs.lsPath dev path out = some (false, out)) := by
  refine ⟨h.readPath_eq hread (mount_spc_pos hmount) hroot,
    fun _ hlist hpath => h.lsPath_eq hread hroot hlist hpath, ?_⟩
  rintro (⟨hcomps, hpath⟩ | hno) out
  · exact lsPath_of_slashes hcomps hpath out
  · exact h.lsPath_nowhere hread hroot hno out

end

/-- A bootable disk: the root directory in cluster 2 with `HELLO.TXT` in cluster 3 and the
directory `SUB` in cluster 4, which has its two dot records and `LION.TXT` in cluster 5. -/
def treeDisk : BlockDevice := fun lba =>
  if lba = 0 then
    some fun i =>
      match i with
      | 12 => 0x02
      | 13 => 1
      | 14 => 2
      | 16 => 2
      | 19 => 16
      | 22 => 1
      | 44 => 2
      | 510 => 0x55
      | 511 => 0xAA
      | _ => 0
  else if lba = 2 ∨ lba = 3 then
    some (sectorOf [0xF8, 0xFF, 0xFF, 0x0F, 0xFF, 0xFF, 0xFF, 0x0F, 0xFF, 0xFF, 0xFF, 0x0F,
      0xFF, 0xFF, 0xFF, 0x0F, 0xFF, 0xFF, 0xFF, 0x0F, 0xFF, 0xFF, 0xFF, 0x0F])
  else if lba = 6 then
    some (sectorOf [0x2E, 0x20, 0x20, 0x20, 0x20, 0x20, 0x20, 0x20, 0x20, 0x20, 0x20, 0x10,
      0, 0, 0, 0, 0, 0, 0, 0, 0, 0, 0, 0, 0, 0, 4, 0, 0, 0, 0, 0,
      0x2E, 0x2E, 0x20, 0x20, 0x20, 0x20, 0x20, 0x20, 0x20, 0x20, 0x20, 0x10,
      0, 0, 0, 0, 0, 0, 0, 0, 0, 0, 0, 0, 0, 0, 0, 0, 0, 0, 0, 0,
      0x4C, 0x49, 0x4F, 0x4E, 0x20, 0x20, 0x20, 0x20, 0x54, 0x58, 0x54, 0x20,
      0, 0, 0, 0, 0, 0, 0, 0, 0, 0, 0, 0, 0, 0, 5, 0, 2, 0, 0, 0])
  else if lba = 7 then some (sectorOf [0x4F, 0x4B])
  else subDisk lba

/-- Its nodes. What `..` leads to in `SUB` has a node of its own. -/
inductive TreeNode where
  | root
  | hello
  | sub
  | parent
  | lion
  deriving DecidableEq, Repr

def sampleTree : Tree TreeNode
  | .root => .dir [⟨[ascii "HELLO.TXT"], .hello⟩, ⟨[ascii "SUB"], .sub⟩]
  | .hello => .file helloText
  | .sub => .dir [⟨[ascii "."], .sub⟩, ⟨[ascii ".."], .parent⟩, ⟨[ascii "LION.TXT"], .lion⟩]
  | .parent => .dir []
  | .lion => .file [0x4F, 0x4B]

def sampleLoc : TreeNode → Item
  | .root => .dir 2
  | .hello => .file 3 16
  | .sub => .dir 4
  | .parent => .dir 0
  | .lion => .file 5 2

theorem treeDisk_chain {c : Nat} (hlo : 2 ≤ c) (hhi : c ≤ 5) : Chain treeDisk helloInfo [c] := by
  have hmark : readFatEntry treeDisk helloInfo c = some 0x0FFFFFFF := by
    interval_cases c <;> decide
  have hdata : helloInfo.IsData c := by
    interval_cases c <;> decide
  exact .last hdata hmark (by decide)

theorem treeDisk_holds : Holds treeDisk helloInfo sampleTree sampleLoc := by
  intro n
  cases n with
  | root =>
    exact .dir (treeDisk_chain (c := 2) (by decide) (by decide)) (by decide)
      (forall₂_recordOf (by decide))
  | hello =>
    have hchain := treeDisk_chain (c := 3) (by decide) (by decide)
    have hfile : IsFile treeDisk helloInfo 3 16 [3] := ⟨by decide, fun _ => ⟨rfl, hchain⟩, by simp⟩
    exact @Stores.file _ _ _ _ _ _ helloText hfile (by decide) (by unfold IsStart; decide)
  | sub =>
    exact .dir (treeDisk_chain (c := 4) (by decide) (by decide)) (by decide)
      (forall₂_recordOf (by decide))
  | parent => exact .hole
  | lion =>
    have hchain := treeDisk_chain (c := 5) (by decide) (by decide)
    have hfile : IsFile treeDisk helloInfo 5 2 [5] := ⟨by decide, fun _ => ⟨rfl, hchain⟩, by simp⟩
    exact @Stores.file _ _ _ _ _ _ [0x4F, 0x4B] hfile (by decide) (by unfold IsStart; decide)

private theorem treeDisk_allRead : AllRead treeDisk helloInfo := by
  intro lba _
  unfold treeDisk subDisk
  split_ifs <;> exact ⟨_, rfl⟩

/-- The file in the subdirectory is read, the subdirectory listed, and what is not there
is neither. Nor are two slashes. -/
theorem volume_is_tree_lion :
    readPath ⟨helloInfo⟩ treeDisk (ascii "/sub/lion.txt") [] = some (true, [0x4F, 0x4B]) ∧
      (∃ es, es.map DirEntry.names = [[ascii "."], [ascii ".."], [ascii "LION.TXT"]] ∧
        lsPath ⟨helloInfo⟩ treeDisk (ascii "sub/") [] = some (true, es)) ∧
      lsPath ⟨helloInfo⟩ treeDisk (ascii "sub/../sub") [] = some (false, []) ∧
      lsPath ⟨helloInfo⟩ treeDisk (ascii "//") [] = some (false, []) := by
  have hmount : mount treeDisk = some (.ok ⟨helloInfo⟩) := rfl
  have htree := @volume_is_tree _ _ _ _ _ .root hmount treeDisk_allRead treeDisk_holds rfl
  refine ⟨?_, ?_, ?_, ?_⟩
  · rw [(htree _).1]
    decide
  · obtain ⟨es, hall, hes⟩ := (htree (ascii "sub/")).2.1
      [⟨[ascii "."], .sub⟩, ⟨[ascii ".."], .parent⟩, ⟨[ascii "LION.TXT"], .lion⟩] (by rfl)
      (Or.inl (by decide))
    exact ⟨es, map_names_eq hall, hes []⟩
  · exact (htree (ascii "sub/../sub")).2.2 (Or.inr (by decide)) []
  · exact (htree (ascii "//")).2.2 (Or.inl (by decide)) []

end LionOS.Fs
