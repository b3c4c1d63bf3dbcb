import LionOS.Fs.Paths
import LionOS.Fs.Walk

/-!
# What a path is listed as

The three path functions resolve the same components, and letter case drops out of the
match. `ls_path` differs from the other two in two places: it knows the root by the
path's text and not by its components, and it lists whatever the path leads to, a
file's bytes as well as a directory's records.
-/

namespace LionOS.Fs

open Lib

/-- A name in lower case. -/
def lower (name : List UInt8) : List UInt8 := name.map asciiLower

theorem eqAsciiCaseInsensitive_eq (a b : List UInt8) :
    eqAsciiCaseInsensitive a b = (lower a == lower b) := by
  unfold eqAsciiCaseInsensitive lower
  induction a generalizing b with
  | nil =>
    cases b with
    | nil => rfl
    | cons y b => rfl
  | cons x a ih =>
    cases b with
    | nil => rfl
    | cons y b =>
      have htail := ih b
      simp only [List.length_cons, List.zip_cons_cons, List.all_cons, List.map_cons,
        List.cons_beq_cons, ← htail]
      rw [Bool.and_left_comm]
      congr 2
      rw [Bool.eq_iff_iff]
      simp

/-- A match does not depend on the case of the component. -/
private theorem entryMatches_congr {comp comp' : List UInt8} (h : lower comp = lower comp')
    (e : DirEntry) : entryMatches e comp = entryMatches e comp' := by
  simp only [entryMatches, eqAsciiCaseInsensitive_eq, h]

/-- Where components lead does not depend on their case. -/
theorem resolveFrom_congr {dev : BlockDevice} {info : FatInfo} {comps comps' : List (List UInt8)}
    (h : comps.map lower = comps'.map lower) (cluster : Nat) :
    resolveFrom dev info cluster comps = resolveFrom dev info cluster comps' := by
  induction comps generalizing comps' cluster with
  | nil =>
    rw [List.map_nil, eq_comm, List.map_eq_nil_iff] at h
    rw [h]
  | cons comp rest ih =>
    obtain ⟨comp', rest', rfl, hcomp, hrest⟩ := List.map_eq_cons_iff.mp h.symm
    have hempty : rest'.isEmpty = rest.isEmpty := by
      rw [Bool.eq_iff_iff, List.isEmpty_iff, List.isEmpty_iff, ← List.map_eq_nil_iff (f := lower),
        hrest, List.map_eq_nil_iff]
    simp only [resolveFrom, entryMatches_congr hcomp, hempty, ih hrest.symm]

/-- The record adds nothing to a listing and does not end it. -/
def Record.isBlank (r : Record) : Bool := r.name0 != 0 && !r.isLive

/-- Of these sectors one cannot be read, and those in front of it have blank records only. -/
def FailsBlank (dev : BlockDevice) : List Nat → Prop
  | [] => False
  | lba :: lbas =>
    lba < 2 ^ 32 ∧
      match dev lba with
      | none => True
      | some b => (∀ r ∈ records b, r.isBlank = true) ∧ FailsBlank dev lbas

/-- The record loop adds nothing and does not return when all records are blank, and only
then. -/
theorem listRecords_finished_iff {rs : List Record} {lfn : List LfnChunk} {out : List DirEntry} :
    (∃ lfn', listRecords rs lfn out = .finished (lfn', out)) ↔ ∀ r ∈ rs, r.isBlank = true := by
  induction rs generalizing lfn with
  | nil => simp [listRecords]
  | cons r rs ih =>
    rw [listRecords, List.forall_mem_cons]
    split
    · next hend => simp [Record.isBlank, hend]
    next hend =>
    split
    · next hdel =>
      rw [ih]
      simp [Record.isBlank, Record.isLive, hend, hdel]
    next hdel =>
    split
    · next hlong =>
      rw [ih]
      simp [Record.isBlank, Record.isLive, hend, hlong]
    next hlong =>
    constructor
    · -- A live record's entry stays in the list.
      rintro ⟨lfn', hfin⟩
      have hentries := listRecords_entries rs [] (out ++ [r.entry lfn])
      rw [hfin] at hentries
      have hlen := congrArg List.length hentries
      simp only [Outcome.entries, List.length_append, List.length_singleton] at hlen
      omega
    · rintro ⟨hblank, -⟩
      simp [Record.isBlank, Record.isLive, hdel, hlong] at hblank

section

variable {dev : BlockDevice} {info : FatInfo}

/-- A listing returns false and adds nothing exactly when a sector that cannot be read comes
before any record that is live or ends the directory. -/
private theorem listOver_false_iff {lbas : List Nat} {lfn : List LfnChunk} {out : List DirEntry} :
    listOver dev lbas lfn out = some (false, out) ↔ FailsBlank dev lbas := by
  induction lbas generalizing lfn with
  | nil => simp [listOver, FailsBlank]
  | cons lba lbas ih =>
    rw [listOver, FailsBlank, checked32]
    by_cases hlt : lba < 2 ^ 32
    · simp only [hlt, if_true, Option.bind_eq_bind, Option.bind_some, true_and]
      cases dev lba with
      | none => simp
      | some b =>
        have hblank := @listRecords_finished_iff (records b) lfn out
        have hentries := listRecords_entries (records b) lfn out
        simp only
        rw [← hblank]
        cases hrecords : listRecords (records b) lfn out with
        | returned out' => simp
        | finished st =>
          obtain ⟨lfn', out'⟩ := st
          simp only [Outcome.finished.injEq, Prod.mk.injEq, exists_eq_left']
          by_cases hout : out' = out
          · subst hout
            rw [ih]
            simp
          · -- What is listed already is not taken back.
            simp only [hout, false_and, iff_false]
            intro hfalse
            have hmore := listOver_entries hfalse
            rw [hrecords] at hentries
            have hlen := congrArg List.length hmore
            have hlen' := congrArg List.length hentries
            simp only [Outcome.entries, List.length_append] at hlen hlen'
            rw [Outcome.entries, List.eq_nil_of_length_eq_zero (l := List.map _ _) (by omega),
              List.append_nil] at hentries
            exact hout hentries
    · simp only [hlt, if_false, Option.bind_eq_bind, Option.bind_none, false_and, reduceCtorEq]

theorem listDir_false_iff {c : Nat} {out : List DirEntry} :
    listDir dev info c out = some (false, out) ↔
      FailsBlank dev (walkSectors dev info 1000 c) := by
  rw [listDir_eq_listOver, listOver_false_iff]

end

/-- A root path has no components. -/
theorem components_of_isRootPath {path : List UInt8} (h : isRootPath path = true) :
    components path = [] := by
  simp only [isRootPath, Bool.or_eq_true, List.isEmpty_iff, beq_iff_eq] at h
  rcases h with rfl | rfl
  · decide
  · decide

section

variable {fs : Fs} {dev : BlockDevice}

/-- Nothing is resolved without a component. -/
theorem resolve_of_components_nil {path : List UInt8} (h : components path = []) :
    resolve dev fs.info path = some none := by
  rw [resolve, h]
  rfl

/-- A path that leads to an entry is listed from the entry's cluster. -/
theorem lsPath_of_resolve {path : List UInt8} {e : DirEntry}
    (h : resolve dev fs.info path = some (some e)) (out : List DirEntry) :
    fs.lsPath dev path out = listDir dev fs.info e.cluster out := by
  have hroot : isRootPath path = false := by
    by_contra hroot
    rw [resolve_of_components_nil
      (components_of_isRootPath (Bool.eq_true_of_not_eq_false hroot))] at h
    simp at h
  rw [lsPath, hroot, h]
  rfl

/-- **Files are listed.** On every volume, for every path that leads to an entry: `ls_path`
refuses a file, without adding anything, exactly when the entry is a directory or, along
the walk from the file's first cluster, a sector that cannot be read comes before any 32
bytes that look like a live record or like the end of a directory. -/
theorem lsPath_refuses_file_iff {path : List UInt8} {e : DirEntry}
    (h : resolve dev fs.info path = some (some e)) (out : List DirEntry) :
    (e.isDir = false → fs.lsPath dev path out = some (false, out)) ↔
      e.isDir = true ∨ FailsBlank dev (walkSectors dev fs.info 1000 e.cluster) := by
  rw [lsPath_of_resolve h, listDir_false_iff]
  cases e.isDir with
  | true => simp
  | false => simp

end

/-- Where `hello.txt` leads on a disk with this root directory. -/
theorem resolve_hello {dev : BlockDevice}
    (hroot : listDir dev helloInfo 2 [] = listDir helloDisk helloInfo 2 []) :
    ∃ e, resolve dev helloInfo (ascii "hello.txt") = some (some e) ∧ e.isDir = false ∧
      e.cluster = 3 := by
  have hcomps : components (ascii "hello.txt") = [ascii "hello.txt"] := by decide
  have hsame : resolve dev helloInfo (ascii "hello.txt") =
      resolve helloDisk helloInfo (ascii "hello.txt") := by
    rw [resolve, resolve, hcomps, resolveFrom, resolveFrom]
    exact congrArg (Option.bind · _) hroot
  have hfacts : (resolve helloDisk helloInfo (ascii "hello.txt")).map (fun r =>
      r.map fun e => (e.isDir, e.cluster)) = some (some (false, 3)) := by
    decide
  obtain ⟨r, hr, hentry⟩ := Option.map_eq_some_iff.mp hfacts
  obtain ⟨e, rfl, hpair⟩ := Option.map_eq_some_iff.mp hentry
  obtain ⟨hdir, hcluster⟩ := Prod.mk.inj hpair
  exact ⟨e, hsame.trans hr, hdir, hcluster⟩

/-- The bytes of `hello.txt` are listed as a directory's. -/
theorem file_bytes_listed :
    ∃ e e', resolve helloDisk helloInfo (ascii "hello.txt") = some (some e) ∧ e.isDir = false ∧
      lsPath ⟨helloInfo⟩ helloDisk (ascii "hello.txt") [] = some (true, [e']) ∧
      e'.name.toList = helloText.take 11 := by
  obtain ⟨e, hresolve, hdir, hcluster⟩ := @resolve_hello helloDisk rfl
  have hlist : (listDir helloDisk helloInfo 3 []).map (fun r =>
      (r.1, r.2.map fun e => e.name.toList)) = some (true, [helloText.take 11]) := by
    decide
  obtain ⟨⟨ok, es⟩, hes, hlist⟩ := Option.map_eq_some_iff.mp hlist
  obtain ⟨rfl, hnames⟩ := Prod.mk.inj hlist
  obtain ⟨e', rfl, hname⟩ := List.map_eq_singleton_iff.mp hnames
  refine ⟨e, e', hresolve, hdir, ?_, hname⟩
  rw [@lsPath_of_resolve ⟨helloInfo⟩ _ _ _ hresolve, hcluster]
  exact hes

/-- The disk with two files, with a bad sector in `hello.txt`. -/
def badSectorDisk : BlockDevice := fun lba => if lba = 5 then none else helloDisk lba

/-- A file whose first sector cannot be read is refused. -/
theorem lsPath_refuses_bad_sector :
    ∃ e, resolve badSectorDisk helloInfo (ascii "hello.txt") = some (some e) ∧ e.isDir = false ∧
      lsPath ⟨helloInfo⟩ badSectorDisk (ascii "hello.txt") [] = some (false, []) := by
  have hroot : listDir badSectorDisk helloInfo 2 [] = listDir helloDisk helloInfo 2 [] := by
    decide
  obtain ⟨e, hresolve, hdir, hcluster⟩ := resolve_hello hroot
  have hfails : FailsBlank badSectorDisk (walkSectors badSectorDisk helloInfo 1000 3) := by
    have hwalk : walkSectors badSectorDisk helloInfo 1000 3 = [5] := by decide
    rw [hwalk]
    exact ⟨by decide, trivial⟩
  rw [← hcluster] at hfails
  exact ⟨e, hresolve, hdir,
    (@lsPath_refuses_file_iff ⟨helloInfo⟩ _ _ _ hresolve []).mpr (Or.inr hfails) hdir⟩

section

variable {fs : Fs} {dev : BlockDevice}

/-- A path without components is the root's own, or leads nowhere. -/
theorem lsPath_of_components_nil {path : List UInt8} (h : components path = [])
    (out : List DirEntry) :
    fs.lsPath dev path out = if isRootPath path then fs.ls dev out else some (false, out) := by
  rw [lsPath, resolve_of_components_nil h, ls]
  rfl

/-- It is listed as the root if it is the root's own, or the root cannot be listed. -/
private theorem lsPath_eq_ls_iff {path : List UInt8} (h : components path = []) :
    (∀ out, fs.lsPath dev path out = fs.ls dev out) ↔
      isRootPath path = true ∨
        FailsBlank dev (walkSectors dev fs.info 1000 fs.info.rootCluster.toNat) := by
  simp only [lsPath_of_components_nil h]
  cases isRootPath path with
  | true => simp
  | false =>
    simp only [Bool.false_eq_true, if_false, false_or]
    constructor
    · intro hls
      exact listDir_false_iff.mp (hls []).symm
    · intro hfails out
      exact (listDir_false_iff.mpr hfails).symm

/-- **Paths with the same components.** On every volume, for every two paths whose components
agree up to letter case: the three path functions agree on them, and `ls_path` lists the
root for a path without components, exactly when the paths have components, or both are
empty or a single slash, or the root's listing fails before it has come to a record that is
live or ends the directory. -/
theorem pathFunctions_agree_iff {path path' : List UInt8}
    (h : (components path).map lower = (components path').map lower) :
    (fs.findByPath dev path = fs.findByPath dev path' ∧
      (∀ out, fs.readPath dev path out = fs.readPath dev path' out) ∧
      (∀ out, fs.lsPath dev path out = fs.lsPath dev path' out) ∧
      (components path = [] → ∀ out, fs.lsPath dev path out = fs.ls dev out)) ↔
    (components path = [] → (isRootPath path = true ∧ isRootPath path' = true) ∨
      FailsBlank dev (walkSectors dev fs.info 1000 fs.info.rootCluster.toNat)) := by
  have hresolve : resolve dev fs.info path = resolve dev fs.info path' := resolveFrom_congr h _
  have hread : ∀ out, fs.readPath dev path out = fs.readPath dev path' out := by
    intro out
    rw [readPath, hresolve, readPath]
  have hnil : components path = [] ↔ components path' = [] := by
    rw [← List.map_eq_nil_iff (f := lower), h, List.map_eq_nil_iff]
  by_cases hcomps : components path = []
  · have hroot := @lsPath_eq_ls_iff fs dev path hcomps
    have hroot' := @lsPath_eq_ls_iff fs dev path' (hnil.mp hcomps)
    simp only [hcomps, true_implies, and_or_right, ← hroot, ← hroot']
    constructor
    · rintro ⟨-, -, hls, hlists⟩
      exact ⟨hlists, fun out => (hls out).symm.trans (hlists out)⟩
    · rintro ⟨hlists, hlists'⟩
      exact ⟨hresolve, hread, fun out => (hlists out).trans (hlists' out).symm, hlists⟩
  · have hls : ∀ out, fs.lsPath dev path out = fs.lsPath dev path' out := by
      intro out
      have hroot : isRootPath path = false :=
        Bool.eq_false_of_not_eq_true fun hr => hcomps (components_of_isRootPath hr)
      have hroot' : isRootPath path' = false :=
        Bool.eq_false_of_not_eq_true fun hr => hcomps (hnil.mpr (components_of_isRootPath hr))
      rw [lsPath, lsPath, hroot, hroot', hresolve]
    simp only [hcomps, false_implies, iff_true, and_true]
    exact ⟨hresolve, hread, hls⟩

end

/-- Letter case and slashes do not matter for `hello.txt`. -/
theorem pathFunctions_agree_hello :
    (components (ascii "hello.txt")).map lower = (components (ascii "//HELLO.txt/")).map lower ∧
      findByPath ⟨helloInfo⟩ helloDisk (ascii "hello.txt") =
        findByPath ⟨helloInfo⟩ helloDisk (ascii "//HELLO.txt/") ∧
      (∀ out, readPath ⟨helloInfo⟩ helloDisk (ascii "hello.txt") out =
        readPath ⟨helloInfo⟩ helloDisk (ascii "//HELLO.txt/") out) ∧
      ∀ out, lsPath ⟨helloInfo⟩ helloDisk (ascii "hello.txt") out =
        lsPath ⟨helloInfo⟩ helloDisk (ascii "//HELLO.txt/") out := by
  have hcomps : (components (ascii "hello.txt")).map lower =
      (components (ascii "//HELLO.txt/")).map lower := by
    decide
  have hne : components (ascii "hello.txt") ≠ [] := by decide
  obtain ⟨hfind, hread, hls, -⟩ :=
    (@pathFunctions_agree_iff ⟨helloInfo⟩ helloDisk _ _ hcomps).mpr
      fun hnil => absurd hnil hne
  exact ⟨hcomps, hfind, hread, hls⟩

/-- Two slashes are not the root. -/
theorem two_slashes_not_listed :
    components (ascii "//") = [] ∧ components (ascii "/") = [] ∧
      lsPath ⟨helloInfo⟩ helloDisk (ascii "//") [] = some (false, []) ∧
      ∃ e e', lsPath ⟨helloInfo⟩ helloDisk (ascii "/") [] = some (true, [e, e']) := by
  refine ⟨by decide, by decide, by decide, ?_⟩
  obtain ⟨p, q, hscan, -⟩ := helloDisk_scan
  refine ⟨p.2, q.2, ?_⟩
  rw [lsPath_of_components_nil (by decide), if_pos (by decide), ls]
  have hlist := @listDir_eq _ _ helloDisk_allRead _ _ [] (helloDisk_chain (Or.inl rfl))
  rw [List.take_of_length_le (by decide), hscan] at hlist
  exact hlist

end LionOS.Fs
