import LionOS.Fs.Directory

/-!
# Files by path

A path is resolved one component at a time, each in the listing of the directory found
so far. A file is read by its path when every component's record is listed, with
nothing of the same name before it, and its own chain is read to the end.
-/

namespace LionOS

/-- A mounted FAT32 volume. -/
structure Fs where
  info : Fs.FatInfo

namespace Fs

/-- The components of a path that are not empty. -/
def components (path : List UInt8) : List (List UInt8) :=
  (path.splitOn 0x2F).filter fun comp => !comp.isEmpty

/-- Look the components up one after another, from the directory at `cluster`. -/
def resolveFrom (dev : BlockDevice) (info : FatInfo) :
    Nat → List (List UInt8) → Option (Option DirEntry)
  | _, [] => some none
  | cluster, comp :: rest => do
    let (_, entries) ← listDir dev info cluster []
    match entries.find? fun e => entryMatches e comp with
    | none => some none
    | some e =>
      if rest.isEmpty then some (some e)
      else if !e.isDir then some none
      else resolveFrom dev info e.cluster rest

/-- One turn of the loop over the components. -/
theorem resolveFrom_of_listDir {dev : BlockDevice} {info : FatInfo} {cluster : Nat} {ok : Bool}
    {entries : List DirEntry} (h : listDir dev info cluster [] = some (ok, entries))
    (comp : List UInt8) (rest : List (List UInt8)) :
    resolveFrom dev info cluster (comp :: rest) =
      match entries.find? fun e => entryMatches e comp with
      | none => some none
      | some e =>
        if rest.isEmpty then some (some e)
        else if !e.isDir then some none
        else resolveFrom dev info e.cluster rest := by
  rw [resolveFrom, h]
  rfl

/-- Resolve a path from the root. -/
def resolve (dev : BlockDevice) (info : FatInfo) (path : List UInt8) :
    Option (Option DirEntry) :=
  resolveFrom dev info info.rootCluster.toNat (components path)

/-- List the root directory. -/
def ls (fs : Fs) (dev : BlockDevice) (out : List DirEntry) : Option (Bool × List DirEntry) :=
  listDir dev fs.info fs.info.rootCluster.toNat out

/-- Look an entry of the root directory up by the bytes of its 8.3 name. -/
def find (fs : Fs) (dev : BlockDevice) (name : Vector UInt8 11) : Option (Option DirEntry) := do
  let (_, all) ← fs.ls dev []
  some (all.find? fun e => e.name == name)

/-- Read a whole file, given its first cluster and size. -/
def read (fs : Fs) (dev : BlockDevice) (firstCluster size : Nat) (out : List UInt8) :
    Option (Bool × List UInt8) :=
  readFile dev fs.info firstCluster size out

/-- The directory entry at a path. -/
def findByPath (fs : Fs) (dev : BlockDevice) (path : List UInt8) : Option (Option DirEntry) :=
  resolve dev fs.info path

/-- The path is the root's own, which is not resolved. -/
def isRootPath (path : List UInt8) : Bool := path.isEmpty || path == [0x2F]

/-- List the directory at a path. -/
def lsPath (fs : Fs) (dev : BlockDevice) (path : List UInt8) (out : List DirEntry) :
    Option (Bool × List DirEntry) := do
  if isRootPath path then listDir dev fs.info fs.info.rootCluster.toNat out
  else
    match ← resolve dev fs.info path with
    | some e => listDir dev fs.info e.cluster out
    | none => some (false, out)

/-- Read the file at a path. -/
def readPath (fs : Fs) (dev : BlockDevice) (path : List UInt8) (out : List UInt8) :
    Option (Bool × List UInt8) := do
  match ← resolve dev fs.info path with
  | none => some (false, out)
  | some e =>
    if e.isDir then some (false, out)
    else readFile dev fs.info e.cluster e.size out

/-- One directory of a path: its clusters, the component looked up in it, and where the
scan of all its records lists the component's. -/
structure Level where
  clusters : List Nat
  comp : List UInt8
  before : List (Record × DirEntry)
  record : Record
  entry : DirEntry
  after : List (Record × DirEntry)

/-- The directory starts at `start`, and the record is the first file or subdirectory of
that name in it. A volume label has no cluster. -/
structure Level.Valid (dev : BlockDevice) (info : FatInfo) (start : Nat) (lv : Level) :
    Prop where
  head : lv.clusters.head? = some start
  chain : Chain dev info lv.clusters
  listed : scan [] (dirRecords dev info lv.clusters) =
    lv.before ++ (lv.record, lv.entry) :: lv.after
  live : lv.record.isLabel = false
  named : entryMatches lv.entry lv.comp = true
  first : ∀ p ∈ lv.before, p.1.isLabel = false → entryMatches p.2 lv.comp = false
  labels : ∀ p ∈ lv.before, p.1.isLabel = true → p.2.cluster = 0

/-- The record is in the first thousand clusters, and no volume label in front of it has
the component's name. -/
def Level.Visible (dev : BlockDevice) (info : FatInfo) (lv : Level) : Prop :=
  lv.before.length < (scan [] (dirRecords dev info (lv.clusters.take 1000))).length ∧
    ∀ p ∈ lv.before, p.1.isLabel = true → entryMatches p.2 lv.comp = false

/-- The directories of a path, from the one at `start` to the one that holds the entry. -/
inductive PathTo (dev : BlockDevice) (info : FatInfo) : Nat → List Level → DirEntry → Prop
  | last {start : Nat} {lv : Level} (h : lv.Valid dev info start) :
      PathTo dev info start [lv] lv.entry
  | down {start : Nat} {lv : Level} {lvs : List Level} {e : DirEntry}
      (h : lv.Valid dev info start) (hdir : lv.entry.isDir = true)
      (hrest : PathTo dev info lv.entry.cluster lvs e) : PathTo dev info start (lv :: lvs) e

/-- A scan of more records lists more. -/
private theorem scan_prefix (lfn : List LfnChunk) (rs rs' : List Record) :
    scan lfn rs <+: scan lfn (rs ++ rs') := by
  induction rs generalizing lfn with
  | nil => exact List.nil_prefix
  | cons r rs ih =>
    simp only [List.cons_append, scan]
    split
    · exact List.prefix_refl _
    split
    · exact ih _
    split
    · exact ih _
    · exact List.cons_prefix_cons.mpr ⟨rfl, ih _⟩

section

variable {dev : BlockDevice} {info : FatInfo} {start : Nat} {lv : Level}

/-- What is listed of a directory is the start of its whole scan. -/
theorem Level.Valid.listed_prefix (h : lv.Valid dev info start) :
    scan [] (dirRecords dev info (lv.clusters.take 1000)) <+:
      lv.before ++ (lv.record, lv.entry) :: lv.after := by
  rw [← h.listed]
  have hsplit : dirRecords dev info lv.clusters =
      dirRecords dev info (lv.clusters.take 1000) ++
        dirRecords dev info (lv.clusters.drop 1000) := by
    rw [dirRecords, dirRecords, dirRecords, ← List.flatMap_append, List.take_append_drop]
  rw [hsplit]
  exact scan_prefix ..

/-- A listing that is long enough has the record behind those in front of it. -/
theorem Level.Valid.listed_eq (h : lv.Valid dev info start)
    (hlen : lv.before.length < (scan [] (dirRecords dev info (lv.clusters.take 1000))).length) :
    ∃ more, scan [] (dirRecords dev info (lv.clusters.take 1000)) =
      lv.before ++ (lv.record, lv.entry) :: more := by
  have hrecord : lv.before ++ [(lv.record, lv.entry)] <+:
      lv.before ++ (lv.record, lv.entry) :: lv.after := by
    exact ⟨lv.after, by simp⟩
  obtain ⟨more, hmore⟩ := List.prefix_of_prefix_length_le hrecord h.listed_prefix
    (by simp only [List.length_append, List.length_singleton]; omega)
  exact ⟨more, by rw [← hmore, List.append_assoc]; rfl⟩

/-- The lookup of a component in what is listed of a directory. -/
def Level.find (dev : BlockDevice) (info : FatInfo) (lv : Level) : Option DirEntry :=
  ((scan [] (dirRecords dev info (lv.clusters.take 1000))).map Prod.snd).find?
    fun e => entryMatches e lv.comp

/-- A visible record is found. -/
theorem Level.Valid.find_visible (h : lv.Valid dev info start) (hvis : lv.Visible dev info) :
    lv.find dev info = some lv.entry := by
  obtain ⟨more, hmore⟩ := h.listed_eq hvis.1
  have hbefore : (lv.before.map Prod.snd).find? (fun e => entryMatches e lv.comp) = none := by
    simp only [List.find?_eq_none, List.mem_map, forall_exists_index, and_imp]
    rintro e p hp rfl
    cases hl : p.1.isLabel with
    | false => simp [h.first p hp hl]
    | true => simp [hvis.2 p hp hl]
  rw [find, hmore, List.map_append, List.find?_append, hbefore, Option.none_or]
  simp [h.named]

/-- If the record is not visible, what is found is in front of it. -/
theorem Level.Valid.find_mem_before (h : lv.Valid dev info start) (hvis : ¬ lv.Visible dev info)
    {e : DirEntry} (he : lv.find dev info = some e) : ∃ p ∈ lv.before, p.2 = e := by
  by_cases hlen : lv.before.length <
      (scan [] (dirRecords dev info (lv.clusters.take 1000))).length
  · -- The record is listed, so a label of its name comes first.
    obtain ⟨more, hmore⟩ := h.listed_eq hlen
    obtain ⟨q, hq, hlabel, hmatch⟩ : ∃ q ∈ lv.before, q.1.isLabel = true ∧
        entryMatches q.2 lv.comp = true := by
      simpa [Visible, hlen] using hvis
    have hsome : ((lv.before.map Prod.snd).find? fun e => entryMatches e lv.comp).isSome := by
      rw [List.find?_isSome]
      exact ⟨q.2, List.mem_map_of_mem hq, hmatch⟩
    rw [find, hmore, List.map_append, List.find?_append, Option.or_of_isSome hsome] at he
    exact List.mem_map.mp (List.mem_of_find?_eq_some he)
  · have hprefix : scan [] (dirRecords dev info (lv.clusters.take 1000)) <+: lv.before :=
      List.prefix_of_prefix_length_le h.listed_prefix (List.prefix_append ..) (by omega)
    obtain ⟨p, hp, hpe⟩ := List.mem_map.mp (List.mem_of_find?_eq_some he)
    exact ⟨p, hprefix.subset hp, hpe⟩

/-- If the record is not visible, nothing is found or a volume label. -/
theorem Level.Valid.find_hidden (h : lv.Valid dev info start) (hvis : ¬ lv.Visible dev info)
    {e : DirEntry} (he : lv.find dev info = some e) : e.cluster = 0 := by
  obtain ⟨p, hp, rfl⟩ := h.find_mem_before hvis he
  cases hl : p.1.isLabel with
  | true => exact h.labels p hp hl
  | false =>
    have hmatch := List.find?_some (p := fun e => entryMatches e lv.comp) he
    rw [h.first p hp hl] at hmatch
    exact absurd hmatch Bool.false_ne_true

/-- The turn of the loop in a directory of the path. -/
theorem Level.Valid.resolveFrom_cons (hread : AllRead dev info) (h : lv.Valid dev info start)
    (rest : List (List UInt8)) :
    resolveFrom dev info start (lv.comp :: rest) =
      match lv.find dev info with
      | none => some none
      | some e =>
        if rest.isEmpty then some (some e)
        else if !e.isDir then some none
        else resolveFrom dev info e.cluster rest := by
  have hhead := h.head
  have hchain := h.chain
  cases hcs : lv.clusters with
  | nil => simp [hcs] at hhead
  | cons c cs =>
    rw [hcs] at hhead hchain
    obtain rfl : c = start := by simpa using hhead
    rw [find, hcs]
    exact resolveFrom_of_listDir (listDir_eq hread hchain) lv.comp rest

theorem PathTo.ne_nil {lvs : List Level} {e : DirEntry} (h : PathTo dev info start lvs e) :
    lvs ≠ [] := by
  cases h with
  | last => simp
  | down => simp

/-- A path whose records are all visible leads to its entry. -/
theorem PathTo.resolveFrom_visible (hread : AllRead dev info) {lvs : List Level} {e : DirEntry}
    (h : PathTo dev info start lvs e) (hvis : ∀ lv ∈ lvs, lv.Visible dev info) :
    resolveFrom dev info start (lvs.map Level.comp) = some (some e) := by
  induction h with
  | last h =>
    rw [List.map_cons, h.resolveFrom_cons hread, h.find_visible (hvis _ (by simp))]
    rfl
  | @down start lv lvs e h hdir hrest ih =>
    have hne : (lvs.map Level.comp).isEmpty = false := by simpa using hrest.ne_nil
    rw [List.map_cons, h.resolveFrom_cons hread, h.find_visible (hvis _ (by simp))]
    simp only [hne, hdir, Bool.not_true, Bool.false_eq_true, if_false]
    exact ih fun lv hlv => hvis lv (by simp [hlv])

/-- Cluster 0 has no entries. -/
theorem resolveFrom_zero (comps : List (List UInt8)) :
    resolveFrom dev info 0 comps = some none := by
  cases comps with
  | nil => rfl
  | cons comp rest => rfl

/-- A path with a record that is not visible leads nowhere, or to an entry without a
cluster. -/
theorem PathTo.resolveFrom_hidden (hread : AllRead dev info) {lvs : List Level} {e : DirEntry}
    (h : PathTo dev info start lvs e) (hvis : ¬ ∀ lv ∈ lvs, lv.Visible dev info) :
    ∃ r, resolveFrom dev info start (lvs.map Level.comp) = some r ∧
      ∀ e', r = some e' → e'.cluster = 0 := by
  induction h with
  | @last start lv h =>
    have hlv : ¬ lv.Visible dev info := by simpa using hvis
    refine ⟨lv.find dev info, ?_, fun e' he' => h.find_hidden hlv he'⟩
    rw [List.map_cons, h.resolveFrom_cons hread]
    cases lv.find dev info with
    | none => rfl
    | some e' => rfl
  | @down start lv lvs e h hdir hrest ih =>
    have hne : (lvs.map Level.comp).isEmpty = false := by simpa using hrest.ne_nil
    rw [List.map_cons, h.resolveFrom_cons hread]
    by_cases hlv : lv.Visible dev info
    · rw [h.find_visible hlv]
      simp only [hne, hdir, Bool.not_true, Bool.false_eq_true, if_false]
      exact ih fun hall => hvis fun lv' hlv' => by
        rcases List.mem_cons.mp hlv' with rfl | hmem
        · exact hlv
        · exact hall lv' hmem
    · refine ⟨none, ?_, by simp⟩
      cases hfind : lv.find dev info with
      | none => rfl
      | some e' =>
        simp only [hne, h.find_hidden hlv hfind, resolveFrom_zero, ite_self, Bool.false_eq_true,
          if_false]

end

/-! ## Reading by path -/

/-- The call has returned true and appended the `n` bytes that lie in the clusters. -/
def AppendsFile (dev : BlockDevice) (info : FatInfo) (clusters : List Nat) (n : Nat)
    (out : List UInt8) (r : Option (Bool × List UInt8)) : Prop :=
  ∃ bytes, r = some (true, out ++ bytes) ∧ bytes.length = n ∧
    IsStart dev info (fun k => clusters[k]?) bytes

section

variable {dev : BlockDevice} {info : FatInfo} {clusters : List Nat} {out : List UInt8}

theorem readFile_appendsFile_iff {first n : Nat} (hread : AllRead dev info) (hspc : 0 < info.spc)
    (hfile : IsFile dev info first n clusters) :
    AppendsFile dev info clusters n out (readFile dev info first n out) ↔
      0 < n ∧ clusters.length ≤ 1000 := by
  have htrue := @readFile_true_iff dev info first n clusters out hread hspc hfile
  rw [← htrue]
  constructor
  · rintro ⟨bytes, hr, -, -⟩
    exact ⟨_, hr⟩
  · rintro ⟨out', hr⟩
    obtain ⟨bytes, rfl, -, hstart, hlen⟩ := readFile_readSome hr
    refine ⟨bytes, hr, hlen rfl, ?_⟩
    have hpos := (htrue.mp ⟨_, hr⟩).1
    cases clusters with
    | nil => exact absurd (hfile.size_eq_zero hspc) (by omega)
    | cons c cs =>
      obtain ⟨rfl, hchain⟩ := hfile.chain_cons
      rw [← funext hchain.clusterAt_eq]
      exact hstart

/-- Nothing is read from cluster 0. -/
theorem readFile_zero {n : Nat} : readFile dev info 0 n out = some (false, out) := rfl

/-- An entry without a cluster is not read. -/
theorem readPath_not_appendsFile {fs : Fs} {path : List UInt8} {n : Nat} {r : Option DirEntry}
    (hr : resolve dev fs.info path = some r) (hzero : ∀ e, r = some e → e.cluster = 0) :
    ¬ AppendsFile dev fs.info clusters n out (fs.readPath dev path out) := by
  have hfalse : fs.readPath dev path out = some (false, out) := by
    rw [readPath, hr]
    cases r with
    | none => rfl
    | some e =>
      simp only [Option.bind_eq_bind, Option.bind_some, hzero e rfl, readFile_zero, ite_self]
  rintro ⟨bytes, h, -⟩
  rw [hfalse] at h
  simp at h

/-- **A file is read by its path.** On every volume whose sectors can be read and for every
file on it, reading the file by its cluster and size and reading it by its path both
return true and append its bytes exactly when the file is not empty, has at most a
thousand clusters, and every record on its path is visible. -/
theorem read_appends_file_iff_visible (fs : Fs) {path : List UInt8} {lvs : List Level}
    {e : DirEntry} (hread : AllRead dev fs.info) (hspc : 0 < fs.info.spc)
    (hpath : components path = lvs.map Level.comp)
    (hto : PathTo dev fs.info fs.info.rootCluster.toNat lvs e) (hdir : e.isDir = false)
    (hfile : IsFile dev fs.info e.cluster e.size clusters) (out : List UInt8) :
    (AppendsFile dev fs.info clusters e.size out (fs.read dev e.cluster e.size out) ∧
      AppendsFile dev fs.info clusters e.size out (fs.readPath dev path out)) ↔
      0 < e.size ∧ clusters.length ≤ 1000 ∧ ∀ lv ∈ lvs, lv.Visible dev fs.info := by
  rw [read, readFile_appendsFile_iff hread hspc hfile, and_assoc]
  refine and_congr_right fun hn => and_congr_right fun hlen => ?_
  constructor
  · intro hpathRead
    by_contra hvis
    obtain ⟨r, hr, hzero⟩ := hto.resolveFrom_hidden hread hvis
    rw [← hpath] at hr
    exact readPath_not_appendsFile hr hzero hpathRead
  · intro hvis
    have hresolve := hto.resolveFrom_visible hread hvis
    rw [← hpath] at hresolve
    rw [readPath, resolve, hresolve]
    simp only [Option.bind_eq_bind, Option.bind_some, hdir, Bool.false_eq_true, if_false]
    exact (readFile_appendsFile_iff hread hspc hfile).mpr ⟨hn, hlen⟩

end

/-- The bytes of an ASCII name. -/
def ascii (s : String) : List UInt8 := s.toList.map fun c => UInt8.ofNat c.toNat

/-- The root directory of the disk lists its two files. -/
theorem helloDisk_scan :
    ∃ p q, scan [] (dirRecords helloDisk helloInfo [2]) = [p, q] ∧
      (p.1.isLabel = false ∧ p.2.cluster = 3 ∧ p.2.size = 16 ∧ p.2.isDir = false) ∧
      (entryMatches p.2 (ascii "hello.txt") = true ∧
        entryMatches p.2 (ascii "empty.txt") = false) ∧
      (q.1.isLabel = false ∧ q.2.cluster = 0 ∧ q.2.size = 0 ∧ q.2.isDir = false) ∧
      entryMatches q.2 (ascii "empty.txt") = true := by
  have hfacts : (scan [] (dirRecords helloDisk helloInfo [2])).map (fun p =>
      ((p.1.isLabel, p.2.cluster, p.2.size, p.2.isDir), entryMatches p.2 (ascii "hello.txt"),
        entryMatches p.2 (ascii "empty.txt"))) =
      [((false, 3, 16, false), true, false), ((false, 0, 0, false), false, true)] := by
    decide
  obtain ⟨p, ps, hp, hfp, hps⟩ := List.map_eq_cons_iff.mp hfacts
  obtain ⟨q, qs, rfl, hfq, hqs⟩ := List.map_eq_cons_iff.mp hps
  obtain rfl := List.map_eq_nil_iff.mp hqs
  simp only [Prod.mk.injEq] at hfp hfq
  exact ⟨p, q, hp, hfp.1, hfp.2, hfq.1, hfq.2.2⟩

/-- Reading `hello.txt`, in either way. -/
theorem read_hello :
    AppendsFile helloDisk helloInfo [3] 16 [] (read ⟨helloInfo⟩ helloDisk 3 16 []) ∧
      AppendsFile helloDisk helloInfo [3] 16 []
        (readPath ⟨helloInfo⟩ helloDisk (ascii "hello.txt") []) := by
  obtain ⟨⟨r, e⟩, q, hscan, ⟨hlabel, hcluster, hsize, hdir⟩, ⟨hname, -⟩, -⟩ := helloDisk_scan
  simp only at hlabel hcluster hsize hdir hname
  let lv : Level := ⟨[2], ascii "hello.txt", [], r, e, [q]⟩
  have hvalid : lv.Valid helloDisk helloInfo 2 :=
    ⟨rfl, helloDisk_chain (Or.inl rfl), hscan, hlabel, hname, by simp [lv], by simp [lv]⟩
  have hvis : lv.Visible helloDisk helloInfo := by
    refine ⟨?_, by simp [lv]⟩
    change 0 < (scan [] (dirRecords helloDisk helloInfo [2])).length
    simp [hscan]
  have hfile : IsFile helloDisk helloInfo e.cluster e.size [3] := by
    rw [hcluster, hsize]
    exact ⟨by decide, fun _ => ⟨rfl, helloDisk_chain (Or.inr rfl)⟩, by simp⟩
  have hpath : components (ascii "hello.txt") = [lv].map Level.comp := by
    change _ = [ascii "hello.txt"]
    decide
  have hread := (read_appends_file_iff_visible ⟨helloInfo⟩ helloDisk_allRead (by decide) hpath
    (.last hvalid) hdir hfile []).mpr ⟨by rw [hsize]; decide, by decide, by simpa using hvis⟩
  rw [hsize, hcluster] at hread
  exact hread

/-- The empty file is not read. -/
theorem empty_file_not_read :
    AllRead helloDisk helloInfo ∧ ∃ (lv : Level) (e : DirEntry),
      components (ascii "empty.txt") = [lv].map Level.comp ∧
      PathTo helloDisk helloInfo 2 [lv] e ∧ e.isDir = false ∧
      IsFile helloDisk helloInfo e.cluster e.size [] ∧
      ¬ (AppendsFile helloDisk helloInfo [] e.size []
          (read ⟨helloInfo⟩ helloDisk e.cluster e.size []) ∧
        AppendsFile helloDisk helloInfo [] e.size []
          (readPath ⟨helloInfo⟩ helloDisk (ascii "empty.txt") [])) := by
  obtain ⟨⟨r₁, e₁⟩, ⟨r, e⟩, hscan, ⟨hlabel₁, -⟩, ⟨-, hname₁⟩, ⟨hlabel, hcluster, hsize, hdir⟩,
    hname⟩ := helloDisk_scan
  simp only at hlabel₁ hname₁ hlabel hcluster hsize hdir hname
  let lv : Level := ⟨[2], ascii "empty.txt", [(r₁, e₁)], r, e, []⟩
  have hvalid : lv.Valid helloDisk helloInfo 2 :=
    ⟨rfl, helloDisk_chain (Or.inl rfl), hscan, hlabel, hname, by simp [lv, hname₁],
      by simp [lv, hlabel₁]⟩
  have hfile : IsFile helloDisk helloInfo e.cluster e.size [] := by
    rw [hcluster, hsize]
    exact ⟨by decide, by simp, by simp⟩
  have hpath : components (ascii "empty.txt") = [lv].map Level.comp := by
    change _ = [ascii "empty.txt"]
    decide
  refine ⟨helloDisk_allRead, lv, e, hpath, .last hvalid, hdir, hfile, ?_⟩
  rintro ⟨⟨bytes, hr, -⟩, -⟩
  rw [read, hcluster, readFile_zero] at hr
  simp at hr

end Fs

end LionOS
