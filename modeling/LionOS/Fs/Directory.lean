import LionOS.Fs.File
import LionOS.Fs.Names

/-!
# Listing a directory

`list_dir` scans the records of a directory's clusters and keeps the long-name records
that wait for their short one, across sectors and clusters. On a chain whose sectors
can be read it is one scan of one list of records: those of the first thousand
clusters.
-/

namespace LionOS.Fs

open Lib

/-- A directory record: 32 bytes of a sector. -/
structure Record where
  sector : Sector
  off : Nat

namespace Record

def name0 (r : Record) : UInt8 := r.sector r.off

def attr (r : Record) : UInt8 := r.sector (r.off + 11)

def isDeleted (r : Record) : Bool := r.name0 == 0xE5

def isLong (r : Record) : Bool := r.attr &&& 0x0F == 0x0F

def name (r : Record) : Vector UInt8 11 := Vector.ofFn fun i => r.sector (r.off + i)

/-- The cluster's high word is at 20 and its low word at 26. -/
def cluster (r : Record) : Nat := rd16 r.sector (r.off + 20) <<< 16 ||| rd16 r.sector (r.off + 26)

def size (r : Record) : Nat := rd32 r.sector (r.off + 28)

def isDir (r : Record) : Bool := r.attr &&& 0x10 != 0

/-- The volume label; the bit is also set in long-name records. -/
def isLabel (r : Record) : Bool := r.attr &&& 0x08 != 0

/-- What is kept of a long-name record. -/
def chunk (r : Record) : LfnChunk := ((r.name0 &&& 0x1F).toNat, lfnChars r.sector r.off)

/-- The entry of a short record behind the long-name records `lfn`. -/
def entry (r : Record) (lfn : List LfnChunk) : DirEntry where
  name := r.name
  cluster := r.cluster
  size := r.size
  isDir := r.isDir
  longName := lfnReassemble lfn

end Record

/-- The records of a sector. -/
def records (b : Sector) : List Record := (List.range 16).map fun i => ⟨b, i * 32⟩

/-- The record loop; it returns at the end-of-directory record. -/
def listRecords : List Record → List LfnChunk → List DirEntry →
    Outcome (List DirEntry) (List LfnChunk × List DirEntry)
  | [], lfn, out => .finished (lfn, out)
  | r :: rs, lfn, out =>
    if r.name0 = 0 then .returned out
    else if r.isDeleted then listRecords rs [] out
    else if r.isLong then listRecords rs (lfn ++ [r.chunk]) out
    else listRecords rs [] (out ++ [r.entry lfn])

/-- The sector loop, from sector `s` of a cluster on. -/
def listSectors (dev : BlockDevice) (firstSector : Nat) :
    (left s : Nat) → List LfnChunk → List DirEntry →
      Option (Outcome (Bool × List DirEntry) (List LfnChunk × List DirEntry))
  | 0, _, lfn, out => some (.finished (lfn, out))
  | left + 1, s, lfn, out => do
    let lba ← checked32 (firstSector + s)
    match dev lba with
    | none => some (.returned (false, out))
    | some buf =>
      match listRecords (records buf) lfn out with
      | .returned out => some (.returned (true, out))
      | .finished (lfn, out) => listSectors dev firstSector left (s + 1) lfn out

/-- The cluster loop with `turns` turns to go. -/
def listClusters (dev : BlockDevice) (info : FatInfo) :
    (turns c : Nat) → List LfnChunk → List DirEntry → Option (Bool × List DirEntry)
  | 0, _, _, out => some (true, out)
  | turns + 1, c, lfn, out =>
    if isChainEnd c then some (true, out)
    else do
      let first ← checked32 (info.firstSector c)
      match ← listSectors dev first info.spc 0 lfn out with
      | .returned r => some r
      | .finished (lfn, out) =>
        match nextCluster dev info c with
        | some next => listClusters dev info turns next lfn out
        | none => some (true, out)

/-- List the files and subdirectories of the directory at `startCluster`. -/
def listDir (dev : BlockDevice) (info : FatInfo) (startCluster : Nat) (out : List DirEntry) :
    Option (Bool × List DirEntry) :=
  if isChainEnd startCluster then some (true, out)
  else listClusters dev info 1000 startCluster [] out

/-! ## One scan of all records -/

/-- The records of the sector at `lba`. -/
def sectorRecords (dev : BlockDevice) (lba : Nat) : List Record :=
  match dev lba with
  | some b => records b
  | none => []

/-- The records of a cluster. -/
def clusterRecords (dev : BlockDevice) (info : FatInfo) (c : Nat) : List Record :=
  (List.range info.spc).flatMap fun s => sectorRecords dev (info.firstSector c + s)

/-- The records of a directory's clusters. -/
def dirRecords (dev : BlockDevice) (info : FatInfo) (cs : List Nat) : List Record :=
  cs.flatMap (clusterRecords dev info)

/-- The entries listed when the record loop is left. -/
def Outcome.entries : Outcome (List DirEntry) (List LfnChunk × List DirEntry) → List DirEntry
  | .returned out => out
  | .finished s => s.2

/-- Each record that is listed, with its entry. -/
def scan : List LfnChunk → List Record → List (Record × DirEntry)
  | _, [] => []
  | lfn, r :: rs =>
    if r.name0 = 0 then []
    else if r.isDeleted then scan [] rs
    else if r.isLong then scan (lfn ++ [r.chunk]) rs
    else (r, r.entry lfn) :: scan [] rs

theorem listRecords_append (rs rs' : List Record) (lfn : List LfnChunk) (out : List DirEntry) :
    listRecords (rs ++ rs') lfn out =
      match listRecords rs lfn out with
      | .returned out => .returned out
      | .finished (lfn, out) => listRecords rs' lfn out := by
  induction rs generalizing lfn out with
  | nil => rfl
  | cons r rs ih =>
    simp only [List.cons_append, listRecords]
    split
    · rfl
    split
    · exact ih ..
    split
    · exact ih ..
    · exact ih ..

/-- The record loop appends the entries of the scan. -/
theorem listRecords_entries (rs : List Record) (lfn : List LfnChunk) (out : List DirEntry) :
    (listRecords rs lfn out).entries = out ++ (scan lfn rs).map Prod.snd := by
  induction rs generalizing lfn out with
  | nil => simp [listRecords, scan, Outcome.entries]
  | cons r rs ih =>
    simp only [listRecords, scan]
    split
    · simp [Outcome.entries]
    split
    · exact ih ..
    split
    · exact ih ..
    · rw [ih]
      simp

section

variable {dev : BlockDevice} {info : FatInfo}

/-- The sector loop is one scan when every sector can be read. -/
theorem listSectors_eq {firstSector left s : Nat} {lfn : List LfnChunk} {out : List DirEntry}
    (h : ∀ k, s ≤ k → k < s + left →
      firstSector + k < 2 ^ 32 ∧ ∃ b, dev (firstSector + k) = some b) :
    listSectors dev firstSector left s lfn out =
      match listRecords ((List.range' s left).flatMap fun k => sectorRecords dev (firstSector + k))
        lfn out with
      | .returned out => some (.returned (true, out))
      | .finished st => some (.finished st) := by
  induction left generalizing s lfn out with
  | zero => rfl
  | succ left ih =>
    obtain ⟨hlba, b, hb⟩ := h s le_rfl (by omega)
    have hrecords : sectorRecords dev (firstSector + s) = records b := by
      simp only [sectorRecords, hb]
    rw [listSectors, checked32_of_lt hlba, List.range'_succ, List.flatMap_cons, hrecords,
      listRecords_append]
    simp only [Option.bind_eq_bind, Option.bind_some, hb]
    cases listRecords (records b) lfn out with
    | returned out' => rfl
    | finished st => exact ih fun k hk hk' => h k (by omega) (by omega)

/-- The cluster loop is one scan of the clusters it has turns for. -/
private theorem listClusters_eq (hread : AllRead dev info) {turns c : Nat} {cs : List Nat}
    {lfn : List LfnChunk} {out : List DirEntry} (hchain : Chain dev info (c :: cs)) :
    listClusters dev info turns c lfn out =
      some (true, (listRecords (dirRecords dev info ((c :: cs).take turns)) lfn out).entries) := by
  induction turns generalizing c cs lfn out with
  | zero => rfl
  | succ turns ih =>
    have hdata := hchain.isData
    have hsectors := @listSectors_eq dev (info.firstSector c) info.spc 0 lfn out
      fun k _ hk => hdata.sector hread (by omega)
    rw [listClusters, hdata.1, checked32_of_lt hdata.firstSector_lt, List.take_succ_cons,
      dirRecords, List.flatMap_cons, listRecords_append]
    simp only [Bool.false_eq_true, if_false, Option.bind_eq_bind, Option.bind_some, hsectors,
      clusterRecords, List.range_eq_range']
    cases listRecords ((List.range' 0 info.spc).flatMap fun k =>
        sectorRecords dev (info.firstSector c + k)) lfn out with
    | returned out' => rfl
    | finished st =>
      obtain ⟨lfn', out'⟩ := st
      cases cs with
      | nil =>
        simp only [Option.bind_some, hchain.nextCluster_last, List.take_nil]
        rfl
      | cons c' cs =>
        obtain ⟨hnext, hcs⟩ := hchain.nextCluster_link
        simp only [Option.bind_some, hnext]
        exact ih hcs

/-- A directory listing is one scan of the first thousand clusters. -/
theorem listDir_eq (hread : AllRead dev info) {c : Nat} {cs : List Nat} {out : List DirEntry}
    (hchain : Chain dev info (c :: cs)) :
    listDir dev info c out =
      some (true, out ++ (scan [] (dirRecords dev info ((c :: cs).take 1000))).map Prod.snd) := by
  rw [listDir, hchain.isData.1, listClusters_eq hread hchain, listRecords_entries]
  simp

end

/-! ## What is listed -/

/-- An entry but for its long name. -/
def DirEntry.short (e : DirEntry) : DirEntry := { e with longName := none }

/-- The records in front of the end-of-directory record. -/
def beforeEnd (rs : List Record) : List Record := rs.takeWhile fun r => r.name0 != 0

/-- The scan lists every record in front of the end that is neither deleted nor a long
name. -/
theorem scan_short (lfn : List LfnChunk) (rs : List Record) :
    (scan lfn rs).map (fun p => p.2.short) =
      (beforeEnd rs).flatMap fun r => if r.isDeleted || r.isLong then [] else [r.entry []] := by
  induction rs generalizing lfn with
  | nil => rfl
  | cons r rs ih =>
    unfold scan beforeEnd
    by_cases hend : r.name0 = 0
    · rw [if_pos hend, List.takeWhile_cons_of_neg (by simp [hend])]
      rfl
    rw [if_neg hend, List.takeWhile_cons_of_pos (by simp [hend]), List.flatMap_cons]
    cases hdel : r.isDeleted with
    | true => exact ih []
    | false =>
      cases hlong : r.isLong with
      | true => exact ih _
      | false =>
        have htail := ih []
        simp only [Bool.false_eq_true, if_false, Bool.or_self, List.map_cons, htail]
        rfl

/-- The entries of the files and subdirectories, and of nothing else. -/
def liveEntries (rs : List Record) : List DirEntry :=
  (beforeEnd rs).flatMap fun r =>
    if r.isDeleted || r.isLong || r.isLabel then [] else [r.entry []]

/-- **What a listing contains.** For every directory whose chain ends in an end-of-chain mark,
on a device whose sectors can be read, `list_dir` returns true and appends in order one
entry for each live record of the first thousand clusters, up to the end-of-directory
record, and none for deleted and long-name records. What a volume label adds is left
open. -/
theorem listDir_lists_live_records {dev : BlockDevice} {info : FatInfo} {c : Nat} {cs : List Nat}
    (hread : AllRead dev info) (hchain : Chain dev info (c :: cs)) (out : List DirEntry) :
    ∃ (es : List DirEntry) (label : Record → List DirEntry),
      listDir dev info c out = some (true, out ++ es) ∧
        es.map DirEntry.short =
          (beforeEnd (dirRecords dev info ((c :: cs).take 1000))).flatMap fun r =>
            if r.isDeleted || r.isLong then []
            else if r.isLabel then label r
            else [r.entry []] := by
  refine ⟨_, fun r => [r.entry []], listDir_eq hread hchain, ?_⟩
  simp only [ite_self, List.map_map]
  exact scan_short ..

theorem helloDisk_allRead : AllRead helloDisk helloInfo := by
  intro lba _
  unfold helloDisk
  split_ifs <;> exact ⟨_, rfl⟩

/-- The root directory and the file are chains of one cluster. -/
theorem helloDisk_chain {c : Nat} (hc : c = 2 ∨ c = 3) : Chain helloDisk helloInfo [c] := by
  have hmark : readFatEntry helloDisk helloInfo c = some 0x0FFFFFFF := by
    rcases hc with rfl | rfl
    · decide
    · decide
  have hdata : helloInfo.IsData c := by
    rcases hc with rfl | rfl
    · decide
    · decide
  exact .last hdata hmark (by decide)

/-- The root directory of a disk with two files. -/
theorem listDir_hello :
    ∃ (es : List DirEntry) (label : Record → List DirEntry),
      listDir helloDisk helloInfo 2 [] = some (true, [] ++ es) ∧
        es.map DirEntry.short =
          (beforeEnd (dirRecords helloDisk helloInfo ([2].take 1000))).flatMap fun r =>
            if r.isDeleted || r.isLong then [] else if r.isLabel then label r else [r.entry []] :=
  listDir_lists_live_records helloDisk_allRead (helloDisk_chain (Or.inl rfl)) []

/-- One sector for each cluster and a FAT of eight sectors. -/
def longInfo : FatInfo where
  bytes := 512
  sectorsPerCluster := 1
  reservedSectors := 1
  fatCount := 1
  totalSectors := 1010
  sectorsPerFat := 8
  rootCluster := 2
  dataStart := 9

/-- The FAT links clusters 2 to 1002. -/
def longEntry (c : Nat) : Nat := if c < 1002 then c + 1 else 0x0FFFFFFF

/-- A disk whose root directory has a thousand clusters of deleted records and then one with
the records of the other disk's. -/
def longDisk : BlockDevice := fun lba =>
  if lba < 9 then
    some fun x => UInt8.ofNat (longEntry ((lba - 1) * 128 + x / 4) / 256 ^ (x % 4))
  else if lba < 1009 then some fun _ => 0xE5
  else helloDisk 4

theorem longDisk_allRead : AllRead longDisk longInfo := by
  intro lba _
  unfold longDisk
  split_ifs
  · exact ⟨_, rfl⟩
  · exact ⟨_, rfl⟩
  · exact ⟨_, rfl⟩

/-- Four bytes that spell a number. -/
private theorem rd32_spelled {b : Sector} {off v : Nat} (hv : v < 2 ^ 32)
    (h : ∀ i < 4, b (off + i) = UInt8.ofNat (v / 256 ^ i)) : rd32 b off = v := by
  have h0 := h 0 (by decide)
  have h1 := h 1 (by decide)
  have h2 := h 2 (by decide)
  have h3 := h 3 (by decide)
  simp only [Nat.add_zero, pow_zero, Nat.div_one, pow_one] at h0 h1
  simp only [rd32, readLE, Nat.add_assoc, Nat.reduceAdd, h0, h1, h2, h3, UInt8.toNat_ofNat']
  omega

theorem readFatEntry_longDisk {c : Nat} (hc : c ≤ 1002) :
    readFatEntry longDisk longInfo c = some (longEntry c) := by
  have hlt : longEntry c < 2 ^ 28 := by
    unfold longEntry
    split <;> omega
  have hspf : ¬ longInfo.sectorsPerFat.toNat ≤ c * 4 / 512 := by
    change ¬ 8 ≤ c * 4 / 512
    omega
  have hlba : longInfo.reservedSectors.toNat + c * 4 / 512 < 9 := by
    change 1 + c * 4 / 512 < 9
    omega
  simp only [readFatEntry, hspf, if_false, longDisk, hlba, if_true]
  rw [rd32_spelled (v := longEntry c) (by omega)]
  · rw [fat32Last, show 0x0FFFFFFF = 2 ^ 28 - 1 from rfl, Nat.and_two_pow_sub_one_eq_mod,
      Nat.mod_eq_of_lt hlt]
  · intro i hi
    change UInt8.ofNat (longEntry ((1 + c * 4 / 512 - 1) * 128 + (c * 4 % 512 + i) / 4) /
      256 ^ ((c * 4 % 512 + i) % 4)) = _
    have hindex : (1 + c * 4 / 512 - 1) * 128 + (c * 4 % 512 + i) / 4 = c := by omega
    have hbyte : (c * 4 % 512 + i) % 4 = i := by omega
    rw [hindex, hbyte]

private theorem longInfo_isData {c : Nat} (hlo : 2 ≤ c) (hhi : c ≤ 1002) : longInfo.IsData c := by
  refine ⟨by simp [isChainEnd]; omega, ?_⟩
  change 9 + (c - 2) * 1 + 1 ≤ 1010
  omega

/-- The last `k + 1` clusters of the directory. -/
theorem longDisk_chain {k : Nat} (hk : k ≤ 1000) :
    Chain longDisk longInfo (List.range' (1002 - k) (k + 1)) := by
  induction k with
  | zero =>
    exact .last (longInfo_isData (by decide) (by decide)) (readFatEntry_longDisk (by decide))
      (by decide)
  | succ k ih =>
    have hfirst : 1002 - (k + 1) + 1 = 1002 - k := by omega
    have hnext : readFatEntry longDisk longInfo (1002 - (k + 1)) = some (1002 - k) := by
      rw [readFatEntry_longDisk (by omega), longEntry, if_pos (by omega), hfirst]
    have htail := ih (by omega)
    rw [List.range'_succ] at htail ⊢
    rw [hfirst, List.range'_succ]
    exact .link (longInfo_isData (by omega) (by omega)) hnext htail

/-- Nothing is listed of deleted records. -/
theorem scan_deleted {lfn : List LfnChunk} {rs : List Record} (h : ∀ r ∈ rs, r.name0 = 0xE5) :
    scan lfn rs = [] := by
  induction rs generalizing lfn with
  | nil => rfl
  | cons r rs ih =>
    have hr := h r (by simp)
    have hdel : r.isDeleted = true := by simp [Record.isDeleted, hr]
    rw [scan, if_neg (by rw [hr]; decide), if_pos hdel]
    exact ih fun r hr => h r (by simp [hr])

theorem liveEntries_append_of_deleted {rs : List Record} (h : ∀ r ∈ rs, r.name0 = 0xE5)
    (rs' : List Record) : liveEntries (rs ++ rs') = liveEntries rs' := by
  have hbefore : beforeEnd (rs ++ rs') = rs ++ beforeEnd rs' := by
    apply List.takeWhile_append_of_pos
    intro r hr
    rw [h r hr]
    decide
  have hnone : (rs.flatMap fun r =>
      if r.isDeleted || r.isLong || r.isLabel then [] else [r.entry []]) = [] := by
    rw [List.flatMap_eq_nil_iff]
    intro r hr
    have hdel : r.isDeleted = true := by simp [Record.isDeleted, h r hr]
    simp [hdel]
  rw [liveEntries, hbefore, List.flatMap_append, hnone]
  rfl

/-- All records of the first thousand clusters are deleted. -/
theorem longDisk_deleted :
    ∀ r ∈ dirRecords longDisk longInfo (List.range' 2 1000), r.name0 = 0xE5 := by
  intro r hr
  obtain ⟨c, hc, hr⟩ := List.mem_flatMap.mp hr
  obtain ⟨s, hs, hr⟩ := List.mem_flatMap.mp hr
  have hc' := List.mem_range'_1.mp hc
  have hs' : s < 1 := List.mem_range.mp hs
  have hlba : longInfo.firstSector c + s = c + 7 := by
    change 9 + (c - 2) * 1 + s = c + 7
    omega
  rw [sectorRecords, hlba, longDisk, if_neg (by omega), if_pos (by omega)] at hr
  obtain ⟨i, -, rfl⟩ := List.mem_map.mp hr
  rfl

/-- The records in cluster 1001 of the directory are not listed. -/
theorem record_past_thousand_clusters :
    AllRead longDisk longInfo ∧ Chain longDisk longInfo (List.range' 2 1001) ∧
      ¬ ∃ es, listDir longDisk longInfo 2 [] = some (true, [] ++ es) ∧
        es.map DirEntry.short =
          liveEntries (dirRecords longDisk longInfo (List.range' 2 1001)) := by
  have hchain : Chain longDisk longInfo (List.range' 2 1001) := longDisk_chain (k := 1000) le_rfl
  refine ⟨longDisk_allRead, hchain, ?_⟩
  rintro ⟨es, hlist, hes⟩
  have happend : List.range' 2 1001 = List.range' 2 1000 ++ [1002] :=
    (List.range'_append_1 (s := 2) (m := 1000) (n := 1)).symm
  have hsplit : dirRecords longDisk longInfo (List.range' 2 1001) =
      dirRecords longDisk longInfo (List.range' 2 1000) ++ dirRecords longDisk longInfo [1002] := by
    rw [happend, dirRecords, List.flatMap_append]
    rfl
  have hlast : (liveEntries (dirRecords longDisk longInfo [1002])).length = 2 := by
    decide
  rw [List.range'_succ] at hchain
  have htake : (2 :: List.range' (2 + 1) 1000).take 1000 = List.range' 2 1000 := by
    rw [← List.range'_succ, happend]
    exact List.take_left' List.length_range'
  rw [listDir_eq longDisk_allRead hchain, htake, scan_deleted longDisk_deleted] at hlist
  have hnil : es = [] := by simpa using hlist
  rw [hsplit, liveEntries_append_of_deleted longDisk_deleted, hnil] at hes
  rw [← hes] at hlast
  exact absurd hlast (by simp)

end LionOS.Fs
