import LionOS.Fs.Volume

/-!
# Reading a file

`read_file` counts clusters, sectors of a cluster and bytes still needed, and returns
from five places. Whatever the disk holds, what it has appended at any of them is the
start of the file's sectors laid end to end.
-/

namespace LionOS.Fs

open Lib

/-- How a loop over the sectors of a cluster is left: by a `return`, or at its end with
the loop's state. -/
inductive Outcome (ρ σ : Type) where
  | returned (r : ρ)
  | finished (s : σ)
  deriving DecidableEq, Repr

/-- `P` of what a loop returns, `Q` of the state it ends with. -/
def Outcome.Holds {ρ σ : Type} (P : ρ → Prop) (Q : σ → Prop) : Outcome ρ σ → Prop
  | .returned r => P r
  | .finished s => Q s

/-- The first `n` bytes of a sector. -/
def sectorBytes (b : Sector) (n : Nat) : List UInt8 := (List.range n).map b

/-- The sector loop of `read_file`, from sector `s` of a cluster on. -/
def readSectors (dev : BlockDevice) (firstSector : Nat) :
    (left s need : Nat) → List UInt8 →
      Option (Outcome (Bool × List UInt8) (Nat × List UInt8))
  | 0, _, need, out => some (.finished (need, out))
  | left + 1, s, need, out =>
    if need = 0 then some (.returned (true, out))
    else do
      let lba ← checked32 (firstSector + s)
      match dev lba with
      | none => some (.returned (false, out))
      | some buf =>
        let take := min need 512
        readSectors dev firstSector left (s + 1) (need - take) (out ++ sectorBytes buf take)

/-- The cluster loop of `read_file` with `turns` turns to go. -/
def readClusters (dev : BlockDevice) (info : FatInfo) :
    (turns c need : Nat) → List UInt8 → Option (Bool × List UInt8)
  | 0, _, need, out => some (need == 0, out)
  | turns + 1, c, need, out =>
    if need = 0 then some (true, out)
    else if isChainEnd c then some (false, out)
    else do
      let first ← checked32 (info.firstSector c)
      match ← readSectors dev first info.spc 0 need out with
      | .returned r => some r
      | .finished (need, out) =>
        match nextCluster dev info c with
        | some next => readClusters dev info turns next need out
        | none => some (need == 0, out)

/-- Follow a file's chain and read its bytes, up to `size`. -/
def readFile (dev : BlockDevice) (info : FatInfo) (firstCluster size : Nat) (out : List UInt8) :
    Option (Bool × List UInt8) :=
  if isChainEnd firstCluster then some (false, out)
  else readClusters dev info 1000 firstCluster size out

/-- Sector `j` of the clusters `cluster 0`, `cluster 1` and so on, laid end to end. -/
def sectorAt (info : FatInfo) (cluster : Nat → Option Nat) (j : Nat) : Option Nat :=
  if info.spc = 0 then none
  else (cluster (j / info.spc)).map fun c => info.firstSector c + j % info.spc

/-- Byte `k` of these sectors. -/
def byteAt (dev : BlockDevice) (info : FatInfo) (cluster : Nat → Option Nat) (k : Nat) :
    Option UInt8 :=
  ((sectorAt info cluster (k / 512)).bind dev).map fun b => b (k % 512)

/-- The bytes appended so far, `bytes`, are the start of the file. -/
def IsStart (dev : BlockDevice) (info : FatInfo) (cluster : Nat → Option Nat)
    (bytes : List UInt8) : Prop :=
  ∀ k < bytes.length, byteAt dev info cluster k = bytes[k]?

section

variable {dev : BlockDevice} {info : FatInfo} {cluster : Nat → Option Nat}

theorem isStart_nil : IsStart dev info cluster [] := fun k hk => absurd hk (by simp)

/-- One more sector. -/
theorem IsStart.append {bytes : List UInt8} {b : Sector} {j lba n : Nat}
    (h : IsStart dev info cluster bytes) (hlen : bytes.length = 512 * j)
    (hsector : sectorAt info cluster j = some lba) (hread : dev lba = some b) (hn : n ≤ 512) :
    IsStart dev info cluster (bytes ++ sectorBytes b n) := by
  intro k hk
  by_cases hold : k < bytes.length
  · rw [h k hold, List.getElem?_append_left hold]
  · obtain ⟨i, rfl⟩ := Nat.exists_eq_add_of_le (Nat.le_of_not_lt hold)
    have hi : i < n := by
      simp only [List.length_append, sectorBytes, List.length_map, List.length_range] at hk
      omega
    have hj : (bytes.length + i) / 512 = j := by omega
    have hmod : (bytes.length + i) % 512 = i := by omega
    rw [byteAt, hj, hmod, hsector, Option.bind_some, hread]
    simp [sectorBytes, hi]

end

/-- What has been read when `j` sectors have been looked at and `need` bytes are missing. -/
def Reading (dev : BlockDevice) (info : FatInfo) (first size : Nat) (out₀ : List UInt8)
    (j need : Nat) (out : List UInt8) : Prop :=
  ∃ bytes, out = out₀ ++ bytes ∧ bytes.length + need = size ∧
    IsStart dev info (clusterAt dev info first) bytes ∧ (need ≠ 0 → bytes.length = 512 * j)

/-- What `read_file` may return. -/
def ReadSome (dev : BlockDevice) (info : FatInfo) (first size : Nat) (out₀ : List UInt8)
    (r : Bool × List UInt8) : Prop :=
  ∃ bytes, r.2 = out₀ ++ bytes ∧ bytes.length ≤ size ∧
    IsStart dev info (clusterAt dev info first) bytes ∧ (r.1 = true → bytes.length = size)

section

variable {dev : BlockDevice} {info : FatInfo} {first size : Nat} {out₀ : List UInt8}

theorem Reading.readSome {j need : Nat} {out : List UInt8} {ok : Bool}
    (h : Reading dev info first size out₀ j need out) (hok : ok = true → need = 0) :
    ReadSome dev info first size out₀ (ok, out) := by
  obtain ⟨bytes, rfl, hlen, hstart, -⟩ := h
  refine ⟨bytes, rfl, by omega, hstart, fun ht => ?_⟩
  have := hok ht
  omega

/-- The loop over the sectors of cluster `i` of the walk. -/
theorem readSectors_reading {i c : Nat} (hc : clusterAt dev info first i = some c)
    {left s need : Nat} {out : List UInt8}
    {r : Outcome (Bool × List UInt8) (Nat × List UInt8)} (hs : s + left = info.spc)
    (h : Reading dev info first size out₀ (i * info.spc + s) need out)
    (hr : readSectors dev (info.firstSector c) left s need out = some r) :
    r.Holds (ReadSome dev info first size out₀)
      fun s => Reading dev info first size out₀ ((i + 1) * info.spc) s.1 s.2 := by
  induction left generalizing s need out with
  | zero =>
    obtain rfl := Option.some.inj hr
    have hindex : (i + 1) * info.spc = i * info.spc + s := by
      rw [Nat.succ_mul]
      omega
    rw [← hindex] at h
    exact h
  | succ left ih =>
    rw [readSectors] at hr
    split at hr
    · obtain rfl := Option.some.inj hr
      exact h.readSome fun _ => by assumption
    next hneed =>
    obtain ⟨lba, hlba, hr⟩ := Option.bind_eq_some_iff.mp hr
    obtain rfl := checked32_eq_some hlba
    split at hr
    · obtain rfl := Option.some.inj hr
      exact h.readSome (by simp)
    next buf hbuf =>
    refine ih (by omega) ?_ hr
    obtain ⟨bytes, rfl, hlen, hstart, haligned⟩ := h
    have hsector : sectorAt info (clusterAt dev info first) (i * info.spc + s) =
        some (info.firstSector c + s) := by
      have hpos : 0 < info.spc := by omega
      have hdiv : (i * info.spc + s) / info.spc = i := by
        rw [Nat.mul_comm, Nat.mul_add_div hpos, Nat.div_eq_of_lt (by omega), Nat.add_zero]
      have hmod : (i * info.spc + s) % info.spc = s := by
        rw [Nat.mul_comm, Nat.mul_add_mod, Nat.mod_eq_of_lt (by omega)]
      rw [sectorAt, if_neg (by omega), hdiv, hc, hmod]
      rfl
    refine ⟨bytes ++ sectorBytes buf (min need 512), by rw [List.append_assoc], ?_,
      hstart.append (haligned hneed) hsector hbuf (by omega), fun hleft => ?_⟩
    · simp only [List.length_append, sectorBytes, List.length_map, List.length_range]
      omega
    · have := haligned hneed
      simp only [List.length_append, sectorBytes, List.length_map, List.length_range]
      omega

/-- The loop over the clusters of the walk, from cluster `i` on. -/
theorem readClusters_reading {turns i c need : Nat} {out : List UInt8} {r : Bool × List UInt8}
    (hc : isChainEnd c = false → clusterAt dev info first i = some c)
    (h : Reading dev info first size out₀ (i * info.spc) need out)
    (hr : readClusters dev info turns c need out = some r) :
    ReadSome dev info first size out₀ r := by
  induction turns generalizing i c need out with
  | zero =>
    obtain rfl := Option.some.inj hr
    exact h.readSome (by simp)
  | succ turns ih =>
    rw [readClusters] at hr
    split at hr
    · obtain rfl := Option.some.inj hr
      exact h.readSome fun _ => by assumption
    split at hr
    · obtain rfl := Option.some.inj hr
      exact h.readSome (by simp)
    next hend =>
    obtain ⟨firstSector, hfirst, hr⟩ := Option.bind_eq_some_iff.mp hr
    obtain rfl := checked32_eq_some hfirst
    obtain ⟨o, ho, hr⟩ := Option.bind_eq_some_iff.mp hr
    have hat := hc (Bool.eq_false_of_not_eq_true hend)
    have hsectors := readSectors_reading hat (by omega) h ho
    cases o with
    | returned r' =>
      obtain rfl := Option.some.inj hr
      exact hsectors
    | finished st =>
      obtain ⟨need', out'⟩ := st
      cases hnext : nextCluster dev info c with
      | none =>
        simp only [hnext, Option.some.injEq] at hr
        subst hr
        exact hsectors.readSome (by simp)
      | some next =>
        simp only [hnext] at hr
        refine ih (fun _ => ?_) hsectors hr
        rw [clusterAt, hat, Option.bind_some, hnext]

end

/-- Whatever `read_file` returns, it has read the start of the file. -/
theorem readFile_readSome {dev : BlockDevice} {info : FatInfo} {first size : Nat}
    {out : List UInt8} {r : Bool × List UInt8} (h : readFile dev info first size out = some r) :
    ReadSome dev info first size out r := by
  unfold readFile at h
  split at h
  · obtain rfl := Option.some.inj h
    exact ⟨[], by simp, by simp, isStart_nil, by simp⟩
  next hend =>
  refine readClusters_reading (i := 0) (fun hc => ?_) ?_ h
  · simp [clusterAt, hc]
  · exact ⟨[], by simp, by simp, isStart_nil, by simp⟩

/-- **What `read_file` appends is the start of the file.** On any disk and any FAT, if no
sector number overflows: the bytes appended are a prefix, at most `size` long, of the
sectors of the clusters along the FAT walk, and all `size` of them if the call
returns true. -/
theorem readFile_appends_start {dev : BlockDevice} {info : FatInfo} {first size : Nat}
    {out out' : List UInt8} {ok : Bool} (h : readFile dev info first size out = some (ok, out')) :
    ∃ bytes, out' = out ++ bytes ∧ bytes.length ≤ size ∧
      IsStart dev info (clusterAt dev info first) bytes ∧ (ok = true → bytes.length = size) :=
  readFile_readSome h

/-- A file of `n` bytes from cluster `first` on: its chain has as many clusters as the bytes
need. An empty file has none, and its first cluster is recorded as zero. -/
structure IsFile (dev : BlockDevice) (info : FatInfo) (first n : Nat) (clusters : List Nat) :
    Prop where
  count : clusters.length = (n + 512 * info.spc - 1) / (512 * info.spc)
  chain : clusters ≠ [] → clusters.head? = some first ∧ Chain dev info clusters
  empty : clusters = [] → first = 0

section

variable {dev : BlockDevice} {info : FatInfo}

/-- When every sector can be read, the sector loop returns true or ends with what is
missing after all its sectors. -/
private theorem readSectors_of_read {firstSector left s need : Nat} {out : List UInt8}
    (h : ∀ k, s ≤ k → k < s + left →
      firstSector + k < 2 ^ 32 ∧ ∃ b, dev (firstSector + k) = some b) :
    (need ≤ 512 * left ∧
      ∃ out', readSectors dev firstSector left s need out = some (.returned (true, out'))) ∨
    ∃ out', readSectors dev firstSector left s need out =
      some (.finished (need - 512 * left, out')) := by
  induction left generalizing s need out with
  | zero => exact Or.inr ⟨out, rfl⟩
  | succ left ih =>
    rw [readSectors]
    by_cases hneed : need = 0
    · rw [if_pos hneed]
      exact Or.inl ⟨by omega, out, rfl⟩
    obtain ⟨hlba, b, hb⟩ := h s le_rfl (by omega)
    rw [if_neg hneed, checked32_of_lt hlba]
    simp only [Option.bind_eq_bind, Option.bind_some, hb]
    have hrest : need - min need 512 - 512 * left = need - 512 * (left + 1) := by omega
    rw [← hrest]
    have hstep := @ih (s + 1) (need - min need 512) (out ++ sectorBytes b (min need 512))
      fun k hk hk' => h k (by omega) (by omega)
    rcases hstep with ⟨hle, hret⟩ | hfin
    · exact Or.inl ⟨by omega, hret⟩
    · exact Or.inr hfin

/-- A chain with just the clusters the bytes need is read to its end when the turns of the
loop are enough, and only then. -/
theorem readClusters_true_iff (hread : AllRead dev info) {turns c need : Nat} {cs : List Nat}
    {out : List UInt8} (hchain : Chain dev info (c :: cs))
    (hmore : 512 * info.spc * cs.length < need)
    (hless : need ≤ 512 * info.spc * (cs.length + 1)) :
    (∃ out', readClusters dev info turns c need out = some (true, out')) ↔
      cs.length + 1 ≤ turns := by
  induction turns generalizing c cs need out with
  | zero =>
    have hne : (need == 0) = false := by
      rw [beq_eq_false_iff_ne]
      omega
    simp [readClusters, hne]
  | succ turns ih =>
    have hdata := hchain.isData
    rw [readClusters, if_neg (by omega), hdata.1, checked32_of_lt hdata.firstSector_lt]
    simp only [Bool.false_eq_true, if_false, Option.bind_eq_bind, Option.bind_some]
    have hsectors := @readSectors_of_read dev (info.firstSector c) info.spc 0 need out
      fun k _ hk => hdata.sector hread (by omega)
    rcases hsectors with ⟨hle, out', hret⟩ | ⟨out', hfin⟩
    · -- The bytes end inside this cluster, so it is the last.
      have hlast : cs.length = 0 := by
        by_contra hpos
        have := Nat.le_mul_of_pos_right (512 * info.spc) (Nat.pos_of_ne_zero hpos)
        omega
      simp only [hret, Option.bind_some]
      simp [hlast]
    · simp only [hfin, Option.bind_some]
      cases cs with
      | nil =>
        rw [hchain.nextCluster_last]
        have hdone : need - 512 * info.spc = 0 := by
          simp only [List.length_nil, Nat.zero_add, Nat.mul_one] at hless
          omega
        simp [hdone]
      | cons c' cs =>
        obtain ⟨hnext, hcs⟩ := hchain.nextCluster_link
        simp only [List.length_cons, Nat.mul_add, Nat.mul_one] at hmore hless
        rw [hnext]
        simp only
        rw [ih hcs (by omega) (by rw [Nat.mul_add, Nat.mul_one]; omega)]
        simp

/-- A file that is not empty is a chain from its first cluster. -/
theorem IsFile.chain_cons {first n c : Nat} {cs : List Nat}
    (h : IsFile dev info first n (c :: cs)) : c = first ∧ Chain dev info (c :: cs) := by
  obtain ⟨hhead, hchain⟩ := h.chain (by simp)
  exact ⟨by simpa using hhead, hchain⟩

/-- A file without clusters is empty. -/
theorem IsFile.size_eq_zero {first n : Nat} (hspc : 0 < info.spc)
    (h : IsFile dev info first n []) : n = 0 := by
  have hcount := h.count
  have hpos : 0 < 512 * info.spc := by omega
  rw [List.length_nil, eq_comm, Nat.div_eq_zero_iff_lt hpos] at hcount
  omega

/-- A file is read to its end exactly when it is not empty and has at most a thousand
clusters. -/
theorem readFile_true_iff {first n : Nat} {clusters : List Nat} {out : List UInt8}
    (hread : AllRead dev info) (hspc : 0 < info.spc) (hfile : IsFile dev info first n clusters) :
    (∃ out', readFile dev info first n out = some (true, out')) ↔
      0 < n ∧ clusters.length ≤ 1000 := by
  have hcount := hfile.count
  have hpos : 0 < 512 * info.spc := by omega
  cases clusters with
  | nil =>
    rw [hfile.empty rfl, hfile.size_eq_zero hspc]
    simp [readFile, isChainEnd]
  | cons c cs =>
    obtain ⟨rfl, hchain⟩ := hfile.chain_cons
    have hlen : (cs.length + 1) * (512 * info.spc) ≤ n + 512 * info.spc - 1 := by
      rw [← Nat.le_div_iff_mul_le hpos, ← hcount, List.length_cons]
    have hlen' : n + 512 * info.spc - 1 < (cs.length + 1 + 1) * (512 * info.spc) := by
      rw [← Nat.div_lt_iff_lt_mul hpos, ← hcount, List.length_cons]
      omega
    rw [Nat.add_mul, Nat.one_mul, Nat.mul_comm cs.length] at hlen
    rw [Nat.add_mul, Nat.one_mul, Nat.mul_comm (cs.length + 1)] at hlen'
    rw [readFile, hchain.isData.1]
    simp only [Bool.false_eq_true, if_false]
    rw [readClusters_true_iff hread hchain (by omega) (by omega)]
    simp only [List.length_cons]
    constructor
    · intro hle
      exact ⟨by omega, hle⟩
    · exact fun h => h.2

end

/-- The sector that starts with these bytes. -/
def sectorOf (bytes : List UInt8) : Sector := fun x => bytes.getD x 0

/-- One sector for each cluster, a FAT of one sector behind two reserved ones. -/
def helloInfo : FatInfo where
  bytes := 512
  sectorsPerCluster := 1
  reservedSectors := 2
  fatCount := 2
  totalSectors := 16
  sectorsPerFat := 1
  rootCluster := 2
  dataStart := 4

/-- The text of `HELLO.TXT`. -/
def helloText : List UInt8 :=
  [0x48, 0x45, 0x4C, 0x4C, 0x4F, 0x20, 0x4C, 0x49,
    0x4F, 0x4E, 0x4F, 0x53, 0x20, 0x46, 0x41, 0x54]

/-- The root directory in cluster 2 with `HELLO.TXT`, which is cluster 3, and `EMPTY.TXT`,
which has no cluster. -/
def helloDisk : BlockDevice := fun lba =>
  if lba = 2 ∨ lba = 3 then
    some (sectorOf [0xF8, 0xFF, 0xFF, 0x0F, 0xFF, 0xFF, 0xFF, 0x0F, 0xFF, 0xFF, 0xFF, 0x0F,
      0xFF, 0xFF, 0xFF, 0x0F])
  else if lba = 4 then
    some (sectorOf [0x48, 0x45, 0x4C, 0x4C, 0x4F, 0x20, 0x20, 0x20, 0x54, 0x58, 0x54, 0x20,
      0, 0, 0, 0, 0, 0, 0, 0, 0, 0, 0, 0, 0, 0, 3, 0, 16, 0, 0, 0,
      0x45, 0x4D, 0x50, 0x54, 0x59, 0x20, 0x20, 0x20, 0x54, 0x58, 0x54, 0x20,
      0, 0, 0, 0, 0, 0, 0, 0, 0, 0, 0, 0, 0, 0, 0, 0, 0, 0, 0, 0])
  else if lba = 5 then some (sectorOf helloText)
  else some (sectorOf [])

/-- The whole file is read. -/
theorem readFile_hello :
    readFile helloDisk helloInfo 3 16 [] = some (true, helloText) ∧
      ∃ bytes, helloText = [] ++ bytes ∧ bytes.length ≤ 16 ∧
        IsStart helloDisk helloInfo (clusterAt helloDisk helloInfo 3) bytes ∧
        (true = true → bytes.length = 16) := by
  have hread : readFile helloDisk helloInfo 3 16 [] = some (true, helloText) := by decide
  exact ⟨hread, readFile_appends_start hread⟩

end LionOS.Fs
