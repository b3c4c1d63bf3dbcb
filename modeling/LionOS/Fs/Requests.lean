import LionOS.Fs.Boot

/-!
# The sectors a walk asks for

`read_file` and `list_dir` are one loop over the sectors of a chain with different bodies.
Run with a log, the loop also says which data sectors it has computed, in order. The
cluster numbers come from the disk and are bounded by the end-of-chain test alone.
-/

namespace LionOS.Fs

open Lib User

/-- What a loop over the sectors of a chain does: before it asks for a sector, when the
read fails, with the sector, and when the chain or the turns have ended. -/
structure Consumer (ρ σ : Type) where
  done : σ → Option ρ
  failed : σ → ρ
  take : σ → Sector → Outcome ρ σ
  ended : σ → ρ

namespace Consumer

variable {ρ σ : Type} (k : Consumer ρ σ)

/-- The sector loop, from sector `s` of a cluster on. The log has the sums as the source
writes them; one that does not fit stops the kernel. -/
def sectors (dev : BlockDevice) (firstSector : Nat) :
    (left s : Nat) → σ → List Nat × Option (Outcome ρ σ)
  | 0, _, st => ([], some (.finished st))
  | left + 1, s, st =>
    match k.done st with
    | some r => ([], some (.returned r))
    | none =>
      match checked32 (firstSector + s) with
      | none => ([firstSector + s], none)
      | some lba =>
        match dev lba with
        | none => ([firstSector + s], some (.returned (k.failed st)))
        | some b =>
          match k.take st b with
          | .returned r => ([firstSector + s], some (.returned r))
          | .finished st =>
            let r := sectors dev firstSector left (s + 1) st
            ((firstSector + s) :: r.1, r.2)

/-- The cluster loop with `turns` turns to go. -/
def clusters (dev : BlockDevice) (info : FatInfo) : (turns c : Nat) → σ → List Nat × Option ρ
  | 0, _, st => ([], some (k.ended st))
  | turns + 1, c, st =>
    match k.done st with
    | some r => ([], some r)
    | none =>
      if isChainEnd c then ([], some (k.ended st))
      else
        match checked32 (info.firstSector c) with
        | none => ([info.firstSector c], none)
        | some first =>
          let r := k.sectors dev first info.spc 0 st
          match r.2 with
          | none => (r.1, none)
          | some (.returned x) => (r.1, some x)
          | some (.finished st) =>
            match nextCluster dev info c with
            | some next =>
              let r' := clusters dev info turns next st
              (r.1 ++ r'.1, r'.2)
            | none => (r.1, some (k.ended st))

end Consumer

/-- The body of `read_file`; the state is what is still needed and what has been read. -/
def fileConsumer : Consumer (Bool × List UInt8) (Nat × List UInt8) where
  done st := if st.1 = 0 then some (true, st.2) else none
  failed st := (false, st.2)
  take st b := .finished (st.1 - min st.1 512, st.2 ++ sectorBytes b (min st.1 512))
  ended st := (st.1 == 0, st.2)

/-- The body of `list_dir`; the state is the pending long name and the entries. -/
def dirConsumer : Consumer (Bool × List DirEntry) (List LfnChunk × List DirEntry) where
  done _ := none
  failed st := (false, st.2)
  take st b :=
    match listRecords (records b) st.1 st.2 with
    | .returned out => .returned (true, out)
    | .finished st => .finished st
  ended st := (true, st.2)

section

variable {dev : BlockDevice} {info : FatInfo}

private theorem fileConsumer_sectors (firstSector left s need : Nat) (out : List UInt8) :
    (fileConsumer.sectors dev firstSector left s (need, out)).2 =
      readSectors dev firstSector left s need out := by
  induction left generalizing s need out with
  | zero => rfl
  | succ left ih =>
    rw [Consumer.sectors, readSectors]
    by_cases hneed : need = 0
    · simp [fileConsumer, hneed]
    · simp only [fileConsumer, hneed, if_false]
      cases checked32 (firstSector + s) with
      | none => rfl
      | some lba =>
        simp only [Option.bind_eq_bind, Option.bind_some]
        cases dev lba with
        | none => rfl
        | some b => exact ih ..

/-- The loop over the file's body is the one of `read_file`. -/
theorem fileConsumer_clusters (turns c need : Nat) (out : List UInt8) :
    (fileConsumer.clusters dev info turns c (need, out)).2 =
      readClusters dev info turns c need out := by
  induction turns generalizing c need out with
  | zero => rfl
  | succ turns ih =>
    rw [Consumer.clusters, readClusters]
    by_cases hneed : need = 0
    · simp [fileConsumer, hneed]
    · have hdone : fileConsumer.done (need, out) = none := if_neg hneed
      have hended : fileConsumer.ended (need, out) = (false, out) := by
        simp [fileConsumer, hneed]
      simp only [hdone, hneed, if_false]
      split
      · rw [hended]
      cases checked32 (info.firstSector c) with
      | none => rfl
      | some first =>
        simp only [Option.bind_eq_bind, Option.bind_some, ← fileConsumer_sectors]
        cases (fileConsumer.sectors dev first info.spc 0 (need, out)).2 with
        | none => rfl
        | some o =>
          cases o with
          | returned r => rfl
          | finished st =>
            simp only [Option.bind_some]
            cases nextCluster dev info c with
            | none => rfl
            | some next => exact ih ..

private theorem dirConsumer_sectors (firstSector left s : Nat) (lfn : List LfnChunk)
    (out : List DirEntry) :
    (dirConsumer.sectors dev firstSector left s (lfn, out)).2 =
      listSectors dev firstSector left s lfn out := by
  induction left generalizing s lfn out with
  | zero => rfl
  | succ left ih =>
    rw [Consumer.sectors, listSectors]
    simp only [dirConsumer]
    cases checked32 (firstSector + s) with
    | none => rfl
    | some lba =>
      simp only [Option.bind_eq_bind, Option.bind_some]
      cases dev lba with
      | none => rfl
      | some b =>
        simp only
        cases listRecords (records b) lfn out with
        | returned out' => rfl
        | finished st => exact ih ..

/-- The loop over the directory's body is the one of `list_dir`. -/
theorem dirConsumer_clusters (turns c : Nat) (lfn : List LfnChunk) (out : List DirEntry) :
    (dirConsumer.clusters dev info turns c (lfn, out)).2 =
      listClusters dev info turns c lfn out := by
  induction turns generalizing c lfn out with
  | zero => rfl
  | succ turns ih =>
    rw [Consumer.clusters, listClusters]
    have hdone : dirConsumer.done (lfn, out) = none := rfl
    simp only [hdone]
    split
    · rfl
    cases checked32 (info.firstSector c) with
    | none => rfl
    | some first =>
      simp only [Option.bind_eq_bind, Option.bind_some, ← dirConsumer_sectors]
      cases (dirConsumer.sectors dev first info.spc 0 (lfn, out)).2 with
      | none => rfl
      | some o =>
        cases o with
        | returned r => rfl
        | finished st =>
          simp only [Option.bind_some]
          cases nextCluster dev info c with
          | none => rfl
          | some next => exact ih ..

end

/-! ## Where the sectors lie -/

/-- The data sectors `read_file` asks for. -/
def readFileAsks (dev : BlockDevice) (info : FatInfo) (firstCluster size : Nat)
    (out : List UInt8) : List Nat :=
  if isChainEnd firstCluster then []
  else (fileConsumer.clusters dev info 1000 firstCluster (size, out)).1

/-- The data sectors `list_dir` asks for. -/
def listDirAsks (dev : BlockDevice) (info : FatInfo) (startCluster : Nat)
    (out : List DirEntry) : List Nat :=
  if isChainEnd startCluster then []
  else (dirConsumer.clusters dev info 1000 startCluster ([], out)).1

/-- The number of a data sector of the volume. -/
structure FatInfo.InVolume (info : FatInfo) (lba : Nat) : Prop where
  fits : lba < 2 ^ 32
  le : info.dataStart.toNat ≤ lba
  lt : lba < info.totalSectors.toNat

section

variable {ρ σ : Type} {k : Consumer ρ σ} {dev : BlockDevice} {info : FatInfo}

theorem Consumer.sectors_asks {firstSector left s a : Nat} {st : σ}
    (h : a ∈ (k.sectors dev firstSector left s st).1) :
    ∃ i, s ≤ i ∧ i < s + left ∧ a = firstSector + i := by
  induction left generalizing s st with
  | zero => simp [Consumer.sectors] at h
  | succ left ih =>
    have hthis : a ∈ [firstSector + s] → ∃ i, s ≤ i ∧ i < s + (left + 1) ∧ a = firstSector + i :=
      fun ha => ⟨s, le_rfl, by omega, List.mem_singleton.mp ha⟩
    rw [Consumer.sectors] at h
    split at h
    · simp at h
    split at h
    · exact hthis h
    split at h
    · exact hthis h
    split at h
    · exact hthis h
    · rcases List.mem_cons.mp h with rfl | h
      · exact ⟨s, le_rfl, by omega, rfl⟩
      · obtain ⟨i, hlo, hhi, rfl⟩ := ih h
        exact ⟨i, by omega, by omega, rfl⟩

/-- Every sector asked for lies in a cluster of the walk along the FAT. -/
theorem Consumer.clusters_asks (hspc : 0 < info.spc) {first turns i c a : Nat} {st : σ}
    (hc : isChainEnd c = false → clusterAt dev info first i = some c)
    (h : a ∈ (k.clusters dev info turns c st).1) :
    ∃ j c' s, clusterAt dev info first j = some c' ∧ s < info.spc ∧
      a = info.firstSector c' + s := by
  induction turns generalizing i c st with
  | zero => simp [Consumer.clusters] at h
  | succ turns ih =>
    rw [Consumer.clusters] at h
    split at h
    · simp at h
    split at h
    · simp at h
    next hend =>
    have hat := hc (Bool.eq_false_of_not_eq_true hend)
    split at h
    · exact ⟨i, c, 0, hat, hspc, List.mem_singleton.mp h⟩
    next lba hlba =>
    obtain rfl := checked32_eq_some hlba
    have hsector : a ∈ (k.sectors dev (info.firstSector c) info.spc 0 st).1 →
        ∃ j c' s, clusterAt dev info first j = some c' ∧ s < info.spc ∧
          a = info.firstSector c' + s := by
      intro ha
      obtain ⟨s, -, hs, rfl⟩ := Consumer.sectors_asks ha
      exact ⟨i, c, s, hat, by omega, rfl⟩
    dsimp only at h
    cases hr : (k.sectors dev (info.firstSector c) info.spc 0 st).2 with
    | none =>
      rw [hr] at h
      exact hsector h
    | some o =>
      rw [hr] at h
      cases o with
      | returned r => exact hsector h
      | finished st' =>
        cases hnext : nextCluster dev info c with
        | none =>
          rw [hnext] at h
          exact hsector h
        | some next =>
          rw [hnext] at h
          rcases List.mem_append.mp h with h | h
          · exact hsector h
          · refine ih (i := i + 1) (fun _ => ?_) h
            rw [clusterAt, hat, Option.bind_some, hnext]

/-- The walk never comes to a cluster the end-of-chain test stops at. -/
theorem isChainEnd_of_clusterAt {first i c : Nat} (h : clusterAt dev info first i = some c) :
    isChainEnd c = false := by
  cases i with
  | zero =>
    rw [clusterAt] at h
    split at h
    · simp at h
    next hend =>
      obtain rfl := Option.some.inj h
      exact Bool.eq_false_of_not_eq_true hend
  | succ i =>
    obtain ⟨c', -, hnext⟩ := Option.bind_eq_some_iff.mp h
    unfold nextCluster at hnext
    split at hnext
    · simp at hnext
    split at hnext
    · simp at hnext
    next hend =>
      obtain rfl := Option.some.inj hnext
      exact Bool.eq_false_of_not_eq_true hend

/-- What the sector loop of the first cluster asks for, the whole loop does. -/
theorem Consumer.mem_clusters {turns c a : Nat} {st : σ} (hdone : k.done st = none)
    (hend : isChainEnd c = false) (hfirst : info.firstSector c < 2 ^ 32)
    (h : a ∈ (k.sectors dev (info.firstSector c) info.spc 0 st).1) :
    a ∈ (k.clusters dev info (turns + 1) c st).1 := by
  rw [Consumer.clusters, hdone, hend, checked32_of_lt hfirst]
  simp only [Bool.false_eq_true, if_false]
  cases (k.sectors dev (info.firstSector c) info.spc 0 st).2 with
  | none => exact h
  | some o =>
    cases o with
    | returned r => exact h
    | finished st' =>
      cases nextCluster dev info c with
      | none => exact h
      | some next => exact List.mem_append_left _ h

/-- If every cluster of the walk lies in the volume, so does every sector asked for. -/
theorem Consumer.asks_inVolume (hspc : 0 < info.spc) {first : Nat} {st : σ}
    (hend : isChainEnd first = false)
    (hwalk : ∀ i c, clusterAt dev info first i = some c → info.IsData c) :
    ∀ a ∈ (k.clusters dev info 1000 first st).1, info.InVolume a := by
  intro a ha
  have hfirst : clusterAt dev info first 0 = some first := by simp [clusterAt, hend]
  obtain ⟨j, c, s, hat, hs, rfl⟩ := Consumer.clusters_asks hspc (fun _ => hfirst) ha
  have hdata := (hwalk j c hat).2
  have htotal := info.totalSectors.toNat_lt
  exact ⟨by omega, by rw [FatInfo.firstSector]; omega, by omega⟩

/-! ## Volumes for every cluster number -/

/-- A device whose sectors hold nothing but deleted records. -/
def deletedDevice : BlockDevice := fun _ => some fun _ => 0xE5

private theorem listRecords_of_deleted {rs : List Record} (h : ∀ r ∈ rs, r.name0 = 0xE5)
    (lfn : List LfnChunk) (out : List DirEntry) :
    ∃ lfn', listRecords rs lfn out = .finished (lfn', out) := by
  induction rs generalizing lfn with
  | nil => exact ⟨lfn, rfl⟩
  | cons r rs ih =>
    have hr := h r List.mem_cons_self
    have hdel : r.isDeleted = true := by simp [Record.isDeleted, hr]
    rw [listRecords, if_neg (by rw [hr]; decide), if_pos hdel]
    exact ih (fun r hr => h r (List.mem_cons_of_mem _ hr)) []

private theorem listRecords_deleted (lfn : List LfnChunk) (out : List DirEntry) :
    ∃ lfn', listRecords (records fun _ => 0xE5) lfn out = .finished (lfn', out) := by
  refine listRecords_of_deleted (fun r hr => ?_) lfn out
  obtain ⟨i, -, rfl⟩ := List.mem_map.mp hr
  rfl

/-- On such a device a listing asks for every sector up to the first that does not fit. -/
theorem mem_sectors_deleted {firstSector left s i : Nat} {lfn : List LfnChunk}
    {out : List DirEntry} (hlo : s ≤ i) (hhi : i < s + left)
    (hfits : ∀ j, s ≤ j → j < i → firstSector + j < 2 ^ 32) :
    firstSector + i ∈ (dirConsumer.sectors deletedDevice firstSector left s (lfn, out)).1 := by
  induction left generalizing s lfn with
  | zero => omega
  | succ left ih =>
    rw [Consumer.sectors]
    simp only [dirConsumer]
    by_cases hs : i = s
    · rw [hs]
      cases checked32 (firstSector + s) with
      | none => simp
      | some lba =>
        obtain ⟨lfn', hrecords⟩ := listRecords_deleted lfn out
        simp [deletedDevice, hrecords]
    · obtain ⟨lfn', hrecords⟩ := listRecords_deleted lfn out
      rw [checked32_of_lt (hfits s le_rfl (by omega))]
      simp only [deletedDevice, hrecords]
      refine List.mem_cons_of_mem _ (ih (by omega) (by omega) fun j hj hj' => ?_)
      exact hfits j (by omega) hj'

end

/-- The last cluster number the end-of-chain test lets through. -/
def lastWalkable : Nat := 0x0FFFFFF6

/-- **Where the walks stay in the volume.** For every accepted boot sector: on every device and
from every cluster, the data sectors `list_dir` and `read_file` ask for are computed
without overflow and lie in the volume, if and only if the volume has room for every
cluster number below the bad-cluster mark. -/
theorem asks_inVolume_iff {b : Slice} {info : FatInfo} (h : parseBoot b = some (.ok info)) :
    (∀ (dev : BlockDevice) (start : Nat),
      (∀ out, ∀ a ∈ listDirAsks dev info start out, info.InVolume a) ∧
        ∀ size out, ∀ a ∈ readFileAsks dev info start size out, info.InVolume a) ↔
      info.dataStart.toNat + 0x0FFFFFF5 * info.spc ≤ info.totalSectors.toNat := by
  have hspc := parseBoot_spc_pos h
  have htotal := info.totalSectors.toNat_lt
  constructor
  · intro hall
    by_contra hsmall
    have hfirst : info.firstSector lastWalkable =
        info.dataStart.toNat + 0x0FFFFFF4 * info.spc := rfl
    -- The first sector of the last cluster that is not in the volume.
    have hasked : info.firstSector lastWalkable +
        (info.totalSectors.toNat - info.firstSector lastWalkable) ∈
          listDirAsks deletedDevice info lastWalkable [] := by
      have hend : isChainEnd lastWalkable = false := by decide
      rw [listDirAsks, hend, if_neg Bool.false_ne_true]
      by_cases hfits : info.firstSector lastWalkable < 2 ^ 32
      · refine Consumer.mem_clusters rfl hend hfits (mem_sectors_deleted (Nat.zero_le _) ?_ ?_)
        · omega
        · intro j _ hj
          omega
      · have hwide : checked32 (info.firstSector lastWalkable) = none := if_neg hfits
        have hzero : info.totalSectors.toNat - info.firstSector lastWalkable = 0 := by omega
        rw [hzero, Consumer.clusters, hend, hwide]
        simp [dirConsumer]
    have hin := ((hall deletedDevice lastWalkable).1 [] _ hasked).lt
    omega
  · intro hroom dev start
    have hwalk : ∀ i c, clusterAt dev info start i = some c → info.IsData c := by
      intro i c hat
      have hend := isChainEnd_of_clusterAt hat
      refine ⟨hend, ?_⟩
      simp only [isChainEnd, Bool.or_eq_false_iff, decide_eq_false_iff_not] at hend
      have hmul : (c - 2) * info.spc + info.spc ≤ 0x0FFFFFF5 * info.spc := by
        rw [← Nat.succ_mul]
        exact Nat.mul_le_mul_right _ (by omega)
      rw [FatInfo.firstSector]
      omega
    constructor
    · intro out a ha
      rw [listDirAsks] at ha
      split at ha
      · simp at ha
      next hend =>
        exact Consumer.asks_inVolume hspc (Bool.eq_false_of_not_eq_true hend) hwalk a ha
    · intro size out a ha
      rw [readFileAsks] at ha
      split at ha
      · simp at ha
      next hend =>
        exact Consumer.asks_inVolume hspc (Bool.eq_false_of_not_eq_true hend) hwalk a ha

/-- A boot sector with one FAT of one sector after one reserved sector, the root in
cluster 2, and 32 bits of sector count. -/
def plainBoot (spc t0 t1 t2 t3 : UInt8) : Slice :=
  sectorSlice fun i =>
    match i with
    | 12 => 0x02
    | 13 => spc
    | 14 => 1
    | 16 => 1
    | 22 => 1
    | 32 => t0
    | 33 => t1
    | 34 => t2
    | 35 => t3
    | 44 => 2
    | 510 => 0x55
    | 511 => 0xAA
    | _ => 0

/-- A disk of 2^32 - 1 sectors with clusters of one sector. -/
theorem asks_inVolume_iff_large :
    ∃ info, parseBoot (plainBoot 1 0xFF 0xFF 0xFF 0xFF) = some (.ok info) ∧
      ∀ (dev : BlockDevice) (start : Nat),
        (∀ out, ∀ a ∈ listDirAsks dev info start out, info.InVolume a) ∧
          ∀ size out, ∀ a ∈ readFileAsks dev info start size out, info.InVolume a := by
  refine ⟨_, rfl, (asks_inVolume_iff (b := plainBoot 1 0xFF 0xFF 0xFF 0xFF) rfl).mpr ?_⟩
  decide

/-- On a disk of 2^16 sectors with clusters of 128, cluster 0x0FFFFFF6 is asked for at a
sector that does not fit 32 bits, and the kernel stops; with clusters of one sector, it is
asked for past the end of the volume. -/
theorem asks_not_inVolume :
    (∃ info, parseBoot (plainBoot 128 0 0 1 0) = some (.ok info) ∧
      listDirAsks deletedDevice info 0x0FFFFFF6 [] = [2 + 0x0FFFFFF4 * 128] ∧
      ¬ info.InVolume (2 + 0x0FFFFFF4 * 128) ∧
      listDir deletedDevice info 0x0FFFFFF6 [] = none) ∧
      ∃ info, parseBoot (plainBoot 1 0 0 1 0) = some (.ok info) ∧
        2 + 0x0FFFFFF4 ∈ readFileAsks deletedDevice info 0x0FFFFFF6 1 [] ∧
        ¬ info.InVolume (2 + 0x0FFFFFF4) := by
  refine ⟨⟨_, rfl, by decide, fun h => ?_, by decide⟩, ⟨_, rfl, by decide, fun h => ?_⟩⟩
  · exact absurd h.fits (by decide)
  · exact absurd h.lt (by decide)

end LionOS.Fs
