import LionOS.Fs.Directory
import Mathlib.Data.List.Flatten
import Mathlib.Tactic.Ring

/-!
# The walk of a listing

Nothing is asked of the FAT here: it may loop, leave the volume or end anywhere. A
listing walks it for a thousand clusters at most and scans the sectors of the clusters
it visits, one after another. Each entry is traced to the place on the disk it was
read from. A place is listed once for each visit of its cluster, so on a walk without
a repeat no place is listed twice.
-/

namespace LionOS.Fs

open Lib

/-- The clusters visited from `c` on with `turns` turns to go. -/
def walkClusters (dev : BlockDevice) (info : FatInfo) : (turns c : Nat) → List Nat
  | 0, _ => []
  | turns + 1, c =>
    if isChainEnd c then []
    else
      c :: match nextCluster dev info c with
        | some next => walkClusters dev info turns next
        | none => []

/-- The sectors of a cluster. -/
def FatInfo.sectors (info : FatInfo) (c : Nat) : List Nat :=
  (List.range info.spc).map (info.firstSector c + ·)

/-- The listing loops as one loop over sectors. -/
def listOver (dev : BlockDevice) :
    List Nat → List LfnChunk → List DirEntry → Option (Bool × List DirEntry)
  | [], _, out => some (true, out)
  | lba :: lbas, lfn, out => do
    let lba ← checked32 lba
    match dev lba with
    | none => some (false, out)
    | some buf =>
      match listRecords (records buf) lfn out with
      | .returned out => some (true, out)
      | .finished (lfn, out) => listOver dev lbas lfn out

/-- The sectors a directory at `c` is looked for in. -/
def walkSectors (dev : BlockDevice) (info : FatInfo) (turns c : Nat) : List Nat :=
  (walkClusters dev info turns c).flatMap info.sectors

theorem walkClusters_length (dev : BlockDevice) (info : FatInfo) (turns c : Nat) :
    (walkClusters dev info turns c).length ≤ turns := by
  induction turns generalizing c with
  | zero => exact le_rfl
  | succ turns ih =>
    rw [walkClusters]
    split
    · simp
    cases nextCluster dev info c with
    | none => simp
    | some next => simpa using ih next

/-- No walk visits the reserved clusters. -/
theorem two_le_of_mem_walkClusters {dev : BlockDevice} {info : FatInfo} {turns c c' : Nat}
    (h : c' ∈ walkClusters dev info turns c) : 2 ≤ c' := by
  induction turns generalizing c with
  | zero => simp [walkClusters] at h
  | succ turns ih =>
    rw [walkClusters] at h
    split at h
    · simp at h
    next hend =>
    rcases List.mem_cons.mp h with rfl | h
    · simp only [isChainEnd, Bool.or_eq_true, decide_eq_true_eq, not_or] at hend
      omega
    · cases hnext : nextCluster dev info c with
      | none => simp [hnext] at h
      | some next =>
        simp only [hnext] at h
        exact ih h

section

variable {dev : BlockDevice} {info : FatInfo}

/-- The walk along a chain visits its clusters. -/
theorem Chain.walkClusters_eq {c : Nat} {cs : List Nat} (h : Chain dev info (c :: cs))
    (turns : Nat) : walkClusters dev info turns c = (c :: cs).take turns := by
  induction turns generalizing c cs with
  | zero => rfl
  | succ turns ih =>
    rw [walkClusters, h.isData.1, List.take_succ_cons]
    simp only [Bool.false_eq_true, if_false]
    cases cs with
    | nil => rw [h.nextCluster_last, List.take_nil]
    | cons c' cs =>
      obtain ⟨hnext, htail⟩ := h.nextCluster_link
      rw [hnext]
      exact congrArg _ (ih htail)

/-- The sector loop, and then the sectors behind the cluster. -/
theorem listOver_range' (firstSector left s : Nat) (lbas : List Nat) (lfn : List LfnChunk)
    (out : List DirEntry) :
    listOver dev ((List.range' s left).map (firstSector + ·) ++ lbas) lfn out =
      (listSectors dev firstSector left s lfn out).bind fun o =>
        match o with
        | .returned r => some r
        | .finished (lfn, out) => listOver dev lbas lfn out := by
  induction left generalizing s lfn out with
  | zero => rfl
  | succ left ih =>
    rw [List.range'_succ, List.map_cons, List.cons_append, listOver, listSectors]
    simp only [Option.bind_eq_bind, Option.bind_assoc]
    refine congrArg _ (funext fun lba => ?_)
    cases dev lba with
    | none => rfl
    | some buf =>
      cases hrecords : listRecords (records buf) lfn out with
      | returned out' => simp only [hrecords, Option.bind_some]
      | finished st =>
        simp only [hrecords]
        exact ih ..

/-- The number of a cluster's first sector is checked once more with the sector itself. -/
private theorem checked32_firstSector_bind {β : Type} (c : Nat) (lfn : List LfnChunk)
    (out : List DirEntry)
    (f : Outcome (Bool × List DirEntry) (List LfnChunk × List DirEntry) → Option β) :
    (checked32 (info.firstSector c)).bind
        (fun first => (listSectors dev first info.spc 0 lfn out).bind f) =
      (listSectors dev (info.firstSector c) info.spc 0 lfn out).bind f := by
  by_cases hlt : info.firstSector c < 2 ^ 32
  · rw [checked32_of_lt hlt, Option.bind_some]
  · -- A cluster without sectors starts where cluster 2 does, which is in range.
    have hspc : info.spc ≠ 0 := by
      intro hzero
      have hstart := info.dataStart.toNat_lt
      rw [FatInfo.firstSector, hzero] at hlt
      omega
    obtain ⟨left, hleft⟩ := Nat.exists_eq_succ_of_ne_zero hspc
    rw [hleft, listSectors, Nat.add_zero, checked32, if_neg hlt]
    rfl

/-- The cluster loop is the loop over the sectors of the walk. -/
theorem listClusters_eq_listOver (turns c : Nat) (lfn : List LfnChunk) (out : List DirEntry) :
    listClusters dev info turns c lfn out =
      listOver dev (walkSectors dev info turns c) lfn out := by
  induction turns generalizing c lfn out with
  | zero => rfl
  | succ turns ih =>
    rw [listClusters, walkSectors, walkClusters]
    split
    · rfl
    rw [List.flatMap_cons, FatInfo.sectors, List.range_eq_range', listOver_range']
    refine (checked32_firstSector_bind ..).trans (congrArg _ (funext fun o => ?_))
    cases o with
    | returned r => rfl
    | finished st =>
      cases nextCluster dev info c with
      | none => rfl
      | some next => exact ih ..

/-- A listing is the loop over the sectors of a walk of a thousand clusters. -/
theorem listDir_eq_listOver (c : Nat) (out : List DirEntry) :
    listDir dev info c out = listOver dev (walkSectors dev info 1000 c) [] out := by
  rw [listDir]
  split
  next hend =>
    rw [walkSectors, walkClusters, if_pos hend]
    rfl
  · exact listClusters_eq_listOver ..

/-- A sector with an end-of-directory record. -/
def hasEnd (b : Sector) : Bool := (records b).any fun r => r.name0 == 0

/-- The sectors a listing has looked at when it is left: those in front of the first that
cannot be read, up to the one with the end-of-directory record. -/
def looked (dev : BlockDevice) : List Nat → List Nat
  | [] => []
  | lba :: lbas =>
    match dev lba with
    | none => []
    | some b => lba :: if hasEnd b then [] else looked dev lbas

/-- The record loop returns at an end-of-directory record, and only there. -/
theorem listRecords_returned_iff {rs : List Record} {lfn : List LfnChunk} {out : List DirEntry} :
    (∃ out', listRecords rs lfn out = .returned out') ↔ rs.any (fun r => r.name0 == 0) = true := by
  induction rs generalizing lfn out with
  | nil => simp [listRecords]
  | cons r rs ih =>
    rw [listRecords, List.any_cons]
    split
    · next hend => simp [hend]
    next hend =>
    have hne : (r.name0 == 0) = false := by simpa using hend
    rw [hne, Bool.false_or]
    split
    · exact ih
    split
    · exact ih
    · exact ih

/-- The loop over the sectors lists one scan of those it looks at. -/
theorem listOver_entries {lbas : List Nat} {lfn : List LfnChunk} {out out' : List DirEntry}
    {ok : Bool} (h : listOver dev lbas lfn out = some (ok, out')) :
    out' = out ++ (scan lfn ((looked dev lbas).flatMap (sectorRecords dev))).map Prod.snd := by
  rw [← listRecords_entries]
  induction lbas generalizing lfn out with
  | nil =>
    simp only [listOver, Option.some.injEq, Prod.mk.injEq] at h
    exact h.2.symm
  | cons lba lbas ih =>
    rw [listOver] at h
    obtain ⟨lba', hlba, hstep⟩ := Option.bind_eq_some_iff.mp h
    obtain rfl := checked32_eq_some hlba
    rw [looked]
    cases hdev : dev lba' with
    | none =>
      simp only [hdev, Option.some.injEq, Prod.mk.injEq] at hstep
      exact hstep.2.symm
    | some buf =>
      have hrecords : sectorRecords dev lba' = records buf := by simp only [sectorRecords, hdev]
      have hend := @listRecords_returned_iff (records buf) lfn out
      simp only [hdev] at hstep
      rw [List.flatMap_cons, hrecords, listRecords_append]
      cases hlist : listRecords (records buf) lfn out with
      | returned out₁ =>
        simp only [hlist, Option.some.injEq, Prod.mk.injEq] at hstep
        exact hstep.2.symm
      | finished st =>
        obtain ⟨lfn₁, out₁⟩ := st
        have hno : hasEnd buf = false := by
          rw [hasEnd, ← Bool.not_eq_true, ← hend, hlist]
          simp
        simp only [hlist] at hstep
        simp only [hno, Bool.false_eq_true, if_false]
        exact ih hstep

end

/-! ## Where the entries come from -/

/-- The place of a record on the disk: its sector and its offset there. -/
abbrev Place := Nat × Nat

/-- The records of the sector at `lba` with their places. -/
def placedRecords (dev : BlockDevice) (lba : Nat) : List (Place × Record) :=
  (sectorRecords dev lba).map fun r => ((lba, r.off), r)

/-- The scan, with each entry traced to the place of its record. -/
def scanPlaced : List LfnChunk → List (Place × Record) → List (Place × DirEntry)
  | _, [] => []
  | lfn, (place, r) :: rs =>
    if r.name0 = 0 then []
    else if r.isDeleted then scanPlaced [] rs
    else if r.isLong then scanPlaced (lfn ++ [r.chunk]) rs
    else (place, r.entry lfn) :: scanPlaced [] rs

/-- The entries a listing of the directory at `c` appends, each with the place it comes
from. -/
def reports (dev : BlockDevice) (info : FatInfo) (c : Nat) : List (Place × DirEntry) :=
  scanPlaced [] ((looked dev (walkSectors dev info 1000 c)).flatMap (placedRecords dev))

/-- The record is neither deleted nor a long name. -/
def Record.isLive (r : Record) : Bool := !r.isDeleted && !r.isLong

/-- The places of a sector's live records, up to the end-of-directory record. -/
def livePlaces (dev : BlockDevice) (lba : Nat) : List Place :=
  ((beforeEnd (sectorRecords dev lba)).filter Record.isLive).map fun r => (lba, r.off)

/-- The cluster a sector belongs to. -/
def FatInfo.clusterOf (info : FatInfo) (lba : Nat) : Nat :=
  2 + (lba - info.dataStart.toNat) / info.spc

theorem scanPlaced_map_snd (lfn : List LfnChunk) (rs : List (Place × Record)) :
    (scanPlaced lfn rs).map Prod.snd = (scan lfn (rs.map Prod.snd)).map Prod.snd := by
  induction rs generalizing lfn with
  | nil => rfl
  | cons p rs ih =>
    obtain ⟨place, r⟩ := p
    simp only [scanPlaced, List.map_cons, scan]
    split
    · rfl
    split
    · exact ih _
    split
    · exact ih _
    · simp only [List.map_cons, ih]

/-- The places listed are those of the live records. -/
theorem scanPlaced_map_fst (lfn : List LfnChunk) (rs : List (Place × Record)) :
    (scanPlaced lfn rs).map Prod.fst =
      ((rs.takeWhile fun p => p.2.name0 != 0).filter fun p => p.2.isLive).map Prod.fst := by
  induction rs generalizing lfn with
  | nil => rfl
  | cons p rs ih =>
    obtain ⟨place, r⟩ := p
    rw [scanPlaced]
    by_cases hend : r.name0 = 0
    · rw [if_pos hend, List.takeWhile_cons_of_neg (by simp [hend])]
      rfl
    rw [if_neg hend, List.takeWhile_cons_of_pos (by simp [hend]), List.filter_cons]
    cases hdel : r.isDeleted with
    | true =>
      simp only [if_true, Record.isLive, hdel, Bool.not_true, Bool.false_and, Bool.false_eq_true,
        if_false]
      exact ih _
    | false =>
      cases hlong : r.isLong with
      | true =>
        simp only [if_true, Record.isLive, hdel, hlong, Bool.not_true, Bool.and_false,
          Bool.false_eq_true, if_false]
        exact ih _
      | false =>
        simp only [Record.isLive, hdel, hlong, Bool.not_false, Bool.and_self, Bool.false_eq_true,
          if_false, if_true, List.map_cons, ih]

/-- An entry is that of the record at its place. -/
theorem exists_of_mem_scanPlaced {lfn : List LfnChunk} {rs : List (Place × Record)}
    {p : Place × DirEntry} (h : p ∈ scanPlaced lfn rs) :
    ∃ r lfn', (p.1, r) ∈ rs ∧ p.2 = r.entry lfn' := by
  induction rs generalizing lfn with
  | nil => simp [scanPlaced] at h
  | cons q rs ih =>
    obtain ⟨place, r⟩ := q
    have htail : ∀ {lfn}, p ∈ scanPlaced lfn rs →
        ∃ r' lfn', (p.1, r') ∈ (place, r) :: rs ∧ p.2 = r'.entry lfn' := by
      intro lfn h
      obtain ⟨r', lfn', hmem, he⟩ := ih h
      exact ⟨r', lfn', List.mem_cons_of_mem _ hmem, he⟩
    rw [scanPlaced] at h
    split at h
    · simp at h
    split at h
    · exact htail h
    split at h
    · exact htail h
    · rcases List.mem_cons.mp h with rfl | h
      · exact ⟨r, lfn, List.mem_cons_self .., rfl⟩
      · exact htail h

/-- Elements that come from one place of a list are no more often in the image than the
place in the list. -/
theorem count_flatMap_le {α β : Type*} [BEq α] [LawfulBEq α] [BEq β] [LawfulBEq β]
    {f : α → List β} {l : List α} {a : α} {b : β} (hnodup : ∀ x ∈ l, (f x).Nodup)
    (hsource : ∀ x ∈ l, b ∈ f x → x = a) : (l.flatMap f).count b ≤ l.count a := by
  induction l with
  | nil => simp
  | cons x l ih =>
    have htail := ih (fun y hy => hnodup y (List.mem_cons_of_mem _ hy))
      fun y hy => hsource y (List.mem_cons_of_mem _ hy)
    rw [List.flatMap_cons, List.count_append, List.count_cons]
    by_cases hb : b ∈ f x
    · have hx := hsource x (List.mem_cons_self ..) hb
      have hone := List.nodup_iff_count_le_one.mp (hnodup x (List.mem_cons_self ..)) b
      simp only [hx, beq_self_eq_true, if_true] at hone ⊢
      omega
    · rw [List.count_eq_zero_of_not_mem hb]
      omega

section

variable {dev : BlockDevice} {info : FatInfo}

theorem looked_sublist (lbas : List Nat) : (looked dev lbas).Sublist lbas := by
  induction lbas with
  | nil => exact List.Sublist.slnil
  | cons lba lbas ih =>
    rw [looked]
    cases dev lba with
    | none => exact List.nil_sublist _
    | some b =>
      refine List.Sublist.cons_cons lba ?_
      split
      · exact List.nil_sublist _
      · exact ih

private theorem placedRecords_live (lba : Nat) :
    (((placedRecords dev lba).takeWhile fun p => p.2.name0 != 0).filter fun p => p.2.isLive).map
      Prod.fst = livePlaces dev lba := by
  rw [placedRecords, List.takeWhile_map, List.filter_map, List.map_map]
  rfl

/-- The places listed, sector by sector. -/
theorem scanPlaced_looked (lfn : List LfnChunk) (lbas : List Nat) :
    (scanPlaced lfn ((looked dev lbas).flatMap (placedRecords dev))).map Prod.fst =
      (looked dev lbas).flatMap (livePlaces dev) := by
  rw [scanPlaced_map_fst]
  induction lbas with
  | nil => rfl
  | cons lba lbas ih =>
    have hlive := @placedRecords_live dev lba
    rw [looked]
    cases hdev : dev lba with
    | none => rfl
    | some b =>
      cases hend : hasEnd b with
      | true =>
        simp only [hend, if_true, List.flatMap_cons, List.flatMap_nil, List.append_nil, hlive]
      | false =>
        have hall : ∀ p ∈ placedRecords dev lba, (p.2.name0 != 0) = true := by
          intro p hp
          simp only [placedRecords, sectorRecords, hdev] at hp
          obtain ⟨r, hr, rfl⟩ := List.mem_map.mp hp
          simpa [bne, hend] using List.any_eq_false.mp hend r hr
        rw [List.takeWhile_eq_self_iff.mpr hall] at hlive
        simp only [hend, Bool.false_eq_true, if_false, List.flatMap_cons]
        rw [List.takeWhile_append_of_pos hall, List.filter_append, List.map_append, hlive, ih]

theorem mem_livePlaces {lba : Nat} {place : Place} (h : place ∈ livePlaces dev lba) :
    lba = place.1 := by
  obtain ⟨r, -, rfl⟩ := List.mem_map.mp h
  rfl

theorem livePlaces_nodup (lba : Nat) : (livePlaces dev lba).Nodup := by
  have hoffsets : ((sectorRecords dev lba).map fun r => (lba, r.off)).Nodup := by
    rw [sectorRecords]
    cases dev lba with
    | none => exact List.nodup_nil
    | some b =>
      simp only [records, List.map_map]
      refine List.nodup_range.map fun i j hij => ?_
      have hoff : i * 32 = j * 32 := congrArg Prod.snd hij
      omega
  have hlive : ((beforeEnd (sectorRecords dev lba)).filter Record.isLive).Sublist
      (sectorRecords dev lba) :=
    List.filter_sublist.trans (List.takeWhile_sublist _)
  exact hoffsets.sublist (hlive.map _)

private theorem clusterOf_of_mem_sectors {c lba : Nat} (hc : 2 ≤ c) (h : lba ∈ info.sectors c) :
    c = info.clusterOf lba := by
  obtain ⟨s, hs, rfl⟩ := List.mem_map.mp h
  have hlt := List.mem_range.mp hs
  have hdiv : ((c - 2) * info.spc + s) / info.spc = c - 2 := by
    rw [Nat.mul_comm, Nat.mul_add_div (by omega), Nat.div_eq_of_lt hlt, Nat.add_zero]
  rw [FatInfo.clusterOf, FatInfo.firstSector, Nat.add_assoc, Nat.add_sub_cancel_left, hdiv]
  omega

/-- A sector is looked at once for each visit of its cluster. -/
private theorem count_walkSectors_le (turns c lba : Nat) :
    (walkSectors dev info turns c).count lba ≤
      (walkClusters dev info turns c).count (info.clusterOf lba) :=
  count_flatMap_le (fun _ _ => List.nodup_range.map fun _ _ h => Nat.add_left_cancel h)
    fun _ hx hmem => clusterOf_of_mem_sectors (two_le_of_mem_walkClusters hx) hmem

/-- A place is listed at most once for each visit of its cluster. -/
theorem count_reports_le (c : Nat) (place : Place) :
    ((reports dev info c).map Prod.fst).count place ≤
      (walkClusters dev info 1000 c).count (info.clusterOf place.1) := by
  rw [reports, scanPlaced_looked]
  calc ((looked dev (walkSectors dev info 1000 c)).flatMap (livePlaces dev)).count place
      ≤ (looked dev (walkSectors dev info 1000 c)).count place.1 :=
        count_flatMap_le (fun lba _ => livePlaces_nodup lba) fun _ _ => mem_livePlaces
    _ ≤ (walkSectors dev info 1000 c).count place.1 := (looked_sublist _).count_le place.1
    _ ≤ (walkClusters dev info 1000 c).count (info.clusterOf place.1) :=
        count_walkSectors_le ..

/-- The places of a listing are distinct when no sector with a live record is looked at
twice, and only then. -/
theorem reports_nodup_iff (c : Nat) :
    ((reports dev info c).map Prod.fst).Nodup ↔
      ((looked dev (walkSectors dev info 1000 c)).filter fun lba =>
        !(livePlaces dev lba).isEmpty).Nodup := by
  rw [reports, scanPlaced_looked, List.nodup_flatMap]
  refine Iff.trans ?_ List.pairwise_filter.symm
  constructor
  · rintro ⟨-, hdisjoint⟩
    refine hdisjoint.imp fun {lba lba'} hdis hlive hlive' heq => ?_
    subst heq
    obtain ⟨place, hplace⟩ := List.exists_mem_of_ne_nil _ (by simpa using hlive)
    exact hdis hplace hplace
  · intro hpairwise
    refine ⟨fun lba _ => livePlaces_nodup lba, hpairwise.imp fun {lba lba'} hne place hp hp' => ?_⟩
    have hlba := mem_livePlaces hp
    have hlba' := mem_livePlaces hp'
    refine hne ?_ ?_ (hlba.trans hlba'.symm)
    · simpa using List.ne_nil_of_mem hp
    · simpa using List.ne_nil_of_mem hp'

/-- What a listing appends are the entries reported. -/
theorem listDir_eq_reports {c : Nat} {out out' : List DirEntry} {ok : Bool}
    (h : listDir dev info c out = some (ok, out')) :
    out' = out ++ (reports dev info c).map Prod.snd := by
  rw [listDir_eq_listOver] at h
  rw [listOver_entries h, reports, scanPlaced_map_snd, List.map_flatMap]
  simp only [placedRecords, List.map_map, Function.comp_def, List.map_id']

/-- **Where a listing's entries come from.** Whatever the device holds, from any cluster: the
walk is cut off after a thousand clusters, each entry that is appended is that of the
record at its place, and a place is listed no more often than the walk visits its
cluster. The places are pairwise distinct exactly when no sector with a live record is
looked at twice, and so on every walk that visits no cluster twice. -/
theorem listDir_places {c : Nat} {out out' : List DirEntry} {ok : Bool}
    (h : listDir dev info c out = some (ok, out')) :
    out' = out ++ (reports dev info c).map Prod.snd ∧
      (∀ p ∈ reports dev info c, ∃ b lfn,
        dev p.1.1 = some b ∧ p.2 = Record.entry ⟨b, p.1.2⟩ lfn) ∧
      (walkClusters dev info 1000 c).length ≤ 1000 ∧
      (∀ place, ((reports dev info c).map Prod.fst).count place ≤
        (walkClusters dev info 1000 c).count (info.clusterOf place.1)) ∧
      (((reports dev info c).map Prod.fst).Nodup ↔
        ((looked dev (walkSectors dev info 1000 c)).filter fun lba =>
          !(livePlaces dev lba).isEmpty).Nodup) ∧
      ((walkClusters dev info 1000 c).Nodup → ((reports dev info c).map Prod.fst).Nodup) := by
  refine ⟨listDir_eq_reports h, ?_, walkClusters_length .., count_reports_le c,
    reports_nodup_iff c, fun hnodup => ?_⟩
  · intro p hp
    obtain ⟨r, lfn, hmem, he⟩ := exists_of_mem_scanPlaced hp
    obtain ⟨lba, -, hmem⟩ := List.mem_flatMap.mp hmem
    obtain ⟨r', hr', heq⟩ := List.mem_map.mp hmem
    obtain ⟨hplace, rfl⟩ := Prod.mk.inj heq
    rw [sectorRecords] at hr'
    cases hdev : dev lba with
    | none => simp [hdev] at hr'
    | some b =>
      simp only [hdev] at hr'
      obtain ⟨i, -, rfl⟩ := List.mem_map.mp hr'
      refine ⟨b, lfn, ?_, ?_⟩
      · rw [← hplace]
        exact hdev
      · rw [← hplace]
        exact he
  · rw [List.nodup_iff_count_le_one] at hnodup ⊢
    exact fun place => (count_reports_le c place).trans (hnodup _)

end

/-- The root directory of the disk with two files. -/
theorem listDir_places_hello :
    ∃ out, listDir helloDisk helloInfo 2 [] = some (true, out) ∧
      out = [] ++ (reports helloDisk helloInfo 2).map Prod.snd ∧
      ((reports helloDisk helloInfo 2).map Prod.fst).Nodup := by
  have hlist := @listDir_eq _ _ helloDisk_allRead _ _ [] (helloDisk_chain (Or.inl rfl))
  have hwalk : walkClusters helloDisk helloInfo 1000 2 = [2] := by decide
  obtain ⟨hout, -, -, -, -, hnodup⟩ := listDir_places hlist
  exact ⟨_, hlist, hout, hnodup (by rw [hwalk]; decide)⟩

/-- Sectors with 32-bit numbers do not stop the kernel. -/
theorem listOver_isSome {dev : BlockDevice} {lbas : List Nat} (h : ∀ lba ∈ lbas, lba < 2 ^ 32)
    (lfn : List LfnChunk) (out : List DirEntry) : ∃ r, listOver dev lbas lfn out = some r := by
  induction lbas generalizing lfn out with
  | nil => exact ⟨_, rfl⟩
  | cons lba lbas ih =>
    have htail := ih fun lba hlba => h lba (List.mem_cons_of_mem _ hlba)
    rw [listOver, checked32_of_lt (h lba (List.mem_cons_self ..))]
    simp only [Option.bind_eq_bind, Option.bind_some]
    cases dev lba with
    | none => exact ⟨_, rfl⟩
    | some buf =>
      cases hrecords : listRecords (records buf) lfn out with
      | returned out' =>
        simp only [hrecords]
        exact ⟨_, rfl⟩
      | finished st =>
        simp only [hrecords]
        exact htail ..

/-- The FAT links cluster 2 to itself, and every other byte of the disk is a letter. -/
def loopDisk : BlockDevice := fun lba =>
  if lba = 2 then some (sectorOf [0xF8, 0xFF, 0xFF, 0x0F, 0xFF, 0xFF, 0xFF, 0x0F, 2])
  else some fun _ => 0x41

theorem loopDisk_walk (turns : Nat) :
    walkClusters loopDisk helloInfo turns 2 = List.replicate turns 2 := by
  have hnext : nextCluster loopDisk helloInfo 2 = some 2 := by decide
  induction turns with
  | zero => rfl
  | succ turns ih =>
    rw [walkClusters, hnext, List.replicate_succ]
    simp only [ih]
    rfl

private theorem loopDisk_looked (n : Nat) :
    looked loopDisk (List.replicate n 4) = List.replicate n 4 := by
  induction n with
  | zero => rfl
  | succ n ih =>
    have hend : hasEnd (fun _ => 0x41) = false := by decide
    rw [List.replicate_succ, looked, loopDisk, if_neg (by decide)]
    simp only [hend, Bool.false_eq_true, if_false]
    exact congrArg _ ih

/-- The first record of the directory is listed a thousand times. -/
theorem record_listed_again :
    ∃ ok, listDir loopDisk helloInfo 2 [] =
        some (ok, [] ++ (reports loopDisk helloInfo 2).map Prod.snd) ∧
      ((reports loopDisk helloInfo 2).map Prod.fst).count (4, 0) = 1000 ∧
      ¬ ((reports loopDisk helloInfo 2).map Prod.fst).Nodup := by
  have hsectors : walkSectors loopDisk helloInfo 1000 2 = List.replicate 1000 4 := by
    rw [walkSectors, loopDisk_walk, List.flatMap_replicate,
      show helloInfo.sectors 2 = [4] by decide, List.flatten_replicate_singleton]
  have hcount : ((reports loopDisk helloInfo 2).map Prod.fst).count (4, 0) = 1000 := by
    have hone : (livePlaces loopDisk 4).count (4, 0) = 1 := by decide
    rw [reports, hsectors, scanPlaced_looked, loopDisk_looked, List.count_flatMap,
      List.map_replicate, List.sum_replicate_nat]
    simp only [Function.comp_apply, hone]
  have hsmall : ∀ lba ∈ List.replicate 1000 4, lba < 2 ^ 32 := by
    intro lba hlba
    rw [List.eq_of_mem_replicate hlba]
    decide
  obtain ⟨⟨ok, out⟩, hlist⟩ := @listOver_isSome loopDisk _ hsmall [] []
  rw [← hsectors, ← listDir_eq_listOver] at hlist
  refine ⟨ok, by rw [← listDir_eq_reports hlist]; exact hlist, hcount, fun hnodup => ?_⟩
  have hle := List.nodup_iff_count_le_one.mp hnodup (4, 0)
  omega

end LionOS.Fs
