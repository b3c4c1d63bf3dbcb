import LionOS.Paging.Access

/-!
# Fresh regions

The heap, the descriptor tables and the user program each take a 512 GiB region of their
own: the lowest top-level index whose entry is not present, with a run of pages mapped from
the region's base on. A region taken so holds a mapped page, so its top-level entry is
present from then on and it is not taken again.
-/

namespace LionOS.Paging

open Lib Frames

/-- The base address of a top-level index: bits 48 to 63 are set in the high half. -/
def regionBase (idx : Fin 512) : Nat :=
  let virt := idx.val <<< 39
  if 256 ≤ idx.val then virt ||| 0xFFFF000000000000 else virt

namespace Machine

variable {σ : Type*} [FrameSource σ]

/-- Map `count` pages from `virtBase` on, each in a new frame. -/
def mapRange (s : Machine σ) (virtBase : Nat) : Nat → Except MapError Unit × Machine σ
  | 0 => (.ok (), s)
  | i + 1 =>
    match s.mapRange virtBase i with
    | (.error e, s) => (.error e, s)
    | (.ok (), s) =>
      match s.framePhys with
      | (.error e, s) => (.error e, s)
      | (.ok phys, s) => s.mapPage (virtBase + i * 4096) phys

end Machine

theorem regionBase_eq (idx : Fin 512) :
    regionBase idx = idx.val * 2 ^ 39 + if 256 ≤ idx.val then 0xFFFF * 2 ^ 48 else 0 := by
  have hlt : idx.val * 2 ^ 39 < 2 ^ 48 := by omega
  have hhigh : 0xFFFF000000000000 = 2 ^ 48 * 0xFFFF := rfl
  have hor := Nat.two_pow_add_eq_or_of_lt hlt 0xFFFF
  rw [regionBase, Nat.shiftLeft_eq]
  split_ifs
  · rw [hhigh, Nat.or_comm, ← hor, Nat.add_comm, Nat.mul_comm (2 ^ 48)]
  · exact (Nat.add_zero _).symm

/-- The addresses of a region are canonical and have its index. -/
theorem canonical_region (idx : Fin 512) {off : Nat} (hoff : off < 2 ^ 39) :
    Canonical (regionBase idx + off) ∧ index4 (regionBase idx + off) = idx := by
  have hidx := idx.isLt
  have hval : (index4 (regionBase idx + off) : Nat) = (regionBase idx + off) / 2 ^ 39 % 512 :=
    indexAt_val 39 _
  rw [Fin.ext_iff, hval, regionBase_eq, Canonical]
  split <;> omega

/-- Different pages of a region have different paths. -/
theorem path_region_injective (idx : Fin 512) {i j : Nat} (hi : i < 2 ^ 27) (hj : j < 2 ^ 27)
    (h : path (regionBase idx + i * 4096) = path (regionBase idx + j * 4096)) : i = j := by
  have hpage := page_eq_of_path_eq (canonical_region idx (by omega)).1
    (canonical_region idx (by omega)).1 h
  omega

namespace Machine

variable {σ : Type*}

/-- Nothing is mapped in a region whose top-level entry is not present. -/
theorem lookup_region_of_absent {s : Machine σ} {idx : Fin 512} {off : Nat} (hoff : off < 2 ^ 39)
    (h : tableRead s.mem s.pml4 idx &&& Pte.present = 0) :
    s.lookup (path (regionBase idx + off)) = (0, false) := by
  apply lookup_of_absent
  rw [(canonical_region idx hoff).2, h]

variable [FrameSource σ]

/-- Taking a frame keeps the machine sound. -/
theorem Sound.framePhys {P : Nat → Prop} {s s' : Machine σ} {phys : Nat} (hs : s.Sound P)
    (h : s.framePhys = (.ok phys, s')) : s'.Sound P ∧ s'.mem = s.mem ∧ s'.cr3 = s.cr3 := by
  unfold Machine.framePhys at h
  cases hf : s.allocateFrame with
  | none => simp [hf] at h
  | some ft =>
    obtain ⟨f, t⟩ := ft
    simp only [hf, Prod.mk.injEq] at h
    obtain ⟨-, rfl⟩ := h
    obtain ⟨frames, ha, rfl⟩ := allocateFrame_eq_some hf
    exact ⟨⟨hs.tree, (hs.supply.step ha).2.mono fun g hg => hg.1⟩, rfl, rfl⟩

/-- What mapping the first `n` pages of an empty region does: these pages are mapped, and no
other lookup changes. -/
structure Filled (P : Nat → Prop) (s s' : Machine σ) (idx : Fin 512) (n : Nat) : Prop where
  sound : s'.Sound P
  mapped : ∀ i < n, s'.translate (regionBase idx + i * 4096) &&& Pte.present ≠ 0
  other : ∀ q, q.length = 4 → (∀ i < n, q ≠ path (regionBase idx + i * 4096)) →
    s'.lookup q = s.lookup q

/-- A successful `map_range` fills the start of the region. -/
theorem mapRange_filled {P : Nat → Prop} {s s' : Machine σ} {idx : Fin 512} {n : Nat}
    (hs : s.Sound P) (habs : tableRead s.mem s.pml4 idx &&& Pte.present = 0) (hn : n ≤ 2 ^ 27)
    (h : s.mapRange (regionBase idx) n = (.ok (), s')) : Filled P s s' idx n := by
  induction n generalizing s' with
  | zero =>
    obtain ⟨-, rfl⟩ := Prod.mk.inj h
    exact ⟨hs, by simp, fun q hq hne => rfl⟩
  | succ n ih =>
    rw [mapRange] at h
    cases hr : s.mapRange (regionBase idx) n with
    | mk r s₁ =>
    simp only [hr] at h
    cases r with
    | error e => exact absurd h (by simp)
    | ok _ =>
    have hfilled := ih (by omega) hr
    cases hf : s₁.framePhys with
    | mk r s₂ =>
    simp only [hf] at h
    cases r with
    | error e => exact absurd h (by simp)
    | ok phys =>
    obtain ⟨hs₂, hmem, hcr3⟩ := hfilled.sound.framePhys hf
    have hsame : ∀ q, s₂.lookup q = s₁.lookup q := by
      intro q
      rw [lookup, lookup, hmem, pml4, pml4, hcr3]
    have hne : ∀ i < n, path (regionBase idx + n * 4096) ≠ path (regionBase idx + i * 4096) := by
      intro i hi hpath
      have := path_region_injective idx (by omega) (by omega) hpath
      omega
    have hempty : s₂.lookup (path (regionBase idx + n * 4096)) = (0, false) := by
      rw [hsame, hfilled.other _ rfl hne, lookup_region_of_absent (by omega) habs]
    obtain ⟨hs', -, ⟨⟨e, he⟩, -⟩ | ⟨-, hself, hother⟩⟩ :=
      mapPageImpl_spec hs₂ (congrArg Prod.snd hempty) h
    · exact absurd he (by simp)
    refine ⟨hs', fun i hi => ?_, fun q hq hqne => ?_⟩
    · rw [translate_eq]
      by_cases hin : i = n
      · rw [hin, hself]
        exact leafEntry_present phys false false
      · have hi' : i < n := by omega
        rw [hother _ rfl (hne i hi').symm, hsame, ← translate_eq]
        exact hfilled.mapped i hi'
    · rw [hother q hq (hqne n (by omega)), hsame,
        hfilled.other q hq fun i hi => hqne i (by omega)]

/-- One round: the free index is taken and pages are mapped from its base on. -/
structure Round (s s' : Machine σ) (idx : Fin 512) (count : Nat) : Prop where
  free : s.findFreeTopIndex = some idx
  pos : 1 ≤ count
  le : count ≤ 2 ^ 27
  ok : s.mapRange (regionBase idx) count = (.ok (), s')

/-- Rounds one after the other, with the index and the number of pages of each. -/
inductive Rounds (s : Machine σ) : List (Fin 512 × Nat) → Machine σ → Prop
  | nil : Rounds s [] s
  | snoc {rs : List (Fin 512 × Nat)} {s₁ s₂ : Machine σ} {idx : Fin 512} {count : Nat}
      (h : Rounds s rs s₁) (hr : Round s₁ s₂ idx count) : Rounds s (rs ++ [(idx, count)]) s₂

/-- A round keeps the machine sound and changes no page that was mapped. -/
theorem Round.spec {P : Nat → Prop} {s s' : Machine σ} {idx : Fin 512} {count : Nat}
    (h : Round s s' idx count) (hs : s.Sound P) :
    s'.Sound P ∧ (∀ i < count, s'.translate (regionBase idx + i * 4096) &&& Pte.present ≠ 0) ∧
      ∀ v, s.translate v &&& Pte.present ≠ 0 → s'.translate v = s.translate v := by
  have habs := absent_of_free h.free
  have hle := h.le
  have hfilled := mapRange_filled hs habs h.le h.ok
  refine ⟨hfilled.sound, hfilled.mapped, fun v hv => ?_⟩
  rw [translate_eq, translate_eq, hfilled.other (path v) rfl]
  intro i hi hpath
  apply hv
  have hempty := lookup_region_of_absent (by omega : i * 4096 < 2 ^ 39) habs
  rw [translate_eq, hpath, hempty, Nat.zero_and]

/-- After rounds the machine is sound, and the pages of every round are mapped. -/
theorem Rounds.spec {P : Nat → Prop} {s s' : Machine σ} {rs : List (Fin 512 × Nat)}
    (h : Rounds s rs s') (hs : s.Sound P) :
    s'.Sound P ∧ ∀ r ∈ rs, 1 ≤ r.2 ∧ r.2 ≤ 2 ^ 27 ∧
      ∀ i < r.2, s'.translate (regionBase r.1 + i * 4096) &&& Pte.present ≠ 0 := by
  induction h with
  | nil => exact ⟨hs, by simp⟩
  | @snoc rs s₁ s₂ idx count h hr ih =>
    obtain ⟨hs₁, hmapped⟩ := ih
    obtain ⟨hs₂, hnew, hkeep⟩ := hr.spec hs₁
    refine ⟨hs₂, fun r hmem => ?_⟩
    rcases List.mem_append.mp hmem with hold | hlast
    · obtain ⟨hpos, hle, hpages⟩ := hmapped r hold
      refine ⟨hpos, hle, fun i hi => ?_⟩
      rw [hkeep _ (hpages i hi)]
      exact hpages i hi
    · rw [List.mem_singleton.mp hlast]
      exact ⟨hr.pos, hr.le, hnew⟩

/-- The index of a round is none of those taken before: they have a mapped page. -/
theorem Round.fresh {P : Nat → Prop} {s s₁ s₂ : Machine σ} {rs : List (Fin 512 × Nat)}
    {idx : Fin 512} {count : Nat} (h : Rounds s rs s₁) (hr : Round s₁ s₂ idx count)
    (hs : s.Sound P) : idx ∉ rs.map Prod.fst := by
  intro hmem
  obtain ⟨r, hr', rfl⟩ := List.mem_map.mp hmem
  obtain ⟨hpos, -, hpages⟩ := (h.spec hs).2 r hr'
  apply hpages 0 hpos
  rw [translate_eq, lookup_region_of_absent (by decide) (absent_of_free hr.free), Nat.zero_and]

/-- The indices of the rounds are different. -/
theorem Rounds.nodup {P : Nat → Prop} {s s' : Machine σ} {rs : List (Fin 512 × Nat)}
    (h : Rounds s rs s') (hs : s.Sound P) : (rs.map Prod.fst).Nodup := by
  induction h with
  | nil => simp
  | @snoc rs s₁ s₂ idx count h hr ih =>
    rw [List.map_append, List.nodup_append]
    refine ⟨ih, by simp, ?_⟩
    rintro i hi j hj rfl
    obtain rfl := List.mem_singleton.mp hj
    exact hr.fresh h hs hi

/-- **Fresh regions never collide.** Over tables that form a tree, with an allocator that
hands out different frames of the 52-bit physical memory, none of them a table: after any
sequence of rounds the indices taken are different, each base is canonical with its index,
and all pages of each round are mapped, canonical and in the 512 GiB of its index. The next
round takes an index of its own and changes the translation of no page that is mapped. -/
theorem rounds_never_collide {s s' : Machine σ} {rs : List (Fin 512 × Nat)} (htree : s.Tree)
    (hsupply : Supplies s.frames fun f => f < 2 ^ 40 ∧ ¬ s.Reachable (f * 4096))
    (h : Rounds s rs s') :
    (rs.map Prod.fst).Nodup ∧
      (∀ r ∈ rs, Canonical (regionBase r.1) ∧ index4 (regionBase r.1) = r.1 ∧
        ∀ i < r.2, s'.translate (regionBase r.1 + i * 4096) &&& Pte.present ≠ 0 ∧
          Canonical (regionBase r.1 + i * 4096) ∧ index4 (regionBase r.1 + i * 4096) = r.1 ∧
          regionBase r.1 + i * 4096 + 4096 ≤ regionBase r.1 + 2 ^ 39) ∧
      ∀ idx count s'', Round s' s'' idx count → idx ∉ rs.map Prod.fst ∧
        ∀ v, s'.translate v &&& Pte.present ≠ 0 → s''.translate v = s'.translate v := by
  have hs := Sound.of_tree htree hsupply
  obtain ⟨hs', hmapped⟩ := h.spec hs
  refine ⟨h.nodup hs, fun r hr => ?_, fun idx count s'' hround => ?_⟩
  · obtain ⟨-, hle, hpages⟩ := hmapped r hr
    obtain ⟨hcan, hidx⟩ := canonical_region r.1 (by decide : 0 < 2 ^ 39)
    refine ⟨hcan, hidx, fun i hi => ⟨hpages i hi, ?_⟩⟩
    obtain ⟨hcan, hidx⟩ := canonical_region r.1 (by omega : i * 4096 < 2 ^ 39)
    exact ⟨hcan, hidx, by omega⟩
  · exact ⟨hround.fresh h hs, (hround.spec hs').2.2⟩

end Machine

/-- A page in the first region of a blank machine: the next round takes another region. -/
theorem rounds_never_collide_blank :
    ∃ s', Machine.Rounds blankMachine [(0, 1)] s' ∧ s'.translate 0 &&& Pte.present ≠ 0 ∧
      ∀ idx count s'', Machine.Round s' s'' idx count → idx ≠ 0 := by
  have hfree : blankMachine.findFreeTopIndex = some 0 := by
    rw [Machine.findFreeTopIndex, @List.finRange_succ 511]
    exact List.find?_cons_of_pos (by decide)
  have hok : (blankMachine.mapRange (regionBase 0) 1).1 = .ok () := by decide +kernel
  obtain ⟨s', hround⟩ : ∃ s', Machine.Round blankMachine s' 0 1 :=
    ⟨_, hfree, le_rfl, by omega, Prod.fst_eq_iff.mp hok⟩
  have hrounds := Machine.Rounds.snoc .nil hround
  obtain ⟨-, hpages, hnext⟩ := Machine.rounds_never_collide blankMachine_tree
    blankMachine_supplies hrounds
  have hpage := ((hpages (0, 1) (by simp)).2.2 0 Nat.one_pos).1
  have hbase : regionBase 0 + 0 * 4096 = 0 := rfl
  dsimp only at hpage
  rw [hbase] at hpage
  refine ⟨_, hrounds, hpage, ?_⟩
  rintro idx count s'' hr rfl
  exact (hnext 0 count s'' hr).1 (by simp)

end LionOS.Paging
