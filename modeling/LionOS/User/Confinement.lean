import LionOS.Paging.UserRegion
import LionOS.User.UserRange

/-!
# Where ring 3 can get to

A program is loaded below one top-level entry that was free. What `bring_up` maps there and
what it or the program stores there keeps the region a memory of its own: its pages have
frames that nothing else uses, ring 3 can reach them, and it can reach nothing else.
-/

namespace LionOS.User

open Lib Paging

variable {σ : Type} [FrameSource σ]

/-- The region below top-level entry `i` is a memory of its own, and the one ring 3 has. -/
def Confines (i : Fin 512) (m₀ : Mem) (H : Nat → Prop) (s : Machine σ) : Prop :=
  ∃ frame A, Shows (i.val * 2 ^ 39) InRegion m₀ H frame s A ∧ s.Enclosed i

omit [FrameSource σ] in
theorem index4_region {i : Fin 512} {v : Nat} (hv : v < 2 ^ 39) :
    index4 (i.val * 2 ^ 39 + v) = i := by
  apply Fin.ext
  rw [index4, indexAt_val]
  have := i.isLt
  omega

section

variable {i : Fin 512} {m₀ : Mem} {H : Nat → Prop} {s s' : Machine σ} {v w : Nat}

/-- The tables do not lie in a frame of the region. -/
theorem sameTables_of_shows {base : Nat} {frame : Nat → Option Nat} {A : AddressSpace UInt8}
    (h : Shows base InRegion m₀ H frame s A) {f : Nat} (hf : frame (v / 4096) = some f)
    (b : UInt8) :
    s.SameTables (setByte s.mem (f * 4096 + v % 4096) b) := by
  apply Machine.sameTables_setByte
  have hoff : v % 4096 < 4096 := Nat.mod_lt _ (by omega)
  rw [show (f * 4096 + v % 4096) / 4096 * 4096 = f * 4096 from by omega]
  exact (h.data _ f hf).2.2

/-- In the region ring 3 can reach what is mapped. -/
theorem Confines.userAccessible_iff (h : Confines i m₀ H s) (hlt : i.val < 256)
    (hv : v < 2 ^ 39) : s.UserAccessible (i.val * 2 ^ 39 + v) ↔
      (s.loadByte (i.val * 2 ^ 39 + v)).isSome = true := by
  obtain ⟨frame, A, hshow, henc⟩ := h
  rw [henc.userAccessible_iff (index4_region hv), Machine.loadByte,
    hshow.physical (isWindow_of_lt hlt) hv]
  cases hf : frame (v / 4096) with
  | none =>
    rw [hshow.blank v hv hf]
    simp
  | some f =>
    obtain ⟨nx, hleaf⟩ := hshow.leaf v hv f hf
    rw [hleaf]
    simp [Machine.leafEntry_present]

/-- Outside it ring 3 can reach nothing. -/
theorem Confines.region_of_accessible (h : Confines i m₀ H s) (hlt : i.val < 256)
    (ha : s.UserAccessible v) (hv : Canonical v) : ∃ w < 2 ^ 39, v = i.val * 2 ^ 39 + w := by
  obtain ⟨-, -, -, henc⟩ := h
  have hindex : index4 v = i := by
    by_contra hne
    exact henc.outside v hv hne ha
  have hval : v / 2 ^ 39 % 512 = i.val := by
    rw [← hindex, index4, indexAt_val]
  have hpage : v / 2 ^ 39 < 512 ∨ 2 ^ 25 - 256 ≤ v / 2 ^ 39 := by
    rcases hv with hv | hv <;> omega
  refine ⟨v % 2 ^ 39, Nat.mod_lt _ (by omega), ?_⟩
  rcases hv with hv | hv <;> omega

/-- What a store to the region does. It changes no translation and nothing of what ring 3 can
reach; a byte of the region is read as before unless it is the one stored; and no other byte
of memory changes. -/
theorem Confines.store (h : Confines i m₀ H s) (hlt : i.val < 256) (hv : v < 2 ^ 39) {b : UInt8}
    (hs' : s.storeByte (i.val * 2 ^ 39 + v) b = some s') :
    Confines i m₀ H s' ∧ (∀ w, s'.translate w = s.translate w) ∧
      (∀ w, s'.UserAccessible w ↔ s.UserAccessible w) ∧
      (∀ w < 2 ^ 39, s'.physical (i.val * 2 ^ 39 + w) = s.physical (i.val * 2 ^ 39 + w) ∧
        s'.loadByte (i.val * 2 ^ 39 + w) =
          if w = v then some b else s.loadByte (i.val * 2 ^ 39 + w)) ∧
      ∀ x, s.physical (i.val * 2 ^ 39 + v) ≠ some x → s'.mem x = s.mem x := by
  obtain ⟨frame, A, hshow, henc⟩ := h
  have hb : IsWindow (i.val * 2 ^ 39) InRegion := isWindow_of_lt hlt
  have hphys := hshow.physical hb hv
  cases hf : frame (v / 4096) with
  | none =>
    rw [hf] at hphys
    rw [Machine.storeByte, hphys] at hs'
    exact absurd hs' (by simp)
  | some f =>
    have hsame := sameTables_of_shows hshow hf b
    have hmapped : A v ≠ .unmapped := by
      intro hA
      have hnone := (hshow.cells v hv).eq_none_iff.mpr hA
      exact absurd (hf.symm.trans hnone) (by simp)
    obtain ⟨m, -, hs'', hshow'⟩ := hshow.storeByte hb hv hmapped b
    rw [hf, Option.map_some] at hphys
    simp only [Machine.storeByte, hphys, Option.map_some, Option.some.injEq] at hs' hs''
    rw [← hs''] at hshow'
    subst hs'
    have hwalk : ∀ w < 2 ^ 39, (s.setMem (setByte s.mem (f * 4096 + v % 4096) b)).physical
        (i.val * 2 ^ 39 + w) = s.physical (i.val * 2 ^ 39 + w) := by
      intro w hw
      rw [hshow'.physical hb hw, hshow.physical hb hw]
    refine ⟨⟨frame, _, hshow', hsame.enclosed henc⟩, fun w => ?_, fun w => ?_,
      fun w hw => ⟨hwalk w hw, ?_⟩, fun x hx => ?_⟩
    · rw [Machine.translate_eq, Machine.translate_eq, hsame.lookup_eq rfl]
    · exact hsame.userAccessible_iff
    · simp only [Machine.loadByte, hwalk w hw, Machine.setMem_mem]
      by_cases hwv : w = v
      · subst hwv
        rw [if_pos rfl, hphys, Option.map_some, setByte_self]
      · rw [if_neg hwv]
        refine Option.map_congr fun x hx => setByte_of_ne _ _ ?_
        rintro rfl
        rw [hshow.physical hb hw] at hx
        obtain ⟨g, hg, hx⟩ := Option.map_eq_some_iff.mp hx
        have hoff : w % 4096 < 4096 := Nat.mod_lt _ (by omega)
        have hoff' : v % 4096 < 4096 := Nat.mod_lt _ (by omega)
        have hgf : g = f := by omega
        have hpage := hshow.inj _ _ f (hgf ▸ hg) hf
        omega
    · refine setByte_of_ne _ _ ?_
      rintro rfl
      exact hx hphys

/-- A new page of the region, also where it takes the place of another. -/
theorem Confines.mapNew (h : Confines i m₀ H s) (hlt : i.val < 256) (hv : v < 2 ^ 39)
    {writable : Bool} (hs' : mapNew writable (i.val * 2 ^ 39 + v) s = .ok s') :
    Confines i m₀ H s' := by
  obtain ⟨frame, A, hshow, henc⟩ := h
  rcases mapNew_cases writable (i.val * 2 ^ 39 + v) s with hdry | ⟨f, frames, s₁, ha, hmap, hok⟩
  · exact absurd (hs'.symm.trans hdry) (by simp)
  obtain rfl := Except.ok.inj (hok.symm.trans hs')
  rcases hshow.mapNew (isWindow_of_lt hlt) hv writable with hdry | ⟨frame', s₂, hok', hshow'⟩
  · exact absurd (hs'.symm.trans hdry) (by simp)
  obtain rfl := Except.ok.inj (hok'.symm.trans hs')
  have hs₁ := (hshow.sound.supply.step ha).2
  have hsound : Machine.Sound (fun _ => True) { s with frames := frames } :=
    ⟨hshow.sound.tree, hs₁.mono fun g hg => ⟨hg.1.1, hg.1.2.1, trivial⟩⟩
  have henc₁ : Machine.Enclosed i { s with frames := frames } := ⟨henc.inside, henc.outside⟩
  exact ⟨frame', _, hshow', henc₁.map hsound (hshow.not_stopped hv) (index4_region hv) hmap⟩

/-- File bytes copied to the region. -/
theorem Confines.copyTo (h : Confines i m₀ H s) (hlt : i.val < 256) {n : Nat}
    (hv : v + n ≤ 2 ^ 39) {src : Nat → UInt8}
    (hs' : s.copyTo src (i.val * 2 ^ 39 + v) n = some s') : Confines i m₀ H s' := by
  induction n generalizing s' with
  | zero =>
    obtain rfl := Option.some.inj hs'
    exact h
  | succ n ih =>
    obtain ⟨s₁, hs₁, hlast⟩ := Option.bind_eq_some_iff.mp hs'
    rw [Nat.add_assoc] at hlast
    exact ((ih (by omega) hs₁).store hlt (by omega) hlast).1

end

omit [FrameSource σ] in
theorem copyBytes_ok {elf : Slice} {off vaddr n : Nat} {s s' : Machine σ}
    (h : copyBytes elf off vaddr n s = .ok s') :
    s.copyTo (fun k => elf.mem (off + k)) vaddr n = some s' := by
  unfold copyBytes at h
  split at h
  next => exact absurd h (by simp)
  next hc => rw [hc, Except.ok.inj h]

/-- The machine after the stack is mapped. -/
theorem mapStack_ok {base : Nat} {elf : Slice} {segs : List Segment} {s : Machine σ}
    {l₁ : Loader σ} {l : Loaded σ} (h₁ : loadLoop base elf ⟨s, [], 0⟩ segs = .ok l₁)
    (hok : mapStack base l₁ = .ok l) :
    ∃ s', mapNew true (base + stackIndex segs * 4096) l₁.machine = .ok s' ∧ l.machine = s' := by
  obtain ⟨stop, hs, hok⟩ := bind_eq_ok.mp hok
  obtain ⟨page, hp, hok⟩ := bind_eq_ok.mp hok
  obtain ⟨s', hnew, hok⟩ := bind_eq_ok.mp hok
  obtain ⟨top, -, hok⟩ := bind_eq_ok.mp hok
  obtain ⟨hstop, rfl⟩ := checked_eq_ok hs
  obtain ⟨-, rfl⟩ := checked_eq_ok hp
  obtain rfl := Except.ok.inj hok
  have hmask : l₁.maxEnd + 0xFFF &&& pageMask = stackIndex segs * 4096 := by
    rw [and_pageMask hstop, (loadLoop_mapped h₁).2]
    rfl
  rw [hmask] at hnew
  exact ⟨s', hnew, rfl⟩

section

variable {i : Fin 512} {m₀ : Mem} {H : Nat → Prop} {elf : Slice} {g : Segment}
  {l l' : Loader σ} (hlt : i.val < 256)

include hlt

theorem loadPage_confines (hin : g.vaddr + g.memsz ≤ 2 ^ 39) (hsz : g.filesz ≤ g.memsz) {k : Nat}
    (hk : k < g.pages) (h : Confines i m₀ H l.machine)
    (hok : loadPage (i.val * 2 ^ 39) elf g l k = .ok l') : Confines i m₀ H l'.machine := by
  have hk' : k * 4096 < g.memsz := by
    unfold Segment.pages at hk
    omega
  obtain ⟨vaddr, hvaddr, hok⟩ := bind_eq_ok.mp hok
  obtain ⟨s, hs, hok⟩ := bind_eq_ok.mp hok
  obtain ⟨fileStart, -, hok⟩ := bind_eq_ok.mp hok
  obtain ⟨s', hs', hok⟩ := bind_eq_ok.mp hok
  obtain ⟨-, rfl⟩ := checked_eq_ok hvaddr
  obtain rfl := Except.ok.inj hok
  rw [Nat.add_assoc] at hs hs'
  have hmap := h.mapNew hlt (v := g.vaddr + k * 4096) (by omega) hs
  exact hmap.copyTo hlt (by omega) (copyBytes_ok hs')

theorem loadPages_confines (hin : g.vaddr + g.memsz ≤ 2 ^ 39) (hsz : g.filesz ≤ g.memsz) {n : Nat}
    (hn : n ≤ g.pages) (h : Confines i m₀ H l.machine)
    (hok : loadPages (i.val * 2 ^ 39) elf g l n = .ok l') : Confines i m₀ H l'.machine := by
  induction n generalizing l' with
  | zero =>
    obtain rfl := Except.ok.inj hok
    exact h
  | succ n ih =>
    obtain ⟨l₁, h₁, hok⟩ := bind_eq_ok.mp hok
    exact loadPage_confines hlt hin hsz (by omega) (ih (by omega) h₁) hok

theorem loadLoop_confines {segs : List Segment} (hin : ∀ g ∈ segs, g.vaddr + g.memsz ≤ 2 ^ 39)
    (hsz : ∀ g ∈ segs, g.filesz ≤ g.memsz) (h : Confines i m₀ H l.machine)
    (hok : loadLoop (i.val * 2 ^ 39) elf l segs = .ok l') : Confines i m₀ H l'.machine := by
  induction segs generalizing l with
  | nil =>
    obtain rfl := Except.ok.inj hok
    exact h
  | cons g segs ih =>
    have hg : g ∈ g :: segs := List.mem_cons_self
    obtain ⟨l₁, h₁, hok⟩ := bind_eq_ok.mp hok
    obtain ⟨-, -, h₁⟩ := bind_eq_ok.mp h₁
    obtain ⟨l₂, h₂, h₁⟩ := bind_eq_ok.mp h₁
    obtain ⟨stop, -, h₁⟩ := bind_eq_ok.mp h₁
    obtain rfl := Except.ok.inj h₁
    have hpages := loadPages_confines hlt (hin g hg) (hsz g hg) le_rfl h h₂
    exact ih (l := ⟨l₂.machine, l₂.mapped, max l₂.maxEnd stop⟩)
      (fun e he => hin e (List.mem_cons_of_mem _ he))
      (fun e he => hsz e (List.mem_cons_of_mem _ he)) hpages hok

/-- A program that has been brought up is confined to its region. -/
theorem loadProgram_confines {s : Machine σ} {segs : List Segment} {l : Loaded σ}
    (htree : s.Tree) (hsupply : Supplies s.frames fun f => f < 2 ^ 40 ∧ ¬ s.Reachable (f * 4096))
    (hclosed : ∀ v, Canonical v → ¬ s.UserAccessible v) (hfree : s.findFreeTopIndex = some i)
    (hin : ∀ g ∈ segs, g.vaddr + g.memsz + 4096 ≤ 2 ^ 39) (hsz : ∀ g ∈ segs, g.filesz ≤ g.memsz)
    (hok : loadProgram (i.val * 2 ^ 39) elf segs s = .ok l) :
    Confines i s.mem (fun f => ∃ n, f ∈ handed n s.frames) l.machine := by
  have hempty := shows_empty htree hsupply (vacant_of_free hfree) (m := s.mem) fun _ _ => rfl
  have hstart : Confines i s.mem (fun f => ∃ n, f ∈ handed n s.frames) s :=
    ⟨_, _, hempty, .of_free hfree hclosed⟩
  obtain ⟨l₁, h₁, hok⟩ := bind_eq_ok.mp hok
  have hloop := loadLoop_confines hlt (fun g hg => by have := hin g hg; omega) hsz hstart h₁
  obtain ⟨s', hnew, rfl⟩ := mapStack_ok h₁ hok
  have hroom := stackIndex_le hin
  exact hloop.mapNew hlt (by omega) hnew

omit hlt in
/-- Every byte of a loadable program is a byte of the file. -/
theorem Loadable.backed {segs : List Segment} (hload : Loadable segs) (hd : Describes elf segs)
    (hg : g ∈ segs) {v : Nat} (hv : g.Covers v) : v - g.vaddr < g.filesz := by
  obtain ⟨B, hB⟩ : ∃ B, AddressSpace.empty.run 4096 (steps elf segs) = some B := hload.run
  obtain ⟨b, hcell⟩ := hload.holds hd.filesz_le hd.disjoint hB hg hv
  exact (eq_of_run_holds hd.filesz_le hd.disjoint hB hg hv hcell).1

/-- The stack does not take the place of any page of a loadable program. -/
theorem loadProgram_image {s : Machine σ} {segs : List Segment} {l : Loaded σ}
    (htree : s.Tree) (hsupply : Supplies s.frames fun f => f < 2 ^ 40 ∧ ¬ s.Reachable (f * 4096))
    (hfree : s.findFreeTopIndex = some i) (hd : Describes elf segs) (hload : Loadable segs)
    (hin : ∀ g ∈ segs, g.vaddr + g.memsz + 4096 ≤ 2 ^ 39)
    (hok : loadProgram (i.val * 2 ^ 39) elf segs s = .ok l) :
    HasImage (i.val * 2 ^ 39) elf segs l.machine := by
  have hb : IsWindow (i.val * 2 ^ 39) InRegion := isWindow_of_lt hlt
  have hempty := shows_empty htree hsupply (vacant_of_free hfree) (m := s.mem) fun _ _ => rfl
  have hin' : ∀ g ∈ segs, g.Within InRegion := fun g hg =>
    Segment.within_of_le ((Nat.le_add_right ..).trans (hin g hg))
  obtain ⟨l₁, h₁, hok⟩ := bind_eq_ok.mp hok
  obtain ⟨B, hB⟩ : ∃ B, AddressSpace.empty.run 4096 (steps elf segs) = some B := hload.run
  rcases loadLoop_agrees hb hin' hd.filesz_le hd.in_file (l := ⟨s, [], 0⟩) hempty with
    hdry | ⟨hfault, -⟩ | ⟨l₂, frame, B', h₂, hB', hshow⟩
  · exact absurd (h₁.symm.trans hdry) (by simp)
  · exact absurd (h₁.symm.trans hfault) (by simp)
  obtain rfl := Except.ok.inj (h₂.symm.trans h₁)
  obtain rfl := Option.some.inj (hB'.symm.trans hB)
  obtain ⟨s', hnew, rfl⟩ := mapStack_ok h₁ hok
  have hroom := stackIndex_le hin
  rcases hshow.mapNew hb (v := stackIndex segs * 4096) (by omega) true with
    hdry | ⟨frame', s'', hnew', hshow'⟩
  · exact absurd (hnew.symm.trans hdry) (by simp)
  obtain rfl := Except.ok.inj (hnew'.symm.trans hnew)
  rw [Nat.mul_div_cancel _ (by omega)] at hshow'
  intro g hg k hk
  have hv : g.Covers (g.vaddr + k) := ⟨by omega, by omega⟩
  obtain ⟨b, hcell⟩ := hload.holds hd.filesz_le hd.disjoint hB hg hv
  obtain ⟨hk', rfl⟩ := eq_of_run_holds hd.filesz_le hd.disjoint hB hg hv hcell
  have hread := hshow'.loadByte hb ((hin' g hg).covers _ hv)
  have hbelow : (g.vaddr + k) / 4096 ≠ stackIndex segs := by
    have := lt_stackIndex.mpr ⟨g, hg, (by omega : (g.vaddr + k) / 4096 * 4096 < g.vaddr + g.memsz)⟩
    omega
  rw [AddressSpace.mapPage, if_neg hbelow, hcell] at hread
  rw [Nat.add_sub_cancel_left] at hk' hread
  rw [Nat.add_assoc, if_pos hk']
  exact hread

end

end LionOS.User
