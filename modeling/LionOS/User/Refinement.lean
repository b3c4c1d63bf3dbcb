import LionOS.Paging.Kept
import LionOS.User.Loader
import LionOS.User.Placement

/-!
# The load loop fills an address space

Seen from the addresses of the program, the machine is an address space: each page
has a data frame of its own or none, and the frames still to come hold what they
held before the load. Mapping a new frame and copying through the tables then act
as the steps of the address space do, and so does the whole load loop, unless the
frame allocator runs dry.
-/

namespace LionOS.User

open Lib Paging

/-- Addresses above a page-aligned base, all of them canonical. -/
structure IsWindow (base : Nat) (W : Nat → Prop) : Prop where
  aligned : base % 4096 = 0
  canonical : ∀ v, W v → Canonical (base + v)

/-- The window of the 512 GiB above the base. -/
abbrev InRegion (v : Nat) : Prop := v < 2 ^ 39

section

variable {base v w : Nat} {W : Nat → Prop} (hb : IsWindow base W)

include hb

theorem IsWindow.lt_word (hv : W v) : base + v < 2 ^ 64 := by
  rcases hb.canonical v hv with h | h <;> omega

theorem IsWindow.page_add (v : Nat) : (base + v) / 4096 = base / 4096 + v / 4096 := by
  have := hb.aligned
  omega

theorem IsWindow.offset_add (v : Nat) : (base + v) % 4096 = v % 4096 := by
  have := hb.aligned
  omega

/-- Inside the window a path belongs to one page. -/
theorem IsWindow.path_eq_iff (hv : W v) (hw : W w) :
    path (base + v) = path (base + w) ↔ v / 4096 = w / 4096 := by
  constructor
  · intro h
    have hpage := page_eq_of_path_eq (hb.canonical v hv) (hb.canonical w hw) h
    rw [hb.page_add, hb.page_add] at hpage
    omega
  · intro h
    apply path_eq_of_page_eq
    rw [hb.page_add, hb.page_add, h]

end

/-- The segment's addresses lie in the window, and its end is a machine word. -/
structure Segment.Within (W : Nat → Prop) (g : Segment) : Prop where
  covers : ∀ v, g.Covers v → W v
  stop_lt : g.vaddr + g.memsz < 2 ^ 64

theorem Segment.within_of_le {g : Segment} (h : g.vaddr + g.memsz ≤ 2 ^ 39) :
    g.Within InRegion :=
  ⟨fun _ hv => lt_of_lt_of_le hv.2 h, by omega⟩

/-- No more than 2^47 canonical addresses lie side by side. -/
theorem Segment.Within.memsz_le {base : Nat} {W : Nat → Prop} {g : Segment} (hg : g.Within W)
    (hb : IsWindow base W) : g.memsz ≤ 2 ^ 47 := by
  by_contra hlarge
  have hfirst := hb.canonical g.vaddr (hg.covers _ ⟨le_rfl, by omega⟩)
  have hnext := hb.canonical (g.vaddr + 2 ^ 47) (hg.covers _ ⟨by omega, by omega⟩)
  unfold Canonical at hfirst hnext
  omega

/-- What offset `off` of a page holds when the page's frame is `frame`. The memory before
the load is `m₀`. -/
def CellIn (m₀ m : Mem) (frame : Option Nat) (off : Nat) : Cell UInt8 → Prop
  | .unmapped => frame = none
  | .stale => ∃ f, frame = some f ∧ m (f * 4096 + off) = m₀ (f * 4096 + off)
  | .holds b => ∃ f, frame = some f ∧ m (f * 4096 + off) = b

/-- Memory that is the same in the page's frame holds the same. -/
theorem CellIn.congr {m₀ m m' : Mem} {frame : Option Nat} {off : Nat} {c : Cell UInt8}
    (h : CellIn m₀ m frame off c)
    (hm : ∀ f, frame = some f → m' (f * 4096 + off) = m (f * 4096 + off)) :
    CellIn m₀ m' frame off c := by
  cases c with
  | unmapped => exact h
  | stale =>
    obtain ⟨f, hf, hv⟩ := h
    exact ⟨f, hf, (hm f hf).trans hv⟩
  | holds b =>
    obtain ⟨f, hf, hv⟩ := h
    exact ⟨f, hf, (hm f hf).trans hv⟩

theorem CellIn.eq_none_iff {m₀ m : Mem} {frame : Option Nat} {off : Nat} {c : Cell UInt8}
    (h : CellIn m₀ m frame off c) : frame = none ↔ c = .unmapped := by
  cases c with
  | unmapped => exact ⟨fun _ => rfl, fun _ => h⟩
  | stale =>
    obtain ⟨f, hf, -⟩ := h
    simp [hf]
  | holds b =>
    obtain ⟨f, hf, -⟩ := h
    simp [hf]

variable {σ : Type} [FrameSource σ]

/-- The machine `s` shows the address space `A` in the window `W` at `base`. Page `p` of the
window is in data frame `frame p`; the frames to come satisfy `H`. -/
structure Shows (base : Nat) (W : Nat → Prop) (m₀ : Mem) (H : Nat → Prop) (frame : Nat → Option Nat)
    (s : Machine σ) (A : AddressSpace UInt8) : Prop where
  sound : s.Sound fun f =>
    H f ∧ (∀ p, frame p ≠ some f) ∧ ∀ x, x / 4096 = f → s.mem x = m₀ x
  blank : ∀ v, W v → frame (v / 4096) = none → s.lookup (path (base + v)) = (0, false)
  leaf : ∀ v, W v → ∀ f, frame (v / 4096) = some f →
    ∃ nx, s.lookup (path (base + v)) = (Machine.leafEntry (f * 4096) true nx, false)
  data : ∀ p f, frame p = some f → H f ∧ f < 2 ^ 40 ∧ ¬ s.Reachable (f * 4096)
  inj : ∀ p q f, frame p = some f → frame q = some f → p = q
  cells : ∀ v, W v → CellIn m₀ s.mem (frame (v / 4096)) (v % 4096) (A v)

section

variable {base : Nat} {W : Nat → Prop} {m₀ : Mem} {H : Nat → Prop} {frame : Nat → Option Nat}
  {s : Machine σ} {A : AddressSpace UInt8} {v : Nat}

/-- The walk to a page of the window meets no huge entry. -/
theorem Shows.not_stopped (h : Shows base W m₀ H frame s A) (hv : W v) :
    (s.lookup (path (base + v))).2 = false := by
  cases hf : frame (v / 4096) with
  | none => rw [h.blank v hv hf]
  | some f =>
    obtain ⟨nx, hl⟩ := h.leaf v hv f hf
    rw [hl]

/-- An address of the window is accessed in its page's frame. -/
theorem Shows.physical (hb : IsWindow base W) (h : Shows base W m₀ H frame s A) (hv : W v) :
    s.physical (base + v) = (frame (v / 4096)).map fun f => f * 4096 + v % 4096 := by
  cases hf : frame (v / 4096) with
  | none => exact Machine.physical_of_blank (hb.canonical v hv) (h.blank v hv hf)
  | some f =>
    obtain ⟨nx, hl⟩ := h.leaf v hv f hf
    have hlt := (h.data _ f hf).2.1
    rw [Machine.physical_of_leaf (hb.canonical v hv) (by omega) (by omega) hl, hb.offset_add]
    rfl

/-- What is read at an address of the window. -/
theorem Shows.loadByte (hb : IsWindow base W) (h : Shows base W m₀ H frame s A) (hv : W v) :
    match A v with
    | .unmapped => s.loadByte (base + v) = none
    | .stale => ∃ f, H f ∧ s.loadByte (base + v) = some (m₀ (f * 4096 + v % 4096))
    | .holds b => s.loadByte (base + v) = some b := by
  have hcell := h.cells v hv
  rw [Machine.loadByte, h.physical hb hv]
  cases hA : A v with
  | unmapped =>
    rw [hA] at hcell
    rw [show frame (v / 4096) = none from hcell]
    rfl
  | stale =>
    rw [hA] at hcell
    obtain ⟨f, hf, hm⟩ := hcell
    refine ⟨f, (h.data _ f hf).1, ?_⟩
    rw [hf, Option.map_some, Option.map_some, hm]
  | holds b =>
    rw [hA] at hcell
    obtain ⟨f, hf, hm⟩ := hcell
    change Option.map s.mem (Option.map _ (frame (v / 4096))) = some b
    rw [hf, Option.map_some, Option.map_some, hm]

end

/-! ## Mapping a page -/

/-- `mapNew` takes a frame and maps it, or runs out of frames. -/
theorem mapNew_cases (writable : Bool) (vaddr : Nat) (s : Machine σ) :
    mapNew writable vaddr s = .error .outOfFrames ∨
      ∃ f frames s', FrameSource.allocateFrame s.frames = some (f, frames) ∧
        Machine.mapPageImpl { s with frames := frames } vaddr (f * 4096) true writable =
          (.ok (), s') ∧ mapNew writable vaddr s = .ok s' := by
  rw [mapNew_eq]
  cases ha : FrameSource.allocateFrame s.frames with
  | none => exact Or.inl rfl
  | some fa =>
    obtain ⟨f, frames⟩ := fa
    simp only
    cases hm : Machine.mapPageImpl { s with frames := frames } vaddr (f * 4096) true writable with
    | mk r s' =>
      cases r with
      | error e =>
        cases e
        exact Or.inl rfl
      | ok u => exact Or.inr ⟨f, frames, s', rfl, hm, rfl⟩

/-- What mapping a new page does: the page's entry leads to a frame that was none of the
tables, no other translation changes, and walks below other top-level entries run as before. -/
structure NewPage (P : Nat → Prop) (writable : Bool) (v f : Nat) (s s' : Machine σ) : Prop where
  fresh : f < 2 ^ 40 ∧ ¬ s.Reachable (f * 4096) ∧ P f
  sound : s'.Sound fun g => P g ∧ g ≠ f
  grown : Machine.Grown (fun g => P g ∧ g ≠ f) s s'
  leaf : s'.lookup (path v) = (Machine.leafEntry (f * 4096) true writable, false)
  other : ∀ q, q.length = 4 → q ≠ path v → s'.lookup q = s.lookup q
  elsewhere : ∀ w, index4 w ≠ index4 v → s.Keeps s' (path w)

theorem newPage_of_mapNew {P : Nat → Prop} {s s' : Machine σ} {v : Nat} {writable : Bool}
    (hs : s.Sound P) (hopen : (s.lookup (path v)).2 = false)
    (h : mapNew writable v s = .ok s') : ∃ f, NewPage P writable v f s s' := by
  rcases mapNew_cases writable v s with hdry | ⟨f, frames, s'', ha, hmap, hok⟩
  · exact absurd (h.symm.trans hdry) (by simp)
  obtain rfl := Except.ok.inj (hok.symm.trans h)
  obtain ⟨hfresh, hsup⟩ := hs.supply.step ha
  have hs₁ : Machine.Sound (fun g => P g ∧ g ≠ f) { s with frames := frames } :=
    ⟨hs.tree, hsup.mono fun g hg => ⟨hg.1.1, hg.1.2.1, hg.1.2.2, hg.2⟩⟩
  obtain ⟨hs', hg, ⟨⟨e, he⟩, -⟩ | ⟨-, hself, hother⟩⟩ := Machine.mapPageImpl_spec hs₁ hopen hmap
  · exact absurd he (by simp)
  refine ⟨f, hfresh, hs', ⟨hg.cr3, hg.reach, hg.keep, hg.outside⟩, hself, hother, fun w hw => ?_⟩
  have hkeeps := Machine.mapPageImpl_keeps hs₁ hopen hmap hw
  exact ⟨hkeeps.root, hkeeps.reads⟩

theorem update_eq_some {frame : Nat → Option Nat} {p q f g : Nat} :
    Function.update frame p (some f) q = some g ↔ q = p ∧ f = g ∨ q ≠ p ∧ frame q = some g := by
  by_cases h : q = p
  · simp [h]
  · simp [h]

section

variable {base : Nat} {W : Nat → Prop} {m₀ : Mem} {H : Nat → Prop} {frame : Nat → Option Nat}
  {s s' : Machine σ} {A : AddressSpace UInt8} {v f : Nat} {nx : Bool}

/-- The frames to come once `f` is taken out of them. -/
def Rest (m₀ : Mem) (H : Nat → Prop) (frame : Nat → Option Nat) (s : Machine σ) (f g : Nat) :
    Prop :=
  (H g ∧ (∀ p, frame p ≠ some g) ∧ ∀ x, x / 4096 = g → s.mem x = m₀ x) ∧ g ≠ f

/-- A machine that differs by a new leaf, for one page and its new frame `f`, shows the
address space with that page mapped. -/
theorem Shows.remap (hb : IsWindow base W) (h : Shows base W m₀ H frame s A) (hv : W v)
    (hf : f < 2 ^ 40) (hnew : ¬ s.Reachable (f * 4096)) (hH : H f)
    (hunused : ∀ p, frame p ≠ some f) (hstale : ∀ x, x / 4096 = f → s.mem x = m₀ x)
    (hs' : s'.Sound (Rest m₀ H frame s f)) (hgrown : Machine.Grown (Rest m₀ H frame s f) s s')
    (hself : s'.lookup (path (base + v)) = (Machine.leafEntry (f * 4096) true nx, false))
    (hother : ∀ q, q.length = 4 → q ≠ path (base + v) → s'.lookup q = s.lookup q) :
    Shows base W m₀ H (Function.update frame (v / 4096) (some f)) s'
      (A.mapPage 4096 (v / 4096)) := by
  have hnew' : ¬ s'.Reachable (f * 4096) := hgrown.not_reachable hnew fun hr => hr.2 rfl
  have hdata : ∀ p g, frame p = some g → ¬ s'.Reachable (g * 4096) := fun p g hp =>
    hgrown.not_reachable (h.data p g hp).2.2 fun hr => hr.1.2.1 p hp
  have hkeep : ∀ w, W w → w / 4096 ≠ v / 4096 →
      s'.lookup (path (base + w)) = s.lookup (path (base + w)) := fun w hw hne =>
    hother _ rfl fun hp => hne ((hb.path_eq_iff hw hv).mp hp)
  constructor
  case sound =>
    refine ⟨hs'.tree, hs'.supply.mono ?_⟩
    rintro g ⟨hg, hgr, ⟨hHg, hgu, hgm⟩, hgf⟩
    refine ⟨hg, hgr, hHg, fun p hp => ?_, fun x hx => ?_⟩
    · rcases update_eq_some.mp hp with ⟨-, rfl⟩ | ⟨-, hp⟩
      · exact hgf rfl
      · exact hgu p hp
    · rw [hgrown.mem_eq hgr hx]
      exact hgm x hx
  case blank =>
    intro w hw hnone
    have hpage : w / 4096 ≠ v / 4096 := by
      intro he
      rw [he, Function.update_self] at hnone
      exact absurd hnone (by simp)
    rw [Function.update_of_ne hpage] at hnone
    rw [hkeep w hw hpage]
    exact h.blank w hw hnone
  case leaf =>
    intro w hw g hg
    rcases update_eq_some.mp hg with ⟨hpage, rfl⟩ | ⟨hpage, hg⟩
    · rw [(hb.path_eq_iff hw hv).mpr hpage]
      exact ⟨nx, hself⟩
    · rw [hkeep w hw hpage]
      exact h.leaf w hw g hg
  case data =>
    intro p g hg
    rcases update_eq_some.mp hg with ⟨-, rfl⟩ | ⟨-, hg⟩
    · exact ⟨hH, hf, hnew'⟩
    · exact ⟨(h.data p g hg).1, (h.data p g hg).2.1, hdata p g hg⟩
  case inj =>
    intro p q g hp hq
    rcases update_eq_some.mp hp with ⟨rfl, rfl⟩ | ⟨-, hp⟩ <;>
      rcases update_eq_some.mp hq with ⟨rfl, hfg⟩ | ⟨-, hq⟩
    · rfl
    · exact absurd hq (hunused q)
    · exact absurd (hfg ▸ hp) (hunused p)
    · exact h.inj p q g hp hq
  case cells =>
    intro w hw
    have hoff : w % 4096 < 4096 := Nat.mod_lt _ (by omega)
    unfold AddressSpace.mapPage
    by_cases hpage : w / 4096 = v / 4096
    · rw [if_pos hpage, hpage, Function.update_self]
      refine ⟨f, rfl, ?_⟩
      rw [hgrown.mem_eq hnew' (by omega)]
      exact hstale _ (by omega)
    · rw [if_neg hpage, Function.update_of_ne hpage]
      exact (h.cells w hw).congr fun g hg => hgrown.mem_eq (hdata _ g hg) (by omega)

/-- A new page has a frame of stale bytes, and no other page changes. -/
theorem Shows.newPage (hb : IsWindow base W) (h : Shows base W m₀ H frame s A) (hv : W v)
    (hok : mapNew nx (base + v) s = .ok s') :
    ∃ frame', Shows base W m₀ H frame' s' (A.mapPage 4096 (v / 4096)) := by
  obtain ⟨f, ⟨hf, hnew, hH, hunused, hstale⟩, hs', hgrown, hself, hother, -⟩ :=
    newPage_of_mapNew h.sound (h.not_stopped hv) hok
  exact ⟨_, h.remap hb hv hf hnew hH hunused hstale hs' hgrown hself hother⟩

/-- Mapping a page adds it to the address space, unless no frame is left. -/
theorem Shows.mapNew (hb : IsWindow base W) (h : Shows base W m₀ H frame s A) (hv : W v)
    (writable : Bool) :
    mapNew writable (base + v) s = .error .outOfFrames ∨
      ∃ frame' s', mapNew writable (base + v) s = .ok s' ∧
        Shows base W m₀ H frame' s' (A.mapPage 4096 (v / 4096)) := by
  rcases mapNew_cases writable (base + v) s with hdry | ⟨-, -, s', -, -, hok⟩
  · exact Or.inl hdry
  · obtain ⟨frame', h'⟩ := h.newPage hb hv hok
    exact Or.inr ⟨frame', s', hok, h'⟩

end

/-! ## Copying through the tables -/

section

variable {base : Nat} {W : Nat → Prop} {m₀ : Mem} {H : Nat → Prop} {frame : Nat → Option Nat}
  {s : Machine σ} {A : AddressSpace UInt8} {v : Nat}

/-- Memory that changes outside the tables and the frames to come shows the address space
that its cells say. -/
theorem Shows.setMem (h : Shows base W m₀ H frame s A) {m : Mem} {B : AddressSpace UInt8}
    (hsame : s.SameTables m)
    (hstale : ∀ x, H (x / 4096) → (∀ p, frame p ≠ some (x / 4096)) → m x = s.mem x)
    (hcells : ∀ v, W v → CellIn m₀ m (frame (v / 4096)) (v % 4096) (B v)) :
    Shows base W m₀ H frame (s.setMem m) B where
  sound := by
    apply hsame.sound h.sound
    rintro g ⟨hHg, hg, hm⟩
    refine ⟨hHg, hg, fun x hx => ?_⟩
    rw [Machine.setMem_mem, hstale x (hx ▸ hHg) (hx ▸ hg)]
    exact hm x hx
  blank v hv hnone := by
    rw [hsame.lookup_eq rfl]
    exact h.blank v hv hnone
  leaf v hv f hf := by
    rw [hsame.lookup_eq rfl]
    exact h.leaf v hv f hf
  data p f hf := by
    rw [hsame.reachable]
    exact h.data p f hf
  inj := h.inj
  cells := hcells

/-- A byte stored through the tables is stored at its address and nowhere else. -/
theorem Shows.storeByte (hb : IsWindow base W) (h : Shows base W m₀ H frame s A) (hv : W v)
    (hmapped : A v ≠ .unmapped) (b : UInt8) :
    ∃ m, s.SameTables m ∧ s.storeByte (base + v) b = some (s.setMem m) ∧
      Shows base W m₀ H frame (s.setMem m) (Function.update A v (.holds b)) := by
  obtain ⟨f, hf⟩ : ∃ f, frame (v / 4096) = some f := by
    apply Option.ne_none_iff_exists'.mp
    exact fun hn => hmapped ((h.cells v hv).eq_none_iff.mp hn)
  have hoff : v % 4096 < 4096 := Nat.mod_lt _ (by omega)
  have hpage : (f * 4096 + v % 4096) / 4096 = f := by omega
  have hsame : s.SameTables (setByte s.mem (f * 4096 + v % 4096) b) := by
    apply Machine.sameTables_setByte
    rw [hpage]
    exact (h.data _ f hf).2.2
  refine ⟨_, hsame, ?_, h.setMem hsame (fun x _ hx => setByte_of_ne _ _ ?_) fun w hw => ?_⟩
  · rw [Machine.storeByte, h.physical hb hv, hf]
    rfl
  · rintro rfl
    exact hx _ (hpage ▸ hf)
  · by_cases hwv : w = v
    · rw [hwv, Function.update_self]
      exact ⟨f, hf, setByte_self ..⟩
    · rw [Function.update_of_ne hwv]
      apply (h.cells w hw).congr
      intro g hg
      apply setByte_of_ne
      intro he
      have hoff' : w % 4096 < 4096 := Nat.mod_lt _ (by omega)
      have hgf : g = f := by omega
      have hpage := h.inj _ _ f (hgf ▸ hg) hf
      exact hwv (by omega)

/-- A byte stored in a frame that is no table, no page's and not to come is not seen. -/
theorem Shows.store_elsewhere (h : Shows base W m₀ H frame s A) {x : Nat}
    (htable : ¬ s.Reachable (x / 4096 * 4096)) (hx : ¬ H (x / 4096)) (b : UInt8) :
    Shows base W m₀ H frame (s.setMem (setByte s.mem x b)) A := by
  refine h.setMem (Machine.sameTables_setByte b htable) (fun y hy _ => setByte_of_ne _ _ ?_)
    fun v hv => (h.cells v hv).congr fun f hf => setByte_of_ne _ _ ?_
  · rintro rfl
    exact hx hy
  · have hoff : v % 4096 < 4096 := Nat.mod_lt _ (by omega)
    intro he
    rw [← he, show (f * 4096 + v % 4096) / 4096 = f from by omega] at hx
    exact hx (h.data _ f hf).1

theorem Shows.storeByte_none (hb : IsWindow base W) (h : Shows base W m₀ H frame s A)
    (hv : W v) (hunmapped : A v = .unmapped) (b : UInt8) :
    s.storeByte (base + v) b = none := by
  have hnone : frame (v / 4096) = none := (h.cells v hv).eq_none_iff.mpr hunmapped
  rw [Machine.storeByte, h.physical hb hv, hnone]
  rfl

/-- A copy through the tables is a copy in the address space: it goes through when every
address is mapped. -/
theorem Shows.copyTo (hb : IsWindow base W) (h : Shows base W m₀ H frame s A) {n : Nat}
    (hv : ∀ k < n, W (v + k)) (src : Nat → UInt8) (hmapped : ∀ k < n, A (v + k) ≠ .unmapped) :
    ∃ s', s.copyTo src (base + v) n = some s' ∧ Shows base W m₀ H frame s'
      fun w => if v ≤ w ∧ w < v + n then .holds (src (w - v)) else A w := by
  induction n with
  | zero =>
    refine ⟨s, rfl, ?_⟩
    have hid : (fun w => if v ≤ w ∧ w < v + 0 then .holds (src (w - v)) else A w) = A := by
      funext w
      exact if_neg (by omega)
    rwa [hid]
  | succ n ih =>
    obtain ⟨s₁, hs₁, h₁⟩ := ih (fun k hk => hv k (by omega)) fun k hk => hmapped k (by omega)
    have hm : (if v ≤ v + n ∧ v + n < v + n then .holds (src (v + n - v)) else A (v + n)) ≠
        Cell.unmapped := by
      rw [if_neg (by omega)]
      exact hmapped n (by omega)
    obtain ⟨m, -, hs', h'⟩ := h₁.storeByte hb (v := v + n) (hv n (by omega)) hm (src n)
    refine ⟨s₁.setMem m, ?_, ?_⟩
    · rw [Machine.copyTo, hs₁, Option.bind_some, Nat.add_assoc, hs']
    · have hstep : (fun w => if v ≤ w ∧ w < v + (n + 1) then .holds (src (w - v)) else A w) =
          Function.update (fun w => if v ≤ w ∧ w < v + n then .holds (src (w - v)) else A w)
            (v + n) (.holds (src n)) := by
        funext w
        by_cases hw : w = v + n
        · subst hw
          rw [Function.update_self, if_pos (by omega), Nat.add_sub_cancel_left]
        · rw [Function.update_of_ne hw]
          by_cases hin : v ≤ w ∧ w < v + n
          · rw [if_pos hin, if_pos (by omega)]
          · rw [if_neg hin, if_neg (by omega)]
      rwa [hstep]

/-- A copy that meets an address that is not mapped faults. -/
theorem Shows.copyTo_none (hb : IsWindow base W) (h : Shows base W m₀ H frame s A) {n : Nat}
    (hv : ∀ k < n, W (v + k)) (src : Nat → UInt8) (hunmapped : ∃ k < n, A (v + k) = .unmapped) :
    s.copyTo src (base + v) n = none := by
  induction n with
  | zero =>
    obtain ⟨k, hk, -⟩ := hunmapped
    exact absurd hk (by omega)
  | succ n ih =>
    rw [Machine.copyTo]
    by_cases hbefore : ∃ k < n, A (v + k) = .unmapped
    · rw [ih (fun k hk => hv k (by omega)) hbefore]
      rfl
    · obtain ⟨k, hk, hAk⟩ := hunmapped
      have hmapped : ∀ j < n, A (v + j) ≠ .unmapped := fun j hj hA => hbefore ⟨j, hj, hA⟩
      have hkn : k = n := by
        by_contra hne
        exact hmapped k (by omega) hAk
      obtain ⟨s₁, hs₁, h₁⟩ := h.copyTo hb (fun k hk => hv k (by omega)) src hmapped
      rw [hs₁, Option.bind_some, Nat.add_assoc]
      apply h₁.storeByte_none hb (hv n (by omega))
      rw [if_neg (by omega), ← hkn]
      exact hAk

/-- Copying file bytes to the window is copying them in the address space. -/
theorem Shows.copyBytes (hb : IsWindow base W) (h : Shows base W m₀ H frame s A) (elf : Slice)
    (off : Nat) {n : Nat} (hv : ∀ k < n, W (v + k)) :
    (copyBytes elf off (base + v) n s = .error .pageFault ∧
      A.copy (fun k => elf.mem (off + k)) v n = none) ∨
    ∃ s' B, copyBytes elf off (base + v) n s = .ok s' ∧
      A.copy (fun k => elf.mem (off + k)) v n = some B ∧ Shows base W m₀ H frame s' B := by
  unfold User.copyBytes AddressSpace.copy
  by_cases hall : ∀ k < n, (A (v + k)).isMapped = true
  · obtain ⟨s', hs', h'⟩ := h.copyTo hb hv (fun k => elf.mem (off + k))
      fun k hk => (Cell.isMapped_iff _).mp (hall k hk)
    rw [hs', if_pos hall]
    exact Or.inr ⟨s', _, rfl, rfl, h'⟩
  · have hsome : ∃ k < n, A (v + k) = .unmapped := by
      by_contra hnone
      apply hall
      intro k hk
      rw [Cell.isMapped_iff]
      exact fun hA => hnone ⟨k, hk, hA⟩
    rw [h.copyTo_none hb hv _ hsome, if_neg hall]
    exact Or.inl ⟨rfl, rfl⟩

/-- Mapped bytes can be read. -/
theorem Shows.copyFrom (hb : IsWindow base W) (h : Shows base W m₀ H frame s A) {n : Nat}
    (hv : ∀ k < n, W (v + k)) (hmapped : ∀ k < n, A (v + k) ≠ .unmapped) :
    ∃ bytes, s.copyFrom (base + v) n = some bytes := by
  induction n with
  | zero => exact ⟨[], rfl⟩
  | succ n ih =>
    obtain ⟨bytes, hbytes⟩ := ih (fun k hk => hv k (by omega)) fun k hk => hmapped k (by omega)
    obtain ⟨b, hread⟩ : ∃ b, s.loadByte (base + (v + n)) = some b := by
      have hread := h.loadByte hb (v := v + n) (hv n (by omega))
      have hm := hmapped n (by omega)
      cases hcell : A (v + n) with
      | unmapped => exact absurd hcell hm
      | stale =>
        rw [hcell] at hread
        obtain ⟨f, -, hread⟩ := hread
        exact ⟨_, hread⟩
      | holds b =>
        rw [hcell] at hread
        exact ⟨b, hread⟩
    refine ⟨bytes ++ [b], ?_⟩
    rw [Machine.copyFrom, hbytes, Option.bind_some, Nat.add_assoc, hread]
    rfl

end

/-! ## The load loop -/

/-- The outcome of a part of the loader agrees with that of the address space, unless the
frame allocator ran dry. -/
def Agrees (base : Nat) (W : Nat → Prop) (m₀ : Mem) (H : Nat → Prop) (r : Except Halt (Loader σ))
    (R : Option (AddressSpace UInt8)) : Prop :=
  r = .error .outOfFrames ∨ (r = .error .pageFault ∧ R = none) ∨
    ∃ l frame B, r = .ok l ∧ R = some B ∧ Shows base W m₀ H frame l.machine B

section

variable {base : Nat} {W : Nat → Prop} {m₀ : Mem} {H : Nat → Prop} {elf : Slice} {g : Segment}

theorem Agrees.bind {r : Except Halt (Loader σ)} {R : Option (AddressSpace UInt8)}
    {k : Loader σ → Except Halt (Loader σ)} {K : AddressSpace UInt8 → Option (AddressSpace UInt8)}
    (h : Agrees base W m₀ H r R)
    (hk : ∀ l frame B, Shows base W m₀ H frame l.machine B → Agrees base W m₀ H (k l) (K B)) :
    Agrees base W m₀ H (r >>= k) (R.bind K) := by
  rcases h with rfl | ⟨rfl, rfl⟩ | ⟨l, frame, B, rfl, rfl, hl⟩
  · exact Or.inl rfl
  · exact Or.inr (Or.inl ⟨rfl, rfl⟩)
  · exact hk l frame B hl

/-- Page `i` of a segment is one step, if the page and what is copied lie in the window. -/
theorem loadPage_agrees {l : Loader σ} {frame : Nat → Option Nat} {A : AddressSpace UInt8} {i : Nat}
    (hb : IsWindow base W) (hv : W (g.vaddr + i * 4096))
    (hcopy : ∀ v, (g.step elf i).Writes v → W v) (hoff : g.fileOff + i * 4096 < 2 ^ 64)
    (h : Shows base W m₀ H frame l.machine A) :
    Agrees base W m₀ H (loadPage base elf g l i) (A.load 4096 (g.step elf i)) := by
  have hlt := hb.lt_word hv
  unfold loadPage
  rw [checked_of_lt (by omega), checked_of_lt hoff, Nat.add_assoc]
  simp only [bind, Except.bind]
  rcases h.mapNew hb hv g.writable with hdry | ⟨frame', s', hok, h'⟩
  · left
    rw [hdry]
  · simp only [hok]
    have hin : ∀ k < min (g.filesz - i * 4096) 4096, W (g.vaddr + i * 4096 + k) :=
      fun k hk => hcopy _ ⟨Nat.le_add_right .., Nat.add_lt_add_left hk _⟩
    rcases h'.copyBytes hb elf (g.fileOff + i * 4096) hin with
      ⟨hfault, hcopy⟩ | ⟨s₂, B, hs₂, hcopy, h₂⟩
    · simp only [hfault]
      exact Or.inr (Or.inl ⟨rfl, hcopy⟩)
    · simp only [hs₂]
      exact Or.inr (Or.inr ⟨_, frame', B, rfl, hcopy, h₂⟩)

/-- The first `n` pages of a segment are as many steps. -/
private theorem loadPages_agrees {l : Loader σ} {frame : Nat → Option Nat} {A : AddressSpace UInt8}
    {n : Nat} (hb : IsWindow base W) (hin : g.Within W) (hsz : g.filesz ≤ g.memsz)
    (hfile : g.fileOff + g.filesz ≤ elf.len) (hn : n ≤ g.pages)
    (h : Shows base W m₀ H frame l.machine A) :
    Agrees base W m₀ H (loadPages base elf g l n)
      (A.run 4096 ((List.range n).map (g.step elf))) := by
  induction n with
  | zero => exact Or.inr (Or.inr ⟨l, frame, A, rfl, rfl, h⟩)
  | succ n ih =>
    rw [List.range_succ, List.map_append, AddressSpace.run_append, loadPages]
    refine (ih (by omega)).bind fun l' frame' B hB => ?_
    have hone : B.run 4096 ([n].map (g.step elf)) = B.load 4096 (g.step elf n) := by
      rw [List.map_singleton, AddressSpace.run]
      cases B.load 4096 (g.step elf n) <;> rfl
    rw [hone]
    have hlen := elf.len_lt
    have hsize := hin.memsz_le hb
    have hpage : n * 4096 < g.memsz := by
      unfold Segment.pages at hn
      omega
    exact loadPage_agrees hb (hin.covers _ ⟨by omega, by omega⟩)
      (fun v hw => hin.covers v (Segment.covers_of_writes hsz hw)) (by omega) hB

/-- A segment's turn of the loop is the steps of the segment. -/
theorem loadSegment_agrees {l : Loader σ} {frame : Nat → Option Nat} {A : AddressSpace UInt8}
    (hb : IsWindow base W) (hin : g.Within W) (hsz : g.filesz ≤ g.memsz)
    (hfile : g.fileOff + g.filesz ≤ elf.len) (h : Shows base W m₀ H frame l.machine A) :
    Agrees base W m₀ H (loadSegment base elf l g) (A.run 4096 (g.steps elf)) := by
  have hpages := loadPages_agrees hb hin hsz hfile le_rfl h
  have hsize := hin.memsz_le hb
  rw [loadSegment, checked_of_lt (by omega), checked_of_lt hin.stop_lt]
  have hlast := hpages.bind (K := some)
    (k := fun l => .ok ⟨l.machine, l.mapped, max l.maxEnd (g.vaddr + g.memsz)⟩)
    fun l' frame' B hB => Or.inr (Or.inr ⟨_, frame', B, rfl, rfl, hB⟩)
  rw [Option.bind_fun_some] at hlast
  exact hlast

/-- **The load loop refines the address space.** In a window of its own, for segments
inside the window and inside the file, it ends as the run of its steps does, or out
of frames. -/
theorem loadLoop_agrees {segs : List Segment} {l : Loader σ} {frame : Nat → Option Nat}
    {A : AddressSpace UInt8} (hb : IsWindow base W) (hin : ∀ g ∈ segs, g.Within W)
    (hsz : ∀ g ∈ segs, g.filesz ≤ g.memsz) (hfile : ∀ g ∈ segs, g.fileOff + g.filesz ≤ elf.len)
    (h : Shows base W m₀ H frame l.machine A) :
    Agrees base W m₀ H (loadLoop base elf l segs) (A.run 4096 (steps elf segs)) := by
  induction segs generalizing l frame A with
  | nil => exact Or.inr (Or.inr ⟨l, frame, A, rfl, rfl, h⟩)
  | cons g segs ih =>
    rw [steps_cons, AddressSpace.run_append, loadLoop]
    have hg : g ∈ g :: segs := List.mem_cons_self ..
    refine (loadSegment_agrees hb (hin g hg) (hsz g hg) (hfile g hg) h).bind ?_
    intro l' frame' B hB
    exact ih (fun e he => hin e (List.mem_cons_of_mem _ he))
      (fun e he => hsz e (List.mem_cons_of_mem _ he))
      (fun e he => hfile e (List.mem_cons_of_mem _ he)) hB

end

end LionOS.User
