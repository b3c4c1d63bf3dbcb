import LionOS.Lib.AddressSpace
import LionOS.Paging.Access
import LionOS.Paging.Takeover

/-!
# Mapped pages are memory

The kernel takes frames, maps them at pages of its choice, takes the tables over and stores
through the pages it has mapped, in any order, and frames may run out at any point. What it has
in the end is a memory of its own at the pages it mapped: each store is seen at its address and
nowhere else, although tables, frames and root change behind it, and the rest of the address
space is as it was.

Page `p` holds the data frame `frame p`. These frames are different, none is a table, and none
of them comes from the allocator again.
-/

namespace LionOS.Paging

open Lib

/-- What happens to the address space. -/
inductive MemEvent where
  /-- A new frame is mapped at a page. -/
  | map (virt : Nat)
  /-- There was no frame for the page or for one of its tables. -/
  | fail (virt : Nat)
  /-- A frame goes elsewhere. -/
  | take
  | takeover
  | store (virt : Nat) (b : UInt8)

/-- What an event makes of the memory of the mapped pages; a store to another address is not
described. -/
def play (A : AddressSpace UInt8) : MemEvent → Option (AddressSpace UInt8)
  | .map virt => some (A.mapPage 4096 (virt / 4096))
  | .store virt b => if (A virt).isMapped then some (Function.update A virt (.holds b)) else none
  | _ => some A

def playAll (A : AddressSpace UInt8) : List MemEvent → Option (AddressSpace UInt8)
  | [] => some A
  | e :: es => (play A e).bind fun B => playAll B es

namespace Machine

variable {σ : Type} [FrameSource σ]

/-- One event on the machine. -/
inductive MemStep (s : Machine σ) : MemEvent → Machine σ → Prop
  | map {t s' : Machine σ} {virt phys : Nat} {user nx : Bool} (hf : s.framePhys = (.ok phys, t))
      (hm : t.mapPageImpl virt phys user nx = (.ok (), s')) : MemStep s (.map virt) s'
  | noTable {t s' : Machine σ} {virt phys : Nat} {user nx : Bool} {e : MapError}
      (hf : s.framePhys = (.ok phys, t))
      (hm : t.mapPageImpl virt phys user nx = (.error e, s')) : MemStep s (.fail virt) s'
  | noFrame {s' : Machine σ} {virt : Nat} {e : MapError} (hf : s.framePhys = (.error e, s')) :
      MemStep s (.fail virt) s'
  | take {s' : Machine σ} {f : Nat} (hf : s.allocateFrame = some (f, s')) : MemStep s .take s'
  | takeover {s' : Machine σ} {r : Except MapError Nat} (h : s.takeover = (r, s')) :
      MemStep s .takeover s'
  | store {s' : Machine σ} {virt : Nat} {b : UInt8} (h : s.storeByte virt b = some s') :
      MemStep s (.store virt b) s'

inductive MemRun (s : Machine σ) : List MemEvent → Machine σ → Prop
  | nil : MemRun s [] s
  | snoc {es : List MemEvent} {s₁ s₂ : Machine σ} {e : MemEvent} (h : MemRun s es s₁)
      (he : MemStep s₁ e s₂) : MemRun s (es ++ [e]) s₂

end Machine

/-- A page is asked for at a canonical address whose walk meets no huge entry; what is stored to
is canonical by itself. -/
def MemEvent.Ok {σ : Type} (s : Machine σ) : MemEvent → Prop
  | .map virt => Canonical virt ∧ (s.lookup (path virt)).2 = false
  | .fail virt => Canonical virt ∧ (s.lookup (path virt)).2 = false
  | _ => True

/-- The byte `c` of a page with data frame `frame`. -/
def CellAt (m : Mem) (frame : Option Nat) (off : Nat) : Cell UInt8 → Prop
  | .unmapped => frame = none
  | .stale => ∃ f, frame = some f
  | .holds b => ∃ f, frame = some f ∧ m (f * 4096 + off) = b

theorem CellAt.congr {m m' : Mem} {frame : Option Nat} {off : Nat} {c : Cell UInt8}
    (h : CellAt m frame off c)
    (hm : ∀ f, frame = some f → m' (f * 4096 + off) = m (f * 4096 + off)) :
    CellAt m' frame off c := by
  cases c with
  | unmapped => exact h
  | stale => exact h
  | holds b =>
    obtain ⟨f, hf, hb⟩ := h
    exact ⟨f, hf, (hm f hf).trans hb⟩

theorem CellAt.isMapped_iff {m : Mem} {frame : Option Nat} {off : Nat} {c : Cell UInt8}
    (h : CellAt m frame off c) : c.isMapped = true ↔ ∃ f, frame = some f := by
  cases c with
  | unmapped =>
    obtain rfl : frame = none := h
    simp [Cell.isMapped]
  | stale => exact iff_of_true rfl h
  | holds b => exact iff_of_true rfl (h.imp fun f hf => hf.1)

variable {σ : Type} [FrameSource σ]

/-- The machine `s`, which has come from `s₀`, holds the memory `A` in the frames `frame`. -/
structure Holds (s₀ : Machine σ) (frame : Nat → Option Nat) (s : Machine σ)
    (A : AddressSpace UInt8) : Prop where
  sound : s.Sound fun f => ∀ p, frame p ≠ some f
  leaf : ∀ v, Canonical v → ∀ f, frame (v / 4096) = some f →
    ∃ user nx, s.lookup (path v) = (Machine.leafEntry (f * 4096) user nx, false)
  other : ∀ v, Canonical v → frame (v / 4096) = none → s.lookup (path v) = s₀.lookup (path v)
  data : ∀ p f, frame p = some f → f < 2 ^ 40 ∧ ¬ s.Reachable (f * 4096)
  inj : ∀ p q f, frame p = some f → frame q = some f → p = q
  cells : ∀ v, Canonical v → CellAt s.mem (frame (v / 4096)) (v % 4096) (A v)

section

variable {s₀ s s' : Machine σ} {frame : Nat → Option Nat} {A B : AddressSpace UInt8} {v : Nat}

theorem Holds.start (htree : s₀.Tree)
    (hsupply : Supplies s₀.frames fun f => f < 2 ^ 40 ∧ ¬ s₀.Reachable (f * 4096)) :
    Holds s₀ (fun _ => none) s₀ .empty where
  sound := ⟨htree, hsupply.mono fun f hf => ⟨hf.1, hf.2, fun p => by simp⟩⟩
  leaf := by simp
  other _ _ _ := rfl
  data := by simp
  inj := by simp
  cells _ _ := rfl

/-- The walk to a page meets no huge entry if it met none at first. -/
theorem Holds.not_stopped (h : Holds s₀ frame s A) (hv : Canonical v)
    (hopen : (s₀.lookup (path v)).2 = false) : (s.lookup (path v)).2 = false := by
  cases hf : frame (v / 4096) with
  | none => rw [h.other v hv hf, hopen]
  | some f =>
    obtain ⟨user, nx, hl⟩ := h.leaf v hv f hf
    rw [hl]

/-- A page with a data frame is accessed there. -/
theorem Holds.physical (h : Holds s₀ frame s A) (hv : Canonical v) {f : Nat}
    (hf : frame (v / 4096) = some f) : s.physical v = some (f * 4096 + v % 4096) := by
  obtain ⟨user, nx, hl⟩ := h.leaf v hv f hf
  have hlt := (h.data _ f hf).1
  exact Machine.physical_of_leaf hv (by omega) (by omega) hl

/-- A machine with other tables and the same translations holds the same memory. -/
theorem Holds.retable (h : Holds s₀ frame s A) (hs' : s'.Sound fun f => ∀ p, frame p ≠ some f)
    (hlook : ∀ q, q.length = 4 → s'.lookup q = s.lookup q)
    (hdata : ∀ p f, frame p = some f → ¬ s'.Reachable (f * 4096))
    (hmem : ∀ p f x, frame p = some f → x / 4096 = f → s'.mem x = s.mem x) :
    Holds s₀ frame s' A where
  sound := hs'
  leaf v hv f hf := by
    rw [hlook _ rfl]
    exact h.leaf v hv f hf
  other v hv hf := (hlook _ rfl).trans (h.other v hv hf)
  data p f hf := ⟨(h.data p f hf).1, hdata p f hf⟩
  inj := h.inj
  cells v hv := by
    have hoff : v % 4096 < 4096 := Nat.mod_lt _ (by omega)
    exact (h.cells v hv).congr fun f hf => hmem _ f _ hf (by omega)

/-- Tables that have grown by frames nobody owns. -/
theorem Holds.grown (h : Holds s₀ frame s A) (hs' : s'.Sound fun f => ∀ p, frame p ≠ some f)
    (hg : Machine.Grown (fun f => ∀ p, frame p ≠ some f) s s')
    (hlook : ∀ q, q.length = 4 → s'.lookup q = s.lookup q) : Holds s₀ frame s' A := by
  have hdata : ∀ p f, frame p = some f → ¬ s'.Reachable (f * 4096) := fun p f hf =>
    hg.not_reachable (h.data p f hf).2 fun hP => hP p hf
  exact h.retable hs' hlook hdata fun p f x hf hx => hg.mem_eq (hdata p f hf) hx

/-- A frame that goes elsewhere. -/
theorem Holds.take (h : Holds s₀ frame s A) {f : Nat} (hf : s.allocateFrame = some (f, s')) :
    Holds s₀ frame s' A := by
  obtain ⟨frames, ha, rfl⟩ := Machine.allocateFrame_eq_some hf
  have hsup := (h.sound.supply.step ha).2
  exact h.retable ⟨h.sound.tree, hsup.mono fun g hg => hg.1⟩ (fun _ _ => rfl)
    (fun p g hg => (h.data p g hg).2) fun _ _ _ _ _ => rfl

/-- Where a page has its frame after one page was given a new one. -/
private theorem update_eq_some_iff {p q f g : Nat} :
    Function.update frame p (some f) q = some g ↔ q = p ∧ f = g ∨ q ≠ p ∧ frame q = some g := by
  by_cases h : q = p
  · subst h
    simp
  · simp [h]

/-- A page is given a new frame. -/
theorem Holds.map (h : Holds s₀ frame s A) {t : Machine σ} {f virt : Nat} {user nx : Bool}
    {r : Except MapError Unit} (hv : Canonical virt) (hopen : (s₀.lookup (path virt)).2 = false)
    (hf : s.allocateFrame = some (f, t))
    (hm : t.mapPageImpl virt (f * 4096) user nx = (r, s')) :
    (∃ e, r = .error e) ∧ Holds s₀ frame s' A ∨
      r = .ok () ∧ Holds s₀ (Function.update frame (virt / 4096) (some f)) s'
        (A.mapPage 4096 (virt / 4096)) := by
  obtain ⟨frames, ha, rfl⟩ := Machine.allocateFrame_eq_some hf
  obtain ⟨⟨hlt, hnew, hunused⟩, hsup⟩ := h.sound.supply.step ha
  have hs : Machine.Sound (fun g => (∀ p, frame p ≠ some g) ∧ g ≠ f)
      { s with frames := frames } :=
    ⟨h.sound.tree, hsup.mono fun g hg => ⟨hg.1.1, hg.1.2.1, hg.1.2.2, hg.2⟩⟩
  obtain ⟨hs', hgrown, hres⟩ := Machine.mapPageImpl_spec hs (h.not_stopped hv hopen) hm
  have hg : Machine.Grown (fun g => (∀ p, frame p ≠ some g) ∧ g ≠ f) s s' :=
    ⟨hgrown.cr3, hgrown.reach, hgrown.keep, hgrown.outside⟩
  have hdata : ∀ p g, frame p = some g → ¬ s'.Reachable (g * 4096) := fun p g hp =>
    hg.not_reachable (h.data p g hp).2 fun hP => hP.1 p hp
  rcases hres with ⟨he, hlook⟩ | ⟨hok, hself, hother⟩
  · refine Or.inl ⟨he, h.retable ⟨hs'.tree, ?_⟩ hlook hdata fun p g x hp hx => ?_⟩
    · exact hs'.supply.mono fun g hg => ⟨hg.1, hg.2.1, hg.2.2.1⟩
    · exact hg.mem_eq (hdata p g hp) hx
  refine Or.inr ⟨hok, ?_⟩
  have hnew' : ¬ s'.Reachable (f * 4096) := hg.not_reachable hnew fun hP => hP.2 rfl
  have hkeep : ∀ w, Canonical w → w / 4096 ≠ virt / 4096 →
      s'.lookup (path w) = s.lookup (path w) := fun w hw hne =>
    hother _ rfl fun hp => hne (page_eq_of_path_eq hw hv hp)
  constructor
  case sound =>
    refine ⟨hs'.tree, hs'.supply.mono ?_⟩
    rintro g ⟨hg, hgr, hgu, hgf⟩
    refine ⟨hg, hgr, fun p hp => ?_⟩
    rcases update_eq_some_iff.mp hp with ⟨-, rfl⟩ | ⟨-, hp⟩
    · exact hgf rfl
    · exact hgu p hp
  case leaf =>
    intro w hw g hg
    rcases update_eq_some_iff.mp hg with ⟨hpage, rfl⟩ | ⟨hpage, hg⟩
    · rw [path_eq_of_page_eq hpage]
      exact ⟨user, nx, hself⟩
    · rw [hkeep w hw hpage]
      exact h.leaf w hw g hg
  case other =>
    intro w hw hnone
    have hpage : w / 4096 ≠ virt / 4096 := by
      intro he
      rw [he, Function.update_self] at hnone
      exact absurd hnone (by simp)
    rw [Function.update_of_ne hpage] at hnone
    rw [hkeep w hw hpage]
    exact h.other w hw hnone
  case data =>
    intro p g hg
    rcases update_eq_some_iff.mp hg with ⟨-, rfl⟩ | ⟨-, hg⟩
    · exact ⟨hlt, hnew'⟩
    · exact ⟨(h.data p g hg).1, hdata p g hg⟩
  case inj =>
    intro p q g hp hq
    rcases update_eq_some_iff.mp hp with ⟨rfl, rfl⟩ | ⟨-, hp⟩ <;>
      rcases update_eq_some_iff.mp hq with ⟨rfl, hfg⟩ | ⟨-, hq⟩
    · rfl
    · exact absurd hq (hunused q)
    · exact absurd (hfg ▸ hp) (hunused p)
    · exact h.inj p q g hp hq
  case cells =>
    intro w hw
    have hoff : w % 4096 < 4096 := Nat.mod_lt _ (by omega)
    unfold AddressSpace.mapPage
    by_cases hpage : w / 4096 = virt / 4096
    · rw [if_pos hpage, hpage, Function.update_self]
      exact ⟨f, rfl⟩
    · rw [if_neg hpage, Function.update_of_ne hpage]
      exact (h.cells w hw).congr fun g hp => hg.mem_eq (hdata _ g hp) (by omega)

omit [FrameSource σ] in
/-- The copy of a table writes to its frame. -/
private theorem copyEntries_of_outside (m : Mem) {old new x n : Nat} (hnew : new % 4096 = 0)
    (hn : n ≤ 512) (hx : x / 4096 * 4096 ≠ new) : copyEntries m old new n x = m x := by
  induction n with
  | zero => rfl
  | succ n ih =>
    rw [copyEntries_succ m old new hn, ← ih (by omega)]
    exact Machine.tableWrite_of_outside _ _ _ hnew hx

/-- The new root has the entries of the old one. -/
theorem Holds.takeover (h : Holds s₀ frame s A) {r : Except MapError Nat}
    (ht : s.takeover = (r, s')) : Holds s₀ frame s' A := by
  cases r with
  | error e =>
    obtain ⟨-, rfl⟩ := Machine.takeover_error ht
    exact h
  | ok cr3 =>
    obtain ⟨f, frames, ha, rfl, hcr3, rfl, hmem⟩ := Machine.takeover_ok ht
    obtain ⟨⟨hlt, hnew, hunused⟩, hsup⟩ := h.sound.supply.step ha
    have hold : s.Reachable s.pml4 := ⟨[], by simp, rfl⟩
    have hroot : s'.pml4 = f * 4096 := by
      rw [Machine.pml4, hcr3]
      exact and_addrMask_of_aligned (by omega) (by omega)
    have hcopied : format.Copied (entries s.mem) (entries s'.mem) 3 s.pml4 s'.pml4 := by
      refine ⟨fun i => ?_, fun u j hu => ?_, hroot ▸ hnew⟩
      · rw [hmem, hroot]
        have hne : s.pml4 ≠ f * 4096 := fun hc => hnew (hc ▸ hold)
        exact entries_copyEntries_self _ hold.aligned (by omega) hne le_rfl i.isLt
      · rw [hmem]
        have hu' : u % 4096 = 0 := Machine.Reachable.aligned (s := s) hu
        have hne : u ≠ f * 4096 := by
          rintro rfl
          exact hnew hu
        exact entries_copyEntries_of_ne _ (by omega) hu' hne le_rfl j
    have hreach : ∀ u, s'.Reachable u → u = f * 4096 ∨ s.Reachable u := fun u hu =>
      hroot ▸ hcopied.reach hu
    have hlook : ∀ q, q.length = 4 → s'.lookup q = s.lookup q := by
      intro q hq
      cases q with
      | nil => cases hq
      | cons i q => exact hcopied.lookup_eq hq.le
    have hdata : ∀ p g, frame p = some g → ¬ s'.Reachable (g * 4096) := by
      intro p g hp hr
      rcases hreach _ hr with heq | hr
      · exact hunused p (by rw [hp, Nat.eq_of_mul_eq_mul_right (by decide) heq])
      · exact (h.data p g hp).2 hr
    refine h.retable ⟨hcopied.tree h.sound.tree, ?_⟩ hlook hdata fun p g x hp hx => ?_
    · refine hsup.mono fun g hg => ⟨hg.1.1, fun hr => ?_, hg.1.2.2⟩
      rcases hreach _ hr with heq | hr
      · exact hg.2 (Nat.eq_of_mul_eq_mul_right (by decide) heq)
      · exact hg.1.2.1 hr
    · rw [hmem]
      refine copyEntries_of_outside _ (by omega) le_rfl fun hc => ?_
      have hgf : g = f := by omega
      exact hunused p (hgf ▸ hp)

/-- A store to a page with a data frame. -/
theorem Holds.store (h : Holds s₀ frame s A) {virt : Nat} {b : UInt8}
    (hmapped : (A virt).isMapped = true) (hs : s.storeByte virt b = some s') :
    Holds s₀ frame s' (Function.update A virt (.holds b)) := by
  have hv : Canonical virt := by
    by_contra hv
    simp [Machine.storeByte, Machine.physical, hv] at hs
  obtain ⟨f, hf⟩ := (h.cells virt hv).isMapped_iff.mp hmapped
  have hoff : virt % 4096 < 4096 := Nat.mod_lt _ (by omega)
  rw [Machine.storeByte, h.physical hv hf, Option.map_some, Option.some.injEq] at hs
  subst hs
  have hsame : s.SameTables (setByte s.mem (f * 4096 + virt % 4096) b) := by
    apply Machine.sameTables_setByte
    rw [show (f * 4096 + virt % 4096) / 4096 * 4096 = f * 4096 from by omega]
    exact (h.data _ f hf).2
  refine ⟨hsame.sound h.sound fun _ hP => hP, fun w hw g hg => ?_, fun w hw hnone => ?_,
    fun p g hg => ?_, h.inj, fun w hw => ?_⟩
  · rw [hsame.lookup_eq rfl]
    exact h.leaf w hw g hg
  · rw [hsame.lookup_eq rfl]
    exact h.other w hw hnone
  · rw [hsame.reachable]
    exact h.data p g hg
  · rw [Machine.setMem_mem]
    by_cases hwv : w = virt
    · rw [hwv, Function.update_self]
      exact ⟨f, hf, setByte_self ..⟩
    · rw [Function.update_of_ne hwv]
      refine (h.cells w hw).congr fun g hg => setByte_of_ne _ _ fun he => ?_
      have hoff' : w % 4096 < 4096 := Nat.mod_lt _ (by omega)
      have hgf : g = f := by omega
      have hpage := h.inj _ _ f (hgf ▸ hg) hf
      exact hwv (by omega)

end

/-! ## Runs -/

section

variable {s₀ s s' : Machine σ} {frame : Nat → Option Nat} {A B : AddressSpace UInt8} {v : Nat}

theorem framePhys_ok {t : Machine σ} {phys : Nat} (h : s.framePhys = (.ok phys, t)) :
    ∃ f, s.allocateFrame = some (f, t) ∧ phys = f * 4096 := by
  unfold Machine.framePhys at h
  split at h
  · exact absurd (Prod.mk.inj h).1 (by simp)
  · next f t' ha =>
    obtain ⟨hphys, rfl⟩ := Prod.mk.inj h
    exact ⟨f, ha, (Except.ok.inj hphys).symm⟩

private theorem framePhys_error {t : Machine σ} {e : MapError} (h : s.framePhys = (.error e, t)) :
    t = s := by
  unfold Machine.framePhys at h
  split at h
  · exact (Prod.mk.inj h).2.symm
  · exact absurd (Prod.mk.inj h).1 (by simp)

/-- Each event does to the machine what it does to the memory. -/
theorem Holds.step (h : Holds s₀ frame s A) {e : MemEvent} (he : s.MemStep e s') (hok : e.Ok s₀)
    (hplay : play A e = some B) : ∃ frame', Holds s₀ frame' s' B := by
  cases he with
  | map hf hm =>
    obtain ⟨f, ha, rfl⟩ := framePhys_ok hf
    obtain rfl := Option.some.inj hplay
    rcases h.map hok.1 hok.2 ha hm with ⟨⟨e, he⟩, -⟩ | ⟨-, h'⟩
    · exact absurd he (by simp)
    · exact ⟨_, h'⟩
  | noTable hf hm =>
    obtain ⟨f, ha, rfl⟩ := framePhys_ok hf
    obtain rfl := Option.some.inj hplay
    rcases h.map hok.1 hok.2 ha hm with ⟨-, h'⟩ | ⟨hr, -⟩
    · exact ⟨frame, h'⟩
    · exact absurd hr (by simp)
  | noFrame hf =>
    obtain rfl := framePhys_error hf
    obtain rfl := Option.some.inj hplay
    exact ⟨frame, h⟩
  | take hf =>
    obtain rfl := Option.some.inj hplay
    exact ⟨frame, h.take hf⟩
  | takeover ht =>
    obtain rfl := Option.some.inj hplay
    exact ⟨frame, h.takeover ht⟩
  | store hs =>
    rw [play] at hplay
    split at hplay
    · next hmapped =>
      obtain rfl := Option.some.inj hplay
      exact ⟨frame, h.store hmapped hs⟩
    · cases hplay

private theorem playAll_append (A : AddressSpace UInt8) (es : List MemEvent) (e : MemEvent) :
    playAll A (es ++ [e]) = (playAll A es).bind fun B => play B e := by
  induction es generalizing A with
  | nil =>
    cases h : play A e with
    | none => simp [playAll, h]
    | some B => simp [playAll, h]
  | cons d es ih =>
    rw [List.cons_append, playAll, playAll, Option.bind_assoc]
    exact congrArg _ (funext ih)

theorem Machine.MemRun.holds {es : List MemEvent} (htree : s₀.Tree)
    (hsupply : Supplies s₀.frames fun f => f < 2 ^ 40 ∧ ¬ s₀.Reachable (f * 4096))
    (hrun : s₀.MemRun es s) (hok : ∀ e ∈ es, e.Ok s₀) (hplay : playAll .empty es = some A) :
    ∃ frame, Holds s₀ frame s A := by
  induction hrun generalizing A with
  | nil =>
    obtain rfl := Option.some.inj hplay
    exact ⟨_, .start htree hsupply⟩
  | snoc hrun he ih =>
    rw [playAll_append] at hplay
    obtain ⟨B, hB, hlast⟩ := Option.bind_eq_some_iff.mp hplay
    obtain ⟨frame, h⟩ := ih (fun e he => hok e (List.mem_append_left _ he)) hB
    exact h.step he (hok _ (List.mem_append_right _ List.mem_cons_self)) hlast

/-- **Mapped pages are memory.** Over tables that form a tree, with an allocator that hands out
different frames of the 52-bit physical memory, none of them a table: after any run that maps
new frames, fails to, gives frames away, takes the tables over and stores to pages it has
mapped, every address of these pages reads as the last byte stored to it since its page was
mapped, no two of them are the same physical byte, and every other address translates as at the
start. -/
theorem mapped_pages_are_memory {es : List MemEvent} (htree : s₀.Tree)
    (hsupply : Supplies s₀.frames fun f => f < 2 ^ 40 ∧ ¬ s₀.Reachable (f * 4096))
    (hrun : s₀.MemRun es s) (hok : ∀ e ∈ es, e.Ok s₀) (hplay : playAll .empty es = some A) :
    (∀ v, Canonical v → (A v).isMapped = true →
      (∃ b, s.loadByte v = some b ∧ ∀ c, A v = .holds c → b = c) ∧
        ∀ w, Canonical w → (A w).isMapped = true → s.physical v = s.physical w → v = w) ∧
      ∀ v, Canonical v → A v = .unmapped → s.translate v = s₀.translate v := by
  obtain ⟨frame, h⟩ := hrun.holds htree hsupply hok hplay
  refine ⟨fun v hv hmapped => ⟨?_, fun w hw hmapped' heq => ?_⟩, fun v hv hunmapped => ?_⟩
  · obtain ⟨f, hf⟩ := (h.cells v hv).isMapped_iff.mp hmapped
    refine ⟨s.mem (f * 4096 + v % 4096), ?_, fun c hc => ?_⟩
    · rw [Machine.loadByte, h.physical hv hf, Option.map_some]
    · have hcell := h.cells v hv
      rw [hc] at hcell
      obtain ⟨g, hg, hb⟩ := hcell
      obtain rfl : f = g := Option.some.inj (hf.symm.trans hg)
      exact hb
  · obtain ⟨f, hf⟩ := (h.cells v hv).isMapped_iff.mp hmapped
    obtain ⟨g, hg⟩ := (h.cells w hw).isMapped_iff.mp hmapped'
    rw [h.physical hv hf, h.physical hw hg, Option.some.injEq] at heq
    have hoff : v % 4096 < 4096 := Nat.mod_lt _ (by omega)
    have hoff' : w % 4096 < 4096 := Nat.mod_lt _ (by omega)
    have hfg : f = g := by omega
    have hpage := h.inj _ _ f hf (hfg ▸ hg)
    omega
  · have hcell := h.cells v hv
    rw [hunmapped] at hcell
    rw [Machine.translate_eq, Machine.translate_eq, h.other v hv hcell]

/-- A byte stored to a page of a blank machine behind a takeover. -/
theorem mapped_pages_are_memory_blank :
    ∃ s, blankMachine.MemRun [.takeover, .map 0x400000, .store 0x400010 7] s ∧
      s.loadByte 0x400010 = some 7 ∧ s.translate 0x401000 = 0 := by
  let s₁ := blankMachine.takeover.2
  have hframe : s₁.framePhys.1 = .ok 0x3000 := by decide +kernel
  let s₂ := s₁.framePhys.2
  have hmap : (s₂.mapPageImpl 0x400000 0x3000 true true).1 = .ok () := by decide +kernel
  let s₃ := (s₂.mapPageImpl 0x400000 0x3000 true true).2
  obtain ⟨s₄, hstore⟩ : ∃ s₄, s₃.storeByte 0x400010 7 = some s₄ :=
    Option.isSome_iff_exists.mp (by decide +kernel)
  have hrun : blankMachine.MemRun [.takeover, .map 0x400000, .store 0x400010 7] s₄ :=
    .snoc (.snoc (.snoc .nil (.takeover (Prod.eta _).symm))
      (.map (Prod.fst_eq_iff.mp hframe) (Prod.fst_eq_iff.mp hmap))) (.store hstore)
  have hopen : ∀ v, (blankMachine.lookup (path v)).2 = false := by
    intro v
    have hz : tableRead blankMachine.mem blankMachine.pml4 (index4 v) = 0 := read64_zero _
    rw [Machine.lookup_of_absent (by rw [hz, Nat.zero_and])]
  obtain ⟨hmapped, hother⟩ := mapped_pages_are_memory blankMachine_tree blankMachine_supplies hrun
    (by simp [MemEvent.Ok, hopen, Canonical]) rfl
  obtain ⟨⟨b, hload, hb⟩, -⟩ := hmapped 0x400010 (by decide) (by decide)
  refine ⟨s₄, hrun, ?_, (hother 0x401000 (by decide) rfl).trans (translate_blankMachine _)⟩
  rw [hload, hb 7 rfl]

end

end LionOS.Paging
