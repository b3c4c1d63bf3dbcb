import LionOS.User.Loader

/-!
# How many frames a load takes

A page takes one frame for its bytes and at most three for tables. An allocator with
that many frames left does not run dry during the load.
-/

namespace LionOS.User

open Lib Paging

variable {σ : Type} [FrameSource σ]

/-- The allocator has at least `n` frames left. -/
def Lasts (n : Nat) (a : σ) : Prop := (handed n a).length = n

/-- An allocator that lasts hands out a frame and lasts one frame less. -/
theorem Lasts.step {n : Nat} {a : σ} (h : Lasts (n + 1) a) :
    ∃ f b, FrameSource.allocateFrame a = some (f, b) ∧ Lasts n b := by
  unfold Lasts handed at h
  cases ha : FrameSource.allocateFrame a with
  | none => simp [ha] at h
  | some fb =>
    obtain ⟨f, b⟩ := fb
    simp only [ha, List.length_cons, Nat.add_right_cancel_iff] at h
    exact ⟨f, b, rfl, h⟩

theorem Lasts.pred {n : Nat} {a : σ} (h : Lasts (n + 1) a) : Lasts n a := by
  induction n generalizing a with
  | zero => rfl
  | succ n ih =>
    obtain ⟨f, b, ha, hb⟩ := h.step
    have := ih hb
    unfold Lasts at this ⊢
    simp only [handed, ha, List.length_cons, this]

/-- One level of the walk takes at most one frame. -/
private theorem descend_lasts {n : Nat} {s : Machine σ} (user : Bool) (t : Nat) (i : Fin 512)
    (h : Lasts (n + 1) s.frames) :
    ∃ u s', Machine.descend user t i s = (.ok u, s') ∧ Lasts n s'.frames := by
  obtain ⟨r, s', hd⟩ : ∃ r s', Machine.descend user t i s = (r, s') := ⟨_, _, rfl⟩
  rcases Machine.descend_cases hd with ⟨-, rfl, rfl⟩ | ⟨hnone, -⟩ | ⟨f, frames, -, ha, rfl, rfl⟩
  · exact ⟨_, _, hd, h.pred⟩
  · obtain ⟨f, b, ha, -⟩ := h.step
    exact absurd (hnone.symm.trans ha) (by simp)
  · obtain ⟨f', b, ha', hb⟩ := h.step
    obtain ⟨-, rfl⟩ := Prod.mk.inj (Option.some.inj (ha.symm.trans ha'))
    exact ⟨_, _, hd, hb⟩

/-- A mapping takes at most three frames. -/
private theorem mapPageImpl_lasts {n : Nat} {s : Machine σ} (virt phys : Nat) (user nx : Bool)
    (h : Lasts (n + 3) s.frames) :
    ∃ s', s.mapPageImpl virt phys user nx = (.ok (), s') ∧ Lasts n s'.frames := by
  obtain ⟨pdpt, s₁, h₁, hl₁⟩ := descend_lasts user s.pml4 (index4 virt) h
  obtain ⟨pd, s₂, h₂, hl₂⟩ := descend_lasts user pdpt (index3 virt) hl₁
  obtain ⟨pt, s₃, h₃, hl₃⟩ := descend_lasts user pd (index2 virt) hl₂
  refine ⟨s₃.setMem (tableWrite s₃.mem pt (index1 virt) (Machine.leafEntry phys user nx)), ?_, hl₃⟩
  simp only [Machine.mapPageImpl, h₁, h₂, h₃]

/-- A new page takes at most four frames. -/
theorem mapNew_lasts {n : Nat} {s : Machine σ} (writable : Bool) (vaddr : Nat)
    (h : Lasts (n + 4) s.frames) :
    ∃ s', mapNew writable vaddr s = .ok s' ∧ Lasts n s'.frames := by
  obtain ⟨f, frames, ha, hl⟩ := h.step
  obtain ⟨s', hm, hl'⟩ := mapPageImpl_lasts (s := { s with frames := frames }) vaddr (f * 4096) true
    writable hl
  refine ⟨s', ?_, hl'⟩
  rw [mapNew_eq, ha]
  simp only [hm]

omit [FrameSource σ] in
/-- Copying takes no frames. -/
theorem copyTo_frames {s s' : Machine σ} {src : Nat → UInt8} {dst n : Nat}
    (h : s.copyTo src dst n = some s') : s'.frames = s.frames := by
  induction n generalizing s' with
  | zero =>
    obtain rfl := Option.some.inj h
    rfl
  | succ n ih =>
    obtain ⟨s₁, h₁, h⟩ := Option.bind_eq_some_iff.mp h
    obtain ⟨p, -, rfl⟩ := Option.map_eq_some_iff.mp h
    have hframes : s₁.frames = s.frames := ih h₁
    exact hframes

/-- The loader did not run dry, and has `n` frames left if it went through. -/
def Supplied (n : Nat) (r : Except Halt (Loader σ)) : Prop :=
  r ≠ .error .outOfFrames ∧ ∀ l, r = .ok l → Lasts n l.machine.frames

theorem Supplied.bind {m n : Nat} {r : Except Halt (Loader σ)}
    {k : Loader σ → Except Halt (Loader σ)} (h : Supplied m r)
    (hk : ∀ l, Lasts m l.machine.frames → Supplied n (k l)) : Supplied n (r >>= k) := by
  cases r with
  | error e => exact ⟨h.1, fun l hl => absurd hl (by simp [Bind.bind, Except.bind])⟩
  | ok l => exact hk l (h.2 l rfl)

theorem supplied_checked {n x : Nat} {k : Nat → Except Halt (Loader σ)}
    (hk : Supplied n (k x)) : Supplied n (checked x >>= k) := by
  unfold checked
  split
  · exact hk
  · exact ⟨by simp [Bind.bind, Except.bind],
      fun l hl => absurd hl (by simp [Bind.bind, Except.bind])⟩

/-- A page of a segment takes at most four frames. -/
private theorem loadPage_supplied {base i n : Nat} {elf : Slice} {g : Segment} {l : Loader σ}
    (h : Lasts (n + 4) l.machine.frames) : Supplied n (loadPage base elf g l i) := by
  unfold loadPage
  apply supplied_checked
  obtain ⟨s', hs', hl'⟩ := mapNew_lasts g.writable (base + g.vaddr + i * 4096) h
  rw [hs']
  apply supplied_checked
  simp only [copyBytes, Bind.bind, Except.bind]
  cases hc : s'.copyTo (fun k => elf.mem (g.fileOff + i * 4096 + k)) (base + g.vaddr + i * 4096)
      (min (g.filesz - i * 4096) 4096) with
  | none => exact ⟨by simp, fun l hl => by simp at hl⟩
  | some s₂ =>
    refine ⟨by simp, fun l' hl => ?_⟩
    obtain rfl := Except.ok.inj hl
    change Lasts n s₂.frames
    rw [copyTo_frames hc]
    exact hl'

private theorem loadPages_supplied {base k n : Nat} {elf : Slice} {g : Segment} {l : Loader σ}
    (h : Lasts (n + 4 * k) l.machine.frames) : Supplied n (loadPages base elf g l k) := by
  induction k generalizing n with
  | zero => exact ⟨by simp [loadPages], fun l' hl => by obtain rfl := Except.ok.inj hl; exact h⟩
  | succ k ih =>
    have hk : Lasts (n + 4 + 4 * k) l.machine.frames := by
      rwa [show n + 4 + 4 * k = n + 4 * (k + 1) from by omega]
    exact (ih hk).bind fun l' hl' => loadPage_supplied hl'

theorem loadSegment_supplied {base n : Nat} {elf : Slice} {g : Segment} {l : Loader σ}
    (h : Lasts (n + 4 * g.pages) l.machine.frames) : Supplied n (loadSegment base elf l g) := by
  unfold loadSegment
  apply supplied_checked
  apply (loadPages_supplied h).bind
  intro l' hl'
  apply supplied_checked
  refine ⟨by simp, fun l₂ hl => ?_⟩
  obtain rfl := Except.ok.inj hl
  exact hl'

/-- The pages of a segment list. -/
def pageCount (segs : List Segment) : Nat := (segs.map Segment.pages).sum

/-- The load loop takes at most four frames for each page. -/
theorem loadLoop_supplied {base n : Nat} {elf : Slice} {segs : List Segment} {l : Loader σ}
    (h : Lasts (n + 4 * pageCount segs) l.machine.frames) :
    Supplied n (loadLoop base elf l segs) := by
  induction segs generalizing l with
  | nil => exact ⟨by simp [loadLoop], fun l' hl => by obtain rfl := Except.ok.inj hl; exact h⟩
  | cons g segs ih =>
    have hg : Lasts (n + 4 * pageCount segs + 4 * g.pages) l.machine.frames := by
      have hcount : pageCount (g :: segs) = g.pages + pageCount segs := by
        simp [pageCount]
      rwa [show n + 4 * pageCount segs + 4 * g.pages = n + 4 * pageCount (g :: segs) from by
        omega]
    exact (loadSegment_supplied hg).bind fun l' hl' => ih hl'

end LionOS.User
