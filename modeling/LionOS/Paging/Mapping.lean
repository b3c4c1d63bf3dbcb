import LionOS.Frames.Refinement
import LionOS.Paging.Walk

/-!
# Mapping a page

Each level of `map_page_impl` either follows an entry or grafts a zeroed frame, so
no translation changes before the leaf is written, and the leaf write changes the
translation of one page. The frames taken on the way must be new: not tables
already, and not handed out before.
-/

namespace LionOS.Paging

open Lib Frames

/-- The first `n` frames the allocator will hand out, fewer if it runs dry. -/
def handed {σ : Type*} [FrameSource σ] : Nat → σ → List Nat
  | 0, _ => []
  | n + 1, s =>
    match FrameSource.allocateFrame s with
    | none => []
    | some (f, s) => f :: handed n s

/-- All frames the allocator will ever hand out are different and satisfy `P`. -/
def Supplies {σ : Type*} [FrameSource σ] (s : σ) (P : Nat → Prop) : Prop :=
  ∀ n, (handed n s).Nodup ∧ ∀ f ∈ handed n s, P f

section

variable {σ : Type*} [FrameSource σ] {s s' : σ} {f : Nat} {P Q : Nat → Prop}

/-- After one frame is handed out the rest satisfy `P` and are different from it. -/
theorem Supplies.step (h : Supplies s P) (ha : FrameSource.allocateFrame s = some (f, s')) :
    P f ∧ Supplies s' fun g => P g ∧ g ≠ f := by
  have hcons : ∀ n, handed (n + 1) s = f :: handed n s' := by
    intro n
    simp only [handed, ha]
  constructor
  · apply (h 1).2
    rw [hcons]
    exact List.mem_cons_self ..
  · intro n
    obtain ⟨hn, hp⟩ := h (n + 1)
    rw [hcons] at hn hp
    obtain ⟨hf, hn⟩ := List.nodup_cons.mp hn
    refine ⟨hn, fun g hg => ⟨hp g (List.mem_cons_of_mem _ hg), ?_⟩⟩
    rintro rfl
    exact hf hg

theorem Supplies.mono (h : Supplies s P) (hpq : ∀ f, P f → Q f) : Supplies s Q :=
  fun n => ⟨(h n).1, fun f hf => hpq f ((h n).2 f hf)⟩

end

/-- The frame allocator hands out its free frames in order. -/
theorem handed_frameAllocator (n : Nat) (a : FrameAllocator) :
    handed n a = (freeList a.active).take n := by
  induction n generalizing a with
  | zero => rfl
  | succ n ih =>
    have hdef : FrameSource.allocateFrame a = a.allocate := rfl
    rcases a.allocate_spec with ⟨hs, hnil⟩ | ⟨f, a', hs, hcons, -⟩
    · simp only [handed, hdef, hs, hnil, List.take_nil]
    · simp only [handed, hdef, hs, hcons, List.take_succ_cons, ih]

/-- A frame allocator with every free frame listed once supplies its free frames. -/
theorem supplies_frameAllocator {a : FrameAllocator} (hn : (freeList a.active).Nodup)
    {P : Nat → Prop} (hp : ∀ f ∈ freeList a.active, P f) : Supplies a P := by
  intro n
  rw [handed_frameAllocator]
  exact ⟨hn.sublist (List.take_sublist ..), fun f hf => hp f (List.mem_of_mem_take hf)⟩

namespace Machine

variable {σ : Type*}

/-- The outcome of a walk of the machine's tables. -/
def lookup (s : Machine σ) (q : List (Fin 512)) : Nat × Bool :=
  format.lookup (entries s.mem) 0 s.pml4 q

theorem translate_eq (s : Machine σ) (v : Nat) : s.translate v = (s.lookup (path v)).1 :=
  s.translate_eq_lookup v

/-- A page that is not mapped has no huge entry on its path. -/
theorem not_stopped_of_unmapped {s : Machine σ} {v : Nat}
    (h : s.translate v &&& Pte.present = 0) : (s.lookup (path v)).2 = false := by
  rw [translate_eq] at h
  by_contra hc
  obtain ⟨k, hk⟩ := Format.decode_of_stopped (Bool.eq_true_of_not_eq_false hc)
  change decode k (s.lookup (path v)).1 = .stop at hk
  simp [decode, h] at hk

/-- The free index is one whose entry is not present. -/
theorem absent_of_free {s : Machine σ} {idx : Fin 512} (h : s.findFreeTopIndex = some idx) :
    tableRead s.mem s.pml4 idx &&& Pte.present = 0 := by
  simpa using List.find?_some h

/-- Nothing is mapped below a top-level entry that is not present. -/
theorem lookup_of_absent {s : Machine σ} {v : Nat}
    (h : tableRead s.mem s.pml4 (index4 v) &&& Pte.present = 0) :
    s.lookup (path v) = (0, false) := by
  rw [Machine.lookup, path]
  simp [Format.lookup, format, decode, entries, h]

/-- Building tables adds frames satisfying `P` to the reachable ones and changes memory
inside reachable tables only. -/
structure Grown (P : Nat → Prop) (s s' : Machine σ) : Prop where
  cr3 : s'.cr3 = s.cr3
  reach : ∀ t, s'.Reachable t → s.Reachable t ∨ ∃ f, P f ∧ t = f * 4096
  keep : ∀ t, s.Reachable t → s'.Reachable t
  outside : ∀ x, ¬ s'.Reachable (x / 4096 * 4096) → s'.mem x = s.mem x

theorem Grown.refl (P : Nat → Prop) (s : Machine σ) : Grown P s s :=
  ⟨rfl, fun _ h => Or.inl h, fun _ h => h, fun _ _ => rfl⟩

theorem Grown.trans {P : Nat → Prop} {s₁ s₂ s₃ : Machine σ} (h : Grown P s₁ s₂)
    (h' : Grown P s₂ s₃) : Grown P s₁ s₃ where
  cr3 := h'.cr3.trans h.cr3
  reach t ht := by
    rcases h'.reach t ht with ht | ht
    · exact h.reach t ht
    · exact Or.inr ht
  keep t ht := h'.keep t (h.keep t ht)
  outside x hx := by
    rw [h'.outside x hx]
    exact h.outside x fun hr => hx (h'.keep _ hr)

theorem Grown.pml4 {P : Nat → Prop} {s s' : Machine σ} (h : Grown P s s') : s'.pml4 = s.pml4 := by
  rw [Machine.pml4, Machine.pml4, h.cr3]

/-! ## One level -/

/-- Zeroing a new frame and linking it below an absent entry is a graft. -/
theorem graft_of_alloc {s : Machine σ} {f t : Nat} {i : Fin 512} {p : List (Fin 512)}
    (user : Bool) (hp : format.node (entries s.mem) 0 s.pml4 p = some t) (hlt : p.length < 3)
    (habs : tableRead s.mem t i &&& Pte.present = 0) (hf : f < 2 ^ 40)
    (hnew : ¬ s.Reachable (f * 4096)) :
    format.Graft (entries s.mem)
      (entries (tableWrite (zeroTable s.mem (f * 4096)) t i (linkEntry (f * 4096) user))) 3 s.pml4
      p t i (f * 4096) := by
  have hreach : s.Reachable t := ⟨p, by omega, hp⟩
  have hal : f * 4096 % 4096 = 0 := by omega
  have hne : f * 4096 ≠ t := fun h => hnew (h ▸ hreach)
  refine ⟨⟨hp, by omega, ?_⟩, hlt, ?_, ?_, ?_, hnew⟩
  · intro u j hu hd
    have hua : u % 4096 = 0 := Reachable.aligned hu
    rw [entries_tableWrite_of_ne _ _ hreach.aligned hua hd]
    apply entries_zeroTable_of_ne _ _ hal hua
    rintro rfl
    exact hnew hu
  · simp only [format, decode, entries, habs, if_true]
  · rw [entries_tableWrite_self _ _ _ (linkEntry_lt ..)]
    exact decode_linkEntry _ user hal (by omega)
  · intro j
    rw [entries_tableWrite_of_ne _ _ hreach.aligned hal (fun h => hne h.1)]
    exact entries_zeroTable_self ..

/-- Writing an entry of a table changes bytes of that table only. -/
theorem tableWrite_of_outside (m : Mem) {t x : Nat} (i : Fin 512) (e : Nat) (ht : t % 4096 = 0)
    (hx : x / 4096 * 4096 ≠ t) : tableWrite m t i e x = m x := by
  have hi := i.isLt
  apply write64_of_outside
  omega

/-- Zeroing a frame changes bytes of that frame only. -/
theorem zeroTable_of_outside (m : Mem) {t x : Nat} (ht : t % 4096 = 0)
    (hx : x / 4096 * 4096 ≠ t) : zeroTable m t x = m x := by
  rw [zeroTable_apply, if_neg (by omega)]

/-- The machine after a new frame was zeroed and linked. -/
def linked (s : Machine σ) (frames : σ) (user : Bool) (f t : Nat) (i : Fin 512) : Machine σ where
  mem := tableWrite (zeroTable s.mem (f * 4096)) t i (linkEntry (f * 4096) user)
  frames := frames
  cr3 := s.cr3

/-- Linking a new frame builds tables. -/
theorem grown_linked {P : Nat → Prop} {s : Machine σ} {frames : σ} {user : Bool} {f t : Nat}
    {i : Fin 512} {p : List (Fin 512)} (ht : s.Tree) (hP : P f)
    (hg : format.Graft (entries s.mem) (entries (s.linked frames user f t i).mem) 3 s.pml4 p t i
      (f * 4096)) : Grown P s (s.linked frames user f t i) where
  cr3 := rfl
  reach u hu := by
    rcases hg.reach ht hu with hu | rfl
    · exact Or.inl hu
    · exact Or.inr ⟨f, hP, rfl⟩
  keep u hu := hg.reach_of_old ht hu
  outside x hx := by
    have hlt := hg.length_lt
    have hr : s.Reachable t := ⟨p, by omega, hg.at_path⟩
    have ht' : x / 4096 * 4096 ≠ t := by
      intro he
      rw [he] at hx
      exact hx (hg.reach_of_old ht hr)
    have hf : x / 4096 * 4096 ≠ f * 4096 := by
      intro he
      rw [he] at hx
      have hlen : (p ++ [i]).length ≤ 3 := by
        simp only [List.length_append, List.length_singleton]
        omega
      exact hx ⟨p ++ [i], hlen, hg.node_new ht⟩
    calc (s.linked frames user f t i).mem x = zeroTable s.mem (f * 4096) x :=
          tableWrite_of_outside _ i _ hr.aligned ht'
      _ = s.mem x := zeroTable_of_outside _ (by omega) hf

variable [FrameSource σ]

/-- The tables form a tree and the allocator hands out frames of physical memory that
are not reachable tables and satisfy `P`. -/
structure Sound (P : Nat → Prop) (s : Machine σ) : Prop where
  tree : s.Tree
  supply : Supplies s.frames fun f => f < 2 ^ 40 ∧ ¬ s.Reachable (f * 4096) ∧ P f

/-- Tables that form a tree, with new frames to come, are sound. -/
theorem Sound.of_tree {s : Machine σ} (htree : s.Tree)
    (hsupply : Supplies s.frames fun f => f < 2 ^ 40 ∧ ¬ s.Reachable (f * 4096)) :
    s.Sound fun _ => True :=
  ⟨htree, hsupply.mono fun _ hf => ⟨hf.1, hf.2, trivial⟩⟩

/-- A frame is taken from the allocator and nothing else happens. -/
theorem allocateFrame_eq_some {s t : Machine σ} {f : Nat} (h : s.allocateFrame = some (f, t)) :
    ∃ frames, FrameSource.allocateFrame s.frames = some (f, frames) ∧
      t = { s with frames := frames } := by
  unfold Machine.allocateFrame at h
  cases ha : FrameSource.allocateFrame s.frames with
  | none => simp [ha] at h
  | some fa =>
    obtain ⟨g, frames⟩ := fa
    simp only [ha, Option.some.injEq, Prod.mk.injEq] at h
    obtain ⟨rfl, rfl⟩ := h
    exact ⟨frames, rfl, rfl⟩

/-- What `descend` does: it follows a present entry, reports that no frame is left, or
links a new frame. -/
theorem descend_cases {s s' : Machine σ} {user : Bool} {t : Nat} {i : Fin 512}
    {r : Except MapError Nat} (h : descend user t i s = (r, s')) :
    (tableRead s.mem t i &&& Pte.present ≠ 0 ∧ r = .ok (tableRead s.mem t i &&& addrMask) ∧
      s' = s) ∨
    (FrameSource.allocateFrame s.frames = none ∧ r = .error .outOfFrames ∧ s' = s) ∨
    ∃ f frames, tableRead s.mem t i &&& Pte.present = 0 ∧
      FrameSource.allocateFrame s.frames = some (f, frames) ∧ r = .ok (f * 4096) ∧
      s' = s.linked frames user f t i := by
  unfold descend at h
  by_cases hpres : tableRead s.mem t i &&& Pte.present = 0
  · simp only [hpres, ne_eq, not_true_eq_false, if_false, allocTable, framePhys,
      Machine.allocateFrame] at h
    cases ha : FrameSource.allocateFrame s.frames with
    | none =>
      simp only [ha, Prod.mk.injEq] at h
      exact Or.inr (Or.inl ⟨rfl, h.1.symm, h.2.symm⟩)
    | some fa =>
      obtain ⟨f, frames⟩ := fa
      simp only [ha, Prod.mk.injEq] at h
      exact Or.inr (Or.inr ⟨f, frames, hpres, rfl, h.1.symm, h.2.symm⟩)
  · simp only [ne_eq, hpres, not_false_eq_true, if_true, Prod.mk.injEq] at h
    exact Or.inl ⟨hpres, h.1.symm, h.2.symm⟩

/-- One level of the walk keeps the machine sound and every translation, and leads to
the table at the extended path. -/
theorem descend_spec {P : Nat → Prop} {s s' : Machine σ} {user : Bool} {t : Nat} {i : Fin 512}
    {p : List (Fin 512)} {r : Except MapError Nat} (hs : s.Sound P)
    (hp : format.node (entries s.mem) 0 s.pml4 p = some t) (hlt : p.length < 3)
    (hstop : decode p.length (tableRead s.mem t i) ≠ .stop) (h : descend user t i s = (r, s')) :
    s'.Sound P ∧ Grown P s s' ∧ (∀ q, q.length = 4 → s'.lookup q = s.lookup q) ∧
      ∀ u, r = .ok u → format.node (entries s'.mem) 0 s'.pml4 (p ++ [i]) = some u := by
  rcases descend_cases h with ⟨hpres, rfl, rfl⟩ | ⟨-, rfl, rfl⟩ | ⟨f, frames, habs, ha, rfl, rfl⟩
  · refine ⟨hs, Grown.refl P s', fun q hq => rfl, fun u hu => ?_⟩
    obtain rfl := Except.ok.inj hu
    rw [Format.node_concat, hp, Option.bind_some, Nat.zero_add]
    apply Format.child_of_down
    have hd : decode p.length (tableRead s'.mem t i) =
        .down (tableRead s'.mem t i &&& addrMask) := by
      simp only [decode, hpres, if_false] at hstop ⊢
      split_ifs at hstop ⊢
      · exact absurd rfl hstop
      · rfl
    exact hd
  · exact ⟨hs, Grown.refl P s', fun q hq => rfl, fun u hu => by simp at hu⟩
  · obtain ⟨⟨hf, hnew, hPf⟩, hsup⟩ := hs.supply.step ha
    have hg : format.Graft (entries s.mem) (entries (s.linked frames user f t i).mem) 3 s.pml4 p t i
        (f * 4096) := graft_of_alloc user hp hlt habs hf hnew
    refine ⟨⟨hg.tree hs.tree, hsup.mono ?_⟩, grown_linked hs.tree hPf hg,
      fun q hq => hg.lookup_eq hs.tree hq, fun u hu => ?_⟩
    · rintro g ⟨⟨hg40, hgr, hPg⟩, hgf⟩
      refine ⟨hg40, fun hr => ?_, hPg⟩
      rcases hg.reach hs.tree hr with hr | he
      · exact hgr hr
      · omega
    · obtain rfl := Except.ok.inj hu
      exact hg.node_new hs.tree

/-! ## The whole walk -/

/-- What holds when the walk from `s` has come to table `t` at path `p`. -/
structure Descended (P : Nat → Prop) (s s' : Machine σ) (p : List (Fin 512)) (t : Nat) :
    Prop where
  sound : s'.Sound P
  grown : Grown P s s'
  lookups : ∀ q, q.length = 4 → s'.lookup q = s.lookup q
  node : format.node (entries s'.mem) 0 s'.pml4 p = some t

/-- The walk starts at the root. -/
theorem Descended.start {P : Nat → Prop} {s : Machine σ} (hs : s.Sound P) :
    Descended P s s [] s.pml4 :=
  ⟨hs, Grown.refl P s, fun _ _ => rfl, rfl⟩

/-- The walk goes down one level. -/
theorem Descended.step {P : Nat → Prop} {s s₁ s₂ : Machine σ} {p r : List (Fin 512)} {t : Nat}
    {i : Fin 512} {user : Bool} {res : Except MapError Nat} (hd : Descended P s s₁ p t)
    (hr : r ≠ []) (hlen : (p ++ i :: r).length = 4) (hopen : (s.lookup (p ++ i :: r)).2 = false)
    (h : descend user t i s₁ = (res, s₂)) :
    s₂.Sound P ∧ Grown P s s₂ ∧ (∀ q, q.length = 4 → s₂.lookup q = s.lookup q) ∧
      ∀ u, res = .ok u → Descended P s s₂ (p ++ [i]) u := by
  have hlt : p.length < 3 := by
    have := List.length_pos_of_ne_nil hr
    simp only [List.length_append, List.length_cons] at hlen
    omega
  have hstop : decode p.length (tableRead s₁.mem t i) ≠ .stop := by
    rw [← hd.lookups _ hlen] at hopen
    have := Format.decode_ne_stop hd.node hr hopen
    rwa [Nat.zero_add] at this
  obtain ⟨hs, hgrown, hsame, hnode⟩ := descend_spec hd.sound hd.node hlt hstop h
  have hlook : ∀ q, q.length = 4 → s₂.lookup q = s.lookup q :=
    fun q hq => (hsame q hq).trans (hd.lookups q hq)
  exact ⟨hs, hd.grown.trans hgrown, hlook,
    fun u hu => ⟨hs, hd.grown.trans hgrown, hlook, hnode u hu⟩⟩

/-- The leaf write updates one entry of the last table. -/
theorem Descended.update {P : Nat → Prop} {s s₁ : Machine σ} {p : List (Fin 512)} {t : Nat}
    (hd : Descended P s s₁ p t) (hp : p.length = 3) (i : Fin 512) (e : Nat) :
    format.Update (entries s₁.mem) (entries (tableWrite s₁.mem t i e)) 3 s₁.pml4 p t i := by
  have hr : s₁.Reachable t := ⟨p, by omega, hd.node⟩
  refine ⟨hd.node, by omega, fun u j hru hne => ?_⟩
  exact entries_tableWrite_of_ne _ _ hr.aligned (Reachable.aligned (s := s₁) hru) hne

/-- The leaf write changes the translation along one path. -/
theorem leaf_spec {P : Nat → Prop} {s s₁ s' : Machine σ} {p : List (Fin 512)} {t e : Nat}
    {i : Fin 512} (hd : Descended P s s₁ p t) (hp : p.length = 3) (he : e < 2 ^ 64)
    (hs' : s' = s₁.setMem (tableWrite s₁.mem t i e)) :
    s'.Sound P ∧ Grown P s s' ∧ s'.lookup (p ++ [i]) = (e, false) ∧
      ∀ q, q.length = 4 → q ≠ p ++ [i] → s'.lookup q = s.lookup q := by
  have hmem : s'.mem = tableWrite s₁.mem t i e := by rw [hs', setMem_mem]
  have hcr3 : s'.cr3 = s₁.cr3 := by rw [hs', setMem_cr3]
  have hpml4 : s'.pml4 = s₁.pml4 := by rw [hs', setMem_pml4]
  have hframes : s'.frames = s₁.frames := by rw [hs', setMem_frames]
  have hr : s₁.Reachable t := ⟨p, by omega, hd.node⟩
  have hu : format.Update (entries s₁.mem) (entries s'.mem) 3 s₁.pml4 p t i := by
    rw [hmem]
    exact hd.update hp i e
  have hreach : ∀ u, s'.Reachable u ↔ s₁.Reachable u := by
    intro u
    rw [Reachable, Reachable, hpml4]
    exact hu.reach_of_last hd.sound.tree hp
  have htree : s'.Tree := by
    rw [Tree, hpml4]
    exact hu.tree_of_last hd.sound.tree hp
  have hsupply : Supplies s'.frames fun f => f < 2 ^ 40 ∧ ¬ s'.Reachable (f * 4096) ∧ P f := by
    rw [hframes]
    apply hd.sound.supply.mono
    rintro f ⟨hf, hfr, hP⟩
    exact ⟨hf, fun h => hfr ((hreach _).mp h), hP⟩
  have hgrown : Grown P s₁ s' := by
    refine ⟨hcr3, fun u hru => Or.inl ((hreach u).mp hru), fun u hru => (hreach u).mpr hru, ?_⟩
    intro x hx
    rw [hmem]
    apply tableWrite_of_outside _ _ _ hr.aligned
    intro h
    exact hx ((hreach _).mpr (h ▸ hr))
  refine ⟨⟨htree, hsupply⟩, hd.grown.trans hgrown, ?_, ?_⟩
  · rw [lookup, hpml4, hu.lookup_self hd.sound.tree hp, hmem, entries_tableWrite_self _ _ _ he]
  · intro q hq hne
    rw [lookup, hpml4, hu.lookup_other hd.sound.tree hp hq hne]
    exact hd.lookups q hq

theorem leafEntry_lt (phys : Nat) (user nx : Bool) : leafEntry phys user nx < 2 ^ 64 := by
  have hm : phys &&& addrMask < 2 ^ 64 := by
    rw [and_addrMask]
    omega
  have hp : (phys &&& addrMask) ||| Pte.present ||| Pte.writable < 2 ^ 64 :=
    Nat.or_lt_two_pow (Nat.or_lt_two_pow hm (by decide)) (by decide)
  have hu : (phys &&& addrMask) ||| Pte.present ||| Pte.writable ||| Pte.user < 2 ^ 64 :=
    Nat.or_lt_two_pow hp (by decide)
  cases user <;> cases nx <;>
    simp only [leafEntry, entryPage, if_true, Bool.false_eq_true, if_false]
  · exact hp
  · exact Nat.or_lt_two_pow hp (by decide)
  · exact hu
  · exact Nat.or_lt_two_pow hu (by decide)

/-- Specification of `mapPageImpl` on a page without a huge entry on its path: tables
may grow; if the call fails no translation changes, and if it succeeds only the
mapped page's does. -/
theorem mapPageImpl_spec {P : Nat → Prop} {s s' : Machine σ} {virt phys : Nat} {user nx : Bool}
    {r : Except MapError Unit} (hs : s.Sound P) (hopen : (s.lookup (path virt)).2 = false)
    (h : s.mapPageImpl virt phys user nx = (r, s')) :
    s'.Sound P ∧ Grown P s s' ∧
      ((∃ e, r = .error e) ∧ (∀ q, q.length = 4 → s'.lookup q = s.lookup q) ∨
        r = .ok () ∧ s'.lookup (path virt) = (leafEntry phys user nx, false) ∧
          ∀ q, q.length = 4 → q ≠ path virt → s'.lookup q = s.lookup q) := by
  unfold mapPageImpl at h
  cases h₄ : descend user s.pml4 (index4 virt) s with
  | mk r₄ s₁ =>
  obtain ⟨hs₁, hg₁, hl₁, hd₁⟩ := (Descended.start hs).step (by simp) rfl hopen h₄
  cases r₄ with
  | error e =>
    simp only [h₄, Prod.mk.injEq] at h
    obtain ⟨rfl, rfl⟩ := h
    exact ⟨hs₁, hg₁, Or.inl ⟨⟨e, rfl⟩, hl₁⟩⟩
  | ok pdpt =>
    simp only [h₄] at h
    cases h₃ : descend user pdpt (index3 virt) s₁ with
    | mk r₃ s₂ =>
    obtain ⟨hs₂, hg₂, hl₂, hd₂⟩ := (hd₁ pdpt rfl).step (by simp) rfl hopen h₃
    cases r₃ with
    | error e =>
      simp only [h₃, Prod.mk.injEq] at h
      obtain ⟨rfl, rfl⟩ := h
      exact ⟨hs₂, hg₂, Or.inl ⟨⟨e, rfl⟩, hl₂⟩⟩
    | ok pd =>
      simp only [h₃] at h
      cases h₂ : descend user pd (index2 virt) s₂ with
      | mk r₂ s₃ =>
      obtain ⟨hs₃, hg₃, hl₃, hd₃⟩ := (hd₂ pd rfl).step (r := [index1 virt]) (by simp) rfl hopen h₂
      cases r₂ with
      | error e =>
        simp only [h₂, Prod.mk.injEq] at h
        obtain ⟨rfl, rfl⟩ := h
        exact ⟨hs₃, hg₃, Or.inl ⟨⟨e, rfl⟩, hl₃⟩⟩
      | ok pt =>
        simp only [h₂, Prod.mk.injEq] at h
        obtain ⟨rfl, rfl⟩ := h
        obtain ⟨hs', hg', hself, hother⟩ :=
          leaf_spec (hd₃ pt rfl) rfl (leafEntry_lt phys user nx) rfl
        exact ⟨hs', hg', Or.inr ⟨rfl, hself, hother⟩⟩

/-- The leaf of a page-aligned frame: its address and the flags asked for. -/
theorem leafEntry_eq {phys : Nat} (user nx : Bool) (hal : phys % 4096 = 0) (hp : phys < 2 ^ 52) :
    leafEntry phys user nx = phys ||| Pte.present ||| Pte.writable |||
      (if user then Pte.user else 0) ||| (if nx then Pte.nx else 0) := by
  cases user <;> cases nx <;>
    simp [leafEntry, entryPage, and_addrMask_of_aligned hal hp]

/-- **Mapping changes exactly one page.** Over tables that form a tree, with an allocator
that hands out different frames of the 52-bit physical memory, none of them a table, a
successful mapping of an unmapped page gives it the frame and flags asked for and
changes the translation of no other page. -/
theorem mapPageImpl_changes_one_page {s s' : Machine σ} {virt phys : Nat} {user nx : Bool}
    (htree : s.Tree)
    (hsupply : Supplies s.frames fun f => f < 2 ^ 40 ∧ ¬ s.Reachable (f * 4096))
    (hvirt : Canonical virt) (hunmapped : s.translate virt &&& Pte.present = 0)
    (hphys : phys < 2 ^ 52) (haligned : phys % 4096 = 0)
    (h : s.mapPageImpl virt phys user nx = (.ok (), s')) :
    s'.translate virt = phys ||| Pte.present ||| Pte.writable |||
        (if user then Pte.user else 0) ||| (if nx then Pte.nx else 0) ∧
      ∀ v, Canonical v → v / 4096 ≠ virt / 4096 → s'.translate v = s.translate v := by
  have hs := Sound.of_tree htree hsupply
  obtain ⟨-, -, ⟨⟨e, he⟩, -⟩ | ⟨-, hself, hother⟩⟩ :=
    mapPageImpl_spec hs (not_stopped_of_unmapped hunmapped) h
  · exact absurd he (by simp)
  · constructor
    · rw [translate_eq, hself]
      exact leafEntry_eq user nx haligned hphys
    · intro v hv hne
      rw [translate_eq, translate_eq, hother (path v) rfl]
      intro hpath
      exact hne (page_eq_of_path_eq hv hvirt hpath)

end Machine

/-- A machine with an empty root table in frame 1 and frames 2 to 7 free. -/
def blankMachine : Machine FrameAllocator where
  mem := fun _ => 0
  frames := FrameAllocator.empty.install [⟨2, 6⟩] (by decide)
  cr3 := 0x1000

/-- Only the root is reachable in a blank machine. -/
theorem node_blankMachine {q : List (Fin 512)} {t : Nat}
    (h : format.node (entries blankMachine.mem) 0 blankMachine.pml4 q = some t) :
    q = [] ∧ t = 0x1000 := by
  cases q with
  | nil => exact ⟨rfl, (Option.some.inj h).symm⟩
  | cons i q =>
    have hz : ∀ t, entries blankMachine.mem t i = 0 := fun t => read64_zero _
    simp [Format.node, Format.child, format, decode, hz] at h

theorem blankMachine_tree : blankMachine.Tree := by
  intro p q t _ _ hp hq
  rw [(node_blankMachine hp).1, (node_blankMachine hq).1]

theorem blankMachine_supplies :
    Supplies blankMachine.frames fun f => f < 2 ^ 40 ∧ ¬ blankMachine.Reachable (f * 4096) := by
  have hfree : freeList blankMachine.frames.active = [2, 3, 4, 5, 6, 7] := by decide
  apply supplies_frameAllocator
  · rw [hfree]
    decide
  · intro f hf
    simp only [hfree, List.mem_cons, List.not_mem_nil, or_false] at hf
    constructor
    · omega
    · rintro ⟨q, -, hn⟩
      have h1 := (node_blankMachine hn).2
      omega

theorem translate_blankMachine (v : Nat) : blankMachine.translate v = 0 := by
  have hz : tableRead blankMachine.mem blankMachine.pml4 (index4 v) = 0 := read64_zero _
  simp [Machine.translate, hz]

/-- A user page mapped into a blank machine, and the page above it. -/
theorem mapPageImpl_changes_one_page_blank :
    ∃ s', blankMachine.mapPageImpl 0x400000 0x8000 true false = (.ok (), s') ∧
      s'.translate 0x400000 = 0x8007 ∧ s'.translate 0x401000 = 0 := by
  have hok : (blankMachine.mapPageImpl 0x400000 0x8000 true false).1 = .ok () := by
    decide +kernel
  have hrun := Prod.fst_eq_iff.mp hok
  obtain ⟨hself, hother⟩ := Machine.mapPageImpl_changes_one_page blankMachine_tree
    blankMachine_supplies (by decide) (by rw [translate_blankMachine, Nat.zero_and]) (by decide)
    (by decide) hrun
  exact ⟨_, hrun, hself, (hother 0x401000 (by decide) (by decide)).trans (translate_blankMachine _)⟩

end LionOS.Paging
