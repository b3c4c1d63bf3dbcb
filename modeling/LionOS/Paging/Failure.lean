import LionOS.Paging.Fresh

/-!
# Running out of frames

A call that finds no frame for a table returns with the tables it has linked so far in
place. No translation changes: a fresh table is blank, so everything below it is as
unmapped as it was. No frame is lost either: the frames taken hang one below the other
from an entry that was not present, each all zero apart from the link to the next.
-/

namespace LionOS.Paging

open Lib Frames

namespace Machine

variable {σ : Type*}

/-- The frames `fs` hang from an entry along the path `q` that was not present in `s` and is
in `s'`, in a table of both. -/
def LinkedAlong (user : Bool) (s s' : Machine σ) (q : List (Fin 512)) : List Nat → Prop
  | [] => s' = s
  | f :: fs => ∃ q₁ i q₂ t, q = q₁ ++ i :: q₂ ∧ format.node (entries s.mem) 0 s.pml4 q₁ = some t ∧
      format.node (entries s'.mem) 0 s'.pml4 q₁ = some t ∧
      tableRead s.mem t i &&& Pte.present = 0 ∧
      tableRead s'.mem t i = linkEntry (f * 4096) user ∧ FreshChain user s'.mem f q₂ fs

/-- A linked table is the one at the extended path. -/
theorem node_of_link {s : Machine σ} {user : Bool} {f t : Nat} {i : Fin 512} {p : List (Fin 512)}
    (hp : format.node (entries s.mem) 0 s.pml4 p = some t) (hf : f < 2 ^ 40)
    (hlink : tableRead s.mem t i = linkEntry (f * 4096) user) :
    format.node (entries s.mem) 0 s.pml4 (p ++ [i]) = some (f * 4096) := by
  have hentry : entries s.mem t i = linkEntry (f * 4096) user := hlink
  rw [Format.node_concat, hp, Option.bind_some]
  apply Format.child_of_down
  rw [hentry]
  exact decode_linkEntry _ user (by omega) (by omega)

variable [FrameSource σ]

/-- Where the walk runs out of frames: it has followed entries that are present, and below
the first that is not it has linked what frames were left. -/
theorem descendAll_of_error {user : Bool} {P : Nat → Prop} {s s' : Machine σ}
    {p q r : List (Fin 512)} {t : Nat} {e : MapError} (hs : s.Sound P)
    (hp : format.node (entries s.mem) 0 s.pml4 p = some t) (hr : r ≠ [])
    (hlen : (p ++ q ++ r).length = 4) (hopen : (s.lookup (p ++ q ++ r)).2 = false)
    (h : descendAll user q t s = (.error e, s')) :
    ∃ fs, Takes fs s.frames s'.frames ∧ FrameSource.allocateFrame s'.frames = none ∧
      s.LinkedAlong user s' (p ++ q) fs := by
  induction q generalizing p t with
  | nil => exact absurd h (by simp [descendAll])
  | cons i q ih =>
    have hlt : p.length < 3 := by
      have := List.length_pos_of_ne_nil hr
      simp only [List.length_append, List.length_cons] at hlen
      omega
    rw [descendAll] at h
    cases hd : descend user t i s with
    | mk res s₁ =>
    simp only [hd] at h
    rcases descend_cases hd with ⟨hpres, rfl, rfl⟩ | ⟨hnone, rfl, rfl⟩ |
      ⟨f, frames, habs, ha, rfl, rfl⟩
    · have hstop : decode p.length (tableRead s₁.mem t i) ≠ .stop := by
        rw [List.append_assoc, List.cons_append] at hopen
        have := Format.decode_ne_stop hp (by simp [hr]) hopen
        rwa [Nat.zero_add] at this
      obtain ⟨-, -, -, hnode⟩ := descend_spec hs hp hlt hstop hd
      rw [List.append_cons] at hlen hopen ⊢
      exact ih (hnode _ rfl) hlen hopen h
    · obtain ⟨-, rfl⟩ := Prod.mk.inj h
      exact ⟨[], rfl, hnone, rfl⟩
    · obtain ⟨⟨hf, hnew, -⟩, hsup⟩ := hs.supply.step ha
      have hreach : s.Reachable t := ⟨p, by omega, hp⟩
      have hft : f * 4096 ≠ t := fun hc => hnew (hc ▸ hreach)
      have hblank := @tableRead_linked_self _ s frames user f t i hreach.aligned hft
      obtain ⟨fs, hung, hP⟩ := descendAll_of_blank hblank hsup h
      -- No frame handed out is a table of `s`, so one entry of these tables changes.
      have hold : ∀ u j, s.Reachable u →
          tableRead s'.mem u j = tableRead (s.linked frames user f t i).mem u j := by
        intro u j hu
        apply hung.same u j hu.aligned
        · rintro rfl
          exact hnew hu
        · rintro g hg rfl
          exact (hP g hg).2.1 hu
      have hpml4 : s'.pml4 = s.pml4 := by rw [pml4, pml4, hung.cr3]; rfl
      have hupdate : format.Update (entries s.mem) (entries s'.mem) 3 s.pml4 p t i := by
        refine ⟨hp, by omega, fun u j hu hne => (hold u j hu).trans ?_⟩
        apply tableRead_linked s frames user hreach.aligned (Reachable.aligned (s := s) hu) _ hne
        rintro rfl
        exact hnew hu
      refine ⟨f :: fs, ⟨frames, ha, hung.takes⟩, hung.dry e rfl, p, i, q, t, rfl, hp, ?_, habs, ?_,
        hung.chain⟩
      · rw [hpml4, hupdate.node_eq hs.tree (by omega), hp]
        intro hc
        have := hc.length_le
        simp only [List.length_append, List.length_singleton] at this
        omega
      · rw [hold t i hreach]
        exact entries_tableWrite_self _ _ _ (linkEntry_lt ..)

omit [FrameSource σ] in
/-- The frames of a chain are tables below its first. -/
private theorem reachable_of_chain {user : Bool} {s : Machine σ} {f : Nat} {p q : List (Fin 512)}
    {fs : List Nat} (hlen : (p ++ q).length ≤ 3) (hfs : ∀ g ∈ f :: fs, g < 2 ^ 40)
    (hp : format.node (entries s.mem) 0 s.pml4 p = some (f * 4096))
    (h : FreshChain user s.mem f q fs) : ∀ g ∈ f :: fs, s.Reachable (g * 4096) := by
  have hfirst : s.Reachable (f * 4096) := by
    simp only [List.length_append] at hlen
    exact ⟨p, by omega, hp⟩
  induction fs generalizing f p q with
  | nil => simpa using hfirst
  | cons g fs ih =>
    cases q with
    | nil => exact absurd h id
    | cons i q =>
      obtain ⟨hlink, hrest⟩ := h
      obtain ⟨-, hfs⟩ := List.forall_mem_cons.mp hfs
      have hg := hfs g List.mem_cons_self
      have hdown := node_of_link hp hg ((hlink i).trans (if_pos rfl))
      rw [List.append_cons] at hlen
      refine List.forall_mem_cons.mpr ⟨hfirst, ih hlen hfs hdown hrest ?_⟩
      simp only [List.length_append] at hlen
      exact ⟨p ++ [i], by simp only [List.length_append]; omega, hdown⟩

/-- **A failed mapping changes no translation.** Over tables that form a tree, with an
allocator that hands out different frames of the 52-bit physical memory, none of them a
table, and may run dry at any point: if mapping an unmapped page runs out of frames, every
address translates as before. The frames the call took, all the allocator had left, are
tables below an entry along the page's path that was not present and that the call has
written; each was linked all zero, and only the link to the next frame taken was written to
it since. -/
theorem mapPageImpl_outOfFrames {s s' : Machine σ} {virt phys : Nat} {user nx : Bool}
    (htree : s.Tree)
    (hsupply : Supplies s.frames fun f => f < 2 ^ 40 ∧ ¬ s.Reachable (f * 4096))
    (hunmapped : s.translate virt &&& Pte.present = 0)
    (h : s.mapPageImpl virt phys user nx = (.error .outOfFrames, s')) :
    (∀ v, s'.translate v = s.translate v) ∧
      ∃ fs, Takes fs s.frames s'.frames ∧ FrameSource.allocateFrame s'.frames = none ∧
        s.LinkedAlong user s' [index4 virt, index3 virt, index2 virt] fs ∧
        ∀ f ∈ fs, s'.Reachable (f * 4096) := by
  have hs := Sound.of_tree htree hsupply
  have hopen := not_stopped_of_unmapped hunmapped
  obtain ⟨-, -, ⟨-, hsame⟩ | ⟨hok, -⟩⟩ := mapPageImpl_spec hs hopen h
  · refine ⟨fun v => ?_, ?_⟩
    · rw [translate_eq, translate_eq, hsame (path v) rfl]
    have hwalk : descendAll user [index4 virt, index3 virt, index2 virt] s.pml4 s =
        (.error .outOfFrames, s') := by
      rw [mapPageImpl_eq] at h
      split at h
      next e s₁ hd =>
        obtain ⟨he, rfl⟩ := Prod.mk.inj h
        rw [hd, Except.error.inj he]
      next => exact absurd h (by simp)
    obtain ⟨fs, htakes, hdry, hlinked⟩ := descendAll_of_error (p := []) (r := [index1 virt]) hs rfl
      (by simp) rfl hopen hwalk
    refine ⟨fs, htakes, hdry, hlinked, ?_⟩
    have hphys : ∀ f ∈ fs, f < 2 ^ 40 := fun f hf => (htakes.of_supplies hsupply f hf).1
    cases fs with
    | nil => simp
    | cons f fs =>
      obtain ⟨q₁, i, q₂, t, hq, -, hnode, -, hlink, hchain⟩ := hlinked
      have hlen := congrArg List.length hq
      simp only [List.nil_append, List.length_cons, List.length_append, List.length_nil] at hlen
      have hf := hphys f List.mem_cons_self
      apply reachable_of_chain (p := q₁ ++ [i]) _ hphys _ hchain
      · simp only [List.length_append, List.length_singleton]
        omega
      · exact node_of_link hnode hf hlink
  · exact absurd hok (by simp)

end Machine

/-- A blank machine with two frames left. -/
def scarceMachine : Machine FrameAllocator :=
  { blankMachine with frames := FrameAllocator.empty.install [⟨2, 2⟩] (by decide) }

/-- A mapping in a blank machine needs three tables; with two frames left it fails, and the
two are linked one below the other. -/
theorem mapPageImpl_outOfFrames_scarce :
    ∃ s', scarceMachine.mapPageImpl 0x400000 0x8000 true false = (.error .outOfFrames, s') ∧
      (∀ v, s'.translate v = 0) ∧ ∃ fs, Takes fs scarceMachine.frames s'.frames ∧
        ∀ f ∈ fs, s'.Reachable (f * 4096) := by
  have hfree : freeList scarceMachine.frames.active = [2, 3] := by decide
  have hsupply : Supplies scarceMachine.frames
      fun f => f < 2 ^ 40 ∧ ¬ scarceMachine.Reachable (f * 4096) := by
    apply supplies_frameAllocator
    · rw [hfree]
      decide
    · rintro f hf
      simp only [hfree, List.mem_cons, List.not_mem_nil, or_false] at hf
      refine ⟨by omega, ?_⟩
      rintro ⟨q, -, hn⟩
      have h1 := (node_blankMachine hn).2
      omega
  have herr : (scarceMachine.mapPageImpl 0x400000 0x8000 true false).1 = .error .outOfFrames := by
    decide +kernel
  have hrun := Prod.fst_eq_iff.mp herr
  have htree : scarceMachine.Tree := blankMachine_tree
  have hzero : ∀ v, scarceMachine.translate v = 0 := translate_blankMachine
  obtain ⟨hsame, fs, htakes, -, -, hreach⟩ := Machine.mapPageImpl_outOfFrames htree hsupply
    (by rw [hzero, Nat.zero_and]) hrun
  exact ⟨_, hrun, fun v => (hsame v).trans (hzero v), fs, htakes, hreach⟩

end LionOS.Paging
