import LionOS.User.Bounds

/-!
# Where a load is cut short

A copy of the load loop faults when it comes to an address where nothing is mapped: it was
not before the load, and neither this turn nor one before it has mapped the page. As long
as the turns stay in the region, the headers and the machine before the load say which of
them is the first to fault.
-/

namespace LionOS.User

open Lib Paging

variable {σ : Type} [FrameSource σ]

/-- After the steps `done` of a load from `s`, nothing is mapped at address `v` above the
base. -/
def Absent (base : Nat) (s : Machine σ) (done : List (PageLoad UInt8)) (v : Nat) : Prop :=
  s.physical (base + v) = none ∧ ∀ st ∈ done, st.page ≠ v / 4096

/-- After the steps `done`, the step `st` copies a byte to an address where nothing is
mapped. -/
def Faults (base : Nat) (s : Machine σ) (done : List (PageLoad UInt8)) (st : PageLoad UInt8) :
    Prop :=
  ∃ v, st.Writes v ∧ Absent base s (done ++ [st]) v

/-- None of the steps faults. -/
def GoesThrough (base : Nat) (s : Machine σ) (sts : List (PageLoad UInt8)) : Prop :=
  ∀ done st rest, sts = done ++ st :: rest → ¬ Faults base s done st

/-- The frame is one that the allocator is going to hand out. -/
def Coming (s : Machine σ) (f : Nat) : Prop := ∃ n, f ∈ handed n s.frames

/-- The page above the region is mapped to no page table and to no frame to come. -/
def NextPageApart (base : Nat) (s : Machine σ) : Prop :=
  ∀ v, 2 ^ 39 ≤ v → v < 2 ^ 39 + 4096 → ∀ x, s.physical (base + v) = some x →
    ¬ s.Reachable (x / 4096 * 4096) ∧ ¬ Coming s (x / 4096)

omit [FrameSource σ] in
theorem goesThrough_nil {base : Nat} {s : Machine σ} : GoesThrough base s [] := by
  intro done st rest h
  simp at h

omit [FrameSource σ] in
theorem GoesThrough.initial {base : Nat} {s : Machine σ} {sts more : List (PageLoad UInt8)}
    (h : GoesThrough base s (sts ++ more)) : GoesThrough base s sts := by
  intro done st rest hsts
  exact h done st (rest ++ more) (by simp [hsts])

omit [FrameSource σ] in
theorem goesThrough_concat {base : Nat} {s : Machine σ} {sts : List (PageLoad UInt8)}
    {st : PageLoad UInt8} :
    GoesThrough base s (sts ++ [st]) ↔ GoesThrough base s sts ∧ ¬ Faults base s sts st := by
  constructor
  · intro h
    exact ⟨h.initial, h sts st [] rfl⟩
  · rintro ⟨h, hlast⟩ done st' rest hsts
    rcases List.eq_nil_or_concat rest with rfl | ⟨rest, e, rfl⟩
    · obtain ⟨rfl, hst⟩ := List.append_inj' hsts rfl
      obtain rfl := List.singleton_inj.mp hst
      exact hlast
    · rw [List.concat_eq_append, ← List.cons_append, ← List.append_assoc] at hsts
      exact h done st' rest (List.append_inj' hsts rfl).1

/-- What the machine is like after the steps `done` of a load from `s`, all of them in the
region: the region has the pages of the steps, the page above it is as before, and all new
tables are in frames that were to come. -/
structure Reached (base : Nat) (s : Machine σ) (done : List (PageLoad UInt8)) (t : Machine σ) :
    Prop where
  shows : ∃ frame A, Shows base InRegion s.mem (Coming s) frame t A ∧
    ∀ v < 2 ^ 39, A v ≠ .unmapped ↔ ∃ st ∈ done, st.page = v / 4096
  inside : ∀ st ∈ done, st.page < 2 ^ 27
  next : ∀ v, 2 ^ 39 ≤ v → v < 2 ^ 39 + 4096 → t.physical (base + v) = s.physical (base + v)
  tables : ∀ u, t.Reachable u → s.Reachable u ∨ ∃ f, Coming s f ∧ u = f * 4096

section

variable {base v : Nat} {s t t' : Machine σ} {done : List (PageLoad UInt8)} {st : PageLoad UInt8}
  (hb : IsWindow base InRegion) (hal : base % 2 ^ 39 = 0)

/-- Before the first step. -/
theorem Reached.start (htree : s.Tree)
    (hsupply : Supplies s.frames fun f => f < 2 ^ 40 ∧ ¬ s.Reachable (f * 4096))
    (hvacant : Vacant base InRegion s) : Reached base s [] s where
  shows := by
    refine ⟨_, _, shows_empty htree hsupply hvacant (m := s.mem) fun _ _ => rfl, fun v _ => ?_⟩
    simp [AddressSpace.empty]
  inside := by simp
  next _ _ _ := rfl
  tables _ hu := Or.inl hu

include hb

omit [FrameSource σ] in
/-- Addresses of the region and of the page above it are below different top-level entries. -/
theorem index4_next_ne {w : Nat} (hal : base % 2 ^ 39 = 0) (hv : v < 2 ^ 39) (hw : 2 ^ 39 ≤ w)
    (hw' : w < 2 ^ 39 + 4096) : index4 (base + w) ≠ index4 (base + v) := by
  have hlt := hb.lt_word hv
  intro h
  have hval := congrArg Fin.val h
  rw [index4, index4, indexAt_val, indexAt_val] at hval
  omega

include hal in
/-- A new page of the region. -/
theorem Reached.newPage {writable : Bool} (h : Reached base s done t) (hv : v < 2 ^ 39)
    (hst : st.page = v / 4096) (hok : mapNew writable (base + v) t = .ok t') :
    Reached base s (done ++ [st]) t' := by
  obtain ⟨frame, A, hshow, hA⟩ := h.shows
  obtain ⟨f, hnew⟩ := newPage_of_mapNew hshow.sound (hshow.not_stopped hv) hok
  obtain ⟨frame', hshow'⟩ := hshow.newPage hb hv hok
  constructor
  case shows =>
    refine ⟨frame', _, hshow', fun w hw => ?_⟩
    rw [AddressSpace.mapPage_unmapped, hA w hw, ← hst]
    simp only [List.mem_append, List.mem_singleton, or_and_right, exists_or, exists_eq_left]
    rw [or_comm, eq_comm (a := st.page)]
  case inside =>
    intro e he
    rcases List.mem_append.mp he with he | he
    · exact h.inside e he
    · rw [List.mem_singleton.mp he]
      omega
  case next =>
    intro w hw hw'
    rw [← h.next w hw hw']
    exact (hnew.elsewhere _ (index4_next_ne hb hal hv hw hw')).physical_eq
  case tables =>
    intro u hu
    rcases hnew.grown.reach u hu with hu | ⟨g, hg, rfl⟩
    · exact h.tables u hu
    · exact Or.inr ⟨g, hg.1.1, rfl⟩

omit hb in
/-- A store changes no table. -/
theorem Reached.setMem {m : Mem} {frame : Nat → Option Nat} {A : AddressSpace UInt8}
    (h : Reached base s done t) (hsame : t.SameTables m)
    (hshow : Shows base InRegion s.mem (Coming s) frame (t.setMem m) A)
    (hA : ∀ v < 2 ^ 39, A v ≠ .unmapped ↔ ∃ st ∈ done, st.page = v / 4096) :
    Reached base s done (t.setMem m) where
  shows := ⟨frame, A, hshow, hA⟩
  inside := h.inside
  next v hv hv' := by rw [(hsame.keeps le_rfl).physical_eq, h.next v hv hv']
  tables u hu := h.tables u (hsame.reachable.mp hu)

/-- A store to the region or to the page above it faults where nothing is mapped. -/
theorem Reached.storeByte (hvacant : Vacant base InRegion s) (hnext : NextPageApart base s)
    (h : Reached base s done t) (hv : v < 2 ^ 39 + 4096) (b : UInt8) :
    (t.storeByte (base + v) b = none ∧ Absent base s done v) ∨
      ∃ t', t.storeByte (base + v) b = some t' ∧ ¬ Absent base s done v ∧
        Reached base s done t' := by
  obtain ⟨frame, A, hshow, hA⟩ := h.shows
  by_cases hin : v < 2 ^ 39
  · by_cases hmapped : A v = .unmapped
    · refine Or.inl ⟨hshow.storeByte_none hb hin hmapped b, ?_, fun st hst hp => ?_⟩
      · exact Machine.physical_of_blank (hb.canonical v hin) (hvacant v hin)
      · exact (hA v hin).mpr ⟨st, hst, hp⟩ hmapped
    · obtain ⟨m, hsame, hstore, hshow'⟩ := hshow.storeByte hb hin hmapped b
      refine Or.inr ⟨_, hstore, fun habs => ?_, h.setMem hsame hshow' fun w hw => ?_⟩
      · obtain ⟨st, hst, hp⟩ := (hA v hin).mp hmapped
        exact habs.2 st hst hp
      · by_cases hwv : w = v
        · rw [hwv, Function.update_self, ← hA v hin]
          exact ⟨fun _ => hmapped, fun _ => by simp⟩
        · rw [Function.update_of_ne hwv]
          exact hA w hw
  · have hphys := h.next v (by omega) hv
    cases hx : s.physical (base + v) with
    | none =>
      refine Or.inl ⟨?_, hx, fun st hst hp => ?_⟩
      · rw [Machine.storeByte, hphys, hx]
        rfl
      · have := h.inside st hst
        omega
    | some x =>
      obtain ⟨htable, hcoming⟩ := hnext v (by omega) hv x hx
      have htable' : ¬ t.Reachable (x / 4096 * 4096) := by
        intro hr
        rcases h.tables _ hr with hr | ⟨f, hf, he⟩
        · exact htable hr
        · exact hcoming (by rwa [show x / 4096 = f from by omega])
      refine Or.inr ⟨t.setMem (setByte t.mem x b), ?_, ?_, ?_⟩
      · rw [Machine.storeByte, hphys, hx]
        rfl
      · intro habs
        exact absurd (hx.symm.trans habs.1) (by simp)
      · exact h.setMem (Machine.sameTables_setByte b htable')
          (hshow.store_elsewhere htable' hcoming b) hA

/-- A copy faults when one of its bytes does. -/
theorem Reached.copyTo (hvacant : Vacant base InRegion s) (hnext : NextPageApart base s)
    (h : Reached base s done t) {n : Nat} (hv : v + n ≤ 2 ^ 39 + 4096) (src : Nat → UInt8) :
    (t.copyTo src (base + v) n = none ∧ ∃ k < n, Absent base s done (v + k)) ∨
      ∃ t', t.copyTo src (base + v) n = some t' ∧ (∀ k < n, ¬ Absent base s done (v + k)) ∧
        Reached base s done t' := by
  induction n with
  | zero => exact Or.inr ⟨t, rfl, by simp, h⟩
  | succ n ih =>
    rcases ih (by omega) with ⟨hnone, k, hk, habs⟩ | ⟨t₁, hcopy, hmapped, h₁⟩
    · refine Or.inl ⟨?_, k, by omega, habs⟩
      rw [Machine.copyTo, hnone]
      rfl
    · rcases h₁.storeByte hb hvacant hnext (v := v + n) (by omega) (src n) with
        ⟨hnone, habs⟩ | ⟨t₂, hstore, hlast, h₂⟩
      · refine Or.inl ⟨?_, n, by omega, habs⟩
        rw [Machine.copyTo, hcopy, Option.bind_some, Nat.add_assoc, hnone]
      · refine Or.inr ⟨t₂, ?_, fun k hk => ?_, h₂⟩
        · rw [Machine.copyTo, hcopy, Option.bind_some, Nat.add_assoc, hstore]
        · by_cases hkn : k = n
          · rw [hkn]
            exact hlast
          · exact hmapped k (by omega)

include hal in
/-- A turn that fits ends out of frames, or faults as its step does, or goes through. -/
theorem Reached.loadPage {elf : Slice} {g : Segment} {l : Loader σ} {i : Nat}
    (hvacant : Vacant base InRegion s) (hnext : NextPageApart base s)
    (h : Reached base s done l.machine) (hfit : g.PageFits elf.len i) :
    loadPage base elf g l i = .error .outOfFrames ∨
      (loadPage base elf g l i = .error .pageFault ∧ Faults base s done (g.step elf i)) ∨
      ∃ l', loadPage base elf g l i = .ok l' ∧ ¬ Faults base s done (g.step elf i) ∧
        Reached base s (done ++ [g.step elf i]) l'.machine := by
  have hpage := hfit.page
  have hlt := hb.lt_word (v := g.vaddr + i * 4096) (by omega)
  unfold User.loadPage
  rw [checked_of_lt (by omega), checked_of_lt hfit.word, Nat.add_assoc]
  simp only [bind, Except.bind]
  rcases mapNew_cases g.writable (base + (g.vaddr + i * 4096)) l.machine with
    hdry | ⟨-, -, s', -, -, hok⟩
  · rw [hdry]
    exact Or.inl rfl
  have h₁ : Reached base s (done ++ [g.step elf i]) _ := h.newPage hb hal (by omega) rfl hok
  simp only [hok, copyBytes]
  rcases h₁.copyTo hb hvacant hnext (v := g.vaddr + i * 4096)
    (n := min (g.filesz - i * 4096) 4096) (by omega)
    (fun k => elf.mem (g.fileOff + i * 4096 + k)) with ⟨hnone, k, hk, habs⟩ | ⟨t', ht', hmapped, h₂⟩
  · rw [hnone]
    exact Or.inr (Or.inl ⟨rfl, _, ⟨Nat.le_add_right .., Nat.add_lt_add_left hk _⟩, habs⟩)
  · rw [ht']
    refine Or.inr (Or.inr ⟨_, rfl, ?_, h₂⟩)
    rintro ⟨v, ⟨hlo, hhi⟩, habs⟩
    obtain ⟨k, rfl⟩ := Nat.exists_eq_add_of_le hlo
    exact hmapped k (Nat.lt_of_add_lt_add_left hhi) habs

end

end LionOS.User
