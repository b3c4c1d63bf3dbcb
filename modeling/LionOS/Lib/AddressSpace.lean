import Mathlib.Data.List.Basic
import Mathlib.Tactic.Cases
import Mathlib.Tactic.Common

/-!
# Address spaces filled page by page

An address space is filled by steps that map one page and then copy bytes, not
necessarily to that page. A copy to an address that is not mapped faults. A page
comes with the stale bytes of its frame, and a page that is mapped again gets a
new frame.

What a run leaves at an address is read off its last step that writes there: the
byte survives unless a later step maps the page again.
-/

namespace Lib

/-- What is known of one address. -/
inductive Cell (β : Type*) where
  | unmapped
  | stale
  | holds (b : β)

/-- The address is mapped. -/
def Cell.isMapped {β : Type*} : Cell β → Bool
  | .unmapped => false
  | _ => true

theorem Cell.isMapped_iff {β : Type*} (c : Cell β) : c.isMapped = true ↔ c ≠ .unmapped := by
  cases c <;> simp [isMapped]

/-- The state of all addresses. -/
abbrev AddressSpace (β : Type*) := Nat → Cell β

/-- Map `page`, then copy the first `count` bytes of `src` to `dst`. -/
structure PageLoad (β : Type*) where
  page : Nat
  dst : Nat
  count : Nat
  src : Nat → β

/-- The step writes address `v`. -/
def PageLoad.Writes {β : Type*} (st : PageLoad β) (v : Nat) : Prop :=
  st.dst ≤ v ∧ v < st.dst + st.count

instance {β : Type*} (st : PageLoad β) (v : Nat) : Decidable (st.Writes v) :=
  inferInstanceAs (Decidable (_ ∧ _))

namespace AddressSpace

variable {β : Type*}

/-- Nothing is mapped. -/
def empty : AddressSpace β := fun _ => .unmapped

/-- Give a page a new frame. -/
def mapPage (size : Nat) (A : AddressSpace β) (p : Nat) : AddressSpace β :=
  fun v => if v / size = p then .stale else A v

/-- Copy the first `n` bytes of `src` to `dst`. -/
def copy (A : AddressSpace β) (src : Nat → β) (dst n : Nat) : Option (AddressSpace β) :=
  if ∀ k < n, (A (dst + k)).isMapped = true then
    some fun v => if dst ≤ v ∧ v < dst + n then .holds (src (v - dst)) else A v
  else none

/-- One step. -/
def load (size : Nat) (A : AddressSpace β) (st : PageLoad β) : Option (AddressSpace β) :=
  (A.mapPage size st.page).copy st.src st.dst st.count

/-- A run of steps. -/
def run (size : Nat) (A : AddressSpace β) : List (PageLoad β) → Option (AddressSpace β)
  | [] => some A
  | st :: L => (A.load size st).bind fun B => run size B L

variable {size : Nat} {A B : AddressSpace β} {st : PageLoad β} {L L₁ L₂ : List (PageLoad β)}
  {v : Nat}

theorem mapPage_unmapped {p : Nat} :
    A.mapPage size p v ≠ .unmapped ↔ v / size = p ∨ A v ≠ .unmapped := by
  unfold mapPage
  by_cases h : v / size = p <;> simp [h]

/-- A step goes through when every address it writes is mapped by then. -/
theorem load_eq_some_iff :
    A.load size st = some B ↔
      (∀ v, st.Writes v → v / size = st.page ∨ A v ≠ .unmapped) ∧
        B = fun v => if st.Writes v then .holds (st.src (v - st.dst))
          else if v / size = st.page then .stale else A v := by
  have hiff : (∀ k < st.count, (A.mapPage size st.page (st.dst + k)).isMapped = true) ↔
      ∀ v, st.Writes v → v / size = st.page ∨ A v ≠ .unmapped := by
    simp only [Cell.isMapped_iff, mapPage_unmapped]
    constructor
    · rintro h v ⟨hlo, hhi⟩
      obtain ⟨k, rfl⟩ := Nat.exists_eq_add_of_le hlo
      exact h k (by omega)
    · intro h k hk
      exact h _ ⟨by omega, by omega⟩
  unfold load copy
  by_cases hc : ∀ k < st.count, (A.mapPage size st.page (st.dst + k)).isMapped = true
  · rw [if_pos hc, Option.some.injEq]
    exact ⟨fun h => ⟨hiff.mp hc, h.symm⟩, fun h => h.2.symm⟩
  · rw [if_neg hc]
    exact ⟨fun h => absurd h (by simp), fun h => absurd (hiff.mpr h.1) hc⟩

theorem run_append :
    A.run size (L₁ ++ L₂) = (A.run size L₁).bind fun B => B.run size L₂ := by
  induction L₁ generalizing A with
  | nil => rfl
  | cons st L ih =>
    simp only [List.cons_append, run]
    cases A.load size st with
    | none => rfl
    | some B => exact ih

/-- What a run leaves at an address none of its steps writes: the stale byte of a new
frame if one of them mapped the page. -/
theorem run_of_not_writes (h : A.run size L = some B) (hw : ∀ st ∈ L, ¬ st.Writes v) :
    B v = if ∃ st ∈ L, st.page = v / size then .stale else A v := by
  induction L generalizing A with
  | nil =>
    obtain rfl := Option.some.inj h
    simp
  | cons st L ih =>
    obtain ⟨C, hC, hrun⟩ := Option.bind_eq_some_iff.mp h
    obtain ⟨-, rfl⟩ := load_eq_some_iff.mp hC
    rw [ih hrun fun st' hst => hw st' (List.mem_cons_of_mem _ hst)]
    have hv := hw st (List.mem_cons_self ..)
    by_cases hp : st.page = v / size
    · simp [hv, hp]
    · have hp' : ¬ v / size = st.page := fun he => hp he.symm
      simp [hv, hp, hp']

/-- A run unmaps nothing, and maps the pages of its steps. -/
theorem run_unmapped_iff (h : A.run size L = some B) :
    B v ≠ .unmapped ↔ A v ≠ .unmapped ∨ ∃ st ∈ L, st.page = v / size := by
  induction L generalizing A with
  | nil =>
    obtain rfl := Option.some.inj h
    simp
  | cons st L ih =>
    obtain ⟨C, hC, hrun⟩ := Option.bind_eq_some_iff.mp h
    obtain ⟨hmap, rfl⟩ := load_eq_some_iff.mp hC
    rw [ih hrun]
    by_cases hw : st.Writes v
    · rcases hmap v hw with hp | hA
      · simp [hw, hp]
      · simp [hw, hA]
    · by_cases hp : st.page = v / size
      · simp [hw, hp]
      · have hp' : ¬ v / size = st.page := fun he => hp he.symm
        simp [hw, hp, hp']

/-- When a step of a run writes an address, the page is mapped by then. -/
theorem mapped_of_run (h : A.run size (L₁ ++ st :: L₂) = some B) (hw : st.Writes v) :
    v / size = st.page ∨ A v ≠ .unmapped ∨ ∃ st' ∈ L₁, st'.page = v / size := by
  rw [run_append] at h
  obtain ⟨C, hC, hrun⟩ := Option.bind_eq_some_iff.mp h
  obtain ⟨D, hD, -⟩ := Option.bind_eq_some_iff.mp hrun
  rcases (load_eq_some_iff.mp hD).1 v hw with hp | hm
  · exact Or.inl hp
  · exact Or.inr ((run_unmapped_iff hC).mp hm)

/-- A run goes through when each step writes its own page or what was mapped before. -/
theorem run_eq_some
    (h : ∀ st ∈ L, ∀ v, st.Writes v → v / size = st.page ∨ A v ≠ .unmapped) :
    ∃ B, A.run size L = some B := by
  induction L generalizing A with
  | nil => exact ⟨A, rfl⟩
  | cons st L ih =>
    obtain ⟨C, hC⟩ : ∃ C, A.load size st = some C :=
      ⟨_, load_eq_some_iff.mpr ⟨h st (List.mem_cons_self ..), rfl⟩⟩
    have hmono : ∀ v, A v ≠ .unmapped → C v ≠ .unmapped := by
      have hone : A.run size [st] = some C := by rw [run, hC]; rfl
      intro v hv
      exact (run_unmapped_iff hone).mpr (Or.inl hv)
    obtain ⟨B, hB⟩ := ih (A := C) fun st' hst v hw => by
      rcases h st' (List.mem_cons_of_mem _ hst) v hw with hp | hv
      · exact Or.inl hp
      · exact Or.inr (hmono v hv)
    exact ⟨B, by rw [run, hC]; exact hB⟩

/-- A byte that a run leaves was there before or written by a step. -/
theorem exists_of_run_holds {b : β} (h : A.run size L = some B) (hb : B v = .holds b) :
    A v = .holds b ∨ ∃ st ∈ L, st.Writes v ∧ b = st.src (v - st.dst) := by
  induction L generalizing A with
  | nil =>
    obtain rfl := Option.some.inj h
    exact Or.inl hb
  | cons st L ih =>
    obtain ⟨C, hC, hrun⟩ := Option.bind_eq_some_iff.mp h
    obtain ⟨-, rfl⟩ := load_eq_some_iff.mp hC
    rcases ih hrun with hA | ⟨st', hst, hw, rfl⟩
    · by_cases hw : st.Writes v
      · rw [if_pos hw] at hA
        exact Or.inr ⟨st, List.mem_cons_self .., hw, (Cell.holds.inj hA).symm⟩
      · rw [if_neg hw] at hA
        split at hA
        · exact absurd hA (by simp)
        · exact Or.inl hA
    · exact Or.inr ⟨st', List.mem_cons_of_mem _ hst, hw, rfl⟩

/-- The byte of a step survives when no later step writes it or maps its page. -/
theorem run_holds (h : A.run size (L₁ ++ st :: L₂) = some B) (hw : st.Writes v)
    (hlater : ∀ st' ∈ L₂, ¬ st'.Writes v ∧ st'.page ≠ v / size) :
    B v = .holds (st.src (v - st.dst)) := by
  rw [run_append] at h
  obtain ⟨C, -, hrun⟩ := Option.bind_eq_some_iff.mp h
  obtain ⟨D, hD, hrun⟩ := Option.bind_eq_some_iff.mp hrun
  obtain ⟨-, rfl⟩ := load_eq_some_iff.mp hD
  rw [run_of_not_writes hrun fun st' hst => (hlater st' hst).1, if_neg, if_pos hw]
  rintro ⟨st', hst, hp⟩
  exact (hlater st' hst).2 hp

/-- The byte is stale when no later step writes it after its page was mapped. -/
theorem run_stale (h : A.run size (L₁ ++ L₂) = some B) (hw : ∀ st ∈ L₂, ¬ st.Writes v)
    (hp : ∃ st ∈ L₂, st.page = v / size) : B v = .stale := by
  rw [run_append] at h
  obtain ⟨C, -, hrun⟩ := Option.bind_eq_some_iff.mp h
  rw [run_of_not_writes hrun hw, if_pos hp]

end AddressSpace

end Lib
