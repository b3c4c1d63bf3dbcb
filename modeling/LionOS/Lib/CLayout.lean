import LionOS.Lib.Memory
import Mathlib.Data.List.Basic
import Mathlib.Data.List.Nodup
import Mathlib.Tactic.Cases

/-!
# Layout of C structures

Fields are placed in declaration order, each at the next multiple of its
alignment; the structure ends at the next multiple of its largest alignment.
Storing a structure writes its fields and leaves padding bytes alone.
-/

namespace Lib

/-- Size and alignment of a type. -/
structure CType where
  size : Nat
  align : Nat

namespace CType

/-- An unsigned integer of `n` bytes, naturally aligned. -/
def uint (n : Nat) : CType := ⟨n, n⟩

/-- An array. -/
def array (t : CType) (n : Nat) : CType := ⟨t.size * n, t.align⟩

end CType

/-- The next multiple of `align`. -/
def alignUp (pos align : Nat) : Nat := (pos + align - 1) / align * align

theorem le_alignUp (pos align : Nat) (h : 0 < align) : pos ≤ alignUp pos align := by
  have hm := Nat.mod_lt (pos + align - 1) h
  have hd := Nat.div_add_mod (pos + align - 1) align
  rw [Nat.mul_comm] at hd
  unfold alignUp
  omega

/-- A structure: its fields in declaration order and their types. -/
structure CStruct (φ : Type*) where
  fields : List φ
  type : φ → CType
  align_pos : ∀ f, 0 < (type f).align

namespace CStruct

variable {φ : Type*} (S : CStruct φ)

/-- Place the fields from position `pos` on. -/
def place : List φ → Nat → List (φ × Nat)
  | [], _ => []
  | f :: fs, pos =>
    (f, alignUp pos (S.type f).align) ::
      place fs (alignUp pos (S.type f).align + (S.type f).size)

/-- The fields with their offsets. -/
def offsets : List (φ × Nat) := S.place S.fields 0

/-- The position behind the last field placed from `pos` on. -/
def finish : List φ → Nat → Nat
  | [], pos => pos
  | f :: fs, pos => finish fs (alignUp pos (S.type f).align + (S.type f).size)

/-- Alignment of the structure. -/
def align : Nat := (S.fields.map fun f => (S.type f).align).foldl max 1

/-- Size of the structure, tail padding included. -/
def size : Nat := alignUp (S.finish S.fields 0) S.align

/-- Offset of a field. -/
def offsetOf [DecidableEq φ] (f : φ) : Nat := (S.offsets.lookup f).getD 0

/-- Store placed fields at `a`. -/
def storeAll (m : Mem) (a : Nat) (v : φ → Nat) (l : List (φ × Nat)) : Mem :=
  l.foldl (fun m p => writeLE m (a + p.2) (S.type p.1).size (v p.1)) m

/-- Store a structure value at `a`. -/
def store (m : Mem) (a : Nat) (v : φ → Nat) : Mem := S.storeAll m a v S.offsets

variable {S} {m : Mem} {a x : Nat} {v : φ → Nat} {l : List (φ × Nat)} {f : φ} {o : Nat}

/-- Bytes that belong to no stored field keep their value. -/
theorem storeAll_of_outside
    (h : ∀ p ∈ l, x < a + p.2 ∨ a + p.2 + (S.type p.1).size ≤ x) :
    S.storeAll m a v l x = m x := by
  induction l generalizing m with
  | nil => rfl
  | cons p l ih =>
    have hp := h p (List.mem_cons_self ..)
    rw [storeAll, List.foldl_cons]
    exact (ih fun q hq => h q (List.mem_cons_of_mem _ hq)).trans (writeLE_of_outside m _ hp)

/-- The position never moves back. -/
theorem le_finish (fs : List φ) (pos : Nat) : pos ≤ S.finish fs pos := by
  induction fs generalizing pos with
  | nil => exact le_rfl
  | cons f fs ih =>
    have h1 := le_alignUp pos (S.type f).align (S.align_pos f)
    have h2 := ih (alignUp pos (S.type f).align + (S.type f).size)
    simp only [finish]
    omega

/-- Fields lie between the position they are placed from and the final one. -/
theorem place_bounds {fs : List φ} {pos : Nat} {p : φ × Nat} (h : p ∈ S.place fs pos) :
    pos ≤ p.2 ∧ p.2 + (S.type p.1).size ≤ S.finish fs pos := by
  induction fs generalizing pos with
  | nil => simp [place] at h
  | cons g fs ih =>
    have h1 := le_alignUp pos (S.type g).align (S.align_pos g)
    have h2 := S.le_finish fs (alignUp pos (S.type g).align + (S.type g).size)
    rcases List.mem_cons.mp h with rfl | h
    · exact ⟨h1, h2⟩
    · obtain ⟨h3, h4⟩ := ih h
      exact ⟨by omega, h4⟩

/-- Fields are placed one after the other. -/
theorem place_pairwise (fs : List φ) (pos : Nat) :
    (S.place fs pos).Pairwise fun p q => p.2 + (S.type p.1).size ≤ q.2 := by
  induction fs generalizing pos with
  | nil => exact List.Pairwise.nil
  | cons g fs ih => exact List.pairwise_cons.mpr ⟨fun q hq => (place_bounds hq).1, ih _⟩

/-- A stored field is read back, cut to its size. -/
theorem readLE_storeAll (hl : l.Pairwise fun p q => p.2 + (S.type p.1).size ≤ q.2)
    (h : (f, o) ∈ l) :
    readLE (S.storeAll m a v l) (a + o) (S.type f).size = v f % 256 ^ (S.type f).size := by
  induction l generalizing m with
  | nil => simp at h
  | cons p l ih =>
    obtain ⟨hp, hl⟩ := List.pairwise_cons.mp hl
    rcases List.mem_cons.mp h with rfl | h
    · rw [← readLE_writeLE m (a + o) (S.type f).size (v f)]
      apply readLE_congr
      intro x hx hx'
      change S.storeAll (writeLE m (a + o) (S.type f).size (v f)) a v l x = _
      apply storeAll_of_outside
      intro q hq
      have hle : o + (S.type f).size ≤ q.2 := hp q hq
      omega
    · exact ih hl h

theorem readLE_store (h : (f, o) ∈ S.offsets) :
    readLE (S.store m a v) (a + o) (S.type f).size = v f % 256 ^ (S.type f).size :=
  readLE_storeAll (place_pairwise _ _) h

/-- Storing a structure changes no byte before it or behind its last field. -/
theorem store_of_outside (h : x < a ∨ a + S.finish S.fields 0 ≤ x) : S.store m a v x = m x := by
  apply storeAll_of_outside
  intro p hp
  obtain ⟨h1, h2⟩ := place_bounds hp
  omega

end CStruct

end Lib
