import Mathlib.Data.List.Nodup
import Mathlib.Logic.Function.Basic

/-!
# Singly linked chains

A successor function on addresses links nodes into chains. A segment lists the
nodes met from one address up to another; a chain is a segment that ends in the
null address. Segments compose by concatenation, are determined by their two
ends, and only depend on the successors of their own nodes, so a splice is
reasoned about by cutting the list at the link that is rewritten.
-/

namespace Lib

variable {α : Type*}

/-- Following `next` from `p` meets exactly the nodes `l` and then arrives at `q`. -/
def Seg (next : α → α) : α → List α → α → Prop
  | p, [], q => p = q
  | p, a :: l, q => p = a ∧ Seg next (next a) l q

@[simp] theorem seg_nil {next : α → α} {p q : α} : Seg next p [] q ↔ p = q := Iff.rfl

@[simp] theorem seg_cons {next : α → α} {p a q : α} {l : List α} :
    Seg next p (a :: l) q ↔ p = a ∧ Seg next (next a) l q := Iff.rfl

/-- Segments concatenate at a shared address. -/
theorem seg_append {next : α → α} {p q : α} {l r : List α} :
    Seg next p (l ++ r) q ↔ ∃ x, Seg next p l x ∧ Seg next x r q := by
  induction l generalizing p with
  | nil => simp
  | cons a l ih =>
    simp only [List.cons_append, seg_cons, ih]
    constructor
    · rintro ⟨hp, x, hl, hr⟩
      exact ⟨x, ⟨hp, hl⟩, hr⟩
    · rintro ⟨x, ⟨hp, hl⟩, hr⟩
      exact ⟨hp, x, hl, hr⟩

/-- A segment reads only the successors of its own nodes. -/
theorem Seg.congr {next next' : α → α} {p q : α} {l : List α} (h : Seg next p l q)
    (he : ∀ a ∈ l, next' a = next a) : Seg next' p l q := by
  induction l generalizing p with
  | nil => exact h
  | cons a l ih =>
    obtain ⟨hp, ht⟩ := h
    refine ⟨hp, ?_⟩
    rw [he a (List.mem_cons_self ..)]
    exact ih ht fun b hb => he b (List.mem_cons_of_mem _ hb)

/-- Redirecting the last successor of a segment moves its end and nothing else. -/
theorem Seg.redirect {next next' : α → α} {p q r a : α} {l : List α}
    (h : Seg next p (l ++ [a]) q) (he : ∀ b ∈ l, next' b = next b) (ha : next' a = r) :
    Seg next' p (l ++ [a]) r := by
  obtain ⟨x, hl, hx, -⟩ := seg_append.mp h
  exact seg_append.mpr ⟨x, hl.congr he, hx, ha⟩

/-- Two segments from the same address to a null that is no node are equal. -/
theorem Seg.unique {next : α → α} {p null : α} {l r : List α} (hl : Seg next p l null)
    (hr : Seg next p r null) (hnl : null ∉ l) (hnr : null ∉ r) : l = r := by
  induction l generalizing p r with
  | nil =>
    cases r with
    | nil => rfl
    | cons b r =>
      have hb : null = b := (show p = null from hl).symm.trans hr.1
      exact absurd (hb ▸ List.mem_cons_self ..) hnr
  | cons a l ih =>
    cases r with
    | nil =>
      have ha : null = a := (show p = null from hr).symm.trans hl.1
      exact absurd (ha ▸ List.mem_cons_self ..) hnl
    | cons b r =>
      obtain ⟨rfl, htl⟩ := hl
      obtain ⟨rfl, htr⟩ := hr
      rw [ih htl htr (fun h => hnl (List.mem_cons_of_mem _ h))
        (fun h => hnr (List.mem_cons_of_mem _ h))]

/-- A null-terminated segment never meets a node twice. -/
theorem Seg.nodup {next : α → α} {p null : α} {l : List α} (h : Seg next p l null)
    (hn : null ∉ l) : l.Nodup := by
  induction l generalizing p with
  | nil => exact List.nodup_nil
  | cons a l ih =>
    have hnt : null ∉ l := fun hm => hn (List.mem_cons_of_mem _ hm)
    refine List.nodup_cons.mpr ⟨?_, ih h.2 hnt⟩
    intro ha
    obtain ⟨s, t, rfl⟩ := List.append_of_mem ha
    obtain ⟨x, -, hx, ht⟩ := seg_append.mp h.2
    have hne : null ∉ t := fun hm => hnt (by simp [hm])
    have heq := h.2.unique ht hnt hne
    have hlen := congrArg List.length heq
    simp only [List.length_append, List.length_cons] at hlen
    omega

/-- From an address that is its own successor there is no way on. -/
theorem not_seg_of_loop {next : α → α} {p q : α} (hloop : next p = p) (hne : p ≠ q) (l : List α) :
    ¬ Seg next p l q := by
  induction l with
  | nil => exact hne
  | cons a l ih =>
    rintro ⟨rfl, h⟩
    rw [hloop] at h
    exact ih h

/-- The address a null-terminated segment starts at is its first node, or null. -/
theorem Seg.head_eq {next : α → α} {p null : α} {l : List α} (h : Seg next p l null) :
    p = l.headD null := by
  cases l with
  | nil => exact h
  | cons a l => exact h.1

end Lib
