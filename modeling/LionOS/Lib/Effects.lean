import Mathlib.Order.Defs.Unbundled
import Mathlib.Tactic.Common

/-!
# What a fallible state change may do

A computation that takes a state and returns a new one or an error stays within a relation
on states and a set of errors. The relation is a preorder, such as "only these places have
changed", so that the bound carries over to sequences and loops.
-/

namespace Lib

variable {σ ε α β : Type}

/-- From `s`, the computation ends in a state related to `s` or with an allowed error. -/
def Within (R : σ → σ → Prop) (E : ε → Prop) (s : σ) : Except ε σ → Prop
  | .ok s' => R s s'
  | .error e => E e

namespace Within

variable {R : σ → σ → Prop} {E : ε → Prop} {s : σ}

/-- A value computed on the way, with allowed errors only. -/
theorem value {m : Except ε β} {f : β → Except ε σ} (hm : ∀ e, m = .error e → E e)
    (hf : ∀ a, m = .ok a → Within R E s (f a)) : Within R E s (m >>= f) := by
  cases m with
  | error e => exact hm e rfl
  | ok a => exact hf a rfl

variable [IsPreorder σ R]

theorem pure : Within R E s (.ok s) := refl_of R s

theorem bind {m : Except ε σ} {f : σ → Except ε σ} (hm : Within R E s m)
    (hf : ∀ s', Within R E s' (f s')) : Within R E s (m >>= f) := by
  cases m with
  | error e => exact hm
  | ok s' =>
    have h := hf s'
    change Within R E s (f s')
    cases hs : f s' with
    | error e =>
      rw [hs] at h
      exact h
    | ok s'' =>
      rw [hs] at h
      exact trans_of R hm h

/-- A loop stays within what each of its turns stays within. -/
theorem foldlM {f : σ → α → Except ε σ} (l : List α) (h : ∀ s, ∀ a ∈ l, Within R E s (f s a)) :
    Within R E s (l.foldlM f s) := by
  induction l generalizing s with
  | nil => exact pure
  | cons a l ih =>
    rw [List.foldlM_cons]
    exact bind (h s a List.mem_cons_self) fun s' =>
      ih fun s b hb => h s b (List.mem_cons_of_mem _ hb)

end Within

/-- A loop whose turns cannot fail is the pure loop. -/
theorem foldlM_eq_ok {f : σ → α → Except ε σ} {g : σ → α → σ} (l : List α) (s : σ)
    (h : ∀ s, ∀ a ∈ l, f s a = .ok (g s a)) : l.foldlM f s = .ok (l.foldl g s) := by
  induction l generalizing s with
  | nil => rfl
  | cons a l ih =>
    rw [List.foldlM_cons, h s a List.mem_cons_self]
    exact ih _ fun s b hb => h s b (List.mem_cons_of_mem _ hb)

/-- Two loops with the same turns. -/
theorem foldlM_congr_mem {f g : σ → α → Except ε σ} (l : List α) (s : σ)
    (h : ∀ s, ∀ a ∈ l, f s a = g s a) : l.foldlM f s = l.foldlM g s := by
  induction l generalizing s with
  | nil => rfl
  | cons a l ih =>
    rw [List.foldlM_cons, List.foldlM_cons, h s a List.mem_cons_self]
    exact bind_congr fun s' => ih s' fun s b hb => h s b (List.mem_cons_of_mem _ hb)

/-- A loop over the elements that the elements of a list stand for. -/
theorem foldlM_flatMap (f : σ → β → Except ε σ) (g : α → List β) (l : List α) (s : σ) :
    (l.flatMap g).foldlM f s = l.foldlM (fun s a => (g a).foldlM f s) s := by
  induction l generalizing s with
  | nil => rfl
  | cons a l ih =>
    rw [List.flatMap_cons, List.foldlM_append, List.foldlM_cons]
    exact bind_congr ih

/-- In a loop that does not fail no turn does. -/
theorem foldlM_turn_ok {f : σ → α → Except ε σ} {l : List α} {a : α} {s r : σ}
    (h : l.foldlM f s = .ok r) (ha : a ∈ l) : ∃ s' s'', f s' a = .ok s'' := by
  induction l generalizing s with
  | nil => exact absurd ha List.not_mem_nil
  | cons x l ih =>
    rw [List.foldlM_cons] at h
    cases hx : f s x with
    | error e =>
      rw [hx] at h
      cases h
    | ok s' =>
      rw [hx] at h
      rcases List.mem_cons.mp ha with rfl | ha
      · exact ⟨s, s', hx⟩
      · exact ih h ha

/-- Two loops over one list whose turns keep two states related. -/
theorem foldlM_related {τ : Type} {R : σ → τ → Prop} {f : σ → α → Except ε σ}
    {g : τ → α → Except ε τ} (l : List α)
    (h : ∀ s t, ∀ a ∈ l, R s t → ∃ s' t', f s a = .ok s' ∧ g t a = .ok t' ∧ R s' t')
    {s : σ} {t : τ} (hst : R s t) :
    ∃ s' t', l.foldlM f s = .ok s' ∧ l.foldlM g t = .ok t' ∧ R s' t' := by
  induction l generalizing s t with
  | nil => exact ⟨s, t, rfl, rfl, hst⟩
  | cons a l ih =>
    obtain ⟨s', t', hf, hg, hst'⟩ := h s t a List.mem_cons_self hst
    rw [List.foldlM_cons, List.foldlM_cons, hf, hg]
    exact ih (fun s t b hb => h s t b (List.mem_cons_of_mem _ hb)) hst'

end Lib
