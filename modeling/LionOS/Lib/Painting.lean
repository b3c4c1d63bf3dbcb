import LionOS.Lib.Effects
import LionOS.Lib.Memory

/-!
# Painting dots

Dots are painted on a memory one after the other. A visible dot has a cell of bytes of its
own and fills it with bytes that depend on the colour; the other dots have no effect, and some
dots cannot be painted at all. What a list of dots leaves is then a matter of which visible
dots it has, not of their order.
-/

namespace Lib

variable {π γ ε : Type}

/-- The bytes that the dots of a surface are made of. -/
structure Surface (π γ : Type) where
  visible : π → Prop
  cell : π → Nat → Prop
  value : γ → π → Nat → UInt8
  apart : ∀ p q i, visible p → visible q → cell p i → cell q i → p = q
  nonempty : ∀ p, visible p → ∃ i, cell p i

namespace Surface

variable {S : Surface π γ} {plot : γ → Mem → π → Mem} {paint : γ → Mem → π → Except ε Mem}
  {bad : π → Prop} {colour : γ} {m : Mem} {p : π} {ps qs : List π} {i : Nat}

/-- A plot fills the cell of a visible dot and changes nothing else. -/
structure Plots (S : Surface π γ) (plot : γ → Mem → π → Mem) : Prop where
  inside : ∀ colour m p i, S.visible p → S.cell p i → plot colour m p i = S.value colour p i
  outside : ∀ colour m p i, ¬ (S.visible p ∧ S.cell p i) → plot colour m p i = m i

theorem Plots.foldl_outside (h : S.Plots plot) (hout : ∀ p ∈ ps, ¬ (S.visible p ∧ S.cell p i)) :
    ps.foldl (plot colour) m i = m i := by
  induction ps generalizing m with
  | nil => rfl
  | cons p ps ih =>
    rw [List.foldl_cons, ih fun q hq => hout q (List.mem_cons_of_mem _ hq)]
    exact h.outside _ _ _ _ (hout p List.mem_cons_self)

/-- A visible dot of the list shows, whatever is painted after it. -/
theorem Plots.foldl_inside (h : S.Plots plot) (hp : p ∈ ps) (hvisible : S.visible p)
    (hcell : S.cell p i) : ps.foldl (plot colour) m i = S.value colour p i := by
  induction ps generalizing m with
  | nil => exact absurd hp List.not_mem_nil
  | cons q ps ih =>
    rw [List.foldl_cons]
    by_cases hrest : p ∈ ps
    · exact ih hrest
    · obtain rfl := (List.mem_cons.mp hp).resolve_right hrest
      rw [h.foldl_outside ?_, h.inside _ _ _ _ hvisible hcell]
      rintro q hq ⟨hq', hcell'⟩
      exact hrest (S.apart p q i hvisible hq' hcell hcell' ▸ hq)

/-- Lists with the same visible dots leave the same memory. -/
theorem Plots.foldl_congr (h : S.Plots plot) (hsame : ∀ p, S.visible p → (p ∈ ps ↔ p ∈ qs)) :
    ps.foldl (plot colour) m = qs.foldl (plot colour) m := by
  funext i
  by_cases hin : ∃ p ∈ ps, S.visible p ∧ S.cell p i
  · obtain ⟨p, hp, hvisible, hcell⟩ := hin
    rw [h.foldl_inside hp hvisible hcell,
      h.foldl_inside ((hsame p hvisible).mp hp) hvisible hcell]
  · have hps : ∀ p ∈ ps, ¬ (S.visible p ∧ S.cell p i) := fun p hp hpi => hin ⟨p, hp, hpi⟩
    have hqs : ∀ q ∈ qs, ¬ (S.visible q ∧ S.cell q i) := fun q hq hqi =>
      hin ⟨q, (hsame q hqi.1).mpr hq, hqi⟩
    rw [h.foldl_outside hps, h.foldl_outside hqs]

/-- A visible dot that only one list has leaves a trace on some memory. -/
theorem Plots.mem_of_foldl_eq (h : S.Plots plot)
    (heq : ∀ m, ps.foldl (plot colour) m = qs.foldl (plot colour) m) (hvisible : S.visible p)
    (hp : p ∈ ps) : p ∈ qs := by
  by_contra hq
  obtain ⟨i, hcell⟩ := S.nonempty p hvisible
  have hbyte := congrFun (heq fun _ => S.value colour p i + 1) i
  rw [h.foldl_inside hp hvisible hcell, h.foldl_outside ?_] at hbyte
  · have hsucc := congrArg UInt8.toNat hbyte
    rw [UInt8.toNat_add] at hsucc
    have hlt := (S.value colour p i).toNat_lt
    have hone : (1 : UInt8).toNat = 1 := rfl
    omega
  · rintro q hq' ⟨hvisible', hcell'⟩
    exact hq (S.apart p q i hvisible hvisible' hcell hcell' ▸ hq')

/-- Two computations end in the same memory, or none of them in any. -/
def SameResult (r r' : Except ε Mem) : Prop := ∀ m, r = .ok m ↔ r' = .ok m

/-- A dot that is not bad is plotted; one that is ends the computation. -/
structure Paints (S : Surface π γ) (bad : π → Prop) (paint : γ → Mem → π → Except ε Mem)
    (plot : γ → Mem → π → Mem) : Prop extends S.Plots plot where
  bad_error : ∀ colour m p, bad p → ∃ e, paint colour m p = .error e
  ok_of_not_bad : ∀ colour m p, ¬ bad p → paint colour m p = .ok (plot colour m p)

theorem Paints.foldlM_error (h : S.Paints bad paint plot) (hbad : ∃ p ∈ ps, bad p) (m' : Mem) :
    ps.foldlM (paint colour) m ≠ .ok m' := by
  intro hok
  obtain ⟨p, hp, hpbad⟩ := hbad
  obtain ⟨s, s', hturn⟩ := foldlM_turn_ok hok hp
  obtain ⟨e, herror⟩ := h.bad_error colour s p hpbad
  cases herror.symm.trans hturn

theorem Paints.foldlM_ok (h : S.Paints bad paint plot) (hok : ∀ p ∈ ps, ¬ bad p) :
    ps.foldlM (paint colour) m = .ok (ps.foldl (plot colour) m) :=
  foldlM_eq_ok ps m fun m p hp => h.ok_of_not_bad colour m p (hok p hp)

/-- Two lists of dots are painted alike, in every colour and on every memory, exactly if both
have a bad dot, or none has one and they have the same visible dots. -/
theorem Paints.sameResult_iff [Nonempty γ] (h : S.Paints bad paint plot) (ps qs : List π) :
    (∀ colour m, SameResult (ps.foldlM (paint colour) m) (qs.foldlM (paint colour) m)) ↔
      ((∃ p ∈ ps, bad p) ∧ ∃ q ∈ qs, bad q) ∨
      ((∀ p ∈ ps, ¬ bad p) ∧ (∀ q ∈ qs, ¬ bad q) ∧ ∀ p, S.visible p → (p ∈ ps ↔ p ∈ qs)) := by
  obtain ⟨colour⟩ := ‹Nonempty γ›
  constructor
  · intro hsame
    by_cases hps : ∃ p ∈ ps, bad p
    · refine .inl ⟨hps, ?_⟩
      by_contra hqs
      have hok : ∀ q ∈ qs, ¬ bad q := fun q hq hbad => hqs ⟨q, hq, hbad⟩
      exact h.foldlM_error hps _
        ((hsame colour (fun _ => 0) _).mpr (h.foldlM_ok hok))
    · have hok : ∀ p ∈ ps, ¬ bad p := fun p hp hbad => hps ⟨p, hp, hbad⟩
      have hqs : ∀ q ∈ qs, ¬ bad q := fun q hq hbad =>
        h.foldlM_error ⟨q, hq, hbad⟩ _
          ((hsame colour (fun _ => 0) _).mp (h.foldlM_ok hok))
      have heq : ∀ m, ps.foldl (plot colour) m = qs.foldl (plot colour) m := by
        intro m
        have hq := (hsame colour m _).mp (h.foldlM_ok hok)
        rw [h.foldlM_ok hqs] at hq
        exact (Except.ok.inj hq).symm
      exact .inr ⟨hok, hqs, fun p hvisible =>
        ⟨h.mem_of_foldl_eq heq hvisible, h.mem_of_foldl_eq (fun m => (heq m).symm) hvisible⟩⟩
  · rintro (⟨hps, hqs⟩ | ⟨hps, hqs, hvisible⟩) colour m m'
    · exact ⟨fun hok => absurd hok (h.foldlM_error hps m'),
        fun hok => absurd hok (h.foldlM_error hqs m')⟩
    · rw [h.foldlM_ok hps, h.foldlM_ok hqs, h.foldl_congr hvisible]

end Surface

end Lib
