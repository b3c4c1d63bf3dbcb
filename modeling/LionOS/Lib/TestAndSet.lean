import Mathlib.Logic.Function.Basic
import Mathlib.Tactic.Cases

/-!
# Sections under a test-and-set lock

Parties share a flag and a value. A party enters a section by setting the flag and seeing that
it was clear, makes the section's actions on the value one at a time, and clears the flag behind
the last of them. A schedule says who moves next, so between any two moves of one party all the
others may move.

Whatever the schedule, nobody is in a section while another is, and the value is the one that
whole sections leave, made one after another.
-/

namespace Lib

namespace TestAndSet

/-- Where a party stands: outside of its sections, or in one of them with the actions `left`. -/
inductive Place (α : Type*) where
  | outside
  | inside (left : List α)

/-- The flag, the value, and for each party where it stands and the sections it has still to
enter. -/
structure State (ι α σ : Type*) where
  held : Bool
  value : σ
  place : ι → Place α
  todo : ι → List (List α)

variable {ι α σ : Type*} [DecidableEq ι] {act : σ → α → σ} {p q : ι} {left : List α}
  {prog : ι → List (List α)} {order : List (ι × List α)} {v : σ} {s : State ι α σ}

/-- Nobody has moved yet. -/
def init (v : σ) (prog : ι → List (List α)) : State ι α σ where
  held := false
  value := v
  place _ := .outside
  todo := prog

/-- The flag was clear when `p` set it. -/
def State.enter (s : State ι α σ) (p : ι) (sec : List α) (rest : List (List α)) : State ι α σ where
  held := true
  value := s.value
  place := Function.update s.place p (.inside sec)
  todo := Function.update s.todo p rest

/-- One action of the section that `p` is in. -/
def State.perform (act : σ → α → σ) (s : State ι α σ) (p : ι) (a : α) (left : List α) :
    State ι α σ :=
  { s with value := act s.value a, place := Function.update s.place p (.inside left) }

/-- `p` clears the flag. -/
def State.leave (s : State ι α σ) (p : ι) : State ι α σ :=
  { s with held := false, place := Function.update s.place p .outside }

/-- A move of one party. It tries again when the flag was set already. -/
def State.move (act : σ → α → σ) (s : State ι α σ) (p : ι) : State ι α σ :=
  match s.place p with
  | .outside =>
    match s.todo p with
    | [] => s
    | sec :: rest => if s.held then s else s.enter p sec rest
  | .inside (a :: left) => s.perform act p a left
  | .inside [] => s.leave p

theorem State.move_enter (hp : s.place p = .outside) (hfree : s.held = false) {sec : List α}
    {rest : List (List α)} (htodo : s.todo p = sec :: rest) :
    s.move act p = s.enter p sec rest := by
  rw [State.move, hp]
  simp [htodo, hfree]

theorem State.move_perform {a : α} (hp : s.place p = .inside (a :: left)) :
    s.move act p = s.perform act p a left := by
  rw [State.move, hp]

theorem State.move_leave (hp : s.place p = .inside []) : s.move act p = s.leave p := by
  rw [State.move, hp]

/-- The moves of a schedule. -/
def State.run (act : σ → α → σ) (s : State ι α σ) (sched : List ι) : State ι α σ :=
  sched.foldl (State.move act) s

/-- The sections of one party among those that have been entered. -/
def sectionsOf (p : ι) (order : List (ι × List α)) : List (List α) :=
  (order.filter fun e => e.1 = p).map Prod.snd

/-- The actions of sections that are made one after another. -/
def actions (order : List (ι × List α)) : List α := order.flatMap Prod.snd

/-- `p` is in the section entered last: the value is the one that the sections before it and
its own first actions leave. -/
def InLast (act : σ → α → σ) (v : σ) (order : List (ι × List α)) (s : State ι α σ) (p : ι)
    (left : List α) : Prop :=
  ∃ before done, order = before ++ [(p, done ++ left)] ∧
    s.value = (actions before ++ done).foldl act v

/-- The sections `order` have been entered one after another, and nobody else is in one. -/
structure Serial (act : σ → α → σ) (v : σ) (prog : ι → List (List α))
    (order : List (ι × List α)) (s : State ι α σ) : Prop where
  inside : ∀ p left, s.place p = .inside left →
    s.held = true ∧ (∀ q, q ≠ p → s.place q = .outside) ∧ InLast act v order s p left
  outside : (∀ p, s.place p = .outside) →
    s.held = false ∧ s.value = (actions order).foldl act v
  programs : ∀ p, sectionsOf p order ++ s.todo p = prog p

theorem sectionsOf_concat (order : List (ι × List α)) (p q : ι) (sec : List α) :
    sectionsOf q (order ++ [(p, sec)]) = sectionsOf q order ++ if p = q then [sec] else [] := by
  rw [sectionsOf, List.filter_append, List.map_append]
  by_cases h : p = q
  · simp [sectionsOf, h]
  · simp [sectionsOf, h]

omit [DecidableEq ι] in
theorem actions_concat (order : List (ι × List α)) (p : ι) (sec : List α) :
    actions (order ++ [(p, sec)]) = actions order ++ sec := by
  simp [actions]

theorem serial_init (act : σ → α → σ) (v : σ) (prog : ι → List (List α)) :
    Serial act v prog [] (init v prog) where
  inside p left h := by simp [init] at h
  outside _ := ⟨rfl, rfl⟩
  programs _ := rfl

/-- With the flag clear, nobody is in a section. -/
theorem Serial.outside_of_free (h : Serial act v prog order s) (hfree : s.held = false) (p : ι) :
    s.place p = .outside := by
  cases hp : s.place p with
  | outside => rfl
  | inside left => exact absurd ((h.inside p left hp).1.symm.trans hfree) Bool.noConfusion

theorem Serial.enter (h : Serial act v prog order s) (hfree : s.held = false) {sec : List α}
    {rest : List (List α)} (htodo : s.todo p = sec :: rest) :
    Serial act v prog (order ++ [(p, sec)]) (s.enter p sec rest) := by
  have hout := h.outside_of_free hfree
  refine ⟨fun q left hq => ?_, fun hall => ?_, fun q => ?_⟩
  · have hqp : q = p := by
      by_contra hne
      simp [State.enter, Function.update_of_ne hne, hout q] at hq
    subst hqp
    obtain rfl : sec = left := by simpa [State.enter] using hq
    refine ⟨rfl, fun r hr => ?_, order, [], rfl, ?_⟩
    · simp [State.enter, Function.update_of_ne hr, hout r]
    · rw [List.append_nil]
      exact (h.outside hout).2
  · have := hall p
    simp [State.enter] at this
  · have hprog := h.programs q
    rw [sectionsOf_concat]
    by_cases hpq : p = q
    · subst hpq
      rw [htodo] at hprog
      simpa [State.enter] using hprog
    · simpa [State.enter, Function.update_of_ne (Ne.symm hpq), hpq] using hprog

theorem Serial.perform (h : Serial act v prog order s) {a : α}
    (hp : s.place p = .inside (a :: left)) : Serial act v prog order (s.perform act p a left) := by
  obtain ⟨hheld, hothers, before, done, horder, hvalue⟩ := h.inside p _ hp
  refine ⟨fun q left' hq => ?_, fun hall => ?_, h.programs⟩
  · have hqp : q = p := by
      by_contra hne
      simp [State.perform, Function.update_of_ne hne, hothers q hne] at hq
    subst hqp
    obtain rfl : left = left' := by simpa [State.perform] using hq
    refine ⟨hheld, fun r hr => ?_, before, done ++ [a], by simpa using horder, ?_⟩
    · simp [State.perform, Function.update_of_ne hr, hothers r hr]
    · rw [← List.append_assoc, List.foldl_append, ← hvalue]
      rfl
  · have := hall p
    simp [State.perform] at this

theorem Serial.leave (h : Serial act v prog order s) (hp : s.place p = .inside []) :
    Serial act v prog order (s.leave p) := by
  obtain ⟨-, hothers, before, done, horder, hvalue⟩ := h.inside p _ hp
  have hout : ∀ q, (s.leave p).place q = .outside := by
    intro q
    by_cases hqp : q = p
    · simp [State.leave, hqp]
    · simp [State.leave, Function.update_of_ne hqp, hothers q hqp]
  refine ⟨fun q left' hq => ?_, fun _ => ⟨rfl, ?_⟩, h.programs⟩
  · rw [hout q] at hq
    cases hq
  · rw [horder, actions_concat, List.append_nil]
    exact hvalue

/-- Every move keeps the sections apart. -/
theorem Serial.move (h : Serial act v prog order s) (p : ι) :
    ∃ order', order <+: order' ∧ Serial act v prog order' (s.move act p) := by
  unfold State.move
  cases hp : s.place p with
  | outside =>
    cases htodo : s.todo p with
    | nil => exact ⟨order, List.prefix_refl _, h⟩
    | cons sec rest =>
      cases hheld : s.held with
      | true => exact ⟨order, List.prefix_refl _, h⟩
      | false => exact ⟨_, List.prefix_append _ _, h.enter hheld htodo⟩
  | inside left =>
    cases left with
    | nil => exact ⟨order, List.prefix_refl _, h.leave hp⟩
    | cons a left => exact ⟨order, List.prefix_refl _, h.perform hp⟩

theorem Serial.run (h : Serial act v prog order s) (sched : List ι) :
    ∃ order', order <+: order' ∧ Serial act v prog order' (s.run act sched) := by
  induction sched generalizing s order with
  | nil => exact ⟨order, List.prefix_refl _, h⟩
  | cons p sched ih =>
    obtain ⟨order₁, hle, h₁⟩ := h.move p
    obtain ⟨order₂, hle', h₂⟩ := ih h₁
    exact ⟨order₂, hle.trans hle', h₂⟩

/-- The state after any schedule. -/
theorem serial_run (act : σ → α → σ) (v : σ) (prog : ι → List (List α)) (sched : List ι) :
    ∃ order, Serial act v prog order ((init v prog).run act sched) :=
  let ⟨order, _, h⟩ := (serial_init act v prog).run sched
  ⟨order, h⟩

/-- While `p` stays in its section, nobody else gets anywhere. -/
theorem Serial.run_blocked (h : Serial act v prog order s) (hp : s.place p = .inside left)
    {sched : List ι} (hsched : p ∉ sched) : s.run act sched = s := by
  induction sched with
  | nil => rfl
  | cons q sched ih =>
    obtain ⟨hqp, hrest⟩ := List.ne_and_not_mem_of_not_mem_cons hsched
    obtain ⟨hheld, hothers, -⟩ := h.inside p left hp
    have hstay : s.move act q = s := by
      unfold State.move
      rw [hothers q (Ne.symm hqp)]
      cases s.todo q with
      | nil => rfl
      | cons sec rest => simp [hheld]
    rw [State.run, List.foldl_cons, hstay]
    exact ih hrest

end TestAndSet

end Lib
