import Mathlib.Logic.Function.Basic
import Mathlib.Tactic.Cases

/-!
# Atomic objects

A system takes steps, some of which show a label. A forward simulation answers each step of one
system by steps of another that show the same, so that all the first shows the second shows too.

An object is atomic if each operation takes effect at one moment between its call and its
return. A concurrent implementation that is simulated by the atomic object shows its clients
nothing that the atomic object would not.
-/

namespace Lib

/-- A system; a step without a label is silent. -/
structure System (α S : Type*) where
  step : S → Option α → S → Prop

namespace System

variable {α S T : Type*} {M : System α S} {N : System α T}

/-- A run and the labels it shows. -/
inductive Run (M : System α S) (s : S) : List α → S → Prop
  | nil : Run M s [] s
  | silent {l : List α} {t u : S} (h : Run M s l t) (ht : M.step t none u) : Run M s l u
  | shown {l : List α} {a : α} {t u : S} (h : Run M s l t) (ht : M.step t (some a) u) :
      Run M s (l ++ [a]) u

theorem Run.trans {s t u : S} {l l' : List α} (h : M.Run s l t) (h' : M.Run t l' u) :
    M.Run s (l ++ l') u := by
  induction h' with
  | nil =>
    rw [List.append_nil]
    exact h
  | silent _ ht ih => exact ih.silent ht
  | shown _ ht ih =>
    rw [← List.append_assoc]
    exact ih.shown ht

/-- Each step of `M` is answered by a run of `N` that shows the same. -/
def Simulates (M : System α S) (N : System α T) (R : S → T → Prop) : Prop :=
  ∀ s t o s', R s t → M.step s o s' → ∃ t', N.Run t o.toList t' ∧ R s' t'

/-- What `M` shows in a run `N` shows in one. -/
theorem Simulates.run {R : S → T → Prop} (h : Simulates M N R) {s s' : S} {t : T} {l : List α}
    (hst : R s t) (hrun : M.Run s l s') : ∃ t', N.Run t l t' ∧ R s' t' := by
  induction hrun with
  | nil => exact ⟨t, .nil, hst⟩
  | silent _ hstep ih =>
    obtain ⟨u, hu, hR⟩ := ih
    obtain ⟨t', ht', hR'⟩ := h _ _ _ _ hR hstep
    have hrun' := hu.trans ht'
    rw [Option.toList_none, List.append_nil] at hrun'
    exact ⟨t', hrun', hR'⟩
  | shown _ hstep ih =>
    obtain ⟨u, hu, hR⟩ := ih
    obtain ⟨t', ht', hR'⟩ := h _ _ _ _ hR hstep
    exact ⟨t', hu.trans ht', hR'⟩

end System

/-- What each operation does to the value, and what it returns. -/
structure Object (σ Op Ret : Type*) where
  apply : Op → σ → σ × Ret

/-- What the clients of an object see. -/
inductive ObjectEvent (ι Op Ret : Type*) where
  | call (p : ι) (op : Op)
  | ret (p : ι) (r : Ret)

/-- A client that has not called, whose operation has not taken effect, or whose result is
ready. -/
inductive Client (Op Ret : Type*) where
  | idle
  | called (op : Op)
  | served (r : Ret)

/-- The value and the clients. -/
structure Shared (ι σ Op Ret : Type*) where
  value : σ
  client : ι → Client Op Ret

namespace Object

variable {ι σ Op Ret : Type*} [DecidableEq ι] (O : Object σ Op Ret)

inductive Step (s : Shared ι σ Op Ret) : Option (ObjectEvent ι Op Ret) → Shared ι σ Op Ret → Prop
  | call (p : ι) (op : Op) (h : s.client p = .idle) :
      Step s (some (.call p op)) { s with client := Function.update s.client p (.called op) }
  /-- The operation takes effect. -/
  | effect (p : ι) (op : Op) (h : s.client p = .called op) :
      Step s none
        ⟨(O.apply op s.value).1,
          Function.update s.client p (.served (O.apply op s.value).2)⟩
  | ret (p : ι) (r : Ret) (h : s.client p = .served r) :
      Step s (some (.ret p r)) { s with client := Function.update s.client p .idle }

/-- The atomic object with clients `ι`. -/
def atomic : System (ObjectEvent ι Op Ret) (Shared ι σ Op Ret) := ⟨O.Step⟩

/-- Nobody has called. -/
def start (v : σ) : Shared ι σ Op Ret := ⟨v, fun _ => .idle⟩

variable {O} {s : Shared ι σ Op Ret} {ps : List ι}

/-- Clients that have called can all be served at once, in any order. -/
theorem exists_serve (hps : ps.Nodup) (h : ∀ p ∈ ps, ∃ op, s.client p = .called op) :
    ∃ s', O.atomic.Run s [] s' ∧ (∀ p ∉ ps, s'.client p = s.client p) ∧
      ∀ p ∈ ps, ∃ op v, s.client p = .called op ∧ s'.client p = .served (O.apply op v).2 := by
  induction ps with
  | nil => exact ⟨s, .nil, fun _ _ => rfl, by simp⟩
  | cons p ps ih =>
    obtain ⟨hp, hnodup⟩ := List.nodup_cons.mp hps
    obtain ⟨t, hrun, hother, hserved⟩ := ih hnodup fun q hq => h q (List.mem_cons_of_mem p hq)
    obtain ⟨op, hop⟩ := h p List.mem_cons_self
    refine ⟨_, hrun.silent (.effect p op ((hother p hp).trans hop)), fun q hq => ?_, ?_⟩
    · rw [List.mem_cons, not_or] at hq
      exact (Function.update_of_ne hq.1 ..).trans (hother q hq.2)
    · intro q hq
      by_cases hqp : q = p
      · subst hqp
        exact ⟨op, t.value, hop, Function.update_self ..⟩
      · obtain ⟨op', v, hcalled, hres⟩ := hserved q ((List.mem_cons.mp hq).resolve_left hqp)
        exact ⟨op', v, hcalled, (Function.update_of_ne hqp ..).trans hres⟩

end Object

end Lib
