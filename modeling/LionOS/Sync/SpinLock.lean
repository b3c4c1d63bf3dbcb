import LionOS.Lib.TestAndSet

/-!
# The spinlock

`SpinLock<T>` is a flag beside a value. `lock` exchanges the flag with `true` until it was
`false`, the guard is the only way to the value, and dropping the guard stores `false`. The
contexts that share a lock, the main loop and the interrupt handlers, are interleaved at every
single access.
-/

namespace LionOS.Sync

open Lib TestAndSet

variable {T : Type}

/-- A spinlock-wrapped value. -/
structure SpinLock (T : Type) where
  held : Bool
  value : T

namespace SpinLock

/-- An unlocked lock. -/
def new (value : T) : SpinLock T := ⟨false, value⟩

/-- `self.held.swap(true)`: one turn of the loop of `lock`. -/
def swap (l : SpinLock T) : Bool × SpinLock T := (l.held, { l with held := true })

/-- The guard's `deref_mut`. -/
def derefMut (l : SpinLock T) (f : T → T) : SpinLock T := { l with value := f l.value }

/-- `self.held.store(false)`, which the guard's `drop` does. -/
def unlock (l : SpinLock T) : SpinLock T := { l with held := false }

/-- Exchanging a flag that is set changes nothing. -/
theorem swap_of_held {l : SpinLock T} (h : l.held = true) : l.swap = (true, l) := by
  rw [swap, h, ← h]

end SpinLock

/-- Where a context stands: outside of `lock`, in its loop with the accesses it wants the guard
for, or with the guard and the accesses still to be made. -/
inductive Pc (T : Type) where
  | idle
  | spinning (sec : List (T → T))
  | guarded (left : List (T → T))

/-- Where the context stands as a party of the library's lock. -/
def Pc.place : Pc T → Place (T → T)
  | .guarded left => .inside left
  | _ => .outside

@[simp] theorem Pc.place_idle : (Pc.idle : Pc T).place = .outside := rfl

@[simp] theorem Pc.place_spinning (sec : List (T → T)) : (Pc.spinning sec).place = .outside := rfl

@[simp] theorem Pc.place_guarded (left : List (T → T)) :
    (Pc.guarded left).place = .inside left := rfl

/-- The lock and the contexts that use it, each with the sections it has not begun. -/
structure Contexts (ι T : Type) where
  lock : SpinLock T
  pc : ι → Pc T
  todo : ι → List (List (T → T))

namespace Contexts

variable {ι : Type} [DecidableEq ι] {c : Contexts ι T} {p q : ι}

def init (value : T) (prog : ι → List (List (T → T))) : Contexts ι T where
  lock := .new value
  pc _ := .idle
  todo := prog

/-- One access by one context. -/
def step (c : Contexts ι T) (p : ι) : Contexts ι T :=
  match c.pc p with
  | .idle =>
    match c.todo p with
    | [] => c
    | sec :: rest =>
      { c with pc := Function.update c.pc p (.spinning sec), todo := Function.update c.todo p rest }
  | .spinning sec =>
    match c.lock.swap with
    | (true, lock) => { c with lock := lock }
    | (false, lock) => { c with lock := lock, pc := Function.update c.pc p (.guarded sec) }
  | .guarded (f :: left) =>
    { c with lock := c.lock.derefMut f, pc := Function.update c.pc p (.guarded left) }
  | .guarded [] => { c with lock := c.lock.unlock, pc := Function.update c.pc p .idle }

def run (c : Contexts ι T) (sched : List ι) : Contexts ι T := sched.foldl step c

/-- The sections a context has not entered. -/
def waiting (c : Contexts ι T) (p : ι) : List (List (T → T)) :=
  match c.pc p with
  | .spinning sec => sec :: c.todo p
  | _ => c.todo p

/-- The contexts as parties of the library's lock. -/
def toState (c : Contexts ι T) : State ι (T → T) T where
  held := c.lock.held
  value := c.lock.value
  place p := (c.pc p).place
  todo := c.waiting

/-- What an access through the guard does to the value. -/
def access (v : T) (f : T → T) : T := f v

omit [DecidableEq ι] in
theorem toState_init (value : T) (prog : ι → List (List (T → T))) :
    (init value prog).toState = TestAndSet.init value prog := rfl

/-- A new place of one context. -/
theorem place_update (pc : ι → Pc T) (p : ι) (x : Pc T) :
    (fun q => (Function.update pc p x q).place) =
      Function.update (fun q => (pc q).place) p x.place :=
  Function.comp_update Pc.place pc p x

/-- What a context waits for does not change while it has the guard. -/
theorem waiting_update {left : List (T → T)} (hpc : c.pc p = .guarded left) (lock : SpinLock T)
    {x : Pc T} (hx : ∀ sec, x ≠ .spinning sec) :
    waiting { c with lock := lock, pc := Function.update c.pc p x } = c.waiting := by
  funext q
  by_cases hq : q = p
  · subst hq
    cases x with
    | spinning sec => exact absurd rfl (hx sec)
    | idle => simp [waiting, hpc]
    | guarded l => simp [waiting, hpc]
  · simp [waiting, Function.update_of_ne hq]

/-- Calling `lock` is no move of the library's lock yet. -/
theorem toState_step_idle (hpc : c.pc p = .idle) : (c.step p).toState = c.toState := by
  cases htodo : c.todo p with
  | nil => simp [step, hpc, htodo]
  | cons sec rest =>
    have hwait : (c.step p).waiting = c.waiting := by
      funext q
      by_cases hq : q = p
      · subst hq
        simp [waiting, step, hpc, htodo]
      · simp [waiting, step, hpc, htodo, Function.update_of_ne hq]
    have hplace : (fun q => ((c.step p).pc q).place) = fun q => (c.pc q).place := by
      simp only [step, hpc, htodo, place_update]
      exact Function.update_eq_self_iff.mpr (by simp [hpc])
    rw [toState, toState, hwait, hplace]
    simp [step, hpc, htodo]

/-- An exchange that finds the flag clear enters the section. -/
private theorem toState_step_spinning {sec : List (T → T)} (hpc : c.pc p = .spinning sec)
    (hfree : c.lock.held = false) : (c.step p).toState = c.toState.move access p := by
  have hout : c.toState.place p = .outside := by simp [toState, hpc]
  have htodo : c.toState.todo p = sec :: c.todo p := by simp [toState, waiting, hpc]
  have hswap : c.lock.swap = (false, ⟨true, c.lock.value⟩) := by rw [SpinLock.swap, hfree]
  have hwait : (c.step p).waiting = Function.update c.waiting p (c.todo p) := by
    funext q
    by_cases hq : q = p
    · subst hq
      simp [waiting, step, hpc, hswap]
    · simp [waiting, step, hpc, hswap, Function.update_of_ne hq]
  rw [State.move_enter hout hfree htodo, toState, hwait]
  simp [step, hpc, hswap, State.enter, toState, place_update]

/-- An access is a move of the library's lock, or none. -/
private theorem toState_step (c : Contexts ι T) (p : ι) :
    (c.step p).toState = c.toState ∨ (c.step p).toState = c.toState.move access p := by
  cases hpc : c.pc p with
  | idle => exact Or.inl (toState_step_idle hpc)
  | spinning sec =>
    cases hheld : c.lock.held with
    | true => exact Or.inl (by simp [step, hpc, SpinLock.swap_of_held hheld])
    | false => exact Or.inr (toState_step_spinning hpc hheld)
  | guarded left =>
    have hin : c.toState.place p = .inside left := by simp [toState, hpc]
    cases left with
    | nil =>
      have hwait : (c.step p).waiting = c.waiting := by
        simp only [step, hpc]
        exact waiting_update hpc _ (by simp)
      rw [State.move_leave hin, toState, hwait]
      simp [step, hpc, toState, place_update, State.leave, SpinLock.unlock]
    | cons f left =>
      have hwait : (c.step p).waiting = c.waiting := by
        simp only [step, hpc]
        exact waiting_update hpc _ (by simp)
      rw [State.move_perform hin, toState, hwait]
      simp [step, hpc, toState, place_update, State.perform, SpinLock.derefMut, access]

/-- A run is a run of the library's lock. -/
theorem toState_run (c : Contexts ι T) (sched : List ι) :
    ∃ sched', (c.run sched).toState = c.toState.run access sched' := by
  induction sched generalizing c with
  | nil => exact ⟨[], rfl⟩
  | cons p sched ih =>
    obtain ⟨rest, hrest⟩ := ih (c.step p)
    rw [run, List.foldl_cons]
    rcases c.toState_step p with h | h
    · exact ⟨rest, by rw [← h]; exact hrest⟩
    · refine ⟨p :: rest, ?_⟩
      rw [State.run, List.foldl_cons, ← h]
      exact hrest

/-- A context has the guard. -/
def HasGuard (c : Contexts ι T) (p : ι) : Prop := ∃ left, c.pc p = .guarded left

omit [DecidableEq ι] in
theorem place_eq_inside {left : List (T → T)} :
    c.toState.place p = .inside left ↔ c.pc p = .guarded left := by
  cases h : c.pc p with
  | idle => simp [toState, h]
  | spinning sec => simp [toState, h]
  | guarded l => simp [toState, h]

omit [DecidableEq ι] in
private theorem place_eq_outside : c.toState.place p = .outside ↔ ¬ c.HasGuard p := by
  cases h : c.pc p with
  | idle => simp [toState, HasGuard, h]
  | spinning sec => simp [toState, HasGuard, h]
  | guarded l => simp [toState, HasGuard, h]

/-- **The lock makes sections atomic.** For any contexts, whatever each wants to do with the value
and however their accesses are interleaved: at most one has the guard, the flag is set exactly
while one has it, and the value is the one that the sections entered so far leave when they are
made one after another, the last of them only as far as its context has come. Each context
enters its own sections in order, so none is lost and none is made twice. -/
theorem sections_atomic (value : T) (prog : ι → List (List (T → T))) (sched : List ι) :
    ∃ order : List (ι × List (T → T)),
      let c := (init value prog).run sched
      (∀ p q, c.HasGuard p → c.HasGuard q → p = q) ∧
        (c.lock.held = true ↔ ∃ p, c.HasGuard p) ∧
        (∀ p, sectionsOf p order ++ c.waiting p = prog p) ∧
        ((∀ p, ¬ c.HasGuard p) → c.lock.value = (actions order).foldl access value) ∧
        ∀ p left, c.pc p = .guarded left → ∃ before done, order = before ++ [(p, done ++ left)] ∧
          c.lock.value = (actions before ++ done).foldl access value := by
  obtain ⟨sched', hrun⟩ := (init value prog).toState_run sched
  obtain ⟨order, h⟩ := serial_run access value prog sched'
  rw [toState_init] at hrun
  rw [← hrun] at h
  refine ⟨order, fun p q ⟨left, hp⟩ hq => ?_, ⟨fun hheld => ?_, fun ⟨p, left, hp⟩ => ?_⟩,
    h.programs, fun hnone => ?_, fun p left hp => ?_⟩
  · by_contra hne
    exact place_eq_outside.mp ((h.inside p left (place_eq_inside.mpr hp)).2.1 q (Ne.symm hne)) hq
  · by_contra hnone
    have hfree := (h.outside fun p => place_eq_outside.mpr fun hp => hnone ⟨p, hp⟩).1
    exact absurd (hheld.symm.trans hfree) Bool.noConfusion
  · exact (h.inside p left (place_eq_inside.mpr hp)).1
  · exact (h.outside fun p => place_eq_outside.mpr (hnone p)).2
  · exact (h.inside p left (place_eq_inside.mpr hp)).2.2

end Contexts

end LionOS.Sync
