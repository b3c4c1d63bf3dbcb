import LionOS.Lib.Atomic
import Mathlib.Data.List.Nodup

/-!
# The identity gate

The gate keeps the registered identity and a flag in two statics, which any context may read
and write at any time. Registering stores the identity and then sets the flag; the readers load
the flag first. So the two accesses of a call look like one: the gate is an atomic object that
holds the identity, if any.
-/

namespace LionOS.Drivers.FaceId

open Lib

/-- The calls; `gate` runs its action if it returns true. -/
inductive Call where
  | registerIdentity (desc : Nat)
  | enrolled
  | verify (probe : Nat)
  | gate (probe : Nat)
  deriving DecidableEq, Repr

/-- What the calls return. -/
inductive Answer where
  | unit
  | identity (desc : Option Nat)
  | verdict (b : Bool)
  deriving DecidableEq, Repr

/-- The next access of a context. -/
inductive Pc where
  | idle
  /-- `STORED.store(desc)`. -/
  | storeDesc (desc : Nat)
  /-- `ENROLLED.store(true)`; `desc` was stored. -/
  | storeFlag (desc : Nat)
  /-- `ENROLLED.load()`. -/
  | loadFlag (op : Call)
  /-- `STORED.load()`. -/
  | loadDesc (op : Call)
  | done (r : Answer)

/-- The statics and the contexts. -/
structure Statics (ι : Type) where
  stored : Nat
  enrolled : Bool
  pc : ι → Pc

/-- What a reading call makes of `enrolled()`. -/
def answer (found : Option Nat) : Call → Answer
  | .registerIdentity _ => .unit
  | .enrolled => .identity found
  | .verify probe | .gate probe =>
    match found with
    | some stored => .verdict (probe == stored)
    | none => .verdict false

/-- Where a call begins. -/
def entry : Call → Pc
  | .registerIdentity desc => .storeDesc desc
  | op => .loadFlag op

namespace Statics

variable {ι : Type} [DecidableEq ι]

/-- The statics at boot. -/
def boot : Statics ι := ⟨0, false, fun _ => .idle⟩

/-- One access by context `p`. -/
def access (c : Statics ι) (p : ι) : Option (Statics ι) :=
  match c.pc p with
  | .storeDesc desc =>
    some { c with stored := desc, pc := Function.update c.pc p (.storeFlag desc) }
  | .storeFlag _ => some { c with enrolled := true, pc := Function.update c.pc p (.done .unit) }
  | .loadFlag op =>
    some { c with
      pc := Function.update c.pc p (if c.enrolled then .loadDesc op else .done (answer none op)) }
  | .loadDesc op =>
    some { c with pc := Function.update c.pc p (.done (answer (some c.stored) op)) }
  | .idle | .done _ => none

/-- Calls, accesses and returns of the contexts, in any order. -/
inductive Step (c : Statics ι) : Option (ObjectEvent ι Call Answer) → Statics ι → Prop
  | call (p : ι) (op : Call) (h : c.pc p = .idle) :
      Step c (some (.call p op)) { c with pc := Function.update c.pc p (entry op) }
  | access (p : ι) {c' : Statics ι} (h : c.access p = some c') : Step c none c'
  | ret (p : ι) (r : Answer) (h : c.pc p = .done r) :
      Step c (some (.ret p r)) { c with pc := Function.update c.pc p .idle }

/-- The contexts that share the gate. -/
def system : System (ObjectEvent ι Call Answer) (Statics ι) := ⟨Step⟩

end Statics

/-- The identity that opens the gate, as an object. -/
def identityObject : Object (Option Nat) Call Answer where
  apply op v :=
    match op with
    | .registerIdentity desc => (some desc, .unit)
    | op => (v, answer v op)

variable {ι : Type} [DecidableEq ι] {c c' : Statics ι} {a : Shared ι (Option Nat) Call Answer}

/-- Where a client of the object stands while its context is at `pc`. A registration whose
identity is stored has taken effect once the flag is set. -/
def Stands (enrolled : Bool) : Pc → Client Call Answer → Prop
  | .idle, s => s = .idle
  | .storeDesc desc, s => s = .called (.registerIdentity desc)
  | .storeFlag desc, s =>
    s = if enrolled then .served .unit else .called (.registerIdentity desc)
  | .loadFlag op, s => s = .called op ∧ ∀ desc, op ≠ .registerIdentity desc
  | .loadDesc op, s =>
    s = .called op ∧ (∀ desc, op ≠ .registerIdentity desc) ∧ enrolled = true
  | .done r, s => s = .served r

/-- The statics stand for the object. Before the flag is set, the identity stored belongs to a
registration on its way. -/
structure Represents (c : Statics ι) (a : Shared ι (Option Nat) Call Answer) : Prop where
  value : a.value = if c.enrolled then some c.stored else none
  client : ∀ p, Stands c.enrolled (c.pc p) (a.client p)
  owner : c.enrolled = false → ∀ p desc, c.pc p = .storeFlag desc →
    ∃ q, c.pc q = .storeFlag c.stored
  waiting : ∃ ps : List ι, ps.Nodup ∧ ∀ p, (∃ desc, c.pc p = .storeFlag desc) → p ∈ ps

omit [DecidableEq ι] in
/-- Where the client of a context stands. -/
theorem Represents.stands (h : Represents c a) {p : ι} {x : Pc} (hp : c.pc p = x) :
    Stands c.enrolled x (a.client p) :=
  hp ▸ h.client p

theorem apply_of_read {op : Call} (h : ∀ desc, op ≠ .registerIdentity desc) (v : Option Nat) :
    identityObject.apply op v = (v, answer v op) := by
  cases op with
  | registerIdentity desc => exact absurd rfl (h desc)
  | enrolled | verify | gate => rfl

theorem Stands.enroll {x : Pc} {s : Client Call Answer} (h : Stands false x s)
    (hx : ∀ desc, x ≠ .storeFlag desc) : Stands true x s := by
  cases x with
  | storeFlag desc => exact absurd rfl (hx desc)
  | loadDesc op => exact absurd h.2.2 (by decide)
  | idle | storeDesc | loadFlag | done => exact h

theorem stands_entry (b : Bool) (op : Call) : Stands b (entry op) (.called op) := by
  cases op <;> simp [entry, Stands]

theorem entry_ne (op : Call) (desc : Nat) : entry op ≠ .storeFlag desc := by
  cases op <;> simp [entry]

/-- A context moves on and its client with it, past no store. -/
theorem Represents.move (h : Represents c a) {p : ι} {x : Pc} {s : Client Call Answer}
    (hfrom : ∀ desc, c.pc p ≠ .storeFlag desc) (hto : ∀ desc, x ≠ .storeFlag desc)
    (hs : Stands c.enrolled x s) :
    Represents { c with pc := Function.update c.pc p x }
      { a with client := Function.update a.client p s } where
  value := h.value
  client q := by
    by_cases hq : q = p
    · subst hq
      simpa using hs
    · simpa [Function.update_of_ne hq] using h.client q
  owner hoff q desc hq := by
    have hqp : q ≠ p := by
      rintro rfl
      exact hto desc (by simpa using hq)
    obtain ⟨r, hr⟩ := h.owner hoff q desc (by simpa [Function.update_of_ne hqp] using hq)
    have hrp : r ≠ p := by
      rintro rfl
      exact hfrom _ hr
    exact ⟨r, (Function.update_of_ne hrp ..).trans hr⟩
  waiting := by
    obtain ⟨ps, hnodup, hps⟩ := h.waiting
    refine ⟨ps, hnodup, fun q hq => hps q ?_⟩
    obtain ⟨desc, hq⟩ := hq
    by_cases hqp : q = p
    · subst hqp
      exact absurd (by simpa using hq) (hto desc)
    · exact ⟨desc, by simpa [Function.update_of_ne hqp] using hq⟩

/-- The same without the client. -/
theorem Represents.stay (h : Represents c a) {p : ι} {x : Pc}
    (hfrom : ∀ desc, c.pc p ≠ .storeFlag desc) (hto : ∀ desc, x ≠ .storeFlag desc)
    (hs : Stands c.enrolled x (a.client p)) :
    Represents { c with pc := Function.update c.pc p x } a := by
  have hmove := h.move hfrom hto hs
  rwa [Function.update_eq_self] at hmove

/-- A context that has loaded what it needs is served at once. -/
theorem Represents.read (h : Represents c a) {p : ι} {op : Call}
    (hfrom : ∀ desc, c.pc p ≠ .storeFlag desc) (hop : ∀ desc, op ≠ .registerIdentity desc)
    (hcalled : a.client p = .called op) :
    ∃ a', identityObject.atomic.Run a [] a' ∧
      Represents { c with pc := Function.update c.pc p (.done (answer a.value op)) } a' := by
  have hrun : identityObject.atomic.Run a [] _ := .silent .nil (.effect p op hcalled)
  rw [apply_of_read hop] at hrun
  exact ⟨_, hrun, h.move hfrom (by simp) rfl⟩

/-- The contexts with an identity stored, one more among them. -/
theorem Represents.waiting_insert (h : Represents c a) (p : ι) (x : Pc) :
    ∃ ps : List ι, ps.Nodup ∧
      ∀ q, (∃ desc, Function.update c.pc p x q = .storeFlag desc) → q ∈ ps := by
  obtain ⟨ps, hnodup, hps⟩ := h.waiting
  refine ⟨ps.insert p, List.Nodup.insert hnodup, fun q ⟨desc, hq⟩ => ?_⟩
  by_cases hqp : q = p
  · rw [hqp]
    exact List.mem_insert_self
  · rw [Function.update_of_ne hqp] at hq
    exact List.mem_insert_of_mem (hps q ⟨desc, hq⟩)

/-- Storing an identity takes effect if the flag is set, and waits for the flag otherwise. -/
theorem Represents.storeDesc (h : Represents c a) {p : ι} {desc : Nat}
    (hp : c.pc p = .storeDesc desc) :
    ∃ a', identityObject.atomic.Run a [] a' ∧
      Represents { c with stored := desc, pc := Function.update c.pc p (.storeFlag desc) } a' := by
  have hcalled : a.client p = .called (.registerIdentity desc) := h.stands hp
  have hwait := h.waiting_insert p (.storeFlag desc)
  cases hon : c.enrolled with
  | true =>
    refine ⟨_, .silent .nil (.effect p _ hcalled), rfl, fun q => ?_, by simp, hwait⟩
    by_cases hq : q = p
    · subst hq
      simp [Stands, identityObject]
    · simpa [Function.update_of_ne hq, hon] using hon ▸ h.client q
  | false =>
    refine ⟨a, .nil, ?_, fun q => ?_, fun _ q desc' hq => ?_, hwait⟩
    · simpa [hon] using h.value
    · by_cases hq : q = p
      · subst hq
        simpa [Stands, hon] using hcalled
      · simpa [Function.update_of_ne hq, hon] using hon ▸ h.client q
    · exact ⟨p, Function.update_self ..⟩

/-- A context between its two stores. -/
def Pc.isWaiting : Pc → Bool
  | .storeFlag _ => true
  | _ => false

theorem Pc.isWaiting_iff {x : Pc} : x.isWaiting = true ↔ ∃ desc, x = .storeFlag desc := by
  cases x <;> simp [isWaiting]

/-- Setting the flag for the first time, all registrations on their way take effect, the one
whose identity is stored last. -/
theorem Represents.storeFlag (h : Represents c a) {p : ι} {desc : Nat}
    (hp : c.pc p = .storeFlag desc) :
    ∃ a', identityObject.atomic.Run a [] a' ∧
      Represents { c with enrolled := true, pc := Function.update c.pc p (.done .unit) } a' := by
  obtain ⟨ps, hnodup, hps⟩ := h.waiting
  have hwait : ∀ q, (∃ d, Function.update c.pc p (.done .unit) q = .storeFlag d) → q ∈ ps := by
    rintro q ⟨d, hq⟩
    by_cases hqp : q = p
    · subst hqp
      simp at hq
    · exact hps q ⟨d, by rwa [Function.update_of_ne hqp] at hq⟩
  cases hon : c.enrolled with
  | true =>
    refine ⟨a, .nil, ?_, fun q => ?_, by simp, ps, hnodup, hwait⟩
    · simpa [hon] using h.value
    · have hclient := h.client q
      rw [hon] at hclient
      by_cases hq : q = p
      · subst hq
        rw [hp] at hclient
        simpa [Stands] using hclient
      · simpa [Function.update_of_ne hq] using hclient
  | false =>
    have hclient : ∀ q, Stands false (c.pc q) (a.client q) := fun q => hon ▸ h.client q
    obtain ⟨last, hlast⟩ := h.owner hon p desc hp
    let others := ps.filter fun q => (c.pc q).isWaiting && decide (q ≠ last)
    have hothers : ∀ q, q ∈ others ↔ (∃ d, c.pc q = .storeFlag d) ∧ q ≠ last := by
      intro q
      simp only [others, List.mem_filter, Bool.and_eq_true, Pc.isWaiting_iff, decide_eq_true_eq]
      exact ⟨fun hq => hq.2, fun hq => ⟨hps q hq.1, hq⟩⟩
    have hcalled : ∀ q d, c.pc q = .storeFlag d →
        a.client q = .called (.registerIdentity d) := by
      intro q d hq
      have hstands := hclient q
      rwa [hq] at hstands
    obtain ⟨a₁, hrun, hsame, hserved⟩ := Object.exists_serve (O := identityObject)
      (hnodup.filter _ : others.Nodup) fun q hq => by
        obtain ⟨⟨d, hd⟩, -⟩ := (hothers q).mp hq
        exact ⟨_, hcalled q d hd⟩
    have hlast₁ : a₁.client last = .called (.registerIdentity c.stored) := by
      rw [hsame last fun hmem => ((hothers last).mp hmem).2 rfl, hcalled last _ hlast]
    -- Whoever waited has been served.
    have hunit : ∀ q d, c.pc q = .storeFlag d →
        Function.update a₁.client last (.served .unit) q = .served .unit := by
      intro q d hq
      by_cases hql : q = last
      · rw [hql, Function.update_self]
      · obtain ⟨op, v, hop, hres⟩ := hserved q ((hothers q).mpr ⟨⟨d, hq⟩, hql⟩)
        rw [hcalled q d hq] at hop
        obtain rfl := Client.called.inj hop
        rw [Function.update_of_ne hql, hres]
        rfl
    refine ⟨⟨some c.stored, Function.update a₁.client last (.served .unit)⟩,
      hrun.silent (.effect last _ hlast₁), rfl, fun q => ?_, by simp, ps, hnodup, hwait⟩
    by_cases hq : q = p
    · subst hq
      simpa [Stands] using hunit q desc hp
    · dsimp only
      rw [Function.update_of_ne hq]
      by_cases hw : ∃ d, c.pc q = .storeFlag d
      · obtain ⟨d, hd⟩ := hw
        rw [hd]
        exact hunit q d hd
      · have hql : q ≠ last := fun hql => hw ⟨_, hql ▸ hlast⟩
        rw [Function.update_of_ne hql, hsame q fun hmem => hw ((hothers q).mp hmem).1]
        exact (hclient q).enroll fun d hd => hw ⟨d, hd⟩

/-- Each access is answered by the object. -/
theorem simulates : (Statics.system (ι := ι)).Simulates identityObject.atomic Represents := by
  intro c a o c' h hstep
  cases hstep with
  | call p op hp =>
    have hidle : a.client p = .idle := h.stands hp
    exact ⟨_, System.Run.nil.shown (.call p op hidle),
      h.move (by simp [hp]) (entry_ne op) (stands_entry _ op)⟩
  | ret p r hp =>
    have hserved : a.client p = .served r := h.stands hp
    exact ⟨_, System.Run.nil.shown (.ret p r hserved), h.move (by simp [hp]) (by simp) rfl⟩
  | @access p c' haccess =>
    cases hp : c.pc p with
    | idle | done r => simp [Statics.access, hp] at haccess
    | storeDesc desc =>
      simp only [Statics.access, hp, Option.some.injEq] at haccess
      exact haccess ▸ h.storeDesc hp
    | storeFlag desc =>
      simp only [Statics.access, hp, Option.some.injEq] at haccess
      exact haccess ▸ h.storeFlag hp
    | loadFlag op =>
      obtain ⟨hcalled, hop⟩ := h.stands hp
      simp only [Statics.access, hp, Option.some.injEq] at haccess
      have hvalue := h.value
      by_cases hon : c.enrolled = true
      · rw [if_pos hon] at haccess
        exact ⟨a, .nil, haccess ▸ h.stay (by simp [hp]) (by simp) ⟨hcalled, hop, hon⟩⟩
      · rw [if_neg hon] at haccess hvalue
        rw [← haccess, ← hvalue]
        exact h.read (by simp [hp]) hop hcalled
    | loadDesc op =>
      obtain ⟨hcalled, hop, hon⟩ := h.stands hp
      simp only [Statics.access, hp, Option.some.injEq] at haccess
      have hvalue := h.value
      rw [if_pos hon] at hvalue
      rw [← haccess, ← hvalue]
      exact h.read (by simp [hp]) hop hcalled

omit [DecidableEq ι] in
private theorem represents_boot : Represents (Statics.boot : Statics ι) (Object.start none) where
  value := rfl
  client _ := rfl
  owner _ _ _ h := by simp [Statics.boot] at h
  waiting := ⟨[], List.nodup_nil, by simp [Statics.boot]⟩

/-- **The gate is atomic.** For any contexts and any order of their accesses, the calls and
returns that they see are those of an object that holds the registered identity, if any, and
serves each call at one moment between its call and its return; so the gate opens only for the
identity registered last, and for none before a registration has taken effect. -/
theorem gate_atomic {l : List (ObjectEvent ι Call Answer)} {c : Statics ι}
    (hrun : Statics.system.Run Statics.boot l c) :
    ∃ a, identityObject.atomic.Run (Object.start none) l a ∧
      a.value = if c.enrolled then some c.stored else none := by
  obtain ⟨a, ha, hrep⟩ := simulates.run represents_boot hrun
  exact ⟨a, ha, hrep.value⟩

/-- A probe that comes between the two stores of a registration and is let through. -/
theorem gate_atomic_seven :
    ∃ a, identityObject.atomic.Run (Object.start none)
        [.call true (.registerIdentity 7), .call false (.gate 7), .ret false (.verdict true)] a ∧
      a.value = some 7 := by
  have h₁ := System.Run.nil.shown (M := Statics.system) (s := (Statics.boot : Statics Bool))
    (.call true (.registerIdentity 7) rfl)
  have h₂ := (h₁.silent (.access true rfl)).shown (.call false (.gate 7) rfl)
  have h₃ := ((h₂.silent (.access true rfl)).silent (.access false rfl)).silent (.access false rfl)
  obtain ⟨a, ha, hvalue⟩ := gate_atomic (h₃.shown (.ret false (.verdict true) rfl))
  exact ⟨a, ha, hvalue⟩

end LionOS.Drivers.FaceId
