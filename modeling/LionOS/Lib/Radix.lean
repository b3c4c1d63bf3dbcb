import Mathlib.Data.List.Basic
import Mathlib.Data.List.Induction
import Mathlib.Data.List.Infix
import Mathlib.Tactic.Cases

/-!
# Multi-level tables

A store of tables whose entries lead to further tables is a radix tree when every
table is reached along one path only. Two updates are treated: grafting a blank
table below an absent entry, which changes no lookup, and overwriting an entry of
a last-level table, which changes exactly one.
-/

namespace Lib

/-- Where an entry of an inner table leads. -/
inductive Hop (τ : Type*) where
  | absent
  | stop
  | down (t : τ)

/-- What an entry means at each depth, and the blank entry. -/
structure Format (τ ε : Type*) where
  decode : Nat → ε → Hop τ
  blank : ε
  /-- A blank entry leads nowhere. -/
  decode_blank : ∀ d, decode d blank = .absent

namespace Format

variable {τ ι ε : Type*} (F : Format τ ε)

/-- The table below an entry, if any. -/
def child (entry : τ → ι → ε) (d : Nat) (t : τ) (i : ι) : Option τ :=
  match F.decode d (entry t i) with
  | .down u => some u
  | _ => none

/-- The table at the end of a path that starts in table `t` at depth `d`. -/
def node (entry : τ → ι → ε) : Nat → τ → List ι → Option τ
  | _, t, [] => some t
  | d, t, i :: p => (F.child entry d t i).bind fun u => node entry (d + 1) u p

/-- The entry a lookup ends at and whether an inner entry stopped it there: the entry
of the last table, an entry that stops the walk earlier, or the blank one. -/
def lookup (entry : τ → ι → ε) : Nat → τ → List ι → ε × Bool
  | _, _, [] => (F.blank, false)
  | _, t, [i] => (entry t i, false)
  | d, t, i :: j :: p =>
    match F.decode d (entry t i) with
    | .absent => (F.blank, false)
    | .stop => (entry t i, true)
    | .down u => lookup entry (d + 1) u (j :: p)

variable {F} {entry entry' : τ → ι → ε} {d n : Nat} {root t u v : τ} {i j : ι} {p q r : List ι}

/-- An entry that leads down gives the child. -/
theorem child_of_down (h : F.decode d (entry t i) = .down u) : F.child entry d t i = some u := by
  simp only [child, h]

theorem node_append :
    F.node entry d t (p ++ q) = (F.node entry d t p).bind fun u =>
      F.node entry (d + p.length) u q := by
  induction p generalizing d t with
  | nil => rfl
  | cons i p ih =>
    simp only [List.cons_append, node, List.length_cons]
    cases F.child entry d t i with
    | none => rfl
    | some u =>
      simp only [Option.bind_some, ih]
      rw [Nat.add_assoc, Nat.add_comm 1]

theorem node_concat :
    F.node entry d t (p ++ [i]) = (F.node entry d t p).bind fun u =>
      F.child entry (d + p.length) u i := by
  simp [node_append, node]

/-- A lookup goes through every table on its path. -/
theorem lookup_append (h : F.node entry d t p = some u) (hq : q ≠ []) :
    F.lookup entry d t (p ++ q) = F.lookup entry (d + p.length) u q := by
  induction p generalizing d t with
  | nil =>
    obtain rfl := Option.some.inj h
    rfl
  | cons i p ih =>
    simp only [node] at h
    obtain ⟨w, hw, hn⟩ := Option.bind_eq_some_iff.mp h
    have hd : F.decode d (entry t i) = .down w := by
      unfold child at hw
      split at hw <;> simp_all
    obtain ⟨j, s, hs⟩ := List.exists_cons_of_ne_nil (l := p ++ q) (by simp [hq])
    have hi := ih hn
    rw [List.cons_append, hs, lookup, hd]
    rw [hs] at hi
    simp only [hi, List.length_cons]
    rw [Nat.add_assoc, Nat.add_comm 1]

/-- A lookup that was stopped ends at an entry that stops. -/
theorem decode_of_stopped (h : (F.lookup entry d t q).2 = true) :
    ∃ k, F.decode k (F.lookup entry d t q).1 = .stop := by
  induction q generalizing d t with
  | nil => simp [lookup] at h
  | cons i q ih =>
    cases q with
    | nil => simp [lookup] at h
    | cons j q =>
      simp only [lookup] at h ⊢
      cases hd : F.decode d (entry t i) with
      | absent => simp [hd] at h
      | stop => exact ⟨d, hd⟩
      | down u =>
        simp only [hd] at h
        exact ih h

/-- A lookup that is not stopped meets no entry that stops. -/
theorem decode_ne_stop (hn : F.node entry d t p = some u) (hr : r ≠ [])
    (h : (F.lookup entry d t (p ++ i :: r)).2 = false) :
    F.decode (d + p.length) (entry u i) ≠ .stop := by
  intro hd
  obtain ⟨j, r, rfl⟩ := List.exists_cons_of_ne_nil hr
  rw [lookup_append hn (by simp), lookup, hd] at h
  exact absurd h (by simp)

/-- A path leads to the same table when the entries it runs through are the same. -/
theorem node_congr
    (h : ∀ (p : List ι) (j : ι) (u : τ), p ++ [j] <+: q → F.node entry 0 root p = some u →
      entry' u j = entry u j) :
    F.node entry' 0 root q = F.node entry 0 root q := by
  induction q using List.reverseRecOn with
  | nil => rfl
  | append_singleton q j ih =>
    have hq := ih fun p k u hp => h p k u (hp.trans (List.prefix_append ..))
    rw [node_concat, node_concat, hq]
    cases hn : F.node entry 0 root q with
    | none => rfl
    | some u =>
      have hent : entry' u j = entry u j := h q j u (List.prefix_refl _) hn
      simp only [Option.bind_some, child, hent]

/-- The same for the rest of a lookup that has come to table `u`. -/
theorem lookup_congr_of_node (hn : F.node entry 0 root q = some u)
    (h : ∀ (p : List ι) (j : ι) (v : τ), p ++ [j] <+: q ++ r → F.node entry 0 root p = some v →
      entry' v j = entry v j) :
    F.lookup entry' q.length u r = F.lookup entry q.length u r := by
  induction r generalizing q u with
  | nil => rfl
  | cons j r ih =>
    have hent : entry' u j = entry u j := h q j u ⟨r, by simp⟩ hn
    cases r with
    | nil => simp only [lookup, hent]
    | cons k r =>
      simp only [lookup, hent]
      cases hd : F.decode q.length (entry u j) with
      | absent => rfl
      | stop => rfl
      | down w =>
        have hw : F.node entry 0 root (q ++ [j]) = some w := by
          rw [node_concat, hn, Option.bind_some, Nat.zero_add, child_of_down hd]
        have hi := ih hw (by simpa using h)
        simpa using hi

/-- A lookup is the same when the entries it runs through are. -/
theorem lookup_congr
    (h : ∀ (p : List ι) (j : ι) (u : τ), p ++ [j] <+: q → F.node entry 0 root p = some u →
      entry' u j = entry u j) :
    F.lookup entry' 0 root q = F.lookup entry 0 root q :=
  lookup_congr_of_node (q := []) rfl h

/-- The walk along `q` meets entry `e`. -/
def Meets (F : Format τ ε) (entry : τ → ι → ε) (root : τ) (q : List ι) (e : ε) : Prop :=
  ∃ (p : List ι) (j : ι) (u : τ), p ++ [j] <+: q ∧ F.node entry 0 root p = some u ∧ entry u j = e

/-- Every entry the walk along a path meets satisfies `P`. -/
def AllMet (F : Format τ ε) (P : ε → Prop) (entry : τ → ι → ε) : Nat → τ → List ι → Prop
  | _, _, [] => True
  | d, t, i :: q =>
    P (entry t i) ∧ ∀ u, F.decode d (entry t i) = .down u → AllMet F P entry (d + 1) u q

theorem child_eq_some : F.child entry d t i = some u ↔ F.decode d (entry t i) = .down u := by
  unfold child
  split
  next w hd => simp [hd]
  next hne =>
    constructor
    · intro h
      exact absurd h (by simp)
    · intro h
      exact absurd h (hne u)

theorem allMet_iff_node {P : ε → Prop} :
    F.AllMet P entry d t q ↔
      ∀ (p : List ι) (j : ι) (u : τ), p ++ [j] <+: q → F.node entry d t p = some u →
        P (entry u j) := by
  induction q generalizing d t with
  | nil => simp [AllMet]
  | cons i q ih =>
    constructor
    · rintro ⟨hfirst, hrest⟩ p j u hp hn
      cases p with
      | nil =>
        obtain ⟨rfl, -⟩ := List.cons_prefix_cons.mp hp
        obtain rfl := Option.some.inj hn
        exact hfirst
      | cons k p =>
        obtain ⟨rfl, htail⟩ := List.cons_prefix_cons.mp hp
        obtain ⟨w, hw, hn⟩ := Option.bind_eq_some_iff.mp hn
        exact ih.mp (hrest w (child_eq_some.mp hw)) p j u htail hn
    · intro h
      refine ⟨h [] i t (by simp) rfl, fun u hu => ih.mpr fun p j w hp hn => ?_⟩
      apply h (i :: p) j w (List.cons_prefix_cons.mpr ⟨rfl, hp⟩)
      rw [node, child_of_down hu, Option.bind_some, hn]

theorem allMet_iff {P : ε → Prop} :
    F.AllMet P entry 0 root q ↔ ∀ e, F.Meets entry root q e → P e := by
  rw [allMet_iff_node]
  constructor
  · rintro h e ⟨p, j, u, hp, hn, rfl⟩
    exact h p j u hp hn
  · intro h p j u hp hn
    exact h _ ⟨p, j, u, hp, hn, rfl⟩

/-- A walk meets the same entries when they are the same. -/
theorem meets_congr {e : ε}
    (h : ∀ (p : List ι) (j : ι) (u : τ), p ++ [j] <+: q → F.node entry 0 root p = some u →
      entry' u j = entry u j) :
    F.Meets entry' root q e ↔ F.Meets entry root q e := by
  have hnode : ∀ (p : List ι) (j : ι), p ++ [j] <+: q →
      F.node entry' 0 root p = F.node entry 0 root p := by
    intro p j hp
    apply node_congr
    intro r k u hr
    exact h r k u (hr.trans ((List.prefix_append ..).trans hp))
  constructor
  · rintro ⟨p, j, u, hp, hn, rfl⟩
    rw [hnode p j hp] at hn
    exact ⟨p, j, u, hp, hn, (h p j u hp hn).symm⟩
  · rintro ⟨p, j, u, hp, hn, rfl⟩
    exact ⟨p, j, u, hp, (hnode p j hp).trans hn, h p j u hp hn⟩

theorem not_meets_nil {e : ε} : ¬ F.Meets entry root [] e := by
  rintro ⟨p, j, u, hp, -⟩
  simpa using hp.length_le

/-- One step further, a walk that has come to a table meets one of its entries. -/
theorem meets_concat {e : ε} :
    F.Meets entry root (q ++ [i]) e ↔
      F.Meets entry root q e ∨ ∃ u, F.node entry 0 root q = some u ∧ entry u i = e := by
  constructor
  · rintro ⟨p, j, u, hp, hn, rfl⟩
    rcases List.prefix_concat_iff.mp hp with he | hp
    · obtain ⟨rfl, hj⟩ := List.append_inj' he rfl
      obtain rfl := List.singleton_inj.mp hj
      exact Or.inr ⟨u, hn, rfl⟩
    · exact Or.inl ⟨p, j, u, hp, hn, rfl⟩
  · rintro (⟨p, j, u, hp, hn, rfl⟩ | ⟨u, hn, rfl⟩)
    · exact ⟨p, j, u, hp.trans (List.prefix_append ..), hn, rfl⟩
    · exact ⟨q, i, u, List.prefix_refl _, hn, rfl⟩

/-- A lookup that ends at an entry in use has met only entries in use: any other entry
leads nowhere. -/
theorem of_node_of_lookup {P : ε → Prop} (hblank : ¬ P F.blank)
    (habsent : ∀ d e, ¬ P e → F.decode d e = .absent) (h : P (F.lookup entry d t q).1)
    (hp : p ++ [j] <+: q) (hn : F.node entry d t p = some u) : P (entry u j) := by
  induction q generalizing d t p with
  | nil => simpa using hp.length_le
  | cons i q ih =>
    cases p with
    | nil =>
      obtain ⟨rfl, -⟩ := List.cons_prefix_cons.mp hp
      obtain rfl := Option.some.inj hn
      cases q with
      | nil => exact h
      | cons k q =>
        by_contra hc
        simp only [lookup, habsent d _ hc] at h
        exact hblank h
    | cons k p =>
      obtain ⟨rfl, htail⟩ := List.cons_prefix_cons.mp hp
      obtain ⟨w, hw, hn⟩ := Option.bind_eq_some_iff.mp hn
      cases q with
      | nil => simpa using htail.length_le
      | cons l q =>
        simp only [lookup, child_eq_some.mp hw] at h
        exact ih h htail hn

theorem Meets.of_lookup {P : ε → Prop} {e : ε} (hm : F.Meets entry root q e)
    (hblank : ¬ P F.blank) (habsent : ∀ d e, ¬ P e → F.decode d e = .absent)
    (h : P (F.lookup entry 0 root q).1) : P e := by
  obtain ⟨p, j, u, hp, hn, rfl⟩ := hm
  exact of_node_of_lookup hblank habsent h hp hn

/-! ## Reachable tables -/

/-- A table reached from the root along at most `n` entries. -/
def Reach (F : Format τ ε) (entry : τ → ι → ε) (n : Nat) (root t : τ) : Prop :=
  ∃ p : List ι, p.length ≤ n ∧ F.node entry 0 root p = some t

/-- Every reachable table is reached along one path only. -/
def Tree (F : Format τ ε) (entry : τ → ι → ε) (n : Nat) (root : τ) : Prop :=
  ∀ (p q : List ι) (t : τ), p.length ≤ n → q.length ≤ n →
    F.node entry 0 root p = some t → F.node entry 0 root q = some t → p = q

/-- Every reachable table has the same entries. -/
def Agree (F : Format τ ε) (entry entry' : τ → ι → ε) (n : Nat) (root : τ) : Prop :=
  ∀ u j, F.Reach entry n root u → entry' u j = entry u j

section

variable (h : F.Agree entry entry' n root)

include h

theorem Agree.entry_eq_of_prefix (hq : q.length ≤ n + 1) (r : List ι) (j : ι) (u : τ)
    (hr : r ++ [j] <+: q) (hn : F.node entry 0 root r = some u) : entry' u j = entry u j := by
  have hle := hr.length_le
  simp only [List.length_append, List.length_singleton] at hle
  exact h u j ⟨r, by omega, hn⟩

theorem Agree.node_eq (hq : q.length ≤ n) :
    F.node entry' 0 root q = F.node entry 0 root q :=
  node_congr (h.entry_eq_of_prefix (by omega))

theorem Agree.lookup_eq (hq : q.length ≤ n + 1) :
    F.lookup entry' 0 root q = F.lookup entry 0 root q :=
  lookup_congr (h.entry_eq_of_prefix hq)

theorem Agree.reach : F.Reach entry' n root u ↔ F.Reach entry n root u := by
  constructor
  · rintro ⟨q, hq, hn⟩
    exact ⟨q, hq, h.node_eq hq ▸ hn⟩
  · rintro ⟨q, hq, hn⟩
    exact ⟨q, hq, (h.node_eq hq).trans hn⟩

theorem Agree.tree (ht : F.Tree entry n root) : F.Tree entry' n root := by
  intro p q w hp hq hnp hnq
  rw [h.node_eq hp] at hnp
  rw [h.node_eq hq] at hnq
  exact ht p q w hp hq hnp hnq

end

/-- The new entries differ from the old ones, in reachable tables, at entry `i` of the
table at path `p` only. -/
structure Update (F : Format τ ε) (entry entry' : τ → ι → ε) (n : Nat) (root : τ) (p : List ι)
    (t : τ) (i : ι) : Prop where
  at_path : F.node entry 0 root p = some t
  length_le : p.length ≤ n
  same : ∀ u j, F.Reach entry n root u → ¬ (u = t ∧ j = i) → entry' u j = entry u j

section

variable (hu : F.Update entry entry' n root p t i) (ht : F.Tree entry n root)

include hu ht

/-- Away from the updated entry's own path, entries are the same. -/
theorem Update.entry_eq (hq : q.length ≤ n) (hn : F.node entry 0 root q = some u)
    (hne : q ++ [j] ≠ p ++ [i]) : entry' u j = entry u j := by
  apply hu.same u j ⟨q, hq, hn⟩
  rintro ⟨rfl, rfl⟩
  exact hne (by rw [ht q p u hq hu.length_le hn hu.at_path])

/-- The entries a path away from the updated one runs through are the same. -/
theorem Update.entry_eq_of_prefix (hq : q.length ≤ n + 1) (hne : ¬ p ++ [i] <+: q)
    (r : List ι) (j : ι) (u : τ) (hr : r ++ [j] <+: q) (hn : F.node entry 0 root r = some u) :
    entry' u j = entry u j := by
  have hle := hr.length_le
  simp only [List.length_append, List.length_singleton] at hle
  apply hu.entry_eq ht (by omega) hn
  intro he
  exact hne (he ▸ hr)

/-- Paths that do not run through the updated entry lead to the same tables. -/
theorem Update.node_eq (hq : q.length ≤ n) (hne : ¬ p ++ [i] <+: q) :
    F.node entry' 0 root q = F.node entry 0 root q :=
  node_congr (hu.entry_eq_of_prefix ht (by omega) hne)

/-- Lookups that do not run through the updated entry are the same. -/
theorem Update.lookup_eq (hq : q.length ≤ n + 1) (hne : ¬ p ++ [i] <+: q) :
    F.lookup entry' 0 root q = F.lookup entry 0 root q :=
  lookup_congr (hu.entry_eq_of_prefix ht hq hne)

end

/-! ## Changing tables -/

/-- A blank table that was not reachable is linked below an absent entry. -/
structure Graft (F : Format τ ε) (entry entry' : τ → ι → ε) (n : Nat) (root : τ) (p : List ι)
    (t : τ) (i : ι) (v : τ) : Prop extends F.Update entry entry' n root p t i where
  length_lt : p.length < n
  absent : F.decode p.length (entry t i) = .absent
  link : F.decode p.length (entry' t i) = .down v
  blank : ∀ j, entry' v j = F.blank
  fresh : ¬ F.Reach entry n root v

section

variable (hg : F.Graft entry entry' n root p t i v) (ht : F.Tree entry n root)

include hg

/-- Nothing was reachable through the absent entry. -/
theorem Graft.node_old : F.node entry 0 root (p ++ [i] ++ r) = none := by
  rw [node_append, node_concat, hg.at_path]
  simp [child, hg.absent]

include ht

/-- The new table is at the end of the extended path. -/
theorem Graft.node_new : F.node entry' 0 root (p ++ [i]) = some v := by
  have hp : F.node entry' 0 root p = some t := by
    rw [hg.node_eq ht hg.length_le, hg.at_path]
    intro h
    have := h.length_le
    simp only [List.length_append, List.length_singleton] at this
    omega
  rw [node_concat, hp, Option.bind_some, Nat.zero_add]
  exact child_of_down hg.link

/-- Nothing hangs below the new table. -/
theorem Graft.node_below : F.node entry' 0 root (p ++ [i] ++ j :: r) = none := by
  rw [node_append, hg.node_new ht]
  simp [node, child, hg.blank, F.decode_blank]

/-- The tables reached afterwards are those reached before and the new one. -/
theorem Graft.node_cases (hq : q.length ≤ n) (hn : F.node entry' 0 root q = some u) :
    (q = p ++ [i] ∧ u = v) ∨ F.node entry 0 root q = some u := by
  by_cases hpre : p ++ [i] <+: q
  · obtain ⟨r, rfl⟩ := hpre
    cases r with
    | nil =>
      rw [List.append_nil, hg.node_new ht] at hn
      exact Or.inl ⟨List.append_nil _, (Option.some.inj hn).symm⟩
    | cons j r =>
      rw [hg.node_below ht] at hn
      exact absurd hn (by simp)
  · exact Or.inr (hg.node_eq ht hq hpre ▸ hn)

theorem Graft.reach (h : F.Reach entry' n root u) : F.Reach entry n root u ∨ u = v := by
  obtain ⟨q, hq, hn⟩ := h
  rcases hg.node_cases ht hq hn with ⟨-, rfl⟩ | hn
  · exact Or.inr rfl
  · exact Or.inl ⟨q, hq, hn⟩

/-- Tables stay reachable. -/
theorem Graft.reach_of_old (h : F.Reach entry n root u) : F.Reach entry' n root u := by
  obtain ⟨q, hq, hn⟩ := h
  refine ⟨q, hq, ?_⟩
  rw [hg.node_eq ht hq, hn]
  rintro ⟨r, rfl⟩
  rw [hg.node_old] at hn
  exact absurd hn (by simp)

/-- Grafting keeps the tables a tree. -/
theorem Graft.tree : F.Tree entry' n root := by
  intro q r w hq hr hnq hnr
  rcases hg.node_cases ht hq hnq with ⟨rfl, rfl⟩ | hnq <;>
    rcases hg.node_cases ht hr hnr with ⟨rfl, hw⟩ | hnr
  · rfl
  · exact absurd ⟨r, hr, hnr⟩ hg.fresh
  · exact absurd ⟨q, hq, hw ▸ hnq⟩ hg.fresh
  · exact ht q r w hq hr hnq hnr

/-- Grafting changes no lookup of full length. -/
theorem Graft.lookup_eq (hq : q.length = n + 1) :
    F.lookup entry' 0 root q = F.lookup entry 0 root q := by
  by_cases hpre : p ++ [i] <+: q
  · obtain ⟨r, rfl⟩ := hpre
    have hlt := hg.length_lt
    cases r with
    | nil =>
      simp only [List.append_nil, List.length_append, List.length_singleton] at hq
      omega
    | cons j r =>
      have hnew : F.lookup entry' 0 root (p ++ [i] ++ j :: r) = (F.blank, false) := by
        rw [lookup_append (hg.node_new ht) (by simp)]
        cases r with
        | nil => simp only [lookup, hg.blank]
        | cons k r => simp only [lookup, hg.blank, F.decode_blank]
      have hold : F.lookup entry 0 root (p ++ [i] ++ j :: r) = (F.blank, false) := by
        rw [List.append_assoc, lookup_append hg.at_path (by simp), Nat.zero_add]
        simp only [List.singleton_append, lookup, hg.absent]
      rw [hnew, hold]
  · exact hg.toUpdate.lookup_eq ht (by omega) hpre

end

section

variable (hu : F.Update entry entry' n root p t i) (ht : F.Tree entry n root) (hp : p.length = n)

include hp

/-- A last-level entry is on no path to a table. -/
theorem not_prefix_of_last (hq : q.length ≤ n) : ¬ p ++ [i] <+: q := by
  intro h
  have := h.length_le
  simp only [List.length_append, List.length_singleton] at this
  omega

include hu ht

theorem Update.node_eq_of_last (hq : q.length ≤ n) :
    F.node entry' 0 root q = F.node entry 0 root q :=
  hu.node_eq ht hq (not_prefix_of_last hp hq)

theorem Update.reach_of_last : F.Reach entry' n root u ↔ F.Reach entry n root u := by
  constructor
  · rintro ⟨q, hq, hn⟩
    exact ⟨q, hq, hu.node_eq_of_last ht hp hq ▸ hn⟩
  · rintro ⟨q, hq, hn⟩
    exact ⟨q, hq, (hu.node_eq_of_last ht hp hq).trans hn⟩

/-- Overwriting a last-level entry keeps the tables a tree. -/
theorem Update.tree_of_last : F.Tree entry' n root := by
  intro q r w hq hr hnq hnr
  rw [hu.node_eq_of_last ht hp hq] at hnq
  rw [hu.node_eq_of_last ht hp hr] at hnr
  exact ht q r w hq hr hnq hnr

/-- The lookup along the path of the overwritten entry finds it. -/
theorem Update.lookup_self : F.lookup entry' 0 root (p ++ [i]) = (entry' t i, false) := by
  have hn : F.node entry' 0 root p = some t := by
    rw [hu.node_eq_of_last ht hp hu.length_le, hu.at_path]
  rw [lookup_append hn (by simp)]
  rfl

/-- Every other lookup is unchanged. -/
theorem Update.lookup_other (hq : q.length = n + 1) (hne : q ≠ p ++ [i]) :
    F.lookup entry' 0 root q = F.lookup entry 0 root q := by
  apply hu.lookup_eq ht (by omega)
  intro h
  exact hne (h.eq_of_length (by simp only [List.length_append, List.length_singleton]; omega)).symm

end

/-- Entry `i` of the root, and every entry of the tables below it, satisfies `P`. -/
def Below (F : Format τ ε) (P : ε → Prop) (entry : τ → ι → ε) (n : Nat) (root : τ) (i : ι) : Prop :=
  ∀ (q : List ι) (j : ι) (u : τ), q.length ≤ n → (q ++ [j]).head? = some i →
    F.node entry 0 root q = some u → P (entry u j)

section

variable {P : ε → Prop} {k : ι}

/-- A walk through the entry meets such entries only. -/
theorem Below.of_meets {e : ε} (h : F.Below P entry n root k) (hq : q.length ≤ n + 1)
    (hk : q.head? = some k) (hm : F.Meets entry root q e) : P e := by
  obtain ⟨p, j, u, hp, hn, rfl⟩ := hm
  have hle := hp.length_le
  simp only [List.length_append, List.length_singleton] at hle
  obtain ⟨r, rfl⟩ := hp
  refine h p j u (by omega) ?_ hn
  rwa [List.head?_append_of_ne_nil _ (by simp)] at hk

/-- Nothing is below an absent entry. -/
theorem Below.of_absent (hP : P (entry root k)) (habs : F.decode 0 (entry root k) = .absent) :
    F.Below P entry n root k := by
  intro q j u _ hk hn
  cases q with
  | nil =>
    obtain rfl := Option.some.inj hn
    obtain rfl : j = k := Option.some.inj hk
    exact hP
  | cons i q =>
    obtain rfl : i = k := Option.some.inj hk
    simp [node, child, habs] at hn

theorem Agree.below (ha : F.Agree entry entry' n root) (h : F.Below P entry n root k) :
    F.Below P entry' n root k := by
  intro q j u hq hk hn
  rw [ha.node_eq hq] at hn
  rw [ha u j ⟨q, hq, hn⟩]
  exact h q j u hq hk hn

/-- A blank table is linked by an entry that satisfies `P`. -/
theorem Graft.below (hg : F.Graft entry entry' n root p t i v) (ht : F.Tree entry n root)
    (hblank : P F.blank) (hlink : P (entry' t i)) (h : F.Below P entry n root k) :
    F.Below P entry' n root k := by
  intro q j u hq hk hn
  rcases hg.node_cases ht hq hn with ⟨-, rfl⟩ | hn
  · rw [hg.blank j]
    exact hblank
  by_cases hself : u = t ∧ j = i
  · rw [hself.1, hself.2]
    exact hlink
  · rw [hg.same u j ⟨q, hq, hn⟩ hself]
    exact h q j u hq hk hn

/-- A last-level entry is overwritten by one that satisfies `P`. -/
theorem Update.below_of_last (hu : F.Update entry entry' n root p t i) (ht : F.Tree entry n root)
    (hp : p.length = n) (hnew : P (entry' t i)) (h : F.Below P entry n root k) :
    F.Below P entry' n root k := by
  intro q j u hq hk hn
  rw [hu.node_eq_of_last ht hp hq] at hn
  by_cases hself : u = t ∧ j = i
  · rw [hself.1, hself.2]
    exact hnew
  · rw [hu.same u j ⟨q, hq, hn⟩ hself]
    exact h q j u hq hk hn

end

/-- `root'` is a new table with the entries of `root`; the tables below are shared. -/
structure Copied (F : Format τ ε) (entry entry' : τ → ι → ε) (n : Nat) (root root' : τ) : Prop where
  copied : ∀ i, entry' root' i = entry root i
  shared : ∀ u j, F.Reach entry n root u → entry' u j = entry u j
  fresh : ¬ F.Reach entry n root root'

section

variable {root' : τ} (h : F.Copied entry entry' n root root')

include h

/-- Below the root the paths lead to the same tables. -/
theorem Copied.node_eq (hq : (i :: q).length ≤ n) :
    F.node entry' 0 root' (i :: q) = F.node entry 0 root (i :: q) := by
  induction q using List.reverseRecOn with
  | nil => simp only [node, child, h.copied]
  | append_singleton q j ih =>
    rw [List.length_cons, List.length_append, List.length_singleton] at hq
    have hshort : (i :: q).length ≤ n := by
      rw [List.length_cons]
      omega
    rw [← List.cons_append, node_concat, node_concat, ih hshort]
    cases hn : F.node entry 0 root (i :: q) with
    | none => rfl
    | some u =>
      have hent : entry' u j = entry u j := h.shared u j ⟨i :: q, hshort, hn⟩
      simp only [Option.bind_some, child, hent]

theorem Copied.lookup_eq (hq : (i :: q).length ≤ n + 1) :
    F.lookup entry' 0 root' (i :: q) = F.lookup entry 0 root (i :: q) := by
  cases q with
  | nil => simp only [lookup, h.copied]
  | cons j q =>
    simp only [lookup, h.copied]
    cases hd : F.decode 0 (entry root i) with
    | absent => rfl
    | stop => rfl
    | down u =>
      have hn : F.node entry 0 root [i] = some u := by
        rw [node, child_of_down hd, Option.bind_some, node]
      refine lookup_congr_of_node hn fun p k v hp hv => h.shared v k ⟨p, ?_, hv⟩
      have hle := hp.length_le
      simp only [List.length_append, List.length_cons] at hle hq
      omega

theorem Copied.reach (hu : F.Reach entry' n root' u) : u = root' ∨ F.Reach entry n root u := by
  obtain ⟨q, hq, hn⟩ := hu
  cases q with
  | nil => exact Or.inl (Option.some.inj hn).symm
  | cons i q => exact Or.inr ⟨i :: q, hq, (h.node_eq hq).symm.trans hn⟩

theorem Copied.tree (ht : F.Tree entry n root) : F.Tree entry' n root' := by
  intro p q t hp hq hnp hnq
  cases p with
  | nil =>
    obtain rfl := Option.some.inj hnp
    cases q with
    | nil => rfl
    | cons j q => exact absurd ⟨j :: q, hq, (h.node_eq hq).symm.trans hnq⟩ h.fresh
  | cons i p =>
    cases q with
    | nil =>
      obtain rfl := Option.some.inj hnq
      exact absurd ⟨i :: p, hp, (h.node_eq hp).symm.trans hnp⟩ h.fresh
    | cons j q =>
      exact ht _ _ t hp hq ((h.node_eq hp).symm.trans hnp) ((h.node_eq hq).symm.trans hnq)

end

end Format

end Lib
