import Mathlib.Data.List.Forall2
import Mathlib.Tactic.Cases

/-!
# Naming graphs

A context has entries, an entry has names and leads to a node, and a path is followed one
name at a time; nothing forbids cycles. When one graph represents another entry by entry,
a path leads to nodes that represent each other, or nowhere in both.
-/

namespace Lib

/-- Nodes with the entries of those that are contexts, the names an entry goes by, and the
node it leads to. -/
structure Naming (ι β ν : Type*) where
  entries : ι → Option (List β)
  named : β → ν → Bool
  node : β → ι

namespace Naming

variable {ι β κ γ ν : Type*}

/-- The first entry of that name. -/
def find (N : Naming ι β ν) (n : ι) (name : ν) : Option β :=
  (N.entries n).bind fun es => es.find? fun b => N.named b name

/-- The node a path leads to. -/
def walk (N : Naming ι β ν) : ι → List ν → Option ι
  | n, [] => some n
  | n, name :: path => (N.find n name).bind fun b => N.walk (N.node b) path

/-- The two entries go by the same names and lead to related nodes. -/
structure Alike (N : Naming ι β ν) (M : Naming κ γ ν) (R : ι → κ → Prop) (b : β) (c : γ) :
    Prop where
  named : ∀ name, N.named b name = M.named c name
  node : R (N.node b) (M.node c)

/-- Related nodes are contexts with entries that are alike one by one, or no contexts. -/
def Represents (N : Naming ι β ν) (M : Naming κ γ ν) (R : ι → κ → Prop) : Prop :=
  ∀ n m, R n m → Option.Rel (List.Forall₂ (Alike N M R)) (N.entries n) (M.entries m)

section

variable {N : Naming ι β ν} {M : Naming κ γ ν} {R : ι → κ → Prop}

/-- The first entries of a name are alike. -/
theorem Represents.find (h : Represents N M R) {n : ι} {m : κ} (hnm : R n m) (name : ν) :
    Option.Rel (Alike N M R) (N.find n name) (M.find m name) := by
  have hentries := h n m hnm
  rw [Naming.find, Naming.find]
  generalize N.entries n = es at hentries ⊢
  generalize M.entries m = es' at hentries ⊢
  cases hentries with
  | none => exact .none
  | some hall =>
    simp only [Option.bind_some]
    induction hall with
    | nil => exact .none
    | @cons b c bs cs hbc _ ih =>
      rw [List.find?_cons, List.find?_cons, hbc.named]
      cases M.named c name with
      | true => exact .some hbc
      | false => exact ih

/-- **A path leads to related nodes**, or nowhere in both graphs. -/
theorem Represents.walk (h : Represents N M R) {n : ι} {m : κ} (hnm : R n m) (path : List ν) :
    Option.Rel R (N.walk n path) (M.walk m path) := by
  induction path generalizing n m with
  | nil => exact .some hnm
  | cons name path ih =>
    have hfind := h.find hnm name
    rw [Naming.walk, Naming.walk]
    generalize N.find n name = b at hfind ⊢
    generalize M.find m name = c at hfind ⊢
    cases hfind with
    | none => exact .none
    | some hbc => exact ih hbc.node

end

end Naming

end Lib
