import LionOS.Heap.Runs

/-!
# The order of the free list

The insertion walk of `dealloc_layout` and its merge tests rely on a list in ascending
address order without adjacent blocks, and put blocks back so that it stays one. An
allocation pushes the remainder of a split on the head of the list, which is its place
only when the block it splits was the first one.
-/

namespace LionOS.Heap

open Lib

/-- The free list ascends by address, and no free block ends where another starts. -/
def Ordered (w : World) : Prop :=
  ∃ free, FreeList w.heap free ∧ free.Pairwise (fun b c => b.addr < c.addr) ∧
    ∀ b ∈ free, ∀ c ∈ free, b.stop ≠ c.addr

/-- The call is an allocation that splits a block which is not the first of the list. -/
def SplitsBehind (w : World) (c : Call) : Prop :=
  ∃ l pre b post, c = .alloc l ∧ FirstFit w.heap l pre b post ∧ pre ≠ [] ∧
    l.need + nodeSize ≤ b.size

/-- Each block ends below the start of the ones behind it. -/
def Spaced (l : List Block) : Prop := l.Pairwise fun b c => b.stop < c.addr

variable {base size lo hi : Nat} {w w' : World} {free pre post : List Block} {b : Block} {c : Call}
  {past : List (World × Call)}

/-- Placed blocks are in order without adjacent ones exactly when they are spaced. -/
theorem spaced_iff (hp : Placed lo hi free) :
    Spaced free ↔ free.Pairwise (fun b c => b.addr < c.addr) ∧
      ∀ b ∈ free, ∀ c ∈ free, b.stop ≠ c.addr := by
  constructor
  · intro hs
    have hasc : free.Pairwise (fun b c => b.addr < c.addr) := by
      apply hs.imp
      intro b c hbc
      simp only [Block.stop] at hbc
      omega
    refine ⟨hasc, fun b hb c hc => ?_⟩
    have hrel : free.Pairwise fun b c => b.stop ≠ c.addr ∧ c.stop ≠ b.addr := by
      refine (List.Pairwise.and_mem.mp hs).imp ?_
      rintro b c ⟨hb, hc, hbc⟩
      have := hp.room c hc
      simp only [Block.stop] at hbc ⊢
      omega
    rcases eq_or_ne b c with rfl | hne
    · have := hp.room b hb
      simp only [Block.stop]
      omega
    · have hsym : Std.Symm fun b c : Block => b.stop ≠ c.addr ∧ c.stop ≠ b.addr :=
        ⟨fun _ _ h => ⟨h.2, h.1⟩⟩
      exact (hrel.forall hb hc hne).1
  · rintro ⟨hasc, hadj⟩
    refine (List.Pairwise.and_mem.mp (hasc.and hp.apart)).imp ?_
    rintro b c ⟨hb, hc, hlt, hap⟩
    have hne := hadj b hb c hc
    have hroom := hp.room c hc
    simp only [Block.Apart, Block.stop] at hap hne ⊢
    omega

/-- Merging to the right spaces the block from the rest. -/
theorem Spaced.joinRight (hs : Spaced post) (hb : ∀ c ∈ post, b.stop ≤ c.addr) :
    Spaced ((joinRight b post).1 :: (joinRight b post).2) := by
  cases post with
  | nil => simp [Heap.joinRight, Spaced]
  | cons c post =>
    obtain ⟨hc, hpost⟩ := List.pairwise_cons.mp hs
    have hbc := hb c (List.mem_cons_self ..)
    by_cases hadj : b.stop = c.addr
    · rw [Heap.joinRight, if_pos hadj]
      refine List.pairwise_cons.mpr ⟨fun d hd => ?_, hpost⟩
      have hcd := hc d hd
      simp only [Block.stop] at hadj hcd ⊢
      omega
    · rw [Heap.joinRight, if_neg hadj]
      refine List.pairwise_cons.mpr ⟨fun d hd => ?_, hs⟩
      rcases List.mem_cons.mp hd with rfl | hd
      · exact lt_of_le_of_ne hbc hadj
      · have hcd := hc d hd
        simp only [Block.stop] at hbc hadj hcd ⊢
        omega

/-- Merging to the left spaces the block from the ones in front. -/
theorem Spaced.joinLeft (hs : Spaced pre) (hpost : Spaced (b :: post))
    (hb : ∀ c ∈ pre, c.stop ≤ b.addr) : Spaced (joinLeft pre b post) := by
  have hbelow : ∀ c ∈ pre, ∀ d ∈ post, c.stop < d.addr := by
    intro c hc d hd
    have hcb := hb c hc
    have hbd := (List.pairwise_cons.mp hpost).1 d hd
    simp only [Block.stop] at hcb hbd ⊢
    omega
  rcases List.eq_nil_or_concat pre with rfl | ⟨pre, p, rfl⟩
  · exact hpost
  · simp only [List.concat_eq_append] at hs hb hbelow ⊢
    simp only [Heap.joinLeft, List.getLast?_concat, List.dropLast_concat]
    obtain ⟨hpre, -, hpp⟩ := List.pairwise_append.mp hs
    by_cases hadj : p.stop = b.addr
    · rw [if_pos hadj]
      refine List.pairwise_append.mpr ⟨hpre, List.pairwise_cons.mpr
        ⟨fun d hd => ?_, (List.pairwise_cons.mp hpost).2⟩, fun c hc d hd => ?_⟩
      · have hbd := (List.pairwise_cons.mp hpost).1 d hd
        simp only [Block.stop] at hadj hbd ⊢
        omega
      · rcases List.mem_cons.mp hd with rfl | hd
        · exact hpp c hc p (by simp)
        · exact hbelow c (by simp [hc]) d hd
    · rw [if_neg hadj]
      refine List.pairwise_append.mpr ⟨hs, hpost, fun c hc d hd => ?_⟩
      rcases List.mem_cons.mp hd with rfl | hd
      · rcases List.mem_append.mp hc with hc | hc
        · have hcp := hpp c hc p (by simp)
          have hpb := hb p (by simp)
          simp only [Block.stop] at hcp hpb ⊢
          omega
        · obtain rfl := List.mem_singleton.mp hc
          have := hb c (by simp)
          omega
      · exact hbelow c hc d hd

/-- Putting a block back where the walk stops keeps the list spaced. -/
theorem Spaced.released (hs : Spaced (pre ++ post)) (hp : Placed lo hi (b :: (pre ++ post)))
    (hlo : ∀ c ∈ pre, c.addr ≤ b.addr) (hhi : ∀ c ∈ post.head?, b.addr < c.addr) :
    Spaced (released pre b post) := by
  obtain ⟨hspre, hspost, -⟩ := List.pairwise_append.mp hs
  have hap := (List.pairwise_cons.mp hp.apart).1
  have hbelow : ∀ c ∈ pre, c.stop ≤ b.addr := by
    intro c hc
    have hbc := hap c (by simp [hc])
    have hcb := hlo c hc
    have hroom := hp.room b (by simp)
    simp only [Block.Apart, Block.stop] at hbc ⊢
    omega
  have habove : ∀ c ∈ post, b.stop ≤ c.addr := by
    intro c hc
    have hbc := hap c (by simp [hc])
    have hroom := hp.room c (by simp [hc])
    have hlt : b.addr < c.addr := by
      cases post with
      | nil => simp at hc
      | cons d post =>
        have hd := hhi d rfl
        rcases List.mem_cons.mp hc with rfl | hc
        · exact hd
        · have := (List.pairwise_cons.mp hspost).1 c hc
          simp only [Block.stop] at this
          omega
    simp only [Block.Apart, Block.stop] at hbc ⊢
    omega
  have hright := Spaced.joinRight hspost habove
  refine Spaced.joinLeft hspre hright fun c hc => ?_
  rw [joinRight_addr]
  exact hbelow c hc

/-- Splitting a block keeps the list spaced exactly when the block was the first one or
nothing is left of it. -/
theorem spaced_tailOf_iff {need : Nat} (hs : Spaced (pre ++ b :: post)) (hfit : need ≤ b.size) :
    Spaced (tailOf b need ++ (pre ++ post)) ↔ pre = [] ∨ b.size < need + nodeSize := by
  have hrest : Spaced (pre ++ post) :=
    hs.sublist (List.Sublist.append_left (List.sublist_cons_self ..) _)
  obtain ⟨-, hpost, hpre⟩ := List.pairwise_append.mp hs
  by_cases ht : nodeSize ≤ b.size - need
  · rw [tailOf, if_pos ht]
    constructor
    · intro hs'
      left
      cases pre with
      | nil => rfl
      | cons p pre =>
        -- The remainder lies above every block it is pushed in front of.
        have hpb := hpre p (List.mem_cons_self ..) b (List.mem_cons_self ..)
        have htp := (List.pairwise_cons.mp hs').1 p (by simp)
        simp only [Block.stop] at hpb htp
        omega
    · rintro (rfl | hsmall)
      · refine List.pairwise_cons.mpr ⟨fun d hd => ?_, hrest⟩
        have hbd := (List.pairwise_cons.mp hpost).1 d hd
        simp only [Block.stop] at hbd ⊢
        omega
      · omega
  · rw [tailOf, if_neg ht]
    exact ⟨fun _ => Or.inr (by omega), fun _ => hrest⟩

/-- The order of a state is that of its free list. -/
theorem Inv.ordered_iff (ha : Arena base size) (hi : Inv base size w free) :
    Ordered w ↔ Spaced free := by
  rw [spaced_iff hi.placed_free]
  constructor
  · rintro ⟨free', hfl, hord⟩
    rwa [(hi.freeList ha).unique hfl]
  · exact fun hord => ⟨free, hi.freeList ha, hord⟩

/-- From a state in order, a call leads to a state in order exactly when it does not split
a block behind the first. -/
theorem Inv.ordered_step (ha : Arena base size) (hi : Inv base size w free) (ho : Ordered w)
    (hc : Makes w c w') : Ordered w' ↔ ¬ SplitsBehind w c := by
  have hs := (hi.ordered_iff ha).mp ho
  obtain ⟨free', hi', hcases⟩ := hi.makes ha hc
  rcases hcases with ⟨rfl, -, hno⟩ | ⟨l, pre, b, post, p, rfl, hff, rfl, rfl, -⟩ |
    ⟨a, lpre, lpost, pre, post, hca, hl, -, rfl, hlo, hhi, rfl⟩
  · refine iff_of_true ((hi'.ordered_iff ha).mpr hs) ?_
    rintro ⟨l, pre, b, post, rfl, hff, -⟩
    exact hno l rfl pre b post hff
  · rw [hi'.ordered_iff ha, spaced_tailOf_iff hs hff.fits]
    constructor
    · rintro hor ⟨l', pre', b', post', hl', hff', hne, hsize⟩
      obtain rfl := Call.alloc.inj hl'
      obtain ⟨rfl, rfl, -⟩ := hff.unique hff'
      rcases hor with rfl | hsmall
      · exact hne rfl
      · omega
    · intro hno
      by_contra hcon
      rw [not_or] at hcon
      exact hno ⟨l, pre, b, post, rfl, hff, hcon.1, by omega⟩
  · have hperm : (pre ++ post ++ w.live.map Alloc.block).Perm
        (a.block :: (pre ++ post) ++ (lpre ++ lpost).map Alloc.block) := by
      have h1 : (pre ++ post ++ lpre.map Alloc.block ++ a.block :: lpost.map Alloc.block).Perm
          (a.block :: (pre ++ post ++ lpre.map Alloc.block ++ lpost.map Alloc.block)) :=
        List.perm_middle
      simpa [hl] using h1
    have hplaced := (hi.placed.perm hperm).sublist (List.sublist_append_left ..)
    refine iff_of_true ((hi'.ordered_iff ha).mpr (hs.released hplaced hlo hhi)) ?_
    rintro ⟨l, pre, b, post, hl, -⟩
    rw [hca] at hl
    exact absurd hl (by simp)

/-- **The free list stays in order until a block behind the first is split.** All states of
a run have an ascending free list without adjacent blocks if and only if no allocation
of the run splits a block that is not the first of the list. -/
theorem ordered_iff_no_split_behind {m : Mem} (ha : Arena base size)
    (hrun : Run (World.start m base size) past w) :
    (Ordered w ∧ ∀ s ∈ past, Ordered s.1) ↔ ∀ s ∈ past, ¬ SplitsBehind s.1 s.2 := by
  induction hrun with
  | start =>
    have hord : Ordered (World.start m base size) :=
      ((Inv.start m ha).ordered_iff ha).mpr (by simp [Spaced])
    simp [hord]
  | call hrun hc ih =>
    obtain ⟨free, hi⟩ := hrun.inv ha
    constructor
    · rintro ⟨ho', hpast⟩
      obtain ⟨ho, hpast⟩ := List.forall_mem_cons.mp hpast
      exact List.forall_mem_cons.mpr ⟨(hi.ordered_step ha ho hc).mp ho', ih.mp ⟨ho, hpast⟩⟩
    · intro hall
      obtain ⟨hno, hall⟩ := List.forall_mem_cons.mp hall
      obtain ⟨ho, hpast⟩ := ih.mpr hall
      exact ⟨(hi.ordered_step ha ho hc).mpr hno, List.forall_mem_cons.mpr ⟨ho, hpast⟩⟩

/-- A fresh arena is in order after one allocation, which splits the only block. -/
theorem ordered_after_first_split :
    ∃ w, Run (World.start (fun _ => 0) 4096 256)
        [(World.start (fun _ => 0) 4096 256, .alloc (wordLayout 16 (by decide)))] w ∧
      Ordered w ∧ Ordered (World.start (fun _ => 0) 4096 256) := by
  have ha : Arena 4096 256 := by constructor <;> decide
  let w₀ := World.start (fun _ => 0) 4096 256
  let l := wordLayout 16 (by decide)
  obtain ⟨p, h, hc, -⟩ := (Inv.start (fun _ => 0) ha).alloc ha l
  have hrun : Run w₀ [(w₀, .alloc l)] _ := .call .start (.alloc hc)
  obtain ⟨hord, hpast⟩ := (ordered_iff_no_split_behind ha hrun).mpr (by
    rintro s hs ⟨l', pre, b, post, -, hff, hne, -⟩
    obtain rfl := List.mem_singleton.mp hs
    have hlist := ((Inv.start (fun _ => 0) ha).freeList ha).unique hff.list
    cases pre with
    | nil => exact hne rfl
    | cons p pre =>
      have hlen := congrArg List.length hlist
      simp only [List.length_cons, List.length_append, List.length_nil] at hlen
      omega)
  exact ⟨_, hrun, hord, hpast _ (List.mem_cons_self ..)⟩

/-- Two allocations of 16 bytes, the first given back, and one of 64 that does not fit in
the gap: the free list runs from 4240 back to 4096. -/
theorem tail_pushed_out_of_order :
    ∃ past w, Run (World.start (fun _ => 0) 4096 256) past w ∧ ¬ Ordered w ∧
      w.heap.head = 4240 ∧ w.heap.next 4240 = 4096 := by
  have ha : Arena 4096 256 := by constructor <;> decide
  let w₀ := World.start (fun _ => 0) 4096 256
  let l := wordLayout 16 (by decide)
  let l' := wordLayout 64 (by decide)
  have hrun₀ : Run w₀ [] w₀ := .start
  obtain ⟨p₁, h₁, hc₁⟩ := hrun₀.alloc_some ha l
  have hp₁ : (w₀.heap.allocLayout l).map Prod.fst = some 4112 := by decide
  rw [hc₁, Option.map_some, Option.some.injEq] at hp₁
  obtain rfl : p₁ = 4112 := hp₁
  have hm₁ : Makes w₀ (.alloc l) ⟨h₁, [⟨4112, l⟩]⟩ := Makes.alloc hc₁
  have hrun₁ := Run.call hrun₀ hm₁
  obtain ⟨p₂, h₂, hc₂⟩ := hrun₁.alloc_some ha l
  have hp₂ : ((w₀.heap.allocLayout l).bind fun r => r.2.allocLayout l).map Prod.fst =
      some 4144 := by decide +kernel
  rw [hc₁, Option.bind_some, hc₂, Option.map_some, Option.some.injEq] at hp₂
  obtain rfl : p₂ = 4144 := hp₂
  have hm₂ : Makes ⟨h₁, [⟨4112, l⟩]⟩ (.alloc l) ⟨h₂, [⟨4144, l⟩, ⟨4112, l⟩]⟩ :=
    Makes.alloc hc₂
  have hrun₂ := Run.call hrun₁ hm₂
  have hlive : [(⟨4144, l⟩ : Alloc), ⟨4112, l⟩] = [⟨4144, l⟩] ++ ⟨4112, l⟩ :: [] := rfl
  obtain ⟨h₃, hc₃⟩ : ∃ h, h₂.deallocLayout 4112 l = some h := by
    obtain ⟨free, hi⟩ := hrun₂.inv ha
    obtain ⟨h, hc, -⟩ := hi.dealloc ha hlive
    exact ⟨h, hc⟩
  have hrun₃ := Run.call hrun₂ (Makes.dealloc hlive hc₃)
  obtain ⟨p₄, h₄, hc₄⟩ := hrun₃.alloc_some ha l'
  have hrun₄ := Run.call hrun₃ (Makes.alloc hc₄)
  have hend : ((((w₀.heap.allocLayout l).bind fun r => r.2.allocLayout l).bind
      fun r => r.2.deallocLayout 4112 l).bind fun h => h.allocLayout l').map
        (fun r => (r.2.head, r.2.next 4240)) = some (4240, 4096) := by decide +kernel
  rw [hc₁, Option.bind_some, hc₂, Option.bind_some, hc₃, Option.bind_some, hc₄, Option.map_some,
    Option.some.injEq, Prod.mk.injEq] at hend
  refine ⟨_, _, hrun₄, ?_, hend⟩
  rintro ⟨free, hfl, hasc, -⟩
  have hchain := hfl.chain
  rw [hend.1] at hchain
  cases free with
  | nil => exact absurd hchain (by simp)
  | cons b free =>
    obtain ⟨hb, hchain⟩ := hchain
    rw [← hb, hend.2] at hchain
    cases free with
    | nil => exact absurd hchain (by simp)
    | cons c free =>
      have hbc := (List.pairwise_cons.mp hasc).1 c (List.mem_cons_self ..)
      have hc := hchain.1
      omega

end LionOS.Heap
