import LionOS.Heap.Runs

/-!
# Bytes that leave the books

The blocks of the free list and the blocks of the live allocations are what the heap
knows of its arena. A deallocation and a split keep their sum. An allocation whose
block is one word larger than it needs takes the whole block, and a deallocation
rebuilds the block from the layout alone, so that word is in neither list from then on.
-/

namespace LionOS.Heap

open Lib

/-- The bytes of a list of blocks. -/
def bytes (l : List Block) : Nat := (l.map Block.size).sum

/-- The bytes of the blocks of the live allocations: rounded payloads and headers. -/
def liveBytes (live : List Alloc) : Nat := (live.map fun a => a.layout.need).sum

/-- The free blocks and the live allocations make up the arena. -/
def Conserved (size : Nat) (w : World) : Prop :=
  ∃ free, FreeList w.heap free ∧ bytes free + liveBytes w.live = size

/-- The call is an allocation whose first fit is one word larger than it needs. -/
def LeavesSliver (w : World) (c : Call) : Prop :=
  ∃ l pre b post, c = .alloc l ∧ FirstFit w.heap l pre b post ∧ b.size = l.need + 8

variable {base size : Nat} {w w' : World} {free : List Block} {c : Call}
  {past : List (World × Call)}

@[simp] theorem bytes_nil : bytes [] = 0 := rfl

@[simp] theorem bytes_cons (b : Block) (l : List Block) : bytes (b :: l) = b.size + bytes l := by
  simp [bytes]

@[simp] theorem bytes_append (l r : List Block) : bytes (l ++ r) = bytes l + bytes r := by
  simp [bytes]

@[simp] theorem liveBytes_cons (a : Alloc) (l : List Alloc) :
    liveBytes (a :: l) = a.layout.need + liveBytes l := by
  simp [liveBytes]

@[simp] theorem liveBytes_append (l r : List Alloc) :
    liveBytes (l ++ r) = liveBytes l + liveBytes r := by
  simp [liveBytes]

/-- Merging to the right keeps the bytes. -/
theorem bytes_joinRight (b : Block) (post : List Block) :
    (joinRight b post).1.size + bytes (joinRight b post).2 = b.size + bytes post := by
  cases post with
  | nil => rfl
  | cons c post =>
    simp only [joinRight]
    split
    · simp only [bytes_cons]
      omega
    · rfl

/-- Merging to the left keeps the bytes. -/
private theorem bytes_joinLeft (pre : List Block) (b : Block) (post : List Block) :
    bytes (joinLeft pre b post) = bytes pre + (b.size + bytes post) := by
  rcases List.eq_nil_or_concat pre with rfl | ⟨pre, p, rfl⟩
  · simp [joinLeft]
  · simp only [List.concat_eq_append, joinLeft, List.getLast?_concat, List.dropLast_concat]
    split
    · simp only [bytes_append, bytes_cons, bytes_nil]
      omega
    · simp only [bytes_append, bytes_cons, bytes_nil]

/-- Putting a block back adds its bytes. -/
theorem bytes_released (pre : List Block) (b : Block) (post : List Block) :
    bytes (released pre b post) = bytes pre + b.size + bytes post := by
  rw [released, bytes_joinLeft, bytes_joinRight]
  omega

/-- A split keeps the bytes, unless the remainder is a single word. -/
private theorem bytes_tailOf {b : Block} {need : Nat} (hb : b.size % 8 = 0) (hn : need % 8 = 0)
    (hfit : need ≤ b.size) :
    bytes (tailOf b need) + need + (if b.size = need + 8 then 8 else 0) = b.size := by
  by_cases hs : b.size = need + 8
  · have hno : ¬ nodeSize ≤ b.size - need := by
      simp only [nodeSize]
      omega
    rw [tailOf, if_neg hno, if_pos hs, bytes_nil]
    omega
  · rw [tailOf, if_neg hs]
    split
    next => simp only [bytes_cons, bytes_nil]; omega
    next hno =>
      simp only [nodeSize] at hno
      rw [bytes_nil]
      omega

/-- One call keeps the bytes, except that a sliver loses a word. -/
theorem Inv.makes_bytes (ha : Arena base size) (hi : Inv base size w free) (hc : Makes w c w') :
    ∃ free', Inv base size w' free' ∧
      (LeavesSliver w c ∧ bytes free' + liveBytes w'.live + 8 = bytes free + liveBytes w.live ∨
        ¬ LeavesSliver w c ∧ bytes free' + liveBytes w'.live = bytes free + liveBytes w.live) := by
  obtain ⟨free', hi', hcases⟩ := hi.makes ha hc
  refine ⟨free', hi', ?_⟩
  rcases hcases with ⟨rfl, hlive, hno⟩ | ⟨l, pre, b, post, p, rfl, hff, rfl, rfl, hlive⟩ |
    ⟨a, lpre, lpost, pre, post, rfl, hl, hl', rfl, -, -, rfl⟩
  · refine Or.inr ⟨?_, by rw [hlive]⟩
    rintro ⟨l, pre, b, post, rfl, hff, -⟩
    exact hno l rfl pre b post hff
  · have hal := hi.placed_free.aligned b (by simp)
    have htail := bytes_tailOf hal.2 l.need_aligned hff.fits
    by_cases hs : b.size = l.need + 8
    · refine Or.inl ⟨⟨l, pre, b, post, rfl, hff, hs⟩, ?_⟩
      rw [if_pos hs] at htail
      simp only [hlive, bytes_append, bytes_cons, liveBytes_cons]
      omega
    · refine Or.inr ⟨?_, ?_⟩
      · rintro ⟨l', pre', b', post', hl', hff', hs'⟩
        obtain rfl := Call.alloc.inj hl'
        obtain ⟨-, rfl, -⟩ := hff.unique hff'
        exact hs hs'
      · rw [if_neg hs] at htail
        simp only [hlive, bytes_append, bytes_cons, liveBytes_cons]
        omega
  · refine Or.inr ⟨?_, ?_⟩
    · rintro ⟨l, pre, b, post, hl, -⟩
      exact absurd hl (by simp)
    · have hblock : a.block.size = a.layout.need := rfl
      simp only [hl, hl', bytes_released, hblock, bytes_append, liveBytes_append, liveBytes_cons]
      omega

/-- Over a run the books never gain a byte, and they balance exactly when no call has
left a sliver. -/
theorem Run.accounts {m : Mem} (ha : Arena base size)
    (hrun : Run (World.start m base size) past w) :
    ∃ free, Inv base size w free ∧ bytes free + liveBytes w.live ≤ size ∧
      (bytes free + liveBytes w.live = size ↔ ∀ s ∈ past, ¬ LeavesSliver s.1 s.2) := by
  induction hrun with
  | start =>
    have hsum : bytes [⟨base, size⟩] + liveBytes (World.start m base size).live = size := by
      simp [World.start, liveBytes]
    exact ⟨_, Inv.start m ha, hsum.le, fun _ => by simp, fun _ => hsum⟩
  | call hrun hc ih =>
    obtain ⟨free, hi, hle, hiff⟩ := ih
    obtain ⟨free', hi', ⟨hsl, hsum⟩ | ⟨hsl, hsum⟩⟩ := hi.makes_bytes ha hc
    · refine ⟨free', hi', by omega, ?_⟩
      constructor
      · intro heq
        omega
      · intro hall
        exact absurd hsl (hall _ (List.mem_cons_self ..))
    · refine ⟨free', hi', by omega, ?_⟩
      rw [hsum, hiff, List.forall_mem_cons]
      exact ⟨fun hall => ⟨hsl, hall⟩, fun hall => hall.2⟩

/-- The books of a state are those of its free list. -/
theorem Inv.conserved_iff (ha : Arena base size) (hi : Inv base size w free) :
    Conserved size w ↔ bytes free + liveBytes w.live = size := by
  constructor
  · rintro ⟨free', hfl, hsum⟩
    rwa [(hi.freeList ha).unique hfl]
  · exact fun hsum => ⟨free, hi.freeList ha, hsum⟩

/-- **No byte is lost until a sliver is.** In every state of every run, the free blocks and
the live allocations make up the arena if and only if no allocation of the run took a
block one word larger than it needed. -/
theorem conserved_iff_no_sliver {m : Mem} (ha : Arena base size)
    (hrun : Run (World.start m base size) past w) :
    Conserved size w ↔ ∀ s ∈ past, ¬ LeavesSliver s.1 s.2 := by
  obtain ⟨free, hi, -, hiff⟩ := hrun.accounts ha
  rw [hi.conserved_iff ha, hiff]

/-- In a fresh arena the first fit is the arena itself. -/
theorem firstFit_start {m : Mem} (ha : Arena base size) {l : Layout} (hal : l.align ≤ alignLimit)
    (hfit : l.need ≤ size) :
    FirstFit (World.start m base size).heap l [] ⟨base, size⟩ [] :=
  ⟨hal, (Inv.start m ha).freeList ha, by simp, hfit⟩

/-- An arena of 48 bytes after an allocation of 16, which leaves room for a header. -/
theorem conserved_after_split :
    ∃ w, Run (World.start (fun _ => 0) 4096 48)
        [(World.start (fun _ => 0) 4096 48, .alloc (wordLayout 16 (by decide)))] w ∧
      w.live.length = 1 ∧ Conserved 48 w := by
  have ha : Arena 4096 48 := by constructor <;> decide
  let w₀ := World.start (fun _ => 0) 4096 48
  let l := wordLayout 16 (by decide)
  have hff : FirstFit w₀.heap l [] ⟨4096, 48⟩ [] :=
    firstFit_start ha (by decide) (by decide)
  obtain ⟨p, h, hc, -⟩ := (Inv.start (fun _ => 0) ha).alloc ha l
  have hrun : Run w₀ [(w₀, .alloc l)] _ := .call .start (.alloc hc)
  refine ⟨_, hrun, ?_, (conserved_iff_no_sliver ha hrun).mpr ?_⟩
  · have hp : p ≠ 0 := by
      have hfst : (w₀.heap.allocLayout l).map Prod.fst = some 4112 := by decide +kernel
      rw [hc] at hfst
      simp only [Option.map_some, Option.some.injEq] at hfst
      omega
    have hlive : w₀.live = [] := rfl
    simp [hp, hlive]
  · rintro s hs ⟨l', pre, b, post, hl', hff', hsize⟩
    obtain rfl := List.mem_singleton.mp hs
    obtain rfl := Call.alloc.inj hl'
    obtain ⟨-, rfl, -⟩ := hff.unique hff'
    exact absurd hsize (by decide)

/-- An arena of 40 bytes after an allocation of 16: the last word of the arena is in no
block, whether or not the allocation is given back. -/
theorem word_lost_by_whole_block :
    ∃ w, Run (World.start (fun _ => 0) 4096 40)
        [(World.start (fun _ => 0) 4096 40, .alloc (wordLayout 16 (by decide)))] w ∧
      ¬ Conserved 40 w ∧ ∀ past w', Run (World.start (fun _ => 0) 4096 40) past w' →
        (World.start (fun _ => 0) 4096 40, .alloc (wordLayout 16 (by decide))) ∈ past →
        ¬ Conserved 40 w' := by
  have ha : Arena 4096 40 := by constructor <;> decide
  let w₀ := World.start (fun _ => 0) 4096 40
  let l := wordLayout 16 (by decide)
  have hsliver : LeavesSliver w₀ (.alloc l) :=
    ⟨l, [], ⟨4096, 40⟩, [], rfl, firstFit_start ha (by decide) (by decide), by decide⟩
  have hlost : ∀ past w', Run w₀ past w' → (w₀, .alloc l) ∈ past → ¬ Conserved 40 w' := by
    intro past w' hrun hmem hcons
    obtain ⟨free, hi, -, hiff⟩ := hrun.accounts ha
    exact hiff.mp ((hi.conserved_iff ha).mp hcons) _ hmem hsliver
  obtain ⟨p, h, hc, -⟩ := (Inv.start (fun _ => 0) ha).alloc ha l
  have hrun : Run w₀ [(w₀, .alloc l)] _ := .call .start (.alloc hc)
  exact ⟨_, hrun, hlost _ _ hrun (List.mem_cons_self ..), hlost⟩

end LionOS.Heap
