import LionOS.Gfx.Drawable

/-!
# Copying between canvases

`blit_from` copies a rectangle from the corner of one canvas to a place on another, row by
row and as raw bytes. The number of columns and rows is clipped to both canvases; the place
itself is not, and the length of a row is that of the smaller pixels.
-/

namespace LionOS.Gfx

open Lib

/-- A difference of `usize` values. -/
def usizeSub (a b : Nat) : Except Panic Nat := if b ≤ a then .ok (a - b) else .error .overflow

theorem usizeSub_of_le {a b : Nat} (h : b ≤ a) : usizeSub a b = .ok (a - b) := if_pos h

theorem le_of_usizeSub_bind {a b : Nat} {α : Type} {f : Nat → Except Panic α} {r : α}
    (h : (usizeSub a b >>= f) = .ok r) : b ≤ a := by
  by_contra hab
  rw [usizeSub, if_neg hab] at h
  cases h

namespace Canvas

variable {c src : Canvas} {sw sh dx dy : Nat} {sb b : Mem}

/-- The columns `blit_from` copies. -/
def blitWidth (c src : Canvas) (sw dx : Nat) : Nat := min (min sw src.width) (c.width - dx)

/-- The rows `blit_from` copies. -/
def blitHeight (c src : Canvas) (sh dy : Nat) : Nat := min (min sh src.height) (c.height - dy)

/-- One turn of the loop of `blit_from`. -/
def blitRow (c src : Canvas) (w dx dy : Nat) (sb : Mem) (s : Nat × Mem) (row : Nat) :
    Except Panic (Nat × Mem) := do
  let srcOff ← usize (row * src.pitch)
  let y ← usize (dy + row)
  let rowOff ← usize (y * c.pitch)
  let colOff ← usize (dx * c.bpp)
  let dstOff ← usize (rowOff + colOff)
  let n ← usize (w * min c.bpp src.bpp)
  let srcLeft ← usizeSub src.len srcOff
  let dstLeft ← usizeSub c.len dstOff
  let n := min (min n srcLeft) dstLeft
  if n = 0 then .ok s
  else
    -- Both slices end inside their buffers, as `n` is at most what is left of each.
    let copied ← usize (s.1 + n)
    .ok (copied, copyBytes s.2 dstOff sb srcOff n)

/-- Copy a `sw × sh` region from the top left corner of `src`, whose buffer is `sb`, to
`(dx, dy)`; also the number of bytes copied. -/
def blitFrom (c src : Canvas) (sw sh dx dy : Nat) (sb b : Mem) : Except Panic (Nat × Mem) :=
  let w := c.blitWidth src sw dx
  let h := c.blitHeight src sh dy
  (List.range h).foldlM (c.blitRow src w dx dy sb) (0, b)

/-- `BackBuffer::new`: a canvas over a zeroed plane of its own. A plane longer than half the
address space is more than `vec!` can ask for. -/
def backBuffer (width height bpp : Nat) : Except Panic (Option Canvas) :=
  match checkedMul width bpp with
  | none => .ok none
  | some pitch =>
    match checkedMul pitch height with
    | none => .ok none
    | some total =>
      if htotal : total < 2 ^ 63 then .ok (Canvas.new total htotal width height pitch bpp)
      else .error .overflow

/-- The bytes of a row that are copied. -/
def rowBytes (c src : Canvas) (sw dx : Nat) : Nat := c.blitWidth src sw dx * min c.bpp src.bpp

/-- No row that is copied starts past the end of the buffer. -/
def RowsStart (c src : Canvas) (sh dx dy : Nat) : Prop :=
  c.blitHeight src sh dy = 0 ∨ dx < c.width ∨
    (dy + c.blitHeight src sh dy - 1) * c.pitch + dx * c.bpp ≤ c.len

/-- A column that is copied lies inside the rows of both canvases. -/
theorem rowBytes_le (c src : Canvas) (sw dx : Nat) :
    c.rowBytes src sw dx ≤ src.pitch ∧
      (0 < c.rowBytes src sw dx → dx * c.bpp + c.rowBytes src sw dx ≤ c.pitch) := by
  have hw : c.blitWidth src sw dx ≤ src.width :=
    (Nat.min_le_left _ _).trans (Nat.min_le_right _ _)
  have hwd : c.blitWidth src sw dx ≤ c.width - dx := Nat.min_le_right _ _
  constructor
  · calc c.rowBytes src sw dx ≤ src.width * src.bpp := Nat.mul_le_mul hw (Nat.min_le_right _ _)
      _ ≤ src.pitch := src.row_le
  · intro hpos
    have hcol : dx + c.blitWidth src sw dx ≤ c.width := by
      have hne : c.blitWidth src sw dx ≠ 0 := fun hzero => by
        rw [rowBytes, hzero, Nat.zero_mul] at hpos
        exact Nat.lt_irrefl 0 hpos
      omega
    calc dx * c.bpp + c.rowBytes src sw dx
        ≤ dx * c.bpp + c.blitWidth src sw dx * c.bpp :=
          Nat.add_le_add_left (Nat.mul_le_mul_left _ (Nat.min_le_left _ _)) _
      _ = (dx + c.blitWidth src sw dx) * c.bpp := (Nat.add_mul ..).symm
      _ ≤ c.width * c.bpp := Nat.mul_le_mul_right _ hcol
      _ ≤ c.pitch := c.row_le

/-- A row that is copied is a row of both canvases. -/
theorem lt_height_of_blit {row : Nat} (hrow : row < c.blitHeight src sh dy) :
    row < src.height ∧ dy + row < c.height := by
  unfold blitHeight at hrow
  omega

/-- Every row that is copied starts inside the buffer if the last one does. -/
theorem RowsStart.le_len (h : c.RowsStart src sh dx dy) {row : Nat}
    (hrow : row < c.blitHeight src sh dy) : (dy + row) * c.pitch + dx * c.bpp ≤ c.len := by
  have hin := c.row_le_of_lt (lt_height_of_blit hrow).2
  have hfits := c.plane_le
  rcases h with hzero | hcol | hlast
  · exact absurd hrow (by omega)
  · have hcell := cell_le_pitch hcol
    omega
  · have hle : (dy + row) * c.pitch ≤ (dy + c.blitHeight src sh dy - 1) * c.pitch :=
      Nat.mul_le_mul_right _ (by omega)
    omega

/-- A row that starts inside the buffer is copied as far as both canvases have it. -/
private theorem blitRow_eq {row copied : Nat} (hrow : row < c.blitHeight src sh dy)
    (hstart : (dy + row) * c.pitch + dx * c.bpp ≤ c.len)
    (hcopied : copied + c.rowBytes src sw dx < 2 ^ 64) :
    c.blitRow src (c.blitWidth src sw dx) dx dy sb (copied, b) row =
      .ok (copied + c.rowBytes src sw dx,
        copyBytes b ((dy + row) * c.pitch + dx * c.bpp) sb (row * src.pitch)
          (c.rowBytes src sw dx)) := by
  obtain ⟨hsrc, hdst⟩ := lt_height_of_blit hrow
  obtain ⟨hsrcRow, hdstRow⟩ := c.rowBytes_le src sw dx
  have hsrcEnd := src.row_le_of_lt hsrc
  have hdstEnd := c.row_le_of_lt hdst
  have hsrcFits := src.plane_le
  have hdstFits := c.plane_le
  have hsrcLen := src.len_lt
  have hdstLen := c.len_lt
  have hle : dy + row ≤ (dy + row) * c.pitch := Nat.le_mul_of_pos_right _ c.pitch_pos
  have hy : dy + row < 2 ^ 64 := by omega
  have hleft : min (min (c.rowBytes src sw dx) (src.len - row * src.pitch))
      (c.len - ((dy + row) * c.pitch + dx * c.bpp)) = c.rowBytes src sw dx := by
    have hdstLeft : 0 < c.rowBytes src sw dx → (dy + row) * c.pitch + dx * c.bpp +
        c.rowBytes src sw dx ≤ c.len := fun hn => by
      have hend := hdstRow hn
      omega
    omega
  have hn : c.blitWidth src sw dx * min c.bpp src.bpp = c.rowBytes src sw dx := rfl
  rw [blitRow]
  simp only [hn, usize_of_lt (n := row * src.pitch) (by omega), usize_of_lt hy,
    usize_of_lt (n := (dy + row) * c.pitch) (by omega), usize_of_lt (n := dx * c.bpp) (by omega),
    usize_of_lt (n := (dy + row) * c.pitch + dx * c.bpp) (by omega),
    usize_of_lt (n := c.rowBytes src sw dx) (by omega),
    usizeSub_of_le (a := src.len) (b := row * src.pitch) (by omega), usizeSub_of_le hstart,
    usize_of_lt hcopied, bind, Except.bind, hleft]
  split
  next hzero =>
    rw [hzero]
    congr 2
    funext x
    rw [copyBytes_outside (by omega)]
  · rfl

/-- All the rows together. -/
theorem blitFrom_eq (h : c.RowsStart src sh dx dy) :
    c.blitFrom src sw sh dx dy sb b =
      .ok (c.blitHeight src sh dy * c.rowBytes src sw dx,
        copyRows b (c.offset dx dy) c.pitch sb 0 src.pitch (c.rowBytes src sw dx)
          (c.blitHeight src sh dy)) := by
  rw [blitFrom]
  have hcount : ∀ k ≤ c.blitHeight src sh dy, k * c.rowBytes src sw dx < 2 ^ 63 := by
    intro k hk
    have hsrcLen := src.len_lt
    have hfits := src.plane_le
    have hle : k * c.rowBytes src sw dx ≤ src.height * src.pitch :=
      Nat.mul_le_mul (hk.trans ((Nat.min_le_left _ _).trans (Nat.min_le_right _ _)))
        (c.rowBytes_le src sw dx).1
    omega
  suffices ∀ k ≤ c.blitHeight src sh dy,
      (List.range k).foldlM (c.blitRow src (c.blitWidth src sw dx) dx dy sb) (0, b) =
        .ok (k * c.rowBytes src sw dx,
          copyRows b (c.offset dx dy) c.pitch sb 0 src.pitch (c.rowBytes src sw dx) k) from
    this _ le_rfl
  intro k
  induction k with
  | zero =>
    intro _
    rw [Nat.zero_mul]
    rfl
  | succ k ih =>
    intro hk
    have hnext := hcount (k + 1) hk
    rw [Nat.succ_mul] at hnext
    rw [List.range_succ, List.foldlM_append, ih (by omega)]
    simp only [List.foldlM_cons, List.foldlM_nil, bind, Except.bind, pure, Except.pure]
    rw [blitRow_eq hk (h.le_len hk) (by omega), Nat.succ_mul, copyRows, offset, Nat.zero_add,
      Nat.add_mul, Nat.add_right_comm]

/-- A row that starts past the end of the buffer stops the kernel, if nothing did before. -/
theorem rowStart_le_of_blitFrom {r : Nat × Mem} (h : c.blitFrom src sw sh dx dy sb b = .ok r)
    {row : Nat} (hrow : row < c.blitHeight src sh dy) :
    (dy + row) * c.pitch + dx * c.bpp ≤ c.len := by
  obtain ⟨s, s', hturn⟩ := foldlM_turn_ok h (List.mem_range.mpr hrow)
  rw [blitRow] at hturn
  obtain ⟨-, hturn⟩ := lt_of_usize_bind hturn
  obtain ⟨-, hturn⟩ := lt_of_usize_bind hturn
  obtain ⟨-, hturn⟩ := lt_of_usize_bind hturn
  obtain ⟨-, hturn⟩ := lt_of_usize_bind hturn
  obtain ⟨-, hturn⟩ := lt_of_usize_bind hturn
  obtain ⟨-, hturn⟩ := lt_of_usize_bind hturn
  have hsrc : row * src.pitch ≤ src.len := le_of_usizeSub_bind hturn
  rw [usizeSub_of_le hsrc] at hturn
  exact le_of_usizeSub_bind hturn

/-- `blit_from` returns exactly if no row it copies starts past the end of the buffer. -/
theorem rowsStart_iff :
    c.RowsStart src sh dx dy ↔ ∃ r, c.blitFrom src sw sh dx dy sb b = .ok r := by
  refine ⟨fun h => ⟨_, blitFrom_eq h⟩, fun ⟨r, h⟩ => ?_⟩
  by_cases hzero : c.blitHeight src sh dy = 0
  · exact .inl hzero
  · refine .inr (.inr ?_)
    have hrow : c.blitHeight src sh dy - 1 < c.blitHeight src sh dy := by omega
    have hlast := rowStart_le_of_blitFrom h hrow
    rwa [← Nat.add_sub_assoc (by omega)] at hlast

/-- A pixel that is copied is on both canvases. -/
theorem shows_of_blit {i j : Nat} (hi : i < c.blitWidth src sw dx)
    (hj : j < c.blitHeight src sh dy) : src.Shows i j ∧ c.Shows (dx + i) (dy + j) := by
  unfold blitWidth at hi
  unfold blitHeight at hj
  exact ⟨⟨by omega, by omega⟩, by omega, by omega⟩

/-- The first bytes of the `i`th column of a row that is copied. -/
theorem readLE_blit {i j t : Nat} (hj : j < c.blitHeight src sh dy)
    (hi : i * c.bpp + t ≤ c.rowBytes src sw dx) :
    readLE (copyRows b (c.offset dx dy) c.pitch sb 0 src.pitch (c.rowBytes src sw dx)
      (c.blitHeight src sh dy)) (c.offset (dx + i) (dy + j)) t =
      readLE sb (j * src.pitch + i * c.bpp) t := by
  by_cases ht : t = 0
  · subst ht
    rfl
  have hpitch := (c.rowBytes_le src sw dx).2 (by omega)
  have hoff : c.offset (dx + i) (dy + j) = c.offset dx dy + j * c.pitch + i * c.bpp := by
    simp only [offset, Nat.add_mul]
    omega
  rw [hoff, readLE_copyRows (by omega) hj hi, Nat.zero_add]

/-- What `blit_from` promises: each pixel of the part of the source that has room is copied,
no other byte changes, and the bytes are counted. -/
def Blits (c src : Canvas) (sw sh dx dy : Nat) : Prop :=
  ∀ sb b, ∃ b',
    c.blitFrom src sw sh dx dy sb b =
      .ok (c.bpp * (c.blitWidth src sw dx * c.blitHeight src sh dy), b') ∧
    (∀ i < c.blitWidth src sw dx, ∀ j < c.blitHeight src sh dy,
      c.readPixel (dx + i) (dy + j) b' = src.readPixel i j sb) ∧
    ∀ a, (∀ i < c.blitWidth src sw dx, ∀ j < c.blitHeight src sh dy,
      a < c.offset (dx + i) (dy + j) ∨ c.offset (dx + i) (dy + j) + c.bpp ≤ a) → b' a = b a

/-- A byte of a row that is copied belongs to one of the pixels. -/
theorem exists_column {a start bpp w : Nat} (hle : start ≤ a) (hlt : a < start + w * bpp) :
    ∃ i < w, start + i * bpp ≤ a ∧ a < start + i * bpp + bpp := by
  have hpos : 0 < bpp := Nat.pos_of_ne_zero fun hzero => by
    rw [hzero, Nat.mul_zero] at hlt
    omega
  have hdiv := Nat.div_add_mod' (a - start) bpp
  have hmod := Nat.mod_lt (a - start) hpos
  refine ⟨(a - start) / bpp, ?_, by omega, by omega⟩
  rw [Nat.div_lt_iff_lt_mul hpos]
  omega

theorem Blits.rowsStart (h : c.Blits src sw sh dx dy) : c.RowsStart src sh dx dy := by
  obtain ⟨b', hblit, -⟩ := h (fun _ => 0) (fun _ => 0)
  exact rowsStart_iff.mpr ⟨_, hblit⟩

theorem RowsStart.blits (h : c.RowsStart src sh dx dy) (hbpp : c.bpp = src.bpp)
    (hmax : c.bpp ≤ 4) (sw : Nat) : c.Blits src sw sh dx dy := by
  intro sb b
  have hrow : c.rowBytes src sw dx = c.blitWidth src sw dx * c.bpp := by
    rw [rowBytes, ← hbpp, Nat.min_self]
  have hcount : c.blitHeight src sh dy * c.rowBytes src sw dx =
      c.bpp * (c.blitWidth src sw dx * c.blitHeight src sh dy) := by
    rw [hrow]
    ring
  refine ⟨_, (blitFrom_eq h).trans (by rw [hcount]), fun i hi j hj => ?_, fun a ha => ?_⟩
  · obtain ⟨hsrc, hdst⟩ := shows_of_blit hi hj
    have hcell : i * c.bpp + c.bpp ≤ c.rowBytes src sw dx := by
      rw [hrow, ← Nat.succ_mul]
      exact Nat.mul_le_mul_right _ hi
    rw [readPixel_eq hmax hdst, readPixel_eq (hbpp ▸ hmax) hsrc, readLE_blit hj hcell, offset,
      hbpp]
  · refine copyRows_outside fun j hj => ?_
    by_contra hin
    rw [not_or, Nat.not_lt, Nat.not_le] at hin
    obtain ⟨hle, hlt⟩ := hin
    rw [hrow] at hlt
    obtain ⟨i, hi, hcol⟩ := exists_column hle hlt
    have hout := ha i hi j hj
    simp only [offset, Nat.add_mul] at hout hcol
    omega

/-- Between canvases with pixels of the same size `blit_from` does what it promises exactly if
nothing is to be copied on account of the height, or the place is not past the right edge, or
its last row still starts inside the buffer. -/
theorem blits_iff (hbpp : c.bpp = src.bpp) (hmax : c.bpp ≤ 4) (sw sh dx dy : Nat) :
    c.Blits src sw sh dx dy ↔
      c.blitHeight src sh dy = 0 ∨ dx < c.width ∨
        (dy + c.blitHeight src sh dy - 1) * c.pitch + dx * c.bpp ≤ c.len :=
  ⟨Blits.rowsStart, fun h => RowsStart.blits h hbpp hmax sw⟩

/-- Two pixels of a back buffer. -/
def twoBack : Canvas := pixelRow 2 3 Nat.two_pos (Nat.succ_pos 2) (by decide)

/-- Two pixels of a framebuffer. -/
def twoFront : Canvas := pixelRow 2 4 Nat.two_pos (Nat.succ_pos 3) (by decide)

theorem blits_iff_twoBack :
    twoBack.Blits twoBack 1 1 1 0 ↔
      twoBack.blitHeight twoBack 1 0 = 0 ∨ 1 < twoBack.width ∨
        (0 + twoBack.blitHeight twoBack 1 0 - 1) * twoBack.pitch + 1 * twoBack.bpp ≤
          twoBack.len :=
  blits_iff rfl (by decide) 1 1 1 0

/-- One pixel is to be copied past the right edge. -/
theorem exists_not_blits :
    ¬ ∀ (c src : Canvas), c.bpp = src.bpp → c.bpp ≤ 4 → ∀ sw sh dx dy,
      c.Blits src sw sh dx dy := by
  intro h
  rcases (h twoBack twoBack rfl (by decide) 1 1 3 0).rowsStart with hzero | hcol | hlast
  · exact absurd hzero (by decide)
  · exact absurd hcol (by decide)
  · exact absurd hlast (by decide)

/-- The low bytes of a number are the number in those bytes. -/
theorem readLE_mod (m : Mem) (a : Nat) {k n : Nat} (h : k ≤ n) :
    readLE m a n % 256 ^ k = readLE m a k := by
  obtain ⟨d, rfl⟩ := Nat.exists_eq_add_of_le h
  rw [readLE_append, Nat.add_mul_mod_self_left, Nat.mod_eq_of_lt (readLE_lt m a k)]

/-- What presenting a back buffer is meant to do: a pixel that is copied keeps its colour. -/
def KeepsColours (c src : Canvas) (sw sh dx dy : Nat) : Prop :=
  ∀ sb b, ∃ r, c.blitFrom src sw sh dx dy sb b = .ok r ∧
    ∀ i < c.blitWidth src sw dx, ∀ j < c.blitHeight src sh dy, ∃ p q,
      c.readPixel (dx + i) (dy + j) r.2 = .ok (some p) ∧
      src.readPixel i j sb = .ok (some q) ∧ p % 2 ^ 24 = q % 2 ^ 24

/-- With pixels of different size only the first column lands in place. -/
theorem keepsColours_of_aligned (hc : c.bpp = 3 ∨ c.bpp = 4) (hsrc : src.bpp = 3 ∨ src.bpp = 4)
    (hdx : dx < c.width)
    (h : c.bpp = src.bpp ∨ c.blitWidth src sw dx ≤ 1 ∨ c.blitHeight src sh dy = 0) :
    c.KeepsColours src sw sh dx dy := by
  intro sb b
  refine ⟨_, blitFrom_eq (.inr (.inl hdx)), fun i hi j hj => ?_⟩
  obtain ⟨hsrcShows, hdst⟩ := shows_of_blit hi hj
  refine ⟨_, _, readPixel_eq (by omega) hdst, readPixel_eq (by omega) hsrcShows, ?_⟩
  have hcolumn : i * c.bpp = i * src.bpp := by
    rcases h with heq | hone | hzero
    · rw [heq]
    · obtain rfl : i = 0 := by omega
      rw [Nat.zero_mul, Nat.zero_mul]
    · omega
  have hcell : i * c.bpp + 3 ≤ c.rowBytes src sw dx :=
    calc i * c.bpp + 3 ≤ i * min c.bpp src.bpp + min c.bpp src.bpp := by
          rcases Nat.le_total c.bpp src.bpp with hle | hle
          · rw [Nat.min_eq_left hle]
            omega
          · rw [Nat.min_eq_right hle, hcolumn]
            omega
      _ = (i + 1) * min c.bpp src.bpp := (Nat.succ_mul ..).symm
      _ ≤ c.rowBytes src sw dx := Nat.mul_le_mul_right _ hi
  show readLE _ _ c.bpp % 256 ^ 3 = readLE _ _ src.bpp % 256 ^ 3
  rw [readLE_mod _ _ (by omega), readLE_mod _ _ (by omega), readLE_blit hj hcell, offset, hcolumn]

/-- Of two columns that are copied the second has the bytes of another place. -/
theorem not_keepsColours (hc : c.bpp = 3 ∨ c.bpp = 4) (hsrc : src.bpp = 3 ∨ src.bpp = 4)
    (hdx : dx < c.width) (hne : c.bpp ≠ src.bpp) (hw : 1 < c.blitWidth src sw dx)
    (hh : 0 < c.blitHeight src sh dy) : ¬ c.KeepsColours src sw sh dx dy := by
  intro h
  obtain ⟨r, hblit, hpixels⟩ := h UInt8.ofNat (fun _ => 0)
  rw [blitFrom_eq (.inr (.inl hdx))] at hblit
  obtain rfl := Except.ok.inj hblit
  obtain ⟨p, q, hp, hq, hpq⟩ := hpixels 1 hw 0 hh
  obtain ⟨hsrcShows, hdst⟩ := shows_of_blit hw hh
  rw [readPixel_eq (by omega) hdst] at hp
  rw [readPixel_eq (by omega) hsrcShows] at hq
  obtain rfl := Option.some.inj (Except.ok.inj hp)
  obtain rfl := Option.some.inj (Except.ok.inj hq)
  have hbyte := congrArg (· % 256 ^ 1) hpq
  have hdvd : 256 ^ 1 ∣ 2 ^ 24 := by decide
  simp only [Nat.mod_mod_of_dvd _ hdvd] at hbyte
  have hcell : 1 * c.bpp + 1 ≤ c.rowBytes src sw dx :=
    calc 1 * c.bpp + 1 ≤ 2 * min c.bpp src.bpp := by omega
      _ ≤ c.rowBytes src sw dx := Nat.mul_le_mul_right _ hw
  rw [readLE_mod _ _ (by omega), readLE_mod _ _ (by omega), readLE_blit hh hcell] at hbyte
  simp only [offset, readLE, Nat.zero_mul, Nat.zero_add, Nat.one_mul, Nat.mul_zero,
    Nat.add_zero, UInt8.toNat_ofNat'] at hbyte
  omega

/-- A back buffer keeps its colours exactly if its pixels have the size of those in front, or at
most one column is copied, or no row. -/
theorem keepsColours_iff (hc : c.bpp = 3 ∨ c.bpp = 4) (hsrc : src.bpp = 3 ∨ src.bpp = 4)
    (hdx : dx < c.width) :
    c.KeepsColours src sw sh dx dy ↔
      c.bpp = src.bpp ∨ c.blitWidth src sw dx ≤ 1 ∨ c.blitHeight src sh dy = 0 := by
  refine ⟨fun h => ?_, keepsColours_of_aligned hc hsrc hdx⟩
  by_contra hnot
  rw [not_or, not_or] at hnot
  exact not_keepsColours hc hsrc hdx hnot.1 (by omega) (by omega) h

theorem keepsColours_iff_twoBack :
    twoFront.KeepsColours twoBack 1 1 1 0 ↔
      twoFront.bpp = twoBack.bpp ∨ twoFront.blitWidth twoBack 1 1 ≤ 1 ∨
        twoFront.blitHeight twoBack 1 0 = 0 :=
  keepsColours_iff (.inr rfl) (.inl rfl) (by decide)

/-- A back buffer of two pixels is presented in front of four bytes per pixel. -/
theorem exists_not_keepsColours :
    ¬ ∀ (width height : Nat) (c back : Canvas),
      backBuffer width height 3 = .ok (some back) → c.bpp = 3 ∨ c.bpp = 4 →
      ∀ dx dy, dx < c.width → dy < c.height → c.KeepsColours back width height dx dy := by
  intro h
  refine not_keepsColours (.inr rfl) (.inl rfl) (by decide) (by decide) (by decide) (by decide)
    (h 2 1 twoFront twoBack rfl (.inr rfl) 0 0 (by decide) (by decide))

end Canvas

end LionOS.Gfx
