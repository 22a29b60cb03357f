import FavoriteAssignments.Banana.Coherence
import FavoriteAssignments.Banana.Console
import FavoriteAssignments.Banana.SaveState

/-! # The picture

`render` and `decodePixel` of the GPU. The filters that compute in floating point or with
`rand`, and the drawing of the duck, are parameters. -/

namespace FavoriteAssignments.Banana

def kDisplayWidth : ℕ := 64
def kDisplayHeight : ℕ := 60

/-- The three locals of `decodePixel`. -/
@[ext] structure Rgb where
  r : BitVec 8
  g : BitVec 8
  b : BitVec 8
  deriving DecidableEq

/-- The filters that are not looked into, with the line, the column or the rotation they are
given. The noise of the CRT filter depends on how many points have been drawn. -/
structure Filters where
  applyDuckSkin : Rgb → BitVec 32 → BitVec 32 → Rgb
  applyGrayScaleFilter : Rgb → Rgb
  applyPastelFilter : Rgb → Rgb
  applyHueFilter : Rgb → BitVec 32 → Rgb
  applyCRTFilter : Rgb → BitVec 32 → ℕ → Rgb

def applyInvertFilter (c : Rgb) : Rgb := ⟨255 - c.r, 255 - c.g, 255 - c.b⟩

/-- A 5-bit value as an 8-bit value. -/
def expand (x : BitVec 8) : BitVec 8 := BitVec.ofNat 8 (x.toNat * 255 / 31)

def getPixelAddress (width height : ℕ) : ℕ := 0x5200 + 2 * (width + height * kDisplayWidth)

/-- The channels before any filter. -/
def channels (pixelData : BitVec 16) : Rgb where
  r := expand (((pixelData &&& 0x7C00) >>> 10).setWidth 8)
  g := expand (((pixelData &&& 0x03E0) >>> 5).setWidth 8)
  b := expand ((pixelData &&& 0x001F).setWidth 8)

namespace BananaGpu

def decodePixel (g : BananaGpu) (f : Filters) (drawn : ℕ) (pixelData : BitVec 16) : BitVec 32 :=
  let c := channels pixelData
  let c := if g.duck_enabled_ then f.applyDuckSkin c g.current_line_ g.current_column_ else c
  let c := if g.grayscale_enabled_ then f.applyGrayScaleFilter c else c
  let c := if g.invert_enabled_ then applyInvertFilter c else c
  let c := if g.pastel_enabled_ then f.applyPastelFilter c else c
  let c := if (0#32).slt g.hue_speed_ then f.applyHueFilter c g.hue_rotation_ else c
  let c := if g.crt_filter_enabled_ then f.applyCRTFilter c g.current_line_ drawn else c
  (c.r.setWidth 32 <<< 16) ||| (c.g.setWidth 32 <<< 8) ||| c.b.setWidth 32

end BananaGpu

/-- A call of `SDL_RenderDrawPoint` with the colour set before it. -/
structure Point where
  x : ℕ
  y : ℕ
  r : BitVec 8
  g : BitVec 8
  b : BitVec 8
  deriving DecidableEq

def renderPixel (x y : ℕ) (color : BitVec 32) : Point where
  x := x
  y := y
  r := ((color >>> 16) &&& 0xFF).setWidth 8
  g := ((color >>> 8) &&& 0xFF).setWidth 8
  b := (color &&& 0xFF).setWidth 8

/-- The GPU while it renders, with the points drawn so far. -/
structure Rendering where
  GPU_ : BananaGpu
  points : List Point

section Render

variable (f : Filters) (m : Machine)

/-- The body of the inner loop. The column is set after the pixel is decoded. -/
def renderPoint (y : ℕ) (s : Rendering) (x : ℕ) : Rendering :=
  let address := BitVec.ofNat 16 (getPixelAddress x y)
  let pixelData := m.read16 address
  let color := s.GPU_.decodePixel f s.points.length pixelData
  { GPU_ := { s.GPU_ with current_column_ := BitVec.ofNat 32 x }
    points := s.points ++ [renderPixel x y color] }

/-- The body of the outer loop. -/
def renderLine (s : Rendering) (y : ℕ) : Rendering :=
  (List.range kDisplayWidth).foldl (renderPoint f m y)
    { s with GPU_ := { s.GPU_ with current_line_ := BitVec.ofNat 32 y } }

/-- `render` up to the custom image. -/
def BananaGpu.render (g : BananaGpu) : Rendering :=
  let s := (List.range kDisplayHeight).foldl (renderLine f m) ⟨g, []⟩
  { s with GPU_ := { s.GPU_ with hue_rotation_ := s.GPU_.hue_rotation_ + s.GPU_.hue_speed_ } }

/-! ## The loops -/

/-- The column that `decodePixel` sees is the one drawn before. -/
def BananaGpu.columnBefore (g : BananaGpu) (x : ℕ) : BitVec 32 :=
  if x = 0 then g.current_column_ else BitVec.ofNat 32 (x - 1)

/-- The point at `(x, y)`, where `column` is the one the GPU holds before the line. -/
def BananaGpu.pointAt (g : BananaGpu) (drawn x y : ℕ) : Point :=
  renderPixel x y
    (BananaGpu.decodePixel { g with current_column_ := g.columnBefore x } f drawn
      (m.read16 (BitVec.ofNat 16 (getPixelAddress x y))))

theorem foldl_renderPoint (y n : ℕ) (s : Rendering) :
    (List.range n).foldl (renderPoint f m y) s =
      { GPU_ := { s.GPU_ with current_column_ := s.GPU_.columnBefore n }
        points := s.points ++
          (List.range n).map fun x => s.GPU_.pointAt f m (s.points.length + x) x y } := by
  induction n with
  | zero => simp [BananaGpu.columnBefore]
  | succ n ih =>
      rw [List.range_succ, List.foldl_append, ih]
      simp [renderPoint, BananaGpu.pointAt, BananaGpu.columnBefore, List.map_append]

/-- The GPU when it starts line `y`. -/
def BananaGpu.atLine (g : BananaGpu) (y : ℕ) : BananaGpu :=
  { g with
    current_line_ := BitVec.ofNat 32 y
    current_column_ := if y = 0 then g.current_column_ else 63 }

/-- The points of line `y`. -/
def BananaGpu.lineAt (g : BananaGpu) (y : ℕ) : List Point :=
  (List.range kDisplayWidth).map fun x =>
    (g.atLine y).pointAt f m (kDisplayWidth * y + x) x y

theorem foldl_renderLine (g : BananaGpu) (n : ℕ) :
    (List.range n).foldl (renderLine f m) ⟨g, []⟩ =
      { GPU_ := if n = 0 then g else
          { g with current_line_ := BitVec.ofNat 32 (n - 1), current_column_ := 63 }
        points := (List.range n).flatMap (g.lineAt f m) } := by
  induction n with
  | zero => rfl
  | succ n ih =>
      have hlength : ((List.range n).flatMap (g.lineAt f m)).length = kDisplayWidth * n := by
        rw [List.length_flatMap, List.map_congr_left fun y _ => show
          (g.lineAt f m y).length = kDisplayWidth by simp [BananaGpu.lineAt]]
        simp [Nat.mul_comm]
      rw [List.range_succ, List.foldl_append, ih, List.foldl_cons, List.foldl_nil, renderLine,
        foldl_renderPoint]
      simp only [hlength, List.flatMap_append, List.flatMap_singleton]
      cases n with
      | zero => rfl
      | succ n => rfl

/-- What one call of `render` draws: every pixel of the display once, line by line, each
from the two bytes at its own address, and with the column of the pixel before it. -/
theorem render_eq (g : BananaGpu) :
    g.render f m =
      { GPU_ := { g with
          current_line_ := 59
          current_column_ := 63
          hue_rotation_ := g.hue_rotation_ + g.hue_speed_ }
        points := (List.range kDisplayHeight).flatMap (g.lineAt f m) } := by
  rw [BananaGpu.render, foldl_renderLine]
  rfl

end Render

/-! ## Colours -/

/-- No filter but the inversion. -/
def BananaGpu.plain (g : BananaGpu) : Bool :=
  !g.duck_enabled_ && !g.grayscale_enabled_ && !g.pastel_enabled_ && !g.crt_filter_enabled_ &&
    !(0#32).slt g.hue_speed_

theorem expand_injective {a b : BitVec 8} (ha : a.toNat < 32) (hb : b.toNat < 32)
    (h : expand a = expand b) : a = b := by
  have hvalue : ∀ x : BitVec 8, x.toNat < 32 → (expand x).toNat = x.toNat * 255 / 31 := by
    intro x hx
    rw [expand, BitVec.toNat_ofNat, Nat.mod_eq_of_lt (by omega)]
  have h' := congrArg BitVec.toNat h
  rw [hvalue a ha, hvalue b hb] at h'
  exact BitVec.eq_of_toNat_eq (by omega)

/-- The five bits of a channel. -/
theorem channel_toNat (w : BitVec 16) :
    (((w &&& 0x7C00) >>> 10).setWidth 8).toNat = w.toNat / 1024 % 32 ∧
      (((w &&& 0x03E0) >>> 5).setWidth 8).toNat = w.toNat / 32 % 32 ∧
      ((w &&& 0x001F).setWidth 8).toNat = w.toNat % 32 := by
  have hmask : ∀ x : BitVec 16, ((x &&& 31).setWidth 8).toNat = x.toNat % 32 := by
    intro x
    have hand : x.toNat &&& 31 = x.toNat % 32 := Nat.and_two_pow_sub_one_eq_mod x.toNat 5
    rw [BitVec.toNat_setWidth, BitVec.toNat_and, show (31 : BitVec 16).toNat = 31 from rfl, hand]
    omega
  have hr : (w &&& 0x7C00) >>> 10 = (w >>> 10) &&& 31 := BitVec.ushiftRight_and_distrib w _ 10
  have hg : (w &&& 0x03E0) >>> 5 = (w >>> 5) &&& 31 := BitVec.ushiftRight_and_distrib w _ 5
  rw [hr, hg, hmask, hmask, BitVec.toNat_ushiftRight, BitVec.toNat_ushiftRight,
    Nat.shiftRight_eq_div_pow, Nat.shiftRight_eq_div_pow]
  exact ⟨rfl, rfl, hmask w⟩

/-- Two words have the same colour exactly when they agree below the top bit. -/
theorem channels_eq_iff (w w' : BitVec 16) :
    channels w = channels w' ↔ w.toNat % 32768 = w'.toNat % 32768 := by
  obtain ⟨hr, hg, hb⟩ := channel_toNat w
  obtain ⟨hr', hg', hb'⟩ := channel_toNat w'
  constructor
  · intro h
    have h1 := expand_injective (by omega) (by omega) (congrArg Rgb.r h)
    have h2 := expand_injective (by omega) (by omega) (congrArg Rgb.g h)
    have h3 := expand_injective (by omega) (by omega) (congrArg Rgb.b h)
    have h1' := congrArg BitVec.toNat h1
    have h2' := congrArg BitVec.toNat h2
    have h3' := congrArg BitVec.toNat h3
    omega
  · intro h
    have h1 : ((w &&& 0x7C00) >>> 10).setWidth 8 = ((w' &&& 0x7C00) >>> 10).setWidth 8 :=
      BitVec.eq_of_toNat_eq (by omega)
    have h2 : ((w &&& 0x03E0) >>> 5).setWidth 8 = ((w' &&& 0x03E0) >>> 5).setWidth 8 :=
      BitVec.eq_of_toNat_eq (by omega)
    have h3 : (w &&& 0x001F).setWidth 8 = (w' &&& 0x001F).setWidth 8 :=
      BitVec.eq_of_toNat_eq (by omega)
    simp only [channels, h1, h2, h3]

/-- The colour of a word when at most the inversion is on. -/
def BananaGpu.shade (g : BananaGpu) (w : BitVec 16) : Rgb :=
  if g.invert_enabled_ then applyInvertFilter (channels w) else channels w

theorem shade_eq_iff (g : BananaGpu) (w w' : BitVec 16) :
    g.shade w = g.shade w' ↔ w.toNat % 32768 = w'.toNat % 32768 := by
  rw [← channels_eq_iff]
  have hinvert : ∀ a b : BitVec 8, 255 - a = 255 - b ↔ a = b := fun a b =>
    ⟨fun h => by simpa using h, fun h => by rw [h]⟩
  have hinvert' : applyInvertFilter (channels w) = applyInvertFilter (channels w') ↔
      channels w = channels w' := by
    simp only [applyInvertFilter, Rgb.mk.injEq, hinvert]
    exact ⟨fun ⟨h1, h2, h3⟩ => by cases hw : channels w; cases hw' : channels w'; simp_all,
      fun h => by simp [h]⟩
  cases hg : g.invert_enabled_ <;> simp [BananaGpu.shade, hg, hinvert']

section Picture

variable (f : Filters) (m m' : Machine) (g : BananaGpu)

theorem pointAt_plain (h : g.plain = true) (drawn x y : ℕ) :
    g.pointAt f m drawn x y =
      (let c := g.shade (m.read16 (BitVec.ofNat 16 (getPixelAddress x y)))
       ⟨x, y, c.r, c.g, c.b⟩) := by
  simp only [BananaGpu.plain, Bool.and_eq_true, Bool.not_eq_true'] at h
  obtain ⟨⟨⟨⟨hduck, hgray⟩, hpastel⟩, hcrt⟩, hhue⟩ := h
  have hunpack : ∀ c : Rgb, renderPixel x y
      ((c.r.setWidth 32 <<< 16) ||| (c.g.setWidth 32 <<< 8) ||| c.b.setWidth 32) =
        ⟨x, y, c.r, c.g, c.b⟩ := by
    intro c
    have hones : ∀ i (hi : i < 8), (255#8)[i] = true := by decide
    simp only [renderPixel, Point.mk.injEq, true_and]
    refine ⟨?_, ?_, ?_⟩
    · ext i hi
      simp [hones i hi, show 16 + i < 32 by omega, BitVec.getLsbD_eq_getElem hi,
        c.g.getLsbD_of_ge (16 + i - 8) (by omega), c.b.getLsbD_of_ge (16 + i) (by omega)]
    · ext i hi
      simp [hones i hi, show 8 + i < 32 by omega, show 8 + i < 16 by omega, hi]
    · ext i hi
      simp [hones i hi]
  simp [BananaGpu.pointAt, BananaGpu.decodePixel, hduck, hgray, hpastel, hcrt, hhue, hunpack,
    BananaGpu.shade]

/-- The word of a pixel is made of its own two bytes. -/
theorem read16_pixel {x y : ℕ} (hx : x < kDisplayWidth) (hy : y < kDisplayHeight) :
    m.read16 (BitVec.ofNat 16 (getPixelAddress x y)) =
      m.RAM_ (getPixelAddress x y) ++ m.RAM_ (getPixelAddress x y + 1) := by
  have haddress : (BitVec.ofNat 16 (getPixelAddress x y)).toNat = getPixelAddress x y := by
    rw [BitVec.toNat_ofNat, Nat.mod_eq_of_lt]
    simp only [getPixelAddress, kDisplayWidth, kDisplayHeight] at hx hy ⊢
    omega
  rw [Machine.read16_eq, haddress]
  simp only [readable, haddress, Bool.or_eq_true, Bool.and_eq_true, decide_eq_true_eq]
  refine .inl (.inl ⟨Nat.zero_le _, ?_⟩)
  simp only [getPixelAddress, kDisplayWidth, kDisplayHeight, kRAMAddress, kRAMSize] at hx hy ⊢
  omega

/-- Two renderings draw the same exactly when they agree at every pixel. -/
theorem points_eq_iff : (g.render f m).points = (g.render f m').points ↔
    ∀ x < kDisplayWidth, ∀ y < kDisplayHeight,
      (g.atLine y).pointAt f m (kDisplayWidth * y + x) x y =
        (g.atLine y).pointAt f m' (kDisplayWidth * y + x) x y := by
  rw [render_eq, render_eq]
  dsimp only
  constructor
  · intro h x hx y hy
    have hmem : (g.atLine y).pointAt f m (kDisplayWidth * y + x) x y ∈
        (List.range kDisplayHeight).flatMap (g.lineAt f m') := by
      rw [← h]
      exact List.mem_flatMap.mpr ⟨y, List.mem_range.mpr hy,
        List.mem_map.mpr ⟨x, List.mem_range.mpr hx, rfl⟩⟩
    obtain ⟨y', -, hline⟩ := List.mem_flatMap.mp hmem
    obtain ⟨x', -, hpoint⟩ := List.mem_map.mp hline
    obtain rfl : x' = x := congrArg Point.x hpoint
    obtain rfl : y' = y := congrArg Point.y hpoint
    exact hpoint.symm
  · intro h
    refine congrArg List.flatten (List.map_congr_left fun y hy => ?_)
    exact List.map_congr_left fun x hx => h x (List.mem_range.mp hx) y (List.mem_range.mp hy)

theorem shade_append_eq_iff (a b a' b' : BitVec 8) :
    g.shade (a ++ b) = g.shade (a' ++ b') ↔ a.toNat % 128 = a'.toNat % 128 ∧ b = b' := by
  have hword : ∀ a b : BitVec 8, (a ++ b).toNat = a.toNat * 256 + b.toNat := by
    intro a b
    rw [BitVec.toNat_append, ← Nat.shiftLeft_add_eq_or_of_lt b.isLt, Nat.shiftLeft_eq]
  have hb := b.isLt
  have hb' := b'.isLt
  rw [shade_eq_iff, hword, hword, BitVec.toNat_eq]
  omega

/-- With no filter or the inversion alone, the picture shows all of the video memory but
the top bit of each word. -/
theorem picture_eq_iff (h : g.plain = true) :
    (g.render f m).points = (g.render f m').points ↔
      ∀ i < kDisplayWidth * kDisplayHeight,
        (m.RAM_ (0x5200 + 2 * i)).toNat % 128 = (m'.RAM_ (0x5200 + 2 * i)).toNat % 128 ∧
          m.RAM_ (0x5200 + 2 * i + 1) = m'.RAM_ (0x5200 + 2 * i + 1) := by
  have hpixel : ∀ x < kDisplayWidth, ∀ y < kDisplayHeight,
      ((g.atLine y).pointAt f m (kDisplayWidth * y + x) x y =
        (g.atLine y).pointAt f m' (kDisplayWidth * y + x) x y ↔
      (m.RAM_ (getPixelAddress x y)).toNat % 128 = (m'.RAM_ (getPixelAddress x y)).toNat % 128 ∧
        m.RAM_ (getPixelAddress x y + 1) = m'.RAM_ (getPixelAddress x y + 1)) := by
    intro x hx y hy
    rw [pointAt_plain f m (g.atLine y) h, pointAt_plain f m' (g.atLine y) h, read16_pixel m hx hy,
      read16_pixel m' hx hy, ← shade_append_eq_iff (g.atLine y)]
    simp [Rgb.ext_iff]
  rw [points_eq_iff]
  constructor
  · intro hall i hi
    have hx : i % kDisplayWidth < kDisplayWidth := Nat.mod_lt _ (by decide)
    have hy : i / kDisplayWidth < kDisplayHeight :=
      Nat.div_lt_of_lt_mul hi
    have haddress : getPixelAddress (i % kDisplayWidth) (i / kDisplayWidth) = 0x5200 + 2 * i := by
      rw [getPixelAddress, Nat.mod_add_div']
    have := (hpixel _ hx _ hy).mp (hall _ hx _ hy)
    rwa [haddress] at this
  · intro hall x hx y hy
    refine (hpixel x hx y hy).mpr (hall (x + y * kDisplayWidth) ?_)
    simp only [kDisplayWidth, kDisplayHeight] at hx hy ⊢
    omega

/-- Filters that leave every colour as it is. -/
def Filters.none : Filters := ⟨fun c _ _ => c, id, id, fun c _ => c, fun c _ _ => c⟩

/-- All black against one pixel with the top bit of its word set. -/
theorem picture_top_bit :
    (BananaGpu.render .none (Console.idle false).machine (Console.idle false).GPU_).points =
      (BananaGpu.render .none { (Console.idle false).machine with
        RAM_ := Function.update (fun _ => 0) 0x5200 0x80 } (Console.idle false).GPU_).points := by
  refine (picture_eq_iff .none _ _ _ rfl).mpr fun i _ => ?_
  by_cases hi : i = 0
  · subst hi
    decide
  · have hne : 0x5200 + 2 * i ≠ 0x5200 := by omega
    have hne' : 0x5200 + 2 * i + 1 ≠ 0x5200 := by omega
    dsimp only
    rw [Function.update_of_ne hne, Function.update_of_ne hne']
    exact ⟨rfl, rfl⟩

end Picture

end FavoriteAssignments.Banana
