import PotatOS.Drivers.Framebuffer

/-!
# The back buffer and the display

Calls draw pixels, fill the screen and copy the back buffer to the display. The
copy has the size that `init_framebuffer` computed, which leaves out the padding
of the rows.
-/

namespace PotatOS.Drivers

open Memory

/-- The calls; a pixel is drawn on the screen. -/
inductive Draw (framebuffer : Framebuffer) where
  | pixel (x y : Nat) (colour : UInt32) (column : x < framebuffer.width) (row : y < framebuffer.height)
  | fill (colour : UInt32)
  | swap

section draws

variable (video : Video)

def Draw.run : Draw video.framebuffer → Canvas → Canvas
  | .pixel x y colour _ _, c => drawPixel video x y colour c
  | .fill colour, c => fillScreen video colour c
  | .swap, c => swapFramebuffers video c

def draws (calls : List (Draw video.framebuffer)) (c : Canvas) : Canvas := calls.foldl (fun c call => call.run video c) c

/-- The colours drawn last. -/
abbrev Picture := Nat → Nat → Option UInt32

def Draw.onto {framebuffer : Framebuffer} : Draw framebuffer → Picture → Picture
  | .pixel x y colour _ _, drawn => fun x' y' => if x' = x ∧ y' = y then some colour else drawn x' y'
  | .fill colour, _ => fun _ _ => some colour
  | .swap, drawn => drawn

def lastDrawn {framebuffer : Framebuffer} (calls : List (Draw framebuffer)) : Picture :=
  calls.foldl (fun drawn call => call.onto drawn) fun _ _ => none

/-- The display's pixel, at its offset in the front buffer. -/
def Canvas.shown (c : Canvas) (x y : Nat) : UInt32 :=
  UInt32.ofNat (load c.memory (video.framebuffer.address + (y * video.framebuffer.pitch + 4 * x)) 4)

/-- A pixel drawn on the screen lies inside the pages of the back buffer. -/
def DrawsInside : Prop :=
  ∀ x < video.framebuffer.width, ∀ y < video.framebuffer.height, video.backBuffer ≤ video.pixelAddr x y ∧
    video.pixelAddr x y + 4 ≤ video.backBuffer + framebufferPages video.framebufferSize * 4096

/-- After any calls and a swap, the display shows at each pixel the colour drawn last there. -/
def DisplayAgrees (c : Canvas) : Prop :=
  ∀ calls, ∀ x < video.framebuffer.width, ∀ y < video.framebuffer.height, ∀ colour,
    lastDrawn calls x y = some colour →
    (swapFramebuffers video (draws video calls c)).shown video x y = colour

end draws

/-- A mode of 32 bits per pixel whose display and back buffer lie apart in the address space. -/
structure Mode (video : Video) : Prop where
  bpp : video.framebuffer.bpp = 32
  fits : video.Fits video.framebuffer.height
  small : video.framebuffer.height * video.framebuffer.pitch + 4096 < 2 ^ 64
  size : video.framebufferSize =
    video.framebuffer.width * (video.framebuffer.bpp / 8) % 2 ^ 64 * video.framebuffer.height % 2 ^ 64
  apart : Apart video.framebuffer.address (video.framebuffer.height * video.framebuffer.pitch)
    video.backBuffer (framebufferPages video.framebufferSize * 4096)

section mode

variable {video : Video} {x y x' y' : Nat} {c : Canvas} {colour : UInt32}

theorem Mode.size_eq (mode : Mode video) :
    video.framebufferSize = video.framebuffer.height * (4 * video.framebuffer.width) := by
  have pitch := mode.fits.pitch
  have small := mode.small
  rw [mode.size, mode.bpp]
  rcases Nat.eq_zero_or_pos video.framebuffer.height with none_ | some_
  · simp [none_]
  · have row : video.framebuffer.pitch ≤ video.framebuffer.height * video.framebuffer.pitch := Nat.le_mul_of_pos_left _ some_
    have rows : video.framebuffer.height * (4 * video.framebuffer.width) ≤
        video.framebuffer.height * video.framebuffer.pitch := Nat.mul_le_mul_left _ pitch
    have bytes : video.framebuffer.width * (32 / 8) = 4 * video.framebuffer.width := by omega
    have columns : 4 * video.framebuffer.width % 2 ^ 64 = 4 * video.framebuffer.width := Nat.mod_eq_of_lt (by omega)
    rw [bytes, columns, Nat.mul_comm, Nat.mod_eq_of_lt (by omega)]

theorem Mode.size_le (mode : Mode video) :
    video.framebufferSize ≤ video.framebuffer.height * video.framebuffer.pitch := by
  rw [mode.size_eq]
  exact Nat.mul_le_mul_left _ mode.fits.pitch

theorem Mode.pages (mode : Mode video) :
    video.framebufferSize ≤ framebufferPages video.framebufferSize * 4096 := by
  have size := mode.size_le
  have small := mode.small
  unfold framebufferPages pageAlignUp
  rw [add64_of_lt (by omega)]
  omega

/-- The parts of the two buffers that are copied lie apart. -/
theorem Mode.copied_apart (mode : Mode video) :
    Apart video.framebuffer.address video.framebufferSize video.backBuffer video.framebufferSize := by
  have apart := mode.apart
  have size := mode.size_le
  have pages := mode.pages
  unfold Apart at apart ⊢
  omega

/-- The copied bytes hold every pixel. -/
def Covers (video : Video) : Prop :=
  ∀ x < video.framebuffer.width, ∀ y < video.framebuffer.height,
    y * video.framebuffer.pitch + 4 * x + 4 ≤ video.framebufferSize

theorem covers_iff (mode : Mode video) : Covers video ↔
    video.framebuffer.pitch = 4 * video.framebuffer.width ∨ video.framebuffer.height ≤ 1 ∨
      video.framebuffer.width = 0 := by
  have size := mode.size_eq
  have pitch := mode.fits.pitch
  constructor
  · intro covers
    by_contra padded
    obtain ⟨wider, tall, wide⟩ := not_or.mp padded |>.imp_right not_or.mp
    have last := covers (video.framebuffer.width - 1) (by omega) (video.framebuffer.height - 1) (by omega)
    obtain ⟨rows, height⟩ := Nat.exists_eq_add_of_le (show 2 ≤ video.framebuffer.height by omega)
    have longer : (rows + 1) * (4 * video.framebuffer.width + 1) ≤ (rows + 1) * video.framebuffer.pitch :=
      Nat.mul_le_mul_left _ (by omega)
    rw [size, height, show 2 + rows - 1 = rows + 1 by omega, show 2 + rows = rows + 1 + 1 by omega,
      Nat.succ_mul (rows + 1)] at last
    rw [Nat.mul_succ] at longer
    omega
  · intro condition x column y row
    have inRow := offset_le (y := y) mode.fits column
    rcases condition with unpadded | short | narrow
    · rw [size, ← unpadded]
      exact inRow.trans (Nat.mul_le_mul_right _ row)
    · obtain rfl : y = 0 := by omega
      obtain height : video.framebuffer.height = 1 := by omega
      rw [size, height]
      omega
    · omega

theorem drawsInside_of_covers (mode : Mode video) (covers : Covers video) : DrawsInside video := by
  intro x column y row
  have pages := mode.pages
  have inside := covers x column y row
  rw [pixelAddr_eq mode.fits column row]
  omega

/-! ### A size that covers the picture -/

theorem shown_swap (mode : Mode video) (covers : Covers video) (column : x < video.framebuffer.width)
    (row : y < video.framebuffer.height) :
    (swapFramebuffers video c).shown video x y = c.pixel video x y := by
  unfold Canvas.shown Canvas.pixel swapFramebuffers
  rw [load_copy_inside mode.copied_apart (covers x column y row), pixelAddr_eq mode.fits column row]

theorem pixel_swap (mode : Mode video) (covers : Covers video) (column : x < video.framebuffer.width)
    (row : y < video.framebuffer.height) :
    (swapFramebuffers video c).pixel video x y = c.pixel video x y := by
  have inside := covers x column y row
  have apart := mode.copied_apart
  unfold Canvas.pixel swapFramebuffers
  rw [load_copy_apart]
  rw [pixelAddr_eq mode.fits column row]
  unfold Apart at apart ⊢
  omega

theorem pixel_fillColumn {n : Nat} (mode : Mode video) (rows : n ≤ video.framebuffer.height)
    (column : x < video.framebuffer.width) (column' : x' < video.framebuffer.width) (row' : y' < video.framebuffer.height) :
    ((List.range n).foldl (fun c y => drawPixel video x y colour c) c).pixel video x' y' =
      if x' = x ∧ y' < n then colour else c.pixel video x' y' := by
  induction n with
  | zero => simp
  | succ n ih =>
    rw [List.range_succ, List.foldl_append, List.foldl_cons, List.foldl_nil,
      pixel_draw mode.fits column (by omega) column' row', ih (by omega)]
    by_cases here : x' = x ∧ y' = n
    · rw [if_pos here, if_pos ⟨here.1, by omega⟩]
    · rw [if_neg here]
      by_cases done : x' = x ∧ y' < n
      · rw [if_pos done, if_pos ⟨done.1, by omega⟩]
      · rw [if_neg done, if_neg (by omega)]

theorem pixel_fillColumns {n : Nat} (mode : Mode video) (columns : n ≤ video.framebuffer.width)
    (column' : x' < video.framebuffer.width) (row' : y' < video.framebuffer.height) :
    ((List.range n).foldl (fun c x =>
        (List.range video.framebuffer.height).foldl (fun c y => drawPixel video x y colour c) c) c).pixel video x' y' =
      if x' < n then colour else c.pixel video x' y' := by
  induction n with
  | zero => simp
  | succ n ih =>
    rw [List.range_succ, List.foldl_append, List.foldl_cons, List.foldl_nil,
      pixel_fillColumn mode le_rfl (by omega) column' row', ih (by omega)]
    by_cases here : x' = n
    · rw [if_pos ⟨here, row'⟩, if_pos (by omega)]
    · rw [if_neg (by tauto)]
      by_cases done : x' < n
      · rw [if_pos done, if_pos (by omega)]
      · rw [if_neg done, if_neg (by omega)]

theorem pixel_fillScreen (mode : Mode video) (covers : Covers video) (column : x < video.framebuffer.width)
    (row : y < video.framebuffer.height) : (fillScreen video colour c).pixel video x y = colour := by
  rw [fillScreen, pixel_swap mode covers column row, pixel_fillColumns mode le_rfl column row, if_pos column]

/-- The back buffer holds the colours drawn last. -/
def Drawn (video : Video) (c : Canvas) (drawn : Picture) : Prop :=
  ∀ x < video.framebuffer.width, ∀ y < video.framebuffer.height, ∀ colour, drawn x y = some colour →
    c.pixel video x y = colour

theorem Drawn.call {drawn : Picture} (mode : Mode video) (covers : Covers video) (held : Drawn video c drawn)
    (call : Draw video.framebuffer) : Drawn video (call.run video c) (call.onto drawn) := by
  intro x column y row colour last
  cases call with
  | pixel x' y' colour' column' row' =>
    have last : (if x = x' ∧ y = y' then some colour' else drawn x y) = some colour := last
    show (drawPixel video x' y' colour' c).pixel video x y = colour
    rw [pixel_draw mode.fits column' row' column row]
    split at last
    next here => rw [if_pos here, Option.some.inj last]
    next other => rw [if_neg other, held x column y row colour last]
  | fill colour' =>
    obtain rfl := Option.some.inj last
    exact pixel_fillScreen mode covers column row
  | swap => exact (pixel_swap mode covers column row).trans (held x column y row colour last)

theorem Drawn.calls {drawn : Picture} (mode : Mode video) (covers : Covers video) (held : Drawn video c drawn)
    (calls : List (Draw video.framebuffer)) :
    Drawn video (draws video calls c) (calls.foldl (fun drawn call => call.onto drawn) drawn) := by
  induction calls generalizing c drawn with
  | nil => exact held
  | cons call calls ih => exact ih (held.call mode covers call)

theorem displayAgrees_of_covers (mode : Mode video) (covers : Covers video) (c : Canvas) : DisplayAgrees video c := by
  intro calls x column y row colour last
  have none_ : Drawn video c fun _ _ => none := fun _ _ _ _ _ => nofun
  rw [shown_swap mode covers column row]
  exact none_.calls mode covers calls x column y row colour last

/-! ### A size that does not -/

/-- A drawing leaves the last byte of its pixel on the display alone, wherever the back buffer is. -/
theorem draw_keeps_display (mode : Mode video) (column : x < video.framebuffer.width) (row : y < video.framebuffer.height) :
    (drawPixel video x y colour c).memory (video.framebuffer.address + (y * video.framebuffer.pitch + 4 * x) + 3) =
      c.memory (video.framebuffer.address + (y * video.framebuffer.pitch + 4 * x) + 3) := by
  have apart := mode.apart
  have pages := mode.pages
  have pitch := mode.fits.pitch
  have front : video.framebuffer.pitch ≤ video.framebuffer.height * video.framebuffer.pitch :=
    Nat.le_mul_of_pos_left _ (by omega)
  have back : 4 * video.framebuffer.width ≤ video.framebufferSize := by
    rw [mode.size_eq]
    exact Nat.le_mul_of_pos_left _ (by omega)
  apply store_outside
  rw [pixelAddr_eq mode.fits column row]
  unfold Apart at apart
  unfold InRange
  omega

theorem shown_top (video : Video) (c : Canvas) (x y : Nat) : (c.shown video x y).toNat / 256 ^ 3 =
    (c.memory (video.framebuffer.address + (y * video.framebuffer.pitch + 4 * x) + 3)).toNat := by
  have small : load c.memory (video.framebuffer.address + (y * video.framebuffer.pitch + 4 * x)) 4 < 2 ^ 32 :=
    load_lt ..
  rw [Canvas.shown, UInt32.toNat_ofNat', Nat.mod_eq_of_lt small, load_succ_div]

theorem not_displayAgrees (mode : Mode video) (short : ¬ Covers video) (c : Canvas) : ¬ DisplayAgrees video c := by
  intro agrees
  simp only [Covers, not_forall, not_le] at short
  obtain ⟨x, column, y, row, behind⟩ := short
  let byte := c.memory (video.framebuffer.address + (y * video.framebuffer.pitch + 4 * x) + 3)
  let colour : UInt32 := if byte = 0 then 0xFF000000 else 0
  have shows := agrees [.pixel x y colour column row] x column y row colour (if_pos ⟨rfl, rfl⟩)
  have top := shown_top video (swapFramebuffers video (drawPixel video x y colour c)) x y
  have kept : (swapFramebuffers video (drawPixel video x y colour c)).memory
      (video.framebuffer.address + (y * video.framebuffer.pitch + 4 * x) + 3) = byte := by
    refine (copy_outside ?_).trans (draw_keeps_display mode column row)
    unfold InRange
    omega
  have shown : (swapFramebuffers video (drawPixel video x y colour c)).shown video x y = colour := shows
  rw [shown, kept] at top
  by_cases zero : byte = 0
  · rw [show colour = 0xFF000000 from if_pos zero, zero] at top
    exact absurd top (by decide)
  · rw [show colour = 0 from if_neg zero] at top
    exact zero (UInt8.toNat_inj.mp top.symm)

end mode

/-- The back buffer and the display agree exactly for modes without padding between rows. -/
theorem display_agrees_iff (video : Video) (mode : Mode video) (c : Canvas) :
    (DrawsInside video ∧ DisplayAgrees video c) ↔
      video.framebuffer.pitch = 4 * video.framebuffer.width ∨ video.framebuffer.height ≤ 1 ∨
        video.framebuffer.width = 0 := by
  rw [← covers_iff mode]
  constructor
  · rintro ⟨-, agrees⟩
    by_contra short
    exact not_displayAgrees mode short c agrees
  · intro covers
    exact ⟨drawsInside_of_covers mode covers, displayAgrees_of_covers mode covers c⟩

/-- Two pixels, one above the other, with or without four bytes of padding in each row. -/
def twoRows (pitch : Nat) : Video := ⟨⟨1048576, 1, 2, pitch, 32⟩, 8, 4096, 0⟩

theorem twoRows_mode : Mode (twoRows 4) ∧ Mode (twoRows 8) :=
  ⟨⟨rfl, ⟨by decide, by decide⟩, by decide, by decide, .inr (.inl (by decide))⟩,
    ⟨rfl, ⟨by decide, by decide⟩, by decide, by decide, .inr (.inl (by decide))⟩⟩

theorem display_agrees_iff_twoRows : DrawsInside (twoRows 4) ∧ DisplayAgrees (twoRows 4) { memory := fun _ => 7 } :=
  (display_agrees_iff (twoRows 4) twoRows_mode.1 { memory := fun _ => 7 }).mpr (.inl rfl)

/-- With padding the lower pixel is not copied to the display. -/
theorem padded_row_not_shown : ¬ DisplayAgrees (twoRows 8) { memory := fun _ => 0 } := by
  intro agrees
  have shows := agrees [.pixel 0 1 0xFFFFFF (by decide) (by decide)] 0 (by decide) 1 (by decide) 0xFFFFFF rfl
  revert shows
  decide

end PotatOS.Drivers
