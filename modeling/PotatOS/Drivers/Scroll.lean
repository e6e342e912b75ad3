import PotatOS.Drivers.Framebuffer

/-!
# Scrolling (`scroll_pixel`)

The rows move up in place, from the first one down, so each row is read before
it is overwritten. The outer loop goes on to the row behind the picture.
-/

namespace PotatOS.Drivers

open Memory

/-- An unpadded mode of 32 bits per pixel. -/
structure Unpadded (video : Video) : Prop where
  bpp : video.framebuffer.bpp = 32
  pitch : video.framebuffer.pitch = 4 * video.framebuffer.width
  size : video.framebufferSize =
    video.framebuffer.width * (video.framebuffer.bpp / 8) % 2 ^ 64 * video.framebuffer.height % 2 ^ 64
  fits : video.Fits (video.framebuffer.height + 1)
  height : video.framebuffer.height + 1 < 2 ^ 64

/-- The picture has moved up by `pixels` rows. -/
structure Shifted (video : Video) (pixels : Nat) (c c' : Canvas) : Prop where
  moved : ∀ x < video.framebuffer.width, ∀ y < video.framebuffer.height - pixels,
    c'.pixel video x y = c.pixel video x (y + pixels)
  cleared : ∀ x < video.framebuffer.width, ∀ y < video.framebuffer.height, video.framebuffer.height - pixels ≤ y →
    c'.pixel video x y = video.bgColour

/-- Only pixels inside the back buffer were read or written. -/
def InsideBackBuffer (video : Video) (c : Canvas) : Prop :=
  ∀ a ∈ c.accessed, video.backBuffer ≤ a ∧ a + 4 ≤ video.backBuffer + video.framebufferSize

section scroll

variable {video : Video} {pixels x y x' y' a : Nat} {c : Canvas}

/-- The pixel that a round stores. -/
def scrolled (video : Video) (pixels : Nat) (c : Canvas) (x y : Nat) : UInt32 :=
  if y < video.framebuffer.height - pixels then c.pixel video x (y + pixels) else video.bgColour

theorem scrollAt_eq (mode : Unpadded video) (few : pixels ≤ video.framebuffer.height) :
    scrollAt video pixels y x c = drawPixel video x y (scrolled video pixels c x y)
      { c with accessed :=
        if y < video.framebuffer.height - pixels then video.pixelAddr x (y + pixels) :: c.accessed else c.accessed } := by
  have height := mode.height
  unfold scrollAt scrolled
  rw [sub64_of_le few]
  by_cases above : y < video.framebuffer.height - pixels
  · rw [if_neg (by omega), if_pos above, if_pos above, add64_of_lt (by omega)]
    rfl
  · rw [if_pos (by omega), if_neg above, if_neg above]

theorem pixel_scrollAt (mode : Unpadded video) (few : pixels ≤ video.framebuffer.height)
    (column : x < video.framebuffer.width) (row : y ≤ video.framebuffer.height)
    (column' : x' < video.framebuffer.width) (row' : y' ≤ video.framebuffer.height) :
    (scrollAt video pixels y x c).pixel video x' y' =
      if x' = x ∧ y' = y then scrolled video pixels c x y else c.pixel video x' y' := by
  rw [scrollAt_eq mode few, pixel_draw mode.fits column (by omega) column' (by omega)]
  rfl

theorem pixel_scrollRow {n : Nat} (mode : Unpadded video) (few : pixels ≤ video.framebuffer.height)
    (columns : n ≤ video.framebuffer.width) (row : y ≤ video.framebuffer.height)
    (column' : x' < video.framebuffer.width) (row' : y' ≤ video.framebuffer.height) :
    ((List.range n).foldl (fun c x => scrollAt video pixels y x c) c).pixel video x' y' =
      if y' = y ∧ x' < n then scrolled video pixels c x' y else c.pixel video x' y' := by
  induction n generalizing x' y' with
  | zero => simp
  | succ n ih =>
    rw [List.range_succ, List.foldl_append, List.foldl_cons, List.foldl_nil,
      pixel_scrollAt mode few (by omega) row column' row']
    by_cases here : x' = n ∧ y' = y
    · obtain ⟨rfl, rfl⟩ := here
      rw [if_pos ⟨rfl, rfl⟩, if_pos ⟨rfl, by omega⟩]
      -- The pixel below has not been overwritten yet.
      unfold scrolled
      split
      next above => rw [ih (by omega) column' (by omega), if_neg (by omega)]
      next => rfl
    · rw [if_neg here, ih (by omega) column' row']
      by_cases done : y' = y ∧ x' < n
      · rw [if_pos done, if_pos ⟨done.1, by omega⟩]
      · rw [if_neg done, if_neg (by omega)]

theorem pixel_scrollRows {n : Nat} (mode : Unpadded video) (few : pixels ≤ video.framebuffer.height)
    (rows : n ≤ video.framebuffer.height + 1) (column' : x' < video.framebuffer.width)
    (row' : y' ≤ video.framebuffer.height) :
    ((List.range n).foldl (fun c y =>
        (List.range video.framebuffer.width).foldl (fun c x => scrollAt video pixels y x c) c) c).pixel video x' y' =
      if y' < n then scrolled video pixels c x' y' else c.pixel video x' y' := by
  induction n generalizing y' with
  | zero => simp
  | succ n ih =>
    rw [List.range_succ, List.foldl_append, List.foldl_cons, List.foldl_nil,
      pixel_scrollRow mode few le_rfl (by omega) column' row']
    by_cases here : y' = n
    · subst here
      rw [if_pos ⟨rfl, column'⟩, if_pos (by omega)]
      -- The row below has not been overwritten yet.
      unfold scrolled
      split
      next above => rw [ih (by omega) (by omega), if_neg (by omega)]
      next => rfl
    · rw [if_neg (by omega), ih (by omega) row']
      by_cases done : y' < n
      · rw [if_pos done, if_pos (by omega)]
      · rw [if_neg done, if_neg (by omega)]

theorem shifted_scrollPixel (mode : Unpadded video) (few : pixels ≤ video.framebuffer.height) (c : Canvas) :
    Shifted video pixels c (scrollPixel video pixels c) := by
  constructor
  · intro x column y row
    rw [scrollPixel, pixel_scrollRows mode few le_rfl column (by omega), if_pos (by omega), scrolled, if_pos row]
  · intro x column y row behind
    rw [scrollPixel, pixel_scrollRows mode few le_rfl column (by omega), if_pos (by omega), scrolled, if_neg (by omega)]

/-! ### What it reads and writes -/

theorem mem_scrollAt (mode : Unpadded video) (few : pixels ≤ video.framebuffer.height) :
    a ∈ (scrollAt video pixels y x c).accessed ↔ a ∈ c.accessed ∨ a = video.pixelAddr x y ∨
      y < video.framebuffer.height - pixels ∧ a = video.pixelAddr x (y + pixels) := by
  rw [scrollAt_eq mode few]
  unfold drawPixel
  split
  next above =>
    simp only [List.mem_cons, above, true_and]
    tauto
  next behind =>
    simp only [List.mem_cons, behind, false_and, or_false]
    tauto

theorem mem_scrollRow {n : Nat} (mode : Unpadded video) (few : pixels ≤ video.framebuffer.height) :
    a ∈ ((List.range n).foldl (fun c x => scrollAt video pixels y x c) c).accessed ↔ a ∈ c.accessed ∨
      ∃ x < n, a = video.pixelAddr x y ∨
        y < video.framebuffer.height - pixels ∧ a = video.pixelAddr x (y + pixels) := by
  induction n with
  | zero => simp
  | succ n ih =>
    rw [List.range_succ, List.foldl_append, List.foldl_cons, List.foldl_nil, mem_scrollAt mode few, ih, or_assoc]
    simp only [Nat.lt_succ_iff_lt_or_eq, or_and_right, exists_or, exists_eq_left]

theorem mem_scrollRows {n : Nat} (mode : Unpadded video) (few : pixels ≤ video.framebuffer.height) :
    a ∈ ((List.range n).foldl (fun c y =>
        (List.range video.framebuffer.width).foldl (fun c x => scrollAt video pixels y x c) c) c).accessed ↔
      a ∈ c.accessed ∨ ∃ y < n, ∃ x < video.framebuffer.width, a = video.pixelAddr x y ∨
        y < video.framebuffer.height - pixels ∧ a = video.pixelAddr x (y + pixels) := by
  induction n with
  | zero => simp
  | succ n ih =>
    rw [List.range_succ, List.foldl_append, List.foldl_cons, List.foldl_nil, mem_scrollRow mode few, ih, or_assoc]
    simp only [Nat.lt_succ_iff_lt_or_eq, or_and_right, exists_or, exists_eq_left]

/-- It touches the pixels of the picture and of the row behind it, and no others. -/
theorem mem_scrollPixel (mode : Unpadded video) (few : pixels ≤ video.framebuffer.height) :
    a ∈ (scrollPixel video pixels c).accessed ↔ a ∈ c.accessed ∨
      ∃ y ≤ video.framebuffer.height, ∃ x < video.framebuffer.width, a = video.pixelAddr x y := by
  rw [scrollPixel, mem_scrollRows mode few]
  refine or_congr_right ⟨?_, ?_⟩
  · rintro ⟨y, row, x, column, here | ⟨above, below⟩⟩
    · exact ⟨y, by omega, x, column, here⟩
    · exact ⟨y + pixels, by omega, x, column, below⟩
  · rintro ⟨y, row, x, column, here⟩
    exact ⟨y, by omega, x, column, .inl here⟩

end scroll

/-- The picture is right, but unless it is empty the row behind it is overwritten. -/
theorem scrollPixel_inside_iff (video : Video) (mode : Unpadded video) (pixels : Nat)
    (few : pixels ≤ video.framebuffer.height) (m : Mem) :
    Shifted video pixels { memory := m } (scrollPixel video pixels { memory := m }) ∧
      (InsideBackBuffer video (scrollPixel video pixels { memory := m }) ↔ video.framebuffer.width = 0) := by
  refine ⟨shifted_scrollPixel mode few _, ?_, ?_⟩
  · intro inside
    by_contra wide
    have room := mode.fits.room
    have last : video.pixelAddr 0 video.framebuffer.height ∈ (scrollPixel video pixels { memory := m }).accessed :=
      (mem_scrollPixel mode few).mpr (.inr ⟨_, le_rfl, 0, by omega, rfl⟩)
    have small : video.framebufferSize ≤ video.framebuffer.height * video.framebuffer.pitch := by
      rw [mode.size, mode.bpp, mode.pitch, Nat.mul_comm]
      refine (Nat.mod_le _ _).trans (Nat.mul_le_mul_left _ ((Nat.mod_le _ _).trans ?_))
      omega
    obtain ⟨-, upper⟩ := inside _ last
    rw [pixelAddr_eq mode.fits (by omega) (Nat.lt_succ_self _)] at upper
    omega
  · intro narrow a touched
    obtain old | ⟨y, -, x, column, -⟩ := (mem_scrollPixel mode few).mp touched
    · cases old
    · omega

/-- Two pixels, one above the other. -/
def twoPixels : Video := ⟨⟨1048576, 1, 2, 4, 32⟩, 8, 4096, 0⟩

theorem twoPixels_unpadded : Unpadded twoPixels := ⟨rfl, rfl, rfl, ⟨by decide, by decide⟩, by decide⟩

theorem scrollPixel_inside_iff_twoPixels : Shifted twoPixels 1 { memory := fun x => UInt8.ofNat x }
      (scrollPixel twoPixels 1 { memory := fun x => UInt8.ofNat x }) ∧
    ¬ InsideBackBuffer twoPixels (scrollPixel twoPixels 1 { memory := fun x => UInt8.ofNat x }) := by
  obtain ⟨shifted, inside⟩ := scrollPixel_inside_iff twoPixels twoPixels_unpadded 1 (by decide) fun x => UInt8.ofNat x
  exact ⟨shifted, fun all => absurd (inside.mp all) (by decide)⟩

/-- The pixel at offset 8 of a back buffer of 8 bytes is written. -/
theorem scroll_writes_behind : ¬ (Shifted twoPixels 1 { memory := fun _ => 0 }
      (scrollPixel twoPixels 1 { memory := fun _ => 0 }) ∧
    InsideBackBuffer twoPixels (scrollPixel twoPixels 1 { memory := fun _ => 0 })) := by
  rintro ⟨-, inside⟩
  have upper := (inside 4104 (by decide)).2
  revert upper
  decide

end PotatOS.Drivers
