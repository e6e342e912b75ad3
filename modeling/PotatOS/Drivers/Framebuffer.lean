import PotatOS.Kernel

/-!
# The framebuffer (`framebuffer.c`)

Pixels are drawn into a back buffer, which `swap_framebuffers` copies to the
display. The back buffer's size comes from the width, the place of a pixel from
the pitch.
-/

namespace PotatOS.Drivers

open Memory

/-- `struct limine_framebuffer`. -/
structure Framebuffer where
  address : Nat
  width : Nat
  height : Nat
  pitch : Nat
  bpp : Nat
  deriving DecidableEq, Repr

/-- What the kernel record holds about the display once it is initiated. -/
structure Video where
  framebuffer : Framebuffer
  framebufferSize : Nat
  backBuffer : Nat
  bgColour : UInt32
  deriving DecidableEq, Repr

/-- The memory, and ghost: the pixels that were read or written, by their address. -/
structure Canvas where
  memory : Mem
  accessed : List Nat := []

/-- The pages that `init_framebuffer` asks `kmalloc` for. -/
def framebufferPages (size : Nat) : Nat := pageAlignUp size / 4096

/-- `block` is the physical address that `kmalloc` returned for the pages. -/
def initFramebuffer (framebuffer : Framebuffer) (block hhdm : Nat) (bgColour : UInt32) (m : Mem) : Video × Canvas :=
  let size := framebuffer.width * (framebuffer.bpp / 8) % 2 ^ 64 * framebuffer.height % 2 ^ 64
  let backBuffer := add64 block hhdm
  ({ framebuffer, framebufferSize := size, backBuffer, bgColour }, { memory := fill m backBuffer size 0 })

section draw

variable (video : Video)

/-- `((uint8_t*) fb_ptr) + y * framebuffer->pitch` -/
def Video.location (y : Nat) : Nat := add64 video.backBuffer (y * video.framebuffer.pitch % 2 ^ 64)

/-- `&location[x]` -/
def Video.pixelAddr (x y : Nat) : Nat := add64 (video.location y) (4 * x % 2 ^ 64)

def drawPixel (x y : Nat) (colour : UInt32) (c : Canvas) : Canvas :=
  { memory := store c.memory (video.pixelAddr x y) 4 colour.toNat, accessed := video.pixelAddr x y :: c.accessed }

/-- `location[x]` -/
def Canvas.pixel (c : Canvas) (x y : Nat) : UInt32 := UInt32.ofNat (load c.memory (video.pixelAddr x y) 4)

def swapFramebuffers (c : Canvas) : Canvas :=
  { c with memory := copy c.memory video.framebuffer.address video.backBuffer video.framebufferSize }

def fillScreen (colour : UInt32) (c : Canvas) : Canvas :=
  swapFramebuffers video ((List.range video.framebuffer.width).foldl (fun c x =>
    (List.range video.framebuffer.height).foldl (fun c y => drawPixel video x y colour c) c) c)

/-- One round of the loops of `scroll_pixel`. -/
def scrollAt (pixels y x : Nat) (c : Canvas) : Canvas :=
  if sub64 video.framebuffer.height pixels ≤ y then drawPixel video x y video.bgColour c
  else
    let above := video.pixelAddr x (add64 y pixels)
    let abovePixelValue := UInt32.ofNat (load c.memory above 4)
    drawPixel video x y abovePixelValue { c with accessed := above :: c.accessed }

/-- `pixels` is the `int` as the `uint64_t` that it is converted to. -/
def scrollPixel (pixels : Nat) (c : Canvas) : Canvas :=
  (List.range (video.framebuffer.height + 1)).foldl (fun c y =>
    (List.range video.framebuffer.width).foldl (fun c x => scrollAt video pixels y x c) c) c

end draw

/-- So many rows from the back buffer on lie in the address space. -/
structure Video.Fits (video : Video) (rows : Nat) : Prop where
  pitch : 4 * video.framebuffer.width ≤ video.framebuffer.pitch
  room : video.backBuffer + rows * video.framebuffer.pitch ≤ 2 ^ 64

section pixels

variable {video : Video} {rows x y x' y' : Nat} {c : Canvas} {colour : UInt32}

theorem offset_le (fits : video.Fits rows) (column : x < video.framebuffer.width) :
    y * video.framebuffer.pitch + 4 * x + 4 ≤ (y + 1) * video.framebuffer.pitch := by
  have pitch := fits.pitch
  rw [show (y + 1) * video.framebuffer.pitch = y * video.framebuffer.pitch + video.framebuffer.pitch from Nat.succ_mul ..]
  omega

theorem pixelAddr_eq (fits : video.Fits rows) (column : x < video.framebuffer.width) (row : y < rows) :
    video.pixelAddr x y = video.backBuffer + (y * video.framebuffer.pitch + 4 * x) := by
  have room := fits.room
  have inRow := offset_le (y := y) fits column
  have above : (y + 1) * video.framebuffer.pitch ≤ rows * video.framebuffer.pitch := Nat.mul_le_mul_right _ row
  have start : video.location y = video.backBuffer + y * video.framebuffer.pitch := by
    rw [Video.location, Nat.mod_eq_of_lt (by omega), add64_of_lt (by omega)]
  rw [Video.pixelAddr, start, Nat.mod_eq_of_lt (by omega), add64_of_lt (by omega), Nat.add_assoc]

theorem pixelAddr_apart (fits : video.Fits rows) (column : x < video.framebuffer.width) (row : y < rows)
    (column' : x' < video.framebuffer.width) (row' : y' < rows) (other : ¬ (x' = x ∧ y' = y)) :
    Apart (video.pixelAddr x' y') 4 (video.pixelAddr x y) 4 := by
  rw [pixelAddr_eq fits column row, pixelAddr_eq fits column' row']
  have here := offset_le (y := y) fits column
  have there := offset_le (y := y') fits column'
  unfold Apart
  rcases Nat.lt_trichotomy y' y with before | rfl | behind
  · have above : (y' + 1) * video.framebuffer.pitch ≤ y * video.framebuffer.pitch := Nat.mul_le_mul_right _ before
    omega
  · omega
  · have above : (y + 1) * video.framebuffer.pitch ≤ y' * video.framebuffer.pitch := Nat.mul_le_mul_right _ behind
    omega

theorem pixel_draw (fits : video.Fits rows) (column : x < video.framebuffer.width) (row : y < rows)
    (column' : x' < video.framebuffer.width) (row' : y' < rows) :
    (drawPixel video x y colour c).pixel video x' y' = if x' = x ∧ y' = y then colour else c.pixel video x' y' := by
  unfold Canvas.pixel drawPixel
  split
  next same =>
    obtain ⟨rfl, rfl⟩ := same
    rw [load_store_same colour.toNat_lt, UInt32.ofNat_toNat]
  next other => rw [load_store_apart (pixelAddr_apart fits column row column' row' other)]

end pixels

end PotatOS.Drivers
