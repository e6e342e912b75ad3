import PotatOS.Drivers.Framebuffer
import PotatOS.Lib.Bytes
import PotatOS.Mem.KheapClients

/-!
# The devices `D:/fb0` and `D:/fbinfo0` (`framebuffer.c`)

The file has no position: every call starts at the first byte. Both directions
end with a copy to the display, also a read.
-/

namespace PotatOS.Drivers

open Memory

section calls

variable (video : Video)

def Video.copyAmount (len : Nat) : Nat := if len > video.framebufferSize then video.framebufferSize else len

def writeFbDevice (buffer len : Nat) (c : Canvas) : Nat × Canvas :=
  (0, swapFramebuffers video { c with memory := copy c.memory video.backBuffer buffer (video.copyAmount len) })

def readFbDevice (buffer maxLen : Nat) (c : Canvas) : Nat × Canvas :=
  (0, swapFramebuffers video { c with memory := copy c.memory buffer video.backBuffer (video.copyAmount maxLen) })

/-- What happens around the device: programs call it and store their own bytes, the console draws and shows. -/
inductive FbUse where
  | write (buffer len : Nat)
  | read (buffer maxLen : Nat)
  | pixel (x y : Nat) (colour : UInt32)
  | swap
  | program (a : Nat) (bytes : List UInt8)

def FbUse.run : FbUse → Canvas → Canvas
  | .write buffer len, c => (writeFbDevice video buffer len c).2
  | .read buffer maxLen, c => (readFbDevice video buffer maxLen c).2
  | .pixel x y colour, c => drawPixel video x y colour c
  | .swap, c => swapFramebuffers video c
  | .program a bytes, c => { c with memory := writeBytes c.memory a bytes }

/-- The range shares no byte with the display or the back buffer. -/
def Video.Outside (a n : Nat) : Prop :=
  Apart a n video.backBuffer video.framebufferSize ∧ Apart a n video.framebuffer.address video.framebufferSize

/-- Programs use memory of their own, and the console draws on the screen. -/
def FbUse.Proper : FbUse → Prop
  | .write buffer len => video.Outside buffer (video.copyAmount len)
  | .read buffer maxLen => video.Outside buffer (video.copyAmount maxLen)
  | .pixel x y _ => y * video.framebuffer.pitch + 4 * x + 4 ≤ video.framebufferSize
  | .swap => True
  | .program a bytes => video.Outside a bytes.length

instance (a n : Nat) : Decidable (video.Outside a n) :=
  inferInstanceAs (Decidable (_ ∧ _))

instance decidableProper : ∀ use : FbUse, Decidable (use.Proper video)
  | .write buffer len => inferInstanceAs (Decidable (video.Outside buffer (video.copyAmount len)))
  | .read buffer maxLen => inferInstanceAs (Decidable (video.Outside buffer (video.copyAmount maxLen)))
  | .pixel x y _ => inferInstanceAs (Decidable (y * video.framebuffer.pitch + 4 * x + 4 ≤ video.framebufferSize))
  | .swap => isTrue trivial
  | .program a bytes => inferInstanceAs (Decidable (video.Outside a bytes.length))

structure Video.Separate : Prop where
  room : video.backBuffer + video.framebufferSize ≤ 2 ^ 64
  apart : Apart video.framebuffer.address video.framebufferSize video.backBuffer video.framebufferSize

end calls

/-! ### The device for a program -/

/-- The bytes that the device holds, the ones on the display, and the memory of the programs. -/
structure FbView where
  bytes : List UInt8
  shown : List UInt8
  rest : Mem

def FbUse.onto (pitch : Nat) : FbUse → FbView → FbView
  | .write buffer len, v =>
    let bytes := splice v.bytes 0 ((bytesAt v.rest buffer len).take v.bytes.length)
    { v with bytes, shown := bytes }
  | .read buffer maxLen, v => { v with rest := writeBytes v.rest buffer (v.bytes.take maxLen), shown := v.bytes }
  | .pixel x y colour, v => { v with bytes := splice v.bytes (y * pitch + 4 * x) (word 4 colour.toNat) }
  | .swap, v => { v with shown := v.bytes }
  | .program a bytes, v => { v with rest := writeBytes v.rest a bytes }

/-- The memory is that of the view. -/
structure Views (video : Video) (m : Mem) (v : FbView) : Prop where
  back : v.bytes = bytesAt m video.backBuffer video.framebufferSize
  front : v.shown = bytesAt m video.framebuffer.address video.framebufferSize
  rest : ∀ x, ¬ InRange video.backBuffer video.framebufferSize x →
    ¬ InRange video.framebuffer.address video.framebufferSize x → m x = v.rest x

section steps

variable {video : Video} {m m' : Mem} {v : FbView} {a n o len : Nat} {c : Canvas}

theorem copyAmount_le (video : Video) (len : Nat) : video.copyAmount len ≤ video.framebufferSize := by
  unfold Video.copyAmount
  split <;> omega

theorem take_copyAmount (len : Nat) :
    (bytesAt m a len).take video.framebufferSize = bytesAt m a (video.copyAmount len) := by
  unfold Video.copyAmount
  split
  next more => exact take_bytesAt (by omega)
  next => exact List.take_of_length_le (by rw [length_bytesAt]; omega)

theorem Views.swap (views : Views video m v) (separate : video.Separate) :
    Views video (copy m video.framebuffer.address video.backBuffer video.framebufferSize) { v with shown := v.bytes } where
  back := views.back.trans (bytesAt_apart (fun _ => copy_outside) (apart_comm.mp separate.apart)).symm
  front := views.back.trans (bytesAt_copy separate.apart).symm
  rest := fun x behind before => (copy_outside before).trans (views.rest x behind before)

theorem Views.drawn (views : Views video m v) (separate : video.Separate)
    (same : ∀ x, ¬ InRange (video.backBuffer + o) n x → m' x = m x) (fits : o + n ≤ video.framebufferSize) :
    Views video m' { v with bytes := splice v.bytes o (bytesAt m' (video.backBuffer + o) n) } := by
  have apart : Apart video.framebuffer.address video.framebufferSize (video.backBuffer + o) n := by
    have whole := separate.apart
    unfold Apart at whole ⊢
    omega
  refine ⟨?_, views.front.trans (bytesAt_apart same apart).symm, fun x behind before => ?_⟩
  · rw [views.back]
    exact (bytesAt_splice same fits).symm
  · rw [same x (by unfold InRange at behind ⊢; omega)]
    exact views.rest x behind before

theorem Views.stored (views : Views video m v) (same : ∀ x, ¬ InRange a n x → m' x = m x) (outside : video.Outside a n) :
    Views video m' { v with rest := writeBytes v.rest a (bytesAt m' a n) } := by
  obtain ⟨behind, before⟩ := outside
  refine ⟨views.back.trans (bytesAt_apart same (apart_comm.mp behind)).symm,
    views.front.trans (bytesAt_apart same (apart_comm.mp before)).symm, fun x notBack notFront => ?_⟩
  dsimp only
  rw [writeBytes_bytesAt]
  split
  next => rfl
  next outside => rw [same x outside, views.rest x notBack notFront]

theorem bytesAt_rest (views : Views video m v) (outside : video.Outside a n) : bytesAt v.rest a n = bytesAt m a n := by
  refine bytesAt_congr fun i less => (views.rest _ ?_ ?_).symm
  · exact not_inRange_of_apart outside.1 (by unfold InRange; omega)
  · exact not_inRange_of_apart outside.2 (by unfold InRange; omega)

theorem Views.write (views : Views video m v) (separate : video.Separate) (outside : video.Outside a (video.copyAmount len)) :
    Views video (copy m video.backBuffer a (video.copyAmount len))
      { v with bytes := splice v.bytes 0 ((bytesAt v.rest a len).take v.bytes.length) } := by
  have fits := copyAmount_le video len
  have apart : Apart video.backBuffer (video.copyAmount len) a (video.copyAmount len) := by
    have whole := outside.1
    unfold Apart at whole ⊢
    omega
  have copied : bytesAt (copy m video.backBuffer a (video.copyAmount len)) (video.backBuffer + 0) (video.copyAmount len) =
      (bytesAt v.rest a len).take v.bytes.length := by
    rw [Nat.add_zero, bytesAt_copy apart, ← bytesAt_rest views outside, views.back, length_bytesAt, take_copyAmount]
  have same : ∀ x, ¬ InRange (video.backBuffer + 0) (video.copyAmount len) x →
      copy m video.backBuffer a (video.copyAmount len) x = m x := fun _ => copy_outside
  have drawn := views.drawn separate same (by omega)
  rwa [copied] at drawn

theorem Views.read (views : Views video m v) (outside : video.Outside a (video.copyAmount len)) :
    Views video (copy m a video.backBuffer (video.copyAmount len)) { v with rest := writeBytes v.rest a (v.bytes.take len) } := by
  have fits := copyAmount_le video len
  have apart : Apart a (video.copyAmount len) video.backBuffer (video.copyAmount len) := by
    have whole := outside.1
    unfold Apart at whole ⊢
    omega
  have copied : bytesAt (copy m a video.backBuffer (video.copyAmount len)) a (video.copyAmount len) = v.bytes.take len := by
    rw [bytesAt_copy apart, views.back]
    unfold Video.copyAmount
    split
    next more => exact (List.take_of_length_le (by rw [length_bytesAt]; omega)).symm
    next => exact (take_bytesAt (by omega)).symm
  have same : ∀ x, ¬ InRange a (video.copyAmount len) x → copy m a video.backBuffer (video.copyAmount len) x = m x :=
    fun _ => copy_outside
  have stored := views.stored same outside
  rwa [copied] at stored

theorem pixelAddr_inside {x y : Nat} (separate : video.Separate)
    (inside : y * video.framebuffer.pitch + 4 * x + 4 ≤ video.framebufferSize) :
    video.pixelAddr x y = video.backBuffer + (y * video.framebuffer.pitch + 4 * x) := by
  have room := separate.room
  have start : video.location y = video.backBuffer + y * video.framebuffer.pitch := by
    rw [Video.location, Nat.mod_eq_of_lt (by omega), add64_of_lt (by omega)]
  rw [Video.pixelAddr, start, Nat.mod_eq_of_lt (by omega), add64_of_lt (by omega), Nat.add_assoc]

theorem Views.step {use : FbUse} (views : Views video c.memory v) (separate : video.Separate) (proper : use.Proper video) :
    Views video (use.run video c).memory (use.onto video.framebuffer.pitch v) := by
  cases use with
  | write buffer len => exact (views.write separate proper).swap separate
  | read buffer maxLen => exact (views.read proper).swap separate
  | pixel x y colour =>
    show Views video (store c.memory (video.pixelAddr x y) 4 colour.toNat) _
    rw [pixelAddr_inside separate proper]
    have same : ∀ x', ¬ InRange (video.backBuffer + (y * video.framebuffer.pitch + 4 * x)) 4 x' →
        store c.memory (video.backBuffer + (y * video.framebuffer.pitch + 4 * x)) 4 colour.toNat x' = c.memory x' :=
      fun _ => store_outside
    have drawn := views.drawn separate same proper
    rwa [bytesAt_store] at drawn
  | swap => exact views.swap separate
  | program a bytes =>
    have same : ∀ x, ¬ InRange a bytes.length x → writeBytes c.memory a bytes x = c.memory x := fun _ => writeBytes_outside
    have stored := views.stored same proper
    rwa [bytesAt_writeBytes] at stored

end steps

section runs

variable {video : Video} {v : FbView} {c : Canvas}

def fbRun (video : Video) (uses : List FbUse) (c : Canvas) : Canvas := uses.foldl (fun c use => use.run video c) c

/-- Over any run the device is a file of fixed length whose writes and reads start at the first byte. A read also shows
what was drawn so far. -/
theorem fb_device_refines (separate : video.Separate) (views : Views video c.memory v) (uses : List FbUse)
    (proper : ∀ use ∈ uses, use.Proper video) :
    Views video (fbRun video uses c).memory (uses.foldl (fun v use => use.onto video.framebuffer.pitch v) v) := by
  induction uses generalizing c v with
  | nil => exact views
  | cons use uses ih =>
    have next := views.step separate (proper use List.mem_cons_self)
    exact ih next fun later member => proper later (List.mem_cons_of_mem _ member)

end runs

/-- Two pixels; a program stores five bytes and writes them, the console draws, and the program reads three bytes. -/
def tinyDisplay : Video := (initFramebuffer ⟨0x9000, 2, 1, 8, 32⟩ 0x5000 0 0 fun _ => 0).1

theorem fb_device_refines_tinyDisplay : ∃ c,
    c = fbRun tinyDisplay [.program 0x100 [1, 2, 3, 4, 5], .write 0x100 5, .pixel 1 0 0x0A0B0C0D, .read 0x200 3]
      ⟨fun _ => 0, []⟩ ∧
    bytesAt c.memory 0x9000 8 = [1, 2, 3, 4, 0x0D, 0x0C, 0x0B, 0x0A] ∧ bytesAt c.memory 0x200 4 = [1, 2, 3, 0] := by
  have separate : tinyDisplay.Separate := ⟨by decide, by decide⟩
  have views : Views tinyDisplay (fun _ => 0) ⟨List.replicate 8 0, List.replicate 8 0, fun _ => 0⟩ := ⟨rfl, rfl, fun _ _ _ => rfl⟩
  have run := fb_device_refines (c := ⟨fun _ => 0, []⟩) separate views
    [.program 0x100 [1, 2, 3, 4, 5], .write 0x100 5, .pixel 1 0 0x0A0B0C0D, .read 0x200 3] (by decide)
  refine ⟨_, rfl, run.front.symm.trans (by decide), ?_⟩
  rw [← bytesAt_rest run (by decide)]
  decide

/-! ### The record of the display -/

section info

open Prog Mem

variable (kmalloc : Owner → Nat → KernelM Nat) (video : Video)

/-- `"Width: "`, `"Height: "`, `"Pitch: "` and `"Bytes: "`. -/
def fbinfoLabels : List (List UInt8) :=
  [[87, 105, 100, 116, 104, 58, 32], [72, 101, 105, 103, 104, 116, 58, 32], [80, 105, 116, 99, 104, 58, 32],
    [66, 121, 116, 101, 115, 58, 32]]

def fbinfoVals : List Nat :=
  [video.framebuffer.width, video.framebuffer.height, video.framebuffer.pitch, video.framebufferSize]

/-- The second loop of `read_fbinfo_device`: a label and its 8 bytes of data. -/
def writeFields (tempBuffer : Nat) : List (List UInt8 × Nat) → Nat → KernelM Nat
  | [], upto => return upto
  | (label, val) :: rest, upto => do
    modify fun k => k.setMem (writeBytes k.mem (tempBuffer + upto) label)
    modify fun k => k.setMem (store k.mem (tempBuffer + upto + label.length) 8 val)
    writeFields tempBuffer rest (upto + (label.length + 8))

/-- The status, and the bytes for the caller's buffer. -/
def readFbinfoDevice (maxLen : Nat) : KernelM (Nat × List UInt8) := do
  let wholeLen := (fbinfoLabels.map fun label => label.length + 8).sum
  let tempBuffer ← malloc kmalloc (wholeLen + 1)
  let upto ← writeFields tempBuffer (fbinfoLabels.zip (fbinfoVals video)) 0
  let copyAmount := if maxLen > upto then upto else maxLen
  let copied := bytesAt (← get).mem tempBuffer copyAmount
  free tempBuffer
  return (0, copied)

end info

section info

open Prog Mem

variable {A : PageAllocator} {video : Video} {k k' : Kernel} {live : List (Nat × Nat)} {a : Nat}

theorem writeFields_ok (fields : List (List UInt8 × Nat)) (upto : Nat) : ∃ m,
    writeFields a fields upto k = .ok (upto + (encodeFields 8 fields).length, k.setMem m) ∧
      (∀ x, ¬ InRange (a + upto) (encodeFields 8 fields).length x → m x = k.mem x) ∧
      bytesAt m (a + upto) (encodeFields 8 fields).length = encodeFields 8 fields := by
  induction fields generalizing upto k with
  | nil => exact ⟨k.mem, rfl, fun _ _ => rfl, rfl⟩
  | cons f fields ih =>
    obtain ⟨label, val⟩ := f
    have bytes : encodeFields 8 ((label, val) :: fields) = label ++ word 8 val ++ encodeFields 8 fields := rfl
    let m₁ := store (writeBytes k.mem (a + upto) label) (a + upto + label.length) 8 val
    obtain ⟨m, run, outside, behind⟩ := ih (k := k.setMem m₁) (upto + (label.length + 8))
    have first : ∀ x, ¬ InRange (a + upto) (label.length + 8) x → m₁ x = k.mem x := by
      intro x away
      unfold InRange at away
      show store _ _ _ _ x = _
      rw [store_outside (by unfold InRange; omega), writeBytes_outside (by unfold InRange; omega)]
    have start : a + (upto + (label.length + 8)) = a + upto + (label.length + 8) := by omega
    rw [start] at outside behind
    refine ⟨m, ?_, fun x away => ?_, ?_⟩
    · unfold writeFields
      rw [bind_eq (run_modify _), bind_eq (run_modify _)]
      refine run.trans ?_
      simp [bytes]
      omega
    · unfold InRange at away
      simp only [bytes, List.length_append, length_word] at away
      rw [outside x (by unfold InRange; omega), ← first x (by unfold InRange; omega)]
      rfl
    · have front : bytesAt m (a + upto) (label.length + 8) = label ++ word 8 val := by
        rw [bytesAt_apart outside (by unfold Apart; omega)]
        show bytesAt m₁ _ _ = _
        rw [bytesAt_append, bytesAt_store, bytesAt_apart (fun _ => store_outside) (by unfold Apart; omega), bytesAt_writeBytes]
      rw [bytes, List.length_append, show (label ++ word 8 val).length = label.length + 8 by simp, bytesAt_append, front, behind]

/-- A read gives the record as far as it fits and leaves the heap as it was. A program finds the four values in it if
and only if it asks for all of its 61 bytes. -/
theorem fbinfo_decodes (heap : Heap A k live) (small : ∀ val ∈ fbinfoVals video, val < 2 ^ 64) (maxLen : Nat)
    {r : Nat × List UInt8} (h : readFbinfoDevice A.kmalloc video maxLen k = .ok (r, k')) :
    r.1 = 0 ∧ r.2.length ≤ maxLen ∧ Heap A k' live ∧ Keeps k k' live ∧
      parseFields 8 fbinfoLabels r.2 = if 61 ≤ maxLen then some (fbinfoVals video) else none := by
  unfold readFbinfoDevice at h
  obtain ⟨a, k₁, got, h⟩ := bind_ok h
  obtain ⟨heap₁, kept⟩ : Heap A k₁ ((a, 62) :: live) ∧ Keeps k k₁ live := heap.malloc (by decide) got
  obtain ⟨m, run, outside, bytes⟩ := writeFields_ok (a := a) (k := k₁) (fbinfoLabels.zip (fbinfoVals video)) 0
  have length : (encodeFields 8 (fbinfoLabels.zip (fbinfoVals video))).length = 61 := rfl
  rw [length] at run outside bytes
  rw [bind_eq run, bind_eq run_get] at h
  have heap₂ : Heap A (k₁.setMem m) ((a, 62) :: live) := by
    refine heap₁.write List.mem_cons_self fun x away => outside x ?_
    unfold InRange at away ⊢
    omega
  obtain ⟨k₂, freed, heap₃, kept₂⟩ := heap₂.free
  rw [bind_eq freed] at h
  obtain ⟨rfl, rfl⟩ := pure_ok h
  have stays : Keeps k₁ (k₁.setMem m) live := by
    intro b member x inside
    have apart := (List.pairwise_cons.mp heap₁.pairwise).1 b member
    exact outside x fun here => not_inRange_of_apart (apart_comm.mp apart) inside (by unfold InRange at here ⊢; omega)
  have copied : bytesAt m a (if maxLen > 0 + 61 then 0 + 61 else maxLen) =
      (encodeFields 8 (fbinfoLabels.zip (fbinfoVals video))).take maxLen := by
    rw [← bytes]
    split
    next more => exact (List.take_of_length_le (by rw [length_bytesAt]; omega)).symm
    next => exact (take_bytesAt (by omega)).symm
  refine ⟨rfl, ?_, heap₃, (kept.trans stays).trans (kept₂.mono fun b => List.mem_cons_of_mem _), ?_⟩
  · rw [length_bytesAt]
    split <;> omega
  · show parseFields 8 fbinfoLabels (bytesAt m a _) = _
    rw [copied]
    split
    next enough =>
      rw [List.take_of_length_le (by rw [length]; omega)]
      have fit : ∀ f ∈ fbinfoLabels.zip (fbinfoVals video), f.2 < 256 ^ 8 :=
        fun f member => small f.2 (List.of_mem_zip member).2
      have parsed := parseFields_encode fit []
      rw [List.append_nil] at parsed
      exact parsed
    next few =>
      apply parseFields_short
      rw [List.length_take, length]
      simp [fbinfoLabels]
      omega

end info

/-- A program reads the record of a display with two pixels. -/
theorem fbinfo_decodes_tinyDisplay : ∃ k r k', Mem.initKheap Mem.pmm.kmalloc Mem.smallMachineReady = .ok ((), k) ∧
    readFbinfoDevice Mem.pmm.kmalloc tinyDisplay 100 k = .ok (r, k') ∧
    parseFields 8 fbinfoLabels r.2 = some [2, 1, 8, 8] ∧ Mem.Heap Mem.pmm k' [] := by
  have check : Prog.returns (Mem.initKheap Mem.pmm.kmalloc) Mem.smallMachineReady (fun _ k =>
      Prog.returns (readFbinfoDevice Mem.pmm.kmalloc tinyDisplay 100) k fun _ _ => true) = true := by
    decide +kernel
  obtain ⟨_, k, started, check⟩ := Prog.returns_iff.mp check
  obtain ⟨r, k', read, _⟩ := Prog.returns_iff.mp check
  obtain ⟨ready, cells, rep⟩ := Mem.initKheap_ok Mem.smallMachineReady_ready
    (by simp [Mem.smallMachineReady, Mem.smallMachine]) started
  obtain ⟨_, _, heap, _, parsed⟩ := fbinfo_decodes ⟨ready, cells, rep⟩ (by decide) 100 read
  exact ⟨k, r, k', started, read, parsed, heap⟩

end PotatOS.Drivers
