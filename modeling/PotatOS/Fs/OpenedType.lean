import PotatOS.Fs.FileType

/-!
# When `open` reads the name it was given (`vfs.c`)

Whether the `File` takes over the pool of the path's copy follows from the rooms of
the heap before the call, and what its first fields do to the last component from
the path, the mode and the address of the inode.
-/

namespace PotatOS.Fs.Blocks

open Memory Prog
open Mem (PageAllocator HeapRep Cell TakenOver TakesOver)

/-! ### The name behind the fields -/

/-- The copy of the path with the first fields of a `File` over it; `behind` are the bytes after its terminator. -/
def fieldsOver (p : Name) (behind : Nat → UInt8) (mode : UInt8) (inode : Nat) : Nat → UInt8 :=
  headWritten (fun x => if x ≤ p.length then p.getD x 0 else behind x) 0 mode (p.getD 0 0) inode

/-- These bytes are the stream's name `last` with its terminator, or, where `last` is none, no stream's name. -/
structure Decides (bytes : Nat → UInt8) (last : Name) : Prop where
  kept : last ∈ streamNames → ∀ k ≤ last.length, bytes k = last.getD k 0
  other : last ∉ streamNames → ∀ name ∈ streamNames, ∃ k ≤ name.length, bytes k ≠ name.getD k 0

/-- The fields leave the type of the last component. -/
def FieldsSpare (p last : Name) (behind : Nat → UInt8) (mode : UInt8) (inode : Nat) : Prop :=
  Decides (fun k => fieldsOver p behind mode inode (p.length - last.length + k)) last

section names

variable {m : Mem} {a n k x y base inode newFile : Nat} {name last fname p : Name} {bytes : Nat → UInt8} {mode driveChar : UInt8}

theorem cString_bytes (read : cString m a n = some name) : ∀ k ≤ name.length, m (a + k) = name.getD k 0 := by
  induction n generalizing a name with
  | zero => cases read
  | succ n ih =>
    unfold cString at read
    split at read
    · rename_i zero
      obtain rfl := Option.some.inj read
      intro k inside
      obtain rfl : k = 0 := by simpa using inside
      exact zero
    · obtain ⟨rest, later, rfl⟩ := Option.map_eq_some_iff.mp read
      intro k inside
      cases k with
      | zero => rfl
      | succ k =>
        rw [show a + (k + 1) = a + 1 + k by omega, List.getD_cons_succ]
        exact ih later k (by simpa using inside)

theorem streamNames_noZero (stream : name ∈ streamNames) : 0 ∉ name ∧ name.length ≤ 6 := by
  simp only [streamNames, List.mem_cons, List.not_mem_nil, or_false] at stream
  rcases stream with rfl | rfl | rfl <;> decide

/-- The letters of a stream's name are lower case. -/
theorem streamNames_letter (stream : name ∈ streamNames) (inside : k < name.length) :
    97 ≤ name.getD k 0 ∧ name.getD k 0 ≤ 122 := by
  have letters : ∀ name ∈ streamNames, ∀ k < name.length, 97 ≤ name.getD k 0 ∧ name.getD k 0 ≤ 122 := by decide
  exact letters name stream k inside

theorem cString_stream_iff (read : cString m a (2 ^ 64) = some fname) (stream : name ∈ streamNames) :
    fname = name ↔ ∀ k ≤ name.length, m (a + k) = name.getD k 0 := by
  constructor
  · rintro rfl
    exact cString_bytes read
  · intro bytes
    obtain ⟨noZero, short⟩ := streamNames_noZero stream
    have whole : cString m a (2 ^ 64) = some name := by
      refine cString_run (fun i inside => ?_) ?_ noZero (by omega)
      · rw [bytes i inside.le, List.getD_eq_getElem _ _ inside]
      · rw [bytes _ le_rfl]
        simp
    exact Option.some.inj (read.symm.trans whole)

/-- The string that is read has the type of `last` exactly when its bytes decide so. -/
theorem checkFileType_read_iff (read : cString m a (2 ^ 64) = some fname) :
    checkFileType fname = checkFileType last ↔ Decides (fun k => m (a + k)) last := by
  rw [checkFileType_eq_iff]
  by_cases stream : last ∈ streamNames
  · rw [cString_stream_iff read stream]
    constructor
    · intro either
      exact ⟨fun _ => either.resolve_right fun neither => neither.2 stream, fun other => (other stream).elim⟩
    · intro decides
      exact .inl (decides.kept stream)
  · constructor
    · intro either
      have plain : fname ∉ streamNames := either.elim (fun same => by rwa [same]) And.left
      refine ⟨fun inside => (stream inside).elim, fun _ name listed => ?_⟩
      by_contra all
      push Not at all
      exact plain ((cString_stream_iff read listed).mpr all ▸ listed)
    · intro decides
      refine .inr ⟨fun listed => ?_, stream⟩
      obtain ⟨k, inside, differs⟩ := decides.other stream fname listed
      exact differs (cString_bytes read k inside)

theorem Decides.congr {bytes' : Nat → UInt8} (same : ∀ k, bytes k = bytes' k) (decides : Decides bytes last) :
    Decides bytes' last := by
  obtain rfl : bytes = bytes' := funext same
  exact decides

/-- Writing the fields at `base` is writing them at zero, seen from `base`. -/
theorem headWritten_shift : headWritten m base mode driveChar inode (base + x) =
    headWritten (fun y => m (base + y)) 0 mode driveChar inode x := by
  simp only [headWritten, store, writeBytes, InRange, Nat.zero_add, Nat.add_assoc, Nat.add_le_add_iff_left,
    Nat.add_lt_add_iff_left,
    Nat.add_sub_add_left, List.length_singleton]
  simp

/-- Bytes that no field takes. -/
def Untouched (x : Nat) : Prop := x ≠ 0 ∧ x ≠ 16 ∧ x ≠ 17 ∧ (x < 24 ∨ 32 ≤ x)

theorem headWritten_untouched (untouched : Untouched x) : headWritten m 0 mode driveChar inode x = m x := by
  unfold Untouched at untouched
  rw [headWritten, store_outside (by unfold InRange; omega), writeBytes_outside, writeBytes_outside, writeBytes_outside]
  all_goals
    unfold InRange
    simp only [List.length_singleton]
    omega

theorem headWritten_touched (touched : ¬ Untouched x) (m m' : Mem) :
    headWritten m 0 mode driveChar inode x = headWritten m' 0 mode driveChar inode x := by
  have field : x = 0 ∨ x = 16 ∨ x = 17 ∨ 24 ≤ x ∧ x < 32 := by
    unfold Untouched at touched
    omega
  rcases field with rfl | rfl | rfl | inside
  · rfl
  · rfl
  · rfl
  · have there : InRange (0 + 24) 8 x := by
      unfold InRange
      omega
    rw [headWritten, headWritten, store_inside there, store_inside there]

theorem fieldsOver_congr {behind behind' : Nat → UInt8} (there : x ≤ p.length ∨ ¬ Untouched x) :
    fieldsOver p behind mode inode x = fieldsOver p behind' mode inode x := by
  by_cases touched : Untouched x
  · have inside := there.resolve_right (not_not.mpr touched)
    rw [fieldsOver, fieldsOver, headWritten_untouched touched, headWritten_untouched touched, if_pos inside, if_pos inside]
  · exact headWritten_touched touched _ _

/-- The highest byte of an inode's address is no letter. -/
theorem fieldsOver_last {behind : Nat → UInt8} (lower : 2 ^ 63 ≤ inode) (upper : inode < 2 ^ 64) :
    128 ≤ fieldsOver p behind mode inode 31 := by
  have byte : fieldsOver p behind mode inode 31 = UInt8.ofNat (inode / 256 ^ 7) := rfl
  rw [byte, UInt8.le_iff_toNat_le, UInt8.toNat_ofNat', show UInt8.toNat 128 = 128 from rfl]
  omega

/-- The bytes behind the terminator count for nothing when the mode is no letter and the inode lies in the upper half. -/
theorem FieldsSpare.behind {behind behind' : Nat → UInt8} (spare : FieldsSpare p last behind mode inode)
    (short : last.length ≤ p.length)
    (long : 3 ≤ p.length) (drive : p.getD 0 0 ≤ 90) (modes : p.length = 17 → mode < 97) (lower : 2 ^ 63 ≤ inode)
    (upper : inode < 2 ^ 64) : FieldsSpare p last behind' mode inode := by
  refine ⟨fun stream k inside => ?_, fun plain name stream => ?_⟩
  · rw [← spare.kept stream k inside]
    exact fieldsOver_congr (.inl (by omega))
  obtain ⟨k, inside, differs⟩ := spare.other plain name stream
  by_contra all
  push Not at all
  by_cases there : p.length - last.length + k ≤ p.length ∨ ¬ Untouched (p.length - last.length + k)
  · have same : fieldsOver p behind mode inode (p.length - last.length + k) = fieldsOver p behind' mode inode _ :=
    fieldsOver_congr there
    exact differs (same.trans (all k inside))
  -- The name goes on behind the terminator, which is then a letter that a field put there.
  have letter : ∀ x, p.length ≤ x → x < p.length - last.length + k → 97 ≤ fieldsOver p behind' mode inode x ∧
      fieldsOver p behind' mode inode x ≤ 122 := by
    intro x lower upper
    have byte := all (x - (p.length - last.length)) (by omega)
    rw [Nat.add_sub_cancel' (by omega)] at byte
    rw [byte]
    exact streamNames_letter stream (by omega)
  have first := letter p.length le_rfl (by omega)
  by_cases untouched : Untouched p.length
  · rw [fieldsOver, headWritten_untouched untouched, if_pos le_rfl, List.getD_eq_default _ _ le_rfl] at first
    exact absurd first.1 (by decide)
  have field : p.length = 16 ∨ p.length = 17 ∨ 24 ≤ p.length ∧ p.length < 32 := by
    unfold Untouched at untouched
    omega
  rcases field with same | same | private'
  · rw [same] at first
    exact absurd (UInt8.le_trans first.1 drive) (by decide)
  · rw [same] at first
    exact absurd first.1 (UInt8.not_le.mpr (modes same))
  · have top := letter 31 (by omega) (by unfold Untouched at there; omega)
    have high : 128 ≤ fieldsOver p behind' mode inode 31 := fieldsOver_last lower upper
    exact absurd (UInt8.le_trans high top.2) (by decide)

end names

/-! ### The copy and the walk -/

/-- The pool of the copy `p` at `base`, with a byte for its terminator. -/
structure PoolOf (p : Name) (base : Nat) (cells : List Cell) (c : Cell) : Prop where
  member : c ∈ cells
  start : c.addr + 26 = base
  required : c.required = p.length + 26
  room : c.required ≤ c.size

section rooms

variable {A : PageAllocator} {p path name : Name} {base i j size q d currentObj file reached : Nat} {s t : Machine} {v w : Vfs}
  {flags : OpenFlags} {mode : UInt8} {cells : List Cell} {c : Cell} {fs : FileSystem} {r : Unit}

theorem Rests.writePool {m : Mem} (rests : Rests A cells s) (pool : PoolOf p base cells c)
    (outside : ∀ x, ¬ InRange base (p.length + 1) x → m x = s.kernel.mem x) :
    Rests A cells { s with kernel := s.kernel.setMem m } := by
  have sized := rests.rep.sized c pool.member
  have room := pool.room
  have rep := rests.rep.write_pool (b := (base, p.length)) pool.member pool.start pool.required pool.room outside
  have touched := rests.rep.touches rests.ready pool.member fun x far => outside x (by
    have start := pool.start
    have required := pool.required
    unfold InRange at *
    omega)
  exact ⟨touched.ready, rep⟩

theorem Rests.copyPath (rests : Rests A cells s) (small : p.length < 2 ^ 63) (odd : (p.length + 26) % 4096 ≠ 0)
    (run : copyPath A.kmalloc p s = .ok (base, t)) :
    ∃ front c back, Rests A (front ++ c :: back) t ∧ PoolOf p base (front ++ c :: back) c ∧ t.place = s.place ∧
      ∀ next, TakenOver p.length next (cells.map Cell.room) ↔ (∀ e ∈ front, ¬ e.Fits next) ∧ next + 26 < c.size := by
  unfold Blocks.copyPath at run
  obtain ⟨newPath, s₁, got, run⟩ := bind_ok run
  obtain ⟨⟨⟩, s₂, first, run⟩ := bind_ok run
  obtain ⟨⟨⟩, s₃, second, run⟩ := bind_ok run
  obtain ⟨rfl, rfl⟩ := pure_ok run
  obtain ⟨k, allocated, rfl⟩ := mallocBlock_ok got
  obtain ⟨front, c, back, rep, -, start, required, room, -, taken⟩ := rests.rep.malloc_rooms rests.ready small allocated
  have heap : Mem.Heap A s.kernel s.live := ⟨rests.ready, cells, rests.rep⟩
  have after : Rests A (front ++ c :: back) { s with kernel := k, live := (newPath, p.length) :: s.live } :=
    ⟨(heap.malloc small allocated).1.ready, rep⟩
  have pool : PoolOf p newPath (front ++ c :: back) c := ⟨by simp, start, required, room odd⟩
  obtain rfl := putBytes_ok first
  obtain rfl := putBytes_ok second
  have after := after.writePool pool (m := writeBytes k.mem newPath p) fun x far =>
    writeBytes_outside (by unfold InRange at *; omega)
  have after := after.writePool pool (m := writeBytes (writeBytes k.mem newPath p) (newPath + p.length) [0]) fun x far =>
    writeBytes_outside (by unfold InRange at *; simp only [List.length_singleton]; omega)
  exact ⟨front, c, back, after, pool, rfl, taken⟩

theorem Rests.cutComponent {isDir : Bool} (rests : Rests A cells s) (pool : PoolOf p base cells c) (copied : Copied A p base i s)
    (noZero : 0 ∉ p) (upper : i ≤ p.length) (small : p.length < 2 ^ 64)
    (run : cutComponent (base + i) s = .ok ((name, isDir), t)) :
    Rests A cells t ∧ t.place = s.place := by
  have fits := (component_end p upper).1
  rw [← (copied.cutComponent noZero upper small run).1] at fits
  unfold Blocks.cutComponent at run
  rw [bind_eq run_get] at run
  cases read : nameFrom s.kernel.mem (2 ^ 64) (base + i) with
  | none =>
    rw [read] at run
    exact (stop_ok run).elim
  | some found =>
    rw [read] at run
    obtain ⟨⟨⟩, s₁, put, run⟩ := bind_ok run
    obtain ⟨same, rfl⟩ := pure_ok run
    obtain rfl := (Prod.mk.inj same).1
    obtain rfl := putBytes_ok put
    refine ⟨rests.writePool pool fun x far => writeBytes_outside ?_, rfl⟩
    unfold InRange at *
    simp only [List.length_singleton]
    omega

/-! ### Files that are there -/

theorem call_same {α : Type} {x : TempFsM α} {a : α} (keeps : ∀ {u u' a}, x u = .ok (a, u') → u' = u)
    (run : fs.call x v = .ok (a, w)) : w = v := by
  cases fs with
  | null => cases run
  | tempFs =>
    obtain ⟨u, ran, rfl⟩ := call_ok run
    rw [keeps ran]

theorem onVfs_same {α : Type} {x : VfsM α} {a : α} (there : x s.vfs = .ok (a, s.vfs)) {b : α} (run : onVfs x s = .ok (b, t)) :
    b = a ∧ t = s := by
  obtain ⟨v, ran, rfl⟩ := onVfs_ok run
  obtain ⟨rfl, rfl⟩ := Prod.mk.inj (Except.ok.inj (ran.symm.trans there))
  exact ⟨rfl, rfl⟩

theorem found_there (there :
    (do let b ← fs.call (tempfsFind currentObj name); if b = 0 then pure none else pure (some b)) v = .ok (some d, w)) :
    w = v ∧ (fs.call (tempfsFind currentObj name)) v = .ok (d, v) ∧ d ≠ 0 := by
  obtain ⟨b, v₁, found, rest⟩ := bind_ok there
  obtain rfl : v₁ = v := call_same (fun run => (tempfsFind_ok run).1) found
  by_cases null : b = 0
  · rw [if_pos null] at rest
    cases rest
  · rw [if_neg null] at rest
    obtain ⟨same, rfl⟩ := pure_ok rest
    obtain rfl := Option.some.inj same
    exact ⟨rfl, found, null⟩

theorem findDir_there (there : Fs.findDir fs {} currentObj name v = .ok (some d, w)) :
    w = v ∧ (fs.call (tempfsFind currentObj name)) v = .ok (d, v) ∧ d ≠ 0 := found_there there

theorem findFile_there (there : Fs.findFile fs {} currentObj name v = .ok (some d, w)) :
    w = v ∧ (fs.call (tempfsFind currentObj name)) v = .ok (d, v) ∧ d ≠ 0 := found_there there

/-- What is there is not made, whatever the flags are. -/
theorem found_any {make : VfsM (Option Nat)} (found : (fs.call (tempfsFind currentObj name)) v = .ok (d, v)) (nonnull : d ≠ 0) :
    (do let b ← fs.call (tempfsFind currentObj name); if b = 0 then make else pure (some b)) v = .ok (some d, v) := by
  rw [bind_eq found, if_neg nonnull]
  rfl

/-- A walk that ends without a flag takes the same way with any. -/
theorem openSteps_there {comps : List Name} {e : Nat × Name} (there : openSteps fs {} mode comps currentObj v = .ok (some e, w)) :
    openSteps fs flags mode comps currentObj v = .ok (some e, w) := by
  induction comps generalizing currentObj v with
  | nil => exact there
  | cons name comps ih =>
    by_cases last : comps = []
    · subst last
      unfold openSteps at there ⊢
      split at there
      · rename_i empty
        rw [if_pos empty]
        exact there
      · rename_i filled
        rw [if_neg filled]
        obtain ⟨found, v₁, find, rest⟩ := bind_ok there
        cases found with
        | none => cases rest
        | some file =>
          obtain ⟨rfl, there, nonnull⟩ := findFile_there find
          exact (bind_eq (found_any there nonnull)).trans rest
    · rw [openSteps_cons last] at there ⊢
      obtain ⟨found, v₁, find, rest⟩ := bind_ok there
      cases found with
      | none => cases rest
      | some dir =>
        obtain ⟨rfl, there, nonnull⟩ := findDir_there find
        obtain ⟨next, v₂, opened, rest⟩ := bind_ok rest
        exact (bind_eq (found_any there nonnull)).trans ((bind_eq opened).trans (ih rest))

/-- Opening a file changes the file system only where it takes a block. -/
theorem openFile_cases (opened : fs.call (tempfsOpenFile file mode) v = .ok (reached, w)) :
    takesPrivate v file mode = true ∧ w.tempFs.used = v.tempFs.used + 1 ∨ takesPrivate v file mode = false ∧ w = v := by
  cases fs with
  | null => cases opened
  | tempFs =>
    obtain ⟨u, ran, rfl⟩ := call_ok opened
    unfold takesPrivate
    unfold tempfsOpenFile at ran
    by_cases null : file = 0
    · subst null
      cases ran
    rw [bind_eq (inode_run null)] at ran
    by_cases device : (v.tempFs.inodes file).type = filetypeDevice
    · rw [if_pos device] at ran
      cases operation : (v.tempFs.inodes file).operations.openOp with
      | none =>
        rw [operation] at ran
        cases ran
      | some opens =>
        rw [operation] at ran
        by_cases takes : opens mode = true
        · simp only [takes, if_true] at ran
          rw [bind_eq (run_modify _)] at ran
          obtain ⟨-, rfl⟩ := pure_ok ran
          exact .inl ⟨by simp [device, takes], rfl⟩
        · simp only [takes] at ran
          obtain ⟨-, rfl⟩ := pure_ok ran
          exact .inr ⟨by simp [takes], rfl⟩
    · rw [if_neg device] at ran
      refine .inr ⟨by simp [device], ?_⟩
      split at ran
      · obtain ⟨-, rfl⟩ := pure_ok ran
        rfl
      · obtain ⟨-, rfl⟩ := pure_ok ran
        rfl

theorem found_rests {make : MachineM (Option Nat)} {o : Option Nat}
    (found : (fs.call (tempfsFind currentObj name)) s.vfs = .ok (d, s.vfs)) (nonnull : d ≠ 0)
    (run : (do let b ← onVfs (fs.call (tempfsFind currentObj name)); if b = 0 then make else pure (some b)) s = .ok (o, t)) :
    o = some d ∧ t = s := by
  obtain ⟨b, s₁, find, rest⟩ := bind_ok run
  obtain ⟨rfl, rfl⟩ := onVfs_same found find
  rw [if_neg nonnull] at rest
  obtain ⟨rfl, rfl⟩ := pure_ok rest
  exact ⟨rfl, rfl⟩

theorem openFile_rests {o : Nat} (there : fs.call (tempfsOpenFile file mode) s.vfs = .ok (reached, s.vfs))
    (run : openFile A.kmalloc fs file mode s = .ok (o, t)) : o = reached ∧ t = s := by
  unfold openFile at run
  have plain : takesPrivate s.vfs file mode = false :=
    (openFile_cases there).elim (fun takes => absurd takes.2 (by omega)) And.left
  rw [bind_eq run_get, plain, if_neg (by decide)] at run
  exact onVfs_same there run

/-- A walk that finds everything writes into the copy only. -/
theorem OpenRounds.rests {e : Nat × Name} {o : Option (Nat × Nat)}
    (rounds : OpenRounds A fs flags mode p base i currentObj s o t)
    (rests : Rests A cells s) (pool : PoolOf p base cells c) (noZero : 0 ∉ p) (small : p.length < 2 ^ 64)
    (there : openSteps fs {} mode ((p.drop i).splitOn slash) currentObj s.vfs = .ok (some e, s.vfs)) :
    Rests A cells t ∧ t.place = s.place := by
  induction rounds with
  | ends => exact ⟨rests, rfl⟩
  | noFile cut search =>
    rw [← cut.vfs, cut.last.2, openSteps, if_neg cut.filled, ← cut.last.1] at there
    obtain ⟨found, v, finds, rest⟩ := bind_ok there
    cases found with
    | none => cases rest
    | some file =>
      obtain ⟨rfl, there, nonnull⟩ := findFile_there finds
      cases (found_rests there nonnull search).1
  | file cut search opens =>
    rw [← cut.vfs, cut.last.2, openSteps, if_neg cut.filled, ← cut.last.1] at there
    obtain ⟨found, v, finds, rest⟩ := bind_ok there
    cases found with
    | none => cases rest
    | some file =>
      obtain ⟨rfl, there, nonnull⟩ := findFile_there finds
      obtain ⟨reached, w, reaches, rest⟩ := bind_ok rest
      obtain ⟨-, rfl⟩ := pure_ok rest
      obtain ⟨same, rfl⟩ := found_rests there nonnull search
      obtain rfl := Option.some.inj same
      obtain ⟨-, rfl⟩ := openFile_rests reaches opens
      exact rests.cutComponent pool cut.before noZero cut.upper small cut.run
  | noDir cut search =>
    rw [← cut.vfs, cut.inner, openSteps_cons (List.splitOn_ne_nil slash _)] at there
    obtain ⟨found, v, finds, rest⟩ := bind_ok there
    cases found with
    | none => cases rest
    | some dir =>
      obtain ⟨rfl, there, nonnull⟩ := findDir_there finds
      cases (found_rests there nonnull search).1
  | dir cut search opens later ih =>
    rw [← cut.vfs, cut.inner, openSteps_cons (List.splitOn_ne_nil slash _)] at there
    obtain ⟨found, v, finds, rest⟩ := bind_ok there
    cases found with
    | none => cases rest
    | some dir =>
      obtain ⟨rfl, there, nonnull⟩ := findDir_there finds
      obtain ⟨next, w, reaches, rest⟩ := bind_ok rest
      obtain rfl := call_same (fun run => (tempfsOpenDir_ok run).1) reaches
      obtain ⟨same, rfl⟩ := found_rests there nonnull search
      obtain rfl := Option.some.inj same
      obtain ⟨rfl, rfl⟩ := onVfs_same reaches opens
      obtain ⟨after, place⟩ := rests.cutComponent pool cut.before noZero cut.upper small cut.run
      obtain ⟨last, same⟩ := ih after rest
      exact ⟨last, same.trans place⟩

/-- What `open` goes through when it finds a file. -/
theorem vfsOpen_there {f : File} (there : Fs.vfsOpen path {} mode v = .ok (some f, w)) :
    isDriveLetter (driveOf v path) = true ∧ (v.drives (driveNum (driveOf v path))).present = true ∧ ∃ root currentObj e,
      (v.drives (driveNum (driveOf v path))).fs.call (tempfsFindRoot (v.drives (driveNum (driveOf v path))).memOffset) v =
        .ok (root, v) ∧
      (v.drives (driveNum (driveOf v path))).fs.call (tempfsOpenDir root) v = .ok (currentObj, v) ∧
      openSteps (v.drives (driveNum (driveOf v path))).fs {} mode (componentsOf v path) currentObj v = .ok (some e, w) ∧
      f = ⟨mode, driveOf v path, e.1, checkFileType e.2⟩ := by
  unfold Fs.vfsOpen at there
  rw [bind_eq run_get] at there
  change (if ¬ isDriveLetter (driveOf v path) = true then _ else _ : VfsM (Option File)) v = _ at there
  split at there
  · cases (pure_ok there).1
  rename_i letter
  rw [bind_eq run_get] at there
  change (if ¬ (v.drives (driveNum (driveOf v path))).present = true then _ else _ : VfsM (Option File)) v = _ at there
  split at there
  · cases (pure_ok there).1
  rename_i present
  obtain ⟨root, v₁, found, there⟩ := bind_ok there
  obtain rfl : v₁ = v := call_same (fun run => (pure_ok run).2.symm) found
  obtain ⟨currentObj, v₂, opened, there⟩ := bind_ok there
  obtain rfl : v₂ = v₁ := call_same (fun run => (tempfsOpenDir_ok run).1) opened
  rw [openWalk_eq (by simp)] at there
  obtain ⟨walked, v₃, steps, there⟩ := bind_ok there
  refine ⟨not_not.mp letter, not_not.mp present, root, currentObj, ?_⟩
  cases walked with
  | none => cases (pure_ok there).1
  | some e =>
    obtain ⟨same, rfl⟩ := pure_ok there
    exact ⟨e, found, opened, steps, (Option.some.inj same).symm⟩

theorem vfsOpen_any {f : File} (there : Fs.vfsOpen path {} mode v = .ok (some f, w)) :
    Fs.vfsOpen path flags mode v = .ok (some f, w) := by
  obtain ⟨letter, present, root, currentObj, e, found, opened, steps, rfl⟩ := vfsOpen_there there
  unfold driveOf at *
  unfold componentsOf at steps
  unfold Fs.vfsOpen
  rw [bind_eq run_get]
  rw [if_neg (not_not.mpr letter), bind_eq run_get]
  rw [if_neg (not_not.mpr present), bind_eq found, bind_eq opened, openWalk_eq (by simp)]
  exact bind_eq (openSteps_there steps)

/-- `open` of a file that is there leaves the inodes where they lie, and the `File` takes over the pool of the copy
exactly when the rooms say so. -/
theorem Rests.resolve {beyond : Nat → UInt8} {r : Resolved} {f : File} (rests : Rests A cells s)
    (copyable : Copyable (absolutePath s.vfs.currentDir path)) (there : Fs.vfsOpen path {} mode s.vfs = .ok (some f, s.vfs))
    (run : resolve A.kmalloc beyond path flags mode s = .ok (some r, t)) : t.place = s.place ∧ r.reached = f.privateData ∧
      (TakesOver t.kernel t.live r.base sizeofFile ↔ TakenOver (absolutePath s.vfs.currentDir path).length sizeofFile
        (roomsForCopy path (absolutePath s.vfs.currentDir path) (cells.map Cell.room))) := by
  have heap : Mem.Heap A s.kernel s.live := ⟨rests.ready, cells, rests.rep⟩
  have mirrored := (resolve_mirrors heap copyable run).1
  rw [vfsOpen_any there] at mirrored
  have file := (Prod.mk.inj (Except.ok.inj mirrored)).1
  have reached : r.reached = f.privateData := congrArg (fun f => (f.map File.privateData).getD 0) file.symm
  obtain ⟨letter, present, root, currentObj, e, found, opened, steps, -⟩ := vfsOpen_there there
  unfold driveOf at letter present found opened steps
  unfold componentsOf at steps
  unfold Blocks.resolve at run
  obtain ⟨p, s₁, extended, run₁⟩ := bind_ok run
  obtain ⟨cells₁, rests₁, rooms, place₁⟩ := rests.extendPath copyable.small extended
  obtain ⟨rfl, vfs₁, -, -⟩ := extendPath_ok extended
  have heap₁ : Mem.Heap A s₁.kernel s₁.live := ⟨rests₁.ready, cells₁, rests₁.rep⟩
  generalize absolutePath s.vfs.currentDir path = p at *
  have small : p.length < 2 ^ 62 := copyable.small
  dsimp only at run₁
  rw [if_neg (not_not.mpr letter)] at run₁
  obtain ⟨base, s₂, copied, run₂⟩ := bind_ok run₁
  have whole := copyPath_copied heap₁ (by omega) copyable.odd copied
  have vfs₂ := (copyPath_ok copied).1.trans vfs₁
  obtain ⟨front, c, back, rests₂, pool, place₂, taken⟩ := rests₁.copyPath (by omega) copyable.odd copied
  rw [bind_eq run_get, vfs₂] at run₂
  generalize s.vfs.drives (driveNum (p.getD 0 0)) = drive at *
  rw [if_neg (not_not.mpr present)] at run₂
  rw [← vfs₂] at found opened steps
  obtain ⟨_, s₃, finds, run₃⟩ := bind_ok run₂
  obtain ⟨rfl, rfl⟩ := onVfs_same found finds
  obtain ⟨_, s₄, opens, run₄⟩ := bind_ok run₃
  obtain ⟨rfl, rfl⟩ := onVfs_same opened opens
  obtain ⟨walked, s₅, walk, run₅⟩ := bind_ok run₄
  have rounds := (whole.mono (Nat.zero_le 3)).openRounds copyable.noZero (by omega) copyable.long walk
  obtain ⟨rests₅, place₅⟩ := rounds.rests rests₂ pool copyable.noZero (by omega) steps
  cases walked with
  | none => cases (pure_ok run₅).1
  | some o =>
    obtain ⟨same, rfl⟩ := pure_ok run₅
    obtain rfl := Option.some.inj same
    refine ⟨by rw [place₅, place₂, place₁], reached, ?_⟩
    have takes : TakesOver s₅.kernel s₅.live (c.addr + 26) sizeofFile ↔ _ := rests₅.rep.takesOver_iff
    rw [pool.start] at takes
    rw [takes, ← taken, rooms]

/-- The `File` in the pool of the copy has the right type exactly when its fields leave it. -/
theorem Copied.type_over_iff {r : Resolved} {f : File} (copied : Copied A p r.base r.i s) (upper : r.i ≤ p.length)
    (drive : r.driveChar = p.getD 0 0) (takes : TakesOver s.kernel s.live r.base sizeofFile)
    (run : finishOpen A.kmalloc mode r s = .ok (f, t)) : f.ftype = checkFileType (p.drop r.i) ↔
      FieldsSpare p (p.drop r.i) (fun x => s.kernel.mem (r.base + x)) mode (s.place r.reached) := by
  obtain ⟨fname, read, same⟩ := copied.type_over takes run
  rw [same, checkFileType_read_iff read, FieldsSpare, List.length_drop, Nat.sub_sub_self upper, drive]
  have bytes : ∀ k, headWritten s.kernel.mem r.base mode (p.getD 0 0) (s.place r.reached) (r.base + r.i + k) =
      fieldsOver p (fun x => s.kernel.mem (r.base + x)) mode (s.place r.reached) (r.i + k) := by
    intro k
    rw [Nat.add_assoc, headWritten_shift, fieldsOver]
    by_cases untouched : Untouched (r.i + k)
    · rw [headWritten_untouched untouched, headWritten_untouched untouched]
      split
      · rename_i inside
        exact copied.bytes _ (by omega) inside
      · rfl
    · exact headWritten_touched untouched _ _
  exact ⟨.congr bytes, .congr fun k => (bytes k).symm⟩

end rooms

/-- A new heap, and drive `R` with the file `stdout`. -/
def withStdout : MachineM Unit := do
  onHeap (Mem.initKheap Mem.pmm.kmalloc)
  let _ ← mountNew Mem.pmm.kmalloc 82
  makeFile Mem.pmm.kmalloc .tempFs ((← get).vfs.drives 17).memOffset stdoutName

theorem newObjects_heap {A : PageAllocator} {s t : Machine} {sizes : List Nat} {r : Unit} (heap : Mem.Heap A s.kernel s.live)
    (small : ∀ size ∈ sizes, size < 2 ^ 63) (run : newObjects A.kmalloc sizes s = .ok (r, t)) : Mem.Heap A t.kernel t.live := by
  unfold newObjects at run
  rw [bind_eq run_get] at run
  generalize s.vfs.tempFs.used + 1 = first at run
  induction sizes generalizing first s with
  | nil =>
    obtain ⟨-, rfl⟩ := pure_ok run
    exact heap
  | cons size rest ih =>
    obtain ⟨q, s₁, got, run⟩ := bind_ok run
    rw [bind_eq (run_modify _)] at run
    obtain ⟨head, tail⟩ := List.forall_mem_cons.mp small
    have placed : Mem.Heap A { s₁ with place := Function.update s₁.place first q }.kernel s₁.live :=
      (mallocBlock_heap heap head got).1
    exact ih placed tail _ run

theorem withStdout_heap {s t : Machine} {r : Unit} (ready : Mem.pmm.Ready s.kernel) (new : s.kernel.granted = [])
    (none : s.live = []) (run : withStdout s = .ok (r, t)) : Mem.Heap Mem.pmm t.kernel t.live := by
  obtain ⟨⟨⟩, s₁, step, run⟩ := bind_ok run
  obtain ⟨k, started, rfl⟩ := onHeap_ok step
  have heap : Mem.Heap Mem.pmm k s.live := by
    obtain ⟨ready, rep⟩ := Mem.initKheap_ok ready (by simp [new]) started
    rw [none]
    exact ⟨ready, rep⟩
  obtain ⟨status, s₂, mounts, run⟩ := bind_ok run
  obtain ⟨⟨⟩, s₃, blocks, mounts⟩ := bind_ok mounts
  have heap := newObjects_heap (s := { s with kernel := k }) heap (by decide) blocks
  obtain ⟨v, -, rfl⟩ := onVfs_ok mounts
  rw [bind_eq run_get] at run
  obtain ⟨⟨⟩, s₄, blocks', makes⟩ := bind_ok run
  have heap := newObjects_heap (s := { s₃ with vfs := v }) heap (by decide) blocks'
  obtain ⟨v', -, rfl⟩ := onVfs_ok makes
  exact heap

/-- A walk that finds its file and takes no memory leaves the file system as it is. -/
theorem openSteps_same {fs : FileSystem} {comps : List Name} {mode : UInt8} {currentObj : Nat} {v w : Vfs} {e : Nat × Name}
    (there : openSteps fs {} mode comps currentObj v = .ok (some e, w)) (used : w.tempFs.used = v.tempFs.used) : w = v := by
  induction comps generalizing currentObj v with
  | nil => exact (pure_ok there).2.symm
  | cons name comps ih =>
    by_cases last : comps = []
    · subst last
      unfold openSteps at there
      split at there
      · exact (pure_ok there).2.symm
      · obtain ⟨found, v₁, find, rest⟩ := bind_ok there
        cases found with
        | none => cases rest
        | some file =>
          obtain ⟨rfl, -, -⟩ := findFile_there find
          obtain ⟨reached, v₂, opened, rest⟩ := bind_ok rest
          obtain ⟨-, rfl⟩ := pure_ok rest
          exact (openFile_cases opened).elim (fun takes => absurd (takes.2.symm.trans used) (by omega)) And.right
    · rw [openSteps_cons last] at there
      obtain ⟨found, v₁, find, rest⟩ := bind_ok there
      cases found with
      | none => cases rest
      | some dir =>
        obtain ⟨rfl, -, -⟩ := findDir_there find
        obtain ⟨next, v₂, opened, later⟩ := bind_ok rest
        obtain rfl : v₂ = v₁ := call_same (fun run => (tempfsOpenDir_ok run).1) opened
        exact ih later used

/-- The small machine with its direct map in the upper half. -/
def upperKernel : Kernel :=
  { Mem.smallMachineReady with mem := fill Mem.smallMachine.mem (2 ^ 64 - 2 ^ 47) (64 * 4096) 0, hhdm := 2 ^ 64 - 2 ^ 47 }

theorem upperKernel_ready : Mem.pmm.Ready upperKernel := by
  have run : Mem.initPMM { Mem.smallMachine with hhdm := 2 ^ 64 - 2 ^ 47 } = .ok ((), upperKernel) := rfl
  have map : Mem.WellFormedMap { Mem.smallMachine with hhdm := 2 ^ 64 - 2 ^ 47 }.memmap := Mem.smallMachine_map
  refine ⟨Mem.PmmInv.of_initPMM map rfl rfl run, ?_⟩
  simp [Mem.DirectMapped, upperKernel, Mem.smallMachineReady, Mem.smallMachine]

def upperMachine : Machine := { startMachine with kernel := upperKernel }

/-- `R:/stdout` -/
def stdoutPath : Name := [82, 58, 47] ++ stdoutName

/-- `R:/aaaaaaaa/stdout` -/
def deepPath : Name := [82, 58, 47] ++ List.replicate 8 97 ++ [slash] ++ stdoutName

/-- A new heap, and drive `R` with that file, closed but not given back. -/
def withDeepStdout : MachineM Unit := do
  onHeap (Mem.initKheap Mem.pmm.kmalloc)
  let _ ← mountNew Mem.pmm.kmalloc 82
  let _ ← vfsOpen Mem.pmm.kmalloc (fun _ => 0) deepPath oCreatAll 3

end PotatOS.Fs.Blocks
