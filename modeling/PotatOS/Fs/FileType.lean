import PotatOS.Fs.Balance
import PotatOS.Fs.Rejects
import PotatOS.Mem.KheapRooms

/-!
# The type of an opened file (`vfs.c`)

`open` reads the name that decides the type out of a block it has already freed.
The name is still there unless the new `File` takes over the pool of that block;
then the fields that were written first stand in it.
-/

namespace PotatOS.Fs.Blocks

open Memory Prog
open Mem (PageAllocator HeapRep Cell Room Slack TakesOver served)

/-- The heap is sound, and the copy of `p` at `base` is as it was from byte `i` on, with its terminator. -/
structure Copied (A : PageAllocator) (p : Name) (base i : Nat) (s : Machine) : Prop where
  heap : Mem.Heap A s.kernel s.live
  member : (base, p.length) ∈ s.live
  slack : Slack s.kernel s.live (base, p.length)
  bytes : ∀ j, i ≤ j → j ≤ p.length → s.kernel.mem (base + j) = p.getD j 0

/-- The rooms in which `malloc` looks for the copy `p` of the path. -/
def roomsForCopy (path p : Name) (rooms : List Room) : List Room :=
  if NotAbsolute path then served (p.length + 1) rooms else rooms

/-- The heap is sound, and consists of these cells. -/
structure Rests (A : PageAllocator) (cells : List Cell) (s : Machine) : Prop where
  ready : A.Ready s.kernel
  rep : HeapRep s.kernel s.live cells

/-- `x` does to the file system what `y` does, and keeps `I`. -/
def Mirrors {α : Type} (I : Machine → Prop) (x : MachineM α) (y : VfsM α) : Prop :=
  ∀ s a t, I s → x s = .ok (a, t) → I t ∧ y s.vfs = .ok (a, t.vfs)

section mirrors

variable {α β : Type} {I : Machine → Prop} {x : MachineM α} {y : VfsM α}

theorem Mirrors.pure (a : α) : Mirrors I (pure a) (pure a) := by
  intro s b t inv run
  obtain ⟨rfl, rfl⟩ := pure_ok run
  exact ⟨inv, rfl⟩

theorem Mirrors.bind {f : α → MachineM β} {g : α → VfsM β} (first : Mirrors I x y) (rest : ∀ a, Mirrors I (f a) (g a)) :
    Mirrors I (x >>= f) (y >>= g) := by
  intro s b u inv run
  obtain ⟨a, t, step, run⟩ := bind_ok run
  obtain ⟨between, same⟩ := first s a t inv step
  obtain ⟨after, same'⟩ := rest a t b u between run
  exact ⟨after, (bind_eq same).trans same'⟩

/-- A first step that does nothing to the file system. -/
theorem Mirrors.quiet {f : α → MachineM β} {y : VfsM β} (first : ∀ s a t, I s → x s = .ok (a, t) → I t ∧ t.vfs = s.vfs)
    (rest : ∀ a, Mirrors I (f a) y) : Mirrors I (x >>= f) y := by
  intro s b u inv run
  obtain ⟨a, t, step, run⟩ := bind_ok run
  obtain ⟨between, same⟩ := first s a t inv step
  obtain ⟨after, same'⟩ := rest a t b u between run
  rw [same] at same'
  exact ⟨after, same'⟩

theorem Mirrors.get {f : Machine → MachineM β} {y : VfsM β} (rest : ∀ s, Mirrors I (f s) y) : Mirrors I (get >>= f) y := by
  refine .quiet (fun s a t inv run => ?_) rest
  obtain ⟨-, rfl⟩ := get_ok run
  exact ⟨inv, rfl⟩

theorem Mirrors.ite {c : Prop} [Decidable c] {x' : MachineM α} {y' : VfsM α} (yes : Mirrors I x y) (no : Mirrors I x' y') :
    Mirrors I (if c then x else x') (if c then y else y') := by
  split
  · exact yes
  · exact no

end mirrors

section copied

variable {A : PageAllocator} {p : Name} {base i : Nat} {s t : Machine} {flags : OpenFlags} {mode : UInt8}
  {cells : List Cell}

theorem Copied.onVfs {α : Type} (x : VfsM α) : Mirrors (Copied A p base i) (onVfs x) x := by
  intro s a t copied run
  obtain ⟨v, same, rfl⟩ := onVfs_ok run
  exact ⟨⟨copied.heap, copied.member, copied.slack, copied.bytes⟩, same⟩

theorem Copied.mallocBlock {size q : Nat} (copied : Copied A p base i s) (small : size < 2 ^ 63)
    (run : mallocBlock A.kmalloc size s = .ok (q, t)) : Copied A p base i t ∧ t.vfs = s.vfs := by
  obtain ⟨k, got, rfl⟩ := mallocBlock_ok run
  obtain ⟨slack, spares⟩ := copied.slack.malloc copied.heap.ready small got
  refine ⟨⟨(copied.heap.malloc small got).1, List.mem_cons_of_mem _ copied.member, slack, fun j lower upper => ?_⟩, rfl⟩
  rw [(spares (base + j) (by dsimp only; omega) (by dsimp only; omega)).1, copied.bytes j lower upper]

theorem Copied.placeObjects {first : Nat} {sizes : List Nat} {r : Unit} (copied : Copied A p base i s)
    (small : ∀ size ∈ sizes, size < 2 ^ 63) (run : placeObjects A.kmalloc first sizes s = .ok (r, t)) :
    Copied A p base i t ∧ t.vfs = s.vfs := by
  induction sizes generalizing first s with
  | nil =>
    obtain ⟨-, rfl⟩ := pure_ok run
    exact ⟨copied, rfl⟩
  | cons size rest ih =>
    obtain ⟨q, s₁, got, run⟩ := bind_ok run
    rw [bind_eq (run_modify _)] at run
    obtain ⟨head, tail⟩ := List.forall_mem_cons.mp small
    obtain ⟨after, same⟩ := copied.mallocBlock head got
    have placed : Copied A p base i { s₁ with place := Function.update s₁.place first q } :=
      ⟨after.heap, after.member, after.slack, after.bytes⟩
    obtain ⟨last, same'⟩ := ih placed tail run
    exact ⟨last, same'.trans same⟩

theorem Copied.newObjects {sizes : List Nat} (small : ∀ size ∈ sizes, size < 2 ^ 63) (s : Machine) (r : Unit) (t : Machine)
    (copied : Copied A p base i s) (run : newObjects A.kmalloc sizes s = .ok (r, t)) : Copied A p base i t ∧ t.vfs = s.vfs := by
  unfold Blocks.newObjects at run
  rw [bind_eq run_get] at run
  exact copied.placeObjects small run

theorem Copied.findDir (fs : FileSystem) (currentObj : Nat) (name : Name) :
    Mirrors (Copied A p base i) (findDir A.kmalloc fs flags currentObj name) (Fs.findDir fs flags currentObj name) := by
  refine (Copied.onVfs _).bind fun thisDir => .ite (.ite ?_ (.pure _)) (.pure _)
  refine Mirrors.bind ?_ fun _ => (Copied.onVfs _).bind fun _ => .pure _
  exact .quiet (Copied.newObjects (by decide)) fun _ => Copied.onVfs _

theorem Copied.findFile (fs : FileSystem) (currentObj : Nat) (name : Name) :
    Mirrors (Copied A p base i) (findFile A.kmalloc fs flags currentObj name) (Fs.findFile fs flags currentObj name) := by
  refine (Copied.onVfs _).bind fun thisFile => .ite (.ite ?_ (.pure _)) (.pure _)
  refine Mirrors.bind ?_ fun _ => (Copied.onVfs _).bind fun _ => .pure _
  exact .quiet (Copied.newObjects (by decide)) fun _ => Copied.onVfs _

theorem Copied.openFile (fs : FileSystem) (file : Nat) :
    Mirrors (Copied A p base i) (openFile A.kmalloc fs file mode) (fs.call (tempfsOpenFile file mode)) := by
  refine .get fun s => ?_
  split
  · exact .quiet (Copied.newObjects (by decide)) fun _ => Copied.onVfs _
  · exact Copied.onVfs _

/-- A zero in the copy, behind which, or on whose zero, reading goes on. -/
theorem Copied.putZero {j i' : Nat} {r : Unit} (copied : Copied A p base i s) (inside : j ≤ p.length) (more : i ≤ i')
    (behind : j < i' ∨ p.getD j 0 = 0) (run : putBytes (base + j) [0] s = .ok (r, t)) :
    Copied A p base i' t ∧ t.vfs = s.vfs := by
  obtain rfl := putBytes_ok run
  have outside : ∀ x, ¬ InRange (base, p.length).1 ((base, p.length).2 + 1) x →
      writeBytes s.kernel.mem (base + j) [0] x = s.kernel.mem x := fun x far =>
    writeBytes_outside (by unfold InRange at *; simp only [List.length_singleton]; omega)
  obtain ⟨slack, heap⟩ := copied.slack.write copied.heap.ready outside
  refine ⟨⟨heap, copied.member, slack, fun l lower upper => ?_⟩, rfl⟩
  by_cases here : l = j
  · subst here
    have zero := behind.resolve_left (by omega)
    show writeBytes s.kernel.mem (base + l) [0] (base + l) = _
    rw [writeBytes_inside (by simp [InRange]), zero]
    simp
  · show writeBytes s.kernel.mem (base + j) [0] (base + l) = _
    rw [writeBytes_outside (by unfold InRange; simp only [List.length_singleton]; omega), copied.bytes l (by omega) upper]

theorem getD_drop (p : Name) (i k : Nat) : p.getD (i + k) 0 = (p.drop i).getD k 0 := by
  simp [List.getD_eq_getElem?_getD]

/-- The byte behind the next component, and whether it is a `/`. -/
theorem component_end (p : Name) (upper : i ≤ p.length) :
    i + (firstComponent (p.drop i)).length ≤ p.length ∧
      (isDirComponent (p.drop i) = true ∧ p.getD (i + (firstComponent (p.drop i)).length) 0 = slash ∧
          i + (firstComponent (p.drop i)).length < p.length ∨
        isDirComponent (p.drop i) = false ∧ i + (firstComponent (p.drop i)).length = p.length ∧
          p.getD (i + (firstComponent (p.drop i)).length) 0 = 0) := by
  have long : (p.drop i).length = p.length - i := List.length_drop
  rcases splitOn_cases (p.drop i) with ⟨last, same, -⟩ | ⟨inner, -⟩
  · rw [same, long]
    refine ⟨by omega, .inr ⟨last, by omega, ?_⟩⟩
    rw [Nat.add_sub_cancel' upper]
    simp
  · have stops : (p.drop i)[(firstComponent (p.drop i)).length]? = some slash := by simpa [isDirComponent] using inner
    have inside := (List.getElem?_eq_some_iff.mp stops).1
    refine ⟨by omega, .inl ⟨inner, ?_, by omega⟩⟩
    rw [getD_drop, List.getD_eq_getElem?_getD, stops]
    rfl

/-- A round reads the name that stands in the path there. -/
theorem Copied.cutComponent {name : Name} {isDir : Bool} (copied : Copied A p base i s) (noZero : 0 ∉ p) (upper : i ≤ p.length)
    (small : p.length < 2 ^ 64) (run : cutComponent (base + i) s = .ok ((name, isDir), t)) :
    name = firstComponent (p.drop i) ∧ isDir = isDirComponent (p.drop i) ∧ t.vfs = s.vfs ∧
      Copied A p base (if isDir = true then i + (name.length + 1) else i) t := by
  obtain ⟨fits, ends⟩ := component_end p upper
  have noSlash : slash ∉ firstComponent (p.drop i) := fun inside => by simpa using List.mem_takeWhile_imp inside
  have noZero' : 0 ∉ firstComponent (p.drop i) := fun inside =>
    noZero (List.mem_of_mem_drop ((List.takeWhile_prefix _).subset inside))
  have parts : firstComponent (p.drop i) ++ (p.drop i).dropWhile (· ≠ slash) = p.drop i := List.takeWhile_append_dropWhile
  have last : s.kernel.mem (base + i + (firstComponent (p.drop i)).length) =
      p.getD (i + (firstComponent (p.drop i)).length) 0 := by
    rw [Nat.add_assoc]
    exact copied.bytes _ (by omega) fits
  have read : nameFrom s.kernel.mem (2 ^ 64) (base + i) = some (firstComponent (p.drop i)) := by
    refine nameFrom_bytes (fun k inside => ?_) noSlash noZero' ?_ (by omega)
    · rw [Nat.add_assoc, copied.bytes (i + k) (by omega) (by omega), getD_drop]
      generalize p.drop i = rest at parts inside
      rw [← parts, List.getD_append _ _ _ _ inside, parts]
    · rw [last]
      exact ends.imp (fun inner => inner.2.1) fun outer => outer.2.2
  unfold Blocks.cutComponent at run
  rw [bind_eq run_get, read] at run
  obtain ⟨⟨⟩, s₁, put, run⟩ := bind_ok run
  obtain ⟨same, rfl⟩ := pure_ok run
  obtain ⟨rfl, rfl⟩ := Prod.mk.inj same
  rw [Nat.add_assoc] at put
  rw [last]
  rcases ends with ⟨inner, stops, before⟩ | ⟨outer, -, zero⟩
  · have cut : Copied A p base (i + ((firstComponent (p.drop i)).length + 1)) s₁ ∧ s₁.vfs = s.vfs :=
      copied.putZero fits (by omega) (.inl (by omega)) put
    obtain ⟨after, same⟩ := cut
    exact ⟨rfl, by rw [stops, inner]; rfl, same, by rw [stops, if_pos (by decide)]; exact after⟩
  · obtain ⟨after, same⟩ := copied.putZero fits le_rfl (.inr zero) put
    exact ⟨rfl, by rw [zero, outer]; rfl, same, by rw [zero, if_neg (by decide)]; exact after⟩

theorem pathByte_zero_iff (beyond : Nat → UInt8) (noZero : 0 ∉ p) (upper : i ≤ p.length) :
    pathByte p beyond i = 0 ↔ p.drop i = [] := by
  rw [List.drop_eq_nil_iff]
  by_cases last : i = p.length
  · simp [pathByte, last]
  · have inside : i < p.length := by omega
    rw [pathByte, if_neg last, List.getD_eq_getElem _ _ inside]
    refine ⟨fun zero => (noZero ?_).elim, fun behind => (last (by omega)).elim⟩
    rw [← zero]
    exact List.getElem_mem inside

/-- What the loop of `open` leaves when it has taken these components. -/
def Walked (A : PageAllocator) (p : Name) (base : Nat) (comps : List Name) (y : VfsM (Option (Nat × Name))) (s : Machine)
    (r : Option (Nat × Nat)) (t : Machine) : Prop :=
  y s.vfs = .ok (r.map fun e => (e.1, p.drop e.2), t.vfs) ∧
    ∀ e ∈ r, Copied A p base e.2 t ∧ e.2 ≤ p.length ∧ p.drop e.2 = comps.getLastD []

theorem Copied.walked_end {fs : FileSystem} {currentObj : Nat} (copied : Copied A p base i s) (upper : i ≤ p.length)
    (empty : p.drop i = []) : Walked A p base ((p.drop i).splitOn slash)
      (openSteps fs flags mode ((p.drop i).splitOn slash) currentObj) s (some (currentObj, i)) s := by
  refine ⟨by simp only [Option.map_some, empty]; rfl, fun e here => ?_⟩
  obtain rfl := Option.mem_some.mp here
  exact ⟨copied, upper, by rw [empty]; rfl⟩

theorem component_next (upper : i ≤ p.length) (inner : isDirComponent (p.drop i) = true) :
    i + ((firstComponent (p.drop i)).length + 1) ≤ p.length := by
  obtain ⟨-, ⟨-, -, before⟩ | ⟨outer, -⟩⟩ := component_end p upper
  · exact before
  · rw [inner] at outer
    cases outer

/-- The name at `i` is cut out of the copy, and what is still read of it begins at `next`. -/
structure CutAt (A : PageAllocator) (p : Name) (base i next : Nat) (isDir : Bool) (s t : Machine) : Prop where
  run : cutComponent (base + i) s = .ok ((firstComponent (p.drop i), isDir), t)
  upper : i ≤ p.length
  filled : p.drop i ≠ []
  kind : isDirComponent (p.drop i) = isDir
  vfs : t.vfs = s.vfs
  before : Copied A p base i s
  after : Copied A p base next t

theorem CutAt.last {next : Nat} (cut : CutAt A p base i next false s t) :
    firstComponent (p.drop i) = p.drop i ∧ (p.drop i).splitOn slash = [p.drop i] := by
  rcases splitOn_cases (p.drop i) with ⟨-, whole, split⟩ | ⟨inner, -⟩
  · exact ⟨whole, split⟩
  · rw [cut.kind] at inner
    cases inner

theorem CutAt.inner {next : Nat} (cut : CutAt A p base i next true s t) : (p.drop i).splitOn slash =
    firstComponent (p.drop i) :: (p.drop (i + ((firstComponent (p.drop i)).length + 1))).splitOn slash := by
  rcases splitOn_cases (p.drop i) with ⟨last, -⟩ | ⟨-, split⟩
  · rw [cut.kind] at last
    cases last
  · rw [split, List.drop_drop]

/-- The rounds of the loop of `open`, a constructor for each way in which one ends. -/
inductive OpenRounds (A : PageAllocator) (fs : FileSystem) (flags : OpenFlags) (mode : UInt8) (p : Name) (base : Nat) :
    Nat → Nat → Machine → Option (Nat × Nat) → Machine → Prop where
  | ends {i currentObj : Nat} {s : Machine} (copied : Copied A p base i s) (upper : i ≤ p.length) (empty : p.drop i = []) :
      OpenRounds A fs flags mode p base i currentObj s (some (currentObj, i)) s
  | noFile {i currentObj : Nat} {s s₁ t : Machine} (cut : CutAt A p base i i false s s₁)
      (search : findFile A.kmalloc fs flags currentObj (firstComponent (p.drop i)) s₁ = .ok (none, t)) :
      OpenRounds A fs flags mode p base i currentObj s none t
  | file {i currentObj file reached : Nat} {s s₁ s₂ t : Machine} (cut : CutAt A p base i i false s s₁)
      (search : findFile A.kmalloc fs flags currentObj (firstComponent (p.drop i)) s₁ = .ok (some file, s₂))
      (opens : openFile A.kmalloc fs file mode s₂ = .ok (reached, t)) :
      OpenRounds A fs flags mode p base i currentObj s (some (reached, i)) t
  | noDir {i next currentObj : Nat} {s s₁ t : Machine} (cut : CutAt A p base i next true s s₁)
      (search : findDir A.kmalloc fs flags currentObj (firstComponent (p.drop i)) s₁ = .ok (none, t)) :
      OpenRounds A fs flags mode p base i currentObj s none t
  | dir {i currentObj dir obj : Nat} {s s₁ s₂ s₃ t : Machine} {r : Option (Nat × Nat)}
      (cut : CutAt A p base i (i + ((firstComponent (p.drop i)).length + 1)) true s s₁)
      (search : findDir A.kmalloc fs flags currentObj (firstComponent (p.drop i)) s₁ = .ok (some dir, s₂))
      (opens : onVfs (fs.call (tempfsOpenDir dir)) s₂ = .ok (obj, s₃))
      (later : OpenRounds A fs flags mode p base (i + ((firstComponent (p.drop i)).length + 1)) obj s₃ r t) :
      OpenRounds A fs flags mode p base i currentObj s r t

theorem Copied.openRounds {beyond : Nat → UInt8} {fs : FileSystem} {rounds currentObj : Nat} {r : Option (Nat × Nat)}
    (copied : Copied A p base i s) (noZero : 0 ∉ p) (small : p.length < 2 ^ 64) (upper : i ≤ p.length)
    (run : openWalk A.kmalloc beyond fs flags mode p base rounds i currentObj s = .ok (r, t)) :
    OpenRounds A fs flags mode p base i currentObj s r t := by
  induction rounds generalizing i currentObj s with
  | zero =>
    unfold Blocks.openWalk at run
    split at run
    · rename_i ends
      obtain ⟨rfl, rfl⟩ := pure_ok run
      exact .ends copied upper ((pathByte_zero_iff beyond noZero upper).mp ends)
    · exact (stop_ok run).elim
  | succ rounds ih =>
    unfold Blocks.openWalk at run
    split at run
    · rename_i ends
      obtain ⟨rfl, rfl⟩ := pure_ok run
      exact .ends copied upper ((pathByte_zero_iff beyond noZero upper).mp ends)
    rename_i more
    have filled : p.drop i ≠ [] := fun empty => more ((pathByte_zero_iff beyond noZero upper).mpr empty)
    obtain ⟨⟨name, isDir⟩, s₁, cut, run⟩ := bind_ok run
    obtain ⟨rfl, kind, vfs, after⟩ := copied.cutComponent noZero upper small cut
    cases isDir with
    | false =>
      rw [if_neg (by decide)] at after
      have here : CutAt A p base i i false s s₁ := ⟨cut, upper, filled, kind.symm, vfs, copied, after⟩
      obtain ⟨found, s₂, search, run⟩ := bind_ok run
      cases found with
      | none =>
        obtain ⟨rfl, rfl⟩ := pure_ok run
        exact .noFile here search
      | some file =>
        obtain ⟨reached, s₃, opens, run⟩ := bind_ok run
        obtain ⟨rfl, rfl⟩ := pure_ok run
        exact .file here search opens
    | true =>
      rw [if_pos rfl] at after
      have here : CutAt A p base i _ true s s₁ := ⟨cut, upper, filled, kind.symm, vfs, copied, after⟩
      obtain ⟨found, s₂, search, run⟩ := bind_ok run
      cases found with
      | none =>
        obtain ⟨rfl, rfl⟩ := pure_ok run
        exact .noDir here search
      | some dir =>
        obtain ⟨obj, s₃, opens, run⟩ := bind_ok run
        obtain ⟨searched, -⟩ := Copied.findDir _ _ _ s₁ _ s₂ after search
        obtain ⟨opened, -⟩ := Copied.onVfs _ s₂ _ s₃ searched opens
        exact .dir here search opens (ih opened (component_next upper kind.symm) run)

/-- The loop of `open` takes the components of the path, whatever the heap does in between. -/
theorem OpenRounds.walked {fs : FileSystem} {currentObj : Nat} {r : Option (Nat × Nat)}
    (rounds : OpenRounds A fs flags mode p base i currentObj s r t) :
    Walked A p base ((p.drop i).splitOn slash) (openSteps fs flags mode ((p.drop i).splitOn slash) currentObj) s r t := by
  induction rounds with
  | ends copied upper empty => exact copied.walked_end upper empty
  | noFile cut search =>
    obtain ⟨-, finds⟩ := Copied.findFile _ _ _ _ _ _ cut.after search
    rw [cut.vfs, cut.last.1] at finds
    unfold Walked
    rw [cut.last.2, openSteps, if_neg cut.filled, bind_eq finds]
    exact ⟨rfl, fun _ found => by cases found⟩
  | file cut search opens =>
    obtain ⟨searched, finds⟩ := Copied.findFile _ _ _ _ _ _ cut.after search
    obtain ⟨after, opens⟩ := Copied.openFile _ _ _ _ _ searched opens
    rw [cut.vfs, cut.last.1] at finds
    unfold Walked
    rw [cut.last.2, openSteps, if_neg cut.filled, bind_eq finds]
    refine ⟨bind_eq opens, fun e here => ?_⟩
    obtain rfl := Option.mem_some.mp here
    exact ⟨after, cut.upper, rfl⟩
  | noDir cut search =>
    obtain ⟨-, finds⟩ := Copied.findDir _ _ _ _ _ _ cut.after search
    rw [cut.vfs] at finds
    unfold Walked
    rw [cut.inner, openSteps_cons (List.splitOn_ne_nil slash _), bind_eq finds]
    exact ⟨rfl, fun _ found => by cases found⟩
  | dir cut search opens later ih =>
    obtain ⟨searched, finds⟩ := Copied.findDir _ _ _ _ _ _ cut.after search
    obtain ⟨-, opens⟩ := Copied.onVfs _ _ _ _ searched opens
    rw [cut.vfs] at finds
    obtain ⟨steps, reached⟩ := ih
    unfold Walked
    rw [cut.inner, openSteps_cons (List.splitOn_ne_nil slash _), bind_eq finds]
    refine ⟨(bind_eq opens).trans steps, fun e here => ?_⟩
    obtain ⟨copied, upper, same⟩ := reached e here
    exact ⟨copied, upper, same.trans (getLastD_cons (List.splitOn_ne_nil slash _)).symm⟩

/-! ### The buffers of `open` -/

theorem mallocBlock_heap {size q : Nat} (heap : Mem.Heap A s.kernel s.live) (small : size < 2 ^ 63)
    (run : mallocBlock A.kmalloc size s = .ok (q, t)) : Mem.Heap A t.kernel t.live ∧ (q, size) ∈ t.live := by
  obtain ⟨k, got, rfl⟩ := mallocBlock_ok run
  exact ⟨(heap.malloc small got).1, List.mem_cons_self⟩

theorem Rests.mallocBlock {size q : Nat} (rests : Rests A cells s) (small : size < 2 ^ 63)
    (run : mallocBlock A.kmalloc size s = .ok (q, t)) :
    ∃ cells', Rests A cells' t ∧ cells'.map Cell.room = served size (cells.map Cell.room) ∧ (q, size) ∈ t.live ∧
      t.place = s.place := by
  obtain ⟨k, got, rfl⟩ := mallocBlock_ok run
  obtain ⟨front, c, back, rep, -, -, -, -, rooms, -⟩ := rests.rep.malloc_rooms rests.ready small got
  have heap : Mem.Heap A s.kernel s.live := ⟨rests.ready, cells, rests.rep⟩
  exact ⟨_, ⟨(heap.malloc small got).1.ready, rep⟩, rooms, List.mem_cons_self, rfl⟩

theorem Rests.putBytes {b : Nat × Nat} {a : Nat} {bytes : List UInt8} {r : Unit} (rests : Rests A cells s)
    (member : b ∈ s.live) (lower : b.1 ≤ a) (upper : a + bytes.length ≤ b.1 + b.2) (run : putBytes a bytes s = .ok (r, t)) :
    Rests A cells t ∧ b ∈ t.live ∧ t.place = s.place := by
  obtain rfl := putBytes_ok run
  have outside : ∀ x, ¬ InRange b.1 b.2 x → writeBytes s.kernel.mem a bytes x = s.kernel.mem x := fun x far =>
    writeBytes_outside fun inside => far (by unfold InRange at *; omega)
  obtain ⟨rep, touched⟩ := rests.rep.write_block rests.ready member outside
  exact ⟨⟨touched.ready, rep⟩, member, rfl⟩

theorem Rests.extendPath {path : Name} (rests : Rests A cells s) (small : (absolutePath s.vfs.currentDir path).length < 2 ^ 62)
    (run : extendPath A.kmalloc path s = .ok (p, t)) :
    ∃ cells', Rests A cells' t ∧ cells'.map Cell.room = roomsForCopy path p (cells.map Cell.room) ∧ t.place = s.place := by
  have same := (extendPath_ok run).1
  rw [← same] at small
  unfold Blocks.extendPath at run
  rw [bind_eq run_get] at run
  unfold roomsForCopy
  split at run
  · rename_i longer
    change NotAbsolute path at longer
    rw [if_pos longer]
    split at run
    · obtain ⟨pathExt, s₁, got, run⟩ := bind_ok run
      obtain ⟨⟨⟩, s₂, first, run⟩ := bind_ok run
      obtain ⟨⟨⟩, s₃, second, run⟩ := bind_ok run
      obtain ⟨⟨⟩, s₄, third, run⟩ := bind_ok run
      obtain ⟨rfl, rfl⟩ := pure_ok run
      simp only [List.length_cons] at small ⊢
      obtain ⟨cells', rests, rooms, member, place⟩ := rests.mallocBlock (by omega) got
      obtain ⟨rests, member, place₂⟩ := rests.putBytes member (by dsimp only; omega) (by simp; omega) first
      obtain ⟨rests, member, place₃⟩ := rests.putBytes member (by dsimp only; omega) (by simp) second
      obtain ⟨rests, -, place₄⟩ := rests.putBytes member (by dsimp only; omega)
        (by simp only [List.length_singleton]; omega) third
      exact ⟨cells', rests, rooms, by rw [place₄, place₃, place₂, place]⟩
    · obtain ⟨pathExt, s₁, got, run⟩ := bind_ok run
      obtain ⟨⟨⟩, s₂, first, run⟩ := bind_ok run
      obtain ⟨⟨⟩, s₃, second, run⟩ := bind_ok run
      obtain ⟨rfl, rfl⟩ := pure_ok run
      rw [List.length_append] at small ⊢
      obtain ⟨cells', rests, rooms, member, place⟩ := rests.mallocBlock (by omega) got
      obtain ⟨rests, member, place₂⟩ := rests.putBytes member (by dsimp only; omega) (by dsimp only; omega) first
      obtain ⟨rests, -, place₃⟩ := rests.putBytes member (by dsimp only; omega) (by simp; omega) second
      exact ⟨cells', rests, rooms, by rw [place₃, place₂, place]⟩
  · rename_i longer
    change ¬ NotAbsolute path at longer
    obtain ⟨rfl, rfl⟩ := pure_ok run
    rw [if_neg longer]
    exact ⟨cells, rests, rfl, rfl⟩

theorem copyPath_copied (heap : Mem.Heap A s.kernel s.live) (small : p.length < 2 ^ 63) (odd : (p.length + 26) % 4096 ≠ 0)
    (run : copyPath A.kmalloc p s = .ok (base, t)) : Copied A p base 0 t := by
  unfold copyPath at run
  obtain ⟨newPath, s₁, got, run⟩ := bind_ok run
  obtain ⟨⟨⟩, s₂, first, run⟩ := bind_ok run
  obtain ⟨⟨⟩, s₃, second, run⟩ := bind_ok run
  obtain ⟨rfl, rfl⟩ := pure_ok run
  obtain ⟨k, allocated, rfl⟩ := mallocBlock_ok got
  have slack := heap.malloc_slack small odd allocated
  have ready := (heap.malloc small allocated).1.ready
  obtain rfl := putBytes_ok first
  obtain rfl := putBytes_ok second
  have bytes : ∀ j ≤ p.length, writeBytes (writeBytes k.mem newPath p) (newPath + p.length) [0] (newPath + j) = p.getD j 0 := by
    intro j upper
    by_cases last : j = p.length
    · subst last
      rw [writeBytes_inside (by simp [InRange])]
      simp
    · rw [writeBytes_outside (by unfold InRange; simp only [List.length_singleton]; omega),
        writeBytes_inside (by unfold InRange; omega), Nat.add_sub_cancel_left]
  have outside : ∀ x, ¬ InRange (newPath, p.length).1 ((newPath, p.length).2 + 1) x →
      writeBytes (writeBytes k.mem newPath p) (newPath + p.length) [0] x = k.mem x := by
    intro x far
    rw [writeBytes_outside (by unfold InRange at *; simp only [List.length_singleton]; omega),
      writeBytes_outside (by unfold InRange at *; omega)]
  obtain ⟨slack, heap⟩ := slack.write ready outside
  exact ⟨heap, List.mem_cons_self, slack, fun j _ upper => bytes j upper⟩

theorem Copied.mono {i' : Nat} (copied : Copied A p base i s) (more : i ≤ i') : Copied A p base i' s :=
  ⟨copied.heap, copied.member, copied.slack, fun j lower upper => copied.bytes j (by omega) upper⟩

/-! ### The two parts of `open` -/

/-- A path that `open` can copy: a C string with a drive in front, whose copy does not end with its pages. -/
structure Copyable (path : Name) : Prop where
  noZero : 0 ∉ path
  absolute : ¬ NotAbsolute path
  small : path.length < 2 ^ 62
  odd : (path.length + 26) % 4096 ≠ 0

theorem Copyable.long (copyable : Copyable p) : 3 ≤ p.length := by
  by_contra short
  refine copyable.absolute (.inr ?_)
  rw [List.getD_eq_default _ _ (by omega)]
  decide

/-- What the file-system model says of `open`, given what the walk here ended with. -/
theorem resolve_mirrors {beyond : Nat → UInt8} {path : Name} {r : Option Resolved} (heap : Mem.Heap A s.kernel s.live)
    (copyable : Copyable (absolutePath s.vfs.currentDir path))
    (run : resolve A.kmalloc beyond path flags mode s = .ok (r, t)) :
    Fs.vfsOpen path flags mode s.vfs = .ok (r.map fun e =>
      ⟨mode, e.driveChar, e.reached, checkFileType ((componentsOf s.vfs path).getLastD [])⟩, t.vfs) ∧
      ∀ e ∈ r, Copied A (absolutePath s.vfs.currentDir path) e.base e.i t ∧
        e.i ≤ (absolutePath s.vfs.currentDir path).length ∧
        (absolutePath s.vfs.currentDir path).drop e.i = (componentsOf s.vfs path).getLastD [] ∧
        e.driveChar = driveOf s.vfs path ∧ isDriveLetter e.driveChar = true := by
  unfold resolve at run
  obtain ⟨p, s₁, extended, run⟩ := bind_ok run
  obtain ⟨ready, cells, rep⟩ := heap
  obtain ⟨cells₁, rests, -, -⟩ := Rests.extendPath ⟨ready, rep⟩ copyable.small extended
  have heap₁ : Mem.Heap A s₁.kernel s₁.live := ⟨rests.ready, cells₁, rests.rep⟩
  obtain ⟨rfl, vfs, -, -⟩ := extendPath_ok extended
  unfold componentsOf driveOf
  unfold Fs.vfsOpen
  generalize same : absolutePath s.vfs.currentDir path = p at copyable run
  rw [bind_eq run_get]
  dsimp only at run ⊢
  rw [same]
  by_cases letter : isDriveLetter (p.getD 0 0) = true
  · rw [if_neg (by simpa using letter)] at run ⊢
    obtain ⟨base, s₂, copied, run⟩ := bind_ok run
    have whole := copyPath_copied heap₁ (by have := copyable.small; omega) copyable.odd copied
    have vfs₂ := (copyPath_ok copied).1.trans vfs
    rw [bind_eq run_get, vfs₂] at run
    rw [bind_eq run_get]
    split at run
    · rename_i absent
      rw [if_pos absent]
      obtain ⟨⟨⟩, s₃, freed, run⟩ := bind_ok run
      obtain ⟨rfl, rfl⟩ := pure_ok run
      obtain ⟨k, -, rfl⟩ := freeBlock_ok freed
      exact ⟨by rw [← vfs₂]; rfl, fun _ found => by cases found⟩
    · rename_i present
      rw [if_neg present]
      obtain ⟨root, s₃, found, run⟩ := bind_ok run
      obtain ⟨currentObj, s₄, opened, run⟩ := bind_ok run
      obtain ⟨walked, s₅, walk, run⟩ := bind_ok run
      obtain ⟨whole, finds⟩ := Copied.onVfs _ s₂ _ s₃ (whole.mono (Nat.zero_le 3)) found
      obtain ⟨whole, opens⟩ := Copied.onVfs _ s₃ _ s₄ whole opened
      have small := copyable.small
      obtain ⟨steps, reached⟩ := (whole.openRounds copyable.noZero (by omega) copyable.long walk).walked
      rw [vfs₂] at finds
      rw [bind_eq finds, bind_eq opens, openWalk_eq (by simp), bind_eq steps]
      cases walked with
      | none =>
        obtain ⟨rfl, rfl⟩ := pure_ok run
        exact ⟨rfl, fun _ found => by cases found⟩
      | some e =>
        obtain ⟨rfl, rfl⟩ := pure_ok run
        obtain ⟨copied, upper, last⟩ := reached e rfl
        refine ⟨?_, fun e here => ?_⟩
        · rw [← last]
          rfl
        · obtain rfl := Option.mem_some.mp here
          exact ⟨copied, upper, last, rfl, letter⟩
  · rw [if_pos (by simpa using letter)] at run ⊢
    obtain ⟨rfl, rfl⟩ := pure_ok run
    exact ⟨by rw [vfs]; rfl, fun _ found => by cases found⟩

/-- Memory when the fields before the type are written. -/
def headWritten (m : Mem) (newFile : Nat) (mode driveChar : UInt8) (privateData : Nat) : Mem :=
  store (writeBytes (writeBytes (writeBytes m newFile [1]) (newFile + 17) [mode]) (newFile + 16) [driveChar])
    (newFile + 24) 8 privateData

theorem headWritten_outside {m : Mem} {newFile privateData x : Nat} {driveChar : UInt8} (far : ¬ InRange newFile sizeofFile x) :
    headWritten m newFile mode driveChar privateData x = m x := by
  unfold InRange sizeofFile at far
  rw [headWritten, store_outside (by unfold InRange; omega), writeBytes_outside, writeBytes_outside, writeBytes_outside]
  all_goals
    unfold InRange
    simp only [List.length_singleton]
    omega

theorem headWritten_congr {m m' : Mem} {newFile privateData x : Nat} {driveChar : UInt8} (same : m x = m' x) :
    headWritten m newFile mode driveChar privateData x = headWritten m' newFile mode driveChar privateData x := by
  simp [headWritten, store, writeBytes, same]

theorem cString_congr {m m' : Mem} {a n : Nat} (same : ∀ x, a ≤ x → m x = m' x) : cString m a n = cString m' a n := by
  induction n generalizing a with
  | zero => rfl
  | succ n ih =>
    rw [cString, cString, same a le_rfl, ih fun x above => same x (by omega)]

/-- The string at `new_path` once the first fields of a `File` at `newFile` are written. -/
def nameRead (m : Mem) (newFile : Nat) (mode : UInt8) (place : Nat → Nat) (r : Resolved) : Option Name :=
  cString (headWritten m newFile mode r.driveChar (place r.reached)) (r.base + r.i) (2 ^ 64)

/-- The end of `finishOpen`, from the name that is read there. -/
def typeFile (mode : UInt8) (r : Resolved) (newFile : Nat) : Option Name → MachineM File
  | none => Prog.stop .hang
  | some fname => do
    putBytes (newFile + 1) [UInt8.ofNat (checkFileType fname)]
    return ⟨mode, r.driveChar, r.reached, checkFileType fname⟩

theorem finishOpen_ok {kmalloc : Owner → Nat → KernelM Nat} {r : Resolved} {f : File}
    (run : finishOpen kmalloc mode r s = .ok (f, t)) : ∃ k₁ newFile k₂ fname, Mem.free r.base s.kernel = .ok ((), k₁) ∧
      Mem.malloc kmalloc sizeofFile k₁ = .ok (newFile, k₂) ∧ nameRead k₂.mem newFile mode s.place r = some fname ∧
      f = ⟨mode, r.driveChar, r.reached, checkFileType fname⟩ ∧ t.vfs = s.vfs := by
  obtain ⟨⟨⟩, s₁, freed, run⟩ := bind_ok run
  obtain ⟨newFile, s₂, got, run⟩ := bind_ok run
  obtain ⟨k₁, free, rfl⟩ := freeBlock_ok freed
  obtain ⟨k₂, alloc, rfl⟩ := mallocBlock_ok got
  refine ⟨k₁, newFile, k₂, ?_⟩
  obtain ⟨⟨⟩, s₃, first, run⟩ := bind_ok run
  obtain ⟨⟨⟩, s₄, second, run⟩ := bind_ok run
  obtain ⟨⟨⟩, s₅, third, run⟩ := bind_ok run
  obtain rfl := putBytes_ok first
  obtain rfl := putBytes_ok second
  obtain rfl := putBytes_ok third
  rw [bind_eq (run_modify _), bind_eq run_get] at run
  change typeFile mode r newFile (nameRead k₂.mem newFile mode s.place r) _ = _ at run
  cases read : nameRead k₂.mem newFile mode s.place r with
  | none =>
    rw [read] at run
    cases run
  | some fname =>
    rw [read] at run
    obtain ⟨⟨⟩, s₆, last, run⟩ := bind_ok run
    obtain rfl := putBytes_ok last
    obtain ⟨rfl, rfl⟩ := pure_ok run
    exact ⟨fname, free, alloc, rfl, rfl, rfl⟩

/-- The names that have a type of their own. -/
def streamNames : List Name := [stdoutName, stdinName, stderrName]

theorem checkFileType_regular_iff (x : Name) : checkFileType x = ftypeRegular ↔ x ∉ streamNames := by
  unfold checkFileType
  split_ifs with out inp err
  · simp [streamNames, out, ftypeStdout, ftypeRegular]
  · simp [streamNames, inp, ftypeStdin, ftypeRegular]
  · simp [streamNames, err, ftypeStderr, ftypeRegular]
  · simp [streamNames, out, inp, err]

theorem checkFileType_eq_iff (x y : Name) :
    checkFileType x = checkFileType y ↔ x = y ∨ x ∉ streamNames ∧ y ∉ streamNames := by
  by_cases plain : y ∈ streamNames
  · simp only [plain, not_true_eq_false, and_false, or_false]
    refine ⟨fun same => ?_, fun same => by rw [same]⟩
    have special : x ∈ streamNames := by
      by_contra other
      rw [(checkFileType_regular_iff x).mpr other] at same
      exact (checkFileType_regular_iff y).mp same.symm plain
    simp only [streamNames, List.mem_cons, List.not_mem_nil, or_false] at plain special
    rcases special with rfl | rfl | rfl <;> rcases plain with rfl | rfl | rfl <;> first | rfl | exact absurd same (by decide)
  · rw [(checkFileType_regular_iff y).mpr plain, checkFileType_regular_iff]
    simp only [plain, not_false_eq_true, and_true]
    refine ⟨.inr, fun either => either.elim (fun same => by rw [same]; exact plain) id⟩

/-- The `File` in the pool of the copy: the name is read behind its first fields. -/
theorem Copied.type_over {r : Resolved} {f : File} (copied : Copied A p r.base r.i s)
    (takes : TakesOver s.kernel s.live r.base sizeofFile) (run : finishOpen A.kmalloc mode r s = .ok (f, t)) :
    ∃ fname, nameRead s.kernel.mem r.base mode s.place r = some fname ∧ f.ftype = checkFileType fname := by
  obtain ⟨ready, cells, rep⟩ := copied.heap
  obtain ⟨k₁, newFile, k₂, fname, freed, got, read, rfl, -⟩ := finishOpen_ok run
  obtain ⟨k₂', got', kept⟩ := Mem.TakesOver.run (b := (r.base, p.length)) takes A.kmalloc copied.member (by decide) freed
  obtain ⟨rfl, rfl⟩ := Prod.mk.inj (Except.ok.inj (got'.symm.trans got))
  have same : nameRead k₂'.mem r.base mode s.place r = nameRead s.kernel.mem r.base mode s.place r :=
    cString_congr fun x above => headWritten_congr (kept x (by dsimp only; omega))
  exact ⟨fname, same.symm.trans read, rfl⟩

/-- The `File` anywhere else: the name is read as it was. -/
theorem Copied.type_elsewhere {r : Resolved} {f : File} (copied : Copied A p r.base r.i s) (noZero : 0 ∉ p)
    (small : p.length < 2 ^ 64) (upper : r.i ≤ p.length) (elsewhere : ¬ TakesOver s.kernel s.live r.base sizeofFile)
    (run : finishOpen A.kmalloc mode r s = .ok (f, t)) : f.ftype = checkFileType (p.drop r.i) := by
  obtain ⟨k₁, newFile, k₂, fname, freed, got, read, rfl, -⟩ := finishOpen_ok run
  have spares := Mem.spares_of_not_takesOver copied.slack copied.heap.ready copied.member (by decide) elsewhere freed got
  have byte : ∀ j, r.i ≤ j → j ≤ p.length →
      headWritten k₂.mem newFile mode r.driveChar (s.place r.reached) (r.base + j) = p.getD j 0 := by
    intro j lower upper
    obtain ⟨kept, far⟩ := spares (r.base + j) (by dsimp only; omega) (by dsimp only; omega)
    rw [headWritten_outside far, kept, copied.bytes j lower upper]
  have long : (p.drop r.i).length = p.length - r.i := List.length_drop
  have whole : nameRead k₂.mem newFile mode s.place r = some (p.drop r.i) := by
    refine cString_run (fun j inside => ?_) ?_ (fun inside => noZero (List.mem_of_mem_drop inside)) (by omega)
    · rw [Nat.add_assoc, byte (r.i + j) (by omega) (by omega), getD_drop, List.getD_eq_getElem _ _ inside]
    · rw [long, Nat.add_assoc, byte (r.i + (p.length - r.i)) (by omega) (by omega), Nat.add_sub_cancel' upper]
      simp
  rw [whole] at read
  rw [Option.some.inj read]

end copied

/-- The layers agree: apart from the type, a returning `open` on the heap answers and changes the file system as
`Fs.vfsOpen` does. -/
theorem vfsOpen_refines {A : PageAllocator} {beyond : Nat → UInt8} {s t : Machine} {path : Name} {flags : OpenFlags}
    {mode : UInt8}
    {r : Option File} (heap : Mem.Heap A s.kernel s.live) (copyable : Copyable (absolutePath s.vfs.currentDir path))
    (run : vfsOpen A.kmalloc beyond path flags mode s = .ok (r, t)) :
    Fs.vfsOpen path flags mode s.vfs =
      .ok (r.map fun f => { f with ftype := checkFileType ((componentsOf s.vfs path).getLastD []) }, t.vfs) := by
  obtain ⟨resolved, s₁, step, run⟩ := bind_ok run
  obtain ⟨same, -⟩ := resolve_mirrors heap copyable step
  cases resolved with
  | none =>
    obtain ⟨rfl, rfl⟩ := pure_ok run
    exact same
  | some e =>
    obtain ⟨f, s₂, finished, run⟩ := bind_ok run
    obtain ⟨rfl, rfl⟩ := pure_ok run
    obtain ⟨k₁, newFile, k₂, fname, -, -, -, rfl, vfs⟩ := finishOpen_ok finished
    rw [same, vfs]
    rfl

end PotatOS.Fs.Blocks
