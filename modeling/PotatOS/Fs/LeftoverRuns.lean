import PotatOS.Fs.LeftoverCalls

/-!
# Sequences of calls on leftover bytes

Two heaps that differ in free blocks only. The calls set every field they read but
two: `num_entries` of the root that `tempfs_new` allocates and `next_node` of the
first node that `tempfs_write` gives a file. Where these read as zero, both heaps
give the replies of the store that starts as zeros, and no access leaves the
objects that the calls have allocated.
-/

namespace PotatOS.Fs.Reused

open Memory

variable {h t : Heap} {s u : TempFs}

/-- The call on the store whose objects start as zeros. -/
def Call.execZeroed : Call → TempFsM Reply
  | .new => return .pointer (← Fs.tempfsNew)
  | .mkdir d name => do
    Fs.tempfsMkdir d name
    return .nothing
  | .mkfile d name => do
    Fs.tempfsMkfile d name
    return .nothing
  | .createDevice d name operations => do
    Fs.tempfsCreateDevice d name operations
    return .nothing
  | .find d name => return .pointer (← Fs.tempfsFind d name)
  | .write f data len => return .number (← Fs.tempfsWrite f data len)
  | .length f => return .number (← Fs.tempfsLength f)
  | .read f buffer maxLen => do
    let (status, filled) ← Fs.tempfsRead f buffer maxLen
    return .bytes status filled

def zeroedReplies : List Call → TempFs → List (Except Stop Reply)
  | [], _ => []
  | call :: calls, s =>
    match call.execZeroed s with
    | .ok (reply, u) => .ok reply :: zeroedReplies calls u
    | .error reason => [.error reason]

/-! ### Conditions on a call -/

def Heap.IsDirectory (h : Heap) (d : Nat) : Prop := .inode d ∈ h.made ∧ (h.inodes d).isDir = true

def Heap.IsFile (h : Heap) (f : Nat) : Prop := .inode f ∈ h.made ∧ (h.inodes f).isDir = false

/-- What every caller of TempFS provides: a directory or a file of these calls, a C string,
a `size_t`, and a read no longer than the file. -/
def Call.WellFormed (h : Heap) : Call → Prop
  | .new => True
  | .mkdir d name | .mkfile d name | .createDevice d name _ | .find d name => h.IsDirectory d ∧ 0 ∉ name
  | .write f _ len => h.IsFile f ∧ len < 2 ^ 64
  | .length f => h.IsFile f
  | .read f _ maxLen => h.IsFile f ∧ ((h.inodes f).type = filetypeDevice ∨ maxLen ≤ (h.inodes f).length)

/-- The fields that no call sets read as zero in the block that `malloc` hands out next:
`num_entries` of a new root, and `next_node` of the first node of a file. -/
def Call.FindsZero (h : Heap) : Call → Prop
  | .new => (h.inodes (h.used + 1)).numEntries = 0
  | .write f _ _ => (h.inodes f).type ≠ filetypeDevice → (h.inodes f).firstNode = 0 →
    (h.fileNodes (h.used + 1)).nextNode = 0
  | _ => True

/-- A new name ends before `length`, and one that is looked for has a length for the `int`s of `ku_strcmp`. -/
def Call.NameFits : Call → Prop
  | .mkdir _ name | .mkfile _ name | .createDevice _ name _ => name.length ≤ nameRoom
  | .find _ name => name.length < 2 ^ 31
  | _ => True

/-- Every call of the run meets the condition in the heap it starts from. -/
def AllMeet (meets : Heap → Call → Prop) : List Call → Heap → Prop
  | [], _ => True
  | call :: calls, h => meets h call ∧
    match call.exec h with
    | (.ok _, t) => AllMeet meets calls t
    | (.error _, _) => True

def Call.Safe (h : Heap) (call : Call) : Prop := call.WellFormed h ∧ call.NameFits ∧ call.FindsZero h

instance (h : Heap) (d : Nat) : Decidable (h.IsDirectory d) := inferInstanceAs (Decidable (_ ∧ _))

instance (h : Heap) (f : Nat) : Decidable (h.IsFile f) := inferInstanceAs (Decidable (_ ∧ _))

instance (h : Heap) : (call : Call) → Decidable (call.WellFormed h)
  | .new => isTrue trivial
  | .mkdir d name | .mkfile d name | .createDevice d name _ | .find d name =>
    inferInstanceAs (Decidable (h.IsDirectory d ∧ 0 ∉ name))
  | .write f _ len => inferInstanceAs (Decidable (h.IsFile f ∧ len < 2 ^ 64))
  | .length f => inferInstanceAs (Decidable (h.IsFile f))
  | .read f _ maxLen => inferInstanceAs
    (Decidable (h.IsFile f ∧ ((h.inodes f).type = filetypeDevice ∨ maxLen ≤ (h.inodes f).length)))

instance : (call : Call) → Decidable call.NameFits
  | .mkdir .. | .mkfile .. | .createDevice .. => inferInstanceAs (Decidable (_ ≤ _))
  | .find .. => inferInstanceAs (Decidable (_ < _))
  | .new | .write .. | .length .. | .read .. => isTrue trivial

instance (h : Heap) : (call : Call) → Decidable (call.FindsZero h)
  | .new => inferInstanceAs (Decidable ((h.inodes (h.used + 1)).numEntries = 0))
  | .write .. => inferInstanceAs (Decidable (_ → _ → _))
  | .mkdir .. | .mkfile .. | .createDevice .. | .find .. | .length .. | .read .. => isTrue trivial

instance (h : Heap) (call : Call) : Decidable (call.Safe h) := inferInstanceAs (Decidable (_ ∧ _))

instance decidableAllMeet (meets : Heap → Call → Prop) [∀ h call, Decidable (meets h call)] :
    (calls : List Call) → (h : Heap) → Decidable (AllMeet meets calls h)
  | [], _ => isTrue trivial
  | call :: calls, h =>
    have := decidableAllMeet meets calls
    match run : call.exec h with
    | (.ok _, t) => decidable_of_iff (meets h call ∧ AllMeet meets calls t) (by simp only [AllMeet, run])
    | (.error _, _) => decidable_of_iff (meets h call) (by simp only [AllMeet, run, and_true])

instance (h : Heap) : Decidable (FollowsOwn h) := inferInstanceAs (Decidable (∀ o ∈ h.followed, o ∈ h.made))

/-! ### Runs -/

/-- The replies differ in nothing, and the pointers followed are the calls' own. -/
structure Unaffected (calls : List Call) (h₁ h₂ : Heap) : Prop where
  replies : (runCalls calls h₁).1 = (runCalls calls h₂).1
  own₁ : FollowsOwn (runCalls calls h₁).2
  own₂ : FollowsOwn (runCalls calls h₂).2

/-- The heaps differ in blocks that are not allocated, and in nothing else. -/
structure SameAllocated (h₁ h₂ : Heap) : Prop where
  used : h₁.used = h₂.used
  made : h₁.made = h₂.made
  followed : h₁.followed = h₂.followed
  inodes : ∀ a, 0 < a → a ≤ h₁.used → h₁.inodes a = h₂.inodes a
  dirEntries : ∀ e, 0 < e → e ≤ h₁.used → h₁.dirEntries e = h₂.dirEntries e
  fileNodes : ∀ a, 0 < a → a ≤ h₁.used → h₁.fileNodes a = h₂.fileNodes a

/-- Before the first call. -/
def Heap.Start (h : Heap) : Prop := h.made = [] ∧ h.followed = []

theorem exec_coupled (call : Call) (shows : Shows [] h s) (safe : call.Safe h) :
    Coupled call.exec h call.execZeroed s (fun a t b u => a = b ∧ Shows [] t u) FollowsOwn := by
  have isDir : ∀ a, .inode a ∈ h.made → (s.inodes a).isDir = (h.inodes a).isDir := fun a made =>
    (show SameInode h s (h.inodes a) (s.inodes a) from shows.same _ made List.not_mem_nil).isDir.symm
  obtain ⟨wellFormed, -, zero⟩ := safe
  cases call with
  | new =>
    apply (tempfsNew_coupled shows zero).bind
    rintro root t _ u ⟨rfl, shows⟩
    exact .pure ⟨rfl, shows⟩
  | mkdir d name =>
    obtain ⟨⟨made, dir⟩, plain⟩ := wellFormed
    apply (tempfsMkdir_coupled shows made ((isDir d made).trans dir) plain).bind
    intro _ t _ u shows
    exact .pure ⟨rfl, shows⟩
  | mkfile d name =>
    obtain ⟨⟨made, dir⟩, plain⟩ := wellFormed
    apply (tempfsMkfile_coupled shows made ((isDir d made).trans dir) plain).bind
    intro _ t _ u shows
    exact .pure ⟨rfl, shows⟩
  | createDevice d name operations =>
    obtain ⟨⟨made, dir⟩, plain⟩ := wellFormed
    apply (tempfsCreateDevice_coupled shows made ((isDir d made).trans dir) plain operations).bind
    intro _ t _ u shows
    exact .pure ⟨rfl, shows⟩
  | find d name =>
    obtain ⟨⟨made, dir⟩, plain⟩ := wellFormed
    apply (tempfsFind_coupled plain shows made ((isDir d made).trans dir)).bind
    rintro found t _ u ⟨rfl, shows⟩
    exact .pure ⟨rfl, shows⟩
  | write f data len =>
    obtain ⟨⟨made, file⟩, small⟩ := wellFormed
    apply (tempfsWrite_coupled shows made ((isDir f made).trans file) small zero).bind
    rintro status t _ u ⟨rfl, shows⟩
    exact .pure ⟨rfl, shows⟩
  | length f =>
    obtain ⟨made, file⟩ := wellFormed
    apply (tempfsLength_coupled shows made ((isDir f made).trans file)).bind
    rintro length t _ u ⟨rfl, shows⟩
    exact .pure ⟨rfl, shows⟩
  | read f buffer maxLen =>
    obtain ⟨⟨made, file⟩, within⟩ := wellFormed
    apply (tempfsRead_coupled shows made ((isDir f made).trans file) within).bind
    rintro filled t _ u ⟨rfl, shows⟩
    exact .pure ⟨rfl, shows⟩

/-- A safe run gives the replies of the zeroed store and follows its own pointers. -/
theorem runCalls_shows (calls : List Call) (shows : Shows [] h s) (safe : AllMeet (fun h call => call.Safe h) calls h) :
    (runCalls calls h).1 = zeroedReplies calls s ∧ FollowsOwn (runCalls calls h).2 := by
  induction calls generalizing h s with
  | nil => exact ⟨rfl, shows.followed⟩
  | cons call calls ih =>
    obtain ⟨first, rest⟩ := safe
    cases exec_coupled call shows first with
    | returns left right holds =>
      obtain ⟨rfl, shows⟩ := holds
      rw [left] at rest
      have later := ih shows rest
      simp only [runCalls, zeroedReplies, left, right, later.1, true_and]
      exact later.2
    | stops left right holds =>
      simp only [runCalls, zeroedReplies, left, right, true_and]
      exact holds

theorem Heap.Start.shows (start : h.Start) : Shows [] h { used := h.used } where
  used := rfl
  made := by simp [start.1]
  followed := by simp [FollowsOwn, start.2]
  same := by simp [start.1]

theorem runs_ignore_leftovers {h₁ h₂ : Heap} (calls : List Call) (start : h₁.Start) (same : SameAllocated h₁ h₂)
    (safe₁ : AllMeet (fun h call => call.Safe h) calls h₁) (safe₂ : AllMeet (fun h call => call.Safe h) calls h₂) :
    Unaffected calls h₁ h₂ := by
  have start₂ : h₂.Start := ⟨same.made ▸ start.1, same.followed ▸ start.2⟩
  obtain ⟨replies₁, own₁⟩ := runCalls_shows calls start.shows safe₁
  obtain ⟨replies₂, own₂⟩ := runCalls_shows calls start₂.shows safe₂
  refine ⟨?_, own₁, own₂⟩
  rw [replies₁, replies₂, same.used]

/-- A heap without allocated blocks, every free block of which looks alike. -/
def freeHeap (r : RawInode) (e : DirEntryNode) (n : FileNode) : Heap where
  inodes _ := r
  dirEntries _ := e
  fileNodes _ := n
  used := 0

theorem freeHeap_same (r r' : RawInode) (e e' : DirEntryNode) (n n' : FileNode) :
    SameAllocated (freeHeap r e n) (freeHeap r' e' n') where
  used := rfl
  made := rfl
  followed := rfl
  inodes _ positive free := absurd positive (Nat.not_lt.mpr free)
  dirEntries _ positive free := absurd positive (Nat.not_lt.mpr free)
  fileNodes _ positive free := absurd positive (Nat.not_lt.mpr free)

/-- A file is written and read back, in zeroed blocks and in blocks with other bytes. -/
theorem runs_ignore_leftovers_write : Unaffected
    [.new, .mkfile 1 [65], .write 6 (fun _ => 3) 5000, .find 1 [65], .length 6, .read 6 (fun _ => 0) 5000]
    (freeHeap .zero {} {})
    (freeHeap { RawInode.zero with filename := fun _ => 7, length := 7, type := 1, firstNode := 9 }
      { isDir := true, inode := 9, nextNode := 9 } { data := fun _ => 7 }) :=
  runs_ignore_leftovers _ ⟨rfl, rfl⟩ (freeHeap_same ..) (by decide +kernel) (by decide +kernel)

/-- The root's `num_entries` is never set: left at 1, `tempfs_new` follows the unset link of `.`. -/
theorem leftover_count_followed : ¬ ∀ (h₁ h₂ : Heap) (calls : List Call), h₁.Start → SameAllocated h₁ h₂ →
    AllMeet (fun h call => call.WellFormed h) calls h₁ → AllMeet (fun h call => call.WellFormed h) calls h₂ →
    Unaffected calls h₁ h₂ := by
  intro all
  have unaffected := all (freeHeap .zero {} {}) (freeHeap { RawInode.zero with numEntries := 1 } { nextNode := 9 } {})
    [.new] ⟨rfl, rfl⟩ (freeHeap_same ..) (by decide +kernel) (by decide +kernel)
  exact absurd unaffected.own₂ (by decide +kernel)

end PotatOS.Fs.Reused
