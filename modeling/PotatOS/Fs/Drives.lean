import PotatOS.Fs.Aliases
import PotatOS.Fs.CurrentDir
import PotatOS.Fs.FileData

/-!
# All drives at once

`DriveStep` is any call that changes the drives or what is on them. In every
state that these calls reach, a drive is empty or has a sound tree.
-/

namespace PotatOS.Fs

open Prog Memory

/-- Names end before `length`, and a directory that was opened is not written to: `tempfs_write` takes its entries for
file nodes. -/
inductive DriveStep : Vfs → Vfs → Prop
  | mount {v w : Vfs} (letter : UInt8) (status : Nat) (run : mountNew letter v = .ok (status, w)) : DriveStep v w
  | unmount {v w : Vfs} (letter : UInt8) (status : Nat) (run : unmount letter v = .ok (status, w)) : DriveStep v w
  | create {v w : Vfs} (letter : UInt8) (creation : Creation) (fits : ∀ c ∈ creation.names letter, c.length ≤ nameRoom)
    (run : creation.run letter v = .ok (⟨⟩, w)) : DriveStep v w
  | changeCd {v w : Vfs} (path : Name) (run : changeCd path v = .ok (⟨⟩, w)) : DriveStep v w
  | write {v w : Vfs} (m : Mem) (args : Nat → UInt64) (f : File) (buffer size status : Nat)
    (leaf : (v.tempFs.inodes f.privateData).isDir = false) (run : vfsWrite m args f buffer size v = .ok (status, w)) :
    DriveStep v w

abbrev DriveRun : Vfs → Vfs → Prop := Relation.ReflTransGen DriveStep

/-- No directory is a device. -/
def PlainDirs (base : Nat) (s : TempFs) : Prop :=
  ∀ a, base < a → (s.inodes a).isDir = true → (s.inodes a).type ≠ filetypeDevice

/-- Every drive is empty or mounted on a sound tree, with inodes given out after `base`. -/
structure Drives (base : Nat) (v : Vfs) : Prop where
  old : base ≤ v.tempFs.used
  shape : ∃ home, Shape v.tempFs base home
  plain : PlainDirs base v.tempFs
  each : ∀ n, v.drives n = {} ∨
    ∃ root, v.drives n = { present := true, fs := .tempFs, memOffset := root } ∧ Sound v.tempFs base root

def Absent (v : Vfs) (letter : UInt8) : Prop := isDriveLetter letter = false ∨ v.drives (driveNum letter) = {}

variable {v w : Vfs} {base root f : Nat} {letter : UInt8} {s t u : TempFs}

theorem Drives.cases (drives : Drives base v) (letter : UInt8) :
    Absent v letter ∨ ∃ root, Mounted v letter root ∧ Sound v.tempFs base root := by
  cases isLetter : isDriveLetter letter with
  | false => exact .inl (.inl isLetter)
  | true =>
    rcases drives.each (driveNum letter) with empty | ⟨root, drive, sound⟩
    · exact .inl (.inr empty)
    · exact .inr ⟨root, ⟨isLetter, drive⟩, sound⟩

theorem Sound.nonnull (sound : Sound s base root) : root ≠ 0 := Nat.ne_of_gt (Nat.zero_lt_of_lt sound.known.1)

/-! ### Calls on a letter that has no drive -/

theorem vfsOpen_absent {path : Name} {flags : OpenFlags} {mode : UInt8}
    (absent : Absent v ((absolutePath v.currentDir path).getD 0 0)) : vfsOpen path flags mode v = .ok (none, v) := by
  unfold vfsOpen
  rw [bind_eq run_get]
  rcases absent with noLetter | empty
  · simp only [noLetter, Bool.false_eq_true, not_false_eq_true, if_true]
    rfl
  · dsimp only
    split
    · rfl
    rw [bind_eq run_get, empty]
    rfl

theorem createDevice_absent {rest : Name} {operations : DeviceOps} (absent : Absent v letter) :
    ∃ status, createDevice (letter :: colon :: slash :: rest) operations v = .ok (status, v) := by
  unfold createDevice
  rw [bind_eq run_get, absolutePath_drive]
  rcases absent with noLetter | empty
  · simp only [List.getD_cons_zero, noLetter, Bool.false_eq_true, not_false_eq_true, if_true]
    exact ⟨4, rfl⟩
  · simp only [List.getD_cons_zero]
    split
    · exact ⟨4, rfl⟩
    rw [bind_eq run_get, empty]
    exact ⟨3, rfl⟩

/-- `mkdir` does not ask whether the drive is there and calls its null pointers. -/
theorem vfsMkdir_absent {rest : Name} {beyond stale : Nat → Nat → UInt8} {bound : Nat} (absent : Absent v (upperCase letter)) :
    vfsMkdir (letter :: colon :: slash :: rest) beyond stale bound v =
      if isDriveLetter (upperCase letter) then .error .fault else .ok (1, v) := by
  unfold vfsMkdir
  rw [bind_eq run_get, absolutePath_drive]
  cases isLetter : isDriveLetter (upperCase letter) with
  | false =>
    simp only [List.getD_cons_zero, isLetter, Bool.false_eq_true, not_false_eq_true, if_true]
    rfl
  | true =>
    have empty := absent.resolve_left (by simp [isLetter])
    simp only [List.getD_cons_zero, List.getD_cons_succ, isLetter, not_true_eq_false, ne_eq, or_self, if_false]
    rw [bind_eq run_get, empty]
    rfl

/-! ### What each call keeps -/

theorem SameTree.refl (s : TempFs) : SameTree s s := ⟨fun _ => rfl, fun _ => rfl, fun _ _ => ⟨rfl, rfl⟩, rfl, le_rfl⟩

theorem SameTree.trans (first : SameTree s t) (second : SameTree t u) : SameTree s u where
  names a := (second.names a).trans (first.names a)
  kinds a := (second.kinds a).trans (first.kinds a)
  dirs a isDir := by
    obtain ⟨firstNode, entries⟩ := first.dirs a isDir
    obtain ⟨firstNode', entries'⟩ := second.dirs a ((first.kinds a).trans isDir)
    exact ⟨firstNode'.trans firstNode, entries'.trans entries⟩
  dirEntries := second.dirEntries.trans first.dirEntries
  used := first.used.trans second.used

theorem SameTree.of_inodes (inodes : t.inodes = s.inodes) (dirEntries : t.dirEntries = s.dirEntries)
    (used : s.used ≤ t.used) : SameTree s t := by
  refine ⟨fun a => ?_, fun a => ?_, fun a _ => ?_, dirEntries, used⟩ <;> simp [inodes]

theorem Wrote.sameTree {nodes : List Nat} (wrote : Wrote s t f nodes) (leaf : (s.inodes f).isDir = false) : SameTree s t := by
  refine ⟨fun a => ?_, fun a => ?_, fun a isDir => ?_, wrote.dirEntries, wrote.used⟩
  · by_cases here : a = f
    · rw [here, wrote.filename]
    · rw [wrote.others a here]
  · by_cases here : a = f
    · rw [here, wrote.isDir]
    · rw [wrote.others a here]
  · have other : a ≠ f := by
      rintro rfl
      rw [leaf] at isDir
      cases isDir
    rw [wrote.others a other]
    exact ⟨rfl, rfl⟩

theorem writeNodes_keeps {data : Mem} {len rounds i left node : Nat} {r : PUnit}
    (run : writeNodes data len rounds i left node s = .ok (r, t)) :
    t.inodes = s.inodes ∧ t.dirEntries = s.dirEntries ∧ s.used ≤ t.used := by
  induction rounds generalizing i left node s with
  | zero =>
    unfold writeNodes at run
    split at run
    · exact (stop_ok run).elim
    · obtain ⟨-, rfl⟩ := pure_ok run
      exact ⟨rfl, rfl, le_rfl⟩
  | succ rounds ih =>
    by_cases more : i < len
    · by_cases null : node = 0
      · subst null
        rw [writeNodes, if_pos more] at run
        cases run
      rw [writeNodes_round more null] at run
      obtain ⟨inodes, dirEntries, used⟩ := ih run
      revert inodes dirEntries used
      unfold putChunk extendChain
      split
      · exact fun inodes dirEntries used => ⟨inodes, dirEntries, (Nat.le_succ _).trans used⟩
      · exact fun inodes dirEntries used => ⟨inodes, dirEntries, used⟩
    · rw [writeNodes_done more] at run
      obtain ⟨-, rfl⟩ := Prod.mk.inj (Except.ok.inj run)
      exact ⟨rfl, rfl, le_rfl⟩

theorem tempfsWrite_sameTree {data : Mem} {len status : Nat} (leaf : (s.inodes f).isDir = false)
    (run : tempfsWrite f data len s = .ok (status, t)) : SameTree s t ∧ ∀ a, a ≠ f → t.inodes a = s.inodes a := by
  by_cases null : f = 0
  · subst null
    cases run
  by_cases device : (s.inodes f).type = filetypeDevice
  · unfold tempfsWrite at run
    rw [bind_eq (inode_run null), if_pos device] at run
    cases writes : (s.inodes f).operations.writeOp with
    | none =>
      rw [writes] at run
      cases run
    | some write =>
      rw [writes] at run
      obtain ⟨-, rfl⟩ := pure_ok run
      exact ⟨.refl s, fun _ _ => rfl⟩
  · rw [tempfsWrite_start null device] at run
    obtain ⟨_, _, written, run⟩ := bind_ok run
    obtain ⟨-, rfl⟩ := pure_ok run
    obtain ⟨inodes, dirEntries, used⟩ := writeNodes_keeps written
    have started : Wrote s (startChain s f len) f [] := startChain_wrote
    exact ⟨(started.sameTree leaf).trans (.of_inodes inodes dirEntries used), fun a other =>
      (congrFun inodes a).trans (started.others a other)⟩

theorem Sound.sameTree (sound : Sound s base root) (same : SameTree s t) : Sound t base root := by
  obtain ⟨⟨home, shape⟩, known, isDir, unnamed⟩ := sound
  exact ⟨⟨home, shape.sameTree same⟩, ⟨known.1, known.2.trans same.used⟩, (same.kinds root).trans isDir,
    (same.names root).trans unnamed⟩

theorem kept_plain (base root : Nat) :
    Kept (fun _ => True) (fun _ => True) (fun s => Sound s base root ∧ PlainDirs base s) (Known base) where
  find sound := (kept_sound base root).find sound.1
  make := by
    rintro s t d c maker allowed ⟨sound, plain⟩ known isDir good missing run
    have keeps := (kept_sound base root).make maker allowed sound known isDir good missing run
    obtain ⟨⟨home, shape⟩, -⟩ := sound
    obtain ⟨-, makes⟩ := shape.make_found known.1 isDir (child_missing missing) run
    refine ⟨⟨keeps.inv, fun a above kind device => ?_⟩, keeps.objs⟩
    obtain ⟨kind, device⟩ := makes.plain a kind device
    exact plain a above kind device
  opened := by
    rintro s t i ⟨sound, plain⟩ opened
    have keeps := (kept_sound base root).opened sound opened
    refine ⟨⟨keeps.inv, fun a above kind => ?_⟩, keeps.objs⟩
    rw [opened.sameTree.kinds] at kind
    rw [(opened.kinds a).1]
    exact plain a above kind

namespace Drives

/-- A walk on one drive keeps the trees of all. -/
theorem walk (drives : Drives base v) (sound : Sound v.tempFs base root) (stays : ∀ root', Sound v.tempFs base root' →
    Stays (fun s => Sound s base root' ∧ PlainDirs base s) (Known base) v w) : Drives base w := by
  have here := stays root sound
  have known := (here.keeps.objs root sound.known).1
  refine ⟨known.1.le.trans known.2, here.keeps.inv.1.shape, here.keeps.inv.2, fun n => ?_⟩
  rw [here.drives]
  exact (drives.each n).imp_right fun ⟨root', drive, sound'⟩ => ⟨root', drive, (stays root' sound').keeps.inv.1⟩

theorem create (drives : Drives base v) (creation : Creation) (run : creation.run letter v = .ok (⟨⟩, w)) :
    Drives base w := by
  have allowed : creation.Allowed fun _ => True := by cases creation <;> trivial
  have elsewhere : ∀ {root}, Mounted v letter root → Sound v.tempFs base root → Drives base w := by
    intro root mounted sound
    refine drives.walk sound fun root' sound' => ?_
    exact ((kept_plain base root').creation_sat mounted ⟨sound', drives.plain⟩ sound.known sound.nonnull sound.isDir creation
      allowed fun _ _ => trivial).ok run
  cases creation with
  | openFile rest flags mode =>
    rcases drives.cases letter with absent | ⟨root, mounted, sound⟩
    · obtain ⟨_, _, opened, run⟩ := bind_ok run
      have absent' : Absent v ((absolutePath v.currentDir (letter :: colon :: slash :: rest)).getD 0 0) := by
        rw [absolutePath_drive]
        exact absent
      rw [vfsOpen_absent absent'] at opened
      obtain ⟨-, rfl⟩ := Prod.mk.inj (Except.ok.inj opened)
      obtain ⟨-, rfl⟩ := pure_ok run
      exact drives
    · exact elsewhere mounted sound
  | mkdir rest beyond stale bound =>
    obtain ⟨_, _, made, run⟩ := bind_ok run
    obtain ⟨-, rfl⟩ := pure_ok run
    rcases drives.cases (upperCase letter) with absent | ⟨root, mounted, sound⟩
    · rw [vfsMkdir_absent absent] at made
      split at made
      · cases made
      · obtain ⟨-, rfl⟩ := Prod.mk.inj (Except.ok.inj made)
        exact drives
    · rw [vfsMkdir_upper mounted sound.nonnull sound.isDir] at made
      obtain ⟨_, _, walked, made⟩ := bind_ok made
      obtain ⟨-, rfl⟩ := pure_ok made
      refine drives.walk sound fun root' sound' => ?_
      exact ((kept_plain base root').mkdirWalk_sat ⟨sound', drives.plain⟩ (.inr ⟨sound.known, sound.isDir⟩) _ _ _
        fun _ _ => trivial).ok walked
  | createDevice rest operations =>
    rcases drives.cases letter with absent | ⟨root, mounted, sound⟩
    · obtain ⟨_, _, created, run⟩ := bind_ok run
      obtain ⟨status, same⟩ := createDevice_absent absent
      rw [same] at created
      obtain ⟨-, rfl⟩ := Prod.mk.inj (Except.ok.inj created)
      obtain ⟨-, rfl⟩ := pure_ok run
      exact drives
    · exact elsewhere mounted sound

theorem step (drives : Drives base v) (step : DriveStep v w) : Drives base w := by
  cases step with
  | mount letter status run =>
    unfold mountNew at run
    obtain ⟨root, x, made, run⟩ := bind_ok run
    obtain ⟨t, new, rfl⟩ := call_ok made
    obtain ⟨home, shape⟩ := drives.shape
    obtain ⟨sound, used, before, plain⟩ := shape.tempfsNew drives.old new
    have kept : ∀ {root'}, Sound v.tempFs base root' → Sound t base root' := by
      rintro root' ⟨-, known, isDir, unnamed⟩
      refine ⟨sound.shape, ⟨known.1, known.2.trans used⟩, ?_, ?_⟩
      · rw [before root' known.2]
        exact isDir
      · rw [before root' known.2]
        exact unnamed
    have drives' : Drives base { v with tempFs := t } :=
      ⟨drives.old.trans used, sound.shape, fun a above isDir device => drives.plain a above (plain a isDir device).1
        (plain a isDir device).2, fun n => (drives.each n).imp_right fun ⟨root', drive, sound'⟩ => ⟨root', drive, kept sound'⟩⟩
    unfold Fs.mount at run
    split at run
    · obtain ⟨-, rfl⟩ := pure_ok run
      exact drives'
    · rw [bind_eq (run_modify _)] at run
      obtain ⟨-, rfl⟩ := pure_ok run
      refine ⟨drives'.old, drives'.shape, drives'.plain, fun n => ?_⟩
      by_cases here : n = driveNum (upperCase letter)
      · rw [here]
        exact .inr ⟨root, Function.update_self .., sound⟩
      · dsimp only
        rw [Function.update_of_ne here]
        exact drives'.each n
  | unmount letter status run =>
    unfold Fs.unmount at run
    split at run
    · obtain ⟨-, rfl⟩ := pure_ok run
      exact drives
    · rw [bind_eq (run_modify _)] at run
      obtain ⟨-, rfl⟩ := pure_ok run
      refine ⟨drives.old, drives.shape, drives.plain, fun n => ?_⟩
      by_cases here : n = driveNum (upperCase letter)
      · rw [here]
        exact .inl (Function.update_self ..)
      · dsimp only
        rw [Function.update_of_ne here]
        exact drives.each n
  | create letter creation fits run => exact drives.create creation run
  | changeCd path run =>
    obtain rfl := modify_ok run
    exact ⟨drives.old, drives.shape, drives.plain, drives.each⟩
  | write m args f buffer size status leaf run =>
    replace run := vfsWrite_ok run
    unfold writeUnprinted at run
    split at run
    · obtain ⟨-, rfl⟩ := pure_ok run
      exact drives
    · rw [bind_eq run_get] at run
      rcases drives.each (driveNum f.driveChar) with empty | ⟨root, drive, -⟩
      · rw [empty] at run
        cases run
      · rw [drive] at run
        obtain ⟨t, written, rfl⟩ := call_ok run
        obtain ⟨same, others⟩ := tempfsWrite_sameTree leaf written
        obtain ⟨home, shape⟩ := drives.shape
        refine ⟨drives.old.trans same.used, ⟨home, shape.sameTree same⟩, fun a above isDir => ?_, fun n =>
          (drives.each n).imp_right fun ⟨root, drive, sound⟩ => ⟨root, drive, sound.sameTree same⟩⟩
        have isDir' : (v.tempFs.inodes a).isDir = true := (same.kinds a).symm.trans isDir
        have other : a ≠ f.privateData := by
          rintro rfl
          rw [leaf] at isDir'
          cases isDir'
        change (t.inodes a).type ≠ _
        rw [others a other]
        exact drives.plain a above isDir'

theorem start (unused : ∀ a, v.tempFs.used < a → v.tempFs.inodes a = {}) (empty : ∀ n, v.drives n = {}) :
    Drives v.tempFs.used v := by
  refine ⟨le_rfl, ⟨id, .unused unused id⟩, fun a above isDir => ?_, fun n => .inl (empty n)⟩
  rw [unused a above] at isDir
  cases isDir

theorem run (drives : Drives base v) (run : DriveRun v w) : Drives base w := by
  induction run with
  | refl => exact drives
  | tail _ step ih => exact ih.step step

end Drives
end PotatOS.Fs
