import PotatOS.Fs.Walks
import Mathlib.Data.List.DropRight

/-!
# The current directory (`change_cd`)

`change_cd` stores a path that `open` and the others later put in front of a
relative one, so it has to end in a `/`. The branch for `X:/` keeps the path as
it is, the other two always add a `/`.
-/

namespace PotatOS.Fs

open Prog

/-- `path[1] != ':' || path[2] != '/'` -/
def NotAbsolute (path : Name) : Prop := path.getD 1 0 ≠ colon ∨ path.getD 2 0 ≠ slash

instance (path : Name) : Decidable (NotAbsolute path) := inferInstanceAs (Decidable (_ ∨ _))

/-- The new `current_dir`. -/
def newDir (currentDir path : Name) : Name :=
  if NotAbsolute path then
    if path.getD 0 0 = slash then currentDir.getD 0 0 :: colon :: path ++ [slash]
    else currentDir ++ path ++ [slash]
  else path

def changeCd (path : Name) : VfsM Unit := modify fun v => { v with currentDir := newDir v.currentDir path }

def changeCds : List Name → VfsM Unit
  | [] => return
  | path :: rest => do
    changeCd path
    changeCds rest

/-! ### What it is for -/

def EndsInOne (path : Name) : Prop := ∃ front, path = front ++ [slash] ∧ front.getLast? ≠ some slash

/-- The path with exactly one `/` at its end. -/
def withSlash (path : Name) : Name := path.rdropWhile (· = slash) ++ [slash]

/-- `path` made absolute, with exactly one `/` at its end. -/
def madeAbsolute (currentDir path : Name) : Name := withSlash (absolutePath currentDir path)

/-- A path that `open` puts behind `current_dir`. -/
def IsRelative (path : Name) : Prop := NotAbsolute path ∧ path.getD 0 0 ≠ slash

/-- After `change_cd(path)` the directory ends in one `/` and relative opens go to the directory that `path` named. -/
def Composes (v : Vfs) (path : Name) : Prop :=
  ∃ w, changeCd path v = .ok ((), w) ∧ EndsInOne w.currentDir ∧ ∀ q, IsRelative q → ∀ flags mode,
    vfsOpen q flags mode w = vfsOpen (madeAbsolute v.currentDir path ++ q) flags mode w

/-- Absolute with one `/` at the end, or not absolute and without one. -/
def KeepsSlash (path : Name) : Prop :=
  if NotAbsolute path then path ≠ [] ∧ path.getLast? ≠ some slash else EndsInOne path

instance (path : Name) : Decidable (EndsInOne path) :=
  decidable_of_iff (path.getLast? = some slash ∧ path.dropLast.getLast? ≠ some slash) (by
    constructor
    · rintro ⟨last, one⟩
      exact ⟨path.dropLast, (List.dropLast_append_getLast? slash last).symm, one⟩
    · rintro ⟨front, rfl, one⟩
      simpa using one)

instance (path : Name) : Decidable (KeepsSlash path) := inferInstanceAs (Decidable (ite ..))

/-- `X:/…/` -/
structure DirForm (path : Name) : Prop where
  absolute : ¬ NotAbsolute path
  ends : path.getLast? = some slash

variable {path q cd : Name}

theorem endsInOne_iff : EndsInOne (path ++ [slash]) ↔ path.getLast? ≠ some slash := by
  constructor
  · rintro ⟨front, same, one⟩
    rwa [List.append_cancel_right same]
  · exact fun one => ⟨path, rfl, one⟩

theorem withSlash_of_not_ends (none : path.getLast? ≠ some slash) : withSlash path = path ++ [slash] := by
  rw [withSlash, List.rdropWhile_eq_self_iff.mpr]
  intro nonempty
  rw [List.getLast?_eq_some_getLast nonempty] at none
  simpa using none

theorem withSlash_of_endsInOne (one : EndsInOne path) : withSlash path = path := by
  obtain ⟨front, rfl, one⟩ := one
  rw [withSlash, List.rdropWhile_concat_pos _ _ _ (by simp)]
  exact withSlash_of_not_ends one

theorem EndsInOne.ends (one : EndsInOne path) : path.getLast? = some slash := by
  obtain ⟨front, rfl, _⟩ := one
  simp

theorem notAbsolute_append (absolute : ¬ NotAbsolute path) : ¬ NotAbsolute (path ++ q) := by
  unfold NotAbsolute at *
  obtain ⟨second, third⟩ := not_or.mp absolute
  simp only [not_not] at second third
  match path with
  | [] => simp [colon] at second
  | [_] => simp [colon] at second
  | [_, _] => simp [slash] at third
  | _ :: _ :: _ :: rest => simpa using ⟨second, third⟩

theorem absolutePath_eq : absolutePath cd path =
    if NotAbsolute path then (if path.getD 0 0 = slash then cd.getD 0 0 :: colon :: path else cd ++ path) else path := rfl

theorem absolutePath_relative (relative : IsRelative q) : absolutePath cd q = cd ++ q := by
  rw [absolutePath_eq, if_pos relative.1, if_neg relative.2]

theorem absolutePath_absolute (absolute : ¬ NotAbsolute path) : absolutePath cd path = path := if_neg absolute

theorem newDir_absolute (form : DirForm cd) : ¬ NotAbsolute (newDir cd path) := by
  unfold newDir
  split
  · split
    · rename_i first
      cases path with
      | nil => simp [slash] at first
      | cons b rest =>
        obtain rfl : b = slash := first
        simp [NotAbsolute]
    · rw [List.append_assoc]
      exact notAbsolute_append form.absolute
  · assumption

theorem newDir_endsInOne_iff (form : DirForm cd) : EndsInOne (newDir cd path) ↔ KeepsSlash path := by
  unfold newDir KeepsSlash
  split
  · split
    · rename_i first
      have nonempty : path ≠ [] := by
        rintro rfl
        simp [slash] at first
      rw [endsInOne_iff, List.getLast?_cons_of_ne_nil, List.getLast?_cons_of_ne_nil]
      · simp [nonempty]
      · simp [nonempty]
      · simp
    · rw [endsInOne_iff]
      by_cases empty : path = []
      · simp [empty, form.ends]
      · rw [List.getLast?_append_of_ne_nil _ empty]
        simp [empty]
  · rfl

/-- A directory that ends in one `/` is the path that was given, made absolute. -/
theorem newDir_eq (form : DirForm cd) (keeps : KeepsSlash path) : newDir cd path = madeAbsolute cd path := by
  have one := (newDir_endsInOne_iff form).mpr keeps
  rw [madeAbsolute, absolutePath_eq]
  by_cases form' : NotAbsolute path
  · rw [newDir, if_pos form'] at one ⊢
    rw [if_pos form']
    split at one
    · rename_i first
      rw [if_pos first, if_pos first]
      exact (withSlash_of_not_ends (endsInOne_iff.mp one)).symm
    · rename_i first
      rw [if_neg first, if_neg first]
      exact (withSlash_of_not_ends (endsInOne_iff.mp one)).symm
  · rw [newDir, if_neg form'] at one ⊢
    rw [if_neg form']
    exact (withSlash_of_endsInOne one).symm

theorem vfsOpen_absolutePath {v : Vfs} {flags : OpenFlags} {mode : UInt8}
    (same : absolutePath v.currentDir path = absolutePath v.currentDir q) :
    vfsOpen path flags mode v = vfsOpen q flags mode v := by
  unfold vfsOpen
  rw [bind_eq run_get, bind_eq run_get, same]

theorem composes_iff {v : Vfs} (form : DirForm v.currentDir) : Composes v path ↔ KeepsSlash path := by
  rw [← newDir_endsInOne_iff form]
  constructor
  · rintro ⟨w, run, one, -⟩
    obtain rfl := modify_ok run
    exact one
  · intro one
    refine ⟨_, rfl, one, fun q relative flags mode => vfsOpen_absolutePath ?_⟩
    rw [← newDir_eq form ((newDir_endsInOne_iff form).mp one), absolutePath_relative relative,
      absolutePath_absolute (notAbsolute_append (newDir_absolute form))]

theorem DirForm.changeCd {v w : Vfs} (form : DirForm v.currentDir) (keeps : KeepsSlash path)
    (run : changeCd path v = .ok ((), w)) : DirForm w.currentDir := by
  obtain rfl := modify_ok run
  exact ⟨newDir_absolute form, ((newDir_endsInOne_iff form).mpr keeps).ends⟩

theorem DirForm.changeCds {v w : Vfs} {paths : List Name} (form : DirForm v.currentDir)
    (keeps : ∀ path ∈ paths, KeepsSlash path) (run : changeCds paths v = .ok ((), w)) : DirForm w.currentDir := by
  induction paths generalizing v with
  | nil =>
    obtain ⟨-, rfl⟩ := pure_ok run
    exact form
  | cons path rest ih =>
    obtain ⟨_, u, first, run⟩ := bind_ok run
    obtain ⟨head, tail⟩ := List.forall_mem_cons.mp keeps
    exact ih (form.changeCd head first) tail run

/-- After any calls that kept the `/`, the next one composes with relative opens exactly when it keeps it too. -/
theorem change_cd_composes_iff (v w : Vfs) (paths : List Name) (path : Name) (form : DirForm v.currentDir)
    (keeps : ∀ path ∈ paths, KeepsSlash path) (run : changeCds paths v = .ok ((), w)) :
    Composes w path ↔ KeepsSlash path :=
  composes_iff (form.changeCds keeps run)

/-- Drive `R` with the file `a/f`; the current directory is its root. -/
def withDirectory : VfsM Unit := do
  let _ ← mountNew 82
  let _ ← vfsOpen [82, 58, 47, 97, 47, 102] oCreatAll 3
  modify fun v => { v with currentDir := [82, 58, 47] }

/-- From `R:/` to `a`, then to `R:/a/`: `open("f")` finds the file. -/
theorem change_cd_composes_iff_run : ∃ v w, withDirectory {} = .ok ((), v) ∧ changeCds [[97]] v = .ok ((), w) ∧
    w.currentDir = [82, 58, 47, 97, 47] ∧ Composes w [82, 58, 47, 97, 47] ∧
    returns (do changeCd [82, 58, 47, 97, 47]; vfsOpen [102] {} 1) w (fun f _ => f.isSome) = true := by
  have check : returns withDirectory {} (fun _ v => v.currentDir == [82, 58, 47] &&
      returns (changeCds [[97]]) v (fun _ w => w.currentDir == [82, 58, 47, 97, 47] &&
        returns (do changeCd [82, 58, 47, 97, 47]; vfsOpen [102] {} 1) w (fun f _ => f.isSome))) = true := by
    decide +kernel
  obtain ⟨_, v, made, check⟩ := returns_iff.mp check
  simp only [Bool.and_eq_true, beq_iff_eq] at check
  obtain ⟨root, check⟩ := check
  obtain ⟨_, w, run, check⟩ := returns_iff.mp check
  simp only [Bool.and_eq_true, beq_iff_eq] at check
  obtain ⟨inside, found⟩ := check
  have form : DirForm v.currentDir := by
    rw [root]
    exact ⟨by decide, by decide⟩
  have keeps : ∀ path ∈ [[97]], KeepsSlash path := by decide
  exact ⟨v, w, made, run, inside, (change_cd_composes_iff v w _ [82, 58, 47, 97, 47] form keeps run).mpr (by decide), found⟩

/-- After `change_cd("R:/a")`, `open("f")` looks for `R:/af` and finds nothing. -/
theorem change_cd_drops_slash : ∃ v, withDirectory {} = .ok ((), v) ∧ ¬ Composes v [82, 58, 47, 97] ∧
    returns (do changeCd [82, 58, 47, 97]; vfsOpen [102] {} 1) v (fun f _ => f.isNone) = true ∧
    returns (do changeCd [82, 58, 47, 97]; vfsOpen [82, 58, 47, 97, 47, 102] {} 1) v (fun f _ => f.isSome) = true := by
  have check : returns withDirectory {} (fun _ v => v.currentDir == [82, 58, 47] &&
      returns (do changeCd [82, 58, 47, 97]; vfsOpen [102] {} 1) v (fun f _ => f.isNone) &&
      returns (do changeCd [82, 58, 47, 97]; vfsOpen [82, 58, 47, 97, 47, 102] {} 1) v (fun f _ => f.isSome)) = true := by
    decide +kernel
  obtain ⟨_, v, run, check⟩ := returns_iff.mp check
  simp only [Bool.and_eq_true] at check
  obtain ⟨⟨_, missing⟩, found⟩ := check
  refine ⟨v, run, ?_, missing, found⟩
  rintro ⟨w, changed, one, -⟩
  obtain rfl := modify_ok changed
  have last : ([82, 58, 47, 97] : Name).getLast? = some slash := one.ends
  exact absurd last (by decide)

end PotatOS.Fs
