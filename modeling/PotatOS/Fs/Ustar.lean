import PotatOS.Fs.Names
import PotatOS.Fs.FileData

/-!
# The initial ramdisk (`ustar.c`)

`unpack_ustar` walks the headers of an archive in memory and writes each member
that is not a directory to a drive. `Archive` lays a list of members out as
ustar does; unpacking it on a new drive gives back every member's data, unless
one of them is called `stdout` and its data cannot be printed.
-/

namespace PotatOS.Fs

open Memory Prog Utils

/-! ### `unpack_ustar` -/

/-- A `char`, which is signed. -/
def signedChar (b : UInt8) : Int := if b < 128 then b.toNat else b.toNat - 256

/-- The loop of `oct2bin`. -/
def oct2binFrom (m : Mem) (n : Int) (c : Nat) : Nat → Int
  | 0 => n
  | size + 1 => oct2binFrom m (wrap32 (wrap32 (n * 8) + (signedChar (m c) - 48))) (c + 1) size

def oct2bin (m : Mem) (str size : Nat) : Int := oct2binFrom m 0 str size

/-- An `int` as a `uint64_t`. -/
def toUint64 (n : Int) : Nat := (n % 2 ^ 64).toNat

/-- `"ustar"` -/
def ustarMagic : Name := [117, 115, 116, 97, 114]

/-- `ku_memcmp` of a string with the bytes at `a`. -/
def kuMemcmp (m : Mem) (a : Nat) : Name → Bool
  | [] => true
  | b :: rest => m a = b && kuMemcmp m (a + 1) rest

/-- The type `'5'` of directories. -/
def directoryType : UInt8 := 53

/-- What the unpacking of the member at an address finds outside of the archive and the drives. `write` passes no arguments
with the data that it prints, so `va_arg` takes `args`. `check_file_type` looks at a name that `open` has freed, where the
`File` itself may lie by then: `checked` is what it makes of the name's own type. -/
structure Surroundings where
  args : Nat → Nat → UInt64
  checked : Nat → Nat → Nat := fun _ ftype => ftype

/-- One member that is not a directory: create the file, write it, close it. -/
def unpackMember (m : Mem) (env : Surroundings) (driveChar : UInt8) (archiveAddr filesize : Nat) : VfsM Unit := do
  match cString m archiveAddr (2 ^ 64) with
  | none => Prog.stop .hang
  | some name =>
    match ← vfsOpen (driveChar :: colon :: slash :: name) oCreatAll modeWriteonly with
    | none => Prog.stop .halt
    | some f =>
      let f := { f with ftype := env.checked archiveAddr f.ftype }
      let writeStatus ← vfsWrite m (env.args archiveAddr) f (archiveAddr + 512) filesize
      if writeStatus ≠ 0 then Prog.stop .halt
      vfsClose f

/-- `unpack_ustar`, with a bound on its rounds; the headers visited, in order. -/
def unpackUstar (m : Mem) (env : Surroundings) (driveChar : UInt8) : Nat → Nat → VfsM (List Nat)
  | rounds, archiveAddr => do
    if kuMemcmp m (archiveAddr + 257) ustarMagic then
      match rounds with
      | 0 => Prog.stop .hang
      | rounds + 1 =>
        let filesize := toUint64 (oct2bin m (archiveAddr + 0x7C) 11)
        if m (archiveAddr + 156) ≠ directoryType then unpackMember m env driveChar archiveAddr filesize
        let blocks := add64 (add64 filesize 511 / 512) 1
        let visited ← unpackUstar m env driveChar rounds (add64 archiveAddr (blocks * 512 % 2 ^ 64))
        return archiveAddr :: visited
    else return []

/-! ### Archives -/

/-- The components of a name, split at each `/`. -/
def splitPath : Name → List Name
  | [] => [[]]
  | b :: rest =>
    match splitPath rest with
    | [] => [[b]]
    | c :: comps => if b = slash then [] :: c :: comps else (b :: c) :: comps

structure Member where
  name : Name
  type : UInt8
  contents : Buffer

def Member.isDirectory (member : Member) : Prop := member.type = directoryType

def Member.path (member : Member) : List Name := splitPath member.name

def Member.lastComponent (member : Member) : Name := member.path.getLastD []

/-- Digit `i` of an 11-digit octal number. -/
def octalDigit (size i : Nat) : UInt8 := UInt8.ofNat (48 + size / 8 ^ (10 - i) % 8)

/-- The member's header and data at `a`. -/
structure HeaderAt (m : Mem) (a : Nat) (member : Member) : Prop where
  name : ∀ i (h : i < member.name.length), m (a + i) = member.name[i]
  terminator : m (a + member.name.length) = 0
  short : member.name.length ≤ 99
  noNul : 0 ∉ member.name
  size : ∀ i, i < 11 → m (a + 0x7C + i) = octalDigit member.contents.len i
  small : member.contents.len < 2 ^ 31
  type : m (a + 156) = member.type
  magic : kuMemcmp m (a + 257) ustarMagic = true
  noPrefix : m (a + 345) = 0
  data : ∀ i, i < member.contents.len → m (a + 512 + i) = member.contents.bytes i

/-- The bytes of a member: its header and its data in blocks of 512. -/
def Member.extent (member : Member) : Nat := 512 * (1 + (member.contents.len + 511) / 512)

/-- The members from `a` on, then a block without the magic. -/
def Archive (m : Mem) : Nat → List Member → Prop
  | a, [] => kuMemcmp m (a + 257) ustarMagic = false ∧ a + 512 ≤ 2 ^ 64
  | a, member :: rest => HeaderAt m a member ∧ Archive m (a + member.extent) rest

/-- `write` prints the member's data. -/
def Surroundings.Prints (env : Surroundings) (a : Nat) (member : Member) : Prop :=
  member.type ≠ directoryType ∧ env.checked a (checkFileType member.lastComponent) = ftypeStdout

/-- What is printed of the members from `a` on can be printed: as formats their data are strings without undefined
conversions. -/
def Printable (m : Mem) (env : Surroundings) : Nat → List Member → Prop
  | _, [] => True
  | a, member :: rest =>
    (env.Prints a member → FormatDefined m (a + 512) (env.args a)) ∧ Printable m env (a + member.extent) rest

/-- The addresses of the headers. -/
def headersFrom : Nat → List Member → List Nat
  | _, [] => []
  | a, member :: rest => a :: headersFrom (a + member.extent) rest

theorem join_splitPath (name : Name) : joinPath (splitPath name) = name ∧ splitPath name ≠ [] := by
  induction name with
  | nil => exact ⟨rfl, by simp [splitPath]⟩
  | cons b rest ih =>
    obtain ⟨joined, nonempty⟩ := ih
    obtain ⟨c, comps, eq⟩ := List.exists_cons_of_ne_nil nonempty
    rw [eq] at joined
    simp only [splitPath, eq]
    by_cases same : b = slash
    · rw [if_pos same]
      exact ⟨by rw [joinPath, joined, same]; rfl, List.cons_ne_nil _ _⟩
    · rw [if_neg same]
      refine ⟨?_, List.cons_ne_nil _ _⟩
      cases comps with
      | nil => rw [← joined]; rfl
      | cons next comps => rw [← joined]; rfl

/-! ### Reading a header -/

theorem octalDigit_value (size i : Nat) : signedChar (octalDigit size i) - 48 = (size / 8 ^ (10 - i) % 8 : Nat) := by
  have bound : size / 8 ^ (10 - i) % 8 < 8 := Nat.mod_lt _ (by decide)
  unfold signedChar octalDigit
  have toNat : (UInt8.ofNat (48 + size / 8 ^ (10 - i) % 8)).toNat = 48 + size / 8 ^ (10 - i) % 8 := by
    rw [UInt8.toNat_ofNat', Nat.mod_eq_of_lt (by omega)]
  rw [if_pos (by rw [UInt8.lt_iff_toNat_lt, toNat]; show _ < 128; omega), toNat]
  push_cast
  omega

/-- The digits read so far are the leading ones of the size. -/
theorem oct2binFrom_digits {m : Mem} {a size k : Nat} (digits : ∀ i, i < 11 → m (a + i) = octalDigit size i)
    (small : size < 2 ^ 31) (within : k ≤ 11) :
    oct2binFrom m (size / 8 ^ k : Nat) (a + (11 - k)) k = size := by
  induction k with
  | zero => simp [oct2binFrom]
  | succ k ih =>
    have digit := octalDigit_value size (11 - (k + 1))
    rw [show 10 - (11 - (k + 1)) = k by omega] at digit
    have step : size / 8 ^ (k + 1) * 8 + size / 8 ^ k % 8 = size / 8 ^ k := by
      rw [pow_succ, ← Nat.div_div_eq_div_mul]
      exact Nat.div_add_mod' _ 8
    have below : size / 8 ^ k ≤ size := Nat.div_le_self ..
    have shifted : ∀ q : Nat, q * 8 < 2 ^ 31 → wrap32 ((q : Int) * 8) = (q * 8 : Nat) := by
      intro q bound
      push_cast
      exact wrap32_of_small (by omega) (by omega)
    have value : ((size / 8 ^ (k + 1) * 8 : Nat) : Int) + (size / 8 ^ k % 8 : Nat) = (size / 8 ^ k : Nat) := by
      exact_mod_cast step
    rw [oct2binFrom, digits _ (by omega), digit, shifted _ (by omega), value, wrap32_of_small (by omega) (by omega),
      show a + (11 - (k + 1)) + 1 = a + (11 - k) by omega]
    exact ih (by omega)

theorem HeaderAt.filesize {m : Mem} {a : Nat} {member : Member} (header : HeaderAt m a member) :
    toUint64 (oct2bin m (a + 0x7C) 11) = member.contents.len := by
  have small := header.small
  have digits := oct2binFrom_digits header.size small (le_refl 11)
  rw [Nat.div_eq_of_lt (by omega)] at digits
  unfold oct2bin toUint64
  have eq : oct2binFrom m 0 (a + 0x7C) 11 = (member.contents.len : Int) := digits
  rw [eq]
  omega

theorem HeaderAt.cString {m : Mem} {a : Nat} {member : Member} (header : HeaderAt m a member) :
    cString m a (2 ^ 64) = some member.name :=
  cString_run header.name header.terminator header.noNul (by have := header.short; omega)

/-! ### The drive while it is filled -/

/-- The created paths are regular files, with the given contents. -/
structure Stored (v : Vfs) (letter : UInt8) (base root : Nat) (T : Tree) (names : Names)
    (paths : List (List Name)) (contentsOf : List Name → Buffer) : Prop where
  agrees : Agrees v letter base root T names paths
  files : ∃ chains contents, Contents v.tempFs (fun i => ∃ p, names p = some i) chains contents ∧
    ∀ p i, names p = some i → contents i = contentsOf p
  unwritten : ∀ p, names p = none → contentsOf p = .empty

variable {v : Vfs} {letter : UInt8} {base root i : Nat} {path : List Name} {T T' : Tree} {names : Names}
  {paths : List (List Name)} {contentsOf : List Name → Buffer}

/-- Opening keeps what every file holds; a file that is new is empty. -/
theorem Stored.opened (stored : Stored v letter base root T names paths contentsOf) {t : TempFs} {name : Name}
    (reached : Reached v.tempFs t base root T T' path name i) (at_ : T.inodeAt path = names path)
    (agrees : Agrees { v with tempFs := t } letter base root T' (Function.update names path (some i)) paths)
    (same : ∀ j, names path = some j → j = i) (new : names path = none → ∀ q, names q ≠ some i) :
    Stored { v with tempFs := t } letter base root T' (Function.update names path (some i)) paths contentsOf := by
  obtain ⟨chains, contents, held, byPath⟩ := stored.files
  have kept : ∀ p j, names p = some j → Holds t j (chains j) (contents j).bytes (contents j).len := by
    intro p j created
    have holds := held.holds j ⟨p, created⟩
    obtain ⟨found, leaf⟩ := (stored.agrees.created p j).mp created
    refine holds.kept (reached.growth.files p j found leaf holds.regular) (fun a _ => ?_) reached.growth.used
    rw [reached.growth.fileNodes]
  have unwritten : ∀ p, Function.update names path (some i) p = none → contentsOf p = .empty := by
    intro p absent
    by_cases target : p = path
    · rw [target, Function.update_self] at absent
      cases absent
    · rw [Function.update_of_ne target] at absent
      exact stored.unwritten p absent
  cases created : names path with
  | some j =>
    obtain rfl := same j created
    rw [← created, Function.update_eq_self] at agrees unwritten ⊢
    exact ⟨agrees, ⟨chains, contents, ⟨fun f ⟨p, file⟩ => kept p f file, held.apart⟩, byPath⟩, unwritten⟩
  | none =>
    have other : ∀ p j, names p = some j → j ≠ i := fun p j file eq => new created p (eq ▸ file)
    have cases_ : ∀ p j, Function.update names path (some i) p = some j → p = path ∧ j = i ∨ names p = some j := by
      intro p j file
      by_cases target : p = path
      · rw [target, Function.update_self] at file
        exact .inl ⟨target, (Option.some.inj file).symm⟩
      · rw [Function.update_of_ne target] at file
        exact .inr file
    have node := reached.new (at_.trans created)
    have empty : Holds t i [] Buffer.empty.bytes Buffer.empty.len := {
      nonnull := (reached.models.valid path i reached.at_).1
      regular := by rw [node]; simp [filetypeDevice]
      linked := by rw [node]; rfl
      old := by simp
      length := by rw [node]; rfl
      stores := fun k inside => absurd inside (Nat.not_lt_zero k) }
    refine ⟨agrees, ⟨Function.update chains i [], Function.update contents i .empty, ⟨?_, ?_⟩, ?_⟩, unwritten⟩
    · rintro f ⟨p, file⟩
      rcases cases_ p f file with ⟨-, rfl⟩ | old
      · rw [Function.update_self, Function.update_self]
        exact empty
      · rw [Function.update_of_ne (other p f old), Function.update_of_ne (other p f old)]
        exact kept p f old
    · rintro f g ⟨p, file⟩ ⟨q, file'⟩ apart a inside
      rcases cases_ p f file with ⟨-, rfl⟩ | old
      · rw [Function.update_self] at inside
        cases inside
      · rw [Function.update_of_ne (other p f old)] at inside
        rcases cases_ q g file' with ⟨-, rfl⟩ | old'
        · rw [Function.update_self]
          exact List.not_mem_nil
        · rw [Function.update_of_ne (other q g old')]
          exact held.apart f g ⟨p, old⟩ ⟨q, old'⟩ apart a inside
    · intro p j file
      rcases cases_ p j file with ⟨rfl, rfl⟩ | old
      · rw [Function.update_self, stored.unwritten p created]
      · rw [Function.update_of_ne (other p j old)]
        exact byPath p j old

/-- A write to a file changes no name. -/
theorem Agrees.wrote (agrees : Agrees v letter base root T names paths) {t : TempFs} {nodes : List Nat}
    (wrote : Wrote v.tempFs t i nodes) (file : names path = some i) (regular : (t.inodes i).type ≠ filetypeDevice) :
    Agrees { v with tempFs := t } letter base root T names paths := by
  have leaf := ((agrees.created path i).mp file).2
  have kinds : ∀ a, (t.inodes a).isDir = (v.tempFs.inodes a).isDir := by
    intro a
    by_cases same : a = i
    · rw [same, wrote.isDir]
    · rw [wrote.others a same]
  have sameTree : SameTree v.tempFs t := by
    refine ⟨fun a => ?_, kinds, fun a isDir => ?_, wrote.dirEntries, wrote.used⟩
    · by_cases same : a = i
      · rw [same, wrote.filename]
      · rw [wrote.others a same]
    · have other : a ≠ i := by
        rintro rfl
        rw [leaf] at isDir
        cases isDir
      rw [wrote.others a other]
      exact ⟨rfl, rfl⟩
  refine ⟨agrees.mounted.kept t, agrees.models.same sameTree, fun p j => ?_, fun p d found isDir => ?_,
    fun p j created device => ?_, agrees.inUse⟩
  · dsimp only
    rw [kinds]
    exact agrees.created p j
  · dsimp only at isDir
    rw [kinds] at isDir
    exact agrees.dirs p d found isDir
  · dsimp only at device ⊢
    by_cases same : j = i
    · rw [same] at device
      exact absurd device regular
    · rw [wrote.others j same] at device ⊢
      exact agrees.devices p j created device

theorem Stored.written (stored : Stored v letter base root T names paths contentsOf) (file : names path = some i)
    (source : Mem) (buffer : Buffer) (bytes : ∀ k, k < buffer.len → source k = buffer.bytes k) :
    ∃ t, tempfsWrite i source buffer.len v.tempFs = .ok (0, t) ∧ (t.inodes i).type ≠ filetypeDevice ∧ i ≠ 0 ∧
      Stored { v with tempFs := t } letter base root T names paths (Function.update contentsOf path buffer) := by
  obtain ⟨chains, contents, held, byPath⟩ := stored.files
  obtain ⟨t, nodes', run, after, wrote, -⟩ := held.write ⟨path, file⟩ ⟨source, buffer.len, buffer.fits⟩
  have holds := after.holds i ⟨path, file⟩
  refine ⟨t, run, holds.regular, holds.nonnull, stored.agrees.wrote wrote file holds.regular,
    ⟨Function.update chains i nodes', Function.update contents i buffer, after.congr (fun f _ => ?_)
      (fun f _ k inside => ?_), ?_⟩, ?_⟩
  · by_cases same : f = i
    · rw [same, Function.update_self, Function.update_self]
    · rw [Function.update_of_ne same, Function.update_of_ne same]
  · by_cases same : f = i
    · rw [same, Function.update_self] at inside ⊢
      rw [Function.update_self]
      exact (bytes k inside).symm
    · rw [Function.update_of_ne same, Function.update_of_ne same]
  · intro p j created
    by_cases target : p = path
    · rw [target] at created ⊢
      obtain rfl := Option.some.inj (file.symm.trans created)
      rw [Function.update_self, Function.update_self]
    · have other : j ≠ i := by
        rintro rfl
        have first := ((stored.agrees.created p j).mp created).1
        have second := ((stored.agrees.created path j).mp file).1
        exact target (stored.agrees.models.distinct p path j first second)
      rw [Function.update_of_ne other, Function.update_of_ne target]
      exact byPath p j created
  · intro p absent
    have target : p ≠ path := by
      rintro rfl
      rw [file] at absent
      cases absent
    rw [Function.update_of_ne target]
    exact stored.unwritten p absent

/-- `open` of a path that was created, or with `O_CREATALL`. -/
theorem Stored.open_run (stored : Stored v letter base root T names paths contentsOf) (free : PrefixFree paths)
    (inUse : path ∈ paths) (nonempty : path ≠ []) (ordinary : ∀ c ∈ path, Ordinary c) (flags : OpenFlags)
    (mode : UInt8) (makes : names path = none → flags.creatAll = true) :
    ∃ t T' i f, vfsOpen (drivePath letter path) flags mode v = .ok (some f, { v with tempFs := t }) ∧
      f.mode = mode ∧ f.driveChar = letter ∧ f.privateData = i ∧ f.ftype = checkFileType (path.getLastD []) ∧
      Stored { v with tempFs := t } letter base root T' (Function.update names path (some i)) paths contentsOf := by
  obtain ⟨t, T', i, run, reached, next, same, new⟩ :=
    stored.agrees.open_run free inUse nonempty ordinary flags mode makes
  have at_ := stored.agrees.at_path (stored.agrees.clear free inUse nonempty)
  have last : checkFileType (path.getLast nonempty) = checkFileType (path.getLastD []) := by
    rw [List.getLastD_eq_getLast?, List.getLast?_eq_some_getLast nonempty]
    rfl
  exact ⟨t, T', i, _, run, rfl, rfl, rfl, last, stored.opened reached at_ next same new⟩

theorem Mounted.fs {f : File} (mounted : Mounted v letter root) (drive : f.driveChar = letter) :
    (v.drives (driveNum f.driveChar)).fs = .tempFs := by
  rw [drive, mounted.drive]

/-! ### Unpacking -/

/-- `open` of a member gives a file for writing, which the member's contents can go to. -/
theorem Stored.open_member {m : Mem} {a : Nat} {member : Member}
    (stored : Stored v letter base root T names paths contentsOf) (free : PrefixFree paths)
    (header : HeaderAt m a member) (inUse : member.path ∈ paths) (ordinary : ∀ c ∈ member.path, Ordinary c) :
    ∃ u w T' i f, vfsOpen (letter :: colon :: slash :: member.name) oCreatAll modeWriteonly v = .ok (some f, u) ∧
      f.mode = modeWriteonly ∧ f.ftype = checkFileType member.lastComponent ∧
      (∀ ftype, writeUnprinted { f with ftype := ftype } (fun x => m (a + 512 + x)) member.contents.len u = .ok (0, w) ∧
        vfsClose { f with ftype := ftype } w = .ok (⟨⟩, w)) ∧
      Stored w letter base root T' (Function.update names member.path (some i)) paths
        (Function.update contentsOf member.path member.contents) := by
  obtain ⟨joined, nonempty⟩ := join_splitPath member.name
  obtain ⟨t, T', i, f, opens, mode, drive, inode, ftype, next⟩ :=
    stored.open_run free inUse nonempty ordinary oCreatAll modeWriteonly fun _ => rfl
  obtain ⟨u, writes, regular, nonnull, last⟩ :=
    next.written (Function.update_self ..) (fun x => m (a + 512 + x)) member.contents header.data
  have pathEq : letter :: colon :: slash :: member.name = drivePath letter member.path := by
    unfold drivePath Member.path
    rw [joined]
  rw [pathEq]
  refine ⟨_, _, T', i, f, opens, mode, ftype, fun ftype => ⟨?_, ?_⟩, last⟩
  · unfold writeUnprinted
    dsimp only
    rw [mode, if_neg (by decide), bind_eq run_get, next.agrees.mounted.fs drive, inode]
    exact FileSystem.call_run writes
  · unfold vfsClose
    dsimp only
    rw [bind_eq run_get, last.agrees.mounted.fs drive, inode]
    refine FileSystem.call_run ?_
    unfold tempfsClose
    rw [bind_eq (inode_run nonnull), if_neg (fun device => regular device.1)]
    rfl

theorem Stored.unpackMember {m : Mem} {env : Surroundings} {a : Nat} {member : Member}
    (stored : Stored v letter base root T names paths contentsOf) (free : PrefixFree paths)
    (header : HeaderAt m a member) (inUse : member.path ∈ paths) (ordinary : ∀ c ∈ member.path, Ordinary c)
    (file : member.type ≠ directoryType) (printable : env.Prints a member → FormatDefined m (a + 512) (env.args a)) :
    ∃ w T' i, unpackMember m env letter a member.contents.len v = .ok (⟨⟩, w) ∧
      Stored w letter base root T' (Function.update names member.path (some i)) paths
        (Function.update contentsOf member.path member.contents) := by
  obtain ⟨u, w, T', i, f, opens, mode, ftype, uses, last⟩ := stored.open_member free header inUse ordinary
  obtain ⟨writes, closes⟩ := uses (env.checked a f.ftype)
  refine ⟨w, T', i, ?_, last⟩
  unfold Fs.unpackMember
  rw [header.cString]
  dsimp only
  rw [bind_eq opens]
  dsimp only
  rw [ftype] at writes closes ⊢
  rw [bind_eq ((vfsWrite_printed fun stdout => printable ⟨file, stdout⟩).trans writes), if_neg (by decide)]
  exact closes

theorem Stored.unpackMember_faults {m : Mem} {env : Surroundings} {a : Nat} {member : Member}
    (stored : Stored v letter base root T names paths contentsOf) (free : PrefixFree paths)
    (header : HeaderAt m a member) (inUse : member.path ∈ paths) (ordinary : ∀ c ∈ member.path, Ordinary c)
    (prints : env.Prints a member) (undefined : ¬ FormatDefined m (a + 512) (env.args a)) :
    Fs.unpackMember m env letter a member.contents.len v = .error .fault := by
  obtain ⟨u, w, T', i, f, opens, mode, ftype, uses, last⟩ := stored.open_member free header inUse ordinary
  have writable : modeWriteonly ≠ modeReadonly := by decide
  rw [← mode] at writable
  unfold Fs.unpackMember
  rw [header.cString]
  dsimp only
  rw [bind_eq opens]
  dsimp only
  rw [ftype]
  exact bind_error (vfsWrite_faults writable prints.2 undefined)

/-- The contents after the members are unpacked in order: the last one of a path stays. -/
def unpacked (contentsOf : List Name → Buffer) (members : List Member) : List Name → Buffer :=
  members.foldl (fun contentsOf member =>
    if member.type = directoryType then contentsOf
    else Function.update contentsOf member.path member.contents) contentsOf

/-- The cursor moves from one header to the next. -/
theorem HeaderAt.advance {m : Mem} {a : Nat} {member : Member} (header : HeaderAt m a member)
    (room : a + member.extent < 2 ^ 64) :
    add64 a (add64 (add64 member.contents.len 511 / 512) 1 * 512 % 2 ^ 64) = a + member.extent := by
  have small := header.small
  unfold Member.extent at room ⊢
  rw [add64_of_lt (a := member.contents.len) (by omega),
    add64_of_lt (a := (member.contents.len + 511) / 512) (by omega), Nat.mod_eq_of_lt (by omega),
    add64_of_lt (by omega)]
  omega

theorem Archive.room {m : Mem} {a : Nat} {members : List Member} (archive : Archive m a members) :
    a < 2 ^ 64 := by
  induction members generalizing a with
  | nil =>
    have room := archive.2
    omega
  | cons member rest ih =>
    have later := ih archive.2
    omega

/-- The round for one header. -/
theorem HeaderAt.round {m : Mem} {env : Surroundings} {a rounds : Nat} {member : Member} (header : HeaderAt m a member)
    (room : a + member.extent < 2 ^ 64) : unpackUstar m env letter (rounds + 1) a = do
      if member.type ≠ directoryType then Fs.unpackMember m env letter a member.contents.len
      let visited ← unpackUstar m env letter rounds (a + member.extent)
      return a :: visited := by
  rw [unpackUstar, header.magic, if_pos rfl, header.filesize, header.type]
  dsimp only
  rw [header.advance room]

/-- Every header is visited once, in order, and each member's path holds its contents. -/
theorem Stored.unpack {m : Mem} {env : Surroundings} {a rounds : Nat} {members : List Member}
    (stored : Stored v letter base root T names paths contentsOf) (free : PrefixFree paths)
    (archive : Archive m a members) (enough : members.length ≤ rounds)
    (files : ∀ member ∈ members, member.type ≠ directoryType →
      member.path ∈ paths ∧ ∀ c ∈ member.path, Ordinary c) (printable : Printable m env a members) :
    ∃ w T' names', unpackUstar m env letter rounds a v = .ok (headersFrom a members, w) ∧
      Stored w letter base root T' names' paths (unpacked contentsOf members) ∧
      (∀ p, names p ≠ none → names' p ≠ none) ∧
      ∀ member ∈ members, member.type ≠ directoryType → names' member.path ≠ none := by
  induction members generalizing a v names contentsOf T rounds with
  | nil =>
    refine ⟨v, T, names, ?_, stored, fun _ created => created, by simp⟩
    unfold unpackUstar
    rw [archive.1]
    rfl
  | cons member rest ih =>
    obtain ⟨header, later⟩ := archive
    obtain ⟨here, printable⟩ := printable
    obtain ⟨rounds, rfl⟩ := Nat.exists_eq_succ_of_ne_zero (show rounds ≠ 0 by simp at enough; omega)
    have enough' : rest.length ≤ rounds := by simpa using enough
    have files' := fun other inside => files other (List.mem_cons_of_mem member inside)
    rw [header.round later.room]
    by_cases directory : member.type = directoryType
    · obtain ⟨w, T', names', run, last, kept, created⟩ := ih stored later enough' files' printable
      refine ⟨w, T', names', ?_, ?_, kept, ?_⟩
      · rw [if_neg (not_not_intro directory)]
        exact bind_eq run
      · unfold unpacked at last ⊢
        rw [List.foldl_cons, if_pos directory]
        exact last
      · intro other inside notDirectory
        rcases List.mem_cons.mp inside with rfl | inside
        · exact absurd directory notDirectory
        · exact created other inside notDirectory
    · obtain ⟨inUse, ordinary⟩ := files member (List.mem_cons_self ..) directory
      obtain ⟨u, T', i, run, next⟩ := stored.unpackMember free header inUse ordinary directory here
      obtain ⟨w, T'', names', runs, last, kept, created⟩ := ih next later enough' files' printable
      refine ⟨w, T'', names', ?_, ?_, ?_, ?_⟩
      · rw [if_pos directory, bind_eq run]
        exact bind_eq runs
      · unfold unpacked at last ⊢
        rw [List.foldl_cons, if_neg directory]
        exact last
      · intro p before
        apply kept
        by_cases target : p = member.path
        · rw [target, Function.update_self]
          exact Option.some_ne_none i
        · rw [Function.update_of_ne target]
          exact before
      · intro other inside notDirectory
        rcases List.mem_cons.mp inside with rfl | inside
        · apply kept
          rw [Function.update_self]
          exact Option.some_ne_none i
        · exact created other inside notDirectory

/-- The first member that cannot be printed ends the unpacking. -/
theorem Stored.unpack_faults {m : Mem} {env : Surroundings} {a rounds : Nat} {members : List Member}
    (stored : Stored v letter base root T names paths contentsOf) (free : PrefixFree paths)
    (archive : Archive m a members) (enough : members.length ≤ rounds)
    (files : ∀ member ∈ members, member.type ≠ directoryType →
      member.path ∈ paths ∧ ∀ c ∈ member.path, Ordinary c) (unprintable : ¬ Printable m env a members) :
    unpackUstar m env letter rounds a v = .error .fault := by
  induction members generalizing a v names contentsOf T rounds with
  | nil => exact absurd trivial unprintable
  | cons member rest ih =>
    obtain ⟨header, later⟩ := archive
    obtain ⟨rounds, rfl⟩ := Nat.exists_eq_succ_of_ne_zero (show rounds ≠ 0 by simp at enough; omega)
    have enough' : rest.length ≤ rounds := by simpa using enough
    have files' := fun other inside => files other (List.mem_cons_of_mem member inside)
    rw [header.round later.room]
    by_cases here : env.Prints a member → FormatDefined m (a + 512) (env.args a)
    · have behind : ¬ Printable m env (a + member.extent) rest := fun printable => unprintable ⟨here, printable⟩
      by_cases directory : member.type = directoryType
      · rw [if_neg (not_not_intro directory)]
        exact bind_error (ih stored later enough' files' behind)
      · obtain ⟨inUse, ordinary⟩ := files member (List.mem_cons_self ..) directory
        obtain ⟨u, T', i, run, next⟩ := stored.unpackMember free header inUse ordinary directory here
        rw [if_pos directory, bind_eq run]
        exact bind_error (ih next later enough' files' behind)
    · obtain ⟨prints, undefined⟩ := Classical.not_imp.mp here
      obtain ⟨inUse, ordinary⟩ := files member (List.mem_cons_self ..) prints.1
      rw [if_pos prints.1]
      exact bind_error (stored.unpackMember_faults free header inUse ordinary prints undefined)

/-! ### What is read back -/

/-- `last` is the last of the members of that name that are not directories. -/
def LastOf (members : List Member) (name : Name) (last : Member) : Prop :=
  ∃ before after, members = before ++ last :: after ∧ last.type ≠ directoryType ∧ last.name = name ∧
    ∀ later ∈ after, later.type ≠ directoryType → later.name ≠ name

theorem exists_lastOf {members : List Member} {name : Name}
    (named : ∃ member ∈ members, member.type ≠ directoryType ∧ member.name = name) :
    ∃ last, LastOf members name last := by
  induction members with
  | nil =>
    obtain ⟨member, inside, -⟩ := named
    cases inside
  | cons first rest ih =>
    by_cases again : ∃ member ∈ rest, member.type ≠ directoryType ∧ member.name = name
    · obtain ⟨last, before, after, rfl, isLast⟩ := ih again
      exact ⟨last, first :: before, after, rfl, isLast⟩
    · obtain ⟨member, inside, file, same⟩ := named
      rcases List.mem_cons.mp inside with rfl | inside
      · exact ⟨member, [], rest, rfl, file, same, fun later inside file' same' => again ⟨later, inside, file', same'⟩⟩
      · exact absurd ⟨member, inside, file, same⟩ again

theorem unpacked_other (contentsOf : List Name → Buffer) {members : List Member} {path : List Name}
    (other : ∀ member ∈ members, member.type ≠ directoryType → member.path ≠ path) :
    unpacked contentsOf members path = contentsOf path := by
  induction members generalizing contentsOf with
  | nil => rfl
  | cons first rest ih =>
    have later := fun member inside => other member (List.mem_cons_of_mem first inside)
    unfold unpacked at ih ⊢
    rw [List.foldl_cons, ih _ later]
    by_cases directory : first.type = directoryType
    · rw [if_pos directory]
    · rw [if_neg directory, Function.update_of_ne (other first (List.mem_cons_self ..) directory).symm]

/-- The last member of a name is what its path holds. -/
theorem LastOf.unpacked {contentsOf : List Name → Buffer} {members : List Member} {name : Name} {last : Member}
    (isLast : LastOf members name last) : unpacked contentsOf members (splitPath name) = last.contents := by
  obtain ⟨before, after, rfl, file, rfl, noLater⟩ := isLast
  have apart : ∀ later ∈ after, later.type ≠ directoryType → later.path ≠ splitPath last.name := by
    intro later inside isFile same
    apply noLater later inside isFile
    rw [← (join_splitPath later.name).1, ← (join_splitPath last.name).1]
    exact congrArg joinPath same
  have rest := unpacked_other (Function.update (Fs.unpacked contentsOf before) last.path last.contents) apart
  unfold Fs.unpacked at rest ⊢
  rw [List.foldl_append, List.foldl_cons, if_neg file, rest]
  exact Function.update_self ..

/-- `open(name, 0, MODE_READONLY)` gives a file with the contents: `file_length` is its length, and reading that
many bytes fills a buffer with them and changes nothing behind. -/
def OpensAs (w : Vfs) (path : Name) (contents : Buffer) : Prop :=
  ∃ f w', vfsOpen path {} modeReadonly w = .ok (some f, w') ∧ fileLength f w' = .ok (contents.len, w') ∧
    ∀ buf, ∃ filled, vfsRead f buf contents.len w' = .ok ((0, filled), w') ∧
      (∀ x, x < contents.len → filled x = contents.bytes x) ∧ ∀ x, contents.len ≤ x → filled x = buf x

theorem Stored.opensAs (stored : Stored v letter base root T names paths contentsOf) (free : PrefixFree paths)
    (inUse : path ∈ paths) (nonempty : path ≠ []) (ordinary : ∀ c ∈ path, Ordinary c) (created : names path ≠ none) :
    OpensAs v (drivePath letter path) (contentsOf path) := by
  obtain ⟨t, T', i, f, opens, mode, drive, inode, -, next⟩ :=
    stored.open_run free inUse nonempty ordinary {} modeReadonly fun absent => absurd absent created
  obtain ⟨chains, contents, held, byPath⟩ := next.files
  have here : Function.update names path (some i) path = some i := Function.update_self ..
  have reads := held.readsAs ⟨path, here⟩
  rw [byPath path i here] at reads
  refine ⟨f, _, opens, ?_, fun buf => ?_⟩
  · unfold fileLength
    rw [bind_eq run_get, next.agrees.mounted.fs drive, inode]
    exact FileSystem.call_run reads.1
  · obtain ⟨filled, run, inside, outside⟩ := reads.2 buf _ le_rfl
    refine ⟨filled, ?_, inside, outside⟩
    unfold vfsRead
    rw [mode, if_neg (by decide), bind_eq run_get, next.agrees.mounted.fs drive, inode]
    exact FileSystem.call_run run

/-- The paths of the members that are not directories. -/
def filePaths (members : List Member) : List (List Name) :=
  (members.filter fun member => member.type ≠ directoryType).map Member.path

/-- Unpacking an archive on a new drive visits each header once, in order, and afterwards every member that is not a
directory opens as the last member of its name. -/
def UnpacksBack (m : Mem) (env : Surroundings) (letter : UInt8) (rounds a : Nat) (members : List Member) (v : Vfs) : Prop :=
  ∃ w, (do let _ ← mountNew letter; unpackUstar m env letter rounds a) v = .ok (headersFrom a members, w) ∧
    ∀ member ∈ members, member.type ≠ directoryType → ∃ last, LastOf members member.name last ∧
      OpensAs w (letter :: colon :: slash :: member.name) last.contents

section unpack

variable {m : Mem} {env : Surroundings} {a rounds : Nat} {members : List Member}

/-- The new drive holds no file yet. -/
theorem stored_mountNew (isLetter : isDriveLetter letter = true)
    (unused : ∀ a, v.tempFs.used < a → v.tempFs.inodes a = {}) (members : List Member) :
    ∃ u root T, mountNew letter v = .ok (0, u) ∧
      Stored u letter v.tempFs.used root T (fun _ => none) (filePaths members) fun _ => .empty := by
  obtain ⟨u, root, T, mounts, start⟩ := agrees_mountNew isLetter unused (filePaths members)
  refine ⟨u, root, T, mounts, start, ⟨fun _ => [], fun _ => .empty, ⟨?_, by simp⟩, ?_⟩, fun _ _ => rfl⟩
  · rintro f ⟨p, impossible⟩
    cases impossible
  · intro p i impossible
    cases impossible

theorem mem_filePaths {member : Member} (inside : member ∈ members) (file : member.type ≠ directoryType) :
    member.path ∈ filePaths members :=
  List.mem_map_of_mem (List.mem_filter.mpr ⟨inside, decide_eq_true file⟩)

theorem unpacksBack_of_printable (isLetter : isDriveLetter letter = true)
    (unused : ∀ a, v.tempFs.used < a → v.tempFs.inodes a = {}) (archive : Archive m a members)
    (ordinary : ∀ member ∈ members, member.type ≠ directoryType → ∀ c ∈ member.path, Ordinary c)
    (free : PrefixFree (filePaths members)) (enough : members.length ≤ rounds) (printable : Printable m env a members) :
    UnpacksBack m env letter rounds a members v := by
  obtain ⟨u, root, T, mounts, stored⟩ := stored_mountNew isLetter unused members
  obtain ⟨w, T', names, run, last, -, created⟩ := stored.unpack free archive enough (fun member inside file =>
    ⟨mem_filePaths inside file, ordinary member inside file⟩) printable
  refine ⟨w, ?_, fun member inside file => ?_⟩
  · rw [bind_eq mounts]
    exact run
  · obtain ⟨other, isLast⟩ := exists_lastOf ⟨member, inside, file, rfl⟩
    obtain ⟨joined, nonempty⟩ := join_splitPath member.name
    have opens := last.opensAs free (mem_filePaths inside file) nonempty (ordinary member inside file)
      (created member inside file)
    have pathEq : drivePath letter member.path = letter :: colon :: slash :: member.name := by
      unfold drivePath Member.path
      rw [joined]
    have contents : unpacked (fun _ => .empty) members member.path = other.contents := isLast.unpacked
    rw [pathEq, contents] at opens
    exact ⟨other, isLast, opens⟩

theorem not_unpacksBack (isLetter : isDriveLetter letter = true)
    (unused : ∀ a, v.tempFs.used < a → v.tempFs.inodes a = {}) (archive : Archive m a members)
    (ordinary : ∀ member ∈ members, member.type ≠ directoryType → ∀ c ∈ member.path, Ordinary c)
    (free : PrefixFree (filePaths members)) (enough : members.length ≤ rounds)
    (unprintable : ¬ Printable m env a members) : ¬ UnpacksBack m env letter rounds a members v := by
  obtain ⟨u, root, T, mounts, stored⟩ := stored_mountNew isLetter unused members
  rintro ⟨w, run, -⟩
  rw [bind_eq mounts, stored.unpack_faults free archive enough (fun member inside file =>
    ⟨mem_filePaths inside file, ordinary member inside file⟩) unprintable] at run
  cases run

end unpack

/-- The directory `d/` and the file `d/a` of three bytes. -/
def tinyMembers : List Member :=
  [⟨[100, 47], 53, .empty⟩, ⟨[100, 47, 97], 48, ⟨fun _ => 7, 3, by decide⟩⟩]

/-- The bytes of a header, by their offset. -/
def headerByte (member : Member) (o : Nat) : UInt8 :=
  if o < 100 then member.name.getD o 0
  else if 124 ≤ o ∧ o < 135 then octalDigit member.contents.len (o - 124)
  else if o = 156 then member.type
  else if 257 ≤ o ∧ o < 262 then ustarMagic.getD (o - 257) 0
  else 0

/-- `tinyMembers` as an archive at address 4096. -/
def tinyArchive : Mem := fun x =>
  if x < 4608 then headerByte ⟨[100, 47], 53, .empty⟩ (x - 4096)
  else if x < 5120 then headerByte ⟨[100, 47, 97], 48, ⟨fun _ => 7, 3, by decide⟩⟩ (x - 4608)
  else if x < 5123 then 7 else 0

theorem tinyArchive_archive : Archive tinyArchive 4096 tinyMembers := by
  refine ⟨⟨by decide, by decide, by decide, by decide, by decide, by decide, by decide, by decide, by decide,
    by decide⟩, ⟨by decide, by decide, by decide, by decide, by decide, by decide, by decide, by decide, by decide,
    by decide⟩, by decide, by decide⟩

/-- The file `stdout` with the text `%d`. -/
def stdoutMember : Member := ⟨stdoutName, 48, ⟨fun k => if k = 0 then 37 else 100, 2, by decide⟩⟩

/-- It alone as an archive at address 4096. -/
def stdoutArchive : Mem := fun x =>
  if x < 4608 then headerByte stdoutMember (x - 4096)
  else if x = 4608 then 37 else if x = 4609 then 100 else 0

theorem stdoutArchive_archive : Archive stdoutArchive 4096 [stdoutMember] := by
  refine ⟨⟨by decide, by decide, by decide, by decide, by decide, by decide, by decide, by decide, by decide, by decide⟩,
    by decide, by decide⟩

end PotatOS.Fs
