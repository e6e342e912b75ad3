import PotatOS.Fs.FileData

/-!
# Reads past the end of a file

`tempfs_read` looks at the chain of nodes and never at the length. A write makes
one node more than it fills, so the chain of a written file is longer than the file.
-/

namespace PotatOS.Fs

open Memory Prog

/-- A read of up to `maxLen` bytes returns and changes no byte behind the file's length,
whatever the buffer holds. -/
def ReadsWithin (s : TempFs) (f maxLen : Nat) : Prop :=
  ∀ buf : Mem, ∃ filled len, tempfsRead f buf maxLen s = .ok ((0, filled), s) ∧ tempfsLength f s = .ok (len, s) ∧
    ∀ x, len ≤ x → filled x = buf x

/-- The chain of a file of `len` bytes. -/
structure ChainFor (nodes : List Nat) (len : Nat) (written : Prop) : Prop where
  ahead : written → len < filenodeDataSize * nodes.length
  empty : ¬ written → nodes = []
  small : nodes.length ≤ 2 ^ 36

theorem nodesFor_ahead (n : Nat) : n < filenodeDataSize * nodesFor n := by
  unfold nodesFor filenodeDataSize
  omega

theorem nodesFor_small {n : Nat} (small : n ≤ 2 ^ 47) : nodesFor n ≤ 2 ^ 36 := by
  unfold nodesFor filenodeDataSize
  omega

variable {s : TempFs} {files : Nat → Prop} {chains : Nat → List Nat} {contents : Nat → Buffer}

/-- Every write leaves the chain of its file ahead of the data. -/
theorem Contents.runWrites_chains {before : List Nat} (stored : Contents s files chains contents)
    (made : ∀ f, files f → ChainFor (chains f) (contents f).len (f ∈ before)) (writes : List (Nat × Buffer))
    (within : ∀ write ∈ writes, files write.1) :
    ∃ t chains', Fs.runWrites writes s = .ok (⟨⟩, t) ∧ Contents t files chains' (lastWrite writes contents) ∧
      ∀ f, files f → ChainFor (chains' f) (lastWrite writes contents f).len (f ∈ before ++ writes.map Prod.fst) := by
  induction writes generalizing s chains contents before with
  | nil => exact ⟨s, chains, rfl, stored, by simpa [lastWrite] using made⟩
  | cons write rest ih =>
    obtain ⟨f, buffer⟩ := write
    have file : files f := within (f, buffer) (List.mem_cons_self ..)
    obtain ⟨u, nodes, run, next, _, count⟩ := stored.write file buffer
    have madeNext : ∀ g, files g → ChainFor (Function.update chains f nodes g)
        (Function.update contents f buffer g).len (g ∈ before ++ [f]) := by
      intro g file'
      by_cases same : g = f
      · subst same
        rw [Function.update_self, Function.update_self]
        have ahead := nodesFor_ahead buffer.len
        have few := nodesFor_small buffer.fits
        have old := (made g file').small
        refine ⟨fun _ => ahead.trans_le (Nat.mul_le_mul_left _ (by omega)), fun never => ?_, by omega⟩
        exact absurd (List.mem_append_right before (List.mem_singleton_self g)) never
      · rw [Function.update_of_ne same, Function.update_of_ne same]
        simpa [same] using made g file'
    obtain ⟨t, chains', runs, last, ahead⟩ :=
      ih next madeNext fun write inside => within write (List.mem_cons_of_mem _ inside)
    refine ⟨t, chains', ?_, last, fun g file' => by simpa [lastWrite] using ahead g file'⟩
    rw [Fs.runWrites, bind_eq run]
    exact runs

/-- A byte behind the length that lies in the chain is read, so some buffer changes there. -/
theorem Holds.readsWithin {f len maxLen : Nat} {nodes : List Nat} {data : Mem} {written : Prop}
    (holds : Holds s f nodes data len) (chain : ChainFor nodes len written) :
    ReadsWithin s f maxLen ↔ maxLen ≤ len ∨ ¬ written := by
  have room : min maxLen (filenodeDataSize * nodes.length) < 2 ^ 63 := by
    have few := chain.small
    unfold filenodeDataSize
    omega
  constructor
  · intro within
    by_contra exposed
    obtain ⟨more, known⟩ := not_or.mp exposed
    have ahead := chain.ahead (not_not.mp known)
    -- A buffer that differs from the chain right behind the file.
    obtain ⟨filled, len', run, length, kept⟩ := within fun _ => chainByte s nodes len + 1
    obtain ⟨filled', run', bytes⟩ := tempfsRead_run holds.nonnull holds.regular holds.linked room
    obtain ⟨rfl, _⟩ := Prod.mk.inj (Except.ok.inj (holds.length_run.symm.trans length))
    obtain ⟨same, _⟩ := Prod.mk.inj (Except.ok.inj (run'.symm.trans run))
    obtain ⟨_, rfl⟩ := Prod.mk.inj same
    have byte := kept len le_rfl
    rw [bytes len, if_pos (by omega)] at byte
    simp at byte
  · intro safe buf
    obtain ⟨filled, run, bytes⟩ := tempfsRead_run (b := buf) holds.nonnull holds.regular holds.linked room
    refine ⟨filled, len, run, holds.length_run, fun x past => ?_⟩
    rw [bytes x, if_neg]
    rcases safe with within | never
    · omega
    · rw [chain.empty never]
      simp

/-- After any writes, a read stays within the file exactly when it asks for no more than
the file has, or the file was never written. -/
theorem reads_within_iff (files : Nat → Prop) (s : TempFs) (new : ∀ f, files f → NewFile s f)
    (writes : List (Nat × Buffer)) (listed : ∀ write ∈ writes, files write.1) :
    ∃ t, runWrites writes s = .ok (⟨⟩, t) ∧ ∀ f, files f → ∀ maxLen,
      (ReadsWithin t f maxLen ↔ maxLen ≤ (t.inodes f).length ∨ f ∉ writes.map Prod.fst) := by
  have made : ∀ f, files f → ChainFor [] Buffer.empty.len (f ∈ ([] : List Nat)) := fun f _ =>
    ⟨by simp, fun _ => rfl, by simp⟩
  obtain ⟨t, chains, run, stored, ahead⟩ := (contents_new new).runWrites_chains made writes listed
  refine ⟨t, run, fun f file maxLen => ?_⟩
  have holds := stored.holds f file
  rw [holds.length]
  exact holds.readsWithin (ahead f file)

theorem twoFiles_new : ∀ f, f = 6 ∨ f = 8 → NewFile twoFiles f := by
  rintro f (rfl | rfl) <;> exact ⟨by decide, by decide +kernel, by decide +kernel, by decide +kernel⟩

theorem nine_fits : 9000 ≤ 2 ^ 47 := by decide

theorem five_fits : 5 ≤ 2 ^ 47 := by decide

/-- A file rewritten with shorter data. -/
def shorter : List (Nat × Buffer) := [(6, constBuffer 1 9000 nine_fits), (6, constBuffer 3 5 five_fits)]

theorem reads_within_iff_twoFiles : ∃ t, runWrites shorter twoFiles = .ok (⟨⟩, t) ∧ ReadsWithin t 6 5 := by
  obtain ⟨t, run, within⟩ := reads_within_iff (fun f => f = 6 ∨ f = 8) twoFiles twoFiles_new shorter (by simp [shorter])
  have length : returns (runWrites shorter) twoFiles (fun _ t => (t.inodes 6).length == 5) = true := by decide +kernel
  obtain ⟨_, t', run', length⟩ := returns_iff.mp length
  obtain ⟨_, rfl⟩ := Prod.mk.inj (Except.ok.inj (run.symm.trans run'))
  exact ⟨t, run, (within 6 (.inl rfl) 5).mpr (.inl (Nat.le_of_eq (beq_iff_eq.mp length).symm))⟩

/-- A read of 4088 bytes shows a byte of the earlier contents. -/
theorem read_shows_leftover : ∃ t, runWrites shorter twoFiles = .ok (⟨⟩, t) ∧ tempfsLength 6 t = .ok (5, t) ∧
    ¬ ReadsWithin t 6 4088 := by
  have check : returns (runWrites shorter) twoFiles (fun _ t => (t.inodes 6).length == 5 &&
      returns (tempfsRead 6 (fun _ => 0) 4088) t fun r _ => r.2 5 == 1) = true := by decide +kernel
  obtain ⟨_, t, run, check⟩ := returns_iff.mp check
  obtain ⟨length, check⟩ := Bool.and_eq_true_iff.mp check
  obtain ⟨⟨_, filled⟩, t', read, byte⟩ := returns_iff.mp check
  have known : tempfsLength 6 t = .ok (5, t) := by
    rw [tempfsLength, bind_eq (inode_run (by decide)), beq_iff_eq.mp length]
    rfl
  refine ⟨t, run, known, fun within => ?_⟩
  obtain ⟨filled', len, read', length', kept⟩ := within fun _ => 0
  obtain ⟨rfl, _⟩ := Prod.mk.inj (Except.ok.inj (known.symm.trans length'))
  obtain ⟨same, _⟩ := Prod.mk.inj (Except.ok.inj (read.symm.trans read'))
  obtain ⟨_, rfl⟩ := Prod.mk.inj same
  have leftover : filled 5 = 1 := beq_iff_eq.mp byte
  exact absurd ((kept 5 le_rfl).symm.trans leftover) (by decide)

end PotatOS.Fs
