import PotatOS.Mem.DirectMap
import PotatOS.Tasks.Spawn

/-!
# When `spawn` returns

A page loop halts when it has no page to map or reaches the end of the address
space, and every other stop of `spawn` is a request that `kmalloc` refuses.
`Booted` says that the ranges of the kernel went through these loops once.
-/

namespace PotatOS.Tasks

open Memory Mem Prog

/-! ### Ranges of pages -/

/-- The ranges that `map_all` maps. -/
structure MapsFit (k : Kernel) : Prop where
  text : RangeFits (pageAlignDown k.image.kernelStart)
    (pageAlignUp (sub64 k.image.writeallowedStart k.image.kernelStart) / 4096)
  data : RangeFits (pageAlignDown k.image.writeallowedStart)
    (pageAlignUp (sub64 k.image.kernelEnd k.image.writeallowedStart) / 4096)
  sections : ∀ e ∈ k.memmap, isMapped e.type → RangeFits (add64 e.base k.hhdm) (e.length / 4096)

/-- `init_paging_task` returned once on this machine. -/
def Booted (A : PageAllocator) (k : Kernel) : Prop :=
  ∃ k₀ root k₁, A.Ready k₀ ∧ initPagingTask A.kmalloc k₀ = .ok (root, k₁) ∧ k₀.memmap = k.memmap ∧
    k₀.hhdm = k.hhdm ∧ k₀.image = k.image

section ranges

variable {A : PageAllocator} {own who : Grant → Prop} {root : Nat} {k k' : Kernel}

theorem pages_lt (x : Nat) : pageAlignUp x / 4096 < 2 ^ 64 := by
  unfold pageAlignUp add64
  omega

theorem mapKernel_fits (ready : A.Ready k) (ok : TreeOk own k root) (mine : ∀ a, own ⟨.table root, a, 1⟩)
    (h : mapKernel A.kmalloc root k = .ok ((), k')) :
    RangeFits (pageAlignDown k.image.kernelStart)
      (pageAlignUp (sub64 k.image.writeallowedStart k.image.kernelStart) / 4096) ∧
    RangeFits (pageAlignDown k.image.writeallowedStart)
      (pageAlignUp (sub64 k.image.kernelEnd k.image.writeallowedStart) / 4096) := by
  unfold mapKernel at h
  rw [bind_eq run_get] at h
  obtain ⟨_, k₁, text, h⟩ := bind_ok h
  obtain ⟨_, k₂, data, _⟩ := bind_ok h
  obtain ⟨some, space, grows, _⟩ := mapPages_ok ready ok mine (fun _ => id) (by decide) (pages_lt _) text
  obtain ⟨some', space', _⟩ := mapPages_ok grows.touches.ready grows.ok mine (fun _ => id) (by decide) (pages_lt _) data
  exact ⟨⟨some, space⟩, some', space'⟩

theorem mapSections_fits {entries : List MemmapEntry} (ready : A.Ready k) (ok : TreeOk own k root)
    (mine : ∀ a, own ⟨.table root, a, 1⟩) (h : mapSections A.kmalloc root entries k = .ok ((), k')) :
    ∀ e ∈ entries, isMapped e.type → RangeFits (add64 e.base k.hhdm) (e.length / 4096) := by
  induction entries generalizing k with
  | nil => simp
  | cons entry rest ih =>
    rw [mapSections] at h
    have small := entry.fits
    intro e member listed
    split at h
    · rw [bind_eq run_get] at h
      obtain ⟨_, k₁, maps, h⟩ := bind_ok h
      obtain ⟨some, space, grows, _⟩ := mapPages_ok ready ok mine (fun _ => id) (by decide) (by omega) maps
      rcases List.mem_cons.mp member with rfl | later
      · exact ⟨some, space⟩
      · have fits := ih grows.touches.ready grows.ok h e later listed
        rwa [grows.touches.setup.hhdm] at fits
    · rename_i unlisted
      rcases List.mem_cons.mp member with rfl | later
      · exact absurd listed unlisted
      · exact ih ready ok h e later listed

theorem Booted.fits (booted : Booted A k) : MapsFit k := by
  obtain ⟨k₀, root, k₁, ready, run, memmap, hhdm, image⟩ := booted
  obtain ⟨k₂, k₃, steps⟩ := initPagingTask_steps ready run
  have mine : ∀ a, OfTree k₀.hhdm root ⟨.table root, a, 1⟩ := fun a => .inl rfl
  have grows := steps.grows.1
  have first := steps.cleared.setup
  have second := grows.touches.setup
  obtain ⟨text, data⟩ := mapKernel_fits steps.cleared.ready steps.start mine steps.kernel
  have sections := mapSections_fits grows.touches.ready grows.ok mine steps.sections
  rw [first.image, image] at text data
  rw [second.memmap, first.memmap, memmap, second.hhdm, first.hhdm, hhdm] at sections
  exact ⟨text, data, sections⟩

theorem MapsFit.congr (fits : MapsFit k) (setup : SameSetup k k') : MapsFit k' := by
  obtain ⟨text, data, sections⟩ := fits
  constructor
  · rw [setup.image]
    exact text
  · rw [setup.image]
    exact data
  · rw [setup.memmap, setup.hhdm]
    exact sections

end ranges

/-! ### The page tree -/

section tree

variable {A : PageAllocator} {own who : Grant → Prop} {root : Nat} {k : Kernel} {err : Stop → Prop}
  (refused : ∀ k e owner n, A.Ready k → A.kmalloc owner n k = .error e → err e)
include refused

theorem allocPages_returns {owner : Owner} {virtAddr n flags : Nat} (ready : A.Ready k) (ok : TreeOk own k root)
    (mine : ∀ a, own ⟨.table root, a, 1⟩) (sub : ∀ g, own g → who g) (theirs : ∀ a, who ⟨owner, a, 1⟩)
    (small : flags < 4096) (count : n < 2 ^ 64) (fits : RangeFits virtAddr n) :
    Sat (allocPages A.kmalloc owner root virtAddr n flags) k (fun _ k' => Grows A own who root k k') err := by
  have visits : Visits A own who root flags (allocLeaf A.kmalloc owner flags) (pageOf virtAddr) n (fun j _ k' =>
      Grows A own who root k k' ∧ AllocatedLeaves k k' owner root (pageOf virtAddr) j flags) err :=
    visits_allocLeaf k mine sub theirs small (by omega) fun k e owner ready => refused k e owner 1 ready
  have first : Grows A own who root k k ∧ AllocatedLeaves k k owner root (pageOf virtAddr) 0 flags :=
    ⟨.refl ready ok, fun _ _ _ => rfl, fun u _ lower upper => by omega⟩
  apply (forPages_spec visits fits.1 (Nat.mod_eq_of_lt count).symm first (.inl fits.2)).weaken
  exact fun _ _ after => after.1

theorem mapKernel_returns (ready : A.Ready k) (ok : TreeOk own k root) (mine : ∀ a, own ⟨.table root, a, 1⟩)
    (sub : ∀ g, own g → who g) (stack : ∀ a, who ⟨.kernelStack, a, 1⟩) (fits : MapsFit k) :
    Sat (mapKernel A.kmalloc root) k (fun _ k' => Grows A own who root k k') err := by
  unfold mapKernel
  apply Sat.bind_get
  apply (mapPages_returns refused ready ok mine sub (by decide) (pages_lt _) fits.text).bind
  intro _ k₁ first
  apply (mapPages_returns refused first.touches.ready first.ok mine sub (by decide) (pages_lt _) fits.data).bind
  intro _ k₂ second
  apply (allocPages_returns refused second.touches.ready second.ok mine sub stack (by decide) (by decide) (by decide)).weaken
  intro _ k₃ third
  exact (first.trans second).trans third

theorem mapAll_returns (ready : A.Ready k) (ok : TreeOk own k root) (mine : ∀ a, own ⟨.table root, a, 1⟩)
    (sub : ∀ g, own g → who g) (stack : ∀ a, who ⟨.kernelStack, a, 1⟩) (fits : MapsFit k) :
    Sat (mapAll A.kmalloc root) k (fun _ k' => Grows A own who root k k') err := by
  unfold mapAll
  apply (mapKernel_returns refused ready ok mine sub stack fits).bind
  intro _ k₁ first
  have fits₁ := (fits.congr first.touches.setup).sections
  apply Sat.bind_get
  apply (mapSections_returns refused first.touches.ready first.ok mine sub fits₁).weaken
  exact fun _ _ => first.trans

theorem initPagingTask_returns (ready : A.Ready k) (fits : MapsFit k) :
    Sat (initPagingTask A.kmalloc) k (fun root k' => initPagingTask A.kmalloc k = .ok (root, k')) err := by
  refine ⟨id, fun {e} h => ?_⟩
  suffices all : Sat (initPagingTask A.kmalloc) k (fun _ _ => True) err from all.error h
  unfold initPagingTask
  apply Sat.bind_run (fun h => refused k _ _ 1 ready h)
  intro frame k₁ got
  obtain ⟨place, cleared, start, _⟩ := clearedRoot_ok ready got
  apply Sat.bind_get
  rw [place]
  apply Sat.bind_run (by simp [kuMemset])
  intro _ k₂ clears
  obtain rfl := modify_ok clears
  have mine : ∀ a, OfTree k.hhdm (frame + k.hhdm) ⟨.table (frame + k.hhdm), a, 1⟩ := fun a => .inl rfl
  have sub : ∀ g, OfTree k.hhdm (frame + k.hhdm) g → OfTask k.hhdm (frame + k.hhdm) g := fun g => .inl
  have stack : ∀ a, OfTask k.hhdm (frame + k.hhdm) ⟨.kernelStack, a, 1⟩ := fun a => .inr rfl
  have fits₁ := fits.congr cleared.setup
  exact (mapAll_returns refused cleared.ready start mine sub stack fits₁).bind fun _ _ _ => .pure trivial

theorem giveArgs_returns {pid : Nat} {argv : List (List UInt8)} (ready : A.Ready k) (ok : TreeOk own k root)
    (mine : ∀ a, own ⟨.table root, a, 1⟩) (sub : ∀ g, own g → who g) (theirs : ∀ a, who ⟨.arguments pid, a, 1⟩) :
    Sat (giveArgs A.kmalloc pid root argv) k (fun size k' => giveArgs A.kmalloc pid root argv k = .ok (size, k')) err := by
  refine ⟨id, fun {e} h => ?_⟩
  suffices all : Sat (giveArgs A.kmalloc pid root argv) k (fun _ _ => True) err from all.error h
  unfold giveArgs
  apply Sat.bind_run (fun h => refused k _ _ 1 ready h)
  intro run k₁ got
  have alloc := A.allocates ready got
  obtain ⟨start, _⟩ := ok.grows_of_same (.kmalloc ready got (theirs run)) fun d depth n bound t place x inside =>
    ok.after_kmalloc alloc depth bound place inside
  apply Sat.bind_get
  apply Sat.bind_get
  apply (mapPages_returns refused start.touches.ready start.ok mine sub (by decide) (by decide) (by decide)).bind
  intro _ k₂ _
  obtain ⟨m, copied, _⟩ := copyArgs_run k₂ (add64 run k₁.hhdm) argv 0
  obtain ⟨m', pointed, _⟩ := pointArgs_run (k₂.setMem m) (add64 run k₁.hhdm) (0 + argsLength argv) argv 0 0
  exact .of_ok ((bind_eq copied).trans (bind_eq pointed)) trivial

theorem mapApicIntoTask_returns (ready : A.Ready k) (ok : TreeOk own k root) (mine : ∀ a, own ⟨.table root, a, 1⟩) :
    Sat (mapApicIntoTask A.kmalloc (sub64 root k.hhdm)) k (fun _ _ => True) err := by
  have below := ok.start.1
  have small := ok.root_lt ready
  have start : add64 (sub64 root k.hhdm) k.hhdm = root := by
    rw [sub64_of_le below, add64_of_lt (by omega)]
    omega
  have page : ∀ v, RangeFits v 1 := fun v => ⟨Nat.one_pos, pageOf_lt v⟩
  unfold mapApicIntoTask
  apply Sat.bind_get
  rw [start]
  apply (mapPages_returns refused ready ok mine (fun _ => id) (by decide) (by decide) (page _)).bind
  intro _ k₁ grows
  apply (mapPages_returns refused grows.touches.ready grows.ok mine (fun _ => id) (by decide) (by decide) (page _)).weaken
  exact fun _ _ _ => trivial

theorem fillTree_returns {pid : Nat} {image : Image} {argv : List (List UInt8)} (ready : A.Ready k)
    (ok : TreeOk (OfTree k.hhdm root) k root) (count : image.pagesToMap < 2 ^ 64)
    (fits : argsLength argv + argv.length * 8 ≤ 4096) (space : RangeFits image.first.virtualAddress image.pagesToMap) :
    Sat (fillTree A.kmalloc pid root image argv) k (fun _ _ => True) err := by
  have mine : ∀ a, OfTree k.hhdm root ⟨.table root, a, 1⟩ := fun a => .inl rfl
  have sub : ∀ g, OfTree k.hhdm root g → OfSpawn k.hhdm root pid g := fun g tree => .inl (.inl tree)
  unfold fillTree
  apply (mapPages_returns refused ready ok mine sub (by decide) count space).bind
  intro _ k₁ first
  have stack : ∀ a, OfSpawn k.hhdm root pid ⟨.stack pid, a, 1⟩ := fun a => .inr (.inl rfl)
  apply (allocPages_returns refused first.touches.ready first.ok mine sub stack (by decide) (by decide) (by decide)).bind
  intro _ k₂ second
  have theirs : ∀ a, OfSpawn k.hhdm root pid ⟨.arguments pid, a, 1⟩ := fun a => .inr (.inr rfl)
  apply (giveArgs_returns refused second.touches.ready second.ok mine sub theirs).bind
  intro size k₃ gives
  have third := (giveArgs_ok second.touches.ready second.ok mine sub (fun g owner => ⟨.inr (.inr owner), fun tree => by
    have none := tree.no_user
    rw [owner] at none
    cases none⟩) fits gives).2.1
  apply Sat.bind_get
  exact (mapApicIntoTask_returns refused third.touches.ready third.ok mine).bind fun _ _ _ => .pure trivial

end tree

/-! ### The whole call -/

section spawn

variable {A : PageAllocator} {φ : Type} {fs : FileAccess φ} {s : System φ} {live : List (Nat × Nat)} {err : Stop → Prop}

theorem createTask_run (pml4Addr entryPoint userStack : Nat) (flags : UInt8) {t : Tasklist} {cpu : Nat} {current : Task}
    (running : getCurrentTask t cpu = some current) :
    ∃ t', createTask cpu pml4Addr entryPoint userStack flags t = .ok (t.list.length, t') ∧
      t.list.length < t'.list.length := by
  unfold createTask
  rw [bind_eq run_get, running]
  refine ⟨_, rfl, ?_⟩
  simp [Vec.length, vectorPush]

theorem modifyTask_run {t : Tasklist} {pid : Nat} (f : Task → Task) (inside : pid < t.list.length) :
    ∃ t', modifyTask pid f t = .ok ((), t') ∧ t'.list.length = t.list.length := by
  refine ⟨_, modifyTask_eq inside, ?_⟩
  simp [Vec.length]

theorem adoptTask_run (cpu mmapUpto errno argc argv : Nat) {t : Tasklist} {pid : Nat} (inside : pid < t.list.length) :
    ∃ t', adoptTask cpu pid mmapUpto errno argc argv t = .ok ((), t') ∧ t'.list.length = t.list.length := by
  unfold adoptTask
  rw [bind_eq run_get]
  exact modifyTask_run _ inside

theorem openAt_run (fs : FileAccess φ) (s : System φ) (cpu : Nat) (path : List UInt8) (flags mode : Nat) :
    ∃ r files, openAt fs cpu path flags mode s = .ok (r, { s with files }) :=
  ⟨_, _, rfl⟩

theorem startTask_runs {cpu buffer size root argSize argc : Nat} {image : Image} {current : Task}
    (heap : Heap A s.kernel ((buffer, size) :: live)) (running : getCurrentTask s.tasks cpu = some current) :
    ∃ s', startTask fs cpu buffer root argSize argc image s = .ok ((), s') := by
  obtain ⟨ready, cells, rep⟩ := heap
  obtain ⟨k', frees, _⟩ := rep.free_ok ready List.mem_cons_self
  dsimp only at frees
  unfold startTask
  rw [bind_eq run_get]
  obtain ⟨t₁, created, longer⟩ := createTask_run (sub64 root s.kernel.hhdm) (elfEntry s.kernel.mem buffer) userStackPtr
    (taskPresent ||| taskFirstExec) running
  rw [bind_eq (onTasks_run created)]
  obtain ⟨t₂, adopted, same⟩ := adoptTask_run cpu
    (pageAlignUp (add64 image.last.virtualAddress image.last.sizeInMemory)) (userStackPtr - 8) argc
    (argvDataAddr + argSize) longer
  have freed : onKernel (free buffer) { s with tasks := t₂ } = .ok ((), { s with tasks := t₂, kernel := k' }) :=
    onKernel_run frees
  rw [bind_eq (onTasks_run adopted), bind_eq freed]
  obtain ⟨stdin, files₁, opens₁⟩ := openAt_run fs { s with tasks := t₂, kernel := k' } cpu stdinPath 0 modeReadonly
  rw [bind_eq opens₁]
  obtain ⟨stdout, files₂, opens₂⟩ :=
    openAt_run fs { s with tasks := t₂, kernel := k', files := files₁ } cpu stdoutPath oCreatall modeReadwrite
  rw [bind_eq opens₂]
  obtain ⟨stderr, files₃, opens₃⟩ :=
    openAt_run fs { s with tasks := t₂, kernel := k', files := files₂ } cpu stderrPath oCreatall modeReadwrite
  rw [bind_eq opens₃]
  have kept : s.tasks.list.length < t₂.list.length := by omega
  obtain ⟨t₃, modified, _⟩ := modifyTask_run (fun task =>
    { task with resources := ((task.resources.set 0 stdin).set 1 stdout).set 2 stderr }) kept
  exact ⟨_, onTasks_run modified⟩

theorem readProgram_error {f : Nat} {e : Stop} (heap : Heap A s.kernel live)
    (refused : ∀ k e owner n, A.Ready k → A.kmalloc owner n k = .error e → err e)
    (h : readProgram A.kmalloc fs f s = .error e) : err e := by
  obtain ⟨ready, cells, rep⟩ := heap
  have small := fs.small s.files f
  unfold readProgram at h
  rw [bind_eq run_get] at h
  cases got : malloc A.kmalloc (fs.fileLength s.files f) s.kernel with
  | error e' =>
    rw [bind_error (by rw [onKernel, got])] at h
    obtain rfl := Except.error.inj h
    obtain ⟨n, stopped⟩ := rep.malloc_error small got
    exact refused _ _ _ _ ready stopped
  | ok pair =>
    rw [bind_eq (onKernel_run got)] at h
    cases h

theorem loadImage_returns {k : Kernel} {pid buffer : Nat} (ready : A.Ready k)
    (refused : ∀ k e owner n, A.Ready k → A.kmalloc owner n k = .error e → err e) :
    Sat (loadImage A.kmalloc pid buffer) k (fun _ _ => True) err := by
  unfold loadImage
  apply Sat.bind_get
  apply Sat.bind_run (fun h => refused k _ _ _ ready h)
  intro run k₁ _
  apply Sat.bind_get
  exact .of_ok (bind_eq (copySegments_run ..)) trivial

/-- The image has a page, and its pages end in the address space. -/
def ImageFits (bytes : List UInt8) : Prop :=
  RangeFits (fileImage bytes).first.virtualAddress (fileImage bytes).pagesToMap

instance (bytes : List UInt8) : Decidable (ImageFits bytes) :=
  inferInstanceAs (Decidable (RangeFits (fileImage bytes).first.virtualAddress (fileImage bytes).pagesToMap))

theorem Stored.opened {cpu : Nat} {path bytes : List UInt8} (stored : Stored fs s cpu path bytes) :
    ∃ f, openAt fs cpu path 0 modeReadonly s = .ok (some f, { s with files := (openedBy fs s cpu path).2 }) ∧
      fs.fileLength (openedBy fs s cpu path).2 f = bytes.length ∧
      (fs.read f bytes.length (openedBy fs s cpu path).2).1 = (0, bytes) := by
  obtain ⟨f, opens, length, content⟩ := stored
  refine ⟨f, ?_, length, content⟩
  rw [← opens]
  rfl

/-- A program whose headers keep to the file and the image is loaded, unless `kmalloc` refuses a request. -/
theorem spawn_returns {cpu : Nat} {path bytes : List UInt8} {argv : List (List UInt8)} {current : Task}
    (refused : ∀ k e owner n, A.Ready k → A.kmalloc owner n k = .error e → err e) (heap : Heap A s.kernel live)
    (maps : MapsFit s.kernel) (running : getCurrentTask s.tasks cpu = some current)
    (stored : Stored fs s cpu path bytes) (fits : argsLength argv + argv.length * 8 ≤ 4096) (bounds : InBounds bytes)
    (image : IsElf bytes → ImageFits bytes) :
    Sat (spawn A.kmalloc fs cpu path argv) s (fun _ _ => True) err := by
  obtain ⟨f, opened, length, content⟩ := stored.opened
  unfold spawn
  apply Sat.bind_ok opened
  dsimp only
  apply Sat.bind_run (readProgram_error (s := { s with files := (openedBy fs s cpu path).2 }) heap refused)
  rintro ⟨buffer, status⟩ s₁ reads
  obtain ⟨rfl, tasks, file⟩ :=
    readProgram_stored (s := { s with files := (openedBy fs s cpu path).2 }) heap length content reads
  dsimp only
  rw [if_neg (by simp)]
  apply Sat.bind_get
  split
  · exact .pure trivial
  · rename_i valid
    have elf : IsElf bytes := (validateElf_eq file.holds bounds.header).symm.trans (Decidable.not_not.mp valid)
    apply Sat.bind_get
    apply bind_onKernel_sat (loadImage_returns file.touches.ready refused)
    intro image' k₂ loads
    obtain ⟨run, rfl, copied⟩ := loadImage_ok file (Decidable.not_not.mp valid) bounds loads
    have setup := file.touches.setup.trans copied.touches.setup
    apply bind_onKernel_sat (initPagingTask_returns refused copied.touches.ready (maps.congr setup))
    intro root k₃ tree
    obtain ⟨built, ok, _⟩ := initPagingTask_ok copied.touches.ready tree
    have frames := copied.frames
    have count : (imageAt bytes run).pagesToMap < 2 ^ 64 := by
      change (fileImage bytes).pagesToMap < 2 ^ 64
      omega
    have tree₃ : TreeOk (OfTree k₃.hhdm root) k₃ root := by rwa [built.setup.hhdm]
    apply bind_onKernel_sat (fillTree_returns refused built.ready tree₃ count fits (image elf))
    intro argSize k₄ fills
    have filled := fillTree_ok built.ready tree₃ count fits fills
    have heap₄ := file.behind copied.touches built filled.grows.touches
    have running₁ : getCurrentTask s₁.tasks cpu = some current := by
      rw [tasks]
      exact running
    obtain ⟨s', starts⟩ : ∃ s', startTask fs cpu buffer root argSize argv.length (imageAt bytes run)
        { s₁ with kernel := k₄ } = .ok ((), s') :=
      startTask_runs heap₄ running₁
    exact .of_ok (bind_eq starts) trivial

end spawn

/-! ### Running out of memory -/

theorem onKernel_sameReturns {φ α : Type} {x y : KernelM α} (h : SameReturns x y) :
    SameReturns (onKernel x : SysM φ α) (onKernel y) := by
  intro s r
  obtain ⟨a, s'⟩ := r
  constructor
  · intro run
    obtain ⟨k, call, rfl⟩ := onKernel_ok run
    exact onKernel_run ((h _ _).mp call)
  · intro run
    obtain ⟨k, call, rfl⟩ := onKernel_ok run
    exact onKernel_run ((h _ _).mpr call)

section same

variable {kmalloc kmalloc' : Owner → Nat → KernelM Nat} (same : ∀ owner n, SameReturns (kmalloc owner n) (kmalloc' owner n))
include same

theorem malloc_sameReturns (size : Nat) : SameReturns (malloc kmalloc size) (malloc kmalloc' size) := by
  have grow : ∀ pool, SameReturns (growHeap kmalloc pool size) (growHeap kmalloc' pool size) :=
    fun pool => (same _ _).bind fun _ => .refl _
  have loop : ∀ fuel pool, SameReturns (mallocFrom kmalloc size fuel pool) (mallocFrom kmalloc' size fuel pool) := by
    intro fuel
    induction fuel with
    | zero => exact fun _ => .refl _
    | succ fuel ih =>
      intro pool
      apply SameReturns.bind (.refl _)
      intro k
      dsimp only
      split
      · exact .refl _
      · split
        · exact .refl _
        · split
          · exact grow pool
          · exact ih _
  exact SameReturns.bind (.refl _) fun k => loop _ _

theorem initPagingTask_sameReturns : SameReturns (initPagingTask kmalloc) (initPagingTask kmalloc') := by
  apply (same _ _).bind
  intro frame
  apply SameReturns.bind (.refl _)
  intro k
  apply SameReturns.bind (.refl _)
  intro _
  have kernel : ∀ root, SameReturns (mapKernel kmalloc root) (mapKernel kmalloc' root) := by
    intro root
    apply SameReturns.bind (.refl _)
    intro k
    apply (mapPages_sameReturns same _ _ _ _ _).bind
    intro _
    apply (mapPages_sameReturns same _ _ _ _ _).bind
    exact fun _ => allocPages_sameReturns same _ _ _ _ _
  have all : ∀ root, SameReturns (mapAll kmalloc root) (mapAll kmalloc' root) := by
    intro root
    apply (kernel root).bind
    intro _
    exact SameReturns.bind (.refl _) fun k => mapSections_sameReturns same _ _
  exact (all _).bind fun _ => .refl _

theorem fillTree_sameReturns (pid root : Nat) (image : Image) (argv : List (List UInt8)) :
    SameReturns (fillTree kmalloc pid root image argv) (fillTree kmalloc' pid root image argv) := by
  apply (mapPages_sameReturns same _ _ _ _ _).bind
  intro _
  apply (allocPages_sameReturns same _ _ _ _ _).bind
  intro _
  have args : SameReturns (giveArgs kmalloc pid root argv) (giveArgs kmalloc' pid root argv) := by
    apply (same _ _).bind
    intro run
    apply SameReturns.bind (.refl _)
    intro k
    apply SameReturns.bind (.refl _)
    intro k'
    exact (mapPages_sameReturns same _ _ _ _ _).bind fun _ => .refl _
  apply args.bind
  intro size
  apply SameReturns.bind (.refl _)
  intro k
  have apic : ∀ cr3, SameReturns (mapApicIntoTask kmalloc cr3) (mapApicIntoTask kmalloc' cr3) := by
    intro cr3
    apply SameReturns.bind (.refl _)
    intro k
    exact (mapPages_sameReturns same _ _ _ _ _).bind fun _ => mapPages_sameReturns same _ _ _ _ _
  exact (apic _).bind fun _ => .refl _

theorem loadImage_sameReturns (pid buffer : Nat) :
    SameReturns (loadImage kmalloc pid buffer) (loadImage kmalloc' pid buffer) := by
  apply SameReturns.bind (.refl _)
  intro k
  exact (same _ _).bind fun _ => .refl _

variable {φ : Type} (fs : FileAccess φ)

theorem spawn_sameReturns (cpu : Nat) (path : List UInt8) (argv : List (List UInt8)) :
    SameReturns (spawn kmalloc fs cpu path argv) (spawn kmalloc' fs cpu path argv) := by
  apply SameReturns.bind (.refl _)
  intro opened
  cases opened with
  | none => exact .refl _
  | some f =>
    have program : SameReturns (readProgram kmalloc fs f) (readProgram kmalloc' fs f) := by
      apply SameReturns.bind (.refl _)
      intro s
      exact (onKernel_sameReturns (malloc_sameReturns same _)).bind fun _ => .refl _
    apply program.bind
    intro read
    dsimp only
    split
    · exact .refl _
    · apply SameReturns.bind (.refl _)
      intro s
      split
      · exact .refl _
      · apply SameReturns.bind (.refl _)
        intro s'
        apply (onKernel_sameReturns (loadImage_sameReturns same _ _)).bind
        intro image
        apply (onKernel_sameReturns (initPagingTask_sameReturns same)).bind
        intro root
        exact (onKernel_sameReturns (fillTree_sameReturns same _ _ _ _)).bind fun _ => .refl _

end same

/-! ### Memory safety -/

section safe

variable {A : PageAllocator} {φ : Type} {fs : FileAccess φ} {s s' : System φ} {live : List (Nat × Nat)}

/-- `spawn` returns, with a new task exactly when it says so, and the loader stays inside the buffer and the frames. -/
structure SafeSpawn (A : PageAllocator) (fs : FileAccess φ) (s : System φ) (cpu : Nat) (path : List UInt8)
    (argv : List (List UInt8)) : Prop where
  status : ∃ r s', spawn A.kmalloc fs cpu path argv s = .ok (r, s') ∧
    (r ≠ 0 ∧ s'.tasks = s.tasks ∨ r = 0 ∧ s'.tasks.list.length = s.tasks.list.length + 1)
  inside : ∀ log s', loggedSpawn A.kmalloc fs cpu path s = .ok (some log, s') →
    ∀ a ∈ log.accesses, a.Inside log.buffer log.flength log.copyTo log.pages

/-- No request to `kmalloc` that `spawn` makes is refused. -/
def EnoughToSpawn (A : PageAllocator) (fs : FileAccess φ) (s : System φ) (cpu : Nat) (path : List UInt8)
    (argv : List (List UInt8)) : Prop :=
  spawn (marked A.kmalloc) fs cpu path argv s ≠ .error .fault

/-- A returning call either loads the program or finds that it is none. -/
theorem spawn_logged {cpu r : Nat} {path bytes : List UInt8} {argv : List (List UInt8)} (heap : Heap A s.kernel live)
    (stored : Stored fs s cpu path bytes) (h : spawn A.kmalloc fs cpu path argv s = .ok (r, s')) :
    (∃ log s₁, loggedSpawn A.kmalloc fs cpu path s = .ok (some log, s₁)) ∧
      (58 ≤ bytes.length → IsElf bytes → Spawned A.kmalloc fs cpu path argv s s') := by
  rcases spawn_cases h with ⟨failed, _⟩ | ⟨_, spawned⟩
  · obtain ⟨f, opened, length, content⟩ := stored.opened
    unfold spawn at h
    rw [bind_eq opened] at h
    obtain ⟨⟨buffer, status⟩, s₁, reads, h⟩ := bind_ok h
    obtain ⟨rfl, _, file⟩ :=
      readProgram_stored (s := { s with files := (openedBy fs s cpu path).2 }) heap length content reads
    dsimp only at h
    rw [if_neg (by simp), bind_eq run_get] at h
    split at h
    · rename_i invalid
      unfold loggedSpawn
      rw [bind_eq opened]
      dsimp only
      rw [bind_eq run_get, bind_eq reads]
      dsimp only
      rw [if_neg (by simp), bind_eq run_get, if_pos invalid]
      refine ⟨⟨_, _, rfl⟩, fun header elf => ?_⟩
      exact absurd ((validateElf_eq file.holds header).trans elf) invalid
    · rw [bind_eq run_get] at h
      obtain ⟨_, _, _, h⟩ := bind_onKernel_ok h
      obtain ⟨_, _, _, h⟩ := bind_onKernel_ok h
      obtain ⟨_, _, _, h⟩ := bind_onKernel_ok h
      obtain ⟨_, _, _, h⟩ := bind_ok h
      exact absurd (pure_ok h).1.symm failed
  · exact ⟨spawned.logged, fun _ _ => spawned⟩

end safe

theorem highMachineReady_booted {k : Kernel} (h : initKheap pmm.kmalloc highMachineReady = .ok ((), k)) : Booted pmm k := by
  have check : returns (initKheap pmm.kmalloc) highMachineReady (fun _ k =>
      returns (initPagingTask pmm.kmalloc) k fun _ _ => true) = true := by
    decide +kernel
  obtain ⟨_, k', started, check⟩ := returns_iff.mp check
  obtain ⟨_, rfl⟩ := Prod.mk.inj (Except.ok.inj (started.symm.trans h))
  obtain ⟨root, k₁, tree, _⟩ := returns_iff.mp check
  exact ⟨k', root, k₁, (highMachineReady_heap h).ready, tree, rfl, rfl, rfl⟩

theorem systemOf_current (k : Kernel) : ∃ task, getCurrentTask (systemOf k).tasks 0 = some task := ⟨_, rfl⟩

/-- A segment whose bytes are said to lie 4 GiB behind the file. -/
def leakyElf : List UInt8 := oneSegment (2 ^ 32) 0x400000 120 4096

def leakyFiles : FileAccess Unit := filesOf leakyElf (by decide)

end PotatOS.Tasks
