import OsFromScratch.Pager.Forking
import OsFromScratch.Pager.Lookup

/-!
# The pager implements the memory of the processes

A process has pages of its own, which nobody else can change and which a child gets a copy of, and
it has pages that show blocks of files, which all processes share. The pager implements this memory
with the physical memory, the swap file and the files.

## Main definitions

* `Memory.Step` — what a call does to the memory of the processes.
* `Memory.initial` — the memory before the first call.

## Main results

* `Memory.Step.own_eq`, `Memory.Step.files_eq` — who can change a page, and a block of a file.
* `Effect.memory` — a call of the pager does what the memory says.
* `pagerRun_memory` — so does every run.
-/

namespace OsFromScratch.Pager

open Function

variable {m n : ℕ} {s s' t : State} {id : PageId} {keep : Prop} {M M' : Memory}

/-! ### The operations of the memory -/

namespace Memory

/-- An address of a process gets a page. -/
def map (M : Memory) (pid : Pid) (va : ℕ) (cell : Cell) : Memory :=
  { M with cells := update M.cells pid (update (M.cells pid) va (some cell)) }

/-- The lowest address of the arena at which a process has no page. -/
def Next (M : Memory) (pid : Pid) (va : ℕ) : Prop :=
  ∃ i < 256, va = pageAddr i ∧ M.cells pid va = none ∧ ∀ j < i, M.cells pid (pageAddr j) ≠ none

/-- The string at an address of the current process. -/
def name (M : Memory) (start : ℕ) : Option Bytes :=
  readString (M.byte M.current) (vmArenaMaxaddr - start) start []

/-- A child gets copies of the pages of its parent. A child of a process that does not exist becomes
the current process. -/
def fork (M : Memory) (parent child : Pid) : Memory :=
  { M with
    processes := insert child M.processes
    current := if parent ∈ insert child M.processes then M.current else child
    cells := update M.cells child (M.cells parent) }

/-- The current process ends. -/
def exit (M : Memory) : Memory :=
  { M with
    processes := M.processes.erase M.current
    cells := update M.cells M.current fun _ => none }

/-- The contents of a page with another byte. -/
def put (contents : Contents) (addr : ℕ) (byte : UInt8) : Contents :=
  update contents (Fin.ofNat vmPagesize (addr % vmPagesize)) byte

/-- The current process stores a byte in a page of its own, or in a block of a file. -/
def store (M : Memory) (addr : ℕ) (byte : UInt8) : Memory :=
  match M.cells M.current (pageStart addr) with
  | none => M
  | some (.own contents) => M.map M.current (pageStart addr) (.own (put contents addr byte))
  | some (.file key) => { M with files := update M.files key (put (M.files key) addr byte) }

/-- What a call may do to the memory. Calls of `vm_create` can fail, and so can those of `vm_map`
for a page of zeroes, even if there is an address left. -/
inductive Step (M : Memory) : Call → Result → Memory → Prop
  | refuse {parent child : Pid} {order : List (ℕ × PageId)} :
    Step M (.create parent child order) (.status false) M
  | create {parent child : Pid} {order : List (ℕ × PageId)} (hchild : child ∉ M.processes) :
    Step M (.create parent child order) (.status true) (M.fork parent child)
  | switch (pid : Pid) : Step M (.switch pid) .done { M with current := pid }
  | full {theirFilename block : ℕ} (hfull : ∀ va, ¬M.Next M.current va) :
    Step M (.map theirFilename block) (.address none) M
  | noBlock {block : ℕ} : Step M (.map 0 block) (.address none) M
  | noName {theirFilename block : ℕ} (hname : theirFilename ≠ 0)
    (hnone : M.name theirFilename = none) : Step M (.map theirFilename block) (.address none) M
  | zero {block va : ℕ} (hva : M.Next M.current va) :
    Step M (.map 0 block) (.address (some va)) (M.map M.current va (.own fun _ => 0))
  | file {theirFilename block va : ℕ} {filename : Bytes} (hname : theirFilename ≠ 0)
    (hva : M.Next M.current va) (hsome : M.name theirFilename = some filename) :
    Step M (.map theirFilename block) (.address (some va))
      (M.map M.current va (.file (filename, block)))
  | destroy {order : List (ℕ × PageId)} : Step M (.destroy order) .done M.exit
  | fault {addr : ℕ} {writeFlag ok : Bool} : Step M (.fault addr writeFlag) (.status ok) M
  | load {addr : ℕ} : Step M (.load addr) (.byte (M.byte M.current addr)) M
  | denied {addr : ℕ} {byte : UInt8} (hnone : M.byte M.current addr = none) :
    Step M (.store addr byte) (.status false) M
  | store {addr : ℕ} {byte : UInt8} (hsome : (M.byte M.current addr).isSome) :
    Step M (.store addr byte) (.status true) (M.store addr byte)
  | setAccessible (accessible : Bytes → ℕ → Bool) :
    Step M (.setAccessible accessible) .done { M with accessible }

/-- The memory before the first call. -/
def initial (files : Bytes → ℕ → Contents) (accessible : Bytes → ℕ → Bool) : Memory where
  processes := ∅
  current := 0
  cells _ _ := none
  files key := files key.1 key.2
  accessible := accessible

theorem map_cells (M : Memory) (pid : Pid) (va : ℕ) (cell : Cell) (pid' : Pid) (va' : ℕ) :
    (M.map pid va cell).cells pid' va' =
      if pid' = pid ∧ va' = va then some cell else M.cells pid' va' := by
  simp only [map]
  by_cases hpid : pid' = pid
  · subst hpid
    simp [update_apply]
  · rw [update_of_ne hpid, if_neg fun h => hpid h.1]

/-- The contents of a page of a process only change when it stores a byte there, and the page
remains until the process ends. -/
theorem Step.own_eq {call : Call} {result : Result} (h : M.Step call result M') {pid : Pid} {va : ℕ}
    (hpid : pid ∈ M.processes) {contents : Contents} (hown : M.cells pid va = some (.own contents))
    (hstore : ∀ addr byte, call = .store addr byte → pid = M.current → pageStart addr ≠ va)
    (hdestroy : ∀ order, call = .destroy order → pid ≠ M.current) :
    M'.cells pid va = some (.own contents) := by
  -- an address that gets a page had none
  have hmap (va' : ℕ) (cell : Cell) (hva : M.Next M.current va') :
      (M.map M.current va' cell).cells pid va = some (.own contents) := by
    obtain ⟨i, -, -, hnone, -⟩ := hva
    rw [map_cells, if_neg, hown]
    rintro ⟨rfl, rfl⟩
    rw [hown] at hnone
    simp at hnone
  cases h with
  | @create parent child order hchild =>
    have hne : pid ≠ child := fun heq => hchild (heq ▸ hpid)
    have hcells : (M.fork parent child).cells pid = M.cells pid := update_of_ne hne ..
    rwa [hcells]
  | zero hva => exact hmap _ _ hva
  | file _ hva _ => exact hmap _ _ hva
  | destroy =>
    have hcells : M.exit.cells pid = M.cells pid := update_of_ne (hdestroy _ rfl) ..
    rwa [hcells]
  | @store addr byte =>
    rw [Memory.store]
    cases M.cells M.current (pageStart addr) with
    | none => exact hown
    | some cell =>
      cases cell with
      | own old =>
        refine (M.map_cells ..).trans ?_
        rwa [if_neg fun heq => hstore addr byte rfl heq.1 heq.2.symm]
      | file key => exact hown
  | _ => exact hown

/-- The contents of a block only change when a byte is stored at an address that shows it. -/
theorem Step.files_eq {call : Call} {result : Result} (h : M.Step call result M') {key : Bytes × ℕ}
    (hstore : ∀ addr byte, call = .store addr byte →
      M.cells M.current (pageStart addr) ≠ some (.file key)) :
    M'.files key = M.files key := by
  cases h with
  | @store addr byte =>
    rw [Memory.store]
    cases hcell : M.cells M.current (pageStart addr) with
    | none => rfl
    | some cell =>
      cases cell with
      | own old => rfl
      | file key' =>
        refine update_of_ne (fun heq => hstore addr byte rfl ?_) ..
        rw [hcell, heq]
  | _ => rfl

end Memory

/-! ### New pages -/

/-- A page of the current process is made, or found, for an address. -/
theorem Undisturbed.memory (h : Undisturbed s s') (hs : Core m n s) {va : ℕ} {cell : Cell}
    (hmapped : s'.mapped = (s.setVA s.currentPid va id).mapped)
    (hcell : (s'.pages id).cell (s'.contents id) = cell) (htable : s'.processTable = s.processTable)
    (hcurrent : s'.currentPid = s.currentPid) (haccessible : s'.accessible = s.accessible) :
    s'.memory = s.memory.map s.currentPid va cell := by
  refine Memory.ext htable hcurrent (funext fun pid => funext fun va' => ?_) (funext h.files)
    haccessible
  rw [Memory.map_cells]
  change (s'.mapped pid va').map _ = ite _ _ ((s.mapped pid va').map _)
  rw [hmapped, State.mapped_setVA]
  split_ifs with heq
  · rw [Option.map_some, hcell]
  · refine Option.map_congr fun x hx => ?_
    obtain ⟨i, -, hentry, -⟩ := hs.spaces.mem_entry hx
    exact h.cell (hs.mappings.not_fresh hentry)

/-- A new page of zeroes. -/
theorem Core.memory_addZero (hs : Core m n s) (hm : m ≤ 2 ^ 20) (i block : ℕ) (rest : List ℕ) :
    (s.addZero ⟨s.currentPid, i⟩ block rest).memory =
      s.memory.map s.currentPid (pageAddr i) (.own fun _ => 0) := by
  have hnew : s.pages s.nextPage = .new := hs.mappings.fresh _ le_rfl
  have hself : (s.addZero ⟨s.currentPid, i⟩ block rest).pages s.nextPage = { VirtualPage.new with
      blocks := [block], resident := true, physicalPage := some ⟨0, true, false⟩
      isSwap := true, affiliated := [⟨s.currentPid, i⟩] } := update_self ..
  refine Undisturbed.memory (.addZero hnew ⟨s.currentPid, i⟩ block rest s.pageTables) hs rfl ?_ rfl
    rfl rfl
  have hzero : (s.addZero ⟨s.currentPid, i⟩ block rest).contents s.nextPage = fun _ => 0 := by
    rw [State.contents_of_some (by rw [hself]; simp) (by rw [hself])]
    exact hs.frames.zero hm
  change ((s.addZero ⟨s.currentPid, i⟩ block rest).pages s.nextPage).cell
    ((s.addZero ⟨s.currentPid, i⟩ block rest).contents s.nextPage) = _
  rw [hzero, hself, VirtualPage.cell, if_pos rfl]

/-- A page of a file. -/
theorem Core.memory_mapFile (hs : Core m n s) (i : ℕ) (filename : Bytes) (block : ℕ) :
    (s.mapFile ⟨s.currentPid, i⟩ filename block).memory =
      s.memory.map s.currentPid (pageAddr i) (.file (filename, block)) := by
  rw [State.mapFile]
  cases hlookup : s.filenameBlockToVpage.lookup (filename, block) with
  | some id =>
    obtain ⟨hfile, hname, hblock⟩ := hs.mappings.registry filename block id hlookup
    have hblocks : (s.pages id).blocks ≠ [] := by
      rw [hblock]
      exact List.cons_ne_nil _ _
    refine Undisturbed.memory (.attach hblocks ⟨s.currentPid, i⟩ [] s.nextFreeSwap s.pageTables) hs
      rfl ?_ rfl rfl rfl
    have hself : (s.attach ⟨s.currentPid, i⟩ id [] s.nextFreeSwap).pages id = { s.pages id with
        affiliated := (s.pages id).affiliated ++ [⟨s.currentPid, i⟩]
        blocks := (s.pages id).blocks ++ [] } := update_self ..
    change ((s.attach ⟨s.currentPid, i⟩ id [] s.nextFreeSwap).pages id).cell _ = _
    rw [hself]
    simp [VirtualPage.cell, VirtualPage.key, hfile, hname, hblock]
  | none =>
    have hnew : s.pages s.nextPage = .new := hs.mappings.fresh _ le_rfl
    refine Undisturbed.memory (.addFile hnew ⟨s.currentPid, i⟩ filename block) hs rfl ?_ rfl rfl rfl
    have hself : (s.addFile ⟨s.currentPid, i⟩ filename block).pages s.nextPage =
        { VirtualPage.new with
          filename, blocks := [block], affiliated := [⟨s.currentPid, i⟩] } := update_self ..
    rw [hself]
    simp [VirtualPage.cell, VirtualPage.key, VirtualPage.new]

/-! ### Children -/

/-- A child has been created. -/
theorem Created.memory {parent child : Pid} {order : List (ℕ × PageId)}
    (h : Created parent child order s s') (hs : WellFormed m n s) (hchild : child ∉ s.processTable)
    (horder : order.Perm (s.mappings parent)) : s'.memory = s.memory.fork parent child := by
  obtain ⟨count, t, -, hinherit, rfl⟩ := h
  have hready : Inheritable order (s.enroll child count) := { hs.inheritable horder with }
  have hsame : Undisturbed s t := { hinherit.undisturbed hready with }
  obtain ⟨htable, -, hpid, -⟩ := hinherit.same
  have hnodup : (order.map Prod.fst).Nodup :=
    (horder.map Prod.fst).nodup_iff.mpr (s.nodup_mappings parent)
  have hcells (pid : Pid) (va : ℕ) : t.memory.cells pid va =
      (s.memory.fork parent child).cells pid va := by
    by_cases heq : pid = child
    · subst heq
      have hfork : (s.memory.fork parent pid).cells pid = s.memory.cells parent := update_self ..
      rw [hfork]
      cases hva : s.mapped parent va with
      | none =>
        have hnone : t.mapped pid va = none := by
          rw [← Option.not_isSome_iff_eq_none, hinherit.valid hs.spaces hchild horder, hva]
          simp
        simp [State.memory, hva, hnone]
      | some x =>
        obtain ⟨y, hy, hcontents, hcell⟩ :=
          hinherit.data hready hnodup (va, x) ((State.mem_order horder).mpr hva)
        change (t.mapped pid va).map _ = (s.mapped parent va).map _
        rw [hva, hy, Option.map_some, Option.map_some, hcontents, hcell]
        rfl
    · have hfork : (s.memory.fork parent child).cells pid = s.memory.cells pid :=
        update_of_ne heq ..
      rw [hfork]
      change (t.mapped pid va).map _ = (s.mapped pid va).map _
      rw [hinherit.mapped_of_ne heq]
      refine Option.map_congr fun x hx => ?_
      obtain ⟨i, -, hentry, -⟩ := hs.spaces.mem_entry hx
      exact hsame.cell (hs.mappings.not_fresh hentry)
  have hmemory (current : Pid) (register : Option Pid) :
      ({ t with currentPid := current, pageTableBaseRegister := register } : State).memory =
        { s.memory.fork parent child with current := current } :=
    Memory.ext htable rfl (funext fun pid => funext (hcells pid)) (funext hsame.files)
      hinherit.accessible
  rw [Memory.fork]
  split_ifs with hparent hparent' hparent'
  · exact (hmemory t.currentPid t.pageTableBaseRegister).trans (by rw [hpid]; rfl)
  · exact absurd hparent hparent'
  · exact absurd hparent' hparent
  · exact hmemory child (some child)

/-! ### The end of a process -/

/-- The pages that keep a block keep their contents when an address is detached from a page. -/
structure Retained (s s' : State) : Prop where
  blocks : ∀ id, (s'.pages id).blocks ≠ [] → (s.pages id).blocks ≠ []
  place : ∀ id, (s'.pages id).blocks ≠ [] → (s'.pages id).place = (s.pages id).place
  contents : ∀ id, (s'.pages id).blocks ≠ [] → s'.contents id = s.contents id
  files : ∀ key, s'.cache.view (.inl key) = s.cache.view (.inl key)

theorem Retained.detach (s : State) (ptr : PtePtr) (id : PageId)
    (tables : Pid → ℕ → PageTableEntry) : Retained s ((s.detach ptr id).withTables tables) := by
  let v := (s.pages id).detach ptr
  have hself : ((s.detach ptr id).pages id).blocks = v.blocks := by
    rw [show (s.detach ptr id).pages id = if v.Released then
      { v with resident := false, physicalPage := none } else v from update_self ..]
    split_ifs <;> rfl
  have hother (x : PageId) (hx : x ≠ id) : (s.detach ptr id).pages x = s.pages x :=
    update_of_ne hx ..
  have hblocks (x : PageId) (hx : ((s.detach ptr id).pages x).blocks ≠ []) :
      (s.pages x).blocks ≠ [] := by
    by_cases heq : x = id
    · subst heq
      rw [hself] at hx
      intro hnil
      refine hx ?_
      simp [v, VirtualPage.detach, hnil]
    · rwa [← hother x heq]
  have hcache : ((s.detach ptr id).withTables tables).cache = (s.detach ptr id).cache := rfl
  rcases s.cache_detach ptr id with heq | ⟨hnil, p, heq⟩
  · refine ⟨hblocks, fun x _ => ?_, fun x _ => ?_, fun key => ?_⟩
    · exact congrArg (fun c : Cache PageId Place Contents => c.place x) heq
    · exact congrArg (fun c : Cache PageId Place Contents => c.read x) heq
    · exact congrArg (fun c : Cache PageId Place Contents => c.view (.inl key)) heq
  · -- the page that has no blocks any more is not among those that keep one
    have hne (x : PageId) (hx : ((s.detach ptr id).pages x).blocks ≠ []) : x ≠ id := by
      rintro rfl
      exact hx (hself.trans hnil)
    refine ⟨hblocks, fun x hx => congrArg VirtualPage.place (hother x (hne x hx)), fun x hx => ?_,
      fun key => ?_⟩
    · change (s.detach ptr id).cache.read x = s.cache.read x
      rw [heq]
      exact Cache.read_congr (update_of_ne (hne x hx) ..) (update_of_ne (hne x hx) ..) rfl
    · rw [hcache, heq, Cache.view_relocate (update_self ..)]
      cases hswap : (s.pages id).isSwap with
      | true =>
        refine Cache.view_drop_of_ne ?_
        simp [State.cache, VirtualPage.place, hswap]
      | false =>
        have hnone : s.cache.line id = none := by
          have hblocks' : (s.pages id).blocks = [] := by
            simpa [VirtualPage.detach, hswap] using hnil
          simp [State.cache, hblocks']
        have hdrop : s.cache.drop id = s.cache :=
          Cache.ext rfl (update_eq_self_iff.mpr hnone.symm) rfl
        rw [hdrop]

theorem Drop.retained {pid : Pid} {order : List (ℕ × PageId)} (h : Drop pid order s s') :
    Retained s s' := by
  induction h with
  | nil s => exact ⟨fun _ => id, fun _ _ => rfl, fun _ _ => rfl, fun _ => rfl⟩
  | @cons s s' i id rest tables _ ih =>
    have hdetach := Retained.detach s ⟨pid, i⟩ id tables
    exact ⟨fun x hx => hdetach.blocks x (ih.blocks x hx),
      fun x hx => (ih.place x hx).trans (hdetach.place x (ih.blocks x hx)),
      fun x hx => (ih.contents x hx).trans (hdetach.contents x (ih.blocks x hx)),
      fun key => (ih.files key).trans (hdetach.files key)⟩

/-- The mappings of the current process have been removed. -/
theorem Drop.memory {order : List (ℕ × PageId)}
    (h : Drop s.currentPid order (s.touchVA s.currentPid) t) (ht : Core m n t.retire) :
    t.retire.memory = s.memory.exit := by
  rw [← s.memory_touchVA s.currentPid]
  obtain ⟨htable, hmaps, -, -, hcurrent, -, haccessible, -⟩ := h.same
  have hmapped : t.mapped = (s.touchVA s.currentPid).mapped := by
    funext pid va
    rw [State.mapped, State.mapped, hmaps]
  have hretained := h.retained
  refine Memory.ext ?_ hcurrent (funext fun pid => funext fun va => ?_) (funext hretained.files)
    haccessible
  · change t.processTable.erase t.currentPid = _
    rw [htable, hcurrent]
    rfl
  · change (t.retire.mapped pid va).map _ = _
    by_cases hpid : pid = t.currentPid
    · have hexit : (s.touchVA s.currentPid).memory.exit.cells pid = fun _ => none := by
        rw [hpid, hcurrent]
        exact update_self ..
      rw [hexit, State.mapped_retire, if_pos hpid]
      rfl
    · have hexit : (s.touchVA s.currentPid).memory.exit.cells pid =
          (s.touchVA s.currentPid).memory.cells pid :=
        update_of_ne (fun heq => hpid (heq.trans hcurrent.symm)) ..
      have heq : t.retire.mapped pid va = (s.touchVA s.currentPid).mapped pid va := by
        rw [State.mapped_retire, if_neg hpid, hmapped]
      rw [hexit]
      change _ = ((s.touchVA s.currentPid).mapped pid va).map _
      rw [heq]
      refine Option.map_congr fun x hx => ?_
      have hblocks : (t.pages x).blocks ≠ [] :=
        ht.blocks_ne_nil (ht.affiliated_ne_nil (heq.trans hx))
      change (t.pages x).cell (t.contents x) = _
      rw [hretained.contents x hblocks]
      exact VirtualPage.cell_of_place (hretained.place x hblocks) _

/-! ### Stores -/

/-- A page that has one page table entry is mapped at one address. -/
theorem Core.unique_of_length (hs : Core m n s) (hsingle : (s.pages id).affiliated.length = 1)
    {pid pid' : Pid} {va va' : ℕ} (hva : s.mapped pid va = some id)
    (hva' : s.mapped pid' va' = some id) : pid = pid' ∧ va = va' := by
  obtain ⟨ptr, hptr⟩ := List.length_eq_one_iff.mp hsingle
  have hentry {pid : Pid} {va : ℕ} (hva : s.mapped pid va = some id) :
      pid = ptr.pid ∧ va = pageAddr ptr.index := by
    obtain ⟨i, rfl, hentry, -⟩ := hs.spaces.mem_entry hva
    have hmem := (hs.mappings.attached id _).mpr hentry
    rw [hptr, List.mem_singleton] at hmem
    exact hmem ▸ ⟨rfl, rfl⟩
  obtain ⟨rfl, rfl⟩ := hentry hva
  obtain ⟨rfl, rfl⟩ := hentry hva'
  exact ⟨rfl, rfl⟩

/-- A byte is stored in a page that can be written. -/
theorem WellFormed.memory_poke (hs : WellFormed m n s) (hm : m ≤ 2 ^ 20)
    (hcoherent : Coherent m n s) {addr : ℕ} {page : PhysicalPage}
    (hpage : page ∈ (s.pages id).physicalPage)
    (hva : s.mapped s.currentPid (pageStart addr) = some id)
    (hwrite : (s.pages id).bits.2 = true) (byte : UInt8) :
    (s.poke (page.ppn % 2 ^ 20) (addr % vmPagesize) byte).memory = s.memory.store addr byte := by
  let s' := s.poke (page.ppn % 2 ^ 20) (addr % vmPagesize) byte
  have hcache : s'.cache = s.cache.fill id (Memory.put (s.contents id) addr byte) true :=
    hs.cache_poke hm hpage hwrite (addr % vmPagesize) byte
  have hcontents (x : PageId) : s'.contents x =
      if x = id then Memory.put (s.contents id) addr byte else s.contents x := by
    change s'.cache.read x = _
    rw [hcache]
    split_ifs with heq
    · rw [heq]
      exact Cache.read_of_line Cache.fill_line_self
    · exact Cache.read_congr (Cache.fill_line_of_ne heq) rfl rfl
  have hblocks := hs.blocks_ne_nil (hs.affiliated_ne_nil hva)
  have hcell : s.memory.cells s.memory.current (pageStart addr) =
      some ((s.pages id).cell (s.contents id)) := congrArg (Option.map _) hva
  rw [Memory.store, hcell, VirtualPage.cell]
  cases hswap : (s.pages id).isSwap with
  | true =>
    have hsingle : (s.pages id).affiliated.length = 1 :=
      (hs.ppn_of_writable hpage hwrite).2.2 hswap
    refine Memory.ext rfl rfl (funext fun pid => funext fun va => ?_) (funext fun key => ?_) rfl
    · simp only [if_true]
      rw [Memory.map_cells]
      change (s.mapped pid va).map _ = ite _ _ ((s.mapped pid va).map _)
      split_ifs with heq
      · obtain ⟨rfl, rfl⟩ := heq
        have hva' : s.mapped s.memory.current (pageStart addr) = some id := hva
        rw [hva', Option.map_some]
        change some ((s.pages id).cell (s'.contents id)) = _
        rw [hcontents id, if_pos rfl, VirtualPage.cell, if_pos hswap]
      · refine Option.map_congr fun x hx => ?_
        have hne : x ≠ id := by
          rintro rfl
          exact heq (hs.toCore.unique_of_length hsingle hx hva)
        rw [hcontents x, if_neg hne]
        rfl
    · change s'.cache.view (.inl key) = s.cache.view (.inl key)
      rw [hcache]
      refine Cache.view_fill_of_ne ?_
      simp [State.cache, VirtualPage.place, hswap]
  | false =>
    refine Memory.ext rfl rfl (funext fun pid => funext fun va => ?_) (funext fun key => ?_) rfl
    · change (s.mapped pid va).map _ = (s.mapped pid va).map _
      refine Option.map_congr fun x _ => VirtualPage.cell_congr rfl (fun _ => rfl) fun hx => ?_
      have hne : x ≠ id := by
        rintro rfl
        rw [hswap] at hx
        exact Bool.false_ne_true hx
      rw [hcontents x, if_neg hne]
    · have hline := State.line_isSome.mpr ⟨hblocks, page, hpage⟩
      have hplace : s.cache.place id = .inl (s.pages id).key := by
        simp [State.cache, VirtualPage.place, hswap]
      have hold : s.contents id = s.memory.files (s.pages id).key := by
        change _ = s.cache.view (.inl (s.pages id).key)
        rw [← hplace, hcoherent.cache.view_of_isSome hline]
        rfl
      change s'.cache.view (.inl key) = _
      rw [hcache, Cache.view_fill hcoherent.cache (hcoherent.cache.alone hline) (by simp), hplace,
        hold]
      simp only [Bool.false_eq_true, if_false, update_apply, Sum.inl.injEq]
      rfl

/-! ### Calls -/

/-- The next address of a process that is managed. -/
theorem Spaces.memory_next (h : Spaces s) (hpid : s.currentPid ∈ s.processTable) {i : ℕ}
    (hnext : s.nextFreeVA s.currentPid = some (pageAddr i)) {va : ℕ} :
    s.memory.Next s.memory.current va ↔ i < 256 ∧ va = pageAddr i := by
  obtain ⟨-, hvalid⟩ := h.next_eq hpid hnext
  have hcell (j : ℕ) : s.memory.cells s.memory.current (pageAddr j) ≠ none ↔ j < i := by
    rw [← hvalid j, ← Option.isSome_iff_ne_none]
    exact Bool.eq_iff_iff.mp Option.isSome_map
  constructor
  · rintro ⟨j, hj, rfl, hnone, hbelow⟩
    have hge : i ≤ j := not_lt.mp fun hlt => (hcell j).mpr hlt hnone
    have hle : j ≤ i := not_lt.mp fun hlt => lt_irrefl i ((hcell i).mp (hbelow i hlt))
    obtain rfl := le_antisymm hge hle
    exact ⟨hj, rfl⟩
  · rintro ⟨hi, rfl⟩
    exact ⟨i, hi, rfl, not_not.mp fun hsome => lt_irrefl i ((hcell i).mp hsome),
      fun j hj => (hcell j).mpr hj⟩

/-- `vm_map` maps the lowest address that is left, to a page of zeroes or to the block of the file
that the process names. -/
theorem MapResult.memory {theirFilename block : ℕ} {result : Option ℕ}
    (h : MapResult True keep m n s theirFilename block result s') (hm : m ≤ 2 ^ 20)
    (hrun : s.Running) (hs : WellFormed m n s) (hcoherent : Coherent m n s) :
    s.memory.Step (.map theirFilename block) (.address result) s'.memory := by
  cases h with
  | full hnext =>
    refine .full fun va hva => ?_
    exact lt_irrefl _ ((hs.spaces.memory_next hrun.1 hnext).mp hva).1
  | noBlock hname => exact hname ▸ .noBlock
  | @zero i b rest tables hname hnext hi =>
    subst hname
    have hmemory : (((s.addZero ⟨s.currentPid, i⟩ b rest).advance i).withTables tables).memory =
        s.memory.map s.memory.current (pageAddr i) (.own fun _ => 0) :=
      hs.toCore.memory_addZero hm i b rest
    rw [hmemory]
    exact .zero ((hs.spaces.memory_next hrun.1 hnext).mpr ⟨hi, rfl⟩)
  | @file i s₁ _ _ name hname hnext hi hmoves hread hnone hsome =>
    have hstart := hcoherent.touchVA hrun hs
    have hmemory : s₁.memory = s.memory := (hmoves.memory hm hstart).trans (s.memory_touchVA _)
    have hs₁ := (hmoves.coherent hm hstart).1
    have hcurrent : s₁.currentPid = s.currentPid :=
      hmoves.relocation.currentPid.trans (s.currentPid_touchVA s.currentPid)
    have hname' : name = s.memory.name theirFilename := by
      refine hread _ fun t ht _ => ?_
      have hshows := hstart.shows hm ht
      rwa [s.memory_touchVA, s.currentPid_touchVA] at hshows
    cases name with
    | none =>
      obtain ⟨rfl, rfl⟩ := hnone rfl
      rw [hmemory]
      exact .noName hname hname'.symm
    | some filename =>
      obtain ⟨rfl, tables, rfl⟩ := hsome filename rfl
      have hresult : (((s₁.mapFile ⟨s.currentPid, i⟩ filename block).advance i).withTables
          tables).memory = s.memory.map s.memory.current (pageAddr i)
            (.file (filename, block)) := by
        rw [← hmemory, ← hcurrent]
        exact hs₁.toCore.memory_mapFile i filename block
      rw [hresult]
      exact .file hname ((hs.spaces.memory_next hrun.1 hnext).mpr ⟨hi, rfl⟩) hname'.symm

/-- A call of the pager does what the memory says. -/
theorem Effect.memory {call : Call} {result : Result}
    (h : Effect True keep m n s call result s') (hm : m ≤ 2 ^ 20) (hs : WellFormed m n s)
    (hs' : WellFormed m n s') (hcall : call.Promised s) (hcoherent : Coherent m n s)
    (hcoherent' : Coherent m n s') : s.memory.Step call result s'.memory := by
  cases h with
  | refuse tables => exact .refuse
  | create _ hcreated =>
    rw [hcreated.memory hs hcall.1 hcall.2]
    exact .create hcall.1
  | switch pid => exact .switch pid
  | map hmap => exact hmap.memory hm hcall hs hcoherent
  | destroy hdrop =>
    rw [hdrop.memory hs'.toCore]
    exact .destroy
  | fault hfaulted =>
    rw [hfaulted.memory hm hcall hs hcoherent]
    exact .fault
  | load haccess =>
    have hmemory := haccess.faulted.memory hm hcall.1 hs hcoherent
    rw [haccess.reaches hm hcoherent' hmemory haccess.faulted.same.2.2.1, hmemory]
    exact .load
  | denied haccess =>
    have hmemory := haccess.faulted.memory hm hcall.1 hs hcoherent
    rw [hmemory]
    exact .denied (haccess.reaches hm hcoherent' hmemory haccess.faulted.same.2.2.1).symm
  | @store addr ppn byte t haccess hwf =>
    have hmemory := haccess.faulted.memory hm hcall.1 hs hcoherent
    have hcurrent := haccess.faulted.same.2.2.1
    have ht := haccess.faulted.coherent hm hcall.1 hs hcoherent hwf
    have hbyte := haccess.reaches hm ht hmemory hcurrent
    obtain ⟨id, page, hpage, hva, rfl, hwrite⟩ := haccess.page ppn rfl
    rw [hwf.memory_poke hm ht hpage hva (hwrite rfl), hmemory]
    refine .store ?_
    change (s.memory.byte s.currentPid addr).isSome
    rw [← hbyte]
    rfl
  | setAccessible accessible => exact .setAccessible accessible

/-! ### Runs -/

/-- Before the first call there are no pages, and the files have their contents. -/
theorem vmInit_memory (m n : ℕ) (physmem swapFile : ℕ → Contents)
    (files : Bytes → ℕ → Contents) (accessible : Bytes → ℕ → Bool) (garbage : ℕ → Contents) :
    (vmInit m n physmem swapFile files accessible garbage).memory =
      .initial files accessible := by
  refine Memory.ext rfl rfl rfl (funext fun key => ?_) rfl
  refine Cache.view_of_absent fun id hline => ?_
  rw [State.line_of_new rfl] at hline
  exact absurd hline Bool.false_ne_true

/-- The step of a run in which the cache stays coherent. -/
theorem Coherent.step (hcoherent : Coherent m n s) (hs : WellFormed m n s) (hm : 2 ≤ m)
    (hm' : m ≤ 2 ^ 20) {calls : List Call} {call : Call} {result : Result}
    (hcall : Coherently calls s call) (hexec : exec call s = some (result, s')) :
    WellFormed m n s' ∧ Coherent m n s' ∧ s.memory.Step call result s'.memory := by
  obtain ⟨hpromised, hrefused, hkeeps⟩ := hcall
  have hkeep : False → call.Keeps True False m n s := False.elim
  obtain ⟨hs', heffect⟩ := Effect.of_exec hs hm hpromised (fun _ => hrefused) hkeep hexec
  have hcoherent' := heffect.coherent hm' hs hs' hpromised hkeeps hcoherent
  exact ⟨hs', hcoherent', heffect.memory hm' hs hs' hpromised hcoherent hcoherent'⟩

/-- In every run of the pager, the calls do what the memory of the processes says, and a further
call has a value. -/
theorem pagerRun_memory (hm : 2 ≤ m) (hm' : m ≤ 2 ^ 20) (n : ℕ) (physmem swapFile : ℕ → Contents)
    (files : Bytes → ℕ → Contents) (accessible : Bytes → ℕ → Bool) (garbage : ℕ → Contents)
    {calls : List Call} {results : List Result}
    (hrun : PagerRun MmuFaults (vmInit m n physmem swapFile files accessible garbage)
      calls results s) :
    Steps Memory.Step (.initial files accessible) calls results s.memory ∧
      ∀ call, MmuFaults calls s call → exec call s ≠ none := by
  have hstart := vmInit_wellFormed hm n physmem swapFile files accessible garbage
  have hcoherent := vmInit_coherent hm n physmem swapFile files accessible garbage
  obtain ⟨⟨hs, hc⟩, hsteps⟩ := hrun.coherently.refines State.memory
    (fun t => WellFormed m n t ∧ Coherent m n t) ⟨hstart, hcoherent⟩ fun ht hcall hexec => by
      obtain ⟨hwf, hc, hstep⟩ := ht.2.step ht.1 hm hm' hcall hexec
      exact ⟨⟨hwf, hc⟩, hstep⟩
  rw [vmInit_memory] at hsteps
  exact ⟨hsteps, fun call hcall => exec_ne_none hs hm hc.registered hcall.1 hcall.2.1⟩

/-- A child stores into its copy of a page and into a block of a file, and ends; its parent has kept
the page, and finds what has been stored in the file. There is one physical page for all of them. -/
theorem pagerRun_memory_shared : ∃ calls s, PagerRun MmuFaults (blankMachine 2 2 fun _ _ => true)
    calls [.status true, .address (some 0x600000000), .status true, .status true, .done,
      .address (some 0x600010000), .status true, .status true, .byte (some 0), .done, .done,
      .byte (some 97), .address (some 0x600010000), .byte (some 5)] s ∧
    Steps Memory.Step (.initial (fun _ _ _ => 0) fun _ _ => true) calls
      [.status true, .address (some 0x600000000), .status true, .status true, .done,
        .address (some 0x600010000), .status true, .status true, .byte (some 0), .done, .done,
        .byte (some 97), .address (some 0x600010000), .byte (some 5)] s.memory ∧
    ∀ call, MmuFaults calls s call → exec call s ≠ none := by
  have hcomputed : ((runAll exec mmuFaults
      [.create 0 1 [], .map 0 0, .store 0x600000000 97, .create 1 2 [(0x600000000, 0)], .switch 2,
        .map 0x600000000 3, .store 0x600010001 5, .store 0x600000000 0, .load 0x600000000,
        .destroy [(0x600000000, 2), (0x600010000, 1)], .switch 1, .load 0x600000000,
        .map 0x600000000 3, .load 0x600010001] (blankMachine 2 2 fun _ _ => true)).any fun r =>
      r.1 = [.status true, .address (some 0x600000000), .status true, .status true, .done,
        .address (some 0x600010000), .status true, .status true, .byte (some 0), .done, .done,
        .byte (some 97), .address (some 0x600010000), .byte (some 5)]) = true := by decide +kernel
  obtain ⟨⟨results, s⟩, hrun, hresults⟩ := (Option.any_eq_true ..).mp hcomputed
  obtain rfl := of_decide_eq_true hresults
  have hpager := mmuRun_of_runAll hrun
  exact ⟨_, s, hpager, pagerRun_memory (by decide) (by decide) 2 _ _ _ _ _ hpager⟩

end OsFromScratch.Pager
