import OsFromScratch.Pager.Coherence

/-!
# The memory of the processes

What the processes see of the memory: each page of a process has contents of its own, or it shows a
block of a file, which other pages may show as well. Faults do not change it, wherever the pages
are.

## Main definitions

* `Memory` — the memory as the processes see it.
* `Memory.byte` — the byte that a process reads at an address.
* `State.memory` — the memory that the pager implements.

## Main results

* `Moves.memory`, `Copy.memory`, `Faulted.memory` — faults do not change the memory.
* `exec_load` — a load returns the byte at its address, and does not change the memory.
-/

namespace OsFromScratch.Pager

open Function

variable {m n : ℕ} {s s' t : State} {id : PageId} {ptr : PtePtr} {keep : Prop}

/-! ### The abstract memory -/

/-- A page of a process: it has contents of its own, or shows a block of a file. -/
inductive Cell
  | own (contents : Contents)
  | file (key : Bytes × ℕ)

/-- The memory as the processes see it. -/
@[ext]
structure Memory where
  /-- The processes that exist. -/
  processes : Finset Pid
  /-- The current process. -/
  current : Pid
  /-- The pages of each process, by their addresses. -/
  cells : Pid → ℕ → Option Cell
  /-- The current contents of the blocks of all files. -/
  files : Bytes × ℕ → Contents
  /-- The blocks that can be read. -/
  accessible : Bytes → ℕ → Bool

/-- The contents that a page shows, if they can be read. -/
def Memory.contents (M : Memory) : Cell → Option Contents
  | .own contents => some contents
  | .file key => if M.accessible key.1 key.2 then some (M.files key) else none

/-- The byte that a process reads at an address. -/
def Memory.byte (M : Memory) (pid : Pid) (va : ℕ) : Option UInt8 :=
  ((M.cells pid (pageStart va)).bind M.contents).map fun contents =>
    contents (Fin.ofNat vmPagesize (va % vmPagesize))

/-! ### The memory of the pager -/

/-- What a page with the given contents is for the processes. -/
def VirtualPage.cell (v : VirtualPage) (contents : Contents) : Cell :=
  if v.isSwap then .own contents else .file v.key

/-- The memory that the pager implements. -/
noncomputable def State.memory (s : State) : Memory where
  processes := s.processTable
  current := s.currentPid
  cells pid va := (s.mapped pid va).map fun id => (s.pages id).cell (s.contents id)
  files key := s.cache.view (.inl key)
  accessible := s.accessible

/-- Only pages that are backed by swap have contents of their own. -/
theorem VirtualPage.cell_congr {v v' : VirtualPage} {contents contents' : Contents}
    (hswap : v'.isSwap = v.isSwap) (hkey : v.isSwap = false → v'.key = v.key)
    (hcontents : v.isSwap = true → contents' = contents) : v'.cell contents' = v.cell contents := by
  rw [VirtualPage.cell, VirtualPage.cell, hswap]
  cases h : v.isSwap with
  | true => simp [hcontents h]
  | false => simp [hkey h]

/-- The block of a page says whether it has contents of its own. -/
theorem VirtualPage.cell_of_place {v v' : VirtualPage} (h : v'.place = v.place)
    (contents : Contents) : v'.cell contents = v.cell contents := by
  rw [VirtualPage.place, VirtualPage.place] at h
  cases hswap' : v'.isSwap with
  | true =>
    cases hswap : v.isSwap with
    | true => simp [VirtualPage.cell, hswap, hswap']
    | false => simp [hswap, hswap'] at h
  | false =>
    cases hswap : v.isSwap with
    | true => simp [hswap, hswap'] at h
    | false =>
      have hkey : v'.key = v.key := by simpa [hswap, hswap'] using h
      simp [VirtualPage.cell, hswap, hswap', hkey]

/-- The byte of a page that can be read. -/
theorem Coherent.byte_eq (h : Coherent m n s) {pid : Pid} {va : ℕ}
    (hva : s.mapped pid (pageStart va) = some id) (hread : s.Readable id) :
    s.memory.byte pid va = some (s.contents id (Fin.ofNat vmPagesize (va % vmPagesize))) := by
  have hcell : s.memory.cells pid (pageStart va) = some ((s.pages id).cell (s.contents id)) := by
    simp [State.memory, hva]
  rw [Memory.byte, hcell, Option.bind_some, VirtualPage.cell]
  cases hswap : (s.pages id).isSwap with
  | true => simp [Memory.contents]
  | false =>
    have hacc : s.accessible (s.pages id).key.1 (s.pages id).key.2 = true :=
      hread.resolve_left (by simp [hswap])
    have hview := h.contents_eq_view (h.affiliated_ne_nil hva) hread
    rw [VirtualPage.place, hswap] at hview
    simp [Memory.contents, State.memory, hacc, hview]

/-- There is a byte at the addresses of pages that can be read. -/
theorem State.byte_isSome (s : State) (pid : Pid) (va : ℕ) : (s.memory.byte pid va).isSome ↔
    ∃ id, s.mapped pid (pageStart va) = some id ∧ s.Readable id := by
  cases hva : s.mapped pid (pageStart va) with
  | none => simp [Memory.byte, State.memory, hva]
  | some id =>
    cases hswap : (s.pages id).isSwap with
    | true =>
      simp [Memory.byte, State.memory, hva, VirtualPage.cell, hswap, Memory.contents,
        State.Readable]
    | false =>
      simp [Memory.byte, State.memory, hva, VirtualPage.cell, hswap, Memory.contents,
        State.Readable, VirtualPage.key]

/-! ### Faults -/

/-- Moves of pages do not change the contents of those that can be read. -/
theorem Moves.contents (h : Moves True keep s s') (hm : m ≤ 2 ^ 20) (hs : Coherent m n s)
    (hmapped : (s.pages id).affiliated ≠ []) (hread : s.Readable id) :
    s'.contents id = s.contents id := by
  have hreloc := h.relocation
  obtain ⟨hs', hview⟩ := h.coherent hm hs
  rw [hs.contents_eq_view hmapped hread,
    hs'.contents_eq_view (hreloc.affiliated id ▸ hmapped) ((hreloc.readable id).mpr hread), hview,
    hreloc.place]

/-- Moves of pages do not change the memory. -/
theorem Moves.memory (h : Moves True keep s s') (hm : m ≤ 2 ^ 20) (hs : Coherent m n s) :
    s'.memory = s.memory := by
  have hreloc := h.relocation
  obtain ⟨-, hview⟩ := h.coherent hm hs
  refine Memory.ext hreloc.processTable hreloc.currentPid (funext fun pid => funext fun va => ?_)
    (funext fun key => congrFun hview (.inl key)) hreloc.accessible
  simp only [State.memory]
  rw [hreloc.mapped]
  refine Option.map_congr fun id hva => ?_
  exact VirtualPage.cell_congr (hreloc.isSwap id) (fun _ => hreloc.key id) fun hswap =>
    h.contents hm hs (hs.affiliated_ne_nil hva) (Or.inl hswap)

/-- A page keeps its contents when another page asks for a physical page, and loses its place in
memory only to it. -/
theorem Reclaim.victim (h : Reclaim s t) {ppn : ℕ} {rest : List ℕ}
    (hfree : t.nextFreePPN = ppn :: rest) {page : PhysicalPage}
    (hpage : (s.pages id).physicalPage = some page) (hppn : page.ppn ≠ 0)
    (hnone : (t.pages id).physicalPage = none) : ppn = page.ppn ∧ t.physmem = s.physmem := by
  rcases h with ⟨-, rfl⟩ | ⟨hnil, victim, queue, hqueue, rfl⟩
  · rw [hpage] at hnone
    simp at hnone
  · obtain ⟨page', hpage', hsame⟩ : ∃ page', (s.turnClock.pages id).physicalPage = some page' ∧
        page'.ppn = page.ppn := by
      rcases s.turnClock_page id with heq | ⟨-, heq⟩
      · exact ⟨page, by rw [heq, hpage], rfl⟩
      · exact ⟨{ page with clocked := false }, by simp [heq, VirtualPage.unclock, hpage], rfl⟩
    have hvictim : id = victim := by
      by_contra hne
      rw [show (s.turnClock.evict victim).pages id = s.turnClock.pages id from update_of_ne hne ..,
        hpage'] at hnone
      simp at hnone
    have hframe : (s.turnClock.pages victim).frame = [page.ppn] := by
      rw [← hvictim, VirtualPage.frame_eq_of_some hpage' (hsame.symm ▸ hppn), hsame]
    have hppns : (s.turnClock.evict victim).nextFreePPN = [page.ppn] := by
      simp only [State.evict, hframe]
      rw [show s.turnClock.nextFreePPN = [] from hnil, List.nil_append]
    rw [hppns, List.cons.injEq] at hfree
    exact ⟨hfree.1.symm, rfl⟩

/-- A copy has the contents of the page that it is made of, and does not change the memory. -/
theorem Copy.memory (h : Copy s s' ptr id) (hm : m ≤ 2 ^ 20) (hs : Coherent m n s) :
    s'.memory = s.memory := by
  obtain ⟨block, t, ppn, rest, tables, hblock, hreclaim, hfree, rfl⟩ := h.result
  let u := s.split ptr id block
  have hu : Coherent m n u := hs.split h.mapped h.swap h.shared hblock
  have hmoves := hreclaim.moves True False
  obtain ⟨ht, hview⟩ := hmoves.coherent hm hu
  have hreloc := hmoves.relocation
  have hnew : s.pages s.nextPage = .new := hs.mappings.fresh _ le_rfl
  have hidne : id ≠ s.nextPage := (hs.mappings.not_fresh h.mapped).ne
  have hucache : u.cache = s.cache.relocate s.nextPage (.inr block) :=
    State.cache_split hnew h.swap h.shared ptr block
  have hunew : u.pages s.nextPage = { VirtualPage.new with
      affiliated := [ptr], isSwap := true, blocks := [block] } := update_self ..
  have huid : u.pages id = { s.pages id with
      affiliated := (s.pages id).affiliated.erase ptr, blocks := (s.pages id).blocks.dropLast } :=
    (update_of_ne hidne ..).trans (update_self ..)
  have hublocks : (u.pages id).blocks ≠ [] := by
    rw [huid, ne_eq, ← List.length_eq_zero_iff, List.length_dropLast]
    have := h.shared
    omega
  have humapped : (u.pages id).affiliated ≠ [] := by
    rw [ne_eq, ← List.length_eq_zero_iff, ← hu.mappings.swap id (by rw [huid]; exact h.swap),
      List.length_eq_zero_iff]
    exact hublocks
  -- the pages that exist keep their contents
  have hcontents (x : PageId) (hx : x ≠ s.nextPage) (hmapped : (u.pages x).affiliated ≠ [])
      (hswap : (u.pages x).isSwap = true) : t.contents x = s.contents x := by
    refine (hmoves.contents hm hu hmapped (Or.inl hswap)).trans ?_
    change u.cache.read x = s.cache.read x
    rw [hucache]
    exact Cache.read_congr rfl (update_of_ne hx ..) rfl
  -- the copy has those of the page that it is made of, even if this page has just been evicted
  have hcopied : t.copied id ppn = s.contents id := by
    obtain ⟨page, hpage, -⟩ := VirtualPage.page_of_bits h.readable
    have hppn : page.ppn ≠ 0 := fun hzero => by
      have hlength := (hs.frames.null_page id page hpage hzero).2.1
      have := h.shared
      omega
    rw [State.copied]
    cases hplace : (t.pages id).physicalPage with
    | some page' =>
      rw [← hcontents id hidne humapped (by rw [huid]; exact h.swap)]
      exact (State.contents_of_some (hreloc.blocks id ▸ hublocks) hplace).symm
    | none =>
      obtain ⟨rfl, hphysmem⟩ := hreclaim.victim hfree (by rw [huid]; exact hpage) hppn hplace
      have hblocks : (s.pages id).blocks ≠ [] := by
        intro hnil
        have := h.shared
        simp [hnil] at this
      rw [hphysmem, State.contents_of_some hblocks hpage]
      rfl
  let s' := (t.allocate s.nextPage ⟨ppn, true, true⟩ (t.copied id ppn)).withTables tables
  have hcache : s'.cache = t.cache.fill s.nextPage (t.copied id ppn) true :=
    State.cache_allocate ht.frames (hfree ▸ List.mem_cons_self)
      (by rw [hreloc.blocks, hunew]; simp) (t.copied id ppn)
  have hmapped (pid : Pid) (va : ℕ) : s'.mapped pid va =
      if pid = ptr.pid ∧ va = pageAddr ptr.index then some s.nextPage else s.mapped pid va := by
    rw [show s'.mapped pid va = t.mapped pid va from rfl, hreloc.mapped]
    exact State.mapped_setVA s ptr.pid (pageAddr ptr.index) s.nextPage pid va
  refine Memory.ext h.same.1 h.same.2.2.1 (funext fun pid => funext fun va => ?_)
    (funext fun key => ?_) h.same.2.2.2.2
  · change (s'.mapped pid va).map _ = (s.mapped pid va).map _
    rw [hmapped]
    split_ifs with hptr
    · obtain ⟨rfl, rfl⟩ := hptr
      have hid : s.mapped ptr.pid (pageAddr ptr.index) = some id := h.mapped
      have hnewcontents : s'.contents s.nextPage = s.contents id := by
        rw [← hcopied]
        change s'.cache.read s.nextPage = _
        rw [hcache]
        exact Cache.read_of_line Cache.fill_line_self
      have hnewswap : (s'.pages s.nextPage).isSwap = true := by
        rw [show s'.pages s.nextPage = { t.pages s.nextPage with
          resident := true, physicalPage := some ⟨ppn, true, true⟩ } from update_self ..]
        exact (hreloc.isSwap _).trans (by rw [hunew])
      rw [hid, Option.map_some, Option.map_some, hnewcontents, VirtualPage.cell,
        VirtualPage.cell, if_pos hnewswap, if_pos h.swap]
    · refine Option.map_congr fun x hva => ?_
      have hva' : u.mapped pid va = some x := by
        refine (State.mapped_setVA s ptr.pid (pageAddr ptr.index) s.nextPage pid va).trans ?_
        rw [if_neg hptr, hva]
      obtain ⟨i, -, hentry, -⟩ := hs.spaces.mem_entry hva
      have hx : x ≠ s.nextPage := (hs.mappings.not_fresh hentry).ne
      have hpage : s'.pages x = t.pages x := update_of_ne hx ..
      have hswap : (u.pages x).isSwap = (s.pages x).isSwap := by
        by_cases heq : x = id
        · rw [heq, huid]
        · rw [show u.pages x = s.pages x from (update_of_ne hx ..).trans (update_of_ne heq ..)]
      refine VirtualPage.cell_congr (by rw [hpage, hreloc.isSwap, hswap]) (fun hfile => ?_)
        fun hown => ?_
      · have heq : x ≠ id := fun heq => by
          rw [heq, h.swap] at hfile
          simp at hfile
        rw [hpage, hreloc.key,
          show u.pages x = s.pages x from (update_of_ne hx ..).trans (update_of_ne heq ..)]
      · refine Eq.trans ?_ (hcontents x hx (hu.affiliated_ne_nil hva') (hswap.trans hown))
        change s'.cache.read x = t.cache.read x
        rw [hcache]
        exact Cache.read_congr (Cache.fill_line_of_ne hx) rfl rfl
  · change s'.cache.view (.inl key) = s.cache.view (.inl key)
    have hplace : t.cache.place s.nextPage ≠ .inl key := by
      rw [show t.cache.place s.nextPage = (t.pages s.nextPage).place from rfl, hreloc.place, hunew]
      simp [VirtualPage.place]
    rw [hcache, Cache.view_fill_of_ne hplace, hview, hucache,
      Cache.view_relocate (State.line_of_new hnew)]

theorem State.memory_touchVA (s : State) (pid : Pid) : (s.touchVA pid).memory = s.memory := by
  have hcache := s.cache_touchVA pid
  have hmapped := s.mapped_touchVA pid
  obtain ⟨maps, heq⟩ := s.touchVA_eq pid
  rw [heq] at hcache hmapped ⊢
  refine Memory.ext rfl rfl (funext fun p => funext fun va => ?_) ?_ rfl
  · simp only [State.memory, hmapped, State.contents, hcache]
  · simp only [State.memory, hcache]

/-- Faults do not change the memory. -/
theorem Faulted.memory (h : Faulted True keep s s') (hm : m ≤ 2 ^ 20) (hrun : s.Running)
    (hs : WellFormed m n s) (hcoherent : Coherent m n s) : s'.memory = s.memory := by
  obtain ⟨s₁, hmoves, hcopy⟩ := h
  have hstart := hcoherent.touchVA hrun hs
  have hmemory : s₁.memory = s.memory :=
    (hmoves.memory hm hstart).trans (s.memory_touchVA s.currentPid)
  rcases hcopy with rfl | ⟨ptr, id, hcopy⟩
  · exact hmemory
  · exact (hcopy.memory hm (hmoves.coherent hm hstart).1).trans hmemory

/-! ### Loads -/

/-- An access reaches the contents of the page that the address is in. -/
theorem Access.reaches {addr : ℕ} {writeFlag : Bool} {place : Option ℕ}
    (h : Access True keep s addr writeFlag place s') (hm : m ≤ 2 ^ 20) (hs' : Coherent m n s')
    (hmemory : s'.memory = s.memory) (hcurrent : s'.currentPid = s.currentPid) :
    (place.map fun ppn => s'.byte ppn (addr % vmPagesize)) = s.memory.byte s.currentPid addr := by
  cases hplace : place with
  | none =>
    have hnone : ¬(s.memory.byte s.currentPid addr).isSome := by
      rw [State.byte_isSome, ← h.isSome, hplace]
      simp
    rw [Option.map_none, Option.not_isSome_iff_eq_none.mp hnone]
  | some ppn =>
    obtain ⟨id, page, hpage, hva, rfl, -⟩ := h.page ppn hplace
    have hblocks := hs'.blocks_ne_nil (hs'.affiliated_ne_nil hva)
    have hlt : page.ppn < 2 ^ 20 := by
      by_cases hzero : page.ppn = 0
      · omega
      · have hmem := hs'.frames.frames.mem (p := some id)
          (VirtualPage.mem_frame.mpr ⟨hzero, page, hpage, rfl⟩)
        exact lt_of_lt_of_le hmem.2 hm
    rw [← hmemory, ← hcurrent, hs'.byte_eq hva (hs'.readable_of_some hblocks hpage),
      State.contents_of_some hblocks hpage, Option.map_some, Nat.mod_eq_of_lt hlt]
    rfl

/-- A load returns the byte at its address, and does not change the memory. -/
theorem exec_load (h : WellFormed m n s) (hm : 2 ≤ m) (hm' : m ≤ 2 ^ 20)
    (hcoherent : Coherent m n s) (hrun : s.Running) {addr : ℕ} (haddr : InArena addr) :
    ∃ s', exec (.load addr) s = some (.byte (s.memory.byte s.currentPid addr), s') ∧
      s'.memory = s.memory := by
  obtain ⟨place, s', heq, hwf, haccess⟩ := access_spec h hm hrun haddr false True
    (fun h : False => h.elim)
  have hmemory := haccess.faulted.memory hm' hrun h hcoherent
  have hs' := haccess.faulted.coherent hm' hrun h hcoherent hwf
  refine ⟨s', ?_, hmemory⟩
  rw [exec, heq, ← haccess.reaches hm' hs' hmemory haccess.faulted.same.2.2.1]
  rfl

end OsFromScratch.Pager
