import OsFromScratch.Pager.Moves

/-!
# Changes of what is mapped

Three changes of the virtual addresses that are mapped to a page, from which `vm_map`, `vm_create`,
`vm_destroy` and copies on write are made: a new page is made for an address, an address is attached
to a page that exists, and an address is detached from its page.

## Main results

* `Mappings.add`, `Mappings.attach`, `Mappings.detach` — the pages agree with the addresses that are
  mapped to them after each of these changes.
* `Frames.page` — the physical pages are still divided among the pages.
-/

namespace OsFromScratch.Pager

open Function

variable {m n : ℕ} {M : PtePtr → Option PageId} {s s' : State} {id : PageId} {ptr : PtePtr}
  {v : VirtualPage}

/-! ### Pages and addresses -/

theorem Mappings.not_fresh (h : Mappings n M s) (hptr : M ptr = some id) : id < s.nextPage := by
  refine State.pages_of_fresh h (List.ne_nil_of_mem ((h.attached id ptr).mpr hptr))

theorem Mappings.registered_lt (h : Mappings n M s) {key : Bytes × ℕ}
    (hkey : s.filenameBlockToVpage.lookup key = some id) : id < s.nextPage := by
  by_contra hge
  obtain ⟨-, -, hblocks⟩ := h.registry key.1 key.2 id hkey
  rw [h.fresh id (not_lt.mp hge)] at hblocks
  exact List.cons_ne_nil _ _ hblocks.symm

/-- A new page is made for an address that is not mapped. A swap backed page takes a block that is
free; a page of a file may be entered into the registry. -/
theorem Mappings.add (h : Mappings n M s) (hptr : M ptr = none)
    (hpages : s'.pages = update s.pages s.nextPage v) (hnext : s'.nextPage = s.nextPage + 1)
    (haff : v.affiliated = [ptr]) {block : ℕ} (hblock : v.blocks = [block])
    (hfree : (v.swapBlocks ++ s'.nextFreeSwap).Perm s.nextFreeSwap)
    (hregistry : ∀ key x, s'.filenameBlockToVpage.lookup key = some x →
      s.filenameBlockToVpage.lookup key = some x ∨
        x = s.nextPage ∧ v.isSwap = false ∧ key = (v.filename, block)) :
    Mappings n (update M ptr (some s.nextPage)) s' := by
  have hself : s'.pages s.nextPage = v := by rw [hpages, update_self]
  have hother (x : PageId) (hx : x ≠ s.nextPage) : s'.pages x = s.pages x := by
    rw [hpages, update_of_ne hx]
  have hnew : s.pages s.nextPage = .new := h.fresh _ le_rfl
  have hfreshM (ptr' : PtePtr) : M ptr' ≠ some s.nextPage := fun hptr' =>
    lt_irrefl _ (h.not_fresh hptr')
  refine ⟨fun x ptr' => ?_, fun x => ?_, fun x hswap => ?_, fun x hfile hlt => ?_, fun x hx => ?_,
    fun filename b x hkey => ?_, ?_⟩
  · rw [update_apply]
    by_cases hx : x = s.nextPage
    · subst hx
      rw [hself, haff, List.mem_singleton]
      by_cases hp : ptr' = ptr
      · simp [hp]
      · simp [hp, hfreshM ptr']
    · rw [hother x hx, h.attached]
      by_cases hp : ptr' = ptr
      · subst hp
        simp [hptr, Ne.symm hx]
      · simp [hp]
  · by_cases hx : x = s.nextPage
    · subst hx
      rw [hself, haff]
      exact List.nodup_singleton ptr
    · rw [hother x hx]
      exact h.nodup x
  · by_cases hx : x = s.nextPage
    · subst hx
      rw [hself, haff, hblock]
      rfl
    · rw [hother x hx] at hswap ⊢
      exact h.swap x hswap
  · by_cases hx : x = s.nextPage
    · subst hx
      exact ⟨block, hself ▸ hblock⟩
    · rw [hother x hx] at hfile ⊢
      rw [hnext] at hlt
      exact h.file x hfile (lt_of_le_of_ne (Nat.lt_succ_iff.mp hlt) hx)
  · rw [hnext] at hx
    have hlt : s.nextPage < x := hx
    rw [hother x hlt.ne']
    exact h.fresh x hlt.le
  · rcases hregistry _ x hkey with hold | ⟨rfl, hfile, heq⟩
    · have hx : x ≠ s.nextPage := (h.registered_lt hold).ne
      rw [hother x hx]
      exact h.registry filename b x hold
    · rw [Prod.mk.injEq] at heq
      obtain ⟨rfl, rfl⟩ := heq
      rw [hself]
      exact ⟨hfile, rfl, hblock⟩
  · refine h.blocks.move (p := some s.nextPage) (q := none) (by simp) (fun owner hp hq => ?_) ?_
    · cases owner with
      | none => exact absurd rfl hq
      | some x =>
        rw [State.blockOwner, hother x fun hx => hp (hx ▸ rfl)]
        rfl
    · simp only [State.blockOwner, hself, hnew]
      exact hfree

/-- An address that is not mapped is attached to a page. A swap backed page takes one more block. -/
theorem Mappings.attach (h : Mappings n M s) (hptr : M ptr = none) (hid : id < s.nextPage)
    {extra : List ℕ} (hpages : s'.pages = update s.pages id { s.pages id with
      affiliated := (s.pages id).affiliated ++ [ptr], blocks := (s.pages id).blocks ++ extra })
    (hnext : s'.nextPage = s.nextPage)
    (hextra : extra.length = if (s.pages id).isSwap then 1 else 0)
    (hfree : (extra ++ s'.nextFreeSwap).Perm s.nextFreeSwap)
    (hregistry : s'.filenameBlockToVpage = s.filenameBlockToVpage) :
    Mappings n (update M ptr (some id)) s' := by
  have hself : s'.pages id = { s.pages id with
      affiliated := (s.pages id).affiliated ++ [ptr]
      blocks := (s.pages id).blocks ++ extra } := by rw [hpages, update_self]
  have hother (x : PageId) (hx : x ≠ id) : s'.pages x = s.pages x := by
    rw [hpages, update_of_ne hx]
  have hnot (x : PageId) : ptr ∉ (s.pages x).affiliated := by
    rw [h.attached, hptr]
    simp
  have hfile_extra (hfile : (s.pages id).isSwap = false) : extra = [] := by
    rw [hfile] at hextra
    exact List.length_eq_zero_iff.mp hextra
  refine ⟨fun x ptr' => ?_, fun x => ?_, fun x hswap => ?_, fun x hfile hlt => ?_, fun x hx => ?_,
    fun filename b x hkey => ?_, ?_⟩
  · rw [update_apply]
    by_cases hp : ptr' = ptr
    · subst hp
      by_cases hx : x = id
      · subst hx
        simp [hself]
      · rw [hother x hx]
        simp [hnot x, Ne.symm hx]
    · by_cases hx : x = id
      · subst hx
        rw [hself, if_neg hp, ← h.attached]
        simp [hp]
      · rw [hother x hx, if_neg hp]
        exact h.attached x ptr'
  · by_cases hx : x = id
    · subst hx
      rw [hself]
      exact List.nodup_append.mpr ⟨h.nodup x, List.nodup_singleton ptr, by
        rintro a ha b hb rfl
        rw [List.mem_singleton] at hb
        exact hnot x (hb ▸ ha)⟩
    · rw [hother x hx]
      exact h.nodup x
  · by_cases hx : x = id
    · subst hx
      rw [hself] at hswap ⊢
      have hold : (s.pages x).isSwap = true := hswap
      have hlen := h.swap x hold
      simp only [List.length_append, hextra, hold, if_true, List.length_singleton, hlen]
    · rw [hother x hx] at hswap ⊢
      exact h.swap x hswap
  · rw [hnext] at hlt
    by_cases hx : x = id
    · subst hx
      rw [hself] at hfile ⊢
      simp only [hfile_extra hfile, List.append_nil]
      exact h.file x hfile hlt
    · rw [hother x hx] at hfile ⊢
      exact h.file x hfile hlt
  · rw [hnext] at hx
    rw [hother x (lt_of_lt_of_le hid hx).ne']
    exact h.fresh x hx
  · rw [hregistry] at hkey
    obtain ⟨hfile, hfilename, hblock⟩ := h.registry filename b x hkey
    by_cases hx : x = id
    · subst hx
      rw [hself]
      simp only [hfile_extra hfile, List.append_nil]
      exact ⟨hfile, hfilename, hblock⟩
    · rw [hother x hx]
      exact ⟨hfile, hfilename, hblock⟩
  · refine h.blocks.move (p := some id) (q := none) (by simp) (fun owner hp hq => ?_) ?_
    · cases owner with
      | none => exact absurd rfl hq
      | some x =>
        rw [State.blockOwner, hother x fun hx => hp (hx ▸ rfl)]
        rfl
    · simp only [State.blockOwner, hself, VirtualPage.swapBlocks]
      split_ifs with hswap
      · rw [List.append_assoc]
        exact hfree.append_left _
      · rwa [hfile_extra (by simpa using hswap), List.nil_append] at hfree

/-- An address is detached from its page. A swap backed page gives up its last block. -/
theorem Mappings.detach (h : Mappings n M s) (hptr : M ptr = some id)
    (hpages : s'.pages = update s.pages id v) (hnext : s'.nextPage = s.nextPage)
    (hswap : v.isSwap = (s.pages id).isSwap) (hfilename : v.filename = (s.pages id).filename)
    (haff : v.affiliated = (s.pages id).affiliated.erase ptr) {extra : List ℕ}
    (hblocks : (s.pages id).blocks = v.blocks ++ extra)
    (hextra : extra.length = if (s.pages id).isSwap then 1 else 0)
    (hfree : s'.nextFreeSwap.Perm (extra ++ s.nextFreeSwap))
    (hregistry : s'.filenameBlockToVpage = s.filenameBlockToVpage) :
    Mappings n (update M ptr none) s' := by
  have hself : s'.pages id = v := by rw [hpages, update_self]
  have hother (x : PageId) (hx : x ≠ id) : s'.pages x = s.pages x := by
    rw [hpages, update_of_ne hx]
  have hmem : ptr ∈ (s.pages id).affiliated := (h.attached id ptr).mpr hptr
  have hfile_blocks (hfile : (s.pages id).isSwap = false) : v.blocks = (s.pages id).blocks := by
    rw [hfile] at hextra
    rw [hblocks, List.length_eq_zero_iff.mp hextra, List.append_nil]
  refine ⟨fun x ptr' => ?_, fun x => ?_, fun x hx_swap => ?_, fun x hfile hlt => ?_, fun x hx => ?_,
    fun filename b x hkey => ?_, ?_⟩
  · rw [update_apply]
    by_cases hp : ptr' = ptr
    · subst hp
      by_cases hx : x = id
      · subst hx
        simp [hself, haff, (h.nodup x).mem_erase_iff]
      · rw [hother x hx, h.attached, hptr]
        simp [Ne.symm hx]
    · by_cases hx : x = id
      · subst hx
        rw [hself, haff, (h.nodup x).mem_erase_iff, if_neg hp, ← h.attached]
        simp [hp]
      · rw [hother x hx, if_neg hp]
        exact h.attached x ptr'
  · by_cases hx : x = id
    · subst hx
      rw [hself, haff]
      exact (h.nodup x).erase ptr
    · rw [hother x hx]
      exact h.nodup x
  · by_cases hx : x = id
    · subst hx
      rw [hself] at hx_swap ⊢
      rw [hswap] at hx_swap
      have hlen := h.swap x hx_swap
      have hpos := List.length_pos_of_mem hmem
      rw [hblocks, List.length_append, hextra, if_pos hx_swap] at hlen
      rw [haff, List.length_erase_of_mem hmem]
      omega
    · rw [hother x hx] at hx_swap ⊢
      exact h.swap x hx_swap
  · rw [hnext] at hlt
    by_cases hx : x = id
    · subst hx
      rw [hself] at hfile ⊢
      rw [hfile_blocks (hswap ▸ hfile)]
      exact h.file x (hswap ▸ hfile) hlt
    · rw [hother x hx] at hfile ⊢
      exact h.file x hfile hlt
  · rw [hnext] at hx
    rw [hother x (lt_of_lt_of_le (h.not_fresh hptr) hx).ne']
    exact h.fresh x hx
  · rw [hregistry] at hkey
    obtain ⟨hfile, hname, hblock⟩ := h.registry filename b x hkey
    by_cases hx : x = id
    · subst hx
      rw [hself, hswap, hfilename, hfile_blocks hfile]
      exact ⟨hfile, hname, hblock⟩
    · rw [hother x hx]
      exact ⟨hfile, hname, hblock⟩
  · refine h.blocks.move (p := some id) (q := none) (by simp) (fun owner hp hq => ?_) ?_
    · cases owner with
      | none => exact absurd rfl hq
      | some x =>
        rw [State.blockOwner, hother x fun hx => hp (hx ▸ rfl)]
        rfl
    · simp only [State.blockOwner, hself, VirtualPage.swapBlocks, hswap]
      split_ifs with hs
      · rw [hblocks, List.append_assoc]
        exact hfree.append_left _
      · rw [if_neg hs] at hextra
        rwa [List.length_eq_zero_iff.mp hextra, List.nil_append] at hfree

/-! ### Physical pages -/

/-- The memory and the queue are the same in two states. -/
structure SameMemory (s s' : State) : Prop where
  queue : s'.clockQueue = s.clockQueue
  free : s'.nextFreePPN = s.nextFreePPN
  cap : s'.memPagesCap = s.memPagesCap
  physmem : s'.physmem = s.physmem
  accessible : s'.accessible = s.accessible

/-- A page changes, but keeps the physical page that it has. -/
theorem Frames.page (h : Frames m s) (hsame : SameMemory s s')
    (hpages : s'.pages = update s.pages id v) (hframe : v.frame = (s.pages id).frame)
    (hresident : v.resident = v.physicalPage.isSome)
    (hnull : ∀ page ∈ v.physicalPage, page.ppn = 0 →
      v.isSwap = true ∧ v.blocks.length ≤ 1 ∧ page.clocked = true ∧ page.dirty = false)
    (hloaded : v.resident = true → v.isSwap = false → ∀ block ∈ v.blocks,
      s.accessible v.filename block = true) : Frames m s' := by
  have hself : s'.pages id = v := by rw [hpages, update_self]
  have hother (x : PageId) (hx : x ≠ id) : s'.pages x = s.pages x := by
    rw [hpages, update_of_ne hx]
  have hframe' (x : PageId) : (s'.pages x).frame = (s.pages x).frame := by
    by_cases hx : x = id
    · rw [hx, hself, hframe]
    · rw [hother x hx]
  refine ⟨fun x => ?_, fun x page hpage => ?_, ?_, fun x => ?_, ?_, ?_, ?_, ?_, fun x hres => ?_⟩
  · by_cases hx : x = id
    · rw [hx, hself, hresident]
    · rw [hother x hx]
      exact h.resident x
  · by_cases hx : x = id
    · subst hx
      rw [hself] at hpage ⊢
      exact hnull page hpage
    · rw [hother x hx] at hpage ⊢
      exact h.null_page x page hpage
  · rw [hsame.queue]
    exact h.queue_nodup
  · rw [hsame.queue, hframe']
    exact h.mem_queue x
  · have heq : s'.frameOwner = s.frameOwner := by
      funext owner
      cases owner with
      | none => exact hsame.free
      | some x => exact hframe' x
    rw [heq]
    exact h.frames
  · rw [hsame.queue, hsame.free]
    exact h.size
  · rw [hsame.cap]
    exact h.cap
  · rw [hsame.physmem]
    exact h.zero
  · rw [hsame.accessible]
    by_cases hx : x = id
    · subst hx
      rw [hself] at hres ⊢
      exact hloaded hres
    · rw [hother x hx] at hres ⊢
      exact h.loaded x hres

end OsFromScratch.Pager
