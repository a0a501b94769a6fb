import OsFromScratch.FileServer.Concurrency

/-!
# Accesses within bounds

The limits of `fs_param.h` are checked when a request is parsed, the sizes and block numbers that
are read back from the disk keep theirs by the invariant of the disk. Together they keep every
access of the file system code within bounds, for whatever requests are in flight: no thread aborts,
and a thread aborts as soon as it reads or writes a block beyond the disk, accesses `blocks[i]`
beyond the array, copies a name or an owner that does not fit, or has no data to write.

## Main results

* `ServerSound.ne_abort` — a thread that keeps the protocol does not abort.
* `ServerStep.popFront`, `ServerStep.popFrontOr` — a block is taken from a free list that has one.
* `serverRun_in_range` — every access in a run of the server is within bounds.
-/

namespace OsFromScratch.FileServer

open Function

variable {a₀ : AbstractFs} {c c' : ServerPool} {η : List Entry} {gs : ℕ → Ghost} {i : ℕ}
  {b block : BlockNo}

/-- A thread that keeps the protocol does not abort. -/
theorem ServerSound.ne_abort (h : ServerSound a₀ c η gs) {req : {req : Request // Accepted req}}
    {p : FsProg Response} (hi : c.threads[i]? = some (req, p)) : p ≠ .abort := by
  rintro rfl
  exact Protocol.wp_abort.mp (h.wp i req _ hi)

/-- A block that is taken was the first one of the free list. -/
theorem ServerStep.popFront (h : ServerStep c (.act i .popFront (some b)) c') :
    c.state.freeDiskBlocks = b :: c'.state.freeDiskBlocks := by
  generalize hl : (.act i .popFront (some b) : ServerLabel) = l at h
  cases h with
  | start req => exact absurd hl (by simp)
  | act j req o k r s' hj hstep =>
    obtain ⟨rfl, rfl, hr⟩ := Pool.Label.act.inj hl
    obtain rfl := eq_of_heq hr
    obtain ⟨hhead, rfl⟩ := Prod.mk.inj (Option.some.inj hstep)
    exact (List.cons_head?_tail hhead).symm

theorem ServerStep.popFrontOr (h : ServerStep c (.act i (.popFrontOr block) (some b)) c') :
    c.state.freeDiskBlocks = b :: c'.state.freeDiskBlocks := by
  generalize hl : (.act i (.popFrontOr block) (some b) : ServerLabel) = l at h
  cases h with
  | start req => exact absurd hl (by simp)
  | act j req o k r s' hj hstep =>
    obtain ⟨rfl, rfl, hr⟩ := Pool.Label.act.inj hl
    obtain rfl := eq_of_heq hr
    rw [step] at hstep
    cases hfree : c.state.freeDiskBlocks with
    | nil =>
      rw [hfree] at hstep
      exact absurd (Prod.mk.inj (Option.some.inj hstep)).1 (by simp)
    | cons b' bs =>
      rw [hfree] at hstep
      obtain ⟨hb, rfl⟩ := Prod.mk.inj (Option.some.inj hstep)
      rw [Option.some.inj hb]

/-- Every access in a run of the server is within bounds: no request aborts, every block that is
read or written is on the disk, and a block is taken from the free list only when there is one. -/
theorem serverRun_in_range (d : Disk) (hwf : WellFormed d) (garbage : ℕ → FsInode)
    (free : List BlockNo) (hinit : fsInit d = some free) (tr : List ServerLabel) (c : ServerPool)
    (hrun : ServerRun ⟨boot d free garbage, []⟩ tr c) :
    (∀ (i : ℕ) (req : {req : Request // Accepted req}) (p : FsProg Response),
        c.threads[i]? = some (req, p) → p ≠ .abort) ∧
      (∀ (i : ℕ) (o : Op) (r : o.Res), .act i o r ∈ tr → o.OnDisk) ∧
      (∀ (i : ℕ) (b : BlockNo) (c' : ServerPool), ServerStep c (.act i .popFront (some b)) c' →
        c.state.freeDiskBlocks = b :: c'.state.freeDiskBlocks) ∧
      ∀ (i : ℕ) (block b : BlockNo) (c' : ServerPool),
        ServerStep c (.act i (.popFrontOr block) (some b)) c' →
        c.state.freeDiskBlocks = b :: c'.state.freeDiskBlocks := by
  obtain ⟨η, gs, -, hsound⟩ := (quiet_boot hwf hinit garbage).run hrun
  refine ⟨fun i req p hi => hsound.ne_abort hi, fun i o r ho => ?_,
    fun i b c' hs => hs.popFront, fun i block b c' hs => hs.popFrontOr⟩
  obtain ⟨req, p, -, hdisk⟩ :=
    (hrun.only (A := fun _ => Op.OnDisk) fun req => only_executeRequest req.val).2 i o r ho
  exact hdisk

theorem serverRun_in_range_emptyDisk :
    ∃ (free : List BlockNo) (tr : List ServerLabel) (c : ServerPool),
      fsInit emptyDisk = some free ∧
      ServerRun ⟨boot emptyDisk free fun _ => inodeAt emptyDisk 0, []⟩ tr c ∧
      c.threads.length = 1 ∧ ∀ i o r, .act i o r ∈ tr → o.OnDisk := by
  obtain ⟨free, hinit, -, -⟩ := exists_fsInit wellFormed_emptyDisk
  obtain ⟨tr, r, s, hrun, -⟩ := (quiet_boot wellFormed_emptyDisk hinit
    fun _ => inodeAt emptyDisk 0).exists_serverRun accepted_createRequest
  obtain ⟨-, hdisk, -⟩ := serverRun_in_range emptyDisk wellFormed_emptyDisk
    (fun _ => inodeAt emptyDisk 0) free hinit tr _ hrun
  exact ⟨free, tr, _, hinit, hrun, rfl, hdisk⟩

end OsFromScratch.FileServer
