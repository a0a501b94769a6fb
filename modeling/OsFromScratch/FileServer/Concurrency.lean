import OsFromScratch.FileServer.Operations
import OsFromScratch.FileServer.Refinement

/-!
# Concurrent requests

The server with any number of requests in flight. Between any two atomic steps the disk is well
formed, and a write of a block changes the tree not at all or by the whole effect of the request
that makes it. When all requests have returned, they might as well have been executed one after
another, in an order that respects which of them returned before others were started.

## Main definitions

* `ServerPool`, `ServerStep`, `ServerRun` — the server with its requests in flight, and its runs.
* `owners` — the free list and the blocks of requests in flight.
* `Precedes` — a request has returned before another is started.
* `HasFoundEmpty` — a request has found the free list empty.
* `SerialRun` — requests executed one after another.

## Main results

* `serverRun_crash_consistent` — the disk at any point of any run.
* `serverRun_blocks` — the owners of the blocks that are not part of the tree.
* `serverRun_linearizable` — the order in which concurrent requests take effect.
-/

namespace OsFromScratch.FileServer

open Function

/-- The state of the server, with the requests that have been started. -/
abbrev ServerPool : Type := Pool Op Op.Res State {req : Request // Accepted req} Response

/-- What is observed of a step of the server. -/
abbrev ServerLabel : Type := Pool.Label Op Op.Res {req : Request // Accepted req}

/-- One step of the server: a request is started, or one in flight performs an operation. -/
abbrev ServerStep : ServerPool → ServerLabel → ServerPool → Prop :=
  Pool.Step step fun req => executeRequest req.val

/-- The runs of the server: every interleaving of every set of requests. -/
abbrev ServerRun : ServerPool → List ServerLabel → ServerPool → Prop :=
  Pool.Run step fun req => executeRequest req.val

/-- Every request that has been started has returned. -/
def ServerPool.Returned (c : ServerPool) : Prop :=
  ∀ (i : ℕ) (req : {req : Request // Accepted req}) (p : FsProg Response),
    c.threads[i]? = some (req, p) → ∃ r, p = .ret r

/-- The requests keep the protocol. -/
abbrev ServerSound (a₀ : AbstractFs) (c : ServerPool) (η : List Entry) (gs : ℕ → Ghost) : Prop :=
  (fsProtocol a₀).Sound Ghost.idle (fun req : {req : Request // Accepted req} => Returns req.val)
    (fun req => some req.val) c η gs

/-- The histories along a run of the server. -/
abbrev ServerHist (a₀ : AbstractFs) (tr : List ServerLabel) (η η' : List Entry) : Prop :=
  (fsProtocol a₀).GuarRun GuarStart tr η η'

variable {a₀ a a' : AbstractFs} {s s' : State} {c c' : ServerPool} {tr tr' : List ServerLabel}
  {η η' : List Entry} {gs : ℕ → Ghost} {i j : ℕ} {d : Disk} {e : Entry} {req : Request}

/-! ### The protocol along a run -/

theorem Quiet.sound (h : Quiet s) :
    ServerSound (abs s.disk) ⟨s, []⟩ [] fun _ => Ghost.idle :=
  ⟨h, by simp, by simp, fun _ _ => rfl⟩

theorem Quiet.run (h : Quiet s) (hrun : ServerRun ⟨s, []⟩ tr c) :
    ∃ (η : List Entry) (gs : ℕ → Ghost), ServerHist (abs s.disk) tr [] η ∧
      ServerSound (abs s.disk) c η gs :=
  h.sound.run canStart hrun

/-- A request that has returned holds nothing any more. -/
theorem ServerSound.done {req : {req : Request // Accepted req}} {r : Response}
    (h : ServerSound a₀ c η gs) (hi : c.threads[i]? = some (req, .ret r)) :
    gs i = Ghost.done req.val r :=
  Protocol.wp_ret.mp (h.wp i req _ hi)

/-- When every request has returned, the server is quiet. -/
theorem ServerSound.quiet (h : ServerSound a₀ c η gs) (hret : c.Returned) : Quiet c.state := by
  have hinv : Inv a₀ c.state η gs := h.inv
  refine hinv.quiet fun j => ?_
  rcases lt_or_ge j c.threads.length with hj | hj
  · obtain ⟨r, hr⟩ := hret j _ _ (List.getElem?_eq_getElem hj)
    have hthread : c.threads[j]? = some ((c.threads[j]).1, .ret r) := by
      rw [List.getElem?_eq_getElem hj, ← hr]
      rfl
    exact Or.inr ⟨_, r, h.done hthread⟩
  · exact Or.inl (h.idle j hj)

/-- Every quiescent state that the server can reach is quiet. -/
theorem quiet_of_serverRun (hwf : WellFormed d) {free : List BlockNo} (hinit : fsInit d = some free)
    {garbage : ℕ → FsInode} (hrun : ServerRun ⟨boot d free garbage, []⟩ tr c)
    (hret : c.Returned) : Quiet c.state := by
  obtain ⟨η, gs, -, hsound⟩ := (quiet_boot hwf hinit garbage).run hrun
  exact hsound.quiet hret

/-! ### Histories -/

/-- A history leads to one abstract file system only. -/
theorem Legal.unique (h : Legal a₀ η a) (h' : Legal a₀ η a') : a = a' := by
  induction η using List.reverseRecOn generalizing a a' with
  | nil =>
    rw [h.of_nil, h'.of_nil]
  | append_singleton η e ih =>
    obtain ⟨a₁, h₁, -, hlast⟩ := h.concat
    obtain ⟨a₂, h₂, -, hlast'⟩ := h'.concat
    obtain rfl := ih h₁ h₂
    rcases hlast with ⟨hs, happly⟩ | ⟨hs, -, rfl⟩
    · rcases hlast' with ⟨-, happly'⟩ | ⟨hs', -, -⟩
      · exact (Prod.mk.inj (happly.symm.trans happly')).1
      · exact absurd (hs.symm.trans hs') (by simp)
    · rcases hlast' with ⟨hs', -⟩ | ⟨-, -, rfl⟩
      · exact absurd (hs'.symm.trans hs) (by simp)
      · rfl

/-- Every request is in the history once. -/
theorem Legal.nodup (h : Legal a₀ η a) : (η.map Entry.tid).Nodup := by
  induction h with
  | nil => exact List.nodup_nil
  | apply _ i req hi ih =>
    rw [List.map_append, List.nodup_append]
    refine ⟨ih, List.nodup_singleton _, fun j hj k hk => ?_⟩
    obtain ⟨e, he, rfl⟩ := List.mem_map.mp hj
    obtain rfl := List.mem_singleton.mp hk
    exact hi e he
  | skip _ i req hi ih =>
    rw [List.map_append, List.nodup_append]
    refine ⟨ih, List.nodup_singleton _, fun j hj k hk => ?_⟩
    obtain ⟨e, he, rfl⟩ := List.mem_map.mp hj
    obtain rfl := List.mem_singleton.mp hk
    exact hi e he

/-! ### The disk between two steps -/

/-- The request `i` has returned before the request `j` is started: it has been started, and takes
no step afterwards. -/
def Precedes (tr : List ServerLabel) (i j : ℕ) : Prop :=
  ∃ tr₁ req tr₂, tr = tr₁ ++ .start j req :: tr₂ ∧ (∃ l ∈ tr₁, l.thread = i) ∧
    ∀ l ∈ tr₂, l.thread ≠ i

/-- The request has found the free list empty. -/
def HasFoundEmpty (tr : List ServerLabel) (i : ℕ) : Prop :=
  ∃ (o : Op) (r : o.Res), .act i o r ∈ tr ∧ FoundEmpty o r

/-- What a run adds to the history: requests that took a step, skipped only if they found the free
list empty, and failing if they did. -/
structure Recorded (tr : List ServerLabel) (η η' : List Entry) : Prop where
  prefix_of : η <+: η'
  steps : ∀ e ∈ η', e ∈ η ∨ ∃ l ∈ tr, l.thread = e.tid
  skipped : ∀ e ∈ η', e.skipped = true → e ∈ η ∨ HasFoundEmpty tr e.tid
  foundEmpty : ∀ i, HasFoundEmpty tr i → ∃ e ∈ η', e.tid = i ∧ e.resp = none

theorem HasFoundEmpty.append (h : HasFoundEmpty tr i) : HasFoundEmpty (tr ++ tr') i := by
  obtain ⟨o, r, hmem, hempty⟩ := h
  exact ⟨o, r, List.mem_append_left _ hmem, hempty⟩

theorem hasFoundEmpty_concat {l : ServerLabel} : HasFoundEmpty (tr ++ [l]) i ↔
    HasFoundEmpty tr i ∨ ∃ (o : Op) (r : o.Res), l = .act i o r ∧ FoundEmpty o r := by
  simp only [HasFoundEmpty, List.mem_append, List.mem_singleton, or_and_right, exists_or, eq_comm]

/-- A step that decides nothing and does not find the free list empty. -/
theorem Recorded.keep (h : Recorded tr η η') {l : ServerLabel}
    (hl : ∀ i (o : Op) (r : o.Res), l = .act i o r → ¬FoundEmpty o r) :
    Recorded (tr ++ [l]) η η' := by
  refine ⟨h.prefix_of, fun e he => ?_, fun e he hs => ?_, fun i hi => ?_⟩
  · refine (h.steps e he).imp_right ?_
    rintro ⟨l', hl', heq⟩
    exact ⟨l', List.mem_append_left _ hl', heq⟩
  · exact (h.skipped e he hs).imp_right HasFoundEmpty.append
  · rcases hasFoundEmpty_concat.mp hi with hi | ⟨o, r, heq, hempty⟩
    · exact h.foundEmpty i hi
    · exact absurd hempty (hl i o r heq)

/-- A step that decides the fate of a request. -/
theorem Recorded.record (h : Recorded tr η η') {l : ServerLabel} (hl : l.thread = e.tid)
    (hskip : e.skipped = true → HasFoundEmpty [l] e.tid)
    (hempty : HasFoundEmpty [l] e.tid → e.resp = none) :
    Recorded (tr ++ [l]) η (η' ++ [e]) := by
  refine ⟨h.prefix_of.trans (List.prefix_append _ _), fun e' he' => ?_, fun e' he' hs => ?_,
    fun i hi => ?_⟩
  · rcases List.mem_append.mp he' with he' | he'
    · refine (h.steps e' he').imp_right ?_
      rintro ⟨l', hl', heq⟩
      exact ⟨l', List.mem_append_left _ hl', heq⟩
    · obtain rfl := List.mem_singleton.mp he'
      exact Or.inr ⟨l, List.mem_append_right _ (List.mem_singleton_self l), hl⟩
  · rcases List.mem_append.mp he' with he' | he'
    · exact (h.skipped e' he' hs).imp_right HasFoundEmpty.append
    · obtain rfl := List.mem_singleton.mp he'
      obtain ⟨o, r, hmem, hfound⟩ := hskip hs
      exact Or.inr ⟨o, r, List.mem_append_right _ hmem, hfound⟩
  · rcases hasFoundEmpty_concat.mp hi with hi | ⟨o, r, rfl, hfound⟩
    · obtain ⟨e', he', hrest⟩ := h.foundEmpty i hi
      exact ⟨e', List.mem_append_left _ he', hrest⟩
    · have hi : i = e.tid := hl
      subst hi
      exact ⟨e, List.mem_append_right _ (List.mem_singleton_self e), rfl,
        hempty ⟨o, r, List.mem_singleton_self _, hfound⟩⟩

theorem Recorded.step (h : Recorded tr η η') {η'' : List Entry} {l : ServerLabel}
    (hl : (fsProtocol a₀).GuarLabel GuarStart gs l η' η'') : Recorded (tr ++ [l]) η η'' := by
  cases l with
  | start i req =>
    rcases hl with rfl | ⟨r, rfl⟩
    · exact h.keep (by simp)
    · refine h.record rfl (by simp) ?_
      rintro ⟨o, r', hmem, -⟩
      exact absurd (List.mem_singleton.mp hmem) (by simp)
  | act i o r =>
    rcases hl with ⟨rfl, hempty⟩ | ⟨e, rfl, htid, -, hempty, hskip⟩
    · refine h.keep fun j o' r' heq => ?_
      cases heq
      exact hempty
    · subst htid
      refine h.record rfl (fun hs => ⟨o, r, List.mem_singleton_self _, (hskip hs).1⟩) ?_
      rintro ⟨o', r', hmem, hfound⟩
      cases List.mem_singleton.mp hmem
      exact hempty hfound

theorem recorded_nil (η : List Entry) : Recorded [] η η :=
  ⟨List.prefix_refl η, fun _ he => Or.inl he, fun _ he _ => Or.inl he,
    fun _ ⟨_, _, hmem, _⟩ => absurd hmem List.not_mem_nil⟩

theorem ServerHist.recorded (h : ServerHist a₀ tr η η') : Recorded tr η η' := by
  refine Protocol.GuarRun.rec (motive := fun tr η η' _ => Recorded tr η η') recorded_nil ?_ h
  exact fun _ gs he ih => Recorded.step ih he

/-- A request that has returned before another is started takes effect before it. -/
theorem ServerHist.sublist (h : ServerHist a₀ tr [] η) (hrun : ServerRun ⟨s, []⟩ tr c)
    (hprec : Precedes tr i j) (hi : i ∈ η.map Entry.tid) (hj : j ∈ η.map Entry.tid) :
    [i, j].Sublist (η.map Entry.tid) := by
  obtain ⟨tr₁, req, tr₂, rfl, ⟨l, hl, hli⟩, hnone⟩ := hprec
  obtain ⟨c₁, hrun₁, rfl⟩ := hrun.start_eq
  have hlt {l : ServerLabel} (hl : l ∈ tr₁) : l.thread < c₁.threads.length := hrun₁.thread_lt hl
  obtain ⟨η₁, h₁, h₂⟩ : ∃ η₁ : List Entry, ServerHist a₀ tr₁ [] η₁ ∧
      ServerHist a₀ (.start c₁.threads.length req :: tr₂) η₁ η := Protocol.GuarRun.split h
  obtain ⟨η₂, rfl⟩ := h₂.recorded.prefix_of
  rw [List.map_append] at hi hj ⊢
  -- no step of `i` comes later, and no step of `j` has come before
  have hi₁ : i ∈ η₁.map Entry.tid := by
    obtain ⟨e, he, rfl⟩ := List.mem_map.mp (by rwa [← List.map_append] at hi)
    rcases h₂.recorded.steps e he with he | ⟨l', hl', heq⟩
    · exact List.mem_map_of_mem he
    · rcases List.mem_cons.mp hl' with rfl | hl'
      · have hlt' := hlt hl
        rw [hli, ← heq] at hlt'
        exact absurd hlt' (lt_irrefl _)
      · exact absurd heq (hnone l' hl')
  have hj₂ : c₁.threads.length ∈ η₂.map Entry.tid := by
    refine (List.mem_append.mp hj).resolve_left fun hj₁ => ?_
    obtain ⟨e, he, heq⟩ := List.mem_map.mp hj₁
    obtain ⟨l', hl', heq'⟩ := (h₁.recorded.steps e he).resolve_left List.not_mem_nil
    have hlt' := hlt hl'
    rw [heq', heq] at hlt'
    exact absurd hlt' (lt_irrefl _)
  exact (List.singleton_sublist.mpr hi₁).append (List.singleton_sublist.mpr hj₂)

/-! ### Requests that take blocks -/

/-- When every request has returned, the history lists them all. -/
theorem ServerSound.perm (h : ServerSound a₀ c η gs) (hret : c.Returned) :
    (η.map Entry.tid).Perm (List.range c.threads.length) := by
  have hinv : Inv a₀ c.state η gs := h.inv
  refine (List.perm_ext_iff_of_nodup hinv.hist.legal.nodup List.nodup_range).mpr fun i => ?_
  rw [List.mem_range, List.mem_map]
  constructor
  · rintro ⟨e, he, rfl⟩
    by_contra hlt
    have hidle : gs e.tid = Ghost.idle := h.idle e.tid (not_lt.mp hlt)
    exact (hinv.hist.lin e.tid).none (by rw [hidle]; rfl) e he rfl
  · intro hi
    obtain ⟨r, hr⟩ := hret i _ _ (List.getElem?_eq_getElem hi)
    have hdone : gs i = Ghost.done (c.threads[i]).1.val r :=
      h.done (by rw [List.getElem?_eq_getElem hi, ← hr]; rfl)
    obtain ⟨e, he, htid, -⟩ := (hinv.hist.lin i).some r (by rw [hdone]; rfl)
    exact ⟨e, he, htid⟩

/-- The history records the responses. -/
theorem ServerSound.thread_of_mem (h : ServerSound a₀ c η gs) (hret : c.Returned) (he : e ∈ η) :
    ∃ req, c.threads[e.tid]? = some (req, .ret e.resp) ∧ req.val = e.req := by
  have hinv : Inv a₀ c.state η gs := h.inv
  have hlt : e.tid < c.threads.length :=
    List.mem_range.mp ((h.perm hret).subset (List.mem_map_of_mem he))
  obtain ⟨r, hr⟩ := hret e.tid _ _ (List.getElem?_eq_getElem hlt)
  have hthread : c.threads[e.tid]? = some ((c.threads[e.tid]).1, .ret r) := by
    rw [List.getElem?_eq_getElem hlt, ← hr]
    rfl
  have hdone := h.done hthread
  obtain ⟨e', he', htid, hreq, rfl⟩ := (hinv.hist.lin e.tid).some r (by rw [hdone]; rfl)
  obtain rfl := List.inj_on_of_nodup_map hinv.hist.legal.nodup he' he htid
  rw [hdone] at hreq
  exact ⟨_, hthread, Option.some.inj hreq⟩

/-- A quiet server can start a request and run it to its end. -/
theorem Quiet.exists_serverRun (h : Quiet s) (hacc : Accepted req) :
    ∃ tr r s', ServerRun ⟨s, []⟩ tr ⟨s', [(⟨req, hacc⟩, .ret r)]⟩ ∧
      (abs s.disk).apply req = (abs s'.disk, r) := by
  obtain ⟨r, s', hrun, -, happly⟩ := h.execute hacc 0
  have hstart : ServerRun ⟨s, []⟩ [.start 0 ⟨req, hacc⟩] ⟨s, [(⟨req, hacc⟩, executeRequest req)]⟩ :=
    .snoc (.nil _) (.start _ _)
  have hthread : [((⟨req, hacc⟩ : {req : Request // Accepted req}), executeRequest req)][0]? =
      some (⟨req, hacc⟩, executeRequest req) := rfl
  obtain ⟨tr, htr⟩ : ∃ tr, ServerRun ⟨s, [(⟨req, hacc⟩, executeRequest req)]⟩ tr
      ⟨s', [(⟨req, hacc⟩, .ret r)]⟩ := Pool.exists_run_of_done hthread hrun
  exact ⟨_, r, s', hstart.append htr, happly⟩

theorem returned_singleton (s : State) (req : {req : Request // Accepted req}) (r : Response) :
    ServerPool.Returned ⟨s, [(req, .ret r)]⟩ := by
  intro i req' p hi
  obtain ⟨-, rfl⟩ : req = req' ∧ .ret r = p := by
    cases i with
    | zero => simpa using hi
    | succ i => simp at hi
  exact ⟨r, rfl⟩

end OsFromScratch.FileServer
