import OsFromScratch.Threads.Queues

/-!
# Mutexes

A mutex is free, or held by one thread, or handed off to one thread that has left the waiting queue
and has not been resumed yet. The threads acquire it in the order in which the guarded sections of
their calls of `lock` begin. Both rest on the numbers of the contexts, which are distinct and not 0
as long as the counter of 32 bits has not come round.

## Main definitions

* `requests`, `acquisitions`, `holders` — what happens to a mutex in a run.
* `MutexOk` — the invariant of a mutex.
* `MutexState` — the three states of a mutex.

## Main results

* `MutexOk.exec` — the invariant is preserved by an instruction.
* `ThreadRunWith.mutexOk` — the invariant holds in every run in which nobody releases a mutex of
  another thread.
* `ThreadRun.rightful` — nobody does so as long as fewer than `2 ^ 32` contexts are constructed.
* `threadRun_mutex` — the states of a mutex, and who releases it.
-/

namespace OsFromScratch.Threads

open Function

variable {s s' : State} {c c' : CpuId} {t x : ContextId} {q : Queue} {i : Instr}
    {l rest : List Instr}
  {evs tr : List Event} {a : Action} {actions : List Action} {events : List (List Event)}
  {m m' : MutexId} {handed : List ContextId}

/-! ### The history of a mutex -/

/-- The thread whose call of `lock` begins its guarded section. -/
def Event.requester (m : MutexId) : Event → Option ContextId
  | .act t (.requested m') => if m' = m then some t else none
  | _ => none

/-- The thread that acquires the mutex. -/
def Event.acquirer (m : MutexId) : Event → Option ContextId
  | .act t (.acquired m') => if m' = m then some t else none
  | _ => none

/-- The threads that have called `lock`, in the order of the guarded sections. -/
def requests (m : MutexId) (tr : List Event) : List ContextId :=
  tr.filterMap (Event.requester m)

/-- The threads that have acquired the mutex, in order. -/
def acquisitions (m : MutexId) (tr : List Event) : List ContextId :=
  tr.filterMap (Event.acquirer m)

/-- The threads that hold the mutex after an event. -/
def Event.hold (m : MutexId) (ts : List ContextId) : Event → List ContextId
  | .act t (.acquired m') => if m' = m then ts ++ [t] else ts
  | .act t (.released m') => if m' = m then ts.erase t else ts
  | _ => ts

/-- The threads that have acquired the mutex and not released it since. -/
def holders (m : MutexId) (tr : List Event) : List ContextId :=
  tr.foldl (Event.hold m) []

/-- A thread whose number is the owner of a mutex that is not free, and that releases it, is the one
that holds it. -/
def Rightful (tr : List Event) (s : State) : Action → Prop
  | .run c _ => ∀ m, (s.current c).head? = some (.releaseLock m) → s.free m = false →
      idOf (s.stack c) = s.owner m → holders m tr = [s.stack c]
  | _ => True

/-- The event belongs to the history of a mutex. -/
def Event.About (m : MutexId) : Event → Prop
  | .act _ (.requested m') | .act _ (.acquired m') | .act _ (.released m') => m' = m
  | _ => False

@[simp]
theorem requester_released : Event.requester m (.act t (.released m')) = none :=
  rfl

@[simp]
theorem acquirer_released : Event.acquirer m (.act t (.released m')) = none :=
  rfl

theorem not_about_destroyed (ts : List ContextId) : ∀ e ∈ ts.map Event.destroyed, ¬ e.About m := by
  simp only [List.forall_mem_map]
  exact fun _ _ => id

theorem not_about_joined (ts : List ContextId) :
    ∀ e ∈ ts.map (Event.act · (.joined t)), ¬ e.About m := by
  simp only [List.forall_mem_map]
  exact fun _ _ => id

theorem not_about_woken (v : CvId) (ts : List ContextId) :
    ∀ e ∈ ts.map (Event.act · (.woken v)), ¬ e.About m := by
  simp only [List.forall_mem_map]
  exact fun _ _ => id

@[simp]
theorem requests_append (tr evs : List Event) :
    requests m (tr ++ evs) = requests m tr ++ requests m evs :=
  List.filterMap_append

@[simp]
theorem acquisitions_append (tr evs : List Event) :
    acquisitions m (tr ++ evs) = acquisitions m tr ++ acquisitions m evs :=
  List.filterMap_append

theorem requests_of_not_about (h : ∀ e ∈ evs, ¬ e.About m) : requests m evs = [] := by
  refine List.filterMap_eq_nil_iff.mpr fun e he => ?_
  cases e with
  | act t b =>
    cases b with
    | requested m' => exact if_neg (h _ he)
    | _ => rfl
  | _ => rfl

theorem acquisitions_of_not_about (h : ∀ e ∈ evs, ¬ e.About m) : acquisitions m evs = [] := by
  refine List.filterMap_eq_nil_iff.mpr fun e he => ?_
  cases e with
  | act t b =>
    cases b with
    | acquired m' => exact if_neg (h _ he)
    | _ => rfl
  | _ => rfl

theorem holders_append_of_keep (h : ∀ e ∈ evs, ∀ ts, Event.hold m ts e = ts) :
    holders m (tr ++ evs) = holders m tr := by
  rw [holders, holders, List.foldl_append]
  generalize tr.foldl (Event.hold m) [] = ts
  induction evs with
  | nil => rfl
  | cons e evs ih =>
    rw [List.foldl_cons, h e List.mem_cons_self]
    exact ih fun e' he' => h e' (List.mem_cons_of_mem e he')

theorem holders_append_of_not_about (h : ∀ e ∈ evs, ¬ e.About m) :
    holders m (tr ++ evs) = holders m tr := by
  refine holders_append_of_keep fun e he ts => ?_
  have hnot := h e he
  cases e with
  | act t b =>
    cases b with
    | acquired m' => exact if_neg hnot
    | released m' => exact if_neg hnot
    | _ => rfl
  | _ => rfl

/-! ### The numbers of the contexts -/

/-- The numbers of the contexts are distinct until the counter has come round. -/
theorem idOf_inj (ht : t < 2 ^ 32) (hx : x < 2 ^ 32) (h : idOf t = idOf x) : t = x := by
  have hnat := congrArg UInt32.toNat h
  rwa [idOf, idOf, UInt32.toNat_ofNat_of_lt' ht, UInt32.toNat_ofNat_of_lt' hx] at hnat

/-- No context has the number 0 until the counter has come round. -/
theorem idOf_ne_zero (hpos : 0 < t) (ht : t < 2 ^ 32) : idOf t ≠ 0 := fun h =>
  hpos.ne' (idOf_inj ht (by decide) h)

/-! ### The invariant -/

/-- The invariant of a mutex. The threads that are about to set its owner are the one that the mutex
has been handed to, if there is one, and those in the waiting queue. -/
structure MutexOk (tr : List Event) (s : State) (m : MutexId) (handed : List ContextId) : Prop where
  owns : ∀ x, s.alive x = true →
    ((s.code x).head? = some (.own m) ↔ x ∈ handed ++ s.queue (.mutex m))
  alive : ∀ x ∈ handed ++ s.queue (.mutex m), s.alive x = true
  nodup : (handed ++ s.queue (.mutex m)).Nodup
  order : requests m tr = acquisitions m tr ++ (handed ++ s.queue (.mutex m))
  state :
    (s.free m = true ∧ s.owner m = 0 ∧ s.queue (.mutex m) = [] ∧ handed = [] ∧ holders m tr = []) ∨
    (s.free m = false ∧ handed = [] ∧
      ∃ t, holders m tr = [t] ∧ s.owner m = idOf t ∧ 0 < t ∧ t < s.maxId) ∨
    s.free m = false ∧ s.owner m = 0 ∧ holders m tr = [] ∧ ∃ t, handed = [t]

namespace MutexOk

theorem init (m : MutexId) : MutexOk [] State.init m [] where
  owns _ h := by cases h
  alive _ h := by cases h
  nodup := List.nodup_nil
  order := rfl
  state := Or.inl ⟨rfl, rfl, rfl, rfl, rfl⟩

/-- Steps that do not concern the mutex. -/
theorem same (h : MutexOk tr s m handed) (hevs : ∀ e ∈ evs, ¬ e.About m)
    (hfree : s'.free m = s.free m) (howner : s'.owner m = s.owner m)
    (hqueue : s'.queue (.mutex m) = s.queue (.mutex m)) (hmax : s.maxId ≤ s'.maxId)
    (halive : ∀ x ∈ handed ++ s.queue (.mutex m), s'.alive x = true)
    (howns : ∀ x, s'.alive x = true → ((s'.code x).head? = some (.own m) ↔
      s.alive x = true ∧ (s.code x).head? = some (.own m))) : MutexOk (tr ++ evs) s' m handed := by
  refine ⟨fun x hx => ?_, ?_, ?_, ?_, ?_⟩
  · rw [howns x hx, hqueue]
    exact ⟨fun hold => (h.owns x hold.1).mp hold.2,
      fun hmem => ⟨h.alive x hmem, (h.owns x (h.alive x hmem)).mpr hmem⟩⟩
  · rwa [hqueue]
  · rw [hqueue]
    exact h.nodup
  · rw [requests_append, acquisitions_append, requests_of_not_about hevs,
      acquisitions_of_not_about hevs, List.append_nil, List.append_nil, hqueue]
    exact h.order
  · rw [holders_append_of_not_about hevs, hfree, howner, hqueue]
    refine h.state.imp_right (Or.imp_left ?_)
    rintro ⟨hbusy, hnone, t, hhold, hid, hpos, hlt⟩
    exact ⟨hbusy, hnone, t, hhold, hid, hpos, hlt.trans_le hmax⟩

/-- A CPU goes on with code that does not begin where the owner of the mutex is set. -/
theorem setCurrent (h : MutexOk tr s m handed) (hhead : (s.current c).head? ≠ some (.own m))
    (hl : l.head? ≠ some (.own m)) : MutexOk tr (s.setCurrent c l) m handed := by
  have hok : MutexOk (tr ++ []) (s.setCurrent c l) m handed := by
    refine h.same (by simp) rfl rfl rfl le_rfl h.alive fun x hx => ?_
    by_cases hxc : x = s.stack c
    · subst hxc
      have hnew : (s.setCurrent c l).code (s.stack c) = l := update_self _ _ _
      rw [hnew]
      exact ⟨fun heq => absurd heq hl, fun hold => absurd hold.2 hhead⟩
    · rw [Sound.code_setCurrent_of_ne s c l hxc]
      exact (and_iff_right hx).symm
  rwa [List.append_nil] at hok

/-- An instruction that is executed, and does not concern the mutex. -/
theorem pop (h : MutexOk tr s m handed) (hsound : Sound s) (hc : c ∈ s.cpuVec)
    (hcode : s.current c = i :: rest) (hown : i ≠ .own m) (hacquire : i ≠ .acquire m) :
    MutexOk tr (s.setCurrent c rest) m handed := by
  have hwf := hsound.wellFormed_current hc
  rw [hcode] at hwf
  refine h.setCurrent ?_ fun hrest => hacquire ((hwf.head_own m).mp hrest)
  rw [hcode, List.head?_cons, ne_eq, Option.some.injEq]
  exact hown

/-- Steps that change neither the mutex nor the code of the threads. -/
theorem unchanged (h : MutexOk tr s m handed) (hevs : ∀ e ∈ evs, ¬ e.About m)
    (hfree : s'.free m = s.free m) (howner : s'.owner m = s.owner m)
    (hqueue : s'.queue (.mutex m) = s.queue (.mutex m)) (hmax : s.maxId ≤ s'.maxId)
    (halive : s'.alive = s.alive) (hcode : s'.code = s.code) : MutexOk (tr ++ evs) s' m handed := by
  refine h.same hevs hfree howner hqueue hmax (fun x hx => halive ▸ h.alive x hx) fun x hx => ?_
  rw [hcode]
  exact (and_iff_right (halive ▸ hx)).symm

/-- A new thread. -/
theorem construct (h : MutexOk tr s m handed) (hsound : Core s) (hevs : ∀ e ∈ evs, ¬ e.About m) :
    MutexOk (tr ++ evs) s.construct m handed := by
  have hne {x : ContextId} (hx : s.alive x = true) : x ≠ s.maxId := fun heq => by
    rw [heq, hsound.alive_maxId] at hx
    cases hx
  refine h.same hevs rfl rfl rfl (Nat.le_succ _) (fun x hx => ?_) fun x hx => ?_
  · exact (update_of_ne (hne (h.alive x hx)) _ _).trans (h.alive x hx)
  · by_cases hnew : x = s.maxId
    · subst hnew
      have hcode : s.construct.code s.maxId = startCode := update_self _ _ _
      rw [hcode, hsound.alive_maxId]
      simp [startCode]
    · have hcode : s.construct.code x = s.code x := update_of_ne hnew _ _
      have halive : s.construct.alive x = s.alive x := update_of_ne hnew _ _
      rw [hcode, ← halive]
      exact (and_iff_right hx).symm

/-- A thread finishes. -/
theorem exit (h : MutexOk tr s m handed) (hcode : s.current c = [.exit])
    (hlast : s.lastContext c = some (s.stack c)) (hsound : Sound s) (hevs : ∀ e ∈ evs,
      ¬ e.About m) :
    MutexOk (tr ++ evs) ((s.exit c (s.stack c)).resume c) m handed := by
  have hhead : (s.code (s.stack c)).head? ≠ some (.own m) := by
    have hcode' : s.code (s.stack c) = [.exit] := hcode
    rw [hcode']
    simp
  refine h.same hevs rfl rfl ?_ le_rfl (fun x hx => ?_) fun x hx => ?_
  · simp [State.resume, State.exit, State.moveReady, State.wake, State.wakeCpus, State.setQueue]
  · have hne : x ≠ s.stack c := fun heq =>
      hhead ((h.owns _ (hsound.alive_of_last hlast)).mpr (heq ▸ hx))
    exact (update_of_ne hne _ _).trans (h.alive x hx)
  · by_cases hxt : x = s.stack c
    · subst hxt
      have hdead : ((s.exit c (s.stack c)).resume c).alive (s.stack c) = false := update_self _ _ _
      rw [hdead] at hx
      cases hx
    · have hcode' : ((s.exit c (s.stack c)).resume c).code x = s.code x := update_of_ne hxt _ _
      have halive : ((s.exit c (s.stack c)).resume c).alive x = s.alive x := update_of_ne hxt _ _
      rw [hcode', ← halive]
      exact (and_iff_right hx).symm

/-- The guarded section of a call of `lock` on a free mutex begins. -/
theorem acquire (h : MutexOk tr s m handed) (hsound : Sound s) (hc : c ∈ s.cpuVec)
    (hcode : s.current c = .acquire m :: rest) (hlast : s.lastContext c = some (s.stack c))
    (hfree : s.free m = true) :
    MutexOk (tr ++ [.act (s.stack c) (.requested m)])
      { s.setCurrent c rest with free := update s.free m false } m [s.stack c] := by
  obtain ⟨-, howner, hqueue, rfl, hhold⟩ | ⟨hbusy, -⟩ | ⟨hbusy, -⟩ := h.state
  · have hwf := hsound.wellFormed_current hc
    rw [hcode] at hwf
    have hhead : rest.head? = some (.own m) := (hwf.head_own m).mpr rfl
    have hnone {x : ContextId} (hx : s.alive x = true) : (s.code x).head? ≠ some (.own m) := by
      rw [ne_eq, h.owns x hx, hqueue]
      simp
    refine ⟨fun x hx => ?_, fun x hx => ?_, ?_, ?_,
      Or.inr (Or.inr ⟨update_self _ _ _, howner, ?_, _, rfl⟩)⟩
    · change (update s.code (s.stack c) rest x).head? = some (.own m) ↔
          x ∈ [s.stack c] ++ s.queue (.mutex m)
      rw [hqueue, List.append_nil, List.mem_singleton]
      by_cases hxc : x = s.stack c
      · simpa [hxc] using hhead
      · rw [update_of_ne hxc]
        exact ⟨fun hown => absurd hown (hnone hx), fun heq => absurd heq hxc⟩
    · change x ∈ [s.stack c] ++ s.queue (.mutex m) at hx
      rw [hqueue, List.append_nil, List.mem_singleton] at hx
      exact hx ▸ hsound.alive_of_last hlast
    · change ([s.stack c] ++ s.queue (.mutex m)).Nodup
      rw [hqueue]
      exact List.nodup_singleton _
    · change requests m (tr ++ [.act (s.stack c) (.requested m)]) =
        acquisitions m (tr ++ [.act (s.stack c) (.requested m)]) ++
          ([s.stack c] ++ s.queue (.mutex m))
      have horder := h.order
      rw [hqueue] at horder ⊢
      simp only [requests, acquisitions, List.filterMap_append] at horder ⊢
      simp [horder, Event.requester, Event.acquirer]
    · simp only [holders, List.foldl_append] at hhold ⊢
      simp [hhold, Event.hold]
  · rw [hfree] at hbusy
    cases hbusy
  · rw [hfree] at hbusy
    cases hbusy

/-- The guarded section of a call of `lock` on a mutex that is not free begins. -/
theorem wait (h : MutexOk tr s m handed) (hsound : Sound s) (hc : c ∈ s.cpuVec)
    (hcode : s.current c = .acquire m :: rest) (hlast : s.lastContext c = some (s.stack c))
    (hfree : s.free m = false) :
    MutexOk (tr ++ [.act (s.stack c) (.requested m)])
      (((s.setCurrent c rest).enqueue (.mutex m) c (s.stack c)).resume c) m handed := by
  have hwf := hsound.wellFormed_current hc
  rw [hcode] at hwf
  have hhead : rest.head? = some (.own m) := (hwf.head_own m).mpr rfl
  have halive := hsound.alive_of_last hlast
  have hnew : s.stack c ∉ handed ++ s.queue (.mutex m) := by
    rw [← h.owns _ halive, ← State.current, hcode]
    simp
  have hqueue : (((s.setCurrent c rest).enqueue (.mutex m) c (s.stack c)).resume
      c).queue (.mutex m) =
      s.queue (.mutex m) ++ [s.stack c] := by
    simp [State.resume, State.enqueue, State.setQueue, State.setLastContext, State.setCurrent]
  have hperm : handed ++ (s.queue (.mutex m) ++ [s.stack c]) =
      handed ++ s.queue (.mutex m) ++ [s.stack c] := (List.append_assoc _ _ _).symm
  refine ⟨fun x hx => ?_, fun x hx => ?_, ?_, ?_, ?_⟩
  · rw [hqueue, hperm, List.mem_append, List.mem_singleton]
    change (update s.code (s.stack c) rest x).head? = some (.own m) ↔ _
    by_cases hxc : x = s.stack c
    · simpa [hxc] using hhead
    · rw [update_of_ne hxc, or_iff_left hxc]
      exact h.owns x hx
  · rw [hqueue, hperm, List.mem_append, List.mem_singleton] at hx
    rcases hx with hx | rfl
    · exact h.alive x hx
    · exact halive
  · rw [hqueue, hperm]
    refine List.nodup_append.mpr ⟨h.nodup, List.nodup_singleton _, ?_⟩
    rintro x hx y hy rfl
    exact hnew (List.mem_singleton.mp hy ▸ hx)
  · rw [hqueue, hperm]
    have horder := h.order
    simp only [requests, acquisitions, List.filterMap_append] at horder ⊢
    simp [horder, Event.requester, Event.acquirer]
  · have hhold : holders m (tr ++ [.act (s.stack c) (.requested m)]) = holders m tr := by
      simp [holders, Event.hold]
    rw [hhold]
    rcases h.state with ⟨hidle, -⟩ | hstate
    · rw [hfree] at hidle
      cases hidle
    · exact Or.inr hstate

/-- The mutex has been handed to a thread that is about to set the owner. -/
theorem handed_of_own (h : MutexOk tr s m handed) (hsound : Sound s)
    (hcode : s.current c = .own m :: rest) (hlast : s.lastContext c = some (s.stack c)) :
    handed = [s.stack c] ∧ s.free m = false ∧ s.owner m = 0 ∧ holders m tr = [] := by
  have hmem : s.stack c ∈ handed ++ s.queue (.mutex m) := by
    rw [← h.owns _ (hsound.alive_of_last hlast), ← State.current, hcode]
    rfl
  have hhanded : s.stack c ∈ handed :=
    (List.mem_append.mp hmem).resolve_right (hsound.not_mem_queue_of_last hlast)
  obtain ⟨-, -, -, rfl, -⟩ | ⟨-, rfl, -⟩ | ⟨hbusy, howner, hhold, t, rfl⟩ := h.state
  · cases hhanded
  · cases hhanded
  · exact ⟨by rw [List.mem_singleton.mp hhanded], hbusy, howner, hhold⟩

/-- A call of `lock` sets the owner. -/
theorem own (h : MutexOk tr s m handed) (hsound : Sound s) (hc : c ∈ s.cpuVec)
    (hcode : s.current c = .own m :: rest) (hlast : s.lastContext c = some (s.stack c)) :
    MutexOk (tr ++ [.act (s.stack c) (.acquired m)])
      { s.setCurrent c rest with owner := update s.owner m (idOf (s.stack c)) } m [] := by
  have halive := hsound.alive_of_last hlast
  have hqueue : s.stack c ∉ s.queue (.mutex m) := hsound.not_mem_queue_of_last hlast
  obtain ⟨rfl, hbusy, howner, hhold⟩ := h.handed_of_own hsound hcode hlast
  have hwf := hsound.wellFormed_current hc
  rw [hcode] at hwf
  have hhead : rest.head? ≠ some (.own m) := fun hrest => by
    have hacquire := (hwf.head_own m).mp hrest
    cases hacquire
  refine ⟨fun x hx => ?_, fun x hx => h.alive x (List.mem_append_right _ hx),
    (List.nodup_append.mp h.nodup).2.1, ?_, Or.inr (Or.inl ⟨hbusy, rfl, s.stack c, ?_,
      update_self _ _ _, hsound.alive_lt _ halive⟩)⟩
  · change (update s.code (s.stack c) rest x).head? = some (.own m) ↔ x ∈ [] ++ s.queue (.mutex m)
    by_cases hxc : x = s.stack c
    · subst hxc
      rw [update_self]
      exact ⟨fun hrest => absurd hrest hhead, fun hmem => absurd hmem hqueue⟩
    · rw [update_of_ne hxc, h.owns x hx]
      simp [hxc]
  · have horder := h.order
    simp only [requests, acquisitions, List.filterMap_append] at horder ⊢
    simp [horder, Event.requester, Event.acquirer, State.setCurrent]
  · simp only [holders, List.foldl_append] at hhold ⊢
    simp [hhold, Event.hold]

/-- The thread that a CPU runs may release the mutex just if it holds it. -/
theorem holder_iff (h : MutexOk tr s m handed) (hsound : Sound s) (hids : s.maxId ≤ 2 ^ 32)
    (hlast : s.lastContext c = some (s.stack c)) :
    s.free m = false ∧ idOf (s.stack c) = s.owner m ↔ holders m tr = [s.stack c] := by
  obtain ⟨hpos, hlt⟩ := hsound.alive_lt _ (hsound.alive_of_last hlast)
  have hne := idOf_ne_zero hpos (hlt.trans_le hids)
  obtain ⟨hfree, -, -, -, hhold⟩ | ⟨hbusy, -, t, hhold, hid, -, ht⟩ |
      ⟨-, howner, hhold, -⟩ := h.state
  · rw [hhold, hfree]
    simp
  · rw [hhold, hid, List.cons.injEq]
    constructor
    · rintro ⟨-, heq⟩
      exact ⟨(idOf_inj (hlt.trans_le hids) (ht.trans_le hids) heq).symm, rfl⟩
    · rintro ⟨rfl, -⟩
      exact ⟨hbusy, rfl⟩
  · rw [hhold, howner]
    simp [hne]

/-- The holder releases a mutex that nobody waits for. -/
theorem release (h : MutexOk tr s m handed) (hsound : Sound s) (hc : c ∈ s.cpuVec)
    (hcode : s.current c = .releaseLock m :: rest) (hhold : holders m tr = [s.stack c])
    (hqueue : s.queue (.mutex m) = []) :
    MutexOk (tr ++ [.act (s.stack c) (.released m)])
      { s.setCurrent c rest with
        free := update s.free m true, owner := update s.owner m 0 } m [] := by
  have hpop := h.pop hsound hc hcode (by simp) (by simp)
  have hhanded : handed = [] := by
    obtain ⟨-, -, -, hnil, -⟩ | ⟨-, hnil, -⟩ | ⟨-, -, hnone, -⟩ := h.state
    · exact hnil
    · exact hnil
    · rw [hnone] at hhold
      cases hhold
  subst hhanded
  refine ⟨hpop.owns, hpop.alive, hpop.nodup, ?_,
    Or.inl ⟨update_self _ _ _, update_self _ _ _, hqueue, rfl, ?_⟩⟩
  · have horder := h.order
    simp only [requests, acquisitions, List.filterMap_append] at horder ⊢
    simpa [List.filterMap_cons, State.setCurrent] using horder
  · simp only [holders, List.foldl_append] at hhold ⊢
    simp [hhold, Event.hold]

/-- The holder hands the mutex off to the thread that has waited for the longest time. -/
theorem handOff {next : ContextId} {waiting : List ContextId} (h : MutexOk tr s m handed)
    (hsound : Sound s) (hc : c ∈ s.cpuVec) (hcode : s.current c = .releaseLock m :: rest)
    (hfree : s.free m = false) (hhold : holders m tr = [s.stack c])
    (hqueue : s.queue (.mutex m) = next :: waiting) :
    MutexOk (tr ++ [.act (s.stack c) (.released m)])
      { ((s.setCurrent c rest).moveReady (.mutex m) [next] waiting).wake with
        owner := update s.owner m 0 } m [next] := by
  have hpop := h.pop hsound hc hcode (by simp) (by simp)
  have hhanded : handed = [] := by
    obtain ⟨-, -, -, hnil, -⟩ | ⟨-, hnil, -⟩ | ⟨-, -, hnone, -⟩ := h.state
    · exact hnil
    · exact hnil
    · rw [hnone] at hhold
      cases hhold
  subst hhanded
  have hqueue' : ((s.setCurrent c rest).moveReady (.mutex m) [next] waiting).wake.queue (.mutex m) =
      waiting := by
    simp [State.moveReady, State.wake, State.wakeCpus, State.setQueue]
  have hsame : [next] ++ waiting = [] ++ (s.setCurrent c rest).queue (.mutex m) := hqueue.symm
  refine ⟨fun x hx => ?_, fun x hx => ?_, ?_, ?_,
    Or.inr (Or.inr ⟨hfree, update_self _ _ _, ?_, next, rfl⟩)⟩
  · rw [hqueue', hsame]
    exact hpop.owns x hx
  · rw [hqueue', hsame] at hx
    exact hpop.alive x hx
  · rw [hqueue', hsame]
    exact hpop.nodup
  · rw [hqueue', hsame]
    have horder := hpop.order
    simp only [requests, acquisitions, List.filterMap_append] at horder ⊢
    simpa [List.filterMap_cons] using horder
  · simp only [holders, List.foldl_append] at hhold ⊢
    simp [hhold, Event.hold]

/-- The invariant is preserved by an instruction. -/
theorem exec {alloc : Alloc} (h : MutexOk tr s m handed) (hsound : Sound s) (hc : c ∈ s.cpuVec)
    (hright : Rightful tr s (.run c alloc)) (hcode : s.current c = i :: rest)
    (heffect : Effect s c rest i evs s') : ∃ handed', MutexOk (tr ++ evs) s' m handed' := by
  have hpop (hown : i ≠ .own m) (hacquire : i ≠ .acquire m) := h.pop hsound hc hcode hown hacquire
  cases heffect with
  | interruptDisable =>
    exact ⟨_, (hpop (by simp) (by simp)).unchanged (by simp) rfl rfl rfl le_rfl rfl rfl⟩
  | interruptEnable =>
    exact ⟨_, (hpop (by simp) (by simp)).unchanged (by simp) rfl rfl rfl le_rfl rfl rfl⟩
  | suspend => exact ⟨_, (hpop (by simp) (by simp)).unchanged (by simp) rfl rfl rfl le_rfl rfl rfl⟩
  | spin => exact ⟨_, h.unchanged (by simp) rfl rfl rfl le_rfl rfl rfl⟩
  | guardLock =>
    exact ⟨_, (hpop (by simp) (by simp)).unchanged (by simp)
      rfl rfl rfl le_rfl rfl rfl⟩
  | guardUnlock =>
    exact ⟨_, (hpop (by simp) (by simp)).unchanged (by simp) rfl rfl rfl le_rfl rfl rfl⟩
  | ret =>
    exact ⟨_, (hpop (by simp) (by simp)).unchanged (by simp [Event.About])
      rfl rfl rfl le_rfl rfl rfl⟩
  | @acquire m' hlast hfree =>
    by_cases hm : m' = m
    · subst hm
      exact ⟨_, h.acquire hsound hc hcode hlast hfree⟩
    · have hfree' : update s.free m' false m = s.free m := update_of_ne (Ne.symm hm) _ _
      exact ⟨_, (hpop (by simp) (by simpa using hm)).unchanged
        (by simpa [Event.About] using hm) hfree' rfl
        rfl le_rfl rfl rfl⟩
  | @own m' hlast =>
    by_cases hm : m' = m
    · subst hm
      exact ⟨_, h.own hsound hc hcode hlast⟩
    · have howner : update s.owner m' (idOf (s.stack c)) m = s.owner m :=
          update_of_ne (Ne.symm hm) _ _
      exact ⟨_, (hpop (by simpa using hm) (by simp)).unchanged
        (by simpa [Event.About] using hm) rfl howner
        rfl le_rfl rfl rfl⟩
  | refused =>
    have hthrow := h.setCurrent (c := c) (l := throwCode rest) (by simp [hcode])
      (by simp [throwCode])
    exact ⟨_, hthrow.unchanged (by simp [Event.About]) rfl rfl rfl le_rfl rfl rfl⟩
  | @release m' hlast hfree howner hqueue =>
    by_cases hm : m' = m
    · subst hm
      exact ⟨_, h.release hsound hc hcode (hright _ (by simp [hcode]) hfree howner) hqueue⟩
    · exact ⟨_, (hpop (by simp) (by simp)).unchanged (by simpa [Event.About] using hm)
        (update_of_ne (Ne.symm hm) _ _) (update_of_ne (Ne.symm hm) _ _) rfl le_rfl rfl rfl⟩
  | @handOff m' next waiting hlast hfree howner hqueue =>
    by_cases hm : m' = m
    · subst hm
      exact ⟨_, h.handOff hsound hc hcode hfree (hright _ (by simp [hcode]) hfree howner) hqueue⟩
    · refine ⟨_, (hpop (by simp) (by simp)).unchanged (by simpa [Event.About] using hm) rfl
        (update_of_ne (Ne.symm hm) _ _) ?_ le_rfl rfl rfl⟩
      simp [State.moveReady, State.wake, State.wakeCpus, State.setQueue, Ne.symm hm]
  | blocks hlast hi =>
    cases hi with
    | @acquire m' hfree =>
      by_cases hm : m' = m
      · subst hm
        exact ⟨_, h.wait hsound hc hcode hlast hfree⟩
      · refine ⟨_, (hpop (by simp) (by simpa using hm)).unchanged
          (by simpa [Event.About] using hm) rfl rfl ?_
          le_rfl rfl rfl⟩
        simp [State.resume, State.enqueue, State.setQueue, State.setLastContext, Ne.symm hm]
    | _ =>
      refine ⟨_, (hpop (by simp) (by simp)).unchanged (by simp [Event.About])
        rfl rfl ?_ le_rfl rfl rfl⟩
      simp [State.resume, State.enqueue, State.setQueue, State.setLastContext]
  | wakes hlast hi =>
    cases hi with
    | signal =>
      refine ⟨_, (hpop (by simp) (by simp)).unchanged (by simp [Event.About])
        rfl rfl ?_ le_rfl rfl rfl⟩
      simp [State.moveReady, State.wake, State.wakeCpus, State.setQueue]
    | broadcast =>
      refine ⟨_, (hpop (by simp) (by simp)).unchanged ?_ rfl rfl ?_ le_rfl rfl rfl⟩
      · rw [List.forall_mem_cons]
        exact ⟨id, not_about_woken _ _⟩
      · simp [State.moveReady, State.wake, State.wakeCpus, State.setQueue]
  | skips hi =>
    cases hi <;>
      exact ⟨_, (hpop (by simp) (by simp)).unchanged (by simp [Event.About])
        rfl rfl rfl le_rfl rfl rfl⟩
  | construct =>
    have hcore := (hsound.pop hc hcode rfl rfl).1.toCore
    exact ⟨_, (hpop (by simp) (by simp)).construct hcore (by simp [Event.About])⟩
  | badAlloc hlast hmax =>
    have hthrow := h.setCurrent (c := c) (l := throwCode rest) (by simp [hcode])
      (by simp [throwCode])
    exact ⟨_, hthrow.unchanged (by simp [Event.About]) rfl rfl rfl hmax rfl rfl⟩
  | exit hlast =>
    have hwf := hsound.wellFormed_current hc
    rw [hcode] at hwf
    rw [hwf.eq_nil rfl] at hcode
    refine ⟨_, h.exit hcode hlast hsound ?_⟩
    rw [List.forall_mem_append, List.forall_mem_cons]
    exact ⟨⟨id, not_about_joined _⟩, not_about_destroyed _⟩
  | idle =>
    have hidle := h.setCurrent (c := c) (l := idleCode) (by simp [hcode]) (by simp [idleCode])
    exact ⟨_, hidle.unchanged (not_about_destroyed _) rfl rfl rfl le_rfl rfl rfl⟩
  | take =>
    refine ⟨_, h.unchanged (not_about_destroyed _) rfl rfl ?_ le_rfl rfl rfl⟩
    simp [State.resume]

/-- The constructor of a CPU sets its members. -/
theorem boot (h : MutexOk tr s m handed) (hsound : Core s) (c : CpuId) :
    MutexOk tr (s.boot c) m handed := by
  have hok : MutexOk (tr ++ []) (s.boot c) m handed := by
    refine h.same (by simp) rfl rfl rfl (Nat.le_succ _) h.alive fun x hx => ?_
    have hne : x ≠ s.maxId := fun heq => by
      have halive : s.alive x = true := hx
      rw [heq, hsound.alive_maxId] at halive
      cases halive
    have hcode : (s.boot c).code x = s.code x := update_of_ne hne _ _
    rw [hcode]
    exact (and_iff_right hx).symm
  rwa [List.append_nil] at hok

/-- The invariant is preserved by a step. -/
theorem step (h : MutexOk tr s m handed) (hsound : Sound s) (hright : Rightful tr s a)
    (heffect : StepEffect s a evs s') : ∃ handed', MutexOk (tr ++ evs) s' m handed' := by
  cases heffect with
  | bootSpin => exact ⟨_, h.unchanged (by simp) rfl rfl rfl le_rfl rfl rfl⟩
  | @bootThread c hc hguard =>
    have hboot := hsound.between_boot hc hguard
    have hnew : MutexOk (tr ++ []) (s.boot c).construct m handed :=
      (h.boot hsound.toCore c).construct hboot.toCore (by simp)
    rw [List.append_nil] at hnew
    refine ⟨_, hnew.unchanged (by simp [Event.About]) rfl rfl ?_ le_rfl rfl rfl⟩
    simp [State.resume]
  | @bootIdle c hc hguard =>
    exact ⟨_, (h.boot hsound.toCore c).unchanged (by simp) rfl rfl rfl le_rfl rfl rfl⟩
  | run hc _ hcode heffect => exact h.exec hsound hc hright hcode heffect
  | call hc _ hcode =>
    refine ⟨_, (h.setCurrent (by simp [hcode]) ?_).unchanged (by simp [Event.About])
      rfl rfl rfl le_rfl
      rfl rfl⟩
    exact WellFormed.head?_ne_own (by rw [modeOf_callCode]; simp) m
  | finish hc _ hcode =>
    exact ⟨_, (h.setCurrent (by simp [hcode]) (by simp [exitCode])).unchanged
      (by simp [Event.About]) rfl
      rfl rfl le_rfl rfl rfl⟩
  | timer hc _ hmode =>
    refine ⟨_, (h.setCurrent ?_ (by simp [timerCode, guarded])).unchanged (by simp)
      rfl rfl rfl le_rfl rfl
      rfl⟩
    exact WellFormed.head?_ne_own (by rw [hmode]; simp) m
  | ipi => exact ⟨_, h.unchanged (by simp) rfl rfl rfl le_rfl rfl rfl⟩
  | dropThread => exact ⟨_, h.unchanged (by simp) rfl rfl rfl le_rfl rfl rfl⟩

end MutexOk

/-- The numbers of contexts are not taken back. -/
theorem StepEffect.maxId_le (h : StepEffect s a evs s') : s.maxId ≤ s'.maxId := by
  cases h with
  | bootThread => exact (Nat.le_succ _).trans (Nat.le_succ _)
  | bootIdle => exact Nat.le_succ _
  | run _ _ _ heffect =>
    cases heffect with
    | construct => exact Nat.le_succ _
    | badAlloc _ hmax => exact hmax
    | _ => exact le_rfl
  | _ => exact le_rfl

/-- The invariant of the mutexes holds in every run in which nobody releases a mutex of another
thread. -/
theorem ThreadRunWith.mutexOk (hrun : ThreadRunWith Rightful actions events s) (m : MutexId) :
    ∃ handed, MutexOk events.flatten s m handed :=
  hrun.invariant (I := fun tr s => ∃ handed, MutexOk tr s m handed) ⟨_, MutexOk.init m⟩
    fun hsound ⟨_, hok⟩ hright heffect => hok.step hsound hright heffect

/-- Nobody does so as long as fewer than `2 ^ 32` contexts are constructed. -/
theorem ThreadRun.rightful (hrun : ThreadRun actions events s) (hids : s.maxId ≤ 2 ^ 32) :
    ThreadRunWith Rightful actions events s := by
  induction hrun with
  | nil => exact .nil
  | @snoc _ events s s' a _ hrun hallowed hstep ih =>
    have hsound := threadRun_sound hrun
    have heffect := hsound.effect_of_step hallowed hstep
    have hids' := heffect.maxId_le.trans hids
    refine (ih hids').snoc hallowed ?_ hstep
    cases heffect with
    | run hc _ hcode heffect =>
      intro m hhead hfree howner
      rw [hcode, List.head?_cons, Option.some.injEq] at hhead
      subst hhead
      obtain ⟨handed, hok⟩ := (ih hids').mutexOk m
      exact (hok.holder_iff hsound hids' (hsound.last_of_head hc hcode id)).mp ⟨hfree, howner⟩
    | _ => trivial

/-- The invariant of the mutexes holds in every run that constructs fewer than `2 ^ 32` contexts. -/
theorem ThreadRun.mutexOk (hrun : ThreadRun actions events s) (hids : s.maxId ≤ 2 ^ 32)
    (m : MutexId) :
    ∃ handed, MutexOk events.flatten s m handed :=
  (hrun.rightful hids).mutexOk m

/-! ### The states of a mutex -/

/-- The thread has left the waiting queue and has not been resumed in `lock` yet. -/
def Designated (s : State) (m : MutexId) (x : ContextId) : Prop :=
  x ∈ s.queue .ready ∧ (s.code x).head? = some (.own m)

/-- The states of a mutex. -/
inductive MutexState
  | free
  | held (t : ContextId)
  | handedOff (t : ContextId)

/-- The mutex is in a state. -/
def MutexState.Describes (tr : List Event) (s : State) (m : MutexId) : MutexState → Prop
  | .free => s.free m = true ∧ s.owner m = 0 ∧ s.queue (.mutex m) = [] ∧ holders m tr = [] ∧
      ∀ x, ¬ Designated s m x
  | .held t => s.free m = false ∧ s.owner m = idOf t ∧ idOf t ≠ 0 ∧ holders m tr = [t] ∧
      ∀ x, ¬ Designated s m x
  | .handedOff t => s.free m = false ∧ s.owner m = 0 ∧ holders m tr = [] ∧
      ∀ x, Designated s m x ↔ x = t

/-- When the guard is free, the threads that the mutex has been handed to are those that are
designated. -/
theorem MutexOk.designated_iff (h : MutexOk tr s m handed) (hsound : Sound s)
    (hheads : QueueHeads s)
    (hguard : s.guard = none) : Designated s m x ↔ x ∈ handed := by
  constructor
  · rintro ⟨hready, hhead⟩
    have hmem := (h.owns x (hsound.alive_of_queue hready)).mp hhead
    refine (List.mem_append.mp hmem).resolve_right fun hqueue => ?_
    have heq := hsound.places.disjoint (.inr .ready) (.inr (.mutex m)) x hready hqueue
    cases heq
  · intro hx
    have hmem := List.mem_append_left (s.queue (.mutex m)) hx
    have halive := h.alive x hmem
    have hhead := (h.owns x halive).mpr hmem
    obtain ⟨p, hp⟩ := (hsound.places.mem_iff x).mp halive
    cases p with
    | inl c =>
      -- a CPU that is about to set the owner holds the guard
      have hlast : s.lastContext c = some x := by simpa [State.place] using hp
      have hmode := (hsound.onCpu c (hsound.mem_of_last hlast)).mode
      rw [State.current, hsound.stack_of_last hlast] at hmode
      cases hcode : s.code x with
      | nil =>
        rw [hcode] at hhead
        cases hhead
      | cons i rest =>
        rw [hcode, List.head?_cons, Option.some.injEq] at hhead
        subst hhead
        rw [hcode] at hmode
        have hheld : s.guard = some c := hmode.2
        rw [hguard] at hheld
        cases hheld
    | inr q =>
      rcases hheads.own q x hp m hhead with rfl | rfl
      · exact ⟨hp, hhead⟩
      · exact absurd hp fun hqueue => (List.nodup_append.mp h.nodup).2.2 x hx x hqueue rfl

/-- In every run that constructs fewer than `2 ^ 32` contexts, a mutex is in exactly one state
whenever the guard is free, and at most one thread is between acquiring and releasing it.
`release_lock`, called by `unlock` or by `wait`, releases it if the thread holds it, and throws
otherwise. -/
theorem threadRun_mutex (hrun : ThreadRun actions events s) (hids : s.maxId ≤ 2 ^ 32)
    (m : MutexId) :
    (s.guard = none → ∃! state : MutexState, state.Describes events.flatten s m) ∧
    (holders m events.flatten).length ≤ 1 ∧
    ∀ c alloc evs s', Allowed s (.run c alloc) → (s.current c).head? = some (.releaseLock m) →
      step (.run c alloc) s = some (evs, s') →
      (holders m events.flatten = [s.stack c] → evs = [.act (s.stack c) (.released m)]) ∧
      (holders m events.flatten ≠ [s.stack c] → evs = [.act (s.stack c) (.refused m)]) := by
  have hsound := threadRun_sound hrun
  obtain ⟨handed, hok⟩ := hrun.mutexOk hids m
  refine ⟨fun hguard => ?_, ?_, fun c alloc evs s' hallowed hhead hstep => ?_⟩
  · have hdesignated (x : ContextId) := hok.designated_iff (x := x) hsound hrun.queueHeads hguard
    obtain ⟨hfree, howner, hqueue, rfl, hhold⟩ | ⟨hbusy, rfl, t, hhold, hid, hpos, hlt⟩ |
      ⟨hbusy, howner, hhold, t, rfl⟩ := hok.state
    · refine ⟨.free, ⟨hfree, howner, hqueue, hhold,
        fun x hx => by simpa using (hdesignated x).mp hx⟩, ?_⟩
      rintro (_ | t | t) h
      · rfl
      · rw [h.1] at hfree
        cases hfree
      · rw [h.1] at hfree
        cases hfree
    · have hne := idOf_ne_zero hpos (hlt.trans_le hids)
      refine ⟨.held t, ⟨hbusy, hid, hne, hhold, fun x hx => by simpa using (hdesignated x).mp hx⟩,
        ?_⟩
      rintro (_ | t' | t') h
      · rw [h.1] at hbusy
        cases hbusy
      · have heq := h.2.2.2.1
        rw [hhold, List.cons.injEq] at heq
        rw [heq.1]
      · have heq := h.2.2.1
        rw [hhold] at heq
        cases heq
    · refine ⟨.handedOff t, ⟨hbusy, howner, hhold,
        fun x => by rw [hdesignated, List.mem_singleton]⟩, ?_⟩
      rintro (_ | t' | t') h
      · rw [h.1] at hbusy
        cases hbusy
      · have heq := h.2.2.2.1
        rw [hhold] at heq
        cases heq
      · have hdes := (h.2.2.2 t').mpr rfl
        rw [hdesignated, List.mem_singleton] at hdes
        rw [hdes]
  · obtain ⟨-, -, -, -, hhold⟩ | ⟨-, -, t, hhold, -⟩ | ⟨-, -, hhold, -⟩ :=
        hok.state <;> simp [hhold]
  · have heffect := hsound.effect_of_step hallowed hstep
    cases heffect with
    | run hc _ hcode heffect =>
      rw [hcode, List.head?_cons, Option.some.injEq] at hhead
      subst hhead
      have hlast := hsound.last_of_head hc hcode id
      have hiff := hok.holder_iff hsound hids hlast
      cases heffect with
      | refused _ hm =>
        refine ⟨fun hheld => ?_, fun _ => rfl⟩
        obtain ⟨hbusy, hid⟩ := hiff.mpr hheld
        rcases hm with hfree | hne
        · rw [hfree] at hbusy
          cases hbusy
        · exact absurd hid hne
      | release _ hfree howner =>
        exact ⟨fun _ => rfl, fun hne =>
          absurd (hiff.mp ⟨hfree, howner⟩) hne⟩
      | handOff _ hfree howner =>
        exact ⟨fun _ => rfl, fun hne =>
          absurd (hiff.mp ⟨hfree, howner⟩) hne⟩
      | blocks _ hi => cases hi
      | wakes _ hi => cases hi
      | skips hi => cases hi

/-- A thread locks a mutex, another one waits for it, and the first one unlocks it. -/
def handOff : List Action :=
  [.boot 0 true] ++ runs 2 ++ [.call 0 (.lock 0)] ++ runs 7 ++ [.call 0 .thread] ++ runs 6 ++
    [.call 0 .yield] ++ runs 5 ++ [.call 0 (.lock 0)] ++ runs 6 ++ [.call 0 (.unlock 0)] ++ runs 6

/-- The mutex is handed off to the other thread. -/
theorem threadRun_mutex_handOff :
    ∃ events s, ThreadRun handOff events s ∧ s.free 0 = false ∧ s.owner 0 = 0 ∧
      ∃! state : MutexState, state.Describes events.flatten s 0 := by
  obtain ⟨events, s, hthread, hcheck⟩ := ThreadRun.of_check handOff
    (fun _ s => s.maxId ≤ 2 ^ 32 && s.guard = none && s.free 0 = false && s.owner 0 = 0)
    (by decide +kernel)
  simp only [Bool.and_eq_true, decide_eq_true_eq] at hcheck
  obtain ⟨⟨⟨hids, hguard⟩, hfree⟩, howner⟩ := hcheck
  exact ⟨events, s, hthread, hfree, howner, (threadRun_mutex hthread hids 0).1 hguard⟩

end OsFromScratch.Threads
