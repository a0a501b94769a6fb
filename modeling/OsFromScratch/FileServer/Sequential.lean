import OsFromScratch.FileServer.Server

/-!
# Requests executed one after another

The server with one request at a time. Nothing blocks and nothing aborts then, and every request has
exactly the effect and the response of the abstract file system.

## Main definitions

* `executeAll` — the responses to a sequence of requests, each executed after the one before.

## Main results

* `Inv.run_alone` — a program that keeps the protocol and is run alone returns.
* `Quiet.execute`, `Quiet.executeAll` — the refinement of the abstract file system, for one request
  and for a sequence.
-/

namespace OsFromScratch.FileServer

open Function

variable {a₀ a a' : AbstractFs} {s : State} {η : List Entry} {gs : ℕ → Ghost} {i n : ℕ} {d : Disk}
  {req : Request} {reqs : List Request} {e : Entry}

/-! ### One request alone -/

/-- A request that is alone never has to wait. -/
theorem Inv.step_isSome (hinv : Inv a₀ s η gs) (hidle : ∀ j, j ≠ i → gs j = Ghost.idle) {o : Op}
    (hadm : Adm o (gs i)) : (step i o s).isSome := by
  have halone (j : ℕ) (hj : j ≠ i) : (gs j).claims.owned = [] := by
    rw [hidle j hj]
    rfl
  cases o with
  | lock mode l =>
    rw [step, onMutex, Option.isSome_map]
    exact hinv.locks.lock_isSome halone hadm.2.2
  | unlock mode l =>
    rw [step, onMutex, Option.isSome_map]
    exact hinv.locks.unlock_isSome hadm
  | upgradeToExclusive l =>
    rw [step, onMutex, Option.isSome_map]
    refine hinv.locks.upgradeToExclusive_isSome halone ?_
    rw [show (gs i).claims.owned = [(l, .upgrade)] from hadm]
    exact List.mem_singleton_self _
  | popFrontOr block =>
    rw [step]
    cases s.freeDiskBlocks <;> rfl
  | _ => rfl

theorem Legal.of_nil (h : Legal a₀ [] a) : a = a₀ := by
  generalize hη : ([] : List Entry) = w at h
  cases h with
  | nil => rfl
  | apply _ _ _ => simp at hη
  | skip _ _ _ => simp at hη

/-- The last request of a history. -/
theorem Legal.concat (h : Legal a₀ (η ++ [e]) a') : ∃ a, Legal a₀ η a ∧
    (∀ e' ∈ η, e'.tid ≠ e.tid) ∧
    ((e.skipped = false ∧ a.apply e.req = (a', e.resp)) ∨
      (e.skipped = true ∧ e.resp = none ∧ a' = a)) := by
  generalize hη : η ++ [e] = w at h
  cases h with
  | nil => simp at hη
  | @apply _ a h i req hi =>
    obtain ⟨rfl, rfl⟩ := List.append_singleton_inj.mp hη
    exact ⟨a, h, hi, Or.inl ⟨rfl, rfl⟩⟩
  | skip h i req hi =>
    obtain ⟨rfl, rfl⟩ := List.append_singleton_inj.mp hη
    exact ⟨a', h, hi, Or.inr ⟨rfl, rfl, rfl⟩⟩

/-- A history of one request that took effect. -/
theorem Legal.of_alone (h : Legal a₀ η a) (halone : ∀ e ∈ η, e.tid = i ∧ e.skipped = false)
    (he : e ∈ η) : a₀.apply e.req = (a, e.resp) := by
  rcases List.eq_nil_or_concat' η with rfl | ⟨η, e', rfl⟩
  · exact absurd he List.not_mem_nil
  obtain ⟨a', ha', hfresh, hlast⟩ := h.concat
  obtain ⟨hi, hs⟩ := halone e' (List.mem_append_right _ (List.mem_singleton_self _))
  have hnil : η = [] := by
    refine List.eq_nil_iff_forall_not_mem.mpr fun e he => hfresh e he ?_
    rw [hi, (halone e (List.mem_append_left _ he)).1]
  subst hnil
  obtain rfl := List.mem_singleton.mp he
  obtain rfl := ha'.of_nil
  rcases hlast with ⟨-, happly⟩ | ⟨hskip, -⟩
  · exact happly
  · exact absurd (hs.symm.trans hskip) (by simp)

/-- What a request that is alone adds to the history. -/
def Adds (i : ℕ) (η η' : List Entry) : Prop :=
  ∀ e ∈ η', e ∈ η ∨ (e.tid = i ∧ e.skipped = false)

theorem Guar.adds {o : Op} {r : o.Res} {η' : List Entry}
    (hidle : ∀ j, j ≠ i → gs j = Ghost.idle) (h : Guar i o r gs η η') : Adds i η η' := by
  rcases h with ⟨rfl, -⟩ | ⟨e, rfl, htid, -, -, hskip⟩
  · exact fun e he => Or.inl he
  · intro e' he'
    rcases List.mem_append.mp he' with he' | he'
    · exact Or.inl he'
    · obtain rfl := List.mem_singleton.mp he'
      refine Or.inr ⟨htid, Bool.eq_false_iff.mpr fun hs => ?_⟩
      obtain ⟨-, j, hj, hne⟩ := hskip hs
      rw [hidle j hj] at hne
      exact hne rfl

theorem Adds.trans {η₁ η₂ η₃ : List Entry} (h₁₂ : Adds i η₁ η₂) (h₂₃ : Adds i η₂ η₃) :
    Adds i η₁ η₃ := fun e he => (h₂₃ e he).elim (h₁₂ e) Or.inr

/-- A program that keeps the protocol and is run alone returns. -/
theorem Inv.run_alone {α : Type} {Q : α → Ghost → Prop} {p : FsProg α} (hinv : Inv a₀ s η gs)
    (hidle : ∀ j, j ≠ i → gs j = Ghost.idle) (hwp : (fsProtocol a₀).wp i Q p (gs i)) :
    ∃ (r : α) (s' : State) (η' : List Entry) (g' : Ghost), p.run step i s = .done r s' ∧
      Inv a₀ s' η' (update gs i g') ∧ Q r g' ∧ Adds i η η' :=
  Protocol.run_of_wp (P := fsProtocol a₀) (R := Adds i) (fun _ _ he => Or.inl he)
    (fun _ _ _ h₁₂ h₂₃ => h₁₂.trans h₂₃) (fun _ _ _ _ _ hi hg => Guar.adds hi hg)
    (fun _ _ _ _ hinv hadm hi => Inv.step_isSome hinv hi hadm) hinv hidle hwp

/-- A request that is executed while no other is in flight returns, with the effect and the
response of the abstract file system. -/
theorem Quiet.execute (h : Quiet s) (hreq : Accepted req) (i : ℕ) :
    ∃ r s', (executeRequest req).run step i s = .done r s' ∧ Quiet s' ∧
      (abs s.disk).apply req = (abs s'.disk, r) := by
  obtain ⟨η, g, hguar, hinv, -, hwp⟩ := Inv.start (i := i) h rfl hreq
  have hidle (j : ℕ) (hj : j ≠ i) : update (fun _ => Ghost.idle) i g j = Ghost.idle := by
    rw [update_of_ne hj]
  have hstart : Adds i [] η := by
    rcases hguar with rfl | ⟨r, rfl⟩
    · exact fun e he => Or.inl he
    · intro e he
      obtain rfl := List.mem_singleton.mp he
      exact Or.inr ⟨rfl, rfl⟩
  obtain ⟨r, s', η', g', hrun, hinv', rfl, hadds⟩ := hinv.run_alone hidle
    (by rw [update_self]; exact hwp)
  rw [update_idem] at hinv'
  have halone (e : Entry) (he : e ∈ η') : e.tid = i ∧ e.skipped = false :=
    (hstart.trans hadds e he).resolve_left (List.not_mem_nil)
  have hlin := hinv'.hist.lin i
  rw [update_self] at hlin
  obtain ⟨e, he, -, hreq', hresp⟩ := hlin.some r rfl
  refine ⟨r, s', hrun, hinv'.quiet fun j => ?_, ?_⟩
  · by_cases hj : j = i
    · rw [hj, update_self]
      exact Or.inr ⟨req, r, rfl⟩
    · rw [update_of_ne hj]
      exact Or.inl rfl
  · have happly := hinv'.hist.legal.of_alone halone he
    rw [← Option.some.inj hreq', hresp] at happly
    exact happly

/-! ### A sequence of requests -/

/-- The responses to requests that are executed one after another by the threads `n`, `n + 1` and so
on, and the state afterwards; no value if one of them aborts or has to wait. -/
def executeAll : ℕ → State → List Request → Option (List Response × State)
  | _, s, [] => some ([], s)
  | n, s, req :: reqs =>
    match (executeRequest req).run step n s with
    | .done r s' => (executeAll (n + 1) s' reqs).map fun out => (r :: out.1, out.2)
    | _ => none

/-- A sequence of requests has the effects and the responses of the abstract file system. -/
theorem Quiet.executeAll (h : Quiet s) (hreqs : ∀ req ∈ reqs, Accepted req) (n : ℕ) :
    ∃ resps s', executeAll n s reqs = some (resps, s') ∧ Quiet s' ∧
      (abs s.disk).applyAll reqs = (abs s'.disk, resps) := by
  induction reqs generalizing n s with
  | nil => exact ⟨[], s, rfl, h, rfl⟩
  | cons req reqs ih =>
    obtain ⟨hreq, hreqs⟩ := List.forall_mem_cons.mp hreqs
    obtain ⟨r, s₁, hrun, hquiet, happly⟩ := h.execute hreq n
    obtain ⟨resps, s', hall, hquiet', happlyAll⟩ := ih hquiet hreqs (n + 1)
    refine ⟨r :: resps, s', ?_, hquiet', ?_⟩
    · rw [FileServer.executeAll, hrun]
      dsimp only
      rw [hall, Option.map_some]
    · rw [AbstractFs.applyAll, happly, happlyAll]

end OsFromScratch.FileServer
