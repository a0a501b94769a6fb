import OsFromScratch.FileServer.Tree

/-!
# Changing one inode of the tree

Every disk write of the server that is visible in the tree changes the footprint of one inode: the
data, the block list or one entry of it. This module says once what such a change does to the
tree, to the set of unused blocks and to well-formedness.

## Main definitions

* `NodeUpdate d d' b n o` — the disk `d'` differs from `d` in the inode `b` only, whose entry `n`
  now leads to `o`.

## Main results

* `NodeUpdate.resolvePath` — only the path through the changed entry changes.
* `NodeUpdate.wellFormed` — the changed disk is well formed.
* `NodeUpdate.unused` — the unused blocks afterwards.
* `WellFormed.private_write` — a write to an unused block is not visible at all.
-/

namespace OsFromScratch.FileServer

variable {d d' : Disk} {b b' c x : BlockNo} {n : Bytes} {o : Option BlockNo}
  {added removed : List BlockNo}

/-- The blocks of the inode that an entry leads to, which a removal of the entry takes along. -/
def lostBlocks (d : Disk) (b : BlockNo) (n : Bytes) : List BlockNo :=
  match lookup d b n with
  | some c => (inodeAt d c).used
  | none => []

/-- The disk `d'` differs from `d` in the inode `b` of the tree only. Its entry `n` now leads to
`o`; it refers to the blocks `added`, unused before, in addition and no longer to `removed`. -/
structure NodeUpdate (d d' : Disk) (b : BlockNo) (n : Bytes) (o : Option BlockNo)
    (added removed : List BlockNo) : Prop where
  linked : Linked d b
  agree : ∀ b', Linked d b' → b' ≠ b → Agree d d' b'
  type : (inodeAt d' b).type = (inodeAt d b).type
  owner : (inodeAt d' b).owner = (inodeAt d b).owner
  size_le : (inodeAt d' b).size.toNat ≤ 124
  names_terminated : ∀ e ∈ entries d' b, Terminated e.name
  names_nodup : ((entries d' b).map fun e => arrayStr e.name).Nodup
  block_used : (inodeAt d' b).type = dirType →
    ∀ x ∈ (inodeAt d' b).used, usedEntries (direntriesAt d' x) ≠ []
  perm : (refs d' b ++ removed).Perm (refs d b ++ added)
  added_nodup : added.Nodup
  added_unused : ∀ x ∈ added, x ∈ unused d
  lookup_ne : ∀ m, m ≠ n → lookup d' b m = lookup d b m
  lookup_eq : lookup d' b n = o
  /-- An entry is not redirected, and what it led to has no entries of its own. -/
  old : ∀ c, lookup d b n = some c → o = none ∧ entries d c = []
  /-- A new entry leads to a fresh inode without blocks. -/
  new : ∀ c, o = some c → c ∈ added ∧ NodeOk d' c ∧ refs d' c = []

theorem notMem_unused_of_linked (h : Linked d b) : b ∉ unused d := by
  rintro ⟨h0, -, hx⟩
  exact hx (h.eq_root_or_used.resolve_left h0)

theorem lookup_eq_none_of_entries (h : entries d b = []) (m : Bytes) : lookup d b m = none :=
  lookup_eq_none.mpr (by simp [h])

theorem entries_eq_nil_of_refs (h : refs d b = []) : entries d b = [] :=
  List.map_eq_nil_iff.mp (List.append_eq_nil_iff.mp h).2

namespace NodeUpdate

variable {q : Path}

/-- Only the path through the changed entry changes. -/
theorem resolvePath (h : NodeUpdate d d' b n o added removed) (hwf : WellFormed d)
    (hq : resolvePath d q = some b) (p : Path) :
    resolvePath d' p = if p = q ++ [n] then o else FileServer.resolvePath d p := by
  refine hwf.isTree.walk_update hq ?_ h.lookup_ne h.lookup_eq ?_ ?_ p
  · exact fun p b' hb' hne => (h.agree b' ⟨p, hb'⟩ hne).lookup
  · exact fun c m hc => lookup_eq_none_of_entries (h.old c hc).2 m
  · exact fun c m hc => lookup_eq_none_of_entries (entries_eq_nil_of_refs (h.new c hc).2.2) m

/-- The inodes of the tree after the change. -/
theorem linked_iff (h : NodeUpdate d d' b n o added removed) (hwf : WellFormed d) :
    Linked d' b' ↔ (Linked d b' ∧ lookup d b n ≠ some b') ∨ o = some b' := by
  obtain ⟨q, hq⟩ := h.linked
  have hpath := h.resolvePath hwf hq
  constructor
  · rintro ⟨p, hp⟩
    rw [hpath] at hp
    split_ifs at hp with hpq
    · exact Or.inr hp
    · refine Or.inl ⟨⟨p, hp⟩, fun hb' => hpq ?_⟩
      exact hwf.isTree.walk_inj hp (walk_concat_eq_some.mpr ⟨b, hq, hb'⟩)
  · rintro (⟨⟨p, hp⟩, hne⟩ | ho)
    · refine ⟨p, ?_⟩
      rw [hpath, if_neg, hp]
      rintro rfl
      obtain ⟨b₁, hb₁, hn⟩ := walk_concat_eq_some.mp hp
      rw [FileServer.resolvePath] at hq
      rw [hq] at hb₁
      obtain rfl := Option.some.inj hb₁
      exact hne hn
    · exact ⟨q ++ [n], by rw [hpath, if_pos rfl, ho]⟩

theorem linked_self (h : NodeUpdate d d' b n o added removed) (hwf : WellFormed d) :
    Linked d' b := by
  exact (h.linked_iff hwf).mpr (Or.inl ⟨h.linked, fun hb => hwf.child_ne h.linked hb rfl⟩)

theorem refs_append_nodup (h : NodeUpdate d d' b n o added removed) (hwf : WellFormed d) :
    (refs d b ++ added).Nodup := by
  refine List.nodup_append.mpr ⟨(hwf.node b h.linked).refs_nodup, h.added_nodup, ?_⟩
  rintro x hx y hy rfl
  exact (h.added_unused x hy).2.2 ⟨b, h.linked, hx⟩

theorem mem_refs (h : NodeUpdate d d' b n o added removed) (hx : x ∈ refs d' b) :
    x ∈ refs d b ∨ x ∈ added :=
  List.mem_append.mp (h.perm.subset (List.mem_append_left _ hx))

theorem nodeOk (h : NodeUpdate d d' b n o added removed) (hwf : WellFormed d) : NodeOk d' b where
  type := by rw [h.type]; exact (hwf.node b h.linked).type
  size_le := h.size_le
  owner := by rw [h.owner]; exact (hwf.node b h.linked).owner
  refs_range x hx := by
    rcases h.mem_refs hx with hx | hx
    · exact (hwf.node b h.linked).refs_range x hx
    · exact ⟨(h.added_unused x hx).1, (h.added_unused x hx).2.1⟩
  refs_nodup := (List.nodup_append.mp (h.perm.nodup_iff.mpr (h.refs_append_nodup hwf))).1
  names_terminated := h.names_terminated
  names_nodup := h.names_nodup
  block_used := h.block_used

/-- What an inode of the changed tree is: `b` itself, a new one, or an old one left alone. -/
theorem linked_cases (h : NodeUpdate d d' b n o added removed) (hwf : WellFormed d)
    (hb' : Linked d' b') :
    b' = b ∨ o = some b' ∨
      (Linked d b' ∧ b' ≠ b ∧ lookup d b n ≠ some b' ∧ Agree d d' b') := by
  rcases (h.linked_iff hwf).mp hb' with ⟨hl, hne⟩ | ho
  · by_cases hbb : b' = b
    · exact Or.inl hbb
    · exact Or.inr (Or.inr ⟨hl, hbb, hne, h.agree b' hl hbb⟩)
  · exact Or.inr (Or.inl ho)

/-- A block referenced from an old inode other than `b` is not referenced from `b`. -/
theorem notMem_refs_of_mem (h : NodeUpdate d d' b n o added removed) (hwf : WellFormed d)
    (hb' : Linked d b') (hne : b' ≠ b) (hx : x ∈ refs d b') : x ∉ refs d' b := by
  intro hx'
  rcases h.mem_refs hx' with hx' | hx'
  · exact hwf.refs_disjoint b' b hb' h.linked hne hx hx'
  · exact (h.added_unused x hx').2.2 ⟨b', hb', hx⟩

/-- The changed disk is well formed. -/
theorem wellFormed (h : NodeUpdate d d' b n o added removed) (hwf : WellFormed d) :
    WellFormed d' where
  root := by
    by_cases hb : (0 : BlockNo) = b
    · rw [hb, h.type, ← hb]
      exact hwf.root
    · rw [(h.agree 0 (linked_root d) hb).inodeAt]
      exact hwf.root
  node b' hb' := by
    rcases h.linked_cases hwf hb' with rfl | ho | ⟨hl, -, -, hag⟩
    · exact h.nodeOk hwf
    · exact (h.new b' ho).2.1
    · exact hag.nodeOk (hwf.node b' hl)
  refs_disjoint b₁ b₂ hb₁ hb₂ hne := by
    have hnil {c : BlockNo} (hc : o = some c) : refs d' c = [] := (h.new c hc).2.2
    rcases h.linked_cases hwf hb₁ with rfl | ho₁ | ⟨hl₁, hne₁, -, hag₁⟩
    · rcases h.linked_cases hwf hb₂ with rfl | ho₂ | ⟨hl₂, hne₂, -, hag₂⟩
      · exact absurd rfl hne
      · rw [hnil ho₂]
        exact List.disjoint_nil_right _
      · rw [hag₂.refs]
        exact fun x hx hx' => h.notMem_refs_of_mem hwf hl₂ hne₂ hx' hx
    · rw [hnil ho₁]
      exact List.disjoint_nil_left _
    · rcases h.linked_cases hwf hb₂ with rfl | ho₂ | ⟨hl₂, hne₂, -, hag₂⟩
      · rw [hag₁.refs]
        exact fun x hx hx' => h.notMem_refs_of_mem hwf hl₁ hne₁ hx hx'
      · rw [hnil ho₂]
        exact List.disjoint_nil_right _
      · rw [hag₁.refs, hag₂.refs]
        exact hwf.refs_disjoint b₁ b₂ hl₁ hl₂ hne

/-- The blocks referenced from the changed tree. -/
theorem used_iff (h : NodeUpdate d d' b n o added removed) (hwf : WellFormed d) :
    Used d' x ↔ x ∈ refs d' b ∨
      ∃ b', Linked d b' ∧ b' ≠ b ∧ lookup d b n ≠ some b' ∧ x ∈ refs d b' := by
  constructor
  · rintro ⟨b', hb', hx⟩
    rcases h.linked_cases hwf hb' with rfl | ho | ⟨hl, hne, hne', hag⟩
    · exact Or.inl hx
    · rw [(h.new b' ho).2.2] at hx
      exact absurd hx (List.not_mem_nil)
    · exact Or.inr ⟨b', hl, hne, hne', by rwa [hag.refs] at hx⟩
  · rintro (hx | ⟨b', hl, hne, hne', hx⟩)
    · exact ⟨b, h.linked_self hwf, hx⟩
    · refine ⟨b', (h.linked_iff hwf).mpr (Or.inl ⟨hl, hne'⟩), ?_⟩
      rwa [(h.agree b' hl hne).refs]

theorem mem_lostBlocks (h : NodeUpdate d d' b n o added removed) :
    x ∈ lostBlocks d b n ↔ ∃ c, lookup d b n = some c ∧ x ∈ refs d c := by
  cases hl : lookup d b n with
  | none => simp [lostBlocks, hl]
  | some c => simp [lostBlocks, hl, refs, (h.old c hl).2]

/-- The unused blocks after the change. -/
theorem mem_unused (h : NodeUpdate d d' b n o added removed) (hwf : WellFormed d) :
    x ∈ unused d' ↔
      (x ∈ unused d ∧ x ∉ added) ∨ x ∈ removed ∨ x ∈ lostBlocks d b n := by
  have hnodup := h.perm.nodup_iff.mpr (h.refs_append_nodup hwf)
  have hperm : x ∈ refs d' b ∨ x ∈ removed ↔ x ∈ refs d b ∨ x ∈ added := by
    rw [← List.mem_append, ← List.mem_append, h.perm.mem_iff]
  have hdisj (hx : x ∈ removed) : x ∉ refs d' b :=
    fun hx' => (List.nodup_append.mp hnodup).2.2 x hx' x hx rfl
  have hchild {c : BlockNo} (hc : lookup d b n = some c) : Linked d c ∧ c ≠ b :=
    ⟨h.linked.child hc, hwf.child_ne h.linked hc⟩
  rw [h.mem_lostBlocks]
  constructor
  · rintro ⟨h0, hlt, hx⟩
    rw [h.used_iff hwf, not_or] at hx
    by_cases hu : Used d x
    · right
      obtain ⟨b', hb', hx'⟩ := hu
      by_cases hbb : b' = b
      · subst hbb
        exact Or.inl ((hperm.mpr (Or.inl hx')).resolve_left hx.1)
      · by_cases hl : lookup d b n = some b'
        · exact Or.inr ⟨b', hl, hx'⟩
        · exact absurd ⟨b', hb', hbb, hl, hx'⟩ hx.2
    · by_cases hadd : x ∈ added
      · right; left
        exact (hperm.mpr (Or.inr hadd)).resolve_left hx.1
      · exact Or.inl ⟨⟨h0, hlt, hu⟩, hadd⟩
  · have hwf' := h.wellFormed hwf
    rintro (⟨⟨h0, hlt, hu⟩, hadd⟩ | hrem | ⟨c, hc, hxc⟩)
    · refine ⟨h0, hlt, fun hu' => ?_⟩
      rcases (h.used_iff hwf).mp hu' with hx | ⟨b', hl, -, -, hx⟩
      · rcases h.mem_refs hx with hx | hx
        · exact hu ⟨b, h.linked, hx⟩
        · exact hadd hx
      · exact hu ⟨b', hl, hx⟩
    · have hrange : x ≠ 0 ∧ x.toNat < fsDisksize := by
        rcases hperm.mp (Or.inr hrem) with hx | hx
        · exact (hwf.node b h.linked).refs_range x hx
        · exact ⟨(h.added_unused x hx).1, (h.added_unused x hx).2.1⟩
      refine ⟨hrange.1, hrange.2, fun hu' => ?_⟩
      rcases (h.used_iff hwf).mp hu' with hx | ⟨b', hl, hne, -, hx⟩
      · exact hdisj hrem hx
      · rcases hperm.mp (Or.inr hrem) with hx' | hx'
        · exact hwf.refs_disjoint b' b hl h.linked hne hx hx'
        · exact (h.added_unused x hx').2.2 ⟨b', hl, hx⟩
    · obtain ⟨hlc, hcb⟩ := hchild hc
      have hrange := (hwf.node c hlc).refs_range x hxc
      refine ⟨hrange.1, hrange.2, fun hu' => ?_⟩
      rcases (h.used_iff hwf).mp hu' with hx | ⟨b', hl, -, hne, hx⟩
      · exact h.notMem_refs_of_mem hwf hlc hcb hxc hx
      · exact hne (by rw [hc, hwf.eq_of_mem_refs hl hlc hx hxc])

end NodeUpdate

/-! ### Invisible writes -/

/-- Two disks with the same tree: they agree on every inode of it. -/
def SameTree (d d' : Disk) : Prop :=
  ∀ b, Linked d b → Agree d d' b

namespace SameTree

theorem linked_iff (h : SameTree d d') : Linked d' b ↔ Linked d b := by
  rw [Linked, Linked, resolvePath_congr h]

theorem wellFormed (h : SameTree d d') (hwf : WellFormed d) : WellFormed d' where
  root := by
    rw [(h 0 (linked_root d)).inodeAt]
    exact hwf.root
  node b hb := (h b (h.linked_iff.mp hb)).nodeOk (hwf.node b (h.linked_iff.mp hb))
  refs_disjoint b b' hb hb' hne := by
    rw [(h b (h.linked_iff.mp hb)).refs, (h b' (h.linked_iff.mp hb')).refs]
    exact hwf.refs_disjoint b b' (h.linked_iff.mp hb) (h.linked_iff.mp hb') hne

theorem used_iff (h : SameTree d d') : Used d' x ↔ Used d x := by
  constructor
  · rintro ⟨b, hb, hx⟩
    have hb' := h.linked_iff.mp hb
    exact ⟨b, hb', by rwa [(h b hb').refs] at hx⟩
  · rintro ⟨b, hb, hx⟩
    exact ⟨b, h.linked_iff.mpr hb, by rwa [(h b hb).refs]⟩

theorem unused (h : SameTree d d') : unused d' = unused d := by
  ext x
  simp only [FileServer.unused, Set.mem_ofPred_eq, h.used_iff]

end SameTree

/-- A write to an unused block is not visible in the tree. -/
theorem WellFormed.private_write (hwf : WellFormed d) (hx : x ∈ unused d) (v : Block) :
    SameTree d (Function.update d x v) := by
  intro b hb y hy
  rw [Function.update_of_ne]
  rintro rfl
  exact hwf.notMem_unused_of_mem_footprint hb hy hx

end OsFromScratch.FileServer
