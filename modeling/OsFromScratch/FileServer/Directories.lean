import OsFromScratch.FileServer.Refinement

/-!
# Directories

The representation of directories on the disk. Part of it is needed to read the disk as a tree at
all, and belongs to well-formed disks; the rest is a property of the tree, which every request that
has passed the parser preserves.

## Main definitions

* `DirectoryOk`, `Directories` — the representation of one directory, and of all of them.
* `AbstractFs.Tidy` — the names and owners of a tree.

## Main results

* `Accepted.lastName` — the name of a file or directory to be created.
* `AbstractFs.Tidy.apply` — what a request preserves.
* `executeAll_directories` — the representation after any sequence of requests.
-/

namespace OsFromScratch.FileServer

open Function

/-- The representation of a directory: at most 124 blocks, each with a used entry; the names of used
entries are distinct, non-empty, terminated, and have at most 59 characters, none of them `/`; and
the entries of a directory other than the root belong to its owner. -/
structure DirectoryOk (d : Disk) (b : BlockNo) : Prop where
  size_le : (inodeAt d b).size.toNat ≤ 124
  names_nodup : ((entries d b).map fun e => arrayStr e.name).Nodup
  name_ne_nil : ∀ e ∈ entries d b, arrayStr e.name ≠ []
  name_terminated : ∀ e ∈ entries d b, Terminated e.name
  name_length : ∀ e ∈ entries d b, (arrayStr e.name).length ≤ fsMaxfilename
  name_no_slash : ∀ e ∈ entries d b, slashChar ∉ arrayStr e.name
  block_used : ∀ x ∈ (inodeAt d b).used, usedEntries (direntriesAt d x) ≠ []
  size_eq_zero_iff : (inodeAt d b).size.toNat = 0 ↔ entries d b = []
  owner : b ≠ 0 → ∀ e ∈ entries d b,
    arrayStr (inodeAt d e.inodeBlock).owner = arrayStr (inodeAt d b).owner

/-- Every directory on the disk is represented as it should be. -/
def Directories (d : Disk) : Prop :=
  ∀ b, Linked d b → (inodeAt d b).type = dirType → DirectoryOk d b

namespace AbstractFs

/-- A node is missing below a path where there is none. -/
def Closed (a : AbstractFs) : Prop :=
  ∀ p n, a.tree p = none → a.tree (p ++ [n]) = none

/-- Names are not empty and do not contain `/`, and below a node other than the root there are only
nodes of its owner. -/
structure Tidy (a : AbstractFs) : Prop where
  ne_nil : ∀ p n node, a.tree (p ++ [n]) = some node → n ≠ []
  no_slash : ∀ p n node, a.tree (p ++ [n]) = some node → slashChar ∉ n
  owner : ∀ p n node parent, p ≠ [] → a.tree (p ++ [n]) = some node → a.tree p = some parent →
    node.owner = parent.owner

end AbstractFs

variable {a : AbstractFs} {d : Disk} {b : BlockNo} {e : FsDirentry} {p : Path} {name : Bytes}
  {req : Request} {s s' : State} {reqs : List Request} {resps : List Response}

/-! ### The disk and the tree -/

theorem closed_abs (d : Disk) : (abs d).Closed := by
  intro p n hp
  rw [abs_tree_eq_none] at hp ⊢
  exact resolvePath_append_eq_none hp [n]

/-- The root is the only node at the end of the empty path. -/
theorem WellFormed.ne_root_iff (hwf : WellFormed d) (hp : resolvePath d p = some b) :
    b ≠ 0 ↔ p ≠ [] := by
  refine not_congr ⟨fun hb => ?_, fun hnil => ?_⟩
  · subst hb
    exact hwf.isTree.walk_inj hp rfl
  · subst hnil
    exact (Option.some.inj hp).symm

/-- An entry of a directory is a node of the tree. -/
theorem WellFormed.tree_entry (hwf : WellFormed d) (hp : resolvePath d p = some b)
    (he : e ∈ entries d b) :
    (abs d).tree (p ++ [arrayStr e.name]) = some (nodeAt d e.inodeBlock) := by
  have hlookup : lookup d b (arrayStr e.name) = some e.inodeBlock :=
    (lookup_eq_some_iff (hwf.node b ⟨p, hp⟩).names_nodup).mpr ⟨e, he, rfl, rfl⟩
  exact abs_tree_of_resolve (by rw [resolvePath_concat_of hp, hlookup])

/-- A node of the tree other than the root is an entry of a directory. -/
theorem exists_entry {node : Node} (h : (abs d).tree (p ++ [name]) = some node) :
    ∃ b, resolvePath d p = some b ∧ (inodeAt d b).type ≠ fileType ∧
      ∃ e ∈ entries d b, arrayStr e.name = name ∧ nodeAt d e.inodeBlock = node := by
  obtain ⟨c, hc, rfl⟩ := abs_tree_eq_some.mp h
  rw [resolvePath_concat] at hc
  obtain ⟨b, hb, hlookup⟩ := Option.bind_eq_some_iff.mp hc
  obtain ⟨e, he, rfl, rfl⟩ := lookup_eq_some hlookup
  exact ⟨b, hb, (mem_entries.mp he).1, e, he, rfl, rfl⟩

/-- A directory without blocks is one without entries. -/
theorem NodeOk.size_eq_zero_iff (h : NodeOk d b) (hdir : (inodeAt d b).type = dirType) :
    (inodeAt d b).size.toNat = 0 ↔ entries d b = [] := by
  have hnot : (inodeAt d b).type ≠ fileType := by
    rw [hdir]
    decide
  have hlen : (inodeAt d b).used.length = (inodeAt d b).size.toNat := by
    rw [FsInode.used, List.length_take, Vector.length_toList]
    exact Nat.min_eq_left h.size_le
  rw [← hlen, List.length_eq_zero_iff]
  constructor
  · intro hnil
    rw [entries, if_neg hnot, hnil, List.flatMap_nil]
  · intro hnone
    by_contra hne
    obtain ⟨x, hx⟩ := List.exists_mem_of_ne_nil _ hne
    obtain ⟨e, he⟩ := List.exists_mem_of_ne_nil _ (h.block_used hdir x hx)
    have hmem : e ∈ entries d b := mem_entries.mpr ⟨hnot, x, hx, he⟩
    rw [hnone] at hmem
    exact absurd hmem List.not_mem_nil

/-- The representation of directories on a well-formed disk is a matter of names and owners. -/
theorem WellFormed.directories_iff (hwf : WellFormed d) : Directories d ↔ (abs d).Tidy := by
  constructor
  · intro h
    have hdir {p : Path} {b : BlockNo} (hb : resolvePath d p = some b)
        (htype : (inodeAt d b).type ≠ fileType) : DirectoryOk d b :=
      h b ⟨p, hb⟩ ((hwf.node b ⟨p, hb⟩).type.resolve_left htype)
    refine ⟨fun p n node hnode => ?_, fun p n node hnode => ?_,
      fun p n node parent hp hnode hpar => ?_⟩
    · obtain ⟨b, hb, htype, e, he, rfl, -⟩ := exists_entry hnode
      exact (hdir hb htype).name_ne_nil e he
    · obtain ⟨b, hb, htype, e, he, rfl, -⟩ := exists_entry hnode
      exact (hdir hb htype).name_no_slash e he
    · obtain ⟨b, hb, htype, e, he, rfl, rfl⟩ := exists_entry hnode
      rw [abs_tree_of_resolve hb, Option.some.injEq] at hpar
      rw [← hpar, owner_nodeAt, owner_nodeAt]
      exact (hdir hb htype).owner ((hwf.ne_root_iff hb).mpr hp) e he
  · rintro h b ⟨p, hp⟩ hdir
    have hok := hwf.node b ⟨p, hp⟩
    refine ⟨hok.size_le, hok.names_nodup, fun e he => ?_, hok.names_terminated, fun e he => ?_,
      fun e he => ?_, hok.block_used hdir, hok.size_eq_zero_iff hdir, fun hb e he => ?_⟩
    · exact h.ne_nil p _ _ (hwf.tree_entry hp he)
    · exact Nat.lt_succ_iff.mp (length_arrayStr_lt (hok.names_terminated e he))
    · exact h.no_slash p _ _ (hwf.tree_entry hp he)
    · have howner := h.owner p _ _ _ ((hwf.ne_root_iff hp).mp hb) (hwf.tree_entry hp he)
        (abs_tree_of_resolve hp)
      rwa [owner_nodeAt, owner_nodeAt] at howner

/-! ### What a request preserves -/

/-- The last name on the path of an accepted request is not empty and does not contain `/`. -/
theorem Accepted.lastName (h : Accepted req) (hlast : req.path.getLast? = some name) :
    cstr name ≠ [] ∧ slashChar ∉ cstr name := by
  obtain ⟨msg, parsed, buf, hparse, rfl⟩ := h
  obtain ⟨cmd, username, rest, args, htok, -, hslash, -, -, hargs⟩ := parseRequest_cases hparse
  have hpath : (parsed.setData (some buf)).path = split rest slashChar := by
    rcases parseArguments_cases hargs with ⟨arg, b, -, -, -, rfl⟩ | ⟨arg, b, -, -, -, rfl⟩ |
      ⟨type, -, -, -, rfl⟩ | ⟨-, -, rfl⟩ <;> rfl
  have hnul : 0 ∉ rest := by
    have hmem : slashChar :: rest ∈ split msg spaceChar := by simp [htok]
    intro h0
    exact zero_notMem_cstr msg (mem_of_mem_getlines (List.mem_cons_of_mem _ h0) hmem)
  rw [hpath, split_of_notMem hnul] at hlast
  have hmem := List.mem_of_getLast? hlast
  have hname : 0 ∉ name := fun h0 => hnul (mem_of_mem_getlines h0 hmem)
  rw [cstr_of_notMem hname]
  refine ⟨?_, notMem_of_mem_getlines hmem⟩
  rintro rfl
  have hne : rest ≠ [] := by
    rintro rfl
    exact absurd hlast (by simp [getlines, getlinesFrom])
  refine getLast?_getlines_ne (fun hend => hne (hslash ?_)) hlast
  rwa [List.getLast?_cons_of_ne_nil hne]

namespace AbstractFs

@[simp] theorem owner_empty (type : UInt8) (user : Bytes) :
    (Node.empty type user).owner = user := by
  rw [Node.empty]
  split_ifs <;> rfl

theorem Tidy.of_tree {a' : AbstractFs} (h : a.Tidy) (htree : a'.tree = a.tree) : a'.Tidy := by
  refine ⟨?_, ?_, ?_⟩ <;> rw [htree]
  · exact h.ne_nil
  · exact h.no_slash
  · exact h.owner

/-- A node is replaced by one of the same owner. -/
theorem Tidy.replace (h : a.Tidy) {old new : Node} (hold : a.tree p = some old)
    (howner : new.owner = old.owner) : (a.setNode p (some new)).Tidy := by
  -- whatever is found in the new tree is there in the old one, with the same owner
  have hback {q : Path} {node : Node} (hq : update a.tree p (some new) q = some node) :
      ∃ node', a.tree q = some node' ∧ node'.owner = node.owner := by
    by_cases hqp : q = p
    · rw [hqp, update_self, Option.some.injEq] at hq
      exact ⟨old, hqp ▸ hold, by rw [← hq, howner]⟩
    · rw [update_of_ne hqp] at hq
      exact ⟨node, hq, rfl⟩
  refine ⟨fun q n node hn => ?_, fun q n node hn => ?_, fun q n node parent hq hn hpar => ?_⟩
  · obtain ⟨node', hn', -⟩ := hback hn
    exact h.ne_nil q n node' hn'
  · obtain ⟨node', hn', -⟩ := hback hn
    exact h.no_slash q n node' hn'
  · obtain ⟨node', hn', howner'⟩ := hback hn
    obtain ⟨parent', hpar', hparo⟩ := hback hpar
    rw [← howner', ← hparo]
    exact h.owner q n node' parent' hq hn' hpar'

/-- A node is added. -/
theorem Tidy.insert (h : a.Tidy) (hclosed : a.Closed) (hnone : a.tree (p ++ [name]) = none)
    {new : Node} (hname : name ≠ []) (hslash : slashChar ∉ name)
    (howner : p ≠ [] → ∀ parent, a.tree p = some parent → new.owner = parent.owner) :
    (a.setNode (p ++ [name]) (some new)).Tidy := by
  have hcases {q : Path} {n : Bytes} {node : Node}
      (hn : update a.tree (p ++ [name]) (some new) (q ++ [n]) = some node) :
      (q = p ∧ n = name ∧ node = new) ∨ a.tree (q ++ [n]) = some node := by
    by_cases hqp : q ++ [n] = p ++ [name]
    · rw [hqp, update_self, Option.some.injEq] at hn
      obtain ⟨rfl, rfl⟩ := List.append_singleton_inj.mp hqp
      exact Or.inl ⟨rfl, rfl, hn.symm⟩
    · rw [update_of_ne hqp] at hn
      exact Or.inr hn
  refine ⟨fun q n node hn => ?_, fun q n node hn => ?_, fun q n node parent hq hn hpar => ?_⟩
  · rcases hcases hn with ⟨-, rfl, -⟩ | hn
    · exact hname
    · exact h.ne_nil q n node hn
  · rcases hcases hn with ⟨-, rfl, -⟩ | hn
    · exact hslash
    · exact h.no_slash q n node hn
  · have hq' (hne : q ≠ p ++ [name]) : a.tree q = some parent :=
      (update_of_ne hne ..).symm.trans hpar
    rcases hcases hn with ⟨rfl, rfl, rfl⟩ | hn
    · exact howner hq parent (hq' (by simp))
    · refine h.owner q n node parent hq hn (hq' ?_)
      rintro rfl
      rw [hclosed _ n hnone] at hn
      exact absurd hn (by simp)

/-- A node is removed. -/
theorem Tidy.remove (h : a.Tidy) : (a.setNode p none).Tidy := by
  have hback {q : Path} {node : Node} (hq : update a.tree p none q = some node) :
      a.tree q = some node := by
    by_cases hqp : q = p
    · rw [hqp, update_self] at hq
      exact absurd hq (by simp)
    · rwa [update_of_ne hqp] at hq
  exact ⟨fun q n node hn => h.ne_nil q n node (hback hn),
    fun q n node hn => h.no_slash q n node (hback hn),
    fun q n node parent hq hn hpar => h.owner q n node parent hq (hback hn) (hback hpar)⟩

/-- Every accepted request keeps names and owners as they should be. -/
theorem Tidy.apply (h : a.Tidy) (hclosed : a.Closed) (hacc : Accepted req) :
    (a.apply req).1.Tidy := by
  by_cases hfail : (a.apply req).2 = none
  · rwa [a.apply_of_none req hfail]
  · cases req with
    | readblock r =>
      rw [AbstractFs.apply, readblock]
      split <;> exact h
    | writeblock r =>
      rw [AbstractFs.apply] at hfail ⊢
      cases hdata : r.data with
      | none => exact h
      | some buf =>
        rw [hdata] at hfail
        obtain ⟨owner, contents, contents', htree, htree', -⟩ := writeblock_spec hfail
        have h₁ : (a.setNode (r.path.map cstr) (some (.file owner contents'))).Tidy :=
          h.replace htree rfl
        exact h₁.of_tree htree'
    | create r =>
      rw [AbstractFs.apply] at hfail ⊢
      cases hlast : r.path.getLast? with
      | none => exact h
      | some name =>
        rw [hlast] at hfail
        dsimp only at hfail ⊢
        obtain ⟨hname, hslash⟩ := hacc.lastName hlast
        obtain ⟨-, -, -, hown, -⟩ := create_ne_none.mp hfail
        obtain ⟨owner, table, table', htree, hnone, htree'⟩ := create_spec hfail
        -- the new node is entered first, then the directory is changed
        have h₁ : (a.setNode (r.path.dropLast.map cstr ++ [cstr name])
            (some (.empty r.type (cstr r.username)))).Tidy := by
          refine h.insert hclosed hnone hname hslash fun hp parent hparent => ?_
          rw [owner_empty]
          exact (hown _ parent (List.prefix_refl _) hp hparent).symm
        have hparent : update a.tree (r.path.dropLast.map cstr ++ [cstr name])
            (some (.empty r.type (cstr r.username))) (r.path.dropLast.map cstr) =
              some (.dir owner table) := by
          rwa [update_of_ne (by simp)]
        have h₂ : ((a.setNode (r.path.dropLast.map cstr ++ [cstr name])
            (some (.empty r.type (cstr r.username)))).setNode (r.path.dropLast.map cstr)
            (some (.dir owner table'))).Tidy := h₁.replace hparent rfl
        refine h₂.of_tree (htree'.trans ?_)
        exact (update_comm (by simp) _ _ _).symm
    | delete r =>
      rw [AbstractFs.apply] at hfail ⊢
      cases hlast : r.path.getLast? with
      | none => exact h
      | some name =>
        rw [hlast] at hfail
        dsimp only at hfail ⊢
        obtain ⟨owner, table, node, htree, -, -, htree'⟩ := delete_spec hfail
        have h₁ : (a.setNode (r.path.dropLast.map cstr)
            (some (.dir owner (table.remove (cstr name))))).Tidy := h.replace htree rfl
        exact h₁.remove.of_tree htree'

end AbstractFs

/-- A sequence of requests keeps names and owners as they should be. -/
theorem Quiet.tidy_executeAll (h : Quiet s) (htidy : (abs s.disk).Tidy)
    (hreqs : ∀ req ∈ reqs, Accepted req) {n : ℕ}
    (hall : FileServer.executeAll n s reqs = some (resps, s')) : (abs s'.disk).Tidy := by
  induction reqs generalizing n s resps with
  | nil =>
    obtain ⟨-, rfl⟩ := Prod.mk.inj (Option.some.inj hall)
    exact htidy
  | cons req reqs ih =>
    obtain ⟨hreq, hreqs⟩ := List.forall_mem_cons.mp hreqs
    obtain ⟨r, s₁, hrun, hquiet, happly⟩ := h.execute hreq n
    rw [FileServer.executeAll, hrun] at hall
    obtain ⟨out, hrest, heq⟩ := Option.map_eq_some_iff.mp hall
    obtain ⟨-, rfl⟩ := Prod.mk.inj heq
    refine ih hquiet ?_ hreqs hrest
    have htidy' := htidy.apply (closed_abs s.disk) hreq
    rwa [happly] at htidy'

/-- On a well-formed disk whose directories are represented as they should be, they are so after any
sequence of accepted requests. -/
theorem executeAll_directories (d : Disk) (hwf : WellFormed d) (hdirs : Directories d)
    (garbage : ℕ → FsInode) (reqs : List Request) (hreqs : ∀ req ∈ reqs, Accepted req) :
    ∃ free resps s, fsInit d = some free ∧
      executeAll 0 (boot d free garbage) reqs = some (resps, s) ∧ Directories s.disk := by
  obtain ⟨free, hinit, -, -⟩ := exists_fsInit hwf
  have hboot := quiet_boot hwf hinit garbage
  obtain ⟨resps, s, hall, hquiet, -⟩ := hboot.executeAll hreqs 0
  refine ⟨free, resps, s, hinit, hall, hquiet.wf.directories_iff.mpr ?_⟩
  exact hboot.tidy_executeAll (hwf.directories_iff.mp hdirs) hreqs hall

theorem directories_emptyDisk : Directories emptyDisk := by
  refine wellFormed_emptyDisk.directories_iff.mpr ?_
  have hnone (p : Path) (n : Bytes) : (abs emptyDisk).tree (p ++ [n]) = none := by
    rw [abs_tree_eq_none]
    by_contra hne
    obtain ⟨b, hb⟩ := Option.ne_none_iff_exists'.mp hne
    exact absurd (resolvePath_emptyDisk hb).1 (by simp)
  refine ⟨fun p n node hn => ?_, fun p n node hn => ?_, fun p n node parent _ hn _ => ?_⟩ <;>
    exact absurd ((hnone p n).symm.trans hn) (by simp)

theorem executeAll_directories_emptyDisk :
    ∃ free resps s, fsInit emptyDisk = some free ∧
      executeAll 0 (boot emptyDisk free fun _ => inodeAt emptyDisk 0) [createRequest] =
        some (resps, s) ∧ Directories s.disk :=
  executeAll_directories emptyDisk wellFormed_emptyDisk directories_emptyDisk
    (fun _ => inodeAt emptyDisk 0) [createRequest]
    (List.forall_mem_singleton.mpr accepted_createRequest)

end OsFromScratch.FileServer
