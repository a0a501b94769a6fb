import OsFromScratch.FileServer.Sequential

/-!
# The file server refines the abstract file system

From the start of the server on a well-formed disk, any sequence of accepted requests has the
responses and the effects of the abstract file system, and leaves exactly the unused blocks in the
free list. When a request succeeds is spelled out, and what a read returns is traced back to the
write that put it there.

## Main definitions

* `Succeeds` — when a request succeeds.
* `lastWritten` — the data that a block of a file holds, according to a log of requests.
* `emptyDisk` — a disk with an empty root directory.

## Main results

* `apply_ne_none_iff` — a request succeeds under the stated conditions only.
* `contentAt_applyAll` — a block of a file holds what was last written to it.
* `executeAll_refines_abstractFs` — the refinement.
* `executeAll_freeDiskBlocks` — no block is lost or listed twice.
-/

namespace OsFromScratch.FileServer

open Function

variable {a a' : AbstractFs} {req : Request} {resp : Response} {p : Path} {k : ℕ} {buf : Block}

/-! ### When a request succeeds -/

/-- The conditions under which a request succeeds. -/
def Succeeds (a : AbstractFs) : Request → Prop
  | .readblock r => ∃ owner contents, a.tree (r.path.map cstr) = some (.file owner contents) ∧
      a.Owned (cstr r.username) (r.path.map cstr) ∧ r.block.toNat < contents.length
  | .writeblock r => ∃ owner contents, a.tree (r.path.map cstr) = some (.file owner contents) ∧
      a.Owned (cstr r.username) (r.path.map cstr) ∧ (r.block.toNat < contents.length ∨
        (r.block.toNat = contents.length ∧ contents.length < fsMaxfileblocks ∧ 0 < a.free))
  | .create r => ∃ parent name, r.path = parent ++ [name] ∧
      ∃ owner table, a.tree (parent.map cstr) = some (.dir owner table) ∧
        a.Owned (cstr r.username) (parent.map cstr) ∧ a.tree (r.path.map cstr) = none ∧
        ((table.HasUnused ∧ 0 < a.free) ∨
          (¬table.HasUnused ∧ table.length < fsMaxfileblocks ∧ 2 ≤ a.free))
  | .delete r => ∃ parent name, r.path = parent ++ [name] ∧
      ∃ owner table node, a.tree (parent.map cstr) = some (.dir owner table) ∧
        a.Owned (cstr r.username) (parent.map cstr) ∧ a.tree (r.path.map cstr) = some node ∧
        node.owner = cstr r.username ∧ node.Removable

theorem AbstractFs.find_eq_some {user : Bytes} {node : Node} :
    a.find user p = some node ↔ a.tree p = some node ∧ a.Owned user p := by
  rw [find]
  split_ifs with h
  · simp [h]
  · simp [h]

theorem AbstractFs.readblock_ne_none {user : Bytes} : (a.readblock user p k).2 ≠ none ↔
    ∃ owner contents, a.tree p = some (.file owner contents) ∧ a.Owned user p ∧
      k < contents.length := by
  rw [readblock]
  constructor
  · split
    · next owner contents hfind =>
      obtain ⟨htree, hown⟩ := find_eq_some.mp hfind
      intro hne
      refine ⟨owner, contents, htree, hown, not_le.mp fun hle => hne ?_⟩
      rw [List.getElem?_eq_none hle, Option.map_none]
    · exact fun hne => absurd rfl hne
  · rintro ⟨owner, contents, htree, hown, hlt⟩
    rw [find_eq_some.mpr ⟨htree, hown⟩]
    simp [List.getElem?_eq_getElem hlt]

theorem AbstractFs.writeblock_ne_none {user : Bytes} : (a.writeblock user p k buf).2 ≠ none ↔
    ∃ owner contents, a.tree p = some (.file owner contents) ∧ a.Owned user p ∧
      (k < contents.length ∨
        (k = contents.length ∧ contents.length < fsMaxfileblocks ∧ 0 < a.free)) := by
  rw [writeblock]
  constructor
  · split
    · next owner contents hfind =>
      obtain ⟨htree, hown⟩ := find_eq_some.mp hfind
      split_ifs with hlt heq
      · exact fun _ => ⟨owner, contents, htree, hown, Or.inl hlt⟩
      · exact fun _ => ⟨owner, contents, htree, hown, Or.inr heq⟩
      · exact fun hne => absurd rfl hne
    · exact fun hne => absurd rfl hne
  · rintro ⟨owner, contents, htree, hown, h⟩
    rw [find_eq_some.mpr ⟨htree, hown⟩]
    dsimp only
    split_ifs with h₁ h₂
    · simp
    · simp
    · exact absurd h (not_or.mpr ⟨h₁, h₂⟩)

theorem AbstractFs.create_ne_none {user name : Bytes} {type : UInt8} :
    (a.create user p name type).2 ≠ none ↔
      ∃ owner table, a.tree p = some (.dir owner table) ∧ a.Owned user p ∧
        a.tree (p ++ [name]) = none ∧ ((table.HasUnused ∧ 0 < a.free) ∨
          (¬table.HasUnused ∧ table.length < fsMaxfileblocks ∧ 2 ≤ a.free)) := by
  rw [create]
  constructor
  · split
    · next owner table hfind =>
      obtain ⟨htree, hown⟩ := find_eq_some.mp hfind
      split_ifs with hex hun hfree hroom
      · exact fun hne => absurd rfl hne
      · exact fun _ => ⟨owner, table, htree, hown, not_not.mp hex, Or.inl ⟨hun, hfree⟩⟩
      · exact fun hne => absurd rfl hne
      · exact fun _ => ⟨owner, table, htree, hown, not_not.mp hex, Or.inr ⟨hun, hroom⟩⟩
      · exact fun hne => absurd rfl hne
    · exact fun hne => absurd rfl hne
  · rintro ⟨owner, table, htree, hown, hnone, h⟩
    rw [find_eq_some.mpr ⟨htree, hown⟩]
    dsimp only
    rw [if_neg (not_not.mpr hnone)]
    rcases h with ⟨hun, hfree⟩ | ⟨hun, hroom⟩
    · rw [if_pos hun, if_pos hfree]
      simp
    · rw [if_neg hun, if_pos hroom]
      simp

theorem AbstractFs.delete_ne_none {user name : Bytes} :
    (a.delete user p name).2 ≠ none ↔
      ∃ owner table node, a.tree p = some (.dir owner table) ∧ a.Owned user p ∧
        a.tree (p ++ [name]) = some node ∧ node.owner = user ∧ node.Removable := by
  rw [delete]
  constructor
  · split
    · next owner table node hfind hnode =>
      obtain ⟨htree, hown⟩ := find_eq_some.mp hfind
      split_ifs with hdel
      · exact fun _ => ⟨owner, table, node, htree, hown, hnode, hdel⟩
      · exact fun hne => absurd rfl hne
    · exact fun hne => absurd rfl hne
  · rintro ⟨owner, table, node, htree, hown, hnode, hdel⟩
    rw [find_eq_some.mpr ⟨htree, hown⟩, hnode]
    dsimp only
    rw [if_pos hdel]
    simp

/-- A path and its last component. -/
theorem exists_append_iff {path : Path} {P : Path → Bytes → Prop} :
    (∃ parent name, path = parent ++ [name] ∧ P parent name) ↔
      ∃ name, path.getLast? = some name ∧ P path.dropLast name := by
  constructor
  · rintro ⟨parent, name, rfl, h⟩
    exact ⟨name, by simp, by simpa using h⟩
  · rintro ⟨name, hname, h⟩
    have hne : path ≠ [] := by
      rintro rfl
      simp at hname
    refine ⟨path.dropLast, name, ?_, h⟩
    rw [List.getLast?_eq_getLast_of_ne_nil hne] at hname
    rw [← Option.some.inj hname, List.dropLast_append_getLast hne]

theorem map_dropLast_concat {path : Path} {name : Bytes} (h : path.getLast? = some name) :
    path.dropLast.map cstr ++ [cstr name] = path.map cstr := by
  have hne : path ≠ [] := by
    rintro rfl
    simp at h
  rw [List.getLast?_eq_getLast_of_ne_nil hne] at h
  conv_rhs => rw [← List.dropLast_append_getLast hne, Option.some.inj h, List.map_append]
  rfl

/-- A request succeeds under the stated conditions only. -/
theorem apply_ne_none_iff (hfits : req.Fits) : (a.apply req).2 ≠ none ↔ Succeeds a req := by
  cases req with
  | readblock r => exact AbstractFs.readblock_ne_none
  | writeblock r =>
    obtain ⟨buf, hdata⟩ := hfits.data r rfl
    simp only [AbstractFs.apply, hdata]
    exact AbstractFs.writeblock_ne_none
  | create r =>
    rw [Succeeds, exists_append_iff]
    cases hlast : r.path.getLast? with
    | none => simp [AbstractFs.apply, hlast]
    | some name =>
      rw [apply_create hlast, AbstractFs.create_ne_none, map_dropLast_concat hlast]
      simp
  | delete r =>
    rw [Succeeds, exists_append_iff]
    cases hlast : r.path.getLast? with
    | none => simp [AbstractFs.apply, hlast]
    | some name =>
      rw [apply_delete hlast, AbstractFs.delete_ne_none, map_dropLast_concat hlast]
      simp

/-! ### What a block of a file holds -/

/-- The contents of a file; a directory has none. -/
def Node.contents : Node → List Block
  | .file _ contents => contents
  | .dir _ _ => []

/-- A block of the file at a path. -/
def AbstractFs.contentAt (a : AbstractFs) (p : Path) (k : ℕ) : Option Block :=
  (a.tree p).bind fun node => node.contents[k]?

/-- What a block of the file at a path holds after one more request of a log. -/
def writtenBy (p : Path) (k : ℕ) (old : Option Block) : Request × Response → Option Block
  | (.writeblock r, some _) => if r.path.map cstr = p ∧ r.block.toNat = k then r.data else old
  | (.create r, some _) => if r.path.map cstr = p then none else old
  | _ => old

/-- What was last written to a block of the file at a path since the file was created, according to
a log of requests and responses that starts with the file system `a₀`. -/
def lastWritten (a₀ : AbstractFs) (log : List (Request × Response)) (p : Path) (k : ℕ) :
    Option Block :=
  log.foldl (writtenBy p k) (a₀.contentAt p k)

namespace AbstractFs

theorem writeblock_spec {user : Bytes} {m : ℕ} {data : Block}
    (h : (a.writeblock user p m data).2 ≠ none) :
    ∃ owner contents contents', a.tree p = some (.file owner contents) ∧
      (a.writeblock user p m data).1.tree = update a.tree p (some (.file owner contents')) ∧
      ∀ k, contents'[k]? = if k = m then some data else contents[k]? := by
  obtain ⟨owner, contents, htree, hown, hm⟩ := writeblock_ne_none.mp h
  rw [writeblock, find_eq_some.mpr ⟨htree, hown⟩]
  dsimp only
  by_cases hlt : m < contents.length
  · rw [if_pos hlt]
    refine ⟨owner, contents, contents.set m data, htree, rfl, fun k => ?_⟩
    by_cases hk : k = m
    · rw [if_pos hk, hk, List.getElem?_set_self hlt]
    · rw [if_neg hk, List.getElem?_set_ne (Ne.symm hk)]
  · have heq := hm.resolve_left hlt
    rw [if_neg hlt, if_pos heq]
    refine ⟨owner, contents, contents ++ [data], htree, rfl, fun k => ?_⟩
    rw [heq.1, List.getElem?_append]
    by_cases hk : k < contents.length
    · rw [if_pos hk, if_neg (by omega)]
    · rw [if_neg hk, List.getElem?_singleton,
        List.getElem?_eq_none (by omega : contents.length ≤ k)]
      by_cases hk' : k = contents.length
      · rw [if_pos hk', if_pos (by omega)]
      · rw [if_neg hk', if_neg (by omega)]

theorem create_spec {user name : Bytes} {type : UInt8}
    (h : (a.create user p name type).2 ≠ none) :
    ∃ owner table table', a.tree p = some (.dir owner table) ∧ a.tree (p ++ [name]) = none ∧
      (a.create user p name type).1.tree =
        update (update a.tree p (some (.dir owner table'))) (p ++ [name])
          (some (.empty type user)) := by
  obtain ⟨owner, table, htree, hown, hnone, hroom⟩ := create_ne_none.mp h
  have hfind := find_eq_some.mpr ⟨htree, hown⟩
  rcases hroom with ⟨hun, hfree⟩ | ⟨hun, hlen, hfree⟩
  · rw [create_slot hfind hnone hun hfree]
    exact ⟨owner, table, _, htree, hnone, rfl⟩
  · rw [create_block hfind hnone hun hlen hfree]
    exact ⟨owner, table, _, htree, hnone, rfl⟩

theorem delete_spec {user name : Bytes} (h : (a.delete user p name).2 ≠ none) :
    ∃ owner table node, a.tree p = some (.dir owner table) ∧ a.tree (p ++ [name]) = some node ∧
      node.owner = user ∧ (a.delete user p name).1.tree =
        update (update a.tree p (some (.dir owner (table.remove name)))) (p ++ [name]) none := by
  obtain ⟨owner, table, node, htree, hown, hnode, howner, hrem⟩ := delete_ne_none.mp h
  rw [delete_eq (find_eq_some.mpr ⟨htree, hown⟩) hnode howner hrem]
  exact ⟨owner, table, node, htree, hnode, howner, rfl⟩

end AbstractFs

@[simp] theorem Node.contents_empty (type : UInt8) (user : Bytes) :
    (Node.empty type user).contents = [] := by
  rw [Node.empty]
  split_ifs <;> rfl

/-- One more request: a block of a file holds what was last written to it. -/
theorem writtenBy_apply {old : Option Block} (hold : ∀ buf, a.contentAt p k = some buf →
      old = some buf) (h : (a.apply req).1.contentAt p k = some buf) :
    writtenBy p k old (req, (a.apply req).2) = some buf := by
  cases hresp : (a.apply req).2 with
  | none =>
    rw [a.apply_of_none req hresp] at h
    cases req <;> exact hold buf h
  | some out =>
    have hne : (a.apply req).2 ≠ none := by rw [hresp]; simp
    rw [AbstractFs.contentAt] at h hold
    cases req with
    | readblock r =>
      refine hold buf ?_
      rw [← h]
      simp only [AbstractFs.apply, AbstractFs.readblock]
      split <;> rfl
    | writeblock r =>
      rw [writtenBy]
      cases hdata : r.data with
      | none => simp [AbstractFs.apply, hdata] at hne
      | some data =>
        simp only [AbstractFs.apply, hdata] at h hne
        obtain ⟨owner, contents, contents', htree, htree', hget⟩ := AbstractFs.writeblock_spec hne
        rw [htree'] at h
        by_cases hp : r.path.map cstr = p
        · subst hp
          rw [update_self, Option.bind_some, Node.contents, hget] at h
          by_cases hk : k = r.block.toNat
          · rw [if_pos hk] at h
            rw [if_pos ⟨rfl, hk.symm⟩, h]
          · rw [if_neg hk] at h
            rw [if_neg fun hh => hk hh.2.symm]
            refine hold buf ?_
            rw [htree, Option.bind_some, Node.contents, h]
        · rw [update_of_ne (Ne.symm hp)] at h
          rw [if_neg fun hh => hp hh.1]
          exact hold buf h
    | create r =>
      cases hlast : r.path.getLast? with
      | none => simp [AbstractFs.apply, hlast] at hne
      | some name =>
        rw [apply_create hlast] at h hne
        obtain ⟨owner, table, table', htree, hnone, htree'⟩ := AbstractFs.create_spec hne
        rw [htree', map_dropLast_concat hlast] at h
        rw [writtenBy]
        by_cases hp : r.path.map cstr = p
        · rw [hp, update_self, Option.bind_some, Node.contents_empty] at h
          simp at h
        · rw [update_of_ne (Ne.symm hp)] at h
          rw [if_neg hp]
          refine hold buf ?_
          by_cases hp' : p = r.path.dropLast.map cstr
          · rw [hp', update_self] at h
            simp [Node.contents] at h
          · rwa [update_of_ne hp'] at h
    | delete r =>
      cases hlast : r.path.getLast? with
      | none => simp [AbstractFs.apply, hlast] at hne
      | some name =>
        rw [apply_delete hlast] at h hne
        obtain ⟨owner, table, node, htree, hnode, -, htree'⟩ := AbstractFs.delete_spec hne
        rw [htree', map_dropLast_concat hlast] at h
        refine hold buf ?_
        by_cases hp : p = r.path.map cstr
        · rw [hp, update_self] at h
          simp at h
        · rw [update_of_ne hp] at h
          by_cases hp' : p = r.path.dropLast.map cstr
          · rw [hp', update_self] at h
            simp [Node.contents] at h
          · rwa [update_of_ne hp'] at h

/-- A block of a file holds what was last written to it. -/
theorem contentAt_applyAll {reqs : List Request}
    (h : (a.applyAll reqs).1.contentAt p k = some buf) :
    lastWritten a (reqs.zip (a.applyAll reqs).2) p k = some buf := by
  have hlog {old : Option Block} (hold : ∀ buf, a.contentAt p k = some buf → old = some buf) :
      (reqs.zip (a.applyAll reqs).2).foldl (writtenBy p k) old = some buf := by
    induction reqs generalizing a old with
    | nil => exact hold buf h
    | cons req reqs ih => exact ih h fun buf' hbuf' => writtenBy_apply hold hbuf'
  exact hlog fun _ hbuf => hbuf

/-- A successful read returns the block of the file. -/
theorem apply_readblock {r : FsReadblock} {out : Option Block}
    (h : (a.apply (.readblock r)).2 = some out) :
    ∃ buf, out = some buf ∧ a.contentAt (r.path.map cstr) r.block.toNat = some buf := by
  have hne : (a.apply (.readblock r)).2 ≠ none := by rw [h]; simp
  obtain ⟨owner, contents, htree, hown, hlt⟩ := AbstractFs.readblock_ne_none.mp hne
  simp only [AbstractFs.apply, AbstractFs.readblock,
    AbstractFs.find_eq_some.mpr ⟨htree, hown⟩, List.getElem?_eq_getElem hlt] at h
  refine ⟨contents[r.block.toNat], (Option.some.inj h).symm, ?_⟩
  rw [AbstractFs.contentAt, htree, Option.bind_some, Node.contents, List.getElem?_eq_getElem hlt]

/-! ### From the start of the server on -/

/-- A disk with an empty root directory. -/
def emptyDisk : Disk :=
  update (fun _ => Vector.replicate 512 0) 0
    (FsInode.toBlock ⟨dirType, Vector.replicate 11 0, 0, Vector.replicate 124 0⟩)

theorem inodeAt_emptyDisk :
    inodeAt emptyDisk 0 = ⟨dirType, Vector.replicate 11 0, 0, Vector.replicate 124 0⟩ :=
  inodeAt_update_self

theorem used_emptyDisk : (inodeAt emptyDisk 0).used = [] := by
  rw [inodeAt_emptyDisk]
  rfl

theorem entries_emptyDisk : entries emptyDisk 0 = [] := by
  rw [entries, used_emptyDisk, List.flatMap_nil, ite_self]

theorem refs_emptyDisk : refs emptyDisk 0 = [] := by
  rw [refs, used_emptyDisk, entries_emptyDisk, List.map_nil, List.nil_append]

theorem resolvePath_emptyDisk {b : BlockNo} (h : resolvePath emptyDisk p = some b) :
    p = [] ∧ b = 0 := by
  rcases List.eq_nil_or_concat' p with rfl | ⟨p, n, rfl⟩
  · exact ⟨rfl, (Option.some.inj h).symm⟩
  induction p using List.reverseRecOn generalizing n b with
  | nil =>
    obtain ⟨b', hb', hn⟩ := walk_concat_eq_some.mp h
    rw [← Option.some.inj hb', lookup_eq_none_of_entries entries_emptyDisk] at hn
    exact absurd hn (by simp)
  | append_singleton p m ih =>
    obtain ⟨b', hb', -⟩ := walk_concat_eq_some.mp h
    exact absurd (ih m hb').1 (by simp)

theorem linked_emptyDisk {b : BlockNo} (h : Linked emptyDisk b) : b = 0 :=
  h.elim fun _ hp => (resolvePath_emptyDisk hp).2

theorem wellFormed_emptyDisk : WellFormed emptyDisk := by
  refine ⟨by rw [inodeAt_emptyDisk], fun b hb => ?_, fun b b' hb hb' hne => ?_⟩
  · obtain rfl := linked_emptyDisk hb
    exact
      { type := Or.inr (by rw [inodeAt_emptyDisk])
        size_le := by rw [inodeAt_emptyDisk]; decide
        owner := by rw [inodeAt_emptyDisk]; exact List.mem_replicate.mpr ⟨by decide, rfl⟩
        refs_range := by simp [refs_emptyDisk]
        refs_nodup := by simp [refs_emptyDisk]
        names_terminated := by simp [entries_emptyDisk]
        names_nodup := by simp [entries_emptyDisk]
        block_used := by simp [used_emptyDisk] }
  · exact absurd ((linked_emptyDisk hb).trans (linked_emptyDisk hb').symm) hne

/-- From the start of the server on a well-formed disk, accepted requests that are executed one
after another have the responses and the effects of the abstract file system. After any such
sequence, the next request succeeds under the stated conditions only, changes nothing if it fails,
and returns, if it is a read, what was last written to the block. -/
theorem executeAll_refines_abstractFs (d : Disk) (hwf : WellFormed d) (garbage : ℕ → FsInode)
    (reqs : List Request) (hreqs : ∀ req ∈ reqs, Accepted req) :
    ∃ free resps s, fsInit d = some free ∧
      executeAll 0 (boot d free garbage) reqs = some (resps, s) ∧ WellFormed s.disk ∧
      (abs d).applyAll reqs = (abs s.disk, resps) ∧
      ∀ req, Accepted req → ∃ resp s', (executeRequest req).run step reqs.length s = .done resp s' ∧
        (abs s.disk).apply req = (abs s'.disk, resp) ∧
        (resp ≠ none ↔ Succeeds (abs s.disk) req) ∧ (resp = none → abs s'.disk = abs s.disk) ∧
        ∀ r out, req = .readblock r → resp = some out → ∃ buf, out = some buf ∧
          lastWritten (abs d) (reqs.zip resps) (r.path.map cstr) r.block.toNat = some buf := by
  obtain ⟨free, hinit, -, -⟩ := exists_fsInit hwf
  obtain ⟨resps, s, hall, hquiet, happlyAll⟩ :=
    (quiet_boot hwf hinit garbage).executeAll hreqs 0
  have happlyAll' : (abs d).applyAll reqs = (abs s.disk, resps) := happlyAll
  refine ⟨free, resps, s, hinit, hall, hquiet.wf, happlyAll', fun req hreq => ?_⟩
  obtain ⟨resp, s', hrun, -, happly⟩ := hquiet.execute hreq reqs.length
  have hresp : ((abs s.disk).apply req).2 = resp := by rw [happly]
  refine ⟨resp, s', hrun, happly, ?_, fun hnone => ?_, ?_⟩
  · rw [← hresp]
    exact apply_ne_none_iff hreq.fits
  · have hsame := (abs s.disk).apply_of_none req (hresp.trans hnone)
    rwa [happly] at hsame
  · rintro r out rfl hout
    obtain ⟨buf, rfl, hbuf⟩ := apply_readblock (hresp.trans hout)
    have hlast : lastWritten (abs d) (reqs.zip ((abs d).applyAll reqs).2) (r.path.map cstr)
        r.block.toNat = some buf := contentAt_applyAll (by rwa [happlyAll'])
    rw [happlyAll'] at hlast
    exact ⟨buf, rfl, hlast⟩

/-- The request to create the file `/a` for the user `u`. -/
def createRequest : Request :=
  .create ⟨ascii "u", [ascii "a"], fileType⟩

theorem accepted_createRequest : Accepted createRequest :=
  ⟨ascii "FS_CREATE u /a f", createRequest, Vector.replicate 512 0, by decide, rfl⟩

theorem executeAll_refines_abstractFs_emptyDisk :
    ∃ free resps s, fsInit emptyDisk = some free ∧
      executeAll 0 (boot emptyDisk free fun _ => inodeAt emptyDisk 0) [createRequest] =
        some (resps, s) ∧ WellFormed s.disk := by
  obtain ⟨free, resps, s, hinit, hall, hwf, -⟩ := executeAll_refines_abstractFs emptyDisk
    wellFormed_emptyDisk (fun _ => inodeAt emptyDisk 0) [createRequest]
    (List.forall_mem_singleton.mpr accepted_createRequest)
  exact ⟨free, resps, s, hinit, hall, hwf⟩

/-- After any sequence of accepted requests, the free list holds every unused block exactly once, as
after a restart of the server. -/
theorem executeAll_freeDiskBlocks (d : Disk) (hwf : WellFormed d) (garbage : ℕ → FsInode)
    (reqs : List Request) (hreqs : ∀ req ∈ reqs, Accepted req) :
    ∃ free resps s, fsInit d = some free ∧
      executeAll 0 (boot d free garbage) reqs = some (resps, s) ∧ WellFormed s.disk ∧
      s.freeDiskBlocks.Nodup ∧
      (∀ x, x ∈ s.freeDiskBlocks ↔ x ≠ 0 ∧ x.toNat < fsDisksize ∧ ¬Used s.disk x) ∧
      ∃ free', fsInit s.disk = some free' ∧ ∀ x, x ∈ s.freeDiskBlocks ↔ x ∈ free' := by
  obtain ⟨free, hinit, -, -⟩ := exists_fsInit hwf
  obtain ⟨resps, s, hall, hquiet, -⟩ := (quiet_boot hwf hinit garbage).executeAll hreqs 0
  obtain ⟨hnodup, hmem⟩ := hquiet.free
  obtain ⟨free', hinit', -, hmem'⟩ := exists_fsInit hquiet.wf
  exact ⟨free, resps, s, hinit, hall, hquiet.wf, hnodup, hmem, free', hinit',
    fun x => (hmem x).trans (hmem' x).symm⟩

theorem executeAll_freeDiskBlocks_emptyDisk :
    ∃ free resps s, fsInit emptyDisk = some free ∧
      executeAll 0 (boot emptyDisk free fun _ => inodeAt emptyDisk 0) [createRequest] =
        some (resps, s) ∧ s.freeDiskBlocks.Nodup := by
  obtain ⟨free, resps, s, hinit, hall, -, hnodup, -⟩ := executeAll_freeDiskBlocks emptyDisk
    wellFormed_emptyDisk (fun _ => inodeAt emptyDisk 0) [createRequest]
    (List.forall_mem_singleton.mpr accepted_createRequest)
  exact ⟨free, resps, s, hinit, hall, hnodup⟩

end OsFromScratch.FileServer
