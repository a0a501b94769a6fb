import OsFromScratch.FileServer.Refinement

/-!
# Isolation between users

What other users write to their files has no influence on the responses that a user gets. Two runs
of the server with the same requests, up to the data that other users write, lead to file systems
that differ at most in the contents of files of other users.

## Main definitions

* `SameBut` — requests that differ at most in the data that another user writes.
* `Node.Alike`, `AbstractFs.Alike` — file systems that a user cannot tell apart.

## Main results

* `AbstractFs.Alike.apply` — one request.
* `executeAll_isolation` — a sequence of requests.
-/

namespace OsFromScratch.FileServer

open Function

/-- Requests that differ at most in the data that a user other than `u` writes. -/
inductive SameBut (u : Bytes) : Request → Request → Prop
  | refl (req : Request) : SameBut u req req
  | data (r : FsWriteblock) (data : Option Block) (h : r.username ≠ u) :
      SameBut u (.writeblock r) (.writeblock { r with data := data })

/-- Nodes that differ at most in the contents of a file of a user other than `u`. -/
inductive Node.Alike (u : Bytes) : Node → Node → Prop
  | dir (owner : Bytes) (table : Table) : Node.Alike u (.dir owner table) (.dir owner table)
  | file (owner : Bytes) (contents contents' : List Block)
      (hlen : contents.length = contents'.length) (h : owner = u → contents = contents') :
      Node.Alike u (.file owner contents) (.file owner contents')

/-- File systems that differ at most in the contents of files of users other than `u`. -/
structure AbstractFs.Alike (u : Bytes) (a a' : AbstractFs) : Prop where
  free : a.free = a'.free
  tree : ∀ p, Option.Rel (Node.Alike u) (a.tree p) (a'.tree p)
  root : ∃ owner table, a.tree [] = some (.dir owner table)

variable {u : Bytes} {a a' : AbstractFs} {p : Path} {user : Bytes} {req req' : Request}

namespace Node.Alike

variable {node node' : Node}

theorem refl (node : Node) : node.Alike u node := by
  cases node with
  | file owner contents => exact .file owner contents contents rfl fun _ => rfl
  | dir owner table => exact .dir owner table

theorem owner_eq (h : node.Alike u node') : node.owner = node'.owner := by
  cases h <;> rfl

theorem removable_iff (h : node.Alike u node') : node.Removable ↔ node'.Removable := by
  cases h <;> rfl

theorem blocks_eq (h : node.Alike u node') : node.blocks = node'.blocks := by
  cases h with
  | dir owner table => rfl
  | file owner contents contents' hlen h => exact hlen

end Node.Alike

namespace AbstractFs.Alike

theorem refl (hroot : ∃ owner table, a.tree [] = some (.dir owner table)) : a.Alike u a where
  free := rfl
  tree p := by
    cases a.tree p with
    | none => exact .none
    | some node => exact .some (Node.Alike.refl node)
  root := hroot

theorem tree_eq_none_iff (h : a.Alike u a') (p : Path) : a.tree p = none ↔ a'.tree p = none := by
  have ht := h.tree p
  generalize a.tree p = o at ht
  generalize a'.tree p = o' at ht
  cases ht <;> simp

theorem owned_iff (h : a.Alike u a') : a.Owned user p ↔ a'.Owned user p := by
  have howner (q : Path) : (a.tree q).map Node.owner = (a'.tree q).map Node.owner := by
    have ht := h.tree q
    generalize a.tree q = o at ht
    generalize a'.tree q = o' at ht
    cases ht with
    | none => rfl
    | some hn => rw [Option.map_some, Option.map_some, hn.owner_eq]
  have hiff (b : AbstractFs) : b.Owned user p ↔
      ∀ q, q <+: p → q ≠ [] → ∀ o, (b.tree q).map Node.owner = some o → o = user := by
    constructor
    · intro hb q hq hne o ho
      obtain ⟨node, hnode, rfl⟩ := Option.map_eq_some_iff.mp ho
      exact hb q node hq hne hnode
    · intro hb q node hq hne hnode
      exact hb q hq hne node.owner (by rw [hnode, Option.map_some])
  simp only [hiff, howner]

theorem find (h : a.Alike u a') (user : Bytes) (p : Path) :
    Option.Rel (Node.Alike u) (a.find user p) (a'.find user p) := by
  rw [AbstractFs.find, AbstractFs.find]
  by_cases ho : a.Owned user p
  · rw [if_pos ho, if_pos (h.owned_iff.mp ho)]
    exact h.tree p
  · rw [if_neg ho, if_neg fun ho' => ho (h.owned_iff.mpr ho')]
    exact .none

/-- The same node is changed in both file systems. -/
theorem setNode (h : a.Alike u a') {node node' : Option Node}
    (hnode : Option.Rel (Node.Alike u) node node')
    (hroot : p = [] → ∃ owner table, node = some (.dir owner table)) {free free' : ℕ}
    (hfree : free = free') :
    AbstractFs.Alike u { a.setNode p node with free := free }
      { a'.setNode p node' with free := free' } where
  free := hfree
  tree q := by
    by_cases hq : q = p
    · simp only [AbstractFs.setNode, hq, update_self]
      exact hnode
    · simp only [AbstractFs.setNode, update_of_ne hq]
      exact h.tree q
  root := by
    by_cases hp : p = []
    · obtain ⟨owner, table, rfl⟩ := hroot hp
      refine ⟨owner, table, ?_⟩
      simp only [AbstractFs.setNode, hp, update_self]
    · simp only [AbstractFs.setNode, update_of_ne (Ne.symm hp)]
      exact h.root

/-- A file that a user can access belongs to the user. -/
theorem owner_of_find (h : a.Alike u a') {owner : Bytes} {contents : List Block}
    (hfind : a.find user p = some (.file owner contents)) : p ≠ [] ∧ owner = user := by
  obtain ⟨htree, hown⟩ := AbstractFs.find_eq_some.mp hfind
  have hp : p ≠ [] := by
    rintro rfl
    obtain ⟨o, t, hroot⟩ := h.root
    exact absurd (htree.symm.trans hroot) (by simp)
  exact ⟨hp, hown p _ (List.prefix_refl p) hp htree⟩

/-! ### Requests -/

/-- The effects of two requests of a user, and the responses that the user gets. -/
structure Outcome (u user : Bytes) (out out' : AbstractFs × Response) : Prop where
  alike : out.1.Alike u out'.1
  none_iff : out.2 = none ↔ out'.2 = none
  eq : user = u → out.2 = out'.2

theorem Outcome.of_eq {r r' : Response} (h : a.Alike u a') (hr : r = r') :
    Outcome u user (a, r) (a', r') :=
  ⟨h, by rw [hr], fun _ => hr⟩

theorem readblock (h : a.Alike u a') (user : Bytes) (p : Path) (k : ℕ) :
    Outcome u user (a.readblock user p k) (a'.readblock user p k) := by
  rw [AbstractFs.readblock, AbstractFs.readblock]
  have hf := h.find user p
  have howner (owner : Bytes) (contents : List Block)
      (hfind : a.find user p = some (.file owner contents)) := h.owner_of_find hfind
  generalize a.find user p = o at hf howner
  generalize a'.find user p = o' at hf
  cases hf with
  | none => exact .of_eq h rfl
  | some hn =>
    cases hn with
    | dir owner table => exact .of_eq h rfl
    | file owner contents contents' hlen heq =>
      refine ⟨h, ?_, fun hu => ?_⟩
      · simp only [Option.map_eq_none_iff, List.getElem?_eq_none_iff, hlen]
      · simp only [heq ((howner _ _ rfl).2.trans hu)]

theorem writeblock (h : a.Alike u a') (user : Bytes) (p : Path) (k : ℕ) (buf buf' : Block)
    (hbuf : user = u → buf = buf') :
    Outcome u user (a.writeblock user p k buf) (a'.writeblock user p k buf') := by
  rw [AbstractFs.writeblock, AbstractFs.writeblock]
  have hf := h.find user p
  have howner (owner : Bytes) (contents : List Block)
      (hfind : a.find user p = some (.file owner contents)) := h.owner_of_find hfind
  generalize a.find user p = o at hf howner
  generalize a'.find user p = o' at hf
  cases hf with
  | none => exact .of_eq h rfl
  | some hn =>
    cases hn with
    | dir owner table => exact .of_eq h rfl
    | file owner contents contents' hlen heq =>
      obtain ⟨hp, hou⟩ := howner _ _ rfl
      dsimp only
      rw [← hlen, ← h.free]
      split_ifs with hlt hgrow
      · refine .of_eq (h.setNode (.some (.file owner _ _ ?_ fun hu => ?_)) (fun h0 => absurd h0 hp)
          h.free) rfl
        · rw [List.length_set, List.length_set, hlen]
        · rw [heq hu, hbuf (hou.symm.trans hu)]
      · refine .of_eq (h.setNode (.some (.file owner _ _ ?_ fun hu => ?_)) (fun h0 => absurd h0 hp)
          rfl) rfl
        · rw [List.length_append, List.length_append, hlen]
          rfl
        · rw [heq hu, hbuf (hou.symm.trans hu)]
      · exact .of_eq h rfl

theorem create (h : a.Alike u a') (user : Bytes) (p : Path) (name : Bytes) (type : UInt8) :
    Outcome u user (a.create user p name type) (a'.create user p name type) := by
  rw [AbstractFs.create, AbstractFs.create]
  have hf := h.find user p
  have hname := h.tree_eq_none_iff (p ++ [name])
  generalize a.find user p = o at hf
  generalize a'.find user p = o' at hf
  cases hf with
  | none => exact .of_eq h rfl
  | some hn =>
    cases hn with
    | file owner contents contents' hlen heq => exact .of_eq h rfl
    | dir owner table =>
      have hset (t : Table) (free : ℕ) : AbstractFs.Alike u
          { (a.setNode p (some (.dir owner t))).setNode (p ++ [name])
              (some (.empty type user)) with free := free }
          { (a'.setNode p (some (.dir owner t))).setNode (p ++ [name])
              (some (.empty type user)) with free := free } :=
        (h.setNode (.some (.dir owner t)) (fun _ => ⟨owner, t, rfl⟩) h.free).setNode
          (.some (Node.Alike.refl _)) (fun h0 => absurd h0 (by simp)) rfl
      dsimp only
      simp only [ne_eq, hname, ← h.free]
      split_ifs with h₁ h₂ h₃ h₄
      · exact .of_eq (hset _ _) rfl
      · exact .of_eq h rfl
      · exact .of_eq (hset _ _) rfl
      · exact .of_eq h rfl
      · exact .of_eq h rfl

theorem delete (h : a.Alike u a') (user : Bytes) (p : Path) (name : Bytes) :
    Outcome u user (a.delete user p name) (a'.delete user p name) := by
  rw [AbstractFs.delete, AbstractFs.delete]
  have hf := h.find user p
  have ht := h.tree (p ++ [name])
  generalize a.find user p = o at hf
  generalize a'.find user p = o' at hf
  generalize a.tree (p ++ [name]) = q at ht
  generalize a'.tree (p ++ [name]) = q' at ht
  cases hf with
  | none => exact .of_eq h rfl
  | some hn =>
    cases hn with
    | file owner contents contents' hlen heq => exact .of_eq h rfl
    | dir owner table =>
      cases ht with
      | none => exact .of_eq h rfl
      | some hn =>
        dsimp only
        rw [← hn.owner_eq, ← hn.removable_iff, ← hn.blocks_eq, ← h.free]
        split_ifs with hdel
        · refine .of_eq ((h.setNode (.some (.dir owner _)) (fun _ => ⟨owner, _, rfl⟩)
            h.free).setNode
            .none (fun h0 => absurd h0 (by simp)) rfl) rfl
        · exact .of_eq h rfl

/-- One request: the user `u` cannot tell the file systems apart afterwards, and gets the same
response. -/
theorem apply (h : a.Alike u a') (hsame : SameBut u req req') (hfits : req.Fits)
    (hfits' : req'.Fits) : Outcome u req.username (a.apply req) (a'.apply req') := by
  have hcstr : cstr req.username = req.username := cstr_of_notMem hfits.no_nul
  cases hsame with
  | refl =>
    cases req with
    | readblock r =>
      have hr := h.readblock (cstr r.username) (r.path.map cstr) r.block.toNat
      exact ⟨hr.alike, hr.none_iff, fun hu => hr.eq (hcstr.trans hu)⟩
    | writeblock r =>
      obtain ⟨buf, hdata⟩ := hfits.data r rfl
      have hr := h.writeblock (cstr r.username) (r.path.map cstr) r.block.toNat buf buf
        fun _ => rfl
      simp only [AbstractFs.apply, hdata]
      exact ⟨hr.alike, hr.none_iff, fun hu => hr.eq (hcstr.trans hu)⟩
    | create r =>
      simp only [AbstractFs.apply]
      split
      · next name hlast =>
        have hr := h.create (cstr r.username) (r.path.dropLast.map cstr) (cstr name) r.type
        exact ⟨hr.alike, hr.none_iff, fun hu => hr.eq (hcstr.trans hu)⟩
      · exact .of_eq h rfl
    | delete r =>
      simp only [AbstractFs.apply]
      split
      · next name hlast =>
        have hr := h.delete (cstr r.username) (r.path.dropLast.map cstr) (cstr name)
        exact ⟨hr.alike, hr.none_iff, fun hu => hr.eq (hcstr.trans hu)⟩
      · exact .of_eq h rfl
  | data r data hne =>
    obtain ⟨buf, hdata⟩ := hfits.data r rfl
    obtain ⟨buf', hdata'⟩ : ∃ buf', data = some buf' := hfits'.data { r with data := data } rfl
    have hr := h.writeblock (cstr r.username) (r.path.map cstr) r.block.toNat buf buf'
      fun hu => absurd (hcstr.symm.trans hu) hne
    simp only [AbstractFs.apply, hdata, hdata']
    exact ⟨hr.alike, hr.none_iff, fun hu => absurd hu hne⟩

/-- A sequence of requests. -/
theorem applyAll (h : a.Alike u a') {reqs reqs' : List Request}
    (hsame : List.Forall₂ (SameBut u) reqs reqs') (hfits : ∀ req ∈ reqs, req.Fits)
    (hfits' : ∀ req ∈ reqs', req.Fits) {k : ℕ} (hreq : reqs[k]? = some req)
    (huser : req.username = u) : (a.applyAll reqs).2[k]? = (a'.applyAll reqs').2[k]? := by
  induction hsame generalizing a a' k with
  | nil => rfl
  | @cons r r' reqs reqs' hr _ ih =>
    obtain ⟨hf, hfits⟩ := List.forall_mem_cons.mp hfits
    obtain ⟨hf', hfits'⟩ := List.forall_mem_cons.mp hfits'
    have hout := h.apply hr hf hf'
    cases k with
    | zero =>
      obtain rfl := Option.some.inj hreq
      rw [AbstractFs.applyAll, AbstractFs.applyAll, List.getElem?_cons_zero,
        List.getElem?_cons_zero, hout.eq huser]
    | succ k => exact ih hout.alike hfits hfits' hreq

end AbstractFs.Alike

/-! ### Two runs of the server -/

theorem WellFormed.alike_abs {d : Disk} (hwf : WellFormed d) : (abs d).Alike u (abs d) := by
  have hroot : (inodeAt d 0).type ≠ fileType := by
    rw [hwf.root]
    decide
  have htree : (abs d).tree [] = some (.dir (arrayStr (inodeAt d 0).owner)
      ((inodeAt d 0).used.map (rowAt d))) := by
    rw [abs_tree_of_resolve (b := 0) rfl, nodeAt_of_not_file hroot]
  exact .refl ⟨_, _, htree⟩

/-- Two runs of the server from one disk, with requests that differ at most in the data that users
other than `u` write: the user `u` gets the same responses. -/
theorem executeAll_isolation (u : Bytes) (d : Disk) (hwf : WellFormed d)
    (garbage garbage' : ℕ → FsInode) (reqs reqs' : List Request)
    (hreqs : ∀ req ∈ reqs, Accepted req) (hreqs' : ∀ req ∈ reqs', Accepted req)
    (hsame : List.Forall₂ (SameBut u) reqs reqs') :
    ∃ free resps s resps' s', fsInit d = some free ∧
      executeAll 0 (boot d free garbage) reqs = some (resps, s) ∧
      executeAll 0 (boot d free garbage') reqs' = some (resps', s') ∧
      ∀ (k : ℕ) (req : Request), reqs[k]? = some req → req.username = u →
        resps[k]? = resps'[k]? := by
  obtain ⟨free, hinit, -, -⟩ := exists_fsInit hwf
  obtain ⟨resps, s, hall, -, happly⟩ := (quiet_boot hwf hinit garbage).executeAll hreqs 0
  obtain ⟨resps', s', hall', -, happly'⟩ := (quiet_boot hwf hinit garbage').executeAll hreqs' 0
  refine ⟨free, resps, s, resps', s', hinit, hall, hall', fun k req hk huser => ?_⟩
  have heq := hwf.alike_abs.applyAll hsame (fun r hr => (hreqs r hr).fits)
    (fun r hr => (hreqs' r hr).fits) hk huser
  have happly₁ : (abs d).applyAll reqs = (abs s.disk, resps) := happly
  have happly₂ : (abs d).applyAll reqs' = (abs s'.disk, resps') := happly'
  rwa [happly₁, happly₂] at heq

/-- The request of a user to write a block of the file `/a`. -/
def writeRequest (user : Bytes) (buf : Block) : Request :=
  .writeblock ⟨user, [ascii "a"], 0, some buf⟩

theorem accepted_writeRequest (buf : Block) : Accepted (writeRequest (ascii "v") buf) :=
  ⟨ascii "FS_WRITEBLOCK v /a 0", .writeblock ⟨ascii "v", [ascii "a"], 0, none⟩, buf, by decide, rfl⟩

theorem executeAll_isolation_emptyDisk :
    ∃ free resps s resps' s', fsInit emptyDisk = some free ∧
      executeAll 0 (boot emptyDisk free fun _ => inodeAt emptyDisk 0)
        [writeRequest (ascii "v") (Vector.replicate 512 0), createRequest] = some (resps, s) ∧
      executeAll 0 (boot emptyDisk free fun _ => inodeAt emptyDisk 0)
        [writeRequest (ascii "v") (Vector.replicate 512 1), createRequest] = some (resps', s') ∧
      resps[1]? = resps'[1]? := by
  obtain ⟨free, resps, s, resps', s', hinit, hall, hall', heq⟩ := executeAll_isolation (ascii "u")
    emptyDisk wellFormed_emptyDisk (fun _ => inodeAt emptyDisk 0) (fun _ => inodeAt emptyDisk 0)
    [writeRequest (ascii "v") (Vector.replicate 512 0), createRequest]
    [writeRequest (ascii "v") (Vector.replicate 512 1), createRequest]
    (List.forall_mem_cons.mpr ⟨accepted_writeRequest _,
      List.forall_mem_singleton.mpr accepted_createRequest⟩)
    (List.forall_mem_cons.mpr ⟨accepted_writeRequest _,
      List.forall_mem_singleton.mpr accepted_createRequest⟩)
    (.cons (.data ⟨ascii "v", [ascii "a"], 0, some (Vector.replicate 512 0)⟩
      (some (Vector.replicate 512 1)) (by decide)) (.cons (.refl _) .nil))
  exact ⟨free, resps, s, resps', s', hinit, hall, hall', heq 1 createRequest rfl rfl⟩

end OsFromScratch.FileServer
