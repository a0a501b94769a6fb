import OsFromScratch.FileServer.Networking

/-!
# Protection

What belongs to a user, and everything below it, is changed by requests of this user only, whatever
other requests are in flight.

## Main definitions

* `AbstractFs.Below` — a path that is below a node of a user, or is one.
* `AbstractFs.Protected` — two trees that agree below the nodes of a user.
* `ServerPool.Silent` — no request of a user is in flight.

## Main results

* `AbstractFs.owned_of_apply_ne` — a request only changes nodes whose path belongs to the user.
* `ServerSound.abs_step` — what a step of the server does to the tree.
* `serverRun_protected` — a part of the tree whose owner makes no request.
-/

namespace OsFromScratch.FileServer

open Function

variable {a a' a₀ : AbstractFs} {req : Request} {p q : Path} {u user name : Bytes}
  {c c' : ServerPool} {η : List Entry} {gs : ℕ → Ghost} {l : ServerLabel}
  {tr tr' : List ServerLabel}

namespace AbstractFs

/-- Some node on the path other than the root belongs to the user. -/
def Below (a : AbstractFs) (u : Bytes) (p : Path) : Prop :=
  ∃ q node, q <+: p ∧ q ≠ [] ∧ a.tree q = some node ∧ node.owner = u

theorem Owned.not_below (h : a.Owned user p) (hne : user ≠ u) : ¬a.Below u p := by
  rintro ⟨q, node, hq, hq₀, hnode, hu⟩
  exact hne ((h q node hq hq₀ hnode).symm.trans hu)

/-- A path whose last node belongs to the user or does not exist. -/
theorem Owned.concat (h : a.Owned user p)
    (hlast : ∀ node, a.tree (p ++ [name]) = some node → node.owner = user) :
    a.Owned user (p ++ [name]) := by
  intro q node hq hne hnode
  rcases List.prefix_concat_iff.mp hq with rfl | hq
  · exact hlast node hnode
  · exact h q node hq hne hnode

/-- Two nodes that may change. -/
theorem setNode_setNode_tree {x y : Option Node} {f : ℕ} {q₁ q₂ : Path}
    (h : ({ (a.setNode q₁ x).setNode q₂ y with free := f } : AbstractFs).tree p ≠ a.tree p) :
    p = q₁ ∨ p = q₂ := by
  by_contra hne
  obtain ⟨h₁, h₂⟩ := not_or.mp hne
  refine h ?_
  simp only [setNode]
  rw [update_of_ne h₂, update_of_ne h₁]

theorem setNode_tree {x : Option Node} {f : ℕ} {q : Path}
    (h : ({ a.setNode q x with free := f } : AbstractFs).tree p ≠ a.tree p) : p = q := by
  by_contra hne
  exact h (update_of_ne hne ..)

theorem owned_of_writeblock_ne {k : ℕ} {buf : Block}
    (h : (a.writeblock user q k buf).1.tree p ≠ a.tree p) : a.Owned user p := by
  rw [writeblock] at h
  split at h
  · next owner contents hfind =>
    obtain ⟨-, howned⟩ := find_eq_some.mp hfind
    split_ifs at h
    · obtain rfl : p = q := setNode_tree (f := a.free) h
      exact howned
    · obtain rfl := setNode_tree h
      exact howned
    · exact absurd rfl h
  · exact absurd rfl h

theorem owned_of_create_ne {type : UInt8}
    (h : (a.create user q name type).1.tree p ≠ a.tree p) : a.Owned user p := by
  rw [create] at h
  split at h
  · next owner table hfind =>
    obtain ⟨-, howned⟩ := find_eq_some.mp hfind
    split_ifs at h with hex
    · exact absurd rfl h
    all_goals
      have hnone : a.tree (q ++ [name]) = none := not_not.mp hex
      first
      | exact absurd rfl h
      | rcases setNode_setNode_tree h with rfl | rfl
        · exact howned
        · exact howned.concat fun node hnode => absurd (hnone.symm.trans hnode) (by simp)
  · exact absurd rfl h

theorem owned_of_delete_ne (h : (a.delete user q name).1.tree p ≠ a.tree p) : a.Owned user p := by
  rw [delete] at h
  split at h
  · next owner table node hfind hnode =>
    obtain ⟨-, howned⟩ := find_eq_some.mp hfind
    split_ifs at h with hdel
    · rcases setNode_setNode_tree h with rfl | rfl
      · exact howned
      · refine howned.concat fun node' hnode' => ?_
        rw [← Option.some.inj (hnode.symm.trans hnode'), hdel.1]
    · exact absurd rfl h
  · exact absurd rfl h

/-- A request only changes nodes whose path belongs to the user. -/
theorem owned_of_apply_ne (h : (a.apply req).1.tree p ≠ a.tree p) :
    a.Owned (cstr req.username) p := by
  cases req with
  | readblock r =>
    refine absurd ?_ h
    simp only [apply, readblock]
    split <;> rfl
  | writeblock r =>
    simp only [apply] at h
    split at h
    · exact owned_of_writeblock_ne h
    · exact absurd rfl h
  | create r =>
    simp only [apply] at h
    split at h
    · exact owned_of_create_ne h
    · exact absurd rfl h
  | delete r =>
    simp only [apply] at h
    split at h
    · exact owned_of_delete_ne h
    · exact absurd rfl h

/-- The tree below the nodes of `u` is the same. -/
def Protected (u : Bytes) (a a' : AbstractFs) : Prop :=
  ∀ p, a.Below u p → a'.tree p = a.tree p

theorem Below.of_protected (h : Protected u a a') (hp : a.Below u p) : a'.Below u p := by
  obtain ⟨q, node, hq, hne, hnode, hu⟩ := hp
  have hq' : a.Below u q := ⟨q, node, List.prefix_refl q, hne, hnode, hu⟩
  exact ⟨q, node, hq, hne, (h q hq').trans hnode, hu⟩

theorem Protected.trans {a'' : AbstractFs} (h : Protected u a a') (h' : Protected u a' a'') :
    Protected u a a'' :=
  fun p hp => (h' p (hp.of_protected h)).trans (h p hp)

/-- Requests of other users change nothing below the nodes of `u`. -/
theorem protected_apply (hne : cstr req.username ≠ u) : Protected u a (a.apply req).1 := by
  intro p hp
  by_contra h
  exact (owned_of_apply_ne h).not_below hne hp

end AbstractFs

open AbstractFs

/-- A step of the server has no effect on the tree, or the whole effect of a request that has not
returned. -/
theorem ServerSound.abs_step (h : ServerSound a₀ c η gs) (hstep : ServerStep c l c') :
    abs c'.state.disk = abs c.state.disk ∨ ∃ (req : {req : Request // Accepted req})
      (p : FsProg Response), c.threads[l.thread]? = some (req, p) ∧ (∀ r, p ≠ .ret r) ∧
        abs c'.state.disk = ((abs c.state.disk).apply req.val).1 := by
  cases hstep' : hstep with
  | start req => exact Or.inl rfl
  | act i req o k r s' hi hs =>
    obtain ⟨η', gs', hlabel, h', -⟩ := Protocol.Sound.step h canStart hstep
    subst hstep'
    have hguar : Guar i o r gs η η' := hlabel
    have hinv : Inv a₀ c.state η gs := h.inv
    have hinv' : Inv a₀ s' η' gs' := h'.inv
    have htag : (gs i).req = some req.val := h.tag i req _ hi
    rcases hguar with ⟨rfl, -⟩ | ⟨e, rfl, -, hreq, -, -⟩
    · exact Or.inl (hinv'.hist.legal.unique hinv.hist.legal)
    · obtain ⟨a, ha, -, hlast⟩ := hinv'.hist.legal.concat
      obtain rfl := ha.unique hinv.hist.legal
      rcases hlast with ⟨-, happly⟩ | ⟨-, -, heq⟩
      · refine Or.inr ⟨req, _, hi, by simp, ?_⟩
        rw [Option.some.inj (htag.symm.trans hreq), happly]
      · exact Or.inl heq

/-- Every request of the user that has been started in `c'` has returned in `c`. -/
def ServerPool.Silent (u : Bytes) (c c' : ServerPool) : Prop :=
  ∀ (i : ℕ) (req : {req : Request // Accepted req}) (p : FsProg Response),
    c'.threads[i]? = some (req, p) → cstr req.val.username = u →
      ∃ r, c.threads[i]? = some (req, .ret r)

theorem ServerSound.protected_run (h : ServerSound a₀ c η gs) (hrun : ServerRun c tr c')
    (hsilent : ServerPool.Silent u c c') :
    Protected u (abs c.state.disk) (abs c'.state.disk) := by
  induction hrun with
  | nil => exact fun p _ => rfl
  | @snoc c₁ c₂ tr l hrun hstep ih =>
    obtain ⟨η₁, gs₁, -, h₁⟩ : ∃ (η₁ : List Entry) (gs₁ : ℕ → Ghost), ServerHist a₀ tr η η₁ ∧
      ServerSound a₀ c₁ η₁ gs₁ := Protocol.Sound.run h canStart hrun
    have hbefore := ih fun i req p hi hu => by
      obtain ⟨q, hq⟩ := hstep.thread hi
      exact hsilent i req q hq hu
    rcases h₁.abs_step hstep with heq | ⟨req, p, hi, hne, heq⟩
    · rw [heq]
      exact hbefore
    · rw [heq]
      refine hbefore.trans (protected_apply fun hu => ?_)
      -- a request of the user would have returned
      obtain ⟨q, hq⟩ := hstep.thread hi
      obtain ⟨r, hr⟩ := hsilent _ req q hq hu
      have hret := hrun.thread_ret hr
      exact hne r (Prod.mk.inj (Option.some.inj (hi.symm.trans hret))).2

/-- What is below a node of a user remains as it is while no request of this user is in flight,
whatever the requests of other users do: what can be found there, the contents of files, and
what does not exist. -/
theorem serverRun_protected (d : Disk) (hwf : WellFormed d) (garbage : ℕ → FsInode)
    (free : List BlockNo) (hinit : fsInit d = some free) (tr : List ServerLabel) (c : ServerPool)
    (hrun : ServerRun ⟨boot d free garbage, []⟩ tr c) (tr' : List ServerLabel) (c' : ServerPool)
    (hrun' : ServerRun c tr' c') (u : Bytes) (hsilent : ServerPool.Silent u c c') (p : Path)
    (hp : (abs c.state.disk).Below u p) :
    (abs c'.state.disk).tree p = (abs c.state.disk).tree p := by
  obtain ⟨η, gs, -, hsound⟩ := (quiet_boot hwf hinit garbage).run hrun
  exact hsound.protected_run hrun' hsilent p hp

/-- The request of the user `v` to delete the file `/a`. -/
def deleteRequest : Request :=
  .delete ⟨ascii "v", [ascii "a"]⟩

theorem accepted_deleteRequest : Accepted deleteRequest :=
  ⟨ascii "FS_DELETE v /a", deleteRequest, Vector.replicate 512 0, by decide, rfl⟩

theorem serverRun_protected_deleteRequest :
    ∃ (s s' : State) (r r' : Response) (tr : List ServerLabel),
      ServerRun ⟨s, [(⟨createRequest, accepted_createRequest⟩, .ret r)]⟩ tr
        ⟨s', [(⟨createRequest, accepted_createRequest⟩, .ret r),
          (⟨deleteRequest, accepted_deleteRequest⟩, .ret r')]⟩ ∧
      (abs s.disk).tree [ascii "a"] = some (.empty fileType (ascii "u")) ∧
      (abs s'.disk).tree [ascii "a"] = (abs s.disk).tree [ascii "a"] := by
  obtain ⟨free, hinit, -, -⟩ := exists_fsInit wellFormed_emptyDisk
  obtain ⟨tr, r, s, hrun, happly⟩ := (quiet_boot wellFormed_emptyDisk hinit
    fun _ => inodeAt emptyDisk 0).exists_serverRun accepted_createRequest
  have htree : (abs s.disk).tree [ascii "a"] = some (.empty fileType (ascii "u")) := by
    have happly' : (abs emptyDisk).apply createRequest = (abs s.disk, r) := happly
    rw [apply_createRequest_emptyDisk] at happly'
    rw [← (Prod.mk.inj happly').1]
    simp only [setNode, update_self]
  have hquiet : Quiet s := quiet_of_serverRun wellFormed_emptyDisk hinit hrun
    (returned_singleton _ _ _)
  obtain ⟨r', s', hdone, -, -⟩ := hquiet.execute accepted_deleteRequest 1
  have hthread : [(⟨createRequest, accepted_createRequest⟩, .ret r),
      ((⟨deleteRequest, accepted_deleteRequest⟩ : {req : Request // Accepted req}),
        executeRequest deleteRequest)][1]? =
      some (⟨deleteRequest, accepted_deleteRequest⟩, executeRequest deleteRequest) := rfl
  obtain ⟨tr', hrun'⟩ : ∃ tr', ServerRun ⟨s, [(⟨createRequest, accepted_createRequest⟩, .ret r),
      (⟨deleteRequest, accepted_deleteRequest⟩, executeRequest deleteRequest)]⟩ tr'
      ⟨s', [(⟨createRequest, accepted_createRequest⟩, .ret r),
        (⟨deleteRequest, accepted_deleteRequest⟩, .ret r')]⟩ :=
    Pool.exists_run_of_done hthread hdone
  have hstart : ServerRun ⟨s, [(⟨createRequest, accepted_createRequest⟩, .ret r)]⟩
      [.start 1 ⟨deleteRequest, accepted_deleteRequest⟩]
      ⟨s, [(⟨createRequest, accepted_createRequest⟩, .ret r),
        (⟨deleteRequest, accepted_deleteRequest⟩, executeRequest deleteRequest)]⟩ :=
    .snoc (.nil _) (.start _ _)
  refine ⟨s, s', r, r', _, hstart.append hrun', htree, serverRun_protected emptyDisk
    wellFormed_emptyDisk (fun _ => inodeAt emptyDisk 0) free hinit tr _ hrun _ _
    (hstart.append hrun') (ascii "u") ?_ [ascii "a"] ⟨[ascii "a"], _, List.prefix_refl _, by simp,
      htree, rfl⟩⟩
  intro i req p hi hu
  rcases i with _ | _ | i
  · obtain ⟨rfl, -⟩ := Prod.mk.inj (Option.some.inj hi)
    exact ⟨r, rfl⟩
  · obtain ⟨rfl, -⟩ := Prod.mk.inj (Option.some.inj hi)
    exact absurd hu (by decide)
  · exact absurd hi (by simp)

end OsFromScratch.FileServer
