import OsFromScratch.FileServer.Delete
import OsFromScratch.FileServer.Init
import OsFromScratch.FileServer.Parsing

/-!
# The server

The requests that the server executes, and the states it starts from. Every accepted request keeps
the protocol, whatever other requests are in flight; a request that fails without looking at the
tree has its effect when it is started.

## Main definitions

* `Accepted` — the requests that `handle_connection` passes to `execute_request`.
* `boot` — the state after `fs_init`.
* `Quiet` — a state in which no request is in flight.

## Main results

* `quiet_boot` — the server starts in a quiet state.
* `canStart` — every accepted request keeps the protocol.
* `Inv.quiet` — when every request has returned, the state is quiet.
-/

namespace OsFromScratch.FileServer

open Function

/-- A request parsed from a header, with a block of data for a `FS_WRITEBLOCK`. -/
def Accepted (req : Request) : Prop :=
  ∃ msg parsed buf, parseRequest msg = .ok (some parsed) ∧ req = parsed.setData (some buf)

/-- What the file system code relies on. -/
structure Request.Fits (req : Request) : Prop where
  no_nul : 0 ∉ req.username
  username : req.username.length ≤ fsMaxusername
  path : ∀ node ∈ req.path, node.length ≤ fsMaxfilename
  type : ∀ r, req = .create r → r.type = fileType ∨ r.type = dirType
  data : ∀ r, req = .writeblock r → ∃ buf, r.data = some buf

/-- Accepted requests keep the limits of `fs_param.h`. -/
theorem Accepted.fits {req : Request} (h : Accepted req) : req.Fits := by
  obtain ⟨msg, parsed, buf, hparse, rfl⟩ := h
  obtain ⟨cmd, username, rest, args, htok, huser, -, -, hnames, hargs⟩ := parseRequest_cases hparse
  have hnul : 0 ∉ username := by
    have hmem : username ∈ split msg spaceChar := by simp [htok]
    intro h0
    exact zero_notMem_cstr msg (mem_of_mem_getlines h0 hmem)
  rcases parseArguments_cases hargs with ⟨arg, b, -, -, -, rfl⟩ | ⟨arg, b, -, -, -, rfl⟩ |
    ⟨type, -, -, htype, rfl⟩ | ⟨-, -, rfl⟩
  · exact ⟨hnul, huser, hnames, by simp [Request.setData], by simp [Request.setData]⟩
  · refine ⟨hnul, huser, hnames, by simp [Request.setData], ?_⟩
    rintro r ⟨⟩
    exact ⟨buf, rfl⟩
  · refine ⟨hnul, huser, hnames, ?_, by simp [Request.setData]⟩
    rintro r ⟨⟩
    exact htype
  · exact ⟨hnul, huser, hnames, by simp [Request.setData], by simp [Request.setData]⟩

theorem length_cstr_le (s : Bytes) : (cstr s).length ≤ s.length :=
  (List.takeWhile_prefix _).length_le

/-! ### States without requests in flight -/

/-- The state after `fs_init` has filled the free list. -/
def boot (d : Disk) (free : List BlockNo) (garbage : ℕ → FsInode) : State :=
  ⟨d, free, LockTable.empty, garbage⟩

/-- A state in which no request is in flight. -/
def Quiet (s : State) : Prop :=
  Inv (abs s.disk) s [] fun _ => Ghost.idle

variable {a₀ : AbstractFs} {s : State} {η : List Entry} {gs : ℕ → Ghost} {i : ℕ} {d : Disk}
  {req : Request}

theorem Ghost.ok_idle : Ghost.idle.Ok :=
  ⟨by simp [Ghost.idle], by simp [Ghost.idle, Claims.none], by simp [Ghost.idle]⟩

theorem histInv_nil (a : AbstractFs) : HistInv a [] a fun _ => Ghost.idle :=
  ⟨.nil, fun _ => ⟨by simp, by simp [Ghost.idle]⟩⟩

/-- A thread that holds nothing knows nothing. -/
theorem ThreadInv.of_nothing {g : Ghost} {drained : BlockNo → Prop} (hholds : g.holds = [])
    (hpos : g.pos = none) (hpriv : g.priv = []) (hdrain : g.drain = none) :
    ThreadInv d drained g :=
  ⟨by simp [hholds], by simp [hholds], by simp [hdrain], by simp [hpos], by simp [hpriv]⟩

theorem Quiet.wf (h : Quiet s) : WellFormed s.disk :=
  Inv.wf h

/-- In a quiet state the free list holds every unused block once. -/
theorem Quiet.free (h : Quiet s) :
    s.freeDiskBlocks.Nodup ∧ ∀ x, x ∈ s.freeDiskBlocks ↔ x ∈ unused s.disk := by
  refine ⟨h.blocks.nodup none, fun x => ?_⟩
  rw [h.blocks.mem_iff x]
  constructor
  · exact fun hx => ⟨none, hx⟩
  · rintro ⟨p, hp⟩
    cases p with
    | none => exact hp
    | some j => exact absurd hp (List.not_mem_nil)

/-- The server starts in a quiet state. -/
theorem quiet_boot (hwf : WellFormed d) {free : List BlockNo} (hinit : fsInit d = some free)
    (garbage : ℕ → FsInode) : Quiet (boot d free garbage) := by
  obtain ⟨free', hinit', hnodup, hmem⟩ := exists_fsInit hwf
  obtain rfl := Option.some.inj (hinit.symm.trans hinit')
  refine ⟨LockTable.Inv.empty, fun i => Ghost.ok_idle,
    hwf, ⟨fun p => ?_, fun p q x hp hq => ?_, fun x => ?_⟩,
    fun i => ThreadInv.of_nothing rfl rfl rfl rfl, histInv_nil _⟩
  · cases p with
    | none => exact hnodup
    | some j => exact List.nodup_nil
  · cases p with
    | none =>
      cases q with
      | none => rfl
      | some k => exact absurd hq (List.not_mem_nil)
    | some j => exact absurd hp (List.not_mem_nil)
  · change x ∈ unused d ↔ _
    rw [← hmem]
    constructor
    · exact fun hx => ⟨none, hx⟩
    · rintro ⟨p, hp⟩
      cases p with
      | none => exact hp
      | some j => exact absurd hp (List.not_mem_nil)

/-- When every request has returned, the state is quiet. -/
theorem Inv.quiet (hinv : Inv a₀ s η gs)
    (hgs : ∀ j, gs j = Ghost.idle ∨ ∃ req r, gs j = Ghost.done req r) : Quiet s := by
  have hclaims : (fun j => (gs j).claims) = fun _ => Claims.none := by
    funext j
    rcases hgs j with h | ⟨req, r, h⟩
    · rw [h]
      rfl
    · rw [h]
      rfl
  have hplace : place s.freeDiskBlocks (fun _ => Ghost.idle) = place s.freeDiskBlocks gs := by
    funext p
    cases p with
    | none => rfl
    | some j =>
      rcases hgs j with h | ⟨req, r, h⟩
      · simp only [place, h]
      · simp only [place, h]
        rfl
  refine ⟨?_, fun i => Ghost.ok_idle, hinv.wf, ?_,
    fun i => ThreadInv.of_nothing rfl rfl rfl rfl, histInv_nil _⟩
  · have h := hinv.locks
    rwa [hclaims] at h
  · rw [hplace]
    exact hinv.blocks

/-! ### Starting a request -/

/-- A request that fails without looking at the tree. -/
def Immediate : Request → Prop
  | .readblock r => r.path = [] ∨ fsMaxfileblocks ≤ r.block.toNat
  | .writeblock r => r.path = [] ∨ fsMaxfileblocks ≤ r.block.toNat
  | .create r => r.path = []
  | .delete r => r.path = []

theorem Immediate.executeRequest_eq (h : Immediate req) : executeRequest req = .ret none := by
  cases req with
  | readblock r =>
    simp only [executeRequest, executeReadblock]
    rcases h with h | h
    · rw [if_pos h]
    · rw [if_pos h, ite_self]
  | writeblock r =>
    simp only [executeRequest, executeWriteblock]
    rcases h with h | h
    · rw [if_pos h]
    · rw [if_pos h, ite_self]
  | create r =>
    have hpath : r.path = [] := h
    rw [executeRequest, executeCreate, hpath]
    rfl
  | delete r =>
    have hpath : r.path = [] := h
    rw [executeRequest, executeDelete, hpath]
    rfl

/-- The root is a directory, and a file has at most `FS_MAXFILEBLOCKS` blocks. -/
theorem WellFormed.length_contents (hwf : WellFormed d) {user owner : Bytes} {p : Path}
    {contents : List Block} (h : (abs d).find user p = some (.file owner contents)) :
    p ≠ [] ∧ contents.length ≤ fsMaxfileblocks := by
  obtain ⟨b, hb, -, hnode⟩ := find_abs_eq_some.mp h
  rw [nodeAt] at hnode
  split_ifs at hnode with hf
  obtain ⟨-, rfl⟩ := Node.file.inj hnode
  refine ⟨?_, ?_⟩
  · rintro rfl
    obtain rfl := Option.some.inj hb
    exact absurd (hwf.root.symm.trans hf) (by decide)
  · have hle := (hwf.node b ⟨p, hb⟩).size_le
    rwa [List.length_map, FsInode.length_used hle]

theorem Immediate.apply_eq (h : Immediate req) (hwf : WellFormed d) :
    (abs d).apply req = (abs d, none) := by
  cases req with
  | readblock r =>
    simp only [AbstractFs.apply, AbstractFs.readblock]
    split
    · next owner contents hfind =>
      obtain ⟨hne, hle⟩ := hwf.length_contents hfind
      have hblock := h.resolve_left fun hnil => hne (by rw [hnil, List.map_nil])
      rw [List.getElem?_eq_none (hle.trans hblock), Option.map_none]
    · rfl
  | writeblock r =>
    simp only [AbstractFs.apply]
    split
    · rw [AbstractFs.writeblock]
      split
      · next owner contents hfind =>
        obtain ⟨hne, hle⟩ := hwf.length_contents hfind
        have hblock := h.resolve_left fun hnil => hne (by rw [hnil, List.map_nil])
        rw [if_neg (by omega), if_neg (by omega)]
      · rfl
    · rfl
  | create r =>
    have hpath : r.path = [] := h
    simp only [AbstractFs.apply, hpath, List.getLast?_nil]
  | delete r =>
    have hpath : r.path = [] := h
    simp only [AbstractFs.apply, hpath, List.getLast?_nil]

/-- Every other request looks at the tree, and keeps the protocol while it does. -/
theorem wp_executeRequest (hfits : req.Fits) (h : ¬Immediate req) :
    (fsProtocol a₀).wp i (Returns req) (executeRequest req) (Ghost.start req) := by
  cases req with
  | readblock r =>
    obtain ⟨hpath, hblock⟩ := not_or.mp h
    exact wp_executeReadblock hpath (not_le.mp hblock)
  | writeblock r =>
    obtain ⟨hpath, hblock⟩ := not_or.mp h
    obtain ⟨buf, hdata⟩ := hfits.data r rfl
    exact wp_executeWriteblock hpath (not_le.mp hblock) hdata
  | create r =>
    have hlast : r.path.getLast? = some (r.path.getLast h) := List.getLast?_eq_getLast_of_ne_nil h
    have hname := hfits.path _ (List.getLast_mem h)
    have huser := hfits.username
    exact wp_executeCreate hlast
      ((length_cstr_le _).trans_lt (Nat.lt_succ_of_le huser))
      ((length_cstr_le _).trans_lt (Nat.lt_succ_of_le hname)) (hfits.type r rfl)
  | delete r =>
    have hlast : r.path.getLast? = some (r.path.getLast h) := List.getLast?_eq_getLast_of_ne_nil h
    exact wp_executeDelete hlast

/-- How the start of a request may extend the history. -/
def GuarStart (i : ℕ) (req : {req : Request // Accepted req}) (η η' : List Entry) : Prop :=
  η' = η ∨ ∃ r, η' = η ++ [⟨i, req.val, r, false⟩]

/-- A thread without a request gets one. -/
theorem Inv.startThread (hinv : Inv a₀ s η gs) (hidle : gs i = Ghost.idle) {g : Ghost}
    {η' : List Entry} (hclaims : g.claims = .none) (hholds : g.holds = []) (hpos : g.pos = none)
    (hlimbo : g.limbo = []) (hpriv : g.priv = []) (hdrain : g.drain = none)
    (hhist : HistInv a₀ η' (abs s.disk) (update gs i g)) : Inv a₀ s η' (update gs i g) := by
  have hperm : (s.freeDiskBlocks ++ g.limbo).Perm (s.freeDiskBlocks ++ (gs i).limbo) := by
    rw [hidle, hlimbo]
    exact List.Perm.refl _
  refine hinv.moveBlocks hperm ?_ ⟨by simp [hholds], ?_, by simp [hlimbo]⟩ ?_
    (ThreadInv.of_nothing hholds hpos hpriv hdrain) hhist
  · rw [hidle, hclaims]
    rfl
  · simp [hclaims, Claims.none]
  · rw [hidle, hdrain]
    rfl

/-- An accepted request is started. -/
theorem Inv.start (hinv : Inv a₀ s η gs) (hidle : gs i = Ghost.idle) (hacc : Accepted req) :
    ∃ (η' : List Entry) (g : Ghost), GuarStart i ⟨req, hacc⟩ η η' ∧ Inv a₀ s η' (update gs i g) ∧
      g.req = some req ∧ (fsProtocol a₀).wp i (Returns req) (executeRequest req) g := by
  have hnone : (gs i).lin = none := by rw [hidle]; rfl
  by_cases himm : Immediate req
  · refine ⟨η ++ [⟨i, req, none, false⟩], Ghost.done req none, Or.inr ⟨none, rfl⟩, ?_, rfl, ?_⟩
    · exact hinv.startThread hidle rfl rfl rfl rfl rfl rfl
        (hinv.hist.record hnone (himm.apply_eq hinv.wf) rfl rfl)
    · rw [himm.executeRequest_eq]
      exact Protocol.wp_ret.mpr rfl
  · refine ⟨η, Ghost.start req, Or.inl rfl, ?_, rfl, wp_executeRequest hacc.fits himm⟩
    refine hinv.startThread hidle rfl rfl rfl rfl rfl rfl ⟨hinv.hist.legal, fun j => ?_⟩
    by_cases hj : j = i
    · subst hj
      rw [update_self]
      exact ⟨fun _ => (hinv.hist.lin j).none hnone, by simp [Ghost.start]⟩
    · rw [update_of_ne hj]
      exact hinv.hist.lin j

/-- Every accepted request keeps the protocol. -/
theorem canStart : (fsProtocol a₀).CanStart
    (fun req : {req : Request // Accepted req} => executeRequest req.val) Ghost.idle
    (fun req => Returns req.val) (fun req => some req.val) GuarStart :=
  fun _ _ _ _ req hinv hidle => Inv.start hinv hidle req.property

end OsFromScratch.FileServer
