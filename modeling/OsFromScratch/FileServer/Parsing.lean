import OsFromScratch.FileServer.Request

/-!
# Parsing of request headers

`parsing.cpp`: a header is cut at its spaces, the path at its slashes, and the block number is
read by `std::stoul`. Both cuts drop a final delimiter, `std::stoul` accepts a sign, leading
blanks and trailing characters, and its result is narrowed to 32 bits before the range check.

## Main definitions

* `split`, `parseBlock`, `parseRequest` — the functions of `parsing.cpp`. `parseRequest` returns
  the exceptions that leave the function: `std::out_of_range`, from `at(0)` on an empty field and
  from `std::stoul` on a number beyond 64 bits, is not caught there.
* `CanonicalHeader` — the headers that are the text of the request they ask for.
* `EscapingHeader` — the headers for which `std::out_of_range` leaves `parseRequest`.

## Main results

* `parseRequest_requestString` — every legal request is parsed back from its text.
* `requestString_eq_iff_canonicalHeader` — a header accepted for a non-empty path is repeated
  byte for byte by `requestString` exactly when it is canonical.
* `parseRequest_ok_iff` — an exception leaves `parseRequest` exactly for the escaping headers.
-/

namespace OsFromScratch.FileServer

/-- `split`: the pieces of a C string between delimiters, without an empty one after a final
delimiter. -/
def split (msg : Bytes) (delimeter : UInt8) : List Bytes :=
  getlines delimeter (cstr msg)

/-- The block number of a `FS_READBLOCK` or `FS_WRITEBLOCK` header. Only
`std::invalid_argument` is caught. -/
def parseBlock (token : Bytes) : Except StdException (Option UInt32) :=
  match token with
  | [] => .error .outOfRange
  | c :: _ =>
    if c = 48 ∧ token.length ≠ 1 then
      .ok none
    else
      match stoul token with
      | .error .invalidArgument => .ok none
      | .error .outOfRange => .error .outOfRange
      | .ok value =>
        let block := UInt32.ofNat value
        if fsMaxfileblocks < block.toNat then .ok none else .ok (some block)

/-- The request that a command with a valid user name and path asks for; `args` are the fields
after the path. -/
def parseArguments (cmd username : Bytes) (path : Path) (args : List Bytes) :
    Except StdException (Option Request) :=
  match args with
  | [arg] =>
    if cmd = ascii "FS_READBLOCK" then do
      let block ← parseBlock arg
      return block.map fun b => .readblock ⟨username, path, b⟩
    else if cmd = ascii "FS_WRITEBLOCK" then do
      let block ← parseBlock arg
      return block.map fun b => .writeblock ⟨username, path, b, none⟩
    else if cmd = ascii "FS_CREATE" then
      if arg = ascii "f" then
        .ok (some (.create ⟨username, path, fileType⟩))
      else if arg = ascii "d" then
        .ok (some (.create ⟨username, path, dirType⟩))
      else
        .ok none
    else
      .ok none
  | [] =>
    if cmd = ascii "FS_DELETE" then .ok (some (.delete ⟨username, path⟩)) else .ok none
  | _ => .ok none

/-- `parse_request` -/
def parseRequest (msg : Bytes) : Except StdException (Option Request) :=
  match split msg spaceChar with
  | cmd :: username :: target :: args =>
    if fsMaxusername < username.length then
      .ok none
    else
      match target with
      | [] => .error .outOfRange
      | c :: rest =>
        if c ≠ slashChar ∨ (target.getLast? = some slashChar ∧ target.length ≠ 1) then
          .ok none
        else if fsMaxpathname < target.length then
          .ok none
        else
          let path := split rest slashChar
          if path.any fun node => fsMaxfilename < node.length then
            .ok none
          else
            parseArguments cmd username path args
  | _ => .ok none

/-! ### What an accepted header looks like -/

/-- `split` on a string without NUL. -/
theorem split_of_notMem {s : Bytes} (hs : 0 ∉ s) (d : UInt8) : split s d = getlines d s := by
  rw [split, cstr_of_notMem hs]

/-- The fields of an accepted header, and the checks they have passed. -/
theorem parseRequest_cases {msg : Bytes} {r : Request}
    (h : parseRequest msg = .ok (some r)) :
    ∃ cmd username rest args, split msg spaceChar = cmd :: username :: (slashChar :: rest) :: args ∧
      username.length ≤ fsMaxusername ∧
      ((slashChar :: rest).getLast? = some slashChar → rest = []) ∧
      rest.length < fsMaxpathname ∧
      (∀ node ∈ split rest slashChar, node.length ≤ fsMaxfilename) ∧
      parseArguments cmd username (split rest slashChar) args = .ok (some r) := by
  unfold parseRequest at h
  split at h
  case h_2 => simp at h
  case h_1 cmd username target args htok =>
    cases target with
    | nil =>
      split_ifs at h
      simp at h
    | cons c rest =>
      dsimp only at h
      split_ifs at h with huser hslash hlen hname
      · simp at h
      · simp at h
      · simp at h
      · simp at h
      push Not at hslash
      obtain ⟨rfl, hlast⟩ := hslash
      refine ⟨cmd, username, rest, args, htok, not_lt.mp huser, fun hl => ?_, ?_, ?_, h⟩
      · simpa using hlast hl
      · simpa using hlen
      · exact fun node hnode => not_lt.mp fun hlt =>
          hname (List.any_eq_true.mpr ⟨node, hnode, decide_eq_true hlt⟩)

theorem parseBlock_eq_some {token : Bytes} {b : UInt32} (h : parseBlock token = .ok (some b)) :
    token ≠ [] ∧ (token.head? = some 48 → token.length = 1) ∧ b.toNat ≤ fsMaxfileblocks ∧
      ∃ value, stoul token = .ok value ∧ b = UInt32.ofNat value := by
  unfold parseBlock at h
  split at h
  · simp at h
  · split_ifs at h with hzero
    · simp at h
    split at h
    · simp at h
    · simp at h
    · rename_i c _ value hval
      dsimp only at h
      split_ifs at h with hle
      · simp at h
      obtain rfl : UInt32.ofNat value = b := by simpa using h
      refine ⟨by simp, ?_, not_lt.mp hle, value, hval, rfl⟩
      intro hc
      simpa [Option.some.inj hc] using hzero

/-- The commands an accepted header can have, with their arguments. -/
theorem parseArguments_cases {cmd username : Bytes} {path : Path} {args : List Bytes}
    {r : Request} (h : parseArguments cmd username path args = .ok (some r)) :
    (∃ arg b, cmd = ascii "FS_READBLOCK" ∧ args = [arg] ∧ parseBlock arg = .ok (some b) ∧
      r = .readblock ⟨username, path, b⟩) ∨
    (∃ arg b, cmd = ascii "FS_WRITEBLOCK" ∧ args = [arg] ∧ parseBlock arg = .ok (some b) ∧
      r = .writeblock ⟨username, path, b, none⟩) ∨
    (∃ type, cmd = ascii "FS_CREATE" ∧ args = [[type]] ∧ (type = fileType ∨ type = dirType) ∧
      r = .create ⟨username, path, type⟩) ∨
    (cmd = ascii "FS_DELETE" ∧ args = [] ∧ r = .delete ⟨username, path⟩) := by
  have hblock {arg : Bytes} {f : UInt32 → Request}
      (h : (do let block ← parseBlock arg; return block.map f) = Except.ok (some r)) :
      ∃ b, parseBlock arg = .ok (some b) ∧ r = f b := by
    cases hp : parseBlock arg with
    | error e => simp [hp, bind, Except.bind] at h
    | ok o =>
      cases o with
      | none => simp [hp, bind, Except.bind, pure, Except.pure] at h
      | some b =>
        refine ⟨b, rfl, ?_⟩
        simpa [hp, bind, Except.bind, pure, Except.pure, eq_comm] using h
  unfold parseArguments at h
  split at h
  · rename_i arg
    split_ifs at h with hr hw hc hf hd
    · obtain ⟨b, hb, rfl⟩ := hblock h
      exact Or.inl ⟨arg, b, hr, rfl, hb, rfl⟩
    · obtain ⟨b, hb, rfl⟩ := hblock h
      exact Or.inr (Or.inl ⟨arg, b, hw, rfl, hb, rfl⟩)
    · refine Or.inr (Or.inr (Or.inl ⟨fileType, hc, ?_, Or.inl rfl, ?_⟩))
      · rw [hf]
        rfl
      · simpa [eq_comm] using h
    · refine Or.inr (Or.inr (Or.inl ⟨dirType, hc, ?_, Or.inr rfl, ?_⟩))
      · rw [hd]
        rfl
      · simpa [eq_comm] using h
    · simp at h
    · simp at h
  · split_ifs at h with hd
    · exact Or.inr (Or.inr (Or.inr ⟨hd, rfl, by simpa [eq_comm] using h⟩))
    · simp at h
  · simp at h

/-! ### Parsing the text of a request -/

theorem parseBlock_toDecimal {b : UInt32} (hb : b.toNat ≤ fsMaxfileblocks) :
    parseBlock (toDecimal b.toNat) = .ok (some b) := by
  obtain ⟨c, s, hcs⟩ := List.exists_cons_of_ne_nil (toDecimal_ne_nil b.toNat)
  have hlead : ¬(c = 48 ∧ (c :: s).length ≠ 1) := by
    rintro ⟨rfl, hlen⟩
    by_cases h0 : b.toNat = 0
    · rw [h0] at hcs
      exact hlen (by rw [← hcs]; rfl)
    · exact head?_toDecimal h0 (by rw [hcs]; rfl)
  have hval : stoul (c :: s) = .ok b.toNat := by
    rw [← hcs]
    exact stoul_toDecimal (lt_of_lt_of_le b.toNat_lt (by norm_num))
  rw [hcs, parseBlock, if_neg hlead, hval]
  simpa using hb

/-- The fields of a header, as `requestString` joins them. -/
def headerFields : Request → List Bytes
  | .readblock r => [ascii "FS_READBLOCK", r.username, pathToString r.path, toDecimal r.block.toNat]
  | .writeblock r =>
    [ascii "FS_WRITEBLOCK", r.username, pathToString r.path, toDecimal r.block.toNat]
  | .create r => [ascii "FS_CREATE", r.username, pathToString r.path, [r.type]]
  | .delete r => [ascii "FS_DELETE", r.username, pathToString r.path]

theorem requestString_eq_intercalate (r : Request) :
    requestString r = [spaceChar].intercalate (headerFields r) := by
  cases r <;> simp [requestString, headerFields, ascii, List.intercalate_cons_cons] <;> rfl

/-- The conditions under which the fields of a request can be cut out of its text. -/
structure Separable (r : Request) : Prop where
  username : spaceChar ∉ r.username
  path_ne_nil : r.path ≠ []
  path : ∀ node ∈ r.path, spaceChar ∉ node
  type : ∀ q, r = .create q → q.type ≠ spaceChar

theorem Separable.getLast?_headerFields {r : Request} (h : Separable r) :
    (headerFields r).getLast? ≠ some [] := by
  have hp : pathToString r.path ≠ [] := by
    rw [pathToString_eq_intercalate h.path_ne_nil]
    exact List.cons_ne_nil _ _
  cases r with
  | readblock q => simpa [headerFields] using toDecimal_ne_nil _
  | writeblock q => simpa [headerFields] using toDecimal_ne_nil _
  | create q => simp [headerFields]
  | delete q => simpa [headerFields, Request.path] using hp

theorem spaceChar_notMem_toDecimal (n : ℕ) : spaceChar ∉ toDecimal n := fun h =>
  absurd (isDigit_of_mem_toDecimal h) (by decide)

theorem Separable.notMem_headerFields {r : Request} (h : Separable r) :
    ∀ t ∈ headerFields r, spaceChar ∉ t := by
  have hp : spaceChar ∉ pathToString r.path := by
    intro hc
    rcases mem_pathToString hc with hc | ⟨node, hnode, hc⟩
    · exact absurd hc (by decide)
    · exact h.path node hnode hc
  have hu := h.username
  cases r with
  | readblock q =>
    simp only [headerFields, List.mem_cons, List.not_mem_nil, or_false, forall_eq_or_imp, forall_eq]
    exact ⟨by decide, hu, hp, spaceChar_notMem_toDecimal _⟩
  | writeblock q =>
    simp only [headerFields, List.mem_cons, List.not_mem_nil, or_false, forall_eq_or_imp, forall_eq]
    exact ⟨by decide, hu, hp, spaceChar_notMem_toDecimal _⟩
  | create q =>
    simp only [headerFields, List.mem_cons, List.not_mem_nil, or_false, forall_eq_or_imp, forall_eq]
    exact ⟨by decide, hu, hp, by simpa [eq_comm] using h.type q rfl⟩
  | delete q =>
    simp only [headerFields, List.mem_cons, List.not_mem_nil, or_false, forall_eq_or_imp, forall_eq]
    exact ⟨by decide, hu, hp⟩

/-- The text of a request is cut back into its fields. -/
theorem Separable.getlines_requestString {r : Request} (h : Separable r) :
    getlines spaceChar (requestString r) = headerFields r := by
  rw [requestString_eq_intercalate]
  exact getlines_intercalate _ h.notMem_headerFields h.getLast?_headerFields

theorem LegalPath.getLast?_node {path : Path} (h : LegalPath path) : path.getLast? ≠ some [] :=
  fun hlast => h.node_ne_nil [] (List.mem_of_getLast? hlast) rfl

/-- The written form of a legal path does not end in a slash. -/
theorem LegalPath.getLast?_pathToString {path : Path} (h : LegalPath path) :
    (pathToString path).getLast? ≠ some slashChar := by
  rw [pathToString_eq_intercalate h.ne_nil]
  obtain ⟨node, hnode⟩ : ∃ node, path.getLast? = some node :=
    ⟨_, List.getLast?_eq_some_getLast h.ne_nil⟩
  have hmem := List.mem_of_getLast? hnode
  have hlast := getLast?_intercalate (d := slashChar) hnode (h.node_ne_nil node hmem)
  intro hs
  have hne : [slashChar].intercalate path ≠ [] := by
    intro h0
    rw [h0] at hlast
    exact h.node_ne_nil node hmem (List.getLast?_eq_none_iff.mp hlast.symm)
  rw [List.getLast?_cons_of_ne_nil hne, hlast] at hs
  exact h.no_slash node hmem (List.mem_of_getLast? hs)

/-- `parseRequest` on a header with a legal user name and path. -/
theorem parseRequest_of_split {msg cmd username : Bytes} {path : Path} {args : List Bytes}
    (hmsg : split msg spaceChar = cmd :: username :: pathToString path :: args)
    (hu : LegalUsername username) (hp : LegalPath path) :
    parseRequest msg = parseArguments cmd username path args := by
  have hform := pathToString_eq_intercalate hp.ne_nil
  have hcut : split ([slashChar].intercalate path) slashChar = path := by
    have h0 : 0 ∉ [slashChar].intercalate path := by
      intro h0
      have h0' : (0 : UInt8) ∈ pathToString path := by
        rw [hform]
        exact List.mem_cons_of_mem _ h0
      rcases mem_pathToString h0' with h0' | ⟨node, hnode, h0'⟩
      · exact absurd h0' (by decide)
      · exact hp.no_nul node hnode h0'
    rw [split_of_notMem h0]
    exact getlines_intercalate path hp.no_slash hp.getLast?_node
  have hlast := hp.getLast?_pathToString
  have hlen := hp.length_le
  have hname : ¬(path.any fun node => decide (fsMaxfilename < node.length)) = true := by
    rw [List.any_eq_true]
    rintro ⟨node, hnode, hlt⟩
    exact absurd (of_decide_eq_true hlt) (not_lt.mpr (hp.node_length_le node hnode))
  rw [hform] at hmsg hlast hlen
  unfold parseRequest
  rw [hmsg]
  dsimp only
  rw [if_neg (not_lt.mpr hu.length_le), if_neg (by simp [hlast]), if_neg (not_lt.mpr hlen), hcut,
    if_neg hname]

theorem Request.Legal.separable {r : Request} (h : r.Legal) : Separable r where
  username := h.username.no_space
  path_ne_nil := h.path.ne_nil
  path := h.path.no_space
  type q hq := by
    rcases h.create_type q hq with ht | ht <;> rw [ht] <;> decide

theorem Request.Legal.zero_notMem_requestString {r : Request} (h : r.Legal) :
    0 ∉ requestString r := by
  have hp : 0 ∉ pathToString r.path := by
    intro hc
    rcases mem_pathToString hc with hc | ⟨node, hnode, hc⟩
    · exact absurd hc (by decide)
    · exact h.path.no_nul node hnode hc
  have hu := h.username.no_nul
  have hd (n : ℕ) : (0 : UInt8) ∉ toDecimal n := fun hc =>
    absurd (isDigit_of_mem_toDecimal hc) (by decide)
  cases r with
  | readblock q =>
    simp only [requestString, List.mem_append, not_or]
    exact ⟨⟨⟨⟨⟨by decide, hu⟩, by decide⟩, hp⟩, by decide⟩, hd _⟩
  | writeblock q =>
    simp only [requestString, List.mem_append, not_or]
    exact ⟨⟨⟨⟨⟨by decide, hu⟩, by decide⟩, hp⟩, by decide⟩, hd _⟩
  | create q =>
    simp only [requestString, List.mem_append, not_or]
    refine ⟨⟨⟨⟨⟨by decide, hu⟩, by decide⟩, hp⟩, by decide⟩, ?_⟩
    rcases h.create_type q rfl with ht | ht <;> rw [ht] <;> decide
  | delete q =>
    simp only [requestString, List.mem_append, not_or]
    exact ⟨⟨⟨by decide, hu⟩, by decide⟩, hp⟩

/-- **Every legal request is parsed back from its text**, with null data. -/
theorem parseRequest_requestString {r : Request} (h : r.Legal) :
    parseRequest (requestString r) = .ok (some (r.setData none)) := by
  have hsplit : split (requestString r) spaceChar = headerFields r := by
    rw [split_of_notMem h.zero_notMem_requestString]
    exact h.separable.getlines_requestString
  cases r with
  | readblock q =>
    rw [parseRequest_of_split hsplit h.username h.path]
    simp [parseArguments, parseBlock_toDecimal (h.readblock_le q rfl), Request.setData,
      bind, Except.bind, pure, Except.pure]
  | writeblock q =>
    rw [parseRequest_of_split hsplit h.username h.path]
    have hcmd : ascii "FS_WRITEBLOCK" ≠ ascii "FS_READBLOCK" := by decide
    simp [parseArguments, parseBlock_toDecimal (h.writeblock_le q rfl), Request.setData,
      bind, Except.bind, pure, Except.pure, hcmd]
  | create q =>
    rw [parseRequest_of_split hsplit h.username h.path]
    have hr : ascii "FS_CREATE" ≠ ascii "FS_READBLOCK" := by decide
    have hw : ascii "FS_CREATE" ≠ ascii "FS_WRITEBLOCK" := by decide
    have hf : ascii "f" = [fileType] := by decide
    have hd : ascii "d" = [dirType] := by decide
    have hfd : dirType ≠ fileType := by decide
    obtain ⟨username, path, type⟩ := q
    rcases h.create_type _ rfl with ht | ht
    · dsimp only at ht
      subst ht
      simp [parseArguments, Request.setData, hr, hw, hf]
    · dsimp only at ht
      subst ht
      simp [parseArguments, Request.setData, hr, hw, hf, hd, hfd]
  | delete q =>
    rw [parseRequest_of_split hsplit h.username h.path]
    simp [parseArguments, Request.setData]

/-- The text of a legal request and its NUL fit the buffer of the server. -/
theorem length_requestString_le {r : Request} (h : r.Legal) :
    (requestString r).length ≤ 13 + 1 + fsMaxusername + 1 + fsMaxpathname + 1 + 3 := by
  have hu := h.username.length_le
  have hp := h.path.length_le
  have hdec {b : UInt32} (hb : b.toNat ≤ fsMaxfileblocks) : (toDecimal b.toNat).length ≤ 3 :=
    length_toDecimal_le (by norm_num) (lt_of_le_of_lt hb (by norm_num))
  cases r with
  | readblock q =>
    have hb := hdec (h.readblock_le q rfl)
    have hcmd : (ascii "FS_READBLOCK ").length = 13 := by decide
    have hsp : (ascii " ").length = 1 := by decide
    simp only [requestString, List.length_append, hcmd, hsp, Request.username, Request.path] at *
    omega
  | writeblock q =>
    have hb := hdec (h.writeblock_le q rfl)
    have hcmd : (ascii "FS_WRITEBLOCK ").length = 14 := by decide
    have hsp : (ascii " ").length = 1 := by decide
    simp only [requestString, List.length_append, hcmd, hsp, Request.username, Request.path] at *
    omega
  | create q =>
    have hcmd : (ascii "FS_CREATE ").length = 10 := by decide
    have hsp : (ascii " ").length = 1 := by decide
    simp only [requestString, List.length_append, hcmd, hsp, Request.username, Request.path,
      List.length_singleton] at *
    omega
  | delete q =>
    have hcmd : (ascii "FS_DELETE ").length = 10 := by decide
    have hsp : (ascii " ").length = 1 := by decide
    simp only [requestString, List.length_append, hcmd, hsp, Request.username, Request.path] at *
    omega

/-! ### Canonical headers -/

/-- A header is *canonical* when it does not end in a space and the block number of a
`FS_READBLOCK` or `FS_WRITEBLOCK` is spelled with decimal digits only and fits 32 bits. -/
structure CanonicalHeader (msg : Bytes) : Prop where
  no_final_space : msg.getLast? ≠ some spaceChar
  plain_block : ∀ cmd username target block,
    split msg spaceChar = [cmd, username, target, block] →
    cmd = ascii "FS_READBLOCK" ∨ cmd = ascii "FS_WRITEBLOCK" →
    (∀ c ∈ block, isDigit c = true) ∧ decimalValue block < 2 ^ 32

/-- An accepted block number that is a plain decimal of 32 bits is written back unchanged. -/
theorem toDecimal_parseBlock {token : Bytes} {b : UInt32}
    (h : parseBlock token = .ok (some b)) (hdig : ∀ c ∈ token, isDigit c = true)
    (hlt : decimalValue token < 2 ^ 32) : toDecimal b.toNat = token := by
  obtain ⟨hne, hlead, -, value, hval, rfl⟩ := parseBlock_eq_some h
  have hstoul := stoul_of_isDigit hne hdig (hlt.trans (by norm_num))
  obtain rfl : decimalValue token = value := by
    rw [hstoul] at hval
    exact Except.ok.inj hval
  rw [UInt32.toNat_ofNat_of_lt' hlt]
  exact toDecimal_decimalValue hne hdig hlead

/-- A path cut out of an accepted header is written back unchanged. -/
theorem pathToString_split {rest : Bytes} (h0 : 0 ∉ rest)
    (hlast : (slashChar :: rest).getLast? = some slashChar → rest = [])
    (hne : split rest slashChar ≠ []) : pathToString (split rest slashChar) =
      slashChar :: rest := by
  have hrest : rest ≠ [] := by
    rintro rfl
    exact hne rfl
  have hlast' : rest.getLast? ≠ some slashChar := fun h =>
    hrest (hlast (by rwa [List.getLast?_cons_of_ne_nil hrest]))
  rw [pathToString_eq_intercalate hne, split_of_notMem h0, intercalate_getlines hlast']

/-- **Acceptance is exact on canonical headers.** A header accepted for a non-empty path is
repeated byte for byte by `requestString` exactly when it is canonical. -/
theorem requestString_eq_iff_canonicalHeader {msg : Bytes} {r : Request} (hmsg : 0 ∉ msg)
    (h : parseRequest msg = .ok (some r)) (hpath : r.path ≠ []) :
    requestString r = msg ↔ CanonicalHeader msg := by
  obtain ⟨cmd, username, rest, args, htok, -, hlast, -, -, hargs⟩ := parseRequest_cases h
  have htok' : getlines spaceChar msg = cmd :: username :: (slashChar :: rest) :: args := by
    rw [← split_of_notMem hmsg, htok]
  have hrest0 : 0 ∉ rest := fun hc =>
    hmsg (mem_of_mem_getlines (List.mem_cons_of_mem slashChar hc)
      (by rw [htok']; simp : slashChar :: rest ∈ getlines spaceChar msg))
  have hfield (t : Bytes) (ht : t ∈ cmd :: username :: (slashChar :: rest) :: args) :
      spaceChar ∉ t := notMem_of_mem_getlines (htok' ▸ ht)
  have hrsp : spaceChar ∉ rest := fun hc =>
    hfield (slashChar :: rest) (by simp) (List.mem_cons_of_mem slashChar hc)
  have hnode : ∀ node ∈ split rest slashChar, spaceChar ∉ node := by
    rw [split_of_notMem hrest0]
    exact fun node hnode hc => hrsp (mem_of_mem_getlines hc hnode)
  -- the four commands differ only in their last field
  have hsep : Separable r ∧ r.username = username ∧ r.path = split rest slashChar := by
    have hu := hfield username (by simp)
    rcases parseArguments_cases hargs with ⟨arg, b, -, -, -, rfl⟩ | ⟨arg, b, -, -, -, rfl⟩ |
      ⟨type, -, -, ht, rfl⟩ | ⟨-, -, rfl⟩
    · exact ⟨⟨hu, hpath, hnode, by simp⟩, rfl, rfl⟩
    · exact ⟨⟨hu, hpath, hnode, by simp⟩, rfl, rfl⟩
    · refine ⟨⟨hu, hpath, hnode, ?_⟩, rfl, rfl⟩
      rintro q ⟨⟩ (hc : type = spaceChar)
      subst hc
      exact absurd ht (by decide)
    · exact ⟨⟨hu, hpath, hnode, by simp⟩, rfl, rfl⟩
  obtain ⟨hsep, -, hpath'⟩ := hsep
  constructor
  · intro heq
    have hfields : getlines spaceChar msg = headerFields r := by
      rw [← heq]
      exact hsep.getlines_requestString
    refine ⟨?_, ?_⟩
    · obtain ⟨t, ht⟩ : ∃ t, (headerFields r).getLast? = some t :=
        ⟨_, List.getLast?_eq_some_getLast (by rw [← hfields, htok']; simp)⟩
      have hne : t ≠ [] := fun h0 => hsep.getLast?_headerFields (h0 ▸ ht)
      rw [← heq, requestString_eq_intercalate, getLast?_intercalate ht hne]
      exact fun hc => hsep.notMem_headerFields t (List.mem_of_getLast? ht)
        (List.mem_of_getLast? hc)
    · intro cmd' username' target block hsplit hcmd
      rw [split_of_notMem hmsg, hfields] at hsplit
      cases r with
      | readblock q =>
        simp only [headerFields, List.cons.injEq, and_true] at hsplit
        rw [← hsplit.2.2.2, decimalValue_toDecimal]
        exact ⟨fun _ => isDigit_of_mem_toDecimal, q.block.toNat_lt⟩
      | writeblock q =>
        simp only [headerFields, List.cons.injEq, and_true] at hsplit
        rw [← hsplit.2.2.2, decimalValue_toDecimal]
        exact ⟨fun _ => isDigit_of_mem_toDecimal, q.block.toNat_lt⟩
      | create q =>
        simp only [headerFields, List.cons.injEq] at hsplit
        rw [← hsplit.1] at hcmd
        exact absurd hcmd (by decide)
      | delete q => simp [headerFields] at hsplit
  · intro hcan
    have hpe := pathToString_split hrest0 hlast (hpath' ▸ hpath)
    suffices hfields : headerFields r = getlines spaceChar msg by
      rw [requestString_eq_intercalate, hfields, intercalate_getlines hcan.no_final_space]
    rw [htok']
    rcases parseArguments_cases hargs with ⟨arg, b, rfl, rfl, hb, rfl⟩ |
      ⟨arg, b, rfl, rfl, hb, rfl⟩ | ⟨type, rfl, rfl, ht, rfl⟩ | ⟨rfl, rfl, rfl⟩
    · obtain ⟨hdig, hlt⟩ := hcan.plain_block _ _ _ _ htok (Or.inl rfl)
      simp [headerFields, hpe, toDecimal_parseBlock hb hdig hlt]
    · obtain ⟨hdig, hlt⟩ := hcan.plain_block _ _ _ _ htok (Or.inr rfl)
      simp [headerFields, hpe, toDecimal_parseBlock hb hdig hlt]
    · simp [headerFields, hpe]
    · simp [headerFields, hpe]

theorem canonicalHeader_readblock_ten :
    parseRequest (ascii "FS_READBLOCK user /path/next 10") =
        .ok (some (.readblock ⟨ascii "user", [ascii "path", ascii "next"], 10⟩)) ∧
      CanonicalHeader (ascii "FS_READBLOCK user /path/next 10") :=
  ⟨by rfl, (requestString_eq_iff_canonicalHeader (by decide)
    (by rfl : parseRequest (ascii "FS_READBLOCK user /path/next 10") =
        .ok (some (.readblock ⟨ascii "user", [ascii "path", ascii "next"], 10⟩)))
    (by decide)).mp (by decide)⟩

/-- Not every accepted header is repeated: `12.2` is read as block `12`. -/
theorem parseRequest_accepts_trailing_characters :
    ¬∀ (msg : Bytes) (r : Request), 0 ∉ msg → parseRequest msg = .ok (some r) → r.path ≠ [] →
      requestString r = msg := by
  intro h
  have hparse : parseRequest (ascii "FS_READBLOCK user /this/that 12.2") =
      .ok (some (.readblock ⟨ascii "user", [ascii "this", ascii "that"], 12⟩)) := by rfl
  exact absurd (h _ _ (by decide) hparse (by decide)) (by decide)

/-! ### Exceptions -/

/-- The number at the start of a field has too many digits for an `unsigned long`. A field that
starts with `0` is rejected before its number is read. -/
def OverlongNumber (token : Bytes) : Prop :=
  token.head? ≠ some 48 ∧
    2 ^ 64 ≤ decimalValue ((takeSign (token.dropWhile isSpace)).2.takeWhile isDigit)

/-- A path field that `parseRequest` accepts. -/
structure ValidTarget (target : Bytes) : Prop where
  head : target.head? = some slashChar
  last : target.getLast? = some slashChar → target.length = 1
  length : target.length ≤ fsMaxpathname
  names : ∀ node ∈ split target.tail slashChar, node.length ≤ fsMaxfilename

/-- The headers for which `std::out_of_range` leaves `parseRequest`: the path field is empty, or the
block number of a read or a write that is valid otherwise is empty or too large. -/
def EscapingHeader (msg : Bytes) : Prop :=
  ∃ cmd username target args, split msg spaceChar = cmd :: username :: target :: args ∧
    username.length ≤ fsMaxusername ∧ (target = [] ∨ ValidTarget target ∧
      (cmd = ascii "FS_READBLOCK" ∨ cmd = ascii "FS_WRITEBLOCK") ∧
      ∃ arg, args = [arg] ∧ (arg = [] ∨ OverlongNumber arg))

theorem decimalValue_nil : decimalValue [] = 0 := rfl

theorem stoul_eq_outOfRange_iff (s : Bytes) : stoul s = .error .outOfRange ↔
    2 ^ 64 ≤ decimalValue ((takeSign (s.dropWhile isSpace)).2.takeWhile isDigit) := by
  simp only [stoul]
  split_ifs with hnil hle hneg
  · simp [hnil, decimalValue_nil]
  · exact iff_of_true rfl hle
  · exact iff_of_false (by simp) hle
  · exact iff_of_false (by simp) hle

theorem parseBlock_eq_error_iff (token : Bytes) :
    (∃ e, parseBlock token = .error e) ↔ token = [] ∨ OverlongNumber token := by
  cases token with
  | nil => exact iff_of_true ⟨_, rfl⟩ (Or.inl rfl)
  | cons c s =>
    have hstoul := stoul_eq_outOfRange_iff (c :: s)
    rw [OverlongNumber, ← hstoul, parseBlock]
    simp only [List.head?_cons, ne_eq, Option.some.injEq, reduceCtorEq, false_or]
    split_ifs with hzero
    · exact iff_of_false (by simp) fun h => h.1 hzero.1
    · cases hval : stoul (c :: s) with
      | error e =>
        cases e with
        | invalidArgument => simp
        | outOfRange =>
          refine iff_of_true ⟨_, rfl⟩ ⟨fun hc => ?_, rfl⟩
          -- the field is the single digit 0
          have hs : s = [] := by simpa [hc] using hzero
          rw [hc, hs] at hval
          exact absurd hval (by decide)
      | ok value =>
        simp only [reduceCtorEq, and_false, iff_false]
        rintro ⟨e, he⟩
        split_ifs at he

theorem parseArguments_eq_error_iff (cmd username : Bytes) (path : Path) (args : List Bytes) :
    (∃ e, parseArguments cmd username path args = .error e) ↔
      (cmd = ascii "FS_READBLOCK" ∨ cmd = ascii "FS_WRITEBLOCK") ∧
        ∃ arg, args = [arg] ∧ (arg = [] ∨ OverlongNumber arg) := by
  have hblock (arg : Bytes) (f : UInt32 → Request) :
      (∃ e, (do let block ← parseBlock arg; return block.map f) = Except.error e) ↔
        arg = [] ∨ OverlongNumber arg := by
    rw [← parseBlock_eq_error_iff]
    cases parseBlock arg <;> simp [bind, Except.bind, pure, Except.pure]
  rcases args with - | ⟨arg, - | ⟨arg', rest⟩⟩
  · simp only [parseArguments]
    split_ifs <;> simp
  · simp only [parseArguments, List.cons.injEq, and_true, exists_eq_left']
    by_cases hread : cmd = ascii "FS_READBLOCK"
    · rw [if_pos hread, hblock]
      simp [hread]
    by_cases hwrite : cmd = ascii "FS_WRITEBLOCK"
    · rw [if_neg hread, if_pos hwrite, hblock]
      simp [hwrite]
    · refine iff_of_false ?_ (by simp [hread, hwrite])
      rintro ⟨e, he⟩
      split_ifs at he
  · simp [parseArguments]

/-- `parseRequest` returns, with or without a request, exactly if the header is not an escaping
one. -/
theorem parseRequest_ok_iff (msg : Bytes) :
    (∃ result, parseRequest msg = .ok result) ↔ ¬EscapingHeader msg := by
  have herror : (∃ result, parseRequest msg = .ok result) ↔ ¬∃ e, parseRequest msg = .error e := by
    cases parseRequest msg <;> simp
  rw [herror, not_iff_not, parseRequest, EscapingHeader]
  rcases htokens : split msg spaceChar with - | ⟨cmd, - | ⟨username, - | ⟨target, args⟩⟩⟩
  · simp
  · simp
  · simp
  have hfields (P : Bytes → Bytes → Bytes → List Bytes → Prop) :
      (∃ cmd' username' target' args', cmd :: username :: target :: args =
        cmd' :: username' :: target' :: args' ∧ P cmd' username' target' args') ↔
        P cmd username target args := by
    constructor
    · rintro ⟨cmd', username', target', args', heq, h⟩
      obtain ⟨rfl, rfl, rfl, rfl⟩ : cmd = cmd' ∧ username = username' ∧ target = target' ∧
        args = args' := by simpa using heq
      exact h
    · exact fun h => ⟨cmd, username, target, args, rfl, h⟩
  rw [hfields]
  dsimp only
  by_cases huser : fsMaxusername < username.length
  · rw [if_pos huser]
    exact iff_of_false (by simp) fun h => absurd h.1 (not_le.mpr huser)
  rw [if_neg huser]
  cases target with
  | nil => exact iff_of_true ⟨_, rfl⟩ ⟨not_lt.mp huser, Or.inl rfl⟩
  | cons c rest =>
    dsimp only
    split_ifs with hslash hlength hname
    · refine iff_of_false (by simp) ?_
      rintro ⟨-, h | ⟨htarget, -⟩⟩
      · simp at h
      rcases hslash with hc | ⟨hlast, hlen⟩
      · exact hc (by simpa using htarget.head)
      · exact hlen (htarget.last hlast)
    · refine iff_of_false (by simp) ?_
      rintro ⟨-, h | ⟨htarget, -⟩⟩
      · simp at h
      · exact absurd htarget.length (not_le.mpr hlength)
    · refine iff_of_false (by simp) ?_
      rintro ⟨-, h | ⟨htarget, -⟩⟩
      · simp at h
      obtain ⟨node, hnode, hlong⟩ := List.any_eq_true.mp hname
      exact absurd (htarget.names node hnode) (not_le.mpr (of_decide_eq_true hlong))
    · have htarget : ValidTarget (c :: rest) := by
        push Not at hslash
        refine ⟨by simp [hslash.1], hslash.2, not_lt.mp hlength, fun node hnode => ?_⟩
        exact not_lt.mp fun hlong =>
          hname (List.any_eq_true.mpr ⟨node, hnode, decide_eq_true hlong⟩)
      rw [parseArguments_eq_error_iff]
      refine ⟨fun h => ⟨not_lt.mp huser, Or.inr ⟨htarget, h⟩⟩, ?_⟩
      rintro ⟨-, hnil | ⟨-, h⟩⟩
      · simp at hnil
      · exact h

/-- An exception leaves `parseRequest` for a header with two spaces before the path. -/
theorem parseRequest_escapes :
    ¬∀ msg : Bytes, 0 ∉ msg → ∃ result, parseRequest msg = .ok result := by
  intro h
  obtain ⟨result, hresult⟩ := h (ascii "FS_DELETE user  /a") (by decide)
  exact absurd hresult (by rw [show parseRequest (ascii "FS_DELETE user  /a") =
    .error .outOfRange from rfl]; simp)

end OsFromScratch.FileServer
