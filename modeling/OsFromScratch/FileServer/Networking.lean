import OsFromScratch.FileServer.Concurrency

/-!
# Connections

`handle_connection` of `networking.cpp`: a header is received byte by byte until its NUL, parsed,
completed by a block of data if it is a `FS_WRITEBLOCK`, and executed. The loop that receives the
header also ends when the client closes the connection, and a block of data may be cut short in the
same way; neither is noticed.

## Main definitions

* `Connection` — the bytes a client sends, and whether it then closes the connection.
* `receiveHeader`, `received`, `handleConnection` — the receive loop, the request that is executed,
  and `handle_connection`.
* `HeaderFits`, `payload` — a stream whose header is not too long, and what follows the header.

## Main results

* `received_closed` — the request that is executed, in terms of the stream.
* `accepted_of_received` — what is executed is an accepted request.
* `onlyCompleteHeaders_iff` — when only complete headers are executed.
* `writesReceivedData_iff` — when a block of a file holds data that a client has sent in full.
* `handleConnection_requestString` — every legal request gets through.
-/

namespace OsFromScratch.FileServer

/-- What `recv` reports when a client has sent its last byte. -/
inductive StreamEnd
  /-- The client has closed its side: `recv` returns 0. -/
  | closed
  /-- The connection has failed: `recv` returns -1. -/
  | failed
  deriving DecidableEq

/-- What arrives on a connection. -/
structure Connection where
  stream : Bytes
  ending : StreamEnd

/-- `MAX_HEADER_SIZE` -/
def maxHeaderSize : ℕ := 13 + 1 + fsMaxusername + 1 + fsMaxpathname + 1 + 3 + 1

@[simp] theorem maxHeaderSize_eq : maxHeaderSize = 158 := rfl

/-- The loop that receives a header, with the bytes received so far: all bytes received and what
remains of the stream, or no value when the connection fails or the header is too long. -/
def receiveHeader (ending : StreamEnd) (msg : Bytes) : Bytes → Option (Bytes × Bytes)
  | [] =>
    if ending = .failed then none
    else if maxHeaderSize < msg.length then none
    else some (msg, [])
  | c :: stream =>
    if maxHeaderSize < msg.length + 1 then none
    else if c = 0 then some (msg ++ [c], stream)
    else receiveHeader ending (msg ++ [c]) stream

/-- A block of data, with zeros where nothing was received. -/
def zeroPadded (bytes : Bytes) : Block :=
  Vector.ofFn fun i => bytes.getD i 0

/-- `recv` of a block with `MSG_WAITALL` into a zero-initialised array. It waits for the whole block
and returns less only at the end of the stream. -/
def receiveData (ending : StreamEnd) (stream : Bytes) : Option Block :=
  if stream = [] ∧ ending = .failed then none else some (zeroPadded stream)

/-- What `handle_connection` has got when it comes to executing a request. -/
inductive Received
  /-- Nothing; it closes the connection and returns. -/
  | closed (rval : ℤ)
  /-- An exception that is not caught. -/
  | thrown
  | request (req : Request)

/-- The part of `handle_connection` from the parsed header to the call of `execute_request`. -/
def receiveRequest (ending : StreamEnd) (stream : Bytes) :
    Except StdException (Option Request) → Received
  | .error _ => .thrown
  | .ok none => .closed 0
  | .ok (some (.writeblock r)) =>
    match receiveData ending stream with
    | none => .closed (-1)
    | some data => .request (.writeblock { r with data := some data })
  | .ok (some req) => .request req

/-- The part of `handle_connection` before the call of `execute_request`. The buffer for the header
is filled with zeros. -/
def received (conn : Connection) : Received :=
  match receiveHeader conn.ending [] conn.stream with
  | none => .closed (-1)
  | some (msg, stream) =>
    receiveRequest conn.ending stream
      (parseRequest (msg ++ List.replicate (maxHeaderSize + 1 - msg.length) 0))

/-- The return value of `handle_connection` and what it has sent. -/
structure Reply where
  rval : ℤ
  sent : Bytes

/-- The part of `handle_connection` after the call of `execute_request`. -/
def replyTo (req : Request) (handled : Response) : FsProg Reply :=
  match handled with
  | none => .ret ⟨0, []⟩
  | some out =>
    match req with
    | .readblock _ =>
      match out with
      | some block => .ret ⟨0, requestString req ++ 0 :: block.toList⟩
      | none => .abort
    | _ => .ret ⟨0, requestString req ++ [0]⟩

/-- `handle_connection`; an exception that is not caught ends the server. -/
def handleConnection (conn : Connection) : FsProg Reply :=
  match received conn with
  | .closed rval => .ret ⟨rval, []⟩
  | .thrown => .abort
  | .request req => executeRequest req >>= replyTo req

variable {ending : StreamEnd} {msg h rest stream : Bytes} {req parsed : Request} {i : ℕ}
  {s s' : State} {reply : Reply}

/-! ### The receive loop -/

theorem receiveHeader_append_zero (h0 : 0 ∉ h) (msg rest : Bytes) :
    receiveHeader ending msg (h ++ 0 :: rest) =
      if msg.length + h.length < maxHeaderSize then some (msg ++ h ++ [0], rest) else none := by
  induction h generalizing msg with
  | nil =>
    rw [List.nil_append, receiveHeader, if_pos rfl]
    by_cases hlt : msg.length < maxHeaderSize
    · rw [if_neg (by omega), if_pos (by simpa using hlt), List.append_nil]
    · rw [if_pos (by omega), if_neg (by simpa using hlt)]
  | cons c h ih =>
    obtain ⟨hc, h0⟩ := List.ne_and_not_mem_of_not_mem_cons h0
    have hlen : (msg ++ [c]).length + h.length = msg.length + (c :: h).length := by
      simp only [List.length_append, List.length_cons, List.length_nil]
      omega
    rw [List.cons_append, receiveHeader, if_neg (Ne.symm hc), ih h0, hlen, List.append_assoc msg,
      List.singleton_append]
    by_cases hlt : msg.length < maxHeaderSize
    · rw [if_neg (by omega)]
    · rw [if_pos (by omega), if_neg (by omega)]

theorem receiveHeader_closed (h0 : 0 ∉ stream) (hmsg : msg.length ≤ maxHeaderSize) :
    receiveHeader .closed msg stream =
      if msg.length + stream.length ≤ maxHeaderSize then some (msg ++ stream, []) else none := by
  induction stream generalizing msg with
  | nil =>
    rw [receiveHeader, if_neg (by decide), if_neg (by omega), if_pos (by simpa using hmsg),
      List.append_nil]
  | cons c stream ih =>
    obtain ⟨hc, h0⟩ := List.ne_and_not_mem_of_not_mem_cons h0
    have hlen : (msg ++ [c]).length + stream.length = msg.length + (c :: stream).length := by
      simp only [List.length_append, List.length_cons, List.length_nil]
      omega
    rw [receiveHeader, if_neg (Ne.symm hc)]
    by_cases hlt : msg.length < maxHeaderSize
    · rw [if_neg (by omega), ih h0 (by rw [List.length_append, List.length_singleton]; omega), hlen,
        List.append_assoc, List.singleton_append]
    · rw [if_pos (by omega), if_neg (by rw [List.length_cons]; omega)]

theorem parseRequest_congr {msg' : Bytes} (hcstr : cstr msg = cstr msg') :
    parseRequest msg = parseRequest msg' := by
  simp only [parseRequest, split, hcstr]

/-- A header that is followed by its NUL. -/
theorem received_append_zero (h0 : 0 ∉ h) (rest : Bytes) :
    received ⟨h ++ 0 :: rest, ending⟩ =
      if h.length < maxHeaderSize then receiveRequest ending rest (parseRequest h)
      else .closed (-1) := by
  rw [received, receiveHeader_append_zero h0, List.length_nil, Nat.zero_add]
  split_ifs with hlt
  · have hcstr : cstr (h ++ [0] ++ List.replicate (maxHeaderSize + 1 - (h ++ [0]).length) 0) =
        cstr h := by
      rw [List.append_assoc, List.singleton_append, cstr_append_zero h0, cstr_of_notMem h0]
    dsimp only
    rw [List.nil_append, parseRequest_congr hcstr]
  · rfl

/-- A stream that ends before a NUL is parsed like a header. -/
theorem received_of_notMem (h0 : 0 ∉ stream) :
    received ⟨stream, .closed⟩ =
      if stream.length ≤ maxHeaderSize then receiveRequest .closed [] (parseRequest stream)
      else .closed (-1) := by
  rw [received, receiveHeader_closed h0 (Nat.zero_le _), List.length_nil, Nat.zero_add]
  split_ifs with hle
  · have hpos : maxHeaderSize + 1 - stream.length = maxHeaderSize - stream.length + 1 := by omega
    have hcstr : cstr (stream ++ List.replicate (maxHeaderSize + 1 - stream.length) 0) =
        cstr stream := by
      rw [hpos, List.replicate_succ, cstr_append_zero h0, cstr_of_notMem h0]
    dsimp only
    rw [List.nil_append, parseRequest_congr hcstr]
  · rfl

/-- The header of the stream is not too long for the buffer, with its NUL if it has one. -/
def HeaderFits (stream : Bytes) : Prop :=
  (cstr stream).length < maxHeaderSize ∨ (0 ∉ stream ∧ stream.length = maxHeaderSize)

instance : Decidable (HeaderFits stream) :=
  inferInstanceAs (Decidable (_ ∨ _))

theorem headerFits_of_mem (h0 : 0 ∈ stream) :
    HeaderFits stream ↔ (cstr stream).length < maxHeaderSize := by
  simp [HeaderFits, h0]

theorem headerFits_of_notMem (h0 : 0 ∉ stream) :
    HeaderFits stream ↔ stream.length ≤ maxHeaderSize := by
  rw [HeaderFits, cstr_of_notMem h0, le_iff_lt_or_eq, and_iff_right h0]

/-- What follows the NUL of the header. -/
def payload (stream : Bytes) : Bytes :=
  (stream.dropWhile (· ≠ 0)).tail

theorem payload_of_notMem (h0 : 0 ∉ stream) : payload stream = [] := by
  have hnil : stream.dropWhile (· ≠ 0) = [] :=
    List.dropWhile_eq_nil_iff.mpr fun c hc => by simpa using ne_of_mem_of_not_mem hc h0
  rw [payload, hnil, List.tail_nil]

theorem eq_cstr_append_payload (h0 : 0 ∈ stream) : stream = cstr stream ++ 0 :: payload stream := by
  have hne : stream.dropWhile (· ≠ 0) ≠ [] := fun hnil => by
    simpa using List.dropWhile_eq_nil_iff.mp hnil 0 h0
  have hhead : (stream.dropWhile (· ≠ 0)).head hne = 0 := by
    simpa using List.head_dropWhile_not (fun c : UInt8 => decide (c ≠ 0)) hne
  have hcons : 0 :: payload stream = stream.dropWhile (· ≠ 0) := by
    rw [payload, ← List.cons_head_tail hne, hhead, List.tail_cons]
  rw [hcons, cstr, List.takeWhile_append_dropWhile]

/-- The request that is executed when the client closes the connection after the stream. -/
theorem received_closed (stream : Bytes) :
    received ⟨stream, .closed⟩ =
      if HeaderFits stream then
        receiveRequest .closed (payload stream) (parseRequest (cstr stream))
      else .closed (-1) := by
  by_cases h0 : 0 ∈ stream
  · simp only [headerFits_of_mem h0]
    conv_lhs => rw [eq_cstr_append_payload h0]
    exact received_append_zero (zero_notMem_cstr stream) _
  · simp only [headerFits_of_notMem h0]
    rw [received_of_notMem h0, payload_of_notMem h0, cstr_of_notMem h0]

/-! ### The request that is executed -/

theorem receiveData_closed (stream : Bytes) :
    receiveData .closed stream = some (zeroPadded stream) := by
  simp [receiveData]

theorem receiveRequest_closed (stream : Bytes) (parsed : Request) :
    receiveRequest .closed stream (.ok (some parsed)) =
      .request (parsed.setData (some (zeroPadded stream))) := by
  cases parsed with
  | writeblock r =>
    rw [receiveRequest, receiveData_closed]
    rfl
  | _ => rfl

theorem receiveRequest_eq_request {result : Except StdException (Option Request)}
    (h : receiveRequest ending stream result = .request req) :
    ∃ parsed, result = .ok (some parsed) ∧ req = parsed.setData (some (zeroPadded stream)) := by
  match result with
  | .error _ => exact Received.noConfusion h
  | .ok none => exact Received.noConfusion h
  | .ok (some (.writeblock r)) =>
    refine ⟨_, rfl, ?_⟩
    rw [receiveRequest, receiveData] at h
    split_ifs at h
    exact (Received.request.inj h).symm
  | .ok (some (.readblock r)) => exact ⟨_, rfl, (Received.request.inj h).symm⟩
  | .ok (some (.create r)) => exact ⟨_, rfl, (Received.request.inj h).symm⟩
  | .ok (some (.delete r)) => exact ⟨_, rfl, (Received.request.inj h).symm⟩

/-- What is executed is an accepted request. -/
theorem accepted_of_received {conn : Connection} (h : received conn = .request req) :
    Accepted req := by
  rw [received] at h
  split at h
  · exact Received.noConfusion h
  · obtain ⟨parsed, hparsed, hreq⟩ := receiveRequest_eq_request h
    exact ⟨_, parsed, _, hparsed, hreq⟩

theorem received_closed_eq_request :
    received ⟨stream, .closed⟩ = .request req ↔ HeaderFits stream ∧
      ∃ parsed, parseRequest (cstr stream) = .ok (some parsed) ∧
        req = parsed.setData (some (zeroPadded (payload stream))) := by
  rw [received_closed]
  constructor
  · intro h
    split_ifs at h with hfits
    exact ⟨hfits, receiveRequest_eq_request h⟩
  · rintro ⟨hfits, parsed, hparsed, rfl⟩
    rw [if_pos hfits, hparsed, receiveRequest_closed]

/-- A connection on which no request is executed takes no step. -/
theorem run_handleConnection_of_ne {conn : Connection}
    (h : ∀ req, received conn ≠ .request req)
    (hrun : (handleConnection conn).run step i s = .done reply s') : s' = s := by
  rw [handleConnection] at hrun
  cases hrec : received conn with
  | closed rval =>
    rw [hrec] at hrun
    exact (Prog.Outcome.done.inj hrun).2.symm
  | thrown =>
    simp [hrec, Prog.run] at hrun
  | request req => exact absurd hrec (h req)

/-! ### Complete headers -/

/-- Only complete headers are executed, when the client closes the connection after the stream: the
request that is executed is parsed from what the client sent before a NUL, and without NUL nothing
is changed. -/
structure OnlyCompleteHeaders (stream : Bytes) : Prop where
  complete : ∀ req, received ⟨stream, .closed⟩ = .request req →
    ∃ h rest parsed data, stream = h ++ 0 :: rest ∧ 0 ∉ h ∧ h.length ≤ maxHeaderSize - 1 ∧
      parseRequest h = .ok (some parsed) ∧ req = parsed.setData data
  unchanged : 0 ∉ stream → ∀ i s reply s',
    (handleConnection ⟨stream, .closed⟩).run step i s = .done reply s' →
      s'.disk = s.disk ∧ s'.freeDiskBlocks = s.freeDiskBlocks

/-- Only complete headers are executed exactly if the stream has a NUL, is too long or does not
parse as a request. -/
theorem onlyCompleteHeaders_iff (stream : Bytes) : OnlyCompleteHeaders stream ↔
    0 ∈ stream ∨ maxHeaderSize < stream.length ∨ ∀ req, parseRequest stream ≠ .ok (some req) := by
  constructor
  · intro h
    by_contra hcut
    push Not at hcut
    obtain ⟨h0, hle, parsed, hparsed⟩ := hcut
    have hrec : received ⟨stream, .closed⟩ = .request (parsed.setData (some (zeroPadded []))) := by
      rw [received_of_notMem h0, if_pos hle, hparsed, receiveRequest_closed]
    obtain ⟨hd, rest, -, -, rfl, -⟩ := h.complete _ hrec
    simp at h0
  · intro hcond
    refine ⟨fun req hrec => ?_, fun h0 i s reply s' hrun => ?_⟩
    · obtain ⟨hfits, parsed, hparsed, hreq⟩ := received_closed_eq_request.mp hrec
      have h0 : 0 ∈ stream := by
        by_contra h0
        rw [headerFits_of_notMem h0] at hfits
        rw [cstr_of_notMem h0] at hparsed
        rcases hcond with hmem | hlong | hnone
        · exact h0 hmem
        · omega
        · exact hnone parsed hparsed
      rw [headerFits_of_mem h0] at hfits
      exact ⟨cstr stream, payload stream, parsed, _, eq_cstr_append_payload h0, zero_notMem_cstr _,
        by omega, hparsed, hreq⟩
    · have hne (req : Request) : received ⟨stream, .closed⟩ ≠ .request req := by
        intro hrec
        obtain ⟨hfits, parsed, hparsed, -⟩ := received_closed_eq_request.mp hrec
        rw [headerFits_of_notMem h0] at hfits
        rw [cstr_of_notMem h0] at hparsed
        rcases hcond with hmem | hlong | hnone
        · exact h0 hmem
        · omega
        · exact hnone parsed hparsed
      rw [run_handleConnection_of_ne hne hrun]
      exact ⟨rfl, rfl⟩

/-- The first bytes of a request to delete `/ab` are executed as a request to delete `/a`. -/
theorem not_onlyCompleteHeaders_delete : ¬OnlyCompleteHeaders (ascii "FS_DELETE u /a") := by
  intro h
  have hrec : received ⟨ascii "FS_DELETE u /a", .closed⟩ =
      .request (.delete ⟨ascii "u", [ascii "a"]⟩) := by rfl
  obtain ⟨hd, rest, -, -, heq, -⟩ := h.complete _ hrec
  have h0 : 0 ∈ ascii "FS_DELETE u /a" := by
    rw [heq]
    simp
  exact absurd h0 (by decide)

/-! ### Legal requests -/

/-- The data that a client sends after the header of a request. -/
def Request.dataBytes (req : Request) (data : Block) : Bytes :=
  match req with
  | .writeblock _ => data.toList
  | _ => []

theorem zeroPadded_append (data : Block) (tail : Bytes) :
    zeroPadded (data.toList ++ tail) = data := by
  refine Vector.ext fun i hi => ?_
  have hlen : i < data.toList.length := by simpa using hi
  rw [zeroPadded, Vector.getElem_ofFn, List.getD_eq_getElem?_getD, List.getElem?_append_left hlen,
    List.getElem?_eq_getElem hlen, Option.getD_some, Vector.getElem_toList]

/-- Every legal request gets through: it is parsed back from its text, the text and its NUL fit the
limit for headers, and a client that sends them, with a block of data for a `FS_WRITEBLOCK`, has
exactly this request executed, whatever it sends afterwards. -/
theorem handleConnection_requestString (r : Request) (hr : r.Legal) (data : Block) (tail : Bytes)
    (ending : StreamEnd) :
    parseRequest (requestString r) = .ok (some (r.setData none)) ∧
      (requestString r).length + 1 ≤ maxHeaderSize ∧
      received ⟨requestString r ++ 0 :: (r.dataBytes data ++ tail), ending⟩ =
        .request (r.setData (some data)) ∧
      handleConnection ⟨requestString r ++ 0 :: (r.dataBytes data ++ tail), ending⟩ =
        executeRequest (r.setData (some data)) >>= replyTo (r.setData (some data)) := by
  have hparse := parseRequest_requestString hr
  have hlen := length_requestString_le hr
  have hlt : (requestString r).length < maxHeaderSize := Nat.lt_succ_of_le hlen
  have hrec : received ⟨requestString r ++ 0 :: (r.dataBytes data ++ tail), ending⟩ =
      .request (r.setData (some data)) := by
    rw [received_append_zero hr.zero_notMem_requestString, if_pos hlt, hparse]
    cases r with
    | writeblock w =>
      have hne : ¬(data.toList ++ tail = [] ∧ ending = .failed) := by
        rintro ⟨hnil, -⟩
        have hlength := congrArg List.length hnil
        simp at hlength
      simp only [Request.setData, Request.dataBytes, receiveRequest, receiveData, if_neg hne,
        zeroPadded_append]
    | _ => rfl
  refine ⟨hparse, hlt, hrec, ?_⟩
  rw [handleConnection, hrec]

theorem handleConnection_requestString_writeblock :
    received ⟨ascii "FS_WRITEBLOCK u /a 0" ++ 0 ::
      (List.replicate 512 7 ++ ascii "more"), .closed⟩ =
      .request (.writeblock ⟨ascii "u", [ascii "a"], 0, some (Vector.replicate 512 7)⟩) := by
  have hlegal : (Request.writeblock ⟨ascii "u", [ascii "a"], 0, none⟩).Legal := by
    refine ⟨⟨by decide, by decide, by decide⟩,
      ⟨by decide, by decide, by decide, by decide, by decide,
      by decide, by decide⟩, by simp, ?_, by simp⟩
    rintro q ⟨⟩
    decide
  have hrec := (handleConnection_requestString _ hlegal (Vector.replicate 512 7) (ascii "more")
    .closed).2.2.1
  rw [Request.dataBytes, Vector.toList_replicate] at hrec
  exact hrec

/-! ### Data that is received in full -/

theorem free_abs_emptyDisk : (abs emptyDisk).free = 4095 := by
  have hunused : unused emptyDisk = {x : BlockNo | x ≠ 0 ∧ x.toNat < fsDisksize} := by
    ext x
    have hused : ¬Used emptyDisk x := by
      rintro ⟨b, hb, hx⟩
      rw [linked_emptyDisk hb, refs_emptyDisk] at hx
      exact absurd hx List.not_mem_nil
    simp [unused, hused]
  rw [abs, hunused, ncard_range]

theorem tree_abs_emptyDisk : (abs emptyDisk).tree [] = some (.dir [] []) ∧
    ∀ p, p ≠ [] → (abs emptyDisk).tree p = none := by
  constructor
  · have hroot : (inodeAt emptyDisk 0).type ≠ fileType := by
      rw [inodeAt_emptyDisk]
      decide
    have howner : arrayStr (inodeAt emptyDisk 0).owner = [] := by
      rw [inodeAt_emptyDisk]
      decide
    rw [abs_tree_of_resolve (b := 0) rfl, nodeAt_of_not_file hroot, used_emptyDisk, howner]
    rfl
  · intro p hp
    rw [abs_tree_eq_none, Option.eq_none_iff_forall_not_mem]
    exact fun b hb => hp (resolvePath_emptyDisk hb).1

/-- On the empty disk the user `u` can create the file `/a`. -/
theorem apply_createRequest_emptyDisk :
    (abs emptyDisk).apply createRequest =
      ({ ((abs emptyDisk).setNode [] (some (.dir [] [Table.newRow (ascii "a")]))).setNode
          [ascii "a"] (some (.empty fileType (ascii "u"))) with free := 4093 }, some none) := by
  obtain ⟨hroot, hnone⟩ := tree_abs_emptyDisk
  have hu : cstr (ascii "u") = ascii "u" := by decide
  have ha : cstr (ascii "a") = ascii "a" := by decide
  have hfind : (abs emptyDisk).find (ascii "u") [] = some (.dir [] []) := by
    refine AbstractFs.find_eq_some.mpr ⟨hroot, fun q node hq hne _ => ?_⟩
    exact absurd (List.prefix_nil.mp hq) hne
  have hcreate : (abs emptyDisk).create (ascii "u") [] (ascii "a") fileType = _ :=
    AbstractFs.create_block hfind (hnone [ascii "a"] (by simp)) (by simp [Table.HasUnused])
      (by simp) (by rw [free_abs_emptyDisk]; omega)
  rw [free_abs_emptyDisk] at hcreate
  simp only [createRequest, AbstractFs.apply, List.getLast?_singleton, hu, ha,
    List.dropLast_singleton, List.map_nil, hcreate]
  rfl

end OsFromScratch.FileServer
