import Everarch.Cli.Sync
import Everarch.Client.Get
import Everarch.Lib.Run

/-!
# Connections that stay open

Three parts of the client send one request after the other over a connection to a storage server
that they keep: `evr_stat_and_put`, which uploads the slices of a file, `evr_open_file_cache_slice`,
which reads the slices of an open file, and the transfers of `blob_sync_worker`. What one request
leaves on the connection is read as the header of the next one.

* `ClientConn`: the bytes that were sent for the requests so far and have not been read.
* `statAndPut`, `cacheSlice`, `transfer`: one call of each. None is a call that waits for bytes
  that no response has.

Three exits leave bytes behind or wait: `evr_open_file_cache_slice` returns without closing the
connection when `evr_req_cmd_get_blob` refuses the size of a blob, and does not forget a connection
that it has closed; `blob_sync_worker` reads the flags of a blob before it looks at the status;
nobody looks at the size of the response to a put.

Result: `exchanges_settled_iff`.
-/

namespace Everarch

/-! ## Responses and connections -/

def statusCodeBlobNotFound : UInt8 := 0x45

/-- A response of a server that keeps to the protocol. -/
structure Response where
  statusCode : UInt8
  body : Bytes
  fits : body.length < 2 ^ 32
  empty_of_notFound : statusCode = statusCodeBlobNotFound → body = []

/-- The header and the body. -/
def Response.bytes (r : Response) : Bytes :=
  formatRespHeader ⟨r.statusCode, r.body.length⟩ ++ r.body

/-- The client's end of a connection. -/
structure ClientConn where
  unread : Bytes
  closed : Bool
deriving DecidableEq

namespace ClientConn

/-- A new connection, authenticated and configured. -/
def fresh : ClientConn :=
  ⟨[], false⟩

/-- A command is sent, and the server answers it. -/
def request (c : ClientConn) (r : Response) : ClientConn :=
  { c with unread := c.unread ++ r.bytes }

/-- `read_n`, `dump_n` and the reading part of `pipe_n`. -/
def read (c : ClientConn) (n : Nat) : Option (Bytes × ClientConn) :=
  (readN n c.unread).map fun (data, unread) => (data, { c with unread := unread })

/-- `evr_read_resp_header`. -/
def readRespHeader (c : ClientConn) : Option (RespHeader × ClientConn) :=
  (c.read respHeaderSize).map fun (buf, c) => (parseRespHeader buf, c)

def close (c : ClientConn) : ClientConn :=
  { c with closed := true }

/-- The next request finds the connection as it must be. -/
def Ready (c : ClientConn) : Prop :=
  c.closed = false ∧ c.unread = []

end ClientConn

/-! ## Stat and put -/

/-- `evr_stat_blob_resp_n_size`. -/
def statBlobRespSize : Nat := 5

/-- A call of `evr_stat_and_put`: which commands can be written and what the server answers. -/
structure PutCall where
  statWritten : Bool
  stat : Response
  putWritten : Bool
  put : Response

/-- `evr_stat_and_put`. -/
def statAndPut (call : PutCall) (c : ClientConn) : Option (Res × ClientConn) :=
  if call.statWritten = false then some (.error, c)
  else
    match (c.request call.stat).readRespHeader with
    | none => none
    | some (resp, c) =>
      if resp.statusCode = statusCodeOk then
        if resp.bodySize ≠ statBlobRespSize then some (.error, c)
        else (c.read statBlobRespSize).map fun (_, c) => (.exists_, c)
      else if resp.statusCode ≠ statusCodeBlobNotFound then some (.error, c)
      else if resp.bodySize ≠ 0 then some (.error, c)
      else if call.putWritten = false then some (.error, c)
      else
        match (c.request call.put).readRespHeader with
        | none => none
        | some (resp, c) => some (if resp.statusCode ≠ statusCodeOk then .error else .ok, c)

/-! ## Slices of an open file -/

/-- A call of `evr_open_file_cache_slice`. -/
structure SliceCall where
  ref : BlobRef
  written : Bool
  resp : Response
  allocated : Bool
  hashOpened : Bool

/-- `evr_open_file_cache_slice`, without the slice that it caches. -/
def cacheSlice (hash : Bytes → BlobRef) (call : SliceCall) (c : ClientConn) :
    Option (Res × ClientConn) :=
  if call.written = false then some (.error, c)
  else
    match (c.request call.resp).readRespHeader with
    | none => none
    | some (rhdr, c) =>
      -- evr_req_cmd_get_blob fails, and the connection stays
      if maxBlobDataSize < rhdr.bodySize then some (.error, c)
      else if rhdr.statusCode ≠ statusCodeOk ∨ rhdr.bodySize < 1 then
        (c.read rhdr.bodySize).map fun (_, c) => (.error, c)
      else
        match c.read 1 with
        | none => none
        | some (_, c) =>
          if call.allocated = false ∨ call.hashOpened = false then some (.error, c.close)
          else
            (c.read (rhdr.bodySize - 1)).map fun (data, c) =>
              (if hash data = call.ref then .ok else .error, c)

/-! ## Calls one after the other -/

/-- A user of a connection, who waits or may go on to use it. -/
structure ConnUser where
  c : ClientConn
  waits : Bool
  inUse : Bool

namespace ConnUser

def start : ConnUser :=
  ⟨.fresh, false, true⟩

/-- The next call, unless the one before waits or was the last one. -/
def step {ι : Type} (call : ι → ClientConn → Option (Res × ClientConn)) (goesOn : Res → Bool)
    (u : ConnUser) (i : ι) : ConnUser :=
  if u.waits ∨ u.inUse = false then u
  else
    match call i u.c with
    | none => { u with waits := true }
    | some (res, c) => ⟨c, false, goesOn res⟩

/-- It does not wait, and has read all it was sent or does not use the connection again. -/
def Settled (u : ConnUser) : Prop :=
  u.waits = false ∧ (u.inUse = true → u.c.Ready)

end ConnUser

/-- `evr_cli_post_file` with `evr_post_and_collect_file_slice`, and the others who stop after the
first call. -/
def putFile : ConnUser → PutCall → ConnUser :=
  ConnUser.step statAndPut fun res => res = .ok ∨ res = .exists_

/-- `evr_open_file_read`, which leaves the connection to the next read whatever happens. -/
def readFile (hash : Bytes → BlobRef) : ConnUser → SliceCall → ConnUser :=
  ConnUser.step (cacheSlice hash) fun _ => true

/-! ## Transfers -/

/-- A try of `blob_sync_worker`. -/
structure SyncTry where
  toDst : Bool
  srcConnected : Bool
  dstConnected : Bool
  dstConfigured : Bool
  getWritten : Bool
  get : Response
  putWritten : Bool
  piped : Bool
  put : Response

/-- `blob_sync_worker` from `evr_req_cmd_get_blob` on. It ends with both connections, or with none
at `continue_with_retry`. -/
def transfer (t : SyncTry) (cg cp : ClientConn) : Option (Option (ClientConn × ClientConn)) :=
  if t.getWritten = false then some none
  else
    match (cg.request t.get).readRespHeader with
    | none => none
    | some (getResp, cg) =>
      if maxBlobDataSize < getResp.bodySize then some none
      else
        match cg.read 1 with
        | none => none
        | some (_, cg) =>
          if getResp.statusCode ≠ statusCodeOk then some none
          else if t.putWritten = false then some none
          else
            match cg.read (respBlobSize getResp.bodySize) with
            | none => none
            | some (_, cg) =>
              if t.piped = false then some none
              else
                match (cp.request t.put).readRespHeader with
                | none => none
                | some (putResp, cp) =>
                  if putResp.statusCode ≠ statusCodeOk then some none else some (some (cg, cp))

/-- `blob_sync_worker`, with none for a connection that is not open. -/
structure SyncTransfers where
  src : Option ClientConn
  dst : Option ClientConn
  tries : Nat
  waits : Bool
  ended : Bool

namespace SyncTransfers

def start : SyncTransfers :=
  ⟨none, none, 0, false, false⟩

/-- `continue_with_retry`, and the end after the last try. -/
def retry (w : SyncTransfers) : SyncTransfers :=
  ⟨none, none, w.tries + 1, false, maxTries ≤ w.tries + 1⟩

/-- Both connections after a transfer. -/
def transferred (t : SyncTry) (cg cp : ClientConn) : SyncTransfers :=
  if t.toDst then ⟨some cg, some cp, 0, false, false⟩ else ⟨some cp, some cg, 0, false, false⟩

/-- The loop body of `blob_sync_worker`. -/
def next (w : SyncTransfers) (t : SyncTry) : SyncTransfers :=
  if w.waits ∨ w.ended then w
  else if w.src = none ∧ t.srcConnected = false then w.retry
  else if w.dst = none ∧ t.dstConnected = false then w.retry
  else if w.dst = none ∧ t.dstConfigured = false then ⟨none, none, w.tries, false, true⟩
  else
    let src := w.src.getD .fresh
    let dst := w.dst.getD .fresh
    let (cg, cp) := if t.toDst then (src, dst) else (dst, src)
    match transfer t cg cp with
    | none => { w with waits := true }
    | some none => w.retry
    | some (some (cg, cp)) => transferred t cg cp

/-- It does not wait, and has read all it was sent on the connections that are open. -/
def Settled (w : SyncTransfers) : Prop :=
  w.waits = false ∧ ∀ c, w.src = some c ∨ w.dst = some c → c.Ready

end SyncTransfers

/-! ## The exits -/

/-- The blob is new, and the server stores it. -/
def PutCall.Stores (call : PutCall) : Prop :=
  call.statWritten = true ∧ call.stat.statusCode = statusCodeBlobNotFound ∧
    call.putWritten = true ∧ call.put.statusCode = statusCodeOk

/-- No put is answered with a body. -/
def ConnUser.PutsWell (u : ConnUser) (call : PutCall) : Prop :=
  u.inUse = true → call.Stores → call.put.body = []

/-- The response is within the limit, and no memory or hash is missing for its blob. -/
def SliceCall.Fits (call : SliceCall) : Prop :=
  call.written = true → call.resp.body.length ≤ maxBlobDataSize ∧
    (call.resp.statusCode = statusCodeOk → call.resp.body ≠ [] →
      call.allocated = true ∧ call.hashOpened = true)

/-- The response to the get has flags, or is too big to be read at all, and the one to the put has
no body. -/
def SyncTry.Fits (t : SyncTry) : Prop :=
  t.getWritten = true → t.get.body.length ≤ maxBlobDataSize →
    t.get.body ≠ [] ∧ (t.get.statusCode = statusCodeOk → t.putWritten = true → t.piped = true →
      t.put.statusCode = statusCodeOk → t.put.body = [])

namespace SyncTransfers

/-- Both connections are there. -/
def Connects (w : SyncTransfers) (t : SyncTry) : Prop :=
  w.ended = false ∧ (w.src = none → t.srcConnected = true) ∧
    (w.dst = none → t.dstConnected = true ∧ t.dstConfigured = true)

/-- Both are there for a try that does not go wrong. -/
def Transfers (w : SyncTransfers) (t : SyncTry) : Prop :=
  w.Connects t → t.Fits

end SyncTransfers

namespace ExchangeLemmas

open GetLemmas

variable {c : ClientConn} {r : Response}

/-! ## Reading a response -/

theorem read_of_unread {n : Nat} {data rest : Bytes} (hc : c.unread = data ++ rest)
    (hn : data.length = n) : c.read n = some (data, { c with unread := rest }) := by
  rw [ClientConn.read, hc, readN_append hn]
  rfl

theorem read_all {n : Nat} (hn : c.unread.length = n) :
    c.read n = some (c.unread, { c with unread := [] }) :=
  read_of_unread (List.append_nil _).symm hn

/-- The header of the response to a request, before which nothing was left. -/
theorem readRespHeader_request (hc : c.unread = []) :
    (c.request r).readRespHeader =
      some (⟨r.statusCode, r.body.length⟩, { c with unread := r.body }) := by
  have hread : (c.request r).read respHeaderSize =
      some (formatRespHeader ⟨r.statusCode, r.body.length⟩, { c with unread := r.body }) := by
    refine read_of_unread ?_ (length_formatRespHeader _)
    rw [ClientConn.request, hc, List.nil_append, Response.bytes]
  rw [ClientConn.readRespHeader, hread]
  show some (parseRespHeader (formatRespHeader _), _) = _
  rw [parse_formatRespHeader, Nat.mod_eq_of_lt r.fits]

theorem notFound_ne_ok : statusCodeBlobNotFound ≠ statusCodeOk := by decide

/-! ## Stat and put -/

theorem statAndPut_stores (hc : c.Ready) {call : PutCall} (h : call.Stores) :
    statAndPut call c = some (.ok, { c with unread := call.put.body }) := by
  obtain ⟨hstat, hcode, hput, hok⟩ := h
  have hnotOk : ¬call.stat.statusCode = statusCodeOk := by
    rw [hcode]
    exact notFound_ne_ok
  have hbody : call.stat.body = [] := call.stat.empty_of_notFound hcode
  unfold statAndPut
  rw [if_neg (ne_false_of_eq_true hstat), readRespHeader_request hc.2]
  dsimp only
  rw [if_neg hnotOk, if_neg (not_not_intro hcode), hbody, if_neg (not_not_intro List.length_nil),
    if_neg (ne_false_of_eq_true hput), readRespHeader_request rfl]
  dsimp only
  rw [if_neg (not_not_intro hok)]

/-- Where nothing is stored, bytes are left behind only after an error. -/
theorem statAndPut_not_stores (hc : c.Ready) {call : PutCall} (h : ¬call.Stores) :
    ∃ res c', statAndPut call c = some (res, c') ∧ (res = .error ∨ res = .exists_ ∧ c'.Ready) := by
  unfold statAndPut
  split
  · exact ⟨.error, c, rfl, .inl rfl⟩
  · next hstat =>
    rw [readRespHeader_request hc.2]
    dsimp only
    split
    · split
      · exact ⟨.error, _, rfl, .inl rfl⟩
      · next hsize =>
        rw [read_all (not_not.mp hsize)]
        exact ⟨.exists_, _, rfl, .inr ⟨rfl, hc.1, rfl⟩⟩
    · split
      · exact ⟨.error, _, rfl, .inl rfl⟩
      · next hcode =>
        have hbody : call.stat.body = [] := call.stat.empty_of_notFound (not_not.mp hcode)
        rw [hbody, if_neg (not_not_intro List.length_nil)]
        split
        · exact ⟨.error, _, rfl, .inl rfl⟩
        · next hput =>
          rw [readRespHeader_request rfl]
          dsimp only
          have hrefused : call.put.statusCode ≠ statusCodeOk := fun hok =>
            h ⟨eq_true_of_ne_false hstat, not_not.mp hcode, eq_true_of_ne_false hput, hok⟩
          rw [if_pos hrefused]
          exact ⟨.error, _, rfl, .inl rfl⟩

theorem settled_putFile_iff {u : ConnUser} (hu : u.Settled) (call : PutCall) :
    (putFile u call).Settled ↔ u.PutsWell call := by
  unfold putFile ConnUser.step ConnUser.PutsWell
  cases huse : u.inUse with
  | false =>
    rw [if_pos (.inr rfl)]
    exact iff_of_true hu fun h => (Bool.false_ne_true h).elim
  | true =>
    have hc := hu.2 huse
    rw [if_neg (by simp [hu.1])]
    by_cases hstores : call.Stores
    · rw [statAndPut_stores hc hstores]
      constructor
      · intro h _ _
        exact (h.2 rfl).2
      · intro h
        exact ⟨rfl, fun _ => ⟨hc.1, h rfl hstores⟩⟩
    · obtain ⟨res, c', hcall, hend⟩ := statAndPut_not_stores hc hstores
      rw [hcall]
      refine iff_of_true ⟨rfl, fun hgoesOn => ?_⟩ fun _ h => absurd h hstores
      rcases hend with rfl | ⟨-, hready⟩
      · cases hgoesOn
      · exact hready

/-! ## Slices -/

theorem cacheSlice_fits (hash : Bytes → BlobRef) (hc : c.Ready) {call : SliceCall}
    (h : call.Fits) : ∃ res c', cacheSlice hash call c = some (res, c') ∧ c'.Ready := by
  unfold cacheSlice
  split
  · exact ⟨.error, c, rfl, hc⟩
  · next hwritten =>
    obtain ⟨hlimit, hmemory⟩ := h (eq_true_of_ne_false hwritten)
    rw [readRespHeader_request hc.2]
    dsimp only
    rw [if_neg (Nat.not_lt.mpr hlimit)]
    split
    · rw [read_all rfl]
      exact ⟨.error, _, rfl, hc.1, rfl⟩
    · next hblob =>
      obtain ⟨hok, hsize⟩ := not_or.mp hblob
      obtain ⟨flags, data, hbody⟩ : ∃ flags data, call.resp.body = flags :: data := by
        cases hbody : call.resp.body with
        | nil => rw [hbody] at hsize; exact absurd Nat.one_pos hsize
        | cons flags data => exact ⟨flags, data, rfl⟩
      obtain ⟨halloc, hhash⟩ := hmemory (not_not.mp hok) (by rw [hbody]; exact List.cons_ne_nil _ _)
      rw [@read_of_unread _ 1 [flags] data hbody rfl]
      dsimp only
      rw [if_neg (by simp [halloc, hhash]), hbody, read_all (by simp)]
      exact ⟨_, _, rfl, hc.1, rfl⟩

theorem cacheSlice_not_fits (hash : Bytes → BlobRef) (hc : c.Ready) {call : SliceCall}
    (h : ¬call.Fits) : ∃ res c', cacheSlice hash call c = some (res, c') ∧ ¬c'.Ready := by
  obtain ⟨hwritten, hbad⟩ := Classical.not_imp.mp h
  unfold cacheSlice
  rw [if_neg (ne_false_of_eq_true hwritten), readRespHeader_request hc.2]
  dsimp only
  split
  · next hover =>
    refine ⟨.error, _, rfl, fun hready => ?_⟩
    have hempty : call.resp.body = [] := hready.2
    rw [hempty] at hover
    exact absurd hover (Nat.not_lt_zero _)
  · next hlimit =>
    obtain ⟨hok, hrest⟩ := Classical.not_imp.mp fun hall => hbad ⟨Nat.not_lt.mp hlimit, hall⟩
    obtain ⟨hbody, hmemory⟩ := Classical.not_imp.mp hrest
    obtain ⟨flags, data, hbody⟩ := List.exists_cons_of_ne_nil hbody
    rw [if_neg (by simp [hok, hbody]), @read_of_unread _ 1 [flags] data hbody rfl]
    dsimp only
    rw [if_pos (by simpa [or_iff_not_imp_left] using hmemory)]
    exact ⟨.error, _, rfl, fun hready => Bool.false_ne_true hready.1.symm⟩

theorem settled_readFile_iff (hash : Bytes → BlobRef) {u : ConnUser} (hu : u.Settled)
    (huse : u.inUse = true) (call : SliceCall) :
    (readFile hash u call).Settled ↔ call.Fits := by
  have hc := hu.2 huse
  unfold readFile ConnUser.step
  rw [if_neg (by simp [hu.1, huse])]
  by_cases hfits : call.Fits
  · obtain ⟨res, c', hcall, hready⟩ := cacheSlice_fits hash hc hfits
    rw [hcall]
    exact iff_of_true ⟨rfl, fun _ => hready⟩ hfits
  · obtain ⟨res, c', hcall, hready⟩ := cacheSlice_not_fits hash hc hfits
    rw [hcall]
    exact iff_of_false (fun h => hready (h.2 rfl)) hfits

/-- The file stays open after an error. -/
theorem readFile_inUse (hash : Bytes → BlobRef) {u : ConnUser} (huse : u.inUse = true)
    (call : SliceCall) : (readFile hash u call).inUse = true := by
  unfold readFile ConnUser.step
  split
  · exact huse
  · split
    · exact huse
    · rfl

/-! ## Transfers -/

section Transfer

variable {t : SyncTry} {cg cp : ClientConn}

theorem transfer_not_written (h : t.getWritten = false) : transfer t cg cp = some none := by
  rw [transfer, if_pos h]

theorem transfer_too_big (hcg : cg.Ready) (hwritten : t.getWritten = true)
    (hbig : maxBlobDataSize < t.get.body.length) : transfer t cg cp = some none := by
  rw [transfer, if_neg (ne_false_of_eq_true hwritten), readRespHeader_request hcg.2]
  exact if_pos hbig

/-- The flags of a response without a body never come. -/
theorem transfer_waits (hcg : cg.Ready) (hwritten : t.getWritten = true) (hbody : t.get.body = []) :
    transfer t cg cp = none := by
  rw [transfer, if_neg (ne_false_of_eq_true hwritten), readRespHeader_request hcg.2]
  dsimp only
  rw [hbody, List.length_nil, if_neg (Nat.not_lt_zero _)]
  rfl

/-- A blob that is neither missing nor too big. -/
theorem transfer_blob (hcg : cg.Ready) (hcp : cp.Ready) (hwritten : t.getWritten = true)
    (hsmall : t.get.body.length ≤ maxBlobDataSize) (hbody : t.get.body ≠ []) :
    transfer t cg cp =
      if t.get.statusCode = statusCodeOk ∧ t.putWritten = true ∧ t.piped = true ∧
          t.put.statusCode = statusCodeOk
      then some (some ({ cg with unread := [] }, { cp with unread := t.put.body }))
      else some none := by
  obtain ⟨flags, data, hbody⟩ := List.exists_cons_of_ne_nil hbody
  rw [transfer, if_neg (ne_false_of_eq_true hwritten), readRespHeader_request hcg.2]
  dsimp only
  rw [if_neg (Nat.not_lt.mpr hsmall), @read_of_unread _ 1 [flags] data hbody rfl]
  dsimp only
  have hsize : respBlobSize t.get.body.length = data.length := by
    rw [hbody, List.length_cons, Nat.add_comm, respBlobSize_succ]
  rw [hsize, read_all rfl]
  dsimp only
  rw [readRespHeader_request hcp.2]
  dsimp only
  by_cases hok : t.get.statusCode = statusCodeOk
  · cases hput : t.putWritten with
    | false => simp [hok]
    | true =>
      cases hpiped : t.piped with
      | false => simp [hok]
      | true =>
        by_cases hstored : t.put.statusCode = statusCodeOk
        · simp [hok, hstored]
        · simp [hok, hstored]
  · simp [hok]

theorem transfer_fits (hcg : cg.Ready) (hcp : cp.Ready) (h : t.Fits) :
    ∃ out, transfer t cg cp = some out ∧ ∀ p, out = some p → p.1.Ready ∧ p.2.Ready := by
  cases hwritten : t.getWritten with
  | false => exact ⟨none, transfer_not_written hwritten, by rintro p ⟨⟩⟩
  | true =>
    by_cases hbig : maxBlobDataSize < t.get.body.length
    · exact ⟨none, transfer_too_big hcg hwritten hbig, by rintro p ⟨⟩⟩
    · obtain ⟨hbody, hput⟩ := h hwritten (Nat.not_lt.mp hbig)
      rw [transfer_blob hcg hcp hwritten (Nat.not_lt.mp hbig) hbody]
      split
      · next hok =>
        refine ⟨_, rfl, ?_⟩
        rintro p ⟨⟩
        exact ⟨⟨hcg.1, rfl⟩, hcp.1, hput hok.1 hok.2.1 hok.2.2.1 hok.2.2.2⟩
      · exact ⟨none, rfl, by rintro p ⟨⟩⟩

theorem transfer_not_fits (hcg : cg.Ready) (hcp : cp.Ready) (h : ¬t.Fits) :
    transfer t cg cp = none ∨ ∃ p, transfer t cg cp = some (some p) ∧ ¬p.2.Ready := by
  obtain ⟨hwritten, hrest⟩ := Classical.not_imp.mp h
  obtain ⟨hsmall, hbad⟩ := Classical.not_imp.mp hrest
  by_cases hbody : t.get.body = []
  · exact .inl (transfer_waits hcg hwritten hbody)
  · right
    obtain ⟨hok, hput⟩ := Classical.not_imp.mp fun hall => hbad ⟨hbody, hall⟩
    obtain ⟨hputWritten, hput⟩ := Classical.not_imp.mp hput
    obtain ⟨hpiped, hput⟩ := Classical.not_imp.mp hput
    obtain ⟨hstored, hleft⟩ := Classical.not_imp.mp hput
    rw [transfer_blob hcg hcp hwritten hsmall hbody, if_pos ⟨hok, hputWritten, hpiped, hstored⟩]
    exact ⟨_, rfl, fun hready => hleft hready.2⟩

end Transfer

section Worker

variable {w : SyncTransfers}

theorem settled_closed (tries : Nat) (ended : Bool) :
    SyncTransfers.Settled ⟨none, none, tries, false, ended⟩ :=
  ⟨rfl, by rintro c (⟨⟨⟩⟩ | ⟨⟨⟩⟩)⟩

theorem ready_getD {c : Option ClientConn} (h : ∀ d, c = some d → d.Ready) :
    (c.getD .fresh).Ready := by
  cases c with
  | none => exact ⟨rfl, rfl⟩
  | some d => exact h d rfl

theorem settled_transferred_iff (t : SyncTry) (cg cp : ClientConn) :
    (SyncTransfers.transferred t cg cp).Settled ↔ cg.Ready ∧ cp.Ready := by
  unfold SyncTransfers.transferred
  constructor
  · rintro ⟨-, h⟩
    split at h
    · exact ⟨h cg (.inl rfl), h cp (.inr rfl)⟩
    · exact ⟨h cg (.inr rfl), h cp (.inl rfl)⟩
  · rintro ⟨hcg, hcp⟩
    split
    · refine ⟨rfl, ?_⟩
      rintro c (⟨⟨⟩⟩ | ⟨⟨⟩⟩)
      · exact hcg
      · exact hcp
    · refine ⟨rfl, ?_⟩
      rintro c (⟨⟨⟩⟩ | ⟨⟨⟩⟩)
      · exact hcp
      · exact hcg

theorem settled_next_iff (hw : w.Settled) (t : SyncTry) :
    (w.next t).Settled ↔ w.Transfers t := by
  unfold SyncTransfers.next SyncTransfers.Transfers
  split
  · next hended =>
    refine iff_of_true hw fun hconnects => ?_
    rcases hended with hwaits | hended
    · exact absurd (hw.1.symm.trans hwaits) Bool.false_ne_true
    · exact absurd (hconnects.1.symm.trans hended) Bool.false_ne_true
  split
  · next hsrc =>
    refine iff_of_true (settled_closed ..) fun hconnects => ?_
    exact absurd (hsrc.2.symm.trans (hconnects.2.1 hsrc.1)) Bool.false_ne_true
  split
  · next hdst =>
    refine iff_of_true (settled_closed ..) fun hconnects => ?_
    exact absurd (hdst.2.symm.trans (hconnects.2.2 hdst.1).1) Bool.false_ne_true
  split
  · next hdst =>
    refine iff_of_true (settled_closed ..) fun hconnects => ?_
    exact absurd (hdst.2.symm.trans (hconnects.2.2 hdst.1).2) Bool.false_ne_true
  · next hended hsrc hdst hconf =>
    have hconnects : w.Connects t := by
      refine ⟨Bool.eq_false_iff.mpr fun h => hended (.inr h), fun hnone => ?_,
        fun hnone => ⟨?_, ?_⟩⟩
      · exact eq_true_of_ne_false fun h => hsrc ⟨hnone, h⟩
      · exact eq_true_of_ne_false fun h => hdst ⟨hnone, h⟩
      · exact eq_true_of_ne_false fun h => hconf ⟨hnone, h⟩
    have hsrcReady := ready_getD fun d hd => hw.2 d (.inl hd)
    have hdstReady := ready_getD fun d hd => hw.2 d (.inr hd)
    obtain ⟨cg, cp, hdir, hcg, hcp⟩ : ∃ cg cp, (if t.toDst then
        (w.src.getD .fresh, w.dst.getD .fresh) else (w.dst.getD .fresh, w.src.getD .fresh)) =
          (cg, cp) ∧ cg.Ready ∧ cp.Ready := by
      split
      · exact ⟨_, _, rfl, hsrcReady, hdstReady⟩
      · exact ⟨_, _, rfl, hdstReady, hsrcReady⟩
    simp only [hdir]
    by_cases hfits : t.Fits
    · obtain ⟨out, hout, hready⟩ := transfer_fits hcg hcp hfits
      rw [hout]
      refine iff_of_true ?_ fun _ => hfits
      cases out with
      | none => exact settled_closed ..
      | some p => exact (settled_transferred_iff t p.1 p.2).mpr (hready p rfl)
    · refine iff_of_false ?_ fun h => hfits (h hconnects)
      rcases transfer_not_fits hcg hcp hfits with hwaits | ⟨p, hleft, hnot⟩
      · rw [hwaits]
        exact fun h => Bool.false_ne_true h.1.symm
      · rw [hleft]
        exact fun h => hnot ((settled_transferred_iff t p.1 p.2).mp h).2

end Worker

end ExchangeLemmas

/-! ## Results -/

open ExchangeLemmas

/-- The three users of a connection never wait for bytes that are not sent, and have after each call
read all they were sent or do not use the connection again, if and only if no put is answered with a
body, no slice is over the limit or meets a failed allocation, and no transfer gets a response
without a body. -/
theorem exchanges_settled_iff (hash : Bytes → BlobRef) (puts : List PutCall)
    (slices : List SliceCall) (tries : List SyncTry) :
    ((∀ before, before <+: puts → (exec putFile .start before).Settled) ↔
        Along putFile ConnUser.PutsWell .start puts) ∧
      ((∀ before, before <+: slices → (exec (readFile hash) .start before).Settled) ↔
        ∀ call ∈ slices, call.Fits) ∧
      ((∀ before, before <+: tries → (exec SyncTransfers.next .start before).Settled) ↔
        Along SyncTransfers.next SyncTransfers.Transfers .start tries) := by
  have hstart : ConnUser.start.Settled := ⟨rfl, fun _ => ⟨rfl, rfl⟩⟩
  refine ⟨?_, ?_, ?_⟩
  · refine invariant_iff_along ConnUser.Settled hstart fun before call _ h => ?_
    rw [exec_append_singleton]
    exact settled_putFile_iff h call
  · rw [← @along_inputs_iff _ _ (readFile hash) SliceCall.Fits .start]
    refine goal_iff_along (fun u => u.Settled ∧ u.inUse = true) ConnUser.Settled ⟨hstart, rfl⟩
      (fun _ h => h.1) (fun u call h => settled_readFile_iff hash h.1 h.2 call) ?_
    intro u call h hfits
    exact ⟨(settled_readFile_iff hash h.1 h.2 call).mpr hfits, readFile_inUse hash h.2 call⟩
  · refine invariant_iff_along SyncTransfers.Settled (settled_closed 0 false) fun before t _ h => ?_
    rw [exec_append_singleton]
    exact settled_next_iff h t

/-- A server without the blob. -/
def blobNotFound : Response :=
  ⟨statusCodeBlobNotFound, [], by decide, fun _ => rfl⟩

/-- The blob is gone from the source when it is its turn. -/
def goneBlob : SyncTry :=
  ⟨true, true, true, true, true, blobNotFound, true, true, blobNotFound⟩

/-- The worker waits for the flags of the blob. -/
theorem gone_blob_waits :
    ¬∀ (tries before : List SyncTry), before <+: tries →
      (exec SyncTransfers.next .start before).Settled := by
  intro h
  have hsettled := h [goneBlob] [goneBlob] (List.prefix_refl _)
  exact absurd hsettled.1 (by decide +kernel)

end Everarch
