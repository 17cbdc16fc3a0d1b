import Everarch.Server.Framing

/-!
# Fetching blobs

The client side of the get command, evr-glacier-client.c and those who do without
`evr_read_cmd_get_resp_blob`: `blob_sync_worker` and `evr_write_blob_to_file`. A connection
is the bytes that come over it; a read that asks for more than that fails or waits.

* `getResponse`: what the server sends for a blob.
* `fetchBlob`, `syncFetch`, `fileFetch`: the three ways to receive it.
-/

namespace Everarch

/-! ## Responses -/

/-- `struct evr_resp_header`. -/
structure RespHeader where
  statusCode : UInt8
  bodySize : Nat
deriving DecidableEq

/-- `evr_resp_header_n_size`. -/
def respHeaderSize : Nat := 5

def statusCodeOk : UInt8 := 0x20

/-- `evr_format_resp_header`. -/
def formatRespHeader (h : RespHeader) : Bytes :=
  h.statusCode :: beBytes 4 h.bodySize

/-- `evr_parse_resp_header`. -/
def parseRespHeader (buf : Bytes) : RespHeader :=
  ⟨buf.getD 0 0, ofBeBytes (readAt buf 1 4)⟩

/-- `send_get_response` for a blob that exists, and the blob. -/
def getResponse (flags : Int) (data : Bytes) : Bytes :=
  formatRespHeader ⟨statusCodeOk, 1 + data.length⟩ ++ [UInt8.ofInt flags] ++ data

/-- `read_n`, with what comes afterwards. -/
def readN (n : Nat) (stream : Bytes) : Option (Bytes × Bytes) :=
  if n ≤ stream.length then some (stream.take n, stream.drop n) else none

/-- `resp_body_size - sizeof(uint8_t)`, which wraps around for a body without flags. -/
def respBlobSize (bodySize : Nat) : Nat :=
  if bodySize = 0 then 2 ^ 64 - 1 else bodySize - 1

/-! ## Clients -/

/-- `evr_req_cmd_get_blob` after it has sent the command. -/
def reqCmdGetBlob (stream : Bytes) : Option (RespHeader × Bytes) :=
  match readN respHeaderSize stream with
  | none => none
  | some (buf, rest) =>
    let resp := parseRespHeader buf
    if maxBlobDataSize < resp.bodySize then none else some (resp, rest)

/-- `evr_read_cmd_get_resp_blob`. -/
def readCmdGetRespBlob (hash : Bytes → BlobRef) (bodySize : Nat) (expectedRef : BlobRef)
    (stream : Bytes) : Option Bytes :=
  if bodySize < 1 ∨ maxBlobDataSize + 1 < bodySize then none
  else
    match readN 1 stream with
    | none => none
    | some (_, rest) =>
      match readN (respBlobSize bodySize) rest with
      | none => none
      | some (data, _) => if hash data = expectedRef then some data else none

/-- `evr_fetch_xml` and the like up to the blob's bytes. -/
def fetchBlob (hash : Bytes → BlobRef) (key : BlobRef) (stream : Bytes) : Option Bytes :=
  match reqCmdGetBlob stream with
  | none => none
  | some (resp, rest) =>
    if resp.statusCode ≠ statusCodeOk then none
    else readCmdGetRespBlob hash resp.bodySize key rest

/-- The get of `blob_sync_worker`, up to what it sends on. -/
def syncFetch (stream : Bytes) : Option Bytes :=
  match reqCmdGetBlob stream with
  | none => none
  | some (resp, rest) =>
    match readN 1 rest with
    | none => none
    | some (_, rest) =>
      if resp.statusCode ≠ statusCodeOk then none
      else (readN (respBlobSize resp.bodySize) rest).map (·.1)

/-- `evr_write_blob_to_file` up to the content of the file. -/
def fileFetch (hash : Bytes → BlobRef) (key : BlobRef) (stream : Bytes) : Option Bytes :=
  match reqCmdGetBlob stream with
  | none => none
  | some (resp, rest) =>
    if resp.statusCode ≠ statusCodeOk then none
    else if maxBlobDataSize < resp.bodySize then none
    else
      match readN 1 rest with
      | none => none
      | some (_, rest) =>
        match readN (respBlobSize resp.bodySize) rest with
        | none => none
        | some (data, _) => if hash data = key then some data else none

namespace GetLemmas

/-! ## A response -/

theorem readN_append {n : Nat} {data rest : Bytes} (h : data.length = n) :
    readN n (data ++ rest) = some (data, rest) := by
  unfold readN
  rw [if_pos (by rw [List.length_append, h]; exact Nat.le_add_right ..), List.take_left' h,
    List.drop_left' h]

theorem length_of_readN {n : Nat} {stream data rest : Bytes} (h : readN n stream = some (data, rest)) :
    data.length = n := by
  unfold readN at h
  split at h
  · next hle =>
    cases h
    exact List.length_take_of_le hle
  · cases h

theorem length_formatRespHeader (h : RespHeader) : (formatRespHeader h).length = respHeaderSize := by
  unfold formatRespHeader
  rw [List.length_cons, length_beBytes]
  rfl

theorem parse_formatRespHeader (h : RespHeader) :
    parseRespHeader (formatRespHeader h) = ⟨h.statusCode, h.bodySize % 2 ^ 32⟩ := by
  have hread : readAt (formatRespHeader h) 1 4 = beBytes 4 h.bodySize := by
    have hsplit : formatRespHeader h = [h.statusCode] ++ beBytes 4 h.bodySize ++ [] :=
      (List.append_nil _).symm
    exact readAt_middle hsplit rfl (length_beBytes 4 _)
  unfold parseRespHeader
  rw [hread, ofBeBytes_beBytes_mod]
  rfl

/-- What `evr_req_cmd_get_blob` makes of a response for a blob. -/
theorem reqCmdGetBlob_getResponse (flags : Int) (data rest : Bytes) :
    reqCmdGetBlob (getResponse flags data ++ rest) =
      if maxBlobDataSize < (1 + data.length) % 2 ^ 32 then none
      else some (⟨statusCodeOk, (1 + data.length) % 2 ^ 32⟩, UInt8.ofInt flags :: (data ++ rest)) := by
  have hsplit : getResponse flags data ++ rest =
      formatRespHeader ⟨statusCodeOk, 1 + data.length⟩ ++ (UInt8.ofInt flags :: (data ++ rest)) := by
    unfold getResponse
    rw [List.append_assoc, List.append_assoc]
    rfl
  unfold reqCmdGetBlob
  rw [hsplit, readN_append (length_formatRespHeader _)]
  dsimp only
  rw [parse_formatRespHeader]

theorem respBlobSize_succ (n : Nat) : respBlobSize (1 + n) = n := by
  unfold respBlobSize
  rw [if_neg (Nat.ne_of_gt (Nat.lt_add_right n Nat.one_pos)), Nat.add_sub_cancel_left]

section Response

variable {hash : Bytes → BlobRef} {key : BlobRef} {data : Bytes} (flags : Int) (rest : Bytes)

theorem bodySize_of_lt (h : data.length < maxBlobDataSize) :
    (1 + data.length) % 2 ^ 32 = 1 + data.length ∧ 1 + data.length ≤ maxBlobDataSize := by
  unfold maxBlobDataSize at *
  omega

/-- All clients receive a blob that is not of the greatest size. -/
theorem fetched_of_lt (hkey : hash data = key) (h : data.length < maxBlobDataSize) :
    fetchBlob hash key (getResponse flags data ++ rest) = some data ∧
      syncFetch (getResponse flags data ++ rest) = some data ∧
      fileFetch hash key (getResponse flags data ++ rest) = some data := by
  obtain ⟨hsize, hle⟩ := bodySize_of_lt h
  have hreq := reqCmdGetBlob_getResponse flags data rest
  rw [hsize, if_neg (Nat.not_lt.mpr hle)] at hreq
  have hflags : readN 1 (UInt8.ofInt flags :: (data ++ rest)) =
      some ([UInt8.ofInt flags], data ++ rest) :=
    @readN_append 1 [UInt8.ofInt flags] (data ++ rest) rfl
  have hdata : readN (respBlobSize (1 + data.length)) (data ++ rest) = some (data, rest) := by
    rw [respBlobSize_succ]
    exact readN_append rfl
  refine ⟨?_, ?_, ?_⟩
  · unfold fetchBlob
    rw [hreq]
    dsimp only
    rw [if_neg (not_not.mpr rfl)]
    unfold readCmdGetRespBlob
    rw [if_neg (not_or.mpr ⟨Nat.not_lt.mpr (Nat.le_add_right ..),
      Nat.not_lt.mpr (Nat.le_succ_of_le hle)⟩), hflags]
    dsimp only
    rw [hdata]
    exact if_pos hkey
  · unfold syncFetch
    rw [hreq]
    dsimp only
    rw [hflags]
    dsimp only
    rw [if_neg (not_not.mpr rfl), hdata]
    rfl
  · unfold fileFetch
    rw [hreq]
    dsimp only
    rw [if_neg (not_not.mpr rfl), if_neg (Nat.not_lt.mpr hle), hflags]
    dsimp only
    rw [hdata]
    exact if_pos hkey

theorem bodySize_of_fetched {bodySize : Nat} {stream : Bytes}
    (h : readCmdGetRespBlob hash bodySize key stream = some data) :
    bodySize = 1 + data.length := by
  unfold readCmdGetRespBlob at h
  split at h
  · cases h
  · next hsize =>
    split at h
    · cases h
    · split at h
      · cases h
      · next data' _ hread =>
        split at h
        · cases h
          have hlen := length_of_readN hread
          have hpos : ¬bodySize < 1 := fun hlt => hsize (.inl hlt)
          rw [respBlobSize, if_neg (Nat.ne_of_gt (Nat.not_lt.mp hpos))] at hlen
          omega
        · cases h

/-- A blob of the greatest size, or a bigger one, is not received as it is. -/
theorem not_fetched_of_ge (h : maxBlobDataSize ≤ data.length) :
    fetchBlob hash key (getResponse flags data ++ rest) ≠ some data := by
  intro hfetch
  unfold fetchBlob at hfetch
  rw [reqCmdGetBlob_getResponse] at hfetch
  split at hfetch
  · cases hfetch
  · next resp rest' hsome =>
    split at hsome
    · cases hsome
    · next hle =>
      cases hsome
      -- the size in the header has wrapped around
      have hwrapped : (1 + data.length) % 2 ^ 32 < 1 + data.length := by
        unfold maxBlobDataSize at *
        omega
      rw [if_neg (not_not.mpr rfl)] at hfetch
      exact Nat.ne_of_lt hwrapped (bodySize_of_fetched hfetch)

end Response

end GetLemmas

end Everarch
