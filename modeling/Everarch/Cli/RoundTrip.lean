import Everarch.Cli.GetFile
import Everarch.Cli.Slices
import Everarch.Keys

/-!
# Posting a file and getting it back

`evr_cli_post_file` with `evr_post_and_collect_file_slice`, and a run of `evr_cli_get_file` on the
claim it writes. The storage is a parameter: `put` is what `evr_stat_and_put` returns, and `get` has
the blob that the storage sends for a ref. So are libxml and gpgme: `sign` makes the blob of a claim
with these slice elements, and `verify` gets them back from it.

* `postFile`: from the file to the ref of the claim.
* `GetFile.fetch`: `evr_cli_get_file` up to its loop.
* `GetFile.Answered`: the steps of a run in which the storage answers and nothing breaks.

Result: `file_round_trip_iff`; `large_claim_not_posted`: a file of too many slices.
-/

namespace Everarch

/-! ## Posting -/

/-- `struct evr_file_slice`. -/
structure FileSlice where
  ref : BlobRef
  size : Nat

/-- `evr_chunk_set_max_chunks`. -/
def chunkSetMaxChunks : Nat := 16 + 1

/-- `evr_chunk_setify`. A chunk is the memory behind its pointer. -/
def chunkSetify (mem : Bytes) (size : Nat) : Option (List Bytes) :=
  if chunkSetMaxChunks < size / chunkSize + 1 then none
  else some ((List.range (size / chunkSize + 1)).map fun i => mem.drop (i * chunkSize))

/-- What the loops of `evr_calc_blob_ref` and `write_chunk_set` take of the chunks. -/
def chunkBytes : Nat → List Bytes → Bytes
  | _, [] => []
  | remaining, c :: cs =>
    c.take (min remaining chunkSize) ++ chunkBytes (remaining - min remaining chunkSize) cs

/-- `evr_calc_blob_ref`. -/
def calcBlobRef (hash : Bytes → BlobRef) (size : Nat) (chunks : List Bytes) : BlobRef :=
  hash (chunkBytes size chunks)

/-- The slices of `struct post_file_ctx`. `posted` has what the storage was given; it is no part of
the process. -/
structure PostFileCtx where
  slices : List FileSlice
  posted : List (BlobRef × Bytes)

section Posting

variable (hash : Bytes → BlobRef) (put : List (BlobRef × Bytes) → BlobRef → Bytes → Res)

/-- `evr_post_and_collect_file_slice`. -/
def postAndCollectFileSlice (ctx : PostFileCtx) (mem : Bytes) (size : Nat) : Option PostFileCtx :=
  match chunkSetify mem size with
  | none => none
  | some chunks =>
    let ref := calcBlobRef hash size chunks
    let blob := chunkBytes size chunks
    let putRes := put ctx.posted ref blob
    if putRes ≠ .ok ∧ putRes ≠ .exists_ then none
    else some ⟨ctx.slices ++ [⟨ref, size⟩], ctx.posted ++ [(ref, blob)]⟩

/-- The attributes ref and size of the slice elements that `evr_append_file_claim` writes. -/
def appendFileClaim (slices : List FileSlice) : Option (List (List Char × List Char)) :=
  if slices.any fun s => 100 * 2 ^ 20 ≤ s.size then none
  else some (slices.map fun s => (fmtBlobRef s.ref, Nat.toDigits 10 s.size))

/-- `SIZE_MAX`. -/
def sizeMax : Nat := 2 ^ 64 - 1

/-- `evr_cli_post_file` with the signed claim. -/
def postClaim (posted : List (BlobRef × Bytes)) (signed : Bytes) :
    Option (BlobRef × List (BlobRef × Bytes)) :=
  match chunkSetify signed signed.length with
  | none => none
  | some chunks =>
    let ref := calcBlobRef hash signed.length chunks
    let blob := chunkBytes signed.length chunks
    let putRes := put posted ref blob
    if putRes ≠ .ok ∧ putRes ≠ .exists_ then none
    else some (ref, posted ++ [(ref, blob)])

variable (sign : List (List Char × List Char) → Bytes)

/-- `evr_cli_post_file`: the ref of the claim, and what the storage was given. -/
def postFile (f : SrcFile) : Option (BlobRef × List (BlobRef × Bytes)) :=
  let (res, ctx) := rollsumSplit (postAndCollectFileSlice hash put) f sizeMax ⟨[], []⟩
  if res ≠ .end_ then none
  else (appendFileClaim ctx.slices).bind fun slices => postClaim hash put ctx.posted (sign slices)

end Posting

/-- The slice elements of the claim of a content. -/
def fileClaim (hash : Bytes → BlobRef) (content : Bytes) : List (List Char × List Char) :=
  (contentSlices content).map fun s => (fmtBlobRef (hash s), Nat.toDigits 10 s.length)

/-- The refs of the slice elements, as `evr_cli_get_file` parses them. -/
def sliceRefs (slices : List (List Char × List Char)) : List (Option BlobRef) :=
  slices.map fun attrs =>
    let (res, ref) := parseBlobRef (Vector.replicate _ 0) attrs.1
    if res = .ok then some ref else none

/-! ## Getting -/

/-- `evr_blob_flag_claim`. -/
def blobFlagClaim : Int := 1

/-- `evr_cli_get_file` up to its loop: `evr_fetch_signed_xml` with the response that the storage
sends, and the slices of the claim. -/
def GetFile.fetch (hash : Bytes → BlobRef)
    (verify : Bytes → Option (List (List Char × List Char))) (get : BlobRef → Option Bytes)
    (ref : BlobRef) : GetFile :=
  match (get ref).bind fun signed =>
      (fetchBlob hash ref (getResponse blobFlagClaim signed)).bind verify with
  | none => ⟨[], .ended .error, [], false, []⟩
  | some slices => .start (sliceRefs slices)

/-- What the storage sends in a state of the loop: a piece of the response for the ref that was
requested. The output takes some of the bytes, and nothing fails. -/
def GetFile.Answered (get : BlobRef → Option Bytes) (s : GetFile) : GetFileEvent → Prop
  | .requested => s.place = .requesting
  | .read data =>
    data ≠ [] ∧ ∃ ref rest content, s.slices = some ref :: rest ∧ get ref = some content ∧
      ((∃ buf, s.place = .header buf ∧
          buf ++ data <+: formatRespHeader ⟨statusCodeOk, 1 + content.length⟩) ∨
        (∃ bodySize, s.place = .flags bodySize ∧ data.length = 1) ∨
        ∃ remaining hashed, s.place = .piping remaining hashed ∧
          data.length ≤ min remaining 4096 ∧ hashed ++ data <+: content)
  | .output n => ∃ remaining hashed buf, s.place = .writing remaining hashed buf ∧
      0 < n ∧ n ≤ buf.length
  | .outputClosed | .fails => False

namespace RoundTripLemmas

/-! ## What is posted -/

section Posted

variable {hash : Bytes → BlobRef} {put : List (BlobRef × Bytes) → BlobRef → Bytes → Res}

theorem chunkBytes_zero (chunks : List Bytes) : chunkBytes 0 chunks = [] := by
  induction chunks with
  | nil => rfl
  | cons c chunks ih =>
    rw [chunkBytes, Nat.zero_min, List.take_zero, List.nil_append]
    exact ih

/-- The chunks of a piece of memory, from a chunk on. -/
theorem chunkBytes_eq (mem : Bytes) (size start n : Nat) (hsize : size < n * chunkSize)
    (hmem : size ≤ mem.length - start * chunkSize) :
    chunkBytes size ((List.range' start n).map fun i => mem.drop (i * chunkSize)) =
      (mem.drop (start * chunkSize)).take size := by
  induction n generalizing start size with
  | zero => exact absurd hsize (by rw [Nat.zero_mul]; exact Nat.not_lt_zero _)
  | succ n ih =>
    rw [List.range'_succ, List.map_cons, chunkBytes]
    cases Nat.le_total size chunkSize with
    | inl hle =>
      rw [Nat.min_eq_left hle, Nat.sub_self, chunkBytes_zero, List.append_nil]
    | inr hge =>
      rw [Nat.succ_mul] at hsize
      rw [Nat.min_eq_right hge, ih (size - chunkSize) (start + 1) (by omega)
        (by rw [Nat.succ_mul]; omega), Nat.succ_mul, ← List.drop_drop, ← List.take_add,
        Nat.add_sub_cancel' hge]

theorem chunkSetify_spec {mem : Bytes} {size : Nat} (hmem : size ≤ mem.length)
    (hsize : size < chunkSetMaxChunks * chunkSize) :
    ∃ chunks, chunkSetify mem size = some chunks ∧ chunkBytes size chunks = mem.take size := by
  have hsmall : size / chunkSize < chunkSetMaxChunks := Nat.div_lt_of_lt_mul (by
    rw [Nat.mul_comm]
    exact hsize)
  have hmax : ¬chunkSetMaxChunks < size / chunkSize + 1 := Nat.not_lt.mpr hsmall
  refine ⟨_, if_neg hmax, ?_⟩
  rw [List.range_eq_range', chunkBytes_eq mem size 0 _ ?_ (by simpa using hmem), Nat.zero_mul,
    List.drop_zero]
  rw [Nat.succ_mul]
  exact Nat.lt_div_mul_add (by decide)

/-- The blobs that the storage was given and the slices that were collected are these. -/
def Collected (hash : Bytes → BlobRef) (slices : List Bytes) (ctx : PostFileCtx) : Prop :=
  ctx = ⟨slices.map fun s => ⟨hash s, s.length⟩, slices.map fun s => (hash s, s)⟩

theorem collector_post (hput : ∀ posted ref blob, put posted ref blob = .ok ∨
      put posted ref blob = .exists_) :
    SlicesLemmas.Collector (postAndCollectFileSlice hash put) (Collected hash) where
  takes slices ctx mem size h hmem hsize := by
    have hfits : size < chunkSetMaxChunks * chunkSize := Nat.lt_of_le_of_lt hsize (by decide)
    obtain ⟨chunks, hchunks, hbytes⟩ := chunkSetify_spec hmem hfits
    have hlen : (mem.take size).length = size := List.length_take_of_le hmem
    have hstored : ¬(put ctx.posted (hash (mem.take size)) (mem.take size) ≠ .ok ∧
        put ctx.posted (hash (mem.take size)) (mem.take size) ≠ .exists_) := fun hne =>
      (hput _ _ _).elim hne.1 hne.2
    refine ⟨⟨ctx.slices ++ [⟨hash (mem.take size), size⟩],
      ctx.posted ++ [(hash (mem.take size), mem.take size)]⟩, ?_, ?_⟩
    · unfold postAndCollectFileSlice
      rw [hchunks]
      dsimp only [calcBlobRef]
      rw [hbytes, if_neg hstored]
    · rw [Collected, h, List.map_append, List.map_append, List.map_singleton,
        List.map_singleton, hlen]

theorem sliceRefs_fileClaim (hash : Bytes → BlobRef) (content : Bytes) :
    sliceRefs (fileClaim hash content) =
      (contentSlices content).map fun slice => some (hash slice) := by
  unfold sliceRefs fileClaim
  rw [List.map_map]
  refine List.map_congr_left fun slice _ => ?_
  simp only [Function.comp_apply, RefTextLemmas.parseBlobRef_fmtBlobRef, if_true]

/-- The slices of the content are posted, and then its claim. -/
theorem postFile_eq (hput : ∀ posted ref blob, put posted ref blob = .ok ∨
      put posted ref blob = .exists_) (sign : List (List Char × List Char) → Bytes) (f : SrcFile)
    (hsize : f.unread.length < sizeMax) :
    postFile hash put sign f = postClaim hash put
      ((contentSlices f.unread).map fun s => (hash s, s)) (sign (fileClaim hash f.unread)) := by
  have hnothing : Collected hash [] ⟨[], []⟩ := rfl
  obtain ⟨ctx, hsplit, hctx⟩ := rollsumSplit_collects (collector_post hput) hnothing f hsize
  have hclaim : ¬(ctx.slices.any fun s => 100 * 2 ^ 20 ≤ s.size) = true := by
    intro hany
    obtain ⟨s, hs, hlarge⟩ := List.any_eq_true.mp hany
    rw [hctx] at hs
    obtain ⟨slice, hslice, rfl⟩ := List.mem_map.mp hs
    have hle := (of_decide_eq_true hlarge).trans
      (SlicesLemmas.length_le_of_mem_contentSlices hslice)
    exact absurd hle (by decide)
  unfold postFile appendFileClaim
  rw [hsplit]
  dsimp only
  rw [if_neg (not_not.mpr rfl), if_neg hclaim, hctx, List.map_map]
  rfl

theorem postClaim_of_lt (hput : ∀ posted ref blob, put posted ref blob = .ok ∨
      put posted ref blob = .exists_) (posted : List (BlobRef × Bytes)) {signed : Bytes}
    (hsize : signed.length < chunkSetMaxChunks * chunkSize) :
    postClaim hash put posted signed = some (hash signed, posted ++ [(hash signed, signed)]) := by
  obtain ⟨chunks, hchunks, hbytes⟩ := chunkSetify_spec (Nat.le_refl _) hsize
  rw [List.take_length] at hbytes
  unfold postClaim
  rw [hchunks]
  dsimp only [calcBlobRef]
  rw [hbytes, if_neg fun hne => (hput _ _ _).elim hne.1 hne.2]

theorem postClaim_of_ge (posted : List (BlobRef × Bytes)) {signed : Bytes}
    (hsize : chunkSetMaxChunks * chunkSize ≤ signed.length) :
    postClaim hash put posted signed = none := by
  have hle : chunkSetMaxChunks ≤ signed.length / chunkSize :=
    (Nat.le_div_iff_mul_le (by decide)).mpr hsize
  unfold postClaim chunkSetify
  rw [if_pos (Nat.lt_succ_of_le hle)]

/-- A content has no fewer slices than those of the greatest size would be. -/
theorem length_le_contentSlices (content : Bytes) :
    content.length ≤ (contentSlices content).length * maxSliceSize := by
  have hsum : ∀ slices : List Bytes, (∀ s ∈ slices, s.length ≤ maxSliceSize) →
      slices.flatten.length ≤ slices.length * maxSliceSize := by
    intro slices hslices
    induction slices with
    | nil => exact Nat.zero_le _
    | cons s slices ih =>
      have hs := hslices s List.mem_cons_self
      have hrest := ih fun s' hs' => hslices s' (List.mem_cons_of_mem _ hs')
      rw [List.flatten_cons, List.length_append, List.length_cons, Nat.succ_mul]
      omega
  have hlen := hsum (contentSlices content) fun s hs =>
    SlicesLemmas.length_le_of_mem_contentSlices hs
  rwa [SlicesLemmas.flatten_contentSlices] at hlen

/-! ## What is fetched of the claim -/

variable {get : BlobRef → Option Bytes}
  {verify : Bytes → Option (List (List Char × List Char))} {signed : Bytes}

theorem fetch_of_lt (hget : get (hash signed) = some signed)
    (hsize : signed.length < maxBlobDataSize) {slices : List (List Char × List Char)}
    (hverify : verify signed = some slices) :
    GetFile.fetch hash verify get (hash signed) = .start (sliceRefs slices) := by
  have hfetched : fetchBlob hash (hash signed) (getResponse blobFlagClaim signed ++ []) =
      some signed := (GetLemmas.fetched_of_lt blobFlagClaim [] rfl hsize).1
  rw [List.append_nil] at hfetched
  unfold GetFile.fetch
  rw [hget, Option.bind_some, hfetched, Option.bind_some, hverify]

/-- The storage may send a claim that is too large, `evr_req_cmd_get_blob` refuses it. -/
theorem fetch_of_ge (hget : get (hash signed) = some signed)
    (hsize : maxBlobDataSize ≤ signed.length)
    (hchunks : signed.length < chunkSetMaxChunks * chunkSize) :
    GetFile.fetch hash verify get (hash signed) = ⟨[], .ended .error, [], false, []⟩ := by
  have hwhole : (1 + signed.length) % 2 ^ 32 = 1 + signed.length := by
    unfold chunkSetMaxChunks chunkSize at hchunks
    omega
  have hreq := GetLemmas.reqCmdGetBlob_getResponse blobFlagClaim signed []
  rw [List.append_nil, hwhole, if_pos (Nat.lt_of_le_of_lt hsize (Nat.lt_add_of_pos_left Nat.one_pos))]
    at hreq
  have hnone : fetchBlob hash (hash signed) (getResponse blobFlagClaim signed) = none := by
    unfold fetchBlob
    rw [hreq]
  unfold GetFile.fetch
  rw [hget, Option.bind_some, hnone]
  rfl

end Posted

/-! ## A run in which the storage answers -/

/-- More steps than a run can take for these slices. -/
def budget (todo : List Bytes) : Nat :=
  (todo.map fun content => 7 + 2 * content.length).sum

/-- The slices in front of `todo` are written. `left` bounds the steps to come. -/
def ServingAt (done todo : List Bytes) (left : Nat) (s : GetFile) : Prop :=
  match s.place with
  | .requesting => todo ≠ [] ∧ s.written = done.flatten ∧ left = budget todo
  | .header buf => ∃ content rest, todo = content :: rest ∧ s.written = done.flatten ∧
      buf <+: formatRespHeader ⟨statusCodeOk, 1 + content.length⟩ ∧
      buf.length < respHeaderSize ∧ left + 1 + buf.length = budget todo
  | .flags bodySize => ∃ content rest, todo = content :: rest ∧ s.written = done.flatten ∧
      bodySize = 1 + content.length ∧ left + 6 = budget todo
  | .piping remaining hashed => ∃ content rest, todo = content :: rest ∧
      s.written = done.flatten ++ hashed ∧ hashed <+: content ∧
      remaining + hashed.length = content.length ∧ 0 < remaining ∧
      left + 7 + 2 * hashed.length = budget todo
  | .writing remaining hashed buf => ∃ content rest part, todo = content :: rest ∧
      s.written = done.flatten ++ part ∧ part ++ buf = hashed ∧ buf ≠ [] ∧ hashed <+: content ∧
      remaining + hashed.length = content.length ∧
      left + 7 + 2 * hashed.length = budget todo + buf.length
  | .ended res => res = .ok ∧ todo = [] ∧ s.written = done.flatten

/-- The invariant of such a run. -/
structure Serving (hash : Bytes → BlobRef) (done todo : List Bytes) (left : Nat) (s : GetFile) :
    Prop where
  slices : s.slices = todo.map fun content => some (hash content)
  place : ServingAt done todo left s

/-- The invariant with whatever slices are done. -/
def Serves (hash : Bytes → BlobRef) (contents : List Bytes) (left : Nat) (s : GetFile) : Prop :=
  ∃ done todo, contents = done ++ todo ∧ Serving hash done todo left s

section Serving

variable {hash : Bytes → BlobRef} {contents done todo rest : List Bytes} {content : Bytes}
  {left : Nat} {s : GetFile}

theorem serving_next (hslices : s.slices = todo.map fun content => some (hash content))
    (hwritten : s.written = done.flatten) (hleft : left = budget todo) :
    Serving hash done todo left s.next := by
  cases todo with
  | nil =>
    have hnil : s.slices = [] := hslices
    refine ⟨?_, ?_⟩
    · rw [GetFile.next, hnil]
      exact hslices
    · rw [GetFile.next, hnil]
      exact ⟨rfl, rfl, hwritten⟩
  | cons content rest =>
    have hcons : s.slices = some (hash content) :: rest.map fun content => some (hash content) :=
      hslices
    refine ⟨?_, ?_⟩
    · rw [GetFile.next, hcons]
      exact hslices
    · rw [GetFile.next, hcons]
      exact ⟨List.cons_ne_nil _ _, hwritten, hleft⟩

theorem budget_cons (content : Bytes) (rest : List Bytes) :
    budget (content :: rest) = 7 + 2 * content.length + budget rest :=
  rfl

/-- Bytes of the slice have been written. -/
theorem serves_pipe {remaining : Nat} {hashed : Bytes}
    (hcontents : contents = done ++ content :: rest)
    (hslices : s.slices = (content :: rest).map fun content => some (hash content))
    (hwritten : s.written = done.flatten ++ hashed) (hpre : hashed <+: content)
    (hremaining : remaining + hashed.length = content.length)
    (hleft : left + 7 + 2 * hashed.length = budget (content :: rest)) :
    Serves hash contents left (s.pipe hash remaining hashed) := by
  unfold GetFile.pipe
  split_ifs with hzero
  · have hall : hashed = content :=
      hpre.eq_of_length (by rw [hzero, Nat.zero_add] at hremaining; exact hremaining)
    subst hall
    rw [GetFile.compare, hslices]
    simp only [List.map_cons, if_true]
    refine ⟨done ++ [hashed], rest, ?_, serving_next rfl ?_ ?_⟩
    · rw [hcontents, List.append_assoc, List.singleton_append]
    · rw [List.flatten_append, List.flatten_singleton]
      exact hwritten
    · rw [budget_cons] at hleft
      omega
  · exact ⟨done, content :: rest, hcontents, hslices, content, rest, rfl, hwritten, hpre,
      hremaining, Nat.pos_of_ne_zero hzero, hleft⟩

variable {get : BlobRef → Option Bytes}

/-- The storage answers for the current slice. -/
theorem content_unique (hget : ∀ content ∈ contents, get (hash content) = some content)
    (hcontents : contents = done ++ content :: rest)
    (hslices : s.slices = (content :: rest).map fun content => some (hash content))
    {ref : BlobRef} {refs : List (Option BlobRef)} {content' : Bytes}
    (hcurrent : s.slices = some ref :: refs) (hanswer : get ref = some content') :
    content' = content := by
  rw [hslices, List.map_cons] at hcurrent
  have href : hash content = ref := Option.some.inj (List.cons.inj hcurrent).1
  have hmem : content ∈ contents := hcontents ▸ List.mem_append_right _ List.mem_cons_self
  rw [← href, hget content hmem] at hanswer
  exact (Option.some.inj hanswer).symm

theorem serves_header (hsmall : ∀ content ∈ contents, 1 + content.length < 2 ^ 32)
    {buf data : Bytes} (hplace : s.place = .header buf) (hdata : data ≠ [])
    (hcontents : contents = done ++ content :: rest)
    (h : Serving hash done (content :: rest) left s)
    (hmore : buf ++ data <+: formatRespHeader ⟨statusCodeOk, 1 + content.length⟩) :
    ∃ left', left' < left ∧ Serves hash contents left' (s.read hash data) := by
  have hat := h.place
  rw [ServingAt, hplace] at hat
  obtain ⟨c, r, htodo, hwritten, -, -, hleft⟩ := hat
  cases htodo
  have hpos := List.length_pos_iff.mpr hdata
  have hle := hmore.length_le
  rw [GetLemmas.length_formatRespHeader, List.length_append] at hle
  have hfive : respHeaderSize = 5 := rfl
  have hbudget := budget_cons content rest
  refine ⟨left - data.length, by omega, done, content :: rest, hcontents, ?_⟩
  unfold GetFile.read
  rw [hplace]
  dsimp only
  rw [List.length_append, if_neg (Nat.not_lt.mpr hle), if_neg hdata]
  split_ifs with hfull
  · have heq : buf ++ data = formatRespHeader ⟨statusCodeOk, 1 + content.length⟩ :=
      hmore.eq_of_length (by rw [GetLemmas.length_formatRespHeader, List.length_append, hfull])
    have hmem : content ∈ contents := hcontents ▸ List.mem_append_right _ List.mem_cons_self
    rw [heq, GetLemmas.parse_formatRespHeader, Nat.mod_eq_of_lt (hsmall content hmem),
      GetFile.withHeader, if_neg (not_not.mpr rfl), if_neg (by dsimp only; omega)]
    exact ⟨h.slices, content, rest, rfl, hwritten, rfl, by omega⟩
  · refine ⟨h.slices, content, rest, rfl, hwritten, hmore, ?_, ?_⟩
    · rw [List.length_append]
      omega
    · rw [List.length_append]
      omega

theorem serves_requested (hplace : s.place = .requesting) (hcontents : contents = done ++ todo)
    (h : Serving hash done todo left s) :
    ∃ left', left' < left ∧ Serves hash contents left' (s.step hash .requested) := by
  have hat := h.place
  rw [ServingAt, hplace] at hat
  obtain ⟨hne, hwritten, hleft⟩ := hat
  cases todo with
  | nil => exact absurd rfl hne
  | cons content rest =>
    rw [budget_cons] at hleft
    refine ⟨left - 1, by omega, done, content :: rest, hcontents, ?_⟩
    unfold GetFile.step
    rw [hplace]
    exact ⟨h.slices, content, rest, rfl, hwritten, List.nil_prefix, by decide,
      by rw [budget_cons, List.length_nil]; omega⟩

theorem serves_flags {bodySize : Nat} {data : Bytes} (hplace : s.place = .flags bodySize)
    (hdata : data ≠ []) (hone : data.length = 1) (hcontents : contents = done ++ content :: rest)
    (h : Serving hash done (content :: rest) left s) :
    ∃ left', left' < left ∧ Serves hash contents left' (s.read hash data) := by
  have hat := h.place
  rw [ServingAt, hplace] at hat
  obtain ⟨c, r, htodo, hwritten, rfl, hleft⟩ := hat
  cases htodo
  have hbudget := budget_cons content rest
  refine ⟨left - 1, by omega, ?_⟩
  unfold GetFile.read
  rw [hplace]
  dsimp only
  rw [if_neg (Nat.not_lt.mpr (Nat.le_of_eq hone)), if_neg hdata, Nat.add_sub_cancel_left]
  exact serves_pipe hcontents h.slices (by rw [List.append_nil]; exact hwritten)
    List.nil_prefix rfl (by rw [List.length_nil]; omega)

theorem serves_body {remaining : Nat} {hashed data : Bytes}
    (hplace : s.place = .piping remaining hashed) (hdata : data ≠ [])
    (hle : data.length ≤ min remaining 4096) (hcontents : contents = done ++ content :: rest)
    (h : Serving hash done (content :: rest) left s) (hmore : hashed ++ data <+: content) :
    ∃ left', left' < left ∧ Serves hash contents left' (s.read hash data) := by
  have hat := h.place
  rw [ServingAt, hplace] at hat
  obtain ⟨c, r, htodo, hwritten, -, hremaining, -, hleft⟩ := hat
  cases htodo
  have hpos := List.length_pos_iff.mpr hdata
  have hbudget := budget_cons content rest
  refine ⟨left - data.length, by omega, done, content :: rest, hcontents, ?_⟩
  unfold GetFile.read
  rw [hplace]
  dsimp only
  rw [if_neg (Nat.not_lt.mpr hle), if_neg hdata]
  refine ⟨h.slices, content, rest, hashed, rfl, hwritten, rfl, hdata, hmore, ?_, ?_⟩
  · rw [List.length_append]
    omega
  · rw [List.length_append]
    omega

theorem serves_output {remaining n : Nat} {hashed buf : Bytes}
    (hplace : s.place = .writing remaining hashed buf) (hpos : 0 < n) (hn : n ≤ buf.length)
    (hcontents : contents = done ++ todo) (h : Serving hash done todo left s) :
    ∃ left', left' < left ∧ Serves hash contents left' (s.step hash (.output n)) := by
  have hat := h.place
  rw [ServingAt, hplace] at hat
  obtain ⟨content, rest, part, rfl, hwritten, hpart, -, hpre, hremaining, hleft⟩ := hat
  have hbudget := budget_cons content rest
  refine ⟨left - n, by omega, ?_⟩
  unfold GetFile.step
  rw [hplace]
  dsimp only
  rw [if_neg (by omega)]
  split_ifs with hall
  · rw [List.take_of_length_le (Nat.le_of_eq hall)]
    refine serves_pipe hcontents h.slices ?_ hpre hremaining (by omega)
    show s.written ++ buf = _
    rw [hwritten, List.append_assoc, hpart]
  · refine ⟨done, content :: rest, hcontents, h.slices, content, rest, part ++ buf.take n, rfl, ?_,
      ?_, ?_, hpre, hremaining, ?_⟩
    · show s.written ++ buf.take n = _
      rw [hwritten, List.append_assoc]
    · rw [List.append_assoc, List.take_append_drop, hpart]
    · exact fun hnil => hall (Nat.le_antisymm (List.drop_eq_nil_iff.mp hnil) hn)
    · rw [List.length_drop]
      omega

/-- One step of the run. -/
theorem serves_step (hget : ∀ content ∈ contents, get (hash content) = some content)
    (hsmall : ∀ content ∈ contents, 1 + content.length < 2 ^ 32)
    (h : Serves hash contents left s) {e : GetFileEvent} (he : s.Answered get e) :
    ∃ left', left' < left ∧ Serves hash contents left' (s.step hash e) := by
  obtain ⟨done, todo, hcontents, hserving⟩ := h
  have hat := hserving.place
  cases e with
  | requested => exact serves_requested he hcontents hserving
  | read data =>
    obtain ⟨hdata, ref, refs, content', hcurrent, hanswer, hcase⟩ := he
    rcases hcase with ⟨buf, hplace, hmore⟩ | ⟨bodySize, hplace, hone⟩ |
      ⟨remaining, hashed, hplace, hle, hmore⟩
    · rw [ServingAt, hplace] at hat
      obtain ⟨content, rest, rfl, -⟩ := hat
      rw [content_unique hget hcontents hserving.slices hcurrent hanswer] at hmore
      exact serves_header hsmall hplace hdata hcontents hserving hmore
    · rw [ServingAt, hplace] at hat
      obtain ⟨content, rest, rfl, -⟩ := hat
      exact serves_flags hplace hdata hone hcontents hserving
    · rw [ServingAt, hplace] at hat
      obtain ⟨content, rest, rfl, -⟩ := hat
      rw [content_unique hget hcontents hserving.slices hcurrent hanswer] at hmore
      exact serves_body hplace hdata hle hcontents hserving hmore
  | output n =>
    obtain ⟨remaining, hashed, buf, hplace, hpos, hn⟩ := he
    exact serves_output hplace hpos hn hcontents hserving
  | outputClosed => exact he.elim
  | fails => exact he.elim

/-- The storage and the output always have a next step. -/
theorem answered_exists (hget : ∀ content ∈ contents, get (hash content) = some content)
    (h : Serves hash contents left s) (hrunning : ∀ res, s.place ≠ .ended res) :
    ∃ e, s.Answered get e := by
  obtain ⟨done, todo, hcontents, hserving⟩ := h
  have hat := hserving.place
  have hanswer : ∀ {content rest}, todo = content :: rest →
      s.slices = some (hash content) :: rest.map (fun content => some (hash content)) ∧
        get (hash content) = some content := by
    rintro content rest rfl
    exact ⟨hserving.slices,
      hget content (hcontents ▸ List.mem_append_right _ List.mem_cons_self)⟩
  unfold ServingAt at hat
  split at hat
  · next hplace => exact ⟨.requested, hplace⟩
  · next buf hplace =>
    obtain ⟨content, rest, htodo, -, ⟨more, hmore⟩, hshort, -⟩ := hat
    obtain ⟨hslices, hfound⟩ := hanswer htodo
    refine ⟨.read more, ?_, _, _, content, hslices, hfound,
      .inl ⟨buf, hplace, hmore ▸ List.prefix_refl _⟩⟩
    rintro rfl
    have hlen := congrArg List.length hmore
    rw [List.append_nil, GetLemmas.length_formatRespHeader] at hlen
    exact absurd hlen (Nat.ne_of_lt hshort)
  · next bodySize hplace =>
    obtain ⟨content, rest, htodo, -⟩ := hat
    obtain ⟨hslices, hfound⟩ := hanswer htodo
    exact ⟨.read [0], List.cons_ne_nil _ _, _, _, content, hslices, hfound,
      .inr (.inl ⟨bodySize, hplace, rfl⟩)⟩
  · next remaining hashed hplace =>
    obtain ⟨content, rest, htodo, -, ⟨more, hmore⟩, hremaining, hpos, -⟩ := hat
    obtain ⟨hslices, hfound⟩ := hanswer htodo
    cases more with
    | nil =>
      rw [List.append_nil] at hmore
      rw [hmore] at hremaining
      omega
    | cons b more =>
      refine ⟨.read [b], List.cons_ne_nil _ _, _, _, content, hslices, hfound,
        .inr (.inr ⟨remaining, hashed, hplace, ?_, more, ?_⟩)⟩
      · rw [List.length_singleton]
        omega
      · rw [List.append_assoc, List.singleton_append, hmore]
  · next remaining hashed buf hplace =>
    obtain ⟨-, -, -, -, -, -, hne, -⟩ := hat
    exact ⟨.output buf.length, remaining, hashed, buf, hplace, List.length_pos_iff.mpr hne,
      Nat.le_refl _⟩
  · next res hplace => exact absurd hplace (hrunning res)

theorem serves_start (hash : Bytes → BlobRef) (contents : List Bytes) :
    Serves hash contents (budget contents)
      (.start (contents.map fun content => some (hash content))) :=
  ⟨[], contents, rfl, serving_next rfl rfl rfl⟩

/-- A run in which the storage answers keeps the invariant, and each step takes from the bound. -/
theorem serves_run (hget : ∀ content ∈ contents, get (hash content) = some content)
    (hsmall : ∀ content ∈ contents, 1 + content.length < 2 ^ 32) {events : List GetFileEvent}
    (h : Serves hash contents left s)
    (halong : Along (GetFile.step hash) (fun s e => s.Answered get e) s events) :
    ∃ left', left' + events.length ≤ left ∧
      Serves hash contents left' (exec (GetFile.step hash) s events) := by
  induction events generalizing s left with
  | nil => exact ⟨left, Nat.le_refl _, h⟩
  | cons e events ih =>
    obtain ⟨he, hrest⟩ := halong
    obtain ⟨left', hless, hstep⟩ := serves_step hget hsmall h he
    obtain ⟨left'', hle, hrun⟩ := ih hstep hrest
    exact ⟨left'', by rw [List.length_cons]; omega, hrun⟩

theorem written_of_ended (h : Serves hash contents left s) {res : Res}
    (hplace : s.place = .ended res) : res = .ok ∧ s.written = contents.flatten := by
  obtain ⟨done, todo, hcontents, hserving⟩ := h
  have hat := hserving.place
  rw [ServingAt, hplace] at hat
  obtain ⟨hres, rfl, hwritten⟩ := hat
  rw [List.append_nil] at hcontents
  exact ⟨hres, hcontents ▸ hwritten⟩

end Serving

end RoundTripLemmas

open RoundTripLemmas

/-- Each run of the get in which the storage answers writes the file. Such a run cannot go on
forever, and only stops when it has ended. -/
def GetsBack (hash : Bytes → BlobRef) (get : BlobRef → Option Bytes) (start : GetFile)
    (file : Bytes) : Prop :=
  ∃ bound, ∀ events, Along (GetFile.step hash) (fun s e => s.Answered get e) start events →
    events.length ≤ bound ∧
      (∀ res, (exec (GetFile.step hash) start events).place = .ended res →
        res = .ok ∧ (exec (GetFile.step hash) start events).written = file) ∧
      ((∀ res, (exec (GetFile.step hash) start events).place ≠ .ended res) →
        ∃ e, (exec (GetFile.step hash) start events).Answered get e)

/-- The file can be posted, and its claim gets back exactly its bytes. -/
def RoundTrips (hash : Bytes → BlobRef) (put : List (BlobRef × Bytes) → BlobRef → Bytes → Res)
    (get : BlobRef → Option Bytes) (sign : List (List Char × List Char) → Bytes)
    (verify : Bytes → Option (List (List Char × List Char))) (f : SrcFile) : Prop :=
  ∃ ref posted, postFile hash put sign f = some (ref, posted) ∧
    GetsBack hash get (.fetch hash verify get ref) f.unread

/-- However the bytes of a file arrive, it makes the round trip over a storage that takes blobs and
returns what it was given, if and only if its signed claim is smaller than the greatest blob. -/
theorem file_round_trip_iff (hash : Bytes → BlobRef)
    (put : List (BlobRef × Bytes) → BlobRef → Bytes → Res) (get : BlobRef → Option Bytes)
    (sign : List (List Char × List Char) → Bytes)
    (verify : Bytes → Option (List (List Char × List Char))) (f : SrcFile)
    (hsize : f.unread.length < sizeMax)
    (hput : ∀ posted ref blob, put posted ref blob = .ok ∨ put posted ref blob = .exists_)
    (hget : ∀ ref posted, postFile hash put sign f = some (ref, posted) →
      ∀ post ∈ posted, get post.1 = some post.2)
    (hverify : verify (sign (fileClaim hash f.unread)) = some (fileClaim hash f.unread)) :
    RoundTrips hash put get sign verify f ↔
      (sign (fileClaim hash f.unread)).length < maxBlobDataSize := by
  have hpost := @postFile_eq hash put hput sign f hsize
  generalize hsigned : sign (fileClaim hash f.unread) = signed at hpost hverify ⊢
  rcases Nat.lt_or_ge signed.length (chunkSetMaxChunks * chunkSize) with hchunks | hmany
  · rw [postClaim_of_lt hput _ hchunks] at hpost
    have hclaim : get (hash signed) = some signed :=
      hget _ _ hpost _ (List.mem_append_right _ (List.mem_singleton.mpr rfl))
    constructor
    · rintro ⟨ref, posted, hposted, bound, hruns⟩
      cases Option.some.inj (hpost.symm.trans hposted)
      refine Nat.lt_of_not_le fun hge => ?_
      obtain ⟨-, hended, -⟩ := hruns [] trivial
      rw [exec_nil, fetch_of_ge hclaim hge hchunks] at hended
      cases (hended .error rfl).1
    · intro hless
      refine ⟨_, _, hpost, ?_⟩
      rw [fetch_of_lt hclaim hless hverify, sliceRefs_fileClaim]
      have hanswers : ∀ content ∈ contentSlices f.unread, get (hash content) = some content := by
        intro content hmem
        exact hget _ _ hpost _ (List.mem_append_left _ (List.mem_map_of_mem hmem))
      have hfits : ∀ content ∈ contentSlices f.unread, 1 + content.length < 2 ^ 32 := by
        intro content hmem
        have hle := SlicesLemmas.length_le_of_mem_contentSlices hmem
        have hmax : maxSliceSize = 10 * 2 ^ 20 := rfl
        omega
      refine ⟨budget (contentSlices f.unread), fun events halong => ?_⟩
      obtain ⟨left, hle, hserves⟩ := serves_run hanswers hfits (serves_start hash _) halong
      refine ⟨Nat.le_of_add_left_le hle, fun res hplace => ?_, answered_exists hanswers hserves⟩
      have hwritten := written_of_ended hserves hplace
      rwa [SlicesLemmas.flatten_contentSlices] at hwritten
  · have hbound : maxBlobDataSize < chunkSetMaxChunks * chunkSize := by decide
    rw [postClaim_of_ge _ hmany] at hpost
    refine iff_of_false ?_ (Nat.not_lt.mpr (hbound.le.trans hmany))
    rintro ⟨ref, posted, hposted, -⟩
    cases hpost.symm.trans hposted

/-- The slice elements as they are written to the claim, without what is around them and without
the signature. -/
def writeSlices (slices : List (List Char × List Char)) : Bytes :=
  (slices.flatMap fun attrs => "<slice ref=\"".toList ++ attrs.1 ++ "\" size=\"".toList ++ attrs.2 ++
    "\"/>\n".toList).map fun c => UInt8.ofNat c.toNat

/-- The hash on the blob "x" and on another one. -/
def letterHash (body : Bytes) : BlobRef :=
  if body = [0x78] then letterBlob.key else emptyBlob.key

/-- A storage with the blob "x" and the claim of the file "x". -/
def letterStorage (ref : BlobRef) : Option Bytes :=
  if ref = letterBlob.key then some [0x78]
  else some (writeSlices (fileClaim letterHash [0x78]))

theorem file_round_trip_letter :
    RoundTrips letterHash (fun _ _ _ => .ok) letterStorage writeSlices
      (fun _ => some (fileClaim letterHash [0x78])) ⟨[0x78], [1]⟩ := by
  refine (file_round_trip_iff letterHash _ letterStorage writeSlices _ ⟨[0x78], [1]⟩ (by decide)
    (fun _ _ _ => .inl rfl) (fun ref posted hpost post hmem => ?_) rfl).mpr (by decide +kernel)
  have hposted : (postFile letterHash (fun _ _ _ => .ok) writeSlices ⟨[0x78], [1]⟩).map (·.2) =
      some [(letterBlob.key, [0x78]),
        (emptyBlob.key, writeSlices (fileClaim letterHash [0x78]))] := by decide +kernel
  rw [hpost] at hposted
  cases Option.some.inj hposted
  rcases List.mem_cons.mp hmem with rfl | hclaim
  · decide +kernel
  · cases List.mem_singleton.mp hclaim
    decide +kernel

theorem length_le_writeSlices (hash : Bytes → BlobRef) (content : Bytes) :
    (contentSlices content).length * blobRefStrLen ≤
      (writeSlices (fileClaim hash content)).length := by
  unfold writeSlices fileClaim
  rw [List.length_map, List.flatMap_map]
  induction contentSlices content with
  | nil => exact Nat.le_of_eq (Nat.zero_mul _)
  | cons s slices ih =>
    have href := RefTextLemmas.length_fmtBlobRef (hash s)
    rw [List.flatMap_cons, List.length_append, List.length_cons, Nat.succ_mul]
    dsimp only at ih ⊢
    simp only [List.length_append]
    omega

/-- A file of zeros that has 300000 slices or more. -/
def largeFile : SrcFile :=
  ⟨List.replicate (300000 * maxSliceSize) 0, []⟩

/-- Its slices are uploaded, but its claim cannot be. -/
theorem large_claim_not_posted :
    postFile sampleHash (fun _ _ _ => .ok) writeSlices largeFile = none ∧
      ∀ get verify, ¬ RoundTrips sampleHash (fun _ _ _ => .ok) get writeSlices verify largeFile := by
  have hlength : largeFile.unread.length = 300000 * maxSliceSize := List.length_replicate
  have hsize : largeFile.unread.length < sizeMax := by
    rw [hlength]
    decide
  have hmany : 300000 ≤ (contentSlices largeFile.unread).length := by
    have hle := length_le_contentSlices largeFile.unread
    rw [hlength] at hle
    exact Nat.le_of_mul_le_mul_right hle (by decide)
  have hclaim : chunkSetMaxChunks * chunkSize ≤
      (writeSlices (fileClaim sampleHash largeFile.unread)).length := by
    have hle := length_le_writeSlices sampleHash largeFile.unread
    have hbound : chunkSetMaxChunks * chunkSize ≤ 300000 * blobRefStrLen := by decide
    exact hbound.trans ((Nat.mul_le_mul_right _ hmany).trans hle)
  have hpost : postFile sampleHash (fun _ _ _ => .ok) writeSlices largeFile = none := by
    rw [postFile_eq (fun _ _ _ => .inl rfl) writeSlices largeFile hsize]
    exact postClaim_of_ge _ hclaim
  refine ⟨hpost, fun get verify => ?_⟩
  rintro ⟨ref, posted, hposted, -⟩
  cases hpost.symm.trans hposted

end Everarch
