import Everarch.Cli.RoundTrip
import Everarch.Client.Get
import Everarch.Glacier.Store
import Everarch.Server.Connection

/-!
# Walks over chunks

A chunk set is made by `evr_chunk_setify` or `read_into_chunks`, which count the chunks in two ways,
and `evr_calc_blob_ref`, `write_chunk_set` and `evr_glacier_append_blob` walk it with a loop each.
The walks are those in which nothing fails.

* `Chunked`: the pointers lead to the pieces of the content.
* `ChunkWalksLemmas.calcVisits_eq`, `ChunkWalksLemmas.appendVisits_eq`: the walks visit what
  `write_chunk_set` visits, but for visits to no bytes.
* `ChunkWalksLemmas.visited_write`: a walk over a chunk set sees its content.

Result: `chunk_walks_agree`.
-/

namespace Everarch

/-! ## Chunk sets -/

/-- What `read_into_chunks` meets at each chunk: the memory that `malloc` returns, and whether the
side effect accepts what is read into it. -/
structure ChunkRead where
  malloc : Option (Nat → UInt8)
  accepted : Bool

/-- `ceil_div` of a size with `evr_chunk_size`. -/
def ceilDivChunkSize (size : Nat) : Nat :=
  (size + (chunkSize - 1)) % 2 ^ 64 / chunkSize

/-- The loop of `read_into_chunks` from chunk `i` on, with the chunks and the stream behind them. -/
def readIntoChunksLoop (env : Nat → ChunkRead) :
    Nat → Nat → Nat → Bytes → Option (List Bytes × Bytes)
  | 0, _, _, stream => some ([], stream)
  | n + 1, i, remaining, stream =>
    let chunkReadSize := min remaining chunkSize
    match (env i).malloc, readN chunkReadSize stream with
    | some memory, some (data, stream) =>
      if (env i).accepted then
        let chunk := data ++ ((List.range chunkSize).map memory).drop data.length
        (readIntoChunksLoop env n (i + 1) (remaining - chunkReadSize) stream).map
          fun (chunks, stream) => (chunk :: chunks, stream)
      else none
    | _, _ => none

/-- `read_into_chunks`, with the stream behind what it reads. -/
def readIntoChunks (env : Nat → ChunkRead) (stream : Bytes) (size : Nat) :
    Option (List Bytes × Bytes) :=
  if chunkSetMaxChunks < ceilDivChunkSize size then none
  else readIntoChunksLoop env (ceilDivChunkSize size) 0 size stream

/-! ## Walks -/

/-- The use of a chunk pointer, and the number of bytes that are read through it. -/
structure ChunkVisit where
  chunk : Nat
  count : Nat
deriving DecidableEq

/-- The loop of `evr_calc_blob_ref` with `n` pointers to go. -/
def calcLoop : Nat → Nat → Nat → List ChunkVisit
  | 0, _, _ => []
  | n + 1, c, bytesRemaining =>
    let currentChunkSize := if bytesRemaining < chunkSize then bytesRemaining else chunkSize
    ⟨c, currentChunkSize⟩ :: calcLoop n (c + 1) (bytesRemaining - currentChunkSize)

/-- `evr_calc_blob_ref`. -/
def calcVisits (size : Nat) : List ChunkVisit :=
  calcLoop (size / chunkSize + 1) 0 size

/-- The loop of `write_chunk_set`. -/
def writeLoop (c remaining : Nat) : List ChunkVisit :=
  if _ : 0 < remaining then
    ⟨c, min chunkSize remaining⟩ :: writeLoop (c + 1) (remaining - min chunkSize remaining)
  else []
termination_by remaining
decreasing_by
  have hpos : 0 < chunkSize := by decide
  omega

/-- `write_chunk_set`. -/
def writeVisits (sizeUsed : Nat) : List ChunkVisit :=
  writeLoop 0 sizeUsed

/-- The loop of `evr_glacier_append_blob`. -/
def appendLoop (size c bytesWritten : Nat) : List ChunkVisit :=
  if _ : bytesWritten < size then
    let remainingBlobBytes := size - bytesWritten
    let chunkBytesLen := if remainingBlobBytes < chunkSize then remainingBlobBytes else chunkSize
    ⟨c, chunkBytesLen⟩ :: appendLoop size (c + 1) (bytesWritten + chunkBytesLen)
  else []
termination_by size - bytesWritten
decreasing_by
  have hpos : 0 < chunkSize := by decide
  split <;> omega

/-- The loop of `evr_glacier_append_blob` over a blob. -/
def appendVisits (size : Nat) : List ChunkVisit :=
  appendLoop size 0 0

/-- The bytes that a visit reads, none where the chunk is not set or too short. -/
def readVisit (chunks : List Bytes) (v : ChunkVisit) : Option Bytes :=
  if v.count = 0 then some []
  else (chunks[v.chunk]?).bind fun mem =>
    if v.count ≤ mem.length then some (mem.take v.count) else none

/-- The bytes that a walk reads. -/
def visitedBytes (chunks : List Bytes) : List ChunkVisit → Option Bytes
  | [] => some []
  | v :: vs => (readVisit chunks v).bind fun bs => (visitedBytes chunks vs).map (bs ++ ·)

/-- The walks over a chunk set of `size` bytes read its content, each with pointers of the set. -/
structure WalksAgree (chunks : List Bytes) (size : Nat) (content : Bytes) : Prop where
  calc_ : visitedBytes chunks (calcVisits size) = some content
  write : visitedBytes chunks (writeVisits size) = some content
  append : visitedBytes chunks (appendVisits size) = some content
  inSet : ∀ v ∈ calcVisits size ++ writeVisits size ++ appendVisits size,
    v.chunk < chunkSetMaxChunks

/-- Each chunk that the content comes to has its piece at the start. -/
def Chunked (chunks : List Bytes) (content : Bytes) : Prop :=
  ∀ c, c * chunkSize < content.length →
    ∃ mem, chunks[c]? = some mem ∧ (content.drop (c * chunkSize)).take chunkSize <+: mem

namespace ChunkWalksLemmas

variable {chunks : List Bytes} {content : Bytes} {size : Nat}

theorem chunkSize_pos : 0 < chunkSize := by decide

/-! ## Loops -/

theorem writeLoop_zero (c : Nat) : writeLoop c 0 = [] := by
  rw [writeLoop]
  rfl

theorem writeLoop_pos (c : Nat) {remaining : Nat} (h : 0 < remaining) :
    writeLoop c remaining =
      ⟨c, min chunkSize remaining⟩ :: writeLoop (c + 1) (remaining - min chunkSize remaining) := by
  rw [writeLoop, dif_pos h]

theorem ite_eq_min (remaining : Nat) :
    (if remaining < chunkSize then remaining else chunkSize) = min chunkSize remaining := by
  split <;> omega

/-- The loop over the blob counts up where the one over the chunk set counts down. -/
theorem appendLoop_eq (size c bytesWritten : Nat) :
    appendLoop size c bytesWritten = writeLoop c (size - bytesWritten) := by
  induction c, bytesWritten using appendLoop.induct size with
  | case1 c bytesWritten hlt remainingBlobBytes chunkBytesLen ih =>
    rw [appendLoop, dif_pos hlt, writeLoop_pos c (Nat.sub_pos_of_lt hlt)]
    have hlen : chunkBytesLen = min chunkSize (size - bytesWritten) := ite_eq_min _
    rw [hlen] at ih
    simp only [ite_eq_min]
    rw [ih, Nat.sub_add_eq]
  | case2 c bytesWritten hge =>
    rw [appendLoop, dif_neg hge, Nat.sub_eq_zero_of_le (Nat.le_of_not_lt hge), writeLoop_zero]

theorem appendVisits_eq (size : Nat) : appendVisits size = writeVisits size :=
  appendLoop_eq size 0 0

/-- The loop over a counted number of pointers visits no bytes behind the end. -/
theorem calcLoop_eq {n remaining : Nat} (h : remaining ≤ n * chunkSize) (c : Nat) :
    ∃ vs, calcLoop n c remaining = writeLoop c remaining ++ vs ∧ ∀ v ∈ vs, v.count = 0 := by
  induction n generalizing c remaining with
  | zero =>
    rw [Nat.zero_mul] at h
    rw [Nat.le_zero.mp h, writeLoop_zero]
    exact ⟨[], rfl, fun v hv => absurd hv List.not_mem_nil⟩
  | succ n ih =>
    have hrest : remaining - min chunkSize remaining ≤ n * chunkSize := by
      rw [Nat.succ_mul] at h
      omega
    obtain ⟨vs, hvs, hzero⟩ := ih hrest (c + 1)
    rw [calcLoop]
    simp only [ite_eq_min]
    rcases Nat.eq_zero_or_pos remaining with rfl | hpos
    · rw [Nat.min_zero, Nat.sub_zero] at hvs ⊢
      rw [writeLoop_zero, List.nil_append] at hvs
      rw [writeLoop_zero, hvs]
      exact ⟨_, rfl, List.forall_mem_cons.mpr ⟨rfl, hzero⟩⟩
    · rw [writeLoop_pos c hpos, hvs]
      exact ⟨vs, rfl, hzero⟩

theorem calcVisits_eq (size : Nat) :
    ∃ vs, calcVisits size = writeVisits size ++ vs ∧ ∀ v ∈ vs, v.count = 0 := by
  refine calcLoop_eq ?_ 0
  rw [Nat.succ_mul]
  have hmod := Nat.mod_lt size chunkSize_pos
  have hdiv := Nat.div_add_mod size chunkSize
  rw [Nat.mul_comm] at hdiv
  omega

theorem chunk_calcLoop {n c remaining : Nat} {v : ChunkVisit} (h : v ∈ calcLoop n c remaining) :
    v.chunk < c + n := by
  induction n generalizing c remaining with
  | zero => exact absurd h List.not_mem_nil
  | succ n ih =>
    rw [calcLoop] at h
    rcases List.mem_cons.mp h with rfl | hrest
    · exact Nat.lt_add_of_pos_right (Nat.succ_pos n)
    · have hlt := ih hrest
      omega

/-! ## Content -/

theorem visited_append (chunks : List Bytes) (vs vs' : List ChunkVisit) :
    visitedBytes chunks (vs ++ vs') =
      (visitedBytes chunks vs).bind fun bs => (visitedBytes chunks vs').map (bs ++ ·) := by
  induction vs with
  | nil => simp [visitedBytes]
  | cons v vs ih =>
    rw [List.cons_append, visitedBytes, visitedBytes, ih]
    cases readVisit chunks v <;> cases visitedBytes chunks vs <;>
      cases visitedBytes chunks vs' <;> simp

theorem visited_zero {vs : List ChunkVisit} (h : ∀ v ∈ vs, v.count = 0) :
    visitedBytes chunks vs = some [] := by
  induction vs with
  | nil => rfl
  | cons v vs ih =>
    obtain ⟨hv, hrest⟩ := List.forall_mem_cons.mp h
    rw [visitedBytes, readVisit, if_pos hv, ih hrest]
    rfl

theorem visited_writeLoop (h : Chunked chunks content) (c remaining : Nat)
    (hremaining : remaining = content.length - c * chunkSize) :
    visitedBytes chunks (writeLoop c remaining) = some (content.drop (c * chunkSize)) := by
  induction c, remaining using writeLoop.induct with
  | case1 c remaining hpos ih =>
    rw [writeLoop_pos c hpos, visitedBytes, readVisit]
    obtain ⟨mem, hmem, behind, hbehind⟩ := h c (by omega)
    have hcount : ((content.drop (c * chunkSize)).take chunkSize).length =
        min chunkSize remaining := by
      rw [List.length_take, List.length_drop, hremaining]
    have hchunk := chunkSize_pos
    rw [if_neg (show min chunkSize remaining ≠ 0 by omega), hmem, Option.bind_some,
      ← hbehind, if_pos (by rw [List.length_append, hcount]; exact Nat.le_add_right _ _),
      List.take_left' hcount, ih (by rw [Nat.succ_mul]; omega), Option.bind_some, Option.map_some,
      Nat.succ_mul, ← List.drop_drop, List.take_append_drop]
  | case2 c remaining hzero =>
    rw [writeLoop, dif_neg hzero, List.drop_of_length_le (by omega)]
    rfl

/-- A walk sees the content of the chunks. -/
theorem visited_write (h : Chunked chunks content) :
    visitedBytes chunks (writeVisits content.length) = some content :=
  visited_writeLoop h 0 content.length (by rw [Nat.zero_mul, Nat.sub_zero])

theorem walks_chunked (h : Chunked chunks content) (hsize : content.length ≤ maxBlobDataSize) :
    WalksAgree chunks content.length content := by
  obtain ⟨vs, hvs, hzero⟩ := calcVisits_eq content.length
  have hcalc : ∀ v ∈ calcVisits content.length, v.chunk < chunkSetMaxChunks := by
    intro v hv
    have hlt := chunk_calcLoop hv
    have hdiv : content.length / chunkSize ≤ maxBlobDataSize / chunkSize :=
      Nat.div_le_div_right hsize
    have hmax : maxBlobDataSize / chunkSize + 1 = chunkSetMaxChunks := by decide
    omega
  have hwrite : ∀ v ∈ writeVisits content.length, v.chunk < chunkSetMaxChunks :=
    fun v hv => hcalc v (hvs ▸ List.mem_append_left vs hv)
  refine ⟨?_, visited_write h, ?_, ?_⟩
  · rw [hvs, visited_append, visited_write h, visited_zero hzero]
    exact congrArg some (List.append_nil content)
  · rw [appendVisits_eq]
    exact visited_write h
  · intro v hv
    rw [appendVisits_eq] at hv
    rcases List.mem_append.mp hv with hv | hv
    · rcases List.mem_append.mp hv with hv | hv
      · exact hcalc v hv
      · exact hwrite v hv
    · exact hwrite v hv

/-! ## Making chunk sets -/

theorem chunked_setify {mem : Bytes} (hmem : size ≤ mem.length)
    (hset : chunkSetify mem size = some chunks) : Chunked chunks (mem.take size) := by
  unfold chunkSetify at hset
  split at hset
  · cases hset
  · cases hset
    intro c hc
    rw [List.length_take_of_le hmem] at hc
    have hlt : c < size / chunkSize + 1 :=
      Nat.lt_succ_of_le ((Nat.le_div_iff_mul_le chunkSize_pos).mpr (Nat.le_of_lt hc))
    refine ⟨mem.drop (c * chunkSize), ?_, ?_⟩
    · rw [List.getElem?_map, List.getElem?_range hlt]
      rfl
    · rw [List.drop_take]
      exact (List.take_prefix _ _).trans (List.take_prefix _ _)

/-- Each chunk that is read has the next piece of the stream. -/
theorem chunked_readLoop {env : Nat → ChunkRead} {n i remaining : Nat} {stream rest : Bytes}
    (h : readIntoChunksLoop env n i remaining stream = some (chunks, rest))
    (hn : remaining ≤ n * chunkSize) :
    remaining ≤ stream.length ∧ Chunked chunks (stream.take remaining) := by
  induction n generalizing i remaining stream chunks with
  | zero =>
    rw [Nat.zero_mul] at hn
    rw [Nat.le_zero.mp hn]
    exact ⟨Nat.zero_le _, fun c hc => absurd hc (Nat.not_lt_zero _)⟩
  | succ n ih =>
    rw [readIntoChunksLoop] at h
    simp only at h
    split at h
    · rename_i memory data stream' hmemory hread
      split at h
      · obtain ⟨⟨chunks', rest'⟩, hrest, heq⟩ := Option.map_eq_some_iff.mp h
        cases heq
        obtain ⟨hlen, hdata, hstream⟩ : min remaining chunkSize ≤ stream.length ∧
            stream.take (min remaining chunkSize) = data ∧
            stream.drop (min remaining chunkSize) = stream' := by
          unfold readN at hread
          split at hread
          · rename_i hle
            cases hread
            exact ⟨hle, rfl, rfl⟩
          · cases hread
        obtain ⟨hless, hchunked⟩ := ih hrest (by rw [Nat.succ_mul] at hn; omega)
        have hremaining : remaining ≤ stream.length := by
          rw [← hstream, List.length_drop] at hless
          omega
        refine ⟨hremaining, fun c hc => ?_⟩
        rw [List.length_take_of_le hremaining] at hc
        cases c with
        | zero =>
          refine ⟨_, rfl, ?_⟩
          rw [Nat.zero_mul, List.drop_zero, List.take_take, Nat.min_comm, hdata]
          exact List.prefix_append _ _
        | succ c =>
          rw [Nat.succ_mul] at hc
          have hfull : min remaining chunkSize = chunkSize := Nat.min_eq_right (by omega)
          rw [hfull] at hstream hchunked hless
          obtain ⟨mem, hmem, hpiece⟩ := hchunked c (by
            rw [List.length_take_of_le hless]
            omega)
          refine ⟨mem, hmem, ?_⟩
          rw [← hstream, ← List.drop_take, List.drop_drop, Nat.add_comm] at hpiece
          rwa [Nat.succ_mul]
      · cases h
    · cases h

theorem chunked_read {env : Nat → ChunkRead} {stream rest : Bytes} (hsize : size ≤ maxBlobDataSize)
    (h : readIntoChunks env stream size = some (chunks, rest)) :
    size ≤ stream.length ∧ Chunked chunks (stream.take size) := by
  unfold readIntoChunks at h
  split at h
  · cases h
  · refine chunked_readLoop h ?_
    have hpos := chunkSize_pos
    have hlt : size + (chunkSize - 1) < 2 ^ 64 := by
      have hchunk : chunkSize = 1048576 := rfl
      have hmax : maxBlobDataSize = 16777216 := rfl
      omega
    have hdiv := Nat.div_add_mod' (size + (chunkSize - 1)) chunkSize
    have hmod := Nat.mod_lt (size + (chunkSize - 1)) hpos
    rw [ceilDivChunkSize, Nat.mod_eq_of_lt hlt]
    omega

end ChunkWalksLemmas

open ChunkWalksLemmas

/-- What `evr_calc_blob_ref`, `write_chunk_set` and `evr_glacier_append_blob` read of a chunk set is
the content, and none of them uses a pointer behind the last that a chunk set has room for: for each
buffer of at most 16 MiB that `evr_chunk_setify` takes, and for each stream of at most 16 MiB that
`read_into_chunks` reads. `evr_work_put_blob`, which is its only caller, refuses a longer one. -/
theorem chunk_walks_agree :
    (∀ (mem : Bytes) (size : Nat), size ≤ mem.length → size ≤ maxBlobDataSize →
      ∃ chunks, chunkSetify mem size = some chunks ∧ WalksAgree chunks size (mem.take size)) ∧
    ∀ (env : Nat → ChunkRead) (stream : Bytes) (size : Nat) (chunks : List Bytes) (rest : Bytes),
      size ≤ maxBlobDataSize → readIntoChunks env stream size = some (chunks, rest) →
      WalksAgree chunks size (stream.take size) := by
  constructor
  · intro mem size hmem hsize
    have hfits : ¬ chunkSetMaxChunks < size / chunkSize + 1 := by
      unfold maxBlobDataSize at hsize
      unfold chunkSetMaxChunks chunkSize
      omega
    have hset : chunkSetify mem size = some _ := if_neg hfits
    have hlen := List.length_take_of_le hmem
    have hwalks := walks_chunked (chunked_setify hmem hset) (by rw [hlen]; exact hsize)
    rw [hlen] at hwalks
    exact ⟨_, hset, hwalks⟩
  · intro env stream size chunks rest hsize hread
    obtain ⟨hmem, hchunked⟩ := chunked_read hsize hread
    have hlen := List.length_take_of_le hmem
    have hwalks := walks_chunked hchunked (by rw [hlen]; exact hsize)
    rwa [hlen] at hwalks

/-- A buffer of 16 MiB, an empty one and a stream of one byte. -/
theorem chunk_walks_agree_sizes :
    (∃ chunks, chunkSetify (List.replicate maxBlobDataSize 7) maxBlobDataSize = some chunks ∧
      WalksAgree chunks maxBlobDataSize
        ((List.replicate maxBlobDataSize 7).take maxBlobDataSize)) ∧
    (∃ chunks, chunkSetify [] 0 = some chunks ∧ WalksAgree chunks 0 []) ∧
    WalksAgree [[1] ++ ((List.range chunkSize).map fun _ => 7).drop 1] 1 [1] :=
  ⟨chunk_walks_agree.1 (List.replicate maxBlobDataSize 7) maxBlobDataSize
      (by rw [List.length_replicate]) (Nat.le_refl _),
    chunk_walks_agree.1 [] 0 (Nat.le_refl _) (Nat.zero_le _),
    chunk_walks_agree.2 (fun _ => ⟨some fun _ => 7, true⟩) [1] 1 _ [] (by decide) rfl⟩

/-! ## The loops over lists of chunks -/

theorem ChunkWalksLemmas.lists_of_visited {chunks : List Bytes} (c remaining : Nat) {bs : Bytes}
    (h : visitedBytes chunks (writeLoop c remaining) = some bs) :
    chunkBytes remaining (chunks.drop c) = bs ∧
      (bodyPieces remaining (chunks.drop c)).flatten = bs := by
  induction c, remaining using writeLoop.induct generalizing bs with
  | case1 c remaining hpos ih =>
    rw [writeLoop_pos c hpos, visitedBytes] at h
    obtain ⟨piece, hvisit, hmap⟩ := Option.bind_eq_some_iff.mp h
    obtain ⟨bs', hrest, rfl⟩ := Option.map_eq_some_iff.mp hmap
    have hchunk := chunkSize_pos
    rw [readVisit, if_neg (show min chunkSize remaining ≠ 0 by omega)] at hvisit
    obtain ⟨mem, hmem, hpiece⟩ := Option.bind_eq_some_iff.mp hvisit
    split at hpiece
    · cases hpiece
      obtain ⟨hlt, hget⟩ := List.getElem?_eq_some_iff.mp hmem
      obtain ⟨hbytes, hpieces⟩ := ih hrest
      rw [List.drop_eq_getElem_cons hlt, hget, chunkBytes, bodyPieces,
        if_neg (Nat.pos_iff_ne_zero.mp hpos), List.flatten_cons, Nat.min_comm remaining, hbytes,
        hpieces]
      exact ⟨rfl, rfl⟩
    · cases hpiece
  | case2 c remaining hzero =>
    rw [writeLoop, dif_neg hzero] at h
    cases h
    rw [Nat.eq_zero_of_not_pos hzero, RoundTripLemmas.chunkBytes_zero]
    cases chunks.drop c <;> exact ⟨rfl, rfl⟩

/-- The content that a file is posted with and that a blob is stored with is what the walks read. -/
theorem WalksAgree.content_eq {chunks : List Bytes} {size : Nat} {content : Bytes}
    (h : WalksAgree chunks size content) : chunkBytes size chunks = content ∧
      (bodyPieces size chunks).flatten = content :=
  lists_of_visited 0 size h.write

end Everarch
