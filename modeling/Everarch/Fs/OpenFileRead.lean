import Everarch.Cli.RoundTrip
import Everarch.Client.Get
import Everarch.Lib.Run

/-!
# Reading from an open file

`evr_open_file_read` of open-files.c walks the slices of the file's claim, loads those that the read
asks for and copies the part of each that it asks for. One slice stays loaded.

* `openFileCacheSlice`, `openFileRead`: the code. A copy is logged with the buffer that it reads.
* `readPlan`: the parts that a read asks for, which depend on the claim only.
* `OpenFileLemmas.loop_eq`: the read loads the parts of its plan one after the other, up to the
  first slice that it does not get.
* `SliceReader.Verified`: the cache holds nothing, or bytes with the hash of its slice.

The offset is an `off_t`, the sizes and the place of a slice are what 64 bits make of them.

Result: `cache_verified_run`.
-/

namespace Everarch

/-- Conversion to `size_t`. -/
def toSizeT (n : Int) : Nat :=
  (n % 2 ^ 64).toNat

/-! ## Loading -/

/-- The part of `struct evr_open_file` that reads look at. -/
structure SliceReader where
  slices : List FileSlice
  cachedSliceIndex : Nat
  cachedSliceBuf : Option Bytes

/-- What a call of `evr_open_file_cache_slice` meets: whether the command can be written, the bytes
that can be read behind it, the memory that `malloc` returns, none for a null pointer, and whether
the hash can be opened. -/
structure SliceFetch where
  written : Bool
  stream : Bytes
  memory : Option (Nat → UInt8)
  hashOpened : Bool

/-- The header of a response with a blob in it, and what comes behind the flags. -/
def SliceFetch.response (call : SliceFetch) : Option (RespHeader × Bytes) :=
  if call.written = false then none
  else
    match reqCmdGetBlob call.stream with
    | none => none
    | some (rhdr, body) =>
      if rhdr.statusCode ≠ statusCodeOk then none
      else if rhdr.bodySize < 1 then none
      else (readN 1 body).map fun (_, body) => (rhdr, body)

/-- `evr_open_file_cache_slice`, without what becomes of the connection. -/
def openFileCacheSlice (hash : Bytes → BlobRef) (call : SliceFetch) (si : Nat) (s : FileSlice)
    (f : SliceReader) : Res × SliceReader :=
  match call.response with
  | none => (.error, f)
  | some (rhdr, body) =>
    let blobSize := rhdr.bodySize - 1
    match call.memory with
    | none => (.error, { f with cachedSliceIndex := si, cachedSliceBuf := none })
    | some memory =>
      if call.hashOpened = false then
        -- the buffer stays as malloc returned it
        (.error, { f with
          cachedSliceIndex := si
          cachedSliceBuf := some ((List.range blobSize).map memory) })
      else
        match readN blobSize body with
        | none => (.error, { f with cachedSliceIndex := si, cachedSliceBuf := none })
        | some (data, _) =>
          if hash data = s.ref then
            (.ok, { f with cachedSliceIndex := si, cachedSliceBuf := some data })
          else (.error, { f with cachedSliceIndex := si, cachedSliceBuf := none })

/-! ## Reading -/

/-- A `memcpy` of a read: the slice, the place and the number of bytes in the buffer `buf`, and the
place where they go. -/
structure SliceCopy where
  slice : Nat
  from_ : Nat
  count : Nat
  buf : Bytes
  dest : Nat
deriving DecidableEq

/-- The bytes that are copied. `foreign` is what stands behind the buffer. -/
def SliceCopy.bytes (foreign : Nat → UInt8) (c : SliceCopy) : Bytes :=
  (List.range c.count).map fun k => c.buf.getD (c.from_ + k) (foreign (c.from_ + k))

/-- The variables of `evr_open_file_read`, with the copies it has made. -/
structure FileReadState where
  f : SliceReader
  slicesOff : Int
  written : Nat
  copies : List SliceCopy

/-- The cached slice, or the one that is loaded in its place. -/
def ensureSlice (hash : Bytes → BlobRef) (call : SliceFetch) (si : Nat) (s : FileSlice)
    (f : SliceReader) : Res × SliceReader :=
  if f.cachedSliceBuf = none ∨ f.cachedSliceIndex ≠ si then openFileCacheSlice hash call si s f
  else (.ok, f)

/-- The loop of `evr_open_file_read` over the slices from `si` on. -/
def openFileReadLoop (hash : Bytes → BlobRef) (fetch : Nat → SliceFetch) (size : Nat) (off : Int) :
    Nat → List FileSlice → FileReadState → Res × FileReadState
  | _, [], st => (.ok, st)
  | si, s :: ss, st =>
    if toSizeT off < toSizeT (st.slicesOff + s.size) then
      match ensureSlice hash (fetch si) si s st.f with
      | (.ok, f) =>
        let sOff := if off ≤ st.slicesOff then 0 else off - st.slicesOff
        let remainingBytes := size - st.written
        let rest := toSizeT (s.size - sOff)
        let sSize := if rest ≤ remainingBytes then rest else remainingBytes
        let copy : SliceCopy := ⟨si, sOff.toNat, sSize, f.cachedSliceBuf.getD [], st.written⟩
        let st := { st with
          f := f
          written := st.written + sSize
          copies := st.copies ++ [copy] }
        if st.written = size then (.ok, st)
        else
          openFileReadLoop hash fetch size off (si + 1) ss
            { st with slicesOff := toInt64 (st.slicesOff + s.size) }
      | (_, f) => (.error, { st with f := f })
    else
      openFileReadLoop hash fetch size off (si + 1) ss
        { st with slicesOff := toInt64 (st.slicesOff + s.size) }

/-- A call of `evr_open_file_read`: whether it gets the lock, and what loading each slice meets. -/
structure ReadCall where
  size : Nat
  off : Int
  lock : Bool
  fetch : Nat → SliceFetch

/-- What a call of `evr_open_file_read` leaves: its result, `*size`, the file and the copies. -/
structure ReadOutcome where
  res : Res
  size : Nat
  f : SliceReader
  copies : List SliceCopy

/-- `evr_open_file_read`. -/
def openFileRead (hash : Bytes → BlobRef) (call : ReadCall) (f : SliceReader) : ReadOutcome :=
  if call.lock then
    let (res, st) := openFileReadLoop hash call.fetch call.size call.off 0 f.slices ⟨f, 0, 0, []⟩
    ⟨res, if res = .ok then st.written else call.size, st.f, st.copies⟩
  else ⟨.error, call.size, f, []⟩

/-- The bytes in the buffer of the caller. -/
def ReadOutcome.bytes (foreign : Nat → UInt8) (out : ReadOutcome) : Bytes :=
  out.copies.flatMap (SliceCopy.bytes foreign)

/-! ## Plans -/

/-- A part of a slice that a read asks for. -/
structure SlicePart where
  slice : Nat
  from_ : Nat
  count : Nat
deriving DecidableEq

/-- `s_off` for a slice at `slicesOff`. -/
def partFrom (off slicesOff : Int) : Int :=
  if off ≤ slicesOff then 0 else off - slicesOff

/-- `s->size - s_off`. -/
def partRest (s : FileSlice) (off slicesOff : Int) : Nat :=
  toSizeT (s.size - partFrom off slicesOff)

/-- The part of slice `si` at `slicesOff` when `written` bytes have been read. -/
def partAt (size : Nat) (off : Int) (si : Nat) (s : FileSlice) (slicesOff : Int) (written : Nat) :
    SlicePart :=
  ⟨si, (partFrom off slicesOff).toNat, min (partRest s off slicesOff) (size - written)⟩

/-- The parts that a read asks for from slice `si` on, which starts at `slicesOff`. -/
def readPlan (size : Nat) (off : Int) : Nat → List FileSlice → Int → Nat → List SlicePart
  | _, [], _, _ => []
  | si, s :: ss, slicesOff, written =>
    if toSizeT off < toSizeT (slicesOff + s.size) then
      let p := partAt size off si s slicesOff written
      p :: if written + p.count = size then []
        else readPlan size off (si + 1) ss (toInt64 (slicesOff + s.size)) (written + p.count)
    else readPlan size off (si + 1) ss (toInt64 (slicesOff + s.size)) written

/-- The bytes of a slice that a call loads and verifies. -/
def SliceFetch.verified (hash : Bytes → BlobRef) (call : SliceFetch) (ref : BlobRef) :
    Option Bytes :=
  match call.response with
  | none => none
  | some (rhdr, body) =>
    if call.memory = none ∨ call.hashOpened = false then none
    else
      match readN (rhdr.bodySize - 1) body with
      | none => none
      | some (data, _) => if hash data = ref then some data else none

/-- The buffer of a slice: the cached one, or the one that is loaded. -/
def SliceReader.get (hash : Bytes → BlobRef) (fetch : Nat → SliceFetch) (f : SliceReader)
    (si : Nat) : Option Bytes :=
  if f.cachedSliceBuf = none ∨ f.cachedSliceIndex ≠ si then
    (f.slices[si]?).bind fun s => (fetch si).verified hash s.ref
  else f.cachedSliceBuf

/-- The buffers of a read that asks for the parts `ps` first: behind the first of them, every slice
is loaded. -/
def getFrom (hash : Bytes → BlobRef) (fetch : Nat → SliceFetch) (f : SliceReader)
    (ps : List SlicePart) (si : Nat) : Option Bytes :=
  if ps.head?.map SlicePart.slice = some si then f.get hash fetch si
  else (f.slices[si]?).bind fun s => (fetch si).verified hash s.ref

/-- The copies of parts one after the other, up to the first slice that is not there. -/
def copyParts (get : Nat → Option Bytes) : List SlicePart → Nat → Res × List SliceCopy
  | [], _ => (.ok, [])
  | p :: ps, written =>
    match get p.slice with
    | none => (.error, [])
    | some buf =>
      let (res, copies) := copyParts get ps (written + p.count)
      (res, ⟨p.slice, p.from_, p.count, buf, written⟩ :: copies)

/-- The cache holds nothing, or bytes with the hash of the slice at its index. -/
def SliceReader.Verified (hash : Bytes → BlobRef) (f : SliceReader) : Prop :=
  ∀ buf, f.cachedSliceBuf = some buf →
    ∃ s, f.slices[f.cachedSliceIndex]? = some s ∧ hash buf = s.ref

/-- The plan of a read. -/
def ReadCall.plan (call : ReadCall) (slices : List FileSlice) : List SlicePart :=
  readPlan call.size call.off 0 slices 0 0

/-- The buffers that a read copies from. -/
def ReadCall.get (hash : Bytes → BlobRef) (call : ReadCall) (f : SliceReader) (si : Nat) :
    Option Bytes :=
  getFrom hash call.fetch f (call.plan f.slices) si

/-- Where a slice is loaded into memory, its hash can be opened, unless the memory happens to have
it already. -/
def ReadCall.HashOpens (hash : Bytes → BlobRef) (call : ReadCall) (slices : List FileSlice) : Prop :=
  ∀ si s resp body memory, slices[si]? = some s → (call.fetch si).response = some (resp, body) →
    (call.fetch si).memory = some memory → (call.fetch si).hashOpened = false →
    hash ((List.range (resp.bodySize - 1)).map memory) = s.ref

namespace OpenFileLemmas

variable {hash : Bytes → BlobRef} {call : SliceFetch} {si : Nat} {s : FileSlice} {f f' : SliceReader}

/-- What a call leaves: the slice that it verified, an empty cache, the cache as it was, or, where
the hash cannot be opened, memory that nobody has looked at. -/
theorem cacheSlice_cases (hash : Bytes → BlobRef) (call : SliceFetch) (si : Nat) (s : FileSlice)
    (f : SliceReader) :
    (∃ data, call.verified hash s.ref = some data ∧ openFileCacheSlice hash call si s f =
        (.ok, { f with cachedSliceIndex := si, cachedSliceBuf := some data })) ∨
      (call.verified hash s.ref = none ∧
        ((openFileCacheSlice hash call si s f = (.error, f)) ∨
          openFileCacheSlice hash call si s f =
            (.error, { f with cachedSliceIndex := si, cachedSliceBuf := none }) ∨
          ∃ resp body memory, call.response = some (resp, body) ∧ call.memory = some memory ∧
            call.hashOpened = false ∧ openFileCacheSlice hash call si s f =
              (.error, { f with
                cachedSliceIndex := si
                cachedSliceBuf := some ((List.range (resp.bodySize - 1)).map memory) }))) := by
  unfold openFileCacheSlice SliceFetch.verified
  cases hresp : call.response with
  | none => exact .inr ⟨rfl, .inl rfl⟩
  | some r =>
    obtain ⟨rhdr, body⟩ := r
    cases hmem : call.memory with
    | none => exact .inr ⟨rfl, .inr (.inl rfl)⟩
    | some memory =>
      cases hopen : call.hashOpened with
      | false => exact .inr ⟨rfl, .inr (.inr ⟨rhdr, body, memory, rfl, rfl, rfl, rfl⟩)⟩
      | true =>
        cases hread : readN (rhdr.bodySize - 1) body with
        | none => exact .inr ⟨by simp [hread], .inr (.inl (by simp [hread]))⟩
        | some d =>
          by_cases hhash : hash d.1 = s.ref
          · exact .inl ⟨d.1, by simp [hread, hhash], by simp [hread, hhash]⟩
          · exact .inr ⟨by simp [hread, hhash], .inr (.inl (by simp [hread, hhash]))⟩

theorem verified_hash {data : Bytes} {ref : BlobRef} (h : call.verified hash ref = some data) :
    hash data = ref := by
  unfold SliceFetch.verified at h
  split at h
  · cases h
  · split at h
    · cases h
    · split at h
      · cases h
      · split at h
        · rename_i hhash
          cases h
          exact hhash
        · cases h

theorem ensureSlice_slices (hash : Bytes → BlobRef) (call : SliceFetch) (si : Nat) (s : FileSlice)
    (f : SliceReader) : (ensureSlice hash call si s f).2.slices = f.slices := by
  unfold ensureSlice
  split
  · rcases cacheSlice_cases hash call si s f with ⟨_, _, h⟩ | ⟨_, h | h | ⟨_, _, _, _, _, _, h⟩⟩ <;>
      rw [h]
  · rfl

theorem ensureSlice_some {buf : Bytes} {fetch : Nat → SliceFetch} (hs : f.slices[si]? = some s)
    (h : f.get hash fetch si = some buf) : ensureSlice hash (fetch si) si s f =
      (.ok, { f with cachedSliceIndex := si, cachedSliceBuf := some buf }) := by
  unfold SliceReader.get at h
  unfold ensureSlice
  split at h
  · rename_i hmiss
    rw [hs, Option.bind_some] at h
    rw [if_pos hmiss]
    rcases cacheSlice_cases hash (fetch si) si s f with ⟨data, hdata, hload⟩ | ⟨hnone, -⟩
    · rw [h] at hdata
      cases hdata
      exact hload
    · rw [h] at hnone
      cases hnone
  · rename_i hhit
    obtain ⟨-, hindex⟩ := not_or.mp hhit
    rw [if_neg hhit, ← not_not.mp hindex, ← h]

theorem ensureSlice_none {fetch : Nat → SliceFetch} (hs : f.slices[si]? = some s)
    (h : f.get hash fetch si = none) : (ensureSlice hash (fetch si) si s f).1 = .error := by
  unfold SliceReader.get at h
  unfold ensureSlice
  split at h
  · rename_i hmiss
    rw [hs, Option.bind_some] at h
    rw [if_pos hmiss]
    rcases cacheSlice_cases hash (fetch si) si s f with
      ⟨data, hdata, -⟩ | ⟨-, hload | hload | ⟨_, _, _, _, _, _, hload⟩⟩
    · rw [h] at hdata
      cases hdata
    · rw [hload]
    · rw [hload]
    · rw [hload]
  · rename_i hhit
    exact absurd h (not_or.mp hhit).1

/-! ## Reads follow their plan -/

/-- The slice that a loop over the slices from `i` on comes to. -/
theorem of_cons_eq_drop {α : Type} {x : α} {rest xs : List α} {i : Nat}
    (h : x :: rest = xs.drop i) : xs[i]? = some x ∧ rest = xs.drop (i + 1) := by
  constructor
  · have hhead := congrArg List.head? h
    rw [List.head?_drop] at hhead
    exact hhead.symm
  · rw [← List.tail_drop, ← h, List.tail_cons]

theorem readPlan_ge {size : Nat} {off : Int} {ss : List FileSlice} {si written : Nat}
    {slicesOff : Int} {p : SlicePart} (h : p ∈ readPlan size off si ss slicesOff written) :
    si ≤ p.slice := by
  induction ss generalizing si slicesOff written with
  | nil => exact absurd h List.not_mem_nil
  | cons s ss ih =>
    rw [readPlan] at h
    split at h
    · rcases List.mem_cons.mp h with rfl | hrest
      · exact Nat.le_refl _
      · split at hrest
        · exact absurd hrest List.not_mem_nil
        · exact Nat.le_of_succ_le (ih hrest)
    · exact Nat.le_of_succ_le (ih h)

theorem copyParts_congr {get get' : Nat → Option Bytes} {ps : List SlicePart}
    (h : ∀ p ∈ ps, get p.slice = get' p.slice) (written : Nat) :
    copyParts get ps written = copyParts get' ps written := by
  induction ps generalizing written with
  | nil => rfl
  | cons p ps ih =>
    rw [copyParts, copyParts, h p List.mem_cons_self,
      ih (fun q hq => h q (List.mem_cons_of_mem p hq))]

/-- Behind the first slice of a read every slice is loaded. -/
theorem getFrom_tail {fetch : Nat → SliceFetch} (p : SlicePart) {ps : List SlicePart} (buf : Bytes)
    (hps : ∀ q ∈ ps, p.slice < q.slice) {q : SlicePart} (hq : q ∈ ps) :
    getFrom hash fetch { f with cachedSliceIndex := p.slice, cachedSliceBuf := some buf } ps q.slice =
      getFrom hash fetch f (p :: ps) q.slice := by
  have hne : p.slice ≠ q.slice := Nat.ne_of_lt (hps q hq)
  have hmiss : SliceReader.get hash fetch
      { f with cachedSliceIndex := p.slice, cachedSliceBuf := some buf } q.slice =
      (f.slices[q.slice]?).bind fun s => (fetch q.slice).verified hash s.ref := by
    unfold SliceReader.get
    rw [if_pos (.inr hne)]
  unfold getFrom
  rw [hmiss, ite_self, if_neg]
  intro h
  exact hne (Option.some.inj h)

/-- The read copies the parts of its plan. -/
theorem loop_eq (hash : Bytes → BlobRef) (fetch : Nat → SliceFetch) (size : Nat) (off : Int)
    (si : Nat) (ss : List FileSlice) (st : FileReadState) (hss : ss = st.f.slices.drop si) :
    ∃ res st', openFileReadLoop hash fetch size off si ss st = (res, st') ∧
      st'.f.slices = st.f.slices ∧
      ∃ copies, copyParts (getFrom hash fetch st.f
        (readPlan size off si ss st.slicesOff st.written))
        (readPlan size off si ss st.slicesOff st.written) st.written = (res, copies) ∧
        st'.copies = st.copies ++ copies ∧
        (res = .ok → st'.written = st.written + (copies.map SliceCopy.count).sum) := by
  induction ss generalizing si st with
  | nil => exact ⟨.ok, st, rfl, rfl, [], rfl, (List.append_nil _).symm, fun _ => rfl⟩
  | cons s ss ih =>
    obtain ⟨hs, hrest⟩ := of_cons_eq_drop hss
    rw [openFileReadLoop, readPlan]
    split
    · rename_i hask
      have hhead : ∀ ps, getFrom hash fetch st.f
          (partAt size off si s st.slicesOff st.written :: ps) si = st.f.get hash fetch si :=
        fun ps => if_pos rfl
      cases hget : st.f.get hash fetch si with
      | none =>
        have herr := ensureSlice_none hs hget
        have hslices := ensureSlice_slices hash (fetch si) si s st.f
        generalize ensureSlice hash (fetch si) si s st.f = out at herr hslices ⊢
        obtain ⟨res, f⟩ := out
        cases herr
        refine ⟨.error, _, rfl, hslices, [], ?_, (List.append_nil _).symm,
          fun h => Res.noConfusion h⟩
        simp only [copyParts]
        rw [show (partAt size off si s st.slicesOff st.written).slice = si from rfl, hhead, hget]
      | some buf =>
        rw [ensureSlice_some hs hget]
        let p := partAt size off si s st.slicesOff st.written
        let st₂ : FileReadState := { st with
          f := { st.f with cachedSliceIndex := si, cachedSliceBuf := some buf }
          written := st.written + p.count
          copies := st.copies ++ [⟨si, p.from_, p.count, buf, st.written⟩] }
        show ∃ res st', (if st₂.written = size then (.ok, st₂)
          else openFileReadLoop hash fetch size off (si + 1) ss
            { st₂ with slicesOff := toInt64 (st.slicesOff + s.size) }) = (res, st') ∧ _
        simp only [copyParts]
        rw [show (partAt size off si s st.slicesOff st.written).slice = si from rfl, hhead, hget]
        by_cases hdone : st₂.written = size
        · refine ⟨.ok, st₂, if_pos hdone, rfl, [⟨si, p.from_, p.count, buf, st.written⟩], ?_, rfl,
            fun _ => ?_⟩
          · rw [if_pos hdone]
            rfl
          · simp [st₂]
        · obtain ⟨res, st', hrun, hslices, copies, hcopies, heq, hwritten⟩ :=
            ih (si + 1) { st₂ with slicesOff := toInt64 (st.slicesOff + s.size) } hrest
          refine ⟨res, st', (if_neg hdone).trans hrun, hslices,
            ⟨si, p.from_, p.count, buf, st.written⟩ :: copies, ?_, ?_, fun hok => ?_⟩
          · rw [if_neg hdone]
            let plan := readPlan size off (si + 1) ss (toInt64 (st.slicesOff + s.size))
              (st.written + p.count)
            have htail : copyParts (getFrom hash fetch st.f (p :: plan)) plan
                (st.written + p.count) = (res, copies) :=
              (copyParts_congr (fun q hq => getFrom_tail p buf
                (fun q hq => Nat.lt_of_succ_le (readPlan_ge hq)) hq) _).symm.trans hcopies
            exact congrArg (fun r => (r.1, (⟨si, p.from_, p.count, buf, st.written⟩ :: r.2))) htail
          · rw [heq]
            simp [st₂]
          · rw [hwritten hok, List.map_cons, List.sum_cons, ← Nat.add_assoc]
    · obtain ⟨res, st', hrun, hslices, copies, hcopies, heq, hwritten⟩ :=
        ih (si + 1) { st with slicesOff := toInt64 (st.slicesOff + s.size) } hrest
      exact ⟨res, st', hrun, hslices, copies, hcopies, heq, hwritten⟩

/-- A read that has the lock copies the parts of its plan. -/
theorem read_eq (hash : Bytes → BlobRef) (call : ReadCall) (f : SliceReader)
    (hlock : call.lock = true) :
    ((openFileRead hash call f).res, (openFileRead hash call f).copies) =
        copyParts (call.get hash f) (call.plan f.slices) 0 ∧
      ((openFileRead hash call f).res = .ok → (openFileRead hash call f).size =
        ((openFileRead hash call f).copies.map SliceCopy.count).sum) := by
  obtain ⟨res, st', hrun, -, copies, hcopies, heq, hwritten⟩ := loop_eq hash call.fetch call.size
    call.off 0 f.slices ⟨f, 0, 0, []⟩ List.drop_zero.symm
  unfold openFileRead
  rw [if_pos hlock, hrun]
  simp only at heq hwritten ⊢
  rw [List.nil_append] at heq
  rw [heq]
  refine ⟨hcopies.symm, fun hok => ?_⟩
  rw [if_pos hok, hwritten hok, Nat.zero_add]

theorem read_unlocked (hash : Bytes → BlobRef) (call : ReadCall) (f : SliceReader)
    (hlock : call.lock = false) : openFileRead hash call f = ⟨.error, call.size, f, []⟩ := by
  unfold openFileRead
  rw [hlock]
  rfl

theorem copyParts_ok_iff {get : Nat → Option Bytes} {ps : List SlicePart} (written : Nat) :
    (copyParts get ps written).1 = .ok ↔ ∀ p ∈ ps, get p.slice ≠ none := by
  induction ps generalizing written with
  | nil => simp [copyParts]
  | cons p ps ih =>
    rw [copyParts, List.forall_mem_cons, ← ih (written + p.count)]
    cases hget : get p.slice with
    | none => simp
    | some buf => simp

/-- A copy is made of a part where its slice and all before it are there. -/
theorem mem_copyParts {get : Nat → Option Bytes} {ps : List SlicePart} {written : Nat}
    {c : SliceCopy} : c ∈ (copyParts get ps written).2 ↔ ∃ ps₁ p ps₂ buf,
      ps = ps₁ ++ p :: ps₂ ∧ (∀ q ∈ ps₁, get q.slice ≠ none) ∧ get p.slice = some buf ∧
        c = ⟨p.slice, p.from_, p.count, buf, written + (ps₁.map SlicePart.count).sum⟩ := by
  induction ps generalizing written with
  | nil => simp [copyParts]
  | cons p ps ih =>
    rw [copyParts]
    constructor
    · intro h
      cases hget : get p.slice with
      | none =>
        rw [hget] at h
        exact absurd h List.not_mem_nil
      | some buf =>
        rw [hget] at h
        rcases List.mem_cons.mp h with rfl | hrest
        · exact ⟨[], p, ps, buf, rfl, fun _ h => absurd h List.not_mem_nil, hget, rfl⟩
        · obtain ⟨ps₁, q, ps₂, buf', rfl, hbefore, hq, rfl⟩ := ih.mp hrest
          refine ⟨p :: ps₁, q, ps₂, buf', rfl, ?_, hq, ?_⟩
          · exact List.forall_mem_cons.mpr ⟨by simp [hget], hbefore⟩
          · rw [List.map_cons, List.sum_cons, Nat.add_assoc]
    · rintro ⟨ps₁, q, ps₂, buf, heq, hbefore, hq, rfl⟩
      cases ps₁ with
      | nil =>
        obtain ⟨rfl, rfl⟩ := List.cons.inj heq
        rw [hq]
        exact List.mem_cons_self
      | cons p' ps₁ =>
        obtain ⟨rfl, rfl⟩ := List.cons.inj heq
        obtain ⟨buf', hget⟩ := Option.ne_none_iff_exists'.mp (hbefore p List.mem_cons_self)
        rw [hget]
        refine List.mem_cons_of_mem _ (ih.mpr ⟨ps₁, q, ps₂, buf, rfl, ?_, hq, ?_⟩)
        · exact fun r hr => hbefore r (List.mem_cons_of_mem p hr)
        · rw [List.map_cons, List.sum_cons, Nat.add_assoc]

/-! ## The cache -/

theorem get_hash (hf : f.Verified hash) {call : ReadCall} {si : Nat} {buf : Bytes}
    (h : call.get hash f si = some buf) : ∃ s, f.slices[si]? = some s ∧ hash buf = s.ref := by
  have hload : ∀ {buf}, (f.slices[si]?).bind (fun s => (call.fetch si).verified hash s.ref) =
      some buf → ∃ s, f.slices[si]? = some s ∧ hash buf = s.ref := by
    intro buf h
    obtain ⟨s, hs, hverified⟩ := Option.bind_eq_some_iff.mp h
    exact ⟨s, hs, verified_hash hverified⟩
  unfold ReadCall.get getFrom at h
  split at h
  · unfold SliceReader.get at h
    split at h
    · exact hload h
    · rename_i hhit
      have hindex := not_not.mp (not_or.mp hhit).2
      rw [← hindex]
      exact hf buf h
  · exact hload h

/-- Loading a slice keeps the cache as it must be, unless its hash cannot be opened. -/
theorem ensureSlice_verified (hf : f.Verified hash) {call : ReadCall} {si : Nat} {s : FileSlice}
    (hs : f.slices[si]? = some s) (hopens : call.HashOpens hash f.slices) :
    (ensureSlice hash (call.fetch si) si s f).2.Verified hash := by
  unfold ensureSlice
  split
  · rcases cacheSlice_cases hash (call.fetch si) si s f with
      ⟨data, hdata, hload⟩ | ⟨-, hload | hload | ⟨resp, body, memory, hresp, hmem, hclosed, hload⟩⟩
    · rw [hload]
      intro buf hbuf
      cases hbuf
      exact ⟨s, hs, verified_hash hdata⟩
    · rw [hload]
      exact hf
    · rw [hload]
      intro buf hbuf
      cases hbuf
    · rw [hload]
      intro buf hbuf
      cases hbuf
      exact ⟨s, hs, hopens si s resp body memory hs hresp hmem hclosed⟩
  · exact hf

theorem loop_verified {call : ReadCall} (si : Nat) (ss : List FileSlice) (st : FileReadState)
    (hss : ss = st.f.slices.drop si) (hf : st.f.Verified hash)
    (hopens : call.HashOpens hash st.f.slices) :
    (openFileReadLoop hash call.fetch call.size call.off si ss st).2.f.Verified hash ∧
      (openFileReadLoop hash call.fetch call.size call.off si ss st).2.f.slices = st.f.slices := by
  induction ss generalizing si st with
  | nil => exact ⟨hf, rfl⟩
  | cons s ss ih =>
    obtain ⟨hs, hrest⟩ := of_cons_eq_drop hss
    rw [openFileReadLoop]
    split
    · have hkept := ensureSlice_verified hf hs hopens
      have hslices := ensureSlice_slices hash (call.fetch si) si s st.f
      generalize ensureSlice hash (call.fetch si) si s st.f = out at hkept hslices ⊢
      obtain ⟨res, f⟩ := out
      simp only at hkept hslices ⊢
      split
      · rename_i heq
        cases heq
        have hnext : ∀ slicesOff written copies,
            (openFileReadLoop hash call.fetch call.size call.off (si + 1) ss
              ⟨f, slicesOff, written, copies⟩).2.f.Verified hash ∧
            (openFileReadLoop hash call.fetch call.size call.off (si + 1) ss
              ⟨f, slicesOff, written, copies⟩).2.f.slices = st.f.slices := by
          intro slicesOff written copies
          have hstep := ih (si + 1) ⟨f, slicesOff, written, copies⟩
            (hrest.trans (congrArg _ hslices.symm)) hkept (by rw [hslices]; exact hopens)
          exact ⟨hstep.1, hstep.2.trans hslices⟩
        split_ifs
        all_goals first | exact ⟨hkept, hslices⟩ | exact hnext _ _ _
      · rename_i heq
        cases heq
        exact ⟨hkept, hslices⟩
    · exact ih (si + 1) _ hrest hf hopens

theorem read_verified (hf : f.Verified hash) {call : ReadCall}
    (hopens : call.HashOpens hash f.slices) : (openFileRead hash call f).f.Verified hash ∧
      (openFileRead hash call f).f.slices = f.slices := by
  cases hlock : call.lock with
  | false =>
    rw [read_unlocked hash call f hlock]
    exact ⟨hf, rfl⟩
  | true =>
    unfold openFileRead
    rw [if_pos hlock]
    exact loop_verified 0 f.slices ⟨f, 0, 0, []⟩ List.drop_zero.symm hf hopens

/-- What is read from a cache as it must be has been verified. -/
theorem copies_verified (hf : f.Verified hash) {call : ReadCall} {c : SliceCopy}
    (hc : c ∈ (openFileRead hash call f).copies) :
    ∃ s, f.slices[c.slice]? = some s ∧ hash c.buf = s.ref := by
  cases hlock : call.lock with
  | false =>
    rw [read_unlocked hash call f hlock] at hc
    exact absurd hc List.not_mem_nil
  | true =>
    have hcopies := congrArg Prod.snd (read_eq hash call f hlock).1
    simp only at hcopies
    rw [hcopies] at hc
    obtain ⟨_, p, _, buf, -, -, hget, rfl⟩ := mem_copyParts.mp hc
    exact get_hash hf hget

end OpenFileLemmas

open OpenFileLemmas

/-- Reads one after the other. -/
def openFileReads (hash : Bytes → BlobRef) (f : SliceReader) (calls : List ReadCall) : SliceReader :=
  calls.foldl (fun f call => (openFileRead hash call f).f) f

theorem OpenFileLemmas.reads_verified {hash : Bytes → BlobRef} (calls : List ReadCall)
    {f : SliceReader} (hf : f.Verified hash)
    (hopens : ∀ call ∈ calls, call.HashOpens hash f.slices) :
    (openFileReads hash f calls).Verified hash ∧ (openFileReads hash f calls).slices = f.slices := by
  induction calls generalizing f with
  | nil => exact ⟨hf, rfl⟩
  | cons call calls ih =>
    obtain ⟨hkept, hslices⟩ := read_verified hf (hopens call List.mem_cons_self)
    have hrest : ∀ call' ∈ calls, call'.HashOpens hash (openFileRead hash call f).f.slices := by
      intro call' hcall'
      rw [hslices]
      exact hopens call' (List.mem_cons_of_mem call hcall')
    obtain ⟨hverified, heq⟩ := ih hkept hrest
    exact ⟨hverified, heq.trans hslices⟩

/-- On an open file whose cache starts out empty, in reads in which the hash of each slice that is
loaded into memory can be opened, the cache holds nothing or bytes with the hash of its slice after
each read, and so every byte that a read copies has been verified. Connections, responses, memory
and the comparison may fail in any call. -/
theorem cache_verified_run (hash : Bytes → BlobRef) (f : SliceReader) (calls : List ReadCall)
    (hempty : f.cachedSliceBuf = none)
    (hopens : ∀ call ∈ calls, call.HashOpens hash f.slices) (n : Nat) :
    (openFileReads hash f (calls.take n)).Verified hash ∧
      ∀ (call : ReadCall) (c : SliceCopy),
        c ∈ (openFileRead hash call (openFileReads hash f (calls.take n))).copies →
        ∃ s, f.slices[c.slice]? = some s ∧ hash c.buf = s.ref := by
  have hstart : f.Verified hash := by
    intro buf hbuf
    rw [hempty] at hbuf
    cases hbuf
  obtain ⟨hverified, hslices⟩ := reads_verified (calls.take n) hstart
    fun call hcall => hopens call (List.mem_of_mem_take hcall)
  refine ⟨hverified, fun call c hc => ?_⟩
  rw [← hslices]
  exact copies_verified hverified hc

/-! ## A file with one slice -/

/-- A hash that knows one blob from all others. -/
def knownRef (data : Bytes) : BlobRef :=
  Vector.replicate blobRefSize (if data = [1] then 1 else 0)

/-- An open file with a slice of one byte. -/
def oneSliceFile : SliceReader :=
  ⟨[⟨knownRef [1], 1⟩], 0, none⟩

/-- A read of one byte, for which the server sends the blob. -/
def oneByteRead (hashOpened : Bool) : ReadCall :=
  ⟨1, 0, true, fun _ =>
    ⟨true, formatRespHeader ⟨statusCodeOk, 2⟩ ++ [0, 1], some fun _ => 7, hashOpened⟩⟩

/-- The run meets its condition where the hash can be opened, and the slice stays cached. -/
theorem cache_verified_oneSlice :
    (openFileReads knownRef oneSliceFile [oneByteRead true]).cachedSliceBuf = some [1] ∧
      (openFileReads knownRef oneSliceFile ([oneByteRead true].take 1)).Verified
        knownRef :=
  ⟨by decide +kernel, (cache_verified_run knownRef oneSliceFile [oneByteRead true] rfl
    (by
      intro call hcall si s resp body memory _ _ _ hclosed
      rw [List.mem_singleton.mp hcall] at hclosed
      cases hclosed) 1).1⟩

/-- A read that cannot open the hash fails, and the next one returns what `malloc` returned. -/
theorem cache_not_verified :
    (openFileRead knownRef (oneByteRead false) oneSliceFile).res = .error ∧
      ¬ (openFileReads knownRef oneSliceFile [oneByteRead false]).Verified knownRef ∧
      (openFileRead knownRef (oneByteRead true)
        (openFileReads knownRef oneSliceFile [oneByteRead false])).res = .ok ∧
      (openFileRead knownRef (oneByteRead true)
        (openFileReads knownRef oneSliceFile [oneByteRead false])).bytes (fun _ => 0) = [7] := by
  refine ⟨by decide +kernel, fun h => ?_, by decide +kernel, by decide +kernel⟩
  obtain ⟨s, hs, hhash⟩ := h [7] (by decide +kernel)
  have hslice : s = ⟨knownRef [1], 1⟩ := by
    have hslices : (openFileReads knownRef oneSliceFile [oneByteRead false]).slices =
        [⟨knownRef [1], 1⟩] := rfl
    rw [hslices] at hs
    exact List.mem_singleton.mp (List.mem_of_getElem? hs)
  rw [hslice] at hhash
  exact absurd hhash (by decide +kernel)

end Everarch
