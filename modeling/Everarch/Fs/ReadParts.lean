import Everarch.Fs.OpenFileRead

/-!
# What a read returns

For a file that is cut into blobs, the sizes of its slices are those of the blobs.

* `ReadPartsLemmas.plan_bytes`: the parts of a read are the bytes of the file from its offset on;
* `ReadPartsLemmas.get_tail`, `ReadPartsLemmas.get_head`: what is loaded is the blob, and what is
  cached is only looked at for the first part.

Result: `read_bytes_iff`.
-/

namespace Everarch

/-! ## Reading a file -/

/-- The slices of a file that is cut into blobs. -/
def slicesOf (hash : Bytes → BlobRef) (blobs : List Bytes) : List FileSlice :=
  blobs.map fun b => ⟨hash b, b.length⟩

/-- The part of a blob. -/
def SlicePart.of (blobs : List Bytes) (p : SlicePart) : Bytes :=
  ((blobs.getD p.slice []).drop p.from_).take p.count

/-- Where the first slice that a read asks for is the cached one, and the others can be loaded, the
bytes that it asks for are those of the blob. -/
def CacheAgrees (hash : Bytes → BlobRef) (foreign : Nat → UInt8) (blobs : List Bytes)
    (call : ReadCall) (f : SliceReader) : Prop :=
  ∀ p ps buf, call.plan f.slices = p :: ps → f.cachedSliceIndex = p.slice →
    f.cachedSliceBuf = some buf → (∀ q ∈ ps, call.get hash f q.slice ≠ none) →
    SliceCopy.bytes foreign ⟨p.slice, p.from_, p.count, buf, 0⟩ = p.of blobs

namespace ReadPartsLemmas

open OpenFileLemmas

variable {hash : Bytes → BlobRef} {foreign : Nat → UInt8} {blobs : List Bytes}

theorem toSizeT_of_lt {n : Nat} (h : n < 2 ^ 64) : toSizeT n = n := by
  unfold toSizeT
  omega

/-- Inside the buffer, the bytes are those of the buffer. -/
theorem bytes_inside {si from_ count dest : Nat} {buf : Bytes} (h : from_ + count ≤ buf.length) :
    SliceCopy.bytes foreign ⟨si, from_, count, buf, dest⟩ = (buf.drop from_).take count := by
  refine List.ext_getElem ?_ fun i hi hi' => ?_
  · simp only [SliceCopy.bytes, List.length_map, List.length_range, List.length_take,
      List.length_drop]
    omega
  · simp only [SliceCopy.bytes, List.length_map, List.length_range] at hi
    have hlt : from_ + i < buf.length := by omega
    simp [SliceCopy.bytes, hlt]

theorem length_bytes (c : SliceCopy) : (SliceCopy.bytes foreign c).length = c.count := by
  simp [SliceCopy.bytes]

/-! ## Sizes of blobs -/

/-- The part of a slice at `start` when all bytes of the file before it and behind the offset have
been read. -/
theorem partAt_blob {size off start si : Nat} {b : Bytes} (hlen : b.length < 2 ^ 63)
    (hoff : off < start + b.length) :
    partAt size off si ⟨hash b, b.length⟩ start (start - off) =
      ⟨si, off - start, min (b.length - (off - start)) (size - (start - off))⟩ := by
  have hfrom : partFrom off start = ((off - start : Nat) : Int) := by
    unfold partFrom
    split <;> omega
  have hrest : partRest ⟨hash b, b.length⟩ off start = b.length - (off - start) := by
    unfold partRest
    rw [hfrom, show ((b.length : Nat) : Int) - ((off - start : Nat) : Int) =
      ((b.length - (off - start) : Nat) : Int) by omega]
    exact toSizeT_of_lt (by omega)
  unfold partAt
  rw [hrest, hfrom, Int.toNat_natCast]

/-- The parts of a read from a slice on are the bytes of the file from there on. -/
theorem plan_bytes (hash : Bytes → BlobRef) (size : Nat) {off : Nat} (hoff : off < 2 ^ 63)
    (bs : List Bytes) (si start : Nat) (hbs : bs = blobs.drop si)
    (hsmall : ∀ b ∈ bs, b.length < 2 ^ 63) (hstart : start < 2 ^ 63)
    (hle : start - off ≤ size) (hend : min (off + size) (start + bs.flatten.length) < 2 ^ 63) :
    (readPlan size off si (slicesOf hash bs) start (start - off)).flatMap (SlicePart.of blobs) =
        (bs.flatten.drop (off - start)).take (size - (start - off)) ∧
      ∀ p ∈ readPlan size off si (slicesOf hash bs) start (start - off),
        ∃ b, blobs[p.slice]? = some b ∧ p.from_ + p.count ≤ b.length := by
  induction bs generalizing si start with
  | nil =>
    refine ⟨?_, fun p hp => absurd hp List.not_mem_nil⟩
    simp [slicesOf, readPlan]
  | cons b bs ih =>
    obtain ⟨hb, hrest⟩ := of_cons_eq_drop hbs
    obtain ⟨hlen, hsmall'⟩ := List.forall_mem_cons.mp hsmall
    have hsum : ((start : Nat) : Int) + ((b.length : Nat) : Int) = ((start + b.length : Nat) : Int) :=
      (Int.natCast_add _ _).symm
    rw [List.flatten_cons, List.length_append] at hend
    rw [List.flatten_cons]
    show (readPlan size off si (⟨hash b, b.length⟩ :: slicesOf hash bs) start (start - off)).flatMap
      _ = _ ∧ ∀ p ∈ readPlan size off si (⟨hash b, b.length⟩ :: slicesOf hash bs) start (start - off),
        _
    rw [readPlan, hsum, toSizeT_of_lt (by omega), toSizeT_of_lt (by omega)]
    split
    · rename_i hask
      rw [partAt_blob hlen hask]
      have hfrom : off - start ≤ b.length := by omega
      have hpart : SlicePart.of blobs ⟨si, off - start,
          min (b.length - (off - start)) (size - (start - off))⟩ =
          (b.drop (off - start)).take (min (b.length - (off - start)) (size - (start - off))) := by
        rw [SlicePart.of, List.getD_eq_getElem?_getD, hb]
        rfl
      have hinside : ∃ b', blobs[si]? = some b' ∧
          off - start + min (b.length - (off - start)) (size - (start - off)) ≤ b'.length :=
        ⟨b, hb, by omega⟩
      simp only
      rw [List.flatMap_cons, hpart, List.drop_append_of_le_length hfrom]
      split
      · -- the read ends in this slice
        rename_i hdone
        have hcount : min (b.length - (off - start)) (size - (start - off)) =
            size - (start - off) := by omega
        rw [List.flatMap_nil, List.append_nil, hcount,
          List.take_append_of_le_length (by rw [List.length_drop]; omega)]
        rw [hcount] at hinside
        refine ⟨rfl, fun p hp => ?_⟩
        rw [List.mem_singleton.mp hp]
        exact hinside
      · rename_i hmore
        have hcount : min (b.length - (off - start)) (size - (start - off)) =
            b.length - (off - start) := by omega
        have hnext : start + b.length < 2 ^ 63 := by omega
        have hwritten : start - off + (b.length - (off - start)) = start + b.length - off := by omega
        obtain ⟨hbytes, hparts⟩ := ih (si + 1) (start + b.length) hrest hsmall' hnext (by omega)
          (by omega)
        rw [hcount] at hinside ⊢
        rw [hwritten, toInt64_of_lt hnext]
        constructor
        · have hzero : off - (start + b.length) = 0 := by omega
          have htake : size - (start - off) =
              (b.drop (off - start)).length + (size - (start + b.length - off)) := by
            rw [List.length_drop]
            omega
          rw [hbytes, hzero, List.drop_zero, htake, List.take_length_add_append,
            List.take_of_length_le (by rw [List.length_drop])]
        · intro p hp
          rcases List.mem_cons.mp hp with rfl | hp
          · exact hinside
          · exact hparts p hp
    · rename_i hask
      have hnext : start + b.length < 2 ^ 63 := by omega
      rw [toInt64_of_lt hnext]
      have hzero : start - off = start + b.length - off := by omega
      obtain ⟨hbytes, hparts⟩ := ih (si + 1) (start + b.length) hrest hsmall' hnext (by omega)
        (by omega)
      rw [← hzero] at hbytes hparts
      refine ⟨?_, hparts⟩
      rw [hbytes, List.drop_append, List.drop_of_length_le (by omega : b.length ≤ off - start),
        List.nil_append]
      congr 2
      omega

theorem readPlan_sorted (size : Nat) (off : Int) (si : Nat) (ss : List FileSlice) (slicesOff : Int)
    (written : Nat) :
    (readPlan size off si ss slicesOff written).Pairwise fun p q => p.slice < q.slice := by
  induction ss generalizing si slicesOff written with
  | nil => exact List.Pairwise.nil
  | cons s ss ih =>
    rw [readPlan]
    split
    · refine List.pairwise_cons.mpr ⟨fun q hq => ?_, ?_⟩
      · split at hq
        · exact absurd hq List.not_mem_nil
        · exact Nat.lt_of_succ_le (readPlan_ge hq)
      · split
        · exact List.Pairwise.nil
        · exact ih _ _ _
    · exact ih _ _ _

/-! ## Buffers and blobs -/

variable {call : ReadCall} {f : SliceReader}

theorem plan_sorted (call : ReadCall) (slices : List FileSlice) :
    (call.plan slices).Pairwise fun p q => p.slice < q.slice :=
  readPlan_sorted call.size call.off 0 slices 0 0

/-- What has been verified is the blob. -/
theorem verified_blob (hslices : f.slices = slicesOf hash blobs)
    (hinj : ∀ b ∈ blobs, ∀ d, hash d = hash b → d = b) {si : Nat} {b buf : Bytes}
    (hb : blobs[si]? = some b)
    (h : (f.slices[si]?).bind (fun s => (call.fetch si).verified hash s.ref) = some buf) :
    buf = b := by
  obtain ⟨s, hs, hverified⟩ := Option.bind_eq_some_iff.mp h
  rw [hslices, slicesOf, List.getElem?_map, hb] at hs
  cases hs
  exact hinj b (List.mem_of_getElem? hb) buf (verified_hash hverified)

/-- Behind the first part every buffer is the blob. -/
theorem get_tail (hslices : f.slices = slicesOf hash blobs)
    (hinj : ∀ b ∈ blobs, ∀ d, hash d = hash b → d = b) {p q : SlicePart} {ps : List SlicePart}
    (hplan : call.plan f.slices = p :: ps) (hq : q ∈ ps) {b buf : Bytes}
    (hb : blobs[q.slice]? = some b) (h : call.get hash f q.slice = some buf) : buf = b := by
  have hlt : p.slice < q.slice := by
    have hsorted := plan_sorted call f.slices
    rw [hplan] at hsorted
    exact (List.pairwise_cons.mp hsorted).1 q hq
  unfold ReadCall.get getFrom at h
  rw [hplan, if_neg] at h
  · exact verified_blob hslices hinj hb h
  · intro heq
    exact Nat.ne_of_lt hlt (Option.some.inj heq)

/-- The first buffer is that of the cache, or it is loaded. -/
theorem get_first (hash : Bytes → BlobRef) {p : SlicePart} {ps : List SlicePart}
    (hplan : call.plan f.slices = p :: ps) :
    call.get hash f p.slice = f.get hash call.fetch p.slice := by
  unfold ReadCall.get getFrom
  rw [hplan, if_pos (show (p :: ps).head?.map SlicePart.slice = some p.slice from rfl)]

theorem get_head (hslices : f.slices = slicesOf hash blobs)
    (hinj : ∀ b ∈ blobs, ∀ d, hash d = hash b → d = b) {p : SlicePart} {ps : List SlicePart}
    (hplan : call.plan f.slices = p :: ps) {b buf : Bytes} (hb : blobs[p.slice]? = some b)
    (h : call.get hash f p.slice = some buf) :
    buf = b ∨ (f.cachedSliceIndex = p.slice ∧ f.cachedSliceBuf = some buf) := by
  rw [get_first hash hplan, SliceReader.get] at h
  split at h
  · exact .inl (verified_blob hslices hinj hb h)
  · rename_i hhit
    exact .inr ⟨not_not.mp (not_or.mp hhit).2, h⟩

theorem get_cached (hash : Bytes → BlobRef) {p : SlicePart} {ps : List SlicePart} {buf : Bytes}
    (hplan : call.plan f.slices = p :: ps) (hindex : f.cachedSliceIndex = p.slice)
    (hbuf : f.cachedSliceBuf = some buf) : call.get hash f p.slice = some buf := by
  rw [get_first hash hplan, SliceReader.get, if_neg]
  · exact hbuf
  rintro (hnone | hne)
  · rw [hbuf] at hnone
    cases hnone
  · exact hne hindex

theorem ok_iff (hash : Bytes → BlobRef) (f : SliceReader) (hlock : call.lock = true) :
    (openFileRead hash call f).res = .ok ↔
      ∀ p ∈ call.plan f.slices, call.get hash f p.slice ≠ none := by
  rw [(Prod.mk.inj (read_eq hash call f hlock).1).1]
  exact copyParts_ok_iff 0

theorem copyParts_bytes {get : Nat → Option Bytes} {ps : List SlicePart} {written : Nat}
    (h : ∀ p ∈ ps, get p.slice ≠ none) :
    (copyParts get ps written).2.flatMap (SliceCopy.bytes foreign) = ps.flatMap fun p =>
      SliceCopy.bytes foreign ⟨p.slice, p.from_, p.count, (get p.slice).getD [], 0⟩ := by
  induction ps generalizing written with
  | nil => rfl
  | cons p ps ih =>
    obtain ⟨hp, hps⟩ := List.forall_mem_cons.mp h
    obtain ⟨buf, hbuf⟩ := Option.ne_none_iff_exists'.mp hp
    rw [copyParts, hbuf]
    simp only [List.flatMap_cons, Option.getD_some, hbuf]
    rw [ih hps]
    rfl

theorem sum_counts (foreign : Nat → UInt8) (copies : List SliceCopy) : (copies.map SliceCopy.count).sum =
    (copies.flatMap (SliceCopy.bytes foreign)).length := by
  rw [List.length_flatMap]
  exact congrArg List.sum (List.map_congr_left fun c _ => (length_bytes c).symm)

/-- What a read that does not fail leaves in the buffer of the caller. -/
theorem bytes_of_ok (foreign : Nat → UInt8) (hlock : call.lock = true)
    (h : (openFileRead hash call f).res = .ok) : (openFileRead hash call f).bytes foreign =
      (call.plan f.slices).flatMap fun q => SliceCopy.bytes foreign
        ⟨q.slice, q.from_, q.count, (call.get hash f q.slice).getD [], 0⟩ := by
  rw [ReadOutcome.bytes, (Prod.mk.inj (read_eq hash call f hlock).1).2]
  exact copyParts_bytes ((ok_iff hash f hlock).mp h)

theorem size_of_ok (foreign : Nat → UInt8) (hlock : call.lock = true)
    (h : (openFileRead hash call f).res = .ok) : (openFileRead hash call f).size =
      ((openFileRead hash call f).bytes foreign).length :=
  ((read_eq hash call f hlock).2 h).trans (sum_counts foreign _)

theorem of_blob {p : SlicePart} {b : Bytes} (hb : blobs[p.slice]? = some b) :
    p.of blobs = (b.drop p.from_).take p.count := by
  rw [SlicePart.of, List.getD_eq_getElem?_getD, hb]
  rfl

/-- The bytes behind the first part are those of the blobs. -/
theorem tail_bytes (hslices : f.slices = slicesOf hash blobs)
    (hinj : ∀ b ∈ blobs, ∀ d, hash d = hash b → d = b) {p : SlicePart} {ps : List SlicePart}
    (hplan : call.plan f.slices = p :: ps)
    (hparts : ∀ q ∈ ps, ∃ b, blobs[q.slice]? = some b ∧ q.from_ + q.count ≤ b.length)
    (hget : ∀ q ∈ ps, call.get hash f q.slice ≠ none) :
    (ps.flatMap fun q => SliceCopy.bytes foreign
      ⟨q.slice, q.from_, q.count, (call.get hash f q.slice).getD [], 0⟩) =
      ps.flatMap (SlicePart.of blobs) := by
  refine List.flatMap_congr fun q hq => ?_
  obtain ⟨b, hb, hinside⟩ := hparts q hq
  obtain ⟨buf, hbuf⟩ := Option.ne_none_iff_exists'.mp (hget q hq)
  have heq := get_tail hslices hinj hplan hq hb hbuf
  subst heq
  rw [hbuf, Option.getD_some, bytes_inside hinside, of_blob hb]

/-- All bytes are those of the blobs exactly if those of the first part are. -/
theorem parts_eq_iff (hslices : f.slices = slicesOf hash blobs)
    (hinj : ∀ b ∈ blobs, ∀ d, hash d = hash b → d = b) {p : SlicePart} {ps : List SlicePart}
    (hplan : call.plan f.slices = p :: ps)
    (hparts : ∀ q ∈ ps, ∃ b, blobs[q.slice]? = some b ∧ q.from_ + q.count ≤ b.length)
    (hget : ∀ q ∈ ps, call.get hash f q.slice ≠ none) {buf : Bytes}
    (hbuf : call.get hash f p.slice = some buf) :
    ((p :: ps).flatMap fun q => SliceCopy.bytes foreign
        ⟨q.slice, q.from_, q.count, (call.get hash f q.slice).getD [], 0⟩) =
        (p :: ps).flatMap (SlicePart.of blobs) ↔
      SliceCopy.bytes foreign ⟨p.slice, p.from_, p.count, buf, 0⟩ = p.of blobs := by
  rw [List.flatMap_cons, List.flatMap_cons, tail_bytes hslices hinj hplan hparts hget, hbuf,
    Option.getD_some]
  exact ⟨List.append_cancel_right, congrArg (· ++ _)⟩

end ReadPartsLemmas

open OpenFileLemmas ReadPartsLemmas

/-- For slices whose sizes are those of their blobs, a read that succeeds returns the bytes of the
file from the offset on and sets `*size` to their number, exactly if the cached bytes that it looks
at first are those of the blob, or the cache is empty, for another slice or the read cannot load
another slice that it asks for. -/
theorem read_bytes_iff (hash : Bytes → BlobRef) (foreign : Nat → UInt8) (blobs : List Bytes)
    (call : ReadCall) (f : SliceReader) (hslices : f.slices = slicesOf hash blobs)
    (hinj : ∀ b ∈ blobs, ∀ d, hash d = hash b → d = b)
    (hlarge : ∀ b ∈ blobs, b.length < 2 ^ 63)
    (hoff : 0 ≤ call.off ∧ call.off < 2 ^ 63)
    (hend : min (call.off.toNat + call.size) blobs.flatten.length < 2 ^ 63) :
    ((openFileRead hash call f).res = .ok →
      (openFileRead hash call f).bytes foreign =
          (blobs.flatten.drop call.off.toNat).take call.size ∧
        (openFileRead hash call f).size =
          ((blobs.flatten.drop call.off.toNat).take call.size).length) ↔
      (call.lock = true → CacheAgrees hash foreign blobs call f) := by
  cases hlock : call.lock with
  | false =>
    rw [read_unlocked hash call f hlock]
    exact ⟨fun _ h => Bool.noConfusion h, fun _ h => Res.noConfusion h⟩
  | true =>
  obtain ⟨hbytes, hparts⟩ := plan_bytes hash call.size
    (show call.off.toNat < 2 ^ 63 by omega) blobs 0 0 List.drop_zero.symm hlarge (by decide)
    (by omega) (by omega)
  have hplan : readPlan call.size call.off.toNat 0 (slicesOf hash blobs) (0 : Nat)
      (0 - call.off.toNat) = call.plan f.slices := by
    rw [ReadCall.plan, hslices, Int.toNat_of_nonneg hoff.1, Nat.zero_sub]
    rfl
  rw [hplan] at hbytes hparts
  rw [Nat.sub_zero, Nat.zero_sub, Nat.sub_zero] at hbytes
  rw [← hbytes]
  cases hps : call.plan f.slices with
  | nil =>
    refine ⟨fun _ _ p ps buf hp => ?_, fun _ h => ?_⟩
    · rw [hps] at hp
      cases hp
    · rw [size_of_ok foreign hlock h, bytes_of_ok foreign hlock h, hps]
      exact ⟨rfl, rfl⟩
  | cons p ps =>
    have hok := ok_iff hash f hlock
    rw [hps] at hok hparts
    obtain ⟨⟨b, hb, hinside⟩, htail⟩ := List.forall_mem_cons.mp hparts
    constructor
    · intro hall _ p' ps' buf hp' hindex hbuf hget
      rw [hps] at hp'
      cases hp'
      have hcached := get_cached hash hps hindex hbuf
      have h : (openFileRead hash call f).res = .ok :=
        hok.mpr (List.forall_mem_cons.mpr ⟨by rw [hcached]; exact Option.some_ne_none _, hget⟩)
      have heq := (bytes_of_ok foreign hlock h).symm.trans (hall h).1
      rw [hps] at heq
      exact (parts_eq_iff hslices hinj hps htail hget hcached).mp heq
    · intro hagrees h
      obtain ⟨hgethead, hget⟩ := List.forall_mem_cons.mp (hok.mp h)
      obtain ⟨buf, hbuf⟩ := Option.ne_none_iff_exists'.mp hgethead
      have hfirst : SliceCopy.bytes foreign ⟨p.slice, p.from_, p.count, buf, 0⟩ = p.of blobs := by
        rcases get_head hslices hinj hps hb hbuf with rfl | ⟨hindex, hcached⟩
        · rw [bytes_inside hinside, of_blob hb]
        · exact hagrees rfl p ps buf hps hindex hcached hget
      have heq : (openFileRead hash call f).bytes foreign =
          (p :: ps).flatMap (SlicePart.of blobs) := by
        rw [bytes_of_ok foreign hlock h, hps]
        exact (parts_eq_iff hslices hinj hps htail hget hbuf).mpr hfirst
      exact ⟨heq, (size_of_ok foreign hlock h).trans (congrArg _ heq)⟩

/-- The condition is met by an empty cache. -/
theorem read_bytes_oneSlice :
    (openFileRead knownRef (oneByteRead true) oneSliceFile).res = .ok ∧
      ((openFileRead knownRef (oneByteRead true) oneSliceFile).bytes fun _ => 0) = [1] := by
  have hok : (openFileRead knownRef (oneByteRead true) oneSliceFile).res = .ok := by
    decide +kernel
  refine ⟨hok, ((read_bytes_iff knownRef (fun _ => 0) [[1]] (oneByteRead true) oneSliceFile rfl ?_
    ?_ (by decide) (by decide)).mpr ?_ hok).1⟩
  · intro b hb d hd
    rw [List.mem_singleton.mp hb] at hd ⊢
    by_contra hne
    unfold knownRef at hd
    rw [if_neg hne, if_pos rfl] at hd
    exact absurd hd (by decide +kernel)
  · intro b hb
    rw [List.mem_singleton.mp hb]
    decide
  · intro _ p ps buf _ _ hbuf
    cases hbuf

/-- The read behind one that could not open the hash returns a byte that is not in the file. -/
theorem read_bytes_differ :
    (openFileReads knownRef oneSliceFile [oneByteRead false]).slices = slicesOf knownRef [[1]] ∧
      (openFileRead knownRef (oneByteRead true)
        (openFileReads knownRef oneSliceFile [oneByteRead false])).res = .ok ∧
      ((openFileRead knownRef (oneByteRead true)
        (openFileReads knownRef oneSliceFile [oneByteRead false])).bytes fun _ => 0) ≠
        (([[1]] : List Bytes).flatten.drop 0).take 1 :=
  ⟨rfl, by decide +kernel, by decide +kernel⟩

end Everarch
