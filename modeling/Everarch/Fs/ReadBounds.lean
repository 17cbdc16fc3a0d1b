import Everarch.Claims
import Everarch.Fs.ReadParts

/-!
# Sizes that an author wrote

The sizes in the claim of a file steer where a read copies from, and the blobs decide how much there
is to copy.

* `parseFileClaim`: nothing compares the two.
* `ReadBoundsLemmas.mem_plan`: the parts of a read in closed form, for all sizes.
* `ReadBoundsLemmas.mem_copies`, `ReadBoundsLemmas.copy_of_part`: the copies of a read are its parts
  up to the first slice that is not there.

Result: `read_inside_iff`.
-/

namespace Everarch

/-! ## Claims -/

/-- A claim of a file. -/
structure FileClaim where
  title : Option String
  slices : List FileSlice

/-- A slice element in the loop of `evr_parse_file_claim`. -/
def parseFileSlice (slice : XmlNode) : Option FileSlice :=
  match slice.getProp "ref" with
  | none => none
  | some fmtRef =>
    -- the ref is written into fresh memory, of which a parsed ref leaves nothing
    match parseBlobRef (Vector.replicate blobRefSize 0) fmtRef.toList with
    | (.ok, ref) =>
      match slice.getProp "size" with
      | none => none
      | some fmtSize => (sscanfSize fmtSize.toList).map fun size => ⟨ref, size⟩
    | _ => none

/-- `evr_parse_file_claim`. -/
def parseFileClaim (claim : XmlNode) : Option FileClaim :=
  match claim.children.find? fun n => isEvrElement n "body" claimsNs with
  | none => none
  | some body =>
    ((body.children.filter fun n => isEvrElement n "slice" claimsNs).mapM parseFileSlice).map
      fun slices => ⟨claim.getNsProp "title" dcNs, slices⟩

/-! ## What the sizes ask for -/

/-- Where the sizes of the slices before it let slice `j` start. -/
def sliceStart (slices : List FileSlice) (j : Nat) : Int :=
  toInt64 ((slices.take j).map fun s => (s.size : Int)).sum

/-- The bytes that the slices before `j` have from the offset on, by their sizes. -/
def askedBefore (off : Int) (slices : List FileSlice) : Nat → Nat
  | 0 => 0
  | j + 1 => askedBefore off slices j +
      match slices[j]? with
      | some s =>
        if toSizeT off < toSizeT (sliceStart slices j + s.size) then
          partRest s off (sliceStart slices j)
        else 0
      | none => 0

/-- Slice `j` ends behind the offset and the slices before it have less than the read asks for. -/
def ReadCall.AsksFor (call : ReadCall) (slices : List FileSlice) (j : Nat) (s : FileSlice) : Prop :=
  slices[j]? = some s ∧ toSizeT call.off < toSizeT (sliceStart slices j + s.size) ∧
    askedBefore call.off slices j < call.size

/-- The part of slice `j`. -/
def ReadCall.part (call : ReadCall) (slices : List FileSlice) (j : Nat) (s : FileSlice) :
    SlicePart :=
  partAt call.size call.off j s (sliceStart slices j) (askedBefore call.off slices j)

/-- The buffer of each slice that the read comes to has the part that the sizes make it ask for. -/
def SlicesFit (hash : Bytes → BlobRef) (call : ReadCall) (f : SliceReader) : Prop :=
  ∀ j s buf, call.AsksFor f.slices j s →
    (∀ i t, i < j → call.AsksFor f.slices i t → call.get hash f i ≠ none) →
    call.get hash f j = some buf →
    (call.part f.slices j s).count = 0 ∨
      (call.part f.slices j s).from_ + (call.part f.slices j s).count ≤ buf.length

/-- A copy stays inside the buffer of the slice and the first `size` bytes of the destination. -/
def SliceCopy.Inside (size : Nat) (c : SliceCopy) : Prop :=
  (c.count = 0 ∨ c.from_ + c.count ≤ c.buf.length) ∧ c.dest + c.count ≤ size

namespace ReadBoundsLemmas

open OpenFileLemmas ReadPartsLemmas

variable {slices : List FileSlice} {size : Nat} {off : Int}

theorem sliceStart_succ {j : Nat} {s : FileSlice} (hs : slices[j]? = some s) :
    sliceStart slices (j + 1) = toInt64 (sliceStart slices j + s.size) := by
  unfold sliceStart toInt64
  rw [List.take_add_one, hs, Int.bmod_add_bmod]
  simp

theorem askedBefore_mono (off : Int) (slices : List FileSlice) {i j : Nat} (h : i ≤ j) :
    askedBefore off slices i ≤ askedBefore off slices j := by
  induction h with
  | refl => exact Nat.le_refl _
  | step _ ih => exact Nat.le_trans ih (Nat.le_add_right _ _)

/-- The parts of a read that asks for something. -/
theorem mem_readPlan {ss : List FileSlice} {si written : Nat} {slicesOff : Int} {p : SlicePart}
    (hss : ss = slices.drop si) (hstart : slicesOff = sliceStart slices si)
    (hwritten : written = askedBefore off slices si) (hless : written < size) :
    p ∈ readPlan size off si ss slicesOff written ↔ ∃ j s, si ≤ j ∧ slices[j]? = some s ∧
      toSizeT off < toSizeT (sliceStart slices j + s.size) ∧ askedBefore off slices j < size ∧
      p = partAt size off j s (sliceStart slices j) (askedBefore off slices j) := by
  induction ss generalizing si written slicesOff with
  | nil =>
    have hlen := List.drop_eq_nil_iff.mp hss.symm
    constructor
    · intro h
      exact absurd h List.not_mem_nil
    · rintro ⟨j, s, hle, hs, -⟩
      have hlt := (List.getElem?_eq_some_iff.mp hs).1
      omega
  | cons s ss ih =>
    obtain ⟨hs, hrest⟩ := of_cons_eq_drop hss
    have hnext : toInt64 (slicesOff + s.size) = sliceStart slices (si + 1) := by
      rw [sliceStart_succ hs, hstart]
    have hbehind : ∀ {P : Nat → FileSlice → Prop}, (∃ j t, si ≤ j ∧ slices[j]? = some t ∧ P j t) ↔
        P si s ∨ ∃ j t, si + 1 ≤ j ∧ slices[j]? = some t ∧ P j t := by
      intro P
      constructor
      · rintro ⟨j, t, hle, ht, hP⟩
        rcases Nat.eq_or_lt_of_le hle with rfl | hlt
        · rw [hs] at ht
          cases ht
          exact .inl hP
        · exact .inr ⟨j, t, hlt, ht, hP⟩
      · rintro (hP | ⟨j, t, hle, ht, hP⟩)
        · exact ⟨si, s, Nat.le_refl _, hs, hP⟩
        · exact ⟨j, t, Nat.le_of_succ_le hle, ht, hP⟩
    rw [readPlan, hbehind, ← hstart, ← hwritten]
    by_cases hask : toSizeT off < toSizeT (slicesOff + s.size)
    · have hafter : askedBefore off slices (si + 1) = written + partRest s off slicesOff := by
        rw [askedBefore, hs, ← hstart, ← hwritten]
        simp only [if_pos hask]
      have hcount : (partAt size off si s slicesOff written).count =
          min (partRest s off slicesOff) (size - written) := rfl
      rw [if_pos hask, List.mem_cons]
      simp only [hask, hless, true_and]
      refine or_congr Iff.rfl ?_
      by_cases hdone : written + (partAt size off si s slicesOff written).count = size
      · -- the slices up to this one have all that is asked for
        rw [if_pos hdone]
        constructor
        · intro h
          exact absurd h List.not_mem_nil
        · rintro ⟨j, t, hle, -, -, hlt, -⟩
          have hmono := askedBefore_mono off slices hle
          omega
      · rw [if_neg hdone]
        exact ih hrest hnext (by omega) (by omega)
    · have hafter : askedBefore off slices (si + 1) = written := by
        rw [askedBefore, hs, ← hstart, ← hwritten]
        simp only [if_neg hask, Nat.add_zero]
      rw [if_neg hask]
      simp only [hask, false_and, false_or]
      exact ih hrest hnext hafter.symm hless

theorem mem_plan {call : ReadCall} (hsize : 0 < call.size) {p : SlicePart} :
    p ∈ call.plan slices ↔ ∃ j s, call.AsksFor slices j s ∧ p = call.part slices j s := by
  refine (mem_readPlan List.drop_zero.symm ?_ rfl hsize).trans ?_
  · simp [sliceStart, toInt64]
  · constructor
    · rintro ⟨j, s, -, hs, hask, hless, rfl⟩
      exact ⟨j, s, ⟨hs, hask, hless⟩, rfl⟩
    · rintro ⟨j, s, ⟨hs, hask, hless⟩, rfl⟩
      exact ⟨j, s, Nat.zero_le j, hs, hask, hless, rfl⟩

theorem readPlan_counts (size : Nat) (off : Int) (ss : List FileSlice) (si written : Nat)
    (slicesOff : Int) (h : written ≤ size) :
    written + ((readPlan size off si ss slicesOff written).map SlicePart.count).sum ≤ size := by
  induction ss generalizing si written slicesOff with
  | nil => exact h
  | cons s ss ih =>
    rw [readPlan]
    split
    · have hroom : (partAt size off si s slicesOff written).count ≤ size - written :=
        Nat.min_le_right _ _
      have hcount : written + (partAt size off si s slicesOff written).count ≤ size := by
        omega
      rw [List.map_cons, List.sum_cons, ← Nat.add_assoc]
      split
      · exact hcount
      · exact ih _ _ _ hcount
    · exact ih _ _ _ h

/-- A read never asks for more than it has room for. -/
theorem plan_counts (call : ReadCall) (slices : List FileSlice) :
    ((call.plan slices).map SlicePart.count).sum ≤ call.size := by
  have hcounts := readPlan_counts call.size call.off slices 0 0 0 (Nat.zero_le _)
  rwa [Nat.zero_add] at hcounts

/-- A copy is made of a part where all slices that come before it are there. -/
theorem mem_copies {call : ReadCall} {hash : Bytes → BlobRef} {f : SliceReader}
    (hlock : call.lock = true) {c : SliceCopy} (hc : c ∈ (openFileRead hash call f).copies) :
    c.dest + c.count ≤ call.size ∧ ∃ p ∈ call.plan f.slices, c.from_ = p.from_ ∧
      c.count = p.count ∧ call.get hash f p.slice = some c.buf ∧
      ∀ q ∈ call.plan f.slices, q.slice < p.slice → call.get hash f q.slice ≠ none := by
  rw [(Prod.mk.inj (read_eq hash call f hlock).1).2] at hc
  obtain ⟨ps₁, p, ps₂, buf, hplan, hbefore, hget, rfl⟩ := mem_copyParts.mp hc
  refine ⟨?_, p, ?_, rfl, rfl, hget, fun q hq hlt => ?_⟩
  · have hcounts := plan_counts call f.slices
    rw [hplan, List.map_append, List.sum_append, List.map_cons, List.sum_cons] at hcounts
    simp only
    omega
  · rw [hplan]
    exact List.mem_append_right _ List.mem_cons_self
  · have hsorted := plan_sorted call f.slices
    rw [hplan] at hsorted hq
    rcases List.mem_append.mp hq with hq | hq
    · exact hbefore q hq
    · rcases List.mem_cons.mp hq with rfl | hq
      · exact absurd hlt (Nat.lt_irrefl _)
      · have hgt := (List.pairwise_cons.mp (List.pairwise_append.mp hsorted).2.1).1 q hq
        omega

theorem copy_of_part {call : ReadCall} {hash : Bytes → BlobRef} {f : SliceReader}
    (hlock : call.lock = true) {p : SlicePart} {buf : Bytes} (hp : p ∈ call.plan f.slices)
    (hget : call.get hash f p.slice = some buf)
    (hbefore : ∀ q ∈ call.plan f.slices, q.slice < p.slice → call.get hash f q.slice ≠ none) :
    ∃ c ∈ (openFileRead hash call f).copies, c.from_ = p.from_ ∧ c.count = p.count ∧
      c.buf = buf := by
  rw [(Prod.mk.inj (read_eq hash call f hlock).1).2]
  obtain ⟨ps₁, ps₂, hplan⟩ := List.append_of_mem hp
  have hsorted := plan_sorted call f.slices
  rw [hplan] at hsorted
  refine ⟨_, mem_copyParts.mpr ⟨ps₁, p, ps₂, buf, hplan, fun q hq => ?_, hget, rfl⟩, rfl, rfl, rfl⟩
  refine hbefore q ?_ ((List.pairwise_append.mp hsorted).2.2 q hq p List.mem_cons_self)
  rw [hplan]
  exact List.mem_append_left _ hq

theorem count_zero {p : SlicePart} {call : ReadCall} (hsize : call.size = 0)
    (hp : p ∈ call.plan slices) : p.count = 0 := by
  have hcounts := plan_counts call slices
  rw [hsize] at hcounts
  exact List.sum_eq_zero_iff_forall_eq_nat.mp (Nat.le_zero.mp hcounts) _ (List.mem_map_of_mem hp)

theorem copies_inside_iff (hash : Bytes → BlobRef) (call : ReadCall) (f : SliceReader) :
    (∀ c ∈ (openFileRead hash call f).copies, c.Inside call.size) ↔
      (call.lock = true → SlicesFit hash call f) := by
  cases hlock : call.lock with
  | false =>
    rw [read_unlocked hash call f hlock]
    exact ⟨fun _ h => Bool.noConfusion h, fun _ c hc => absurd hc List.not_mem_nil⟩
  | true =>
  constructor
  · intro hall _ j s buf hasks hbefore hget
    have hsize : 0 < call.size := Nat.zero_lt_of_lt hasks.2.2
    obtain ⟨c, hc, hfrom, hcount, hbuf⟩ := copy_of_part hlock
      ((mem_plan hsize).mpr ⟨j, s, hasks, rfl⟩) hget (by
        intro q hq hlt
        obtain ⟨i, t, ht, rfl⟩ := (mem_plan hsize).mp hq
        exact hbefore i t hlt ht)
    have hinside := (hall c hc).1
    rw [hfrom, hcount, hbuf] at hinside
    exact hinside
  · intro hfit c hc
    obtain ⟨hdest, p, hp, hfrom, hcount, hget, hbefore⟩ := mem_copies hlock hc
    refine ⟨?_, hdest⟩
    rcases Nat.eq_zero_or_pos call.size with hsize | hsize
    · exact .inl (hcount.trans (count_zero hsize hp))
    · obtain ⟨j, s, hasks, rfl⟩ := (mem_plan hsize).mp hp
      rw [hfrom, hcount]
      exact hfit rfl j s c.buf hasks
        (fun i t hlt ht => hbefore _ ((mem_plan hsize).mpr ⟨i, t, ht, rfl⟩) hlt) hget

end ReadBoundsLemmas

open OpenFileLemmas ReadPartsLemmas ReadBoundsLemmas

/-- Whatever the sizes, the offset, the bytes asked for and the cache are, each copy of a read stays
inside the buffer of its slice and the destination, exactly if the part that the sizes make the read
ask for is in the buffer of each slice that it comes to. Of the reads that do not fail this holds
exactly if it holds where each slice asked for can be loaded. -/
theorem read_inside_iff (hash : Bytes → BlobRef) (call : ReadCall) (f : SliceReader) :
    ((∀ c ∈ (openFileRead hash call f).copies, c.Inside call.size) ↔
      (call.lock = true → SlicesFit hash call f)) ∧
    (((openFileRead hash call f).res = .ok →
        ∀ c ∈ (openFileRead hash call f).copies, c.Inside call.size) ↔
      (call.lock = true → (∀ j s, call.AsksFor f.slices j s → call.get hash f j ≠ none) →
        SlicesFit hash call f)) := by
  have hinside := copies_inside_iff hash call f
  refine ⟨hinside, ?_⟩
  cases hlock : call.lock with
  | false =>
    rw [read_unlocked hash call f hlock]
    exact ⟨fun _ h => Bool.noConfusion h, fun _ h => Res.noConfusion h⟩
  | true =>
  rw [hlock] at hinside
  rw [hinside, ok_iff hash f hlock]
  constructor
  · intro h _ hget
    rcases Nat.eq_zero_or_pos call.size with hsize | hsize
    · intro j s buf hasks
      exact absurd (hsize ▸ hasks.2.2) (Nat.not_lt_zero _)
    · refine h (fun p hp => ?_) rfl
      obtain ⟨j, s, hasks, rfl⟩ := (mem_plan hsize).mp hp
      exact hget j s hasks
  · intro h hget hlock'
    refine h hlock' fun j s hasks => ?_
    exact hget _ ((mem_plan (Nat.zero_lt_of_lt hasks.2.2)).mpr ⟨j, s, hasks, rfl⟩)

/-- A claim whose slice has one byte and says that it has two. -/
def twoByteClaim : XmlNode :=
  .element "file" (some claimsNs) [] [.element "body" (some claimsNs) [] [.element "slice"
    (some claimsNs) [⟨none, "ref", String.ofList (fmtBlobRef (knownRef [1]))⟩,
      ⟨none, "size", "2"⟩] []]]

/-- The claim is accepted, and a read of it copies a byte from behind the buffer. -/
theorem read_not_inside :
    parseFileClaim twoByteClaim = some ⟨none, [⟨knownRef [1], 2⟩]⟩ ∧
      (openFileRead knownRef { oneByteRead true with size := 2 }
        ⟨[⟨knownRef [1], 2⟩], 0, none⟩).res = .ok ∧
      ∃ c ∈ (openFileRead knownRef { oneByteRead true with size := 2 }
        ⟨[⟨knownRef [1], 2⟩], 0, none⟩).copies, ¬ c.Inside 2 := by
  refine ⟨?_, by decide +kernel, ⟨0, 0, 2, [1], 0⟩, ?_, ?_⟩
  · have hsize : sscanfSize ['2'] = some 2 := by decide
    simp [parseFileClaim, twoByteClaim, parseFileSlice, XmlNode.children, XmlNode.getProp,
      XmlNode.getNsProp, XmlNode.attrs, isEvrElement, RefTextLemmas.parseBlobRef_fmtBlobRef, hsize]
  · have hcopies : (openFileRead knownRef { oneByteRead true with size := 2 }
        ⟨[⟨knownRef [1], 2⟩], 0, none⟩).copies = [⟨0, 0, 2, [1], 0⟩] := by
      decide +kernel
    rw [hcopies]
    exact List.mem_singleton_self _
  · rintro ⟨hbuf | hbuf, -⟩
    · cases hbuf
    · exact absurd hbuf (by decide)

end Everarch
