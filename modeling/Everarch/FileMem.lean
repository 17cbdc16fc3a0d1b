import Everarch.Basic
import Everarch.Lib.Run
import Mathlib.Data.List.Range

/-!
# Files in memory

file-mem.c: a file in a buffer that grows up to a limit. Reads and writes share one offset, and the
file ends where the last write did.

* `MemFile`: what such a file is, a content, an offset and the room that it has.
* `FileMemLemmas.shows_write`, `shows_read`: both operations are those of a `MemFile`.

Results: `file_mem_refines`; `file_mem_refines_full`, a write that does not fit.
-/

namespace Everarch

/-- `struct evr_file_mem`. What is behind `alloc_size` is not the file's. -/
structure FileMem (α : Type) where
  maxSize : Nat
  allocSize : Nat
  usedSize : Nat
  offset : Nat
  data : Nat → α

namespace FileMem

variable {α : Type}

/-- `evr_init_file_mem` in the memory that `malloc` returns. -/
def init (mem : Nat → α) (initialSize maxSize : Nat) : FileMem α :=
  ⟨maxSize, initialSize, 0, 0, mem⟩

/-- `evr_file_mem_read`. -/
def read (fm : FileMem α) (count : Nat) : Option (List α) × FileMem α :=
  if fm.usedSize < fm.offset then (none, fm)
  else
    let readBytes := min count (fm.usedSize - fm.offset)
    (some ((List.range readBytes).map fun i => fm.data (fm.offset + i)),
      { fm with offset := fm.offset + readBytes })

/-- `memcpy` to a place of the buffer. -/
def copyTo (data : Nat → α) (offset : Nat) (buf : List α) : Nat → α := fun i =>
  if offset ≤ i then buf.getD (i - offset) (data i) else data i

/-- `evr_file_mem_write`, with the memory that `realloc` adds, none if it fails. -/
def write (mem : Option (Nat → α)) (fm : FileMem α) (buf : List α) : Bool × FileMem α :=
  let minSize := fm.offset + buf.length
  let written (fm : FileMem α) : Bool × FileMem α :=
    (true, { fm with
      data := copyTo fm.data fm.offset buf
      offset := minSize
      usedSize := minSize })
  if fm.allocSize < minSize then
    if fm.maxSize < minSize then (false, fm)
    else
      let newSize := min (max (2 * fm.allocSize) (2 * minSize)) fm.maxSize
      match mem with
      | none => (false, fm)
      | some mem => written { fm with
          data := fun i => if i < fm.allocSize then fm.data i else mem i
          allocSize := newSize }
  else written fm

end FileMem

/-! ## What a file is -/

/-- A content, the place of the next operation and the size up to which a write needs no more
memory. -/
structure MemFile (α : Type) where
  content : List α
  offset : Nat
  room : Nat

namespace MemFile

variable {α : Type}

def read (f : MemFile α) (count : Nat) : List α × MemFile α :=
  ((f.content.drop f.offset).take count,
    { f with offset := f.offset + ((f.content.drop f.offset).take count).length })

/-- A write that is done: the file ends behind it. -/
def write (maxSize : Nat) (f : MemFile α) (buf : List α) : MemFile α where
  content := f.content.take f.offset ++ buf
  offset := f.offset + buf.length
  room :=
    if f.offset + buf.length ≤ f.room then f.room else min (2 * (f.offset + buf.length)) maxSize

end MemFile

/-- One operation, with the memory that `realloc` would add, none if it would fail. -/
inductive FileMemOp (α : Type) where
  | read (count : Nat)
  | write (mem : Option (Nat → α)) (buf : List α)

/-- What an operation returns. -/
inductive FileMemRes (α : Type) where
  | read (buf : Option (List α))
  | write (ok : Bool)

section Runs

variable {α : Type}

def FileMem.step (st : FileMem α × List (FileMemRes α)) :
    FileMemOp α → FileMem α × List (FileMemRes α)
  | .read count => ((st.1.read count).2, st.2 ++ [.read (st.1.read count).1])
  | .write mem buf => ((st.1.write mem buf).2, st.2 ++ [.write (st.1.write mem buf).1])

/-- The same for a content of at most `maxSize`. A write is done if it has room, or if it is within
the limit and there is memory for it. -/
def MemFile.step (maxSize : Nat) (st : MemFile α × List (FileMemRes α)) :
    FileMemOp α → MemFile α × List (FileMemRes α)
  | .read count => ((st.1.read count).2, st.2 ++ [.read (some (st.1.read count).1)])
  | .write mem buf =>
    if st.1.offset + buf.length ≤ st.1.room ∨
        mem.isSome ∧ st.1.offset + buf.length ≤ maxSize then
      (st.1.write maxSize buf, st.2 ++ [.write true])
    else (st.1, st.2 ++ [.write false])

end Runs

namespace FileMemLemmas

variable {α : Type} {fm : FileMem α} {f : MemFile α}

/-- The buffer of a file with this content. -/
structure Shows (limit : Nat) (fm : FileMem α) (f : MemFile α) : Prop where
  maxSize : fm.maxSize = limit
  alloc : fm.allocSize = f.room
  room : f.room ≤ limit
  used : fm.usedSize ≤ fm.allocSize
  length : fm.usedSize = f.content.length
  offset : fm.offset = f.offset
  inside : f.offset ≤ f.content.length
  data : ∀ i x, f.content[i]? = some x → fm.data i = x

variable {limit : Nat}

theorem shows_init (mem : Nat → α) {initialSize : Nat} (h : initialSize ≤ limit) :
    Shows limit (.init mem initialSize limit) ⟨[], 0, initialSize⟩ where
  maxSize := rfl
  alloc := rfl
  room := h
  used := Nat.zero_le _
  length := rfl
  offset := rfl
  inside := Nat.le_refl _
  data i x hx := by cases hx

theorem shows_read (h : Shows limit fm f) (count : Nat) :
    (fm.read count).1 = some (f.read count).1 ∧ Shows limit (fm.read count).2 (f.read count).2 := by
  have hinside : ¬ fm.usedSize < fm.offset := by
    rw [h.length, h.offset]
    exact Nat.not_lt.mpr h.inside
  have hlen : ((f.content.drop f.offset).take count).length = min count (fm.usedSize - fm.offset) := by
    rw [List.length_take, List.length_drop, h.length, h.offset]
  unfold FileMem.read MemFile.read
  rw [if_neg hinside, ← hlen]
  refine ⟨congrArg some (List.ext_getElem (by simp) fun i hi hi' => ?_), ⟨h.maxSize, h.alloc,
    h.room, h.used, h.length, ?_, ?_, h.data⟩⟩
  · simp only [List.getElem_map, List.getElem_range, List.getElem_take, List.getElem_drop, h.offset]
    exact h.data _ _ (List.getElem?_eq_getElem _)
  · dsimp only
    rw [h.offset]
  · have hbound := h.inside
    dsimp only
    rw [List.length_take, List.length_drop]
    omega

/-- What is in the buffer after a write that fits. -/
theorem copyTo_getElem (h : Shows limit fm f) {data : Nat → α}
    (hdata : ∀ i x, f.content[i]? = some x → data i = x) (buf : List α) {i : Nat} {x : α}
    (hx : (f.content.take f.offset ++ buf)[i]? = some x) : FileMem.copyTo data f.offset buf i = x := by
  have hlen : (f.content.take f.offset).length = f.offset := List.length_take_of_le h.inside
  unfold FileMem.copyTo
  split
  · rename_i hle
    rw [List.getElem?_append_right (by rwa [hlen]), hlen] at hx
    rw [List.getD_eq_getElem?_getD, hx]
    rfl
  · rename_i hlt
    rw [List.getElem?_append_left (by rw [hlen]; exact Nat.lt_of_not_le hlt),
      List.getElem?_take_of_lt (Nat.lt_of_not_le hlt)] at hx
    exact hdata i x hx

theorem shows_write (h : Shows limit fm f) (mem : Option (Nat → α)) (buf : List α) :
    if f.offset + buf.length ≤ f.room ∨ mem.isSome ∧ f.offset + buf.length ≤ limit then
      (fm.write mem buf).1 = true ∧ Shows limit (fm.write mem buf).2 (f.write limit buf)
    else fm.write mem buf = (false, fm) := by
  have hlength : f.offset + buf.length = (f.content.take f.offset ++ buf).length := by
    rw [List.length_append, List.length_take_of_le h.inside]
  have halloc := h.alloc
  have hroom := h.room
  have hused := h.used
  unfold FileMem.write
  rw [h.offset, h.maxSize, halloc]
  dsimp only
  by_cases hgrow : f.room < f.offset + buf.length
  · rw [if_pos hgrow]
    by_cases hfull : limit < f.offset + buf.length
    · rw [if_pos hfull, if_neg (by omega)]
    · rw [if_neg hfull]
      cases mem with
      | none =>
        rw [if_neg]
        rintro (hfits | ⟨hmem, -⟩)
        · exact Nat.not_le.mpr hgrow hfits
        · cases hmem
      | some mem =>
        rw [if_pos (.inr ⟨rfl, Nat.not_lt.mp hfull⟩)]
        have hsize : min (max (2 * f.room) (2 * (f.offset + buf.length))) limit =
            (f.write limit buf).room := by
          have hmore : (f.write limit buf).room = min (2 * (f.offset + buf.length)) limit :=
            if_neg (Nat.not_le.mpr hgrow)
          omega
        refine ⟨rfl, ⟨rfl, hsize, ?_, ?_, hlength, rfl, hlength.le, fun i x hx => ?_⟩⟩
        · rw [← hsize]
          exact Nat.min_le_right _ _
        · dsimp only
          omega
        · show FileMem.copyTo (fun i => if i < f.room then fm.data i else mem i) f.offset buf i = x
          refine copyTo_getElem h (fun j y hy => ?_) buf hx
          have hj : j < f.room := by
            have hlt := (List.getElem?_eq_some_iff.mp hy).1
            rw [← h.length] at hlt
            exact hlt.trans_le (halloc ▸ hused)
          rw [if_pos hj]
          exact h.data j y hy
  · have hfits : f.offset + buf.length ≤ f.room := Nat.le_of_not_lt hgrow
    have hsame : (f.write limit buf).room = f.room := if_pos hfits
    rw [if_neg hgrow, if_pos (.inl hfits)]
    refine ⟨rfl, ⟨h.maxSize, halloc.trans hsame.symm, hsame.trans_le hroom, ?_, hlength, rfl,
      hlength.le, fun i x hx => ?_⟩⟩
    · rw [halloc]
      exact hfits
    · rw [h.offset]
      exact copyTo_getElem h h.data buf hx

theorem shows_content (h : Shows limit fm f) :
    (List.range fm.usedSize).map fm.data = f.content := by
  refine List.ext_getElem (by simp [h.length]) fun i hi hi' => ?_
  rw [List.getElem_map, List.getElem_range]
  exact h.data i _ (List.getElem?_eq_getElem hi')

end FileMemLemmas

open FileMemLemmas in
/-- Whatever is read and written and whatever memory is handed out: every operation returns what it
returns for a content with an offset, and the file has that content. A write fails exactly if it
would end behind the limit, or if it needs memory and there is none, and changes nothing then. -/
theorem file_mem_refines {α : Type} (mem : Nat → α) {initialSize maxSize : Nat}
    (h : initialSize ≤ maxSize) (ops : List (FileMemOp α)) :
    (exec FileMem.step (.init mem initialSize maxSize, []) ops).2 =
        (exec (MemFile.step maxSize) (⟨[], 0, initialSize⟩, []) ops).2 ∧
      (List.range (exec FileMem.step (.init mem initialSize maxSize, []) ops).1.usedSize).map
          (exec FileMem.step (.init mem initialSize maxSize, []) ops).1.data =
        (exec (MemFile.step maxSize) (⟨[], 0, initialSize⟩, []) ops).1.content := by
  have hrel := @exec_rel _ _ FileMem.step _ (MemFile.step maxSize)
    (.init mem initialSize maxSize, []) (⟨[], 0, initialSize⟩, []) ops
    (fun st st' => Shows maxSize st.1 st'.1 ∧ st.2 = st'.2) ⟨shows_init mem h, rfl⟩
    fun st st' op hst => ?_
  · exact ⟨hrel.2, shows_content hrel.1⟩
  · obtain ⟨fm, results⟩ := st
    obtain ⟨f, results'⟩ := st'
    obtain ⟨hshows, rfl⟩ := hst
    cases op with
    | read count =>
      obtain ⟨hres, hafter⟩ := shows_read hshows count
      exact ⟨hafter, congrArg (fun res => results ++ [.read res]) hres⟩
    | write mem buf =>
      have hwrite := shows_write hshows mem buf
      unfold MemFile.step FileMem.step
      dsimp only at hwrite ⊢
      split at hwrite
      · rename_i hfits
        rw [if_pos hfits]
        exact ⟨hwrite.2, congrArg (fun ok => results ++ [.write ok]) hwrite.1⟩
      · rename_i hfull
        rw [if_neg hfull, hwrite]
        exact ⟨hshows, rfl⟩

/-- Three items and fourteen more are too many for sixteen, and two more are too many for a file
that gets no memory. -/
theorem file_mem_refines_full :
    (exec FileMem.step (.init (fun _ => 0) 4 16, [])
      [.write none [1, 2, 3], .read 2, .write (some fun _ => 9) (List.replicate 14 5),
        .write none [6, 6]]).2 =
      [.write true, .read (some []), .write false, .write false] := by
  rw [(file_mem_refines (fun _ => 0) (by decide : 4 ≤ 16) _).1]
  rfl

end Everarch
