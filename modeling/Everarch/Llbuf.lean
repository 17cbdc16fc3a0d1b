import Everarch.Fs.Affected
import Everarch.Lib.Heap

/-!
# Buffers of linked blocks in memory

`evr_llbuf_s_append` and `evr_llbuf_s_iter_next` of dyn-mem.c and dyn-mem.h over a memory of bytes.
A block is a header of two pointers with the children behind it. An append finds the place of a
child by counts, the iterator by the address where a block ends.

* `LlbufMemory.Chain`: blocks linked by their headers.
* `LlbufMem.view`: the buffer as an item-level buffer whose items are the addresses of the children.
* `LlbufMemory.Holds.append`, `LlbufMemory.Follows.next`: append and iterator do on memory what they
  do on the view.

Result: `llbuf_s_iteration`.
-/

namespace Everarch

/-! ## Buffers -/

/-- The value of a `size_t`, or of an address. -/
def sizeT (n : Nat) : Nat :=
  n % 2 ^ 64

/-- `sizeof(struct evr_buf_pos)`. -/
def bufPosSize : Nat := 16

/-- The offset of `data` in `struct evr_llbuf`, behind `next`. -/
def llbufDataOffset : Nat := 8

/-- `struct evr_llbuf_s`. A pointer is an address, the null pointer is 0. -/
structure LlbufMem where
  first : Nat
  last : Nat
  blockCount : Nat
  blockChildCount : Nat
  childCount : Nat
  childSize : Nat

/-- `struct evr_llbuf_s_iter`. The buffer stays as it is while the iterator is used. -/
structure LlbufMemIter where
  llb : LlbufMem
  block : Nat
  child : Nat
  remainingChildren : Nat

/-- `evr_create_llbuf`: the address of the block, unless there is no memory for it. -/
def createLlbuf (h : Heap) (grant : Grant) (dataSize : Nat) : Option (Nat × Heap) :=
  (h.malloc (2 ^ 64) grant (sizeT (bufPosSize + dataSize))).map fun h =>
    let buf := grant.base
    let pos := sizeT (buf + llbufSize)
    (buf, { h with bytes := storeWord (storeWord h.bytes buf 0) (buf + llbufDataOffset) pos })

namespace LlbufMem

/-- `evr_init_llbuf_s`, none where it divides by zero. -/
def init (pageSize childSize : Nat) : Option LlbufMem :=
  if childSize = 0 then none
  else some ⟨0, 0, 0, max 1 ((pageSize - llbufSize) / childSize), 0, childSize⟩

/-- The part of `evr_llbuf_s_append` that grows the buffer. -/
def grow (llb : LlbufMem) (h : Heap) (grant : Grant) : Option (Heap × LlbufMem) :=
  (createLlbuf h grant (sizeT (llb.blockChildCount * llb.childSize))).map fun (blk, h) =>
    let (h, first) :=
      if llb.last ≠ 0 then ({ h with bytes := storeWord h.bytes llb.last blk }, llb.first)
      else (h, blk)
    (h, { llb with first := first, last := blk, blockCount := sizeT (llb.blockCount + 1) })

/-- The part of `evr_llbuf_s_append` behind it, none where it reads through a null pointer. -/
def place (llb : LlbufMem) (h : Heap) : Option (Nat × LlbufMem) :=
  if llb.last = 0 then none
  else
    let blkChildIndex := llb.childCount % llb.blockChildCount
    let child := sizeT (loadWord h.bytes (llb.last + llbufDataOffset) +
      sizeT (blkChildIndex * llb.childSize))
    some (child, { llb with childCount := sizeT (llb.childCount + 1) })

/-- `evr_llbuf_s_append` with the pointer to the new child, none where it reads through a null
pointer. -/
def append (llb : LlbufMem) (h : Heap) (grant : Grant) : Option (Res × Nat × Heap × LlbufMem) :=
  let grown :=
    if sizeT (llb.blockCount * llb.blockChildCount) < sizeT (llb.childCount + 1) then
      grow llb h grant
    else some (h, llb)
  match grown with
  | none => some (.error, 0, h, llb)
  | some (h, llb) => (place llb h).map fun (child, llb) => (.ok, child, h, llb)

end LlbufMem

namespace LlbufMemIter

/-- `evr_init_llbuf_s_iter`. -/
def init (h : Heap) (llb : LlbufMem) : LlbufMemIter :=
  ⟨llb, llb.first,
    if llb.first ≠ 0 then loadWord h.bytes (llb.first + llbufDataOffset) else 0, llb.childCount⟩

/-- The step of `evr_llbuf_s_iter_next` to the next child, none where it reads through a null
pointer. -/
def advance (iter : LlbufMemIter) (h : Heap) : Option LlbufMemIter :=
  if iter.block = 0 then none
  else
    let blockEnd := sizeT (loadWord h.bytes (iter.block + llbufDataOffset) +
      sizeT (iter.llb.blockChildCount * iter.llb.childSize))
    let child := sizeT (iter.child + iter.llb.childSize)
    if child = blockEnd then
      let block := loadWord h.bytes iter.block
      if block = 0 then none
      else some { iter with block := block, child := loadWord h.bytes (block + llbufDataOffset) }
    else some { iter with child := child }

/-- `evr_llbuf_s_iter_next`. -/
def next (iter : LlbufMemIter) (h : Heap) : Option (Nat × LlbufMemIter) :=
  if iter.remainingChildren = 0 then some (0, iter)
  else
    let ret := iter.child
    let iter := { iter with remainingChildren := iter.remainingChildren - 1 }
    if 0 < iter.remainingChildren then (iter.advance h).map fun iter => (ret, iter)
    else some (ret, iter)

/-- What so many calls of `evr_llbuf_s_iter_next` return. -/
def calls (h : Heap) : Nat → LlbufMemIter → Option (List Nat)
  | 0, _ => some []
  | n + 1, iter => (iter.next h).bind fun (ret, iter) => (calls h n iter).map (ret :: ·)

end LlbufMemIter

/-! ## Runs -/

/-- A call of `evr_llbuf_s_append` with what the caller fills the child with. -/
structure AppendCall where
  grant : Grant
  content : Nat → UInt8

/-- A buffer in memory and its children, each with its address and what it was filled with. -/
structure LlbufRun where
  heap : Heap
  llb : LlbufMem
  children : List (Nat × (Nat → UInt8))

namespace LlbufRun

/-- A buffer after `evr_init_llbuf_s`, where the caller sets the size of the blocks. -/
def start (pageSize childSize blockChildCount : Nat) (h : Heap) : Option LlbufRun :=
  (LlbufMem.init pageSize childSize).map fun llb =>
    ⟨h, { llb with blockChildCount := blockChildCount }, []⟩

/-- One append, where the caller fills the child. -/
def append (run : LlbufRun) (call : AppendCall) : Option LlbufRun :=
  (run.llb.append run.heap call.grant).map fun (res, child, h, llb) =>
    if res = .ok then
      ⟨{ h with bytes := fill h.bytes child llb.childSize call.content }, llb,
        run.children ++ [(child, call.content)]⟩
    else ⟨h, llb, run.children⟩

end LlbufRun

/-! ## Blocks in memory -/

/-- The address of a child in the block at an address. -/
def childAddr (childSize block : Nat) (i : Nat) : Nat :=
  block + llbufSize + i * childSize

namespace LlbufMem

/-- The memory of the block at an address. -/
def blockRegion (llb : LlbufMem) (block : Nat) : Region :=
  ⟨block, llbufSize + llb.blockChildCount * llb.childSize⟩

/-- The buffer with the addresses of its children as items. -/
def view (llb : LlbufMem) (blocks : List Nat) : LlbufS Nat :=
  ⟨blocks.map (childAddr llb.childSize), llb.blockCount, llb.blockChildCount, llb.childCount⟩

/-- Children have bytes, and a block has a size. -/
structure Fits (llb : LlbufMem) : Prop where
  child : 0 < llb.childSize
  block : llbufSize + llb.blockChildCount * llb.childSize < 2 ^ 64

end LlbufMem

namespace LlbufMemory

/-- The headers of blocks link them in this order, the last one to `tail`. -/
def Chain (m : Nat → UInt8) : List Nat → Nat → Prop
  | [], _ => True
  | b :: bs, tail =>
    loadWord m b = bs.headD tail ∧ loadWord m (b + llbufDataOffset) = b + llbufSize ∧
      Chain m bs tail

/-- The blocks of a buffer in memory. -/
structure Blocks (h : Heap) (llb : LlbufMem) (blocks : List Nat) : Prop where
  first : llb.first = blocks.headD 0
  last : llb.last = blocks.getLastD 0
  chain : Chain h.bytes blocks 0
  owned : ∀ b ∈ blocks, llb.blockRegion b ∈ h.regions
  apart : blocks.Pairwise fun b b' => (llb.blockRegion b).Apart (llb.blockRegion b')
  valid : ∀ b ∈ blocks, 0 < b ∧ b + (llbufSize + llb.blockChildCount * llb.childSize) < 2 ^ 64

section Chains

variable {m m' : Nat → UInt8} {bs bs' : List Nat} {tail : Nat}

theorem chain_append :
    Chain m (bs ++ bs') tail ↔ Chain m bs (bs'.headD tail) ∧ Chain m bs' tail := by
  induction bs with
  | nil => simp [Chain]
  | cons b bs ih =>
    have hhead : (bs ++ bs').headD tail = bs.headD (bs'.headD tail) := by
      cases bs with
      | nil => rfl
      | cons b' bs => rfl
    rw [List.cons_append, Chain, Chain, ih, hhead, and_assoc, and_assoc]

/-- Headers that nothing is written to. -/
theorem Chain.frame {r : Region} (h : Chain m bs tail) (hm : AgreeOutside r m m')
    (hapart : ∀ b ∈ bs, Region.Apart ⟨b, llbufSize⟩ r) : Chain m' bs tail := by
  induction bs with
  | nil => trivial
  | cons b bs ih =>
    obtain ⟨hnext, hdata, hrest⟩ := h
    have hb := hapart b List.mem_cons_self
    have hword : llbufDataOffset + wordSize ≤ llbufSize := by decide
    refine ⟨?_, ?_, ih hrest fun b' hb' => hapart b' (List.mem_cons_of_mem _ hb')⟩
    · rw [hm.loadWord, hnext]
      exact hb.mono ⟨Nat.le_refl b, Nat.add_le_add_left (Nat.le_of_add_left_le hword) b⟩ .refl
    · rw [hm.loadWord, hdata]
      exact hb.mono ⟨Nat.le_add_right b _, (Nat.add_assoc b _ _).trans_le
        (Nat.add_le_add_left hword b)⟩ .refl

/-- The last block gets a successor. -/
theorem Chain.link {l b : Nat} (h : Chain m (bs ++ [l]) 0) (hnew : Chain m [b] 0)
    (hb : b < 256 ^ wordSize) (hold : ∀ c ∈ bs, Region.Apart ⟨c, llbufSize⟩ ⟨l, wordSize⟩)
    (hapart : Region.Apart ⟨b, llbufSize⟩ ⟨l, wordSize⟩) :
    Chain (storeWord m l b) ((bs ++ [l]) ++ [b]) 0 := by
  have hm := agreeOutside_storeWord m l b
  obtain ⟨hfront, -, hdata, -⟩ := chain_append.mp h
  have hbehind : Region.Apart ⟨l + llbufDataOffset, wordSize⟩ ⟨l, wordSize⟩ := .inr (Nat.le_refl _)
  refine chain_append.mpr ⟨chain_append.mpr ⟨hfront.frame hm hold, ?_⟩, ?_⟩
  · exact ⟨loadWord_storeWord m l hb, (hm.loadWord hbehind).trans hdata, trivial⟩
  · exact hnew.frame hm fun c hc => List.mem_singleton.mp hc ▸ hapart

end Chains

section Children

variable {h : Heap} {llb : LlbufMem} {blocks ptrs : List Nat} {b i j p q : Nat}

/-- A child lies in its block, behind the header. -/
theorem child_within (llb : LlbufMem) (b : Nat) (hj : j < llb.blockChildCount) :
    b + llbufSize ≤ childAddr llb.childSize b j ∧ childAddr llb.childSize b j + llb.childSize ≤
      b + (llbufSize + llb.blockChildCount * llb.childSize) := by
  have hle : (j + 1) * llb.childSize ≤ llb.blockChildCount * llb.childSize :=
    Nat.mul_le_mul_right _ hj
  rw [Nat.succ_mul] at hle
  unfold childAddr
  omega

/-- Where the child with an index is. -/
theorem address_eq (hview : (llb.view blocks).Holds ptrs) (hp : ptrs[i]? = some p) :
    ∃ b, blocks[i / llb.blockChildCount]? = some b ∧
      p = childAddr llb.childSize b (i % llb.blockChildCount) := by
  obtain ⟨_, hblock, rfl⟩ := Option.map_eq_some_iff.mp (hview.items i p hp)
  rw [LlbufMem.view, List.getElem?_map] at hblock
  obtain ⟨b, hb, rfl⟩ := Option.map_eq_some_iff.mp hblock
  exact ⟨b, hb, rfl⟩

/-- Children share no bytes, in one block or in two. -/
theorem children_apart (hview : (llb.view blocks).Holds ptrs)
    (hblocks : blocks.Pairwise fun b b' => (llb.blockRegion b).Apart (llb.blockRegion b'))
    (hp : ptrs[i]? = some p) (hq : ptrs[j]? = some q) (hij : i < j) :
    Region.Apart ⟨p, llb.childSize⟩ ⟨q, llb.childSize⟩ := by
  obtain ⟨b, hb, rfl⟩ := address_eq hview hp
  obtain ⟨b', hb', rfl⟩ := address_eq hview hq
  have hroom : 0 < llb.blockChildCount := hview.room
  rcases Nat.lt_or_eq_of_le (Nat.div_le_div_right (c := llb.blockChildCount) (Nat.le_of_lt hij))
    with hlt | heq
  · obtain ⟨hi', rfl⟩ := List.getElem?_eq_some_iff.mp hb
    obtain ⟨hj', rfl⟩ := List.getElem?_eq_some_iff.mp hb'
    have hapart := List.pairwise_iff_getElem.mp hblocks _ _ hi' hj' hlt
    have hfirst := child_within llb blocks[i / llb.blockChildCount] (Nat.mod_lt i hroom)
    have hsecond := child_within llb blocks[j / llb.blockChildCount] (Nat.mod_lt j hroom)
    exact hapart.mono ⟨Nat.le_of_add_right_le hfirst.1, hfirst.2⟩
      ⟨Nat.le_of_add_right_le hsecond.1, hsecond.2⟩
  · rw [heq, hb'] at hb
    cases hb
    have hmod : i % llb.blockChildCount < j % llb.blockChildCount := by
      have hi := Nat.div_add_mod i llb.blockChildCount
      have hj := Nat.div_add_mod j llb.blockChildCount
      rw [heq] at hi
      omega
    have hle : (i % llb.blockChildCount + 1) * llb.childSize ≤
        j % llb.blockChildCount * llb.childSize := Nat.mul_le_mul_right _ hmod
    rw [Nat.succ_mul] at hle
    refine .inl ?_
    show childAddr llb.childSize b _ + llb.childSize ≤ childAddr llb.childSize b _
    unfold childAddr
    omega

theorem header_within : Region.Within ⟨b, llbufSize⟩ (llb.blockRegion b) :=
  ⟨Nat.le_refl _, Nat.add_le_add_left (Nat.le_add_right _ _) b⟩

theorem data_within {r : Region}
    (hr : r.Within ⟨b + llbufSize, llb.blockChildCount * llb.childSize⟩) :
    r.Within (llb.blockRegion b) :=
  ⟨Nat.le_of_add_right_le hr.1, hr.2.trans_eq (Nat.add_assoc _ _ _)⟩

/-- No header lies among the children, of the same block or of another one. -/
theorem header_apart {c : Nat} {r : Region} (hblocks : Blocks h llb blocks) (hb : b ∈ blocks)
    (hc : c ∈ blocks) (hr : r.Within ⟨c + llbufSize, llb.blockChildCount * llb.childSize⟩) :
    Region.Apart ⟨b, llbufSize⟩ r := by
  rcases eq_or_ne b c with rfl | hne
  · exact .inl hr.1
  · have hsymm : Std.Symm fun b b' => (llb.blockRegion b).Apart (llb.blockRegion b') :=
      ⟨fun _ _ h => h.symm⟩
    exact (hblocks.apart.forall hb hc hne).mono header_within (data_within hr)

/-- The blocks fit into memory, so counts do not wrap around. -/
theorem count_lt (hfits : llb.Fits) (hblocks : Blocks h llb blocks) :
    blocks.length * llb.blockChildCount + 1 < 2 ^ 64 ∧ blocks.length + 1 < 2 ^ 64 := by
  have hapart : (blocks.map llb.blockRegion).Pairwise Region.Apart :=
    List.pairwise_map.mpr hblocks.apart
  have hsum := sum_size_le (2 ^ 64) hapart (by
    intro r hr
    obtain ⟨b, hb, rfl⟩ := List.mem_map.mp hr
    exact Nat.le_of_lt (hblocks.valid b hb).2)
  have hconst : ((blocks.map llb.blockRegion).map Region.size).sum =
      blocks.length * (llbufSize + llb.blockChildCount * llb.childSize) := by
    rw [List.map_map]
    show (blocks.map fun _ => llbufSize + llb.blockChildCount * llb.childSize).sum = _
    rw [List.map_const', List.sum_replicate_nat]
  have hle : blocks.length * llb.blockChildCount ≤
      blocks.length * (llb.blockChildCount * llb.childSize) :=
    Nat.mul_le_mul_left _ (Nat.le_mul_of_pos_right _ hfits.child)
  rw [hconst, Nat.mul_add, llbufSize] at hsum
  rcases Nat.eq_zero_or_pos blocks.length with hzero | hpos
  · rw [hzero, Nat.zero_mul]
    decide
  · omega

end Children

section Growing

variable {h h' : Heap} {llb llb' : LlbufMem} {blocks ptrs : List Nat} {grant : Grant}
  {m : Nat → UInt8} {n : Nat}

/-- The memory of a new block: a header in front of what was there. -/
def newBlock (m : Nat → UInt8) (grant : Grant) (n : Nat) : Nat → UInt8 :=
  storeWord (storeWord (fill m grant.base n grant.junk) grant.base 0)
    (grant.base + llbufDataOffset) (grant.base + llbufSize)

theorem newBlock_agrees (m : Nat → UInt8) (grant : Grant) (hn : llbufSize ≤ n) :
    AgreeOutside ⟨grant.base, n⟩ m (newBlock m grant n) := by
  have hword : llbufDataOffset + wordSize ≤ n := hn
  have hjunk := agreeOutside_fill m grant.base n grant.junk
  have hnext : AgreeOutside ⟨grant.base, n⟩ (fill m grant.base n grant.junk) _ :=
    (agreeOutside_storeWord _ grant.base 0).mono
      ⟨Nat.le_refl _, Nat.add_le_add_left (Nat.le_of_add_left_le hword) _⟩
  refine (hjunk.trans hnext).trans ?_
  exact (agreeOutside_storeWord _ (grant.base + llbufDataOffset) _).mono
    ⟨Nat.le_add_right _ _, (Nat.add_assoc _ _ _).trans_le (Nat.add_le_add_left hword _)⟩

theorem chain_newBlock (m : Nat → UInt8) (hspace : grant.base + llbufSize < 2 ^ 64) :
    Chain (newBlock m grant n) [grant.base] 0 := by
  refine ⟨?_, loadWord_storeWord _ _ hspace, trivial⟩
  have hother : Region.Apart ⟨grant.base, wordSize⟩ ⟨grant.base + llbufDataOffset, wordSize⟩ :=
    .inl (Nat.le_refl _)
  rw [newBlock]
  exact ((agreeOutside_storeWord _ _ _).loadWord hother).trans
    (loadWord_storeWord _ _ (by decide))

/-- What the part of an append that grows the buffer does. -/
structure Grown (h : Heap) (llb : LlbufMem) (grant : Grant) (h' : Heap) (llb' : LlbufMem) :
    Prop where
  valid : 0 < grant.base ∧
    grant.base + (llbufSize + llb.blockChildCount * llb.childSize) < 2 ^ 64
  free : ∀ r ∈ h.regions, (llb.blockRegion grant.base).Apart r
  regions : h'.regions = llb.blockRegion grant.base :: h.regions
  bytes : h'.bytes = if llb.last ≠ 0 then
      storeWord (newBlock h.bytes grant (llb.blockRegion grant.base).size) llb.last grant.base
    else newBlock h.bytes grant (llb.blockRegion grant.base).size
  buffer : llb' = { llb with
    first := if llb.last ≠ 0 then llb.first else grant.base
    last := grant.base
    blockCount := llb.blockCount + 1 }

theorem grown_of_grow (hfits : llb.Fits) (hcount : llb.blockCount + 1 < 2 ^ 64)
    (heq : llb.grow h grant = some (h', llb')) : Grown h llb grant h' llb' := by
  have hblock := hfits.block
  have hdata : sizeT (llb.blockChildCount * llb.childSize) = llb.blockChildCount * llb.childSize :=
    Nat.mod_eq_of_lt (Nat.lt_of_add_left_lt hblock)
  have hsize : sizeT (bufPosSize + llb.blockChildCount * llb.childSize) =
      (llb.blockRegion grant.base).size := Nat.mod_eq_of_lt hblock
  unfold LlbufMem.grow createLlbuf at heq
  rw [hdata, hsize, Option.map_map] at heq
  obtain ⟨h₁, hmalloc, hrest⟩ := Option.map_eq_some_iff.mp heq
  obtain ⟨hpos, hspace, hfree, rfl⟩ := Heap.malloc_eq_some hmalloc
  have hheader : sizeT (grant.base + llbufSize) = grant.base + llbufSize := by
    refine Nat.mod_eq_of_lt ((Nat.add_le_add_left ?_ _).trans_lt hspace)
    exact Nat.le_add_right _ _
  have hcount' : sizeT (llb.blockCount + 1) = llb.blockCount + 1 := Nat.mod_eq_of_lt hcount
  simp only [Function.comp_apply, hheader, hcount'] at hrest
  by_cases hlast : llb.last ≠ 0
  · simp only [if_pos hlast, Prod.mk.injEq] at hrest
    obtain ⟨rfl, rfl⟩ := hrest
    exact ⟨⟨hpos, hspace⟩, hfree, rfl, (if_pos hlast).symm, by rw [if_pos hlast]⟩
  · simp only [if_neg hlast, Prod.mk.injEq] at hrest
    obtain ⟨rfl, rfl⟩ := hrest
    exact ⟨⟨hpos, hspace⟩, hfree, rfl, (if_neg hlast).symm, by rw [if_neg hlast]⟩

/-- The last block of a buffer that has one. -/
theorem Blocks.last_eq {bs : List Nat} {l : Nat} (h' : Blocks h llb (bs ++ [l])) :
    llb.last = l ∧ llb.last ≠ 0 := by
  have hlast : llb.last = l := by
    rw [h'.last, List.getLastD_concat]
  have hl : l ∈ bs ++ [l] := List.mem_append_right _ List.mem_cons_self
  exact ⟨hlast, hlast ▸ Nat.ne_of_gt (h'.valid l hl).1⟩

theorem word_within {b : Nat} : Region.Within ⟨b, wordSize⟩ ⟨b, llbufSize⟩ :=
  ⟨Nat.le_refl b, Nat.add_le_add_left (show wordSize ≤ llbufSize by decide) b⟩

section Grow

variable (hg : Grown h llb grant h' llb') (hblocks : Blocks h llb blocks)
include hg hblocks

theorem Grown.apart {b : Nat} (hb : b ∈ blocks) :
    (llb.blockRegion grant.base).Apart (llb.blockRegion b) :=
  hg.free _ (hblocks.owned b hb)

/-- The new block is linked behind the others. -/
theorem Grown.chain : Chain h'.bytes (blocks ++ [grant.base]) 0 := by
  have hm := newBlock_agrees h.bytes grant (n := (llb.blockRegion grant.base).size)
    (Nat.le_add_right _ _)
  have hself : Chain (newBlock h.bytes grant (llb.blockRegion grant.base).size) [grant.base] 0 :=
    chain_newBlock h.bytes ((Nat.add_le_add_left (Nat.le_add_right _ _) _).trans_lt hg.valid.2)
  have hchain := hblocks.chain.frame hm fun b hb =>
    (hg.apart hblocks hb).symm.mono header_within .refl
  rw [hg.bytes]
  rcases List.eq_nil_or_concat blocks with rfl | ⟨bs, l, rfl⟩
  · have hlast : ¬ llb.last ≠ 0 := not_not.mpr hblocks.last
    rw [if_neg hlast]
    exact hself
  · rw [List.concat_eq_append] at hblocks hchain ⊢
    obtain ⟨hlast, hne⟩ := hblocks.last_eq
    rw [if_pos hne, hlast]
    refine hchain.link hself (Nat.lt_of_add_right_lt hg.valid.2) (fun c hc => ?_) ?_
    · have hapart := (List.pairwise_append.mp hblocks.apart).2.2 c hc l List.mem_cons_self
      exact hapart.mono header_within (word_within.trans header_within)
    · have hl : l ∈ bs ++ [l] := List.mem_append_right _ List.mem_cons_self
      exact (hg.apart hblocks hl).mono header_within (word_within.trans header_within)

theorem Grown.inBlocks : Blocks h' llb' (blocks ++ [grant.base]) := by
  have hchain := hg.chain hblocks
  obtain rfl := hg.buffer
  refine ⟨?_, (List.getLastD_concat ..).symm, hchain, fun b hb => ?_, ?_, fun b hb => ?_⟩
  · rcases List.eq_nil_or_concat blocks with rfl | ⟨bs, l, rfl⟩
    · exact if_neg (not_not.mpr hblocks.last)
    · rw [List.concat_eq_append] at hblocks ⊢
      rw [if_pos hblocks.last_eq.2, hblocks.first]
      cases bs <;> rfl
  · rw [hg.regions]
    rcases List.mem_append.mp hb with hold | hnew
    · exact List.mem_cons_of_mem _ (hblocks.owned b hold)
    · rw [List.mem_singleton.mp hnew]
      exact List.mem_cons_self
  · refine List.pairwise_append.mpr ⟨hblocks.apart, List.pairwise_singleton _ _, ?_⟩
    intro b hb b' hb'
    rw [List.mem_singleton.mp hb']
    exact (hg.apart hblocks hb).symm
  · rcases List.mem_append.mp hb with hold | hnew
    · exact hblocks.valid b hold
    · rw [List.mem_singleton.mp hnew]
      exact hg.valid

/-- The children that the buffer has stay as they are. -/
theorem Grown.load {b : Nat} (hb : b ∈ blocks) {r : Region}
    (hr : r.Within ⟨b + llbufSize, llb.blockChildCount * llb.childSize⟩) :
    load h'.bytes r.base r.size = load h.bytes r.base r.size := by
  have hm := newBlock_agrees h.bytes grant (n := (llb.blockRegion grant.base).size)
    (Nat.le_add_right _ _)
  have hkept := hm.load ((hg.apart hblocks hb).symm.mono (data_within hr) .refl)
  rw [hg.bytes]
  rcases List.eq_nil_or_concat blocks with rfl | ⟨bs, l, rfl⟩
  · exact absurd hb List.not_mem_nil
  · rw [List.concat_eq_append] at hblocks hb
    obtain ⟨hlast, hne⟩ := hblocks.last_eq
    have hl : l ∈ bs ++ [l] := List.mem_append_right _ List.mem_cons_self
    have hlink := agreeOutside_storeWord
      (newBlock h.bytes grant (llb.blockRegion grant.base).size) l grant.base
    rw [if_pos hne, hlast,
      hlink.load ((header_apart hblocks hl hb hr).symm.mono .refl word_within), hkept]

end Grow

/-- The view of a full buffer grows too. -/
theorem Grown.view (hg : Grown h llb grant h' llb') (hview : (llb.view blocks).Holds ptrs)
    (hfull : blocks.length * llb.blockChildCount ≤ ptrs.length) :
    (llb'.view (blocks ++ [grant.base])).Holds ptrs := by
  have hgrown := AffectedLemmas.holds_grow hview (by rwa [LlbufMem.view, List.length_map])
    (childAddr llb.childSize grant.base)
  obtain rfl := hg.buffer
  rw [LlbufMem.view, List.map_append]
  exact hgrown

/-- A buffer that has grown has a place for a child in one of its blocks. -/
theorem place_spec (hfits : llb.Fits) (hblocks : Blocks h llb blocks)
    (hview : (llb.view blocks).Holds ptrs)
    (hfree : ptrs.length < blocks.length * llb.blockChildCount) :
    ∃ b ∈ blocks, ∃ p, llb.place h = some (p, { llb with childCount := llb.childCount + 1 }) ∧
      (LlbufMem.view { llb with childCount := llb.childCount + 1 } blocks).Holds (ptrs ++ [p]) ∧
      Region.Within ⟨p, llb.childSize⟩
        ⟨b + llbufSize, llb.blockChildCount * llb.childSize⟩ := by
  rcases List.eq_nil_or_concat blocks with rfl | ⟨bs, l, rfl⟩
  · rw [List.length_nil, Nat.zero_mul] at hfree
    exact absurd hfree (Nat.not_lt_zero _)
  · rw [List.concat_eq_append] at hblocks hview hfree ⊢
    have hl : l ∈ bs ++ [l] := List.mem_append_right _ List.mem_cons_self
    have hspace := (hblocks.valid l hl).2
    obtain ⟨hlast, hne⟩ := hblocks.last_eq
    have hdata : loadWord h.bytes (l + llbufDataOffset) = l + llbufSize :=
      (chain_append.mp hblocks.chain).2.2.1
    have hindex : llb.childCount % llb.blockChildCount < llb.blockChildCount :=
      Nat.mod_lt _ hview.room
    obtain ⟨hlo, hhi⟩ := child_within llb l hindex
    have hcount : sizeT (llb.childCount + 1) = llb.childCount + 1 := by
      refine Nat.mod_eq_of_lt ?_
      rw [show llb.childCount = ptrs.length from hview.childCount]
      exact (Nat.succ_le_of_lt hfree).trans_lt
        (Nat.lt_of_succ_lt (count_lt hfits hblocks).1)
    have hsum : childAddr llb.childSize l (llb.childCount % llb.blockChildCount) < 2 ^ 64 :=
      (Nat.le_of_add_right_le hhi).trans_lt hspace
    have hoffset : sizeT (llb.childCount % llb.blockChildCount * llb.childSize) =
        llb.childCount % llb.blockChildCount * llb.childSize :=
      Nat.mod_eq_of_lt (Nat.lt_of_add_left_lt hsum)
    have haddr : sizeT (l + llbufSize + llb.childCount % llb.blockChildCount * llb.childSize) =
        childAddr llb.childSize l (llb.childCount % llb.blockChildCount) := Nat.mod_eq_of_lt hsum
    refine ⟨l, hl, childAddr llb.childSize l (llb.childCount % llb.blockChildCount), ?_, ?_, hlo,
      hhi.trans_eq (Nat.add_assoc _ _ _).symm⟩
    · unfold LlbufMem.place
      rw [if_neg hne, hlast, hdata]
      simp only [hoffset, haddr, hcount]
    · -- the view has the address at this place already
      have hplaced := AffectedLemmas.holds_write hview (by rwa [LlbufMem.view, List.length_map])
        (childAddr llb.childSize l (llb.childCount % llb.blockChildCount))
      simp only [LlbufMem.view, List.map_append, List.map_cons, List.map_nil, writeLast_concat,
        Function.update_eq_self] at hplaced ⊢
      exact hplaced

end Growing

section Appending

variable {run : LlbufRun} {blocks : List Nat} {childSize blockChildCount : Nat}

/-- A run whose buffer has its children in these blocks, each with what it was filled with. -/
structure Holds (run : LlbufRun) (childSize blockChildCount : Nat) (blocks : List Nat) : Prop where
  childSize : run.llb.childSize = childSize
  blockChildCount : run.llb.blockChildCount = blockChildCount
  fits : run.llb.Fits
  inBlocks : Blocks run.heap run.llb blocks
  view : (run.llb.view blocks).Holds (run.children.map Prod.fst)
  contents : ∀ c ∈ run.children,
    load run.heap.bytes c.1 run.llb.childSize = (List.range run.llb.childSize).map c.2

/-- A child is among the children of one of the blocks. -/
theorem Holds.child_data (h : Holds run childSize blockChildCount blocks)
    {c : Nat × (Nat → UInt8)} (hc : c ∈ run.children) :
    ∃ b ∈ blocks, Region.Within ⟨c.1, run.llb.childSize⟩
      ⟨b + llbufSize, run.llb.blockChildCount * run.llb.childSize⟩ := by
  obtain ⟨i, hi⟩ := List.mem_iff_getElem?.mp (List.mem_map_of_mem (f := Prod.fst) hc)
  obtain ⟨b, hb, heq⟩ := address_eq h.view hi
  obtain ⟨hlo, hhi⟩ := child_within run.llb b (Nat.mod_lt i h.view.room)
  rw [← heq] at hlo hhi
  exact ⟨b, List.mem_of_getElem? hb, hlo, hhi.trans_eq (Nat.add_assoc _ _ _).symm⟩

/-- The next child of a buffer with a place for it is filled. -/
theorem Holds.placed (h : Holds run childSize blockChildCount blocks)
    (hfree : run.children.length < blocks.length * run.llb.blockChildCount)
    (content : Nat → UInt8) :
    ∃ p llb, run.llb.place run.heap = some (p, llb) ∧
      Holds ⟨{ run.heap with bytes := fill run.heap.bytes p llb.childSize content }, llb,
        run.children ++ [(p, content)]⟩ childSize blockChildCount blocks := by
  obtain ⟨b, hb, p, hplace, hview, hdata⟩ := place_spec h.fits h.inBlocks h.view
    (by rwa [List.length_map])
  have hfill := agreeOutside_fill run.heap.bytes p run.llb.childSize content
  have hchain := h.inBlocks.chain.frame hfill fun c hc => header_apart h.inBlocks hc hb hdata
  refine ⟨p, _, hplace, h.childSize, h.blockChildCount, ⟨h.fits.child, h.fits.block⟩, ?_, ?_, ?_⟩
  · exact ⟨h.inBlocks.first, h.inBlocks.last, hchain, h.inBlocks.owned, h.inBlocks.apart,
      h.inBlocks.valid⟩
  · rw [List.map_append]
    exact hview
  · intro c hc
    rcases List.mem_append.mp hc with hold | hnew
    · obtain ⟨i, hi⟩ := List.mem_iff_getElem?.mp (List.mem_map_of_mem (f := Prod.fst) hold)
      have hlt := (List.getElem?_eq_some_iff.mp hi).1
      have hapart := children_apart hview h.inBlocks.apart
        ((List.getElem?_append_left hlt).trans hi) List.getElem?_concat_length hlt
      exact (hfill.load hapart).trans (h.contents c hold)
    · rw [List.mem_singleton.mp hnew]
      exact load_fill_self _ _ _ _

/-- A buffer that has grown holds what it held. -/
theorem Holds.grown (h : Holds run childSize blockChildCount blocks) {grant : Grant} {h' : Heap}
    {llb' : LlbufMem} (hfull : blocks.length * run.llb.blockChildCount ≤ run.children.length)
    (heq : run.llb.grow run.heap grant = some (h', llb')) :
    Holds ⟨h', llb', run.children⟩ childSize blockChildCount (blocks ++ [grant.base]) := by
  have hcount : run.llb.blockCount = blocks.length := h.view.blockCount.trans (List.length_map _)
  have hg := grown_of_grow h.fits (hcount ▸ (count_lt h.fits h.inBlocks).2) heq
  have hblocks := hg.inBlocks h.inBlocks
  have hview := hg.view h.view (by rwa [List.length_map])
  have hload := fun b hb r hr => hg.load h.inBlocks (b := b) hb (r := r) hr
  obtain rfl := hg.buffer
  refine ⟨h.childSize, h.blockChildCount, ⟨h.fits.child, h.fits.block⟩, hblocks, hview, ?_⟩
  intro c hc
  obtain ⟨b, hb, hdata⟩ := h.child_data hc
  exact (hload b hb _ hdata).trans (h.contents c hc)

/-- One append: the buffer holds one more child, or there is no memory and it is as before. -/
theorem Holds.append (h : Holds run childSize blockChildCount blocks) (call : AppendCall) :
    ∃ run' blocks', run.append call = some run' ∧
      Holds run' childSize blockChildCount blocks' := by
  have hblockCount : run.llb.blockCount = blocks.length :=
    h.view.blockCount.trans (List.length_map _)
  have hchildCount : run.llb.childCount = run.children.length :=
    h.view.childCount.trans (List.length_map _)
  have hle : run.children.length ≤ blocks.length * run.llb.blockChildCount := by
    have hfits := h.view.fits
    rwa [LlbufMem.view, List.length_map, List.length_map] at hfits
  have hlt := (count_lt h.fits h.inBlocks).1
  have hcapacity : sizeT (run.llb.blockCount * run.llb.blockChildCount) =
      blocks.length * run.llb.blockChildCount := by
    rw [hblockCount]
    exact Nat.mod_eq_of_lt (Nat.lt_of_succ_lt hlt)
  have hnext : sizeT (run.llb.childCount + 1) = run.children.length + 1 := by
    rw [hchildCount]
    exact Nat.mod_eq_of_lt ((Nat.succ_le_succ hle).trans_lt hlt)
  unfold LlbufRun.append LlbufMem.append
  rw [hcapacity, hnext]
  by_cases hfull : blocks.length * run.llb.blockChildCount < run.children.length + 1
  · rw [if_pos hfull]
    cases hgrow : run.llb.grow run.heap call.grant with
    | none => exact ⟨run, blocks, rfl, h⟩
    | some grown =>
      obtain ⟨h', llb'⟩ := grown
      have hgrown := h.grown (Nat.le_of_lt_succ hfull) hgrow
      have hfree : run.children.length <
          (blocks ++ [call.grant.base]).length * llb'.blockChildCount := by
        rw [hgrown.blockChildCount, ← h.blockChildCount, List.length_append, List.length_singleton,
          Nat.succ_mul]
        exact Nat.lt_of_le_of_lt hle (Nat.lt_add_of_pos_right h.view.room)
      obtain ⟨p, llb, hplace, hholds⟩ := hgrown.placed hfree call.content
      exact ⟨_, _, by simp only [hplace, Option.map_some, if_true], hholds⟩
  · rw [if_neg hfull]
    obtain ⟨p, llb, hplace, hholds⟩ := h.placed (Nat.lt_of_succ_le (Nat.le_of_not_lt hfull))
      call.content
    exact ⟨_, _, by simp only [hplace, Option.map_some, if_true], hholds⟩

/-- A run of appends. -/
theorem Holds.appends (h : Holds run childSize blockChildCount blocks) (calls : List AppendCall) :
    ∃ run' blocks', calls.foldlM LlbufRun.append run = some run' ∧
      Holds run' childSize blockChildCount blocks' := by
  induction calls generalizing run blocks with
  | nil => exact ⟨run, blocks, rfl, h⟩
  | cons call calls ih =>
    obtain ⟨run₁, blocks₁, hcall, h₁⟩ := h.append call
    rw [List.foldlM_cons, hcall]
    exact ih h₁

end Appending

section Iterating

variable {h : Heap} {llb : LlbufMem} {blocks ptrs rest : List Nat} {iter : LlbufMemIter}
  {view : LlbufSIter Nat} {b b' i j : Nat}

/-- An iterator in memory at the place of an iterator over the view, with `rest` left of the
blocks. -/
structure Follows (h : Heap) (llb : LlbufMem) (rest : List Nat) (iter : LlbufMemIter)
    (view : LlbufSIter Nat) : Prop where
  buffer : iter.llb = llb
  remaining : iter.remainingChildren = view.remainingChildren
  room : view.blockChildCount = llb.blockChildCount
  viewed : view.block = rest.map (childAddr llb.childSize)
  block : iter.block = rest.headD 0
  child : ∀ b ∈ rest.head?, iter.child = childAddr llb.childSize b view.child
  chain : Chain h.bytes rest 0
  valid : ∀ b ∈ rest, 0 < b ∧ b + (llbufSize + llb.blockChildCount * llb.childSize) < 2 ^ 64

/-- The address where a block ends, and that of the child behind the current one. -/
theorem advance_addresses (hfits : llb.Fits) (hchain : Chain h.bytes (b :: rest) 0)
    (hvalid : b + (llbufSize + llb.blockChildCount * llb.childSize) < 2 ^ 64)
    (hj : j < llb.blockChildCount) :
    sizeT (loadWord h.bytes (b + llbufDataOffset) + sizeT (llb.blockChildCount * llb.childSize)) =
        childAddr llb.childSize b llb.blockChildCount ∧
      sizeT (childAddr llb.childSize b j + llb.childSize) = childAddr llb.childSize b (j + 1) ∧
      (childAddr llb.childSize b (j + 1) = childAddr llb.childSize b llb.blockChildCount ↔
        j + 1 = llb.blockChildCount) := by
  have hdata : loadWord h.bytes (b + llbufDataOffset) = b + llbufSize := hchain.2.1
  have hsize : sizeT (llb.blockChildCount * llb.childSize) = llb.blockChildCount * llb.childSize :=
    Nat.mod_eq_of_lt (Nat.lt_of_add_left_lt hfits.block)
  have hend : b + llbufSize + llb.blockChildCount * llb.childSize < 2 ^ 64 :=
    (Nat.add_assoc _ _ _).trans_lt hvalid
  have hnext : childAddr llb.childSize b j + llb.childSize = childAddr llb.childSize b (j + 1) := by
    unfold childAddr
    rw [Nat.succ_mul, Nat.add_assoc]
  have hle : childAddr llb.childSize b (j + 1) ≤
      b + llbufSize + llb.blockChildCount * llb.childSize :=
    Nat.add_le_add_left (Nat.mul_le_mul_right _ hj) _
  refine ⟨?_, ?_, ?_⟩
  · rw [hdata, hsize]
    exact Nat.mod_eq_of_lt hend
  · rw [hnext]
    exact Nat.mod_eq_of_lt (hle.trans_lt hend)
  · unfold childAddr
    rw [Nat.add_left_cancel_iff]
    exact Nat.mul_left_inj (Nat.ne_of_gt hfits.child)

theorem advance_within (hfits : llb.Fits) (hf : Follows h llb (b :: rest) iter view)
    (hj : view.child + 1 < llb.blockChildCount) :
    iter.advance h = some { iter with child := childAddr llb.childSize b (view.child + 1) } := by
  have hb := hf.valid b List.mem_cons_self
  obtain ⟨hend, hnext, hiff⟩ := advance_addresses hfits hf.chain hb.2 (Nat.lt_of_succ_lt hj)
  unfold LlbufMemIter.advance
  rw [show iter.block = b from hf.block, if_neg (Nat.ne_of_gt hb.1), hf.buffer,
    hf.child b rfl]
  simp only [hend, hnext]
  rw [if_neg fun heq => Nat.ne_of_lt hj (hiff.mp heq)]

theorem advance_across (hfits : llb.Fits) (hf : Follows h llb (b :: b' :: rest) iter view)
    (hj : view.child + 1 = llb.blockChildCount) :
    iter.advance h = some { iter with block := b', child := childAddr llb.childSize b' 0 } := by
  have hb := hf.valid b List.mem_cons_self
  have hb' := hf.valid b' (List.mem_cons_of_mem _ List.mem_cons_self)
  obtain ⟨hend, hnext, hiff⟩ :=
    advance_addresses hfits hf.chain hb.2 (Nat.lt_of_succ_le (Nat.le_of_eq hj))
  obtain ⟨hlink, -, -, hdata, -⟩ := hf.chain
  have hfirst : b' + llbufSize = childAddr llb.childSize b' 0 := by
    rw [childAddr, Nat.zero_mul, Nat.add_zero]
  unfold LlbufMemIter.advance
  rw [show iter.block = b from hf.block, if_neg (Nat.ne_of_gt hb.1), hf.buffer,
    hf.child b rfl]
  simp only [hend, hnext]
  rw [if_pos (hiff.mpr hj), show loadWord h.bytes b = b' from hlink,
    if_neg (Nat.ne_of_gt hb'.1), hdata, hfirst]

/-- The iterator does what the iterator over the view does. It looks at the next block early, which
must be there then. -/
theorem Follows.next (hf : Follows h llb rest iter view) (hfits : llb.Fits) {x : Option Nat}
    {view' : LlbufSIter Nat} (hnext : llbufSIterNext view = some (x, view'))
    (hplace : 0 < view.remainingChildren → view.child < llb.blockChildCount)
    (hmore : 0 < view'.remainingChildren → view'.block ≠ []) :
    ∃ iter' rest', iter.next h = some (x.getD 0, iter') ∧ Follows h llb rest' iter' view' := by
  unfold llbufSIterNext at hnext
  unfold LlbufMemIter.next
  rw [hf.remaining]
  cases hremaining : view.remainingChildren with
  | zero =>
    rw [hremaining] at hnext
    cases hnext
    exact ⟨iter, rest, rfl, hf⟩
  | succ k =>
    rw [hremaining, hf.viewed] at hnext
    cases rest with
    | nil => cases hnext
    | cons b rest =>
      simp only [List.map_cons, Option.some.injEq, Prod.mk.injEq] at hnext
      obtain ⟨rfl, rfl⟩ := hnext
      rw [if_neg (Nat.succ_ne_zero k)]
      simp only [Nat.add_sub_cancel, Option.getD_some, ← hf.child b rfl]
      have hchild : Follows h llb (b :: rest) { iter with remainingChildren := k }
          { view with
            block := (b :: rest).map (childAddr llb.childSize)
            remainingChildren := k } :=
        ⟨hf.buffer, rfl, hf.room, rfl, hf.block, hf.child, hf.chain, hf.valid⟩
      by_cases hk : 0 < k
      · simp only [if_pos hk] at hmore ⊢
        by_cases hend : view.child + 1 = view.blockChildCount
        · simp only [if_pos hend] at hmore ⊢
          cases rest with
          | nil => exact absurd rfl (hmore hk)
          | cons b' rest =>
            have hacross := advance_across hfits hchild (hend.trans hf.room)
            simp only [hacross, Option.map_some]
            refine ⟨_, b' :: rest, rfl, hf.buffer, rfl, hf.room, rfl, rfl, ?_, hf.chain.2.2,
              fun c hc => hf.valid c (List.mem_cons_of_mem _ hc)⟩
            rintro c ⟨⟩
            rfl
        · simp only [if_neg hend]
          have hlt := Nat.lt_of_le_of_ne (hplace (hremaining ▸ Nat.succ_pos k)) (hf.room ▸ hend)
          have hwithin := advance_within hfits hchild hlt
          simp only [hwithin, Option.map_some]
          refine ⟨_, b :: rest, rfl, hf.buffer, rfl, hf.room, rfl, hf.block, ?_, hf.chain,
            hf.valid⟩
          rintro c ⟨⟩
          rfl
      · simp only [if_neg hk]
        exact ⟨_, b :: rest, rfl, hchild⟩

/-- The iterator over the view stands at an item, or behind the last one. -/
theorem view_next (hview : (llb.view blocks).Holds ptrs)
    (hroom : view.blockChildCount = llb.blockChildCount)
    (hat : view.At (llb.view blocks).blocks ptrs i) :
    (0 < view.remainingChildren → view.child < llb.blockChildCount) ∧
      ∃ view', llbufSIterNext view = some (ptrs[i]?, view') ∧
        view'.blockChildCount = llb.blockChildCount ∧
        view'.At (llb.view blocks).blocks ptrs (i + 1) ∧
        (0 < view'.remainingChildren → view'.block ≠ []) := by
  have hpos : 0 < view.blockChildCount := hroom ▸ hview.room
  have hitems : BlockHolds view.blockChildCount (llb.view blocks).blocks ptrs :=
    hroom ▸ hview.items
  constructor
  · intro hremaining
    rw [hat.remaining] at hremaining
    have hcursor := congrArg Prod.snd (hat.place (Nat.lt_of_sub_pos hremaining))
    rw [← hroom]
    exact (show view.child = i % view.blockChildCount from hcursor) ▸ Nat.mod_lt i hpos
  · rcases Nat.lt_or_ge i ptrs.length with hi | hi
    · obtain ⟨view', hnext, hcount, hat'⟩ := AffectedLemmas.iterNext_spec hpos hitems hat
      refine ⟨view', hnext, hcount.trans hroom, hat' hi, fun hremaining => ?_⟩
      rw [(hat' hi).remaining] at hremaining
      have hi' := Nat.lt_of_sub_pos hremaining
      rw [← hcount] at hitems
      obtain ⟨b, rest, hblock, -⟩ := hitems.head (List.getElem?_eq_getElem hi')
      have hcursor := congrArg Prod.fst ((hat' hi).place hi')
      rw [show view'.block = b :: rest from hcursor.trans hblock]
      exact List.cons_ne_nil b rest
    · have hzero : view.remainingChildren = 0 := hat.remaining.trans (Nat.sub_eq_zero_of_le hi)
      refine ⟨view, ?_, hroom, ⟨?_, fun hlt => ?_⟩, fun hremaining => ?_⟩
      · unfold llbufSIterNext
        rw [hzero, List.getElem?_eq_none hi]
      · rw [hzero, Nat.sub_eq_zero_of_le (Nat.le_succ_of_le hi)]
      · exact absurd (Nat.lt_of_succ_lt hlt) (Nat.not_lt.mpr hi)
      · exact absurd hzero (Nat.ne_of_gt hremaining)

/-- Each call returns the next child, and null behind the last one. -/
theorem calls_spec (hfits : llb.Fits) (hview : (llb.view blocks).Holds ptrs) (n : Nat)
    (hf : Follows h llb rest iter view) (hat : view.At (llb.view blocks).blocks ptrs i) :
    LlbufMemIter.calls h n iter = some ((List.range n).map fun k => ptrs.getD (i + k) 0) := by
  induction n generalizing rest iter view i with
  | zero => rfl
  | succ n ih =>
    obtain ⟨hplace, view', hnext, -, hat', hmore⟩ := view_next hview hf.room hat
    obtain ⟨iter', rest', hcall, hf'⟩ := hf.next hfits hnext hplace hmore
    have hrest := ih hf' hat'
    rw [LlbufMemIter.calls, hcall, Option.bind_some]
    simp only
    rw [hrest, Option.map_some, List.range_succ_eq_map, List.map_cons, List.map_map]
    simp only [Function.comp_def, Nat.add_zero, List.getD_eq_getElem?_getD, Nat.succ_eq_add_one,
      Nat.add_assoc, Nat.add_comm 1]

/-- A new iterator stands at the first child. -/
theorem follows_init (hblocks : Blocks h llb blocks) (hview : (llb.view blocks).Holds ptrs) :
    Follows h llb blocks (.init h llb) (initLlbufSIter (llb.view blocks)) := by
  refine ⟨rfl, rfl, rfl, rfl, hblocks.first, ?_, hblocks.chain, hblocks.valid⟩
  cases blocks with
  | nil => exact fun b hb => absurd hb (by simp)
  | cons b bs =>
    rintro _ ⟨⟩
    have hfirst : llb.first = b := hblocks.first
    have hdata : loadWord h.bytes (b + llbufDataOffset) = b + llbufSize := hblocks.chain.2.1
    have hpos := Nat.ne_of_gt (hblocks.valid b List.mem_cons_self).1
    show (if llb.first ≠ 0 then _ else _) = childAddr llb.childSize b 0
    rw [hfirst, if_pos hpos, hdata, childAddr, Nat.zero_mul, Nat.add_zero]

/-- A new buffer. -/
theorem holds_start {childSize blockChildCount : Nat} (pageSize : Nat) (h : Heap)
    (hchild : 0 < childSize) (hcount : 0 < blockChildCount)
    (hfits : llbufSize + blockChildCount * childSize < 2 ^ 64) :
    ∃ run, LlbufRun.start pageSize childSize blockChildCount h = some run ∧
      Holds run childSize blockChildCount [] := by
  have hstart : LlbufRun.start pageSize childSize blockChildCount h =
      some ⟨h, ⟨0, 0, 0, blockChildCount, 0, childSize⟩, []⟩ := by
    unfold LlbufRun.start LlbufMem.init
    rw [if_neg (Nat.ne_of_gt hchild), Option.map_some]
  refine ⟨_, hstart, rfl, rfl, ⟨hchild, hfits⟩, ?_, ?_, ?_⟩
  · exact ⟨rfl, rfl, trivial, fun b hb => absurd hb List.not_mem_nil, .nil,
      fun b hb => absurd hb List.not_mem_nil⟩
  · exact ⟨hcount, rfl, rfl, Nat.zero_le _, (Nat.zero_mul _).trans_le (Nat.zero_le _),
      blockHolds_nil⟩
  · exact fun c hc => absurd hc List.not_mem_nil

end Iterating

end LlbufMemory

open LlbufMemory in
/-- After any appends to a buffer of linked blocks, each with memory from wherever it is free or
without, no two children share bytes and each holds what it was filled with. The calls of an
iterator return the addresses of the children in the order of the appends, and null behind the last
one; no null pointer is followed. -/
theorem llbuf_s_iteration (pageSize : Nat) (h : Heap) (calls : List AppendCall)
    {childSize blockChildCount : Nat} (hchild : 0 < childSize) (hcount : 0 < blockChildCount)
    (hfits : llbufSize + blockChildCount * childSize < 2 ^ 64) :
    ∃ start run, LlbufRun.start pageSize childSize blockChildCount h = some start ∧
      calls.foldlM LlbufRun.append start = some run ∧
      (run.children.Pairwise fun c c' => Region.Apart ⟨c.1, childSize⟩ ⟨c'.1, childSize⟩) ∧
      (∀ c ∈ run.children,
        c.1 ≠ 0 ∧ load run.heap.bytes c.1 childSize = (List.range childSize).map c.2) ∧
      ∀ n, LlbufMemIter.calls run.heap n (.init run.heap run.llb) =
        some ((List.range n).map fun k => (run.children.map Prod.fst).getD k 0) := by
  obtain ⟨start, hstart, hempty⟩ := holds_start pageSize h hchild hcount hfits
  obtain ⟨run, blocks, hrun, hholds⟩ := hempty.appends calls
  refine ⟨start, run, hstart, hrun, ?_, fun c hc => ⟨?_, ?_⟩, fun n => ?_⟩
  · refine List.pairwise_iff_getElem.mpr fun i j hi hj hij => ?_
    have haddr : ∀ k (hk : k < run.children.length),
        (run.children.map Prod.fst)[k]? = some run.children[k].1 := by
      intro k hk
      rw [List.getElem?_map, List.getElem?_eq_getElem hk, Option.map_some]
    have hapart := children_apart hholds.view hholds.inBlocks.apart (haddr i hi) (haddr j hj) hij
    rwa [hholds.childSize] at hapart
  · obtain ⟨b, -, hlo, -⟩ := hholds.child_data hc
    exact Nat.ne_of_gt (Nat.lt_of_lt_of_le (Nat.add_pos_right b (by decide)) hlo)
  · have hcontent := hholds.contents c hc
    rwa [hholds.childSize] at hcontent
  · have hresult := calls_spec hholds.fits hholds.view n (follows_init hholds.inBlocks hholds.view)
      (AffectedLemmas.at_init hholds.view)
    simpa only [Nat.zero_add] using hresult

/-- Three appends, with memory at two places. -/
def sampleAppends : List AppendCall :=
  [⟨⟨4096, fun _ => 1⟩, fun i => UInt8.ofNat i⟩,
    ⟨⟨5120, fun _ => 2⟩, fun i => UInt8.ofNat (10 + i)⟩,
    ⟨⟨8192, fun _ => 3⟩, fun i => UInt8.ofNat (20 + i)⟩]

/-- The addresses of the children that appends give to a new buffer. -/
def appendedAddresses (childSize blockChildCount : Nat) (calls : List AppendCall) :
    Option (List Nat) :=
  (LlbufRun.start 4096 childSize blockChildCount ⟨fun _ => 0, []⟩).bind fun start =>
    (calls.foldlM LlbufRun.append start).map fun run => run.children.map Prod.fst

/-- Children of three bytes, two in a block. -/
theorem llbuf_s_iteration_two_blocks :
    appendedAddresses 3 2 sampleAppends = some [4112, 4115, 8208] ∧
      ∃ start run, LlbufRun.start 4096 3 2 ⟨fun _ => 0, []⟩ = some start ∧
        sampleAppends.foldlM LlbufRun.append start = some run ∧
        (run.children.Pairwise fun c c' => Region.Apart ⟨c.1, 3⟩ ⟨c'.1, 3⟩) ∧
        (∀ c ∈ run.children, c.1 ≠ 0 ∧ load run.heap.bytes c.1 3 = (List.range 3).map c.2) ∧
        ∀ n, LlbufMemIter.calls run.heap n (.init run.heap run.llb) =
          some ((List.range n).map fun k => (run.children.map Prod.fst).getD k 0) :=
  ⟨by decide +kernel,
    llbuf_s_iteration 4096 ⟨fun _ => 0, []⟩ sampleAppends (by decide) (by decide) (by decide)⟩

/-- Children without bytes are divided by. Where the size of a block wraps around, children of two
blocks share bytes. -/
theorem llbuf_s_children_overlap :
    appendedAddresses 0 2 sampleAppends = none ∧
      ∃ ptrs, appendedAddresses (2 ^ 63) 2 sampleAppends = some ptrs ∧
        ¬ ptrs.Pairwise fun p p' => Region.Apart ⟨p, 2 ^ 63⟩ ⟨p', 2 ^ 63⟩ :=
  ⟨by decide +kernel, [4112, 4112 + 2 ^ 63, 8208], by decide +kernel, by decide +kernel⟩

end Everarch
