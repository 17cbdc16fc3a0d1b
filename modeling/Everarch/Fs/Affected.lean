import Everarch.Fs.InodeSet
import Everarch.Fs.View
import Everarch.Lib.BlockList

/-!
# The seeds that a change affects

`evr_collect_affected_seeds` of evr-fs.c over the slots of the inode set. Inodes and seeds are
listed in buffers of linked blocks (`struct evr_llbuf_s` of dyn-mem.c).

* `LlbufS.Holds`: what a buffer lists;
* `AffectedLemmas.append_spec`, `AffectedLemmas.iterNext_spec`: it lists what is appended, and is
  read in that order;
* `AffectedLemmas.seedsLoop_spec`: the loop over the inodes lists what `addAffected` says;
* `affectedSeeds_complete`: the seeds that are listed, in however many blocks.

The inode set stays as it is while the seeds are collected.
-/

namespace Everarch

variable {α : Type}

/-! ## Buffers of linked blocks -/

/-- `struct evr_llbuf_s` with the memory of its blocks from `first` to `last`. -/
structure LlbufS (α : Type) where
  blocks : List (Nat → α)
  blockCount : Nat
  blockChildCount : Nat
  childCount : Nat

/-- `sizeof(struct evr_llbuf)`. -/
def llbufSize : Nat := 16

/-- `evr_init_llbuf_s`. -/
def initLlbufS (pageSize childSize : Nat) : LlbufS α :=
  ⟨[], 0, max 1 ((pageSize - llbufSize) / childSize), 0⟩

/-- `evr_llbuf_s_append` and what the caller writes into the new child. `malloc` is asked for the
memory of a new block, which holds anything. -/
def llbufSAppend (malloc : Nat → Option (Nat → α)) (llb : LlbufS α) (child : α) :
    Res × LlbufS α :=
  let grown :=
    if llb.blockCount * llb.blockChildCount < llb.childCount + 1 then
      (malloc llb.blockCount).map fun blk =>
        { llb with blocks := llb.blocks ++ [blk], blockCount := llb.blockCount + 1 }
    else some llb
  match grown with
  | none => (.error, llb)
  | some llb =>
    let blkChildIndex := llb.childCount % llb.blockChildCount
    (.ok, { llb with
      blocks := writeLast llb.blocks blkChildIndex child
      childCount := llb.childCount + 1 })

/-- `struct evr_llbuf_s_iter`: the block it is in with those behind it, and its place there. -/
structure LlbufSIter (α : Type) where
  blockChildCount : Nat
  block : List (Nat → α)
  child : Nat
  remainingChildren : Nat

/-- `evr_init_llbuf_s_iter`. -/
def initLlbufSIter (llb : LlbufS α) : LlbufSIter α :=
  ⟨llb.blockChildCount, llb.blocks, 0, llb.childCount⟩

/-- `evr_llbuf_s_iter_next`, none where it reads through a null pointer. -/
def llbufSIterNext (iter : LlbufSIter α) : Option (Option α × LlbufSIter α) :=
  match iter.remainingChildren with
  | 0 => some (none, iter)
  | remainingChildren + 1 =>
    match iter.block with
    | [] => none
    | block :: rest =>
      let iter := { iter with remainingChildren := remainingChildren }
      let next :=
        if 0 < remainingChildren then
          if iter.child + 1 = iter.blockChildCount then { iter with block := rest, child := 0 }
          else { iter with child := iter.child + 1 }
        else iter
      some (some (block iter.child), next)

/-- What a loop over the children visits, given enough rounds. -/
def llbufSVisit : Nat → LlbufSIter α → Option (List α)
  | 0, _ => none
  | fuel + 1, iter =>
    match llbufSIterNext iter with
    | none => none
    | some (none, _) => some []
    | some (some x, iter) => (llbufSVisit fuel iter).map (x :: ·)

/-- The children of a buffer in the order in which they are read. -/
def LlbufS.children (llb : LlbufS α) : Option (List α) :=
  llbufSVisit (llb.childCount + 1) (initLlbufSIter llb)

/-! ## Collecting -/

namespace InodeSet

/-- A slot is affected by a change of its seed or of a seed that its file was made with. -/
def affects (seed : ClaimRef) (nd : Inode) : Bool :=
  match nd.data with
  | .file f => seed = f.seed || f.dependentSeeds.any fun ds => seed = ds
  | _ => false

/-- The loop of `evr_collect_affected_inodes` over the slots that are left. -/
def collectInodesLoop (malloc : Nat → Option (Nat → Nat)) (s : InodeSet) (seed : ClaimRef) :
    List Nat → LlbufS Nat → Res × LlbufS Nat
  | [], affectedInodes => (.ok, affectedInodes)
  | nd :: nds, affectedInodes =>
    if affects seed (s.inodes nd) then
      match llbufSAppend malloc affectedInodes nd with
      | (.ok, affectedInodes) => collectInodesLoop malloc s seed nds affectedInodes
      | (_, affectedInodes) => (.error, affectedInodes)
    else collectInodesLoop malloc s seed nds affectedInodes

/-- `evr_collect_affected_inodes`. -/
def collectAffectedInodes (malloc : Nat → Option (Nat → Nat)) (s : InodeSet) (seed : ClaimRef)
    (affectedInodes : LlbufS Nat) : Res × LlbufS Nat :=
  s.collectInodesLoop malloc seed (List.range' fuseRootId (s.inodesLen - fuseRootId)) affectedInodes

/-- The loop of `evr_collect_affected_seeds` over the affected inodes. -/
def collectSeedsLoop (malloc : Nat → Option (Nat → ClaimRef)) (s : InodeSet) :
    Nat → LlbufSIter Nat → ClaimRefTinySet → LlbufS ClaimRef → Option (Res × LlbufS ClaimRef)
  | 0, _, _, _ => none
  | fuel + 1, inoIt, seedSet, affectedSeeds =>
    match llbufSIterNext inoIt with
    | none => none
    | some (none, _) => some (.ok, affectedSeeds)
    | some (some ino, inoIt) =>
      let seed := (s.inodes ino).data.stale.seed
      let (addRes, seedSet) := claimRefTinySetAdd seedSet seed
      if addRes = .exists_ then collectSeedsLoop malloc s fuel inoIt seedSet affectedSeeds
      else
        -- also where the set has no room left
        match llbufSAppend malloc affectedSeeds seed with
        | (.ok, affectedSeeds) => collectSeedsLoop malloc s fuel inoIt seedSet affectedSeeds
        | (_, affectedSeeds) => some (.error, affectedSeeds)

/-- What the system grants while seeds are collected. -/
structure CollectEnv where
  pageSize : Nat
  lock : Bool
  inodeBlock : Nat → Option (Nat → Nat)
  seedSet : Bool
  seedBlock : Nat → Option (Nat → ClaimRef)

/-- `evr_collect_affected_seeds`. -/
def collectAffectedSeeds (env : CollectEnv) (s : InodeSet) (affectedSeeds : LlbufS ClaimRef)
    (seed : ClaimRef) : Option (Res × LlbufS ClaimRef) :=
  if env.lock then
    match s.collectAffectedInodes env.inodeBlock seed (initLlbufS env.pageSize 8) with
    | (.ok, affectedInodes) =>
      if env.seedSet then
        match claimRefTinySetAdd (createClaimRefTinySet 128) seed with
        | (.ok, seedSet) =>
          match llbufSAppend env.seedBlock affectedSeeds seed with
          | (.ok, affectedSeeds) =>
            collectSeedsLoop env.seedBlock s (affectedInodes.childCount + 1)
              (initLlbufSIter affectedInodes) seedSet affectedSeeds
          | (_, affectedSeeds) => some (.error, affectedSeeds)
        | _ => some (.error, affectedSeeds)
      else some (.error, affectedSeeds)
    | _ => some (.error, affectedSeeds)
  else some (.error, affectedSeeds)

end InodeSet

/-- The file inode in a slot, called by the last part of its path. -/
def slotInode (nd : Inode) : FileInode :=
  let f := nd.data.stale
  ⟨⟨String.ofList nd.name, f.fileSize, f.fileRef, nd.created, nd.lastModified⟩, f.seed,
    f.dependentSeeds⟩

/-- The buffer lists the items. All of its blocks but the last are full. -/
structure LlbufS.Holds (llb : LlbufS α) (xs : List α) : Prop where
  room : 0 < llb.blockChildCount
  blockCount : llb.blockCount = llb.blocks.length
  childCount : llb.childCount = xs.length
  fits : xs.length ≤ llb.blocks.length * llb.blockChildCount
  needed : llb.blocks.length * llb.blockChildCount ≤ xs.length + llb.blockChildCount
  items : BlockHolds llb.blockChildCount llb.blocks xs

/-- Where an iterator over the items stands. -/
structure LlbufSIter.At (iter : LlbufSIter α) (blocks : List (Nat → α)) (xs : List α) (i : Nat) :
    Prop where
  remaining : iter.remainingChildren = xs.length - i
  place : i < xs.length → (iter.block, iter.child) = cursor iter.blockChildCount blocks i

namespace AffectedLemmas

variable {llb llb' : LlbufS α} {xs : List α}

theorem holds_init (pageSize childSize : Nat) :
    (initLlbufS pageSize childSize : LlbufS α).Holds [] where
  room := Nat.lt_of_lt_of_le Nat.zero_lt_one (Nat.le_max_left _ _)
  blockCount := rfl
  childCount := rfl
  fits := Nat.zero_le _
  needed := by
    simp [initLlbufS]
  items := blockHolds_nil

/-- A buffer with a place left in its last block. -/
theorem holds_write (h : llb.Holds xs) (hfree : xs.length < llb.blocks.length * llb.blockChildCount)
    (x : α) :
    LlbufS.Holds ⟨writeLast llb.blocks (llb.childCount % llb.blockChildCount) x, llb.blockCount,
      llb.blockChildCount, llb.childCount + 1⟩ (xs ++ [x]) := by
  have hpos : 0 < llb.blocks.length := by
    by_contra hzero
    rw [Nat.eq_zero_of_not_pos hzero, Nat.zero_mul] at hfree
    exact Nat.not_lt_zero _ hfree
  obtain ⟨k, hk⟩ := Nat.exists_eq_add_one_of_ne_zero (Nat.ne_of_gt hpos)
  have hneeded := h.needed
  rw [hk, Nat.succ_mul] at hneeded hfree
  have hlast : xs.length / llb.blockChildCount = k :=
    Nat.div_eq_of_lt_le (by omega) (by rw [Nat.succ_mul]; exact hfree)
  refine ⟨h.room, ?_, ?_, ?_, ?_, ?_⟩
  · simp only [length_writeLast]
    exact h.blockCount
  · simp only [h.childCount, List.length_append, List.length_singleton]
  · simp only [length_writeLast, List.length_append, List.length_singleton, hk, Nat.succ_mul]
    omega
  · simp only [length_writeLast, List.length_append, List.length_singleton, hk, Nat.succ_mul]
    omega
  · rw [h.childCount]
    exact h.items.append (by rw [hlast, hk]) x

/-- A full buffer with a new block, whatever its memory holds. -/
theorem holds_grow (h : llb.Holds xs) (hfull : llb.blocks.length * llb.blockChildCount ≤ xs.length)
    (blk : Nat → α) :
    LlbufS.Holds ⟨llb.blocks ++ [blk], llb.blockCount + 1, llb.blockChildCount, llb.childCount⟩
      xs := by
  have hfits := h.fits
  refine ⟨h.room, ?_, h.childCount, ?_, ?_, h.items.grow blk⟩
  · simp only [h.blockCount, List.length_append, List.length_singleton]
  · simp only [List.length_append, List.length_singleton, Nat.add_mul, Nat.one_mul]
    omega
  · simp only [List.length_append, List.length_singleton, Nat.add_mul, Nat.one_mul]
    omega

/-- What is appended comes last. -/
theorem append_spec (malloc : Nat → Option (Nat → α)) (h : llb.Holds xs) (x : α) :
    (∃ llb', llbufSAppend malloc llb x = (.ok, llb') ∧ llb'.Holds (xs ++ [x])) ∨
      (llbufSAppend malloc llb x = (.error, llb) ∧ malloc llb.blockCount = none) := by
  unfold llbufSAppend
  by_cases hgrow : llb.blockCount * llb.blockChildCount < llb.childCount + 1
  · rw [if_pos hgrow]
    cases hmem : malloc llb.blockCount with
    | none => exact .inr ⟨rfl, rfl⟩
    | some blk =>
      have hroom := h.room
      have hfits := h.fits
      rw [h.blockCount, h.childCount] at hgrow
      have hgrown := holds_grow h (Nat.le_of_lt_succ hgrow) blk
      refine .inl ⟨_, rfl, holds_write hgrown ?_ x⟩
      simp only [List.length_append, List.length_singleton, Nat.add_mul, Nat.one_mul]
      omega
  · rw [if_neg hgrow]
    refine .inl ⟨_, rfl, holds_write h ?_ x⟩
    rw [h.blockCount, h.childCount] at hgrow
    omega

theorem at_init (h : llb.Holds xs) : (initLlbufSIter llb).At llb.blocks xs 0 where
  remaining := h.childCount
  place _ := by
    simp [initLlbufSIter, cursor]

/-- The iterator finds the items in order. -/
theorem iterNext_spec {iter : LlbufSIter α} {blocks : List (Nat → α)} {i : Nat}
    (hsize : 0 < iter.blockChildCount) (hitems : BlockHolds iter.blockChildCount blocks xs)
    (h : iter.At blocks xs i) :
    ∃ iter', llbufSIterNext iter = some (xs[i]?, iter') ∧
      iter'.blockChildCount = iter.blockChildCount ∧ (i < xs.length → iter'.At blocks xs (i + 1)) := by
  have hremaining := h.remaining
  by_cases hi : i < xs.length
  · obtain ⟨b, rest, hblock, hx⟩ := hitems.head (List.getElem?_eq_getElem hi)
    have hplace := h.place hi
    rw [← hplace] at hblock hx
    obtain ⟨k, hk⟩ := Nat.exists_eq_add_one_of_ne_zero (Nat.sub_ne_zero_of_lt hi)
    rw [hk] at hremaining
    simp only at hblock hx
    rw [List.getElem?_eq_getElem hi, ← hx]
    unfold llbufSIterNext
    rw [hremaining, hblock]
    refine ⟨_, rfl, ?_, fun _ => ⟨?_, fun hnext => ?_⟩⟩
    · split_ifs <;> rfl
    · split_ifs <;> exact (by omega : k = xs.length - (i + 1))
    · have hmore : 0 < k := by omega
      have hcursor := cursor_next hsize blocks i
      rw [← hplace, hblock] at hcursor
      simp only [if_pos hmore] at hcursor ⊢
      split_ifs with hend
      · rw [if_pos hend] at hcursor
        exact hcursor.symm
      · rw [if_neg hend] at hcursor
        exact hcursor.symm
  · have hle := Nat.le_of_not_lt hi
    rw [Nat.sub_eq_zero_of_le hle] at hremaining
    refine ⟨iter, ?_, rfl, fun hlt => absurd hlt hi⟩
    unfold llbufSIterNext
    rw [hremaining, List.getElem?_eq_none hle]

theorem visit_spec {iter : LlbufSIter α} {blocks : List (Nat → α)} {i : Nat} (fuel : Nat)
    (hsize : 0 < iter.blockChildCount) (hitems : BlockHolds iter.blockChildCount blocks xs)
    (h : iter.At blocks xs i) (hfuel : xs.length - i < fuel) :
    llbufSVisit fuel iter = some (xs.drop i) := by
  induction fuel generalizing iter i with
  | zero => exact absurd hfuel (Nat.not_lt_zero _)
  | succ fuel ih =>
    obtain ⟨iter', hnext, hcount, hat⟩ := iterNext_spec hsize hitems h
    rw [llbufSVisit, hnext]
    by_cases hi : i < xs.length
    · rw [List.getElem?_eq_getElem hi, List.drop_eq_getElem_cons hi]
      simp only
      rw [← hcount] at hsize hitems
      rw [ih hsize hitems (hat hi) (by omega)]
      rfl
    · have hle := Nat.le_of_not_lt hi
      rw [List.getElem?_eq_none hle, List.drop_eq_nil_iff.mpr hle]

/-- A buffer is read in the order in which it was filled. -/
theorem children_eq (h : llb.Holds xs) : llb.children = some xs := by
  have hvisit := visit_spec (llb.childCount + 1) h.room h.items (at_init h) (by rw [h.childCount]; omega)
  rwa [List.drop_zero] at hvisit

/-! ## The loops -/

open InodeSet in
theorem collectInodesLoop_spec (malloc : Nat → Option (Nat → Nat)) (s : InodeSet) (seed : ClaimRef)
    (nds : List Nat) {llb : LlbufS Nat} {xs : List Nat} (h : llb.Holds xs) :
    (∃ llb', s.collectInodesLoop malloc seed nds llb = (.ok, llb') ∧
        llb'.Holds (xs ++ nds.filter fun nd => affects seed (s.inodes nd))) ∨
      ∃ llb', s.collectInodesLoop malloc seed nds llb = (.error, llb') ∧ ∃ k, malloc k = none := by
  induction nds generalizing llb xs with
  | nil =>
    rw [List.filter_nil, List.append_nil]
    exact .inl ⟨llb, rfl, h⟩
  | cons nd nds ih =>
    rw [collectInodesLoop]
    by_cases haff : affects seed (s.inodes nd) = true
    · rw [if_pos haff, List.filter_cons_of_pos (p := fun nd => affects seed (s.inodes nd)) haff]
      rcases append_spec malloc h nd with ⟨llb', happend, hholds⟩ | ⟨happend, hmem⟩
      · have hrest := ih hholds
        rw [List.append_assoc] at hrest
        rw [happend]
        exact hrest
      · rw [happend]
        exact .inr ⟨llb, rfl, _, hmem⟩
    · rw [if_neg haff, List.filter_cons_of_neg (p := fun nd => affects seed (s.inodes nd)) haff]
      exact ih h

/-- The loop over the inodes lists the seeds that are new to the set, and those that it has no room
for. -/
theorem seedsLoop_spec (malloc : Nat → Option (Nat → ClaimRef)) (s : InodeSet) (fuel : Nat)
    {inos : List Nat} {blocks : List (Nat → Nat)} {iter : LlbufSIter Nat} {i : Nat}
    (hsize : 0 < iter.blockChildCount) (hitems : BlockHolds iter.blockChildCount blocks inos)
    (hat : iter.At blocks inos i) (hfuel : inos.length - i < fuel) (set : ClaimRefTinySet)
    {llb : LlbufS ClaimRef} {listed : List ClaimRef} (h : llb.Holds listed) :
    ∃ res out, s.collectSeedsLoop malloc fuel iter set llb = some (res, out) ∧
      (res = .ok ∧
          out.Holds (addAffected set listed ((inos.drop i).map fun n => slotInode (s.inodes n))) ∨
        res = .error ∧ ∃ k, malloc k = none) := by
  induction fuel generalizing iter i set llb listed with
  | zero => exact absurd hfuel (Nat.not_lt_zero _)
  | succ fuel ih =>
    obtain ⟨iter', hnext, hcount, hat'⟩ := iterNext_spec hsize hitems hat
    rw [InodeSet.collectSeedsLoop, hnext]
    by_cases hi : i < inos.length
    · rw [List.getElem?_eq_getElem hi, List.drop_eq_getElem_cons hi, List.map_cons, addAffected]
      simp only
      rw [← hcount] at hsize hitems
      have hless : inos.length - (i + 1) < fuel := by omega
      show ∃ res out, (if (claimRefTinySetAdd set (slotInode (s.inodes inos[i])).seed).1 = .exists_
        then _ else _) = _ ∧ _
      by_cases hknown :
          (claimRefTinySetAdd set (slotInode (s.inodes inos[i])).seed).1 = .exists_
      · rw [if_pos hknown, if_pos hknown]
        exact ih hsize hitems (hat' hi) hless _ h
      · rw [if_neg hknown, if_neg hknown]
        rcases append_spec malloc h (slotInode (s.inodes inos[i])).seed with
          ⟨llb', happend, hholds⟩ | ⟨happend, hmem⟩
        · rw [show llbufSAppend malloc llb (s.inodes inos[i]).data.stale.seed = (.ok, llb') from
            happend]
          exact ih hsize hitems (hat' hi) hless _ hholds
        · rw [show llbufSAppend malloc llb (s.inodes inos[i]).data.stale.seed = (.error, llb) from
            happend]
          exact ⟨_, _, rfl, .inr ⟨rfl, _, hmem⟩⟩
    · have hle := Nat.le_of_not_lt hi
      rw [List.getElem?_eq_none hle, List.drop_eq_nil_iff.mpr hle]
      exact ⟨.ok, llb, rfl, .inl ⟨rfl, h⟩⟩

theorem affects_iff {seed : ClaimRef} {nd : Inode} :
    InodeSet.affects seed nd = true ↔
      ∃ f, nd.data = .file f ∧ (f.seed = seed ∨ seed ∈ f.dependentSeeds) := by
  unfold InodeSet.affects
  cases hdata : nd.data with
  | file f =>
    simp only [Bool.or_eq_true, decide_eq_true_eq, List.any_eq_true]
    constructor
    · rintro (rfl | ⟨ds, hds, rfl⟩)
      · exact ⟨f, rfl, .inl rfl⟩
      · exact ⟨f, rfl, .inr hds⟩
    · rintro ⟨f', hf', hseed⟩
      cases hf'
      exact hseed.imp Eq.symm fun hmem => ⟨seed, hmem, rfl⟩
  | unlinked => simp
  | dir children => simp
  | statusOnline f => simp

/-- The seeds of the affected slots, together with the changed one. -/
theorem mem_listed {s : InodeSet} {seed r : ClaimRef} {set : ClaimRefTinySet}
    (hset : ∀ r' ∈ set.refs, r' ∈ [seed]) :
    r ∈ addAffected set [seed] (((List.range' fuseRootId (s.inodesLen - fuseRootId)).filter
        fun nd => InodeSet.affects seed (s.inodes nd)).map fun n => slotInode (s.inodes n)) ↔
      r = seed ∨ ∃ n f, fuseRootId ≤ n ∧ n < s.inodesLen ∧ (s.inodes n).data = .file f ∧
        f.seed = r ∧ (f.seed = seed ∨ seed ∈ f.dependentSeeds) := by
  rw [ViewLemmas.mem_addAffected _ _ _ hset, List.mem_singleton]
  refine or_congr_right ?_
  simp only [List.mem_map, List.mem_filter, List.mem_range'_1, affects_iff]
  constructor
  · rintro ⟨_, ⟨n, ⟨⟨hlo, hhi⟩, f, hf, haff⟩, rfl⟩, rfl⟩
    refine ⟨n, f, hlo, by omega, hf, ?_, haff⟩
    rw [slotInode, hf]
    rfl
  · rintro ⟨n, f, hlo, hhi, hf, rfl, haff⟩
    refine ⟨_, ⟨n, ⟨⟨hlo, by omega⟩, f, hf, haff⟩, rfl⟩, ?_⟩
    rw [slotInode, hf]
    rfl

end AffectedLemmas

open AffectedLemmas

/-- Whatever the inode set holds, the seeds that are listed for a changed seed are that seed and the
seeds of the files that were made with it, in however many blocks they are listed and also where
more seeds are affected than the set has room for. Collecting ends, and it fails only where the lock
or memory is not granted. -/
theorem affectedSeeds_complete (env : InodeSet.CollectEnv) (s : InodeSet) (seed : ClaimRef) :
    ∃ res affected,
      s.collectAffectedSeeds env (initLlbufS env.pageSize claimRefSize) seed =
        some (res, affected) ∧
      (res = .ok → ∃ seeds, affected.children = some seeds ∧
        ∀ r, r ∈ seeds ↔ r = seed ∨ ∃ n f, fuseRootId ≤ n ∧ n < s.inodesLen ∧
          (s.inodes n).data = .file f ∧ f.seed = r ∧
          (f.seed = seed ∨ seed ∈ f.dependentSeeds)) ∧
      (env.lock = true → env.seedSet = true → (∀ k, env.inodeBlock k ≠ none) →
        (∀ k, env.seedBlock k ≠ none) → res = .ok) := by
  unfold InodeSet.collectAffectedSeeds InodeSet.collectAffectedInodes
  cases hlock : env.lock with
  | false => exact ⟨_, _, rfl, fun h => Res.noConfusion h, fun h => Bool.noConfusion h⟩
  | true =>
  rw [if_pos rfl]
  rcases collectInodesLoop_spec env.inodeBlock s seed
      (List.range' fuseRootId (s.inodesLen - fuseRootId)) (holds_init env.pageSize 8) with
    ⟨inodes, hcollect, hinodes⟩ | ⟨inodes, hcollect, k, hmem⟩
  · rw [hcollect]
    cases hset : env.seedSet with
    | false => exact ⟨_, _, rfl, fun h => Res.noConfusion h, fun _ h => Bool.noConfusion h⟩
    | true =>
    have hadd := @TinySetLemmas.add_of_notMem (createClaimRefTinySet 128) seed
      List.not_mem_nil (by decide)
    simp only [if_pos, hadd]
    rcases append_spec env.seedBlock (holds_init env.pageSize claimRefSize) seed with
      ⟨listed, happend, hlisted⟩ | ⟨happend, hmem⟩
    · rw [happend]
      obtain ⟨res, out, hrun, hspec⟩ := seedsLoop_spec env.seedBlock s
        (inodes.childCount + 1) hinodes.room hinodes.items (at_init hinodes)
        (by rw [hinodes.childCount]; omega) _ hlisted
      refine ⟨res, out, hrun, fun hok => ?_, fun _ _ _ hblocks => ?_⟩
      · rcases hspec with ⟨-, hholds⟩ | ⟨rfl, -⟩
        · refine ⟨_, children_eq hholds, fun r => ?_⟩
          rw [List.drop_zero, List.nil_append]
          exact mem_listed fun r' hr' => by simpa [createClaimRefTinySet] using hr'
        · cases hok
      · rcases hspec with ⟨rfl, -⟩ | ⟨-, k, hk⟩
        · rfl
        · exact absurd hk (hblocks k)
    · rw [happend]
      exact ⟨_, _, rfl, fun h => Res.noConfusion h, fun _ _ _ hblocks => absurd hmem (hblocks _)⟩
  · rw [hcollect]
    exact ⟨_, _, rfl, fun h => Res.noConfusion h, fun _ _ hblocks => absurd hmem (hblocks k)⟩

end Everarch
