import Everarch.Basic
import Everarch.Lib.Bytes
import Everarch.Lib.Run

/-!
# Comparing two storages

The loop of `evr_cli_sync` that reads the refs of two storages in ascending order and hands
over those that only one of them has.

* `compareSides`: what one pass of the loop does after it has read.
* `Comparison.step`: a pass, with the streams that are ready to be read.
* `Split`: the refs handed over so far and those that the streams still differ in are those
  that the storages differ in.

Result: `sync_hands_over_difference`.
-/

namespace Everarch

/-! ## Refs -/

/-- `memcmp` on buffers of one length. -/
def memcmp : Bytes → Bytes → Ordering
  | a :: as, b :: bs => if a = b then memcmp as bs else if a < b then .lt else .gt
  | _, _ => .eq

/-- `evr_cmp_blob_ref`. -/
def evrCmpBlobRef (a b : BlobRef) : Ordering :=
  memcmp a.toList b.toList

/-- Refs in strictly ascending order. -/
def Ascending (refs : List BlobRef) : Prop :=
  refs.Pairwise fun a b => evrCmpBlobRef a b = .lt

instance (refs : List BlobRef) : Decidable (Ascending refs) :=
  inferInstanceAs (Decidable (List.Pairwise _ _))

/-! ## The loop -/

/-- `sync_state_want_ref`, `sync_state_has_ref` with the ref that was read, and
`sync_state_end`. -/
inductive SideState where
  | want
  | has (ref : BlobRef)
  | end_
deriving DecidableEq

/-- `sync_dir_src_to_dst` and `sync_dir_dst_to_src`. -/
inductive SyncDir where
  | srcToDst
  | dstToSrc
deriving DecidableEq, Repr

/-- What is handed over to the workers. -/
structure SyncItem where
  dir : SyncDir
  ref : BlobRef
deriving DecidableEq

/-- What the loop does after it has read: read more, end, or go on with other states, after
an item was handed over or without. -/
inductive Compared where
  | again
  | stop
  | go (item : Option SyncItem) (src dst : SideState)
deriving DecidableEq

/-- `ref_cmp`. -/
def refCmp : SideState → SideState → Ordering
  | .has a, .has b => evrCmpBlobRef a b
  | .has _, _ => .lt
  | _, _ => .gt

/-- The part of the loop behind the reads. -/
def compareSides (twoWay : Bool) (src dst : SideState) : Compared :=
  if src = .want ∨ dst = .want then .again
  else if src = .end_ ∧ dst = .end_ then .stop
  else
    match refCmp src dst, src, dst with
    | .eq, _, _ => .go none .want .want
    | .lt, .has ref, _ => .go (some ⟨.srcToDst, ref⟩) .want dst
    | .gt, _, .has ref => .go (if twoWay then some ⟨.dstToSrc, ref⟩ else none) src .want
    | _, _, _ => .go none src dst

/-- The states of the loop, the refs still to be read and those handed over so far. -/
structure Comparison where
  src : SideState
  dst : SideState
  srcRest : List BlobRef
  dstRest : List BlobRef
  handed : List SyncItem
  stopped : Bool

namespace Comparison

def start (src dst : List BlobRef) : Comparison :=
  ⟨.want, .want, src, dst, [], false⟩

/-- A read of the next ref. -/
def readSide : List BlobRef → SideState × List BlobRef
  | [] => (.end_, [])
  | ref :: rest => (.has ref, rest)

/-- A stream is read if the loop wants a ref of it and it is ready. Both count as ready if one
of them has buffered data, as `select` is not called then. -/
def readIfReady (side : SideState) (rest : List BlobRef) (ready : Bool) :
    SideState × List BlobRef :=
  if side = .want ∧ ready then readSide rest else (side, rest)

/-- One pass of the loop. -/
def step (twoWay : Bool) (s : Comparison) (ready : Bool × Bool) : Comparison :=
  if s.stopped then s
  else
    let src := readIfReady s.src s.srcRest ready.1
    let dst := readIfReady s.dst s.dstRest ready.2
    match compareSides twoWay src.1 dst.1 with
    | .again => ⟨src.1, dst.1, src.2, dst.2, s.handed, false⟩
    | .stop => ⟨src.1, dst.1, src.2, dst.2, s.handed, true⟩
    | .go item src' dst' => ⟨src', dst', src.2, dst.2, s.handed ++ item.toList, false⟩

/-- `select` returns if a stream that the loop wants a ref of is ready. -/
def Woken (s : Comparison) (ready : Bool × Bool) : Prop :=
  s.src = .want ∧ ready.1 ∨ s.dst = .want ∧ ready.2

instance (s : Comparison) (ready : Bool × Bool) : Decidable (s.Woken ready) :=
  inferInstanceAs (Decidable (_ ∨ _))

end Comparison

/-- The refs that were handed over in a direction. -/
def handedTo (dir : SyncDir) (handed : List SyncItem) : List BlobRef :=
  (handed.filter fun item => item.dir = dir).map (·.ref)

/-- The refs that only the first of two storages has. -/
def difference (refs refs' : List BlobRef) : List BlobRef :=
  refs.filter fun ref => ref ∉ refs'

namespace CompareLemmas

/-! ## The order of refs -/

theorem memcmp_eq_compare {as bs : Bytes} (h : as.length = bs.length) :
    memcmp as bs = compare (ofBeBytes as) (ofBeBytes bs) := by
  induction as generalizing bs with
  | nil =>
    rw [List.length_eq_zero_iff.mp h.symm]
    rfl
  | cons a as ih =>
    cases bs with
    | nil => cases h
    | cons b bs =>
      have hlen : as.length = bs.length := Nat.succ.inj h
      have hlt := ofBeBytes_lt as
      have hlt' := ofBeBytes_lt bs
      rw [hlen] at hlt
      unfold memcmp
      rw [ofBeBytes_cons, ofBeBytes_cons, hlen]
      -- the first byte that differs decides
      have hfirst {x y m n : Nat} (hm : m < 256 ^ bs.length) (hxy : x < y) :
          x * 256 ^ bs.length + m < y * 256 ^ bs.length + n :=
        calc x * 256 ^ bs.length + m < x * 256 ^ bs.length + 256 ^ bs.length :=
              Nat.add_lt_add_left hm _
          _ = (x + 1) * 256 ^ bs.length := (Nat.succ_mul ..).symm
          _ ≤ y * 256 ^ bs.length := Nat.mul_le_mul_right _ hxy
          _ ≤ y * 256 ^ bs.length + n := Nat.le_add_right ..
      split
      · next heq =>
        subst heq
        rw [ih hlen]
        rcases lt_trichotomy (ofBeBytes as) (ofBeBytes bs) with h | h | h
        · rw [Nat.compare_eq_lt.mpr h, Nat.compare_eq_lt.mpr (Nat.add_lt_add_left h _)]
        · rw [h]
          exact (Nat.compare_eq_eq.mpr rfl).trans (Nat.compare_eq_eq.mpr rfl).symm
        · rw [Nat.compare_eq_gt.mpr h, Nat.compare_eq_gt.mpr (Nat.add_lt_add_left h _)]
      · split
        · next hab => exact (Nat.compare_eq_lt.mpr (hfirst hlt hab)).symm
        · next hne hab =>
          have hba : b.toNat < a.toNat :=
            lt_of_le_of_ne (Nat.not_lt.mp hab) fun heq => hne (UInt8.toNat_inj.mp heq).symm
          exact (Nat.compare_eq_gt.mpr (hfirst hlt' hba)).symm

variable {a b c : BlobRef}

theorem cmp_eq_compare (a b : BlobRef) :
    evrCmpBlobRef a b = compare (ofBeBytes a.toList) (ofBeBytes b.toList) :=
  memcmp_eq_compare (a.length_toList.trans b.length_toList.symm)

theorem cmp_eq_iff : evrCmpBlobRef a b = .eq ↔ a = b := by
  rw [cmp_eq_compare, Nat.compare_eq_eq]
  constructor
  · intro h
    exact Vector.toList_inj.mp (ofBeBytes_inj (a.length_toList.trans b.length_toList.symm) h)
  · rintro rfl
    rfl

theorem cmp_lt_iff : evrCmpBlobRef a b = .lt ↔ ofBeBytes a.toList < ofBeBytes b.toList := by
  rw [cmp_eq_compare, Nat.compare_eq_lt]

theorem cmp_gt_iff : evrCmpBlobRef a b = .gt ↔ evrCmpBlobRef b a = .lt := by
  rw [cmp_lt_iff, cmp_eq_compare, Nat.compare_eq_gt]

theorem cmp_trans (hab : evrCmpBlobRef a b = .lt) (hbc : evrCmpBlobRef b c = .lt) :
    evrCmpBlobRef a c = .lt := by
  rw [cmp_lt_iff] at *
  exact Nat.lt_trans hab hbc

theorem ne_of_cmp (h : evrCmpBlobRef a b = .lt) : a ≠ b := by
  rintro rfl
  exact Nat.lt_irrefl _ (cmp_lt_iff.mp h)

/-! ## Differences -/

section Difference

variable {refs refs' : List BlobRef}

theorem difference_cons_left (h : a ∉ refs') :
    difference (a :: refs) refs' = a :: difference refs refs' :=
  List.filter_cons_of_pos (decide_eq_true h)

theorem difference_cons_right (h : a ∉ refs) :
    difference refs (a :: refs') = difference refs refs' := by
  refine List.filter_congr fun b hb => ?_
  have hne : b ≠ a := fun heq => h (heq ▸ hb)
  rw [decide_eq_decide, List.mem_cons, not_or]
  exact and_iff_right hne

theorem difference_cons_both (h : a ∉ refs) :
    difference (a :: refs) (a :: refs') = difference refs refs' := by
  rw [← difference_cons_right h]
  exact List.filter_cons_of_neg (by simp)

theorem ascending_notMem (h : Ascending (a :: refs)) : a ∉ refs := by
  intro hmem
  exact ne_of_cmp ((List.pairwise_cons.mp h).1 a hmem) rfl

/-- What is below the first of ascending refs is below all of them. -/
theorem ascending_below (h : Ascending (b :: refs)) (hab : evrCmpBlobRef a b = .lt) :
    ∀ c ∈ b :: refs, evrCmpBlobRef a c = .lt := by
  intro c hc
  rcases List.mem_cons.mp hc with rfl | hc
  · exact hab
  · exact cmp_trans hab ((List.pairwise_cons.mp h).1 c hc)

end Difference

/-! ## The invariant -/

theorem handedTo_append (dir : SyncDir) (handed handed' : List SyncItem) :
    handedTo dir (handed ++ handed') = handedTo dir handed ++ handedTo dir handed' := by
  unfold handedTo
  rw [List.filter_append, List.map_append]

/-- The refs handed over so far and those in which the refs still to be compared differ are
those in which the storages differ. -/
structure Split (twoWay : Bool) (src dst : List BlobRef) (handed : List SyncItem)
    (srcLeft dstLeft : List BlobRef) : Prop where
  toDst : handedTo .srcToDst handed ++ difference srcLeft dstLeft = difference src dst
  toSrc : handedTo .dstToSrc handed ++ (if twoWay then difference dstLeft srcLeft else []) =
    if twoWay then difference dst src else []
  srcAsc : Ascending (handed.map (·.ref) ++ srcLeft)
  dstAsc : Ascending (handed.map (·.ref) ++ dstLeft)

section Split

variable {twoWay : Bool} {src dst srcLeft dstLeft : List BlobRef} {handed : List SyncItem}

theorem ascending_sublist {refs refs' : List BlobRef} (h : Ascending refs')
    (hsub : refs.Sublist refs') : Ascending refs :=
  List.Pairwise.sublist hsub h

theorem ascending_left {refs refs' : List BlobRef} (h : Ascending (refs ++ refs')) :
    Ascending refs' :=
  ascending_sublist h (List.sublist_append_right ..)

/-- Both storages have the ref. -/
theorem split_both (h : Split twoWay src dst handed (a :: srcLeft) (a :: dstLeft)) :
    Split twoWay src dst handed srcLeft dstLeft where
  toDst := by
    rw [← h.toDst, difference_cons_both (ascending_notMem (ascending_left h.srcAsc))]
  toSrc := by
    rw [← h.toSrc, difference_cons_both (ascending_notMem (ascending_left h.dstAsc))]
  srcAsc := ascending_sublist h.srcAsc ((List.sublist_cons_self ..).append_left _)
  dstAsc := ascending_sublist h.dstAsc ((List.sublist_cons_self ..).append_left _)

/-- A ref can be handed over that is not above those still to be compared. -/
theorem ascending_handed {refs : List BlobRef} (h : Ascending (handed.map (·.ref) ++ refs))
    (hbelow : ∀ c ∈ refs, evrCmpBlobRef a c = .lt)
    (habove : ∀ item ∈ handed, evrCmpBlobRef item.ref a = .lt) (dir : SyncDir) :
    Ascending ((handed ++ [SyncItem.mk dir a]).map (·.ref) ++ refs) := by
  rw [List.map_append, List.append_assoc]
  obtain ⟨hhanded, hrefs, hcross⟩ := List.pairwise_append.mp h
  refine List.pairwise_append.mpr ⟨hhanded, List.pairwise_cons.mpr ⟨hbelow, hrefs⟩, ?_⟩
  intro b hb c hc
  rcases List.mem_cons.mp hc with rfl | hc
  · obtain ⟨item, hitem, rfl⟩ := List.mem_map.mp hb
    exact habove item hitem
  · exact hcross b hb c hc

theorem handed_below (h : Ascending (handed.map (·.ref) ++ a :: srcLeft)) :
    ∀ item ∈ handed, evrCmpBlobRef item.ref a = .lt := by
  intro item hitem
  exact (List.pairwise_append.mp h).2.2 _ (List.mem_map_of_mem hitem) a List.mem_cons_self

/-- Only the source has the ref. -/
theorem split_src (h : Split twoWay src dst handed (a :: srcLeft) dstLeft)
    (hbelow : ∀ c ∈ dstLeft, evrCmpBlobRef a c = .lt) :
    Split twoWay src dst (handed ++ [⟨.srcToDst, a⟩]) srcLeft dstLeft := by
  have hnot : a ∉ dstLeft := fun hmem => ne_of_cmp (hbelow a hmem) rfl
  refine ⟨?_, ?_, ?_, ?_⟩
  · rw [← h.toDst, difference_cons_left hnot, handedTo_append, List.append_assoc]
    rfl
  · rw [← h.toSrc, difference_cons_right hnot, handedTo_append]
    exact congrArg (· ++ _) (List.append_nil _)
  · rw [List.map_append, List.append_assoc]
    exact h.srcAsc
  · exact ascending_handed h.dstAsc hbelow (handed_below h.srcAsc) _

/-- Only the destination has the ref, and the source gets it. -/
theorem split_dst (h : Split true src dst handed srcLeft (a :: dstLeft))
    (hbelow : ∀ c ∈ srcLeft, evrCmpBlobRef a c = .lt) :
    Split true src dst (handed ++ [⟨.dstToSrc, a⟩]) srcLeft dstLeft := by
  have hnot : a ∉ srcLeft := fun hmem => ne_of_cmp (hbelow a hmem) rfl
  refine ⟨?_, ?_, ?_, ?_⟩
  · rw [← h.toDst, difference_cons_right hnot, handedTo_append]
    exact congrArg (· ++ _) (List.append_nil _)
  · rw [← h.toSrc, difference_cons_left hnot, handedTo_append, List.append_assoc]
    rfl
  · exact ascending_handed h.srcAsc hbelow (handed_below h.dstAsc) _
  · rw [List.map_append, List.append_assoc]
    exact h.dstAsc

/-- Only the destination has the ref, and the source does not get it. -/
theorem split_skip (h : Split false src dst handed srcLeft (a :: dstLeft))
    (hbelow : ∀ c ∈ srcLeft, evrCmpBlobRef a c = .lt) :
    Split false src dst handed srcLeft dstLeft where
  toDst := by
    have hnot : a ∉ srcLeft := fun hmem => ne_of_cmp (hbelow a hmem) rfl
    rw [← h.toDst, difference_cons_right hnot]
  toSrc := h.toSrc
  srcAsc := h.srcAsc
  dstAsc := ascending_sublist h.dstAsc ((List.sublist_cons_self ..).append_left _)

/-- What the loop does with a ref that only the destination has. -/
theorem split_above (h : Split twoWay src dst handed srcLeft (a :: dstLeft))
    (hbelow : ∀ c ∈ srcLeft, evrCmpBlobRef a c = .lt) :
    Split twoWay src dst
      (handed ++ (if twoWay then some (SyncItem.mk .dstToSrc a) else none).toList)
      srcLeft dstLeft := by
  cases twoWay with
  | false => exact (List.append_nil handed).symm ▸ split_skip h hbelow
  | true => exact split_dst h hbelow

end Split

/-- The refs of a stream that were not compared yet. -/
def left (side : SideState) (rest : List BlobRef) : List BlobRef :=
  match side with
  | .has ref => ref :: rest
  | .want | .end_ => rest

/-- The invariant of the loop. -/
structure CompareOk (twoWay : Bool) (src dst : List BlobRef) (s : Comparison) : Prop where
  split : Split twoWay src dst s.handed (left s.src s.srcRest) (left s.dst s.dstRest)
  srcEnd : s.src = .end_ → s.srcRest = []
  dstEnd : s.dst = .end_ → s.dstRest = []
  stopped : s.stopped = true → s.src = .end_ ∧ s.dst = .end_
  wants : s.stopped = false → s.src = .want ∨ s.dst = .want

theorem left_readIfReady (side : SideState) (rest : List BlobRef) (ready : Bool) :
    left (Comparison.readIfReady side rest ready).1 (Comparison.readIfReady side rest ready).2 =
      left side rest := by
  unfold Comparison.readIfReady
  split
  · next h =>
    rw [h.1]
    cases rest with
    | nil => rfl
    | cons ref rest => rfl
  · rfl

theorem end_readIfReady {side : SideState} {rest : List BlobRef} (h : side = .end_ → rest = [])
    (ready : Bool) (hend : (Comparison.readIfReady side rest ready).1 = .end_) :
    (Comparison.readIfReady side rest ready).2 = [] := by
  unfold Comparison.readIfReady at *
  by_cases hread : side = .want ∧ ready
  · rw [if_pos hread] at *
    cases rest with
    | nil => rfl
    | cons ref rest => cases hend
  · rw [if_neg hread] at *
    exact h hend

section Pass

variable {twoWay : Bool} {src dst srcRest dstRest : List BlobRef} {handed : List SyncItem}
  {srcSide dstSide : SideState}

/-- The refs that were read are compared. -/
theorem split_compareSides
    (h : Split twoWay src dst handed (left srcSide srcRest) (left dstSide dstRest))
    (hsrc : srcSide = .end_ → srcRest = []) (hdst : dstSide = .end_ → dstRest = [])
    {item : Option SyncItem} {srcSide' dstSide' : SideState}
    (hgo : compareSides twoWay srcSide dstSide = .go item srcSide' dstSide') :
    Split twoWay src dst (handed ++ item.toList) (left srcSide' srcRest)
      (left dstSide' dstRest) := by
  cases srcSide with
  | want => cases hgo
  | end_ =>
    cases hsrc rfl
    cases dstSide with
    | want => cases hgo
    | end_ => cases hgo
    | has b =>
      cases hgo
      exact split_above h (by simp [left])
  | has a =>
    cases dstSide with
    | want => cases hgo
    | end_ =>
      cases hdst rfl
      cases hgo
      exact split_src h (by simp [left])
    | has b =>
      cases hcmp : evrCmpBlobRef a b with
      | lt =>
        simp only [compareSides, refCmp, hcmp] at hgo
        cases hgo
        exact split_src h (ascending_below (ascending_left h.dstAsc) hcmp)
      | eq =>
        obtain rfl := cmp_eq_iff.mp hcmp
        simp only [compareSides, refCmp, hcmp] at hgo
        cases hgo
        exact (List.append_nil handed).symm ▸ split_both h
      | gt =>
        simp only [compareSides, refCmp, hcmp] at hgo
        cases hgo
        exact split_above h (ascending_below (ascending_left h.srcAsc) (cmp_gt_iff.mp hcmp))

/-- A stream does not end by a comparison, and a ref of one of them is wanted afterwards. -/
theorem ends_compareSides {item : Option SyncItem} {srcSide' dstSide' : SideState}
    (hgo : compareSides twoWay srcSide dstSide = .go item srcSide' dstSide') :
    (srcSide' = .end_ ↔ srcSide = .end_) ∧ (dstSide' = .end_ ↔ dstSide = .end_) ∧
      (srcSide' = .want ∨ dstSide' = .want) := by
  cases srcSide with
  | want => cases hgo
  | end_ =>
    cases dstSide with
    | want => cases hgo
    | end_ => cases hgo
    | has b =>
      cases hgo
      simp
  | has a =>
    cases dstSide with
    | want => cases hgo
    | end_ =>
      cases hgo
      simp
    | has b =>
      cases hcmp : evrCmpBlobRef a b with
      | lt | eq | gt =>
        simp only [compareSides, refCmp, hcmp] at hgo
        cases hgo
        simp

theorem wants_of_again (h : compareSides twoWay srcSide dstSide = .again) :
    srcSide = .want ∨ dstSide = .want := by
  unfold compareSides at h
  split at h
  · next hwant => exact hwant
  · split at h
    · cases h
    · split at h <;> cases h

theorem ended_of_stop (h : compareSides twoWay srcSide dstSide = .stop) :
    srcSide = .end_ ∧ dstSide = .end_ := by
  unfold compareSides at h
  split at h
  · cases h
  · split at h
    · next hend => exact hend
    · split at h <;> cases h

theorem kept_start (hsrc : Ascending src) (hdst : Ascending dst) :
    CompareOk twoWay src dst (.start src dst) where
  split := ⟨rfl, rfl, hsrc, hdst⟩
  srcEnd := SideState.noConfusion
  dstEnd := SideState.noConfusion
  stopped := Bool.noConfusion
  wants := fun _ => .inl rfl

theorem kept_step {s : Comparison} (h : CompareOk twoWay src dst s) (ready : Bool × Bool) :
    CompareOk twoWay src dst (s.step twoWay ready) := by
  have hsplit := h.split
  rw [← left_readIfReady s.src s.srcRest ready.1, ← left_readIfReady s.dst s.dstRest ready.2]
    at hsplit
  have hsrc := end_readIfReady h.srcEnd ready.1
  have hdst := end_readIfReady h.dstEnd ready.2
  unfold Comparison.step
  split
  · exact h
  · dsimp only
    split
    · next hagain => exact ⟨hsplit, hsrc, hdst, Bool.noConfusion, fun _ => wants_of_again hagain⟩
    · next hstop => exact ⟨hsplit, hsrc, hdst, fun _ => ended_of_stop hstop, Bool.noConfusion⟩
    · next hgo =>
      obtain ⟨hsrc', hdst', hwants⟩ := ends_compareSides hgo
      exact ⟨split_compareSides hsplit hsrc hdst hgo, fun hend => hsrc (hsrc'.mp hend),
        fun hend => hdst (hdst'.mp hend), Bool.noConfusion, fun _ => hwants⟩

theorem kept_run (twoWay : Bool) (hsrc : Ascending src) (hdst : Ascending dst)
    (passes : List (Bool × Bool)) :
    CompareOk twoWay src dst (exec (Comparison.step twoWay) (.start src dst) passes) := by
  induction passes using List.reverseRecOn with
  | nil => exact kept_start hsrc hdst
  | append_singleton passes ready ih =>
    rw [exec_append_singleton]
    exact kept_step ih ready

/-- All is handed over after both streams have ended. -/
theorem handed_of_ends {s : Comparison} (h : CompareOk twoWay src dst s)
    (hends : s.src = .end_ ∧ s.dst = .end_) :
    handedTo .srcToDst s.handed = difference src dst ∧
      handedTo .dstToSrc s.handed = if twoWay then difference dst src else [] := by
  have hsplit := h.split
  rw [hends.1, hends.2, h.srcEnd hends.1, h.dstEnd hends.2] at hsplit
  constructor
  · rw [← hsplit.toDst]
    exact (List.append_nil _).symm
  · rw [← hsplit.toSrc]
    cases twoWay with
    | false => exact (List.append_nil _).symm
    | true => exact (List.append_nil _).symm

end Pass

/-! ## Progress -/

/-- The reads of a stream up to its end. -/
def readsLeft (side : SideState) (rest : List BlobRef) : Nat :=
  rest.length + if side = .end_ then 0 else 1

theorem readsLeft_readIfReady (side : SideState) (rest : List BlobRef) (ready : Bool) :
    readsLeft side rest = readsLeft (Comparison.readIfReady side rest ready).1
      (Comparison.readIfReady side rest ready).2 + if side = .want ∧ ready then 1 else 0 := by
  unfold Comparison.readIfReady
  split
  · next h =>
    rw [h.1]
    cases rest with
    | nil => rfl
    | cons ref rest => rfl
  · rfl

theorem readsLeft_congr {side side' : SideState} (h : side' = .end_ ↔ side = .end_)
    (rest : List BlobRef) : readsLeft side' rest = readsLeft side rest := by
  unfold readsLeft
  rw [if_congr h rfl rfl]

/-- The reads of both streams. -/
def allReadsLeft (s : Comparison) : Nat :=
  readsLeft s.src s.srcRest + readsLeft s.dst s.dstRest

/-- A pass that is woken reads. -/
theorem allReadsLeft_step (twoWay : Bool) {s : Comparison} {ready : Bool × Bool}
    (hgoes : s.stopped = false) (hwoken : s.Woken ready) :
    allReadsLeft (s.step twoWay ready) < allReadsLeft s := by
  have hsrc := readsLeft_readIfReady s.src s.srcRest ready.1
  have hdst := readsLeft_readIfReady s.dst s.dstRest ready.2
  have hreads : 0 < (if s.src = .want ∧ ready.1 then 1 else 0) +
      (if s.dst = .want ∧ ready.2 then 1 else 0) := by
    rcases hwoken with h | h
    · rw [if_pos h]
      omega
    · rw [if_pos h]
      omega
  unfold allReadsLeft
  rw [hsrc, hdst]
  unfold Comparison.step
  rw [hgoes, if_neg Bool.false_ne_true]
  dsimp only
  split
  · dsimp only
    omega
  · dsimp only
    omega
  · next hgo =>
    obtain ⟨hsrc', hdst', -⟩ := ends_compareSides hgo
    dsimp only
    rw [readsLeft_congr hsrc', readsLeft_congr hdst']
    omega

theorem allReadsLeft_run {twoWay : Bool} {s : Comparison} {passes : List (Bool × Bool)}
    (hwoken : Along (Comparison.step twoWay) (fun s ready => s.stopped ∨ s.Woken ready) s passes)
    (hgoes : (exec (Comparison.step twoWay) s passes).stopped = false) :
    allReadsLeft (exec (Comparison.step twoWay) s passes) + passes.length ≤ allReadsLeft s := by
  induction passes using List.reverseRecOn with
  | nil => exact Nat.le_refl _
  | append_singleton passes ready ih =>
    rw [exec_append_singleton] at *
    obtain ⟨hbefore, hlast⟩ := along_append_singleton.mp hwoken
    generalize exec (Comparison.step twoWay) s passes = s' at *
    -- a loop that has stopped makes no more passes
    have hgoes' : s'.stopped = false := by
      rw [← Bool.not_eq_true]
      intro hstopped
      unfold Comparison.step at hgoes
      rw [if_pos hstopped, hstopped] at hgoes
      cases hgoes
    have hless := allReadsLeft_step twoWay hgoes'
      (hlast.resolve_left (by rw [hgoes']; exact Bool.false_ne_true))
    have hle := ih hbefore hgoes'
    rw [List.length_append, List.length_singleton]
    omega

end CompareLemmas

open CompareLemmas

/-- For all ascending streams of refs and however they become ready, the refs that are handed
over to be copied to the destination are those that only the source has, those that are handed
over to be copied to the source are those that only the destination has with `two_way` and none
otherwise, and all of them ascend. The loop ends after it has read both streams to their ends. -/
theorem sync_hands_over_difference (twoWay : Bool) {src dst : List BlobRef}
    (hsrc : Ascending src) (hdst : Ascending dst) (passes : List (Bool × Bool)) :
    ((exec (Comparison.step twoWay) (.start src dst) passes).stopped →
      handedTo .srcToDst (exec (Comparison.step twoWay) (.start src dst) passes).handed =
          difference src dst ∧
        handedTo .dstToSrc (exec (Comparison.step twoWay) (.start src dst) passes).handed =
          if twoWay then difference dst src else []) ∧
      Ascending ((exec (Comparison.step twoWay) (.start src dst) passes).handed.map (·.ref)) ∧
      (Along (Comparison.step twoWay) (fun s ready => s.stopped ∨ s.Woken ready) (.start src dst)
          passes →
        src.length + dst.length + 2 ≤ passes.length →
        (exec (Comparison.step twoWay) (.start src dst) passes).stopped) := by
  have h := kept_run twoWay hsrc hdst passes
  refine ⟨fun hstopped => ?_, ?_, fun hwoken hlen => ?_⟩
  · exact handed_of_ends h (h.stopped hstopped)
  · exact ascending_sublist h.split.srcAsc (List.sublist_append_left ..)
  · rw [← Bool.not_eq_false]
    intro hgoes
    have hreads := allReadsLeft_run hwoken hgoes
    have hstart : allReadsLeft (.start src dst) = src.length + dst.length + 2 := by
      show src.length + 1 + (dst.length + 1) = _
      omega
    -- one more read of the stream that is wanted is left
    have hleft : 0 < allReadsLeft (exec (Comparison.step twoWay) (.start src dst) passes) := by
      unfold allReadsLeft readsLeft
      rcases h.wants hgoes with hwant | hwant
      · simp only [hwant, reduceCtorEq, if_false]
        omega
      · simp only [hwant, reduceCtorEq, if_false]
        omega
    omega

/-- The ref with one byte repeated. -/
def flatRef (b : UInt8) : BlobRef := Vector.replicate blobRefSize b

/-- The streams become ready one after the other, then buffered data lets both be read. -/
def unevenPasses : List (Bool × Bool) :=
  [(false, true), (true, false), (true, false), (true, true), (true, true), (false, true)]

theorem sync_hands_over_difference_uneven :
    (exec (Comparison.step true) (.start [flatRef 1, flatRef 2] [flatRef 2, flatRef 3])
        unevenPasses).stopped ∧
      handedTo .srcToDst (exec (Comparison.step true)
        (.start [flatRef 1, flatRef 2] [flatRef 2, flatRef 3]) unevenPasses).handed =
          difference [flatRef 1, flatRef 2] [flatRef 2, flatRef 3] ∧
      difference [flatRef 1, flatRef 2] [flatRef 2, flatRef 3] = [flatRef 1] := by
  have h := @sync_hands_over_difference true [flatRef 1, flatRef 2] [flatRef 2, flatRef 3]
    (by decide) (by decide) unevenPasses
  have hstopped := h.2.2 (by decide) (by decide)
  exact ⟨hstopped, (h.1 hstopped).1, by decide⟩

end Everarch
