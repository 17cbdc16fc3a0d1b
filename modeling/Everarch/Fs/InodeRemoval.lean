import Everarch.Fs.InodeSet
import Everarch.Lib.Run
import Mathlib.Data.Finset.Card
import Mathlib.Data.Finset.Lattice.Fold
import Mathlib.Logic.Function.Iterate
import Mathlib.Logic.Relation

/-!
# Removing inodes

`evr_inode_remove_by_seed` of fs-inode.c unlinks the files of a seed, one after the other, and after
each of them the directories that have become empty.

* `InodeSetLemmas.removeLoop_spec`: what one removal does, on its way up to the root.
* `inode_tree`: the tree after any creations and removals.
* `remove_by_seed_exact`: which inodes a removal unlinks, and that the others stay.
-/

namespace Everarch

/-- `c` is a child of `p`. -/
def InodeSet.ChildOf (s : InodeSet) (c p : Nat) : Prop :=
  s.Linked p ∧ c ∈ s.children p

/-- `x` is a descendant of `n`. -/
def InodeSet.Under (s : InodeSet) : Nat → Nat → Prop :=
  Relation.TransGen s.ChildOf

/-! ## Runs -/

/-- A file that is created and gets its data, or the removal of a seed. -/
inductive InodeOp where
  | createFile (path : List Char) (file : InodeFile) (created lastModified : Nat)
  | removeBySeed (seed : ClaimRef)

/-- The inodes, and for each slot the path of the last file that was created in it. -/
structure InodeRun where
  set : InodeSet
  paths : Nat → List Char

/-- What the callers of `evr_inode_create_file` do with the new inode. -/
def InodeSet.setFile (s : InodeSet) (n : Nat) (file : InodeFile) (created lastModified : Nat) :
    InodeSet :=
  { s with inodes := Function.update s.inodes n { s.inodes n with
    created := created
    lastModified := lastModified
    data := .file file } }

def InodeRun.step (r : InodeRun) : InodeOp → InodeRun
  | .createFile path file created lastModified =>
    let (n, s) := r.set.createFile path
    if n = 0 then { r with set := s }
    else ⟨s.setFile n file created lastModified, Function.update r.paths n path⟩
  | .removeBySeed seed => { r with set := r.set.removeBySeed seed }

/-- `evr_create_inodes`, and then some operations. -/
def InodeRun.from (s : InodeSet) (ops : List InodeOp) : InodeRun :=
  exec InodeRun.step ⟨s, fun _ => []⟩ ops

/-- The slots as a tree, with the links to the parents and the lists of the children as its two
views. -/
structure InodeTree (s : InodeSet) : Prop where
  root : s.Linked fuseRootId ∧ s.IsDir fuseRootId
  slots : ∀ n, fuseRootId < n → n < s.inodesLen → (s.inodes n).data = .unlinked ∨
    s.Linked (s.parent n) ∧ s.IsDir (s.parent n) ∧
      ∀ d, s.Linked d → (s.children d).count n = if d = s.parent n then 1 else 0
  children : ∀ d c, s.Linked d → c ∈ s.children d → s.Linked c
  reaches : ∀ n, s.Linked n → ∃ k, s.parent^[k] n = fuseRootId
  nonempty : ∀ n, s.Linked n → s.IsDir n → n ≠ fuseRootId → s.children n ≠ []

namespace InodeSetLemmas

open InodeSet

variable {s s' : InodeSet} {e n p : Nat}

/-! ## What is left -/

/-- Some inodes are gone, and the others are as they were. -/
structure Trimmed (s s' : InodeSet) : Prop where
  len : s'.inodesLen = s.inodesLen
  linked : ∀ m, s'.Linked m → s.Linked m
  stays : ∀ m, s'.Linked m → Stays s s' m
  children : ∀ m, s'.Linked m → s'.IsDir m →
    (s'.children m).Perm ((s.children m).filter fun c => decide (s'.Linked c))

theorem Trimmed.trans {s'' : InodeSet} (h : Trimmed s s') (h' : Trimmed s' s'') :
    Trimmed s s'' where
  len := h'.len.trans h.len
  linked m hm := h.linked m (h'.linked m hm)
  stays m hm := (h.stays m (h'.linked m hm)).trans (h'.stays m hm)
  children m hm hdir := by
    have hdir' : s'.IsDir m := (h'.stays m hm).isDir.mp hdir
    refine (h'.children m hm hdir).trans ?_
    refine ((h.children m (h'.linked m hm) hdir').filter _).trans (List.Perm.of_eq ?_)
    rw [List.filter_filter]
    refine List.filter_congr fun c _ => ?_
    rw [← Bool.decide_and]
    exact decide_eq_decide.mpr (and_iff_left_of_imp (h'.linked c))

/-- A slot is unlinked and taken out of the list of its parent. -/
structure Cut (s s' : InodeSet) (p n : Nat) : Prop where
  len : s'.inodesLen = s.inodesLen
  linked : ∀ m, s'.Linked m ↔ s.Linked m ∧ m ≠ n
  stays : ∀ m, s.Linked m → m ≠ n → Stays s s' m
  children : ∀ m, s.Linked m → m ≠ n → m ≠ p → s'.children m = s.children m
  children_parent : (s'.children p).Perm ((s.children p).erase n)

theorem treeBut_cut (h : s.TreeBut n) (hn : s.Linked n) (hne : n ≠ fuseRootId)
    (hempty : s.children n = []) (hcut : Cut s s' (s.parent n) n) : s'.TreeBut (s.parent n) := by
  obtain ⟨-, hlinked, hstays, hchildren, hparent⟩ := hcut
  obtain ⟨hroot, hchild, hlisted, honce, hnonempty, rank, hrank⟩ := h
  obtain ⟨hp, hnp⟩ := hlisted n hn hne
  have hmem : ∀ c, c ∈ s'.children (s.parent n) ↔ c ∈ s.children (s.parent n) ∧ c ≠ n := by
    intro c
    rw [hparent.mem_iff, (honce _ hp).mem_erase_iff, and_comm]
  constructor
  case root =>
    exact ⟨(hlinked _).mpr ⟨hroot.1, hne.symm⟩, (hstays _ hroot.1 hne.symm).isDir.mpr hroot.2⟩
  case child =>
    intro q c hq hc
    obtain ⟨hq, hqn⟩ := (hlinked q).mp hq
    have hold : c ∈ s.children q ∧ c ≠ n := by
      by_cases hqp : q = s.parent n
      · rw [hqp] at hc ⊢
        exact (hmem c).mp hc
      · rw [hchildren q hq hqn hqp] at hc
        refine ⟨hc, fun hcn => hqp ?_⟩
        rw [hcn] at hc
        exact (hchild q n hq hc).2.2.symm
    obtain ⟨hc, hcn⟩ := hold
    obtain ⟨hlc, hcr, hcq⟩ := hchild q c hq hc
    exact ⟨(hlinked c).mpr ⟨hlc, hcn⟩, hcr, (hstays c hlc hcn).parent.trans hcq⟩
  case listed =>
    intro m hm hmr
    obtain ⟨hm, hmn⟩ := (hlinked m).mp hm
    obtain ⟨hq, hmem'⟩ := hlisted m hm hmr
    have hqn : s.parent m ≠ n := fun heq => by
      rw [heq, hempty] at hmem'
      cases hmem'
    rw [(hstays m hm hmn).parent]
    refine ⟨(hlinked _).mpr ⟨hq, hqn⟩, ?_⟩
    by_cases hqp : s.parent m = s.parent n
    · rw [hqp] at hmem' ⊢
      exact (hmem m).mpr ⟨hmem', hmn⟩
    · rwa [hchildren _ hq hqn hqp]
  case once =>
    intro q hq
    obtain ⟨hq, hqn⟩ := (hlinked q).mp hq
    by_cases hqp : q = s.parent n
    · rw [hqp]
      exact hparent.nodup_iff.mpr ((honce _ hp).erase n)
    · rw [hchildren q hq hqn hqp]
      exact honce q hq
  case nonempty =>
    intro m hm hdir hmr hmp
    obtain ⟨hm, hmn⟩ := (hlinked m).mp hm
    rw [hchildren m hm hmn hmp]
    exact hnonempty m hm ((hstays m hm hmn).isDir.mp hdir) hmr hmn
  case ranked =>
    refine ⟨rank, ?_⟩
    intro m hm hmr
    obtain ⟨hm, hmn⟩ := (hlinked m).mp hm
    rw [(hstays m hm hmn).parent]
    exact hrank m hm hmr

theorem trimmed_cut (h : s.TreeBut n) (hn : s.Linked n) (hne : n ≠ fuseRootId)
    (hcut : Cut s s' (s.parent n) n) : Trimmed s s' := by
  obtain ⟨hlen, hlinked, hstays, hchildren, hparent⟩ := hcut
  refine ⟨hlen, fun m hm => ((hlinked m).mp hm).1,
    fun m hm => hstays m ((hlinked m).mp hm).1 ((hlinked m).mp hm).2, fun m hm hdir => ?_⟩
  obtain ⟨hm, hmn⟩ := (hlinked m).mp hm
  by_cases hmp : m = s.parent n
  · have hp := (h.listed n hn hne).1
    rw [hmp]
    refine hparent.trans (List.Perm.of_eq ?_)
    rw [(h.once _ hp).erase_eq_filter]
    refine List.filter_congr fun c hc => ?_
    rw [Bool.eq_iff_iff, bne_iff_ne, decide_eq_true_iff, hlinked]
    exact (and_iff_right (h.child _ c hp hc).1).symm
  · rw [hchildren m hm hmn hmp]
    refine List.Perm.of_eq (List.filter_eq_self.mpr fun c hc => ?_).symm
    obtain ⟨hlc, -, hcm⟩ := h.child m c hm hc
    refine decide_eq_true ((hlinked c).mpr ⟨hlc, fun hcn => hmp ?_⟩)
    rw [← hcm, hcn]

/-! ## One removal -/

/-- The last child takes the place of the one that is removed. -/
theorem withoutChild_perm {children : List Nat} (hnodup : children.Nodup) (hn : n ∈ children) :
    (withoutChild children n).Perm (children.erase n) := by
  rcases List.eq_nil_or_concat' children with rfl | ⟨init, x, rfl⟩
  · cases hn
  · have hmap : withoutChild (init ++ [x]) n = init.map fun c => if c = n then x else c := by
      rw [withoutChild, List.dropLast_concat, List.getLastD_concat]
    have hinit : init.Nodup := (List.nodup_append.mp hnodup).1
    rw [hmap]
    by_cases hin : n ∈ init
    · have hrest : ((init.erase n).map fun c => if c = n then x else c) = init.erase n := by
        conv_rhs => rw [← List.map_id (init.erase n)]
        refine List.map_congr_left fun c hc => if_neg fun hcn => ?_
        rw [hcn] at hc
        exact hinit.not_mem_erase hc
      have hperm := (List.perm_cons_erase hin).map fun c => if c = n then x else c
      rw [List.map_cons, if_pos rfl, hrest] at hperm
      rw [List.erase_append_left _ hin]
      exact hperm.trans (List.perm_append_singleton x _).symm
    · have hself : (init.map fun c => if c = n then x else c) = init := by
        conv_rhs => rw [← List.map_id init]
        refine List.map_congr_left fun c hc => if_neg fun hcn => ?_
        rw [hcn] at hc
        exact hin hc
      have hx : n = x := List.mem_singleton.mp ((List.mem_append.mp hn).resolve_left hin)
      rw [hself, List.erase_append_right _ hin, hx, List.erase_cons_head, List.append_nil]

theorem cut_setData {children : List Nat} (hp : s.Linked p) (hdir : s.IsDir p)
    (hnp : p ≠ n) (hchildren : children.Perm ((s.children p).erase n)) :
    Cut s ((s.setData n .unlinked).setData p (.dir children)) p n := by
  have hatp : ((s.setData n .unlinked).setData p (.dir children)).inodes p =
      { s.inodes p with data := .dir children } := by
    rw [inodes_setData_self, inodes_setData_of_ne hnp]
  have hatn : ((s.setData n .unlinked).setData p (.dir children)).inodes n =
      { s.inodes n with data := .unlinked } := by
    rw [inodes_setData_of_ne hnp.symm, inodes_setData_self]
  have hother : ∀ m, m ≠ n → m ≠ p →
      ((s.setData n .unlinked).setData p (.dir children)).inodes m = s.inodes m := by
    intro m hmn hmp
    rw [inodes_setData_of_ne hmp, inodes_setData_of_ne hmn]
  refine ⟨rfl, fun m => ?_, fun m hm hmn => ?_, fun m hm hmn hmp => ?_, ?_⟩
  · by_cases hmn : m = n
    · refine iff_of_false (fun h => ?_) fun h => h.2 hmn
      rw [hmn, InodeSet.Linked, hatn] at h
      exact Bool.false_ne_true h.2.2
    · rw [and_iff_left hmn]
      by_cases hmp : m = p
      · rw [hmp]
        refine iff_of_true ?_ hp
        rw [InodeSet.Linked, hatp]
        exact ⟨hp.1, hp.2.1, rfl⟩
      · rw [InodeSet.Linked, hother m hmn hmp]
        rfl
  · by_cases hmp : m = p
    · rw [hmp]
      exact stays_of_dir hdir hatp
    · exact stays_of_eq (hother m hmn hmp)
  · rw [InodeSet.children, hother m hmn hmp, InodeSet.children]
  · rw [InodeSet.children, hatp]
    exact hchildren

/-- One round takes a slot out, and goes on with its parent if that is empty then. -/
theorem removeLoop_succ (fuel : Nat) (h : s.TreeBut n) (hn : s.Linked n) (hne : n ≠ fuseRootId)
    (hempty : s.children n = []) :
    ∃ s₁, Cut s s₁ (s.parent n) n ∧
      (s₁.children (s.parent n) = [] ∧
          removeLoop (fuel + 1) s n = removeLoop fuel s₁ (s.parent n) ∨
        s₁.children (s.parent n) ≠ [] ∧ removeLoop (fuel + 1) s n = s₁) := by
  obtain ⟨hp, hmem⟩ := h.listed n hn hne
  have hdir := isDir_of_mem_children hmem
  have hpn : s.parent n ≠ n := fun heq => by
    rw [heq, hempty] at hmem
    cases hmem
  have hfree : freeInodeAndChildren (s.inodesLen + 1) s n = s.setData n .unlinked := by
    rw [freeInodeAndChildren, hempty]
    rfl
  have hparent : ((s.setData n .unlinked).inodes n).parent = s.parent n := by
    rw [inodes_setData_self]
    rfl
  have hchildren : (s.setData n .unlinked).children (s.parent n) = s.children (s.parent n) := by
    rw [InodeSet.children, inodes_setData_of_ne hpn, InodeSet.children]
  have hset : ∀ (t : InodeSet) m l, (t.setData m (.dir l)).children m = l := by
    intro t m l
    rw [InodeSet.children, inodes_setData_self]
    rfl
  have hperm := withoutChild_perm (h.once _ hp) hmem
  rw [removeLoop, if_neg hne, hfree]
  dsimp only
  rw [hparent, hchildren]
  by_cases hlen : (s.children (s.parent n)).length ≤ 1
  · rw [if_pos hlen]
    refine ⟨_, cut_setData hp hdir hpn ?_, .inl ⟨hset _ _ _, rfl⟩⟩
    refine List.Perm.of_eq (List.eq_nil_of_length_eq_zero ?_).symm
    rw [List.length_erase_of_mem hmem]
    omega
  · rw [if_neg hlen]
    refine ⟨_, cut_setData hp hdir hpn hperm, .inr ⟨?_, rfl⟩⟩
    rw [hset]
    refine List.ne_nil_of_length_pos ?_
    rw [hperm.length_eq, List.length_erase_of_mem hmem]
    omega

/-- How many slots are in use. -/
def linkedCount (s : InodeSet) : Nat :=
  ((Finset.range s.inodesLen).filter s.Linked).card

theorem linkedCount_cut (hn : s.Linked n) (hcut : Cut s s' p n) :
    linkedCount s' < linkedCount s := by
  refine Finset.card_lt_card (Finset.ssubset_iff_of_subset (fun m hm => ?_) |>.mpr ⟨n, ?_, ?_⟩)
  · obtain ⟨hrange, hm⟩ := Finset.mem_filter.mp hm
    exact Finset.mem_filter.mpr ⟨hcut.len ▸ hrange, ((hcut.linked m).mp hm).1⟩
  · exact Finset.mem_filter.mpr ⟨Finset.mem_range.mpr hn.2.1, hn⟩
  · exact fun hm => ((hcut.linked n).mp (Finset.mem_filter.mp hm).2).2 rfl

/-- An inode is gone, and only directories with it. -/
structure Pruned (s s' : InodeSet) (n : Nat) : Prop where
  tree : s'.Tree
  trimmed : Trimmed s s'
  files : ∀ m, s.Linked m → ¬ s.IsDir m → m ≠ n → s'.Linked m
  gone : n ≠ fuseRootId → ¬ s'.Linked n

theorem trimmed_refl (h : s.TreeBut e) : Trimmed s s :=
  ⟨rfl, fun _ hm => hm, fun m _ => Stays.refl s m, fun m hm _ => List.Perm.of_eq
    (List.filter_eq_self.mpr fun c hc => decide_eq_true (h.child m c hm hc).1).symm⟩

theorem removeLoop_spec (fuel : Nat) (hfuel : linkedCount s ≤ fuel) (h : s.TreeBut n)
    (hn : s.Linked n) (hempty : n ≠ fuseRootId → s.children n = []) :
    Pruned s (removeLoop fuel s n) n := by
  induction fuel generalizing s n with
  | zero =>
    have hmem := Finset.mem_filter.mpr ⟨Finset.mem_range.mpr hn.2.1, hn⟩
    exact absurd (Finset.card_pos.mpr ⟨n, hmem⟩) (Nat.not_lt.mpr hfuel)
  | succ fuel ih =>
    by_cases hne : n = fuseRootId
    · rw [removeLoop, if_pos hne]
      rw [hne] at h
      exact ⟨h, trimmed_refl h, fun m hm _ _ => hm, fun hne' => absurd hne hne'⟩
    · obtain ⟨hp, hmem⟩ := h.listed n hn hne
      obtain ⟨s₁, hcut, hround⟩ := removeLoop_succ fuel h hn hne (hempty hne)
      have htree := treeBut_cut h hn hne (hempty hne) hcut
      have htrim := trimmed_cut h hn hne hcut
      have hfiles : ∀ m, s.Linked m → ¬ s.IsDir m → m ≠ n → s₁.Linked m ∧ ¬ s₁.IsDir m := by
        intro m hm hdir hmn
        exact ⟨(hcut.linked m).mpr ⟨hm, hmn⟩, mt (hcut.stays m hm hmn).isDir.mp hdir⟩
      have hgone : ¬ s₁.Linked n := fun hn' => ((hcut.linked n).mp hn').2 rfl
      rcases hround with ⟨hnil, heq⟩ | ⟨hsome, heq⟩
      · have hp' : s₁.Linked (s.parent n) := by
          refine (hcut.linked _).mpr ⟨hp, fun hpn => ?_⟩
          rw [hpn, hempty hne] at hmem
          cases hmem
        obtain ⟨htree', htrim', hfiles', -⟩ := ih
          (Nat.le_of_lt_succ (Nat.lt_of_lt_of_le (linkedCount_cut hn hcut) hfuel)) htree hp'
          fun _ => hnil
        rw [heq]
        refine ⟨htree', htrim.trans htrim', fun m hm hdir hmn => ?_,
          fun _ hn' => hgone (htrim'.linked n hn')⟩
        refine hfiles' m (hfiles m hm hdir hmn).1 (hfiles m hm hdir hmn).2 fun hmp => hdir ?_
        rw [hmp]
        exact isDir_of_mem_children hmem
      · rw [heq]
        exact ⟨tree_of_nonempty htree fun _ _ => hsome, htrim,
          fun m hm hdir hmn => (hfiles m hm hdir hmn).1, fun _ => hgone⟩

/-- A file is removed together with the directories that are empty then. -/
theorem remove_spec (h : s.Tree) (hn : s.Linked n) (hfile : ¬ s.IsDir n) :
    Pruned s (s.remove n) n := by
  refine removeLoop_spec _ ?_ (treeBut_of_tree h n) hn fun _ => ?_
  · calc linkedCount s ≤ (Finset.range s.inodesLen).card := Finset.card_filter_le _ _
      _ = s.inodesLen := Finset.card_range _
  · exact List.eq_nil_iff_forall_not_mem.mpr fun c hc => hfile (isDir_of_mem_children hc)

/-! ## The removal of a seed -/

theorem linked_of_hasSeed {seed : ClaimRef} (hbound : fuseRootId ≤ n ∧ n < s.inodesLen)
    (h : s.hasSeed seed n = true) : s.Linked n ∧ ¬ s.IsDir n := by
  unfold InodeSet.hasSeed at h
  unfold InodeSet.Linked InodeSet.IsDir
  cases hdata : (s.inodes n).data with
  | file f => exact ⟨⟨hbound.1, hbound.2, rfl⟩, Bool.false_ne_true⟩
  | _ =>
    rw [hdata] at h
    cases h

/-- The body of the loop of `evr_inode_remove_by_seed`, over any of its slots. -/
theorem removals_spec {seed : ClaimRef} (slots : List Nat) (h : s.Tree)
    (hslots : ∀ n ∈ slots, fuseRootId ≤ n ∧ n < s.inodesLen) {s' : InodeSet}
    (hs' : slots.foldl (fun s n => if s.hasSeed seed n then s.remove n else s) s = s') :
    s'.Tree ∧ Trimmed s s' ∧ ∀ m, s.Linked m → ¬ s.IsDir m →
      (s'.Linked m ↔ ¬ (m ∈ slots ∧ s.hasSeed seed m = true)) := by
  induction slots generalizing s with
  | nil =>
    rw [← hs']
    exact ⟨h, trimmed_refl h, fun m hm _ => iff_of_true hm fun hin => by cases hin.1⟩
  | cons n slots ih =>
    have hbound := hslots n List.mem_cons_self
    have hrest : ∀ m ∈ slots, fuseRootId ≤ m ∧ m < s.inodesLen := fun m hm =>
      hslots m (List.mem_cons_of_mem n hm)
    rw [List.foldl_cons] at hs'
    by_cases hseed : s.hasSeed seed n = true
    · rw [if_pos hseed] at hs'
      obtain ⟨hn, hfile⟩ := linked_of_hasSeed hbound hseed
      obtain ⟨htree, htrim, hfiles, hgone⟩ := remove_spec h hn hfile
      obtain ⟨htree', htrim', hexact⟩ := ih htree (htrim.len ▸ hrest) hs'
      have hne : n ≠ fuseRootId := fun heq => hfile (heq ▸ h.root.2)
      refine ⟨htree', htrim.trans htrim', fun m hm hdir => ?_⟩
      by_cases hmn : m = n
      · rw [hmn]
        exact iff_of_false (fun hn' => hgone hne (htrim'.linked n hn'))
          fun hno => hno ⟨List.mem_cons_self, hseed⟩
      · have hm' := hfiles m hm hdir hmn
        have hstays := htrim.stays m hm'
        rw [hexact m hm' (mt hstays.isDir.mp hdir), List.mem_cons, or_iff_right hmn, hasSeed,
          hasSeed, hstays.data hdir]
    · rw [if_neg hseed] at hs'
      obtain ⟨htree', htrim', hexact⟩ := ih h hrest hs'
      refine ⟨htree', htrim', fun m hm hdir => (hexact m hm hdir).trans (not_congr ?_)⟩
      rw [List.mem_cons]
      refine and_congr_left fun hseed' => (or_iff_right fun hmn => hseed ?_).symm
      rwa [← hmn]

theorem removeBySeed_spec (h : s.Tree) (seed : ClaimRef) :
    (s.removeBySeed seed).Tree ∧ Trimmed s (s.removeBySeed seed) ∧
      ∀ m, s.Linked m → ¬ s.IsDir m →
        ((s.removeBySeed seed).Linked m ↔ s.hasSeed seed m = false) := by
  have hslots : ∀ n ∈ List.range' (fuseRootId + 1) (s.inodesLen - (fuseRootId + 1)),
      fuseRootId ≤ n ∧ n < s.inodesLen := by
    intro n hn
    have hbounds := List.mem_range'_1.mp hn
    omega
  obtain ⟨htree, htrim, hexact⟩ := removals_spec _ h hslots (rfl : _ = s.removeBySeed seed)
  refine ⟨htree, htrim, fun m hm hdir => (hexact m hm hdir).trans ?_⟩
  have hne : m ≠ fuseRootId := fun heq => hdir (heq ▸ h.root.2)
  have hrange : m ∈ List.range' (fuseRootId + 1) (s.inodesLen - (fuseRootId + 1)) := by
    have hlt := hm.2.1
    have hge := Nat.lt_of_le_of_ne hm.1 hne.symm
    exact List.mem_range'_1.mpr (by omega)
  rw [and_iff_right hrange, Bool.not_eq_true]

/-- A directory of a tree has a file somewhere below it. -/
theorem exists_file_under (h : s.Tree) (hn : s.Linked n) (hdir : s.IsDir n)
    (hne : n ≠ fuseRootId) : ∃ x, s.Under x n ∧ ¬ s.IsDir x := by
  obtain ⟨rank, hrank⟩ := h.ranked
  have hbound : ∀ m, s.Linked m → rank m ≤ (Finset.range s.inodesLen).sup rank := fun m hm =>
    Finset.le_sup (Finset.mem_range.mpr hm.2.1)
  -- The ranks grow on the way down, and there is a largest one.
  induction hk : (Finset.range s.inodesLen).sup rank - rank n using Nat.strong_induction_on
    generalizing n with
  | _ k ih =>
    obtain ⟨c, hc⟩ := List.exists_mem_of_ne_nil _ (h.nonempty n hn hdir hne hne)
    obtain ⟨hlc, hcr, hcn⟩ := h.child n c hn hc
    have hstep : s.Under c n := .single ⟨hn, hc⟩
    by_cases hdirc : s.IsDir c
    · have hrankc := hrank c hlc hcr
      rw [hcn] at hrankc
      have hle := hbound c hlc
      obtain ⟨x, hx, hfile⟩ := ih _ (by omega) hlc hdirc hcr rfl
      exact ⟨x, hx.trans hstep, hfile⟩
    · exact ⟨c, hstep, hdirc⟩

/-- What an inode is under stays with it. -/
theorem linked_of_under {x : Nat} (h : s.Tree) (h' : s'.Tree) (htrim : Trimmed s s')
    (hx : s.Under x n) (hlx : s'.Linked x) : s'.Linked n := by
  have hstep : ∀ {c p}, s.ChildOf c p → s'.Linked c → s'.Linked p := by
    intro c p hcp hc
    obtain ⟨-, hcr, hparent⟩ := h.child p c hcp.1 hcp.2
    rw [← hparent, ← (htrim.stays c hc).parent]
    exact (h'.listed c hc hcr).1
  induction hx with
  | single hcp => exact hstep hcp hlx
  | tail _ hcp ih => exact hstep hcp ih

theorem under_mono {x : Nat} (htrim : Trimmed s s') (hx : s'.Under x n) : s.Under x n := by
  refine Relation.TransGen.mono (fun c p hcp => ?_) x n hx
  have hmem := (htrim.children p hcp.1 (isDir_of_mem_children hcp.2)).mem_iff.mp hcp.2
  exact ⟨htrim.linked p hcp.1, (List.mem_filter.mp hmem).1⟩

theorem linked_of_under_left {x : Nat} (h : s.TreeBut e) (hx : s.Under x n) : s.Linked x := by
  induction hx using Relation.TransGen.head_induction_on with
  | single hcp => exact (h.child _ _ hcp.1 hcp.2).1
  | head hcp _ _ => exact (h.child _ _ hcp.1 hcp.2).1

/-! ## Keeping the tree -/

/-- The invariant of the runs. -/
structure Kept (r : InodeRun) : Prop where
  tree : r.set.Tree
  paths : ∀ n, r.set.Linked n → ¬ r.set.IsDir n → r.set.Spells n (r.paths n)

/-- A file gets its data. -/
theorem setFile_spec (hn : s.Linked n) (hfile : ¬ s.IsDir n) (file : InodeFile)
    (created lastModified : Nat) :
    (∀ m, (s.setFile n file created lastModified).Linked m ↔ s.Linked m) ∧
      (∀ m, (s.setFile n file created lastModified).parent m = s.parent m) ∧
      (∀ m, ((s.setFile n file created lastModified).inodes m).name = (s.inodes m).name) ∧
      (∀ m, (s.setFile n file created lastModified).children m = s.children m) ∧
      ∀ m, (s.setFile n file created lastModified).IsDir m ↔ s.IsDir m := by
  have hat : (s.setFile n file created lastModified).inodes n = { s.inodes n with
      created := created
      lastModified := lastModified
      data := .file file } := Function.update_self ..
  have hother : ∀ m, m ≠ n → (s.setFile n file created lastModified).inodes m = s.inodes m :=
    fun m hmn => Function.update_of_ne hmn _ _
  refine ⟨fun m => ?_, fun m => ?_, fun m => ?_, fun m => ?_, fun m => ?_⟩ <;> by_cases hmn : m = n
  · rw [hmn]
    refine iff_of_true ?_ hn
    rw [InodeSet.Linked, hat]
    exact ⟨hn.1, hn.2.1, rfl⟩
  · rw [InodeSet.Linked, hother m hmn]
    rfl
  · rw [hmn, InodeSet.parent, hat, InodeSet.parent]
  · rw [InodeSet.parent, hother m hmn, InodeSet.parent]
  · rw [hmn, hat]
  · rw [hother m hmn]
  · have hnil : s.children n = [] :=
      List.eq_nil_iff_forall_not_mem.mpr fun c hc => hfile (isDir_of_mem_children hc)
    rw [hmn, hnil, InodeSet.children, hat]
    rfl
  · rw [InodeSet.children, hother m hmn, InodeSet.children]
  · rw [hmn]
    refine iff_of_false (fun hdir => ?_) hfile
    rw [InodeSet.IsDir, hat] at hdir
    cases hdir
  · rw [InodeSet.IsDir, hother m hmn, InodeSet.IsDir]

theorem kept_createFile {r : InodeRun} (h : Kept r) (path : List Char) (file : InodeFile)
    (created lastModified : Nat) :
    Kept (r.step (.createFile path file created lastModified)) := by
  obtain ⟨htree, hgrown, hfresh, hlinked, ⟨f, hdata⟩, hfiles, hspells⟩ :=
    createFile_spec h.tree path
  generalize hcreate : r.set.createFile path = created' at *
  obtain ⟨n, s⟩ := created'
  dsimp only at *
  have hzero : n ≠ 0 := Nat.ne_of_gt hlinked.1
  have hfile : ¬ s.IsDir n := by
    rw [InodeSet.IsDir, hdata]
    exact Bool.false_ne_true
  obtain ⟨hlinked', hparent', hname', hchildren', hdir'⟩ :=
    setFile_spec hlinked hfile file created lastModified
  have hkeep : ∀ m path, s.Spells m path →
      (s.setFile n file created lastModified).Spells m path := fun m path hm =>
    spells_congr (P := fun _ => True) hm trivial (fun m _ => ⟨hparent' m, hname' m⟩)
      fun _ _ _ => trivial
  rw [InodeRun.step, hcreate]
  dsimp only
  rw [if_neg hzero]
  refine ⟨treeBut_congr htree hlinked' (fun m _ => hparent' m) (fun m _ => hchildren' m)
    fun m _ => hdir' m, fun m hm hdirm => ?_⟩
  dsimp only at hm hdirm ⊢
  rw [hlinked'] at hm
  rw [hdir'] at hdirm
  by_cases hmn : m = n
  · rw [hmn, Function.update_self]
    exact hkeep n path hspells
  · rw [Function.update_of_ne hmn]
    have hold := hfiles m hm hdirm hmn
    have hdirOld : ¬ r.set.IsDir m := mt (hgrown m hold).2.isDir.mpr hdirm
    have hne : m ≠ fuseRootId := fun heq => hdirOld (heq ▸ h.tree.root.2)
    exact hkeep m _ (spells_stays (h.paths m hold hdirOld) h.tree hold hne
      fun m hm => (hgrown m hm).2)

theorem kept_removeBySeed {r : InodeRun} (h : Kept r) (seed : ClaimRef) :
    Kept (r.step (.removeBySeed seed)) := by
  obtain ⟨htree, htrim, -⟩ := removeBySeed_spec h.tree seed
  refine ⟨htree, fun n hn hdir => ?_⟩
  have hold := htrim.stays n hn
  have hne : n ≠ fuseRootId := fun heq => hdir (heq ▸ htree.root.2)
  -- The directories on the way to an inode that is left are left too.
  refine spells_congr (P := fun m => (r.set.removeBySeed seed).Linked m ∧ m ≠ fuseRootId)
    (h.paths n (htrim.linked n hn) (mt hold.isDir.mpr hdir)) ⟨hn, hne⟩
    (fun m hm => ⟨(htrim.stays m hm.1).parent, (htrim.stays m hm.1).name⟩) fun m hm hmr => ?_
  rw [← (htrim.stays m hm.1).parent]
  exact ⟨(htree.listed m hm.1 hm.2).1, (htrim.stays m hm.1).parent ▸ hmr⟩

theorem kept_run {mem : Nat → Inode} {inodesLen now : Nat}
    (hcreate : InodeSet.create mem inodesLen now = some s) (ops : List InodeOp) :
    Kept (InodeRun.from s ops) := by
  unfold InodeSet.create at hcreate
  split_ifs at hcreate with hlen
  obtain rfl := Option.some.inj hcreate
  refine exec_invariant Kept ⟨tree_initial mem (Nat.not_le.mp hlen) now, fun n hn hdir => ?_⟩
    fun r op hr => ?_
  · refine absurd ?_ hdir
    have hroot : n = fuseRootId := linked_initial mem (Nat.not_le.mp hlen) now n |>.mp hn
    rw [hroot]
    exact (tree_initial mem (Nat.not_le.mp hlen) now).root.2
  · cases op with
    | createFile path file created lastModified =>
      exact kept_createFile hr path file created lastModified
    | removeBySeed seed => exact kept_removeBySeed hr seed

theorem inodeTree_of_tree (h : s.Tree) : InodeTree s where
  root := h.root
  slots n hgt hlt := by
    by_cases hn : s.Linked n
    · obtain ⟨hp, hmem⟩ := h.listed n hn (Nat.ne_of_gt hgt)
      refine .inr ⟨hp, isDir_of_mem_children hmem, fun d hd => ?_⟩
      split_ifs with hdp
      · rw [hdp]
        exact List.count_eq_one_of_mem (h.once _ hp) hmem
      · exact List.count_eq_zero.mpr fun hmem' => hdp (h.child d n hd hmem').2.2.symm
    · left
      cases hdata : (s.inodes n).data with
      | unlinked => rfl
      | _ =>
        refine absurd ⟨Nat.le_of_lt hgt, hlt, ?_⟩ hn
        rw [hdata]
        rfl
  children d c hd hc := (h.child d c hd hc).1
  reaches n hn := by
    obtain ⟨rank, hrank⟩ := h.ranked
    induction hk : rank n using Nat.strong_induction_on generalizing n with
    | _ k ih =>
      by_cases hne : n = fuseRootId
      · exact ⟨0, hne⟩
      · have hlt := hrank n hn hne
        obtain ⟨j, hj⟩ := ih (rank (s.parent n)) (by omega) _ (h.listed n hn hne).1 rfl
        exact ⟨j + 1, hj⟩
  nonempty n hn hdir hne := h.nonempty n hn hdir hne hne

/-- The files of the seed are gone, and with them the directories that held nothing else. -/
theorem gone_iff (h : s.Tree) (seed : ClaimRef) (hn : s.Linked n) :
    ¬ (s.removeBySeed seed).Linked n ↔ s.hasSeed seed n = true ∨
      n ≠ fuseRootId ∧ s.IsDir n ∧ ∀ x, s.Under x n → ¬ s.IsDir x → s.hasSeed seed x = true := by
  obtain ⟨htree, htrim, hexact⟩ := removeBySeed_spec h seed
  by_cases hdir : s.IsDir n
  · have hno : s.hasSeed seed n ≠ true := fun hseed =>
      (linked_of_hasSeed ⟨hn.1, hn.2.1⟩ hseed).2 hdir
    rw [or_iff_right hno]
    constructor
    · intro hgone
      refine ⟨fun hroot => hgone (hroot ▸ htree.root.1), hdir, fun x hx hfile => ?_⟩
      by_contra hother
      refine hgone (linked_of_under h htree htrim hx ?_)
      exact (hexact x (linked_of_under_left h hx) hfile).mpr (Bool.not_eq_true _ ▸ hother)
    · rintro ⟨hne, -, hall⟩ hleft
      obtain ⟨x, hx, hfile⟩ :=
        exists_file_under htree hleft ((htrim.stays n hleft).isDir.mpr hdir) hne
      have hlx := linked_of_under_left htree hx
      have hfile' : ¬ s.IsDir x := mt (htrim.stays x hlx).isDir.mpr hfile
      have hseed := hall x (under_mono htrim hx) hfile'
      rw [(hexact x (htrim.linked x hlx) hfile').mp hlx] at hseed
      cases hseed
  · rw [hexact n hn hdir, Bool.not_eq_false, or_iff_left fun h => hdir h.2.1]

end InodeSetLemmas

open InodeSetLemmas

/-- After any creations and removals the inodes are a tree without empty directories, and each file
is found under the path it was created with. -/
theorem inode_tree {mem : Nat → Inode} {inodesLen now : Nat} {s : InodeSet}
    (hcreate : InodeSet.create mem inodesLen now = some s) (ops : List InodeOp) :
    InodeTree (InodeRun.from s ops).set ∧ ∀ n, (InodeRun.from s ops).set.Linked n →
      ¬ (InodeRun.from s ops).set.IsDir n →
        (InodeRun.from s ops).set.Spells n ((InodeRun.from s ops).paths n) :=
  ⟨inodeTree_of_tree (kept_run hcreate ops).tree, (kept_run hcreate ops).paths⟩

/-- The memory of two slots, before `evr_create_inodes` sets them up. -/
def twoSlots : Nat → Inode :=
  fun _ => ⟨0, [], 0, 0, .unlinked⟩

/-- A file in a directory. -/
def createLetter : List InodeOp :=
  [.createFile "post/letter".toList ⟨1, Vector.replicate claimRefSize 1,
    Vector.replicate claimRefSize 2, []⟩ 10 11]

/-- The directory takes the slot behind the root, and the array is doubled for it. -/
theorem inode_tree_letter :
    InodeTree (InodeRun.from (.initial twoSlots 2 9) createLetter).set ∧
      (InodeRun.from (.initial twoSlots 2 9) createLetter).set.Spells 3 "post/letter".toList := by
  have hcreate : InodeSet.create twoSlots 2 9 = some (.initial twoSlots 2 9) := rfl
  have htree := inode_tree hcreate createLetter
  have hlinked : (InodeRun.from (.initial twoSlots 2 9) createLetter).set.Linked 3 := by decide
  exact ⟨htree.1, htree.2 3 hlinked fun hdir => Bool.false_ne_true hdir⟩

/-- The removal of a seed unlinks its files and the directories that have only its files below
them. The other inodes stay as they were, and the lists of children lose what was unlinked. -/
theorem remove_by_seed_exact {mem : Nat → Inode} {inodesLen now : Nat} {s : InodeSet}
    (hcreate : InodeSet.create mem inodesLen now = some s) (ops : List InodeOp)
    (seed : ClaimRef) :
    (∀ n, (InodeRun.from s ops).set.Linked n →
      (¬ ((InodeRun.from s ops).set.removeBySeed seed).Linked n ↔
        (InodeRun.from s ops).set.hasSeed seed n = true ∨
          n ≠ fuseRootId ∧ (InodeRun.from s ops).set.IsDir n ∧
            ∀ x, (InodeRun.from s ops).set.Under x n → ¬ (InodeRun.from s ops).set.IsDir x →
              (InodeRun.from s ops).set.hasSeed seed x = true)) ∧
      Trimmed (InodeRun.from s ops).set ((InodeRun.from s ops).set.removeBySeed seed) :=
  have htree := (kept_run hcreate ops).tree
  ⟨fun _ hn => gone_iff htree seed hn, (removeBySeed_spec htree seed).2.1⟩

/-- The file is gone. -/
theorem remove_by_seed_exact_letter :
    ¬ ((InodeRun.from (.initial twoSlots 2 9) createLetter).set.removeBySeed
      (Vector.replicate claimRefSize 2)).Linked 3 := by
  have hcreate : InodeSet.create twoSlots 2 9 = some (.initial twoSlots 2 9) := rfl
  have hlinked : (InodeRun.from (.initial twoSlots 2 9) createLetter).set.Linked 3 := by decide
  have hseed : (InodeRun.from (.initial twoSlots 2 9) createLetter).set.hasSeed
      (Vector.replicate claimRefSize 2) 3 = true := by decide
  exact ((remove_by_seed_exact hcreate createLetter _).1 3 hlinked).mpr (.inl hseed)

end Everarch
