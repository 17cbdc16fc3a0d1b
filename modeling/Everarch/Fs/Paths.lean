import Everarch.Fs.InodeRemoval

/-!
# Paths in evr-fs

`evr_fs_lookup` of evr-fs.c, and the lookups by which a path is followed from the root, name by name.

* `PathLemmas.fsLookup_entry_iff`: what is found is the first child of the name.
* `PathLemmas.named_run`: no name has a slash, and directories of one directory differ in their names.
* `PathLemmas.walk_iff`: a path leads to its inode if every inode on the way is found.

Results: `path_resolves_iff`; `path_resolves_shadowed`, a file in a directory whose name is taken.
-/

namespace Everarch

inductive LookupReply where
  | entry (ino : Nat)
  | enoent
  | enotdir
deriving DecidableEq, Repr

namespace InodeSet

/-- `evr_get_inode`. -/
def getInode (s : InodeSet) (ino : Nat) : Option Inode :=
  if ino < fuseRootId ∨ s.inodesLen ≤ ino then none
  else if (s.inodes ino).data.isLinked then some (s.inodes ino)
  else none

/-- `evr_fs_lookup`. The child that is found has its attributes from `evr_fs_stat`. -/
def fsLookup (s : InodeSet) (parent : Nat) (name : List Char) : LookupReply :=
  match s.getInode parent with
  | none => .enoent
  | some pnd =>
    match pnd.data with
    | .dir children =>
      match children.find? fun c => (s.inodes c).name = name with
      | none => .enoent
      | some c => if (s.getInode c).isSome then .entry c else .enoent
    | _ => .enotdir

/-- The inode to which names lead from `n` on. -/
def walk (s : InodeSet) : Nat → List (List Char) → Option Nat
  | n, [] => some n
  | n, name :: names =>
    match s.fsLookup n name with
    | .entry c => s.walk c names
    | _ => none

/-- The inodes from the root to `n`, without the root. -/
inductive OnWay (s : InodeSet) : Nat → Nat → Prop
  | self {n : Nat} : OnWay s n n
  | up {n m : Nat} (hparent : s.parent n ≠ fuseRootId) (h : OnWay s (s.parent n) m) : OnWay s n m

/-- No child of the same name comes before. -/
def FirstOfName (s : InodeSet) (m : Nat) : Prop :=
  ∃ before after, s.children (s.parent m) = before ++ m :: after ∧
    ∀ c ∈ before, (s.inodes c).name ≠ (s.inodes m).name

end InodeSet

namespace PathLemmas

open InodeSet InodeSetLemmas

variable {s s' : InodeSet} {e n p : Nat} {name : List Char}

/-! ## Looking up a name -/

theorem getInode_isSome_iff : (s.getInode n).isSome = true ↔ s.Linked n := by
  unfold getInode Linked
  split
  · rename_i h
    exact iff_of_false Bool.false_ne_true fun h' => by omega
  · rename_i h
    split
    · rename_i hlinked
      exact iff_of_true rfl ⟨by omega, by omega, hlinked⟩
    · rename_i hlinked
      exact iff_of_false Bool.false_ne_true fun h' => hlinked h'.2.2

theorem fsLookup_entry_iff (h : s.TreeBut e) {c : Nat} :
    s.fsLookup p name = .entry c ↔ s.Linked p ∧ ∃ before after, s.children p = before ++ c :: after ∧
      (s.inodes c).name = name ∧ ∀ c' ∈ before, (s.inodes c').name ≠ name := by
  unfold fsLookup
  cases hget : s.getInode p with
  | none =>
    refine iff_of_false (by simp) fun h' => ?_
    have hsome := getInode_isSome_iff.mpr h'.1
    rw [hget] at hsome
    cases hsome
  | some pnd =>
    have hp : s.Linked p := getInode_isSome_iff.mp (by rw [hget]; rfl)
    obtain rfl : s.inodes p = pnd := by
      unfold getInode at hget
      split at hget
      · cases hget
      · split at hget
        · exact Option.some.inj hget
        · cases hget
    rw [and_iff_right hp]
    cases hdata : (s.inodes p).data with
    | dir children =>
      have hchildren : s.children p = children := by
        rw [InodeSet.children, hdata]
        rfl
      rw [hchildren]
      simp only [hdata]
      cases hfind : children.find? fun c => decide ((s.inodes c).name = name) with
      | none =>
        refine iff_of_false (by simp) ?_
        rintro ⟨before, after, rfl, hname, -⟩
        have hnone := List.find?_eq_none.mp hfind c (List.mem_append_right _ List.mem_cons_self)
        exact hnone (decide_eq_true hname)
      | some c' =>
        obtain ⟨hname, before, after, heq, hbefore⟩ := List.find?_eq_some_iff_append.mp hfind
        have hmem : c' ∈ s.children p := by
          rw [hchildren, heq]
          exact List.mem_append_right _ List.mem_cons_self
        have hlinked := getInode_isSome_iff.mpr (h.child p c' hp hmem).1
        have hnot : ∀ c₁ ∈ before, (s.inodes c₁).name ≠ name := fun c₁ hc₁ hname₁ => by
          have hb := hbefore c₁ hc₁
          simp [hname₁] at hb
        dsimp only
        rw [if_pos hlinked]
        constructor
        · intro h'
          cases h'
          exact ⟨before, after, heq, of_decide_eq_true hname, hnot⟩
        · rintro ⟨before', after', heq', hname', hbefore'⟩
          have hfirst : children.find? (fun c => decide ((s.inodes c).name = name)) = some c := by
            refine List.find?_eq_some_iff_append.mpr ⟨decide_eq_true hname', before', after', heq', ?_⟩
            intro c₁ hc₁
            simpa using hbefore' c₁ hc₁
          rw [hfind] at hfirst
          rw [Option.some.inj hfirst]
    | _ =>
      simp only [hdata]
      refine iff_of_false (by simp) ?_
      rintro ⟨before, after, heq, -⟩
      rw [InodeSet.children, hdata] at heq
      simp [InodeData.children] at heq

/-- An inode is found by its name if it comes first. -/
theorem found_iff (h : s.TreeBut e) (hn : s.Linked n) (hne : n ≠ fuseRootId) :
    s.fsLookup (s.parent n) (s.inodes n).name = .entry n ↔ s.FirstOfName n := by
  rw [fsLookup_entry_iff h, and_iff_right (h.listed n hn hne).1]
  constructor
  · rintro ⟨before, after, heq, -, hbefore⟩
    exact ⟨before, after, heq, hbefore⟩
  · rintro ⟨before, after, heq, hbefore⟩
    exact ⟨before, after, heq, rfl, hbefore⟩

theorem parent_of_found (h : s.TreeBut e) (hfound : s.fsLookup p name = .entry n) :
    s.parent n = p := by
  obtain ⟨hp, before, after, heq, -, -⟩ := (fsLookup_entry_iff h).mp hfound
  exact (h.child p n hp (by rw [heq]; exact List.mem_append_right _ List.mem_cons_self)).2.2

/-! ## Names -/

/-- What holds of the names of a tree. -/
structure Named (s : InodeSet) : Prop where
  plain : ∀ n, s.Linked n → n ≠ fuseRootId → '/' ∉ (s.inodes n).name
  distinct : ∀ p c d, s.Linked p → c ∈ s.children p → d ∈ s.children p → s.IsDir c → s.IsDir d →
    (s.inodes c).name = (s.inodes d).name → c = d

/-- A new inode, with a name that no directory next to it has if it is one itself. -/
theorem named_filled (h : Named s) (htree : s.TreeBut e) (hp : s.Linked p) (hfill : Filled s s' p n)
    (hplain : '/' ∉ (s'.inodes n).name)
    (hnew : s'.IsDir n → ∀ c ∈ s.children p, s.IsDir c → (s.inodes c).name ≠ (s'.inodes n).name) :
    Named s' where
  plain m hm hne := by
    rcases (hfill.linked m).mp hm with hm | rfl
    · rw [(hfill.stays m hm).name]
      exact h.plain m hm hne
    · exact hplain
  distinct q c d hq hc hd hcdir hddir hname := by
    rcases (hfill.linked q).mp hq with hq | rfl
    · by_cases hqp : q = p
      · subst hqp
        have hold : ∀ {c}, c ∈ s.children q → s'.IsDir c →
            s.IsDir c ∧ (s'.inodes c).name = (s.inodes c).name := fun hc hdir =>
          have hstays := hfill.stays _ (htree.child q _ hq hc).1
          ⟨hstays.isDir.mp hdir, hstays.name⟩
        rw [hfill.children_parent, List.mem_append, List.mem_singleton] at hc hd
        rcases hc with hc | rfl <;> rcases hd with hd | rfl
        · obtain ⟨hcdir, hcname⟩ := hold hc hcdir
          obtain ⟨hddir, hdname⟩ := hold hd hddir
          exact h.distinct q c d hq hc hd hcdir hddir (by rw [← hcname, ← hdname, hname])
        · obtain ⟨hcdir, hcname⟩ := hold hc hcdir
          exact absurd (hcname.symm.trans hname) (hnew hddir c hc hcdir)
        · obtain ⟨hddir, hdname⟩ := hold hd hddir
          exact absurd (hdname.symm.trans hname.symm) (hnew hcdir d hd hddir)
        · rfl
      · rw [hfill.children q hq hqp] at hc hd
        have hc' := hfill.stays c (htree.child q c hq hc).1
        have hd' := hfill.stays d (htree.child q d hq hd).1
        exact h.distinct q c d hq hc hd (hc'.isDir.mp hcdir) (hd'.isDir.mp hddir)
          (by rw [← hc'.name, ← hd'.name, hname])
    · rw [hfill.children_new] at hc
      cases hc

theorem getChildDir_eq_zero (h : s.TreeBut e) (hp : s.Linked p) (hnone : s.getChildDir p name = 0) :
    ∀ c ∈ s.children p, s.IsDir c → (s.inodes c).name ≠ name := by
  intro c hc hdir hname
  unfold getChildDir at hnone
  cases hfind : (s.children p).find? fun c =>
      (s.inodes c).data.isDir && (s.inodes c).name == name with
  | none =>
    have hnot := List.find?_eq_none.mp hfind c hc
    exact hnot (Bool.and_eq_true_iff.mpr ⟨hdir, beq_iff_eq.mpr hname⟩)
  | some c' =>
    rw [hfind] at hnone
    have hlinked := (h.child p c' hp (List.mem_of_find?_eq_some hfind)).1
    exact absurd hnone (Nat.ne_of_gt hlinked.1)

theorem named_createFileLoop {pre : List Char} (rest : List Char) (hnamed : Named s)
    (h : s.TreeBut n) (hn : s.Linked n) (hdir : s.IsDir n) (hpre : LeadsTo s n pre)
    (hname : '/' ∉ name) : Named (s.createFileLoop n name rest).2 := by
  induction rest generalizing s n pre name with
  | nil =>
    have hfill : Filled s (append s n fun i =>
        { i with parent := n, name := name, data := .file i.data.stale }) n s.getAvailable.1 :=
      filled_append h.root.1.2.1 hn hdir (fun _ => rfl) (fun _ => rfl) fun _ => rfl
    have hnew : Named (append s n fun i =>
        { i with parent := n, name := name, data := .file i.data.stale }) := by
      refine named_filled hnamed h hn hfill ?_ fun hnew => ?_
      · rw [inodes_append_new]
        exact hname
      · rw [InodeSet.IsDir, inodes_append_new] at hnew
        cases hnew
    exact hnew
  | cons c rest ih =>
    rw [InodeSet.createFileLoop]
    split_ifs with hslash
    · by_cases hnone : s.getChildDir n name = 0
      · obtain ⟨htree, -, -, hlinked, hdir', hpre'⟩ := appendDir_spec h hn hdir hpre name
        have hfill : Filled s (append s n fun _ => ⟨n, name, 0, 0, .dir []⟩) n s.getAvailable.1 :=
          filled_append h.root.1.2.1 hn hdir (fun _ => rfl) (fun _ => rfl) fun _ => rfl
        have hnamed' : Named (append s n fun _ => ⟨n, name, 0, 0, .dir []⟩) := by
          refine named_filled hnamed h hn hfill ?_ fun _ => ?_
          · rwa [inodes_append_new]
          · rw [inodes_append_new]
            exact getChildDir_eq_zero h hn hnone
        dsimp only
        rw [if_pos hnone, if_neg (Nat.ne_of_gt hlinked.1)]
        exact ih hnamed' htree hlinked hdir' hpre' List.not_mem_nil
      · obtain ⟨hmem, hdir', hname'⟩ := getChildDir_spec hnone
        obtain ⟨hlinked, hnotRoot, hparent⟩ := h.child n _ hn hmem
        have htree : s.Tree := tree_of_nonempty h fun _ _ => List.ne_nil_of_mem hmem
        dsimp only
        rw [if_neg hnone]
        dsimp only
        rw [if_neg hnone]
        exact ih hnamed (treeBut_of_tree htree _) hlinked hdir'
          (.inr ⟨hnotRoot, _, spells_child hpre hparent hname', rfl⟩) List.not_mem_nil
    · refine ih hnamed h hn hdir hpre fun hmem => ?_
      rcases List.mem_append.mp hmem with hmem | hmem
      · exact hname hmem
      · exact hslash (List.mem_singleton.mp hmem).symm

theorem named_run {mem : Nat → Inode} {inodesLen now : Nat}
    (hcreate : InodeSet.create mem inodesLen now = some s) (ops : List InodeOp) :
    Named (InodeRun.from s ops).set := by
  have hrun : Kept (InodeRun.from s ops) ∧ Named (InodeRun.from s ops).set := by
    refine exec_invariant (fun r : InodeRun => Kept r ∧ Named r.set) ⟨kept_run hcreate [], ?_⟩ ?_
    · unfold InodeSet.create at hcreate
      split_ifs at hcreate with hlen
      obtain rfl := Option.some.inj hcreate
      have hroot := linked_initial mem (Nat.not_le.mp hlen) now
      refine ⟨fun n hn hne => absurd ((hroot n).mp hn) hne, fun p c d hp hc => ?_⟩
      have hnil : (initial mem inodesLen now).children p = [] := by
        rw [(hroot p).mp hp]
        rfl
      rw [hnil] at hc
      cases hc
    · rintro r op ⟨hkept, hnamed⟩
      cases op with
      | removeBySeed seed =>
        refine ⟨kept_removeBySeed hkept seed, ?_⟩
        obtain ⟨htree, htrim, -⟩ := removeBySeed_spec hkept.tree seed
        have hsub : ∀ p c, (r.set.removeBySeed seed).Linked p →
            c ∈ (r.set.removeBySeed seed).children p →
              c ∈ r.set.children p ∧ (r.set.removeBySeed seed).Linked c := fun p c hp hc =>
          ⟨(List.mem_filter.mp ((htrim.children p hp (isDir_of_mem_children hc)).mem_iff.mp hc)).1,
            (htree.child p c hp hc).1⟩
        refine ⟨fun n hn hne => ?_, fun p c d hp hc hd hcdir hddir hname => ?_⟩
        · rw [InodeRun.step, (htrim.stays n hn).name]
          exact hnamed.plain n (htrim.linked n hn) hne
        · obtain ⟨hc, hlc⟩ := hsub p c hp hc
          obtain ⟨hd, hld⟩ := hsub p d hp hd
          have hcs := htrim.stays c hlc
          have hds := htrim.stays d hld
          exact hnamed.distinct p c d (htrim.linked p hp) hc hd (hcs.isDir.mp hcdir)
            (hds.isDir.mp hddir) (hcs.name.symm.trans (hname.trans hds.name))
      | createFile path file created lastModified =>
        refine ⟨kept_createFile hkept path file created lastModified, ?_⟩
        have hcreated := createFile_spec hkept.tree path
        have hnew : Named (r.set.createFile path).2 :=
          named_createFileLoop path hnamed hkept.tree hkept.tree.root.1 hkept.tree.root.2
            (.inl ⟨rfl, rfl⟩) List.not_mem_nil
        have hfile : ¬ (r.set.createFile path).2.IsDir (r.set.createFile path).1 := by
          obtain ⟨f, hf⟩ := hcreated.file
          rw [InodeSet.IsDir, hf]
          exact Bool.false_ne_true
        obtain ⟨hlinked, -, hname, hchildren, hdir⟩ :=
          setFile_spec hcreated.linked hfile file created lastModified
        have hstep : (r.step (.createFile path file created lastModified)).set =
            (r.set.createFile path).2.setFile (r.set.createFile path).1 file created lastModified := by
          have hne : (r.set.createFile path).1 ≠ 0 := Nat.ne_of_gt hcreated.linked.1
          rw [InodeRun.step]
          exact congrArg InodeRun.set (if_neg hne)
        rw [hstep]
        refine ⟨fun n hn hne => ?_, fun p c d hp hc hd hcdir hddir heq => ?_⟩
        · rw [hname]
          exact hnew.plain n ((hlinked n).mp hn) hne
        · rw [hchildren] at hc hd
          rw [hname, hname] at heq
          exact hnew.distinct p c d ((hlinked p).mp hp) hc hd ((hdir c).mp hcdir) ((hdir d).mp hddir) heq
  exact hrun.2

/-! ## Following a path -/

theorem walk_snoc (names : List (List Char)) :
    s.walk n (names ++ [name]) = some p ↔
      ∃ q, s.walk n names = some q ∧ s.fsLookup q name = .entry p := by
  induction names generalizing n with
  | nil =>
    rw [List.nil_append]
    unfold walk
    constructor
    · intro h
      split at h
      · rename_i c hfound
        obtain rfl := Option.some.inj h
        exact ⟨n, rfl, hfound⟩
      · cases h
    · rintro ⟨q, hq, hfound⟩
      obtain rfl := Option.some.inj hq
      rw [hfound]
      rfl
  | cons first names ih =>
    rw [List.cons_append]
    unfold walk
    split
    · exact ih
    · exact iff_of_false nofun (by rintro ⟨q, hq, -⟩; cases hq)

/-- A path leads to its inode exactly if every inode on the way is the first of its name. -/
theorem walk_iff {path : List Char} (h : s.TreeBut e) (hnamed : Named s) (hn : s.Linked n)
    (hne : n ≠ fuseRootId) (hspells : s.Spells n path) :
    s.walk fuseRootId (path.splitOn '/') = some n ↔ ∀ m, s.OnWay n m → s.FirstOfName m := by
  induction hspells with
  | @inRoot n hparent =>
    have hsplit : (s.inodes n).name.splitOn '/' = [] ++ [(s.inodes n).name] :=
      List.splitOn_eq_singleton (hnamed.plain n hn hne)
    rw [hsplit, walk_snoc]
    constructor
    · rintro ⟨q, hq, hfound⟩ m hm
      obtain rfl := Option.some.inj hq
      cases hm with
      | self => exact (found_iff h hn hne).mp (hparent.symm ▸ hfound)
      | up hup _ => exact absurd hparent hup
    · intro hall
      refine ⟨fuseRootId, rfl, ?_⟩
      have hfound := (found_iff h hn hne).mpr (hall n .self)
      rwa [hparent] at hfound
  | @inDir n path hparent hpath ih =>
    have hsplit : (path ++ '/' :: (s.inodes n).name).splitOn '/' =
        path.splitOn '/' ++ [(s.inodes n).name] := by
      rw [List.splitOn_append_cons_self, List.splitOn_eq_singleton (hnamed.plain n hn hne)]
    have ih' := ih (h.listed n hn hne).1 hparent
    rw [hsplit, walk_snoc]
    constructor
    · rintro ⟨q, hq, hfound⟩ m hm
      obtain rfl := parent_of_found h hfound
      cases hm with
      | self => exact (found_iff h hn hne).mp hfound
      | up _ hm => exact ih'.mp hq m hm
    · exact fun hall => ⟨s.parent n, ih'.mpr fun m hm => hall m (.up hparent hm),
        (found_iff h hn hne).mpr (hall n .self)⟩

end PathLemmas

open InodeSetLemmas PathLemmas in
/-- After any creations and removals, the path that a file was created with is followed to the file
exactly if no child that comes before an inode on the way, or before the file, has its name. Between
two directories this does not happen, whatever paths were created: it is a file whose name a
directory has that gets in the way. -/
theorem path_resolves_iff {mem : Nat → Inode} {inodesLen now : Nat} {s : InodeSet}
    (hcreate : InodeSet.create mem inodesLen now = some s) (ops : List InodeOp) :
    (∀ n, (InodeRun.from s ops).set.Linked n → ¬ (InodeRun.from s ops).set.IsDir n →
      ((InodeRun.from s ops).set.walk fuseRootId (((InodeRun.from s ops).paths n).splitOn '/') =
          some n ↔
        ∀ m, (InodeRun.from s ops).set.OnWay n m → (InodeRun.from s ops).set.FirstOfName m)) ∧
    ∀ m, (InodeRun.from s ops).set.Linked m → m ≠ fuseRootId → (InodeRun.from s ops).set.IsDir m →
      ¬ (InodeRun.from s ops).set.FirstOfName m →
        ∃ c ∈ (InodeRun.from s ops).set.children ((InodeRun.from s ops).set.parent m),
          ¬ (InodeRun.from s ops).set.IsDir c ∧
            ((InodeRun.from s ops).set.inodes c).name = ((InodeRun.from s ops).set.inodes m).name := by
  have hkept := kept_run hcreate ops
  have hnamed := named_run hcreate ops
  generalize InodeRun.from s ops = r at hkept hnamed ⊢
  refine ⟨fun n hn hdir => ?_, fun m hm hne hdir hnot => ?_⟩
  · have hne : n ≠ fuseRootId := fun heq => hdir (heq ▸ hkept.tree.root.2)
    exact walk_iff hkept.tree hnamed hn hne (hkept.paths n hn hdir)
  · obtain ⟨hparent, hmem⟩ := hkept.tree.listed m hm hne
    obtain ⟨before, after, heq⟩ := List.append_of_mem hmem
    by_contra hnone
    refine hnot ⟨before, after, heq, fun c hc hname => hnone ⟨c, ?_, fun hcdir => ?_, hname⟩⟩
    · rw [heq]
      exact List.mem_append_left _ hc
    · have hcmem : c ∈ r.set.children (r.set.parent m) := by
        rw [heq]
        exact List.mem_append_left _ hc
      have hsame := hnamed.distinct _ c m hparent hcmem hmem hcdir hdir hname
      have hnodup := hkept.tree.once _ hparent
      rw [heq, List.nodup_append] at hnodup
      exact hnodup.2.2 c hc m List.mem_cons_self hsame

/-- A file, and another one in a directory of the same name. -/
def shadowed : List InodeOp :=
  let file : InodeFile := ⟨1, Vector.replicate claimRefSize 1, Vector.replicate claimRefSize 2, []⟩
  [.createFile ['a'] file 10 11, .createFile ['a', '/', 'b'] file 10 11]

/-- The second file cannot be reached. -/
theorem path_resolves_shadowed :
    (InodeRun.from (.initial twoSlots 2 9) shadowed).set.Linked 4 ∧
      (InodeRun.from (.initial twoSlots 2 9) shadowed).paths 4 = ['a', '/', 'b'] ∧
      (InodeRun.from (.initial twoSlots 2 9) shadowed).set.walk fuseRootId
        (['a', '/', 'b'].splitOn '/') ≠ some 4 := by
  have hcreate : InodeSet.create twoSlots 2 9 = some (.initial twoSlots 2 9) := rfl
  have hlinked : (InodeRun.from (.initial twoSlots 2 9) shadowed).set.Linked 4 := by decide +kernel
  have hpath : (InodeRun.from (.initial twoSlots 2 9) shadowed).paths 4 = ['a', '/', 'b'] := by
    decide +kernel
  have hfile : ¬ (InodeRun.from (.initial twoSlots 2 9) shadowed).set.IsDir 4 := by
    unfold InodeSet.IsDir
    decide +kernel
  refine ⟨hlinked, hpath, fun hwalk => ?_⟩
  have hiff := (path_resolves_iff hcreate shadowed).1 4 hlinked hfile
  rw [hpath] at hiff
  have hup : (InodeRun.from (.initial twoSlots 2 9) shadowed).set.parent 4 = 3 := by decide +kernel
  obtain ⟨before, after, heq, hbefore⟩ := hiff.mp hwalk 3 (.up (by decide +kernel) (hup ▸ .self))
  have hchildren : (InodeRun.from (.initial twoSlots 2 9) shadowed).set.children
      ((InodeRun.from (.initial twoSlots 2 9) shadowed).set.parent 3) = [2, 3] := by decide +kernel
  rw [hchildren] at heq
  cases before with
  | nil => simp at heq
  | cons c before =>
    obtain ⟨rfl, -⟩ := List.cons.inj heq
    exact hbefore 2 List.mem_cons_self (by decide +kernel)

end Everarch
