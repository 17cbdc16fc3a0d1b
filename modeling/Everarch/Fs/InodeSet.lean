import Everarch.Keys
import Mathlib.Logic.Function.Basic
import Mathlib.Tactic.SplitIfs

/-!
# The inodes of evr-fs

fs-inode.c: a tree of directories and files in an array of slots that grows and whose slots are used
again. Each inode has a link to its parent, and each directory the list of its children.

* `InodeSet.createFile`: `evr_inode_create_file`, with the directories it makes.
* `InodeSet.remove`: `evr_inode_remove`, which goes on with the directories that become empty.
* `InodeSet.removeBySeed`: `evr_inode_remove_by_seed`.
* `InodeSet.TreeBut`: the invariant, up to one directory that may be empty.
* `InodeSetLemmas.createFile_spec`: a creation keeps it, and the new file is where its path says.

Memory is always there. Slot 0 is not used, since 0 is what the functions return where they fail.
-/

namespace Everarch

/-! ## Slots -/

/-- `struct evr_inode_file`. -/
structure InodeFile where
  fileSize : Nat
  fileRef : ClaimRef
  seed : ClaimRef
  dependentSeeds : List ClaimRef

/-- The type of an inode and the member of `union evr_inode_data` that goes with it. -/
inductive InodeData where
  | unlinked
  | dir (children : List Nat)
  | file (f : InodeFile)
  | statusOnline (f : InodeFile)

namespace InodeData

def children : InodeData → List Nat
  | .dir children => children
  | _ => []

def isDir : InodeData → Bool
  | .dir _ => true
  | _ => false

def isLinked : InodeData → Bool
  | .unlinked => false
  | _ => true

/-- What a new file finds where its data is to be. -/
def stale : InodeData → InodeFile
  | .file f => f
  | _ => ⟨0, Vector.replicate claimRefSize 0, Vector.replicate claimRefSize 0, []⟩

end InodeData

/-- `struct evr_inode`. -/
structure Inode where
  parent : Nat
  name : List Char
  created : Nat
  lastModified : Nat
  data : InodeData

/-- `struct evr_inode_set`. -/
structure InodeSet where
  inodes : Nat → Inode
  inodesLen : Nat

/-- `FUSE_ROOT_ID`. -/
def fuseRootId : Nat := 1

namespace InodeSet

/-- The slots that `evr_create_inodes` sets up in the memory that `malloc` returns. -/
def initial (mem : Nat → Inode) (inodesLen now : Nat) : InodeSet where
  inodes := fun n =>
    if n = fuseRootId then ⟨fuseRootId, [], now, now, .dir []⟩
    else if fuseRootId < n ∧ n < inodesLen then { mem n with data := .unlinked }
    else mem n
  inodesLen := inodesLen

/-- `evr_create_inodes`. -/
def create (mem : Nat → Inode) (inodesLen now : Nat) : Option InodeSet :=
  if inodesLen ≤ fuseRootId then none else some (initial mem inodesLen now)

def children (s : InodeSet) (n : Nat) : List Nat :=
  (s.inodes n).data.children

def setData (s : InodeSet) (n : Nat) (data : InodeData) : InodeSet :=
  { s with inodes := Function.update s.inodes n { s.inodes n with data := data } }

/-! ## Creating -/

/-- `evr_inode_get_child_dir`, 0 if there is none. -/
def getChildDir (s : InodeSet) (parent : Nat) (name : List Char) : Nat :=
  ((s.children parent).find? fun c =>
    (s.inodes c).data.isDir && (s.inodes c).name == name).getD 0

/-- `evr_inode_get_available`: the first slot that is not linked, or the first one of the slots by
which the array is doubled. -/
def getAvailable (s : InodeSet) : Nat × InodeSet :=
  match (List.range' (fuseRootId + 1) (s.inodesLen - (fuseRootId + 1))).find? fun n =>
      !(s.inodes n).data.isLinked with
  | some n => (n, s)
  | none =>
    (s.inodesLen,
      ⟨fun n => if s.inodesLen ≤ n ∧ n < s.inodesLen * 2 then
          { s.inodes n with data := .unlinked }
        else s.inodes n, s.inodesLen * 2⟩)

/-- `evr_inode_add_child`. -/
def addChild (s : InodeSet) (parent child : Nat) : InodeSet :=
  s.setData parent (.dir (s.children parent ++ [child]))

/-- `evr_inode_append_dir`. -/
def appendDir (s : InodeSet) (parent : Nat) (name : List Char) : Nat × InodeSet :=
  let (n, s) := s.getAvailable
  let s := s.addChild parent n
  (n, { s with inodes := Function.update s.inodes n ⟨parent, name, 0, 0, .dir []⟩ })

/-- `evr_inode_append_file`. It leaves the times and the data to its caller. -/
def appendFile (s : InodeSet) (parent : Nat) (name : List Char) : Nat × InodeSet :=
  let (n, s) := s.getAvailable
  let s := s.addChild parent n
  (n, { s with inodes := Function.update s.inodes n { s.inodes n with
    parent := parent
    name := name
    data := .file (s.inodes n).data.stale } })

/-- The loop of `evr_inode_create_file`, with the directory `n` it has come to, the name it has
read so far and the rest of the path. -/
def createFileLoop (s : InodeSet) (n : Nat) (name : List Char) : List Char → Nat × InodeSet
  | [] => s.appendFile n name
  | c :: rest =>
    if c = '/' then
      let found := s.getChildDir n name
      let (res, s) := if found = 0 then s.appendDir n name else (found, s)
      if res = 0 then (0, s) else createFileLoop s res [] rest
    else createFileLoop s n (name ++ [c]) rest

/-- `evr_inode_create_file`. -/
def createFile (s : InodeSet) (filePath : List Char) : Nat × InodeSet :=
  s.createFileLoop fuseRootId [] filePath

/-! ## Removing -/

/-- `evr_free_inode_and_children`. The depth of the tree is no larger than the array. -/
def freeInodeAndChildren : Nat → InodeSet → Nat → InodeSet
  | 0, s, _ => s
  | fuel + 1, s, n =>
    ((s.children n).foldl (freeInodeAndChildren fuel) s).setData n .unlinked

/-- The children without `n`: the last one is moved to the place of `n`. -/
def withoutChild (children : List Nat) (n : Nat) : List Nat :=
  children.dropLast.map fun c => if c = n then children.getLastD 0 else c

/-- `evr_inode_remove`. Each round unlinks a slot. -/
def removeLoop : Nat → InodeSet → Nat → InodeSet
  | 0, s, _ => s
  | fuel + 1, s, n =>
    if n = fuseRootId then s
    else
      let s := freeInodeAndChildren (s.inodesLen + 1) s n
      let p := (s.inodes n).parent
      -- `n` is on the list, so that `children_len - 1` does not wrap
      if (s.children p).length ≤ 1 then removeLoop fuel (s.setData p (.dir [])) p
      else s.setData p (.dir (withoutChild (s.children p) n))

def remove (s : InodeSet) (n : Nat) : InodeSet :=
  removeLoop s.inodesLen s n

/-- The inode is a file of the seed. -/
def hasSeed (s : InodeSet) (seed : ClaimRef) (n : Nat) : Bool :=
  match (s.inodes n).data with
  | .file f => f.seed = seed
  | _ => false

/-- `evr_inode_remove_by_seed`. -/
def removeBySeed (s : InodeSet) (seed : ClaimRef) : InodeSet :=
  (List.range' (fuseRootId + 1) (s.inodesLen - (fuseRootId + 1))).foldl
    (fun s n => if s.hasSeed seed n then s.remove n else s) s

/-! ## The tree -/

/-- An inode that is in use. -/
def Linked (s : InodeSet) (n : Nat) : Prop :=
  fuseRootId ≤ n ∧ n < s.inodesLen ∧ (s.inodes n).data.isLinked = true

def IsDir (s : InodeSet) (n : Nat) : Prop :=
  (s.inodes n).data.isDir = true

def parent (s : InodeSet) (n : Nat) : Nat :=
  (s.inodes n).parent

/-- The links to the parents and the lists of the children belong together, and only the directory
`e` may be empty, if it is not the root anyway. -/
structure TreeBut (s : InodeSet) (e : Nat) : Prop where
  root : s.Linked fuseRootId ∧ s.IsDir fuseRootId
  child : ∀ p c, s.Linked p → c ∈ s.children p →
    s.Linked c ∧ c ≠ fuseRootId ∧ s.parent c = p
  listed : ∀ n, s.Linked n → n ≠ fuseRootId →
    s.Linked (s.parent n) ∧ n ∈ s.children (s.parent n)
  once : ∀ p, s.Linked p → (s.children p).Nodup
  nonempty : ∀ n, s.Linked n → s.IsDir n → n ≠ fuseRootId → n ≠ e → s.children n ≠ []
  ranked : ∃ rank : Nat → Nat, ∀ n, s.Linked n → n ≠ fuseRootId →
    rank n = rank (s.parent n) + 1

/-- The names on the way from the root to an inode, with slashes between them. -/
inductive Spells (s : InodeSet) : Nat → List Char → Prop
  | inRoot {n : Nat} (hparent : s.parent n = fuseRootId) : Spells s n (s.inodes n).name
  | inDir {n : Nat} {path : List Char} (hparent : s.parent n ≠ fuseRootId)
      (hpath : Spells s (s.parent n) path) : Spells s n (path ++ '/' :: (s.inodes n).name)

instance decidableLinked (s : InodeSet) (n : Nat) : Decidable (s.Linked n) :=
  inferInstanceAs (Decidable (_ ∧ _ ∧ _))

/-- A tree without empty directories. -/
abbrev Tree (s : InodeSet) : Prop :=
  s.TreeBut fuseRootId

end InodeSet

namespace InodeSetLemmas

open InodeSet

variable {s s' : InodeSet} {e n p : Nat}

theorem inodes_setData_self (s : InodeSet) (n : Nat) (data : InodeData) :
    (s.setData n data).inodes n = { s.inodes n with data := data } :=
  Function.update_self ..

theorem inodes_setData_of_ne {m : Nat} (hmn : m ≠ n) (data : InodeData) :
    (s.setData n data).inodes m = s.inodes m :=
  Function.update_of_ne hmn _ _

theorem isDir_of_mem_children {c : Nat} (h : c ∈ s.children p) : s.IsDir p := by
  unfold InodeSet.children at h
  unfold InodeSet.IsDir
  cases hdata : (s.inodes p).data with
  | dir children => rfl
  | _ =>
    rw [hdata] at h
    cases h

/-- Only links and lists of children matter. -/
theorem treeBut_congr (h : s.TreeBut e) (hlinked : ∀ m, s'.Linked m ↔ s.Linked m)
    (hparent : ∀ m, s.Linked m → s'.parent m = s.parent m)
    (hchildren : ∀ m, s.Linked m → s'.children m = s.children m)
    (hdir : ∀ m, s.Linked m → (s'.IsDir m ↔ s.IsDir m)) : s'.TreeBut e := by
  obtain ⟨hroot, hchild, hlisted, honce, hnonempty, rank, hrank⟩ := h
  refine ⟨?_, ?_, ?_, ?_, ?_, rank, ?_⟩ <;> grind

/-- A directory that is not empty is no exception. -/
theorem tree_of_nonempty (h : s.TreeBut e) (hsome : s.Linked e → s.IsDir e → s.children e ≠ []) :
    s.Tree :=
  { h with
    nonempty := fun n hn hdir hne _ => by
      by_cases hnp : n = e
      · rw [hnp] at hn hdir ⊢
        exact hsome hn hdir
      · exact h.nonempty n hn hdir hne hnp }

theorem treeBut_of_tree (h : s.Tree) (e : Nat) : s.TreeBut e :=
  { h with nonempty := fun n hn hdir hne _ => h.nonempty n hn hdir hne hne }

/-- What does not change for an inode that stays. -/
structure Stays (s s' : InodeSet) (m : Nat) : Prop where
  parent : s'.parent m = s.parent m
  name : (s'.inodes m).name = (s.inodes m).name
  created : (s'.inodes m).created = (s.inodes m).created
  lastModified : (s'.inodes m).lastModified = (s.inodes m).lastModified
  isDir : s'.IsDir m ↔ s.IsDir m
  data : ¬ s.IsDir m → (s'.inodes m).data = (s.inodes m).data

theorem Stays.trans {s'' : InodeSet} {m : Nat} (h : Stays s s' m) (h' : Stays s' s'' m) :
    Stays s s'' m where
  parent := h'.parent.trans h.parent
  name := h'.name.trans h.name
  created := h'.created.trans h.created
  lastModified := h'.lastModified.trans h.lastModified
  isDir := h'.isDir.trans h.isDir
  data hm := (h'.data (mt h.isDir.mp hm)).trans (h.data hm)

theorem Stays.refl (s : InodeSet) (m : Nat) : Stays s s m :=
  ⟨rfl, rfl, rfl, rfl, Iff.rfl, fun _ => rfl⟩

theorem stays_of_eq {m : Nat} (h : s'.inodes m = s.inodes m) : Stays s s' m := by
  refine ⟨?_, by rw [h], by rw [h], by rw [h], ?_, fun _ => by rw [h]⟩
  · rw [InodeSet.parent, h, InodeSet.parent]
  · rw [InodeSet.IsDir, h, InodeSet.IsDir]

/-- A directory stays where its children change. -/
theorem stays_of_dir {m : Nat} {children : List Nat} (hdir : s.IsDir m)
    (h : s'.inodes m = { s.inodes m with data := .dir children }) : Stays s s' m := by
  refine ⟨?_, by rw [h], by rw [h], by rw [h], iff_of_true ?_ hdir, fun hm => absurd hdir hm⟩
  · rw [InodeSet.parent, h, InodeSet.parent]
  · rw [InodeSet.IsDir, h]
    rfl

/-- An inode in a new slot, with an entry in the directory it is in. -/
structure Filled (s s' : InodeSet) (p n : Nat) : Prop where
  fresh : ¬ s.Linked n
  not_root : n ≠ fuseRootId
  linked : ∀ m, s'.Linked m ↔ s.Linked m ∨ m = n
  stays : ∀ m, s.Linked m → Stays s s' m
  parent_new : s'.parent n = p
  children : ∀ m, s.Linked m → m ≠ p → s'.children m = s.children m
  children_parent : s'.children p = s.children p ++ [n]
  children_new : s'.children n = []

theorem treeBut_filled (h : s.TreeBut p) (hp : s.Linked p) (hfill : Filled s s' p n) :
    s'.TreeBut n := by
  obtain ⟨hfresh, hnotRoot, hlinked, hstays, hparentNew, hchildren, hchildrenParent,
    hchildrenNew⟩ := hfill
  obtain ⟨hroot, hchild, hlisted, honce, hnonempty, rank, hrank⟩ := h
  have hnp : n ≠ p := fun heq => hfresh (heq ▸ hp)
  constructor
  case root => exact ⟨(hlinked _).mpr (.inl hroot.1), (hstays _ hroot.1).isDir.mpr hroot.2⟩
  case child =>
    intro q c hq hc
    rcases (hlinked q).mp hq with hq | rfl
    · by_cases hqp : q = p
      · rw [hqp, hchildrenParent, List.mem_append, List.mem_singleton] at hc
        rcases hc with hc | rfl
        · obtain ⟨hlc, hne, hpc⟩ := hchild p c hp hc
          exact ⟨(hlinked c).mpr (.inl hlc), hne, (hstays c hlc).parent.trans (hpc.trans hqp.symm)⟩
        · exact ⟨(hlinked c).mpr (.inr rfl), hnotRoot, hparentNew.trans hqp.symm⟩
      · rw [hchildren q hq hqp] at hc
        obtain ⟨hlc, hne, hpc⟩ := hchild q c hq hc
        exact ⟨(hlinked c).mpr (.inl hlc), hne, (hstays c hlc).parent.trans hpc⟩
    · rw [hchildrenNew] at hc
      cases hc
  case listed =>
    intro m hm hne
    rcases (hlinked m).mp hm with hm | rfl
    · obtain ⟨hlp, hmem⟩ := hlisted m hm hne
      rw [(hstays m hm).parent]
      refine ⟨(hlinked _).mpr (.inl hlp), ?_⟩
      by_cases hqp : s.parent m = p
      · rw [hqp] at hmem ⊢
        rw [hchildrenParent]
        exact List.mem_append_left _ hmem
      · rwa [hchildren _ hlp hqp]
    · rw [hparentNew, hchildrenParent]
      exact ⟨(hlinked p).mpr (.inl hp), List.mem_append_right _ (List.mem_singleton_self m)⟩
  case once =>
    intro q hq
    rcases (hlinked q).mp hq with hq | rfl
    · by_cases hqp : q = p
      · rw [hqp, hchildrenParent]
        refine List.nodup_append.mpr ⟨honce p hp, List.nodup_cons.mpr ⟨List.not_mem_nil,
          List.nodup_nil⟩, ?_⟩
        rintro a ha b hb rfl
        rw [List.mem_singleton.mp hb] at ha
        exact hfresh (hchild p n hp ha).1
      · rw [hchildren q hq hqp]
        exact honce q hq
    · rw [hchildrenNew]
      exact List.nodup_nil
  case nonempty =>
    intro m hm hdirm hne hmn
    have hm := ((hlinked m).mp hm).resolve_right hmn
    by_cases hmp : m = p
    · rw [hmp, hchildrenParent]
      exact List.append_ne_nil_of_right_ne_nil _ (List.cons_ne_nil _ _)
    · rw [hchildren m hm hmp]
      exact hnonempty m hm ((hstays m hm).isDir.mp hdirm) hne hmp
  case ranked =>
    refine ⟨fun m => if m = n then rank p + 1 else rank m, ?_⟩
    intro m hm hne
    dsimp only
    rcases (hlinked m).mp hm with hm | rfl
    · have hmn : m ≠ n := fun heq => hfresh (heq ▸ hm)
      have hpn : s.parent m ≠ n := fun heq => hfresh (heq ▸ (hlisted m hm hne).1)
      rw [(hstays m hm).parent, if_neg hmn, if_neg hpn]
      exact hrank m hm hne
    · rw [hparentNew, if_pos rfl, if_neg hnp.symm]

/-! ## Creating -/

/-- A slot that can be used. -/
structure Available (s s' : InodeSet) (n : Nat) : Prop where
  gt_root : fuseRootId < n
  lt_len : n < s'.inodesLen
  unlinked : (s'.inodes n).data.isLinked = false
  linked : ∀ m, s'.Linked m ↔ s.Linked m
  same : ∀ m, s.Linked m → s'.inodes m = s.inodes m

theorem getAvailable_spec (hlen : fuseRootId < s.inodesLen) :
    Available s s.getAvailable.2 s.getAvailable.1 := by
  unfold InodeSet.getAvailable
  split
  · next n hfound =>
    have hfree := List.find?_some hfound
    obtain ⟨hge, hlt⟩ := List.mem_range'_1.mp (List.mem_of_find?_eq_some hfound)
    exact ⟨hge, by dsimp only; omega, by simpa using hfree, fun _ => Iff.rfl, fun _ _ => rfl⟩
  · refine ⟨hlen, by dsimp only; unfold fuseRootId at hlen; omega, ?_, fun m => ?_, fun m hm => ?_⟩
    · dsimp only
      rw [if_pos ⟨Nat.le_refl _, by unfold fuseRootId at hlen; omega⟩]
      rfl
    · unfold InodeSet.Linked
      dsimp only
      split_ifs with hnew
      · refine iff_of_false (fun h => Bool.false_ne_true h.2.2) fun h => ?_
        exact absurd h.2.1 (Nat.not_lt.mpr hnew.1)
      · have hbound : m < s.inodesLen * 2 ∧ ¬ (s.inodesLen ≤ m ∧ m < s.inodesLen * 2) ↔
            m < s.inodesLen := by omega
        constructor
        · exact fun h => ⟨h.1, hbound.mp ⟨h.2.1, hnew⟩, h.2.2⟩
        · exact fun h => ⟨h.1, (hbound.mpr h.2.1).1, h.2.2⟩
    · exact if_neg fun hnew => absurd hm.2.1 (Nat.not_lt.mpr hnew.1)

/-- What `evr_inode_append_dir` and `evr_inode_append_file` do to the slots. -/
def append (s : InodeSet) (p : Nat) (nd : Inode → Inode) : InodeSet :=
  { s.getAvailable.2.addChild p s.getAvailable.1 with
    inodes := Function.update (s.getAvailable.2.addChild p s.getAvailable.1).inodes
      s.getAvailable.1
      (nd ((s.getAvailable.2.addChild p s.getAvailable.1).inodes s.getAvailable.1)) }

theorem inodes_append_new (s : InodeSet) (p : Nat) (nd : Inode → Inode) :
    (append s p nd).inodes s.getAvailable.1 =
      nd ((s.getAvailable.2.addChild p s.getAvailable.1).inodes s.getAvailable.1) :=
  Function.update_self ..

theorem inodes_append_parent (nd : Inode → Inode) (hnp : p ≠ s.getAvailable.1)
    (hsame : s.getAvailable.2.inodes p = s.inodes p) :
    (append s p nd).inodes p =
      { s.inodes p with data := .dir (s.children p ++ [s.getAvailable.1]) } := by
  rw [append]
  dsimp only
  rw [Function.update_of_ne hnp, InodeSet.addChild, inodes_setData_self, InodeSet.children, hsame]
  rfl

theorem inodes_append_of_ne {m : Nat} (nd : Inode → Inode) (hmn : m ≠ s.getAvailable.1)
    (hmp : m ≠ p) : (append s p nd).inodes m = s.getAvailable.2.inodes m := by
  rw [append]
  dsimp only
  rw [Function.update_of_ne hmn, InodeSet.addChild, inodes_setData_of_ne hmp]

theorem filled_append {nd : Inode → Inode} (hlen : fuseRootId < s.inodesLen) (hp : s.Linked p)
    (hdir : s.IsDir p) (hparent : ∀ i, (nd i).parent = p)
    (hlinked : ∀ i, (nd i).data.isLinked = true) (hchildren : ∀ i, (nd i).data.children = []) :
    Filled s (append s p nd) p s.getAvailable.1 := by
  obtain ⟨hgt, hlt, hunlinked, hsame, heq⟩ := getAvailable_spec hlen
  have hfresh : ¬ s.Linked s.getAvailable.1 := fun h => by
    have h' := (hsame _).mpr h
    rw [InodeSet.Linked, hunlinked] at h'
    exact Bool.false_ne_true h'.2.2
  have hnp : p ≠ s.getAvailable.1 := fun h => hfresh (h ▸ hp)
  have hat := inodes_append_new s p nd
  have hatp := inodes_append_parent nd hnp (heq p hp)
  have hother : ∀ m, s.Linked m → m ≠ p → (append s p nd).inodes m = s.inodes m := by
    intro m hm hmp
    rw [inodes_append_of_ne nd (fun h => hfresh (h ▸ hm)) hmp, heq m hm]
  constructor
  case fresh => exact hfresh
  case not_root => exact Nat.ne_of_gt hgt
  case linked =>
    intro m
    by_cases hmn : m = s.getAvailable.1
    · refine iff_of_true ?_ (.inr hmn)
      rw [hmn, InodeSet.Linked, hat]
      exact ⟨Nat.le_of_lt hgt, hlt, hlinked _⟩
    · rw [or_iff_left hmn, ← hsame]
      by_cases hmp : m = p
      · rw [hmp]
        refine iff_of_true ?_ ((hsame p).mpr hp)
        rw [InodeSet.Linked, hatp]
        exact ⟨hp.1, ((hsame p).mpr hp).2.1, rfl⟩
      · rw [InodeSet.Linked, inodes_append_of_ne nd hmn hmp]
        rfl
  case stays =>
    intro m hm
    by_cases hmp : m = p
    · rw [hmp]
      exact stays_of_dir hdir hatp
    · exact stays_of_eq (hother m hm hmp)
  case parent_new => rw [InodeSet.parent, hat, hparent]
  case children =>
    intro m hm hmp
    rw [InodeSet.children, hother m hm hmp, InodeSet.children]
  case children_parent =>
    rw [InodeSet.children, hatp]
    rfl
  case children_new => rw [InodeSet.children, hat, hchildren]

/-- Inodes are added, and the old ones stay. -/
def Grown (s s' : InodeSet) : Prop :=
  ∀ m, s.Linked m → s'.Linked m ∧ Stays s s' m

theorem Grown.trans {s'' : InodeSet} (h : Grown s s') (h' : Grown s' s'') : Grown s s'' :=
  fun m hm => ⟨(h' m (h m hm).1).1, (h m hm).2.trans (h' m (h m hm).1).2⟩

theorem Filled.grown (h : Filled s s' p n) : Grown s s' :=
  fun m hm => ⟨(h.linked m).mpr (.inl hm), h.stays m hm⟩

/-- The names from the root to an inode stay as long as the inodes between them. -/
theorem spells_congr {path : List Char} {P : Nat → Prop} (h : s.Spells n path) (hn : P n)
    (hsame : ∀ m, P m → s'.parent m = s.parent m ∧ (s'.inodes m).name = (s.inodes m).name)
    (hup : ∀ m, P m → s.parent m ≠ fuseRootId → P (s.parent m)) : s'.Spells n path := by
  induction h with
  | inRoot hparent =>
    rw [← (hsame _ hn).2]
    exact .inRoot ((hsame _ hn).1.trans hparent)
  | inDir hparent _ ih =>
    have hspells := ih (hup _ hn hparent)
    rw [← (hsame _ hn).1] at hparent hspells
    rw [← (hsame _ hn).2]
    exact .inDir hparent hspells

theorem spells_stays {path : List Char} (h : s.Spells n path) (htree : s.TreeBut e)
    (hn : s.Linked n) (hroot : n ≠ fuseRootId) (hstays : ∀ m, s.Linked m → Stays s s' m) :
    s'.Spells n path :=
  spells_congr (P := fun m => s.Linked m ∧ m ≠ fuseRootId) h ⟨hn, hroot⟩
    (fun m hm => ⟨(hstays m hm.1).parent, (hstays m hm.1).name⟩)
    fun m hm hne => ⟨(htree.listed m hm.1 hm.2).1, hne⟩

/-- The directory `n` is where the part `pre` of a path leads to. -/
def LeadsTo (s : InodeSet) (n : Nat) (pre : List Char) : Prop :=
  n = fuseRootId ∧ pre = [] ∨ n ≠ fuseRootId ∧ ∃ path, s.Spells n path ∧ pre = path ++ ['/']

/-- An inode in such a directory. -/
theorem spells_child {c : Nat} {pre name : List Char} (h : LeadsTo s n pre) (hc : s.parent c = n)
    (hname : (s.inodes c).name = name) : s.Spells c (pre ++ name) := by
  rcases h with ⟨hroot, rfl⟩ | ⟨hne, path, hspells, rfl⟩
  · rw [← hname]
    exact .inRoot (hc.trans hroot)
  · rw [← hname, List.append_assoc, List.singleton_append]
    exact .inDir (hc ▸ hne) (hc ▸ hspells)

theorem LeadsTo.stays {pre : List Char} (h : LeadsTo s n pre) (htree : s.TreeBut e)
    (hn : s.Linked n) (hstays : ∀ m, s.Linked m → Stays s s' m) : LeadsTo s' n pre := by
  rcases h with ⟨hroot, hpre⟩ | ⟨hne, path, hspells, hpre⟩
  · exact .inl ⟨hroot, hpre⟩
  · exact .inr ⟨hne, path, spells_stays hspells htree hn hne hstays, hpre⟩

/-- A new file under its path, in a tree that has grown. -/
structure Created (s : InodeSet) (path : List Char) (r : Nat × InodeSet) : Prop where
  tree : r.2.Tree
  grown : Grown s r.2
  fresh : ¬ s.Linked r.1
  linked : r.2.Linked r.1
  file : ∃ f, (r.2.inodes r.1).data = .file f
  files : ∀ m, r.2.Linked m → ¬ r.2.IsDir m → m ≠ r.1 → s.Linked m
  spells : r.2.Spells r.1 path

theorem appendFile_spec {pre name : List Char} (h : s.TreeBut n) (hn : s.Linked n)
    (hdir : s.IsDir n) (hpre : LeadsTo s n pre) :
    Created s (pre ++ name) (s.appendFile n name) := by
  have hfill : Filled s (append s n fun i =>
      { i with parent := n, name := name, data := .file i.data.stale }) n s.getAvailable.1 :=
    filled_append h.root.1.2.1 hn hdir (fun _ => rfl) (fun _ => rfl) fun _ => rfl
  have hnew : (append s n fun i => { i with
      parent := n, name := name, data := .file i.data.stale }).inodes s.getAvailable.1 =
        { (s.getAvailable.2.addChild n s.getAvailable.1).inodes s.getAvailable.1 with
          parent := n
          name := name
          data := .file ((s.getAvailable.2.addChild n
            s.getAvailable.1).inodes s.getAvailable.1).data.stale } := Function.update_self ..
  have hlinked := (hfill.linked s.getAvailable.1).mpr (.inr rfl)
  refine ⟨tree_of_nonempty (treeBut_filled h hn hfill) fun _ hdir' => ?_, hfill.grown, hfill.fresh,
    hlinked, ⟨_, congrArg Inode.data hnew⟩,
    fun m hm _ hmn => ((hfill.linked m).mp hm).resolve_right hmn, ?_⟩
  · have hfile : ((s.appendFile n name).2.inodes s.getAvailable.1).data.isDir = false :=
      congrArg (fun i : Inode => i.data.isDir) hnew
    rw [InodeSet.IsDir, hfile] at hdir'
    cases hdir'
  · exact spells_child (hpre.stays h hn hfill.stays) hfill.parent_new (congrArg Inode.name hnew)

theorem appendDir_spec {pre : List Char} (h : s.TreeBut n) (hn : s.Linked n)
    (hdir : s.IsDir n) (hpre : LeadsTo s n pre) (name : List Char) :
    (s.appendDir n name).2.TreeBut (s.appendDir n name).1 ∧ Grown s (s.appendDir n name).2 ∧
      (∀ m, (s.appendDir n name).2.Linked m ↔ s.Linked m ∨ m = (s.appendDir n name).1) ∧
      (s.appendDir n name).2.Linked (s.appendDir n name).1 ∧
      (s.appendDir n name).2.IsDir (s.appendDir n name).1 ∧
      LeadsTo (s.appendDir n name).2 (s.appendDir n name).1 (pre ++ name ++ ['/']) := by
  have hfill : Filled s (append s n fun _ => ⟨n, name, 0, 0, .dir []⟩) n s.getAvailable.1 :=
    filled_append h.root.1.2.1 hn hdir (fun _ => rfl) (fun _ => rfl) fun _ => rfl
  have hnew : (append s n fun _ => ⟨n, name, 0, 0, .dir []⟩).inodes s.getAvailable.1 =
      ⟨n, name, 0, 0, .dir []⟩ := Function.update_self ..
  have hlinked := (hfill.linked s.getAvailable.1).mpr (.inr rfl)
  refine ⟨treeBut_filled h hn hfill, hfill.grown, hfill.linked, hlinked, ?_, .inr ⟨hfill.not_root, _,
    spells_child (hpre.stays h hn hfill.stays) hfill.parent_new (congrArg Inode.name hnew), rfl⟩⟩
  exact congrArg (fun i : Inode => i.data.isDir) hnew

theorem getChildDir_spec {name : List Char} (h : s.getChildDir n name ≠ 0) :
    s.getChildDir n name ∈ s.children n ∧ s.IsDir (s.getChildDir n name) ∧
      (s.inodes (s.getChildDir n name)).name = name := by
  unfold InodeSet.getChildDir at h ⊢
  cases hfound : (s.children n).find? fun c =>
      (s.inodes c).data.isDir && (s.inodes c).name == name with
  | none =>
    rw [hfound] at h
    exact absurd rfl h
  | some c =>
    have hc := List.find?_some hfound
    rw [Bool.and_eq_true, beq_iff_eq] at hc
    exact ⟨List.mem_of_find?_eq_some hfound, hc⟩

theorem createFileLoop_spec {pre name : List Char} (rest : List Char) (h : s.TreeBut n)
    (hn : s.Linked n) (hdir : s.IsDir n) (hpre : LeadsTo s n pre) :
    Created s (pre ++ name ++ rest) (s.createFileLoop n name rest) := by
  induction rest generalizing s n pre name with
  | nil =>
    rw [List.append_nil]
    exact appendFile_spec h hn hdir hpre
  | cons c rest ih =>
    rw [InodeSet.createFileLoop]
    split_ifs with hslash
    · have hpath : pre ++ name ++ c :: rest = pre ++ name ++ ['/'] ++ [] ++ rest := by
        rw [hslash, List.append_nil, List.append_assoc _ ['/'], List.singleton_append]
      rw [hpath]
      by_cases hnone : s.getChildDir n name = 0
      · obtain ⟨htree, hgrown, hold, hlinked, hdir', hpre'⟩ := appendDir_spec h hn hdir hpre name
        have hres : (s.appendDir n name).1 ≠ 0 := Nat.ne_of_gt hlinked.1
        have hrest : Created (s.appendDir n name).2 (pre ++ name ++ ['/'] ++ [] ++ rest)
            ((s.appendDir n name).2.createFileLoop (s.appendDir n name).1 [] rest) :=
          ih htree hlinked hdir' hpre'
        dsimp only
        rw [if_pos hnone, if_neg hres]
        exact { hrest with
          grown := hgrown.trans hrest.grown
          fresh := fun hlinked' => hrest.fresh (hgrown _ hlinked').1
          files := fun m hm hdirm hmn => by
            refine ((hold m).mp (hrest.files m hm hdirm hmn)).resolve_right fun hmd => hdirm ?_
            rw [hmd]
            exact (hrest.grown _ hlinked).2.isDir.mpr hdir' }
      · obtain ⟨hmem, hdir', hname⟩ := getChildDir_spec hnone
        obtain ⟨hlinked, hnotRoot, hparent⟩ := h.child n _ hn hmem
        have htree : s.Tree := tree_of_nonempty h fun _ _ => List.ne_nil_of_mem hmem
        dsimp only
        rw [if_neg hnone]
        dsimp only
        rw [if_neg hnone]
        exact ih (treeBut_of_tree htree _) hlinked hdir'
          (.inr ⟨hnotRoot, _, spells_child hpre hparent hname, rfl⟩)
    · have hpath : pre ++ name ++ c :: rest = pre ++ (name ++ [c]) ++ rest := by
        rw [List.append_assoc, List.append_assoc, List.append_assoc, List.singleton_append]
      rw [hpath]
      exact ih h hn hdir hpre

theorem createFile_spec (h : s.Tree) (path : List Char) : Created s path (s.createFile path) := by
  have hloop : Created s ([] ++ [] ++ path) (s.createFileLoop fuseRootId [] path) :=
    createFileLoop_spec path h h.root.1 h.root.2 (.inl ⟨rfl, rfl⟩)
  exact hloop

theorem linked_initial (mem : Nat → Inode) {inodesLen : Nat} (hlen : fuseRootId < inodesLen)
    (now n : Nat) : (initial mem inodesLen now).Linked n ↔ n = fuseRootId := by
  unfold InodeSet.Linked initial
  dsimp only
  split_ifs with hroot hnew
  · rw [hroot]
    exact iff_of_true ⟨Nat.le_refl _, hlen, rfl⟩ rfl
  · exact iff_of_false (fun h => Bool.false_ne_true h.2.2) hroot
  · exact iff_of_false (fun h => hnew ⟨Nat.lt_of_le_of_ne h.1 (Ne.symm hroot), h.2.1⟩) hroot

theorem tree_initial (mem : Nat → Inode) {inodesLen : Nat} (hlen : fuseRootId < inodesLen)
    (now : Nat) : (initial mem inodesLen now).Tree := by
  have hlinked := linked_initial mem hlen now
  have hchildren : (initial mem inodesLen now).children fuseRootId = [] := rfl
  refine ⟨⟨(hlinked _).mpr rfl, rfl⟩, fun p c hp hc => ?_,
    fun n hn hne => absurd ((hlinked n).mp hn) hne, fun p hp => ?_,
    fun n hn _ hne => absurd ((hlinked n).mp hn) hne, fun _ => 0,
    fun n hn hne => absurd ((hlinked n).mp hn) hne⟩
  · rw [(hlinked p).mp hp, hchildren] at hc
    cases hc
  · rw [(hlinked p).mp hp, hchildren]
    exact List.nodup_nil

end InodeSetLemmas

end Everarch
