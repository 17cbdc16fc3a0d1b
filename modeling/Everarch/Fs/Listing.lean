import Everarch.Fs.InodeRemoval
import Everarch.Lib.Bytes

/-!
# Directory listings of evr-fs

`evr_fs_readdir` of evr-fs.c for a reader that asks for one part after the other. It takes some of
the entries of a part and goes on behind the last that it took.

How an entry is written is up to libfuse and how a part is read is up to the kernel. Both are a
parameter, `FuseDirents`, and `FuseDirents.Lawful` is what the listing relies on.

* `ListingLemmas.parse_encoded`: the entries of a part.
* `ListingLemmas.listed_placed`: what was taken of all parts.

Results: `readdir_lists`; `readdir_lists_root`, a root directory after the first part.
-/

namespace Everarch

/-! ## Entries -/

/-- An entry that was read: its name, its inode and where the next one begins. -/
structure Dirent where
  name : Bytes
  ino : Nat
  off : Nat
deriving DecidableEq, Repr

/-- Directory entries of libfuse and the kernel. -/
structure FuseDirents where
  /-- `fuse_add_direntry` of a name, an inode and an offset into a buffer with room for it. -/
  add : Bytes → Nat → Nat → Bytes
  /-- `fuse_add_direntry` without a buffer. -/
  size : Bytes → Nat
  /-- The entries that the kernel finds in a part. -/
  parse : Bytes → List Dirent
  /-- The names that the kernel accepts. -/
  accepts : Bytes → Bool

/-- What `evr_fs_readdir` relies on. -/
structure FuseDirents.Lawful (fuse : FuseDirents) : Prop where
  length_add : ∀ name ino off, (fuse.add name ino off).length = fuse.size name
  parse_nil : fuse.parse [] = []
  /-- An entry at the beginning of a part is found if it is complete. -/
  parse_take : ∀ (name : Bytes) (ino off : Nat) (more : Bytes) (size : Nat),
    fuse.accepts name = true → ino < 2 ^ 64 → off < 2 ^ 63 →
      fuse.parse ((fuse.add name ino off ++ more).take size) =
        if fuse.size name ≤ size then
          ⟨name, ino, off⟩ :: fuse.parse (more.take (size - fuse.size name))
        else []

/-! ## The directory -/

/-- `evr_add_direntry`. -/
def addDirentry (fuse : FuseDirents) (buf : Bytes) (entry : Bytes × Nat) : Bytes :=
  buf ++ fuse.add entry.1 entry.2 (buf.length + fuse.size entry.1)

/-- The bytes of a name, one for each C character. -/
def nameBytes (name : List Char) : Bytes :=
  name.map fun c => UInt8.ofNat c.toNat

/-- A directory with its parent and its children. -/
def InodeSet.direntries (s : InodeSet) (ino : Nat) : List (Bytes × Nat) :=
  (nameBytes ['.'], ino) :: (nameBytes ['.', '.'], s.parent ino) ::
    (s.children ino).map fun c => (nameBytes (s.inodes c).name, c)

inductive ReaddirReply where
  | buf (part : Bytes)
  | enotdir
  /-- `evr_get_inode` found nothing. -/
  | crash
deriving DecidableEq, Repr

/-- `evr_fs_readdir`. -/
def InodeSet.fsReaddir (fuse : FuseDirents) (s : InodeSet) (ino size off : Nat) : ReaddirReply :=
  if s.Linked ino then
    match (s.inodes ino).data with
    | .dir _ =>
      let buf := (s.direntries ino).foldl (addDirentry fuse) []
      if buf.length ≤ off then .buf []
      else .buf ((buf.drop off).take (min (buf.length - off) size))
    | _ => .enotdir
  else .crash

/-- A reader took these entries and asks from this offset on. Each part has a size of its own, and
the reader may leave the last entries of a part for the next one. -/
inductive Listed (fuse : FuseDirents) (s : InodeSet) (ino : Nat) : Nat → List Dirent → Prop where
  | start : Listed fuse s ino 0 []
  | part {off size : Nat} {seen taken : List Dirent} {part : Bytes} {last : Dirent} :
      Listed fuse s ino off seen → s.fsReaddir fuse ino size off = .buf part →
      taken <+: fuse.parse part → taken.getLast? = some last →
      Listed fuse s ino last.off (seen ++ taken)

namespace ListingLemmas

open InodeSet

variable {fuse : FuseDirents} {s : InodeSet} {ino : Nat}

/-! ## The buffer -/

/-- Entries from a position of the buffer on. -/
def encoded (fuse : FuseDirents) (base : Nat) : List (Bytes × Nat) → Bytes
  | [] => []
  | entry :: rest =>
    fuse.add entry.1 entry.2 (base + fuse.size entry.1) ++
      encoded fuse (base + fuse.size entry.1) rest

theorem foldl_addDirentry (hfuse : fuse.Lawful) (buf : Bytes) (entries : List (Bytes × Nat)) :
    entries.foldl (addDirentry fuse) buf = buf ++ encoded fuse buf.length entries := by
  induction entries generalizing buf with
  | nil => simp [encoded]
  | cons entry rest ih =>
    rw [List.foldl_cons, ih, addDirentry, List.length_append, hfuse.length_add, encoded,
      List.append_assoc]

/-- The size of entries. -/
def entriesSize (fuse : FuseDirents) (entries : List (Bytes × Nat)) : Nat :=
  (entries.map fun entry => fuse.size entry.1).sum

theorem entriesSize_cons (entry : Bytes × Nat) (rest : List (Bytes × Nat)) :
    entriesSize fuse (entry :: rest) = fuse.size entry.1 + entriesSize fuse rest := by
  simp [entriesSize]

theorem entriesSize_append (entries rest : List (Bytes × Nat)) :
    entriesSize fuse (entries ++ rest) = entriesSize fuse entries + entriesSize fuse rest := by
  simp [entriesSize]

theorem length_encoded (hfuse : fuse.Lawful) (base : Nat) (entries : List (Bytes × Nat)) :
    (encoded fuse base entries).length = entriesSize fuse entries := by
  induction entries generalizing base with
  | nil => rfl
  | cons entry rest ih =>
    rw [encoded, List.length_append, hfuse.length_add, ih, entriesSize_cons]

theorem encoded_append (base : Nat) (entries rest : List (Bytes × Nat)) :
    encoded fuse base (entries ++ rest) =
      encoded fuse base entries ++ encoded fuse (base + entriesSize fuse entries) rest := by
  induction entries generalizing base with
  | nil => rfl
  | cons entry entries ih =>
    rw [List.cons_append, encoded, ih, encoded, List.append_assoc, entriesSize_cons, Nat.add_assoc]

/-- Both branches of the reply are the same part of the buffer. -/
theorem fsReaddir_dir (hfuse : fuse.Lawful) (hlinked : s.Linked ino) (hdir : s.IsDir ino)
    (size off : Nat) :
    s.fsReaddir fuse ino size off =
      .buf (((encoded fuse 0 (s.direntries ino)).drop off).take size) := by
  unfold fsReaddir
  rw [if_pos hlinked]
  cases hdata : (s.inodes ino).data with
  | dir children =>
    simp only [foldl_addDirentry hfuse, List.nil_append, List.length_nil]
    split
    · rename_i hend
      rw [List.drop_of_length_le hend, List.take_nil]
    · rw [← List.length_drop, ← List.take_take, List.take_of_length_le (List.length_take_le' _ _)]
  | _ =>
    rw [InodeSet.IsDir, hdata] at hdir
    cases hdir

/-! ## One part -/

/-- The entries with the positions behind them. -/
def placed (fuse : FuseDirents) (base : Nat) : List (Bytes × Nat) → List Dirent
  | [] => []
  | entry :: rest =>
    ⟨entry.1, entry.2, base + fuse.size entry.1⟩ :: placed fuse (base + fuse.size entry.1) rest

theorem length_placed (base : Nat) (entries : List (Bytes × Nat)) :
    (placed fuse base entries).length = entries.length := by
  induction entries generalizing base with
  | nil => rfl
  | cons entry rest ih => rw [placed, List.length_cons, ih, List.length_cons]

theorem placed_entries (base : Nat) (entries : List (Bytes × Nat)) :
    (placed fuse base entries).map (fun e => (e.name, e.ino)) = entries := by
  induction entries generalizing base with
  | nil => rfl
  | cons entry rest ih => rw [placed, List.map_cons, ih]

theorem placed_append (base : Nat) (entries rest : List (Bytes × Nat)) :
    placed fuse base (entries ++ rest) =
      placed fuse base entries ++ placed fuse (base + entriesSize fuse entries) rest := by
  induction entries generalizing base with
  | nil => rfl
  | cons entry entries ih =>
    rw [List.cons_append, placed, ih, placed, List.cons_append, entriesSize_cons, Nat.add_assoc]

/-- What is taken of entries are the first of them. -/
theorem eq_placed_of_prefix {base : Nat} {entries : List (Bytes × Nat)} {taken : List Dirent}
    (h : taken <+: placed fuse base entries) :
    ∃ firsts, firsts <+: entries ∧ taken = placed fuse base firsts := by
  refine ⟨entries.take taken.length, List.take_prefix _ _, ?_⟩
  have hlength : taken.length ≤ entries.length := by
    have hle := h.length_le
    rwa [length_placed] at hle
  have hfirsts : (placed fuse base (entries.take taken.length)).length = taken.length := by
    rw [length_placed, List.length_take, Nat.min_eq_left hlength]
  calc taken = (placed fuse base entries).take taken.length := List.prefix_iff_eq_take.mp h
    _ = placed fuse base (entries.take taken.length) := by
      conv_lhs => rw [← List.take_append_drop taken.length entries, placed_append]
      exact List.take_left' hfirsts

theorem off_of_getLast? {base : Nat} {entries : List (Bytes × Nat)} {last : Dirent}
    (h : (placed fuse base entries).getLast? = some last) :
    last.off = base + entriesSize fuse entries := by
  induction entries generalizing base with
  | nil => simp [placed] at h
  | cons entry rest ih =>
    cases rest with
    | nil =>
      obtain rfl : (⟨entry.1, entry.2, base + fuse.size entry.1⟩ : Dirent) = last := by
        simpa [placed] using h
      simp [entriesSize]
    | cons next rest =>
      rw [placed, placed, List.getLast?_cons_cons] at h
      have hoff := ih h
      rw [hoff, entriesSize_cons entry, Nat.add_assoc]

/-- Every entry fits at its place. -/
def AllFit (fuse : FuseDirents) (base : Nat) (entries : List (Bytes × Nat)) : Prop :=
  (∀ entry ∈ entries, fuse.accepts entry.1 = true ∧ entry.2 < 2 ^ 64) ∧
    base + entriesSize fuse entries < 2 ^ 63

/-- The entries of a part are the next ones. It has one exactly if the next one fits. -/
theorem parse_encoded (hfuse : fuse.Lawful) {base : Nat} {entries : List (Bytes × Nat)}
    (h : AllFit fuse base entries) (size : Nat) :
    fuse.parse ((encoded fuse base entries).take size) <+: placed fuse base entries ∧
      (fuse.parse ((encoded fuse base entries).take size) = [] ↔
        ∀ entry ∈ entries.head?, size < fuse.size entry.1) := by
  induction entries generalizing base size with
  | nil => simp [encoded, placed, hfuse.parse_nil]
  | cons entry rest ih =>
    obtain ⟨hentries, hsize⟩ := h
    rw [entriesSize_cons] at hsize
    obtain ⟨haccepts, hino⟩ := hentries entry List.mem_cons_self
    have hrest : AllFit fuse (base + fuse.size entry.1) rest :=
      ⟨fun e he => hentries e (List.mem_cons_of_mem _ he), by omega⟩
    rw [encoded, hfuse.parse_take _ _ _ _ _ haccepts hino (by omega), placed]
    by_cases hfits : fuse.size entry.1 ≤ size
    · rw [if_pos hfits]
      refine ⟨(List.prefix_cons_inj _).mpr (ih hrest _).1, ?_⟩
      simpa using hfits
    · rw [if_neg hfits]
      exact ⟨List.nil_prefix, by simpa using hfits⟩

/-! ## All parts -/

/-- A part that begins between two entries. -/
theorem fsReaddir_between (hfuse : fuse.Lawful) (hlinked : s.Linked ino) (hdir : s.IsDir ino)
    {entries rest : List (Bytes × Nat)} (hall : s.direntries ino = entries ++ rest) (size : Nat) :
    s.fsReaddir fuse ino size (entriesSize fuse entries) =
      .buf ((encoded fuse (entriesSize fuse entries) rest).take size) := by
  rw [fsReaddir_dir hfuse hlinked hdir, hall, encoded_append, Nat.zero_add]
  congr 2
  exact List.drop_left' (length_encoded hfuse 0 entries)

theorem allFit_append {base : Nat} {entries rest : List (Bytes × Nat)}
    (h : AllFit fuse base (entries ++ rest)) :
    AllFit fuse (base + entriesSize fuse entries) rest := by
  obtain ⟨hentries, hsize⟩ := h
  rw [entriesSize_append] at hsize
  exact ⟨fun entry hentry => hentries entry (List.mem_append_right _ hentry), by omega⟩

/-- What was taken are the first entries, and the offset is behind the last of them. -/
theorem listed_placed (hfuse : fuse.Lawful) (hlinked : s.Linked ino) (hdir : s.IsDir ino)
    (hfit : AllFit fuse 0 (s.direntries ino)) {off : Nat} {seen : List Dirent}
    (h : Listed fuse s ino off seen) :
    ∃ entries rest, s.direntries ino = entries ++ rest ∧ seen = placed fuse 0 entries ∧
      off = entriesSize fuse entries := by
  induction h with
  | start => exact ⟨[], _, rfl, rfl, rfl⟩
  | part _ hreply htaken hlast ih =>
    obtain ⟨entries, rest, hall, rfl, rfl⟩ := ih
    rw [hall] at hfit
    have hrest := allFit_append hfit
    rw [Nat.zero_add] at hrest
    rw [fsReaddir_between hfuse hlinked hdir hall, ReaddirReply.buf.injEq] at hreply
    subst hreply
    obtain ⟨firsts, ⟨more, rfl⟩, rfl⟩ :=
      eq_placed_of_prefix (htaken.trans (parse_encoded hfuse hrest _).1)
    refine ⟨entries ++ firsts, more, by rw [hall, List.append_assoc], ?_, ?_⟩
    · rw [placed_append, Nat.zero_add]
    · rw [off_of_getLast? hlast, entriesSize_append]

/-! ## Entries as they are written -/

/-- Little-endian numbers. -/
def leBytes (w n : Nat) : Bytes :=
  (beBytes w n).reverse

def ofLeBytes (bs : Bytes) : Nat :=
  ofBeBytes bs.reverse

/-- `FUSE_NAME_OFFSET`. -/
def fuseNameOffset : Nat := 24

/-- `FUSE_NAME_MAX`. -/
def fuseNameMax : Nat := 1024

/-- `FUSE_DIRENT_ALIGN` of the size of an entry whose name has this length. -/
def direntSize (namelen : Nat) : Nat :=
  (fuseNameOffset + namelen + 7) / 8 * 8

/-- `struct fuse_dirent` for a `st_mode` of 0. -/
def fuseDirent (name : Bytes) (ino off : Nat) : Bytes :=
  leBytes 8 ino ++ leBytes 8 off ++ leBytes 4 name.length ++ leBytes 4 0 ++ name ++
    List.replicate (direntSize name.length - (fuseNameOffset + name.length)) 0

/-- Names that are not empty, not too long and without a slash. -/
def fuseAccepts (name : Bytes) : Bool :=
  decide (name ≠ [] ∧ name.length ≤ fuseNameMax ∧ 47 ∉ name)

/-- The entries up to the first that is not complete or not accepted. -/
def parseDirents : Nat → Bytes → List Dirent
  | 0, _ => []
  | fuel + 1, buf =>
    let namelen := ofLeBytes (readAt buf 16 4)
    let name := readAt buf 24 namelen
    if buf.length < fuseNameOffset ∨ buf.length < direntSize namelen ∨ fuseAccepts name = false then
      []
    else
      ⟨name, ofLeBytes (readAt buf 0 8), ofLeBytes (readAt buf 8 8)⟩ ::
        parseDirents fuel (buf.drop (direntSize namelen))

/-- The entries of libfuse 3 and Linux. -/
def fuseDirents : FuseDirents where
  add := fuseDirent
  size := fun name => direntSize name.length
  parse := fun buf => parseDirents buf.length buf
  accepts := fuseAccepts

theorem length_leBytes (w n : Nat) : (leBytes w n).length = w := by
  rw [leBytes, List.length_reverse, length_beBytes]

theorem ofLeBytes_leBytes {w n : Nat} (h : n < 256 ^ w) : ofLeBytes (leBytes w n) = n := by
  rw [ofLeBytes, leBytes, List.reverse_reverse, ofBeBytes_beBytes h]

theorem direntSize_ge (namelen : Nat) : 24 + namelen ≤ direntSize namelen := by
  unfold direntSize fuseNameOffset
  omega

theorem length_fuseDirent (name : Bytes) (ino off : Nat) :
    (fuseDirent name ino off).length = direntSize name.length := by
  have hge := direntSize_ge name.length
  simp only [fuseDirent, List.length_append, length_leBytes, List.length_replicate]
  unfold fuseNameOffset
  omega

/-- Fuel beyond the length of a part changes nothing. -/
theorem parseDirents_fuel {m n : Nat} {buf : Bytes} (hm : buf.length ≤ m) (hn : buf.length ≤ n) :
    parseDirents m buf = parseDirents n buf := by
  induction m generalizing n buf with
  | zero =>
    obtain rfl := List.eq_nil_of_length_eq_zero (Nat.le_zero.mp hm)
    cases n <;> simp [parseDirents, fuseNameOffset]
  | succ m ih =>
    cases n with
    | zero =>
      obtain rfl := List.eq_nil_of_length_eq_zero (Nat.le_zero.mp hn)
      simp [parseDirents, fuseNameOffset]
    | succ n =>
      have hge := direntSize_ge (ofLeBytes (readAt buf 16 4))
      rw [parseDirents, parseDirents]
      split
      · rfl
      · rw [@ih n _ (by rw [List.length_drop]; omega) (by rw [List.length_drop]; omega)]

section Entry

variable {name : Bytes} {ino off : Nat} {more : Bytes}

/-- The bytes behind the name. -/
def padding (name : Bytes) : Bytes :=
  List.replicate (direntSize name.length - (fuseNameOffset + name.length)) 0

theorem readAt_namelen :
    readAt (fuseDirent name ino off ++ more) 16 4 = leBytes 4 name.length := by
  have heq : fuseDirent name ino off ++ more = (leBytes 8 ino ++ leBytes 8 off) ++
      leBytes 4 name.length ++ (leBytes 4 0 ++ name ++ padding name ++ more) := by
    simp only [fuseDirent, padding, List.append_assoc]
  exact readAt_middle heq (by rw [List.length_append, length_leBytes, length_leBytes])
    (length_leBytes _ _)

theorem readAt_name : readAt (fuseDirent name ino off ++ more) 24 name.length = name := by
  have heq : fuseDirent name ino off ++ more = (leBytes 8 ino ++ leBytes 8 off ++
      leBytes 4 name.length ++ leBytes 4 0) ++ name ++ (padding name ++ more) := by
    simp only [fuseDirent, padding, List.append_assoc]
  exact readAt_middle heq (by simp only [List.length_append, length_leBytes]) rfl

theorem readAt_ino : readAt (fuseDirent name ino off ++ more) 0 8 = leBytes 8 ino := by
  have heq : fuseDirent name ino off ++ more = [] ++ leBytes 8 ino ++ (leBytes 8 off ++
      leBytes 4 name.length ++ leBytes 4 0 ++ name ++ padding name ++ more) := by
    simp only [fuseDirent, padding, List.append_assoc, List.nil_append]
  exact readAt_middle heq rfl (length_leBytes _ _)

theorem readAt_off : readAt (fuseDirent name ino off ++ more) 8 8 = leBytes 8 off := by
  have heq : fuseDirent name ino off ++ more = leBytes 8 ino ++ leBytes 8 off ++
      (leBytes 4 name.length ++ leBytes 4 0 ++ name ++ padding name ++ more) := by
    simp only [fuseDirent, padding, List.append_assoc]
  exact readAt_middle heq (length_leBytes _ _) (length_leBytes _ _)

theorem readAt_take {buf : Bytes} {at_ n size : Nat} (h : at_ + n ≤ size) :
    readAt (buf.take size) at_ n = readAt buf at_ n := by
  rw [readAt, List.drop_take, List.take_take, Nat.min_eq_left (by omega), readAt]

theorem fuseNamelen (h : fuseAccepts name = true) : name.length < 256 ^ 4 := by
  have hmax := (of_decide_eq_true h).2.1
  unfold fuseNameMax at hmax
  omega

/-- The entry at the beginning of a part, where it is complete. -/
theorem parseDirents_entry (haccepts : fuseAccepts name = true) (hino : ino < 2 ^ 64)
    (hoff : off < 2 ^ 63) (fuel size : Nat) :
    parseDirents (fuel + 1) ((fuseDirent name ino off ++ more).take size) =
      if direntSize name.length ≤ size then
        ⟨name, ino, off⟩ :: parseDirents fuel (more.take (size - direntSize name.length))
      else [] := by
  have hlen := length_fuseDirent name ino off
  have hge := direntSize_ge name.length
  have hsize : ((fuseDirent name ino off ++ more).take size).length =
      min size (direntSize name.length + more.length) := by
    rw [List.length_take, List.length_append, hlen]
  rw [parseDirents, hsize]
  by_cases hheader : size < 24
  · rw [if_pos (.inl (by unfold fuseNameOffset; omega)), if_neg (by omega)]
  · rw [readAt_take (by omega), readAt_namelen, ofLeBytes_leBytes (fuseNamelen haccepts)]
    by_cases hfits : direntSize name.length ≤ size
    · rw [readAt_take (by omega), readAt_name, readAt_take (by omega), readAt_ino,
        readAt_take (by omega), readAt_off, ofLeBytes_leBytes (by omega),
        ofLeBytes_leBytes (by omega), haccepts, if_pos hfits, if_neg, List.drop_take, ← hlen,
        List.drop_left]
      unfold fuseNameOffset
      simp only [Bool.true_eq_false, or_false]
      omega
    · rw [if_pos (.inr (.inl (by omega))), if_neg hfits]

end Entry

theorem fuseDirents_lawful : fuseDirents.Lawful where
  length_add := length_fuseDirent
  parse_nil := rfl
  parse_take := fun name ino off more size haccepts hino hoff => by
    have hlen := length_fuseDirent name ino off
    change parseDirents ((fuseDirent name ino off ++ more).take size).length
        ((fuseDirent name ino off ++ more).take size) =
      if direntSize name.length ≤ size then
        ⟨name, ino, off⟩ :: parseDirents (more.take (size - direntSize name.length)).length
          (more.take (size - direntSize name.length))
      else []
    rw [parseDirents_fuel (Nat.le_refl _) (Nat.le_succ _),
      parseDirents_entry haccepts hino hoff]
    split
    · congr 1
      refine parseDirents_fuel ?_ (Nat.le_refl _)
      simp only [List.length_take, List.length_append, hlen]
      omega
    · rfl

end ListingLemmas

open ListingLemmas in
/-- Whatever sizes a reader asks for and however much of a part it takes, of a directory that stays
as it is it has taken the first entries, each once and in order. The next part has an entry exactly
if there is one left and it fits into the size. -/
theorem readdir_lists (fuse : FuseDirents) (hfuse : fuse.Lawful) (s : InodeSet) (ino : Nat)
    (hlinked : s.Linked ino) (hdir : s.IsDir ino)
    (hentries : ∀ entry ∈ s.direntries ino, fuse.accepts entry.1 = true ∧ entry.2 < 2 ^ 64)
    (hbuf : ((s.direntries ino).foldl (addDirentry fuse) []).length < 2 ^ 63) (off : Nat)
    (seen : List Dirent) (h : Listed fuse s ino off seen) :
    seen.map (fun e => (e.name, e.ino)) <+: s.direntries ino ∧
      ∀ size, ∃ part, s.fsReaddir fuse ino size off = .buf part ∧
        (fuse.parse part = [] ↔
          ∀ entry ∈ ((s.direntries ino).drop seen.length).head?, size < fuse.size entry.1) := by
  rw [foldl_addDirentry hfuse, List.nil_append, List.length_nil, length_encoded hfuse] at hbuf
  have hfit : AllFit fuse 0 (s.direntries ino) := ⟨hentries, by rwa [Nat.zero_add]⟩
  obtain ⟨entries, rest, hall, rfl, rfl⟩ := listed_placed hfuse hlinked hdir hfit h
  rw [hall] at hfit
  have hrest := allFit_append hfit
  rw [Nat.zero_add] at hrest
  refine ⟨?_, fun size => ⟨_, fsReaddir_between hfuse hlinked hdir hall size, ?_⟩⟩
  · rw [placed_entries, hall]
    exact List.prefix_append _ _
  · rw [(parse_encoded hfuse hrest size).2, hall, length_placed, List.drop_left]

open ListingLemmas in
/-- A root directory with one file. -/
def rootWithFile : InodeSet :=
  (InodeRun.from (.initial twoSlots 2 9) [.createFile ['a'] ⟨1, Vector.replicate claimRefSize 1,
    Vector.replicate claimRefSize 2, []⟩ 10 11]).set

open ListingLemmas in
/-- After a first part of 70 bytes, which has two of the three entries, the file needs 32 bytes. -/
theorem readdir_lists_root :
    ([⟨[46], 1, 32⟩, ⟨[46, 46], 1, 64⟩] : List Dirent).map (fun e => (e.name, e.ino)) <+:
        rootWithFile.direntries fuseRootId ∧
      ∀ size, ∃ part, rootWithFile.fsReaddir fuseDirents fuseRootId size 64 = .buf part ∧
        (fuseDirents.parse part = [] ↔ size < 32) := by
  have hentries : rootWithFile.direntries fuseRootId = [([46], 1), ([46, 46], 1), ([97], 2)] := by
    decide +kernel
  have hlinked : rootWithFile.Linked fuseRootId := by decide +kernel
  have hdir : rootWithFile.IsDir fuseRootId := by
    unfold InodeSet.IsDir
    decide +kernel
  have hfirst : rootWithFile.fsReaddir fuseDirents fuseRootId 70 0 =
      .buf (fuseDirent [46] 1 32 ++ fuseDirent [46, 46] 1 64 ++ [2, 0, 0, 0, 0, 0]) := by
    decide +kernel
  have hfound : [⟨[46], 1, 32⟩, ⟨[46, 46], 1, 64⟩] <+: fuseDirents.parse
      (fuseDirent [46] 1 32 ++ fuseDirent [46, 46] 1 64 ++ [2, 0, 0, 0, 0, 0]) := by
    decide +kernel
  have htaken : Listed fuseDirents rootWithFile fuseRootId 64
      ([] ++ [⟨[46], 1, 32⟩, ⟨[46, 46], 1, 64⟩]) :=
    Listed.part .start hfirst hfound rfl
  obtain ⟨hseen, hnext⟩ := readdir_lists fuseDirents fuseDirents_lawful rootWithFile fuseRootId
    hlinked hdir (by rw [hentries]; decide) (by decide +kernel) _ _ htaken
  refine ⟨hseen, fun size => ?_⟩
  obtain ⟨part, hreply, hparse⟩ := hnext size
  refine ⟨part, hreply, hparse.trans ?_⟩
  rw [hentries]
  simp [fuseDirents, direntSize, fuseNameOffset]

end Everarch
