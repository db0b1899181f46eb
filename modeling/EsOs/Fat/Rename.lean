import EsOs.Fat.Create

/-!
# Renaming and removing a directory entry

`FatStream::rename` of `os/fs/fat/fatContext.cpp`, with `FatStream::remove` (`fatDirectory.cpp`),
`FatStream::flush` and the last `release` of a removed stream (`fatStream.cpp`). The directories are
told apart by the number of their first cluster. A stream is its entry in memory, with the directory
and the place in it where the entry is written.
-/

namespace EsOs.Fat

open EsOs.Es

/-- `ent[0] = 0xe5` -/
def Fcb.erase (ent : Fcb) : Fcb :=
  Disk.xbyte ent 0 0xe5

/-- The loop of `remove` over the entries from `pos` on (`fatDirectory.cpp:484-512`), for the entry at
    `offset`. -/
def removeLoop (offset : Nat) : Nat → List Fcb → List Fcb
  | _, [] => []
  | pos, ent :: rest =>
    if ent 0 = 0 then ent :: rest
    else if ent.isFreeEntry then ent :: removeLoop offset (pos + 32) rest
    else if ent.isLongNameComponent then
      -- `pos + 32 * (ord - 1) == offset`, with the position behind the entry
      (if pos + 32 * ent.order = offset then ent.erase else ent) ::
        removeLoop offset (pos + 32) rest
    else if !ent.isVolumeID then
      if pos = offset then ent.erase :: rest else ent :: removeLoop offset (pos + 32) rest
    else ent :: removeLoop offset (pos + 32) rest

/-- `remove` of the entry at `offset` of the directory (`fatDirectory.cpp:479-515`). -/
def Directory.remove (dir : Directory) (offset : Nat) : Directory :=
  { dir with
    records := removeLoop offset 0 dir.entries ++ dir.records.drop (dir.cacheSize / 32) }

/-- `FatStream::isEmpty` of a directory that is not the root (`fatDirectory.cpp:52-65`). -/
def isEmpty (size : Nat) (entries : List Fcb) : Option Bool :=
  match FatStream.findNext size 0 (2 * 32) (entries.drop 2) with
  | none => none
  | some (.missing _ _) => some true
  | some (.found _ _ _ _) => some false

/-- The stream of a file or a directory: the directory that its entry is in, the place of the entry,
    and the entry in memory. -/
structure Node where
  parent : Nat
  offset : Nat
  fcb : Fcb

/-- The disk with the directories by their first cluster. -/
structure Tree where
  disk : FatDisk
  dirs : Nat → Directory

namespace Tree

/-- The directory `clus` is `dir` now. -/
def setDir (t : Tree) (clus : Nat) (dir : Directory) : Tree :=
  { t with dirs := fun c => if c = clus then dir else t.dirs c }

/-- What `FatStream::flush` makes of an entry that has changed (`fatStream.cpp:303`). -/
def archived (node : Node) : Node :=
  { node with
    fcb := Disk.xbyte node.fcb DIR_Attr ((node.fcb DIR_Attr).toNat ||| ATTR_ARCHIVE) }

/-- `FatStream::flush` of a stream whose entry has changed (`fatStream.cpp:295-313`), up to the
    entry in memory. -/
def flush (t : Tree) (node : Node) : Tree :=
  t.setDir node.parent ((t.dirs node.parent).write node.offset [(archived node).fcb])

/-- The update of `..` in the directory `clus` (`fatContext.cpp:156-162`). A directory without its
    second entry has no result. -/
def updateDotdot (t : Tree) (clus : Nat) : Option Tree :=
  match (t.dirs clus).entries[1]? with
  | none => none
  | some tmp => some (t.setDir clus ((t.dirs clus).write 32 [tmp.setFstClus clus]))

end Tree

/-- `memmove(fcb, src, 13)`: the name, the attributes and `NTRes` (`fatContext.cpp:147-149`). -/
def Fcb.takeName (fcb src : Fcb) : Fcb := fun i =>
  if i < 13 then src i else fcb i

/-- The entries of a new directory of one cluster. -/
def freshEntries (s : Bpb) (dots : Fcb × Fcb) : List Fcb :=
  dots.1 :: dots.2 :: List.replicate (s.bytsPerClus / 32 - 2) fun _ => 0

/-- What `rename` comes to: it throws, it returns -1, or it returns 0 and the stream is the given one
    now. -/
inductive Renamed where
  | threw (e : CreateError)
  | failed
  | renamed (node : Node)

/-- The part of `rename` behind the new entry (`fatContext.cpp:140-168`), which is `new` in memory, at
    the byte `offset` of the directory `newDir`, with the first two entries `dots` of a new directory.
    At its end the new stream, which has the old entry now, is removed and released. -/
def renameTo (newDir offset : Nat) (new : Fcb) (dots : Option (Fcb × Fcb)) (node : Node)
    (t : Tree) : Option (Renamed × Tree) :=
  let moved : Node := ⟨newDir, offset, node.fcb.takeName new⟩
  let left : Node := ⟨node.parent, node.offset, new.takeName node.fcb⟩
  let updated :=
    if newDir ≠ node.parent ∧ moved.fcb.isDirectory = true then t.updateDotdot node.fcb.fstClus
    else some t
  match updated with
  | none => none
  | some t =>
    let t := t.flush moved
    let empty :=
      if left.fcb.isDirectory then
        match dots with
        | none => none
        | some dots => isEmpty t.disk.bytsPerClus (freshEntries t.disk.toBpb dots)
      else some true
    match empty with
    | none => none
    | some false => some (.failed, t)
    | some true =>
      let t := t.setDir left.parent ((t.dirs left.parent).remove left.offset)
      (t.disk.freeCluster new.fstClus).map fun s =>
        (.renamed (Tree.archived moved), { t with disk := { t.disk with toFatFileSystem := s } })

/-- `FatStream::rename` (`fatContext.cpp:114-168`) of a stream that is not the root, to a name in the
    directory `newDir`, where the second path leads. -/
def rename (utftolower : Nat → Nat) (unset : Unset) (now : DateTime) (canWrite : Bool)
    (node : Node) (newDir : Nat) (newName : List UInt8) (t : Tree) : Option (Renamed × Tree) :=
  if canWrite = false then some (.threw .eacces, t)
  else if newName = [] ∨ 0x2f ∈ newName ∨ 0x5c ∈ newName then some (.failed, t)
  else
    let attr := if node.fcb.isDirectory then ATTR_DIRECTORY else 0
    match create utftolower unset now newName attr t.disk (t.dirs newDir) with
    | none => none
    | some (.null, disk, dir) => some (.failed, { t.setDir newDir dir with disk := disk })
    | some (.threw e, disk, dir) => some (.threw e, { t.setDir newDir dir with disk := disk })
    | some (.stream new offset dots, disk, dir) =>
      renameTo newDir offset new dots node { t.setDir newDir dir with disk := disk }

end EsOs.Fat
