import EsOs.Es.DateTime
import EsOs.Fat.Check

/-!
# The times of a FAT file

The getters and setters of the three times of `os/fs/fat/fatFile.cpp`, over the entry of 32 bytes
that a `FatStream` keeps and its flags. A date and a time are packed into a word each; the time of
the creation has one more byte, for the odd second and its hundredths.
-/

namespace EsOs.Fat

open EsOs.Es

/-- A value kept in a `u16`. -/
def u16 (n : Nat) : Nat :=
  n % 65536

/-- `xbyte` (`endian.h:40-43`). -/
def Disk.xbyte (disk : Disk) (offset v : Nat) : Disk := fun i =>
  if i = offset then UInt8.ofNat v else disk i

def DIR_CrtTimeTenth : Nat := 13
def DIR_CrtTime : Nat := 14
def DIR_CrtDate : Nat := 16
def DIR_LstAccDate : Nat := 18
def DIR_WrtTime : Nat := 22
def DIR_WrtDate : Nat := 24

/-- The flag of a stream whose entry is to be written (`fatStream.h:62`). -/
def Updated : Nat := 0x02

namespace FatFileSystem

/-- `FatFileSystem::epoch(1980, 1, 1)` (`fatFile.cpp:34`). -/
def epoch : DateTime :=
  (DateTime.ofDate 1980 1 1).toOption.getD ⟨0, Nat.zero_le _⟩

/-- `FatFileSystem::wane(2107, 12, 31, 23, 59, 59, 99)` (`fatFile.cpp:35`). -/
def wane : DateTime :=
  (DateTime.ofFields 2107 12 31 23 59 59 99 0).toOption.getD ⟨0, Nat.zero_le _⟩

/-- The limits of the setters (`fatFile.cpp:42-49`). -/
def limit (d : DateTime) : DateTime :=
  if d.ticks < epoch.ticks then epoch else if wane.ticks < d.ticks then wane else d

/-- `date` of the setters (`fatFile.cpp:50`). -/
def packDate (d : DateTime) : Nat :=
  u16 ((d.getYear - 1980) <<< 9 ||| d.getMonth <<< 5 ||| d.getDay)

/-- `time` of the setters (`fatFile.cpp:51`). -/
def packTime (d : DateTime) : Nat :=
  u16 (d.getHour <<< 11 ||| d.getMinute <<< 5 ||| d.getSecond / 2)

/-- `tenth` of `setCreationTime` (`fatFile.cpp:52`). -/
def packTenth (d : DateTime) : Nat :=
  u16 (d.getSecond % 2 * 100 + d.getMillisecond / 10)

/-- The `catch` of the getters (`fatFile.cpp:178-181`). -/
def orEpoch (d : Except String DateTime) : Int :=
  match d with
  | .ok d => d.ticks
  | .error _ => epoch.ticks

end FatFileSystem

/-- What the times need of a `FatStream` (`fatStream.h:71-79`). -/
structure FileEntry where
  fcb : Fcb
  flags : Nat

namespace FileEntry

open FatFileSystem

/-- `FatStream::setCreationTime(DateTime)` (`fatFile.cpp:37-57`). -/
def setCreationTime (e : FileEntry) (d : DateTime) : FileEntry :=
  let d := limit d
  let fcb := Disk.xword e.fcb DIR_CrtDate (packDate d)
  let fcb := Disk.xword fcb DIR_CrtTime (packTime d)
  { fcb := Disk.xbyte fcb DIR_CrtTimeTenth (packTenth d), flags := e.flags ||| Updated }

/-- `FatStream::setLastAccessTime(DateTime)` (`fatFile.cpp:59-75`). -/
def setLastAccessTime (e : FileEntry) (d : DateTime) : FileEntry :=
  { fcb := Disk.xword e.fcb DIR_LstAccDate (packDate (limit d)), flags := e.flags ||| Updated }

/-- `FatStream::setLastWriteTime(DateTime)` (`fatFile.cpp:77-95`). -/
def setLastWriteTime (e : FileEntry) (d : DateTime) : FileEntry :=
  let d := limit d
  let fcb := Disk.xword e.fcb DIR_WrtDate (packDate d)
  { fcb := Disk.xword fcb DIR_WrtTime (packTime d), flags := e.flags ||| Updated }

/-- The setters of a number of ticks, which leave the entry as it is when no date and time has that
    many (`fatFile.cpp:107-153`). -/
def setTicks (set : FileEntry → DateTime → FileEntry) (e : FileEntry) (time : Int) : FileEntry :=
  match DateTime.ofTicks time with
  | .ok d => set e d
  | .error _ => e

/-- `FatStream::setCreationTime(long long)` (`fatFile.cpp:107-121`). -/
def setCreationTicks : FileEntry → Int → FileEntry :=
  setTicks setCreationTime

/-- `FatStream::setLastAccessTime(long long)` (`fatFile.cpp:123-137`). -/
def setLastAccessTicks : FileEntry → Int → FileEntry :=
  setTicks setLastAccessTime

/-- `FatStream::setLastWriteTime(long long)` (`fatFile.cpp:139-153`). -/
def setLastWriteTicks : FileEntry → Int → FileEntry :=
  setTicks setLastWriteTime

/-- `FatStream::getCreationTime` (`fatFile.cpp:163-184`). -/
def getCreationTime (e : FileEntry) : Int :=
  let date := Disk.word e.fcb DIR_CrtDate
  let time := Disk.word e.fcb DIR_CrtTime
  let tenth := (e.fcb DIR_CrtTimeTenth).toNat
  orEpoch (DateTime.ofFields ↑(1980 + date >>> 9) ↑(date >>> 5 &&& 0x0f) ↑(date &&& 0x1f)
    ↑(time >>> 11) ↑(time >>> 5 &&& 0x3f) ↑((time &&& 0x1f) * 2 + tenth / 100)
    ↑(tenth % 100 * 10) 0)

/-- `FatStream::getLastAccessTime` (`fatFile.cpp:186-203`). -/
def getLastAccessTime (e : FileEntry) : Int :=
  let date := Disk.word e.fcb DIR_LstAccDate
  orEpoch (DateTime.ofDate ↑(1980 + date >>> 9) ↑(date >>> 5 &&& 0x0f) ↑(date &&& 0x1f))

/-- `FatStream::getLastWriteTime` (`fatFile.cpp:205-224`). -/
def getLastWriteTime (e : FileEntry) : Int :=
  let date := Disk.word e.fcb DIR_WrtDate
  let time := Disk.word e.fcb DIR_WrtTime
  orEpoch (DateTime.ofFields ↑(1980 + date >>> 9) ↑(date >>> 5 &&& 0x0f) ↑(date &&& 0x1f)
    ↑(time >>> 11) ↑(time >>> 5 &&& 0x3f) ↑((time &&& 0x1f) * 2) 0 0)

end FileEntry

end EsOs.Fat
