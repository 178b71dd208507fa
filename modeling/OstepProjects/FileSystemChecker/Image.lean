/-
  OstepProjects/FileSystemChecker/Image.lean
  ==========================================
  **Reading a file system image, as `xchecker.c` does.**

  An image is the memory it is mapped to.  `rsect` copies a sector, `rinode` finds an
  inode in its block, and `inodeBlocks` lists the block addresses of an inode in the
  order in which the checks visit them: the direct addresses, and for a file of more
  than twelve blocks the indirect pointer and the first entries of the indirect block.

  Fields are little-endian; `uint` arithmetic wraps at `2^32`.
-/
import Mathlib.Data.List.Basic
import Mathlib.Data.UInt

namespace OstepProjects.FileSystemChecker

def BSIZE : Nat := 512

def FSSIZE : Nat := 1000

def NDIRECT : Nat := 12

/-- Inodes per block: `sizeof(struct dinode)` is 64. -/
def IPB : Nat := 8

/-- Bytes from a position on. -/
abbrev Memory := Nat → UInt8

/-- `rsect(mmapped, sec, buf)`: the contents of `buf`. -/
def rsect (mmapped : Memory) (sec : Nat) : Memory :=
  fun k => mmapped (BSIZE * sec % 2 ^ 32 + k)

/-- A `uint` at an offset. -/
def uintAt (buf : Memory) (offset : Nat) : Nat :=
  (buf offset).toNat + 2 ^ 8 * (buf (offset + 1)).toNat + 2 ^ 16 * (buf (offset + 2)).toNat +
    2 ^ 24 * (buf (offset + 3)).toNat

/-- A `short` at an offset. -/
def shortAt (buf : Memory) (offset : Nat) : Int16 :=
  Int16.ofNat ((buf offset).toNat + 2 ^ 8 * (buf (offset + 1)).toNat)

/-- The fields of `struct superblock` that the checks read. -/
structure superblock where
  nblocks : Nat
  ninodes : Nat
  inodestart : Nat
  bmapstart : Nat

def readSuperblock (mmapped : Memory) : superblock :=
  let sb_buf := rsect mmapped 1
  { nblocks := uintAt sb_buf 4
    ninodes := uintAt sb_buf 8
    inodestart := uintAt sb_buf 20
    bmapstart := uintAt sb_buf 24 }

/-- The fields of `struct dinode` that the checks read. -/
@[ext] structure dinode where
  type : Int16
  size : Nat
  addrs : Nat → Nat

def rinode (mmapped : Memory) (inum : Nat) (sb : superblock) : dinode :=
  let bn := (inum / IPB + sb.inodestart) % 2 ^ 32
  let buf := rsect mmapped bn
  let dip := 64 * (inum % IPB)
  { type := shortAt buf dip
    size := uintAt buf (dip + 8)
    addrs := fun j => uintAt buf (dip + 12 + 4 * j) }

/-- `block_num` -/
def blockNum (size : Nat) : Nat :=
  if size % BSIZE = 0 then size / BSIZE else size / BSIZE + 1

/-- A block address that a loop comes to: `addrs[index]` or `indirect[index]`. -/
inductive Visit
  | direct (index addr : Nat)
  | indirect (index addr : Nat)
deriving DecidableEq

def Visit.addr : Visit → Nat
  | .direct _ addr | .indirect _ addr => addr

/-- The block addresses of an inode, in the order of the loops. -/
def inodeBlocks (mmapped : Memory) (ip : dinode) : List Visit :=
  if ip.size = 0 then []
  else
    let block_num := blockNum ip.size
    if block_num ≤ NDIRECT then
      (List.range block_num).map fun j => .direct j (ip.addrs j)
    else
      let indirect := rsect mmapped (ip.addrs NDIRECT)
      ((List.range (NDIRECT + 1)).map fun j => .direct j (ip.addrs j)) ++
        (List.range (block_num - NDIRECT)).map fun j => .indirect j (uintAt indirect (4 * j))

/-- The slots of the loops `for(int i = 1; i <= sb->ninodes; i++)`. -/
def slots (sb : superblock) : List Nat := (List.range sb.ninodes).map (· + 1)

/-- The visits of the checks that skip free inodes. -/
def usedVisits (mmapped : Memory) : List Visit :=
  let sb := readSuperblock mmapped
  (slots sb).flatMap fun i =>
    let ip := rinode mmapped i sb
    if ip.type = 0 then [] else inodeBlocks mmapped ip

/-- The addresses in use. -/
def usedBlocks (mmapped : Memory) : List Nat := (usedVisits mmapped).map Visit.addr

end OstepProjects.FileSystemChecker
