import AtmKoala.Lib.Bytes
import AtmKoala.Kmalloc.Sizes

/-!
The module loader, `kmod.c`, over the kernel heap.

A module file is a header and its code. `kmod_load` opens the file twice, for the header and
for the code; an `Attempt` has what it gets from the file system, from its stack and from
`init` of the module. The messages on the terminal are left out.

`Loaded` is what comes of a call: besides the modules and the heap, the copy that it makes
and the entry that it fills.
-/

namespace AtmKoala.Loader

open Lib Kmalloc

def kmodMagic : Nat := 0xCAFE0D01
def kmodMax : Nat := 16

/-- `sizeof(kmod_header_t)` and `sizeof(filebuf)`. -/
def kmodHeaderSize : Nat := 188
def filebufSize : Nat := 65536

/-- The bytes up to the first null one. -/
def cstring (bytes : List UInt8) : List UInt8 := bytes.takeWhile (· ≠ 0)

/-- A number as `int`. -/
def int32 (n : Nat) : Int :=
  if n % 2 ^ 32 < 2 ^ 31 then (n % 2 ^ 32 : Nat) else (n % 2 ^ 32 : Nat) - 2 ^ 32

/-- `xor32`. -/
def xor32 (buf : List UInt8) : Nat := buf.foldl (fun s b => s ^^^ b.toNat) 0

/-! ### Headers and modules -/

/-- `kmod_header_t`, packed. -/
structure KmodHeader where
  bytes : List UInt8
deriving DecidableEq

namespace KmodHeader

def word (hdr : KmodHeader) (off : Nat) : Nat := leNat ((hdr.bytes.drop off).take 4)

def magic (hdr : KmodHeader) : Nat := hdr.word 0
def initOffset (hdr : KmodHeader) : Nat := hdr.word 168
def exitOffset (hdr : KmodHeader) : Nat := hdr.word 172
def codeOffset (hdr : KmodHeader) : Nat := hdr.word 176
def codeSize (hdr : KmodHeader) : Nat := hdr.word 180
def checksum (hdr : KmodHeader) : Nat := hdr.word 184

/-- The string at `name`, with `behind` behind the header. -/
def name (hdr : KmodHeader) (behind : List UInt8) : List UInt8 :=
  cstring (hdr.bytes.drop 8 ++ behind)

end KmodHeader

inductive KmodState where
  | unloaded
  | loading
  | active
  | error
deriving DecidableEq

def KmodState.toNat : KmodState → Nat
  | .unloaded => 0
  | .loading => 1
  | .active => 2
  | .error => 3

/-- `kmod_t`; `init` and `exit` are addresses. -/
structure Kmod where
  hdr : KmodHeader
  state : KmodState
  code : Nat
  loadAddr : Nat
  init : Option Nat
  exit : Option Nat
deriving DecidableEq

/-- The string at `hdr.name` of an entry; `state` stands behind the header. -/
def Kmod.name (m : Kmod) : List UInt8 := m.hdr.name (leBytes 4 m.state.toNat)

/-- The modules that are loaded, and the heap with its live allocations. -/
structure System where
  modules : List Kmod
  heap : Aligned.State

/-- `kmod_find`. -/
def kmodFind (s : System) (name : List UInt8) : Option Kmod := s.modules.find? (·.name = name)

/-! ### The heap -/

/-- `kmalloc`, with the pointer it returns. -/
def allocate (heap : Aligned.State) (size : Nat) : Aligned.State × Nat :=
  match kmalloc heap.heap size with
  | (h, ptr) => (⟨h, if ptr = 0 then heap.live else ⟨ptr, ptr, size, 1⟩ :: heap.live⟩, ptr)

def release (heap : Aligned.State) (ptr : Nat) : Aligned.State :=
  ⟨kfree heap.heap ptr, heap.live.eraseP (·.ptr = ptr)⟩

/-- `kmemcpy` to an aligned address: whole words, and the first bytes of the last one. -/
def kmemcpy (h : Heap) (dst : Nat) (src : List UInt8) : Heap :=
  (List.range ((src.length + 7) / 8)).foldl (fun h i =>
    let part := (src.drop (8 * i)).take 8
    let a := dst + 8 * i
    h.store a (leNat part + h.mem a / 256 ^ part.length * 256 ^ part.length)) h

/-! ### Loading -/

/-- What `vfs_open` and `vfs_read` make of a path: no descriptor, an error of the read, or
the contents of the file. -/
inductive Opened where
  | failed
  | unreadable (errno : Nat)
  | contents (bytes : List UInt8)

/-- `vfs_read` at the beginning, with what it puts in the buffer. -/
def vfsRead (opened : Opened) (size : Nat) : Int × List UInt8 :=
  match opened with
  | .failed => (-1, [])
  | .unreadable errno => (-1 - errno, [])
  | .contents bytes => ((bytes.take size).length, bytes.take size)

/-- What a call of `kmod_load` meets: the file as it is opened first and second, the bytes
behind `hdr` on the stack, the memory from `filebuf` on, and the result of the module's
`init`. -/
structure Attempt where
  first : Opened
  second : Opened
  behind : List UInt8
  memory : Nat → UInt8
  init : Int

/-- The copy of the code: to which block, from where in `filebuf`, how much, and the bytes
of the file that are there. -/
structure Copy where
  block : Aligned.Lease
  source : Nat
  count : Nat
  read : Int
deriving DecidableEq

/-- What comes of `kmod_load`; `mismatch` is whether it has warned of the checksum. -/
structure Loaded where
  system : System
  rc : Int
  copy : Option Copy
  entry : Option Kmod
  mismatch : Bool

/-- `kmod_load` up to the allocation: the header, or the error. -/
def kmodHeader (s : System) (a : Attempt) : Except Int KmodHeader :=
  if kmodMax ≤ s.modules.length then .error (-1)
  else
    match a.first with
    | .failed => .error (-2)
    | opened =>
      let (n, bytes) := vfsRead opened kmodHeaderSize
      let hdr : KmodHeader := ⟨bytes⟩
      if n < kmodHeaderSize then .error (-3)
      else if hdr.magic ≠ kmodMagic then .error (-4)
      else if (kmodFind s (hdr.name a.behind)).isSome then .error (-5)
      else .ok hdr

/-- The bytes that are asked for, in `uint32_t`. -/
def KmodHeader.room (hdr : KmodHeader) : Nat := (hdr.codeSize + 4) % 2 ^ 32

/-- The end of the code in the file, as it is compared. -/
def KmodHeader.end_ (hdr : KmodHeader) : Int := int32 (hdr.codeOffset + hdr.codeSize)

/-- The code as it is copied. -/
def Attempt.code (a : Attempt) (hdr : KmodHeader) : List UInt8 :=
  let (_, bytes) := vfsRead a.second (filebufSize - 1)
  (List.range hdr.codeSize).map fun k =>
    (bytes[hdr.codeOffset + k]?).getD (a.memory (hdr.codeOffset + k))

/-- The entry of a module whose code is at `code`. -/
def KmodHeader.entry (hdr : KmodHeader) (code : Nat) (state : KmodState) : Kmod where
  hdr := hdr
  state := state
  code := code
  loadAddr := code % 2 ^ 32
  init := if hdr.initOffset < hdr.codeSize then some (code + hdr.initOffset) else none
  exit :=
    if hdr.exitOffset ≠ 0 ∧ hdr.exitOffset < hdr.codeSize then some (code + hdr.exitOffset) else none

def kmodLoad (s : System) (a : Attempt) : Loaded :=
  match kmodHeader s a with
  | .error rc => ⟨s, rc, none, none, false⟩
  | .ok hdr =>
    match allocate s.heap hdr.room with
    | (heap, code) =>
      if code = 0 then ⟨⟨s.modules, heap⟩, -6, none, none, false⟩
      else
        let total := (vfsRead a.second (filebufSize - 1)).1
        if total < hdr.end_ then ⟨⟨s.modules, release heap code⟩, -7, none, none, false⟩
        else
          let heap : Aligned.State := ⟨kmemcpy heap.heap code (a.code hdr), heap.live⟩
          let copy : Copy := ⟨⟨code, code, hdr.room, 1⟩, hdr.codeOffset, hdr.codeSize, total⟩
          -- The module is loaded all the same.
          let mismatch : Bool := xor32 (a.code hdr) ≠ hdr.checksum
          let m := hdr.entry code .loading
          if m.init.isSome ∧ a.init ≠ 0 then
            ⟨⟨s.modules, release heap code⟩, -8, some copy, some { m with state := .error }, mismatch⟩
          else
            let m := { m with state := .active }
            ⟨⟨s.modules ++ [m], heap⟩, 0, some copy, some m, mismatch⟩

def kmodUnload (s : System) (name : List UInt8) : System × Int :=
  match kmodFind s name with
  | none => (s, -1)
  | some m => (⟨s.modules.eraseP (·.name = name), release s.heap m.code⟩, 0)

/-! ### Runs -/

/-- Calls of the loader, and of the allocator by everybody else. -/
inductive Action where
  | load (a : Attempt)
  | unload (name : List UInt8)
  | heap (op : Aligned.Op)

def perform (s : System) : Action → Option System
  | .load a => some (kmodLoad s a).system
  | .unload name => some (kmodUnload s name).1
  | .heap op => (Aligned.perform s.heap op).map fun heap => ⟨s.modules, heap⟩

def Step (s : System) (act : Action) (s' : System) : Prop := perform s act = some s'

/-! ### What is expected -/

/-- **A load in bounds**: every byte copied is one that was read and goes to the block that was
allocated, and `init` and `exit` are in that block. -/
structure Contained (r : Loaded) : Prop where
  copied : ∀ c, r.copy = some c → ∀ k < c.count,
    ((c.source + k : Nat) : Int) < c.read ∧ k < c.block.size
  entered : ∀ c m, r.copy = some c → r.entry = some m → ∀ p, m.init = some p ∨ m.exit = some p →
    c.block.ptr ≤ p ∧ p < c.block.ptr + c.block.size

/-- The code gets as far as the copy, of at least one byte, and the sum of its offset and its
size does not fit an `int`. -/
def Overreaches (s : System) (a : Attempt) : Prop :=
  ∃ hdr, kmodHeader s a = .ok hdr ∧ (allocate s.heap hdr.room).2 ≠ 0 ∧
    hdr.end_ ≤ (vfsRead a.second (filebufSize - 1)).1 ∧
    0 < hdr.codeSize ∧ 2 ^ 31 ≤ hdr.codeOffset + hdr.codeSize

/-- No load overreaches; the others give back what they got, and not the code of a module. -/
def Allowed (s : System) : Action → Prop
  | .load a => ¬Overreaches s a
  | .unload _ => True
  | .heap op => Aligned.ProperSafe s.heap op ∧ ∀ m ∈ s.modules, op ≠ .kfree m.code

/-- **Every module has a block of its own**, and a name of its own. -/
structure Owned (s : System) : Prop where
  live : ∀ m ∈ s.modules, ⟨m.code, m.code, m.hdr.room, 1⟩ ∈ s.heap.live
  usable : ∀ m ∈ s.modules, Usable s.heap.heap m.code m.hdr.codeSize
  apart : (s.modules.map Kmod.code).Nodup
  named : (s.modules.map Kmod.name).Nodup

end AtmKoala.Loader
