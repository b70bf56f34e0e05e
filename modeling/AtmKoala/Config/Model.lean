import Mathlib.Data.List.DropRight
import AtmKoala.Package.Model

/-!
Configuration files (`config.c`): sections of keys and values, and their INI text.

A C string is the list of the bytes before its NUL. The section that the parser is in is the
last one there is. Names, keys and values are the bytes that the source copies; where it
copies without a bound (`kstrcpy` in `cfg_set`), so does the model.
-/

namespace AtmKoala.Config

open Lib Package

def cfgMaxSections : Nat := 16
def cfgMaxKeys : Nat := 32
def cfgKeyLen : Nat := 64
def cfgValLen : Nat := 128

/-- `cfg_pair_t`. -/
structure Pair where
  key : Bytes
  val : Bytes
deriving DecidableEq

/-- `cfg_section_t`. -/
structure Section where
  name : Bytes
  entries : List Pair
deriving DecidableEq

/-- The sections of a `cfg_file_t`. -/
abbrev CfgFile : Type := List Section

/-- `f` on the first element that satisfies `p`. -/
def onFirst {α : Type} (p : α → Bool) (f : α → α) : List α → List α
  | [] => []
  | a :: l => if p a then f a :: l else a :: onFirst p f l

/-! ### Parser -/

def newline : UInt8 := 10
def equalsByte : UInt8 := 61
def globalName : Bytes := ascii "global"

/-- What `while (*p && *p != '\n') p++` leaves. -/
def restOfLine (p : Bytes) : Bytes := p.dropWhile (· ≠ newline)

/-- The loop that reads a key behind `key`: the key, and what is left. -/
def scanKey (key : Bytes) : Bytes → Bytes × Bytes
  | [] => (key, [])
  | c :: p =>
    if c = equalsByte ∨ c = newline ∨ cfgKeyLen - 1 ≤ key.length then (key, c :: p)
    else if !isBlank c then scanKey (key ++ [c]) p
    else if key ≠ [] then (key, p)
    else scanKey key p

/-- A value without the blanks around it. -/
def scanValue (p : Bytes) : Bytes :=
  (((p.dropWhile isBlank).takeWhile fun b => !isBreak b).take (cfgValLen - 1)).rdropWhile isBlank

/-- A line `key=value` in a section. -/
def addPair (p : Bytes) (sec : Section) : Section :=
  if sec.entries.length < cfgMaxKeys then
    match scanKey [] p with
    | (key, c :: p) =>
      if c = equalsByte ∧ key ≠ [] then
        { sec with entries := sec.entries ++ [⟨key, scanValue p⟩] }
      else sec
    | (_, []) => sec
  else sec

/-- The name in a section header. -/
def headerName (p : Bytes) : Bytes :=
  (p.takeWhile fun c => c ≠ 93 && c ≠ newline).take (cfgKeyLen - 1)

/-- One round of the loop of `cfg_parse`: what is left of the text, and the sections. -/
def cfgStep (p : Bytes) (cfg : CfgFile) : Bytes × CfgFile :=
  let line (p : Bytes) : Bytes × CfgFile :=
    let cfg := if cfg = [] then [⟨globalName, []⟩] else cfg
    (restOfLine p, cfg.modifyLast (addPair p))
  match p.dropWhile isBlank with
  | [] => line []
  | c :: p =>
    if isBreak c then (p, cfg)
    else if c = 35 ∨ c = 59 then (restOfLine p, cfg)
    else if c = 91 then
      if cfgMaxSections ≤ cfg.length then (restOfLine p, cfg)
      else (restOfLine p, cfg ++ [⟨headerName p, []⟩])
    else line (c :: p)

def cfgLines : Nat → Bytes → CfgFile → CfgFile
  | _, [], cfg => cfg
  | 0, _ :: _, cfg => cfg
  | fuel + 1, c :: p, cfg =>
    let (p, cfg) := cfgStep (c :: p) cfg
    cfgLines fuel p cfg

/-- `cfg_parse`: every round takes a byte at least. -/
def cfgParse (buf : Bytes) : CfgFile :=
  let text := buf.takeWhile (· ≠ 0)
  cfgLines text.length text []

/-! ### Serializer -/

def pairText (kv : Pair) : Bytes := kv.key ++ [equalsByte] ++ kv.val ++ [newline]

def serializePairs (bufsz : Nat) : List Pair → Bytes → Bytes
  | [], out => out
  | kv :: rest, out =>
    if bufsz ≤ out.length + (kv.key.length + kv.val.length + 3) then out
    else serializePairs bufsz rest (out ++ pairText kv)

def serializeSections (bufsz : Nat) : CfgFile → Bytes → Bytes
  | [], out => out
  | sec :: rest, out =>
    if sec.name ≠ globalName then
      if bufsz ≤ out.length + sec.name.length + 4 then out
      else
        let out := out ++ [91] ++ sec.name ++ [93, newline]
        serializeSections bufsz rest (serializePairs bufsz sec.entries out ++ [newline])
    else serializeSections bufsz rest (serializePairs bufsz sec.entries out ++ [newline])

/-- `cfg_serialize`. -/
def cfgSerialize (cfg : CfgFile) (bufsz : Nat) : Bytes := serializeSections bufsz cfg []

/-! ### Get and set -/

/-- `cfg_get`. -/
def cfgGet (cfg : CfgFile) (name : Bytes) (key : Bytes) : Option Bytes :=
  cfg.findSome? fun sec =>
    if sec.name ≠ name then none else (sec.entries.find? (·.key = key)).map (·.val)

/-- A key of a section: the code, and the section. -/
def setKey (key val : Bytes) (sec : Section) : Int × Section :=
  if sec.entries.any (·.key = key) then
    (0, { sec with entries := onFirst (·.key = key) ({ · with val := val }) sec.entries })
  else if cfgMaxKeys ≤ sec.entries.length then (-1, sec)
  else (0, { sec with entries := sec.entries ++ [⟨key, val⟩] })

/-- `cfg_set`. -/
def cfgSet (cfg : CfgFile) (name key val : Bytes) : Int × CfgFile :=
  let set (cfg : CfgFile) : Int × CfgFile :=
    (((cfg.find? (·.name = name)).map fun sec => (setKey key val sec).1).getD 0,
      onFirst (·.name = name) (fun sec => (setKey key val sec).2) cfg)
  if cfg.any (·.name = name) then set cfg
  else if cfgMaxSections ≤ cfg.length then (-1, cfg)
  else set (cfg ++ [⟨name, []⟩])

/-! ### Load and save -/

/-- The size of the buffers of `cfg_load` and `cfg_save`. -/
def cfgBuffer : Nat := 8192

/-- `cfg_load`, with the bytes of the file if it can be opened. -/
def cfgLoad (cfg : CfgFile) (file : Option Bytes) : Int × CfgFile :=
  match file with
  | none => (-1, cfg)
  | some bytes =>
    let text := bytes.take (cfgBuffer - 1)
    if text = [] then (-1, cfg) else (0, cfgParse text)

/-- What `cfg_save` writes. -/
def cfgText (cfg : CfgFile) : Bytes := cfgSerialize cfg cfgBuffer

end AtmKoala.Config
