import AtmKoala.Lib.Region
import AtmKoala.Package.Model

/-!
The line editor of the shell (`readline_v6` in `kernel.c`).

A buffer is a memory of `RL_MAX` bytes; an access outside of it gives nothing. A C string is
the list of the bytes before its NUL. What is drawn on the terminal is left out.
-/

namespace AtmKoala.Shell

open Lib Package

def rlMax : Nat := 512
def histSize : Nat := 256
def compMax : Nat := 64

/-- The variables of `readline_v6`, and the history. -/
structure Editor where
  buf : Memory
  len : Nat
  pos : Nat
  histIdx : Nat
  saved : Memory
  history : List Bytes

/-- What `keyboard_poll` returns: a key code other than `KEY_UTF8`, without Alt if it is the one of
Alt+C; the bytes in `keyboard_utf8_buf`; or Alt+C, with how often it was pressed again before the
command came back. -/
inductive Key where
  | code (k : Nat)
  | utf8 (bytes : Bytes)
  | altC (nested : Nat)

/-- The line is still being edited, or this is in `out`. -/
inductive Outcome where
  | going (e : Editor)
  | returned (out : Bytes)

def keyUp : Nat := 0x100
def keyDown : Nat := 0x101
def keyLeft : Nat := 0x102
def keyRight : Nat := 0x103
def keyPgup : Nat := 0x104
def keyPgdn : Nat := 0x105
def keyHome : Nat := 0x106
def keyEnd : Nat := 0x107
def keyDel : Nat := 0x108

def builtins : List Bytes :=
  (["ls", "ll", "la", "cat", "view", "less", "installer-log", "head", "tail", "file", "hd",
    "hexdump", "wc", "grep", "sort", "uniq", "cut", "tr", "tee", "find", "tree", "write", "append",
    "touch", "dd", "rm", "cp", "mv", "mkdir", "rmdir", "cd", "pwd", "stat", "chmod", "chown", "ln",
    "ps", "kill", "sleep", "wait", "sh", "source", "uname", "info", "hwinfo", "lscpu", "cpucompat",
    "uptime", "mem", "free", "dmesg", "date", "timezone", "cube", "gears", "glxgears", "hostname",
    "whoami", "id", "env", "set", "unset", "export", "printenv", "lsblk", "swap", "gpu", "df",
    "du", "mount", "umount", "mkfs", "sync", "ifconfig", "netstat", "ping", "arp", "route", "unm",
    "untui", "netui", "diskmgr", "fdisk", "cfdisk", "readelf", "exec", "sdk", "serial", "modinfo",
    "malloc", "which", "man", "history", "nano", "calc", "bc", "clear", "reset", "logo", "echo",
    "printf", "de", "install", "live", "modules", "aiy", "help", "reboot", "halt", "poweroff",
    "sudo", "su", "login", "logout", "adduser", "deluser", "usermod", "passwd", "users", "openrc",
    "rc", "rc-status", "rc-service", "service", "rc-update", "initctl", "xargs", "atm-box",
    "atmbox", "busybox", "snake", "tetris", "pong", "desktop", "kernel", "notepad", "posix",
    "syscall"] : List String).map ascii

/-! ### Buffers -/

/-- `kmemmove` inside a buffer. -/
def kmemmove (m : Memory) (dst src n : Nat) : Option Memory :=
  if dst + n ≤ rlMax ∧ src + n ≤ rlMax then some (memmove m dst src n) else none

/-- `kmemcpy` into a buffer, and single bytes. -/
def kmemcpy (m : Memory) (dst : Nat) (l : Bytes) : Option Memory :=
  if dst + l.length ≤ rlMax then some (memput m dst l) else none

def kstrcpy (m : Memory) (s : Bytes) : Option Memory := kmemcpy m 0 (s ++ [0])

/-- `kstrncmp` is 0. -/
def kstrncmp : Bytes → Bytes → Nat → Bool
  | _, _, 0 => true
  | a, b, n + 1 =>
    if a.headD 0 ≠ b.headD 0 then false
    else if a.headD 0 = 0 then true else kstrncmp a.tail b.tail n

/-- `while (ws > 0 && buf[ws-1] != ' ') ws--`. -/
def wordStart (m : Memory) : Nat → Nat
  | 0 => 0
  | n + 1 => if m n ≠ 32 then wordStart m n else n + 1

/-- `while (p2 > 0 && buf[p2-1] == ' ') p2--`. -/
def blanksStart (m : Memory) : Nat → Nat
  | 0 => 0
  | n + 1 => if m n = 32 then blanksStart m n else n + 1

/-! ### Actions -/

/-- Bytes at the cursor, which moves behind them. -/
def insertText (e : Editor) (s : Bytes) : Option Editor := do
  let buf ← kmemmove e.buf (e.pos + s.length) e.pos (e.len - e.pos)
  let buf ← kmemcpy buf e.pos s
  let buf ← kmemcpy buf (e.len + s.length) [0]
  return { e with buf, len := e.len + s.length, pos := e.pos + s.length }

/-- The bytes from `start` up to the cursor are deleted. -/
def deleteFrom (e : Editor) (start : Nat) : Option Editor := do
  let buf ← kmemmove e.buf start e.pos (e.len - e.pos)
  let len := e.len - (e.pos - start)
  let buf ← kmemcpy buf len [0]
  return { e with buf, len, pos := start }

/-- The byte under the cursor is deleted. -/
def deleteChar (e : Editor) : Option Editor := do
  let buf ← kmemmove e.buf e.pos (e.pos + 1) (e.len - e.pos - 1)
  let buf ← kmemcpy buf (e.len - 1) [0]
  return { e with buf, len := e.len - 1 }

/-- The line is cut at the cursor. -/
def killEnd (e : Editor) : Option Editor := do
  let buf ← kmemcpy e.buf e.pos [0]
  return { e with buf, len := e.pos }

/-- A text takes the place of the line. -/
def recallLine (e : Editor) (s : Bytes) : Option Editor := do
  let buf ← kstrcpy e.buf s
  let text ← cstring rlMax buf
  return { e with buf, len := text.length, pos := text.length }

/-- At the bottom of the history the line is put aside. -/
def putAside (e : Editor) : Option Memory :=
  if e.histIdx = e.history.length then (cstring rlMax e.buf).bind (kstrcpy e.saved ·)
  else some e.saved

def historyUp (e : Editor) : Option Editor := do
  let saved ← putAside e
  if 0 < e.histIdx then
    recallLine { e with saved, histIdx := e.histIdx - 1 } (e.history.getD (e.histIdx - 1) [])
  else return { e with saved }

def historyDown (e : Editor) : Option Editor :=
  if e.histIdx < e.history.length then
    if e.histIdx + 1 = e.history.length then
      (cstring rlMax e.saved).bind (recallLine { e with histIdx := e.histIdx + 1 } ·)
    else recallLine { e with histIdx := e.histIdx + 1 } (e.history.getD (e.histIdx + 1) [])
  else some e

/-- Tab: the word in front of the cursor is completed if there is one way to. -/
def complete (maxlen : Nat) (sdk : List Bytes) (e : Editor) : Option Editor :=
  let ws := wordStart e.buf e.pos
  let pl := e.pos - ws
  if 63 ≤ pl then some e
  else
    let word := (List.range pl).map fun i => e.buf (ws + i)
    match ((builtins ++ sdk).filter (kstrncmp · word pl)).take compMax with
    | [m] =>
      if e.len + (m.length - pl) < maxlen - 1 then insertText e (m.drop pl) else some e
    | _ => some e

/-- A line of the history, as `dispatch` adds it. -/
def pushHistory (history : List Bytes) (line : Bytes) : List Bytes :=
  if history.length < histSize then history ++ [line] else history.tail ++ [line]

/-- What Alt+C runs, as often as it is pressed. -/
def configCreate (history : List Bytes) : Nat → List Bytes
  | 0 => history
  | n + 1 => configCreate (pushHistory history (ascii "config create")) n

/-! ### Keys -/

/-- One round of the loop of `readline_v6`. -/
def readlineKey (maxlen : Nat) (sdk : List Bytes) (e : Editor) : Key → Option Outcome
  | .altC nested => some (.going { e with
      len := 0
      pos := 0
      history := configCreate e.history (nested + 1) })
  | .utf8 bytes =>
    if e.len + bytes.length < rlMax - 1 ∧ e.len + bytes.length < maxlen - 1 then
      (insertText e bytes).map .going
    else some (.going e)
  | .code k =>
    if k = 10 ∨ k = 13 then do
      let buf ← kmemcpy e.buf e.len [0]
      let out ← cstring rlMax buf
      return .returned out
    else if k = 3 ∨ k = 4 ∧ e.len = 0 then some (.returned [])
    else if k = 1 ∨ k = keyHome then some (.going { e with pos := 0 })
    else if k = 5 ∨ k = keyEnd then some (.going { e with pos := e.len })
    else if k = 11 then (killEnd e).map .going
    else if k = 21 then (deleteFrom e 0).map .going
    else if k = 23 then (deleteFrom e (wordStart e.buf (blanksStart e.buf e.pos))).map .going
    else if k = keyUp then (historyUp e).map .going
    else if k = keyDown then (historyDown e).map .going
    else if k = keyLeft then some (.going { e with pos := e.pos - 1 })
    else if k = keyRight then some (.going { e with pos := if e.pos < e.len then e.pos + 1 else e.pos })
    else if k = keyDel then if e.pos < e.len then (deleteChar e).map .going else some (.going e)
    else if k = 8 ∨ k = 127 then
      if 0 < e.pos then (deleteFrom e (e.pos - 1)).map .going else some (.going e)
    else if k = 9 then (complete maxlen sdk e).map .going
    else if 32 ≤ k ∧ k ≤ 126 ∧ e.len < maxlen - 1 then (insertText e [UInt8.ofNat k]).map .going
    else some (.going e)

end AtmKoala.Shell
