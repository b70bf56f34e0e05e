import Mathlib.Data.List.DropRight
import AtmKoala.Shell.Readline

/-!
What a line editor is: a text with a cursor in it, a place in the history, and the line that
is being typed while an older one is looked at.

The text is in two parts, in front of the cursor and behind it.
-/

namespace AtmKoala.Shell

open Lib Package

structure Line where
  before : Bytes
  after : Bytes
  /-- The entry that is looked at; behind the last one, the line that is being typed. -/
  index : Nat
  draft : Bytes
  history : List Bytes

/-- The line is still being edited, or was entered. -/
inductive Result where
  | editing (l : Line)
  | entered (text : Bytes)

namespace Line

def text (l : Line) : Bytes := l.before ++ l.after

def insert (l : Line) (s : Bytes) : Line := { l with before := l.before ++ s }

/-- A text with the cursor at its end. -/
def take (l : Line) (s : Bytes) : Line := { l with before := s, after := [] }

/-- The word in front of the cursor. -/
def word (l : Line) : Bytes := l.before.rtakeWhile (· ≠ 32)

/-- To the left of the blanks in front of the cursor, and the word in front of those. -/
def killWord (l : Line) : Line :=
  { l with before := (l.before.rdropWhile (· = 32)).rdropWhile (· ≠ 32) }

def left (l : Line) : Line :=
  { l with before := l.before.dropLast, after := (l.before.drop (l.before.length - 1)) ++ l.after }

def right (l : Line) : Line := { l with before := l.before ++ l.after.take 1, after := l.after.tail }

def up (l : Line) : Line :=
  if 0 < l.index then
    { l with
      index := l.index - 1
      draft := if l.index = l.history.length then l.text else l.draft }.take (l.history.getD (l.index - 1) [])
  else l

def down (l : Line) : Line :=
  if l.index < l.history.length then
    { l with index := l.index + 1 }.take
      (if l.index + 1 = l.history.length then l.draft else l.history.getD (l.index + 1) [])
  else l

/-- The only name that starts with the word in front of the cursor is written out, if it fits. -/
def complete (maxlen : Nat) (names : List Bytes) (l : Line) : Line :=
  match names.filter (l.word.isPrefixOf ·) with
  | [m] =>
    if l.word.length < 63 ∧ (l.insert (m.drop l.word.length)).text.length < maxlen - 1 then
      l.insert (m.drop l.word.length)
    else l
  | _ => l

def key (maxlen : Nat) (sdk : List Bytes) (l : Line) : Key → Result
  | .altC nested =>
    let history := configCreate l.history (nested + 1)
    .editing ⟨[], [], history.length, [], history⟩
  | .utf8 bytes => .editing (if (l.insert bytes).text.length < maxlen - 1 then l.insert bytes else l)
  | .code k =>
    if k = 10 ∨ k = 13 then .entered l.text
    else if k = 3 ∨ k = 4 ∧ l.text = [] then .entered []
    else if k = 1 ∨ k = keyHome then .editing { l with before := [], after := l.text }
    else if k = 5 ∨ k = keyEnd then .editing { l with before := l.text, after := [] }
    else if k = 11 then .editing { l with after := [] }
    else if k = 21 then .editing { l with before := [] }
    else if k = 23 then .editing l.killWord
    else if k = keyUp then .editing l.up
    else if k = keyDown then .editing l.down
    else if k = keyLeft then .editing l.left
    else if k = keyRight then .editing l.right
    else if k = keyDel then .editing { l with after := l.after.tail }
    else if k = 8 ∨ k = 127 then .editing { l with before := l.before.dropLast }
    else if k = 9 then .editing (l.complete maxlen (builtins ++ sdk))
    else if 32 ≤ k ∧ k ≤ 126 ∧ l.text.length < maxlen - 1 then .editing (l.insert [UInt8.ofNat k])
    else .editing l

end Line

end AtmKoala.Shell
