import AtmKoala.Lib.Run
import AtmKoala.Shell.Line

/-!
The line editor of the shell is a line editor.

* `Tracks`: the buffer holds the text of a `Line`, and the cursor stands where its does.
* Each action keeps that (`Tracks.insertText`, `Tracks.deleteFrom`, ..., `Tracks.key`).
* `run_behaves`: every line that is edited and entered, as long as the history is gone through
  from a place that is known and what is recalled fits.
-/

namespace AtmKoala.Shell

open Lib Package

variable {maxlen : Nat} {sdk : List Bytes} {e e' : Editor} {l : Line} {s : Bytes} {m : Memory}

/-- No byte is NUL. -/
def Plain (s : Bytes) : Prop := ∀ b ∈ s, b ≠ 0

instance (s : Bytes) : Decidable (Plain s) := inferInstanceAs (Decidable (∀ b ∈ s, _))

theorem plain_append {a b : Bytes} : Plain (a ++ b) ↔ Plain a ∧ Plain b := List.forall_mem_append

/-- The buffers and the line of the reference belong together. -/
structure Tracks (maxlen : Nat) (e : Editor) (l : Line) : Prop where
  text : Holds e.buf 0 l.text
  pos : e.pos = l.before.length
  len : e.len = l.text.length
  fits : l.text.length < maxlen
  plain : Plain l.text
  history : e.history = l.history
  entries : ∀ h ∈ l.history, Plain h
  index : l.index ≤ l.history.length
  saved : e.histIdx = l.index → l.index < l.history.length → Holds e.saved 0 (l.draft ++ [0])
  draftFits : l.draft.length < maxlen
  draftPlain : Plain l.draft

theorem kmemcpy_eq {dst : Nat} (fits : dst + s.length ≤ rlMax) :
    kmemcpy m dst s = some (memput m dst s) := if_pos fits

theorem kmemmove_eq {dst src n : Nat} (into : dst + n ≤ rlMax) (from_ : src + n ≤ rlMax) :
    kmemmove m dst src n = some (memmove m dst src n) := if_pos ⟨into, from_⟩

/-! ### Words -/

theorem blanksStart_eq (holds : Holds m 0 s) :
    blanksStart m s.length = (s.rdropWhile (· = 32)).length := by
  induction s using List.reverseRecOn with
  | nil => rfl
  | append_singleton s b ih =>
    obtain ⟨front, last⟩ := holds_append.mp holds
    rw [Nat.zero_add, holds_singleton] at last
    rw [List.length_append, List.length_singleton, blanksStart, last]
    by_cases blank : b = 32
    · rw [if_pos blank, List.rdropWhile_concat_pos _ _ _ (by simpa using blank)]
      exact ih front
    · rw [if_neg blank, List.rdropWhile_concat_neg _ _ _ (by simpa using blank), List.length_append]
      rfl

theorem wordStart_eq (holds : Holds m 0 s) :
    wordStart m s.length = (s.rdropWhile (· ≠ 32)).length := by
  induction s using List.reverseRecOn with
  | nil => rfl
  | append_singleton s b ih =>
    obtain ⟨front, last⟩ := holds_append.mp holds
    rw [Nat.zero_add, holds_singleton] at last
    rw [List.length_append, List.length_singleton, wordStart, last]
    by_cases blank : b = 32
    · rw [if_neg (not_not.mpr blank), List.rdropWhile_concat_neg _ _ _ (by simpa using blank),
        List.length_append]
      rfl
    · rw [if_pos blank, List.rdropWhile_concat_pos _ _ _ (by simpa using blank)]
      exact ih front

/-- `kstrncmp` over the length of a word asks for names that start with it. -/
theorem kstrncmp_eq (name : Bytes) {word : Bytes} (plain : Plain word) :
    kstrncmp name word word.length = word.isPrefixOf name := by
  induction word generalizing name with
  | nil => cases name <;> rfl
  | cons b word ih =>
    have some_ : b ≠ 0 := plain b List.mem_cons_self
    have rest : Plain word := fun x mem => plain x (List.mem_cons_of_mem _ mem)
    rw [List.length_cons, kstrncmp, List.headD_cons, List.tail_cons]
    cases name with
    | nil => rw [List.headD_nil, if_pos some_.symm, List.isPrefixOf_cons_nil]
    | cons c name =>
      rw [List.headD_cons, List.tail_cons, List.isPrefixOf_cons_cons]
      by_cases same : c = b
      · rw [if_neg (not_not.mpr same), if_neg (same ▸ some_), ih name rest, same, beq_self_eq_true,
          Bool.true_and]
      · rw [if_pos same, beq_false_of_ne (Ne.symm same), Bool.false_and]

namespace Tracks

/-- Another text takes the place of the one there was. -/
theorem retext (tracks : Tracks maxlen e l) {buf : Memory} {len pos : Nat} {before after : Bytes}
    (text : Holds buf 0 (before ++ after)) (posEq : pos = before.length)
    (lenEq : len = (before ++ after).length) (fits : (before ++ after).length < maxlen)
    (plain : Plain (before ++ after)) :
    Tracks maxlen { e with buf, len, pos } { l with before, after } :=
  ⟨text, posEq, lenEq, fits, plain, tracks.history, tracks.entries, tracks.index, tracks.saved,
    tracks.draftFits, tracks.draftPlain⟩

/-- The cursor moves. -/
theorem move (tracks : Tracks maxlen e l) {pos : Nat} {before after : Bytes}
    (same : before ++ after = l.text) (posEq : pos = before.length) :
    Tracks maxlen { e with pos } { l with before, after } :=
  tracks.retext (same ▸ tracks.text) posEq (same ▸ tracks.len) (same ▸ tracks.fits)
    (same ▸ tracks.plain)

theorem length_text (l : Line) : l.text.length = l.before.length + l.after.length := List.length_append

theorem length_insert (l : Line) (s : Bytes) : (l.insert s).text.length = l.text.length + s.length := by
  rw [length_text, length_text, Line.insert, List.length_append]
  exact Nat.add_right_comm _ _ _

theorem behind (tracks : Tracks maxlen e l) : e.len - e.pos = l.after.length := by
  rw [tracks.len, tracks.pos, length_text]
  omega

theorem parts (tracks : Tracks maxlen e l) :
    Holds e.buf 0 l.before ∧ Holds e.buf e.pos l.after := by
  have both := holds_append.mp tracks.text
  rwa [Nat.zero_add, ← tracks.pos] at both

/-- **Insertion.** -/
theorem insertText (tracks : Tracks maxlen e l) (small : maxlen ≤ rlMax) (plain : Plain s)
    (fits : (l.insert s).text.length < maxlen) :
    ∃ e', Shell.insertText e s = some e' ∧ e'.histIdx = e.histIdx ∧
      Tracks maxlen e' (l.insert s) := by
  obtain ⟨front, back⟩ := tracks.parts
  have behind := tracks.behind
  have pos := tracks.pos
  have len := tracks.len
  have whole := length_text l
  have length := length_insert l s
  have one : ([0] : Bytes).length = 1 := rfl
  have done : Shell.insertText e s = some { e with
      buf := memput (memput (memmove e.buf (e.pos + s.length) e.pos l.after.length) e.pos s)
        (e.len + s.length) [0]
      len := e.len + s.length
      pos := e.pos + s.length } := by
    unfold Shell.insertText
    rw [behind, kmemmove_eq (by omega) (by omega), Option.bind_eq_bind, Option.bind_some,
      kmemcpy_eq (by omega), Option.bind_some, kmemcpy_eq (by omega)]
    rfl
  refine ⟨_, done, rfl, tracks.retext ?_ (by rw [pos, List.length_append]) ?_ fits ?_⟩
  · refine holds_append.mpr ⟨holds_append.mpr ⟨?_, ?_⟩, ?_⟩
    · exact ((front.move_apart (.inl (by omega))).put_apart (.inl (by omega))).put_apart (.inl (by omega))
    · rw [Nat.zero_add, ← pos]
      exact (holds_put _ _ s).put_apart (.inl (by omega))
    · rw [Nat.zero_add, List.length_append, ← pos]
      exact (back.moved.put_apart (.inr (Nat.le_refl _))).put_apart (.inl (by omega))
  · rw [List.length_append, List.length_append]
    omega
  · have old := plain_append.mp tracks.plain
    exact plain_append.mpr ⟨plain_append.mpr ⟨old.1, plain⟩, old.2⟩

/-- **Deletion** in front of the cursor. -/
theorem deleteFrom (tracks : Tracks maxlen e l) (small : maxlen ≤ rlMax) {start : Nat}
    (le : start ≤ l.before.length) :
    ∃ e', Shell.deleteFrom e start = some e' ∧ e'.histIdx = e.histIdx ∧
      Tracks maxlen e' { l with before := l.before.take start } := by
  obtain ⟨front, back⟩ := tracks.parts
  have behind := tracks.behind
  have pos := tracks.pos
  have len := tracks.len
  have fits := tracks.fits
  have whole := length_text l
  have taken : (l.before.take start).length = start := List.length_take_of_le le
  have one : ([0] : Bytes).length = 1 := rfl
  have done : Shell.deleteFrom e start = some { e with
      buf := memput (memmove e.buf start e.pos l.after.length) (e.len - (e.pos - start)) [0]
      len := e.len - (e.pos - start)
      pos := start } := by
    unfold Shell.deleteFrom
    rw [behind, kmemmove_eq (by omega) (by omega), Option.bind_eq_bind, Option.bind_some]
    dsimp only
    rw [kmemcpy_eq (by omega)]
    rfl
  have kept : Holds e.buf 0 (l.before.take start) := by
    rw [← List.take_append_drop start l.before] at front
    exact (holds_append.mp front).1
  refine ⟨_, done, rfl, tracks.retext ?_ taken.symm ?_ ?_ ?_⟩
  · refine holds_append.mpr ⟨?_, ?_⟩
    · exact (kept.move_apart (.inl (by omega))).put_apart (.inl (by omega))
    · rw [Nat.zero_add, taken]
      exact back.moved.put_apart (.inl (by omega))
  · rw [List.length_append, taken]
    omega
  · rw [List.length_append, taken]
    omega
  · have old := plain_append.mp tracks.plain
    exact plain_append.mpr ⟨fun b mem => old.1 b (List.mem_of_mem_take mem), old.2⟩

/-- Deletion under the cursor. -/
theorem deleteChar (tracks : Tracks maxlen e l) (small : maxlen ≤ rlMax) (some_ : l.after ≠ []) :
    ∃ e', Shell.deleteChar e = some e' ∧ e'.histIdx = e.histIdx ∧
      Tracks maxlen e' { l with after := l.after.tail } := by
  obtain ⟨front, back⟩ := tracks.parts
  have behind := tracks.behind
  have pos := tracks.pos
  have len := tracks.len
  have fits := tracks.fits
  have whole := length_text l
  obtain ⟨b, after, split⟩ := List.exists_cons_of_ne_nil some_
  have count : l.after.length = after.length + 1 := by rw [split]; rfl
  have one : ([0] : Bytes).length = 1 := rfl
  have done : Shell.deleteChar e = some { e with
      buf := memput (memmove e.buf e.pos (e.pos + 1) after.length) (e.len - 1) [0]
      len := e.len - 1 } := by
    have moved : e.len - e.pos - 1 = after.length := by omega
    unfold Shell.deleteChar
    rw [moved, kmemmove_eq (by omega) (by omega), Option.bind_eq_bind, Option.bind_some,
      kmemcpy_eq (by omega)]
    rfl
  have rest : Holds e.buf (e.pos + 1) after := by
    rw [split, ← List.singleton_append] at back
    exact (holds_append.mp back).2
  have tail : l.after.tail = after := by rw [split]; rfl
  rw [tail]
  refine ⟨_, done, rfl, tracks.retext ?_ pos ?_ ?_ ?_⟩
  · refine holds_append.mpr ⟨?_, ?_⟩
    · exact (front.move_apart (.inl (by omega))).put_apart (.inl (by omega))
    · rw [Nat.zero_add, ← pos]
      exact rest.moved.put_apart (.inl (by omega))
  · rw [List.length_append]
    omega
  · rw [List.length_append]
    omega
  · have old := plain_append.mp tracks.plain
    refine plain_append.mpr ⟨old.1, fun x mem => old.2 x ?_⟩
    rw [split]
    exact List.mem_cons_of_mem _ mem

theorem killEnd (tracks : Tracks maxlen e l) (small : maxlen ≤ rlMax) :
    ∃ e', Shell.killEnd e = some e' ∧ e'.histIdx = e.histIdx ∧
      Tracks maxlen e' { l with after := [] } := by
  obtain ⟨front, -⟩ := tracks.parts
  have pos := tracks.pos
  have fits := tracks.fits
  have whole := length_text l
  have one : ([0] : Bytes).length = 1 := rfl
  have done : Shell.killEnd e = some { e with buf := memput e.buf e.pos [0], len := e.pos } := by
    unfold Shell.killEnd
    rw [kmemcpy_eq (by omega)]
    rfl
  refine ⟨_, done, rfl, tracks.retext ?_ pos ?_ ?_ ?_⟩
  · rw [List.append_nil]
    exact front.put_apart (.inl (by omega))
  · rw [List.append_nil, pos]
  · rw [List.append_nil]
    omega
  · rw [List.append_nil]
    exact (plain_append.mp tracks.plain).1

/-! ### The history -/

/-- A text is recalled. -/
theorem recallLine (tracks : Tracks maxlen e l) (small : maxlen ≤ rlMax) (plain : Plain s)
    (fits : s.length < maxlen) :
    ∃ e', Shell.recallLine e s = some e' ∧ e'.histIdx = e.histIdx ∧ Tracks maxlen e' (l.take s) := by
  have one : (s ++ [0]).length = s.length + 1 := List.length_append
  have put : Holds (memput e.buf 0 (s ++ [0])) 0 (s ++ [0]) := holds_put _ _ _
  have done : Shell.recallLine e s = some { e with
      buf := memput e.buf 0 (s ++ [0])
      len := s.length
      pos := s.length } := by
    unfold Shell.recallLine kstrcpy
    rw [kmemcpy_eq (by omega), Option.bind_eq_bind, Option.bind_some,
      put.cstring plain (by omega)]
    rfl
  have whole : s ++ [] = s := List.append_nil s
  refine ⟨_, done, rfl, tracks.retext ?_ rfl (by rw [whole]) (by rwa [whole]) (by rwa [whole])⟩
  rw [whole]
  exact (holds_append.mp put).1

theorem entry (tracks : Tracks maxlen e l) (i : Nat) : Plain (l.history.getD i []) := by
  by_cases lt : i < l.history.length
  · rw [List.getD_eq_getElem _ _ lt]
    exact tracks.entries _ (List.getElem_mem lt)
  · rw [List.getD_eq_default _ _ (by omega)]
    exact List.forall_mem_nil _

/-- **Up.** At the bottom the line is put aside, and the entry above takes its place. -/
theorem historyUp (tracks : Tracks maxlen e l) (small : maxlen ≤ rlMax) (level : e.histIdx = l.index)
    (stops : e.histIdx = e.history.length → e.buf e.len = 0)
    (shorter : 0 < e.histIdx → (e.history.getD (e.histIdx - 1) []).length < maxlen) :
    ∃ e', Shell.historyUp e = some e' ∧ e'.histIdx = l.up.index ∧ Tracks maxlen e' l.up := by
  rw [tracks.history] at shorter stops
  have fits := tracks.fits
  have low := tracks.index
  -- the line at the bottom is a C string, and a copy of it is what comes back
  have aside : ∃ saved, putAside e = some saved ∧ (0 < l.history.length →
      Holds saved 0 ((if l.index = l.history.length then l.text else l.draft) ++ [0])) := by
    unfold putAside
    rw [tracks.history, level]
    by_cases bottom : l.index = l.history.length
    · have read : cstring rlMax e.buf = some l.text := by
        refine Holds.cstring (holds_append.mpr ⟨tracks.text, ?_⟩) tracks.plain (by omega)
        rw [Nat.zero_add, ← tracks.len, holds_singleton]
        exact stops (level.trans bottom)
      have one : (l.text ++ [0]).length = l.text.length + 1 := List.length_append
      rw [if_pos bottom, if_pos bottom, read]
      refine ⟨_, kmemcpy_eq (by omega), fun _ => holds_put _ _ _⟩
    · rw [if_neg bottom, if_neg bottom]
      exact ⟨_, rfl, fun _ => tracks.saved level (by omega)⟩
  obtain ⟨saved, asideEq, holds⟩ := aside
  unfold Shell.historyUp Line.up
  rw [asideEq, Option.bind_eq_bind, Option.bind_some, level]
  by_cases above : 0 < l.index
  · rw [if_pos above, if_pos above, tracks.history]
    have moved : Tracks maxlen { e with saved, histIdx := l.index - 1 } { l with
        index := l.index - 1
        draft := if l.index = l.history.length then l.text else l.draft } := by
      refine ⟨tracks.text, tracks.pos, tracks.len, fits, tracks.plain, tracks.history, tracks.entries,
        ?_, fun _ _ => holds (by omega), ?_, ?_⟩
      · show l.index - 1 ≤ l.history.length
        omega
      · dsimp only
        split
        · exact fits
        · exact tracks.draftFits
      · dsimp only
        split
        · exact tracks.plain
        · exact tracks.draftPlain
    obtain ⟨e', done, same, tracks'⟩ := moved.recallLine small (tracks.entry (l.index - 1))
      (level ▸ shorter (level ▸ above))
    rw [tracks.history] at done
    exact ⟨e', done, same, tracks'⟩
  · rw [if_neg above, if_neg above]
    refine ⟨_, rfl, rfl, ?_⟩
    exact ⟨tracks.text, tracks.pos, tracks.len, fits, tracks.plain, tracks.history, tracks.entries,
      low, fun _ lt => by
        have put := holds (by omega)
        rwa [if_neg (by omega)] at put, tracks.draftFits, tracks.draftPlain⟩

/-- **Down.** Behind the last entry the line that was put aside comes back. -/
theorem historyDown (tracks : Tracks maxlen e l) (small : maxlen ≤ rlMax) (level : e.histIdx = l.index)
    (shorter : e.histIdx + 1 < e.history.length →
      (e.history.getD (e.histIdx + 1) []).length < maxlen) :
    ∃ e', Shell.historyDown e = some e' ∧ e'.histIdx = l.down.index ∧ Tracks maxlen e' l.down := by
  rw [tracks.history, level] at shorter
  have fits := tracks.draftFits
  unfold Shell.historyDown Line.down
  rw [tracks.history, level]
  by_cases above : l.index < l.history.length
  · have aside := tracks.saved level above
    have moved : Tracks maxlen { e with histIdx := l.index + 1 } { l with index := l.index + 1 } :=
      ⟨tracks.text, tracks.pos, tracks.len, tracks.fits, tracks.plain, tracks.history, tracks.entries,
        above, fun _ _ => aside, tracks.draftFits, tracks.draftPlain⟩
    rw [if_pos above, if_pos above]
    by_cases bottom : l.index + 1 = l.history.length
    · rw [if_pos bottom, if_pos bottom, aside.cstring tracks.draftPlain (by omega), Option.bind_some]
      obtain ⟨e', done, same, tracks'⟩ := moved.recallLine small tracks.draftPlain fits
      rw [tracks.history] at done
      exact ⟨e', done, same, tracks'⟩
    · rw [if_neg bottom, if_neg bottom]
      obtain ⟨e', done, same, tracks'⟩ := moved.recallLine small (tracks.entry (l.index + 1))
        (shorter (by omega))
      rw [tracks.history] at done
      exact ⟨e', done, same, tracks'⟩
  · rw [if_neg above, if_neg above]
    exact ⟨e, rfl, level, tracks⟩

/-! ### Words -/

theorem killWord (tracks : Tracks maxlen e l) (small : maxlen ≤ rlMax) :
    ∃ e', Shell.deleteFrom e (wordStart e.buf (blanksStart e.buf e.pos)) = some e' ∧
      e'.histIdx = e.histIdx ∧ Tracks maxlen e' l.killWord := by
  obtain ⟨front, -⟩ := tracks.parts
  have inner : l.before.rdropWhile (· = 32) <+: l.before := List.rdropWhile_prefix _ _
  have outer : (l.before.rdropWhile (· = 32)).rdropWhile (· ≠ 32) <+: l.before :=
    (List.rdropWhile_prefix _ _).trans inner
  have blanks : Holds e.buf 0 (l.before.rdropWhile (· = 32)) := by
    obtain ⟨rest, split⟩ := inner
    exact (holds_append.mp (split ▸ front)).1
  rw [tracks.pos, blanksStart_eq front, wordStart_eq blanks]
  obtain ⟨e', done, same, tracks'⟩ := tracks.deleteFrom small outer.length_le
  rw [← List.prefix_iff_eq_take.mp outer] at tracks'
  exact ⟨e', done, same, tracks'⟩

/-- **Completion.** -/
theorem complete (tracks : Tracks maxlen e l) (small : maxlen ≤ rlMax)
    (names : ∀ n ∈ builtins ++ sdk, Plain n) :
    ∃ e', Shell.complete maxlen sdk e = some e' ∧ e'.histIdx = e.histIdx ∧
      Tracks maxlen e' (l.complete maxlen (builtins ++ sdk)) := by
  obtain ⟨front, -⟩ := tracks.parts
  have split : l.before.rdropWhile (· ≠ 32) ++ l.word = l.before :=
    List.rdropWhile_append_rtakeWhile
  have length : (l.before.rdropWhile (· ≠ 32)).length + l.word.length = e.pos := by
    rw [← List.length_append, split, tracks.pos]
  have there : Holds e.buf (l.before.rdropWhile (· ≠ 32)).length l.word := by
    rw [← Nat.zero_add (List.length _)]
    exact (holds_append.mp (split.symm ▸ front)).2
  have plain : Plain l.word := by
    have whole := (plain_append.mp tracks.plain).1
    rw [← split] at whole
    exact (plain_append.mp whole).2
  have start : wordStart e.buf e.pos = (l.before.rdropWhile (· ≠ 32)).length := by
    rw [tracks.pos, wordStart_eq front]
  have count : e.pos - (l.before.rdropWhile (· ≠ 32)).length = l.word.length := by omega
  have test : (fun name => kstrncmp name l.word l.word.length) = (l.word.isPrefixOf ·) :=
    funext fun name => kstrncmp_eq name plain
  unfold Shell.complete Line.complete
  dsimp only
  rw [start, count, there.map_range, test]
  have subset : ∀ n ∈ (builtins ++ sdk).filter (l.word.isPrefixOf ·), Plain n := fun n mem =>
    names n (List.mem_of_mem_filter mem)
  generalize (builtins ++ sdk).filter (l.word.isPrefixOf ·) = found at subset
  have stay : ∃ e', some e = some e' ∧ e'.histIdx = e.histIdx ∧ Tracks maxlen e' l :=
    ⟨e, rfl, rfl, tracks⟩
  match found, subset with
  | [], _ =>
    rw [show ([] : List Bytes).take compMax = [] from rfl, ite_self]
    exact stay
  | a :: b :: rest, _ =>
    rw [show (a :: b :: rest).take compMax = a :: b :: rest.take 62 from rfl, ite_self]
    exact stay
  | [name], plains =>
    have room : (l.insert (name.drop l.word.length)).text.length =
        e.len + (name.length - l.word.length) := by
      rw [length_insert, tracks.len, List.length_drop]
    rw [show [name].take compMax = [name] from rfl]
    dsimp only
    rw [room]
    by_cases long : 63 ≤ l.word.length
    · rw [if_pos long, if_neg (by omega)]
      exact stay
    · rw [if_neg long]
      by_cases fits : e.len + (name.length - l.word.length) < maxlen - 1
      · rw [if_pos fits, if_pos ⟨by omega, fits⟩]
        have rest : Plain (name.drop l.word.length) := fun b mem =>
          plains name List.mem_cons_self b (List.mem_of_mem_drop mem)
        exact tracks.insertText small rest (by omega)
      · rw [if_neg fits, if_neg (fun both => fits both.2)]
        exact stay

end Tracks

/-! ### Keys -/

/-- What comes from the keyboard is a C string. -/
def Key.Proper : Key → Prop
  | .utf8 bytes => Plain bytes
  | _ => True

instance : (k : Key) → Decidable k.Proper
  | .utf8 bytes => inferInstanceAs (Decidable (Plain bytes))
  | .code _ => isTrue trivial
  | .altC _ => isTrue trivial

/-- Alt+C adds to the history and leaves `hist_idx`; a full history stays as long as it is. -/
def departs (e : Editor) : Key → Bool
  | .altC _ => !(decide (e.histIdx = e.history.length) && decide (histSize ≤ e.history.length))
  | _ => false

/-- The arrows that go through the history are pressed where `hist_idx` says, the line at the bottom
is terminated, and what is recalled fits. -/
def Kept (maxlen : Nat) (apart : Bool) (e : Editor) : Key → Prop
  | .code k =>
    (k = keyUp → apart = false ∧ (e.histIdx = e.history.length → e.buf e.len = 0) ∧
      (0 < e.histIdx → (e.history.getD (e.histIdx - 1) []).length < maxlen)) ∧
    (k = keyDown → apart = false ∧ (e.histIdx + 1 < e.history.length →
      (e.history.getD (e.histIdx + 1) []).length < maxlen))
  | _ => True

/-- `readline_v6` (nothing if it left a buffer), the line beside it, and whether Alt+C has put
`hist_idx` and the history apart. -/
structure Session where
  code : Option Outcome
  line : Result
  apart : Bool

/-- The line is the one in the buffer, or came back in `out`. -/
def Follows (maxlen : Nat) (s : Session) : Prop :=
  match s.code, s.line with
  | some (.going e), .editing l => Tracks maxlen e l ∧ (s.apart = false → e.histIdx = l.index)
  | some (.returned out), .entered text => out = text ∧ out.length < maxlen
  | _, _ => False

namespace Follows

variable {apart : Bool}

theorem ite {c c' : Prop} [Decidable c] [Decidable c'] {a a' : Option Outcome} {b b' : Result}
    (same : c ↔ c') (yes : c → Follows maxlen ⟨a, b, apart⟩)
    (no : ¬c → Follows maxlen ⟨a', b', apart⟩) :
    Follows maxlen ⟨if c then a else a', if c' then b else b', apart⟩ := by
  by_cases holds : c
  · rw [if_pos holds, if_pos (same.mp holds)]
    exact yes holds
  · rw [if_neg holds, if_neg (mt same.mpr holds)]
    exact no holds

theorem map {x : Option Editor} {l' : Line} (level : apart = false → e.histIdx = l.index)
    (done : ∃ e', x = some e' ∧ e'.histIdx = e.histIdx ∧ Tracks maxlen e' l')
    (same : l'.index = l.index) :
    Follows maxlen ⟨x.map .going, .editing l', apart⟩ := by
  obtain ⟨e', rfl, idx, tracks⟩ := done
  exact ⟨tracks, fun together => by rw [idx, same, level together]⟩

theorem recalled {x : Option Editor} {l' : Line}
    (done : ∃ e', x = some e' ∧ e'.histIdx = l'.index ∧ Tracks maxlen e' l') :
    Follows maxlen ⟨x.map .going, .editing l', apart⟩ := by
  obtain ⟨e', rfl, level, tracks⟩ := done
  exact ⟨tracks, fun _ => level⟩

/-- **The buffer comes back** on Enter. -/
theorem enter (tracks : Tracks maxlen e l) (small : maxlen ≤ rlMax) :
    Follows maxlen ⟨do
      let buf ← kmemcpy e.buf e.len [0]
      let out ← cstring rlMax buf
      return .returned out, .entered l.text, apart⟩ := by
  have fits := tracks.fits
  have len := tracks.len
  have one : ([0] : Bytes).length = 1 := rfl
  have whole : Holds (memput e.buf e.len [0]) 0 (l.text ++ [0]) := by
    refine holds_append.mpr ⟨tracks.text.put_apart (.inl (by omega)), ?_⟩
    rw [Nat.zero_add, ← len]
    exact holds_put _ _ _
  rw [kmemcpy_eq (by omega), Option.bind_eq_bind, Option.bind_some,
    whole.cstring tracks.plain (by omega)]
  exact ⟨rfl, fits⟩

end Follows

namespace Tracks

variable {apart : Bool} {k : Nat}

theorem left (tracks : Tracks maxlen e l) : Tracks maxlen { e with pos := e.pos - 1 } l.left := by
  refine tracks.move ?_ ?_
  · rw [List.dropLast_eq_take, ← List.append_assoc, List.take_append_drop]
    rfl
  · rw [List.length_dropLast, tracks.pos]

theorem right (tracks : Tracks maxlen e l) :
    Tracks maxlen { e with pos := if e.pos < e.len then e.pos + 1 else e.pos } l.right := by
  have whole := length_text l
  have pos := tracks.pos
  have len := tracks.len
  refine tracks.move ?_ ?_
  · rw [← List.drop_one, List.append_assoc, List.take_append_drop]
    rfl
  · rw [List.length_append, List.length_take]
    split <;> omega

theorem delete (tracks : Tracks maxlen e l) (small : maxlen ≤ rlMax)
    (level : apart = false → e.histIdx = l.index) :
    Follows maxlen ⟨if e.pos < e.len then (Shell.deleteChar e).map .going else some (.going e),
      .editing { l with after := l.after.tail }, apart⟩ := by
  have behind := tracks.behind
  by_cases inside : e.pos < e.len
  · rw [if_pos inside]
    have some_ : l.after ≠ [] := List.ne_nil_of_length_pos (by omega)
    exact Follows.map level (tracks.deleteChar small some_) rfl
  · have none_ : l.after = [] := List.length_eq_zero_iff.mp (by omega)
    rw [if_neg inside]
    refine ⟨tracks.move ?_ tracks.pos, level⟩
    rw [Line.text, none_]
    rfl

theorem backspace (tracks : Tracks maxlen e l) (small : maxlen ≤ rlMax)
    (level : apart = false → e.histIdx = l.index) :
    Follows maxlen ⟨if 0 < e.pos then (Shell.deleteFrom e (e.pos - 1)).map .going else some (.going e),
      .editing { l with before := l.before.dropLast }, apart⟩ := by
  have pos := tracks.pos
  by_cases inside : 0 < e.pos
  · rw [if_pos inside, pos, List.dropLast_eq_take]
    exact Follows.map level (tracks.deleteFrom small (Nat.sub_le _ _)) rfl
  · have none_ : l.before = [] := List.length_eq_zero_iff.mp (by omega)
    rw [if_neg inside]
    refine ⟨tracks.move ?_ ?_, level⟩
    · rw [Line.text, none_]
      rfl
    · rw [pos, none_]
      rfl

/-- **One key**, a case for each that does something. -/
theorem code (tracks : Tracks maxlen e l) (small : maxlen ≤ rlMax)
    (names : ∀ n ∈ builtins ++ sdk, Plain n) (level : apart = false → e.histIdx = l.index)
    (kept : Kept maxlen apart e (.code k)) :
    Follows maxlen ⟨readlineKey maxlen sdk e (.code k), l.key maxlen sdk (.code k), apart⟩ := by
  have empty : e.len = 0 ↔ l.text = [] := by
    rw [tracks.len]
    exact List.length_eq_zero_iff
  have room : e.len < maxlen - 1 ↔ l.text.length < maxlen - 1 := by rw [tracks.len]
  have stay : Follows maxlen ⟨some (.going e), .editing l, apart⟩ := ⟨tracks, level⟩
  unfold readlineKey Line.key
  refine .ite .rfl (fun _ => .enter tracks small) fun _ => ?_
  refine .ite (or_congr .rfl (and_congr .rfl empty))
    (fun _ => ⟨rfl, Nat.zero_lt_of_lt tracks.fits⟩) fun _ => ?_
  refine .ite .rfl (fun _ => ⟨tracks.move rfl rfl, level⟩) fun _ => ?_
  refine .ite .rfl (fun _ => ⟨tracks.move (List.append_nil _) tracks.len, level⟩) fun _ => ?_
  refine .ite .rfl (fun _ => .map level (tracks.killEnd small) rfl) fun _ => ?_
  refine .ite .rfl (fun _ => .map level (tracks.deleteFrom small (Nat.zero_le _)) rfl) fun _ => ?_
  refine .ite .rfl (fun _ => .map level (tracks.killWord small) rfl) fun _ => ?_
  refine .ite .rfl (fun up => ?_) fun _ => ?_
  · obtain ⟨together, stops, shorter⟩ := kept.1 up
    exact .recalled (tracks.historyUp small (level together) stops shorter)
  refine .ite .rfl (fun down => ?_) fun _ => ?_
  · obtain ⟨together, shorter⟩ := kept.2 down
    exact .recalled (tracks.historyDown small (level together) shorter)
  refine .ite .rfl (fun _ => ⟨tracks.left, level⟩) fun _ => ?_
  refine .ite .rfl (fun _ => ⟨tracks.right, level⟩) fun _ => ?_
  refine .ite .rfl (fun _ => tracks.delete small level) fun _ => ?_
  refine .ite .rfl (fun _ => tracks.backspace small level) fun _ => ?_
  refine .ite .rfl (fun _ => .map level (tracks.complete small names) ?_) fun _ => ?_
  · unfold Line.complete
    split
    · split <;> rfl
    · rfl
  refine .ite (and_congr .rfl (and_congr .rfl room)) (fun printable => ?_) fun _ => stay
  obtain ⟨low, high, fits⟩ := printable
  have plain : Plain [UInt8.ofNat k] := by
    intro b mem zero
    obtain rfl := List.mem_singleton.mp mem
    have value := congrArg UInt8.toNat zero
    rw [UInt8.toNat_ofNat'] at value
    have none_ : (0 : UInt8).toNat = 0 := rfl
    omega
  refine .map level (tracks.insertText small plain ?_) rfl
  have one := length_insert l [UInt8.ofNat k]
  have single : [UInt8.ofNat k].length = 1 := rfl
  have len := tracks.len
  omega

theorem utf8 (tracks : Tracks maxlen e l) (small : maxlen ≤ rlMax) (plain : Plain s)
    (level : apart = false → e.histIdx = l.index) :
    Follows maxlen ⟨readlineKey maxlen sdk e (.utf8 s), l.key maxlen sdk (.utf8 s), apart⟩ := by
  have length := length_insert l s
  have len := tracks.len
  have same : (e.len + s.length < rlMax - 1 ∧ e.len + s.length < maxlen - 1) ↔
      (l.insert s).text.length < maxlen - 1 := by omega
  unfold readlineKey Line.key
  dsimp only
  by_cases fits : (l.insert s).text.length < maxlen - 1
  · rw [if_pos (same.mpr fits), if_pos fits]
    exact .map level (tracks.insertText small plain (by omega)) rfl
  · rw [if_neg (mt same.mp fits), if_neg fits]
    exact ⟨tracks, level⟩

/-! ### Alt+C -/

theorem length_pushHistory (history : List Bytes) (line : Bytes) :
    history.length ≤ (pushHistory history line).length ∧
      (histSize ≤ history.length → (pushHistory history line).length = history.length) := by
  unfold pushHistory
  split
  · rw [List.length_append]
    omega
  · rw [List.length_append, List.length_tail, List.length_singleton]
    have some_ : 0 < histSize := by decide
    omega

theorem length_configCreate (history : List Bytes) (n : Nat) (full : histSize ≤ history.length) :
    (configCreate history n).length = history.length := by
  induction n generalizing history with
  | zero => rfl
  | succ n ih =>
    have pushed := (length_pushHistory history (ascii "config create")).2 full
    rw [configCreate, ih _ (by omega), pushed]

theorem plain_configCreate {history : List Bytes} (entries : ∀ h ∈ history, Plain h) (n : Nat) :
    ∀ h ∈ configCreate history n, Plain h := by
  induction n generalizing history with
  | zero => exact entries
  | succ n ih =>
    have command : Plain (ascii "config create") := by decide
    refine ih fun h mem => ?_
    unfold pushHistory at mem
    split at mem
    · rcases List.mem_append.mp mem with old | new
      · exact entries h old
      · exact List.mem_singleton.mp new ▸ command
    · rcases List.mem_append.mp mem with old | new
      · exact entries h (List.mem_of_mem_tail old)
      · exact List.mem_singleton.mp new ▸ command

/-- **Alt+C** throws the line away, and the history grows if it can. -/
theorem altC (tracks : Tracks maxlen e l) (n : Nat) :
    Follows maxlen ⟨readlineKey maxlen sdk e (.altC n), l.key maxlen sdk (.altC n),
      apart || departs e (.altC n)⟩ := by
  have some_ : 0 < maxlen := Nat.zero_lt_of_lt tracks.fits
  have history : configCreate e.history (n + 1) = configCreate l.history (n + 1) := by rw [tracks.history]
  refine ⟨⟨holds_nil _ _, rfl, rfl, some_, List.forall_mem_nil _, history,
    plain_configCreate tracks.entries _, Nat.le_refl _, fun _ lt => absurd lt (Nat.lt_irrefl _), some_,
    List.forall_mem_nil _⟩, fun together => ?_⟩
  unfold departs at together
  rw [Bool.or_eq_false_iff, Bool.not_eq_false', Bool.and_eq_true, decide_eq_true_iff,
    decide_eq_true_iff] at together
  obtain ⟨-, bottom, full⟩ := together
  show e.histIdx = (configCreate l.history (n + 1)).length
  rw [← history, length_configCreate _ _ full, bottom]

end Tracks

/-! ### Lines -/

namespace Session

/-- `readline_v6` is called. -/
def start (buf saved : Memory) (history : List Bytes) : Session where
  code := some (.going {
    buf
    len := 0
    pos := 0
    histIdx := history.length
    saved := memput saved 0 [0]
    history })
  line := .editing ⟨[], [], history.length, [], history⟩
  apart := false

def press (maxlen : Nat) (sdk : List Bytes) (s : Session) (k : Key) : Option Session :=
  match s.code, s.line with
  | some (.going e), .editing l =>
    some ⟨readlineKey maxlen sdk e k, l.key maxlen sdk k, s.apart || departs e k⟩
  | _, _ => none

def Press (maxlen : Nat) (sdk : List Bytes) (s : Session) (k : Key) (t : Session) : Prop :=
  s.press maxlen sdk k = some t

def Kept (maxlen : Nat) (s : Session) (k : Key) : Prop :=
  match s.code with
  | some (.going e) => Shell.Kept maxlen s.apart e k
  | _ => True

def Proper (_ : Session) (k : Key) : Prop := k.Proper

def ProperKept (maxlen : Nat) (s : Session) (k : Key) : Prop := k.Proper ∧ s.Kept maxlen k

/-- No buffer is left, text and cursor are those of the line, and what was entered is in `out`. -/
def Behaves (maxlen : Nat) (s : Session) : Prop :=
  match s.code, s.line with
  | some (.going e), .editing l =>
    e.pos ≤ e.len ∧ e.len < rlMax ∧ (List.range e.len).map e.buf = l.text ∧ e.pos = l.before.length
  | some (.returned out), .entered text => out = text ∧ out.length ≤ maxlen - 1
  | _, _ => False

instance (maxlen : Nat) (apart : Bool) (e : Editor) : (k : Key) → Decidable (Shell.Kept maxlen apart e k)
  | .code _ => inferInstanceAs (Decidable (_ ∧ _))
  | .utf8 _ => isTrue trivial
  | .altC _ => isTrue trivial

instance (maxlen : Nat) (k : Key) : (s : Session) → Decidable (s.Kept maxlen k)
  | ⟨some (.going e), _, apart⟩ => inferInstanceAs (Decidable (Shell.Kept maxlen apart e k))
  | ⟨some (.returned _), _, _⟩ => isTrue trivial
  | ⟨none, _, _⟩ => isTrue trivial

instance (s : Session) (k : Key) : Decidable (Proper s k) := inferInstanceAs (Decidable k.Proper)

instance (maxlen : Nat) (s : Session) (k : Key) : Decidable (ProperKept maxlen s k) :=
  inferInstanceAs (Decidable (_ ∧ _))

instance (maxlen : Nat) : (s : Session) → Decidable (Behaves maxlen s)
  | ⟨some (.going _), .editing _, _⟩ => inferInstanceAs (Decidable (_ ∧ _))
  | ⟨some (.going _), .entered _, _⟩ => isFalse id
  | ⟨some (.returned _), .entered _, _⟩ => inferInstanceAs (Decidable (_ ∧ _))
  | ⟨some (.returned _), .editing _, _⟩ => isFalse id
  | ⟨none, _, _⟩ => isFalse id

variable {s t : Session} {k : Key} {keys : List Key} {history : List Bytes}

theorem follows_start (some_ : 1 ≤ maxlen) (entries : ∀ h ∈ history, Plain h) (buf saved : Memory) :
    Follows maxlen (start buf saved history) :=
  ⟨⟨holds_nil _ _, rfl, rfl, some_, List.forall_mem_nil _, rfl, entries, Nat.le_refl _,
    fun _ lt => absurd lt (Nat.lt_irrefl _), some_, List.forall_mem_nil _⟩, fun _ => rfl⟩

theorem follows_press (small : maxlen ≤ rlMax) (names : ∀ n ∈ builtins ++ sdk, Plain n)
    (follows : Follows maxlen s) (allowed : ProperKept maxlen s k) (pressed : Press maxlen sdk s k t) :
    Follows maxlen t := by
  obtain ⟨code, line, apart⟩ := s
  obtain ⟨proper, kept⟩ := allowed
  match code, line, follows with
  | some (.going e), .editing l, ⟨tracks, level⟩ =>
    obtain rfl := Option.some.inj pressed
    match k with
    | .code k =>
      show Follows maxlen ⟨_, _, apart || false⟩
      rw [Bool.or_false]
      exact tracks.code small names level kept
    | .utf8 bytes =>
      show Follows maxlen ⟨_, _, apart || false⟩
      rw [Bool.or_false]
      exact tracks.utf8 small proper level
    | .altC n => exact tracks.altC n
  | some (.returned out), .entered text, _ => cases pressed

theorem behaves_of_follows (small : maxlen ≤ rlMax) (follows : Follows maxlen s) : Behaves maxlen s := by
  obtain ⟨code, line, apart⟩ := s
  match code, line, follows with
  | some (.going e), .editing l, ⟨tracks, _⟩ =>
    have whole := Tracks.length_text l
    have pos := tracks.pos
    have len := tracks.len
    have fits := tracks.fits
    have text : (List.range l.text.length).map (fun i => e.buf (0 + i)) = l.text := tracks.text.map_range
    refine ⟨by omega, by omega, ?_, pos⟩
    rw [len]
    simp only [Nat.zero_add] at text
    exact text
  | some (.returned out), .entered text, ⟨same, fits⟩ => exact ⟨same, Nat.le_sub_one_of_lt fits⟩

end Session

open Session

/-- **Every key of every line**: as long as the arrows go through a history that `hist_idx` still
belongs to, leave a line that is terminated, and recall what fits, `readline_v6` is a line editor. -/
theorem run_behaves (some_ : 1 ≤ maxlen) (small : maxlen ≤ rlMax) {history : List Bytes}
    (entries : ∀ h ∈ history, Plain h) (names : ∀ n ∈ sdk, Plain n) (buf saved : Memory)
    {keys : List Key} {s : Session}
    (run : Run (Press maxlen sdk) (ProperKept maxlen) (start buf saved history) keys s) :
    Behaves maxlen s := by
  have fixed : ∀ n ∈ builtins, Plain n := by decide +kernel
  have all : ∀ n ∈ builtins ++ sdk, Plain n := List.forall_mem_append.mpr ⟨fixed, names⟩
  have follows : Follows maxlen s := run.invariant (follows_start some_ entries buf saved)
    fun follows allowed pressed => follows_press small all follows allowed pressed
  exact behaves_of_follows small follows

/-- `ech` is completed, a line of the history looked at, and the typed one entered. -/
theorem run_behaves_echo :
    ∃ s, Run (Press 512 []) (ProperKept 512) (start (fun _ => 7) (fun _ => 7) [ascii "ls"])
      [.code 101, .code 99, .code 104, .code 9, .code keyUp, .code keyLeft, .code keyDown,
        .utf8 [195, 169], .code 10] s ∧ Behaves 512 s := by
  have done : (runAll (Session.press 512 []) (ProperKept 512)
      (start (fun _ => 7) (fun _ => 7) [ascii "ls"])
      [.code 101, .code 99, .code 104, .code 9, .code keyUp, .code keyLeft, .code keyDown,
        .utf8 [195, 169], .code 10]).isSome = true := by
    decide +kernel
  obtain ⟨s, ran⟩ := Option.isSome_iff_exists.mp done
  have run : Run (Press 512 []) (ProperKept 512) _ _ s := .of_runAll ran
  exact ⟨s, run, run_behaves (by decide) (by decide) (by decide) (by decide) _ _ run⟩

/-- A line of the history is recalled where `PANIC` is asked for: 18 characters are in `out`,
and there is room for 16. -/
theorem recall_overflows :
    ∃ s, Run (Press 16 []) Proper (start (fun _ => 0) (fun _ => 0) [ascii "cat /etc/installed"])
      [.code keyUp, .code 10] s ∧ ¬Behaves 16 s := by
  have done : ((runAll (Session.press 16 []) Proper
      (start (fun _ => 0) (fun _ => 0) [ascii "cat /etc/installed"])
      [.code keyUp, .code 10]).filter fun s => ¬Behaves 16 s).isSome = true := by
    decide +kernel
  obtain ⟨s, found⟩ := Option.isSome_iff_exists.mp done
  obtain ⟨ran, holds⟩ := Option.filter_eq_some_iff.mp found
  have run : Run (Press 16 []) Proper _ _ s := .of_runAll ran
  exact ⟨s, run, of_decide_eq_true holds⟩

end AtmKoala.Shell
