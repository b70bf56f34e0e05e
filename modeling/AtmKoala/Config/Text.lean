import Mathlib.Data.List.ModifyLast
import AtmKoala.Config.Model

/-!
What the parser makes of the text of a configuration file.

* `cfgText_eq`: a file that fits the buffer is written section by section.
* `cfgParse_text`: the sections are read back, each value without the blanks behind it. A
  section called `global` has no header, and its keys go to the section in front of it.
-/

namespace AtmKoala.Config

open Lib Package

variable {key val name p q out rest : Bytes} {cfg acc : CfgFile} {sec : Section} {fuel : Nat}

/-! ### Writing -/

def pairsText (kvs : List Pair) : Bytes := kvs.flatMap pairText

def headerText (name : Bytes) : Bytes :=
  if name ≠ globalName then 91 :: name ++ [93, newline] else []

def sectionText (sec : Section) : Bytes := headerText sec.name ++ pairsText sec.entries ++ [newline]

theorem serializePairs_fits {bufsz : Nat} {kvs : List Pair}
    (fits : out.length + (pairsText kvs).length + 1 < bufsz) :
    serializePairs bufsz kvs out = out ++ pairsText kvs := by
  induction kvs generalizing out with
  | nil => exact (List.append_nil _).symm
  | cons kv kvs ih =>
    have split : pairsText (kv :: kvs) = pairText kv ++ pairsText kvs := rfl
    have length : (pairText kv).length = kv.key.length + kv.val.length + 2 := by
      rw [pairText]
      simp only [List.length_append, List.length_singleton]
      omega
    rw [split, List.length_append, length] at fits
    rw [serializePairs, if_neg (by omega), ih (by rw [List.length_append, length]; omega), split,
      List.append_assoc]

theorem serializeSections_fits {bufsz : Nat}
    (fits : out.length + (cfg.flatMap sectionText).length < bufsz) :
    serializeSections bufsz cfg out = out ++ cfg.flatMap sectionText := by
  induction cfg generalizing out with
  | nil => exact (List.append_nil _).symm
  | cons sec cfg ih =>
    rw [List.flatMap_cons, List.length_append, sectionText, List.length_append,
      List.length_append, List.length_singleton] at fits
    rw [List.flatMap_cons, sectionText]
    by_cases named : sec.name ≠ globalName
    · have length : (headerText sec.name).length = sec.name.length + 3 := by
        rw [headerText, if_pos named]
        simp only [List.length_append, List.length_cons, List.length_nil]
      have header : out ++ [91] ++ sec.name ++ [93, newline] = out ++ headerText sec.name := by
        rw [headerText, if_pos named]
        simp only [List.append_assoc, List.cons_append, List.nil_append]
      rw [serializeSections, if_pos named, if_neg (by omega)]
      dsimp only
      rw [header, serializePairs_fits (by rw [List.length_append]; omega), ih (by
        simp only [List.length_append, List.length_singleton]
        omega)]
      simp only [List.append_assoc]
    · have none_ : headerText sec.name = [] := if_neg named
      rw [serializeSections, if_neg named, none_, serializePairs_fits (by omega), ih (by
        simp only [List.length_append, List.length_singleton]
        omega)]
      simp only [List.append_assoc, List.nil_append]

/-- **A file that fits** is written section by section. -/
theorem cfgText_eq (fits : (cfg.flatMap sectionText).length + 1 < cfgBuffer) :
    cfgText cfg = cfg.flatMap sectionText :=
  (serializeSections_fits (by rw [List.length_nil]; omega)).trans (List.nil_append _)

/-! ### Reading -/

/-- With enough fuel the parser comes from `p` to `q`. -/
def Reads (p : Bytes) (cfg : CfgFile) (q : Bytes) (cfg' : CfgFile) : Prop :=
  q.length ≤ p.length ∧
    ∀ fuel, p.length ≤ fuel → ∃ fuel', q.length ≤ fuel' ∧ cfgLines fuel p cfg = cfgLines fuel' q cfg'

theorem Reads.refl (p : Bytes) (cfg : CfgFile) : Reads p cfg p cfg :=
  ⟨Nat.le_refl _, fun fuel enough => ⟨fuel, enough, rfl⟩⟩

theorem Reads.trans {r : Bytes} {cfg' cfg'' : CfgFile} (first : Reads p cfg q cfg')
    (second : Reads q cfg' r cfg'') : Reads p cfg r cfg'' := by
  refine ⟨second.1.trans first.1, fun fuel enough => ?_⟩
  obtain ⟨fuel', enough', same⟩ := first.2 fuel enough
  obtain ⟨fuel'', enough'', same'⟩ := second.2 fuel' enough'
  exact ⟨fuel'', enough'', same.trans same'⟩

theorem Reads.step {c : UInt8} {cfg' : CfgFile} (round : cfgStep (c :: p) cfg = (q, cfg'))
    (less : q.length ≤ p.length) : Reads (c :: p) cfg q cfg' := by
  refine ⟨less.trans (Nat.le_succ _), fun fuel enough => ?_⟩
  cases fuel with
  | zero => cases enough
  | succ fuel =>
    refine ⟨fuel, less.trans (Nat.le_of_succ_le_succ enough), ?_⟩
    rw [cfgLines, round]

theorem cfgLines_nil (fuel : Nat) (cfg : CfgFile) : cfgLines fuel [] cfg = cfg := by
  cases fuel <;> rfl

/-- A line of its own. -/
theorem reads_newline (rest : Bytes) (cfg : CfgFile) : Reads (newline :: rest) cfg rest cfg := by
  have round : cfgStep (newline :: rest) cfg = (rest, cfg) := by
    rw [cfgStep, List.dropWhile_cons_of_neg (by decide)]
    exact if_pos (by decide)
  exact .step round (Nat.le_refl _)

theorem restOfLine_front (plain : ∀ b ∈ p, b ≠ newline) (rest : Bytes) :
    restOfLine (p ++ newline :: rest) = newline :: rest := by
  have all : ∀ b ∈ p, decide (b ≠ newline) = true := fun b mem => decide_eq_true (plain b mem)
  rw [restOfLine, List.dropWhile_append_of_pos all, List.dropWhile_cons_of_neg (by decide)]

/-- What a name of a section must be to be read back. -/
structure PlainName (name : Bytes) : Prop where
  short : name.length < cfgKeyLen
  plain : ∀ b ∈ name, b ≠ 0 ∧ b ≠ 93 ∧ b ≠ newline

/-- **A header** starts a section. -/
theorem reads_header (named : name ≠ globalName) (plain : PlainName name)
    (room : cfg.length < cfgMaxSections) (rest : Bytes) :
    Reads (headerText name ++ rest) cfg (newline :: rest) (cfg ++ [⟨name, []⟩]) := by
  have text : headerText name ++ rest = 91 :: (name ++ 93 :: newline :: rest) := by
    rw [headerText, if_pos named]
    simp only [List.append_assoc, List.cons_append, List.nil_append]
  have left : restOfLine (name ++ 93 :: newline :: rest) = newline :: rest := by
    have split : name ++ 93 :: newline :: rest = (name ++ [93]) ++ newline :: rest := by
      simp only [List.append_assoc, List.cons_append, List.nil_append]
    rw [split]
    refine restOfLine_front (fun b mem => ?_) rest
    rcases List.mem_append.mp mem with inName | last
    · exact (plain.plain b inName).2.2
    · cases List.mem_singleton.mp last
      decide
  have read : headerName (name ++ 93 :: newline :: rest) = name := by
    have all : ∀ c ∈ name, (decide (c ≠ 93) && decide (c ≠ newline)) = true := fun c mem => by
      simp [(plain.plain c mem).2.1, (plain.plain c mem).2.2]
    have short := plain.short
    unfold cfgKeyLen at short
    rw [headerName, List.takeWhile_append_of_pos all, List.takeWhile_cons_of_neg (by decide),
      List.append_nil, List.take_of_length_le (by unfold cfgKeyLen; omega)]
  have round : cfgStep (91 :: (name ++ 93 :: newline :: rest)) cfg =
      (newline :: rest, cfg ++ [⟨name, []⟩]) := by
    rw [cfgStep, List.dropWhile_cons_of_neg (by decide)]
    dsimp only
    rw [if_neg (by decide), if_neg (by decide), if_pos rfl, if_neg (by omega), left, read]
  rw [text]
  refine .step round ?_
  simp only [List.length_append, List.length_cons]
  omega

/-- What is read back as a key. -/
structure ReadableKey (key : Bytes) : Prop where
  short : key.length < cfgKeyLen
  first : ∃ c k, key = c :: k ∧ c ≠ 35 ∧ c ≠ 59 ∧ c ≠ 91 ∧ isBreak c = false
  plain : ∀ b ∈ key, b ≠ 0 ∧ isBlank b = false ∧ b ≠ newline ∧ b ≠ equalsByte

/-- What a key must be to be read back, on a line without other line breaks. -/
structure PlainKey (key : Bytes) : Prop where
  short : key.length < cfgKeyLen
  first : ∃ c k, key = c :: k ∧ c ≠ 35 ∧ c ≠ 59 ∧ c ≠ 91
  plain : ∀ b ∈ key, b ≠ 0 ∧ isBlank b = false ∧ isBreak b = false ∧ b ≠ equalsByte

theorem ne_newline {b : UInt8} (noBreak : isBreak b = false) : b ≠ newline := by
  rintro rfl
  exact absurd noBreak (by decide)

theorem PlainKey.readable (plain : PlainKey key) : ReadableKey key := by
  obtain ⟨c, k, rfl, hash, semicolon, bracket⟩ := plain.first
  refine ⟨plain.short, ⟨c, k, rfl, hash, semicolon, bracket, ?_⟩, fun b mem => ?_⟩
  · exact (plain.plain c List.mem_cons_self).2.2.1
  · obtain ⟨live, blank, noBreak, other⟩ := plain.plain b mem
    exact ⟨live, blank, ne_newline noBreak, other⟩

/-- What a value must be to be read back, but for the blanks behind it. -/
structure PlainValue (val : Bytes) : Prop where
  short : val.length < cfgValLen
  plain : ∀ b ∈ val, b ≠ 0 ∧ isBreak b = false
  front : ∀ b ∈ val.head?, isBlank b = false

theorem scanKey_front (front : Bytes) (short : front.length + key.length < cfgKeyLen)
    (plain : ∀ b ∈ key, isBlank b = false ∧ b ≠ newline ∧ b ≠ equalsByte) (rest : Bytes) :
    scanKey front (key ++ equalsByte :: rest) = (front ++ key, equalsByte :: rest) := by
  induction key generalizing front with
  | nil => rw [List.nil_append, scanKey, if_pos (.inl rfl), List.append_nil]
  | cons c key ih =>
    obtain ⟨blank, inner, other⟩ := plain c List.mem_cons_self
    rw [List.length_cons] at short
    rw [List.cons_append, scanKey, if_neg (by
      rintro (same | same | long)
      · exact other same
      · exact inner same
      · unfold cfgKeyLen at short long
        omega), blank, if_pos (by decide), ih _ (by
      rw [List.length_append, List.length_singleton]
      omega) fun b mem => plain b (List.mem_cons_of_mem _ mem)]
    simp only [List.append_assoc, List.cons_append, List.nil_append]

/-- The blanks behind a value are lost. -/
def trimmed (val : Bytes) : Bytes := val.rdropWhile isBlank

theorem scanValue_front (plain : PlainValue val) (rest : Bytes) :
    scanValue (val ++ newline :: rest) = trimmed val := by
  have blanks : (val ++ newline :: rest).dropWhile isBlank = val ++ newline :: rest := by
    cases val with
    | nil => exact List.dropWhile_cons_of_neg (by decide)
    | cons b val =>
      rw [List.cons_append, List.dropWhile_cons_of_neg]
      simp [plain.front b rfl]
  have all : ∀ b ∈ val, (!isBreak b) = true := fun b mem => by rw [(plain.plain b mem).2]; rfl
  have short := plain.short
  unfold cfgValLen at short
  rw [scanValue, blanks, List.takeWhile_append_of_pos all, List.takeWhile_cons_of_neg (by decide),
    List.append_nil, List.take_of_length_le (by unfold cfgValLen; omega), trimmed]

/-- What is read back of keys and values. -/
def readBack (kvs : List Pair) : List Pair := kvs.map fun kv => ⟨kv.key, trimmed kv.val⟩

/-- The keys of a section, up to the most it can have. -/
def addPairs (kvs : List Pair) (sec : Section) : Section :=
  { sec with entries := (sec.entries ++ readBack kvs).take cfgMaxKeys }

structure PlainPair (kv : Pair) : Prop where
  key : PlainKey kv.key
  val : PlainValue kv.val

/-- What is read back as a line. -/
structure ReadablePair (kv : Pair) : Prop where
  key : ReadableKey kv.key
  val : PlainValue kv.val

theorem PlainPair.readable {kv : Pair} (plain : PlainPair kv) : ReadablePair kv :=
  ⟨plain.key.readable, plain.val⟩

theorem addPairs_append (kvs kvs' : List Pair) (sec : Section) :
    addPairs (kvs ++ kvs') sec = addPairs kvs' (addPairs kvs sec) := by
  have cut : ∀ (n : Nat) (front back : List Pair), (front.take n ++ back).take n =
      (front ++ back).take n := by
    intro n front back
    rw [List.take_append, List.take_append, List.take_take, Nat.min_self, List.length_take]
    congr 2
    omega
  have shape : readBack (kvs ++ kvs') = readBack kvs ++ readBack kvs' := List.map_append
  simp only [addPairs, shape, cut, List.append_assoc]

theorem addPairs_cons (kv : Pair) (kvs : List Pair) (sec : Section) :
    addPairs (kv :: kvs) sec = addPairs kvs (addPairs [kv] sec) :=
  addPairs_append [kv] kvs sec

theorem addPairs_nil {sec : Section} (few : sec.entries.length ≤ cfgMaxKeys) :
    addPairs [] sec = sec := by
  rw [addPairs, readBack, List.map_nil, List.append_nil, List.take_of_length_le few]

theorem length_addPairs (kvs : List Pair) (sec : Section) :
    (addPairs kvs sec).entries.length ≤ cfgMaxKeys := List.length_take_le _ _

theorem addPair_pairText {kv : Pair} (plain : ReadablePair kv) (rest : Bytes)
    (few : sec.entries.length ≤ cfgMaxKeys) :
    addPair (pairText kv ++ rest) sec = addPairs [kv] sec := by
  obtain ⟨c, k, key, -⟩ := plain.key.first
  have text : pairText kv ++ rest = kv.key ++ equalsByte :: (kv.val ++ newline :: rest) := by
    rw [pairText]
    simp only [List.append_assoc, List.cons_append, List.nil_append]
  have scan := scanKey_front [] (by simpa using plain.key.short)
    (fun b mem => (plain.key.plain b mem).2) (kv.val ++ newline :: rest)
  rw [List.nil_append, ← text] at scan
  have some_ : kv.key ≠ [] := key ▸ List.cons_ne_nil _ _
  by_cases room : sec.entries.length < cfgMaxKeys
  · have kept : (sec.entries ++ readBack [kv]).take cfgMaxKeys = sec.entries ++ readBack [kv] := by
      refine List.take_of_length_le ?_
      rw [List.length_append]
      exact room
    rw [addPair, if_pos room, scan]
    dsimp only
    rw [if_pos ⟨rfl, some_⟩, scanValue_front plain.val, addPairs, kept]
    rfl
  · have full : sec.entries.length = cfgMaxKeys := by omega
    have kept : (sec.entries ++ readBack [kv]).take cfgMaxKeys = sec.entries :=
      List.take_left' full
    rw [addPair, if_neg room, addPairs, kept]

/-- A line is given to the last section, to a section called `global` if there is none. -/
theorem reads_line {kv : Pair} (plain : ReadablePair kv) (cfg : CfgFile) (rest : Bytes) :
    Reads (pairText kv ++ rest) cfg rest
      ((if cfg = [] then [⟨globalName, []⟩] else cfg).modifyLast (addPair (pairText kv ++ rest))) := by
  obtain ⟨c, k, key, hash, semicolon, bracket, noBreak⟩ := plain.key.first
  have inKey : c ∈ kv.key := key ▸ List.mem_cons_self
  obtain ⟨-, blank, -, -⟩ := plain.key.plain c inKey
  obtain ⟨tail, text⟩ : ∃ tail, pairText kv ++ rest = c :: tail := by
    rw [pairText, key]
    exact ⟨_, rfl⟩
  have left : restOfLine (pairText kv ++ rest) = newline :: rest := by
    have split : pairText kv ++ rest = (kv.key ++ equalsByte :: kv.val) ++ newline :: rest := by
      rw [pairText]
      simp only [List.append_assoc, List.cons_append, List.nil_append]
    rw [split]
    refine restOfLine_front (fun b mem same => ?_) rest
    subst same
    rcases List.mem_append.mp mem with inKey | inRest
    · exact (plain.key.plain _ inKey).2.2.1 rfl
    · rcases List.mem_cons.mp inRest with same | inVal
      · exact absurd same (by decide)
      · exact absurd (plain.val.plain _ inVal).2 (by decide)
  rw [text] at left ⊢
  have round : cfgStep (c :: tail) cfg = (newline :: rest,
      (if cfg = [] then [⟨globalName, []⟩] else cfg).modifyLast (addPair (c :: tail))) := by
    rw [cfgStep, List.dropWhile_cons_of_neg (by rw [blank]; decide)]
    dsimp only
    rw [noBreak, if_neg (by decide), if_neg (by rintro (same | same) <;> contradiction),
      if_neg bracket, left]
  refine (Reads.step round ?_).trans (reads_newline rest _)
  have length := congrArg List.length text
  rw [pairText, key] at length
  simp only [List.length_append, List.length_cons, List.length_nil] at length ⊢
  omega

/-- **A line** gives its key and its value to the last section. -/
theorem reads_pair {kv : Pair} (plain : ReadablePair kv) (few : sec.entries.length ≤ cfgMaxKeys)
    (acc : CfgFile) (rest : Bytes) :
    Reads (pairText kv ++ rest) (acc ++ [sec]) rest (acc ++ [addPairs [kv] sec]) := by
  have some_ : acc ++ [sec] ≠ [] := List.append_ne_nil_of_right_ne_nil _ (List.cons_ne_nil _ _)
  have line := reads_line plain (acc ++ [sec]) rest
  rwa [if_neg some_, List.modifyLast_concat, addPair_pairText plain rest few] at line

/-- Without a section, the first line starts one called `global`. -/
theorem reads_first {kv : Pair} (plain : ReadablePair kv) (rest : Bytes) :
    Reads (pairText kv ++ rest) [] rest [addPairs [kv] ⟨globalName, []⟩] := by
  have line := reads_line plain [] rest
  rwa [if_pos rfl, ← List.nil_append [(⟨globalName, []⟩ : Section)], List.modifyLast_concat,
    addPair_pairText plain rest (Nat.zero_le _)] at line

theorem reads_pairs {kvs : List Pair} (plain : ∀ kv ∈ kvs, ReadablePair kv)
    (few : sec.entries.length ≤ cfgMaxKeys) (acc : CfgFile) (rest : Bytes) :
    Reads (pairsText kvs ++ rest) (acc ++ [sec]) rest (acc ++ [addPairs kvs sec]) := by
  induction kvs generalizing sec with
  | nil =>
    rw [addPairs_nil few]
    exact .refl _ _
  | cons kv kvs ih =>
    have split : pairsText (kv :: kvs) ++ rest = pairText kv ++ (pairsText kvs ++ rest) :=
      List.append_assoc ..
    rw [split, addPairs_cons]
    exact (reads_pair (plain kv List.mem_cons_self) few acc _).trans
      (ih (fun kv mem => plain kv (List.mem_cons_of_mem _ mem)) (length_addPairs _ _))

/-! ### Files -/

structure PlainSection (sec : Section) : Prop where
  name : PlainName sec.name
  pairs : ∀ kv ∈ sec.entries, PlainPair kv

/-- **What is read back** of a section, behind others. -/
def readSection (acc : CfgFile) (sec : Section) : CfgFile :=
  if sec.name ≠ globalName then acc ++ [addPairs sec.entries ⟨sec.name, []⟩]
  else acc.modifyLast (addPairs sec.entries)

theorem reads_section (plain : PlainSection sec) (named : acc = [] → sec.name ≠ globalName)
    (few : ∀ s ∈ acc, s.entries.length ≤ cfgMaxKeys) (room : acc.length < cfgMaxSections)
    (rest : Bytes) : Reads (sectionText sec ++ rest) acc rest (readSection acc sec) := by
  have split : sectionText sec ++ rest =
      headerText sec.name ++ (pairsText sec.entries ++ (newline :: rest)) := by
    rw [sectionText]
    simp only [List.append_assoc, List.cons_append, List.nil_append]
  have readable : ∀ kv ∈ sec.entries, ReadablePair kv := fun kv mem => (plain.pairs kv mem).readable
  rw [split, readSection]
  by_cases own : sec.name ≠ globalName
  · rw [if_pos own]
    exact (((reads_header own plain.name room _).trans (reads_newline _ _)).trans
      (reads_pairs readable (Nat.zero_le _) acc _)).trans (reads_newline _ _)
  · rw [if_neg own, headerText, if_neg own, List.nil_append]
    obtain ⟨front, last, rfl⟩ : ∃ front last, acc = front ++ [last] :=
      List.eq_nil_or_concat' acc |>.resolve_left fun none_ => own (named none_)
    rw [List.modifyLast_concat]
    exact (reads_pairs readable (few last (by simp)) front _).trans (reads_newline _ _)

theorem readSection_few (few : ∀ s ∈ acc, s.entries.length ≤ cfgMaxKeys) (sec : Section) :
    ∀ s ∈ readSection acc sec, s.entries.length ≤ cfgMaxKeys := by
  intro s mem
  unfold readSection at mem
  split at mem
  · rcases List.mem_append.mp mem with old | new
    · exact few s old
    · cases List.mem_singleton.mp new
      exact length_addPairs _ _
  · rcases List.eq_nil_or_concat' acc with rfl | ⟨front, last, rfl⟩
    · cases mem
    · rw [List.modifyLast_concat] at mem
      rcases List.mem_append.mp mem with old | new
      · exact few s (List.mem_append_left _ old)
      · cases List.mem_singleton.mp new
        exact length_addPairs _ _

theorem length_readSection (acc : CfgFile) (sec : Section) :
    acc.length ≤ (readSection acc sec).length ∧
      (readSection acc sec).length ≤ acc.length + 1 := by
  unfold readSection
  split
  · rw [List.length_append]
    exact ⟨Nat.le_add_right _ _, Nat.le_refl _⟩
  · rcases List.eq_nil_or_concat' acc with rfl | ⟨front, last, rfl⟩
    · exact ⟨Nat.zero_le _, Nat.zero_le _⟩
    · rw [List.modifyLast_concat, List.length_append, List.length_append, List.length_singleton,
        List.length_singleton]
      exact ⟨Nat.le_refl _, Nat.le_succ _⟩

theorem reads_sections (plain : ∀ s ∈ cfg, PlainSection s)
    (named : acc = [] → ∀ s ∈ cfg.head?, s.name ≠ globalName)
    (few : ∀ s ∈ acc, s.entries.length ≤ cfgMaxKeys) (room : acc.length + cfg.length ≤ cfgMaxSections) :
    Reads (cfg.flatMap sectionText) acc [] (cfg.foldl readSection acc) := by
  induction cfg generalizing acc with
  | nil => exact .refl _ _
  | cons sec cfg ih =>
    rw [List.length_cons] at room
    have lengths := length_readSection acc sec
    rw [List.flatMap_cons, List.foldl_cons]
    refine (reads_section (plain sec List.mem_cons_self) (fun none_ => named none_ sec rfl) few
      (by omega) _).trans
      (ih (fun s mem => plain s (List.mem_cons_of_mem _ mem)) (fun none_ => ?_)
        (readSection_few few sec) (by omega))
    exfalso
    unfold readSection at none_
    split at none_
    · exact List.append_ne_nil_of_right_ne_nil _ (List.cons_ne_nil _ _) none_
    · rename_i global_
      rcases List.eq_nil_or_concat' acc with rfl | ⟨front, last, rfl⟩
      · exact global_ (named rfl sec rfl)
      · rw [List.modifyLast_concat] at none_
        exact List.append_ne_nil_of_right_ne_nil _ (List.cons_ne_nil _ _) none_

theorem sectionText_live (named : PlainName sec.name) (readable : ∀ kv ∈ sec.entries, ReadablePair kv) :
    ∀ b ∈ sectionText sec, b ≠ 0 := by
  have ends : ∀ b ∈ ([93, newline] : Bytes), b ≠ 0 := by decide
  have pair : ∀ kv ∈ sec.entries, ∀ b ∈ pairText kv, b ≠ 0 := by
    intro kv inside b mem
    simp only [pairText, List.mem_append, List.mem_singleton] at mem
    rcases mem with ((inKey | rfl) | inVal) | rfl
    · exact ((readable kv inside).key.plain b inKey).1
    · decide
    · exact ((readable kv inside).val.plain b inVal).1
    · decide
  intro b mem
  simp only [sectionText, headerText, pairsText, List.mem_append, List.mem_flatMap,
    List.mem_singleton] at mem
  rcases mem with (inHeader | ⟨kv, inside, inPair⟩) | rfl
  · split at inHeader
    · rcases List.mem_append.mp inHeader with inFront | last
      · rcases List.mem_cons.mp inFront with rfl | inName
        · decide
        · exact (named.plain b inName).1
      · exact ends b last
    · cases inHeader
  · exact pair kv inside b inPair
  · decide

/-- **A file is read back** section by section. -/
theorem cfgParse_text (plain : ∀ s ∈ cfg, PlainSection s)
    (named : ∀ s ∈ cfg.head?, s.name ≠ globalName) (few : cfg.length ≤ cfgMaxSections)
    (fits : (cfg.flatMap sectionText).length + 1 < cfgBuffer) :
    cfgParse (cfgText cfg) = cfg.foldl readSection [] := by
  have live : (cfg.flatMap sectionText).takeWhile (· ≠ 0) = cfg.flatMap sectionText := by
    rw [List.takeWhile_eq_self_iff]
    intro b mem
    obtain ⟨s, inside, inText⟩ := List.mem_flatMap.mp mem
    exact decide_eq_true (sectionText_live (plain s inside).name
      (fun kv mem => ((plain s inside).pairs kv mem).readable) b inText)
  obtain ⟨-, reads⟩ := reads_sections plain (fun _ => named) (fun s mem => absurd mem List.not_mem_nil)
    (show ([] : CfgFile).length + cfg.length ≤ cfgMaxSections by
      rw [List.length_nil, Nat.zero_add]
      exact few)
  obtain ⟨fuel, -, same⟩ := reads _ (Nat.le_refl _)
  rw [cfgText_eq fits, cfgParse, live, same, cfgLines_nil]

/-! ### What any text is read as -/

theorem mem_restOfLine {p : Bytes} : ∀ b ∈ restOfLine p, b ∈ p :=
  fun _ mem => (List.dropWhile_sublist _).mem mem

theorem scanKey_rest (key p : Bytes) : ∀ b ∈ (scanKey key p).2, b ∈ p := by
  induction p generalizing key with
  | nil => exact fun b mem => mem
  | cons c p ih =>
    rw [scanKey]
    split
    · exact fun b mem => mem
    · split
      · exact fun b mem => List.mem_cons_of_mem _ (ih _ b mem)
      · split
        · exact fun b mem => List.mem_cons_of_mem _ mem
        · exact fun b mem => List.mem_cons_of_mem _ (ih _ b mem)

/-- A value that is read is read again. -/
theorem plainValue_scanValue (live : ∀ b ∈ p, b ≠ 0) : PlainValue (scanValue p) := by
  have part : (scanValue p) <+: (((p.dropWhile isBlank).takeWhile fun b => !isBreak b).take 127) :=
    List.rdropWhile_prefix _ _
  have taken : (((p.dropWhile isBlank).takeWhile fun b => !isBreak b).take 127) <+:
      p.dropWhile isBlank :=
    (List.take_prefix _ _).trans (List.takeWhile_prefix _)
  refine ⟨Nat.lt_succ_of_le (part.length_le.trans (List.length_take_le _ _)), fun b mem => ⟨?_, ?_⟩,
    fun b first => ?_⟩
  · exact live b ((List.dropWhile_sublist _).mem ((part.trans taken).mem mem))
  · have kept := List.mem_takeWhile_imp (List.mem_of_mem_take (part.mem mem))
    simpa using kept
  · have inside : b ∈ (p.dropWhile isBlank).head? := by
      have prefix_ := part.trans taken
      cases all : scanValue p with
      | nil =>
        rw [all] at first
        cases first
      | cons c rest =>
        rw [all] at first prefix_
        cases first
        obtain ⟨tail, same⟩ := prefix_
        rw [← same]
        rfl
    have blank := List.head?_dropWhile_not isBlank p
    rw [Option.mem_def] at inside
    rw [inside] at blank
    simpa using blank

/-- A line of a key and a value is taken for nothing else. -/
def Begins (p : Bytes) : Prop :=
  ∀ c ∈ p.head?, isBlank c = false ∧ isBreak c = false ∧ c ≠ 35 ∧ c ≠ 59 ∧ c ≠ 91

/-- One round of the parser keeps what headers and lines keep. -/
theorem cfgStep_sections {P : Section → Prop} (live : ∀ b ∈ p, b ≠ 0) (start : P ⟨globalName, []⟩)
    (header : ∀ q, (∀ b ∈ q, b ≠ 0) → P ⟨headerName q, []⟩)
    (line : ∀ q sec, (∀ b ∈ q, b ≠ 0) → Begins q → P sec → P (addPair q sec))
    (all : ∀ sec ∈ cfg, P sec) :
    (∀ b ∈ (cfgStep p cfg).1, b ≠ 0) ∧ ∀ sec ∈ (cfgStep p cfg).2, P sec := by
  have lines : ∀ q : Bytes, (∀ b ∈ q, b ≠ 0) → Begins q → (∀ b ∈ restOfLine q, b ≠ 0) ∧
      ∀ sec ∈ (if cfg = [] then [⟨globalName, []⟩] else cfg).modifyLast (addPair q), P sec := by
    intro q liveQ begins
    refine ⟨fun b mem => liveQ b (mem_restOfLine b mem), fun sec mem => ?_⟩
    have some_ : ∀ sec ∈ if cfg = [] then [⟨globalName, []⟩] else cfg, P sec := by
      split
      · intro sec mem
        cases List.mem_singleton.mp mem
        exact start
      · exact all
    generalize (if cfg = [] then [⟨globalName, []⟩] else cfg) = secs at *
    rcases List.eq_nil_or_concat' secs with rfl | ⟨front, last, rfl⟩
    · cases mem
    · rw [List.modifyLast_concat] at mem
      rcases List.mem_append.mp mem with old | new
      · exact some_ sec (List.mem_append_left _ old)
      · cases List.mem_singleton.mp new
        exact line q last liveQ begins (some_ last (by simp))
  have rest : ∀ b ∈ p.dropWhile isBlank, b ≠ 0 :=
    fun b mem => live b ((List.dropWhile_sublist _).mem mem)
  have notBlank := List.head?_dropWhile_not isBlank p
  unfold cfgStep
  dsimp only
  split
  · exact lines [] (fun b mem => nomatch mem) fun c mem => nomatch mem
  · rename_i c q same
    rw [same] at rest notBlank
    have blank : isBlank c = false := by simpa using notBlank
    have tail := fun b mem => rest b (List.mem_cons_of_mem c mem)
    split
    · exact ⟨tail, all⟩
    · rename_i noBreak
      split
      · exact ⟨fun b mem => tail b (mem_restOfLine b mem), all⟩
      · rename_i comment
        obtain ⟨hash, semicolon⟩ := not_or.mp comment
        split
        · split
          · exact ⟨fun b mem => tail b (mem_restOfLine b mem), all⟩
          · refine ⟨fun b mem => tail b (mem_restOfLine b mem), fun sec mem => ?_⟩
            rcases List.mem_append.mp mem with old | new
            · exact all sec old
            · cases List.mem_singleton.mp new
              exact header q tail
        · rename_i bracket
          refine lines _ rest fun d first => ?_
          cases first
          exact ⟨blank, by simpa using noBreak, hash, semicolon, bracket⟩

theorem length_cfgStep (few : cfg.length ≤ cfgMaxSections) : (cfgStep p cfg).2.length ≤ cfgMaxSections := by
  have lines : ∀ q, ((if cfg = [] then [⟨globalName, []⟩] else cfg).modifyLast (addPair q)).length ≤
      cfgMaxSections := by
    intro q
    have some_ : (if cfg = [] then [⟨globalName, []⟩] else cfg).length ≤ cfgMaxSections := by
      split
      · decide
      · exact few
    generalize (if cfg = [] then [⟨globalName, []⟩] else cfg) = secs at some_
    rcases List.eq_nil_or_concat' secs with rfl | ⟨front, last, rfl⟩
    · exact some_
    · rw [List.modifyLast_concat]
      rwa [List.length_append] at some_ ⊢
  unfold cfgStep
  dsimp only
  split
  · exact lines []
  · split
    · exact few
    · split
      · exact few
      · split
        · split
          · exact few
          · rw [List.length_append, List.length_singleton]
            omega
        · exact lines _

/-- **Every file that is read.** -/
theorem cfgParse_sections {P : Section → Prop} (start : P ⟨globalName, []⟩)
    (header : ∀ q, (∀ b ∈ q, b ≠ 0) → P ⟨headerName q, []⟩)
    (line : ∀ q sec, (∀ b ∈ q, b ≠ 0) → Begins q → P sec → P (addPair q sec)) (buf : Bytes) :
    (∀ sec ∈ cfgParse buf, P sec) ∧ (cfgParse buf).length ≤ cfgMaxSections := by
  have lines : ∀ (fuel : Nat) (p : Bytes) (cfg : CfgFile), (∀ b ∈ p, b ≠ 0) → (∀ sec ∈ cfg, P sec) →
      cfg.length ≤ cfgMaxSections →
      (∀ sec ∈ cfgLines fuel p cfg, P sec) ∧ (cfgLines fuel p cfg).length ≤ cfgMaxSections := by
    intro fuel
    induction fuel with
    | zero =>
      intro p cfg _ all few
      cases p <;> exact ⟨all, few⟩
    | succ fuel ih =>
      intro p cfg live all few
      cases p with
      | nil => exact ⟨all, few⟩
      | cons c p =>
        obtain ⟨live', all'⟩ := cfgStep_sections live start header line all
        exact ih _ _ live' all' (length_cfgStep few)
  refine lines _ _ _ (fun b mem => ?_) (fun _ mem => nomatch mem) (Nat.zero_le _)
  have kept := List.mem_takeWhile_imp mem
  simpa using kept

end AtmKoala.Config
