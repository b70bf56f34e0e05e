import AtmKoala.Package.Entries

/-!
The control text and the manifest of a package.

* `copyLines_lines`: the value of a key is that of the first line that has it.
* `controlText_values` and `manifestText_found`: what `tzst_wrap_elf` writes is read back, but
  for the blanks in front of a version.
-/

namespace AtmKoala.Package

open Lib

variable {name rest : Bytes} {fuel : Nat}

/-! ### Texts -/

/-- A text of lines. -/
def joinLines (lines : List Bytes) : Bytes := lines.flatMap (· ++ [10])

/-- A line of a text: it is not empty and has no line break. -/
def IsLine (line : Bytes) : Prop := line ≠ [] ∧ ∀ b ∈ line, isBreak b = false

theorem length_joinLines (lines : List Bytes) : lines.length ≤ (joinLines lines).length := by
  induction lines with
  | nil => exact Nat.zero_le _
  | cons l lines ih =>
    show lines.length + 1 ≤ (l ++ [10] ++ joinLines lines).length
    rw [List.length_append, List.length_append, List.length_singleton]
    omega

theorem takeLine_line {line : Bytes} {b : UInt8} (plain : ∀ b ∈ line, isBreak b = false)
    (stop : isBreak b = true) (m : Nat) (rest : Bytes) :
    takeLine (line.length + (m + 1)) (line ++ b :: rest) = .ok (line, m + 1, b :: rest) := by
  induction line with
  | nil => rw [List.length_nil, Nat.zero_add, List.nil_append, takeLine, if_pos stop]
  | cons c line ih =>
    have inner : ¬isBreak c = true := by simp [plain c List.mem_cons_self]
    rw [List.length_cons, Nat.add_right_comm, List.cons_append, takeLine, if_neg inner,
      ih fun b mem => plain b (List.mem_cons_of_mem _ mem)]
    rfl

/-- Behind a line break comes the next line, or the end of the text. -/
theorem skipBreaks_lines {lines : List Bytes} (plain : ∀ l ∈ lines, IsLine l) (rest : Bytes) :
    skipBreaks ((joinLines lines).length + 1) (10 :: (joinLines lines ++ rest)) =
      .ok ((joinLines lines).length, joinLines lines ++ rest) := by
  rw [skipBreaks, if_pos (by decide)]
  cases lines with
  | nil => rfl
  | cons l lines =>
    obtain ⟨some_, noBreak⟩ := plain l List.mem_cons_self
    cases l with
    | nil => exact absurd rfl some_
    | cons b l =>
      have inner : ¬isBreak b = true := by simp [noBreak b List.mem_cons_self]
      show skipBreaks ((l ++ [10] ++ joinLines lines).length + 1)
        (b :: (l ++ [10] ++ joinLines lines ++ rest)) = _
      rw [skipBreaks, if_neg inner]
      rfl

/-- The line that `copy_line_value` looks for. -/
def hasKey (key text : Bytes) : Bool :=
  decide (key.length + 1 < text.length ∧ text.take key.length = key ∧
    text[key.length]? = some 58)

/-- **The value of a key** is that of the first line that has it. -/
theorem copyLines_lines {key : Bytes} {cap : Nat} {lines : List Bytes}
    (plain : ∀ l ∈ lines, IsLine l) (enough : lines.length ≤ fuel) (rest : Bytes) :
    copyLines key cap fuel (joinLines lines).length (joinLines lines ++ rest) =
      .ok (((lines.find? (hasKey key)).map fun l =>
        cut cap ((l.drop (key.length + 1)).dropWhile isBlank)).getD []) := by
  induction lines generalizing fuel with
  | nil =>
    cases fuel with
    | zero => rfl
    | succ fuel =>
      have none_ : (joinLines []).length = 0 := rfl
      rw [copyLines, if_pos none_]
      rfl
  | cons l lines ih =>
    cases fuel with
    | zero => cases enough
    | succ fuel =>
      have tail := fun l mem => plain l (List.mem_cons_of_mem _ mem)
      have text : joinLines (l :: lines) ++ rest = l ++ 10 :: (joinLines lines ++ rest) := by
        show l ++ [10] ++ joinLines lines ++ rest = _
        simp only [List.append_assoc, List.cons_append, List.nil_append]
      have length : (joinLines (l :: lines)).length = l.length + ((joinLines lines).length + 1) := by
        show (l ++ [10] ++ joinLines lines).length = _
        simp only [List.length_append, List.length_singleton]
        omega
      rw [copyLines, text, length, if_neg (by omega),
        ok_bind (takeLine_line (plain l List.mem_cons_self).2 (by decide) _ _)]
      dsimp only
      rw [ok_bind (skipBreaks_lines tail rest)]
      dsimp only
      by_cases found : hasKey key l = true
      · rw [if_pos (of_decide_eq_true found), List.find?_cons_of_pos found]
        rfl
      · rw [if_neg fun here => found (decide_eq_true here), List.find?_cons_of_neg found]
        exact ih tail (Nat.le_of_succ_le_succ enough)

/-- `key: value`. -/
def keyLine (key value : Bytes) : Bytes := key ++ 58 :: 32 :: value

theorem hasKey_keyLine (key : Bytes) {value : Bytes} : hasKey key (keyLine key value) = true := by
  refine decide_eq_true ⟨?_, List.take_left .., ?_⟩
  · rw [keyLine, List.length_append, List.length_cons, List.length_cons]
    omega
  · rw [keyLine, List.getElem?_append_right (Nat.le_refl _), Nat.sub_self]
    rfl

theorem not_hasKey {key line : Bytes} (named : key ≠ []) (first : line.head? ≠ key.head?) :
    ¬hasKey key line = true := by
  intro found
  obtain ⟨-, same, -⟩ := of_decide_eq_true found
  have long : ¬key.length = 0 := fun zero => named (List.length_eq_zero_iff.mp zero)
  have heads : (line.take key.length).head? = key.head? := by rw [same]
  rw [List.head?_take, if_neg long] at heads
  exact first heads

/-- A value that fits its field is read back, but for the blanks in front of it. -/
theorem keyLine_value (cap : Nat) (key : Bytes) {value : Bytes} (fits : value.length < cap)
    (live : 0 ∉ value) :
    cut cap (((keyLine key value).drop (key.length + 1)).dropWhile isBlank) =
      value.dropWhile isBlank := by
  have behind : (keyLine key value).drop (key.length + 1) = 32 :: value := by
    rw [keyLine, ← List.drop_drop, List.drop_left]
    rfl
  have part : (value.dropWhile isBlank).Sublist value := List.dropWhile_sublist _
  have short := part.length_le
  rw [behind, List.dropWhile_cons_of_pos (by decide), cut, List.take_of_length_le (by omega),
    List.takeWhile_eq_self_iff]
  intro b mem
  exact decide_eq_true fun zero => live (zero ▸ part.mem mem)

theorem keyLine_head {key : Bytes} (named : key ≠ []) (value : Bytes) :
    (keyLine key value).head? = key.head? := by
  cases key with
  | nil => exact absurd rfl named
  | cons b key => rfl

/-! ### The control text -/

def controlLines (name ver : Bytes) : List Bytes :=
  [keyLine (ascii "Package") name, keyLine (ascii "Version") ver,
    keyLine (ascii "Architecture") nativeArch,
    keyLine (ascii "Description") (ascii "Native ATMKoala application")]

theorem controlText_lines (name ver : Bytes) :
    controlText name ver = joinLines (controlLines name ver) := by
  have package : ascii "Package: " = ascii "Package" ++ [58, 32] := by decide
  have version : ascii "\nVersion: " = 10 :: (ascii "Version" ++ [58, 32]) := by decide
  have others : ascii "\nArchitecture: atmkoala-x86_64\nDescription: Native ATMKoala application\n" =
      10 :: (keyLine (ascii "Architecture") nativeArch ++ [10] ++
        (keyLine (ascii "Description") (ascii "Native ATMKoala application") ++ [10])) := by
    decide
  rw [controlText, package, version, others]
  simp only [controlLines, joinLines, keyLine, List.flatMap_cons, List.flatMap_nil,
    List.append_assoc, List.cons_append, List.nil_append, List.append_nil]

theorem keyLine_isLine {key value : Bytes} (keyPlain : ∀ b ∈ key, isBreak b = false)
    (plain : ∀ b ∈ value, isBreak b = false) : IsLine (keyLine key value) := by
  refine ⟨by simp [keyLine], fun b mem => ?_⟩
  rcases List.mem_append.mp mem with inKey | inRest
  · exact keyPlain b inKey
  · rcases List.mem_cons.mp inRest with rfl | inRest
    · decide
    · rcases List.mem_cons.mp inRest with rfl | inValue
      · decide
      · exact plain b inValue

theorem controlLines_plain {ver : Bytes} (namePlain : ∀ b ∈ name, isBreak b = false)
    (plain : ∀ b ∈ ver, isBreak b = false) : ∀ l ∈ controlLines name ver, IsLine l := by
  intro l mem
  simp only [controlLines, List.mem_cons, List.not_mem_nil, or_false] at mem
  rcases mem with rfl | rfl | rfl | rfl
  · exact keyLine_isLine (by decide) namePlain
  · exact keyLine_isLine (by decide) plain
  · exact keyLine_isLine (by decide) (by decide)
  · exact keyLine_isLine (by decide) (by decide)

/-- **The control text read back**: the blanks in front of a version are lost. -/
theorem controlText_values {ver : Bytes} (rest : Bytes) (namePlain : ∀ b ∈ name, isBreak b = false)
    (plain : ∀ b ∈ ver, isBreak b = false) (key : String) (cap : Nat) :
    copyLines (ascii key) cap (controlText name ver).length (controlText name ver).length
        (controlText name ver ++ rest) =
      .ok ((((controlLines name ver).find? (hasKey (ascii key))).map fun l =>
        cut cap ((l.drop ((ascii key).length + 1)).dropWhile isBlank)).getD []) := by
  rw [controlText_lines]
  exact copyLines_lines (controlLines_plain namePlain plain) (length_joinLines _) rest

theorem not_hasKey_keyLine {key other : Bytes} (named : key ≠ []) (named' : other ≠ [])
    (heads : other.head? ≠ key.head?) (value : Bytes) : ¬hasKey key (keyLine other value) = true :=
  not_hasKey named (keyLine_head named' value ▸ heads)

/-- The line of each key. -/
theorem controlLines_find (name ver : Bytes) :
    (controlLines name ver).find? (hasKey (ascii "Package")) =
        some (keyLine (ascii "Package") name) ∧
      (controlLines name ver).find? (hasKey (ascii "Version")) =
        some (keyLine (ascii "Version") ver) ∧
      (controlLines name ver).find? (hasKey (ascii "Architecture")) =
        some (keyLine (ascii "Architecture") nativeArch) := by
  unfold controlLines
  refine ⟨?_, ?_, ?_⟩
  · rw [List.find?_cons_of_pos (hasKey_keyLine _)]
  · rw [List.find?_cons_of_neg (not_hasKey_keyLine (by decide) (by decide) (by decide) _),
      List.find?_cons_of_pos (hasKey_keyLine _)]
  · rw [List.find?_cons_of_neg (not_hasKey_keyLine (by decide) (by decide) (by decide) _),
      List.find?_cons_of_neg (not_hasKey_keyLine (by decide) (by decide) (by decide) _),
      List.find?_cons_of_pos (hasKey_keyLine _)]

/-! ### The manifest -/

/-- A field of a line, up to the space behind it. -/
theorem field_split {field : Bytes} (plain : ∀ b ∈ field, b ≠ 32) (rest : Bytes) :
    (field ++ 32 :: rest).dropWhile (· ≠ 32) = 32 :: rest ∧
      (field ++ 32 :: rest).takeWhile (· ≠ 32) = field := by
  have all : ∀ b ∈ field, (decide (b ≠ 32)) = true := fun b mem => decide_eq_true (plain b mem)
  constructor
  · rw [List.dropWhile_append_of_pos all, List.dropWhile_cons_of_neg (by decide)]
  · rw [List.takeWhile_append_of_pos all, List.takeWhile_cons_of_neg (by decide), List.append_nil]

/-- No space has to be skipped in front of a field. -/
theorem dropWhile_spaces {field : Bytes} (plain : ∀ b ∈ field.head?, b ≠ 32) :
    field.dropWhile (· = 32) = field := by
  cases field with
  | nil => rfl
  | cons b field =>
    rw [List.dropWhile_cons_of_neg]
    simp [plain b rfl]

theorem head?_plain {field : Bytes} (plain : ∀ b ∈ field, b ≠ 32) (rest : Bytes) (some_ : field ≠ []) :
    ∀ b ∈ (field ++ rest).head?, b ≠ 32 := by
  cases field with
  | nil => exact absurd rfl some_
  | cons b field =>
    intro b' same
    cases same
    exact plain b List.mem_cons_self

/-- The three fields of a line. -/
theorem manifestLine_fields {a b c : Bytes} (plainA : ∀ x ∈ a, x ≠ 32) (plainB : ∀ x ∈ b, x ≠ 32)
    (someB : b ≠ []) (plainC : ∀ x ∈ c, x ≠ 32) (live : 0 ∉ a ++ 32 :: (b ++ 32 :: c)) :
    manifestLine (a ++ 32 :: (b ++ 32 :: c)) = some (a, b, c) := by
  have whole : (a ++ 32 :: (b ++ 32 :: c)).takeWhile (· ≠ 0) = a ++ 32 :: (b ++ 32 :: c) :=
    List.takeWhile_eq_self_iff.mpr fun x mem => decide_eq_true fun zero => live (zero ▸ mem)
  have frontC : ∀ x ∈ c.head?, x ≠ 32 := fun x same => plainC x (List.mem_of_mem_head? same)
  rw [manifestLine, whole]
  dsimp only
  rw [(field_split plainA _).1, if_neg (List.cons_ne_nil _ _), List.tail_cons,
    dropWhile_spaces (head?_plain plainB _ someB), (field_split plainB _).1,
    if_neg (List.cons_ne_nil _ _), List.tail_cons, dropWhile_spaces frontC, (field_split plainA _).2,
    (field_split plainB _).2]

theorem hexByte_plain {d : Nat} (small : d < 16) :
    hexByte d ≠ 0 ∧ hexByte d ≠ 32 ∧ isBreak (hexByte d) = false := by
  have all : ∀ d < 16, hexByte d ≠ 0 ∧ hexByte d ≠ 32 ∧ isBreak (hexByte d) = false := by decide
  exact all d small

theorem isDigit_plain {b : UInt8} (digit : isDigit b = true) :
    b ≠ 0 ∧ b ≠ 32 ∧ isBreak b = false := by
  refine ⟨?_, ?_, ?_⟩
  · rintro rfl
    exact absurd digit (by decide)
  · rintro rfl
    exact absurd digit (by decide)
  · rw [isBreak, Bool.or_eq_false_iff, decide_eq_false_iff_not, decide_eq_false_iff_not]
    constructor
    · rintro rfl
      exact absurd digit (by decide)
    · rintro rfl
      exact absurd digit (by decide)

/-- **The line of a manifest** gives the checksum and the size of the program. -/
theorem manifestText_found {elf path : Bytes} (small : elf.length < 2 ^ 30)
    (short : path.length ≤ 100) (plain : ∀ b ∈ path, b ≠ 0 ∧ b ≠ 32 ∧ isBreak b = false)
    (rest : Bytes) :
    manifestLines path (manifestText elf path).length (manifestText elf path).length
        (manifestText elf path ++ rest) = .ok (some ((crc32 elf).toNat, elf.length)) := by
  have plainHex : ∀ b ∈ hexText (crc32 elf).toNat, b ≠ 0 ∧ b ≠ 32 ∧ isBreak b = false := by
    intro b mem
    obtain ⟨i, -, rfl⟩ := List.mem_map.mp mem
    exact hexByte_plain (Nat.mod_lt _ (by decide))
  have plainSize : ∀ b ∈ kuitoa elf.length, b ≠ 0 ∧ b ≠ 32 ∧ isBreak b = false :=
    fun b mem => isDigit_plain (kuitoa_digits _ b mem)
  have lenHex : (hexText (crc32 elf).toNat).length = 8 := rfl
  have lenSize := length_kuitoa (show elf.length < 10 ^ 10 by omega)
  have someSize : kuitoa elf.length ≠ [] := by
    unfold kuitoa
    split
    · exact List.cons_ne_nil _ _
    · rename_i live
      intro none_
      rw [List.map_eq_nil_iff, List.reverse_eq_nil_iff, Nat.digits_eq_nil_iff_eq_zero] at none_
      exact live none_
  have space : (32 : UInt8) ≠ 0 ∧ isBreak 32 = false := by decide
  have members : ∀ b ∈ hexText (crc32 elf).toNat ++ 32 :: (kuitoa elf.length ++ 32 :: path),
      b ≠ 0 ∧ isBreak b = false := by
    intro b mem
    simp only [List.mem_append, List.mem_cons] at mem
    rcases mem with inHex | rfl | inSize | rfl | inPath
    · exact ⟨(plainHex b inHex).1, (plainHex b inHex).2.2⟩
    · exact space
    · exact ⟨(plainSize b inSize).1, (plainSize b inSize).2.2⟩
    · exact space
    · exact ⟨(plain b inPath).1, (plain b inPath).2.2⟩
  have line := manifestLine_fields (fun b mem => (plainHex b mem).2.1)
    (fun b mem => (plainSize b mem).2.1) someSize (fun b mem => (plain b mem).2.1)
    (fun mem => (members 0 mem).1 rfl)
  have text : manifestText elf path =
      (hexText (crc32 elf).toNat ++ 32 :: (kuitoa elf.length ++ 32 :: path)) ++ [10] := by
    simp only [manifestText, List.append_assoc, List.cons_append, List.nil_append]
  have short' : (hexText (crc32 elf).toNat ++ 32 :: (kuitoa elf.length ++ 32 :: path)).length <
      192 := by
    simp only [List.length_append, List.length_cons]
    omega
  generalize hexText (crc32 elf).toNat ++ 32 :: (kuitoa elf.length ++ 32 :: path) = l at *
  have some_ : l ≠ [] := by
    rintro rfl
    cases line
  rw [text, List.length_append, List.length_singleton, manifestLines, if_neg (by omega),
    List.append_assoc, List.singleton_append,
    ok_bind (takeLine_line (fun b mem => (members b mem).2) (by decide) 0 rest)]
  dsimp only
  rw [ok_bind (show skipBreaks (0 + 1) (10 :: rest) = .ok (0, rest) from rfl)]
  dsimp only
  rw [if_neg some_, if_neg (by omega), line]
  dsimp only
  rw [if_neg (not_not.mpr rfl), hexU32_hexText (UInt32.toNat_lt _), decU32_kuitoa (by omega)]
  rfl

end AtmKoala.Package
