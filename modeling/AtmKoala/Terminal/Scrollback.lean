import AtmKoala.Lib.Run
import AtmKoala.Terminal.Model

/-!
Scrolling back through what was printed.

* A `Session` is the terminal, the terminal that the same calls without the scroll calls make
  of the same screen (`live`), and the lines that were scrolled off that one (`above`).
* `redraw_screen`: `sb_redraw` shows lines that were scrolled off, never the live screen.
* `run_shows`: as long as those are the lines that should be there, the terminal shows the
  live screen at the bottom and the lines above it when it is scrolled.
-/

namespace AtmKoala.Terminal

open Lib

inductive Op where
  | putchar (c : UInt8)
  | write (s : List UInt8)
  | scrollUp (n : Nat)
  | scrollDown (n : Nat)
  | scrollToBottom

/-- The terminal, the one nobody scrolls, and the lines scrolled off that one. -/
structure Session where
  term : Terminal
  live : Terminal
  above : List Row

/-- The character scrolls a line off. -/
def Scrolls (t : Terminal) (c : UInt8) : Prop :=
  vgaHeight ≤ t.termRow + 1 ∧ (c = 10 ∨ 0x20 ≤ c ∧ vgaWidth ≤ t.termCol + 1)

instance (t : Terminal) (c : UInt8) : Decidable (Scrolls t c) := inferInstanceAs (Decidable (_ ∧ _))

namespace Session

def start (t : Terminal) : Session := ⟨t.terminalInit, t.terminalInit, []⟩

def type (s : Session) (c : UInt8) : Session :=
  ⟨s.term.terminalPutchar c, s.live.terminalPutchar c,
    s.above ++ if Scrolls s.live c then [s.live.line 0] else []⟩

/-- The lines that are kept. -/
def retained (s : Session) : List Row := s.above.drop (s.above.length - scrollbackLines)

end Session

def perform (s : Session) : Op → Option Session
  | .putchar c => some (s.type c)
  | .write str => some ((str.takeWhile (· ≠ 0)).foldl Session.type s)
  | .scrollUp n => some { s with term := s.term.terminalScrollUp n }
  | .scrollDown n => some { s with term := s.term.terminalScrollDown n }
  | .scrollToBottom => some { s with term := s.term.terminalScrollToBottom }

def Step (s : Session) (op : Op) (s' : Session) : Prop := perform s op = some s'

/-! ### What is expected -/

/-- The lines that end `k` lines above the last one. -/
def ending (l : List Row) (k : Nat) : List Row := (l.drop (l.length - vgaHeight - k)).take vgaHeight

/-- **What the terminal shows**: the live screen at the bottom, and the lines that end `k` lines
above its last one at offset `k`. -/
structure Shows (s : Session) : Prop where
  row : s.term.termRow < vgaHeight
  col : s.term.termCol < vgaWidth
  bottom : s.term.sbOff = 0 → s.term.screen = s.live.screen ∧ s.term.termRow = s.live.termRow ∧
    s.term.termCol = s.live.termCol ∧ s.term.crtcPos = s.live.crtcPos
  scrolled : ∀ k : Nat, 0 < k → s.term.sbOff = k →
    s.term.screen = ending (s.retained ++ s.live.screen) k
  offset : 0 ≤ s.term.sbOff

/-- The lines that end `k` lines above the last one scrolled off, blank where there are none, are
those that end `k` lines above the bottom of the live screen. -/
def Same (s : Session) (k : Nat) : Prop :=
  ending (List.replicate vgaHeight (List.replicate vgaWidth s.live.blank) ++ s.retained) k =
    ending (s.retained ++ s.live.screen) k

instance (s : Session) (k : Nat) : Decidable (Same s k) := inferInstanceAs (Decidable (_ = _))

/-- A character is not printed on a view that is drawn from other lines, and no more than
2^31 - 1 lines are scrolled off. -/
def KeptChar (s : Session) (c : UInt8) : Prop :=
  (0 < s.term.sbOff → Same s 0) ∧ (Scrolls s.live c → s.live.sbTop + 1 < 2 ^ 31)

instance (s : Session) (c : UInt8) : Decidable (KeptChar s c) := inferInstanceAs (Decidable (_ ∧ _))

def KeptText : List UInt8 → Session → Prop
  | [], _ => True
  | c :: l, s => KeptChar s c ∧ KeptText l (s.type c)

instance decidableKeptText : ∀ l s, Decidable (KeptText l s)
  | [], _ => isTrue trivial
  | c :: l, s =>
    have := decidableKeptText l (s.type c)
    inferInstanceAs (Decidable (_ ∧ _))

/-- **Redrawing does no harm**: wherever the screen is redrawn, the lines that are drawn are the
ones that should be there. -/
def Kept (s : Session) : Op → Prop
  | .putchar c => KeptChar s c
  | .write str => KeptText (str.takeWhile (· ≠ 0)) s
  | .scrollUp n => s.term.sbOff + n < 2 ^ 31 ∧ Same s (min (s.term.sbOff + n) s.term.most).toNat
  | .scrollDown n => Same s (s.term.sbOff - n).toNat
  | .scrollToBottom => 0 < s.term.sbOff → Same s 0

instance (s : Session) (op : Op) : Decidable (Kept s op) := by
  cases op <;> unfold Kept <;> infer_instance

/-- The numbers of lines are `int`. -/
def Proper (_ : Session) : Op → Prop
  | .scrollUp n => n < 2 ^ 31
  | .scrollDown n => n < 2 ^ 31
  | _ => True

instance (s : Session) (op : Op) : Decidable (Proper s op) := by
  cases op <;> unfold Proper <;> infer_instance

def ProperKept (s : Session) (op : Op) : Prop := Proper s op ∧ Kept s op

instance (s : Session) (op : Op) : Decidable (ProperKept s op) := inferInstanceAs (Decidable (_ ∧ _))

/-! ### Rows -/

variable {t t' : Terminal} {s s' : Session} {c : UInt8} {r k : Nat} {l : List Row}

@[simp] theorem length_line (t : Terminal) (r : Nat) : (t.line r).length = vgaWidth := by
  simp [Terminal.line]

@[simp] theorem length_screen (t : Terminal) : t.screen.length = vgaHeight := by
  simp [Terminal.screen]

/-- Where the lines come from. -/
theorem getElem?_ending (l : List Row) (k r : Nat) :
    (ending l k)[r]? = if r < vgaHeight then l[l.length - vgaHeight - k + r]? else none := by
  rw [ending, List.getElem?_take, List.getElem?_drop]

theorem getElem?_screen (t : Terminal) (r : Nat) :
    t.screen[r]? = if r < vgaHeight then some (t.line r) else none := by
  rw [Terminal.screen, List.getElem?_map]
  split
  · rename_i row
    rw [List.getElem?_range row]
    rfl
  · rename_i outside
    rw [List.getElem?_eq_none (by simpa using outside)]
    rfl

/-- The bottom is the screen. -/
theorem ending_screen (l : List Row) (t : Terminal) : ending (l ++ t.screen) 0 = t.screen := by
  rw [ending, List.length_append, length_screen, Nat.add_sub_cancel, Nat.sub_zero, List.drop_left,
    List.take_of_length_le (Nat.le_of_eq (length_screen t))]

/-- Two screens with the same rows have the same cells. -/
theorem vga_of_screen (same : t.screen = t'.screen) {i : Nat} (lt : i < vgaHeight * vgaWidth) :
    t.vga i = t'.vga i := by
  unfold vgaHeight vgaWidth at lt
  have row : i / 80 < vgaHeight := by
    unfold vgaHeight
    omega
  have lines := congrArg (·[i / 80]?) same
  simp only [getElem?_screen, if_pos row, Option.some.injEq] at lines
  have cells := congrArg (·[i % 80]?) lines
  have col : i % 80 < vgaWidth := Nat.mod_lt _ (by decide)
  have at_ : i / 80 * vgaWidth + i % 80 = i := by
    unfold vgaWidth
    omega
  simpa [Terminal.line, List.getElem?_map, List.getElem?_range col, at_] using cells

/-! ### Redrawing -/

/-- Rows that are as wide as the screen are what is seen of them. -/
theorem screen_rows (f : Nat → Row) (wide : ∀ r, r < vgaHeight → (f r).length = vgaWidth)
    (same : ∀ i, i < vgaHeight * vgaWidth → t.vga i = (f (i / vgaWidth)).getD (i % vgaWidth) 0) :
    t.screen = (List.range vgaHeight).map f := by
  refine List.map_congr_left fun r mem => ?_
  have row := List.mem_range.mp mem
  refine List.ext_getElem? fun c => ?_
  rw [Terminal.line, List.getElem?_map]
  by_cases col : c < vgaWidth
  · have inside : r * vgaWidth + c < vgaHeight * vgaWidth := by
      unfold vgaHeight vgaWidth at *
      omega
    have div : (r * vgaWidth + c) / vgaWidth = r := by
      unfold vgaWidth at *
      omega
    have mod : (r * vgaWidth + c) % vgaWidth = c := by
      unfold vgaWidth at *
      omega
    have there : c < (f r).length := (wide r row).symm ▸ col
    rw [List.getElem?_range col, Option.map_some, same _ inside, div, mod, List.getElem?_eq_getElem there,
      List.getD_eq_getElem _ _ there]
  · rw [List.getElem?_eq_none (by simpa using col), List.getElem?_eq_none (by rw [wide r row]; omega)]
    rfl

theorem wrap32_eq {n : Int} (low : -2 ^ 31 ≤ n) (high : n < 2 ^ 31) : wrap32 n = n := by
  unfold wrap32
  rw [Int.bmod_def]
  split <;> omega

/-- What holds of the terminal that nobody scrolls: the ring has the last lines scrolled off. -/
structure Printed (live : Terminal) (above : List Row) : Prop where
  off : live.sbOff = 0
  row : live.termRow < vgaHeight
  col : live.termCol < vgaWidth
  crtc : live.crtcPos = live.termRow * vgaWidth + live.termCol
  top : live.sbTop = above.length
  bound : above.length < 2 ^ 31
  count : live.sbCount = min above.length scrollbackLines
  ring : ∀ i, i < above.length → above.length ≤ i + scrollbackLines →
    above[i]? = some (live.scrollbuf ((i % scrollbackLines : Nat) : Int))
  wide : ∀ l ∈ above, l.length = vgaWidth

/-- The terminal that nobody scrolls, with other cells, offset and visibility of the cursor. -/
def scrolledTo (live : Terminal) (v : Nat → Nat) (off : Int) (hidden : Bool) : Terminal :=
  { live with vga := v, sbOff := off, crtcHidden := hidden }

variable {live : Terminal} {above : List Row} {v : Nat → Nat} {off : Int} {hidden : Bool}

/-- The lines that were scrolled off, behind a blank screen. -/
def padded (live : Terminal) (above : List Row) : List Row :=
  List.replicate vgaHeight (List.replicate vgaWidth live.blank) ++
    above.drop (above.length - scrollbackLines)

theorem slot_eq (n : Nat) : ((n : Int).tmod scrollbackLines + scrollbackLines).tmod scrollbackLines =
    ((n % scrollbackLines : Nat) : Int) := by
  have once : (n : Int).tmod scrollbackLines = ((n % scrollbackLines : Nat) : Int) := rfl
  have twice : (((n % scrollbackLines + scrollbackLines : Nat) : Int)).tmod scrollbackLines =
      (((n % scrollbackLines + scrollbackLines) % scrollbackLines : Nat) : Int) := rfl
  rw [once, ← Int.natCast_add, twice, Nat.add_mod_right, Nat.mod_mod]

/-- **What is drawn** into a row. -/
theorem redrawLine_eq (printed : Printed live above) (le : k ≤ live.sbCount) (lt : r < vgaHeight) :
    (padded live above)[(padded live above).length - vgaHeight - k + r]? =
      some ((scrolledTo live v k hidden).redrawLine r) := by
  have top := printed.top
  have bound := printed.bound
  have count := printed.count
  have length : (padded live above).length = vgaHeight + live.sbCount := by
    rw [padded, List.length_append, List.length_replicate, List.length_drop]
    omega
  have src : wrap32 (live.sbTop - vgaHeight - (k : Int) + r) = live.sbTop - vgaHeight - k + r := by
    unfold vgaHeight scrollbackLines at *
    exact wrap32_eq (by omega) (by omega)
  rw [length, Nat.add_sub_cancel_left]
  unfold Terminal.redrawLine scrolledTo
  dsimp only
  rw [src]
  by_cases gone : live.sbCount - k + r < vgaHeight
  · have before : live.sbTop - vgaHeight - (k : Int) + r < live.sbTop - live.sbCount ∨
        live.sbTop - vgaHeight - (k : Int) + r < 0 := by omega
    rw [if_pos before, padded, List.getElem?_append_left (by rwa [List.length_replicate]),
      List.getElem?_replicate, if_pos gone]
    rfl
  · have kept : ¬(live.sbTop - vgaHeight - (k : Int) + r < live.sbTop - live.sbCount ∨
        live.sbTop - vgaHeight - (k : Int) + r < 0) := by omega
    obtain ⟨i, at_⟩ : ∃ i : Nat, live.sbTop - vgaHeight - (k : Int) + r = i :=
      ⟨above.length + r - vgaHeight - k, by omega⟩
    have index : above.length - scrollbackLines + (live.sbCount - k + r - vgaHeight) = i := by omega
    rw [if_neg kept, padded, List.getElem?_append_right (by rw [List.length_replicate]; omega),
      List.length_replicate, List.getElem?_drop, index, at_, slot_eq]
    exact printed.ring i (by omega) (by omega)

theorem mem_padded {l : Row} (printed : Printed live above) (mem : l ∈ padded live above) :
    l.length = vgaWidth := by
  rcases List.mem_append.mp mem with blank | old
  · rw [(List.mem_replicate.mp blank).2, List.length_replicate]
  · exact printed.wide l (List.mem_of_mem_drop old)

/-- **Redrawing** shows the lines that end `k` lines above the last one scrolled off. -/
theorem redraw_screen (printed : Printed live above) (le : k ≤ live.sbCount) :
    (scrolledTo live v k hidden).sbRedraw.screen = ending (padded live above) k := by
  have drawn : (scrolledTo live v k hidden).sbRedraw.screen =
      (List.range vgaHeight).map (scrolledTo live v k hidden).redrawLine := by
    refine screen_rows _ (fun r lt => ?_) fun i lt => ?_
    · exact mem_padded printed (List.mem_of_getElem? (redrawLine_eq printed le lt))
    · unfold Terminal.sbRedraw
      dsimp only
      split
      · exact if_pos lt
      · exact if_pos lt
  rw [drawn]
  refine List.ext_getElem? fun r => ?_
  rw [getElem?_ending, List.getElem?_map]
  by_cases lt : r < vgaHeight
  · rw [if_pos lt, List.getElem?_range lt, redrawLine_eq printed le lt]
    rfl
  · rw [if_neg lt, List.getElem?_eq_none (by simpa using lt)]
    rfl

/-! ### Printing -/

theorem puts_eq (t : Terminal) (c n : Nat) :
    ∃ v, t.puts c n = { t with vga := v, termCol := t.termCol + n } := by
  induction n generalizing t with
  | zero => exact ⟨t.vga, rfl⟩
  | succ n ih =>
    obtain ⟨v, eq⟩ := ih (t.put c)
    refine ⟨v, eq.trans ?_⟩
    have col : (t.put c).termCol + n = t.termCol + (n + 1) := by
      show t.termCol + 1 + n = _
      omega
    rw [col]
    rfl

/-- A line is scrolled off. -/
def Terminal.scrolledOff (t : Terminal) (v : Nat → Nat) : Terminal :=
  { t with
    vga := v
    scrollbuf := Function.update t.scrollbuf (t.sbTop.tmod scrollbackLines) (t.line 0)
    sbTop := wrap32 (t.sbTop + 1)
    sbCount := if t.sbCount < scrollbackLines then t.sbCount + 1 else t.sbCount
    termRow := vgaHeight - 1
    termCol := 0 }

theorem nextLine_cases (t : Terminal) :
    (t.termRow + 1 < vgaHeight ∧ t.nextLine = { t with termCol := 0, termRow := t.termRow + 1 }) ∨
    (vgaHeight ≤ t.termRow + 1 ∧ ∃ v, t.nextLine = t.scrolledOff v) := by
  unfold Terminal.nextLine
  dsimp only
  split
  · rename_i last
    exact .inr ⟨last, _, rfl⟩
  · rename_i before
    exact .inl ⟨Nat.lt_of_not_le before, rfl⟩

/-- What one character does: it moves the cursor on the screen, or scrolls a line off. -/
theorem act_cases (row : t.termRow < vgaHeight) (col : t.termCol < vgaWidth) :
    (¬Scrolls t c ∧ ∃ v x y, y < vgaHeight ∧ x < vgaWidth ∧
      t.act c = { t with vga := v, termRow := y, termCol := x }) ∨
    (Scrolls t c ∧ ∃ v, t.act c = t.scrolledOff v) := by
  have control : c ≠ 10 → ¬0x20 ≤ c → ¬Scrolls t c :=
    fun other small scrolls => scrolls.2.elim other fun printed => small printed.1
  unfold Terminal.act
  split
  · rename_i break_
    rcases nextLine_cases t with ⟨room, eq⟩ | ⟨last, v, eq⟩
    · refine .inl ⟨fun scrolls => ?_, t.vga, 0, t.termRow + 1, room, by decide, eq⟩
      exact absurd room (Nat.not_lt.mpr scrolls.1)
    · exact .inr ⟨⟨last, .inl break_⟩, v, eq⟩
  · rename_i noBreak
    split
    · rename_i same
      exact .inl ⟨control noBreak (by rw [same]; decide), t.vga, 0, t.termRow, row, by decide, rfl⟩
    · split
      · rename_i same
        exact .inl ⟨control noBreak (by rw [same]; decide), t.vga, t.termCol - 1, t.termRow, row, by omega, rfl⟩
      · split
        · rename_i same
          dsimp only
          generalize stop : (if vgaWidth ≤ (t.termCol + 8) / 8 * 8 then vgaWidth - 1
            else (t.termCol + 8) / 8 * 8) = nx
          have bound : nx < vgaWidth := by
            rw [← stop]
            split
            · decide
            · rename_i inside
              exact Nat.lt_of_not_le inside
          obtain ⟨v, eq⟩ := puts_eq t 32 (nx - t.termCol)
          exact .inl ⟨control noBreak (by rw [same]; decide), v, t.termCol + (nx - t.termCol), t.termRow, row,
            by omega, eq⟩
        · split
          · rename_i small
            refine .inl ⟨control noBreak (fun large => ?_), t.vga, t.termCol, t.termRow, row, col, rfl⟩
            rw [UInt8.le_iff_toNat_le] at large
            rw [UInt8.lt_iff_toNat_lt] at small
            omega
          · rename_i notSmall
            have large : 0x20 ≤ c := by
              rw [UInt8.lt_iff_toNat_lt] at notSmall
              rw [UInt8.le_iff_toNat_le]
              omega
            dsimp only
            split
            · rename_i full
              have width : vgaWidth ≤ t.termCol + 1 := full
              rcases nextLine_cases (t.put c.toNat) with ⟨room, eq⟩ | ⟨last, v, eq⟩
              · have room' : t.termRow + 1 < vgaHeight := room
                refine .inl ⟨fun scrolls => ?_, (t.put c.toNat).vga, 0, t.termRow + 1, room, by decide, eq⟩
                exact absurd room' (Nat.not_lt.mpr scrolls.1)
              · have last' : vgaHeight ≤ t.termRow + 1 := last
                -- the character is on the last row, not on the one that is scrolled off
                have first : (t.put c.toNat).line 0 = t.line 0 := by
                  refine List.map_congr_left fun x mem => ?_
                  have lt := List.mem_range.mp mem
                  refine Function.update_of_ne (fun same => ?_) _ _
                  unfold vgaHeight vgaWidth at *
                  omega
                refine .inr ⟨⟨last', .inr ⟨large, width⟩⟩, v, eq.trans ?_⟩
                unfold Terminal.scrolledOff
                rw [first]
                rfl
            · rename_i room
              have width : ¬vgaWidth ≤ t.termCol + 1 := room
              refine .inl ⟨fun scrolls => ?_, (t.put c.toNat).vga, t.termCol + 1, t.termRow, row,
                by omega, rfl⟩
              exact scrolls.2.elim noBreak fun printed => width printed.2

/-- **Printing** keeps what holds of the terminal that nobody scrolls. -/
theorem Printed.putchar (printed : Printed live above) (room : Scrolls live c → live.sbTop + 1 < 2 ^ 31) :
    Printed (live.terminalPutchar c) (above ++ if Scrolls live c then [live.line 0] else []) := by
  have still : ¬0 < live.sbOff := by
    rw [printed.off]
    decide
  have top := printed.top
  have count := printed.count
  unfold Terminal.terminalPutchar
  rw [if_neg still]
  dsimp only
  rcases act_cases printed.row printed.col with ⟨stays, v, x, y, rowLt, colLt, eq⟩ | ⟨scrolls, v, eq⟩
  · have off : (live.act c).sbOff = 0 := by
      rw [eq]
      exact printed.off
    rw [if_pos off, eq, if_neg stays, List.append_nil]
    exact ⟨printed.off, rowLt, colLt, rfl, top, printed.bound, count, printed.ring, printed.wide⟩
  · have off : (live.act c).sbOff = 0 := by
      rw [eq]
      exact printed.off
    have below := room scrolls
    have slot : live.sbTop.tmod scrollbackLines = ((above.length % scrollbackLines : Nat) : Int) := by
      rw [top]
      rfl
    rw [if_pos off, eq, if_pos scrolls]
    have last : vgaHeight - 1 < vgaHeight := by decide
    have first : 0 < vgaWidth := by decide
    refine ⟨printed.off, last, first, rfl, ?_, ?_, ?_, fun i lt near => ?_, fun l mem => ?_⟩
    · show wrap32 (live.sbTop + 1) = _
      rw [wrap32_eq (by omega) below, List.length_append, List.length_singleton, top]
      rfl
    · rw [List.length_append, List.length_singleton]
      omega
    · show (if live.sbCount < scrollbackLines then live.sbCount + 1 else live.sbCount) = _
      rw [List.length_append, List.length_singleton]
      split <;> omega
    · rw [List.length_append, List.length_singleton] at lt near
      show (above ++ [live.line 0])[i]? = some (Function.update live.scrollbuf _ _ _)
      rw [slot]
      by_cases last : i = above.length
      · rw [last, List.getElem?_append_right (Nat.le_refl _), Nat.sub_self, Function.update_self]
        rfl
      · have other : ((i % scrollbackLines : Nat) : Int) ≠ ((above.length % scrollbackLines : Nat) : Int) := by
          unfold scrollbackLines at *
          omega
        rw [List.getElem?_append_left (by omega), Function.update_of_ne other]
        exact printed.ring i (by omega) (by omega)
    · rcases List.mem_append.mp mem with old | new
      · exact printed.wide l old
      · rw [List.mem_singleton.mp new, length_line]

/-! ### The view -/

/-- Whether the hardware cursor is hidden makes no difference. -/
def withHidden (t : Terminal) (hidden : Bool) : Terminal := { t with crtcHidden := hidden }

theorem puts_hidden (t : Terminal) (hidden : Bool) (c n : Nat) :
    (withHidden t hidden).puts c n = withHidden (t.puts c n) hidden := by
  induction n generalizing t with
  | zero => rfl
  | succ n ih => exact ih (t.put c)

theorem nextLine_hidden (t : Terminal) (hidden : Bool) :
    (withHidden t hidden).nextLine = withHidden t.nextLine hidden := by
  unfold Terminal.nextLine withHidden
  dsimp only
  split
  · rfl
  · rfl

theorem act_hidden (t : Terminal) (hidden : Bool) (c : UInt8) :
    (withHidden t hidden).act c = withHidden (t.act c) hidden := by
  unfold Terminal.act
  split
  · exact nextLine_hidden t hidden
  · split
    · rfl
    · split
      · rfl
      · split
        · exact puts_hidden t hidden 32 _
        · split
          · rfl
          · have same : (withHidden t hidden).put c.toNat = withHidden (t.put c.toNat) hidden := rfl
            dsimp only
            rw [same]
            by_cases full : vgaWidth ≤ (t.put c.toNat).termCol
            · have full' : vgaWidth ≤ (withHidden (t.put c.toNat) hidden).termCol := full
              rw [if_pos full, if_pos full']
              exact nextLine_hidden (t.put c.toNat) hidden
            · have room : ¬vgaWidth ≤ (withHidden (t.put c.toNat) hidden).termCol := full
              rw [if_neg full, if_neg room]

theorem putchar_hidden (off : t.sbOff = 0) (hidden : Bool) (c : UInt8) :
    (withHidden t hidden).terminalPutchar c = withHidden (t.terminalPutchar c) hidden := by
  have still : ¬0 < t.sbOff := by
    rw [off]
    decide
  have still' : ¬0 < (withHidden t hidden).sbOff := still
  unfold Terminal.terminalPutchar
  rw [if_neg still, if_neg still']
  dsimp only
  rw [act_hidden]
  by_cases zero : (t.act c).sbOff = 0
  · have zero' : (withHidden (t.act c) hidden).sbOff = 0 := zero
    rw [if_pos zero, if_pos zero']
    rfl
  · have zero' : ¬(withHidden (t.act c) hidden).sbOff = 0 := zero
    rw [if_neg zero, if_neg zero']

/-- The terminal is the one nobody scrolls, and shows the lines that end `k` lines above its
bottom. -/
structure View (s : Session) (v : Nat → Nat) (k : Nat) (hidden : Bool) : Prop where
  term : s.term = scrolledTo s.live v k hidden
  rest : ∀ i, vgaHeight * vgaWidth ≤ i → v i = s.live.vga i
  most : (k : Int) ≤ s.live.most
  shown : s.term.screen = ending (s.retained ++ s.live.screen) k

/-- What holds of a session in every state reached. -/
structure Synced (s : Session) : Prop where
  printed : Printed s.live s.above
  view : ∃ v k hidden, View s v k hidden

/-- At the bottom there is no difference but the visibility of the cursor. -/
theorem View.at_bottom (view : View s v 0 hidden) (printed : Printed s.live s.above) :
    s.term = withHidden s.live hidden := by
  have screens : s.term.screen = s.live.screen := view.shown.trans (ending_screen _ _)
  have cells : v = s.live.vga := by
    funext i
    by_cases lt : i < vgaHeight * vgaWidth
    · have same := vga_of_screen screens lt
      rwa [view.term] at same
    · exact view.rest i (Nat.le_of_not_lt lt)
  rw [view.term, cells, scrolledTo, withHidden]
  have off : ((0 : Nat) : Int) = s.live.sbOff := printed.off.symm
  rw [off]

theorem count_of_most (most : (k : Int) ≤ live.most) : k ≤ live.sbCount := by
  unfold Terminal.most at most
  split at most <;> omega

theorem sbRedraw_eq (t : Terminal) : t.sbRedraw = { t with
    vga := t.sbRedraw.vga
    crtcPos := if t.sbOff = 0 then t.termRow * vgaWidth + t.termCol else t.crtcPos
    crtcHidden := if t.sbOff = 0 then t.crtcHidden else true } := by
  unfold Terminal.sbRedraw
  dsimp only
  by_cases bottom : t.sbOff = 0
  · rw [if_pos bottom, if_pos bottom, if_pos bottom]
    rfl
  · rw [if_neg bottom, if_neg bottom, if_neg bottom]
    rfl

theorem sbRedraw_scrolledTo (crtc : live.crtcPos = live.termRow * vgaWidth + live.termCol) :
    ∃ hidden', (scrolledTo live v k hidden).sbRedraw =
      scrolledTo live (scrolledTo live v k hidden).sbRedraw.vga k hidden' := by
  have pos : (if (scrolledTo live v k hidden).sbOff = 0 then live.termRow * vgaWidth + live.termCol
      else live.crtcPos) = live.crtcPos := by
    split
    · exact crtc.symm
    · rfl
  generalize drawn : (scrolledTo live v k hidden).sbRedraw.vga = v'
  refine ⟨if (k : Int) = 0 then hidden else true, (sbRedraw_eq _).trans ?_⟩
  rw [drawn]
  unfold scrolledTo at pos ⊢
  dsimp only at pos ⊢
  rw [pos]

/-- **Redrawing** where the lines are the same. -/
theorem View.redraw (printed : Printed s.live s.above) {j : Nat} (view : View s v j hidden)
    (most : (k : Int) ≤ s.live.most) (same : Same s k) :
    ∃ v' hidden', View ⟨{ s.term with sbOff := k }.sbRedraw, s.live, s.above⟩ v' k hidden' := by
  have from_ : { s.term with sbOff := (k : Int) } = scrolledTo s.live v k hidden := by
    rw [view.term]
    rfl
  have shown : (scrolledTo s.live v k hidden).sbRedraw.screen = ending (padded s.live s.above) k :=
    redraw_screen printed (count_of_most most)
  rw [from_]
  obtain ⟨hidden', drawn⟩ : ∃ hidden', (scrolledTo s.live v k hidden).sbRedraw = _ :=
    sbRedraw_scrolledTo printed.crtc
  refine ⟨_, hidden', drawn, fun i outside => ?_, most, shown.trans same⟩
  have kept : (scrolledTo s.live v k hidden).sbRedraw.vga i = v i := by
    unfold Terminal.sbRedraw
    dsimp only
    split
    · exact if_neg (Nat.not_lt.mpr outside)
    · exact if_neg (Nat.not_lt.mpr outside)
  exact kept.trans (view.rest i outside)

theorem most_nonneg (t : Terminal) : 0 ≤ t.most := by
  unfold Terminal.most
  split
  · omega
  · exact Int.le_refl 0

/-- The terminal that nobody scrolls, up to the visibility of the cursor, is a view of itself. -/
theorem View.of_bottom (off : s.live.sbOff = 0) (same : s.term = withHidden s.live hidden) :
    View s s.live.vga 0 hidden := by
  refine ⟨?_, fun i _ => rfl, most_nonneg _, ?_⟩
  · rw [same, withHidden, scrolledTo]
    have zero : s.live.sbOff = ((0 : Nat) : Int) := off
    rw [← zero]
  · rw [ending_screen, same]
    rfl

/-- **One character.** -/
theorem Synced.type (synced : Synced s) (kept : KeptChar s c) : Synced (s.type c) := by
  obtain ⟨printed, v, k, hidden, view⟩ := synced
  have printed' := printed.putchar kept.2
  have off : s.term.sbOff = k := by rw [view.term]; rfl
  obtain ⟨hidden', same⟩ : ∃ hidden', s.term.terminalPutchar c =
      withHidden (s.live.terminalPutchar c) hidden' := by
    by_cases scrolled : 0 < k
    · -- the view is redrawn at the bottom first
      have above : 0 < s.term.sbOff := by omega
      obtain ⟨v', hidden', view'⟩ := view.redraw printed (most_nonneg s.live) (kept.1 above)
      have redrawn : { s.term with sbOff := ((0 : Nat) : Int) }.sbRedraw = withHidden s.live hidden' :=
        view'.at_bottom printed
      refine ⟨hidden', ?_⟩
      rw [← putchar_hidden printed.off, ← redrawn]
      have bottom : ¬0 < ({ s.term with sbOff := ((0 : Nat) : Int) }.sbRedraw).sbOff := by
        rw [redrawn]
        have off := printed.off
        exact fun over_ => absurd over_ (by rw [withHidden, off]; decide)
      unfold Terminal.terminalPutchar
      rw [if_pos above, if_neg bottom]
      rfl
    · obtain rfl : k = 0 := by omega
      refine ⟨hidden, ?_⟩
      rw [view.at_bottom printed]
      exact putchar_hidden printed.off hidden c
  exact ⟨printed', _, 0, hidden', .of_bottom printed'.off same⟩

/-- **A text**, character by character. -/
theorem Synced.text {str : List UInt8} (synced : Synced s) (kept : KeptText str s) :
    Synced (str.foldl Session.type s) := by
  induction str generalizing s with
  | nil => exact synced
  | cons c str ih => exact ih (synced.type kept.1) kept.2

/-- **A scroll call** that ends at offset `k`. -/
theorem Synced.scroll (synced : Synced s) (most : (k : Int) ≤ s.live.most) (same : Same s k)
    (eq : t = { s.term with sbOff := k }.sbRedraw) : Synced ⟨t, s.live, s.above⟩ := by
  obtain ⟨printed, v, j, hidden, view⟩ := synced
  obtain ⟨v', hidden', view'⟩ := view.redraw printed most same
  rw [← eq] at view'
  exact ⟨printed, v', k, hidden', view'⟩

/-- The scroll calls. -/
def Op.Scroll : Op → Prop
  | .scrollUp _ => True
  | .scrollDown _ => True
  | .scrollToBottom => True
  | _ => False

/-- **What a scroll call does**: nothing, a redraw at the new offset, or the offset overflows. -/
theorem Synced.scroll_cases {op : Op} (synced : Synced s) (scroll : op.Scroll) (proper : Proper s op)
    (taken : Step s op s') :
    (s' = s ∧ Kept s op) ∨
    (∃ k : Nat, (k : Int) ≤ s.live.most ∧ s' = ⟨{ s.term with sbOff := k }.sbRedraw, s.live, s.above⟩ ∧
      (Kept s op ↔ Same s k)) ∨
    (s'.term.sbOff < 0 ∧ ¬Kept s op) := by
  obtain ⟨v, j, hidden, view⟩ := synced.view
  have off : s.term.sbOff = j := by
    rw [view.term]
    rfl
  have top : s.term.most = s.live.most := by
    rw [view.term]
    rfl
  have most := view.most
  have bound : s.live.most < 2 ^ 31 := by
    have count := synced.printed.count
    unfold Terminal.most scrollbackLines at *
    split <;> omega
  cases op with
  | putchar c => cases scroll
  | write str => cases scroll
  | scrollUp n =>
    obtain rfl := Option.some.inj taken
    have within : n < 2 ^ 31 := proper
    by_cases below : s.term.sbOff + n < 2 ^ 31
    · obtain ⟨k, reached⟩ : ∃ k : Nat, min (s.term.sbOff + n) s.live.most = k :=
        ⟨_, (Int.toNat_of_nonneg (by omega)).symm⟩
      have offset : (if s.term.sbOff + n > s.term.most then s.term.most else s.term.sbOff + n) = (k : Int) := by
        rw [top]
        split <;> omega
      refine .inr (.inl ⟨k, by omega, ?_, ?_⟩)
      · unfold Terminal.terminalScrollUp
        dsimp only
        rw [wrap32_eq (by omega) below, offset]
      · rw [Kept, top, reached, Int.toNat_natCast]
        exact and_iff_right below
    · have over_ : wrap32 (s.term.sbOff + n) = s.term.sbOff + n - 2 ^ 32 := by
        unfold wrap32
        rw [Int.bmod_def]
        split <;> omega
      refine .inr (.inr ⟨?_, fun kept => below kept.1⟩)
      show (Terminal.sbRedraw _).sbOff < 0
      rw [sbRedraw_eq]
      show (if wrap32 (s.term.sbOff + n) > s.term.most then s.term.most else wrap32 (s.term.sbOff + n)) < 0
      rw [over_, if_neg (by omega)]
      omega
  | scrollDown n =>
    obtain rfl := Option.some.inj taken
    have within : n < 2 ^ 31 := proper
    have offset : (if s.term.sbOff - n < 0 then 0 else s.term.sbOff - n) = ((s.term.sbOff - n).toNat : Int) := by
      split <;> omega
    refine .inr (.inl ⟨(s.term.sbOff - n).toNat, by omega, ?_, Iff.rfl⟩)
    unfold Terminal.terminalScrollDown
    dsimp only
    rw [wrap32_eq (by omega) (by omega), offset]
  | scrollToBottom =>
    obtain rfl := Option.some.inj taken
    unfold Terminal.terminalScrollToBottom
    by_cases bottom : s.term.sbOff = 0
    · rw [if_neg (not_not.mpr bottom)]
      exact .inl ⟨rfl, fun above => absurd bottom (Int.ne_of_gt above)⟩
    · rw [if_pos bottom]
      refine .inr (.inl ⟨0, by omega, rfl, fun kept => kept (by omega), fun same _ => same⟩)

/-- One call. -/
theorem Synced.step {op : Op} (synced : Synced s) (ok : ProperKept s op) (taken : Step s op s') :
    Synced s' := by
  obtain ⟨proper, kept⟩ := ok
  have scrolls : op.Scroll → Synced s' := by
    intro scroll
    rcases synced.scroll_cases scroll proper taken with ⟨rfl, -⟩ | ⟨k, most, rfl, same⟩ | ⟨-, lost⟩
    · exact synced
    · exact synced.scroll most (same.mp kept) rfl
    · exact absurd kept lost
  cases op with
  | putchar c =>
    obtain rfl := Option.some.inj taken
    exact synced.type kept
  | write str =>
    obtain rfl := Option.some.inj taken
    exact synced.text kept
  | scrollUp n => exact scrolls trivial
  | scrollDown n => exact scrolls trivial
  | scrollToBottom => exact scrolls trivial

/-- `terminal_init` starts with nothing above the screen. -/
theorem synced_start (t : Terminal) : Synced (.start t) := by
  have row : 0 < vgaHeight := by decide
  have col : 0 < vgaWidth := by decide
  have printed : Printed t.terminalInit [] :=
    ⟨rfl, row, col, rfl, rfl, by decide, rfl, fun i lt => absurd lt (Nat.not_lt_zero i), fun l none_ => nomatch none_⟩
  exact ⟨printed, _, 0, t.terminalInit.crtcHidden, .of_bottom printed.off rfl⟩

theorem Synced.shows (synced : Synced s) : Shows s := by
  obtain ⟨printed, v, k, hidden, view⟩ := synced
  have off : s.term.sbOff = k := by
    rw [view.term]
    rfl
  have cursor : s.term.termRow = s.live.termRow ∧ s.term.termCol = s.live.termCol ∧
      s.term.crtcPos = s.live.crtcPos := by
    rw [view.term]
    exact ⟨rfl, rfl, rfl⟩
  refine ⟨cursor.1 ▸ printed.row, cursor.2.1 ▸ printed.col, fun bottom => ⟨?_, cursor⟩,
    fun j over_ at_ => ?_, by omega⟩
  · obtain rfl : k = 0 := by omega
    exact view.shown.trans (ending_screen _ _)
  · obtain rfl : k = j := by omega
    exact view.shown

/-- A redrawn screen shows what it should only where the lines are the same. -/
theorem Synced.same_of_shows (synced : Synced s) (most : (k : Int) ≤ s.live.most)
    (eq : t = { s.term with sbOff := k }.sbRedraw) (shows_ : Shows ⟨t, s.live, s.above⟩) : Same s k := by
  obtain ⟨printed, v, j, hidden, view⟩ := synced
  have from_ : { s.term with sbOff := (k : Int) } = scrolledTo s.live v k hidden := by
    rw [view.term]
    rfl
  have drawn : t.screen = ending (padded s.live s.above) k := by
    rw [eq, from_]
    exact redraw_screen printed (count_of_most most)
  have off : t.sbOff = k := by
    rw [eq, sbRedraw_eq]
  refine drawn.symm.trans ?_
  by_cases bottom : k = 0
  · subst bottom
    exact (shows_.bottom off).1.trans (ending_screen _ _).symm
  · exact shows_.scrolled k (Nat.pos_of_ne_zero bottom) off

/-- **The terminal.** From `terminal_init` on, in every state reached by printing and scrolling in
which the screen was only redrawn where that does no harm: the cursor is on the screen, at offset 0
the screen and the cursor are as without the scroll calls, and at offset `k` the screen shows the
lines that end `k` lines above the bottom of the live screen. A scroll call from there leads to such
a state again if and only if its redraw does no harm. -/
theorem run_shows {t : Terminal} {ops : List Op} (run : Run Step ProperKept (.start t) ops s) :
    Shows s ∧ ∀ op s', op.Scroll → Proper s op → Step s op s' → (Shows s' ↔ Kept s op) := by
  have synced := run.invariant (synced_start t) fun synced ok taken => synced.step ok taken
  refine ⟨synced.shows, fun op s' scroll proper taken => ⟨fun shows_ => ?_, fun kept => ?_⟩⟩
  · rcases synced.scroll_cases scroll proper taken with ⟨-, kept⟩ | ⟨k, most, rfl, same⟩ | ⟨lost, -⟩
    · exact kept
    · exact same.mpr (synced.same_of_shows most rfl shows_)
    · exact absurd shows_.offset (Int.not_le.mpr lost)
  · exact (synced.step ⟨proper, kept⟩ taken).shows

/-- A terminal before `terminal_init`. -/
def fresh : Terminal := ⟨fun _ => 0, fun _ => [], 0, 0, 0, 0, 0, 0, 0, 0, false⟩

/-- Scrolling an empty screen, and printing after that. -/
theorem run_shows_hello :
    ∃ s, Run Step ProperKept (.start fresh) [.scrollUp 3, .write [104, 105, 10], .scrollToBottom] s ∧ Shows s := by
  have done : (runAll perform ProperKept (.start fresh)
      [.scrollUp 3, .write [104, 105, 10], .scrollToBottom]).isSome = true := by
    decide
  obtain ⟨s, ran⟩ := Option.isSome_iff_exists.mp done
  have run : Run Step ProperKept _ _ s := .of_runAll ran
  exact ⟨s, run, (run_shows run).1⟩

/-- Scrolling up by a line, with nothing to scroll back to, wipes the screen. -/
theorem scrolling_wipes :
    ∃ s, Run Step Proper (.start fresh) [.putchar 104, .scrollUp 1] s ∧ s.term.sbOff = 0 ∧ ¬Shows s := by
  have done : ((runAll perform Proper (.start fresh) [.putchar 104, .scrollUp 1]).filter fun s =>
      s.term.sbOff = 0 ∧ s.term.vga 0 ≠ s.live.vga 0).isSome = true := by
    decide
  obtain ⟨s, found⟩ := Option.isSome_iff_exists.mp done
  obtain ⟨ran, holds⟩ := Option.filter_eq_some_iff.mp found
  obtain ⟨bottom, differ⟩ := of_decide_eq_true holds
  have run : Run Step Proper _ _ s := .of_runAll ran
  exact ⟨s, run, bottom, fun shows_ => differ (vga_of_screen (shows_.bottom bottom).1 (by decide))⟩

end AtmKoala.Terminal
