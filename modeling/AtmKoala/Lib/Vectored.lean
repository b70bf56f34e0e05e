import Mathlib.Logic.Function.Basic
import Mathlib.Algebra.BigOperators.Group.List.Basic
import Mathlib.Algebra.Order.Ring.Int

/-!
Scatter and gather: a call that moves elements segment by segment.

An operation works on one segment of a vector at a time. It may move a part of it, wait, or never
come back. The loop stops behind a segment that was moved in part only.

* `loop` and `call`: the call up to the first wait, and the whole call, where other parties act
  on the state while it waits; `callOne` is the call on one segment.
* `Law`: the operation is a transfer over a stream that has `avail` elements to give.
* `RunsDry`: the elements there just fill some of the segments, more are to come, and the stream
  is not at its end.
* `Law.call_eq_iff`: apart from that, a call on a vector is the call on one segment as long.
-/

namespace AtmKoala.Lib.Vectored

variable {σ S β : Type}

/-- What an operation comes to: `none` if it never comes back, `some (s, none)` where it waits,
and otherwise its value and what it has moved. -/
abbrev Result (σ β : Type) := Option (σ × Option (Int × List β))

/-- How far a call has come: `counted` is what it adds to the account of the caller. -/
inductive Progress (S β : Type) where
  | returned (value : Int) (moved : List β) (counted : Nat)
  | waiting (rest : List S) (total : Int) (moved : List β)

/-- The loop over the segments; the first of them goes through an operation of its own. -/
def loop (len : S → Nat) (op : σ → S → Result σ β) (first : σ → S → Result σ β) (s : σ) :
    List S → Int → List β → Option (σ × Progress S β)
  | [], total, moved => some (s, .returned total moved total.toNat)
  | a :: rest, total, moved =>
    match first s a with
    | none => none
    | some (s, none) => some (s, .waiting (a :: rest) total moved)
    | some (s, some (n, xs)) =>
      if n < 0 then some (s, .returned (if total ≠ 0 then total else n) moved 0)
      else if n < len a then some (s, .returned (total + n) (moved ++ xs) (total + n).toNat)
      else loop len op op s rest (total + n) (moved ++ xs)

/-- The end of a call: what it returns, or that it waits. -/
inductive Outcome (β : Type) where
  | returned (value : Int) (moved : List β) (counted : Nat)
  | waiting
deriving DecidableEq

/-- The call from some progress on: whenever it waits, the next of the others acts, and it goes on
with the segment it was at. What is left of the others tells how often it has waited. -/
def proceed (len : S → Nat) (op again : σ → S → Result σ β) :
    List (σ → σ) → Option (σ × Progress S β) → Option (σ × Outcome β × List (σ → σ))
  | _, none => none
  | others, some (s, .returned value moved counted) => some (s, .returned value moved counted, others)
  | [], some (s, .waiting _ _ _) => some (s, .waiting, [])
  | act :: others, some (s, .waiting rest total moved) =>
    proceed len op again others (loop len op again (act s) rest total moved)

/-- The whole call. -/
def call (len : S → Nat) (op again : σ → S → Result σ β) (others : List (σ → σ)) (s : σ)
    (segs : List S) : Option (σ × Outcome β × List (σ → σ)) :=
  proceed len op again others (loop len op op s segs 0 [])

/-- A call on one segment, which counts what it returns. -/
def proceedOne (again : σ → Result σ β) :
    List (σ → σ) → Result σ β → Option (σ × Outcome β × List (σ → σ))
  | _, none => none
  | others, some (s, some (n, xs)) =>
    some (s, .returned n xs (if n > 0 then n.toNat else 0), others)
  | [], some (s, none) => some (s, .waiting, [])
  | act :: others, some (s, none) => proceedOne again others (again (act s))

def callOne (op again : σ → S → Result σ β) (others : List (σ → σ)) (s : σ) (a : S) :
    Option (σ × Outcome β × List (σ → σ)) :=
  proceedOne (again · a) others (op s a)

/-- **A transfer.** While the stream has elements an operation moves as many as fit, and two
segments are served as one. At a stream without elements it only depends on the stream what
becomes of the call: at the end of the stream (`ended`) it returns 0, otherwise it fails, waits,
or does not come back. -/
structure Law (Inv : σ → Prop) (len : S → Nat) (unit : S) (join : S → S → S)
    (op again : σ → S → Result σ β) (avail : σ → Nat) (ended : σ → Prop) : Prop where
  length_unit : len unit = 0
  length_join : ∀ a b, len (join a b) = len a + len b
  join_empty : ∀ a b, len b = 0 → join a b = a
  empty_join : ∀ a b, len a = 0 → join a b = b
  empty : ∀ {s a}, Inv s → len a = 0 → op s a = some (s, some (0, []))
  again_eq : ∀ {s a}, Inv s → 0 < len a → again s a = op s a
  moves : ∀ {s a}, Inv s → 0 < avail s → 0 < len a → ∃ s' xs,
    op s a = some (s', some (xs.length, xs)) ∧ xs.length = min (len a) (avail s) ∧ Inv s' ∧
      avail s' = avail s - xs.length ∧ (ended s' ↔ ended s) ∧
      (avail s' = 0 → ended s' → ∀ b, 0 < len b → op s' b = some (s', some (0, [])))
  full : ∀ {s a b}, Inv s → 0 < avail s → avail s ≤ len a → op s (join a b) = op s a
  split : ∀ {s s' a b n xs m ys t}, Inv s → 0 < len a → len a < avail s → 0 < len b →
    op s a = some (s', some (n, xs)) → op s' b = some (t, some (m, ys)) →
    op s (join a b) = some (t, some (n + m, xs ++ ys))
  same : ∀ {s a b}, Inv s → avail s = 0 → 0 < len a → 0 < len b → op s a = op s b
  finished : ∀ {s a}, Inv s → avail s = 0 → 0 < len a → ended s →
    ∃ s', op s a = some (s', some (0, []))
  stuck : ∀ {s a}, Inv s → avail s = 0 → 0 < len a → ¬ended s →
    op s a = none ∨ (∃ s', op s a = some (s', none) ∧ Inv s') ∨
      ∃ s' n, n < 0 ∧ op s a = some (s', some (n, []))

/-- The elements there just fill the segments in front, more are to come, and the stream goes on. -/
def Dry (len : S → Nat) (avail : σ → Nat) (ended : σ → Prop) (s : σ) (segs : List S) : Prop :=
  0 < avail s ∧ ¬ended s ∧ ∃ front back, segs = front ++ back ∧
    (front.map len).sum = avail s ∧ 0 < (back.map len).sum

/-- The call meets a stream that runs dry, at once or after it has waited without moving anything. -/
def RunsDry (len : S → Nat) (unit : S) (join : S → S → S) (op : σ → S → Result σ β)
    (avail : σ → Nat) (ended : σ → Prop) : List (σ → σ) → σ → List S → Prop
  | [], s, segs => Dry len avail ended s segs
  | act :: others, s, segs => Dry len avail ended s segs ∨
      ∃ s', op s (segs.foldr join unit) = some (s', none) ∧
        RunsDry len unit join op avail ended others (act s') segs

/-! ### Segments -/

section Segments

variable {Inv : σ → Prop} {len : S → Nat} {unit : S} {join : S → S → S}
  {op again : σ → S → Result σ β} {avail : σ → Nat} {ended : σ → Prop}
  {s : σ} {segs zeros rest : List S} {total : Int} {moved : List β}

theorem Law.length_joined (law : Law Inv len unit join op again avail ended) (segs : List S) :
    len (segs.foldr join unit) = (segs.map len).sum := by
  induction segs with
  | nil => exact law.length_unit
  | cons a rest ih => rw [List.foldr_cons, law.length_join, ih, List.map_cons, List.sum_cons]

theorem Law.joined_zeros (law : Law Inv len unit join op again avail ended)
    (empty : (zeros.map len).sum = 0) :
    (zeros ++ rest).foldr join unit = rest.foldr join unit := by
  induction zeros with
  | nil => rfl
  | cons a zeros ih =>
    rw [List.map_cons, List.sum_cons] at empty
    rw [List.cons_append, List.foldr_cons, law.empty_join _ _ (by omega), ih (by omega)]

theorem dry_zeros (empty : (zeros.map len).sum = 0) :
    Dry len avail ended s (zeros ++ rest) ↔ Dry len avail ended s rest := by
  unfold Dry
  refine and_congr_right fun some_ => and_congr_right fun _ => ⟨?_, ?_⟩
  · rintro ⟨front, back, same, sum, more⟩
    rcases List.append_eq_append_iff.mp same with ⟨tail, rfl, rfl⟩ | ⟨tail, rfl, rfl⟩
    · refine ⟨tail, back, rfl, ?_, more⟩
      rw [List.map_append, List.sum_append] at sum
      omega
    · rw [List.map_append, List.sum_append] at empty
      omega
  · rintro ⟨front, back, rfl, sum, more⟩
    refine ⟨zeros ++ front, back, (List.append_assoc ..).symm, ?_, more⟩
    rw [List.map_append, List.sum_append]
    omega

theorem runsDry_zeros (law : Law Inv len unit join op again avail ended)
    (empty : (zeros.map len).sum = 0) (others : List (σ → σ)) :
    RunsDry len unit join op avail ended others s (zeros ++ rest) ↔
      RunsDry len unit join op avail ended others s rest := by
  induction others generalizing s with
  | nil => exact dry_zeros empty
  | cons act others ih =>
    unfold RunsDry
    rw [dry_zeros empty, law.joined_zeros empty]
    simp only [ih]

/-! ### The loop -/

theorem loop_cons (a : S) : loop len op op s (a :: rest) total moved =
    match op s a with
    | none => none
    | some (s, none) => some (s, .waiting (a :: rest) total moved)
    | some (s, some (n, xs)) =>
      if n < 0 then some (s, .returned (if total ≠ 0 then total else n) moved 0)
      else if n < len a then some (s, .returned (total + n) (moved ++ xs) (total + n).toNat)
      else loop len op op s rest (total + n) (moved ++ xs) := rfl

/-- Empty segments do nothing. -/
theorem Law.loop_zeros (law : Law Inv len unit join op again avail ended) (inv : Inv s)
    (empty : (zeros.map len).sum = 0) (rest : List S) (total : Int) (moved : List β) :
    loop len op op s (zeros ++ rest) total moved = loop len op op s rest total moved := by
  induction zeros with
  | nil => rfl
  | cons a zeros ih =>
    rw [List.map_cons, List.sum_cons] at empty
    have none_ : len a = 0 := by omega
    rw [List.cons_append, loop_cons, law.empty inv none_]
    dsimp only
    rw [if_neg (by decide), if_neg (by omega), Int.add_zero, List.append_nil]
    exact ih (by omega)

theorem Law.loop_empty (law : Law Inv len unit join op again avail ended) (inv : Inv s)
    (empty : (segs.map len).sum = 0) (total : Int) (moved : List β) :
    loop len op op s segs total moved = some (s, .returned total moved total.toNat) := by
  have all := law.loop_zeros inv empty [] total moved
  rw [List.append_nil] at all
  exact all

/-- Segments that are not all empty start with one that is not, after empty ones. -/
theorem exists_segment (some_ : 0 < (segs.map len).sum) :
    ∃ zeros a rest, segs = zeros ++ a :: rest ∧ (zeros.map len).sum = 0 ∧ 0 < len a := by
  induction segs with
  | nil => exact absurd some_ (Nat.lt_irrefl 0)
  | cons a rest ih =>
    by_cases empty : len a = 0
    · rw [List.map_cons, List.sum_cons, empty, Nat.zero_add] at some_
      obtain ⟨zeros, b, rest, rfl, sum, pos⟩ := ih some_
      exact ⟨a :: zeros, b, rest, rfl, by rw [List.map_cons, List.sum_cons, empty, sum], pos⟩
    · exact ⟨[], a, rest, rfl, rfl, Nat.pos_of_ne_zero empty⟩

/-- After a wait the segment goes on as it would start. -/
theorem Law.loop_again (law : Law Inv len unit join op again avail ended) (inv : Inv s) {a : S}
    (pos : 0 < len a) :
    loop len op again s (a :: rest) total moved = loop len op op s (a :: rest) total moved := by
  rw [loop_cons, loop, law.again_eq inv pos]

/-- One segment: what the operation says, except that nothing is counted where nothing is moved. -/
theorem loop_single {s' : σ} {n : Int} {xs : List β} {a : S} (moves : op s a = some (s', some (n, xs)))
    (some_ : 0 ≤ n) : loop len op op s [a] 0 [] = some (s', .returned n xs n.toNat) := by
  rw [loop_cons, moves]
  dsimp only
  rw [if_neg (by omega), Int.zero_add, List.nil_append]
  split
  · rfl
  · rfl

/-- A call that meets elements is a single operation, where the stream does not run dry. -/
theorem Law.loop_moves (law : Law Inv len unit join op again avail ended) (inv : Inv s)
    (there : 0 < avail s) (some_ : 0 < (segs.map len).sum) (total : Int) (moved : List β)
    (wet : ¬Dry len avail ended s segs) (counted : 0 ≤ total) :
    ∃ s' xs, op s (segs.foldr join unit) = some (s', some ((xs.length : Int), xs)) ∧
      loop len op op s segs total moved =
        some (s', .returned (total + xs.length) (moved ++ xs) (total + xs.length).toNat) := by
  induction segs generalizing s total moved with
  | nil => exact absurd some_ (Nat.lt_irrefl 0)
  | cons a rest ih =>
    rw [List.map_cons, List.sum_cons] at some_
    rw [List.foldr_cons]
    by_cases empty : len a = 0
    · have first : ([a].map len).sum = 0 := by rw [List.map_singleton, List.sum_singleton, empty]
      rw [law.empty_join _ _ empty]
      have skip := law.loop_zeros inv first rest total moved
      rw [List.singleton_append] at skip
      rw [skip]
      have wet' : ¬Dry len avail ended s rest := fun dry =>
        wet (show Dry len avail ended s ([a] ++ rest) from (dry_zeros first).mpr dry)
      exact ih inv there (by omega) total moved wet' counted
    have pos := Nat.pos_of_ne_zero empty
    obtain ⟨s₁, xs, runs, length, inv₁, left, ended_, finish⟩ := law.moves inv there pos
    have step : loop len op op s (a :: rest) total moved =
        if (xs.length : Int) < len a then
          some (s₁, .returned (total + xs.length) (moved ++ xs) (total + xs.length).toNat)
        else loop len op op s₁ rest (total + xs.length) (moved ++ xs) := by
      rw [loop_cons, runs]
      dsimp only
      rw [if_neg (by omega)]
    rw [step]
    by_cases short : avail s < len a
    · rw [if_pos (by omega), law.full inv there (Nat.le_of_lt short)]
      exact ⟨s₁, xs, runs, rfl⟩
    rw [if_neg (by omega)]
    by_cases last : (rest.map len).sum = 0
    · refine ⟨s₁, xs, ?_, law.loop_empty inv₁ last _ _⟩
      rw [law.join_empty _ _ ((law.length_joined rest).trans last), runs]
    have more : 0 < len (rest.foldr join unit) := by
      rw [law.length_joined]
      omega
    by_cases exact_ : avail s = len a
    · -- the segment takes all there is, so the stream is at its end
      rw [law.full inv there (by omega)]
      refine ⟨s₁, xs, runs, ?_⟩
      have over_ : ended s₁ := by
        rw [ended_]
        by_contra goes
        exact wet ⟨there, goes, [a], rest, rfl, by
          rw [List.map_singleton, List.sum_singleton, exact_], by omega⟩
      have more_ : 0 < (rest.map len).sum := Nat.pos_of_ne_zero last
      obtain ⟨zeros, b, tail, rfl, sum, posb⟩ := exists_segment more_
      rw [law.loop_zeros inv₁ sum, loop_cons, finish (by omega) over_ b posb]
      dsimp only
      rw [if_neg (by decide), if_pos (by omega), Int.add_zero, List.append_nil]
    · have wet₁ : ¬Dry len avail ended s₁ rest := by
        rintro ⟨-, goes, front, back, rfl, sum, more⟩
        refine wet ⟨there, ended_.not.mp goes, a :: front, back, rfl, ?_, more⟩
        rw [List.map_cons, List.sum_cons]
        omega
      obtain ⟨s₂, ys, runs₂, loop₂⟩ := ih inv₁ (by omega) (by omega) (total + xs.length)
        (moved ++ xs) wet₁ (by omega)
      refine ⟨s₂, xs ++ ys, ?_, ?_⟩
      · rw [law.split inv pos (by omega) more runs runs₂, List.length_append, Int.natCast_add]
      · rw [loop₂, List.append_assoc, List.length_append, Int.natCast_add, Int.add_assoc]

/-- A call that meets elements and a stream that runs dry behind them waits, does not come back,
or returns without counting. -/
theorem Law.loop_dry (law : Law Inv len unit join op again avail ended) (inv : Inv s)
    (dry : Dry len avail ended s segs) (total : Int) (moved : List β) (counted : 0 ≤ total) :
    loop len op op s segs total moved = none ∨
    (∃ s' rest total' moved', loop len op op s segs total moved = some (s', .waiting rest total' moved')) ∨
    ∃ s' value moved', loop len op op s segs total moved = some (s', .returned value moved' 0) := by
  obtain ⟨there, goes, front, back, rfl, sum, more⟩ := dry
  induction front generalizing s total moved with
  | nil => exact absurd there (by rw [← sum]; exact Nat.lt_irrefl 0)
  | cons a front ih =>
    rw [List.map_cons, List.sum_cons] at sum
    by_cases empty : len a = 0
    · have first : ([a].map len).sum = 0 := by rw [List.map_singleton, List.sum_singleton, empty]
      have skip := law.loop_zeros inv first (front ++ back) total moved
      rw [List.singleton_append] at skip
      rw [List.cons_append, skip]
      exact ih inv total moved counted there goes (by omega)
    have pos := Nat.pos_of_ne_zero empty
    obtain ⟨s₁, xs, runs, length, inv₁, left, ended_, -⟩ := law.moves inv there pos
    have step : loop len op op s (a :: (front ++ back)) total moved =
        loop len op op s₁ (front ++ back) (total + xs.length) (moved ++ xs) := by
      rw [loop_cons, runs]
      dsimp only
      rw [if_neg (by omega), if_neg (by omega)]
    rw [List.cons_append, step]
    by_cases filled : avail s₁ = 0
    · have empty_ : (front.map len).sum = 0 := by omega
      obtain ⟨zeros, b, tail, rfl, sum_, posb⟩ := exists_segment more
      rw [law.loop_zeros inv₁ empty_, law.loop_zeros inv₁ sum_, loop_cons]
      rcases law.stuck inv₁ filled posb (ended_.not.mpr goes) with
        none_ | ⟨s₂, waits, -⟩ | ⟨s₂, n, neg, fails⟩
      · rw [none_]
        exact .inl rfl
      · rw [waits]
        exact .inr (.inl ⟨_, _, _, _, rfl⟩)
      · rw [fails]
        dsimp only
        rw [if_pos neg]
        exact .inr (.inr ⟨_, _, _, rfl⟩)
    · exact ih inv₁ _ _ (by omega) (Nat.pos_of_ne_zero filled) (ended_.not.mpr goes) (by omega)

/-- A call that meets no element does what the operation does on one segment. -/
theorem Law.loop_idle (law : Law Inv len unit join op again avail ended) (inv : Inv s)
    (idle : avail s = 0) (some_ : 0 < (segs.map len).sum) :
    (op s (segs.foldr join unit) = none ∧ loop len op op s segs 0 [] = none) ∨
    (∃ s' zeros a rest, op s (segs.foldr join unit) = some (s', none) ∧ Inv s' ∧
      segs = zeros ++ a :: rest ∧ (zeros.map len).sum = 0 ∧ 0 < len a ∧
      loop len op op s segs 0 [] = some (s', .waiting (a :: rest) 0 [])) ∨
    ∃ s' n, op s (segs.foldr join unit) = some (s', some (n, [])) ∧ n ≤ 0 ∧
      loop len op op s segs 0 [] = some (s', .returned n [] 0) := by
  have long : 0 < len (segs.foldr join unit) := by
    rw [law.length_joined]
    exact some_
  obtain ⟨zeros, a, rest, rfl, sum, pos⟩ := exists_segment some_
  rw [law.loop_zeros inv sum, loop_cons, law.same inv idle pos long]
  generalize (zeros ++ a :: rest).foldr join unit = whole at long ⊢
  by_cases over_ : ended s
  · obtain ⟨s', runs⟩ := law.finished inv idle long over_
    refine .inr (.inr ⟨s', 0, runs, Int.le_refl 0, ?_⟩)
    rw [runs]
    dsimp only
    rw [if_neg (by decide), if_pos (by omega)]
    rfl
  · rcases law.stuck inv idle long over_ with none_ | ⟨s', waits, inv'⟩ | ⟨s', n, neg, fails⟩
    · refine .inl ⟨none_, ?_⟩
      rw [none_]
    · refine .inr (.inl ⟨s', zeros, a, rest, waits, inv', rfl, sum, pos, ?_⟩)
      rw [waits]
    · refine .inr (.inr ⟨s', n, fails, Int.le_of_lt neg, ?_⟩)
      rw [fails]
      dsimp only
      rw [if_pos neg, if_neg (by decide)]

/-! ### Whole calls -/

variable {others : List (σ → σ)}

/-- Once a call waits, another party has acted by the time it returns. -/
theorem proceed_waiting {p : Option (σ × Progress S β)} {s' : σ} {out : Outcome β}
    {left : List (σ → σ)} (runs : proceed len op again others p = some (s', out, left)) :
    left.length ≤ others.length ∧
      ((∃ t rest total moved, p = some (t, .waiting rest total moved)) →
        left.length < others.length ∨ out = .waiting) := by
  induction others generalizing p with
  | nil =>
    rcases p with - | ⟨t, ⟨value, moved, counted⟩ | ⟨rest, total, moved⟩⟩
    · cases runs
    · obtain ⟨-, -, rfl⟩ : t = s' ∧ Outcome.returned value moved counted = out ∧ [] = left := by
        simpa [proceed] using runs
      refine ⟨Nat.le_refl _, ?_⟩
      rintro ⟨t', rest', total', moved', same⟩
      cases same
    · obtain ⟨-, rfl, rfl⟩ : t = s' ∧ Outcome.waiting = out ∧ [] = left := by
        simpa [proceed] using runs
      exact ⟨Nat.le_refl _, fun _ => .inr rfl⟩
  | cons act others ih =>
    rcases p with - | ⟨t, ⟨value, moved, counted⟩ | ⟨rest, total, moved⟩⟩
    · cases runs
    · obtain ⟨-, -, rfl⟩ : t = s' ∧ Outcome.returned value moved counted = out ∧
          act :: others = left := by
        simpa [proceed] using runs
      refine ⟨Nat.le_refl _, ?_⟩
      rintro ⟨t', rest', total', moved', same⟩
      cases same
    · obtain ⟨le, -⟩ := ih runs
      exact ⟨Nat.le_succ_of_le le, fun _ => .inl (Nat.lt_succ_of_le le)⟩

theorem proceed_returned (value : Int) (counted : Nat) :
    proceed len op again others (some (s, .returned value moved counted)) =
      some (s, .returned value moved counted, others) := by
  cases others with
  | nil => rfl
  | cons act others => rfl

/-- Where the call meets elements, the two agree unless the stream runs dry. -/
theorem Law.call_moves (law : Law Inv len unit join op again avail ended) (inv : Inv s)
    (there : 0 < avail s) (some_ : 0 < (segs.map len).sum) :
    call len op again others s segs = call len op again others s [segs.foldr join unit] ↔
      ¬Dry len avail ended s segs := by
  have long : 0 < len (segs.foldr join unit) := by
    rw [law.length_joined]
    exact some_
  obtain ⟨s₁, xs, runs, length, -⟩ := law.moves inv there long
  unfold call
  rw [loop_single runs (Int.natCast_nonneg _), proceed_returned]
  constructor
  · intro same dry
    rcases law.loop_dry inv dry 0 [] (Int.le_refl 0) with
      none_ | ⟨s', rest, total', moved', waits⟩ | ⟨s', value, moved', returns⟩
    · rw [none_] at same
      cases others with
      | nil => cases same
      | cons act others => cases same
    · rcases (proceed_waiting same).2 ⟨s', rest, total', moved', waits⟩ with less | never
      · exact Nat.lt_irrefl _ less
      · cases never
    · rw [returns, proceed_returned] at same
      injection same with same
      injection same with _ same
      injection same with same _
      injection same with _ _ counted
      have none_ : xs.length = 0 := by
        rw [Int.toNat_natCast] at counted
        exact counted.symm
      omega
  · intro wet
    obtain ⟨s', ys, runs', loops⟩ := law.loop_moves inv there some_ 0 [] wet (Int.le_refl 0)
    rw [runs] at runs'
    injection runs' with same
    injection same with first second
    injection second with second
    injection second with _ third
    subst first third
    rw [loops, proceed_returned, Int.zero_add, List.nil_append]

/-- The operation waits, and the loop with it, or the two calls are decided here. -/
theorem Law.call_cases (law : Law Inv len unit join op again avail ended) (inv : Inv s)
    (others : List (σ → σ)) (segs : List S) :
    ((call len op again others s segs = call len op again others s [segs.foldr join unit] ↔
        ¬Dry len avail ended s segs) ∧
      ∀ s', op s (segs.foldr join unit) ≠ some (s', none)) ∨
    (¬Dry len avail ended s segs ∧ ∃ s' zeros a rest, op s (segs.foldr join unit) = some (s', none) ∧
      Inv s' ∧ segs = zeros ++ a :: rest ∧ (zeros.map len).sum = 0 ∧ 0 < len a ∧
      loop len op op s segs 0 [] = some (s', .waiting (a :: rest) 0 [])) := by
  have length := law.length_joined segs
  by_cases empty : (segs.map len).sum = 0
  · have runs := law.empty inv (length.trans empty)
    refine .inl ⟨iff_of_true ?_ ?_, fun s' waits => ?_⟩
    · unfold call
      rw [law.loop_empty inv empty, loop_single runs (Int.le_refl 0)]
    · rintro ⟨-, -, front, back, rfl, -, more⟩
      rw [List.map_append, List.sum_append] at empty
      omega
    · rw [runs] at waits
      cases waits
  have some_ := Nat.pos_of_ne_zero empty
  by_cases idle : avail s = 0
  · have wet : ¬Dry len avail ended s segs := fun dry => absurd idle (Nat.ne_of_gt dry.1)
    rcases law.loop_idle inv idle some_ with
      ⟨none_, loops⟩ | ⟨s', zeros, a, rest, waits, inv', same, sum, pos, loops⟩ |
      ⟨s', n, runs, neg, loops⟩
    · refine .inl ⟨iff_of_true ?_ wet, fun s' waits => ?_⟩
      · unfold call
        rw [loops, loop_cons, none_]
      · rw [none_] at waits
        cases waits
    · exact .inr ⟨wet, s', zeros, a, rest, waits, inv', same, sum, pos, loops⟩
    · refine .inl ⟨iff_of_true ?_ wet, fun t waits => ?_⟩
      · unfold call
        rw [loops]
        by_cases zero : n = 0
        · subst zero
          rw [loop_single runs (Int.le_refl 0)]
          rfl
        · rw [loop_cons, runs]
          dsimp only
          rw [if_pos (by omega), if_neg (by decide)]
      · rw [runs] at waits
        cases waits
  · have there := Nat.pos_of_ne_zero idle
    refine .inl ⟨law.call_moves inv there some_, fun s' waits => ?_⟩
    obtain ⟨t, xs, runs, -⟩ := law.moves inv there (length ▸ some_)
    rw [runs] at waits
    cases waits

/-- **One call.** A call on a vector is the call on one segment as long, just where the stream does
not run dry behind some of the segments. -/
theorem Law.call_eq_iff (law : Law Inv len unit join op again avail ended)
    (keeps : ∀ act ∈ others, ∀ s, Inv s → Inv (act s)) (inv : Inv s) (segs : List S) :
    call len op again others s segs = call len op again others s [segs.foldr join unit] ↔
      ¬RunsDry len unit join op avail ended others s segs := by
  induction others generalizing s segs with
  | nil =>
    rcases law.call_cases inv [] segs with
      ⟨decided, -⟩ | ⟨wet, s', zeros, a, rest, waits, -, -, -, -, loops⟩
    · exact decided
    · refine iff_of_true ?_ wet
      unfold call
      rw [loops, loop_cons, waits]
      rfl
  | cons act others ih =>
    unfold RunsDry
    rcases law.call_cases inv (act :: others) segs with
      ⟨decided, never⟩ | ⟨wet, s', zeros, a, rest, waits, inv', rfl, sum, pos, loops⟩
    · rw [decided]
      refine not_congr ⟨.inl, ?_⟩
      rintro (dry | ⟨s', waits, -⟩)
      · exact dry
      · exact absurd waits (never s')
    · have next := keeps act List.mem_cons_self s' inv'
      have long : 0 < len ((a :: rest).foldr join unit) := by
        rw [List.foldr_cons, law.length_join]
        omega
      have tail := ih (fun f mem => keeps f (List.mem_cons_of_mem _ mem)) next (a :: rest)
      rw [law.joined_zeros sum] at waits ⊢
      -- both go on as calls of their own
      have vector : call len op again (act :: others) s (zeros ++ a :: rest) =
          call len op again others (act s') (a :: rest) := by
        unfold call
        rw [loops, proceed, law.loop_again next pos]
      have single : call len op again (act :: others) s [(a :: rest).foldr join unit] =
          call len op again others (act s') [(a :: rest).foldr join unit] := by
        unfold call
        rw [loop_cons, waits]
        dsimp only
        rw [proceed, law.loop_again next long]
      rw [vector, single, tail]
      refine not_congr ⟨fun dry => .inr ⟨s', waits, (runsDry_zeros law sum others).mpr dry⟩, ?_⟩
      rintro (dry | ⟨t, waits', dry⟩)
      · exact absurd dry wet
      · obtain rfl : s' = t := by
          have same := waits.symm.trans waits'
          injection same with same
          exact (Prod.mk.inj same).1
        exact (runsDry_zeros law sum others).mp dry

end Segments

/-- An operation that fails has moved nothing. -/
def Fails (op : σ → S → Result σ β) : Prop :=
  ∀ s a s' n xs, op s a = some (s', some (n, xs)) → n < 0 → xs = []

section One

variable {len : S → Nat} {op again first : σ → S → Result σ β}

theorem loop_one (fails : Fails first) (s : σ) (a : S) :
    loop len op first s [a] 0 [] =
      match first s a with
      | none => none
      | some (s, none) => some (s, .waiting [a] 0 [])
      | some (s, some (n, xs)) => some (s, .returned n xs (if n > 0 then n.toNat else 0)) := by
  unfold loop
  rcases runs : first s a with - | ⟨t, - | ⟨n, xs⟩⟩
  · rfl
  · rfl
  · dsimp only
    by_cases neg : n < 0
    · rw [if_pos neg, if_neg (by decide), fails _ _ _ _ _ runs neg, if_neg (by omega)]
    · have counted : n.toNat = if n > 0 then n.toNat else 0 := by
        split
        · rfl
        · omega
      rw [if_neg neg, Int.zero_add, List.nil_append, ← counted]
      split
      · rfl
      · rfl

/-- A call on one segment is a call on a vector of one. -/
theorem proceedOne_eq (fails : Fails first) (fails_again : Fails again) (others : List (σ → σ))
    (s : σ) (a : S) : proceedOne (again · a) others (first s a) =
      proceed len op again others (loop len op first s [a] 0 []) := by
  induction others generalizing first s with
  | nil =>
    rw [loop_one fails]
    rcases first s a with - | ⟨t, - | ⟨n, xs⟩⟩
    · rfl
    · rfl
    · rfl
  | cons act others ih =>
    rw [loop_one fails]
    rcases first s a with - | ⟨t, - | ⟨n, xs⟩⟩
    · rfl
    · exact ih fails_again (act t)
    · rfl

theorem callOne_eq (fails : Fails op) (fails_again : Fails again) (others : List (σ → σ)) (s : σ)
    (a : S) : callOne op again others s a = call len op again others s [a] :=
  proceedOne_eq fails fails_again others s a

/-- An operation that is refused whatever the segment is refused for a vector with a segment. -/
theorem call_refused {s : σ} {n : Int} (neg : n < 0) (refused : ∀ a, op s a = some (s, some (n, [])))
    (others : List (σ → σ)) (segs : List S) (a : S) :
    call len op again others s segs = callOne op again others s a ↔ segs ≠ [] := by
  have one : callOne op again others s a = some (s, .returned n [] 0, others) := by
    unfold callOne
    rw [refused]
    have zero : (if n > 0 then n.toNat else 0) = 0 := if_neg (by omega)
    cases others with
    | nil => rw [proceedOne, zero]
    | cons act others => rw [proceedOne, zero]
  rw [one]
  unfold call
  cases segs with
  | nil =>
    rw [loop, proceed_returned]
    refine iff_of_false (fun same => ?_) (fun ne => ne rfl)
    injection same with same
    injection same with _ same
    injection same with same _
    injection same with value
    omega
  | cons b rest =>
    refine iff_of_true ?_ (List.cons_ne_nil b rest)
    rw [loop_cons, refused]
    dsimp only
    rw [if_pos neg, if_neg (by decide), proceed_returned]

end One

end AtmKoala.Lib.Vectored
