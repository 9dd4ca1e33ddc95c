/-
  Andri.Lib.Decimal

  Numbers written with a fixed count of decimals: the nearest such number, and at a tie
  the one that ends in an even digit.  What is written reads back as that number, which
  is off by at most half a unit of the last decimal.

  A text of words and numbers is read back number by number, if its words hold neither
  digits nor points and no two numbers touch.
-/
import Andri.Lib.Literal
import Mathlib.Tactic.FieldSimp
import Mathlib.Tactic.Linarith

namespace Andri.Lib

/-! ## Rounding -/

/-- The nearest natural number, the even one of two. -/
def roundEven (q : ℚ) : ℕ :=
  if q - ⌊q⌋₊ < 1 / 2 ∨ (q - ⌊q⌋₊ = 1 / 2 ∧ ⌊q⌋₊ % 2 = 0) then ⌊q⌋₊ else ⌊q⌋₊ + 1

/-- The nearest number of `d` decimals. -/
def rounded (d : ℕ) (q : ℚ) : ℚ := roundEven (q * 10 ^ d) / 10 ^ d

section Round

variable {q : ℚ}

@[simp] theorem roundEven_natCast (n : ℕ) : roundEven n = n := by
  simp [roundEven]

theorem abs_roundEven_sub_le (h : 0 ≤ q) : |(roundEven q : ℚ) - q| ≤ 1 / 2 := by
  have hfloor : (⌊q⌋₊ : ℚ) ≤ q := Nat.floor_le h
  have hlt : q < ⌊q⌋₊ + 1 := Nat.lt_floor_add_one q
  rw [abs_le, roundEven]
  split
  · next hdown =>
      have hhalf : q - ⌊q⌋₊ ≤ 1 / 2 := by
        rcases hdown with hless | ⟨htie, -⟩
        · exact hless.le
        · exact htie.le
      constructor <;> linarith
  · next hup =>
      have hhalf : 1 / 2 ≤ q - ⌊q⌋₊ := by
        by_contra hless
        exact hup (.inl (not_le.mp hless))
      push_cast
      constructor <;> linarith

/-- It is the only whole number so near. -/
theorem roundEven_eq_of_abs_lt {n : ℕ} (h : 0 ≤ q) (hn : |q - n| < 1 / 2) : roundEven q = n := by
  have hround := abs_roundEven_sub_le h
  have hlt : |(roundEven q : ℚ) - n| < 1 := by
    calc |(roundEven q : ℚ) - n| = |(roundEven q : ℚ) - q + (q - n)| := by
          rw [sub_add_sub_cancel]
      _ ≤ |(roundEven q : ℚ) - q| + |q - n| := abs_add_le _ _
      _ < 1 := by linarith
  have hcast : |(roundEven q : ℤ) - n| < 1 := by exact_mod_cast hlt
  rw [Int.abs_lt_one_iff] at hcast
  omega

theorem rounded_natCast (d n : ℕ) : rounded d n = n := by
  have hcast : (n : ℚ) * 10 ^ d = ((n * 10 ^ d : ℕ) : ℚ) := by push_cast; rfl
  rw [rounded, hcast, roundEven_natCast]
  push_cast
  field_simp

theorem abs_rounded_sub_le (d : ℕ) (h : 0 ≤ q) : |rounded d q - q| ≤ 1 / (2 * 10 ^ d) := by
  have hpos : (0 : ℚ) < 10 ^ d := by positivity
  have hround := abs_roundEven_sub_le (mul_nonneg h hpos.le)
  have hdiff : rounded d q - q = ((roundEven (q * 10 ^ d) : ℚ) - q * 10 ^ d) / 10 ^ d := by
    rw [rounded]
    field_simp
  calc |rounded d q - q| = |(roundEven (q * 10 ^ d) : ℚ) - q * 10 ^ d| / 10 ^ d := by
        rw [hdiff, abs_div, abs_of_pos hpos]
    _ ≤ 1 / 2 / 10 ^ d := div_le_div_of_nonneg_right hround hpos.le
    _ = 1 / (2 * 10 ^ d) := div_div 1 2 _

end Round

/-! ## Writing a number -/

/-- `n` in decimal. -/
def digits (n : ℕ) : List Char := Nat.toDigits 10 n

/-- `n` in decimal, behind zeros up to `width` digits. -/
def paddedDigits (width n : ℕ) : List Char :=
  List.replicate (width - (digits n).length) '0' ++ digits n

/-- A number that is not negative with `d` decimals. -/
def fixed (d : ℕ) (q : ℚ) : List Char :=
  let m := roundEven (q * 10 ^ d)
  if d = 0 then digits m else digits (m / 10 ^ d) ++ '.' :: paddedDigits d (m % 10 ^ d)

theorem isDigit_of_mem_digits {n : ℕ} : ∀ c ∈ digits n, c.isDigit = true := fun _ hc =>
  Nat.isDigit_of_mem_toDigits (by decide) le_rfl hc

theorem digits_ne_nil (n : ℕ) : digits n ≠ [] := List.length_pos_iff.mp Nat.length_toDigits_pos

theorem isDigit_of_mem_paddedDigits {width n : ℕ} :
    ∀ c ∈ paddedDigits width n, c.isDigit = true := by
  rw [paddedDigits, List.forall_mem_append]
  refine ⟨fun c hc => ?_, isDigit_of_mem_digits⟩
  rw [List.eq_of_mem_replicate hc]
  decide

theorem length_paddedDigits {width n : ℕ} (hpos : 0 < width) (h : n < 10 ^ width) :
    (paddedDigits width n).length = width := by
  have hle : (digits n).length ≤ width := (Nat.length_toDigits_le_iff (by decide) hpos).mpr h
  rw [paddedDigits, List.length_append, List.length_replicate]
  omega

theorem digitsValue_eq (ds : List Char) : digitsValue ds = Nat.ofDigitChars 10 ds 0 := rfl

theorem digitsValue_digits (n : ℕ) : digitsValue (digits n) = n := by
  rw [digitsValue_eq, digits, Nat.ofDigitChars_toDigits (by decide) le_rfl]

theorem digitsValue_append (ds es : List Char) :
    digitsValue (ds ++ es) = 10 ^ es.length * digitsValue ds + digitsValue es := by
  rw [digitsValue_eq, Nat.ofDigitChars_append, Nat.ofDigitChars_eq_ofDigitChars_zero]
  rfl

theorem digitsValue_paddedDigits (width n : ℕ) : digitsValue (paddedDigits width n) = n := by
  rw [paddedDigits, digitsValue_append, digitsValue_digits, digitsValue_eq,
    Nat.ofDigitChars_replicate_zero, Nat.mul_zero, Nat.mul_zero, Nat.zero_add]

/-- What is written is a literal of the number written. -/
theorem literal_fixed (d : ℕ) (q : ℚ) : Literal (fixed d q) (.fin (rounded d q)) := by
  have hmantissa : Mantissa (fixed d q) (rounded d q) := by
    rw [fixed, rounded]
    generalize roundEven (q * 10 ^ d) = m
    by_cases hd : d = 0
    · have hwhole := Mantissa.whole (digits_ne_nil m) isDigit_of_mem_digits
      rw [digitsValue_digits] at hwhole
      simpa [hd] using hwhole
    · have hlen : (paddedDigits d (m % 10 ^ d)).length = d :=
        length_paddedDigits (by omega) (Nat.mod_lt _ (by positivity))
      have hpoint : Mantissa (digits (m / 10 ^ d) ++ '.' :: paddedDigits d (m % 10 ^ d)) _ :=
        .point (.inl (digits_ne_nil _)) isDigit_of_mem_digits isDigit_of_mem_paddedDigits
      rw [digitsValue_append, digitsValue_digits, digitsValue_paddedDigits, hlen,
        Nat.div_add_mod] at hpoint
      simpa only [if_neg hd] using hpoint
  have hnumber := Literal.number .none hmantissa .none
  simpa [signed] using hnumber

/-! ## Texts -/

/-- A word, or a number with its decimals, in at least `width` places. -/
inductive Piece
  | word (w : String)
  | number (width d : ℕ) (q : ℚ)

def Piece.chars : Piece → List Char
  | .word w => w.toList
  | .number width d q => List.replicate (width - (fixed d q).length) ' ' ++ fixed d q

/-- The number written. -/
def Piece.value : Piece → Option ExtRat
  | .word _ => none
  | .number _ d q => some (.fin (rounded d q))

/-- A text of words and numbers. -/
def text (ps : List Piece) : String := String.ofList (ps.flatMap Piece.chars)

/-- A digit or a point. -/
def isFigure (c : Char) : Bool := c.isDigit || c == '.'

/-- A run of figures, if there are any. -/
def figureRun (run : List Char) : List (List Char) := if run = [] then [] else [run]

/-- The longest runs of figures, `run` being the one under way. -/
def figuresFrom : List Char → List Char → List (List Char)
  | run, [] => figureRun run
  | run, c :: cs =>
      if isFigure c then figuresFrom (run ++ [c]) cs else figureRun run ++ figuresFrom [] cs

/-- The numbers in a text. -/
def numbers (s : String) : List (Option ExtRat) := (figuresFrom [] s.toList).map readLiteral

/-- Begins with a word, if with anything. -/
def wordFirst : List Piece → Bool
  | [] => true
  | .word w :: _ => !w.isEmpty
  | .number _ _ _ :: _ => false

/-- Words without figures, and a word behind every number. -/
def Readable : List Piece → Bool
  | [] => true
  | .word w :: ps => w.toList.all (fun c => !isFigure c) && Readable ps
  | .number _ _ _ :: ps => wordFirst ps && Readable ps

/-! ## Texts read back -/

section Read

variable {run fs ws cs : List Char}

theorem figuresFrom_word (h : ∀ c ∈ ws, isFigure c = false) :
    figuresFrom [] (ws ++ cs) = figuresFrom [] cs := by
  induction ws with
  | nil => rfl
  | cons c ws ih =>
      have hc := h c List.mem_cons_self
      rw [List.cons_append, figuresFrom, hc, if_neg Bool.false_ne_true]
      exact ih fun x hx => h x (List.mem_cons_of_mem c hx)

theorem figuresFrom_run (h : ∀ c ∈ fs, isFigure c = true) :
    figuresFrom run (fs ++ cs) = figuresFrom (run ++ fs) cs := by
  induction fs generalizing run with
  | nil => rw [List.nil_append, List.append_nil]
  | cons c fs ih =>
      have hc := h c List.mem_cons_self
      have htail : figuresFrom (run ++ [c]) (fs ++ cs) = figuresFrom (run ++ [c] ++ fs) cs :=
        ih fun x hx => h x (List.mem_cons_of_mem c hx)
      rw [List.cons_append, figuresFrom, hc, if_pos rfl, htail, List.append_assoc,
        List.singleton_append]

/-- A run ends where no figure follows. -/
theorem figuresFrom_break (h : ∀ c ∈ cs.head?, isFigure c = false) :
    figuresFrom run cs = figureRun run ++ figuresFrom [] cs := by
  cases cs with
  | nil => exact (List.append_nil _).symm
  | cons c cs =>
      have hc := h c rfl
      rw [figuresFrom, figuresFrom, hc, if_neg Bool.false_ne_true, if_neg Bool.false_ne_true]
      rfl

theorem isFigure_of_mem_fixed {d : ℕ} {q : ℚ} : ∀ c ∈ fixed d q, isFigure c = true := by
  have hdigit : ∀ c : Char, c.isDigit = true → isFigure c = true := fun c hc => by
    rw [isFigure, hc, Bool.true_or]
  have hdigits : ∀ n, ∀ c ∈ digits n, isFigure c = true := fun n c hc =>
    hdigit c (isDigit_of_mem_digits c hc)
  rw [fixed]
  split
  · exact hdigits _
  · rw [List.forall_mem_append, List.forall_mem_cons]
    exact ⟨hdigits _, rfl, fun c hc => hdigit c (isDigit_of_mem_paddedDigits c hc)⟩

theorem fixed_ne_nil (d : ℕ) (q : ℚ) : fixed d q ≠ [] := by
  rw [fixed]
  split
  · exact digits_ne_nil _
  · exact List.append_ne_nil_of_right_ne_nil _ (List.cons_ne_nil _ _)

theorem readable_word {w : String} {ps : List Piece}
    (hw : w.toList.all (fun c => !isFigure c) = true) (h : Readable ps = true) :
    Readable (.word w :: ps) = true := by
  rw [Readable, hw, h, Bool.true_and]

theorem readable_number {width d : ℕ} {q : ℚ} {ps : List Piece} (hw : wordFirst ps = true)
    (h : Readable ps = true) : Readable (.number width d q :: ps) = true := by
  rw [Readable, hw, h, Bool.true_and]

/-- No number begins a readable text that begins with a word. -/
theorem head_of_wordFirst {ps : List Piece} (h : Readable ps = true) (hw : wordFirst ps = true) :
    ∀ c ∈ (ps.flatMap Piece.chars).head?, isFigure c = false := by
  cases ps with
  | nil => exact fun c hc => absurd hc (by simp)
  | cons piece ps =>
      cases piece with
      | number width d q => exact absurd hw Bool.false_ne_true
      | word w =>
          rw [Readable, Bool.and_eq_true, List.all_eq_true] at h
          have hne : w.toList ≠ [] := by simpa [wordFirst] using hw
          obtain ⟨c, cs, hcs⟩ := List.exists_cons_of_ne_nil hne
          intro x hx
          rw [List.flatMap_cons, Piece.chars, hcs, List.cons_append, List.head?_cons] at hx
          cases hx
          have hc := h.1 c (hcs ▸ List.mem_cons_self)
          simpa using hc

/-- The numbers of a readable text are those written. -/
theorem numbers_text {ps : List Piece} (h : Readable ps = true) :
    numbers (text ps) = (ps.filterMap Piece.value).map some := by
  rw [numbers, text, String.toList_ofList]
  induction ps with
  | nil => rfl
  | cons piece ps ih =>
      cases piece with
      | word w =>
          rw [Readable, Bool.and_eq_true, List.all_eq_true] at h
          have hword : ∀ c ∈ w.toList, isFigure c = false := fun c hc => by simpa using h.1 c hc
          rw [List.flatMap_cons, Piece.chars, figuresFrom_word hword, ih h.2]
          rfl
      | number width d q =>
          rw [Readable, Bool.and_eq_true] at h
          have hblank : ∀ c ∈ List.replicate (width - (fixed d q).length) ' ',
              isFigure c = false := by
            intro c hc
            rw [List.eq_of_mem_replicate hc]
            decide
          have hlast := head_of_wordFirst h.2 h.1
          rw [List.flatMap_cons, Piece.chars, List.append_assoc, figuresFrom_word hblank,
            figuresFrom_run isFigure_of_mem_fixed, figuresFrom_break hlast, List.nil_append,
            figureRun, if_neg (fixed_ne_nil d q), List.map_append, ih h.2, List.map_singleton,
            readLiteral_literal (literal_fixed d q)]
          rfl

end Read

end Andri.Lib
