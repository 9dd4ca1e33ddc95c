/-
  Andri.Lib.Literal

  Decimal floating-point literals and what they denote: rationals extended with
  infinities and a NaN.  `Literal` is the grammar

    Float  ::= Sign? ( 'inf' | 'infinity' | 'nan' | Number )
    Number ::= ( Digit+ | Digit+ '.' Digit* | Digit* '.' Digit+ ) Exp?
    Exp    ::= 'e' Sign? Digit+

  over lower-case characters, with the value of each literal.  `readLiteral` is a
  reader for it, which accepts every literal with its value and nothing else.
-/
import Mathlib.Algebra.Order.Floor.Semifield
import Mathlib.Data.List.TakeWhile
import Mathlib.Data.Rat.Floor

namespace Andri.Lib

/-! ## Extended rationals -/

/-- A rational, an infinity (negative or not) or no number. -/
inductive ExtRat
  | fin (q : ℚ)
  | inf (neg : Bool)
  | nan
deriving DecidableEq

namespace ExtRat

/-- `x < 0.0`; false of a NaN. -/
def isNeg : ExtRat → Bool
  | fin q => decide (q < 0)
  | inf neg => neg
  | nan => false

/-- `x * m`, for a finite `m`. -/
def scale (m : ℚ) : ExtRat → ExtRat
  | fin q => fin (q * m)
  | inf neg => if m = 0 then nan else inf (neg != decide (m < 0))
  | nan => nan

/-- The cast to an unsigned word: it drops the fraction, saturates, and maps a NaN to 0. -/
def toWord (w : ℕ) : ExtRat → BitVec w
  | fin q => BitVec.ofNat w (min ⌊q⌋₊ (2 ^ w - 1))
  | inf neg => if neg then 0 else BitVec.allOnes w
  | nan => 0

/-- A value that fits is cast to its floor. -/
theorem toNat_toWord_fin {w : ℕ} {q : ℚ} (h : q < 2 ^ w) : (toWord w (fin q)).toNat = ⌊q⌋₊ := by
  have hfloor : ⌊q⌋₊ < 2 ^ w := by
    rw [Nat.floor_lt' (Nat.two_pow_pos w).ne']
    exact_mod_cast h
  rw [toWord, BitVec.toNat_ofNat, Nat.min_eq_left (Nat.le_sub_one_of_lt hfloor),
    Nat.mod_eq_of_lt hfloor]

end ExtRat

/-! ## The grammar -/

/-- A negative or positive value. -/
def signed {α : Type*} [Neg α] (neg : Bool) (x : α) : α := if neg then -x else x

/-- The number that decimal digits denote. -/
def digitsValue (ds : List Char) : ℕ := ds.foldl (fun n c => 10 * n + (c.toNat - '0'.toNat)) 0

/-- `Sign?`, and whether it negates. -/
inductive Sign : List Char → Bool → Prop
  | none : Sign [] false
  | plus : Sign ['+'] false
  | minus : Sign ['-'] true

/-- `Digit+ | Digit+ '.' Digit* | Digit* '.' Digit+`, and its value. -/
inductive Mantissa : List Char → ℚ → Prop
  | whole {ds : List Char} (hne : ds ≠ []) (hds : ∀ c ∈ ds, c.isDigit = true) :
      Mantissa ds (digitsValue ds)
  | point {is fs : List Char} (hne : is ≠ [] ∨ fs ≠ []) (his : ∀ c ∈ is, c.isDigit = true)
      (hfs : ∀ c ∈ fs, c.isDigit = true) :
      Mantissa (is ++ '.' :: fs) (digitsValue (is ++ fs) / 10 ^ fs.length)

/-- `Exp?`, and the exponent. -/
inductive Exponent : List Char → ℤ → Prop
  | none : Exponent [] 0
  | exp {sg ds : List Char} {neg : Bool} (hsg : Sign sg neg) (hne : ds ≠ [])
      (hds : ∀ c ∈ ds, c.isDigit = true) :
      Exponent ('e' :: (sg ++ ds)) (signed neg (digitsValue ds : ℤ))

/-- `Float`, and its value. -/
inductive Literal : List Char → ExtRat → Prop
  | inf {sg : List Char} {neg : Bool} (hsg : Sign sg neg) :
      Literal (sg ++ ['i', 'n', 'f']) (.inf neg)
  | infinity {sg : List Char} {neg : Bool} (hsg : Sign sg neg) :
      Literal (sg ++ ['i', 'n', 'f', 'i', 'n', 'i', 't', 'y']) (.inf neg)
  | nan {sg : List Char} {neg : Bool} (hsg : Sign sg neg) : Literal (sg ++ ['n', 'a', 'n']) .nan
  | number {sg ms es : List Char} {neg : Bool} {q : ℚ} {e : ℤ} (hsg : Sign sg neg)
      (hms : Mantissa ms q) (hes : Exponent es e) :
      Literal (sg ++ (ms ++ es)) (.fin (signed neg q * 10 ^ e))

/-! ## The reader -/

/-- The sign, if there is one, and what follows it. -/
def readSign : List Char → Bool × List Char
  | '-' :: cs => (true, cs)
  | '+' :: cs => (false, cs)
  | cs => (false, cs)

/-- The digits in front, and what follows them. -/
def readDigits (cs : List Char) : List Char × List Char :=
  (cs.takeWhile Char.isDigit, cs.dropWhile Char.isDigit)

/-- The mantissa in front, and what follows it. -/
def readMantissa (cs : List Char) : Option (ℚ × List Char) :=
  let (is, rest) := readDigits cs
  match rest with
  | '.' :: rest =>
      let (fs, rest) := readDigits rest
      if is = [] ∧ fs = [] then none else some (digitsValue (is ++ fs) / 10 ^ fs.length, rest)
  | rest => if is = [] then none else some (digitsValue is, rest)

/-- The exponent that is all that is left. -/
def readExponent : List Char → Option ℤ
  | [] => some 0
  | 'e' :: cs =>
      let (neg, ds) := readSign cs
      if ds ≠ [] ∧ ds.all Char.isDigit = true then some (signed neg (digitsValue ds : ℤ)) else none
  | _ => none

/-- The literal. -/
def readLiteral (cs : List Char) : Option ExtRat :=
  let (neg, body) := readSign cs
  if body = ['i', 'n', 'f'] ∨ body = ['i', 'n', 'f', 'i', 'n', 'i', 't', 'y'] then some (.inf neg)
  else if body = ['n', 'a', 'n'] then some .nan
  else do
    let (q, rest) ← readMantissa body
    let e ← readExponent rest
    some (.fin (signed neg q * 10 ^ e))

/-! ## What is read is a literal -/

variable {cs body rest : List Char} {neg : Bool} {q : ℚ} {e : ℤ} {v : ExtRat}

theorem exists_sign (cs : List Char) :
    ∃ sg, Sign sg (readSign cs).1 ∧ cs = sg ++ (readSign cs).2 := by
  unfold readSign
  split
  · exact ⟨['-'], .minus, rfl⟩
  · exact ⟨['+'], .plus, rfl⟩
  · exact ⟨[], .none, rfl⟩

theorem isDigit_of_mem_readDigits (cs : List Char) : ∀ c ∈ (readDigits cs).1, c.isDigit = true :=
  fun _ hc => List.mem_takeWhile_imp hc

theorem readDigits_append (cs : List Char) : (readDigits cs).1 ++ (readDigits cs).2 = cs :=
  List.takeWhile_append_dropWhile

theorem mantissa_of_readMantissa (h : readMantissa cs = some (q, rest)) :
    ∃ ms, Mantissa ms q ∧ cs = ms ++ rest := by
  have hcs := readDigits_append cs
  have hdigits := isDigit_of_mem_readDigits cs
  unfold readMantissa at h
  generalize readDigits cs = split at h hcs hdigits
  obtain ⟨is, behind⟩ := split
  simp only at h hcs hdigits
  split at h
  · next after =>
      -- a point, and the digits behind it
      have hfs := isDigit_of_mem_readDigits after
      have hafter := readDigits_append after
      generalize readDigits after = split at h hfs hafter
      obtain ⟨fs, last⟩ := split
      simp only at h hfs hafter
      split at h
      · cases h
      · next hne =>
          cases h
          refine ⟨is ++ '.' :: fs, .point (not_and_or.mp hne) hdigits hfs, ?_⟩
          rw [← hcs, ← hafter, List.append_assoc, List.cons_append]
  · split at h
    · cases h
    · next hne =>
        cases h
        exact ⟨is, .whole hne hdigits, hcs.symm⟩

theorem exponent_of_readExponent (h : readExponent cs = some e) : Exponent cs e := by
  unfold readExponent at h
  split at h
  · cases h
    exact .none
  · next cs =>
      have hsign := exists_sign cs
      generalize readSign cs = read at h hsign
      obtain ⟨neg, ds⟩ := read
      obtain ⟨sg, hsg, rfl⟩ := hsign
      simp only at h
      split at h
      · next hds =>
          cases h
          exact .exp hsg hds.1 (List.all_eq_true.mp hds.2)
      · cases h
  · cases h

theorem literal_of_readLiteral (h : readLiteral cs = some v) : Literal cs v := by
  unfold readLiteral at h
  have hsign := exists_sign cs
  generalize readSign cs = read at h hsign
  obtain ⟨neg, body⟩ := read
  obtain ⟨sg, hsg, rfl⟩ := hsign
  simp only at h hsg
  split at h
  · next hinf =>
      cases h
      rcases hinf with rfl | rfl
      · exact .inf hsg
      · exact .infinity hsg
  · split at h
    · next hnan =>
        cases h
        subst hnan
        exact .nan hsg
    · obtain ⟨⟨q, rest⟩, hm, h⟩ := Option.bind_eq_some_iff.mp h
      obtain ⟨e, he, h⟩ := Option.bind_eq_some_iff.mp h
      cases h
      obtain ⟨ms, hms, rfl⟩ := mantissa_of_readMantissa hm
      exact .number hsg hms (exponent_of_readExponent he)

/-! ## Every literal is read -/

/-- Not a digit in front. -/
def NoDigit (cs : List Char) : Prop := ∀ c ∈ cs.head?, c.isDigit = false

theorem readDigits_digits {ds : List Char} (hds : ∀ c ∈ ds, c.isDigit = true)
    (hrest : NoDigit rest) : readDigits (ds ++ rest) = (ds, rest) := by
  rw [readDigits, List.takeWhile_append_of_pos hds, List.dropWhile_append_of_pos hds]
  cases rest with
  | nil => simp
  | cons c rest =>
      have hc : ¬ c.isDigit = true := by
        rw [hrest c rfl]
        exact Bool.false_ne_true
      rw [List.takeWhile_cons_of_neg hc, List.dropWhile_cons_of_neg hc, List.append_nil]

/-- A sign is read off what does not begin with one. -/
theorem readSign_sign {sg : List Char} {c : Char} (hsg : Sign sg neg) (hc : c ≠ '+' ∧ c ≠ '-') :
    readSign (sg ++ c :: cs) = (neg, c :: cs) := by
  cases hsg with
  | plus => rfl
  | minus => rfl
  | none =>
      rw [List.nil_append]
      unfold readSign
      split
      · next heq => exact absurd (List.cons.inj heq).1 hc.2
      · next heq => exact absurd (List.cons.inj heq).1 hc.1
      · rfl

theorem ne_sign_of_isDigit {c : Char} (h : c.isDigit = true) : c ≠ '+' ∧ c ≠ '-' := by
  constructor
  · rintro rfl
    exact absurd h (by decide)
  · rintro rfl
    exact absurd h (by decide)

/-- An exponent does not begin with a digit or a point. -/
theorem Exponent.noDigit {es : List Char} (h : Exponent es e) : NoDigit es := by
  cases h with
  | none => exact fun c hc => absurd hc (by simp)
  | exp hsg hne hds =>
      intro c hc
      cases hc
      decide

theorem readMantissa_mantissa {ms es : List Char} (hms : Mantissa ms q) (hes : Exponent es e) :
    readMantissa (ms ++ es) = some (q, es) := by
  cases hms with
  | whole hne hds =>
      rw [readMantissa, readDigits_digits hds hes.noDigit]
      cases hes with
      | none => simp [hne]
      | exp hsg hne' hds' => simp [hne]
  | @point is fs hne his hfs =>
      have hpoint : NoDigit ('.' :: (fs ++ es)) := by
        intro c hc
        cases hc
        decide
      have hboth : ¬ (is = [] ∧ fs = []) := not_and_or.mpr hne
      rw [List.append_assoc, List.cons_append, readMantissa, readDigits_digits his hpoint]
      simp only [readDigits_digits hfs hes.noDigit, if_neg hboth]

theorem readExponent_exponent {es : List Char} (h : Exponent es e) : readExponent es = some e := by
  cases h with
  | none => rfl
  | @exp sg ds neg hsg hne hds =>
      have hall : ds ≠ [] ∧ ds.all Char.isDigit = true := ⟨hne, List.all_eq_true.mpr hds⟩
      obtain ⟨c, cs, rfl⟩ := List.exists_cons_of_ne_nil hne
      have hc := ne_sign_of_isDigit (hds c List.mem_cons_self)
      simp only [readExponent, readSign_sign hsg hc, if_pos hall]

/-- A mantissa begins with a digit or the point. -/
theorem Mantissa.head {ms : List Char} (h : Mantissa ms q) (cs : List Char) :
    ∃ c ds, ms ++ cs = c :: ds ∧ (c.isDigit = true ∨ c = '.') := by
  cases h with
  | whole hne hds =>
      obtain ⟨c, ds, rfl⟩ := List.exists_cons_of_ne_nil hne
      exact ⟨c, ds ++ cs, rfl, .inl (hds c List.mem_cons_self)⟩
  | @point is fs hne his hfs =>
      cases is with
      | nil => exact ⟨'.', fs ++ cs, rfl, .inr rfl⟩
      | cons c is =>
          exact ⟨c, _, rfl, .inl (his c List.mem_cons_self)⟩

theorem readLiteral_literal (h : Literal cs v) : readLiteral cs = some v := by
  cases h with
  | @inf sg neg hsg =>
      have hread : readSign (sg ++ ['i', 'n', 'f']) = (neg, _) := readSign_sign hsg (by decide)
      simp [readLiteral, hread]
  | @infinity sg neg hsg =>
      have hread : readSign (sg ++ ['i', 'n', 'f', 'i', 'n', 'i', 't', 'y']) = (neg, _) :=
        readSign_sign hsg (by decide)
      simp [readLiteral, hread]
  | @nan sg neg hsg =>
      have hread : readSign (sg ++ ['n', 'a', 'n']) = (neg, _) := readSign_sign hsg (by decide)
      simp [readLiteral, hread]
  | @number sg ms es neg q e hsg hms hes =>
      obtain ⟨c, ds, hbody, hc⟩ := hms.head es
      -- which keeps it apart from a sign and from the words
      have hsign : c ≠ '+' ∧ c ≠ '-' := by
        rcases hc with hdigit | rfl
        · exact ne_sign_of_isDigit hdigit
        · decide
      have hword : c ≠ 'i' ∧ c ≠ 'n' := by
        rcases hc with hdigit | rfl
        · constructor
          · rintro rfl
            exact absurd hdigit (by decide)
          · rintro rfl
            exact absurd hdigit (by decide)
        · decide
      have hread : readSign (sg ++ (ms ++ es)) = (neg, ms ++ es) := by
        rw [hbody]
        exact readSign_sign hsg hsign
      have hinf : ¬ (ms ++ es = ['i', 'n', 'f'] ∨
          ms ++ es = ['i', 'n', 'f', 'i', 'n', 'i', 't', 'y']) := by
        rw [hbody]
        rintro (h | h)
        · exact hword.1 (List.cons.inj h).1
        · exact hword.1 (List.cons.inj h).1
      have hnan : ¬ ms ++ es = ['n', 'a', 'n'] := by
        rw [hbody]
        exact fun h => hword.2 (List.cons.inj h).1
      rw [readLiteral, hread]
      simp only [if_neg hinf, if_neg hnan, readMantissa_mantissa hms hes, Option.bind_eq_bind,
        Option.bind_some, readExponent_exponent hes]

/-- The reader accepts the grammar, with its values. -/
theorem readLiteral_eq_some_iff : readLiteral cs = some v ↔ Literal cs v :=
  ⟨literal_of_readLiteral, readLiteral_literal⟩

/-! ## The characters of a literal -/

/-- A character the grammar mentions. -/
def InLiteral (c : Char) : Prop :=
  c.isDigit = true ∨ c ∈ ['+', '-', '.', 'e', 'i', 'n', 'f', 'a', 't', 'y']

theorem Sign.inLiteral {sg : List Char} (h : Sign sg neg) : ∀ c ∈ sg, InLiteral c := by
  cases h with
  | none => exact List.forall_mem_nil _
  | plus => exact List.forall_mem_singleton.mpr (.inr (by decide))
  | minus => exact List.forall_mem_singleton.mpr (.inr (by decide))

theorem Mantissa.inLiteral {ms : List Char} (h : Mantissa ms q) : ∀ c ∈ ms, InLiteral c := by
  cases h with
  | whole hne hds => exact fun c hc => .inl (hds c hc)
  | point hne his hfs =>
      rw [List.forall_mem_append, List.forall_mem_cons]
      exact ⟨fun c hc => .inl (his c hc), .inr (by decide), fun c hc => .inl (hfs c hc)⟩

theorem Exponent.inLiteral {es : List Char} (h : Exponent es e) : ∀ c ∈ es, InLiteral c := by
  cases h with
  | none => exact List.forall_mem_nil _
  | exp hsg hne hds =>
      rw [List.forall_mem_cons, List.forall_mem_append]
      exact ⟨.inr (by decide), hsg.inLiteral, fun c hc => .inl (hds c hc)⟩

theorem Literal.inLiteral (h : Literal cs v) : ∀ c ∈ cs, InLiteral c := by
  have hword : ∀ w : List Char, w ⊆ ['+', '-', '.', 'e', 'i', 'n', 'f', 'a', 't', 'y'] →
      ∀ c ∈ w, InLiteral c := fun w hw c hc => .inr (hw hc)
  cases h with
  | inf hsg => exact List.forall_mem_append.mpr ⟨hsg.inLiteral, hword _ (by simp)⟩
  | infinity hsg => exact List.forall_mem_append.mpr ⟨hsg.inLiteral, hword _ (by simp)⟩
  | nan hsg => exact List.forall_mem_append.mpr ⟨hsg.inLiteral, hword _ (by simp)⟩
  | number hsg hms hes =>
      rw [List.forall_mem_append, List.forall_mem_append]
      exact ⟨hsg.inLiteral, hms.inLiteral, hes.inLiteral⟩

theorem Literal.ne_nil (h : Literal cs v) : cs ≠ [] := by
  cases h with
  | inf hsg | infinity hsg | nan hsg => simp
  | number hsg hms hes =>
      obtain ⟨c, ds, hbody, -⟩ := hms.head _
      rw [hbody]
      simp

/-- They are printable ASCII. -/
theorem InLiteral.bounds {c : Char} (h : InLiteral c) : 43 ≤ c.toNat ∧ c.toNat ≤ 121 := by
  rcases h with hdigit | hmem
  · have hzero : '0'.toNat = 48 := rfl
    have hnine : '9'.toNat = 57 := rfl
    rw [Char.isDigit_iff_toNat] at hdigit
    omega
  · simp only [List.mem_cons, List.not_mem_nil, or_false] at hmem
    rcases hmem with rfl | rfl | rfl | rfl | rfl | rfl | rfl | rfl | rfl | rfl <;> decide

end Andri.Lib
