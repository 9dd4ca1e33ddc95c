/-
  Andri.Client.Bitrate

  `parse_bitrate` of `src/cli.rs`: trim, split off an SI suffix, read the rest as an
  `f64` literal, refuse negatives, scale and cast to `u64`.  The `f64` values are
  exact.

  The cast saturates and sends a NaN to 0, and the only check before it is the one
  for negatives: a NaN, the positive infinity and a rate of `2 ^ 64` or more are
  coerced, and everything else is read for what it is or refused.
-/
import Andri.Lib.Literal
import Andri.Lib.Trim
import Andri.Lib.Words
import Mathlib.Tactic.NormNum

namespace Andri.Client

open Lib

/-! ## The parser -/

/-- `str::trim`. -/
def trim (s : List Char) : List Char := trimBy isWhitespace s

/-- `f64::from_str`, which does not tell the cases of letters apart. -/
def fromStr (s : List Char) : Option ExtRat := readLiteral (s.map Char.toLower)

/-- The number part and the multiplier: a suffix is the last character, one byte long. -/
def splitSuffix (s : List Char) : List Char × ℕ :=
  match s.getLast? with
  | some 'K' | some 'k' => (s.dropLast, 1000)
  | some 'M' | some 'm' => (s.dropLast, 1000000)
  | some 'G' | some 'g' => (s.dropLast, 1000000000)
  | _ => (s, 1)

/-- `parse_bitrate`; `debug` is the `Debug` formatting of strings. -/
def parseBitrate (debug : String → String) (s : String) : Except String U64 :=
  let s := trim s.toList
  let (num, mult) := splitSuffix s
  match fromStr (trim num) with
  | none => .error ("invalid bitrate: " ++ debug (String.ofList s))
  | some value =>
      if value.isNeg then .error ("bitrate must be non-negative: " ++ debug (String.ofList s))
      else .ok ((value.scale mult).toWord 64)

/-! ## What a string denotes -/

/-- An SI suffix and its multiplier. -/
inductive Suffix : Char → ℕ → Prop
  | kilo {c : Char} (h : c = 'K' ∨ c = 'k') : Suffix c 1000
  | mega {c : Char} (h : c = 'M' ∨ c = 'm') : Suffix c 1000000
  | giga {c : Char} (h : c = 'G' ∨ c = 'g') : Suffix c 1000000000

/-- The trimmed string is a literal of the value, by itself or with a suffix behind it,
    white space allowed between. -/
inductive Denotes : List Char → ExtRat → ℕ → Prop
  | bare {num : List Char} {v : ExtRat} (h : Literal (num.map Char.toLower) v) : Denotes num v 1
  | suffixed {num ws : List Char} {c : Char} {v : ExtRat} {m : ℕ}
      (h : Literal (num.map Char.toLower) v) (hws : ∀ c ∈ ws, isWhitespace c = true)
      (hc : Suffix c m) : Denotes (num ++ ws ++ [c]) v m

/-- The string is a number of bits per second that fits a `u64`, and `b` its floor. -/
def Valid (s : String) (b : U64) : Prop :=
  ∃ q m, Denotes (trim s.toList) (.fin q) m ∧ 0 ≤ q ∧ q * m < 2 ^ 64 ∧ b.toNat = ⌊q * m⌋₊

/-- The string is a literal whose value the cast has to coerce. -/
def Coerced (s : String) : Prop :=
  ∃ v m, Denotes (trim s.toList) v m ∧
    (v = .nan ∨ v = .inf false ∨ ∃ q, v = .fin q ∧ 2 ^ 64 ≤ q * m)

/-! ## Characters -/

/-- Lower-casing leaves everything but the capitals alone. -/
theorem toLower_eq_or (c : Char) : c.toLower = c ∨ 65 ≤ c.toNat ∧ c.toNat ≤ 90 := by
  by_cases h : c.val ≥ 'A'.val ∧ c.val ≤ 'Z'.val
  · have hA : 'A'.val.toNat = 65 := rfl
    have hZ : 'Z'.val.toNat = 90 := rfl
    rw [ge_iff_le, UInt32.le_iff_toNat_le, UInt32.le_iff_toNat_le, hA, hZ] at h
    exact .inr h
  · exact .inl (dif_neg h)

/-- No character of a literal is white space. -/
theorem isWhitespace_of_inLiteral {c : Char} (h : InLiteral c.toLower) :
    isWhitespace c = false := by
  rcases toLower_eq_or c with heq | hcapital
  · rw [heq] at h
    have hbounds := h.bounds
    exact isWhitespace_eq_false (by omega) (by omega)
  · exact isWhitespace_eq_false (by omega) (by omega)

/-- No suffix is a character of a literal. -/
theorem Suffix.not_inLiteral {c : Char} {m : ℕ} (h : Suffix c m) : ¬ InLiteral c.toLower := by
  unfold InLiteral
  cases h with
  | kilo h | mega h | giga h => rcases h with rfl | rfl <;> decide

variable {num ws : List Char} {v : ExtRat} {m : ℕ} {c : Char}

theorem not_whitespace_of_literal (h : Literal (num.map Char.toLower) v) :
    ∀ c ∈ num, isWhitespace c = false := fun c hc =>
  isWhitespace_of_inLiteral (h.inLiteral c.toLower (List.mem_map_of_mem hc))

theorem ne_nil_of_literal (h : Literal (num.map Char.toLower) v) : num ≠ [] := fun hnil =>
  h.ne_nil (List.map_eq_nil_iff.mpr hnil)

theorem trim_trim (s : List Char) : trim (trim s) = trim s := trimBy_trimBy isWhitespace s

/-- White space behind a literal is trimmed off, and nothing else. -/
theorem trim_literal (h : Literal (num.map Char.toLower) v)
    (hws : ∀ c ∈ ws, isWhitespace c = true) : trim (num ++ ws) = num :=
  trimBy_append (not_whitespace_of_literal h) hws (ne_nil_of_literal h)

/-! ## Splitting off the suffix -/

theorem splitSuffix_append (s : List Char) (hc : Suffix c m) : splitSuffix (s ++ [c]) = (s, m) := by
  rw [splitSuffix, List.getLast?_concat, List.dropLast_concat]
  cases hc with
  | kilo h | mega h | giga h => rcases h with rfl | rfl <;> rfl

/-- Without a suffix the string is the number part. -/
theorem splitSuffix_of_last (s : List Char) (h : ∀ c ∈ s.getLast?, ∀ m, ¬ Suffix c m) :
    splitSuffix s = (s, 1) := by
  unfold splitSuffix
  split
  · next hlast => exact absurd (.kilo (.inl rfl)) (h 'K' hlast 1000)
  · next hlast => exact absurd (.kilo (.inr rfl)) (h 'k' hlast 1000)
  · next hlast => exact absurd (.mega (.inl rfl)) (h 'M' hlast 1000000)
  · next hlast => exact absurd (.mega (.inr rfl)) (h 'm' hlast 1000000)
  · next hlast => exact absurd (.giga (.inl rfl)) (h 'G' hlast 1000000000)
  · next hlast => exact absurd (.giga (.inr rfl)) (h 'g' hlast 1000000000)
  · rfl

theorem splitSuffix_cases (s : List Char) :
    splitSuffix s = (s, 1) ∨ ∃ s' c m, s = s' ++ [c] ∧ Suffix c m := by
  by_cases h : ∀ c ∈ s.getLast?, ∀ m, ¬ Suffix c m
  · exact .inl (splitSuffix_of_last s h)
  · simp only [not_forall, not_not] at h
    obtain ⟨c, hlast, m, hc⟩ := h
    obtain ⟨s', rfl⟩ := List.getLast?_eq_some_iff.mp hlast
    exact .inr ⟨s', c, m, rfl, hc⟩

/-- The code's reading of a trimmed string is what it denotes. -/
theorem denotes_iff {t : List Char} (ht : trim t = t) :
    Denotes t v m ↔ fromStr (trim (splitSuffix t).1) = some v ∧ (splitSuffix t).2 = m := by
  constructor
  · intro h
    cases h with
    | bare h =>
        -- the last character is one of the literal
        have hsplit : splitSuffix t = (t, 1) := splitSuffix_of_last t fun c hc m hm =>
          hm.not_inLiteral (h.inLiteral _ (List.mem_map_of_mem (List.mem_of_getLast? hc)))
        rw [hsplit, ht]
        exact ⟨readLiteral_eq_some_iff.mpr h, rfl⟩
    | @suffixed num ws c _ _ h hws hc =>
        rw [splitSuffix_append _ hc, trim_literal h hws]
        exact ⟨readLiteral_eq_some_iff.mpr h, rfl⟩
  · rintro ⟨hread, hmult⟩
    rcases splitSuffix_cases t with hsplit | ⟨s', c, m', rfl, hc⟩
    · rw [hsplit] at hread hmult
      rw [ht] at hread
      rw [← hmult]
      exact .bare (readLiteral_eq_some_iff.mp hread)
    · rw [splitSuffix_append _ hc] at hread hmult
      obtain ⟨l₁, l₂, hs', h₁, h₂⟩ := exists_trimBy isWhitespace s'
      -- nothing is trimmed off the front, where the whole string has been trimmed
      have hfront : l₁ = [] := by
        cases l₁ with
        | nil => rfl
        | cons a l₁ =>
            rw [hs', List.append_assoc, List.cons_append] at ht
            exact absurd (h₁ a List.mem_cons_self) (not_of_trimBy_eq_cons ht)
      rw [hfront, List.nil_append] at hs'
      have hliteral : Literal ((trim s').map Char.toLower) v := readLiteral_eq_some_iff.mp hread
      have hdenotes := Denotes.suffixed hliteral h₂ hc
      rw [← hmult]
      rwa [trim, ← hs'] at hdenotes

/-! ## What is accepted -/

variable {debug : String → String} {s : String} {b : U64}

/-- A denoting string is checked for its sign only. -/
theorem parseBitrate_of_denotes (h : Denotes (trim s.toList) v m) :
    parseBitrate debug s =
      if v.isNeg then
        .error ("bitrate must be non-negative: " ++ debug (String.ofList (trim s.toList)))
      else .ok ((v.scale m).toWord 64) := by
  obtain ⟨hread, hmult⟩ := (denotes_iff (trim_trim s.toList)).mp h
  simp only [parseBitrate, hread, hmult]

theorem denotes_of_ok (h : parseBitrate debug s = .ok b) :
    ∃ v m, Denotes (trim s.toList) v m ∧ v.isNeg = false ∧ b = (v.scale m).toWord 64 := by
  cases hread : fromStr (trim (splitSuffix (trim s.toList)).1) with
  | none =>
      simp only [parseBitrate, hread] at h
      cases h
  | some v =>
      have hdenotes : Denotes (trim s.toList) v (splitSuffix (trim s.toList)).2 :=
        (denotes_iff (trim_trim s.toList)).mpr ⟨hread, rfl⟩
      rw [parseBitrate_of_denotes hdenotes] at h
      split at h
      · cases h
      · next hneg =>
          cases h
          exact ⟨v, _, hdenotes, Bool.eq_false_iff.mpr hneg, rfl⟩

/-- A string denotes one value at most. -/
theorem Denotes.unique {t : List Char} {v' : ExtRat} {m' : ℕ} (ht : trim t = t) (h : Denotes t v m)
    (h' : Denotes t v' m') : v = v' ∧ m = m' := by
  obtain ⟨hread, hmult⟩ := (denotes_iff ht).mp h
  obtain ⟨hread', hmult'⟩ := (denotes_iff ht).mp h'
  rw [hread] at hread'
  exact ⟨Option.some.inj hread', hmult.symm.trans hmult'⟩

/-- A valid string is accepted with its value. -/
theorem parseBitrate_of_valid (h : Valid s b) : parseBitrate debug s = .ok b := by
  obtain ⟨q, m, hdenotes, hq, hlt, hb⟩ := h
  have hneg : ¬ (ExtRat.fin q).isNeg = true := by
    rw [ExtRat.isNeg, decide_eq_true_eq]
    exact not_lt.mpr hq
  rw [parseBitrate_of_denotes hdenotes, if_neg hneg]
  congr 1
  apply BitVec.eq_of_toNat_eq
  rw [ExtRat.scale, ExtRat.toNat_toWord_fin hlt, hb]

/-- What is accepted without coercion is valid. -/
theorem valid_of_ok (h : parseBitrate debug s = .ok b) (hs : ¬ Coerced s) : Valid s b := by
  obtain ⟨v, m, hdenotes, hneg, rfl⟩ := denotes_of_ok h
  cases v with
  | nan => exact absurd ⟨_, m, hdenotes, .inl rfl⟩ hs
  | inf neg =>
      have hpos : neg = false := hneg
      subst hpos
      exact absurd ⟨_, m, hdenotes, .inr (.inl rfl)⟩ hs
  | fin q =>
      have hq : 0 ≤ q := not_lt.mp (of_decide_eq_false hneg)
      have hlt : q * m < 2 ^ 64 := by
        by_contra hge
        exact hs ⟨_, m, hdenotes, .inr (.inr ⟨q, rfl, not_lt.mp hge⟩)⟩
      exact ⟨q, m, hdenotes, hq, hlt, ExtRat.toNat_toWord_fin hlt⟩

/-- A coerced value is not negative, so it is accepted. -/
theorem ok_of_coerced (debug : String → String) (h : Coerced s) :
    (∃ b, parseBitrate debug s = .ok b) ∧ ∀ b, ¬ Valid s b := by
  obtain ⟨v, m, hdenotes, hv⟩ := h
  have hneg : ¬ v.isNeg = true := by
    rcases hv with rfl | rfl | ⟨q, rfl, hq⟩
    · exact Bool.false_ne_true
    · exact Bool.false_ne_true
    · rw [ExtRat.isNeg, decide_eq_true_eq, not_lt]
      by_contra hlt
      have hprod : q * m ≤ 0 := mul_nonpos_of_nonpos_of_nonneg (not_le.mp hlt).le m.cast_nonneg
      exact absurd (hq.trans hprod) (by norm_num)
  refine ⟨⟨_, (parseBitrate_of_denotes hdenotes).trans (if_neg hneg)⟩, fun b hb => ?_⟩
  obtain ⟨q, m', hdenotes', hq, hlt, -⟩ := hb
  obtain ⟨rfl, rfl⟩ := hdenotes.unique (trim_trim s.toList) hdenotes'
  rcases hv with h | h | ⟨q', h, hge⟩
  · cases h
  · cases h
  · cases h
    exact absurd hlt (not_lt.mpr hge)

/-- Nothing is silently coerced: what is accepted is valid, and everything else is an
    error. -/
structure NeverCoerces (debug : String → String) (s : String) : Prop where
  only : ∀ b, parseBitrate debug s = .ok b → Valid s b
  others : (∀ b, ¬ Valid s b) → ∃ e, parseBitrate debug s = .error e

/-- The parser keeps to that exactly when the string is not a literal of a NaN, of the
    positive infinity or of a rate of `2 ^ 64` or more; and it accepts every valid
    string with its value. -/
theorem neverCoerces_iff (debug : String → String) (s : String) :
    (NeverCoerces debug s ↔ ¬ Coerced s) ∧ ∀ b, Valid s b → parseBitrate debug s = .ok b := by
  refine ⟨⟨fun h hs => ?_, fun hs => ⟨fun b hb => valid_of_ok hb hs, fun hnone => ?_⟩⟩,
    fun b hb => parseBitrate_of_valid hb⟩
  · obtain ⟨⟨b, hb⟩, hinvalid⟩ := ok_of_coerced debug hs
    exact hinvalid b (h.only b hb)
  · cases hb : parseBitrate debug s with
    | error e => exact ⟨e, rfl⟩
    | ok b => exact absurd (valid_of_ok hb hs) (hnone b)

example : parseBitrate id " 2.5 m" = .ok 2500000 := by decide +kernel

/-- A NaN is accepted as 0, and the positive infinity and a large rate as the greatest
    `u64`. -/
theorem nan_coerced :
    parseBitrate id "nan" = .ok 0 ∧ parseBitrate id "inf" = .ok 0xFFFFFFFFFFFFFFFF ∧
      parseBitrate id "1e30" = .ok 0xFFFFFFFFFFFFFFFF ∧ ¬ NeverCoerces id "nan" := by
  have hnan : parseBitrate id "nan" = .ok 0 := by decide +kernel
  refine ⟨hnan, by decide +kernel, by decide +kernel, fun h => ?_⟩
  have htrim : trim "nan".toList = ['n', 'a', 'n'] := by decide +kernel
  have hcoerced : Coerced "nan" := ⟨.nan, 1, by rw [htrim]; exact .bare (.nan .none), .inl rfl⟩
  exact (ok_of_coerced id hcoerced).2 0 (h.only 0 hnan)

end Andri.Client
