/-
  Andri.Lib.Json

  Compact JSON as bytes: numbers, names, arrays and objects written without
  blanks, and how long each of them is.
-/
import Andri.Lib.Words
import Mathlib.Algebra.BigOperators.Group.List.Basic

namespace Andri.Lib.Json

/-- A natural number in decimal. -/
def decimal (n : ℕ) : List Byte := ascii n.repr

/-- A string without characters to escape, between `"`. -/
def quoted (s : String) : List Byte := 0x22 :: ascii s ++ [0x22]

/-- A value, or `null`. -/
def optional {α : Type*} (value : α → List Byte) : Option α → List Byte
  | some a => value a
  | none => ascii "null"

/-- Items with a `,` between each two. -/
def commaSep : List (List Byte) → List Byte
  | [] => []
  | [item] => item
  | item :: next :: items => item ++ 0x2c :: commaSep (next :: items)

/-- Items between `[` and `]`. -/
def array (items : List (List Byte)) : List Byte := 0x5b :: commaSep items ++ [0x5d]

/-- A name, `:` and its value. -/
def field (f : String × List Byte) : List Byte := quoted f.1 ++ 0x3a :: f.2

/-- Fields between braces. -/
def object (fields : List (String × List Byte)) : List Byte :=
  0x7b :: commaSep (fields.map field) ++ [0x7d]

/-! ## Lengths -/

@[simp] theorem length_ascii (s : String) : (ascii s).length = s.length := by
  rw [ascii, List.length_map, String.length_toList]

@[simp] theorem length_quoted (s : String) : (quoted s).length = s.length + 2 := by
  simp [quoted]

theorem length_decimal_pos (n : ℕ) : 0 < (decimal n).length := by
  rw [decimal, length_ascii]
  exact Nat.length_repr_pos

theorem length_decimal_le {n k : ℕ} (hk : 0 < k) (hn : n < 10 ^ k) : (decimal n).length ≤ k := by
  rw [decimal, length_ascii]
  exact (Nat.length_repr_le_iff hk).mpr hn

theorem length_commaSep (items : List (List Byte)) :
    (commaSep items).length = (items.map List.length).sum + (items.length - 1) := by
  induction items with
  | nil => rfl
  | cons item items ih =>
      cases items with
      | nil => simp [commaSep]
      | cons next items =>
          rw [commaSep, List.length_append, List.length_cons, ih]
          simp only [List.map_cons, List.sum_cons, List.length_cons]
          omega

theorem length_array (items : List (List Byte)) :
    (array items).length = (items.map List.length).sum + (items.length - 1) + 2 := by
  simp [array, length_commaSep]

/-- What an object takes beside its names and values: two braces, and for each field
    two quotes and a colon, with commas between. -/
theorem length_object (fields : List (String × List Byte)) :
    (object fields).length =
      (fields.map fun f => f.1.length + f.2.length + 3).sum + (fields.length - 1) + 2 := by
  have hfield : ∀ f : String × List Byte, (field f).length = f.1.length + f.2.length + 3 := by
    intro f
    simp only [field, List.length_append, length_quoted, List.length_cons]
    omega
  simp [object, length_commaSep, Function.comp_def, hfield]

/-! ## Numbers read back -/

/-- The number that decimal digits spell. -/
def number (digits : List Byte) : ℕ := digits.foldl (fun n b => 10 * n + (b.toNat - 48)) 0

theorem number_decimal (n : ℕ) : number (decimal n) = n := by
  have hdigits : ∀ c ∈ Nat.toDigits 10 n, (BitVec.ofNat 8 c.toNat).toNat = c.toNat := by
    intro c hc
    have hdigit := Nat.isDigit_of_mem_toDigits (by decide) le_rfl hc
    rw [Char.isDigit_iff_toNat] at hdigit
    have hnine : '9'.toNat = 57 := rfl
    rw [BitVec.toNat_ofNat, Nat.mod_eq_of_lt (by omega)]
  -- digit by digit the bytes count as the characters do
  have hfold : ∀ (cs : List Char) (k : ℕ),
      (∀ c ∈ cs, (BitVec.ofNat 8 c.toNat).toNat = c.toNat) →
      (cs.map fun c => BitVec.ofNat 8 c.toNat).foldl
        (fun n (b : Byte) => 10 * n + (b.toNat - 48)) k = Nat.ofDigitChars 10 cs k := by
    intro cs
    induction cs with
    | nil => exact fun k _ => rfl
    | cons c cs ih =>
        intro k hcs
        have htail := ih (10 * k + (c.toNat - 48)) fun d hd => hcs d (List.mem_cons_of_mem c hd)
        rw [List.map_cons, List.foldl_cons, hcs c List.mem_cons_self, htail]
        rfl
  calc number (decimal n) = Nat.ofDigitChars 10 (Nat.toDigits 10 n) 0 := by
        rw [number, decimal, ascii, Nat.repr, String.toList_ofList]
        exact hfold _ 0 hdigits
    _ = n := Nat.ofDigitChars_toDigits (by decide) le_rfl

/-- Numbers spelled alike are the same. -/
theorem decimal_injective : Function.Injective decimal := by
  intro m n h
  rw [← number_decimal m, h, number_decimal]

end Andri.Lib.Json
