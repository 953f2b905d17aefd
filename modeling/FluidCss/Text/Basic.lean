/-!
# Texts

A text is a row of code points. Most code points are characters. The others are halves of surrogate
pairs, which stand for nothing by themselves: no file holds one, but an escape in a style sheet can
name one, and it is then carried along and shown like any other code point.
-/

namespace FluidCss

/-- A code point of a text. -/
inductive CodePoint where
  | char (c : Char)
  /-- Half of a surrogate pair, by its place among the halves. -/
  | half (n : Fin 0x800)
  deriving DecidableEq

namespace CodePoint

instance : Coe Char CodePoint := ⟨char⟩

def number : CodePoint → Nat
  | char c => c.toNat
  | half n => 0xD800 + n

def ofNumber? (n : Nat) : Option CodePoint :=
  if h : 0xD800 ≤ n ∧ n < 0xE000 then some (half ⟨n - 0xD800, by omega⟩)
  else if n < 0x110000 then some (char (Char.ofNat n))
  else none

/-- The number determines the code point. -/
theorem ofNumber?_number (p : CodePoint) : ofNumber? p.number = some p := by
  cases p with
  | char c =>
    have h := c.valid
    have hn : c.toNat = c.val.toNat := rfl
    simp only [UInt32.isValidChar, Nat.isValidChar] at h
    have h₁ : ¬ (0xD800 ≤ c.toNat ∧ c.toNat < 0xE000) := by omega
    have h₂ : c.toNat < 0x110000 := by omega
    simp [number, ofNumber?, h₁, h₂, Char.ofNat_toNat]
  | half n =>
    have h : 0xD800 ≤ 0xD800 + n.val ∧ 0xD800 + n.val < 0xE000 := by omega
    simp [number, ofNumber?, h]

def isDigit (p : CodePoint) : Bool := 0x30 ≤ p.number && p.number ≤ 0x39

def isLetter (p : CodePoint) : Bool :=
  (0x61 ≤ p.number && p.number ≤ 0x7A) || (0x41 ≤ p.number && p.number ≤ 0x5A)

/-- Half of a surrogate pair. -/
def isHalf : CodePoint → Bool
  | char _ => false
  | half _ => true

/-- A letter from `A` to `Z` becomes small. -/
def toLower : CodePoint → CodePoint
  | char c => char c.toLower
  | half n => half n

end CodePoint

/-- A row of code points. -/
abbrev Text := List CodePoint

namespace Text

def ofChars (cs : List Char) : Text := cs.map .char

def ofString (s : String) : Text := ofChars s.toList

instance : Coe String Text := ⟨ofString⟩

/-- The characters of a text that has no halves of surrogate pairs. -/
def toChars? : Text → Option (List Char)
  | [] => some []
  | .char c :: t => (toChars? t).map (c :: ·)
  | .half _ :: _ => none

/-- A text without halves of surrogate pairs as a string. -/
def toString? (t : Text) : Option String := (toChars? t).map String.ofList

@[simp] theorem toChars?_ofChars (cs : List Char) : toChars? (ofChars cs) = some cs := by
  induction cs with
  | nil => rfl
  | cons c cs ih => simpa [ofChars, toChars?] using ih

/-- The first half of a surrogate pair in a text, its offset, and the number of halves in a row
from there on. -/
def firstHalves? (t : Text) : Option (CodePoint × Nat × Nat) :=
  let offset := (t.takeWhile fun p => !p.isHalf).length
  match (t.drop offset).takeWhile CodePoint.isHalf with
  | [] => none
  | p :: ps => some (p, offset, ps.length + 1)

theorem firstHalves?_eq_none_iff {t : Text} : t.firstHalves? = none ↔ ∀ n, .half n ∉ t := by
  have hrow : t.firstHalves? = none ↔
      (t.drop (t.takeWhile fun p => !p.isHalf).length).takeWhile CodePoint.isHalf = [] := by
    unfold firstHalves?
    dsimp only
    split <;> simp [*]
  rw [hrow]
  clear hrow
  induction t with
  | nil => simp
  | cons p t ih =>
    cases p with
    | half n =>
      have hhalf : (CodePoint.half n).isHalf = true := rfl
      exact iff_of_false (by simp [hhalf]) fun h => h n List.mem_cons_self
    | char c =>
      have hchar : (CodePoint.char c).isHalf = false := rfl
      simpa [hchar] using ih

/-- Texts in a row with a text between each two. -/
def joined (between : Text) : List Text → Text
  | [] => []
  | [t] => t
  | t :: ts => t ++ between ++ joined between ts

theorem joined_eq_intercalate (between : Text) :
    ∀ ts : List Text, joined between ts = List.intercalate between ts
  | [] => rfl
  | [t] => by simp [joined]
  | t :: next :: ts => by
    rw [joined, joined_eq_intercalate between (next :: ts)]
    · simp [List.intercalate]
    · nofun

end Text

end FluidCss
