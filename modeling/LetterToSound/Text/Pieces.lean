/-!
# White space and pieces

How texts are taken apart: the characters with the Unicode property `White_Space` are taken away at both
ends, and what is left is cut at separators.
-/

namespace LetterToSound.Text

/-- The ranges of the Unicode property `White_Space`, ends included. -/
def whiteSpace : List (Nat × Nat) :=
  [(0x09, 0x0D), (0x20, 0x20), (0x85, 0x85), (0xA0, 0xA0), (0x1680, 0x1680), (0x2000, 0x200A),
    (0x2028, 0x2029), (0x202F, 0x202F), (0x205F, 0x205F), (0x3000, 0x3000)]

/-- Whether a character has the property `White_Space`. -/
def isWhiteSpace (c : Char) : Bool :=
  whiteSpace.any fun (low, high) => decide (low ≤ c.toNat) && decide (c.toNat ≤ high)

/-- The text without white space at its start and at its end. -/
def trim (cs : List Char) : List Char :=
  ((cs.dropWhile isWhiteSpace).reverse.dropWhile isWhiteSpace).reverse

/-!
## Pieces and their places

A feature list is cut into names and a path into its own at every separator, so that there is one
piece more than there are separators and no piece holds one. Pieces that follow one another have
places: the first one's, and then each the place of the one before it and the width of that.
-/

variable {α : Type} [DecidableEq α]

/-- The pieces between separators, in order. -/
def cutAt (separator : α) (items : List α) : List (List α) :=
  items.foldr (fun a pieces => match pieces with
    | [] => [[a]]
    | piece :: rest => if a = separator then [] :: piece :: rest else (a :: piece) :: rest) [[]]

@[simp] theorem cutAt_nil (separator : α) : cutAt separator [] = [[]] := rfl

theorem cutAt_ne_nil (separator : α) (items : List α) : cutAt separator items ≠ [] := by
  cases items with
  | nil => simp
  | cons a items =>
    simp only [cutAt, List.foldr_cons]
    split
    · simp
    · split <;> simp

theorem cutAt_separator (separator : α) (items : List α) :
    cutAt separator (separator :: items) = [] :: cutAt separator items := by
  cases h : cutAt separator items with
  | nil => exact absurd h (cutAt_ne_nil separator items)
  | cons piece rest =>
    simp only [cutAt] at h
    simp [cutAt, h]

theorem cutAt_append_separator (separator : α) (xs ys : List α) :
    cutAt separator (xs ++ separator :: ys) = cutAt separator xs ++ cutAt separator ys := by
  induction xs with
  | nil => simp [cutAt_separator]
  | cons a xs ih =>
    cases h : cutAt separator xs with
    | nil => exact absurd h (cutAt_ne_nil separator xs)
    | cons piece rest =>
      simp only [cutAt] at h ih
      simp only [cutAt, List.cons_append, List.foldr_cons, ih, h]
      split <;> simp

omit [DecidableEq α]

/-- Places of items that follow one another, those placed before in reverse order. -/
def placeRest (width : α → Nat) (placed : List (Nat × α)) (start : Nat) : List α → List (Nat × α)
  | [] => placed.reverse
  | a :: items => placeRest width ((start, a) :: placed) (start + width a) items

/-- Items that follow one another from a start on, each with its place. -/
def place (width : α → Nat) (start : Nat) (items : List α) : List (Nat × α) :=
  placeRest width [] start items

theorem placeRest_eq (width : α → Nat) (placed : List (Nat × α)) (start : Nat) (items : List α) :
    placeRest width placed start items = placed.reverse ++ place width start items := by
  induction items generalizing placed start with
  | nil => simp [placeRest, place]
  | cons a items ih =>
    rw [place, placeRest, placeRest, ih, ih [(start, a)]]
    simp

@[simp] theorem place_nil (width : α → Nat) (start : Nat) : place width start [] = [] := rfl

theorem place_cons (width : α → Nat) (start : Nat) (a : α) (items : List α) :
    place width start (a :: items) = (start, a) :: place width (start + width a) items := by
  rw [place, placeRest, placeRest_eq]
  rfl

end LetterToSound.Text
