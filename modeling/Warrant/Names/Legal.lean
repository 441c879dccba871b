/-! # Legal names

A name of a declaration starts with an ASCII letter and has none of the characters `@ # ^ * ! &`.
`legalName` makes a name legal: one that starts otherwise gets `isa` and the spacer in front, and
then the spacer takes the place of each illegal character.

Where the spacer stands for a character, a dollar sign in it is special: `$0` and `${0}` are the
character itself, any other reference is empty, and `$$` is a dollar sign.  A spacer without a
dollar sign is inserted as it is (`spacerFor_eq`). -/

namespace Warrant

/-- Whether a character may not occur in a name, so that `legalName` replaces it. -/
def isIllegal (c : Char) : Bool := c ∈ ['@', '#', '^', '*', '!', '&']

/-- Whether a character continues a reference of `spacerFor` that is not in braces. -/
def isReferenceChar (c : Char) : Bool := c.isAlphanum || c = '_'

/-- Whether `name`, the text of a reference, names the character that is replaced: zero, with any
    number of digits and possibly a plus sign. -/
def isWholeMatch (name : List Char) : Bool :=
  let digits := if name.head? = some '+' then name.tail else name
  !digits.isEmpty && digits.all (· = '0')

/-- What the reference `name` stands for where `c` is replaced. -/
def referent (c : Char) (name : List Char) : List Char := if isWholeMatch name then [c] else []

/-- The text of the spacer where it stands for the character `c`. -/
def spacerFor (c : Char) : List Char → List Char
  | [] => []
  | '$' :: '$' :: rest => '$' :: spacerFor c rest
  | '$' :: '\x7b' :: rest =>
    if (rest.dropWhile (· ≠ '\x7d')).isEmpty then '$' :: '\x7b' :: spacerFor c rest
    else referent c (rest.takeWhile (· ≠ '\x7d')) ++ spacerFor c (rest.dropWhile (· ≠ '\x7d')).tail
  | '$' :: rest =>
    if (rest.takeWhile isReferenceChar).isEmpty then '$' :: spacerFor c rest
    else referent c (rest.takeWhile isReferenceChar) ++ spacerFor c (rest.dropWhile isReferenceChar)
  | x :: rest => x :: spacerFor c rest
termination_by spacer => spacer.length
decreasing_by
  · simp only [List.length_cons]; omega
  · simp only [List.length_cons]; omega
  · have := (List.dropWhile_sublist (l := rest) fun x => decide (x ≠ '\x7d')).length_le
    rw [List.length_tail]
    simp only [List.length_cons]
    omega
  · simp
  · have := (List.dropWhile_sublist (l := rest) isReferenceChar).length_le
    simp only [List.length_cons]
    omega
  · simp

/-- A spacer without a dollar sign stands for every character as it is: `spacerFor` changes
    nothing. -/
theorem spacerFor_eq (c : Char) {spacer : List Char} (h : '$' ∉ spacer) :
    spacerFor c spacer = spacer := by
  induction spacer with
  | nil => simp [spacerFor]
  | cons x rest ih =>
    have hx : x ≠ '$' := fun hx => h (by simp [hx])
    rw [spacerFor.eq_def]
    -- All but the last equation of `spacerFor` ask for a dollar sign in front.
    split <;> simp_all

/-- Whether `name` starts as a name may: with an ASCII letter. -/
def startsLegally (name : List Char) : Bool :=
  match name with
  | c :: _ => c.isAlpha
  | [] => false

/-- A legal name close to `name`. -/
def legalName (spacer name : String) : String :=
  let start :=
    if startsLegally name.toList then name.toList
    else "isa".toList ++ spacer.toList ++ name.toList
  .ofList (start.flatMap fun c => if isIllegal c then spacerFor c spacer.toList else [c])

end Warrant
