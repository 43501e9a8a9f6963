import Mathlib
import TensorGraph.Dimension.Expr

/-!
# The written form of sizes as tokens

Input:

* the text of an expression in which names are identifiers (`SizeExpr.Identifiers`).

Algorithm:

* the text is cut into words and single characters between them (`pieces`), a bracket stays with the
  word before it, and spaces are dropped; each piece is one token (`Token.ofPiece`).

Result:

* `SizeExpr.read_text`: the tokens that are read are those of the expression (`SizeExpr.tokens`).
-/

namespace TensorGraph

/-! ## Pieces of a text -/

/-- The characters between words. -/
def separators : List Char := ['(', ')', '*', '/', ',', ' ']

/-- Whether a character stands in words and numbers. -/
def isWordChar (c : Char) : Bool := !separators.contains c

/-- The characters of names and numbers stand in words. -/
theorem isWordChar_of_plain {c : Char}
    (plain : (c.isAlphanum || c == '_' || c == '-') = true) : isWordChar c = true := by
  have special : separators.all (fun d => !(d.isAlphanum || d == '_' || d == '-')) = true := by
    decide
  have outside : c ∉ separators := fun between => by
    simpa [plain] using List.all_eq_true.mp special c between
  simpa [isWordChar] using outside

/-- Whether two characters that follow each other belong to one piece. -/
def belongTogether (c d : Char) : Bool := isWordChar c && (isWordChar d || d == '(')

/-- The words, words with a bracket, and other characters of a text, without spaces. -/
def pieces (cs : List Char) : List (List Char) :=
  (cs.splitBy belongTogether).filter (· ≠ [' '])

/-- A separator is a piece of its own. -/
theorem pieces_separator (left right : List Char) {c : Char} (separates : isWordChar c = false)
    (bracket : c ≠ '(') :
    pieces (left ++ c :: right) = pieces left ++ pieces [c] ++ pieces right := by
  have before : ∀ x ∈ left.getLast?, belongTogether x c = false := by
    intro x _
    simp [belongTogether, separates, bracket]
  have after : ∀ x ∈ [c].getLast?, ∀ y ∈ right.head?, belongTogether x y = false := by
    intro x hx y _
    obtain rfl : c = x := by simpa using hx
    simp [belongTogether, separates]
  have first : (c :: right).splitBy belongTogether =
      [c].splitBy belongTogether ++ right.splitBy belongTogether :=
    List.splitBy_append after
  unfold pieces
  rw [List.splitBy_append_cons right before, first, List.filter_append, List.filter_append,
    List.append_assoc]

/-- Nothing that follows an opening bracket belongs to its piece. -/
theorem pieces_opening (word right : List Char)
    (whole : pieces (word ++ ['(']) = [word ++ ['(']]) :
    pieces (word ++ '(' :: right) = (word ++ ['(']) :: pieces right := by
  have after : ∀ x ∈ (word ++ ['(']).getLast?, ∀ y ∈ right.head?, belongTogether x y = false := by
    intro x hx y _
    obtain rfl : '(' = x := by simpa using hx
    rfl
  have split : (word ++ '(' :: right).splitBy belongTogether =
      (word ++ ['(']).splitBy belongTogether ++ right.splitBy belongTogether := by
    rw [← List.splitBy_append after, List.append_assoc, List.singleton_append]
  unfold pieces at whole ⊢
  rw [split, List.filter_append, whole]
  rfl

/-- A word is one piece. -/
theorem pieces_word {word : List Char} (nonempty : word ≠ [])
    (chars : ∀ c ∈ word, isWordChar c = true) : pieces word = [word] := by
  have chain : word.IsChain fun x y => belongTogether x y = true := by
    rw [List.isChain_iff_getElem]
    intro i hi
    simp [belongTogether, chars]
  have solid : word ≠ [' '] := by
    rintro rfl
    exact absurd (chars ' ' List.mem_cons_self) (by decide)
  unfold pieces
  rw [List.splitBy_of_isChain nonempty chain]
  simp [solid]

/-! ## Tokens -/

/-- The parts of a written expression.  An opening bracket carries the operation whose name stands
before it. -/
inductive Token where
  | number (v : Int)
  | name (x : String)
  | plus
  | minus
  | times
  | slash
  | comma
  | opening (call : Option SizeOp)
  | closing
  deriving DecidableEq, Repr

/-- Whether a character can start an identifier. -/
def startsName (c : Char) : Bool := c.isAlpha || c == '_'

/-- Whether a text is shaped like an identifier. -/
def isIdentifier (x : String) : Bool :=
  x.toList.head?.any startsName && x.toList.all fun c => c.isAlphanum || c == '_'

namespace Token

/-- The token for a bracket with the word before it. -/
def ofCall (piece : List Char) : Token :=
  if piece = "max(".toList then opening (some .max)
  else if piece = "min(".toList then opening (some .min)
  else opening (some .divCeil)

/-- The token for a piece that is neither a name nor a number. -/
def ofSymbol : List Char → Token
  | ['+'] => plus
  | ['-'] => minus
  | ['*'] => times
  | ['/'] => slash
  | [','] => comma
  | ['('] => opening none
  | _ => closing

/-- The token for a piece of a text. -/
def ofPiece (piece : List Char) : Token :=
  if piece.head?.any startsName then
    if piece.getLast? = some '(' then ofCall piece else name (String.ofList piece)
  else
    match (String.ofList piece).toInt? with
    | some v => number v
    | none => ofSymbol piece

end Token

/-- The tokens of a text. -/
def readTokens (cs : List Char) : List Token := (pieces cs).map Token.ofPiece

/-- A separator that is no bracket is read by itself. -/
theorem readTokens_separator (left right : List Char) {c : Char} {ts : List Token}
    (separates : isWordChar c = false) (bracket : c ≠ '(') (own : readTokens [c] = ts) :
    readTokens (left ++ c :: right) = readTokens left ++ (ts ++ readTokens right) := by
  rw [← own, ← List.append_assoc]
  unfold readTokens
  rw [pieces_separator left right separates bracket, List.map_append, List.map_append]

/-- Spaces are not read. -/
theorem readTokens_space (left right : List Char) :
    readTokens (left ++ ' ' :: right) = readTokens left ++ readTokens right :=
  readTokens_separator left right rfl (by decide) rfl

/-- A character between spaces is read by itself. -/
theorem readTokens_spaced (left right : List Char) {c : Char} {t : Token}
    (own : readTokens [c] = [t]) :
    readTokens (left ++ ' ' :: c :: ' ' :: right) =
      readTokens left ++ t :: readTokens right := by
  have second : readTokens (c :: ' ' :: right) = readTokens [c] ++ readTokens right :=
    readTokens_space [c] right
  rw [readTokens_space, second, own, List.singleton_append]

theorem readTokens_plus (left right : List Char) :
    readTokens (left ++ (" + ".toList ++ right)) = readTokens left ++ .plus :: readTokens right :=
  readTokens_spaced left right (by cbv)

theorem readTokens_minus (left right : List Char) :
    readTokens (left ++ (" - ".toList ++ right)) = readTokens left ++ .minus :: readTokens right :=
  readTokens_spaced left right (by cbv)

theorem readTokens_times (left right : List Char) :
    readTokens (left ++ ("*".toList ++ right)) = readTokens left ++ .times :: readTokens right :=
  have own : readTokens ['*'] = [.times] := by cbv
  readTokens_separator left right rfl (by decide) own

theorem readTokens_slash (left right : List Char) :
    readTokens (left ++ ("/".toList ++ right)) = readTokens left ++ .slash :: readTokens right :=
  have own : readTokens ['/'] = [.slash] := by cbv
  readTokens_separator left right rfl (by decide) own

theorem readTokens_comma (left right : List Char) :
    readTokens (left ++ (", ".toList ++ right)) = readTokens left ++ .comma :: readTokens right :=
  (readTokens_separator left (' ' :: right) rfl (by decide) (by cbv)).trans <| by
    rw [show readTokens (' ' :: right) = readTokens right from readTokens_space [] right]
    rfl

/-- A bracket and the word before it are read by themselves, and so is the bracket at the end. -/
theorem readTokens_enclosed {word inner : List Char} {call : Option SizeOp}
    (whole : pieces (word ++ ['(']) = [word ++ ['(']])
    (opening : Token.ofPiece (word ++ ['(']) = .opening call) :
    readTokens (word ++ '(' :: (inner ++ [')'])) =
      .opening call :: readTokens inner ++ [.closing] := by
  have closing : readTokens [')'] = [.closing] := by cbv
  have last : readTokens (inner ++ [')']) = readTokens inner ++ [.closing] :=
    readTokens_separator inner [] rfl (by decide) closing
  have first : readTokens (word ++ '(' :: (inner ++ [')'])) =
      .opening call :: readTokens (inner ++ [')']) := by
    unfold readTokens
    rw [pieces_opening word _ whole, List.map_cons, opening]
  rw [first, last, List.cons_append]

/-- A word is read as one token. -/
theorem readTokens_word {word : List Char} (nonempty : word ≠ [])
    (chars : ∀ c ∈ word, isWordChar c = true) : readTokens word = [Token.ofPiece word] := by
  unfold readTokens
  rw [pieces_word nonempty chars]
  rfl

/-! ## Names and numbers -/

/-- An identifier is read as a name. -/
theorem readTokens_identifier {x : String} (identifier : isIdentifier x = true) :
    readTokens x.toList = [.name x] := by
  obtain ⟨starts, plain⟩ : x.toList.head?.any startsName = true ∧
      ∀ c ∈ x.toList, c.isAlphanum = true ∨ c = '_' := by
    simpa [isIdentifier] using identifier
  have nonempty : x.toList ≠ [] := by
    intro empty
    simp [empty] at starts
  have chars : ∀ c ∈ x.toList, isWordChar c = true := by
    intro c hc
    apply isWordChar_of_plain
    rcases plain c hc with h | h <;> simp [h]
  have noCall : x.toList.getLast? ≠ some '(' := fun last =>
    absurd (chars '(' (List.mem_of_getLast? last)) (by decide)
  rw [readTokens_word nonempty chars]
  simp [Token.ofPiece, starts, noCall]

/-- A numeral has digits and a sign. -/
theorem mem_numeral {v : Int} {c : Char} (member : c ∈ v.repr.toList) :
    c.isDigit = true ∨ c = '-' := by
  have digits : ∀ n : Nat, c ∈ n.repr.toList → c.isDigit = true := by
    intro n hc
    rw [Nat.toList_repr] at hc
    exact Nat.isDigit_of_mem_toDigits (by decide) (by decide) hc
  rw [Int.repr_eq_if] at member
  split at member
  · exact .inl (digits _ member)
  · rw [String.toList_append, List.mem_append] at member
    rcases member with sign | digit
    · exact .inr (by simpa using sign)
    · exact .inl (digits _ digit)

theorem startsName_of_isDigit {c : Char} (digit : c.isDigit = true) : startsName c = false := by
  have other : c ≠ '_' := by
    rintro rfl
    exact absurd digit (by decide)
  simp only [startsName, Char.isAlpha, Char.isUpper, Char.isLower, Char.isDigit] at digit ⊢
  grind

/-- A numeral is read as its number. -/
theorem readTokens_numeral (v : Int) : readTokens v.repr.toList = [.number v] := by
  have value : v.repr.toInt? = some v := Int.toInt?_repr v
  have nonempty : v.repr.toList ≠ [] := by
    intro empty
    have unread : "".toInt? = none := by cbv
    rw [String.toList_eq_nil_iff.mp empty, unread] at value
    cases value
  have chars : ∀ c ∈ v.repr.toList, isWordChar c = true := by
    intro c hc
    apply isWordChar_of_plain
    rcases mem_numeral hc with h | h <;> simp [h, Char.isAlphanum]
  have noName : v.repr.toList.head?.any startsName = false := by
    rw [Option.any_eq_false]
    intro c hc
    rcases mem_numeral (List.mem_of_mem_head? hc) with digit | rfl
    · simp [startsName_of_isDigit digit]
    · decide
  rw [readTokens_word nonempty chars]
  simp [Token.ofPiece, noName, value]

/-! ## Expressions -/

namespace SizeExpr

/-- Every name of an expression is an identifier. -/
def Identifiers : SizeExpr → Prop
  | const _ => True
  | var x => isIdentifier x = true
  | bin _ a b => a.Identifiers ∧ b.Identifiers

/-- Tokens in brackets, if they are needed. -/
def inBrackets (needed : Bool) (ts : List Token) : List Token :=
  if needed then .opening none :: ts ++ [.closing] else ts

/-- The tokens of the written form of an expression. -/
def tokens : SizeExpr → List Token
  | const v => [.number v]
  | var x => [.name x]
  | bin .divCeil a b =>
    .opening (some .divCeil) :: (tokens a ++ .slash :: tokens b) ++ [.closing]
  | bin .max a b => .opening (some .max) :: (tokens a ++ .comma :: tokens b) ++ [.closing]
  | bin .min a b => .opening (some .min) :: (tokens a ++ .comma :: tokens b) ++ [.closing]
  | bin .add a b =>
    inBrackets (a.precedence < 1) (tokens a) ++ .plus :: inBrackets (b.precedence < 1) (tokens b)
  | bin .sub a b =>
    inBrackets (a.precedence < 1) (tokens a) ++ .minus :: inBrackets (b.precedence ≤ 1) (tokens b)
  | bin .mul a b =>
    inBrackets (a.precedence < 2) (tokens a) ++ .times :: inBrackets (b.precedence < 2) (tokens b)
  | bin .div a b =>
    inBrackets (a.precedence < 2) (tokens a) ++ .slash :: inBrackets (b.precedence ≤ 2) (tokens b)

/-- Brackets are read as brackets. -/
theorem read_bracketed (needed : Bool) (s : String) :
    readTokens (bracketed needed s).toList = inBrackets needed (readTokens s.toList) := by
  cases needed with
  | false => rfl
  | true =>
    have enclosed : readTokens ([] ++ '(' :: (s.toList ++ [')'])) =
        .opening none :: readTokens s.toList ++ [.closing] :=
      readTokens_enclosed rfl (by cbv)
    simpa [bracketed, inBrackets] using enclosed

/-- The tokens that are read from the written form of an expression are its tokens. -/
theorem read_text : ∀ e : SizeExpr, e.Identifiers → readTokens e.text.toList = e.tokens
  | const v, _ => readTokens_numeral v
  | var x, identifier => readTokens_identifier identifier
  | bin .add a b, ⟨ha, hb⟩ => by
    simp only [text, tokens, String.toList_append, List.append_assoc]
    rw [readTokens_plus, read_bracketed, read_bracketed, read_text a ha, read_text b hb]
  | bin .sub a b, ⟨ha, hb⟩ => by
    simp only [text, tokens, String.toList_append, List.append_assoc]
    rw [readTokens_minus, read_bracketed, read_bracketed, read_text a ha, read_text b hb]
  | bin .mul a b, ⟨ha, hb⟩ => by
    simp only [text, tokens, String.toList_append, List.append_assoc]
    rw [readTokens_times, read_bracketed, read_bracketed, read_text a ha, read_text b hb]
  | bin .div a b, ⟨ha, hb⟩ => by
    simp only [text, tokens, String.toList_append, List.append_assoc]
    rw [readTokens_slash, read_bracketed, read_bracketed, read_text a ha, read_text b hb]
  | bin .divCeil a b, ⟨ha, hb⟩ => by
    have shape : (bin .divCeil a b).text.toList =
        "ceil".toList ++ '(' :: ((a.text.toList ++ ("/".toList ++ b.text.toList)) ++ [')']) := by
      simp [text]
    rw [shape, readTokens_enclosed (by rfl) (by cbv), readTokens_slash, read_text a ha,
      read_text b hb, tokens]
  | bin .max a b, ⟨ha, hb⟩ => by
    have shape : (bin .max a b).text.toList =
        "max".toList ++ '(' :: ((a.text.toList ++ (", ".toList ++ b.text.toList)) ++ [')']) := by
      simp [text]
    rw [shape, readTokens_enclosed (by rfl) (by cbv), readTokens_comma, read_text a ha,
      read_text b hb, tokens]
  | bin .min a b, ⟨ha, hb⟩ => by
    have shape : (bin .min a b).text.toList =
        "min".toList ++ '(' :: ((a.text.toList ++ (", ".toList ++ b.text.toList)) ++ [')']) := by
      simp [text]
    rw [shape, readTokens_enclosed (by rfl) (by cbv), readTokens_comma, read_text a ha,
      read_text b hb, tokens]

end SizeExpr

example : (SizeExpr.bin .mul (.var "a") (.bin .sub (.const (-2)) (.var "b"))).tokens =
    [.name "a", .times, .opening none, .number (-2), .minus, .name "b", .closing] := by
  decide

end TensorGraph
