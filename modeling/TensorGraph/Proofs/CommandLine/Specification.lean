import Mathlib
import TensorGraph.CommandLine.Specification
import TensorGraph.Text.Count

/-!
# What specifications of sizes say

Input:

* a text of the form `name=size` or `name:size,size,...`, in which a name may stand between double
  quotes.

Algorithm:

* the text is split into separators and the texts between them, and these are read from the left;
* blanks around a size are dropped, and digits are added to a number as long as it fits 64 bits.

The grammar is described apart from that, on the characters with their places (`marked`): `SizeSpec.Reads`
and `ShapeSpec.Reads`, with the written forms of a size as `IsTrimmedCount`.

Main results:

* `readTrimmedCount?_eq_some_iff`: exactly the written forms of a size are read;
* `specifications_read_exactly`: exactly the texts of the grammar are read, and the written form of a
  specification gives it back.
-/

namespace TensorGraph

/-! ## Counts that are read -/

/-- Whether characters are a written form of a count: digits, at least one, with a plus sign in front or
not, whose number fits 64 bits. -/
structure IsCount (cs : List Char) (n : Nat) : Prop where
  digits : ∃ ds, (cs = ds ∨ cs = '+' :: ds) ∧ ds ≠ [] ∧ (∀ c ∈ ds, c.isDigit = true) ∧
    Nat.ofDigitChars 10 ds 0 = n
  fits : n < 2 ^ 64

/-- Whether characters are a written form of a count with blanks around it. -/
def IsTrimmedCount (cs : List Char) (n : Nat) : Prop :=
  ∃ front core back, cs = front ++ core ++ back ∧ (∀ c ∈ front, isBlank c = true) ∧
    (∀ c ∈ back, isBlank c = true) ∧ IsCount core n

/-! ## Digits -/

theorem le_ofDigitChars (ds : List Char) (a : Nat) : a ≤ Nat.ofDigitChars 10 ds a := by
  induction ds generalizing a with
  | nil => exact Nat.le_refl a
  | cons c rest ih =>
      rw [Nat.ofDigitChars_cons]
      exact Nat.le_trans (by omega) (ih _)

/-- Digits are added to a number exactly as long as they fit. -/
theorem foldlM_addDigit_eq_ok_iff {ds : List Char} {a n : Nat} (ha : a < UInt64.size) :
    ds.foldlM addDigit a = .ok n ↔
      (∀ c ∈ ds, c.isDigit = true) ∧ Nat.ofDigitChars 10 ds a = n ∧ n < UInt64.size := by
  induction ds generalizing a with
  | nil =>
      constructor
      · intro h
        cases h
        exact ⟨by simp, rfl, ha⟩
      · rintro ⟨-, rfl, -⟩
        rfl
  | cons c rest ih =>
      have hnext : a * 10 + (c.toNat - '0'.toNat) = 10 * a + (c.toNat - '0'.toNat) := by omega
      rw [List.foldlM_cons, Nat.ofDigitChars_cons, List.forall_mem_cons, ← hnext]
      by_cases hdigit : c.isDigit = true
      · by_cases hfits : a * 10 + (c.toNat - '0'.toNat) < UInt64.size
        · have hadd : addDigit a c = .ok (a * 10 + (c.toNat - '0'.toNat)) := by
            simp only [addDigit, hdigit, Bool.not_true, Bool.false_eq_true, if_false, if_pos hfits]
          rw [hadd]
          exact (ih hfits).trans (by simp [hdigit])
        · have hadd : addDigit a c = .error .tooLarge := by
            simp only [addDigit, hdigit, Bool.not_true, Bool.false_eq_true, if_false, if_neg hfits]
          have hlarge := le_ofDigitChars rest (a * 10 + (c.toNat - '0'.toNat))
          rw [hadd]
          constructor
          · intro h
            cases h
          · rintro ⟨-, rfl, hlt⟩
            omega
      · have hadd : addDigit a c = .error .notDigit := by
          simp only [addDigit, hdigit, Bool.not_false, if_true]
        rw [hadd]
        constructor
        · intro h
          cases h
        · rintro ⟨⟨h, -⟩, -⟩
          exact absurd h hdigit

theorem readDigits_eq_ok_iff {ds : List Char} {n : Nat} :
    readDigits ds = .ok n ↔
      (∀ c ∈ ds, c.isDigit = true) ∧ Nat.ofDigitChars 10 ds 0 = n ∧ n < UInt64.size :=
  foldlM_addDigit_eq_ok_iff (by decide)

/-- Exactly the written forms of a count are read as counts. -/
theorem readCount_eq_ok_iff {cs : List Char} {n : Nat} : readCount cs = .ok n ↔ IsCount cs n := by
  constructor
  · intro h
    unfold readCount at h
    split at h
    · cases h
    · cases h
    · rename_i rest hne
      obtain ⟨hdigits, hvalue, hfits⟩ := readDigits_eq_ok_iff.1 h
      refine ⟨⟨rest, Or.inr rfl, ?_, hdigits, hvalue⟩, hfits⟩
      rintro rfl
      exact hne rfl
    · rename_i hne _ _
      obtain ⟨hdigits, hvalue, hfits⟩ := readDigits_eq_ok_iff.1 h
      exact ⟨⟨cs, Or.inl rfl, hne, hdigits, hvalue⟩, hfits⟩
  · rintro ⟨⟨ds, hcs, hne, hdigits, hvalue⟩, hfits⟩
    have hread : readDigits ds = .ok n := readDigits_eq_ok_iff.2 ⟨hdigits, hvalue, hfits⟩
    obtain ⟨d, rest, rfl⟩ := List.exists_cons_of_ne_nil hne
    rcases hcs with rfl | rfl
    · have hplus : d ≠ '+' := by
        rintro rfl
        exact absurd (hdigits '+' List.mem_cons_self) (by decide)
      unfold readCount
      split <;> simp_all
    · exact hread

/-! ## Blanks -/

theorem isBlank_of_isDigit {c : Char} (h : c.isDigit = true) : isBlank c = false := by
  have bounds : 48 ≤ c.toNat ∧ c.toNat ≤ 57 := by
    simpa [Char.isDigit, UInt32.le_iff_toNat_le] using h
  simp [isBlank]
  omega

theorem IsCount.ne_nil {cs : List Char} {n : Nat} (h : IsCount cs n) : cs ≠ [] := by
  obtain ⟨ds, rfl | rfl, hne, -, -⟩ := h.digits
  · exact hne
  · exact List.cons_ne_nil _ _

theorem IsCount.not_blank {cs : List Char} {n : Nat} (h : IsCount cs n) :
    ∀ c ∈ cs, isBlank c = false := by
  obtain ⟨ds, rfl | rfl, -, hdigits, -⟩ := h.digits
  · exact fun c hc => isBlank_of_isDigit (hdigits c hc)
  · intro c hc
    cases hc with
    | head => rfl
    | tail _ hc => exact isBlank_of_isDigit (hdigits c hc)

theorem dropWhile_isBlank_append {front core : List Char} (hfront : ∀ c ∈ front, isBlank c = true)
    (hne : core ≠ []) (hcore : ∀ c ∈ core, isBlank c = false) (back : List Char) :
    (front ++ (core ++ back)).dropWhile isBlank = core ++ back := by
  obtain ⟨c, rest, rfl⟩ := List.exists_cons_of_ne_nil hne
  rw [List.dropWhile_append_of_pos hfront, List.cons_append, List.dropWhile_cons_of_neg]
  simp [hcore c List.mem_cons_self]

/-- Blanks at both ends are dropped. -/
theorem trimBlanks_append {front core back : List Char} (hfront : ∀ c ∈ front, isBlank c = true)
    (hback : ∀ c ∈ back, isBlank c = true) (hne : core ≠ [])
    (hcore : ∀ c ∈ core, isBlank c = false) : trimBlanks (front ++ core ++ back) = core := by
  have hreverse := @dropWhile_isBlank_append back.reverse core.reverse
    (fun c hc => hback c (List.mem_reverse.1 hc)) (by simpa using hne)
    (fun c hc => hcore c (List.mem_reverse.1 hc)) []
  rw [trimBlanks, List.append_assoc, dropWhile_isBlank_append hfront hne hcore, List.reverse_append]
  rw [List.append_nil] at hreverse
  rw [hreverse, List.reverse_reverse]

/-- Only blanks at both ends are dropped. -/
theorem exists_trimBlanks (cs : List Char) :
    ∃ front back, cs = front ++ trimBlanks cs ++ back ∧ (∀ c ∈ front, isBlank c = true) ∧
      ∀ c ∈ back, isBlank c = true := by
  have hfront := List.takeWhile_append_dropWhile (p := isBlank) (l := cs)
  have hback := congrArg List.reverse
    (List.takeWhile_append_dropWhile (p := isBlank) (l := (cs.dropWhile isBlank).reverse))
  rw [List.reverse_append, List.reverse_reverse] at hback
  refine ⟨cs.takeWhile isBlank, ((cs.dropWhile isBlank).reverse.takeWhile isBlank).reverse, ?_,
    fun c hc => List.mem_takeWhile_imp hc,
    fun c hc => List.mem_takeWhile_imp (List.mem_reverse.1 hc)⟩
  rw [List.append_assoc, trimBlanks, hback, hfront]

/-- Exactly the written forms of a count are read, with blanks around them or not. -/
theorem readTrimmedCount?_eq_some_iff {cs : List Char} {n : Nat} :
    readTrimmedCount? cs = some n ↔ IsTrimmedCount cs n := by
  have ok : readTrimmedCount? cs = some n ↔ readCount (trimBlanks cs) = .ok n := by
    unfold readTrimmedCount?
    cases readCount (trimBlanks cs) <;> simp [Except.toOption]
  rw [ok, readCount_eq_ok_iff]
  constructor
  · intro h
    obtain ⟨front, back, heq, hfront, hback⟩ := exists_trimBlanks cs
    exact ⟨front, trimBlanks cs, back, heq, hfront, hback, h⟩
  · rintro ⟨front, core, back, rfl, hfront, hback, h⟩
    rwa [trimBlanks_append hfront hback h.ne_nil h.not_blank]

/-- The decimal form of a number is a count. -/
theorem isCount_toString {n : Nat} (h : n < 2 ^ 64) : IsCount (toString n).toList n := by
  have hdigits : (toString n).toList = Nat.toDigits 10 n := by
    rw [Nat.toString_eq_ofList_toDigits, String.toList_ofList]
  rw [hdigits]
  exact ⟨⟨Nat.toDigits 10 n, Or.inl rfl, Nat.toDigits_ne_nil,
    fun c hc => Nat.isDigit_of_mem_toDigits (by decide) (by decide) hc,
    Nat.ofDigitChars_ten_toDigits⟩, h⟩

/-! ## Characters with their places -/

/-- The characters of a text without its double quotes, each with whether it stands between quotes. -/
def marked : Bool → List Char → List (Char × Bool)
  | _, [] => []
  | inQuotes, c :: rest =>
    if c = '"' then marked (!inQuotes) rest else (c, inQuotes) :: marked inQuotes rest

/-- Whether no separator stands outside quotes. -/
def Unseparated (separators : List Char) (piece : List (Char × Bool)) : Prop :=
  ∀ c ∈ separators, (c, false) ∉ piece

theorem Unseparated.tail {separators : List Char} {p : Char × Bool} {piece : List (Char × Bool)}
    (h : Unseparated separators (p :: piece)) : Unseparated separators piece :=
  fun c hc hmem => h c hc (List.mem_cons_of_mem _ hmem)

theorem marked_append {inQuotes : Bool} {cs : List Char} (h : '"' ∉ cs) (rest : List Char) :
    marked inQuotes (cs ++ rest) = cs.map (fun c => (c, inQuotes)) ++ marked inQuotes rest := by
  induction cs with
  | nil => rfl
  | cons c cs ih =>
      have hc : c ≠ '"' := fun heq => h (heq ▸ List.mem_cons_self)
      have hcs : '"' ∉ cs := fun hmem => h (List.mem_cons_of_mem _ hmem)
      rw [List.cons_append, marked, if_neg hc, ih hcs, List.map_cons, List.cons_append]

namespace SpecToken

/-- Split characters with their places into separators and texts. -/
def ofMarked (separators : List Char) : List (Char × Bool) → List SpecToken
  | [] => []
  | p :: rest =>
    if p.2 = false ∧ p.1 ∈ separators then separator p.1 :: ofMarked separators rest
    else consText p.1 (ofMarked separators rest)

variable {separators : List Char}

theorem split_eq (inQuotes : Bool) (cs : List Char) :
    split separators inQuotes cs = ofMarked separators (marked inQuotes cs) := by
  induction cs generalizing inQuotes with
  | nil => rfl
  | cons c rest ih =>
      rw [split, marked]
      by_cases hquote : c = '"'
      · rw [if_pos hquote, if_pos hquote, ih]
      · rw [if_neg hquote, if_neg hquote, ofMarked, ih]
        cases inQuotes <;> simp

theorem consText_ne_nil (c : Char) (tokens : List SpecToken) : consText c tokens ≠ [] := by
  unfold consText
  split <;> simp

theorem ofMarked_eq_nil_iff {m : List (Char × Bool)} : ofMarked separators m = [] ↔ m = [] := by
  cases m with
  | nil => simp [ofMarked]
  | cons p rest =>
      rw [ofMarked]
      split <;> simp [consText_ne_nil]

/-- A separator is the first token exactly when it comes first. -/
theorem ofMarked_eq_separator_iff {m : List (Char × Bool)} {c : Char} {tokens : List SpecToken} :
    ofMarked separators m = separator c :: tokens ↔
      ∃ rest, m = (c, false) :: rest ∧ c ∈ separators ∧ ofMarked separators rest = tokens := by
  cases m with
  | nil => simp [ofMarked]
  | cons p rest =>
      obtain ⟨d, inQuotes⟩ := p
      rw [ofMarked]
      split
      · rename_i hsep
        obtain ⟨rfl, hsep⟩ : inQuotes = false ∧ d ∈ separators := hsep
        constructor
        · intro h
          cases h
          exact ⟨rest, rfl, hsep, rfl⟩
        · rintro ⟨rest', h, -, rfl⟩
          cases h
          rfl
      · rename_i hsep
        constructor
        · intro h
          unfold consText at h
          split at h <;> cases h
        · rintro ⟨rest', h, hmem, -⟩
          cases h
          exact absurd ⟨rfl, hmem⟩ hsep

/-- Whether tokens do not start with a text. -/
def StartsNoText (tokens : List SpecToken) : Prop := ∀ cs rest, tokens ≠ text cs :: rest

theorem consText_of_startsNoText {tokens : List SpecToken} (h : StartsNoText tokens) (c : Char) :
    consText c tokens = text [c] :: tokens := by
  unfold consText
  split
  · exact absurd rfl (h _ _)
  · rfl

theorem ofMarked_cons_of_unseparated {p : Char × Bool} {piece : List (Char × Bool)}
    (h : Unseparated separators (p :: piece)) (rest : List (Char × Bool)) :
    ofMarked separators (p :: rest) = consText p.1 (ofMarked separators rest) := by
  rw [ofMarked, if_neg]
  rintro ⟨hplace, hmem⟩
  exact h p.1 hmem (by rw [← hplace]; exact List.mem_cons_self)

/-- Characters without separators are one text in front of the other tokens. -/
theorem ofMarked_append {piece rest : List (Char × Bool)} (hne : piece ≠ [])
    (hpiece : Unseparated separators piece) (hrest : StartsNoText (ofMarked separators rest)) :
    ofMarked separators (piece ++ rest) =
      text (piece.map Prod.fst) :: ofMarked separators rest := by
  induction piece with
  | nil => exact absurd rfl hne
  | cons p piece ih =>
      rw [List.cons_append, ofMarked_cons_of_unseparated hpiece]
      cases piece with
      | nil => exact consText_of_startsNoText hrest p.1
      | cons q piece =>
          rw [ih (List.cons_ne_nil _ _) hpiece.tail]
          rfl

/-- A text that comes first is made of characters without separators, up to the end or a separator. -/
theorem exists_of_ofMarked_eq_text {m : List (Char × Bool)} {cs : List Char}
    {tokens : List SpecToken} (h : ofMarked separators m = text cs :: tokens) :
    ∃ piece rest, m = piece ++ rest ∧ piece ≠ [] ∧ Unseparated separators piece ∧
      piece.map Prod.fst = cs ∧ ofMarked separators rest = tokens ∧ StartsNoText tokens := by
  induction m generalizing cs tokens with
  | nil => cases h
  | cons p rest ih =>
      rw [ofMarked] at h
      split at h
      · cases h
      · rename_i hsep
        have first : ∀ c ∈ separators, (c, false) ≠ p := by
          rintro c hc rfl
          exact hsep ⟨rfl, hc⟩
        have single : Unseparated separators [p] :=
          fun c hc hmem => first c hc (List.mem_singleton.1 hmem)
        cases htokens : ofMarked separators rest with
        | nil =>
            rw [htokens] at h
            cases h
            exact ⟨[p], rest, rfl, List.cons_ne_nil _ _, single, rfl, htokens, fun _ _ => nofun⟩
        | cons token more =>
            rw [htokens] at h
            cases token with
            | separator d =>
                cases h
                exact ⟨[p], rest, rfl, List.cons_ne_nil _ _, single, rfl, htokens, fun _ _ => nofun⟩
            | text ds =>
                cases h
                obtain ⟨piece, rest', rfl, -, hpiece, rfl, htokens', hno⟩ := ih htokens
                refine ⟨p :: piece, rest', rfl, List.cons_ne_nil _ _, ?_, rfl, htokens', hno⟩
                intro c hc hmem
                cases hmem with
                | head => exact first c hc rfl
                | tail _ hmem => exact hpiece c hc hmem

end SpecToken

/-! ## Sizes of named dimensions -/

namespace SizeSpec

/-- Whether a text says that a named dimension has a size: without its quotes, it is a name, an equality sign
and a count, where no other equality sign stands outside quotes. -/
def Reads (s : String) (r : SizeSpec) : Prop :=
  ∃ name size, marked false s.toList = name ++ ('=', false) :: size ∧ name ≠ [] ∧
    Unseparated ['='] name ∧ Unseparated ['='] size ∧ r.name = String.ofList (name.map Prod.fst) ∧
    IsTrimmedCount (size.map Prod.fst) r.size

end SizeSpec

theorem IsTrimmedCount.ne_nil {cs : List Char} {n : Nat} (h : IsTrimmedCount cs n) : cs ≠ [] := by
  obtain ⟨front, core, back, rfl, -, -, hcore⟩ := h
  simp [hcore.ne_nil]

open SpecToken

/-- The three parts of a size are split off the text. -/
theorem SizeSpec.split_eq_iff {s : String} {name size : List Char} :
    split ['='] false s.toList = [text name, separator '=', text size] ↔
      ∃ front back, marked false s.toList = front ++ ('=', false) :: back ∧ front ≠ [] ∧ back ≠ [] ∧
        Unseparated ['='] front ∧ Unseparated ['='] back ∧ front.map Prod.fst = name ∧
        back.map Prod.fst = size := by
  rw [split_eq]
  constructor
  · intro h
    obtain ⟨front, rest, heq, hfront, plain, hname, htokens, -⟩ := exists_of_ofMarked_eq_text h
    obtain ⟨rest', rfl, -, htokens'⟩ := ofMarked_eq_separator_iff.1 htokens
    obtain ⟨back, last, rfl, hback, plain', hsize, hlast, -⟩ := exists_of_ofMarked_eq_text htokens'
    have hnil : last = [] := ofMarked_eq_nil_iff.1 hlast
    rw [hnil, List.append_nil] at heq
    exact ⟨front, back, heq, hfront, hback, plain, plain', hname, hsize⟩
  · rintro ⟨front, back, heq, hfront, hback, plain, plain', rfl, rfl⟩
    have hend : ofMarked ['='] back = [text (back.map Prod.fst)] := by
      have h : ofMarked ['='] (back ++ []) = [text (back.map Prod.fst)] :=
        ofMarked_append hback plain' (fun _ _ => nofun)
      rwa [List.append_nil] at h
    have hmiddle : ofMarked ['='] (('=', false) :: back) =
        [separator '=', text (back.map Prod.fst)] :=
      ofMarked_eq_separator_iff.2 ⟨back, rfl, List.mem_singleton.2 rfl, hend⟩
    rw [heq, ofMarked_append hfront plain (by rw [hmiddle]; exact fun _ _ => nofun), hmiddle]

/-- Exactly the texts that say it are read. -/
theorem SizeSpec.read_eq_ok_iff {s : String} {r : SizeSpec} :
    SizeSpec.read s = .ok r ↔ SizeSpec.Reads s r := by
  constructor
  · intro h
    unfold SizeSpec.read at h
    split at h
    · rename_i name size hsplit
      split at h
      · rename_i n hcount
        cases h
        obtain ⟨front, back, heq, hfront, -, plain, plain', rfl, rfl⟩ := split_eq_iff.1 hsplit
        exact ⟨front, back, heq, hfront, plain, plain', rfl,
          readTrimmedCount?_eq_some_iff.1 hcount⟩
      · cases h
    · cases h
  · rintro ⟨front, back, heq, hfront, plain, plain', hname, hcount⟩
    have hback : back ≠ [] := fun hnil => hcount.ne_nil (congrArg (List.map Prod.fst) hnil)
    have hsplit := split_eq_iff.2 ⟨front, back, heq, hfront, hback, plain, plain', rfl, rfl⟩
    have hread := readTrimmedCount?_eq_some_iff.2 hcount
    unfold SizeSpec.read
    rw [hsplit]
    simp only [hread, ← hname]

/-! ## Shapes of inputs -/

namespace ShapeSpec

/-- Whether pieces are texts between separators that are counts. -/
structure AreCounts (pieces : List (List (Char × Bool))) (sizes : List Nat) : Prop where
  separate : ∀ piece ∈ pieces, piece ≠ [] ∧ Unseparated [':', ','] piece
  counts : List.Forall₂ (fun piece n => IsTrimmedCount (piece.map Prod.fst) n) pieces sizes

/-- Whether a text says that an input has a shape: without its quotes, it is a name, a colon and counts with
single commas between them, if there are any, where no other colon or comma stands outside quotes. -/
def Reads (s : String) (r : ShapeSpec) : Prop :=
  ∃ name pieces, marked false s.toList = name ++ (':', false) :: [(',', false)].intercalate pieces ∧
    name ≠ [] ∧ Unseparated [':', ','] name ∧
    r.name = String.ofList (name.map Prod.fst) ∧ AreCounts pieces r.sizes

/-- Pieces with a separator before each of them. -/
def following (pieces : List (List (Char × Bool))) : List (Char × Bool) :=
  pieces.flatMap fun piece => (',', false) :: piece

theorem intercalate_cons (piece : List (Char × Bool)) (pieces : List (List (Char × Bool))) :
    [(',', false)].intercalate (piece :: pieces) = piece ++ following pieces := by
  induction pieces generalizing piece with
  | nil => simp [List.intercalate, following]
  | cons q rest ih =>
      have hstep : [(',', false)].intercalate (piece :: q :: rest) =
          piece ++ (',', false) :: [(',', false)].intercalate (q :: rest) := by
        simp [List.intercalate]
      rw [hstep, ih, following, following, List.flatMap_cons, List.cons_append]

theorem startsNoText_following (pieces : List (List (Char × Bool))) :
    StartsNoText (ofMarked [':', ','] (following pieces)) := by
  cases pieces with
  | nil => exact fun _ _ => nofun
  | cons piece rest =>
      rw [following, List.flatMap_cons, List.cons_append, ofMarked, if_pos ⟨rfl, by simp⟩]
      exact fun _ _ => nofun

theorem AreCounts.cons {piece : List (Char × Bool)} {pieces : List (List (Char × Bool))} {n : Nat}
    {sizes : List Nat} (hne : piece ≠ []) (plain : Unseparated [':', ','] piece)
    (count : IsTrimmedCount (piece.map Prod.fst) n) (rest : AreCounts pieces sizes) :
    AreCounts (piece :: pieces) (n :: sizes) := by
  refine ⟨?_, .cons count rest.counts⟩
  intro q hq
  cases hq with
  | head => exact ⟨hne, plain⟩
  | tail _ hq => exact rest.separate q hq

/-- Counts with commas before them are read as the sizes behind the first one, and nothing else is. -/
theorem readMore?_eq_some_iff {m : List (Char × Bool)} {sizes : List Nat} :
    readMore? (ofMarked [':', ','] m) = some sizes ↔
      ∃ pieces, m = following pieces ∧ AreCounts pieces sizes := by
  constructor
  · intro h
    generalize htokens : ofMarked [':', ','] m = tokens at h
    induction tokens using readMore?.induct generalizing m sizes with
    | case1 =>
        cases h
        exact ⟨[], ofMarked_eq_nil_iff.1 htokens, by simp, .nil⟩
    | case2 size rest ih =>
        simp only [readMore?, Option.bind_eq_bind, Option.bind_eq_some_iff, Option.pure_def,
          Option.some.injEq] at h
        obtain ⟨n, hcount, more, hmore, rfl⟩ := h
        obtain ⟨behind, rfl, -, hbehind⟩ := ofMarked_eq_separator_iff.1 htokens
        obtain ⟨piece, rest', rfl, hne, plain, rfl, hrest, -⟩ := exists_of_ofMarked_eq_text hbehind
        obtain ⟨pieces, rfl, counts⟩ := ih hrest hmore
        exact ⟨piece :: pieces, by simp [following],
          .cons hne plain (readTrimmedCount?_eq_some_iff.1 hcount) counts⟩
    | case3 tokens hnil hcons => simp [readMore?] at h
  · rintro ⟨pieces, rfl, hpieces, hcounts⟩
    induction hcounts with
    | nil => rfl
    | @cons piece n pieces sizes hcount _ ih =>
        obtain ⟨hne, plain⟩ := hpieces piece List.mem_cons_self
        have hrest := ih fun q hq => hpieces q (List.mem_cons_of_mem _ hq)
        have hread := readTrimmedCount?_eq_some_iff.2 hcount
        have htokens : ofMarked [':', ','] (following (piece :: pieces)) =
            separator ',' :: text (piece.map Prod.fst) :: ofMarked [':', ','] (following pieces) := by
          rw [← ofMarked_append hne plain (startsNoText_following pieces)]
          exact ofMarked_eq_separator_iff.2 ⟨_, rfl, by simp, rfl⟩
        rw [htokens]
        simp [readMore?, hread, hrest]

/-- Counts with commas between them are read as sizes, and nothing else is. -/
theorem readSizes?_eq_some_iff {m : List (Char × Bool)} {sizes : List Nat} :
    readSizes? (ofMarked [':', ','] m) = some sizes ↔
      ∃ pieces, m = [(',', false)].intercalate pieces ∧ AreCounts pieces sizes := by
  constructor
  · intro h
    generalize htokens : ofMarked [':', ','] m = tokens at h
    unfold readSizes? at h
    split at h
    · cases h
      exact ⟨[], ofMarked_eq_nil_iff.1 htokens, by simp, .nil⟩
    · rename_i size rest
      simp only [Option.bind_eq_bind, Option.bind_eq_some_iff, Option.pure_def,
        Option.some.injEq] at h
      obtain ⟨n, hcount, more, hmore, rfl⟩ := h
      obtain ⟨piece, rest', rfl, hne, plain, rfl, rfl, -⟩ := exists_of_ofMarked_eq_text htokens
      obtain ⟨pieces, rfl, counts⟩ := readMore?_eq_some_iff.1 hmore
      exact ⟨piece :: pieces, (intercalate_cons piece pieces).symm,
        .cons hne plain (readTrimmedCount?_eq_some_iff.1 hcount) counts⟩
    · cases h
  · rintro ⟨pieces, rfl, hpieces, hcounts⟩
    cases hcounts with
    | nil => rfl
    | @cons piece n pieces sizes hcount hcounts =>
        obtain ⟨hne, plain⟩ := hpieces piece List.mem_cons_self
        have hread := readTrimmedCount?_eq_some_iff.2 hcount
        have hmore := readMore?_eq_some_iff.2
          ⟨pieces, rfl, fun q hq => hpieces q (List.mem_cons_of_mem _ hq), hcounts⟩
        rw [intercalate_cons, ofMarked_append hne plain (startsNoText_following pieces)]
        simp [readSizes?, hread, hmore]

/-- Exactly the texts that say it are read. -/
theorem read_eq_ok_iff {s : String} {r : ShapeSpec} : ShapeSpec.read s = .ok r ↔ Reads s r := by
  unfold ShapeSpec.read
  rw [split_eq]
  constructor
  · intro h
    split at h
    · rename_i name rest hsplit
      split at h
      · rename_i sizes hsizes
        cases h
        obtain ⟨front, behind, heq, hfront, plain, rfl, htokens, -⟩ :=
          exists_of_ofMarked_eq_text hsplit
        obtain ⟨behind', rfl, -, rfl⟩ := ofMarked_eq_separator_iff.1 htokens
        obtain ⟨pieces, rfl, counts⟩ := readSizes?_eq_some_iff.1 hsizes
        exact ⟨front, pieces, heq, hfront, plain, rfl, counts⟩
      · cases h
    · cases h
  · rintro ⟨front, pieces, heq, hfront, plain, hname, counts⟩
    have hcolon : ofMarked [':', ','] ((':', false) :: [(',', false)].intercalate pieces) =
        separator ':' :: ofMarked [':', ','] ([(',', false)].intercalate pieces) :=
      ofMarked_eq_separator_iff.2 ⟨_, rfl, by simp, rfl⟩
    have hsizes := readSizes?_eq_some_iff.2 ⟨pieces, rfl, counts⟩
    rw [heq, ofMarked_append hfront plain (by rw [hcolon]; exact fun _ _ => nofun), hcolon]
    simp only [hsizes, ← hname]

end ShapeSpec

/-! ## Written forms -/

/-- The written form of the size of a named dimension. -/
def SizeSpec.text (r : SizeSpec) : String := "\"" ++ r.name ++ "\"=" ++ toString r.size

/-- The written form of the shape of an input. -/
def ShapeSpec.text (r : ShapeSpec) : String :=
  "\"" ++ r.name ++ "\":" ++ ",".intercalate (r.sizes.map toString)

theorem unseparated_quoted (separators name : List Char) :
    Unseparated separators (name.map fun c => (c, true)) := by
  intro c _ hmem
  simp at hmem

theorem isDigit_of_mem_toString {n : Nat} {c : Char} (h : c ∈ (toString n).toList) :
    c.isDigit = true := by
  rw [Nat.toString_eq_ofList_toDigits, String.toList_ofList] at h
  exact Nat.isDigit_of_mem_toDigits (by decide) (by decide) h

theorem quote_not_mem_toString (n : Nat) : '"' ∉ (toString n).toList :=
  fun h => absurd (isDigit_of_mem_toString h) (by decide)

theorem unseparated_toString {separators : List Char} (h : ∀ c ∈ separators, c.isDigit = false)
    (n : Nat) : Unseparated separators ((toString n).toList.map fun c => (c, false)) := by
  intro c hc hmem
  obtain ⟨d, hd, heq⟩ := List.mem_map.1 hmem
  cases heq
  exact absurd ((isDigit_of_mem_toString hd).symm.trans (h c hc)) (by decide)

theorem map_fst_mark (inQuotes : Bool) (cs : List Char) :
    (cs.map fun c => (c, inQuotes)).map Prod.fst = cs := by
  rw [List.map_map]
  exact List.map_id cs

/-- The decimal form of a size is a count. -/
theorem isTrimmedCount_toString {n : Nat} (h : n < 2 ^ 64) :
    IsTrimmedCount (((toString n).toList.map fun c => (c, false)).map Prod.fst) n := by
  rw [map_fst_mark]
  exact ⟨[], (toString n).toList, [], by simp, by simp, by simp, isCount_toString h⟩

/-- A name in quotes is a name that is followed by what stands behind it. -/
theorem marked_quoted {name : List Char} (h : '"' ∉ name) (rest : List Char) :
    marked false ('"' :: (name ++ '"' :: rest)) =
      name.map (fun c => (c, true)) ++ marked false rest := by
  rw [marked, if_pos rfl, Bool.not_false, marked_append h, marked, if_pos rfl, Bool.not_true]

theorem marked_intercalate {pieces : List (List Char)} (h : ∀ piece ∈ pieces, '"' ∉ piece) :
    marked false ([','].intercalate pieces) =
      [(',', false)].intercalate (pieces.map (List.map fun c => (c, false))) := by
  induction pieces with
  | nil => rfl
  | cons piece pieces ih =>
      have hpiece := h piece List.mem_cons_self
      have hrest := ih fun q hq => h q (List.mem_cons_of_mem _ hq)
      cases pieces with
      | nil =>
          rw [List.intercalate_singleton, List.map_singleton, List.intercalate_singleton,
            ← List.append_nil piece, marked_append hpiece, marked, List.append_nil, List.append_nil]
      | cons q pieces =>
          rw [List.intercalate_cons_cons, List.append_assoc, marked_append hpiece,
            List.singleton_append, marked, if_neg (by decide), hrest]
          simp only [List.map_cons, List.intercalate_cons_cons, List.append_assoc,
            List.singleton_append]

theorem SizeSpec.reads_text {r : SizeSpec} (named : r.name ≠ "") (plain : '"' ∉ r.name.toList)
    (fits : r.size < 2 ^ 64) : SizeSpec.Reads r.text r := by
  have htext : r.text.toList = '"' :: (r.name.toList ++ '"' :: '=' :: (toString r.size).toList) := by
    simp [SizeSpec.text]
  have hmarked : marked false ('=' :: (toString r.size).toList) =
      ('=', false) :: (toString r.size).toList.map fun c => (c, false) := by
    rw [marked, if_neg (by decide), ← List.append_nil (toString r.size).toList,
      marked_append (quote_not_mem_toString r.size), marked, List.append_nil, List.append_nil]
  refine ⟨r.name.toList.map fun c => (c, true), (toString r.size).toList.map fun c => (c, false), ?_,
    ?_, unseparated_quoted _ _, unseparated_toString (by simp) _, ?_,
    isTrimmedCount_toString fits⟩
  · rw [htext, marked_quoted plain, hmarked]
  · simpa using named
  · rw [map_fst_mark, String.ofList_toList]

theorem ShapeSpec.reads_text {r : ShapeSpec} (named : r.name ≠ "") (plain : '"' ∉ r.name.toList)
    (fits : ∀ n ∈ r.sizes, n < 2 ^ 64) : ShapeSpec.Reads r.text r := by
  have htext : r.text.toList = '"' :: (r.name.toList ++
      '"' :: ':' :: [','].intercalate (r.sizes.map fun n => (toString n).toList)) := by
    simp [ShapeSpec.text, Function.comp_def]
  have hmarked : marked false (':' :: [','].intercalate (r.sizes.map fun n => (toString n).toList)) =
      (':', false) :: [(',', false)].intercalate
        (r.sizes.map fun n => (toString n).toList.map fun c => (c, false)) := by
    rw [marked, if_neg (by decide), marked_intercalate, List.map_map]
    · rfl
    · intro piece hpiece
      obtain ⟨n, -, rfl⟩ := List.mem_map.1 hpiece
      exact quote_not_mem_toString n
  refine ⟨r.name.toList.map fun c => (c, true), _, by rw [htext, marked_quoted plain, hmarked], ?_,
    unseparated_quoted _ _, ?_, ?_, ?_⟩
  · simpa using named
  · rw [map_fst_mark, String.ofList_toList]
  · intro piece hpiece
    obtain ⟨n, hn, rfl⟩ := List.mem_map.1 hpiece
    have hcount := isTrimmedCount_toString (fits n hn)
    refine ⟨fun hnil => hcount.ne_nil ?_, unseparated_toString (by simp) n⟩
    rw [hnil, List.map_nil]
  · rw [List.forall₂_map_left_iff, List.forall₂_same]
    exact fun n hn => isTrimmedCount_toString (fits n hn)

/-- Specifications of sizes are read exactly.  A name in quotes with sizes behind it is read as this name
and these sizes, and a text is read exactly when it is a name and sizes in the sense of the grammar. -/
theorem specifications_read_exactly :
    (∀ (name : String) (sizes : List Nat), name ≠ "" → '"' ∉ name.toList →
      (∀ n ∈ sizes, n < 2 ^ 64) →
      ShapeSpec.read ("\"" ++ name ++ "\":" ++ ",".intercalate (sizes.map toString)) =
        .ok ⟨name, sizes⟩) ∧
      (∀ (name : String) (size : Nat), name ≠ "" → '"' ∉ name.toList → size < 2 ^ 64 →
        SizeSpec.read ("\"" ++ name ++ "\"=" ++ toString size) = .ok ⟨name, size⟩) ∧
      (∀ (s : String) (r : ShapeSpec), ShapeSpec.read s = .ok r ↔ ShapeSpec.Reads s r) ∧
      ∀ (s : String) (r : SizeSpec), SizeSpec.read s = .ok r ↔ SizeSpec.Reads s r := by
  refine ⟨fun name sizes named plain fits => ?_, fun name size named plain fits => ?_,
    fun _ _ => ShapeSpec.read_eq_ok_iff, fun _ _ => SizeSpec.read_eq_ok_iff⟩
  · have h : ShapeSpec.Reads (ShapeSpec.text ⟨name, sizes⟩) ⟨name, sizes⟩ :=
      ShapeSpec.reads_text named plain fits
    exact ShapeSpec.read_eq_ok_iff.2 h
  · have h : SizeSpec.Reads (SizeSpec.text ⟨name, size⟩) ⟨name, size⟩ :=
      SizeSpec.reads_text named plain fits
    exact SizeSpec.read_eq_ok_iff.2 h

/-- A name with separators in it, no sizes at all, and the largest size. -/
theorem specifications_read_exactly_separators :
    ShapeSpec.read "\"input:0,1\":" = .ok ⟨"input:0,1", []⟩ ∧
      ShapeSpec.read "\"x\":1,18446744073709551615" = .ok ⟨"x", [1, 18446744073709551615]⟩ ∧
      SizeSpec.read "\"a=b\"=2" = .ok ⟨"a=b", 2⟩ := by
  obtain ⟨shape, size, -, -⟩ := specifications_read_exactly
  refine ⟨?_, ?_, ?_⟩
  · exact shape "input:0,1" [] (by decide) (by decide) (by simp)
  · exact shape "x" [1, 18446744073709551615] (by decide) (by decide) (by simp)
  · exact size "a=b" 2 (by decide) (by decide) (by decide)

end TensorGraph
