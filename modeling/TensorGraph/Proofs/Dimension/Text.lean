import Mathlib
import TensorGraph.Dimension.Basic
import TensorGraph.Proofs.Dimension.Token
import TensorGraph.Proofs.Dimension.Value

/-!
# The value of a size from its written form

Input:

* the text of an expression in which names are identifiers.

Algorithm:

* the tokens of the text are taken from the left; between two brackets the state is a `Frame`, and
  the open frames form a stack (`Frame.step`).

Result:

* `SizeExpr.calculate_text`: the value is that of the expression, if no product has a quotient among
  its right factors and no operand of a quotient that is rounded up shows a slash
  (`SizeExpr.IsClear`);
* `SizeExpr.eval_eq_of_text_eq`: among such expressions the text determines the value;
* `SizeExpr.text_mul_div` and `SizeExpr.text_divCeil_div`: what is not clear is written alike, so
  among simplified expressions the text does not determine the value
  (`SizeExpr.exists_text_eq_eval_ne`);
* `Dim.holds_iff_of_toMessage_eq`: dimensions that are stored alike hold of the same sizes.
-/

namespace TensorGraph

variable {σ : String → Int}

/-! ## Calculation from the left -/

/-- What is known between two brackets.  `product` combines what was read of the current product
with the next factor, and `sum` what was read of the current sum with the next summand. -/
structure Frame where
  /-- The operation named before the bracket. -/
  call : Option SizeOp
  /-- The first operand of the operation, once it is complete. -/
  first : Int
  sum : Int → Int
  product : Int → Int
  /-- The value of the current product. -/
  value : Int

namespace Frame

/-- The frame after an opening bracket. -/
def start (call : Option SizeOp) : Frame where
  call := call
  first := 0
  sum := id
  product := id
  value := 0

/-- The value of the current sum. -/
def total (f : Frame) : Int := f.sum f.value

/-- Take a factor. -/
def factor (f : Frame) (v : Int) : Frame := { f with value := f.product v }

/-- Turn to the second operand of the operation. -/
def next (f : Frame) : Frame := { f with first := f.total, sum := id, product := id }

/-- The value of the brackets. -/
def result (f : Frame) : Int :=
  match f.call with
  | none => f.total
  | some op => op.apply f.first f.total

/-- Take a token.  A slash directly in a quotient that is rounded up stands between its operands. -/
def step (σ : String → Int) : List Frame → Token → List Frame
  | fs, .opening call => start call :: fs
  | f :: fs, .number v => f.factor v :: fs
  | f :: fs, .name x => f.factor (σ x) :: fs
  | f :: fs, .plus => { f with sum := (f.total + ·), product := id } :: fs
  | f :: fs, .minus => { f with sum := (f.total - ·), product := id } :: fs
  | f :: fs, .times => { f with product := (f.value * ·) } :: fs
  | f :: fs, .slash =>
    (if f.call = some .divCeil then f.next else { f with product := (f.value / ·) }) :: fs
  | f :: fs, .comma => f.next :: fs
  | f :: g :: fs, .closing => g.factor f.result :: fs
  | fs, _ => fs

/-- Take some tokens. -/
def run (σ : String → Int) (fs : List Frame) (ts : List Token) : List Frame := ts.foldl (step σ) fs

theorem run_append (fs : List Frame) (ts us : List Token) :
    run σ fs (ts ++ us) = run σ (run σ fs ts) us :=
  List.foldl_append

theorem run_cons (fs : List Frame) (t : Token) (ts : List Token) :
    run σ fs (t :: ts) = run σ (step σ fs t) ts :=
  rfl

/-- The frame `g` follows `f` when a value was read that was written with the given precedence. -/
structure Took (f : Frame) (v : Int) (precedence : Nat) (g : Frame) : Prop where
  call : g.call = f.call
  first : g.first = f.first
  total : g.total = f.sum (f.product v)
  /-- Unless the value is that of a sum, it may be a factor of a longer product. -/
  factor : 2 ≤ precedence → g.sum = f.sum ∧ g.value = f.product v

theorem took_of_factor {f g : Frame} {v : Int} {precedence : Nat} (call : g.call = f.call)
    (first : g.first = f.first) (sum : g.sum = f.sum) (value : g.value = f.product v) :
    f.Took v precedence g :=
  ⟨call, first, by rw [total, sum, value], fun _ => ⟨sum, value⟩⟩

theorem took_factor (f : Frame) (v : Int) (precedence : Nat) :
    f.Took v precedence (f.factor v) :=
  ⟨rfl, rfl, rfl, fun _ => ⟨rfl, rfl⟩⟩

end Frame

namespace SizeExpr

/-! ## Clear expressions -/

/-- Whether an expression that stands as a factor shows a slash. -/
def slashInProduct : SizeExpr → Bool
  | bin .div _ _ => true
  | bin .mul a b => a.slashInProduct || b.slashInProduct
  | _ => false

/-- Whether an expression shows a slash outside brackets. -/
def slashInSum : SizeExpr → Bool
  | bin .add a b => a.slashInSum || b.slashInSum
  | bin .sub a b => a.slashInSum || b.slashInProduct
  | e => e.slashInProduct

/-- Whether the written form shows where every quotient ends: no right operand of a product shows a
slash, and neither does an operand of a quotient that is rounded up. -/
def IsClear : SizeExpr → Prop
  | bin .mul a b => a.IsClear ∧ b.IsClear ∧ b.slashInProduct = false
  | bin .divCeil a b => a.IsClear ∧ b.IsClear ∧ a.slashInSum = false ∧ b.slashInSum = false
  | bin _ a b => a.IsClear ∧ b.IsClear
  | _ => True

@[simp] theorem precedence_bin (op : SizeOp) (a b : SizeExpr) :
    (bin op a b).precedence = op.precedence := rfl

/-- Outside sums, a slash shows in a product or not at all. -/
theorem slashInSum_eq : ∀ {e : SizeExpr}, 2 ≤ e.precedence → e.slashInSum = e.slashInProduct
  | bin .add _ _, loose | bin .sub _ _, loose => absurd loose (by simp [SizeOp.precedence])
  | const _, _ | var _, _ | bin .mul _ _, _ | bin .div _ _, _ | bin .divCeil _ _, _
  | bin .max _ _, _ | bin .min _ _, _ => rfl

/-- Only products and quotients show slashes as factors. -/
theorem slashInProduct_eq_false : ∀ {e : SizeExpr}, e.precedence ≠ 2 → e.slashInProduct = false
  | bin .mul _ _, other | bin .div _ _, other => absurd rfl other
  | const _, _ | var _, _ | bin .add _ _, _ | bin .sub _ _, _ | bin .divCeil _ _, _
  | bin .max _ _, _ | bin .min _ _, _ => rfl

theorem one_le_precedence : ∀ e : SizeExpr, 1 ≤ e.precedence
  | const _ | var _ => by simp [precedence]
  | bin op _ _ => by cases op <;> simp [SizeOp.precedence]

/-- Operands of sums need no brackets on the left. -/
theorem inBrackets_summand (e : SizeExpr) (ts : List Token) :
    inBrackets (e.precedence < 1) ts = ts := by
  have bare : ¬e.precedence < 1 := by
    have := one_le_precedence e
    omega
  simp [inBrackets, bare]

end SizeExpr

/-! ## Reading an expression -/

namespace Frame

open SizeExpr

/-- The expression may stand next in the frame without brackets. -/
structure Accepts (f : Frame) (e : SizeExpr) : Prop where
  slash : e.slashInSum = true → f.call ≠ some .divCeil
  sum : e.precedence = 1 → f.product = id ∧ ∀ x y, f.sum (x + y) = f.sum x + y
  product : e.precedence = 2 → ∀ x y, f.product (x * y) = f.product x * y
  quotient : e.slashInProduct = true → f.product = id

variable {f : Frame} {e a b : SizeExpr}

/-- Any expression may start a sum. -/
theorem accepts_first (slash : e.slashInSum = true → f.call ≠ some .divCeil)
    (product : f.product = id) (sum : ∀ x y, f.sum (x + y) = f.sum x + y) : f.Accepts e where
  slash := slash
  sum _ := ⟨product, sum⟩
  product _ x y := by rw [product, id, id]
  quotient _ := product

/-- A factor shows no sum outside brackets. -/
theorem accepts_factor (tight : 2 ≤ e.precedence)
    (slash : e.slashInProduct = true → f.call ≠ some .divCeil)
    (product : e.precedence = 2 → ∀ x y, f.product (x * y) = f.product x * y)
    (quotient : e.slashInProduct = true → f.product = id) : f.Accepts e where
  slash s := slash (slashInSum_eq tight ▸ s)
  sum loose := by omega
  product := product
  quotient := quotient

theorem accepts_start {call : Option SizeOp}
    (slash : e.slashInSum = true → call ≠ some .divCeil) : (start call).Accepts e :=
  accepts_first slash rfl fun _ _ => rfl

/-- An expression is readable if reading its tokens gives its value to each frame that accepts
it. -/
def Readable (σ : String → Int) (e : SizeExpr) : Prop :=
  ∀ f fs, f.Accepts e → ∃ g, f.Took (e.eval σ) e.precedence g ∧ run σ (f :: fs) e.tokens = g :: fs

/-- An operand that is read as one factor stands in brackets or binds tightly. -/
theorem Readable.factor (h : Readable σ e) (f : Frame) (fs : List Frame) (needed : Bool)
    (bare : needed = false → 2 ≤ e.precedence ∧ f.Accepts e) :
    ∃ g, f.Took (e.eval σ) 2 g ∧ run σ (f :: fs) (inBrackets needed e.tokens) = g :: fs := by
  cases needed with
  | false =>
    obtain ⟨tight, accepts⟩ := bare rfl
    obtain ⟨g, took, reads⟩ := h f fs accepts
    exact ⟨g, { took with factor := fun _ => took.factor tight }, reads⟩
  | true =>
    obtain ⟨g, took, reads⟩ := h (start none) (f :: fs) (accepts_start (by simp))
    have result : g.result = e.eval σ := by
      unfold Frame.result
      rw [took.call]
      exact took.total
    refine ⟨f.factor (e.eval σ), f.took_factor _ 2, ?_⟩
    calc run σ (f :: fs) (inBrackets true e.tokens)
      _ = run σ (run σ (start none :: f :: fs) e.tokens) [.closing] :=
        run_append (start none :: f :: fs) e.tokens [.closing]
      _ = f.factor g.result :: fs := by rw [reads]; rfl
      _ = f.factor (e.eval σ) :: fs := by rw [result]

theorem readable_add (ha : Readable σ a) (hb : Readable σ b) : Readable σ (.bin .add a b) := by
  intro f fs accepts
  obtain ⟨product, additive⟩ := accepts.sum rfl
  obtain ⟨g, left, readsLeft⟩ := ha f fs
    (accepts_first (fun s => accepts.slash (by simp [slashInSum, s])) product additive)
  obtain ⟨k, right, readsRight⟩ := hb { g with sum := (g.total + ·), product := id } fs
    (accepts_first (fun s => left.call ▸ accepts.slash (by simp [slashInSum, s])) rfl
      fun x y => (Int.add_assoc g.total x y).symm)
  have total : k.total = f.sum (f.product (a.eval σ + b.eval σ)) :=
    calc k.total
      _ = g.total + b.eval σ := right.total
      _ = f.sum (a.eval σ) + b.eval σ := by rw [left.total, product, id]
      _ = f.sum (f.product (a.eval σ + b.eval σ)) := by rw [product, id, additive]
  refine ⟨k, ⟨right.call.trans left.call, right.first.trans left.first, total, ?_⟩, ?_⟩
  · exact fun tight => absurd tight (by simp [SizeOp.precedence])
  · rw [tokens, inBrackets_summand, inBrackets_summand, run_append, readsLeft, run_cons]
    exact readsRight

theorem readable_sub (ha : Readable σ a) (hb : Readable σ b) : Readable σ (.bin .sub a b) := by
  intro f fs accepts
  obtain ⟨product, additive⟩ := accepts.sum rfl
  have subtractive : ∀ x y, f.sum (x - y) = f.sum x - y := by
    intro x y
    have := additive (x - y) y
    rw [Int.sub_add_cancel] at this
    omega
  obtain ⟨g, left, readsLeft⟩ := ha f fs
    (accepts_first (fun s => accepts.slash (by simp [slashInSum, s])) product additive)
  obtain ⟨k, right, readsRight⟩ :=
    hb.factor { g with sum := (g.total - ·), product := id } fs (b.precedence ≤ 1) fun bare => by
      have tight : 2 ≤ b.precedence := Nat.succ_le_of_lt (by simpa using bare)
      refine ⟨tight, accepts_factor tight (fun s => ?_) (fun _ _ _ => rfl) fun _ => rfl⟩
      exact left.call ▸ accepts.slash (by simp [slashInSum, s])
  have total : k.total = f.sum (f.product (a.eval σ - b.eval σ)) :=
    calc k.total
      _ = g.total - b.eval σ := right.total
      _ = f.sum (a.eval σ) - b.eval σ := by rw [left.total, product, id]
      _ = f.sum (f.product (a.eval σ - b.eval σ)) := by rw [product, id, subtractive]
  refine ⟨k, ⟨right.call.trans left.call, right.first.trans left.first, total, ?_⟩, ?_⟩
  · exact fun tight => absurd tight (by simp [SizeOp.precedence])
  · rw [tokens, inBrackets_summand, run_append, readsLeft, run_cons]
    exact readsRight

/-- The left operand of a product or quotient is read as a factor. -/
theorem Readable.left (ha : Readable σ a) (fs : List Frame) (accepts : f.Accepts e)
    (tight : e.precedence = 2) (slash : a.slashInProduct = true → e.slashInProduct = true) :
    ∃ g, f.Took (a.eval σ) 2 g ∧
      run σ (f :: fs) (inBrackets (a.precedence < 2) a.tokens) = g :: fs :=
  ha.factor f fs (a.precedence < 2) fun bare => by
    have bound : 2 ≤ a.precedence := Nat.succ_le_of_lt (by simpa using bare)
    refine ⟨bound, accepts_factor bound (fun s => accepts.slash ?_)
      (fun _ => accepts.product tight) fun s => accepts.quotient (slash s)⟩
    rw [slashInSum_eq tight.ge]
    exact slash s

theorem readable_mul (ha : Readable σ a) (hb : Readable σ b) (clear : b.slashInProduct = false) :
    Readable σ (.bin .mul a b) := by
  intro f fs accepts
  obtain ⟨g, left, readsLeft⟩ := ha.left fs accepts rfl
    (fun s => by simp [slashInProduct, s])
  obtain ⟨k, right, readsRight⟩ :=
    hb.factor { g with product := (g.value * ·) } fs (b.precedence < 2) fun bare => by
      have tight : 2 ≤ b.precedence := Nat.succ_le_of_lt (by simpa using bare)
      exact ⟨tight, accepts_factor tight (by simp [clear])
        (fun _ x y => (Int.mul_assoc g.value x y).symm) (by simp [clear])⟩
  obtain ⟨sumLeft, valueLeft⟩ := left.factor (Nat.le_refl 2)
  obtain ⟨sumRight, valueRight⟩ := right.factor (Nat.le_refl 2)
  have sum : k.sum = f.sum := sumRight.trans sumLeft
  have value : k.value = f.product (a.eval σ * b.eval σ) :=
    calc k.value
      _ = g.value * b.eval σ := valueRight
      _ = f.product (a.eval σ * b.eval σ) := by rw [valueLeft, accepts.product rfl]
  refine ⟨k, took_of_factor (right.call.trans left.call) (right.first.trans left.first) sum value,
    ?_⟩
  rw [tokens, run_append, readsLeft, run_cons]
  exact readsRight

theorem readable_div (ha : Readable σ a) (hb : Readable σ b) : Readable σ (.bin .div a b) := by
  intro f fs accepts
  have product : f.product = id := accepts.quotient rfl
  obtain ⟨g, left, readsLeft⟩ := ha.left fs accepts rfl fun _ => rfl
  have noCall : g.call ≠ some .divCeil := left.call ▸ accepts.slash rfl
  obtain ⟨k, right, readsRight⟩ :=
    hb.factor { g with product := (g.value / ·) } fs (b.precedence ≤ 2) fun bare => by
      have tight : 2 < b.precedence := by simpa using bare
      have noSlash : b.slashInProduct = false := slashInProduct_eq_false tight.ne'
      exact ⟨tight.le, accepts_factor tight.le (by simp [noSlash])
        (fun loose => absurd loose tight.ne') (by simp [noSlash])⟩
  obtain ⟨sumLeft, valueLeft⟩ := left.factor (Nat.le_refl 2)
  obtain ⟨sumRight, valueRight⟩ := right.factor (Nat.le_refl 2)
  have sum : k.sum = f.sum := sumRight.trans sumLeft
  have value : k.value = f.product (a.eval σ / b.eval σ) :=
    calc k.value
      _ = g.value / b.eval σ := valueRight
      _ = f.product (a.eval σ / b.eval σ) := by rw [valueLeft, product, id, id]
  refine ⟨k, took_of_factor (right.call.trans left.call) (right.first.trans left.first) sum value,
    ?_⟩
  rw [tokens, run_append, readsLeft, run_cons, step, if_neg noCall]
  exact readsRight

/-- The two operands of a named operation are read between its brackets. -/
theorem readable_call {op : SizeOp} {t : Token} (ha : Readable σ a) (hb : Readable σ b)
    (form : (SizeExpr.bin op a b).tokens =
      .opening (some op) :: (a.tokens ++ t :: b.tokens) ++ [.closing])
    (turn : ∀ g fs, g.call = some op → step σ (g :: fs) t = g.next :: fs)
    (clear : op = .divCeil → a.slashInSum = false ∧ b.slashInSum = false) :
    Readable σ (.bin op a b) := by
  intro f fs _
  obtain ⟨g, left, readsLeft⟩ := ha (start (some op)) (f :: fs)
    (accepts_start fun s named => by simp [(clear (Option.some.inj named)).1] at s)
  obtain ⟨k, right, readsRight⟩ := hb g.next (f :: fs)
    (accepts_first (fun s named => by
      simp [(clear (Option.some.inj (left.call.symm.trans named))).2] at s) rfl fun _ _ => rfl)
  have result : k.result = op.apply (a.eval σ) (b.eval σ) := by
    unfold Frame.result
    rw [right.call.trans left.call, right.first, right.total]
    exact congrArg (op.apply · _) left.total
  refine ⟨f.factor (op.apply (a.eval σ) (b.eval σ)), f.took_factor _ _, ?_⟩
  calc run σ (f :: fs) (SizeExpr.bin op a b).tokens
    _ = run σ (start (some op) :: f :: fs) (a.tokens ++ t :: (b.tokens ++ [.closing])) := by
      rw [form, List.cons_append, run_cons, List.append_assoc, List.cons_append]
      rfl
    _ = run σ (g.next :: f :: fs) (b.tokens ++ [.closing]) := by
      rw [run_append, readsLeft, run_cons, turn g (f :: fs) left.call]
    _ = f.factor k.result :: fs := by
      rw [run_append, readsRight]
      rfl
    _ = f.factor (op.apply (a.eval σ) (b.eval σ)) :: fs := by rw [result]

/-- Clear expressions are readable. -/
theorem readable : ∀ {e : SizeExpr}, e.IsClear → Readable σ e
  | .const _, _ | .var _, _ => fun f _ _ => ⟨_, f.took_factor _ _, rfl⟩
  | .bin .add _ _, ⟨ha, hb⟩ => readable_add (readable ha) (readable hb)
  | .bin .sub _ _, ⟨ha, hb⟩ => readable_sub (readable ha) (readable hb)
  | .bin .mul _ _, ⟨ha, hb, clear⟩ => readable_mul (readable ha) (readable hb) clear
  | .bin .div _ _, ⟨ha, hb⟩ => readable_div (readable ha) (readable hb)
  | .bin .divCeil _ _, ⟨ha, hb, clear⟩ =>
    readable_call (readable ha) (readable hb) rfl (fun g fs named => by simp [step, named])
      fun _ => clear
  | .bin .max _ _, ⟨ha, hb⟩ =>
    readable_call (readable ha) (readable hb) rfl (fun _ _ _ => rfl) nofun
  | .bin .min _ _, ⟨ha, hb⟩ =>
    readable_call (readable ha) (readable hb) rfl (fun _ _ _ => rfl) nofun

end Frame

namespace SizeExpr

/-! ## The text and the value -/

/-- The value that is calculated from a text. -/
def calculate (σ : String → Int) (s : String) : Int :=
  ((Frame.run σ [.start none] (readTokens s.toList)).head?.map Frame.total).getD 0

variable {e e₁ e₂ : SizeExpr}

/-- The value of a clear expression can be calculated from its written form. -/
theorem calculate_text (names : e.Identifiers) (clear : e.IsClear) :
    calculate σ e.text = e.eval σ := by
  obtain ⟨g, took, reads⟩ : ∃ g, (Frame.start none).Took (e.eval σ) e.precedence g ∧
      Frame.run σ [.start none] e.tokens = [g] :=
    Frame.readable clear (.start none) [] (Frame.accepts_start nofun)
  have value : g.total = e.eval σ := took.total
  unfold calculate
  rw [read_text e names, reads]
  exact value

example : calculate (fun _ => 5) "2*(n + -1)/3 - ceil(n/max(2, m))" = 1 := by
  cbv

/-- Clear expressions with the same written form have the same values. -/
theorem eval_eq_of_text_eq (names₁ : e₁.Identifiers) (names₂ : e₂.Identifiers)
    (clear₁ : e₁.IsClear) (clear₂ : e₂.IsClear) (same : e₁.text = e₂.text) :
    e₁.eval σ = e₂.eval σ := by
  rw [← calculate_text names₁ clear₁, same, calculate_text names₂ clear₂]

/-- A product with a quotient and the quotient of a product are written alike. -/
theorem text_mul_div (a b c : SizeExpr) :
    (bin .mul a (bin .div b c)).text = (bin .div (bin .mul a b) c).text := by
  simp [text, bracketed, SizeOp.precedence, String.append_assoc]

/-- A slash between the operands of a quotient that is rounded up looks like one in an operand. -/
theorem text_divCeil_div {a b c : SizeExpr} (ha : 2 ≤ a.precedence) (hb : 2 < b.precedence)
    (hc : 2 < c.precedence) :
    (bin .divCeil a (bin .div b c)).text = (bin .divCeil (bin .div a b) c).text := by
  simp [text, bracketed, ha.not_gt, hb.not_ge, hb.le.not_gt, hc.not_ge, String.append_assoc]

/-- So simplified expressions with the same written form can have different values. -/
theorem exists_text_eq_eval_ne : ∃ (e₁ e₂ : SizeExpr) (σ : String → Int),
    e₁.Identifiers ∧ e₂.Identifiers ∧ e₁.simplify = e₁ ∧ e₂.simplify = e₂ ∧
      e₁.DivisorsPositive σ ∧ e₂.DivisorsPositive σ ∧
      e₁.text = e₂.text ∧ e₁.eval σ ≠ e₂.eval σ := by
  refine ⟨bin .mul (var "a") (bin .div (var "b") (var "c")),
    bin .div (bin .mul (var "a") (var "b")) (var "c"), fun x => if x = "b" then 1 else 2, ?_⟩
  have names : isIdentifier "a" = true ∧ isIdentifier "b" = true ∧ isIdentifier "c" = true := by
    decide
  refine ⟨⟨names.1, names.2⟩, ⟨⟨names.1, names.2.1⟩, names.2.2⟩, by cbv, by cbv, ?_, ?_,
    text_mul_div _ _ _, by decide⟩
  · simp [DivisorsPositive, eval]
  · simp [DivisorsPositive, eval]

end SizeExpr

namespace Dim

open SizeExpr

/-- Dimensions given by clear expressions that are stored alike hold of the same sizes. -/
theorem holds_iff_of_toMessage_eq {e₁ e₂ : SizeExpr} (names₁ : e₁.Identifiers)
    (names₂ : e₂.Identifiers) (clear₁ : e₁.IsClear) (clear₂ : e₂.IsClear)
    (same : (symbolic e₁).toMessage = (symbolic e₂).toMessage) (n : Nat) :
    (symbolic e₁).Holds σ n ↔ (symbolic e₂).Holds σ n := by
  have texts : e₁.text = e₂.text := by simpa [toMessage] using same
  have values : e₁.eval σ = e₂.eval σ := eval_eq_of_text_eq names₁ names₂ clear₁ clear₂ texts
  change e₁.eval σ = n ↔ e₂.eval σ = n
  rw [values]

end Dim

end TensorGraph
