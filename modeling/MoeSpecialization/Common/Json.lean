import Mathlib.Data.Rat.Defs
import Mathlib.Data.List.Infix

/-!
# JSON values as Python sees them

`Json` is what `json.loads` returns, `Error` the exceptions that reading such a value raises. The
accessors follow Python's operators on it: truth value, `x.get(k, d)`, `k in x`, `x[k]`, `x[i]`,
iteration. Each returns in `Except Error` because a JSON value met in the wild need not have the shape
its reader expects. `hashKey` is the value as a member of a `set`: lists and dictionaries are unhashable, and
`True`, `1` and `1.0` are one key.

A number is kept as its literal. Two literals of one value are different `Json` values but the same
`HashKey`, as in Python, where the literal is not kept and equality is by value.
-/

namespace Py

/-- The exceptions the modelled code raises or lets through. -/
inductive Error where
  | assertionError
  | attributeError
  | indexError
  | jsonDecodeError
  | keyError
  | requestException
  | runtimeError (msg : String)
  | typeError
  | valueError (msg : String)
  | zeroDivisionError
deriving DecidableEq, Repr

/-! ## Number literals -/

/-- The value of a string of decimal digits. -/
def digitsValue (cs : List Char) : ℕ := cs.foldl (fun n c => 10 * n + (c.toNat - '0'.toNat)) 0

/-- The integer part of a literal: digits without a leading zero. -/
def isIntPart : List Char → Bool
  | [] => false
  | ['0'] => true
  | c :: cs => c != '0' && (c :: cs).all Char.isDigit

/-- A non-empty string of digits. -/
def isDigits (cs : List Char) : Bool := !cs.isEmpty && cs.all Char.isDigit

/-- The exponent part of a literal, possibly missing. -/
def isExpPart : List Char → Bool
  | [] => true
  | c :: '+' :: cs => (c == 'e' || c == 'E') && isDigits cs
  | c :: '-' :: cs => (c == 'e' || c == 'E') && isDigits cs
  | c :: cs => (c == 'e' || c == 'E') && isDigits cs

/-- The fraction and exponent parts of a literal, possibly missing. -/
def isFracExpPart : List Char → Bool
  | '.' :: cs => isDigits (cs.takeWhile Char.isDigit) && isExpPart (cs.dropWhile Char.isDigit)
  | cs => isExpPart cs

/-- The literal without its minus sign. -/
def dropMinus : List Char → List Char
  | '-' :: cs => cs
  | cs => cs

/-- The number literals of the JSON grammar. -/
def isNumLit (cs : List Char) : Bool :=
  isIntPart ((dropMinus cs).takeWhile Char.isDigit) &&
    isFracExpPart ((dropMinus cs).dropWhile Char.isDigit)

/-- A number literal. -/
structure NumLit where
  chars : List Char
  valid : isNumLit chars = true
deriving DecidableEq

namespace NumLit

/-- The exponent of a literal. -/
def expValue : List Char → ℤ
  | _ :: '-' :: cs => -(digitsValue cs : ℤ)
  | _ :: '+' :: cs => digitsValue cs
  | _ :: cs => digitsValue cs
  | [] => 0

/-- `q * 10 ^ e` for an exponent of either sign. -/
def scale (q : ℚ) (e : ℤ) : ℚ := if 0 ≤ e then q * 10 ^ e.toNat else q / 10 ^ (-e).toNat

/-- The number a literal denotes. -/
def value (n : NumLit) : ℚ :=
  let body := dropMinus n.chars
  let int := body.takeWhile Char.isDigit
  let rest := body.dropWhile Char.isDigit
  let frac := match rest with
    | '.' :: cs => cs.takeWhile Char.isDigit
    | _ => []
  let exp := match rest with
    | '.' :: cs => cs.dropWhile Char.isDigit
    | cs => cs
  let q : ℚ := (digitsValue (int ++ frac) : ℚ) / 10 ^ frac.length
  scale (if n.chars.head? = some '-' then -q else q) (expValue exp)

end NumLit

/-! ## Values -/

/-- A JSON value. An object keeps its pairs as they were written. -/
inductive Json where
  | null
  | bool (b : Bool)
  | num (n : NumLit)
  | str (s : List Char)
  | arr (xs : List Json)
  | obj (kvs : List (List Char × Json))

namespace Json

-- Nested inductive types have no derived decision procedure; the two list levels are spelled out.
mutual

/-- Equality of JSON values is decidable. -/
def decEq : (x y : Json) → Decidable (x = y)
  | .null, .null => .isTrue rfl
  | .bool a, .bool b => decidable_of_iff (a = b) (by simp)
  | .num a, .num b => decidable_of_iff (a = b) (by simp)
  | .str a, .str b => decidable_of_iff (a = b) (by simp)
  | .arr xs, .arr ys =>
    match decEqList xs ys with
    | .isTrue h => .isTrue (h ▸ rfl)
    | .isFalse h => .isFalse fun he => h (by simpa using he)
  | .obj xs, .obj ys =>
    match decEqFields xs ys with
    | .isTrue h => .isTrue (h ▸ rfl)
    | .isFalse h => .isFalse fun he => h (by simpa using he)
  | .null, .bool _ | .null, .num _ | .null, .str _ | .null, .arr _ | .null, .obj _
  | .bool _, .null | .bool _, .num _ | .bool _, .str _ | .bool _, .arr _ | .bool _, .obj _
  | .num _, .null | .num _, .bool _ | .num _, .str _ | .num _, .arr _ | .num _, .obj _
  | .str _, .null | .str _, .bool _ | .str _, .num _ | .str _, .arr _ | .str _, .obj _
  | .arr _, .null | .arr _, .bool _ | .arr _, .num _ | .arr _, .str _ | .arr _, .obj _
  | .obj _, .null | .obj _, .bool _ | .obj _, .num _ | .obj _, .str _ | .obj _, .arr _ =>
    .isFalse (by simp)

/-- Equality of lists of JSON values is decidable. -/
def decEqList : (xs ys : List Json) → Decidable (xs = ys)
  | [], [] => .isTrue rfl
  | x :: xs, y :: ys =>
    match decEq x y, decEqList xs ys with
    | .isTrue hx, .isTrue hxs => .isTrue (hx ▸ hxs ▸ rfl)
    | .isFalse hx, _ => .isFalse fun he => hx (List.cons.inj he).1
    | _, .isFalse hxs => .isFalse fun he => hxs (List.cons.inj he).2
  | [], _ :: _ | _ :: _, [] => .isFalse (by simp)

/-- Equality of the pairs of two objects is decidable. -/
def decEqFields : (xs ys : List (List Char × Json)) → Decidable (xs = ys)
  | [], [] => .isTrue rfl
  | (k, x) :: xs, (l, y) :: ys =>
    match decEq x y, decEqFields xs ys, (inferInstance : Decidable (k = l)) with
    | .isTrue hx, .isTrue hxs, .isTrue hk => .isTrue (hx ▸ hxs ▸ hk ▸ rfl)
    | .isFalse hx, _, _ => .isFalse fun he => hx (Prod.mk.inj (List.cons.inj he).1).2
    | _, .isFalse hxs, _ => .isFalse fun he => hxs (List.cons.inj he).2
    | _, _, .isFalse hk => .isFalse fun he => hk (Prod.mk.inj (List.cons.inj he).1).1
  | [], _ :: _ | _ :: _, [] => .isFalse (by simp)

end

instance : DecidableEq Json := decEq

instance : Inhabited Json := ⟨.null⟩

/-- The truth value `bool(x)`. -/
def truthy : Json → Bool
  | .null => false
  | .bool b => b
  | .num n => decide (n.value ≠ 0)
  | .str s => !s.isEmpty
  | .arr xs => !xs.isEmpty
  | .obj kvs => !kvs.isEmpty

/-- The value of a key in an object's pairs. A repeated key has its last value. -/
def field? (kvs : List (List Char × Json)) (k : List Char) : Option Json := kvs.reverse.lookup k

/-- `x.get(k, dflt)`: only a dictionary has `get`. -/
def get (x : Json) (k : String) (dflt : Json) : Except Error Json :=
  match x with
  | .obj kvs => .ok ((field? kvs k.toList).getD dflt)
  | _ => .error .attributeError

/-- `k in x` for a string `k`: a key of a dictionary, an item of a list, a part of a string. -/
def contains (x : Json) (k : String) : Except Error Bool :=
  match x with
  | .obj kvs => .ok (field? kvs k.toList).isSome
  | .arr xs => .ok (decide (.str k.toList ∈ xs))
  | .str s => .ok (decide (k.toList <:+: s))
  | _ => .error .typeError

/-- `x[k]` for a string `k`. -/
def item (x : Json) (k : String) : Except Error Json :=
  match x with
  | .obj kvs =>
    match field? kvs k.toList with
    | some v => .ok v
    | none => .error .keyError
  | _ => .error .typeError

/-- `x[0]`: the first item of a list, the first character of a string. -/
def first (x : Json) : Except Error Json :=
  match x with
  | .arr (y :: _) => .ok y
  | .arr [] => .error .indexError
  | .str (c :: _) => .ok (.str [c])
  | .str [] => .error .indexError
  | .obj _ => .error .keyError
  | _ => .error .typeError

/-- A value as a member of a `set` or a key of a `dict`. -/
inductive HashKey where
  | none
  | num (q : ℚ)
  | str (s : List Char)
deriving DecidableEq

/-- `hash(x)`: lists and dictionaries are unhashable, booleans are numbers. -/
def hashKey : Json → Except Error HashKey
  | .null => .ok .none
  | .bool b => .ok (.num (if b then 1 else 0))
  | .num n => .ok (.num n.value)
  | .str s => .ok (.str s)
  | .arr _ | .obj _ => .error .typeError

end Json

end Py
