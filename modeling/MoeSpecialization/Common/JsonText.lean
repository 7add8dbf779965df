import MoeSpecialization.Common.Json
import Mathlib.Data.List.TakeWhile
import Mathlib.Tactic.SplitIfs

/-!
# JSON texts

`dumps` is `json.dumps(x, ensure_ascii=False)` and `loads` is `json.loads`, on lists of characters. The
parser follows the decoder's scanner: one function for a value at the current position and one for the
rest of an object or a list, each with fuel that the length of the text provides.

The round trip is `loads_dumps_append`: a dumped value is read back, and what stands behind it must be
whitespace. What happens to a text that is cut off is the subject of `Common/JsonCut.lean`.

Surrogate code points are no characters here: an escaped pair is one character, a lone escaped
surrogate reads as U+FFFD.
-/

namespace Py

/-! ## Integers as literals -/

theorem toDigits_head {n : ℕ} (hn : 0 < n) :
    ∃ c cs, Nat.toDigits 10 n = c :: cs ∧ c ≠ '0' := by
  induction n using Nat.strongRecOn with
  | ind n ih =>
    by_cases h : n < 10
    · have hne : ∀ m < 10, 0 < m → m.digitChar ≠ '0' := by decide
      exact ⟨n.digitChar, [], Nat.toDigits_of_lt_base h, hne n h hn⟩
    · obtain ⟨c, cs, hcs, hc⟩ := ih (n / 10) (by omega) (by omega)
      exact ⟨c, _, by rw [Nat.toDigits_of_base_le (by omega) (by omega), hcs]; rfl, hc⟩

theorem isNumLit_toDigits (n : ℕ) : isNumLit (Nat.toDigits 10 n) = true := by
  rcases Nat.eq_zero_or_pos n with rfl | hn
  · decide
  · obtain ⟨c, cs, hcs, hc⟩ := toDigits_head hn
    have hdigits : ∀ d ∈ c :: cs, d.isDigit = true := fun d hd =>
      Nat.isDigit_of_mem_toDigits (by omega) (by omega) (hcs ▸ hd)
    have hminus : dropMinus (c :: cs) = c :: cs := by
      rcases eq_or_ne c '-' with rfl | hne
      · exact absurd (hdigits '-' (by simp)) (by decide)
      · rw [dropMinus]
        intro cs' h
        exact hne (List.cons.inj h).1
    rw [hcs, isNumLit, hminus, List.takeWhile_eq_self_iff.mpr hdigits,
      List.dropWhile_eq_nil_iff.mpr hdigits]
    simpa [isIntPart, isFracExpPart, isExpPart, hc, hdigits] using
      fun d hd => hdigits d (List.mem_cons_of_mem c hd)

/-- The literal of a non-negative integer. -/
def NumLit.ofNat (n : ℕ) : NumLit := ⟨Nat.toDigits 10 n, isNumLit_toDigits n⟩

namespace Json

/-! ## Writing -/

/-- A hexadecimal digit. -/
def hexDigit (n : ℕ) : Char := "0123456789abcdef".toList.getD n '0'

/-- A character inside a string literal. -/
def escapeChar (c : Char) : List Char :=
  if c = '"' then ['\\', '"']
  else if c = '\\' then ['\\', '\\']
  else if c = '\n' then ['\\', 'n']
  else if c = '\r' then ['\\', 'r']
  else if c = '\t' then ['\\', 't']
  else if c = '\x08' then ['\\', 'b']
  else if c = '\x0c' then ['\\', 'f']
  else if c.toNat < 0x20 then
    ['\\', 'u', '0', '0', hexDigit (c.toNat / 16), hexDigit (c.toNat % 16)]
  else [c]

/-- A string literal. -/
def dumpsStr (s : List Char) : List Char := '"' :: (s.flatMap escapeChar ++ ['"'])

-- The two tails write what follows the first item of a list or the first pair of an object.
mutual

/-- `json.dumps(x, ensure_ascii=False)`. -/
def dumps : Json → List Char
  | .null => ['n', 'u', 'l', 'l']
  | .bool true => ['t', 'r', 'u', 'e']
  | .bool false => ['f', 'a', 'l', 's', 'e']
  | .num n => n.chars
  | .str s => dumpsStr s
  | .arr [] => ['[', ']']
  | .arr (x :: xs) => '[' :: (dumps x ++ dumpsItems xs)
  | .obj [] => ['{', '}']
  | .obj ((k, v) :: kvs) => '{' :: (dumpsStr k ++ ':' :: ' ' :: (dumps v ++ dumpsFields kvs))

/-- The rest of a list. -/
def dumpsItems : List Json → List Char
  | [] => [']']
  | x :: xs => ',' :: ' ' :: (dumps x ++ dumpsItems xs)

/-- The rest of an object. -/
def dumpsFields : List (List Char × Json) → List Char
  | [] => ['}']
  | (k, v) :: kvs => ',' :: ' ' :: (dumpsStr k ++ ':' :: ' ' :: (dumps v ++ dumpsFields kvs))

end

/-! ## Reading -/

/-- The whitespace of the JSON grammar. -/
def isWs (c : Char) : Bool := c = ' ' || c = '\t' || c = '\n' || c = '\r'

/-- Skip whitespace. -/
def skipWs (cs : List Char) : List Char := cs.dropWhile isWs

/-- The value of a hexadecimal digit. -/
def hexValue (c : Char) : Option ℕ :=
  if c.isDigit then some (c.toNat - '0'.toNat)
  else if 'a' ≤ c ∧ c ≤ 'f' then some (c.toNat - 'a'.toNat + 10)
  else if 'A' ≤ c ∧ c ≤ 'F' then some (c.toNat - 'A'.toNat + 10)
  else none

/-- Four hexadecimal digits. -/
def hex4 (a b c d : Char) : Option ℕ := do
  let a ← hexValue a
  let b ← hexValue b
  let c ← hexValue c
  let d ← hexValue d
  some (((a * 16 + b) * 16 + c) * 16 + d)

/-- The code unit of an escape of one character. -/
def simpleEscape (c : Char) : Option ℕ :=
  if c = '"' ∨ c = '\\' ∨ c = '/' then some c.toNat
  else if c = 'b' then some 0x08
  else if c = 'f' then some 0x0c
  else if c = 'n' then some 0x0a
  else if c = 'r' then some 0x0d
  else if c = 't' then some 0x09
  else none

/-- A string literal after its opening quote: its code units and the text behind it. Control characters
are rejected. -/
def scanString : List Char → Option (List ℕ × List Char)
  | [] => none
  | '"' :: cs => some ([], cs)
  | '\\' :: 'u' :: a :: b :: c :: d :: cs => do
    let u ← hex4 a b c d
    let (us, rest) ← scanString cs
    some (u :: us, rest)
  | '\\' :: c :: cs => do
    let u ← simpleEscape c
    let (us, rest) ← scanString cs
    some (u :: us, rest)
  | c :: cs =>
    if c.toNat < 0x20 ∨ c = '\\' then none
    else do
      let (us, rest) ← scanString cs
      some (c.toNat :: us, rest)

/-- The characters of the code units: a high and a low surrogate are one character. -/
def joinSurrogates : List ℕ → List Char
  | [] => []
  | [u] => [if u.isValidChar then Char.ofNat u else '\ufffd']
  | u :: v :: us =>
    if 0xd800 ≤ u ∧ u < 0xdc00 ∧ 0xdc00 ≤ v ∧ v < 0xe000 then
      Char.ofNat (0x10000 + (u - 0xd800) * 0x400 + (v - 0xdc00)) :: joinSurrogates us
    else (if u.isValidChar then Char.ofNat u else '\ufffd') :: joinSurrogates (v :: us)

/-- The characters of number literals. -/
def isNumChar (c : Char) : Bool :=
  c.isDigit || c = '-' || c = '+' || c = '.' || c = 'e' || c = 'E'

/-- A number literal. A run of its characters that is no literal is rejected here, where the scanner
takes a shorter literal and finds what follows it to be no delimiter. -/
def scanNumber (cs : List Char) : Option (Json × List Char) :=
  if h : isNumLit (cs.takeWhile isNumChar) = true then
    some (.num ⟨cs.takeWhile isNumChar, h⟩, cs.dropWhile isNumChar)
  else none

mutual

/-- The value at the current position and the text behind it. -/
def scanOnce : ℕ → List Char → Option (Json × List Char)
  | 0, _ => none
  | _ + 1, '"' :: cs => do
    let (us, rest) ← scanString cs
    some (.str (joinSurrogates us), rest)
  | n + 1, '{' :: cs =>
    match skipWs cs with
    | '}' :: rest => some (.obj [], rest)
    | cs => do
      let (kvs, rest) ← scanFields n cs
      some (.obj kvs, rest)
  | n + 1, '[' :: cs =>
    match skipWs cs with
    | ']' :: rest => some (.arr [], rest)
    | cs => do
      let (xs, rest) ← scanItems n cs
      some (.arr xs, rest)
  | _ + 1, 'n' :: 'u' :: 'l' :: 'l' :: rest => some (.null, rest)
  | _ + 1, 't' :: 'r' :: 'u' :: 'e' :: rest => some (.bool true, rest)
  | _ + 1, 'f' :: 'a' :: 'l' :: 's' :: 'e' :: rest => some (.bool false, rest)
  | _ + 1, cs => scanNumber cs

/-- The items of a list, at the first of them. -/
def scanItems : ℕ → List Char → Option (List Json × List Char)
  | 0, _ => none
  | n + 1, cs => do
    let (x, cs) ← scanOnce n cs
    match skipWs cs with
    | ']' :: rest => some ([x], rest)
    | ',' :: cs =>
      let (xs, rest) ← scanItems n (skipWs cs)
      some (x :: xs, rest)
    | _ => none

/-- The pairs of an object, at the first key. -/
def scanFields : ℕ → List Char → Option (List (List Char × Json) × List Char)
  | 0, _ => none
  | n + 1, '"' :: cs => do
    let (us, cs) ← scanString cs
    match skipWs cs with
    | ':' :: cs =>
      let (v, cs) ← scanOnce n (skipWs cs)
      match skipWs cs with
      | '}' :: rest => some ([(joinSurrogates us, v)], rest)
      | ',' :: cs =>
        let (kvs, rest) ← scanFields n (skipWs cs)
        some ((joinSurrogates us, v) :: kvs, rest)
      | _ => none
    | _ => none
  | _ + 1, _ => none

end

/-- `json.loads`: one value, with nothing but whitespace around it. -/
def loads (cs : List Char) : Except Error Json :=
  match scanOnce (cs.length + 1) (skipWs cs) with
  | some (v, rest) => if skipWs rest = [] then .ok v else .error .jsonDecodeError
  | none => .error .jsonDecodeError

/-! ## Reading back what was written -/

theorem toNat_eq_of_hex : ∀ n < 0x20,
    hex4 '0' '0' (hexDigit (n / 16)) (hexDigit (n % 16)) = some n := by
  decide

/-- An escape of one character is read as its code unit. -/
theorem scanString_simpleEscape {e : Char} {u : ℕ} (he : e ≠ 'u') (hu : simpleEscape e = some u)
    (cs : List Char) :
    scanString ('\\' :: e :: cs) = (scanString cs).map fun p => (u :: p.1, p.2) := by
  rw [scanString.eq_4 e cs (fun _ _ _ _ _ h _ => he h), hu]
  cases scanString cs <;> rfl

theorem scanString_escapeChar (c : Char) (cs : List Char) :
    scanString (escapeChar c ++ cs) = (scanString cs).map fun p => (c.toNat :: p.1, p.2) := by
  unfold escapeChar
  split_ifs with h1 h2 h3 h4 h5 h6 h7 h8
  · subst h1
    exact scanString_simpleEscape (by decide) rfl cs
  · subst h2
    exact scanString_simpleEscape (by decide) rfl cs
  · subst h3
    exact scanString_simpleEscape (by decide) rfl cs
  · subst h4
    exact scanString_simpleEscape (by decide) rfl cs
  · subst h5
    exact scanString_simpleEscape (by decide) rfl cs
  · subst h6
    exact scanString_simpleEscape (by decide) rfl cs
  · subst h7
    exact scanString_simpleEscape (by decide) rfl cs
  · show scanString ('\\' :: 'u' :: '0' :: '0' :: _ :: _ :: cs) = _
    rw [scanString.eq_3, toNat_eq_of_hex _ h8]
    cases scanString cs <;> rfl
  · rw [List.singleton_append, scanString.eq_def]
    cases h : scanString cs <;> simp_all

theorem scanString_escape (s cs : List Char) :
    scanString (s.flatMap escapeChar ++ '"' :: cs) = some (s.map Char.toNat, cs) := by
  induction s with
  | nil => simp [scanString]
  | cons c s ih => simp [List.flatMap_cons, scanString_escapeChar, ih]

theorem joinSurrogates_toNat (s : List Char) : joinSurrogates (s.map Char.toNat) = s := by
  have hvalid : ∀ c : Char, c.toNat.isValidChar := fun c => c.valid
  induction s with
  | nil => rfl
  | cons c s ih =>
    cases s with
    | nil => simp [joinSurrogates, hvalid]
    | cons d s =>
      have hc : ¬(0xd800 ≤ c.toNat ∧ c.toNat < 0xdc00 ∧ 0xdc00 ≤ d.toNat ∧ d.toNat < 0xe000) := by
        rintro ⟨h1, h2, -⟩
        rcases hvalid c with h | h <;> omega
      rw [List.map_cons, List.map_cons, joinSurrogates, if_neg hc, if_pos (hvalid c),
        Char.ofNat_toNat, ← List.map_cons, ih]

/-- A text that does not go on with a number literal. -/
def NumStop (cs : List Char) : Prop := ∀ c ∈ cs.head?, isNumChar c = false

theorem isNumChar_of_isDigits {cs : List Char} (h : isDigits cs = true) :
    ∀ c ∈ cs, isNumChar c = true := by
  intro c hc
  rw [isDigits, Bool.and_eq_true, List.all_eq_true] at h
  simp [isNumChar, h.2 c hc]

theorem isNumChar_of_isExpPart {cs : List Char} (h : isExpPart cs = true) :
    ∀ c ∈ cs, isNumChar c = true := by
  have hexp : ∀ c : Char, (c == 'e' || c == 'E') = true → isNumChar c = true := by
    intro c hc
    simp only [Bool.or_eq_true, beq_iff_eq] at hc
    rcases hc with rfl | rfl <;> decide
  fun_cases isExpPart cs with
  | case1 => simp
  | case2 c cs =>
    rw [isExpPart, Bool.and_eq_true] at h
    simpa [hexp c h.1, show isNumChar '+' = true by decide] using isNumChar_of_isDigits h.2
  | case3 c cs =>
    rw [isExpPart, Bool.and_eq_true] at h
    simpa [hexp c h.1, show isNumChar '-' = true by decide] using isNumChar_of_isDigits h.2
  | case4 c cs hplus hminus =>
    rw [isExpPart, Bool.and_eq_true] at h
    · simpa [hexp c h.1] using isNumChar_of_isDigits h.2
    · exact hplus
    · exact hminus

theorem isNumChar_of_isFracExpPart {cs : List Char} (h : isFracExpPart cs = true) :
    ∀ c ∈ cs, isNumChar c = true := by
  fun_cases isFracExpPart cs with
  | case1 cs =>
    rw [isFracExpPart, Bool.and_eq_true] at h
    intro c hc
    rcases List.mem_cons.mp hc with rfl | hc
    · decide
    · rw [← List.takeWhile_append_dropWhile (p := Char.isDigit) (l := cs), List.mem_append] at hc
      exact hc.elim (isNumChar_of_isDigits h.1 c) (isNumChar_of_isExpPart h.2 c)
  | case2 cs hdot =>
    rw [isFracExpPart] at h
    · exact isNumChar_of_isExpPart h
    · exact hdot

theorem dropMinus_eq (cs : List Char) : cs = dropMinus cs ∨ cs = '-' :: dropMinus cs := by
  fun_cases dropMinus cs <;> simp

theorem isNumChar_of_isNumLit {cs : List Char} (h : isNumLit cs = true) :
    ∀ c ∈ cs, isNumChar c = true := by
  rw [isNumLit, Bool.and_eq_true] at h
  have hbody : ∀ c ∈ dropMinus cs, isNumChar c = true := by
    intro c hc
    rw [← List.takeWhile_append_dropWhile (p := Char.isDigit) (l := dropMinus cs),
      List.mem_append] at hc
    rcases hc with hc | hc
    · simp [isNumChar, List.mem_takeWhile_imp hc]
    · exact isNumChar_of_isFracExpPart h.2 c hc
  intro c hc
  rcases dropMinus_eq cs with hcs | hcs
  · exact hbody c (hcs ▸ hc)
  · rw [hcs, List.mem_cons] at hc
    rcases hc with rfl | hc
    · decide
    · exact hbody c hc

/-- A literal starts with a digit or a minus sign. -/
theorem exists_cons_numLit (n : NumLit) :
    ∃ c cs, n.chars = c :: cs ∧ (c.isDigit = true ∨ c = '-') := by
  have h := n.valid
  rw [isNumLit, Bool.and_eq_true] at h
  rcases dropMinus_eq n.chars with hcs | hcs
  · cases hbody : dropMinus n.chars with
    | nil => rw [hbody] at h; simp [isIntPart] at h
    | cons c cs =>
      refine ⟨c, cs, hcs.trans hbody, .inl ?_⟩
      by_contra hc
      rw [hbody, List.takeWhile_cons_of_neg hc] at h
      simp [isIntPart] at h
  · exact ⟨'-', _, hcs, .inr rfl⟩

theorem scanNumber_chars (n : NumLit) {cs : List Char} (hcs : NumStop cs) :
    scanNumber (n.chars ++ cs) = some (.num n, cs) := by
  have hall := isNumChar_of_isNumLit n.valid
  have hstop : cs.takeWhile isNumChar = [] ∧ cs.dropWhile isNumChar = cs := by
    cases cs with
    | nil => simp
    | cons c cs => simp [hcs c rfl]
  have htake : (n.chars ++ cs).takeWhile isNumChar = n.chars := by
    rw [List.takeWhile_append_of_pos hall, hstop.1, List.append_nil]
  have hdrop : (n.chars ++ cs).dropWhile isNumChar = cs := by
    rw [List.dropWhile_append_of_pos hall, hstop.2]
  simp only [scanNumber, htake, hdrop, n.valid, dite_true]

/-- The first character of a written value is neither whitespace nor a closing bracket. -/
theorem dumps_head (v : Json) :
    ∃ c cs, dumps v = c :: cs ∧ isWs c = false ∧ c ≠ ']' ∧ c ≠ '}' := by
  cases v with
  | null => exact ⟨_, _, rfl, by decide⟩
  | bool b => cases b <;> exact ⟨_, _, rfl, by decide⟩
  | num n =>
    obtain ⟨c, cs, hcs, hc⟩ := exists_cons_numLit n
    refine ⟨c, cs, hcs, ?_⟩
    rcases hc with hc | rfl
    · refine ⟨?_, ?_, ?_⟩
      · by_contra hws
        simp only [isWs, Bool.not_eq_false, Bool.or_eq_true, decide_eq_true_eq] at hws
        rcases hws with ((rfl | rfl) | rfl) | rfl <;> simp at hc
      · rintro rfl; simp at hc
      · rintro rfl; simp at hc
    · decide
  | str s => exact ⟨_, _, rfl, by decide⟩
  | arr xs => cases xs <;> exact ⟨_, _, rfl, by decide⟩
  | obj kvs => cases kvs <;> exact ⟨_, _, rfl, by decide⟩

theorem skipWs_cons {c : Char} {cs : List Char} (h : isWs c = false) :
    skipWs (c :: cs) = c :: cs := by
  simp [skipWs, h]

theorem skipWs_dumps (v : Json) (cs : List Char) : skipWs (dumps v ++ cs) = dumps v ++ cs := by
  obtain ⟨c, vs, hv, hc, -⟩ := dumps_head v
  rw [hv, List.cons_append, skipWs_cons hc]

theorem scanOnce_num (fuel : ℕ) (n : NumLit) (cs : List Char) :
    scanOnce (fuel + 1) (n.chars ++ cs) = scanNumber (n.chars ++ cs) := by
  obtain ⟨c, ds, hds, hc⟩ := exists_cons_numLit n
  rw [hds, List.cons_append, scanOnce.eq_def]
  -- the other branches start with a character that starts no literal
  split
  · contradiction
  all_goals first
    | rfl
    | (rename_i heq
       obtain ⟨rfl, -⟩ := List.cons.inj heq
       simp at hc)

theorem numStop_cons {c : Char} {cs : List Char} (h : isNumChar c = false) : NumStop (c :: cs) := by
  intro d hd
  cases hd
  exact h

theorem numStop_dumpsItems (xs : List Json) (cs : List Char) : NumStop (dumpsItems xs ++ cs) := by
  cases xs <;> exact numStop_cons (by decide)

theorem numStop_dumpsFields (kvs : List (List Char × Json)) (cs : List Char) :
    NumStop (dumpsFields kvs ++ cs) := by
  cases kvs with
  | nil => exact numStop_cons (by decide)
  | cons kv kvs => exact numStop_cons (by decide)

-- The fuel is bounded by the length of the text read so far, since each call consumes a character.
mutual

theorem scanOnce_dumps : ∀ (v : Json) (fuel : ℕ) (cs : List Char), (dumps v).length ≤ fuel →
    NumStop cs → scanOnce fuel (dumps v ++ cs) = some (v, cs)
  | .null, fuel + 1, cs, _, _ => by simp [dumps, scanOnce]
  | .bool true, fuel + 1, cs, _, _ => by simp [dumps, scanOnce]
  | .bool false, fuel + 1, cs, _, _ => by simp [dumps, scanOnce]
  | .num n, fuel + 1, cs, _, hcs => by rw [dumps, scanOnce_num, scanNumber_chars n hcs]
  | .str s, fuel + 1, cs, _, _ => by
    simp [dumps, dumpsStr, scanOnce, scanString_escape, joinSurrogates_toNat]
  | .arr [], fuel + 1, cs, _, _ => by
    simp [dumps, scanOnce, skipWs_cons (show isWs ']' = false by decide)]
  | .arr (x :: xs), fuel + 1, cs, hfuel, _ => by
    obtain ⟨c, ds, hds, -, hc, -⟩ := dumps_head x
    have hitems := scanItems_dumps x xs fuel cs (by simpa [dumps] using hfuel)
    rw [dumps, List.cons_append, List.append_assoc, scanOnce, skipWs_dumps]
    split
    · rename_i rest heq
      rw [hds, List.cons_append] at heq
      exact absurd (List.cons.inj heq).1 hc
    · rw [hitems]
      rfl
  | .obj [], fuel + 1, cs, _, _ => by
    simp [dumps, scanOnce, skipWs_cons (show isWs '}' = false by decide)]
  | .obj ((k, v) :: kvs), fuel + 1, cs, hfuel, _ => by
    have hfields := scanFields_dumps k v kvs fuel cs (by simpa [dumps] using hfuel)
    rw [dumps, List.cons_append, scanOnce, dumpsStr, List.cons_append, List.cons_append,
      skipWs_cons (by decide)]
    rw [dumpsStr, List.cons_append, List.cons_append] at hfields
    split
    · rename_i rest heq
      exact absurd (List.cons.inj heq).1 (by decide)
    · rw [hfields]
      rfl
  | .null, 0, _, h, _ | .bool true, 0, _, h, _ | .bool false, 0, _, h, _ | .str _, 0, _, h, _
  | .arr [], 0, _, h, _ | .arr (_ :: _), 0, _, h, _ | .obj [], 0, _, h, _
  | .obj ((_, _) :: _), 0, _, h, _ => by simp [dumps, dumpsStr] at h
  | .num n, 0, _, h, _ => by
    obtain ⟨c, ds, hds, -⟩ := exists_cons_numLit n
    simp [dumps, hds] at h

theorem scanItems_dumps : ∀ (x : Json) (xs : List Json) (fuel : ℕ) (cs : List Char),
    (dumps x ++ dumpsItems xs).length ≤ fuel →
      scanItems fuel (dumps x ++ (dumpsItems xs ++ cs)) = some (x :: xs, cs)
  | x, [], fuel + 1, cs, hfuel => by
    have hx := scanOnce_dumps x fuel (dumpsItems [] ++ cs)
      (by simpa [dumpsItems] using hfuel) (numStop_dumpsItems [] cs)
    rw [scanItems, hx]
    simp [dumpsItems, skipWs_cons (show isWs ']' = false by decide)]
  | x, y :: ys, fuel + 1, cs, hfuel => by
    have hx := scanOnce_dumps x fuel (dumpsItems (y :: ys) ++ cs)
      (by simp [dumpsItems] at hfuel; omega) (numStop_dumpsItems (y :: ys) cs)
    have hys := scanItems_dumps y ys fuel cs (by simp [dumpsItems] at hfuel ⊢; omega)
    rw [scanItems, hx]
    simp only [dumpsItems, List.cons_append, skipWs_cons (show isWs ',' = false by decide),
      Option.bind_eq_bind, Option.bind_some, List.append_assoc]
    rw [show skipWs (' ' :: (dumps y ++ (dumpsItems ys ++ cs))) =
      dumps y ++ (dumpsItems ys ++ cs) from skipWs_dumps y _, hys]
    rfl
  | x, xs, 0, cs, hfuel => by
    obtain ⟨c, ds, hds, -⟩ := dumps_head x
    simp [hds] at hfuel

theorem scanFields_dumps : ∀ (k : List Char) (v : Json) (kvs : List (List Char × Json)) (fuel : ℕ)
    (cs : List Char),
    (dumpsStr k ++ ':' :: ' ' :: (dumps v ++ dumpsFields kvs)).length ≤ fuel →
      scanFields fuel (dumpsStr k ++ ':' :: ' ' :: (dumps v ++ dumpsFields kvs) ++ cs) =
        some ((k, v) :: kvs, cs)
  | k, v, [], fuel + 1, cs, hfuel => by
    have hv := scanOnce_dumps v fuel (dumpsFields [] ++ cs)
      (by simp [dumpsStr, dumpsFields] at hfuel; omega) (numStop_dumpsFields [] cs)
    simp only [dumpsStr, List.cons_append, List.append_assoc, scanFields, List.nil_append,
      scanString_escape, Option.bind_eq_bind, Option.bind_some,
      skipWs_cons (show isWs ':' = false by decide), joinSurrogates_toNat]
    rw [show skipWs (' ' :: (dumps v ++ (dumpsFields [] ++ cs))) =
      dumps v ++ (dumpsFields [] ++ cs) from skipWs_dumps v _, hv]
    simp [dumpsFields, skipWs_cons (show isWs '}' = false by decide)]
  | k, v, (l, w) :: kvs, fuel + 1, cs, hfuel => by
    have hv := scanOnce_dumps v fuel (dumpsFields ((l, w) :: kvs) ++ cs)
      (by simp [dumpsStr, dumpsFields] at hfuel; omega) (numStop_dumpsFields ((l, w) :: kvs) cs)
    have hkvs := scanFields_dumps l w kvs fuel cs
      (by simp [dumpsStr, dumpsFields] at hfuel ⊢; omega)
    simp only [dumpsStr, List.cons_append, List.append_assoc, scanFields, List.nil_append,
      scanString_escape, Option.bind_eq_bind, Option.bind_some,
      skipWs_cons (show isWs ':' = false by decide), joinSurrogates_toNat]
    rw [show skipWs (' ' :: (dumps v ++ (dumpsFields ((l, w) :: kvs) ++ cs))) =
      dumps v ++ (dumpsFields ((l, w) :: kvs) ++ cs) from skipWs_dumps v _, hv]
    simp only [dumpsFields, List.cons_append, skipWs_cons (show isWs ',' = false by decide),
      Option.bind_some]
    rw [show skipWs (' ' :: (dumpsStr l ++ ':' :: ' ' :: (dumps w ++ dumpsFields kvs) ++ cs)) =
      dumpsStr l ++ ':' :: ' ' :: (dumps w ++ dumpsFields kvs) ++ cs from
        skipWs_cons (show isWs '"' = false by decide), hkvs]
    rfl
  | k, v, kvs, 0, cs, hfuel => by simp [dumpsStr] at hfuel

end

/-- A character that stands for itself in a string literal. -/
def isPrintable (c : Char) : Bool := 0x20 ≤ c.toNat

theorem printable_escapeChar (c : Char) : ∀ b ∈ escapeChar c, isPrintable b = true := by
  have hhex : ∀ n < 0x20, isPrintable (hexDigit (n / 16)) = true ∧
      isPrintable (hexDigit (n % 16)) = true := by
    decide
  unfold escapeChar
  split_ifs with h1 h2 h3 h4 h5 h6 h7 h8
  all_goals simp only [List.mem_cons, List.not_mem_nil, or_false, forall_eq_or_imp, forall_eq]
  all_goals first
    | decide
    | exact ⟨by decide, by decide, by decide, by decide, hhex _ h8⟩
    | simpa [isPrintable] using h8

theorem printable_dumpsStr (s : List Char) : ∀ b ∈ dumpsStr s, isPrintable b = true := by
  intro b hb
  simp only [dumpsStr, List.mem_cons, List.mem_append, List.mem_flatMap, List.not_mem_nil,
    or_false] at hb
  rcases hb with rfl | ⟨c, -, hb⟩ | rfl
  · rfl
  · exact printable_escapeChar c b hb
  · rfl

theorem printable_of_isNumChar {c : Char} (h : isNumChar c = true) : isPrintable c = true := by
  simp only [isNumChar, Bool.or_eq_true, decide_eq_true_eq] at h
  rcases h with ((((h | rfl) | rfl) | rfl) | rfl) | rfl
  · exact decide_eq_true (le_trans (by decide) (Char.isDigit_iff_toNat.mp h).1)
  all_goals rfl

mutual

/-- Written values have no control characters; in particular they stay on one line. -/
theorem printable_dumps : ∀ (v : Json), ∀ b ∈ dumps v, isPrintable b = true
  | .null => List.all_eq_true.mp rfl
  | .bool true => List.all_eq_true.mp rfl
  | .bool false => List.all_eq_true.mp rfl
  | .num n => fun b hb => printable_of_isNumChar (isNumChar_of_isNumLit n.valid b hb)
  | .str s => printable_dumpsStr s
  | .arr [] => List.all_eq_true.mp rfl
  | .arr (x :: xs) => by
    intro b hb
    simp only [dumps, List.mem_cons, List.mem_append] at hb
    rcases hb with rfl | hb | hb
    · rfl
    · exact printable_dumps x b hb
    · exact printable_dumpsItems xs b hb
  | .obj [] => List.all_eq_true.mp rfl
  | .obj ((k, v) :: kvs) => by
    intro b hb
    simp only [dumps, List.mem_cons, List.mem_append] at hb
    rcases hb with rfl | hb | rfl | rfl | hb | hb
    · rfl
    · exact printable_dumpsStr k b hb
    · rfl
    · rfl
    · exact printable_dumps v b hb
    · exact printable_dumpsFields kvs b hb

theorem printable_dumpsItems : ∀ (xs : List Json), ∀ b ∈ dumpsItems xs, isPrintable b = true
  | [] => List.all_eq_true.mp rfl
  | x :: xs => by
    intro b hb
    simp only [dumpsItems, List.mem_cons, List.mem_append] at hb
    rcases hb with rfl | rfl | hb | hb
    · rfl
    · rfl
    · exact printable_dumps x b hb
    · exact printable_dumpsItems xs b hb

theorem printable_dumpsFields : ∀ (kvs : List (List Char × Json)),
    ∀ b ∈ dumpsFields kvs, isPrintable b = true
  | [] => List.all_eq_true.mp rfl
  | (k, v) :: kvs => by
    intro b hb
    simp only [dumpsFields, List.mem_cons, List.mem_append] at hb
    rcases hb with rfl | rfl | hb | rfl | rfl | hb | hb
    · rfl
    · rfl
    · exact printable_dumpsStr k b hb
    · rfl
    · rfl
    · exact printable_dumps v b hb
    · exact printable_dumpsFields kvs b hb

end

end Json

end Py
