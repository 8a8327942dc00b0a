import KvRaft.Lib.Bytes

/-! # JSON as `encoding/json` reads it

The syntax check and the string decoding of the standard library's decoder. A string keeps the bytes
between its quotes, since `time.Time` reads those and not the decoded text; `unquote` decodes them.
Bytes are written as numbers: `0x22` is the quote, `0x5C` the backslash. -/

namespace Encoding

open Bytes

inductive Json
  | null
  | bool (b : Bool)
  | num (raw : Bytes)
  | str (raw : Bytes)
  | arr (vs : List Json)
  | obj (kvs : List (Bytes × Json))

namespace Json

/-! ## Syntax -/

def isSpace (c : UInt8) : Bool := c == 0x20 || c == 0x09 || c == 0x0D || c == 0x0A

def isDigit (c : UInt8) : Bool := 0x30 ≤ c && c ≤ 0x39

def isHex (c : UInt8) : Bool :=
  isDigit c || (0x61 ≤ c && c ≤ 0x66) || (0x41 ≤ c && c ≤ 0x46)

def skipSpace (b : Bytes) : Bytes := b.dropWhile isSpace

def string : Bytes → Option (Bytes × Bytes)
  | [] => none
  | 0x22 :: b => some ([], b)
  | 0x5C :: 0x75 :: h₁ :: h₂ :: h₃ :: h₄ :: b =>
    if isHex h₁ && isHex h₂ && isHex h₃ && isHex h₄ then
      (string b).map fun (s, r) => (0x5C :: 0x75 :: h₁ :: h₂ :: h₃ :: h₄ :: s, r)
    else none
  | 0x5C :: e :: b =>
    if e ∈ [0x62, 0x66, 0x6E, 0x72, 0x74, 0x5C, 0x2F, 0x22] then
      (string b).map fun (s, r) => (0x5C :: e :: s, r)
    else none
  | c :: b => if c < 0x20 || c == 0x5C then none else (string b).map fun (s, r) => (c :: s, r)

def digits (b : Bytes) : Option (Bytes × Bytes) :=
  match b.takeWhile isDigit with
  | [] => none
  | ds => some (ds, b.dropWhile isDigit)

def integer : Bytes → Option (Bytes × Bytes)
  | 0x30 :: b => some ([0x30], b)
  | b => digits b

def fraction : Bytes → Option (Bytes × Bytes)
  | 0x2E :: b => (digits b).map fun (d, r) => (0x2E :: d, r)
  | b => some ([], b)

def exponent : Bytes → Option (Bytes × Bytes)
  | c :: b =>
    if c == 0x65 || c == 0x45 then
      match b with
      | s :: b' =>
        if s == 0x2B || s == 0x2D then (digits b').map fun (d, r) => (c :: s :: d, r)
        else (digits b).map fun (d, r) => (c :: d, r)
      | [] => none
    else some ([], c :: b)
  | [] => some ([], [])

def number (b : Bytes) : Option (Bytes × Bytes) := do
  let (sign, b) : Bytes × Bytes := match b with
    | 0x2D :: b => ([0x2D], b)
    | b => ([], b)
  let (i, b) ← integer b
  let (f, b) ← fraction b
  let (e, b) ← exponent b
  return (sign ++ i ++ f ++ e, b)

def maxNestingDepth : Nat := 10000

mutual

/-- One value off the front, inside `depth` containers. -/
def value : Nat → Nat → Bytes → Option (Json × Bytes)
  | 0, _, _ => none
  | fuel + 1, depth, b =>
    match skipSpace b with
    | [] => none
    | 0x22 :: b => (string b).map fun (s, r) => (str s, r)
    | 0x7B :: b =>
      if depth ≥ maxNestingDepth then none
      else
        match skipSpace b with
        | 0x7D :: b => some (obj [], b)
        | b => (members fuel (depth + 1) b).map fun (kvs, r) => (obj kvs, r)
    | 0x5B :: b =>
      if depth ≥ maxNestingDepth then none
      else
        match skipSpace b with
        | 0x5D :: b => some (arr [], b)
        | b => (elements fuel (depth + 1) b).map fun (vs, r) => (arr vs, r)
    | 0x74 :: 0x72 :: 0x75 :: 0x65 :: b => some (bool true, b)
    | 0x66 :: 0x61 :: 0x6C :: 0x73 :: 0x65 :: b => some (bool false, b)
    | 0x6E :: 0x75 :: 0x6C :: 0x6C :: b => some (null, b)
    | b => (number b).map fun (n, r) => (num n, r)
termination_by structural fuel => fuel

def elements : Nat → Nat → Bytes → Option (List Json × Bytes)
  | 0, _, _ => none
  | fuel + 1, depth, b =>
    match value fuel depth b with
    | none => none
    | some (v, b) =>
      match skipSpace b with
      | 0x2C :: b => (elements fuel depth b).map fun (vs, r) => (v :: vs, r)
      | 0x5D :: b => some ([v], b)
      | _ => none
termination_by structural fuel => fuel

def members : Nat → Nat → Bytes → Option (List (Bytes × Json) × Bytes)
  | 0, _, _ => none
  | fuel + 1, depth, b =>
    match skipSpace b with
    | 0x22 :: b =>
      match string b with
      | none => none
      | some (k, b) =>
        match skipSpace b with
        | 0x3A :: b =>
          match value fuel depth b with
          | none => none
          | some (v, b) =>
            match skipSpace b with
            | 0x2C :: b => (members fuel depth b).map fun (kvs, r) => ((k, v) :: kvs, r)
            | 0x7D :: b => some ([(k, v)], b)
            | _ => none
        | _ => none
    | _ => none
termination_by structural fuel => fuel

end

/-- A whole text. Every call consumes a byte or leads to one that does, within twice the length. -/
def parse (b : Bytes) : Option Json :=
  match value (2 * b.length + 1) 0 b with
  | some (v, r) => if skipSpace r = [] then some v else none
  | none => none

/-! ## Strings -/

/-- The length of the valid UTF-8 sequence at the front, for a first byte above ASCII. -/
def utf8Len : Bytes → Option Nat
  | a :: b :: rest =>
    let cont (x : UInt8) : Bool := 0x80 ≤ x && x ≤ 0xBF
    if 0xC2 ≤ a && a ≤ 0xDF then if cont b then some 2 else none
    else
      let second : Bool :=
        if a == 0xE0 then 0xA0 ≤ b && b ≤ 0xBF
        else if a == 0xED then 0x80 ≤ b && b ≤ 0x9F
        else if a == 0xF0 then 0x90 ≤ b && b ≤ 0xBF
        else if a == 0xF4 then 0x80 ≤ b && b ≤ 0x8F
        else cont b
      match rest with
      | c :: rest =>
        if 0xE0 ≤ a && a ≤ 0xEF then if second && cont c then some 3 else none
        else if 0xF0 ≤ a && a ≤ 0xF4 then
          match rest with
          | d :: _ => if second && cont c && cont d then some 4 else none
          | [] => none
        else none
      | [] => none
  | _ => none

def encodeRune (r : Nat) : Bytes :=
  if r < 0x80 then [UInt8.ofNat r]
  else if r < 0x800 then [UInt8.ofNat (0xC0 + r / 64), UInt8.ofNat (0x80 + r % 64)]
  else if r < 0x10000 then
    [UInt8.ofNat (0xE0 + r / 4096), UInt8.ofNat (0x80 + r / 64 % 64), UInt8.ofNat (0x80 + r % 64)]
  else
    [UInt8.ofNat (0xF0 + r / 262144), UInt8.ofNat (0x80 + r / 4096 % 64),
      UInt8.ofNat (0x80 + r / 64 % 64), UInt8.ofNat (0x80 + r % 64)]

def replacementChar : Nat := 0xFFFD

def hexVal (c : UInt8) : Nat :=
  if isDigit c then c.toNat - 0x30 else if 0x61 ≤ c then c.toNat - 0x57 else c.toNat - 0x37

def getu4 : Bytes → Option Nat
  | 0x5C :: 0x75 :: h₁ :: h₂ :: h₃ :: h₄ :: _ =>
    some (((hexVal h₁ * 16 + hexVal h₂) * 16 + hexVal h₃) * 16 + hexVal h₄)
  | _ => none

def decodeSurrogates (hi : Nat) (lo : Option Nat) : Option Nat :=
  match lo with
  | none => none
  | some lo =>
    if 0xD800 ≤ hi ∧ hi < 0xDC00 ∧ 0xDC00 ≤ lo ∧ lo < 0xE000 then
      some ((hi - 0xD800) * 1024 + (lo - 0xDC00) + 0x10000)
    else none

def simpleEscape (e : UInt8) : UInt8 :=
  if e == 0x62 then 0x08
  else if e == 0x66 then 0x0C
  else if e == 0x6E then 0x0A
  else if e == 0x72 then 0x0D
  else if e == 0x74 then 0x09
  else e

/-- One step consumes a byte at least. Invalid UTF-8 becomes replacement characters. -/
def unquoteFrom : Nat → Bytes → Bytes
  | 0, _ => []
  | _, [] => []
  | fuel + 1, c :: b =>
    if c == 0x5C then
      match getu4 (c :: b) with
      | some r =>
        let b := b.drop 5
        if 0xD800 ≤ r ∧ r < 0xE000 then
          match decodeSurrogates r (getu4 b) with
          | some dec => encodeRune dec ++ unquoteFrom fuel (b.drop 6)
          | none => encodeRune replacementChar ++ unquoteFrom fuel b
        else encodeRune r ++ unquoteFrom fuel b
      | none => simpleEscape (b.headD 0) :: unquoteFrom fuel (b.drop 1)
    else if c < 0x80 then c :: unquoteFrom fuel b
    else
      match utf8Len (c :: b) with
      | some n => (c :: b).take n ++ unquoteFrom fuel ((c :: b).drop n)
      | none => encodeRune replacementChar ++ unquoteFrom fuel b

def unquote (raw : Bytes) : Bytes := unquoteFrom raw.length raw

def hexLower (n : Nat) : UInt8 :=
  if n < 10 then UInt8.ofNat (0x30 + n) else UInt8.ofNat (0x57 + n)

/-- `\u00XX`. -/
def escapeByte (c : UInt8) : Bytes :=
  [0x5C, 0x75, 0x30, 0x30, hexLower (c.toNat / 16), hexLower (c.toNat % 16)]

/-- How an ASCII byte is written: `<`, `>` and `&` are escaped as well. -/
def quoteAscii (c : UInt8) : Bytes :=
  if c = 0x5C ∨ c = 0x22 then [0x5C, c]
  else if c = 0x08 then [0x5C, 0x62]
  else if c = 0x0C then [0x5C, 0x66]
  else if c = 0x0A then [0x5C, 0x6E]
  else if c = 0x0D then [0x5C, 0x72]
  else if c = 0x09 then [0x5C, 0x74]
  else if c < 0x20 ∨ c = 0x3C ∨ c = 0x3E ∨ c = 0x26 then escapeByte c
  else [c]

/-- The text between the quotes of a marshalled string. Invalid UTF-8 is written as the replacement
character, and the two line separators above ASCII are escaped. -/
def quoteFrom : Nat → Bytes → Bytes
  | 0, _ => []
  | _, [] => []
  | fuel + 1, c :: b =>
    if c < 0x80 then quoteAscii c ++ quoteFrom fuel b
    else
      match utf8Len (c :: b) with
      | none => ascii "\\ufffd" ++ quoteFrom fuel b
      | some n =>
        let r := (c :: b).take n
        (if r = [0xE2, 0x80, 0xA8] then ascii "\\u2028"
         else if r = [0xE2, 0x80, 0xA9] then ascii "\\u2029"
         else r) ++ quoteFrom fuel ((c :: b).drop n)

def quote (s : Bytes) : Bytes := 0x22 :: (quoteFrom s.length s ++ [0x22])

theorem length_quoteAscii (c : UInt8) : (quoteAscii c).length ≤ 6 := by
  unfold quoteAscii
  split_ifs <;> simp [escapeByte]

theorem length_quoteFrom (fuel : Nat) (s : Bytes) : (quoteFrom fuel s).length ≤ 6 * s.length := by
  induction fuel generalizing s with
  | zero => simp [quoteFrom]
  | succ fuel ih =>
    cases s with
    | nil => simp [quoteFrom]
    | cons c b =>
      unfold quoteFrom
      split_ifs with hascii
      · have h₁ := length_quoteAscii c
        have h₂ := ih b
        simp only [List.length_append, List.length_cons]
        omega
      · split
        · have h := ih b
          simp only [List.length_append, List.length_cons]
          have : (ascii "\\ufffd").length = 6 := rfl
          omega
        · rename_i k _
          have h := ih ((c :: b).drop k)
          have hlen : ((c :: b).take k).length + ((c :: b).drop k).length = (c :: b).length := by
            rw [← List.length_append, List.take_append_drop]
          have hr : ∀ r : Bytes, (if r = [0xE2, 0x80, 0xA8] then ascii "\\u2028"
              else if r = [0xE2, 0x80, 0xA9] then ascii "\\u2029" else r).length ≤
                6 * r.length := by
            intro r
            split_ifs with h₁ h₂
            · subst h₁; decide
            · subst h₂; decide
            · omega
          have := hr ((c :: b).take k)
          rw [List.length_append]
          omega

theorem length_quote (s : Bytes) : (quote s).length ≤ 6 * s.length + 2 := by
  have := length_quoteFrom s.length s
  simp only [quote, List.length_cons, List.length_append, List.length_nil]
  omega

/-- `foldName`, for comparison with ASCII names: the two runes above ASCII that fold to a letter are
the Kelvin sign and the long s. -/
def foldName : Bytes → Bytes
  | [] => []
  | 0xE2 :: 0x84 :: 0xAA :: b => 0x4B :: foldName b
  | 0xC5 :: 0xBF :: b => 0x53 :: foldName b
  | c :: b => (if 0x61 ≤ c && c ≤ 0x7A then c - 0x20 else c) :: foldName b

/-- The struct field that a key stands for: the one of that name, else one that folds
to the same. -/
def matchField (names : List Bytes) (key : Bytes) : Option Bytes :=
  (names.find? (· == key)).or (names.find? fun n => foldName n == foldName key)

/-! ## Values into fields -/

/-- A value for a string, given what the string was. -/
def decodeString (old : Bytes) : Json → Option Bytes
  | .null => some old
  | .str raw => some (unquote raw)
  | _ => none

/-- A value for a byte: a number without sign, fraction or exponent. -/
def decodeUint8 (old : UInt8) : Json → Option UInt8
  | .null => some old
  | .num raw =>
    let n := raw.foldl (fun n c => n * 10 + (c.toNat - 0x30)) 0
    if raw.all isDigit ∧ n < 256 then some (UInt8.ofNat n) else none
  | _ => none

def decimal (n : Nat) : Bytes := (Nat.toDigits 10 n).map fun c => UInt8.ofNat c.toNat

end Json

end Encoding
