import Mathlib

/-! JSON texts over bytes: the grammar of RFC 8259, and a decoder that reads a
text of it into the value it stands for. -/

namespace JsonText

inductive Value
  | null
  | bool (b : Bool)
  | number (q : ℚ)
  | string (s : List UInt8)
  | array (elements : List Value)
  | object (members : List (List UInt8 × Value))

section Grammar

def IsWs (c : UInt8) : Prop := c = 32 ∨ c = 9 ∨ c = 10 ∨ c = 13

def IsDigit (c : UInt8) : Prop := 48 ≤ c ∧ c ≤ 57

instance : DecidablePred IsWs := fun _ => inferInstanceAs (Decidable (_ ∨ _))

instance : DecidablePred IsDigit := fun _ => inferInstanceAs (Decidable (_ ∧ _))

def Ws (w : List UInt8) : Prop := ∀ c ∈ w, IsWs c

def Digits (ds : List UInt8) : Prop := ds ≠ [] ∧ ∀ c ∈ ds, IsDigit c

/-- int: no zero stands before another digit. -/
def IntPart (t : List UInt8) : Prop := Digits t ∧ (t.head? = some 48 → t = [48])

def FracPart (t : List UInt8) : Prop := t = [] ∨ ∃ ds, Digits ds ∧ t = 46 :: ds

def ExpPart (t : List UInt8) : Prop :=
  t = [] ∨ ∃ e sign ds, (e = 101 ∨ e = 69) ∧ (sign = [] ∨ sign = [43] ∨ sign = [45]) ∧
    Digits ds ∧ t = e :: (sign ++ ds)

def Number (t : List UInt8) : Prop :=
  ∃ minus int frac exp, (minus = [] ∨ minus = [45]) ∧ IntPart int ∧ FracPart frac ∧ ExpPart exp ∧
    t = minus ++ int ++ frac ++ exp

/-- The value of a hexadecimal digit. -/
def hex? (c : UInt8) : Option Nat :=
  if 48 ≤ c ∧ c ≤ 57 then some (c.toNat - 48)
  else if 97 ≤ c ∧ c ≤ 102 then some (c.toNat - 87)
  else if 65 ≤ c ∧ c ≤ 70 then some (c.toNat - 55)
  else none

/-- The byte that the escape of one letter stands for. -/
def escape? (c : UInt8) : Option UInt8 :=
  if c = 34 ∨ c = 92 ∨ c = 47 then some c
  else if c = 98 then some 8
  else if c = 102 then some 12
  else if c = 110 then some 10
  else if c = 114 then some 13
  else if c = 116 then some 9
  else none

/-- A byte that stands for itself in a string. -/
def Unescaped (c : UInt8) : Prop := 32 ≤ c ∧ c ≠ 34 ∧ c ≠ 92

instance : DecidablePred Unescaped := fun _ => inferInstanceAs (Decidable (_ ∧ _))

/-- What stands between the quotes of a string. -/
inductive Chars : List UInt8 → Prop
  | nil : Chars []
  | plain {c cs} : Unescaped c → Chars cs → Chars (c :: cs)
  | escape {c b cs} : escape? c = some b → Chars cs → Chars (92 :: c :: cs)
  | unicode {a b c d cs} : (hex? a).isSome → (hex? b).isSome → (hex? c).isSome → (hex? d).isSome →
      Chars cs → Chars (92 :: 117 :: a :: b :: c :: d :: cs)

mutual

inductive IsValue : List UInt8 → Prop
  | null : IsValue [110, 117, 108, 108]
  | true_ : IsValue [116, 114, 117, 101]
  | false_ : IsValue [102, 97, 108, 115, 101]
  | number {t} : Number t → IsValue t
  | string {cs} : Chars cs → IsValue (34 :: (cs ++ [34]))
  | emptyArray {w} : Ws w → IsValue (91 :: (w ++ [93]))
  | array {t} : IsElements t → IsValue (91 :: (t ++ [93]))
  | emptyObject {w} : Ws w → IsValue (123 :: (w ++ [125]))
  | object {t} : IsMembers t → IsValue (123 :: (t ++ [125]))

inductive IsElements : List UInt8 → Prop
  | one {w t w'} : Ws w → IsValue t → Ws w' → IsElements (w ++ t ++ w')
  | more {w t w' ts} : Ws w → IsValue t → Ws w' → IsElements ts →
      IsElements (w ++ t ++ w' ++ 44 :: ts)

inductive IsMembers : List UInt8 → Prop
  | one {w cs w' v t w''} : Ws w → Chars cs → Ws w' → Ws v → IsValue t → Ws w'' →
      IsMembers (w ++ 34 :: (cs ++ 34 :: (w' ++ 58 :: (v ++ t ++ w''))))
  | more {w cs w' v t w'' ts} : Ws w → Chars cs → Ws w' → Ws v → IsValue t → Ws w'' →
      IsMembers ts → IsMembers (w ++ 34 :: (cs ++ 34 :: (w' ++ 58 :: (v ++ t ++ w'' ++ 44 :: ts))))

end

end Grammar

section Decode

/-- A character of a string: a byte, or a UTF-16 code unit from an escape. -/
inductive StrChar
  | byte (b : UInt8)
  | unit (u : Nat)

def utf8 (u : Nat) : List UInt8 :=
  if u < 0x80 then [UInt8.ofNat u]
  else if u < 0x800 then [UInt8.ofNat (0xC0 + u / 64), UInt8.ofNat (0x80 + u % 64)]
  else if u < 0x10000 then
    [UInt8.ofNat (0xE0 + u / 4096), UInt8.ofNat (0x80 + u / 64 % 64), UInt8.ofNat (0x80 + u % 64)]
  else
    [UInt8.ofNat (0xF0 + u / 262144), UInt8.ofNat (0x80 + u / 4096 % 64),
      UInt8.ofNat (0x80 + u / 64 % 64), UInt8.ofNat (0x80 + u % 64)]

/-- The bytes of a string; two halves of a surrogate pair make one code point. -/
def strBytes : List StrChar → List UInt8
  | [] => []
  | .byte b :: cs => b :: strBytes cs
  | .unit hi :: .unit lo :: cs =>
    if 0xD800 ≤ hi ∧ hi < 0xDC00 ∧ 0xDC00 ≤ lo ∧ lo < 0xE000 then
      utf8 (0x10000 + (hi - 0xD800) * 0x400 + (lo - 0xDC00)) ++ strBytes cs
    else utf8 hi ++ strBytes (.unit lo :: cs)
  | .unit u :: cs => utf8 u ++ strBytes cs

/-- The characters up to the closing quote, and what follows it. -/
def chars : List UInt8 → Option (List StrChar × List UInt8)
  | [] => none
  | c :: input =>
    if c = 34 then some ([], input)
    else if c = 92 then
      match input with
      | [] => none
      | e :: input =>
        if e = 117 then
          match input with
          | h1 :: h2 :: h3 :: h4 :: input => do
            let u1 ← hex? h1
            let u2 ← hex? h2
            let u3 ← hex? h3
            let u4 ← hex? h4
            let (cs, rest) ← chars input
            some (.unit (((u1 * 16 + u2) * 16 + u3) * 16 + u4) :: cs, rest)
          | _ => none
        else do
          let b ← escape? e
          let (cs, rest) ← chars input
          some (.byte b :: cs, rest)
    else if c < 32 then none
    else do
      let (cs, rest) ← chars input
      some (.byte c :: cs, rest)

def skipWs (input : List UInt8) : List UInt8 := input.dropWhile fun c => IsWs c

def digitsValue (ds : List UInt8) : Nat := ds.foldl (fun n c => 10 * n + (c.toNat - 48)) 0

def digits (input : List UInt8) : Option (List UInt8 × List UInt8) :=
  let ds := input.takeWhile fun c => IsDigit c
  if ds = [] then none else some (ds, input.dropWhile fun c => IsDigit c)

def minus : List UInt8 → Bool × List UInt8
  | 45 :: input => (true, input)
  | input => (false, input)

def intPart : List UInt8 → Option (List UInt8 × List UInt8)
  | 48 :: input => some ([48], input)
  | input => digits input

def fracPart : List UInt8 → Option (List UInt8 × List UInt8)
  | 46 :: input => digits input
  | input => some ([], input)

def expSign : List UInt8 → Bool × List UInt8
  | 43 :: input => (false, input)
  | 45 :: input => (true, input)
  | input => (false, input)

def expPart : List UInt8 → Option (Int × List UInt8)
  | [] => some (0, [])
  | c :: input =>
    if c = 101 ∨ c = 69 then do
      let (neg, input) := expSign input
      let (ds, rest) ← digits input
      some (if neg then -(digitsValue ds : Int) else digitsValue ds, rest)
    else some (0, c :: input)

def number (input : List UInt8) : Option (ℚ × List UInt8) := do
  let (neg, input) := minus input
  let (int, input) ← intPart input
  let (frac, input) ← fracPart input
  let (exp, rest) ← expPart input
  let q : ℚ := digitsValue (int ++ frac) * 10 ^ (exp - frac.length)
  some (if neg then -q else q, rest)

mutual

def value : Nat → List UInt8 → Option (Value × List UInt8)
  | 0, _ => none
  | fuel + 1, input =>
    match input with
    | 110 :: 117 :: 108 :: 108 :: rest => some (.null, rest)
    | 116 :: 114 :: 117 :: 101 :: rest => some (.bool true, rest)
    | 102 :: 97 :: 108 :: 115 :: 101 :: rest => some (.bool false, rest)
    | 34 :: input => do
      let (cs, rest) ← chars input
      some (.string (strBytes cs), rest)
    | 91 :: input =>
      match skipWs input with
      | 93 :: rest => some (.array [], rest)
      | _ => do
        let (vs, rest) ← elements fuel input
        some (.array vs, rest)
    | 123 :: input =>
      match skipWs input with
      | 125 :: rest => some (.object [], rest)
      | _ => do
        let (ms, rest) ← members fuel input
        some (.object ms, rest)
    | input => do
      let (q, rest) ← number input
      some (.number q, rest)

def elements : Nat → List UInt8 → Option (List Value × List UInt8)
  | 0, _ => none
  | fuel + 1, input => do
    let (v, input) ← value fuel (skipWs input)
    match skipWs input with
    | 93 :: rest => some ([v], rest)
    | 44 :: input => do
      let (vs, rest) ← elements fuel input
      some (v :: vs, rest)
    | _ => none

def members : Nat → List UInt8 → Option (List (List UInt8 × Value) × List UInt8)
  | 0, _ => none
  | fuel + 1, input =>
    match skipWs input with
    | 34 :: input => do
      let (cs, input) ← chars input
      match skipWs input with
      | 58 :: input => do
        let (v, input) ← value fuel (skipWs input)
        match skipWs input with
        | 125 :: rest => some ([(strBytes cs, v)], rest)
        | 44 :: input => do
          let (ms, rest) ← members fuel input
          some ((strBytes cs, v) :: ms, rest)
        | _ => none
      | _ => none
    | _ => none

end

end Decode

end JsonText
