import CompileCache.Json.Numeral
import CompileCache.Json.Printer

/-!
# Reader — from texts to values

* `readText`: the rest of a text behind its opening quotation mark.
* `readPlain`: a value without parts.
* `embeddingKey`, `readEmbeddedText`: under the strict rigour an object whose first key is the
  embedding key has no other members and stands for the value that the text behind the key is.
* `readValue`, `readItems`, `readMembers`, `readEmbedded`: a value, the elements of an array, the
  members of an object, an embedded value. A counter bounds the calls; `fuel` is enough for every
  text.
* `ofChars`: the value that a whole text is.
* **`Json.parse`**: the strict reading, with the wording of the fault that comes first.
* `Json.lenient?`: the lenient reading.
-/

namespace CompileCache.Json

/-! ## Texts -/

/-- The value of a hexadecimal digit. -/
def hexValue? (c : Char) : Option Nat :=
  if '0' ≤ c ∧ c ≤ '9' then some (c.toNat - 48)
  else if 'a' ≤ c ∧ c ≤ 'f' then some (c.toNat - 87)
  else if 'A' ≤ c ∧ c ≤ 'F' then some (c.toNat - 55)
  else none

/-- The value of four hexadecimal digits. -/
def unit? (a b c d : Char) : Option Nat := do
  return (((← hexValue? a) * 16 + (← hexValue? b)) * 16 + (← hexValue? c)) * 16 + (← hexValue? d)

/-- Four bytes that are no four digits: refused behind them, or at the end if there are fewer. -/
def badUnit (cs : List Char) : Fault :=
  if byteSize cs < 4 then ⟨.endInText, 0⟩ else ⟨.invalidEscape, byteSize cs - 4⟩

/-- Whether a code unit is the first half of a surrogate pair. -/
def isHigh (u : Nat) : Bool := 0xD800 ≤ u && u < 0xDC00

/-- Whether a code unit is the second half of a surrogate pair. -/
def isLow (u : Nat) : Bool := 0xDC00 ≤ u && u < 0xE000

/-- The character that a surrogate pair stands for. -/
def ofPair (high low : Nat) : Char := Char.ofNat (0x10000 + (high - 0xD800) * 0x400 + (low - 0xDC00))

/-- The character that a one-letter escape stands for. -/
def escaped? (c : Char) : Option Char :=
  match c with
  | '"' => some '"'
  | '\\' => some '\\'
  | '/' => some '/'
  | 'b' => some '\x08'
  | 'f' => some '\x0c'
  | 'n' => some '\n'
  | 'r' => some '\r'
  | 't' => some '\t'
  | _ => none

/-- Puts a character in front of a text that was read; a text that denotes nothing stays so. -/
def prepend (c : Char) (x : Read (Option (List Char))) : Read (Option (List Char)) :=
  x.map fun r => (r.1.map (c :: ·), r.2)

/-- A text that holds half of a surrogate pair, read on as `x`: the strict rigour refuses it. -/
def halfPair (r : Rigour) (f : Fault) (x : Read (Option (List Char))) : Read (Option (List Char)) :=
  match r with
  | .strict => .error f
  | .lenient => x.map fun y => (none, y.2)

/-- What stands for a code unit behind the first half `high?` of a pair, with `x` the text behind
it and `y` the same text when the unit is the first half of a pair itself. -/
def joinUnit (r : Rigour) (high? : Option Nat) (u : Nat) (rest : List Char)
    (x y : Unit → Read (Option (List Char))) : Read (Option (List Char)) :=
  match high? with
  | some high =>
    if isLow u then prepend (ofPair high u) (x ())
    else halfPair r (.before .loneSurrogate rest) (x ())
  | none =>
    if isLow u then halfPair r (.before .loneSurrogate rest) (x ())
    else if isHigh u then y ()
    else prepend (Char.ofNat u) (x ())

/-- A character that is no code unit, read on as `x`: it may not follow the first half of a pair. -/
def afterHigh (r : Rigour) (high? : Option Nat) (at_ : List Char)
    (x : Unit → Read (Option (List Char))) : Read (Option (List Char)) :=
  match high? with
  | none => x ()
  | some _ =>
    match r with
    | .strict => .error (.into .surrogateEnds at_)
    | .lenient => (x ()).map fun y => (none, y.2)

/-- The rest of a text behind its opening quotation mark, and behind the first half `high?` of a
surrogate pair if there is one; `none` if the text denotes nothing. -/
def readText (r : Rigour) (high? : Option Nat) : List Char → Read (Option (List Char))
  | [] => .error (.before .endInText [])
  | c :: cs =>
    if c = '\\' then
      match cs with
      | [] => .error (.before .endInText [])
      | e :: cs =>
        if e = 'u' then
          match cs with
          | a :: b :: c :: d :: rest =>
            match unit? a b c d with
            | none => .error (badUnit (a :: b :: c :: d :: rest))
            | some u =>
              joinUnit r high? u rest (fun _ => readText r none rest) fun _ => readText r (some u) rest
          | _ => .error (badUnit cs)
        else afterHigh r high? (e :: cs) fun _ =>
          match escaped? e with
          | some x => prepend x (readText r none cs)
          | none => .error (.into .invalidEscape (e :: cs))
    else afterHigh r high? (c :: cs) fun _ =>
      if c = '"' then .ok (some [], cs)
      else if c.toNat < 32 then .error (.into .controlCharacter (c :: cs))
      else prepend c (readText r none cs)

/-! ## Values -/

/-- Drops the blanks that may stand between the parts of a value. -/
def skip (cs : List Char) : List Char :=
  cs.dropWhile fun c => c = ' ' || c = '\n' || c = '\t' || c = '\r'

/-- The rest of a literal behind its first letter. -/
def readLiteral (j : Json) : List Char → List Char → Read Json
  | [], cs => .ok (j, cs)
  | _ :: _, [] => .error (.before .endInValue [])
  | w :: ws, c :: cs =>
    if c = w then readLiteral j ws cs else .error (.into .expectedLiteral (c :: cs))

/-- A value that is no text and has no parts, from its first character on. -/
def readPlain (r : Rigour) (c : Char) (rest : List Char) : Read Json :=
  if c = 'n' then readLiteral .null ['u', 'l', 'l'] rest
  else if c = 't' then readLiteral (.bool true) ['r', 'u', 'e'] rest
  else if c = 'f' then readLiteral (.bool false) ['a', 'l', 's', 'e'] rest
  else if c = '-' then readNumber r true rest
  else if c.isDigit then readNumber r false (c :: rest)
  else .error (.into .expectedValue (c :: rest))

/-- The colon behind a key. -/
def readColon (cs : List Char) : Read Unit :=
  match skip cs with
  | [] => .error (.into .endInObject [])
  | c :: rest => if c = ':' then .ok ((), rest) else .error (.into .expectedColon (c :: rest))

/-! ## Embedded texts -/

/-- The key of an object that stands for the value that a text is. -/
def embeddingKey : String := "$serde_json::private::RawValue"

/-- What follows the embedding key, if that is the key that an object starts with. -/
def afterEmbeddingKey? (r : Rigour) (cs : List Char) : Option (List Char) :=
  match r, readText r none cs with
  | .strict, .ok (some key, rest) => if String.ofList key = embeddingKey then some rest else none
  | _, _ => none

/-- What a value without parts that is no text is called. -/
def kindOf : Json → String
  | .bool b => "boolean `" ++ (if b then "true" else "false") ++ "`"
  | .number (.float bits) => "floating point `" ++ Decimal.text bits ++ "`"
  | .number n => "integer `" ++ String.ofList n.chars ++ "`"
  | _ => "null"

/-- A text that stands for a value. No value of another kind may stand there. -/
def readEmbeddedText (cs : List Char) : Read (List Char) :=
  match skip cs with
  | [] => .error (.into .endInValue [])
  | c :: rest =>
    if c = '"' then (readText .strict none rest).map fun x => (x.1.getD [], x.2)
    else if c = '[' then .error (.before (.notEmbedded "sequence") (c :: rest))
    else if c = '\x7b' then .error (.before (.notEmbedded "map") (c :: rest))
    else (readPlain .strict c rest).bind fun x => .error (.before (.notEmbedded (kindOf x.1)) x.2)

/-- The closing brace behind an embedded text. -/
def closeEmbedded (cs : List Char) : Read Unit :=
  match skip cs with
  | [] => .error (.into .endInObject [])
  | c :: rest =>
    if c = '\x7d' then .ok ((), rest)
    else if c = ',' then .error (.into .trailingComma (c :: rest))
    else .error (.into .trailingCharacters (c :: rest))

/-! ## Values with parts -/

/-- Whether one more level of nesting is too deep. -/
def Rigour.refuses (r : Rigour) (depth : Nat) : Bool :=
  match r with
  | .strict => 127 ≤ depth
  | .lenient => false

mutual

/-- A value at `depth` levels of nesting, blanks ahead of it allowed. -/
def readValue (r : Rigour) (depth : Nat) : Nat → List Char → Read Json
  | 0, cs => .error (.before .endInValue cs)
  | fuel + 1, cs =>
    match skip cs with
    | [] => .error (.into .endInValue [])
    | c :: rest =>
      if c = '"' then
        (readText r none rest).map fun x => (x.1.elim .void fun s => .text (String.ofList s), x.2)
      else if c = '[' then
        if r.refuses depth then .error (.into .tooDeep (c :: rest))
        else match skip rest with
          | [] => .error (.into .endInList [])
          | d :: rest' =>
            if d = ']' then .ok (.array [], rest')
            else (readItems r (depth + 1) fuel (d :: rest')).map fun x => (.array x.1, x.2)
      else if c = '\x7b' then
        if r.refuses depth then .error (.into .tooDeep (c :: rest))
        else match skip rest with
          | [] => .error (.into .endInObject [])
          | d :: rest' =>
            if d = '\x7d' then .ok (.object [], rest')
            else if d = '"' then
              match afterEmbeddingKey? r rest' with
              | some rest' => readEmbedded r fuel rest'
              | none =>
                (readMembers r (depth + 1) fuel rest').map fun x => (x.1.elim .void .object, x.2)
            else .error (.into .keyNotText (d :: rest'))
      else readPlain r c rest

/-- The value of the text behind the embedding key, and the closing brace of its object. -/
def readEmbedded (r : Rigour) : Nat → List Char → Read Json
  | 0, cs => .error (.before .endInObject cs)
  | fuel + 1, cs =>
    match (readColon cs).bind fun x => readEmbeddedText x.2 with
    | .error f => .error f
    | .ok (inner, rest) =>
      match readValue r 0 fuel inner with
      | .error f => .error (f.inside inner)
      | .ok (j, left) =>
        match skip left with
        | [] => (closeEmbedded rest).map fun x => (j, x.2)
        | c :: left => .error ((Fault.into .trailingCharacters (c :: left)).inside inner)

/-- The elements of an array that is not at its end, and the closing bracket. -/
def readItems (r : Rigour) (depth : Nat) : Nat → List Char → Read (List Json)
  | 0, cs => .error (.before .endInList cs)
  | fuel + 1, cs =>
    match readValue r depth fuel cs with
    | .error f => .error f
    | .ok (j, rest) =>
      match skip rest with
      | [] => .error (.into .endInList [])
      | c :: rest =>
        if c = ']' then .ok ([j], rest)
        else if c = ',' then
          match skip rest with
          | [] => .error (.into .endInValue [])
          | d :: rest' =>
            if d = ']' then .error (.into .trailingComma (d :: rest'))
            else (readItems r depth fuel (d :: rest')).map fun x => (j :: x.1, x.2)
        else .error (.into .expectedListEnd (c :: rest))

/-- The members of an object behind the quotation mark of a key, and the closing brace; `none` if
a key denotes nothing. -/
def readMembers (r : Rigour) (depth : Nat) : Nat → List Char → Read (Option (List (String × Json)))
  | 0, cs => .error (.before .endInObject cs)
  | fuel + 1, cs =>
    match readText r none cs with
    | .error f => .error f
    | .ok (key, rest) =>
      match (readColon rest).bind fun x => readValue r depth fuel x.2 with
      | .error f => .error f
      | .ok (j, rest) =>
        let member := key.map fun k => (String.ofList k, j)
        match skip rest with
        | [] => .error (.into .endInObject [])
        | c :: rest =>
          if c = '\x7d' then .ok (member.map ([·]), rest)
          else if c = ',' then
            match skip rest with
            | [] => .error (.into .endInValue [])
            | d :: rest' =>
              if d = '"' then
                (readMembers r depth fuel rest').map fun x =>
                  (member.bind fun m => x.1.map (m :: ·), x.2)
              else if d = '\x7d' then .error (.into .trailingComma (d :: rest'))
              else .error (.into .keyNotText (d :: rest'))
          else .error (.into .expectedObjectEnd (c :: rest))

end

/-- A bound on the calls that reading a text takes. -/
def fuel (cs : List Char) : Nat := 2 * cs.length + 2

/-- The value that a whole text is. -/
def ofChars (r : Rigour) (cs : List Char) : Except Fault Json :=
  match readValue r 0 (fuel cs) cs with
  | .error f => .error f
  | .ok (j, rest) =>
    match skip rest with
    | [] => .ok j
    | c :: rest => .error (.into .trailingCharacters (c :: rest))

/-- **The value that a text is, or the wording of its first fault.** -/
def parse (s : String) : Except String Json :=
  match ofChars .strict s.toList with
  | .ok j => .ok j
  | .error f => .error (f.message s.toList)

/-- The value that a text is under the lenient rigour. -/
def lenient? (s : String) : Option Json := (ofChars .lenient s.toList).toOption

end CompileCache.Json
