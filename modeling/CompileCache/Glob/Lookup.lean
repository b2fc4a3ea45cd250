import CompileCache.Glob.Expression
import CompileCache.Text.Pieces

/-!
# Lookup — what of a path a pattern is compared with

A pattern is compared with the last name of a path, or with the extension of that name, where this
is enough. A path whose last name is two points has no last name, so such a pattern cannot match it.
Only patterns that are compared as expressions have to keep the bound on nesting; an expression for
a last name always does, and has no place among the others. The bound on the size of a compiled
expression is left out, as it hangs on the compiler of expressions: only patterns with a very long
text come near it, and here they are good.

* `lastName?`: the last name of a path.
* `Lookup`, `lookup`: what a pattern is compared with.
* **`isMatch`**: whether a pattern matches a path.
* `SetFault`, `check`: why patterns cannot be used together.
-/

namespace CompileCache.Glob

/-- The last name of a path. Two points name nothing. -/
def lastName? (path : String) : Option (List Char) :=
  (Text.pieces '/' path.toList).getLast?.filter (· != ['.', '.'])

/-- What of a path a pattern is compared with. -/
inductive Lookup where
  /-- The last name, as a text. -/
  | name
  /-- The extension of the last name, and nothing else. -/
  | extension
  /-- The start or the end of the path, as a text. -/
  | text
  /-- The extension of the last name, and then the path as an expression. -/
  | extensionFirst
  /-- The path as an expression that says what the last name is. -/
  | nameExpression
  /-- The path as an expression. -/
  | expression
deriving DecidableEq

namespace Token

/-- Whether a token is a character. -/
def isLiteral : Token → Bool
  | .literal _ => true
  | _ => false

/-- Whether a token is a character other than the given ones. -/
def isLiteralExcept (excluded : List Char) : Token → Bool
  | .literal c => !excluded.contains c
  | _ => false

/-- Whether a token is a character of a name, or a class of bytes that a name may have. -/
def isOfName : Token → Bool
  | .charClass negated ranges => !classHas negated ranges slash
  | t => t.isLiteralExcept ['/']

end Token

/-- The tokens behind any directories at the start. -/
def behindTree : List Token → List Token
  | .treeStart :: rest => rest
  | tokens => tokens

/-- Whether a pattern asks for a last name, in any directory. A class is no character. -/
def asksName : List Token → Bool
  | .treeStart :: t :: rest => (t :: rest).all (Token.isLiteralExcept ['/'])
  | _ => false

/-- Whether a pattern says character by character, or by classes, what the last name is. -/
def tellsName : List Token → Bool
  | .treeStart :: t :: rest => (t :: rest).all Token.isOfName
  | _ => false

/-- Whether a pattern asks for an extension, whatever is ahead of it. -/
def asksExtension (tokens : List Token) : Bool :=
  match behindTree tokens with
  | .star :: .literal '.' :: rest => rest.all (Token.isLiteralExcept ['.', '/'])
  | _ => false

/-- Whether a pattern asks for a path, or for the start of one. -/
def asksStart (tokens : List Token) : Bool :=
  match tokens.reverse with
  | .treeEnd :: front => front.all Token.isLiteral
  | .star :: t :: front => (t :: front).all Token.isLiteral
  | .literal _ :: front => front.all Token.isLiteral
  | _ => false

/-- Whether a pattern asks for the end of a path; a separator alone does not count. -/
def asksEnd (tokens : List Token) : Bool :=
  match tokens with
  | .treeStart :: .star :: back | .star :: back =>
    back.all Token.isLiteral && (2 ≤ back.length || back.any (Token.isLiteralExcept ['/']))
  | .treeStart :: t :: back => (t :: back).all Token.isLiteral
  | _ => false

/-- Whether the tokens, which are given from the last on, end in an extension. -/
def endsInExtension : List Token → Bool
  | .literal c :: rest => c = '.' || (c != '/' && endsInExtension rest)
  | _ => false

/-- What of a path a pattern is compared with. -/
def lookup (tokens : List Token) : Lookup :=
  if asksName tokens then .name
  else if asksExtension tokens then .extension
  else if asksStart tokens || asksEnd tokens then .text
  else if endsInExtension tokens.reverse then .extensionFirst
  else if tellsName tokens then .nameExpression
  else .expression

/-- Whether a pattern cannot match a path without a last name. -/
def Lookup.needsName : Lookup → Bool
  | .name | .extension | .extensionFirst => true
  | .text | .nameExpression | .expression => false

/-- **Whether a pattern matches a path.** -/
def isMatch (tokens : List Token) (path : String) : Bool :=
  ((lastName? path).isSome || !(lookup tokens).needsName) && fits tokens path

/-! ## Patterns together -/

/-- Why patterns cannot be used together. -/
inductive SetFault where
  /-- The expression of a pattern that asks for an extension first nests too deep. -/
  | extensionFirst (e : String)
  /-- The expression at a place among those that the path is compared with nests too deep. -/
  | expression (place : Nat)
deriving DecidableEq

/-- The wording of a fault. -/
def SetFault.message : SetFault → String
  | .extensionFirst e => "error parsing glob '" ++ e ++ "': error parsing pattern 0"
  | .expression place => "error parsing pattern " ++ toString place

/-- The patterns that are compared in one way, in order. -/
def comparedAs (l : Lookup) (patterns : List (List Token)) : List (List Token) :=
  patterns.filter fun p => lookup p = l

/-- Checks that no expression nests too deep; those that ask for an extension come first. -/
def check (patterns : List (List Token)) : Except SetFault Unit :=
  match (comparedAs .extensionFirst patterns).find? isTooDeep with
  | some p => .error (.extensionFirst (expression p))
  | none =>
    match (comparedAs .expression patterns).findIdx? isTooDeep with
    | some i => .error (.expression i)
    | none => .ok ()

end CompileCache.Glob
