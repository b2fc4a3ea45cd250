import CompileCache.Glob.Basic
import CompileCache.Text.Pieces

/-!
# Parser — reading glob patterns

* `Glob.Fault`, `Glob.Fault.message`: what can be wrong with a pattern.
* `readClass`: a class in brackets. The first character behind the brackets and the negation stands
  for itself, and so does a dash at either end.
* `Frame`, `Scan`: the open choices around the place that is read, and the tokens read so far.
* `Scan.star`: the meaning of stars, which depends on what stands around them.
* **`Glob.parse`**: the tokens of a pattern, or its first fault.
-/

namespace CompileCache.Glob

/-- What can be wrong with a pattern. -/
inductive Fault where
  | unclosedClass
  | invalidRange (lo hi : Char)
  | unopenedChoice
  | unclosedChoice
  | danglingEscape
deriving DecidableEq

/-- The wording of a fault. -/
def Fault.message : Fault → String
  | .unclosedClass => "unclosed character class; missing ']'"
  | .invalidRange lo hi => "invalid range; '" ++ lo.toString ++ "' > '" ++ hi.toString ++ "'"
  | .unopenedChoice =>
    "unopened alternate group; missing '\x7b' (maybe escape '\x7d' with '[\x7d]'?)"
  | .unclosedChoice =>
    "unclosed alternate group; missing '\x7d' (maybe escape '\x7b' with '[\x7b]'?)"
  | .danglingEscape => "dangling '\\'"

/-! ## Classes -/

/-- The ranges that characters of a class make, put behind ranges that were read before in reversed
order. After a dash the next character is the new end of the last range. -/
def classRanges (done : List (Char × Char)) (dash : Bool) :
    List Char → Except Fault (List (Char × Char))
  | [] => .ok (if dash then ('-', '-') :: done else done).reverse
  | c :: cs =>
    match done, dash with
    | [], _ => classRanges [(c, c)] false cs
    | r :: rs, true =>
      if c < r.1 then .error (.invalidRange r.1 c) else classRanges ((r.1, c) :: rs) false cs
    | r :: rs, false =>
      if c = '-' then classRanges (r :: rs) true cs else classRanges ((c, c) :: r :: rs) false cs

/-- A class behind its opening bracket and its negation, and the rest of the pattern. Wrong ranges
are reported even if the class is not closed. -/
def readRanges (negated : Bool) (cs : List Char) : Except Fault (Token × List Char) :=
  match cs with
  | [] => .error .unclosedClass
  | c :: rest =>
    match Text.cut? ']' rest with
    | some (body, rest) =>
      (classRanges [] false (c :: body)).map fun rs => (.charClass negated rs, rest)
    | none => (classRanges [] false (c :: rest)).bind fun _ => .error .unclosedClass

/-- A class behind its opening bracket, and the rest of the pattern. -/
def readClass (cs : List Char) : Except Fault (Token × List Char) :=
  match cs with
  | [] => .error .unclosedClass
  | c :: rest => if c = '!' ∨ c = '^' then readRanges true rest else readRanges false (c :: rest)

theorem length_lt_of_readRanges {negated : Bool} {cs rest : List Char} {t : Token}
    (h : readRanges negated cs = .ok (t, rest)) : rest.length < cs.length := by
  cases cs with
  | nil => simp [readRanges] at h
  | cons c l =>
    cases hc : Text.cut? ']' l with
    | none =>
      simp only [readRanges, hc] at h
      cases hr : classRanges [] false (c :: l) <;> simp [hr, Except.bind] at h
    | some r =>
      obtain ⟨body, l'⟩ := r
      have hl := (Text.eq_of_cut? hc).1
      simp only [readRanges, hc] at h
      cases hr : classRanges [] false (c :: body) with
      | error f => simp [hr, Except.map] at h
      | ok rs =>
        simp only [hr, Except.map, Except.ok.injEq, Prod.mk.injEq] at h
        obtain ⟨-, rfl⟩ := h
        simp [hl]
        omega

theorem length_lt_of_readClass {cs rest : List Char} {t : Token}
    (h : readClass cs = .ok (t, rest)) : rest.length < cs.length := by
  cases cs with
  | nil => simp [readClass] at h
  | cons c l =>
    rw [readClass] at h
    split at h
    · exact Nat.lt_succ_of_lt (length_lt_of_readRanges h)
    · exact length_lt_of_readRanges h

/-! ## Patterns -/

/-- A choice that is not closed yet: the tokens ahead of it and its finished branches, both in
reversed order. -/
structure Frame where
  ahead : List Token
  branches : List (List Token)

/-- The tokens read so far in the branch at hand, in reversed order, and the choices around it. -/
structure Scan where
  tokens : List Token
  frames : List Frame

namespace Scan

/-- The start of a pattern. -/
def start : Scan := ⟨[], []⟩

/-- One more token. -/
def push (s : Scan) (t : Token) : Scan := { s with tokens := t :: s.tokens }

/-- The tokens of the branch at hand with the last one turned into a wildcard for directories,
unless it is such a wildcard already. -/
def widen (s : Scan) (t : Token) : Scan :=
  match s.tokens with
  | .treeStart :: _ | .treeEnd :: _ => s
  | _ :: rest => { s with tokens := t :: rest }
  | [] => s.push t

/-- A star behind `prev?`, and the rest of the pattern. Two stars that fill a whole component of the
path stand for any number of components. -/
def star (s : Scan) (prev? : Option Char) (cs : List Char) : Scan × List Char :=
  match cs with
  | '*' :: rest =>
    let plain := ((s.push .star).push .star, rest)
    let nested := !s.frames.isEmpty
    if s.tokens.isEmpty then
      match rest with
      | [] => (s.push .treeStart, [])
      | '/' :: rest => (s.push .treeStart, rest)
      | _ => plain
    else if prev? ≠ some '/' ∧ (!nested ∨ (prev? ≠ some ',' ∧ prev? ≠ some '\x7b')) then plain
    else
      match rest with
      | [] => (s.widen .treeEnd, [])
      | '/' :: rest => (s.widen .treeMiddle, rest)
      | c :: _ => if nested ∧ (c = ',' ∨ c = '\x7d') then (s.widen .treeEnd, rest) else plain
  | _ => (s.push .star, cs)

theorem length_star (s : Scan) (prev? : Option Char) (cs : List Char) :
    (s.star prev? cs).2.length ≤ cs.length := by
  unfold star
  split
  · dsimp only
    split
    · split <;> simp
      omega
    · split
      · simp
      · split <;> simp
        · omega
        · split <;> simp
  · simp

/-- The scan with a choice opened. -/
def openChoice (s : Scan) : Scan := ⟨[], ⟨s.tokens, []⟩ :: s.frames⟩

/-- The scan at a new branch; outside every choice a comma stands for itself. -/
def comma (s : Scan) : Scan :=
  match s.frames with
  | [] => s.push (.literal ',')
  | f :: fs => ⟨[], { f with branches := s.tokens.reverse :: f.branches } :: fs⟩

/-- The scan with the innermost choice closed. -/
def closeChoice (s : Scan) : Except Fault Scan :=
  match s.frames with
  | [] => .error .unopenedChoice
  | f :: fs => .ok ⟨.choice (s.tokens.reverse :: f.branches).reverse :: f.ahead, fs⟩

end Scan

/-- Reads a pattern from a place on, `prev?` being the character ahead of it. -/
def parseFrom (s : Scan) (prev? : Option Char) (cs : List Char) : Except Fault (List Token) :=
  match cs with
  | [] => if s.frames.isEmpty then .ok s.tokens.reverse else .error .unclosedChoice
  | c :: rest =>
    if c = '?' then parseFrom (s.push .anyByte) (some c) rest
    else if c = '*' then
      have := s.length_star prev? rest
      let r := s.star prev? rest
      parseFrom r.1 (lastOf rest r.2 c) r.2
    else if c = '[' then
      match h : readClass rest with
      | .error f => .error f
      | .ok (t, rest') =>
        have := length_lt_of_readClass h
        parseFrom (s.push t) (some ']') rest'
    else if c = '\x7b' then parseFrom s.openChoice (some c) rest
    else if c = '\x7d' then
      match s.closeChoice with
      | .error f => .error f
      | .ok s => parseFrom s (some c) rest
    else if c = ',' then parseFrom s.comma (some c) rest
    else if c = '\\' then
      match rest with
      | [] => .error .danglingEscape
      | d :: rest => parseFrom (s.push (.literal d)) (some d) rest
    else parseFrom (s.push (.literal c)) (some c) rest
termination_by cs.length
decreasing_by all_goals simp_all <;> omega
where
  /-- The character ahead of `left`, which is the end of `c :: rest`. -/
  lastOf (rest left : List Char) (c : Char) : Option Char :=
    (c :: rest)[rest.length - left.length]?

/-- **The tokens of a pattern, or its first fault.** -/
def parse (pattern : String) : Except Fault (List Token) :=
  parseFrom .start none pattern.toList

end CompileCache.Glob
