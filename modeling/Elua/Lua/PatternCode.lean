import Elua.Lua.Outcomes

/-!
# The pattern matcher

`match` of `lstrlib.c` tries the items of a pattern one after the other, and goes back to earlier
ones when it fails. The subject and the pattern are memory that ends with a zero, so that reading
behind the end gives zero. A pattern is not translated before it is used: the matcher finds the end
of an item when it comes to it, and reads a set again for every character.

The captures are those below `level`. A call returns the end of the match, or no end, or it throws,
and leaves the captures behind.
-/

set_option autoImplicit false
set_option relaxedAutoImplicit false

namespace Elua.Lua.Patterns

open Tables

/-! ### Characters -/

/-- `isupper`. -/
def isupper (c : UInt8) : Bool := 65 ≤ c && c ≤ 90

/-- `islower`. -/
def islower (c : UInt8) : Bool := 97 ≤ c && c ≤ 122

/-- `isalpha`. -/
def isalpha (c : UInt8) : Bool := isupper c || islower c

/-- `isdigit`. -/
def isdigit (c : UInt8) : Bool := 48 ≤ c && c ≤ 57

/-- `isalnum`. -/
def isalnum (c : UInt8) : Bool := isalpha c || isdigit c

/-- `iscntrl`. -/
def iscntrl (c : UInt8) : Bool := c < 32 || c == 127

/-- `isspace`. -/
def isspace (c : UInt8) : Bool := c == 32 || 9 ≤ c && c ≤ 13

/-- `ispunct`. -/
def ispunct (c : UInt8) : Bool := 33 ≤ c && c ≤ 126 && !isalnum c

/-- `isxdigit`. -/
def isxdigit (c : UInt8) : Bool := isdigit c || 65 ≤ c && c ≤ 70 || 97 ≤ c && c ≤ 102

/-- `tolower`. -/
def tolower (c : UInt8) : UInt8 := if isupper c then c + 32 else c

/-- `match_class`. -/
def matchClass (c cl : UInt8) : Bool :=
  let negated (res : Bool) : Bool := if islower cl then res else !res
  match (tolower cl).toNat with
  | 97 => negated (isalpha c)
  | 99 => negated (iscntrl c)
  | 100 => negated (isdigit c)
  | 108 => negated (islower c)
  | 112 => negated (ispunct c)
  | 115 => negated (isspace c)
  | 117 => negated (isupper c)
  | 119 => negated (isalnum c)
  | 120 => negated (isxdigit c)
  | 122 => negated (c == 0)
  | _ => cl == c

/-! ### Captures -/

/-- The start of a capture and its length. -/
structure Capture where
  init : ℕ
  len : ℤ
  deriving DecidableEq

/-- `CAP_UNFINISHED`. -/
def capUnfinished : ℤ := -1

/-- `CAP_POSITION`. -/
def capPosition : ℤ := -2

/-- `LUA_MAXCAPTURES`. -/
def luaMaxcaptures : ℕ := 10

/-- `L_ESC`. -/
def lEsc : UInt8 := 37

/-- A string or a pattern in memory. -/
def byteAt (memory : List UInt8) (i : ℕ) : UInt8 := memory.getD i 0

/-- `capture_to_close`, the last unfinished capture below a level. -/
def captureToClose (captures : List Capture) : ℕ → Option ℕ
  | 0 => none
  | level + 1 =>
    if (captures.getD level ⟨0, 0⟩).len = capUnfinished then some level
    else captureToClose captures level

/-- `check_capture`. -/
def checkCapture (captures : List Capture) (l : UInt8) : Option ℕ :=
  if 49 ≤ l ∧ l.toNat - 49 < captures.length ∧
      (captures.getD (l.toNat - 49) ⟨0, 0⟩).len ≠ capUnfinished then some (l.toNat - 49)
  else none

/-! ### Items of a pattern -/

/-- The loop of `classend` in a set. -/
def setEnd (pat : List UInt8) : ℕ → ℕ → Option ℕ
  | 0, _ => none
  | fuel + 1, p =>
    if byteAt pat p = 0 then none
    else
      let p := if byteAt pat p = lEsc ∧ byteAt pat (p + 1) ≠ 0 then p + 2 else p + 1
      if byteAt pat p = 93 then some (p + 1) else setEnd pat fuel p

/-- `classend`. -/
def classend (pat : List UInt8) (p : ℕ) : Option ℕ :=
  if byteAt pat p = lEsc then if byteAt pat (p + 1) = 0 then none else some (p + 2)
  else if byteAt pat p = 91 then
    setEnd pat pat.length (if byteAt pat (p + 1) = 94 then p + 2 else p + 1)
  else some (p + 1)

/-- The loop of `matchbracketclass`. -/
def inSet (pat : List UInt8) (c : UInt8) (ec : ℕ) : ℕ → ℕ → Bool
  | 0, _ => false
  | fuel + 1, p =>
    if ec ≤ p then false
    else if byteAt pat p = lEsc then
      matchClass c (byteAt pat (p + 1)) || inSet pat c ec fuel (p + 2)
    else if byteAt pat (p + 1) = 45 ∧ p + 2 < ec then
      (byteAt pat p ≤ c && c ≤ byteAt pat (p + 2)) || inSet pat c ec fuel (p + 3)
    else byteAt pat p == c || inSet pat c ec fuel (p + 1)

/-- `matchbracketclass`. -/
def matchbracketclass (pat : List UInt8) (c : UInt8) (p ec : ℕ) : Bool :=
  if byteAt pat (p + 1) = 94 then !inSet pat c ec ec (p + 2) else inSet pat c ec ec (p + 1)

/-- `singlematch`. -/
def singlematch (pat : List UInt8) (c : UInt8) (p ep : ℕ) : Bool :=
  if byteAt pat p = 46 then true
  else if byteAt pat p = lEsc then matchClass c (byteAt pat (p + 1))
  else if byteAt pat p = 91 then matchbracketclass pat c p (ep - 1)
  else byteAt pat p == c

/-- The loop of `matchbalance`, with the number of characters that are left and the count. -/
def balanceLoop (src : List UInt8) (b e : UInt8) : ℕ → ℕ → ℕ → Option ℕ
  | 0, _, _ => none
  | left + 1, s, cont =>
    if byteAt src s = e then
      if cont = 1 then some (s + 1) else balanceLoop src b e left (s + 1) (cont - 1)
    else if byteAt src s = b then balanceLoop src b e left (s + 1) (cont + 1)
    else balanceLoop src b e left (s + 1) cont

/-- `matchbalance`, when the pattern has both characters. -/
def matchbalance (src : List UInt8) (s : ℕ) (b e : UInt8) : Option ℕ :=
  if byteAt src s ≠ b then none else balanceLoop src b e (src.length - (s + 1)) (s + 1) 1

/-- `match_capture`, when the capture can be used. The length of a position is greater than all
strings. -/
def matchCapture (src : List UInt8) (captures : List Capture) (s l : ℕ) : Option ℕ :=
  let capture := captures.getD l ⟨0, 0⟩
  if 0 ≤ capture.len ∧ capture.len ≤ (src.length - s : ℕ) ∧
      (src.drop capture.init).take capture.len.toNat = (src.drop s).take capture.len.toNat then
    some (s + capture.len.toNat)
  else none

/-! ### Repetitions -/

/-- What a call of `match` comes to. -/
abbrev Matching := Outcome (List Capture) (Option ℕ)

/-- A second call, if the first one has not matched. -/
def orElse (first : Matching) (second : List Capture → Matching) : Matching :=
  first.andThen fun captures res ↦
    match res with
    | some e => .returns captures (some e)
    | none => second captures

/-- The loop of `max_expand` that counts. -/
def countSingle (src pat : List UInt8) (p ep : ℕ) : ℕ → ℕ → ℕ
  | 0, _ => 0
  | left + 1, s =>
    if singlematch pat (byteAt src s) p ep then countSingle src pat p ep left (s + 1) + 1 else 0

/-- The loop of `max_expand` that tries, with the function for the rest of the pattern. -/
def expandDown (rest : List Capture → ℕ → Matching) (s : ℕ) : ℕ → List Capture → Matching
  | 0, captures => rest captures s
  | i + 1, captures => orElse (rest captures (s + (i + 1))) (expandDown rest s i)

/-- `max_expand`. -/
def maxExpand (src pat : List UInt8) (rest : List Capture → ℕ → Matching) (captures : List Capture)
    (s p ep : ℕ) : Matching :=
  expandDown rest s (countSingle src pat p ep (src.length - s) s) captures

/-- `min_expand`, with the number of characters that are left. -/
def minExpand (src pat : List UInt8) (rest : List Capture → ℕ → Matching) (p ep : ℕ) :
    ℕ → List Capture → ℕ → Matching
  | 0, captures, s => rest captures s
  | left + 1, captures, s =>
    orElse (rest captures s) fun captures ↦
      if singlematch pat (byteAt src s) p ep then
        minExpand src pat rest p ep left captures (s + 1)
      else .returns captures none

/-! ### The matcher -/

/-- `start_capture`. -/
def startCapture (rest : List Capture → ℕ → Matching) (captures : List Capture) (s : ℕ) (what : ℤ) :
    Matching :=
  if luaMaxcaptures ≤ captures.length then .throws captures
  else
    orElse (rest (captures ++ [⟨s, what⟩]) s) fun captures ↦ .returns captures.dropLast none

/-- The length of a capture is stored. -/
def setLen (captures : List Capture) (l : ℕ) (len : ℤ) : List Capture :=
  captures.modify l fun capture ↦ { capture with len := len }

/-- `end_capture`. -/
def endCapture (rest : List Capture → ℕ → Matching) (captures : List Capture) (s : ℕ) : Matching :=
  match captureToClose captures captures.length with
  | none => .throws captures
  | some l =>
    orElse (rest (setLen captures l (s - (captures.getD l ⟨0, 0⟩).init)) s) fun captures ↦
      .returns (setLen captures l capUnfinished) none

/-- The part of `match` for a single character and what may follow it. -/
def matchDefault (src pat : List UInt8) (rest : ℕ → List Capture → ℕ → Matching)
    (captures : List Capture) (s p : ℕ) : Matching :=
  match classend pat p with
  | none => .throws captures
  | some ep =>
    let m := decide (s < src.length) && singlematch pat (byteAt src s) p ep
    if byteAt pat ep = 63 then
      if m then orElse (rest (ep + 1) captures (s + 1)) fun captures ↦ rest (ep + 1) captures s
      else rest (ep + 1) captures s
    else if byteAt pat ep = 42 then maxExpand src pat (rest (ep + 1)) captures s p ep
    else if byteAt pat ep = 43 then
      if m then maxExpand src pat (rest (ep + 1)) captures (s + 1) p ep else .returns captures none
    else if byteAt pat ep = 45 then
      minExpand src pat (rest (ep + 1)) p ep (src.length - s) captures s
    else if m then rest ep captures (s + 1)
    else .returns captures none

/-- The part of `match` for a frontier, whose set starts at `p`. -/
def matchFrontier (src pat : List UInt8) (rest : ℕ → List Capture → ℕ → Matching)
    (captures : List Capture) (s p : ℕ) : Matching :=
  if byteAt pat p ≠ 91 then .throws captures
  else
    match classend pat p with
    | none => .throws captures
    | some ep =>
      let previous := if s = 0 then 0 else byteAt src (s - 1)
      if matchbracketclass pat previous p (ep - 1) ||
          !matchbracketclass pat (byteAt src s) p (ep - 1) then .returns captures none
      else rest ep captures s

/-- The part of `match` for an escape. -/
def matchEscape (src pat : List UInt8) (rest : ℕ → List Capture → ℕ → Matching)
    (captures : List Capture) (s p : ℕ) : Matching :=
  if byteAt pat (p + 1) = 98 then
    if byteAt pat (p + 2) = 0 ∨ byteAt pat (p + 3) = 0 then .throws captures
    else
      match matchbalance src s (byteAt pat (p + 2)) (byteAt pat (p + 3)) with
      | none => .returns captures none
      | some s => rest (p + 4) captures s
  else if byteAt pat (p + 1) = 102 then matchFrontier src pat rest captures s (p + 2)
  else if isdigit (byteAt pat (p + 1)) then
    match checkCapture captures (byteAt pat (p + 1)) with
    | none => .throws captures
    | some l =>
      match matchCapture src captures s l with
      | none => .returns captures none
      | some s => rest (p + 2) captures s
  else matchDefault src pat rest captures s p

/-- `match`. -/
def matchAt (src pat : List UInt8) : ℕ → ℕ → List Capture → ℕ → Matching
  | 0, _, _, _ => .stuck
  | fuel + 1, p, captures, s =>
    let rest := matchAt src pat fuel
    if byteAt pat p = 40 then
      if byteAt pat (p + 1) = 41 then startCapture (rest (p + 2)) captures s capPosition
      else startCapture (rest (p + 1)) captures s capUnfinished
    else if byteAt pat p = 41 then endCapture (rest (p + 1)) captures s
    else if byteAt pat p = lEsc then matchEscape src pat rest captures s p
    else if byteAt pat p = 0 then .returns captures (some s)
    else if byteAt pat p = 36 ∧ byteAt pat (p + 1) = 0 then
      .returns captures (if s = src.length then some s else none)
    else matchDefault src pat rest captures s p

end Elua.Lua.Patterns
