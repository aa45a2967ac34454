import Elua.Lua.PatternCode
import Mathlib.Data.List.Basic

/-!
# What patterns mean

`parse` reads a pattern as a list of items, and `ways` is the list of all ways to match them from a
position, in the order in which the matcher is to prefer them: more repetitions come first, and after
`-` fewer. `Takes` says without an order what an item can match (`mem_ways_iff`).

`wellCaptured` follows how many captures there are, and which of them are unfinished, through a
pattern. This does not depend on the subject.
-/

set_option autoImplicit false
set_option relaxedAutoImplicit false

namespace Elua.Lua.Patterns

/-! ### Syntax -/

/-- How often. -/
inductive Repetition
  | once | optional | star | plus | minus
  deriving DecidableEq

/-- An item of a pattern. A class, a set or a character is the test that it stands for. -/
inductive Item
  | single (test : UInt8 → Bool) (repetition : Repetition)
  | balance (b e : UInt8)
  | frontier (test : UInt8 → Bool)
  | back (l : UInt8)
  | opening
  | position
  | closing
  | atEnd

variable (pat : List UInt8)

/-- How often an item that ends here may be repeated, and what follows. -/
def parseRepetition (ep : ℕ) : Repetition × ℕ :=
  if byteAt pat ep = 63 then (.optional, ep + 1)
  else if byteAt pat ep = 42 then (.star, ep + 1)
  else if byteAt pat ep = 43 then (.plus, ep + 1)
  else if byteAt pat ep = 45 then (.minus, ep + 1)
  else (.once, ep)

/-- A single character with its repetition, and what follows it. -/
def parseDefault (p : ℕ) : Option (Item × ℕ) :=
  (classend pat p).map fun ep ↦
    (.single (fun c ↦ singlematch pat c p ep) (parseRepetition pat ep).1, (parseRepetition pat ep).2)

/-- An item that starts with an escape. -/
def parseEscape (p : ℕ) : Option (Item × ℕ) :=
  if byteAt pat (p + 1) = 98 then
    if byteAt pat (p + 2) = 0 ∨ byteAt pat (p + 3) = 0 then none
    else some (.balance (byteAt pat (p + 2)) (byteAt pat (p + 3)), p + 4)
  else if byteAt pat (p + 1) = 102 then
    if byteAt pat (p + 2) ≠ 91 then none
    else (classend pat (p + 2)).map fun ep ↦
      (.frontier fun c ↦ matchbracketclass pat c (p + 2) (ep - 1), ep)
  else if isdigit (byteAt pat (p + 1)) then some (.back (byteAt pat (p + 1)), p + 2)
  else parseDefault pat p

/-- An item, and what follows it. -/
def parseItem (p : ℕ) : Option (Item × ℕ) :=
  if byteAt pat p = 40 then
    if byteAt pat (p + 1) = 41 then some (.position, p + 2) else some (.opening, p + 1)
  else if byteAt pat p = 41 then some (.closing, p + 1)
  else if byteAt pat p = lEsc then parseEscape pat p
  else if byteAt pat p = 36 ∧ byteAt pat (p + 1) = 0 then some (.atEnd, p + 1)
  else parseDefault pat p

/-- The items from a place on, with a bound on their number. -/
def parseItems : ℕ → ℕ → Option (List Item)
  | 0, _ => none
  | bound + 1, p =>
    if byteAt pat p = 0 then some []
    else (parseItem pat p).bind fun item ↦ (parseItems bound item.2).map (item.1 :: ·)

/-- The items of a pattern. -/
def parse : Option (List Item) := parseItems pat (pat.length + 1) 0

/-! ### Captures -/

/-- The last unfinished capture below a level. -/
def lastUnfinished (unfinished : List Bool) : ℕ → Option ℕ
  | 0 => none
  | level + 1 => if unfinished.getD level false then some level else lastUnfinished unfinished level

/-- Which captures are unfinished after an item. -/
def Item.unfinished (captures : List Bool) : Item → Option (List Bool)
  | .opening => if captures.length < luaMaxcaptures then some (captures ++ [true]) else none
  | .position => if captures.length < luaMaxcaptures then some (captures ++ [false]) else none
  | .closing => (lastUnfinished captures captures.length).map fun l ↦ captures.set l false
  | .back l =>
    if 49 ≤ l ∧ l.toNat - 49 < captures.length ∧ captures.getD (l.toNat - 49) false = false then
      some captures
    else none
  | _ => some captures

/-- Captures are used as they can be. -/
def wellCaptured : List Item → List Bool → Bool
  | [], _ => true
  | item :: items, captures =>
    match item.unfinished captures with
    | none => false
    | some captures => wellCaptured items captures

/-- A pattern that the matcher accepts whatever the subject is. -/
def Accepted (pat : List UInt8) (items : List Item) : Prop :=
  parse pat = some items ∧ wellCaptured items [] = true

/-! ### Ways to match -/

variable (src : List UInt8)

/-- How many characters from a position on pass a test. -/
def run (test : UInt8 → Bool) (s : ℕ) : ℕ := ((src.drop s).takeWhile test).length

/-- The numbers of repetitions, in the order of preference, when there are so many at most. -/
def Repetition.counts (most : ℕ) : Repetition → List ℕ
  | .once => if 1 ≤ most then [1] else []
  | .optional => if 1 ≤ most then [1, 0] else [0]
  | .star => (List.range (most + 1)).reverse
  | .plus => (List.range most).reverse.map (· + 1)
  | .minus => List.range (most + 1)

/-- The ways to match an item. -/
def Item.ways (captures : List Capture) (s : ℕ) : Item → List (List Capture × ℕ)
  | .single test repetition => (repetition.counts (run src test s)).map fun k ↦ (captures, s + k)
  | .balance b e => (matchbalance src s b e).toList.map fun s' ↦ (captures, s')
  | .frontier test =>
    if test (if s = 0 then 0 else byteAt src (s - 1)) = false ∧ test (byteAt src s) = true then
      [(captures, s)]
    else []
  | .back l => (matchCapture src captures s (l.toNat - 49)).toList.map fun s' ↦ (captures, s')
  | .opening => [(captures ++ [⟨s, capUnfinished⟩], s)]
  | .position => [(captures ++ [⟨s, capPosition⟩], s)]
  | .closing => (captureToClose captures captures.length).toList.map fun l ↦
      (setLen captures l (s - (captures.getD l ⟨0, 0⟩).init), s)
  | .atEnd => if s = src.length then [(captures, s)] else []

/-- The ways to match the items of a pattern. -/
def ways : List Item → List Capture → ℕ → List (List Capture × ℕ)
  | [], captures, s => [(captures, s)]
  | item :: items, captures, s =>
    (item.ways src captures s).flatMap fun way ↦ ways items way.1 way.2

/-! ### What is matched -/

/-- So many repetitions are asked for. -/
def Repetition.Allows (k : ℕ) : Repetition → Prop
  | .once => k = 1
  | .optional => k ≤ 1
  | .star => True
  | .plus => 1 ≤ k
  | .minus => True

/-- So many characters from a position on pass a test. -/
def Repeats (test : UInt8 → Bool) (s k : ℕ) : Prop :=
  s + k ≤ src.length ∧ ∀ i < k, test (byteAt src (s + i)) = true

/-- The text between two positions. -/
def text (s e : ℕ) : List UInt8 := (src.drop s).take (e - s)

/-- There is one closing character more than there are opening ones. -/
def Closes (b e : UInt8) (inner : List UInt8) : Prop :=
  inner.count e = inner.countP (fun c ↦ c = b ∧ c ≠ e) + 1

/-- A balanced text, which is as short as can be. -/
def Balanced (b e : UInt8) (s s' : ℕ) : Prop :=
  byteAt src s = b ∧ s + 1 < s' ∧ s' ≤ src.length ∧ Closes b e (text src (s + 1) s') ∧
    ∀ s'', s'' < s' → ¬ Closes b e (text src (s + 1) s'')

/-- What an item can match. -/
def Item.Takes (captures : List Capture) (s : ℕ) (captures' : List Capture) (s' : ℕ) : Item → Prop
  | .single test repetition =>
    captures' = captures ∧ ∃ k, s' = s + k ∧ repetition.Allows k ∧ Repeats src test s k
  | .balance b e => captures' = captures ∧ Balanced src b e s s'
  | .frontier test => captures' = captures ∧ s' = s ∧
      test (if s = 0 then 0 else byteAt src (s - 1)) = false ∧ test (byteAt src s) = true
  | .back l => captures' = captures ∧ ∃ capture, captures[l.toNat - 49]? = some capture ∧
      0 ≤ capture.len ∧ s' = s + capture.len ∧ s' ≤ src.length ∧
        text src s s' = text src capture.init (capture.init + capture.len.toNat)
  | .opening => captures' = captures ++ [⟨s, capUnfinished⟩] ∧ s' = s
  | .position => captures' = captures ++ [⟨s, capPosition⟩] ∧ s' = s
  | .closing => s' = s ∧ ∃ before capture after, captures = before ++ capture :: after ∧
      capture.len = capUnfinished ∧ (∀ later ∈ after, later.len ≠ capUnfinished) ∧
        captures' = before ++ ⟨capture.init, s - capture.init⟩ :: after
  | .atEnd => captures' = captures ∧ s' = s ∧ s = src.length

/-- What the items of a pattern can match. -/
def Matches : List Item → List Capture → ℕ → List Capture → ℕ → Prop
  | [], captures, s, captures', s' => captures' = captures ∧ s' = s
  | item :: items, captures, s, captures', s' => ∃ captures'' s'',
      item.Takes src captures s captures'' s'' ∧ Matches items captures'' s'' captures' s'

end Elua.Lua.Patterns
