import Elua.Console.LineInput

/-!
# Keys typed on the terminal

`term_in` gives the next character that the UART has received, and `term_translate` makes a key of
it, for which it may receive more characters. Of a CR and a LF behind it only the first is an Enter:
`term_translate` sets `skip_0A` for a CR, and the next `term_in` skips a LF.

What the UART answers is a list of receptions: a character, or nothing within the time of the call.
A call that waits goes on to the next character. `keysMeant` is the meaning of the receptions, in
which a LF behind a CR is no key whatever was asked for in between, and an ESC is a key of its own
unless what is received right behind it is the rest of the code of a key.

`term_in` clears the flag also when it finds no character, and `term_translate` takes up to three
characters behind an ESC whatever they are. So the keys are the meant ones exactly if no call comes
back without a character between a CR and its LF, and nothing but the rest of a code is received in
time behind an ESC (`keys_meant_iff`). -/

set_option autoImplicit false
set_option relaxedAutoImplicit false

namespace Elua.Console

/-! ### The code -/

/-- The keys of `term.h`, and the printable characters. -/
inductive Key
  | printable (data : UInt8)
  | up
  | down
  | left
  | right
  | home
  | «end»
  | pageup
  | pagedown
  | enter
  | tab
  | backspace
  | esc
  | ctrlZ
  | ctrlA
  | ctrlE
  | ctrlC
  | ctrlT
  | ctrlU
  | ctrlK
  | unknown
  deriving DecidableEq

/-- `TERM_INPUT_DONT_WAIT` and `TERM_INPUT_WAIT`. -/
inductive InputMode
  | dontWait
  | wait
  deriving DecidableEq

/-- `platform_uart_recv` with a finite timeout. There is no result behind the last answer. -/
def uartRecv : Answers → Option (Option UInt8 × Answers)
  | [] => none
  | answer :: uart => some (answer, uart)

/-- `platform_uart_recv` with `PLATFORM_TIMER_INF_TIMEOUT`. -/
def uartRecvInf : Answers → Option (Option UInt8 × Answers)
  | [] => none
  | none :: uart => uartRecvInf uart
  | some data :: uart => some (some data, uart)

/-- The reception of `term_in`. -/
def termRecv (mode : InputMode) (uart : Answers) : Option (Option UInt8 × Answers) :=
  if mode = .dontWait then uartRecv uart else uartRecvInf uart

/-- `term_in`, for the value of `skip_0A`: what it returns, the new value of `skip_0A` and what the
UART answers next. The flag is clear in a second pass of the loop, which therefore is the last. -/
def termIn (mode : InputMode) (skip0A : Bool) (uart : Answers) :
    Option (Option UInt8 × Bool × Answers) :=
  (termRecv mode uart).bind fun (c, uart) ↦
    if skip0A = true ∧ c = some 0x0A then
      (termRecv mode uart).map fun (c, uart) ↦ (c, false, uart)
    else some (c, false, uart)

/-- The key of the last character of a sequence that begins with ESC and two more. -/
def extendedKey (c : UInt8) : Key :=
  if c = 49 then .home
  else if c = 52 then .end
  else if c = 53 then .pageup
  else if c = 54 then .pagedown
  else .unknown

/-- The key of the third character of a sequence that begins with ESC. -/
def cursorKey (c : UInt8) : Key :=
  if c = 0x41 then .up
  else if c = 0x42 then .down
  else if c = 0x43 then .right
  else .left

/-- The key of a control character that is no line end and does not begin a sequence. -/
def controlKey (data : UInt8) : Key :=
  if data = 0x09 then .tab
  else if data = 0x7F ∨ data = 0x08 then .backspace
  else if data = 26 then .ctrlZ
  else if data = 1 then .ctrlA
  else if data = 5 then .ctrlE
  else if data = 3 then .ctrlC
  else if data = 20 then .ctrlT
  else if data = 21 then .ctrlU
  else if data = 11 then .ctrlK
  else .unknown

/-- `term_translate`: the key, the value of `skip_0A` and what the UART answers next. -/
def termTranslate (data : UInt8) (skip0A : Bool) (uart : Answers) : Option (Key × Bool × Answers) :=
  if isprint data then some (.printable data, skip0A, uart)
  else if data = 0x1B then
    (uartRecv uart).bind fun (second, uart) ↦
      if second = none then some (.esc, skip0A, uart)
      else (uartRecv uart).bind fun (third, uart) ↦
        match third with
        | none => some (.unknown, skip0A, uart)
        | some c =>
          if 0x41 ≤ c ∧ c ≤ 0x44 then some (cursorKey c, skip0A, uart)
          else if 48 < c ∧ c < 55 then
            (uartRecv uart).map fun (fourth, uart) ↦
              (if fourth = some 126 then extendedKey c else .unknown, skip0A, uart)
          else some (.unknown, skip0A, uart)
  else if data = 0x0D then some (.enter, true, uart)
  else if data = 0x0A then some (.enter, skip0A, uart)
  else some (controlKey data, skip0A, uart)

/-- `term_getch`: the key, if a character has come. -/
def termGetch (mode : InputMode) (skip0A : Bool) (uart : Answers) :
    Option (Option Key × Bool × Answers) :=
  (termIn mode skip0A uart).bind fun (ch, skip0A, uart) ↦
    match ch with
    | none => some (none, skip0A, uart)
    | some data => (termTranslate data skip0A uart).map fun (key, skip0A, uart) ↦
      (some key, skip0A, uart)

/-- Calls of `term_getch` after each other: the keys, and what is left behind. -/
def termGetchs : List InputMode → Bool → Answers → Option (List Key × Bool × Answers)
  | [], skip0A, uart => some ([], skip0A, uart)
  | mode :: modes, skip0A, uart =>
    (termGetch mode skip0A uart).bind fun (key, skip0A, uart) ↦
      (termGetchs modes skip0A uart).map fun (keys, skip0A, uart) ↦
        (key.toList ++ keys, skip0A, uart)

/-! ### What the receptions mean -/

/-- The codes of keys that begin with ESC, without it, and the keys. -/
def keyCodes : List (List UInt8 × Key) :=
  [([91, 65], .up), ([91, 66], .down), ([91, 67], .right), ([91, 68], .left),
    ([91, 49, 126], .home), ([91, 50, 126], .unknown), ([91, 51, 126], .unknown),
    ([91, 52, 126], .end), ([91, 53, 126], .pageup), ([91, 54, 126], .pagedown)]

/-- The rest of a code that is received at once behind an ESC, and its key. -/
def keyCode (uart : Answers) : Option (List UInt8 × Key) :=
  keyCodes.find? fun code ↦ (code.1.map some).isPrefixOf uart

/-- The key of a character that does not begin a code. -/
def plainKey (data : UInt8) : Key :=
  if data = 0x0D ∨ data = 0x0A then .enter
  else if isprint data then .printable data
  else controlKey data

/-- The keys that the receptions mean behind `rest` more that belong to a code. A LF behind a CR is
no key, and neither is that nothing is received. -/
def keysBehind : ℕ → Bool → Answers → List Key
  | _, _, [] => []
  | rest + 1, afterCr, _ :: uart => keysBehind rest afterCr uart
  | 0, afterCr, none :: uart => keysBehind 0 afterCr uart
  | 0, afterCr, some data :: uart =>
    if data = 0x0A ∧ afterCr = true then keysBehind 0 false uart
    else if data = 0x1B then
      match keyCode uart with
      | some (code, key) => key :: keysBehind code.length false uart
      | none => .esc :: keysBehind 0 false uart
    else plainKey data :: keysBehind 0 (data = 0x0D) uart

/-- The keys that the receptions mean from a place between two keys on. -/
def keysFrom (afterCr : Bool) (uart : Answers) : List Key := keysBehind 0 afterCr uart

/-- The keys that the receptions mean. -/
def keysMeant (uart : Answers) : List Key := keysFrom false uart

/-- What is received behind an ESC is nothing in time, or the rest of a code. -/
def CodesWhole : ℕ → Answers → Prop
  | _, [] => True
  | rest + 1, _ :: uart => CodesWhole rest uart
  | 0, none :: uart => CodesWhole 0 uart
  | 0, some data :: uart =>
    if data = 0x1B then
      match keyCode uart with
      | some (code, _) => CodesWhole code.length uart
      | none => uart.head? = some none ∧ CodesWhole 0 uart
    else CodesWhole 0 uart

/-- No call comes back without a character between a CR and its LF. -/
def PairsWhole : List InputMode → Bool → Answers → Prop
  | [], _, _ => True
  | mode :: modes, skip0A, uart =>
    ¬(skip0A = true ∧ mode = .dontWait ∧ uart.head? = some none ∧ nextChar uart = some 0x0A) ∧
      ∀ key next left, termGetch mode skip0A uart = some (key, next, left) →
        PairsWhole modes next left

/-! ### The meaning of characters without codes -/

theorem keysFrom_none (afterCr : Bool) (uart : Answers) :
    keysFrom afterCr (none :: uart) = keysFrom afterCr uart := rfl

/-- A character that neither begins a code nor is the second half of a pair gives its key. -/
theorem keysFrom_plain {afterCr : Bool} {data : UInt8} (hesc : data ≠ 0x1B)
    (hpair : afterCr = true → data ≠ 0x0A) (uart : Answers) :
    keysFrom afterCr (some data :: uart) = plainKey data :: keysFrom (data = 0x0D) uart := by
  have hkept : ¬(data = 0x0A ∧ afterCr = true) := fun ⟨hlf, hflag⟩ ↦ hpair hflag hlf
  unfold keysFrom
  rw [keysBehind, if_neg hkept, if_neg hesc]

theorem codesWhole_plain {data : UInt8} (hesc : data ≠ 0x1B) (uart : Answers) :
    CodesWhole 0 (some data :: uart) ↔ CodesWhole 0 uart := by
  rw [CodesWhole, if_neg hesc]

/-- Until the next character comes, it does not matter that it would be no key as a LF. -/
theorem keysFrom_congr {uart : Answers} (hnext : nextChar uart ≠ some 0x0A) :
    keysFrom true uart = keysFrom false uart := by
  induction uart with
  | nil => rfl
  | cons answer uart ih =>
    cases answer with
    | none => exact ih hnext
    | some data =>
      have hdata : data ≠ 0x0A := fun heq ↦ hnext (congrArg some heq)
      simp only [keysFrom, keysBehind, hdata, false_and, if_false]

/-- A LF is one more key if it is not the second half of a pair. -/
theorem keysFrom_lf {uart : Answers} (hnext : nextChar uart = some 0x0A) :
    keysFrom false uart = .enter :: keysFrom true uart := by
  induction uart with
  | nil => cases hnext
  | cons answer uart ih =>
    cases answer with
    | none => exact ih hnext
    | some data =>
      obtain rfl : data = 0x0A := Option.some.inj hnext
      rfl

/-! ### Calls -/

section Calls

variable {mode : InputMode} {skip0A next : Bool} {uart left : Answers}

/-- A reception that does not wait, or that finds a character at once, takes the first answer. -/
theorem termRecv_cons {answer : Option UInt8} (hanswer : mode = .dontWait ∨ answer ≠ none) :
    termRecv mode (answer :: uart) = some (answer, uart) := by
  unfold termRecv
  split_ifs with hmode
  · rfl
  · cases answer with
    | none => exact absurd rfl (hanswer.resolve_left hmode)
    | some data => rfl

/-- A call that waits goes past what is not received. -/
theorem termGetch_wait_none : termGetch .wait skip0A (none :: uart) = termGetch .wait skip0A uart :=
  rfl

/-- A call that does not wait and finds nothing clears the flag. -/
theorem termGetch_poll_none :
    termGetch .dontWait skip0A (none :: uart) = some (none, false, uart) := by
  cases skip0A <;> rfl

/-- Without the flag, the first character that is received is returned. -/
theorem termIn_false :
    termIn mode false uart = (termRecv mode uart).map fun (c, uart) ↦ (c, false, uart) := by
  unfold termIn
  cases termRecv mode uart <;> rfl

/-- A call that skips the second half of a pair is one that was made behind it. -/
theorem termGetch_pair : termGetch mode true (some 0x0A :: uart) = termGetch mode false uart := by
  unfold termGetch
  rw [termIn_false, termIn, termRecv_cons (.inr (by simp))]
  rfl

/-- A character that is not skipped is translated. -/
theorem termGetch_some {data : UInt8} (hpair : skip0A = true → data ≠ 0x0A) :
    termGetch mode skip0A (some data :: uart) =
      (termTranslate data false uart).map fun (key, skip0A, uart) ↦ (some key, skip0A, uart) := by
  unfold termGetch termIn
  rw [termRecv_cons (.inr (by simp)), Option.bind_some]
  have hkept : ¬(skip0A = true ∧ some data = some (0x0A : UInt8)) := fun ⟨hflag, heq⟩ ↦
    hpair hflag (Option.some.inj heq)
  dsimp only
  rw [if_neg hkept, Option.bind_some]

/-- The rest of a code is translated to its key. -/
theorem translate_code {code : List UInt8} {key : Key} (hcode : keyCode uart = some (code, key)) :
    ∃ rest, uart = code.map some ++ rest ∧
      termTranslate 0x1B false uart = some (key, false, rest) := by
  have hprefix := List.find?_some hcode
  obtain ⟨rest, rfl⟩ := List.isPrefixOf_iff_prefix.mp hprefix
  have hmem : (code, key) ∈ keyCodes := List.mem_of_find?_eq_some hcode
  refine ⟨rest, rfl, ?_⟩
  simp only [keyCodes, List.mem_cons, Prod.mk.injEq, List.not_mem_nil, or_false] at hmem
  rcases hmem with h | h | h | h | h | h | h | h | h | h <;> obtain ⟨rfl, rfl⟩ := h <;> rfl

/-- What is received in time behind an ESC is not translated to the key ESC. -/
theorem translate_ne_esc {second : UInt8} {key : Key}
    (htranslate : termTranslate 0x1B false (some second :: uart) = some (key, next, left)) :
    key ≠ .esc := by
  have hcursor : ∀ c, cursorKey c ≠ .esc := fun c ↦ by unfold cursorKey; split_ifs <;> decide
  have hextended : ∀ c, extendedKey c ≠ .esc := fun c ↦ by unfold extendedKey; split_ifs <;> decide
  unfold termTranslate at htranslate
  rw [if_neg (by decide), if_pos rfl] at htranslate
  cases uart with
  | nil => cases htranslate
  | cons third uart =>
    cases third with
    | none =>
      obtain ⟨rfl, -, -⟩ := by simpa [uartRecv] using htranslate
      decide
    | some c =>
      simp only [uartRecv, Option.bind_some, reduceCtorEq, if_false] at htranslate
      split_ifs at htranslate with hfirst hsecond
      · obtain ⟨rfl, -, -⟩ := by simpa using htranslate
        exact hcursor c
      · cases uart with
        | nil => cases htranslate
        | cons fourth uart =>
          obtain ⟨rfl, -, -⟩ := by simpa using htranslate
          split_ifs
          · exact hextended c
          · decide
      · obtain ⟨rfl, -, -⟩ := by simpa using htranslate
        decide

/-- Receptions that belong to a code are no keys of their own. -/
theorem keysBehind_code (code : List UInt8) (afterCr : Bool) (uart : Answers) :
    keysBehind code.length afterCr (code.map some ++ uart) = keysFrom afterCr uart := by
  induction code with
  | nil => rfl
  | cons c code ih => exact ih

theorem codesWhole_code (code : List UInt8) (uart : Answers) :
    CodesWhole code.length (code.map some ++ uart) = CodesWhole 0 uart := by
  induction code with
  | nil => rfl
  | cons c code ih => exact ih

/-- An ESC is translated to what it means, or what is behind it is no code. -/
theorem translate_esc {afterCr : Bool} {key : Key}
    (htranslate : termTranslate 0x1B false uart = some (key, next, left)) :
    (keysFrom afterCr (some 0x1B :: uart) = key :: keysFrom next left ∧
      (CodesWhole 0 (some 0x1B :: uart) ↔ CodesWhole 0 left)) ∨
    (¬ CodesWhole 0 (some 0x1B :: uart) ∧ key ≠ .esc ∧
      ∃ keys, keysFrom afterCr (some 0x1B :: uart) = .esc :: keys) := by
  have hesc : ¬((0x1B : UInt8) = 0x0A ∧ afterCr = true) := fun h ↦ absurd h.1 (by decide)
  unfold keysFrom
  rw [keysBehind, CodesWhole, if_neg hesc, if_pos rfl, if_pos rfl]
  cases hcode : keyCode uart with
  | some found =>
    obtain ⟨code, meant⟩ := found
    obtain ⟨rest, rfl, hkey⟩ := translate_code hcode
    rw [hkey] at htranslate
    obtain ⟨rfl, rfl, rfl⟩ := by simpa using htranslate
    dsimp only
    rw [keysBehind_code, codesWhole_code]
    exact .inl ⟨rfl, Iff.rfl⟩
  | none =>
    cases uart with
    | nil => cases htranslate
    | cons second uart =>
      cases second with
      | none =>
        obtain ⟨rfl, rfl, rfl⟩ := by simpa [termTranslate, isprint, uartRecv] using htranslate
        exact .inl ⟨rfl, and_iff_right rfl⟩
      | some second =>
        have hheard : some second ≠ none := by simp
        exact .inr ⟨fun hwhole ↦ hheard (Option.some.inj hwhole.1), translate_ne_esc htranslate,
          _, rfl⟩

/-- The translation of a character that does not begin a sequence. Only a CR sets the flag. -/
theorem termTranslate_plain {data : UInt8} (hesc : data ≠ 0x1B) (skip0A : Bool) (uart : Answers) :
    termTranslate data skip0A uart =
      some (plainKey data, if data = 0x0D then true else skip0A, uart) := by
  unfold termTranslate plainKey
  by_cases hcr : data = 0x0D
  · subst hcr
    rfl
  by_cases hlf : data = 0x0A
  · subst hlf
    rfl
  rw [if_neg hesc, if_neg hcr, if_neg hcr, if_neg hlf, if_neg (not_or.mpr ⟨hcr, hlf⟩)]
  split_ifs <;> rfl

/-- A call gives the key that its answers mean, or none if they are none, unless it comes back
without a character while the flag is set, or finds no code behind an ESC. -/
theorem getch_cases {key : Option Key}
    (hearly : ¬(skip0A = true ∧ mode = .dontWait ∧ uart.head? = some none))
    (hcall : termGetch mode skip0A uart = some (key, next, left)) :
    (keysFrom skip0A uart = key.toList ++ keysFrom next left ∧
      (CodesWhole 0 uart ↔ CodesWhole 0 left)) ∨
    (¬ CodesWhole 0 uart ∧ ∃ got keys, key = some got ∧ got ≠ .esc ∧
      keysFrom skip0A uart = .esc :: keys) := by
  induction uart generalizing skip0A with
  | nil => cases mode <;> cases hcall
  | cons answer uart ih =>
    cases answer with
    | none =>
      cases mode with
      | wait =>
        rw [termGetch_wait_none] at hcall
        exact ih (by simp) hcall
      | dontWait =>
        have hflag : skip0A = false := by
          cases skip0A with
          | false => rfl
          | true => exact absurd ⟨rfl, rfl, rfl⟩ hearly
        rw [termGetch_poll_none] at hcall
        obtain ⟨rfl, rfl, rfl⟩ := by simpa using hcall
        rw [hflag]
        exact .inl ⟨rfl, Iff.rfl⟩
    | some data =>
      by_cases hpair : skip0A = true ∧ data = 0x0A
      · obtain ⟨rfl, rfl⟩ := hpair
        rw [termGetch_pair] at hcall
        exact ih (by simp) hcall
      · have hpair : skip0A = true → data ≠ 0x0A := fun hflag hlf ↦ hpair ⟨hflag, hlf⟩
        rw [termGetch_some hpair] at hcall
        obtain ⟨⟨found, skip, rest⟩, htranslate, heq⟩ := Option.map_eq_some_iff.mp hcall
        obtain ⟨rfl, rfl, rfl⟩ := by simpa using heq
        by_cases hesc : data = 0x1B
        · subst hesc
          refine (translate_esc htranslate).imp_right ?_
          rintro ⟨hbroken, hne, keys, hkeys⟩
          exact ⟨hbroken, found, keys, rfl, hne, hkeys⟩
        · rw [termTranslate_plain hesc] at htranslate
          obtain ⟨rfl, rfl, rfl⟩ := by simpa using htranslate
          rw [keysFrom_plain hesc hpair]
          exact .inl ⟨by simp, codesWhole_plain hesc _⟩

/-- The line ends that a list of keys begins with. -/
def leadingEnters (keys : List Key) : ℕ := (keys.takeWhile (· = .enter)).length

theorem leadingEnters_append {first second : List Key}
    (hle : leadingEnters first ≤ leadingEnters second) (key : Option Key) :
    leadingEnters (key.toList ++ first) ≤ leadingEnters (key.toList ++ second) := by
  unfold leadingEnters at hle ⊢
  cases key with
  | none => exact hle
  | some key => by_cases henter : key = .enter <;> simp [henter, hle]

/-- A call that does not wait has forgotten a CR, which matters if its LF comes next. -/
theorem keys_polled {rest : List (Option UInt8)} {later : List Key} {whole : Prop}
    (hlead : leadingEnters (keysFrom false rest) ≤ leadingEnters later)
    (hiff : later = keysFrom false rest ↔ whole) :
    leadingEnters (keysFrom true rest) ≤ leadingEnters later ∧
      (later = keysFrom true rest ↔ nextChar rest ≠ some 0x0A ∧ whole) := by
  by_cases hnext : nextChar rest = some 0x0A
  · -- The LF that comes next is one more line end in front than is meant.
    have hmore : leadingEnters (keysFrom true rest) + 1 ≤ leadingEnters later := by
      refine Nat.le_trans (Nat.le_of_eq ?_) hlead
      rw [keysFrom_lf hnext]
      simp [leadingEnters]
    have htoo : later ≠ keysFrom true rest := fun heq ↦ by
      rw [heq] at hmore
      omega
    exact ⟨Nat.le_of_succ_le hmore, iff_of_false htoo fun hboth ↦ hboth.1 hnext⟩
  · rw [keysFrom_congr hnext, and_iff_right hnext]
    exact ⟨hlead, hiff⟩

/-- Calls begin with no fewer line ends than are meant, and give the same keys exactly if no pair is
broken up and every code is whole. -/
theorem keys_iff {modes : List InputMode} {keys : List Key} {last : Bool}
    (hcalls : termGetchs modes skip0A uart = some (keys, last, [])) :
    leadingEnters (keysFrom skip0A uart) ≤ leadingEnters keys ∧
      (keys = keysFrom skip0A uart ↔ PairsWhole modes skip0A uart ∧ CodesWhole 0 uart) := by
  induction modes generalizing skip0A uart keys with
  | nil =>
    obtain ⟨rfl, rfl, rfl⟩ := by simpa [termGetchs] using hcalls
    exact ⟨Nat.le_refl _, iff_of_true rfl ⟨trivial, trivial⟩⟩
  | cons mode modes ih =>
    rw [termGetchs] at hcalls
    obtain ⟨⟨key, next, left⟩, hcall, hcalls⟩ := Option.bind_eq_some_iff.mp hcalls
    obtain ⟨⟨later, end', rest⟩, hlater, heq⟩ := Option.map_eq_some_iff.mp hcalls
    obtain ⟨rfl, rfl, rfl⟩ := by simpa using heq
    obtain ⟨hlead, hiff⟩ := ih hlater
    have hwhole : (∀ key next left, termGetch mode skip0A uart = some (key, next, left) →
        PairsWhole modes next left) ↔ PairsWhole modes next left := by
      constructor
      · intro hall
        exact hall key next left hcall
      · intro hhere other skip rest hother
        rw [hcall] at hother
        obtain ⟨rfl, rfl, rfl⟩ := by simpa using hother
        exact hhere
    rw [PairsWhole, hwhole]
    by_cases hearly : skip0A = true ∧ mode = .dontWait ∧ uart.head? = some none
    · obtain ⟨rfl, rfl, hhead⟩ := hearly
      obtain ⟨rest, rfl⟩ : ∃ rest, uart = none :: rest := by
        cases uart with
        | nil => cases hhead
        | cons answer rest => exact ⟨rest, by rw [Option.some.inj hhead]⟩
      rw [termGetch_poll_none] at hcall
      obtain ⟨rfl, rfl, rfl⟩ := by simpa using hcall
      obtain ⟨hmost, hpolled⟩ := keys_polled hlead hiff
      have hbreaks : (true = true ∧ InputMode.dontWait = .dontWait ∧
          (none :: rest).head? = some none ∧ nextChar (none :: rest) = some 0x0A) ↔
            nextChar rest = some 0x0A := ⟨fun hbreaks ↦ hbreaks.2.2.2, fun hlf ↦ ⟨rfl, rfl, rfl, hlf⟩⟩
      rw [keysFrom_none, hbreaks, and_assoc]
      exact ⟨hmost, hpolled⟩
    · have hkept : ¬(skip0A = true ∧ mode = .dontWait ∧ uart.head? = some none ∧
          nextChar uart = some 0x0A) :=
        fun hbreaks ↦ hearly ⟨hbreaks.1, hbreaks.2.1, hbreaks.2.2.1⟩
      rw [and_iff_right hkept]
      obtain ⟨hkeys, hcodes⟩ | ⟨hbroken, got, keys, rfl, hne, hkeys⟩ := getch_cases hearly hcall
      · rw [hkeys, List.append_right_inj, hcodes]
        exact ⟨leadingEnters_append hlead key, hiff⟩
      · rw [hkeys]
        refine ⟨Nat.zero_le _, iff_of_false (fun heq ↦ hne ?_) fun hwhole ↦ hbroken hwhole.2⟩
        exact (List.cons.inj heq).1

end Calls

/-! ### The keys of a run -/

/-- Calls that receive all that the UART answers give the keys that are meant exactly if none of
them comes back without a character between a CR and its LF, and nothing but the rest of a code is
received in time behind an ESC. -/
theorem keys_meant_iff {modes : List InputMode} {uart : Answers} {keys : List Key} {last : Bool}
    (hcalls : termGetchs modes false uart = some (keys, last, [])) :
    keys = keysMeant uart ↔ PairsWhole modes false uart ∧ CodesWhole 0 uart :=
  (keys_iff hcalls).2

/-- A CR and a LF with a poll behind them, a cursor key and a letter. -/
theorem keys_meant_iff_cursor :
    let uart : Answers :=
      [some 0x0D, some 0x0A, none, some 0x1B, some 91, some 65, some 97]
    [Key.enter, .up, .printable 97] = keysMeant uart ∧
      PairsWhole [.wait, .dontWait, .dontWait, .wait] false uart ∧ CodesWhole 0 uart := by
  intro uart
  have hcalls : termGetchs [.wait, .dontWait, .dontWait, .wait] false uart =
      some ([.enter, .up, .printable 97], false, []) := by decide
  have hkeys : [Key.enter, .up, .printable 97] = keysMeant uart := by decide
  exact ⟨hkeys, (keys_meant_iff hcalls).mp hkeys⟩

/-- A poll between a CR and its LF finds nothing: the LF is a second Enter. -/
theorem keys_differ_after_poll :
    termGetchs [.wait, .dontWait, .wait] false [some 0x0D, none, some 0x0A] =
        some ([.enter, .enter], false, []) ∧
      keysMeant [some 0x0D, none, some 0x0A] = [.enter] := by
  decide

end Elua.Console
