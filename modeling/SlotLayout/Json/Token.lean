import SlotLayout.Json.Number
import SlotLayout.Json.Text

/-!
# Tokens

The tokens of a JSON text. Scanning goes as far as a lax reader can: the first token that even a lax
reader cannot get past is the last one, and it carries the error of both kinds of reader. What only
a strict reader minds is kept inside the token.

* `Token.next`: the token that starts with a symbol that is not blank, and what follows it;
* `tokens`: all tokens of the input.
-/

namespace SlotLayout.Json

/-- A token. -/
inductive Token where
  | listOpen
  | listClose
  | objectOpen
  | objectClose
  | colon
  | comma
  | null
  | flag (b : Bool)
  | number (read : Except Error Number)
  | text (read : Except Error String)
  /-- A text literal that neither reader can get past. -/
  | brokenText (strict lax : Error)
  /-- Anything else that neither reader can get past. -/
  | brokenWord (strict lax : Error)
  | fault (reason : String)

namespace Token

/-- Reads the rest of a word that stands for the token `t`. -/
def ofWord (t : Token) : List Char → List Symbol → Token × List Symbol
  | [], rest => (t, rest)
  | _ :: _, [] => (brokenWord (.endOfInput .value) (.endOfInput .value), [])
  | _ :: _, .fault reason :: _ => (brokenWord (.unreadable reason) (.unreadable reason), [])
  | _ :: _, .stray _ :: _ => (brokenWord .expectedLiteral .expectedLiteral, [])
  | e :: es, .char c :: rest =>
    if c = e then ofWord t es rest else (brokenWord .expectedLiteral .expectedLiteral, [])

/-- The token of a scanned text literal. -/
def ofTextScan : TextScan → Token × List Symbol
  | .closed read rest => (text read, rest)
  | .broken strict lax => (brokenText strict lax, [])

/-- The token of a scanned number literal. -/
def ofNumberScan : NumberScan → Token × List Symbol
  | .done read rest => (number read, rest)
  | .broken strict lax => (brokenWord strict lax, [])

/-- The token that starts with the symbol `s`, and what follows it. -/
def next (s : Symbol) (rest : List Symbol) : Token × List Symbol :=
  match s with
  | .fault reason => (fault reason, [])
  | .stray _ => (brokenWord .expectedValue .expectedValue, [])
  | .char c =>
    if c = '[' then (listOpen, rest)
    else if c = ']' then (listClose, rest)
    else if c = '\x7b' then (objectOpen, rest)
    else if c = '\x7d' then (objectClose, rest)
    else if c = ':' then (colon, rest)
    else if c = ',' then (comma, rest)
    else if c = '"' then ofTextScan (scanText .start rest)
    else if c = 'n' then ofWord null "ull".toList rest
    else if c = 't' then ofWord (flag true) "rue".toList rest
    else if c = 'f' then ofWord (flag false) "alse".toList rest
    else if c = '-' || Numeral.isDigit c then ofNumberScan (scanNumber (s :: rest))
    else (brokenWord .expectedValue .expectedValue, [])

theorem length_ofWord_le (t : Token) (word : List Char) (rest : List Symbol) :
    (ofWord t word rest).2.length ≤ rest.length := by
  fun_induction ofWord t word rest <;> simp_all
  omega

theorem length_ofTextScan_le (read : Strict) (rest : List Symbol) :
    (ofTextScan (scanText read rest)).2.length ≤ rest.length := by
  cases h : scanText read rest with
  | closed s after => exact Nat.le_of_lt (length_lt_of_scanText h)
  | broken strict lax => exact Nat.zero_le _

theorem length_ofNumberScan_le (s : Symbol) (rest : List Symbol) :
    (ofNumberScan (scanNumber (s :: rest))).2.length ≤ rest.length := by
  cases h : scanNumber (s :: rest) with
  | done n after => exact Nat.le_of_lt_succ (length_lt_of_scanNumber h)
  | broken strict lax => exact Nat.zero_le _

/-- A token takes up at least the symbol it starts with. -/
theorem length_next_le (s : Symbol) (rest : List Symbol) :
    (next s rest).2.length ≤ rest.length := by
  cases s with
  | fault reason => exact Nat.zero_le _
  | stray byte => exact Nat.zero_le _
  | char c =>
    have same (t : Token) : ((t, rest) : Token × List Symbol).2.length ≤ rest.length :=
      Nat.le_refl _
    have either {p : Prop} [Decidable p] {x y : Token × List Symbol}
        (hx : x.2.length ≤ rest.length) (hy : y.2.length ≤ rest.length) :
        (if p then x else y).2.length ≤ rest.length := by
      split
      · exact hx
      · exact hy
    exact either (same _) <| either (same _) <| either (same _) <| either (same _) <|
      either (same _) <| either (same _) <| either (length_ofTextScan_le _ _) <|
      either (length_ofWord_le _ _ _) <| either (length_ofWord_le _ _ _) <|
      either (length_ofWord_le _ _ _) <|
      either (length_ofNumberScan_le _ _) (Nat.zero_le _)

end Token

/-- The four blank characters of JSON. -/
def Symbol.isSpace : Symbol → Bool
  | .char c => c = ' ' || c = '\t' || c = '\n' || c = '\r'
  | _ => false

/-- The tokens of the input, after those in `before` (last one first). -/
def tokensAfter (before : List Token) : List Symbol → List Token
  | [] => before.reverse
  | s :: rest =>
    if s.isSpace then tokensAfter before rest
    else tokensAfter ((Token.next s rest).1 :: before) (Token.next s rest).2
termination_by input => input.length
decreasing_by
  · simp
  · exact Nat.lt_succ_of_le (Token.length_next_le s rest)

/-- The tokens of the input. -/
def tokens (input : List Symbol) : List Token := tokensAfter [] input

end SlotLayout.Json
