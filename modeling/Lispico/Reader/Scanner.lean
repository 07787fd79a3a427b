import Lispico.Reader.Budget
import Lispico.Reader.Datum

/-!
# The scanner

A guarded read scans the source twice with `nextToken`: a first pass counts tokens and decoded
bytes, so that their storage is admitted before it is obtained, and a second keeps them. The
state holds the input that is left. A failed budget ends the input.
-/

namespace Lispico

namespace Reader

open Lispico.Core Lib Guarded

inductive TokenType where
  | lParen
  | rParen
  | lBracket
  | rBracket
  | lBrace
  | rBrace
  | quote
  | backtick
  | tilde
  | tildeAt
  | at
  | hash
  | functionRef
  | hashParen
  | string
  | number
  | symbol
  | keyword
  | eof
deriving DecidableEq, Repr

/-- The number of the type, which is what `%v` prints. -/
def TokenType.toNat : TokenType → Nat
  | .lParen => 0
  | .rParen => 1
  | .lBracket => 2
  | .rBracket => 3
  | .lBrace => 4
  | .rBrace => 5
  | .quote => 6
  | .backtick => 7
  | .tilde => 8
  | .tildeAt => 9
  | .at => 10
  | .hash => 11
  | .functionRef => 12
  | .hashParen => 13
  | .string => 14
  | .number => 15
  | .symbol => 16
  | .keyword => 17
  | .eof => 18

structure Token where
  typ : TokenType
  copied : Bool
  val : Text
  line : Nat
  col : Nat
deriving DecidableEq, Repr

def Token.plain (typ : TokenType) (line col : Nat) : Token := ⟨typ, false, [], line, col⟩

structure ReaderFlags where
  bracketLiterals : Bool
  functionRef : Bool
  readerVector : Bool
deriving DecidableEq, Repr

/-- `defaultReaderFlags`, which are those of the identity dialect. -/
def defaultReaderFlags : ReaderFlags := ⟨true, false, false⟩

/-- The state of a `Reader`; `rest` is the input from its position on. -/
structure Source where
  rest : Text
  line : Nat
  col : Nat
  flags : ReaderFlags
  countOnly : Bool
  copiedPayload : Nat
deriving DecidableEq, Repr

def newReadError (msg : String) (line col : Nat) : GoErr :=
  .lispico ⟨"ReadError", msg, "", line, col⟩ none

def percentC (ch : UInt8) : String := String.singleton (Char.ofNat ch.toNat)

def isWhitespace (ch : UInt8) : Bool :=
  ch == byte ' ' || ch == byte '\t' || ch == byte '\n' || ch == byte '\r'

def isSymbolStart (ch : UInt8) : Bool :=
  (byte 'a' ≤ ch && ch ≤ byte 'z') || (byte 'A' ≤ ch && ch ≤ byte 'Z') ||
    [byte '_', byte '-', byte '+', byte '*', byte '/', byte '!', byte '?', byte '<', byte '>',
      byte '=', byte '%', byte '&', byte '^', byte '~', byte '.'].contains ch

def isSymbolChar (ch : UInt8) : Bool :=
  isSymbolStart ch || isDigit ch || ch == byte '#' || ch == byte '\''

namespace Source

def start (input : Text) (flags : ReaderFlags) : Source := ⟨input, 1, 1, flags, false, 0⟩

def peek (r : Source) : UInt8 := r.rest.headD 0

def peekNext (r : Source) : UInt8 := r.rest.tail.headD 0

/-- The state after the byte `ch`, with `rest` left. -/
def past (r : Source) (ch : UInt8) (rest : Text) : Source :=
  if ch = byte '\n' then { r with rest := rest, line := r.line + 1, col := 1 }
  else { r with rest := rest, col := r.col + 1 }

/-- The input from `start` up to the position. -/
def since (start : Text) (r : Source) : Text := start.take (start.length - r.rest.length)

end Source

variable (r : Source) (ch : UInt8) (rest : Text)

theorem past_rest : (r.past ch rest).rest = rest := by
  unfold Source.past
  split_ifs <;> rfl

theorem past_flags : (r.past ch rest).flags = r.flags := by
  unfold Source.past
  split_ifs <;> rfl

theorem past_countOnly : (r.past ch rest).countOnly = r.countOnly := by
  unfold Source.past
  split_ifs <;> rfl

theorem past_copiedPayload : (r.past ch rest).copiedPayload = r.copiedPayload := by
  unfold Source.past
  split_ifs <;> rfl

abbrev ScanM (α : Type) := Guarded Budget Source GoErr α

def next : ScanM UInt8 := fun r b =>
  match r.rest with
  | [] => (.ok 0, r, b)
  | ch :: rest =>
    match spend (Budget.work 1) r b with
    | (.error _, r, b) => (.ok 0, { r with rest := [] }, b)
    | (.ok (), r, b) => (.ok ch, r.past ch rest, b)

/-- `next` for as long as the next byte is one of `p`, which NUL and so the end is not. -/
def advance (p : UInt8 → Bool) : Nat → ScanM Unit
  | 0 => ret ()
  | rounds + 1 => do
      let ch ← look Source.peek
      if p ch then
        let _ ← next
        advance p rounds
      else ret ()

def advanceWhile (p : UInt8 → Bool) : ScanM Unit := do
  let rest ← look Source.rest
  advance p rest.length

def skipWhitespace : ScanM Unit :=
  advanceWhile fun ch => ch != 0 && (isWhitespace ch || ch == byte ',')

def readComment : ScanM Unit :=
  advanceWhile fun ch => ch != byte '\n' && ch != 0

def single (typ : TokenType) (line col : Nat) : ScanM Token := do
  let _ ← next
  ret (Token.plain typ line col)

def bracketToken (ch : UInt8) : TokenType :=
  if ch = byte '[' then .lBracket
  else if ch = byte ']' then .rBracket
  else if ch = byte '{' then .lBrace
  else .rBrace

def unterminated : ScanM Token := do
  let r ← look id
  fail (newReadError "unterminated string" r.line r.col)

def escaped (ch : UInt8) : Option UInt8 :=
  if ch = byte 'n' then some (byte '\n')
  else if ch = byte 't' then some (byte '\t')
  else if ch = byte '"' then some (byte '"')
  else if ch = byte '\\' then some (byte '\\')
  else if ch = byte 'r' then some (byte '\r')
  else none

def writeByte (buf : Text) (ch : UInt8) : ScanM Text :=
  look fun r => if r.countOnly then buf else buf ++ [ch]

def appendEscape (buf : Text) : ScanM Text := do
  let ch ← next
  let r ← look id
  match escaped ch with
  | none => fail (newReadError ("invalid escape: \\" ++ percentC ch) r.line r.col)
  | some decoded => writeByte buf decoded

def finishEscaped (buf : Text) (decoded line col : Nat) : ScanM Token := do
  let countOnly ← look Source.countOnly
  if countOnly then
    update fun r => { r with copiedPayload := r.copiedPayload + decoded }
    ret (Token.plain .string line col)
  else ret ⟨.string, true, buf, line, col⟩

def readEscapes (line col : Nat) : Nat → Text → Nat → ScanM Token
  | 0, _, _ => unterminated
  | rounds + 1, buf, decoded => do
      let ch ← next
      if ch = 0 then unterminated
      else if ch = byte '"' then finishEscaped buf decoded line col
      else if ch = byte '\\' then
        let buf ← appendEscape buf
        readEscapes line col rounds buf (decoded + 1)
      else
        let buf ← writeByte buf ch
        readEscapes line col rounds buf (decoded + 1)

def copyPrefix (run : Text) : ScanM Text := do
  let countOnly ← look Source.countOnly
  if countOnly then ret []
  else
    spend (Budget.work run.length)
    ret run

def readStringEscaped (line col : Nat) (run : Text) : ScanM Token := do
  let buf ← copyPrefix run
  let buf ← appendEscape buf
  let rest ← look Source.rest
  readEscapes line col (rest.length + 1) buf (run.length + 1)

/-- The loop of `readString` after the opening quote, where the input was `start`. -/
def readRun (line col : Nat) (start : Text) : Nat → ScanM Token
  | 0 => unterminated
  | rounds + 1 => do
      let ch ← next
      let run ← look fun r => (r.since start).dropLast
      if ch = 0 then unterminated
      else if ch = byte '"' then ret ⟨.string, false, run, line, col⟩
      else if ch = byte '\\' then readStringEscaped line col run
      else readRun line col start rounds

def readString (line col : Nat) : ScanM Token := do
  let _ ← next
  let start ← look Source.rest
  readRun line col start (start.length + 1)

def readWord (typ : TokenType) (line col : Nat) (p : UInt8 → Bool) : ScanM Token := do
  let start ← look Source.rest
  advanceWhile p
  let val ← look (Source.since start)
  ret ⟨typ, false, val, line, col⟩

def readSign : ScanM Unit := do
  let ch ← look Source.peek
  if ch = byte '-' then
    let _ ← next
    ret ()
  else ret ()

def readNumber (line col : Nat) : ScanM Token := do
  let start ← look Source.rest
  readSign
  advanceWhile fun ch => isDigit ch || ch == byte '.'
  let val ← look (Source.since start)
  ret ⟨.number, false, val, line, col⟩

def readSymbol (line col : Nat) : ScanM Token := readWord .symbol line col isSymbolChar

def readKeyword (line col : Nat) : ScanM Token := do
  let _ ← next
  readWord .keyword line col isSymbolChar

def readTilde (line col : Nat) : ScanM Token := do
  let _ ← next
  let ch ← look Source.peek
  if ch = byte '@' then single .tildeAt line col else ret (Token.plain .tilde line col)

def readHash (line col : Nat) : ScanM Token := do
  let _ ← next
  let r ← look id
  if r.flags.functionRef ∧ r.peek = byte '\'' then single .functionRef line col
  else if r.flags.readerVector ∧ r.peek = byte '(' then single .hashParen line col
  else ret (Token.plain .hash line col)

def backtick : UInt8 := 96

def scanHere (r : Source) : ScanM Token :=
  let ch := r.peek
  if ch = byte '(' then single .lParen r.line r.col
  else if ch = byte ')' then single .rParen r.line r.col
  else if ch = byte '[' ∨ ch = byte ']' ∨ ch = byte '{' ∨ ch = byte '}' then
    if r.flags.bracketLiterals then single (bracketToken ch) r.line r.col
    else fail (newReadError ("unexpected character: " ++ percentC ch) r.line r.col)
  else if ch = byte '\'' then single .quote r.line r.col
  else if ch = backtick then single .backtick r.line r.col
  else if ch = byte '~' then readTilde r.line r.col
  else if ch = byte '@' then single .at r.line r.col
  else if ch = byte '#' then readHash r.line r.col
  else if ch = byte '"' then readString r.line r.col
  else if ch = byte ':' then readKeyword r.line r.col
  else if isDigit ch ∨ (ch = byte '-' ∧ isDigit r.peekNext) then readNumber r.line r.col
  else if isSymbolStart ch then readSymbol r.line r.col
  else fail (newReadError ("unexpected character: " ++ percentC ch) r.line r.col)

/-- The loop of `scanToken`; a round that goes on has passed a comment. -/
def scanRounds : Nat → ScanM Token
  | 0 => look fun r => Token.plain .eof r.line r.col
  | rounds + 1 => do
      skipWhitespace
      let r ← look id
      if r.rest = [] then ret (Token.plain .eof r.line r.col)
      else if r.peek = byte ';' then
        readComment
        scanRounds rounds
      else scanHere r

def scanToken : ScanM Token := do
  let rest ← look Source.rest
  scanRounds (rest.length + 1)

def nextToken : ScanM Token := outranked Budget.failed scanToken

def countRounds (headroom : Nat) : Nat → Nat → ScanM Nat
  | 0, n => ret n
  | rounds + 1, n => do
      let tok ← nextToken
      let payload ← look Source.copiedPayload
      spend (Budget.checkPlan (n + 1) payload headroom)
      if tok.typ = .eof then ret (n + 1) else countRounds headroom rounds (n + 1)

def countTokens : ScanM Nat :=
  within (fun r => { r with countOnly := true, copiedPayload := 0 }) (fun before r =>
      { r with rest := before.rest, line := before.line, col := before.col, countOnly := false })
    (do
      let headroom ← inspect Budget.allocHeadroom
      let rest ← look Source.rest
      countRounds headroom (rest.length + 1) 0)

end Reader

end Lispico
