import Lispico.Reader.Parser

/-!
# Reads

A read takes a scratch from the pool, tokenizes and parses the source and gives the scratch
back, cleared, unless the read failed for good or the scratch has grown past the allocation
limit that the read ran under. What a scratch keeps from earlier reads is the capacity of its
two buffers.
-/

namespace Lispico

namespace Reader

open Lispico.Core Lib Guarded

structure Pooled where
  tokensCap : Nat
  nodesCap : Nat
deriving DecidableEq, Repr

structure Scratch where
  source : Source
  parser : Parser
  tokens : List Token
  tokensCap : Nat
  /-- The number of tokens planned for; the code has no such field. -/
  planned : Nat

/-- A scratch from the pool, after `Reset` and with the source and the flags of the read. -/
def Pooled.reset (pooled : Pooled) (su : Setup) (src : Text) : Scratch where
  source := Source.start src su.flags
  parser := ⟨[], ⟨0, 0⟩, [], pooled.nodesCap, ⟨meterValueSlotBytes, 0⟩, 0⟩
  tokens := []
  tokensCap := pooled.tokensCap
  planned := 0

abbrev ReadM (α : Type) := Guarded Budget Scratch GoErr α

namespace Scratch

def withSource (r : Source) (s : Scratch) : Scratch := { s with source := r }

def withParser (p : Parser) (s : Scratch) : Scratch := { s with parser := p }

def append (grow : Nat → Nat → Nat) (tok : Token) (s : Scratch) : Scratch :=
  { s with
    tokens := s.tokens ++ [tok]
    tokensCap := capAfter grow s.tokensCap (s.tokens.length + 1) }

/-- A token buffer of `n` slots, made if the one at hand is smaller. -/
def sized (n : Nat) (s : Scratch) : Scratch :=
  { s with tokensCap := max s.tokensCap n, planned := n }

def toParser (s : Scratch) : Scratch := s.withParser { s.parser with rest := s.tokens }

def retained (s : Scratch) : Nat :=
  s.tokensCap * readerTokenUnitBytes + valueSlotsBytes s.parser.nodesCap

end Scratch

def scanning {α : Type} (m : ScanM α) : ReadM α := zoom Scratch.source Scratch.withSource m

def parsing {α : Type} (m : ParseM α) : ReadM α := zoom Scratch.parser Scratch.withParser m

/-- The counting pass of a guarded read, and the storage for what it counted. -/
def planTokens : ReadM Unit := do
  let n ← scanning countTokens
  let payload ← look fun s => s.source.copiedPayload
  spend (Budget.reservePlan n payload)
  update (Scratch.sized n)

def tokenRounds (grow : Nat → Nat → Nat) : Nat → ReadM Unit
  | 0 => ret ()
  | rounds + 1 => do
      let tok ← scanning nextToken
      update (Scratch.append grow tok)
      if tok.typ = .eof then ret () else tokenRounds grow rounds

/-- The pass of `tokenizeInto` that keeps the tokens. -/
def scanAll (grow : Nat → Nat → Nat) : ReadM Unit := do
  let rest ← look fun s => s.source.rest
  tokenRounds grow (rest.length + 1)

def tokenizeInto (grow : Nat → Nat → Nat) : ReadM Unit := do
  let guarded ← inspect Option.isSome
  if guarded then
    planTokens
    scanAll grow
  else scanAll grow

def formRounds (su : Setup) : Nat → GrowthPlan → List Datum → ReadM (List Datum)
  | 0, _, forms => ret forms
  | rounds + 1, plan, forms => do
      let tok ← look fun s => s.parser.peek
      if tok.typ ≠ .eof then
        let form ← parsing (parse su)
        let grown ← apart plan (GrowthPlan.admitGrowth (forms.length + 1))
        formRounds su rounds grown.2 (forms ++ [form])
      else ret forms

def readForms (su : Setup) : ReadM (List Datum) := do
  update Scratch.toParser
  let n ← look fun s => s.tokens.length
  formRounds su n ⟨meterValueSlotBytes, 0⟩ []

/-- `read` up to its last checkpoint; an error settles the budget first. -/
def tokenizeAndParse (su : Setup) : ReadM (List Datum) :=
  settled Budget.checkpoint do
    tokenizeInto su.grow
    readForms su

def read (su : Setup) : ReadM (List Datum × ReaderStats) := do
  let forms ← tokenizeAndParse su
  spend Budget.checkpoint
  let stats ← look fun s => s.parser.stats
  ret (forms, stats)

def clearSlots (n : Nat) : ReadM Unit := workBatches readerClearBatch n n

/-- How many node slots `release` clears. -/
def Scratch.nodeSlots (s : Scratch) : Nat := min s.parser.nodePlan.capacity s.parser.nodesCap

def clear : ReadM Unit := do
  let s ← look id
  clearSlots s.tokens.length
  clearSlots s.nodeSlots
  spend Budget.checkpoint

/-- `release`: the budget after it, and what goes back to the pool. -/
def release (ceiling : Nat) (s : Scratch) (b : Option Budget) : Option Budget × Option Pooled :=
  if (b.bind Budget.failed).isSome ∨ s.retained > ceiling then (b, none)
  else
    match clear s b with
    | (.error _, _, b) => (b, none)
    | (.ok (), s, b) => (b, some ⟨s.tokensCap, s.parser.nodesCap⟩)

structure Outcome where
  result : Except GoErr (List Datum × ReaderStats)
  budget : Option Budget
  pooled : Option Pooled

def defaultReaderDepth : Nat := 1024

/-- The depth limit of a read; a limit that is not positive is the default. -/
def readerDepth (maxDepth : Int) : Nat :=
  if maxDepth ≤ 0 then defaultReaderDepth else maxDepth.toNat

def readAndRelease (ceiling : Nat) (m : ReadM (List Datum × ReaderStats)) (s : Scratch)
    (b : Option Budget) : Outcome :=
  match m s b with
  | (result, s, b) =>
    let released := release ceiling s b
    ⟨result, released.1, released.2⟩

def readWithMaxDepthStats (su : Setup) (src : Text) (pooled : Pooled) : Outcome :=
  readAndRelease readerScratchNoCeiling (read su) (pooled.reset su src) none

def guardedRead (su : Setup) : ReadM (List Datum × ReaderStats) := do
  spend Budget.checkpoint
  read su

/-- `ReadWithContextStats` under the budget that `init` fills in. -/
def readWithContextStats (su : Setup) (src : Text) (pooled : Pooled) (b : Budget) : Outcome :=
  readAndRelease (Budget.allocCeiling (some b)) (guardedRead su) (pooled.reset su src) (some b)

end Reader

end Lispico
