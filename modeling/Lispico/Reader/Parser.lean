import Lispico.Core.HashMap
import Lispico.Core.List
import Lispico.Reader.Scanner

/-!
# The parser

The parser turns tokens into values. The children of collections are stacked on one buffer that
the whole read shares. `levels` is how many more levels `parseForm` may open; the capacity that
`append` gives to a full buffer is up to the runtime.
-/

namespace Lispico

namespace Reader

open Lispico.Core Lib Guarded

structure ReaderStats where
  nodes : Nat
  bytes : Nat
deriving DecidableEq, Repr

/-- What does not change during a read. `grow` gives the capacity after an `append` that needs
so many slots and finds so few. -/
structure Setup where
  conv : Strconv
  flags : ReaderFlags
  maxDepth : Nat
  grow : Nat → Nat → Nat

structure Parser where
  rest : List Token
  stats : ReaderStats
  nodes : List Datum
  nodesCap : Nat
  nodePlan : GrowthPlan
  /-- The most nodes stacked so far; the code has no such field. -/
  high : Nat

abbrev ParseM (α : Type) := Guarded Budget Parser GoErr α

/-- The capacity of a buffer after `append` has brought it to `len` slots. -/
def capAfter (grow : Nat → Nat → Nat) (cap len : Nat) : Nat :=
  if len ≤ cap then cap else grow cap len

namespace Parser

def peek (p : Parser) : Token := p.rest.headD (Token.plain .eof 0 0)

def past (p : Parser) : Parser := { p with rest := p.rest.tail }

def count (bytes : Nat) (p : Parser) : Parser :=
  { p with stats := ⟨p.stats.nodes + 1, p.stats.bytes + bytes⟩ }

def stack (grow : Nat → Nat → Nat) (item : Datum) (p : Parser) : Parser :=
  { p with
    nodes := p.nodes ++ [item]
    nodesCap := capAfter grow p.nodesCap (p.nodes.length + 1)
    high := max p.high (p.nodes.length + 1) }

def truncate (mark : Nat) (p : Parser) : Parser := { p with nodes := p.nodes.take mark }

end Parser

def admitNode (bytes payload : Nat) : ParseM Unit := do
  spend (Budget.admitOutputNode payload)
  spend (Budget.work 1)
  update (Parser.count bytes)

def addNode (bytes : Nat) : ParseM Unit := admitNode bytes bytes

def addChild (grow : Nat → Nat → Nat) (item : Datum) : ParseM Unit := do
  let n ← look fun p => p.nodes.length
  zoom Parser.nodePlan (fun g p => { p with nodePlan := g }) (GrowthPlan.admitGrowth (n + 1))
  update (Parser.stack grow item)

def takeChildren (mark : Nat) : ParseM (List Datum) := do
  let items ← look fun p => p.nodes.drop mark
  spend (Budget.admitSlots items.length)
  workBatches readerLinkBatch items.length items.length
  update (Parser.truncate mark)
  ret items

def nextTok : ParseM Token := do
  let tok ← look Parser.peek
  update Parser.past
  ret tok

def expect (tt : TokenType) : ParseM Unit := do
  let tok ← nextTok
  if tok.typ ≠ tt then
    fail (newReadError ("expected " ++ toString tt.toNat ++ ", got " ++ toString tok.typ.toNat)
      tok.line tok.col)
  else ret ()

/-- The loop of `parseList`, `parseVector` and `parseReaderVector`; a round takes a token at
least. -/
def parseItems (grow : Nat → Nat → Nat) (form : ParseM Datum) (close : TokenType) :
    Nat → ParseM Unit
  | 0 => ret ()
  | rounds + 1 => do
      let tok ← look Parser.peek
      if tok.typ ≠ close ∧ tok.typ ≠ .eof then
        let item ← form
        addChild grow item
        parseItems grow form close rounds
      else ret ()

def parseChildren (grow : Nat → Nat → Nat) (form : ParseM Datum) (close : TokenType) :
    ParseM (List Datum) := do
  let _ ← nextTok
  let p ← look id
  let items ← cleanup (Parser.truncate p.nodes.length) (do
    parseItems grow form close p.rest.length
    expect close
    takeChildren p.nodes.length)
  addNode 0
  ret items

/-- The loop of `newGuardedListChain` over the items from the last one on: `link` makes the cell
of an item, and there is a checkpoint after every batch of cells. -/
def linkCells {S α γ : Type} (link : α → Nat → γ → γ) :
    List α → Nat → γ → Guarded Budget S GoErr γ
  | [], _, cells => ret cells
  | item :: items, linked, cells =>
    if (linked + 1) % readerLinkBatch = 0 then do
      spend Budget.checkpoint
      linkCells link items (linked + 1) (link item (linked + 1) cells)
    else linkCells link items (linked + 1) (link item (linked + 1) cells)

def buildList (items : List Datum) : ParseM Datum :=
  if items.length ≤ listFlatThreshold then ret (.list items)
  else do
    spend (Budget.admitListCells items.length)
    linkCells (fun _ _ cells => cells) items.reverse 0 ()
    ret (.list items)

structure MapEntry where
  hk : DatumKey
  k : Datum
  v : Datum

structure MapLit where
  entries : List MapEntry
  large : Bool
  plan : GrowthPlan

def findFrom (hk : DatumKey) : List MapEntry → Nat → Nat × Bool
  | [], i => (i, false)
  | e :: es, i =>
    if e.hk = hk then (i, true)
    else if hk.less e.hk then (i, false)
    else findFrom hk es (i + 1)

namespace MapLit

def find (m : MapLit) (hk : DatumKey) : Nat × Bool := findFrom hk m.entries 0

def put (m : MapLit) (e : MapEntry) : List MapEntry :=
  match m.find e.hk with
  | (i, true) => m.entries.set i e
  | (i, false) => m.entries.insertIdx i e

def admitEntry (m : MapLit) : ParseM GrowthPlan := do
  let grown ← apart m.plan (GrowthPlan.admitGrowth (m.entries.length + 1))
  ret grown.2

end MapLit

section

variable {S G M : Type} (reserve : Guarded Budget S GoErr G)

/-- `mapSet` on the map form with a Go map, by what the map is then. -/
def insertLarge (found : Bool) (replaced : M) (inserted : G → M) : Guarded Budget S GoErr M :=
  if found then ret replaced
  else do
    let plan ← reserve
    ret (inserted plan)

/-- `mapSet` on the sorted form, with the place of the key and whether it is there. -/
def insertSmall (place : Nat × Bool) (len : Nat) (replaced : M) (inserted promoted : G → M) :
    Guarded Budget S GoErr M := do
  spend (Budget.work (place.1 + 1))
  if place.2 then ret replaced
  else if len ≥ hashMapSmallLimit then
    spend (Budget.admitAlloc meterCollectionHeaderBytes)
    let plan ← reserve
    ret (promoted plan)
  else
    let plan ← reserve
    ret (inserted plan)

end

def mapSetLarge (m : MapLit) (e : MapEntry) : ParseM MapLit :=
  insertLarge m.admitEntry (m.find e.hk).2 { m with entries := m.put e }
    fun plan => { m with entries := m.put e, plan := plan }

def mapSetSmall (m : MapLit) (e : MapEntry) : ParseM MapLit :=
  insertSmall m.admitEntry (m.find e.hk) m.entries.length { m with entries := m.put e }
    (fun plan => { m with entries := m.put e, plan := plan }) fun plan => ⟨m.put e, true, plan⟩

def mapSet (m : MapLit) (key val : Datum) : ParseM MapLit :=
  match toHashKey key with
  | .error err => fail err
  | .ok hk => do
      spend (Budget.work (hk.str.length + 1))
      if m.large then mapSetLarge m ⟨hk, key, val⟩ else mapSetSmall m ⟨hk, key, val⟩

def parseMapValue (form : ParseM Datum) : ParseM Datum := do
  let tok ← look Parser.peek
  if tok.typ = .eof then fail (newReadError "map requires even number of forms" 0 0) else form

def parseEntries (form : ParseM Datum) : Nat → MapLit → ParseM MapLit
  | 0, m => ret m
  | rounds + 1, m => do
      let tok ← look Parser.peek
      if tok.typ ≠ .rBrace ∧ tok.typ ≠ .eof then
        let key ← form
        let val ← parseMapValue form
        let m ← mapSet m key val
        parseEntries form rounds m
      else ret m

def parseHashMap (form : ParseM Datum) : ParseM Datum := do
  let _ ← nextTok
  let p ← look id
  let m ← parseEntries form p.rest.length ⟨[], false, ⟨meterHashMapEntryBytes, 0⟩⟩
  expect .rBrace
  addNode 0
  ret (.map (m.entries.map fun e => (e.k, e.v)))

def parseList (grow : Nat → Nat → Nat) (form : ParseM Datum) : ParseM Datum := do
  let items ← parseChildren grow form .rParen
  buildList items

def parseVector (grow : Nat → Nat → Nat) (form : ParseM Datum) : ParseM Datum := do
  let items ← parseChildren grow form .rBracket
  ret (.vector items)

def parseReaderVector (grow : Nat → Nat → Nat) (form : ParseM Datum) : ParseM Datum := do
  let items ← parseChildren grow form .rParen
  ret (.vector items)

/-- `wrapForm` after the token of a reader macro and the form that follows it. -/
def parseWrapped (name : String) (form : ParseM Datum) : ParseM Datum := do
  let _ ← nextTok
  let inner ← form
  addNode (text name).length
  addNode 0
  spend (Budget.admitSlots 2)
  ret (.list [.symbol (text name), inner])

def parseFunctionRef (form : ParseM Datum) : ParseM Datum := parseWrapped "function" form

def parseQuote (form : ParseM Datum) : ParseM Datum := parseWrapped "quote" form

def parseQuasiquote (form : ParseM Datum) : ParseM Datum := parseWrapped "quasiquote" form

def parseUnquote (form : ParseM Datum) : ParseM Datum := parseWrapped "unquote" form

def parseUnquoteSplicing (form : ParseM Datum) : ParseM Datum :=
  parseWrapped "unquote-splicing" form

def readerSourceRenderLimit : Nat := 128

def boundedSource (src : Text) : Text :=
  if src.length ≤ readerSourceRenderLimit then src
  else src.take (readerSourceRenderLimit - (text "...").length) ++ text "..."

def convertNumber (conv : Strconv) (s : Text) (line col : Nat) (shownText : Text) :
    Except GoErr Datum :=
  let invalid : GoErr := newReadError ("invalid number: " ++ shown shownText) line col
  if s.contains (byte '.') then
    match conv.parseFloat s with
    | none => .error invalid
    | some f => .ok (.float f)
  else
    match parseInt s with
    | none => .error invalid
    | some i => .ok (.int i)

def parseNumberToken (conv : Strconv) (tok : Token) : ParseM Datum := do
  spend (Budget.admitConversion tok.val.length)
  spend (Budget.admitConversionStorage tok.val.length)
  let guarded ← inspect Option.isSome
  match convertNumber conv tok.val tok.line tok.col
      (if guarded then boundedSource tok.val else tok.val) with
  | .error err => fail err
  | .ok v => do
      spend Budget.checkpoint
      ret v

def parseStringToken (tok : Token) : ParseM Datum := do
  let _ ← nextTok
  admitNode tok.val.length (if tok.copied then 0 else tok.val.length)
  ret (.string tok.val)

/-- `parseForm` at a token that is a node by itself. -/
def parseAtom (payload : Nat) (v : Datum) : ParseM Datum := do
  let _ ← nextTok
  addNode payload
  ret v

def parseSymbolToken (tok : Token) : ParseM Datum :=
  if tok.val = text "nil" then parseAtom 0 .nil
  else if tok.val = text "true" then parseAtom 0 (.bool true)
  else if tok.val = text "false" then parseAtom 0 (.bool false)
  else parseAtom tok.val.length (.symbol tok.val)

def parseNumber (conv : Strconv) (tok : Token) : ParseM Datum := do
  let _ ← nextTok
  addNode 0
  parseNumberToken conv tok

/-- The `switch` of `parseForm`, with `form` for the nested calls. -/
def parseTok (su : Setup) (form : ParseM Datum) (tok : Token) : ParseM Datum :=
  match tok.typ with
  | .eof => fail (newReadError "unexpected EOF" tok.line tok.col)
  | .lParen => parseList su.grow form
  | .lBracket => parseVector su.grow form
  | .lBrace => parseHashMap form
  | .functionRef => parseFunctionRef form
  | .hashParen => parseReaderVector su.grow form
  | .quote => parseQuote form
  | .backtick => parseQuasiquote form
  | .tilde => parseUnquote form
  | .tildeAt => parseUnquoteSplicing form
  | .string => parseStringToken tok
  | .number => parseNumber su.conv tok
  | .symbol => parseSymbolToken tok
  | .keyword => parseAtom tok.val.length (.keyword tok.val)
  | .rParen | .rBracket | .rBrace | .at | .hash =>
    fail (newReadError ("unexpected token type " ++ toString tok.typ.toNat) tok.line tok.col)

def depthError (maxDepth : Nat) (tok : Token) : GoErr :=
  .lispico ⟨GoErr.codeResourceLimit,
    "reader nesting depth limit " ++ toString maxDepth ++ " exceeded",
    "", tok.line, tok.col⟩ none

def parseForm (su : Setup) : Nat → ParseM Datum
  | 0 => do
      let tok ← look Parser.peek
      fail (depthError su.maxDepth tok)
  | levels + 1 => do
      let tok ← look Parser.peek
      parseTok su (parseForm su levels) tok

def parse (su : Setup) : ParseM Datum := do
  let tok ← look Parser.peek
  if tok.typ = .eof then fail (newReadError "unexpected EOF" 0 0) else parseForm su su.maxDepth

end Reader

end Lispico
