import Lispico.Core.Env
import Mathlib

/-!
# The vocabulary of a dialect

A dialect may rename the builtins that plugins register, put adapters in their place, or list
the ones it admits. A value is any type with two questions: whether it is a `GoFunc`, and
`Equals`.
-/

namespace Lispico

namespace Runtime

/-- What the vocabulary asks about values. -/
class VocabValue (V : Type) where
  isGoFunc : V → Bool
  equals : V → V → Bool

/-- Two kinds of values: a `GoFunc` equals one of the same name, whatever it does. -/
inductive SampleValue where
  | goFunc (name : String) (fn : Nat)
  | int (v : Int)
deriving DecidableEq

instance : VocabValue SampleValue where
  isGoFunc
    | .goFunc _ _ => true
    | .int _ => false
  equals
    | .goFunc name _, .goFunc name' _ => name == name'
    | .int v, .int v' => v == v'
    | _, _ => false

instance : Core.ValueShallowBytes SampleValue where
  valueShallowBytes
    | .goFunc name _ => 24 + name.utf8ByteSize
    | .int _ => 8

/-- `VocabEntry`: a name renames a builtin or binds an adapter. -/
inductive VocabEntry (V : Type) where
  | rename (canonical : String)
  | adapter (value : V)

/-- The vocabulary of a frozen dialect, with the two axes that plugin registration reads. -/
structure Vocabulary (V : Type) where
  lisp2 : Bool
  baseEmpty : Bool
  vocab : Option (AList fun _ : String => VocabEntry V)

structure VocabBinding (V : Type) where
  name : String
  value : V
  canonical : Bool
  func : Bool

namespace Vocabulary

section

variable {V : Type}

def vocabEntry (d : Vocabulary V) (name : String) : Option (VocabEntry V) :=
  d.vocab.bind fun vocab => vocab.lookup name

/-- The names of a vocabulary, sorted, whose entry passes a test. -/
def namesWith (d : Vocabulary V) (p : String → VocabEntry V → Bool) : List String :=
  match d.vocab with
  | none => []
  | some vocab =>
    ((vocab.entries.filter fun x => p x.1 x.2).map Sigma.fst).insertionSort (· ≤ ·)

/-- The visible names that rename a builtin, the builtin's own name excluded. -/
def aliases (d : Vocabulary V) (canonical : String) : List String :=
  d.namesWith fun name entry =>
    match entry with
    | .rename c => c == canonical && name != canonical
    | .adapter _ => false

def adapters (d : Vocabulary V) : List String :=
  d.namesWith fun _ entry =>
    match entry with
    | .adapter _ => true
    | .rename _ => false

variable [VocabValue V]

/-- The own binding of a registered `GoFunc`: its adapter if there is one, and none if an
empty-base vocabulary does not list its name. -/
def ownBinding (d : Vocabulary V) (name : String) (v : V) (canonical : Bool) :
    Option (VocabBinding V) :=
  match d.vocabEntry name with
  | some (.adapter a) => some ⟨name, a, false, d.lisp2 && VocabValue.isGoFunc a⟩
  | some (.rename _) => some ⟨name, v, canonical, d.lisp2⟩
  | none =>
    if d.vocab.isSome && d.baseEmpty then none else some ⟨name, v, canonical, d.lisp2⟩

def appendVocabBindings (d : Vocabulary V) (name : String) (v : V) (canonical : Bool) :
    List (VocabBinding V) :=
  if VocabValue.isGoFunc v then
    (d.ownBinding name v canonical).toList ++
      (d.aliases name).map fun visible => ⟨visible, v, false, d.lisp2⟩
  else [⟨name, v, canonical, false⟩]

end

end Vocabulary

end Runtime

end Lispico
