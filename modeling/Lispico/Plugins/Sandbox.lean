import Mathlib

/-!
# The file sandbox

The lio plugin resolves every path a program names before it compares the path with the
directories it may use. The comparison is one of texts; what it decides is stated over
locations, lists of names from the top directory down. The operating system is a parameter:
`Os` carries the documented behaviour of the calls the sandbox makes, and every file system has
one (`Os.of`).
-/

namespace Lispico

namespace Lio

open List

/-- An entry of a directory; the dot names are none. -/
structure Name where
  chars : List Char
  entry : chars ∉ [[], ['.'], ['.', '.']]
  plain : '/' ∉ chars
deriving DecidableEq

abbrev Location := List Name

def spell (p : Location) : List Char := p.flatMap fun n => '/' :: n.chars

/-- The clean absolute path of a location. -/
def text : Location → String
  | [] => "/"
  | n :: p => String.ofList (spell (n :: p))

inductive Node where
  | file
  | dir
  -- A target's components are names, or `none` for the parent directory.
  | link (absolute : Bool) (target : List (Option Name))

abbrev FileSystem := Location → Option Node

/-- Following the components from `d`, through at most `k` links, ends at the last location. -/
inductive Walks (fs : FileSystem) : Nat → Location → List (Option Name) → Location → Prop
  | done k d : Walks fs k d [] d
  | up {k d cs q} : fs d = some .dir → Walks fs k d.dropLast cs q → Walks fs k d (none :: cs) q
  | into {k d c cs q} : fs d = some .dir → fs (d ++ [c]) ∈ [some .file, some .dir] →
      Walks fs k (d ++ [c]) cs q → Walks fs k d (some c :: cs) q
  | link {k d c cs absolute t q} : fs d = some .dir → fs (d ++ [c]) = some (.link absolute t) →
      Walks fs k (if absolute then [] else d) (t ++ cs) q → Walks fs (k + 1) d (some c :: cs) q

/-- What `filepath.EvalSymlinks` follows before it gives up on a chain of links. -/
def Leads (fs : FileSystem) (p q : Location) : Prop := Walks fs 255 [] (p.map some) q

/-- Following `p` reaches a directory `d` that has no entry `c`; `cs` would follow. -/
def Stops (fs : FileSystem) (p d : Location) (c : Name) (cs : Location) : Prop :=
  ∃ p₁, p = p₁ ++ c :: cs ∧ Leads fs p₁ d ∧ fs d = some .dir ∧ fs (d ++ [c]) = none

structure PathError where
  text : String
  isNotExist : Bool

structure Os (fs : FileSystem) where
  abs : String → Except String Location
  evalSymlinks : Location → Except PathError Location
  -- `Lstat` succeeds and reports a symlink.
  isLink : Location → Bool
  found p q : evalSymlinks p = .ok q ↔ Leads fs p q
  missing {p d c cs} : Stops fs p d c cs →
    isLink p = false ∧ ∃ e, evalSymlinks p = .error e ∧ e.isNotExist
  blocked {p d c e} : Leads fs p d → evalSymlinks (p ++ [c]) = .error e → e.isNotExist →
    fs d = some .dir ∧ (fs (d ++ [c]) = none ∨ isLink (d ++ [c]))

section

variable {fs : FileSystem} (os : Os fs)

def brokenSymlink (p : Location) : PathError := ⟨"broken symlink: " ++ text p, false⟩

/-- The loop of `resolveReal`: the path left to climb, innermost name first. -/
def climb (err : PathError) : Location → Location → Except PathError Location
  | [], _ => .error err
  | base :: above, suffix =>
    match os.evalSymlinks above.reverse with
    | .ok parent =>
      if os.isLink (parent ++ [base]) then .error (brokenSymlink (parent ++ [base]))
      else .ok (parent ++ base :: suffix)
    | .error perr =>
      if !perr.isNotExist then .error perr
      else if os.isLink above.reverse then .error (brokenSymlink above.reverse)
      else climb err above (base :: suffix)

def resolveReal (path : Location) : Except PathError Location :=
  match os.evalSymlinks path with
  | .ok resolved => .ok resolved
  | .error err => if !err.isNotExist then .error err else climb os err path.reverse []

def withinRoot (path root : String) : Bool :=
  path == root || (root ++ "/").toList.isPrefixOf path.toList

inductive SandboxMode where
  | strict
  | relaxed
  | none
deriving DecidableEq

/-- What `NewSandbox` asks of its host beside the resolution of paths. -/
structure SandboxHost where
  compile : String → Except String (String → Bool)
  getwd : Except String Location
  openRoot : Location → Except String Unit

structure Config where
  mode : SandboxMode
  rootDir : String
  allowRead : List String
  allowWrite : List String
  denyPattern : String

structure Sandbox where
  mode : SandboxMode
  allowRead : List String
  allowWrite : List String
  denyRegex : Option (String → Bool)
  rootDirAbs : Option Location

/-- The resolved and opened root directory. -/
def pinRoot (host : SandboxHost) (what : String) (abs : Location) : Except String Location := do
  let root ← (resolveReal os abs).mapError ("resolve " ++ what ++ ": " ++ ·.text)
  (host.openRoot root).mapError ("open root dir: " ++ ·)
  return root

def newSandbox (host : SandboxHost) (cfg : Config) : Except String Sandbox := do
  let s : Sandbox := ⟨cfg.mode, cfg.allowRead, cfg.allowWrite, none, none⟩
  if cfg.mode = .none then return s
  let denyRegex ←
    if cfg.denyPattern = "" then pure none
    else ((host.compile cfg.denyPattern).mapError ("invalid deny pattern: " ++ ·)).map some
  if cfg.rootDir ≠ "" then
    let abs ← (os.abs cfg.rootDir).mapError ("resolve root dir: " ++ ·)
    let root ← pinRoot os host "root dir" abs
    return { s with denyRegex := denyRegex, rootDirAbs := some root }
  else if cfg.mode = .strict then
    let cwd ← host.getwd.mapError ("get working directory: " ++ ·)
    let root ← pinRoot os host "working directory" cwd
    return { s with denyRegex := denyRegex, rootDirAbs := some root }
  else return { s with denyRegex := denyRegex }

/-- The directory whose real location becomes the root in strict mode. -/
def rootBase (host : SandboxHost) (cfg : Config) : Except String Location :=
  if cfg.rootDir = "" then host.getwd else os.abs cfg.rootDir

namespace Sandbox

def validateStrict (s : Sandbox) (path : String) : Except String String :=
  match s.rootDirAbs with
  | none => .error "strict mode requires root directory"
  | some root =>
    if !withinRoot path (text root) then .error ("path outside sandbox root: " ++ path)
    else .ok path

/-- An entry that has no absolute form is passed over. -/
def absAllowed (s : Sandbox) (write : Bool) : List Location :=
  (if write then s.allowWrite else s.allowRead).filterMap fun a => (os.abs a).toOption

def validateRelaxed (s : Sandbox) (path : String) (write : Bool) : Except String String :=
  if (s.absAllowed os write).any fun a => withinRoot path (text a) then .ok path
  else .error ((if write then "write" else "read") ++ " not allowed: " ++ path)

def cleanPath (path : String) : Except String Location :=
  match os.abs path with
  | .error e => .error ("resolve path: " ++ e)
  | .ok abs => (resolveReal os abs).mapError ("resolve symlink: " ++ ·.text)

def validate (s : Sandbox) (path : String) (write : Bool) : Except String String :=
  match s.mode with
  | .none => (os.abs path).map text
  | mode =>
    match cleanPath os path with
    | .error e => .error e
    | .ok real =>
      let cleanPath := text real
      if s.denyRegex.any (· cleanPath) then .error ("path denied by pattern: " ++ path)
      else
        match mode with
        | .strict => s.validateStrict cleanPath
        | _ => s.validateRelaxed os cleanPath write

/-- The directories the sandbox opens to a program. -/
def grants (s : Sandbox) (write : Bool) : List Location :=
  match s.mode with
  | .strict => s.rootDirAbs.toList
  | .relaxed => s.absAllowed os write
  | .none => []

end Sandbox

/-- Where a path leads once every link is followed; below the last directory that exists,
the names are taken as they are. -/
def Real (fs : FileSystem) (p real : Location) : Prop :=
  Leads fs p real ∨ ∃ d c cs, Stops fs p d c cs ∧ real = d ++ c :: cs

/-- The top directory contains nothing but itself: its text already ends in the separator,
and the test adds one more. -/
def Contains (root real : Location) : Prop :=
  real = root ∨ root ≠ [] ∧ root <+: real

end

/-! ## Real locations -/

section

variable {fs : FileSystem} {os : Os fs} {p q d real : Location}

/-- Every name on the way is an entry of a directory, and none is a link. -/
def Settled (fs : FileSystem) (p : Location) : Prop :=
  ∀ d c, d ++ [c] <+: p → fs d = some .dir ∧ fs (d ++ [c]) ∈ [some .file, some .dir]

theorem Walks.settled {k cs} (h : Walks fs k d cs q) (hd : Settled fs d) : Settled fs q := by
  induction h with
  | done => exact hd
  | @up _ d _ _ _ _ ih => exact ih fun b c hb => hd b c (hb.trans d.dropLast_prefix)
  | into hdir hn _ ih =>
    refine ih fun b c hb => ?_
    rcases prefix_concat_iff.mp hb with heq | hb
    · obtain ⟨rfl, rfl⟩ := append_inj' heq rfl |>.imp_right (by simpa using ·)
      exact ⟨hdir, hn⟩
    · exact hd b c hb
  | @link _ _ _ _ absolute _ _ _ _ _ ih =>
    refine ih ?_
    cases absolute
    · exact hd
    · intro b c hb
      simp at hb

theorem Settled.walks (k : Nat) (p : Location) :
    ∀ d, Settled fs (d ++ p) → Walks fs k d (p.map some) (d ++ p) := by
  induction p with
  | nil => exact fun d _ => by simpa using Walks.done k d
  | cons c p ih =>
    intro d h
    obtain ⟨hdir, hn⟩ := h d c ⟨p, by simp⟩
    have hrest := ih (d ++ [c]) (by simpa using h)
    exact .into hdir hn (by simpa using hrest)

/-- A location that a path leads to leads to itself. -/
theorem Leads.self (h : Leads fs p q) : Leads fs q q :=
  Settled.walks 255 q [] (h.settled fun _ _ hb => by simp at hb)

theorem Real.self (h : Real fs p real) : Real fs real real := by
  rcases h with h | ⟨d, c, cs, ⟨_, _, hd, hdir, hnone⟩, rfl⟩
  · exact .inl h.self
  · exact .inr ⟨d, c, cs, ⟨d, rfl, hd.self, hdir, hnone⟩, rfl⟩

-- The loop passes every longer part of the path, each of which stops at the same entry.
theorem climb_eq {err d c p₁} (hd : Leads fs p₁ d) (hdir : fs d = some .dir)
    (hnone : fs (d ++ [c]) = none) (cs suffix : Location) :
    climb os err (cs.reverse ++ c :: p₁.reverse) suffix = .ok (d ++ c :: cs ++ suffix) := by
  induction cs using reverseRecOn generalizing suffix with
  | nil =>
    have hchild : Stops fs (d ++ [c]) d c [] := ⟨d, rfl, hd.self, hdir, hnone⟩
    simp [climb, (os.found _ _).mpr hd, (os.missing hchild).1]
  | append_singleton cs n ih =>
    have hstop : Stops fs (p₁ ++ c :: cs) d c cs := ⟨p₁, rfl, hd, hdir, hnone⟩
    obtain ⟨hlink, e, he, hmiss⟩ := os.missing hstop
    simp [climb, he, hmiss, hlink, ih]

theorem climb_real {err e c above suffix} (he : os.evalSymlinks (above.reverse ++ [c]) = .error e)
    (hmiss : e.isNotExist) (h : climb os err (c :: above) suffix = .ok real) :
    Real fs (above.reverse ++ c :: suffix) real := by
  induction above generalizing c suffix e with
  | nil | cons b above ih =>
    rw [climb] at h
    split at h
    · next d hd =>
      split_ifs at h with hlink
      cases h
      have hd := (os.found _ d).mp hd
      obtain ⟨hdir, hnone⟩ := os.blocked hd he hmiss
      exact .inr ⟨d, c, suffix, ⟨_, rfl, hd, hdir, hnone.resolve_right hlink⟩, rfl⟩
    · next e he =>
      split_ifs at h with hmiss
      first
      | cases h
      | simpa using ih (by simpa using he) (by simpa using hmiss) h

theorem resolveReal_eq_ok (os : Os fs) : resolveReal os p = .ok real ↔ Real fs p real := by
  constructor
  · intro h
    rw [resolveReal] at h
    split at h
    · next q hq => exact .inl ((os.found p real).mp (h ▸ hq))
    · next e he =>
      split_ifs at h with hmiss
      cases p using reverseRecOn with
      | nil => cases h
      | append_singleton p c =>
        rw [reverse_append] at h
        simpa using climb_real (by simpa using he) (by simpa using hmiss) h
  · rintro (h | ⟨d, c, cs, hstop, rfl⟩)
    · simp [resolveReal, (os.found p real).mpr h]
    · obtain ⟨_, e, he, hmiss⟩ := os.missing hstop
      obtain ⟨p₁, rfl, hd, hdir, hnone⟩ := hstop
      simpa [resolveReal, he, hmiss] using climb_eq hd hdir hnone cs []

/-! ## A system for every file system -/

section

variable (fs : FileSystem)

/-- The way along components, with `follow` for what comes after a link. -/
def walkWith (follow : Location → List (Option Name) → Except PathError Location) :
    Location → List (Option Name) → Except PathError Location
  | d, [] => .ok d
  | d, c :: cs =>
    match fs d, c with
    | some .dir, none => walkWith follow d.dropLast cs
    | some .dir, some c =>
      match fs (d ++ [c]) with
      | none => .error ⟨"no such file or directory", true⟩
      | some (.link absolute target) => follow (if absolute then [] else d) (target ++ cs)
      | some _ => walkWith follow (d ++ [c]) cs
    | _, _ => .error ⟨"not a directory", false⟩

def walk : Nat → Location → List (Option Name) → Except PathError Location
  | 0 => walkWith fs fun _ _ => .error ⟨"too many links", false⟩
  | k + 1 => walkWith fs (walk k)

/-- `Lstat` follows all but the last name. -/
def lstatLink (p : Location) : Bool :=
  match walk fs 255 [] (p.dropLast.map some), p.getLast? with
  | .ok d, some c =>
    match fs d, fs (d ++ [c]) with
    | some .dir, some (.link _ _) => true
    | _, _ => false
  | _, _ => false

variable {fs} {k : Nat} {d q : Location} {cs : List (Option Name)}

theorem walk_of_walks (h : Walks fs k d cs q) (rest : List (Option Name)) :
    ∃ k', walk fs k d (cs ++ rest) = walk fs k' q rest := by
  induction h with
  | done k d => exact ⟨k, rfl⟩
  | @up k d cs q hd _ ih =>
    obtain ⟨k', ih⟩ := ih
    refine ⟨k', .trans ?_ ih⟩
    cases k <;> simp [walk, walkWith, hd]
  | @into k d c cs q hd hc _ ih =>
    obtain ⟨k', ih⟩ := ih
    refine ⟨k', .trans ?_ ih⟩
    simp only [mem_cons, not_mem_nil, or_false] at hc
    rcases hc with hc | hc <;> cases k <;> simp [walk, walkWith, hd, hc]
  | @link k d c cs absolute target q hd hc _ ih =>
    obtain ⟨k', ih⟩ := ih
    refine ⟨k', .trans ?_ ih⟩
    simp [walk, walkWith, hd, hc]

theorem walks_of_walkWith {follow : Location → List (Option Name) → Except PathError Location}
    (hfollow : ∀ d cs, follow d cs = .ok q → ∃ k', k = k' + 1 ∧ Walks fs k' d cs q)
    (h : walkWith fs follow d cs = .ok q) : Walks fs k d cs q := by
  induction cs generalizing d with
  | nil =>
    cases h
    exact .done _ _
  | cons c cs ih =>
    unfold walkWith at h
    split at h
    · next hd => exact .up hd (ih h)
    · next c hd =>
      split at h
      · cases h
      · next hc =>
        obtain ⟨k', rfl, hwalks⟩ := hfollow _ _ h
        exact .link hd hc hwalks
      · next node hlink hc =>
        refine .into hd ?_ (ih h)
        cases node with
        | link absolute target => exact absurd rfl (hlink absolute target)
        | _ => simp [hc]
    · cases h

theorem walk_eq_ok : walk fs k d cs = .ok q ↔ Walks fs k d cs q := by
  constructor
  · induction k generalizing d cs with
    | zero => exact walks_of_walkWith fun _ _ h => by cases h
    | succ k ih => exact walks_of_walkWith fun _ _ h => ⟨k, rfl, ih h⟩
  · intro h
    obtain ⟨k', hend⟩ := walk_of_walks h []
    rw [append_nil] at hend
    cases k' <;> exact hend

theorem walk_missing {c : Name} (hd : fs d = some .dir) (hc : fs (d ++ [c]) = none) :
    walk fs k d (some c :: cs) = .error ⟨"no such file or directory", true⟩ := by
  cases k <;> simp [walk, walkWith, hd, hc]

theorem lstatLink_of_error {e : PathError} {p : Location}
    (h : walk fs 255 [] (p.dropLast.map some) = .error e) : lstatLink fs p = false := by
  rw [lstatLink, h]

theorem lstatLink_of_ok {p : Location} {c : Name} (h : walk fs 255 [] (p.map some) = .ok d) :
    lstatLink fs (p ++ [c]) = match fs d, fs (d ++ [c]) with
      | some .dir, some (.link _ _) => true
      | _, _ => false := by
  rw [lstatLink, dropLast_concat, h, getLast?_concat]

theorem walk_of_leads {p : Location} (h : Leads fs p d) (rest : Location) :
    ∃ k, walk fs 255 [] ((p ++ rest).map some) = walk fs k d (rest.map some) := by
  rw [map_append]
  exact walk_of_walks h _

end

/-- The system that walks the file system. -/
def Os.of (fs : FileSystem) (abs : String → Except String Location) : Os fs where
  abs := abs
  evalSymlinks p := walk fs 255 [] (p.map some)
  isLink := lstatLink fs
  found p q := walk_eq_ok
  missing {p d c cs} h := by
    obtain ⟨p₁, rfl, hlead, hd, hc⟩ := h
    obtain ⟨k, hk⟩ := walk_of_leads hlead (c :: cs)
    refine ⟨?_, _, hk.trans (walk_missing hd hc), rfl⟩
    cases cs using reverseRecOn with
    | nil => rw [lstatLink_of_ok (walk_eq_ok.2 hlead), hd, hc]
    | append_singleton cs n =>
      obtain ⟨k, hk⟩ := walk_of_leads hlead (c :: cs)
      refine lstatLink_of_error (.trans ?_ (hk.trans (walk_missing hd hc)))
      rw [← cons_append, ← append_assoc, dropLast_concat]
  blocked {p d c e} hlead herr hmiss := by
    obtain ⟨k, hk⟩ := walk_of_leads hlead [c]
    rw [hk] at herr
    cases hd : fs d with
    | none => cases k <;> (simp [walk, walkWith, hd] at herr; simp [← herr] at hmiss)
    | some node =>
      cases node with
      | dir =>
        refine ⟨rfl, ?_⟩
        cases hc : fs (d ++ [c]) with
        | none => exact .inl rfl
        | some node =>
          cases node with
          | link absolute target =>
            rw [lstatLink_of_ok (walk_eq_ok.2 hlead.self), hd, hc]
            exact .inr rfl
          | _ => cases k <;> simp [walk, walkWith, hd, hc] at herr
      | _ => cases k <;> (simp [walk, walkWith, hd] at herr; simp [← herr] at hmiss)

/-! ## Texts and locations -/

theorem append_slash_prefix {a b x y : List Char} (ha : '/' ∉ a) (hb : '/' ∉ b) :
    a ++ '/' :: x <+: b ++ '/' :: y ↔ a = b ∧ x <+: y := by
  induction a generalizing b <;> cases b <;> simp_all [cons_prefix_cons] <;> grind

theorem spell_slash (p : Location) : ∃ x, spell p ++ ['/'] = '/' :: x := by
  cases p <;> simp [spell]

theorem spell_prefix (root p : Location) :
    spell root ++ ['/'] <+: spell p ++ ['/'] ↔ root <+: p := by
  induction root generalizing p with
  | nil =>
    obtain ⟨x, hx⟩ := spell_slash p
    rw [hx]
    simp [spell]
  | cons n root ih =>
    obtain ⟨x, hx⟩ := spell_slash root
    cases p with
    | nil => simp [spell, cons_prefix_cons]
    | cons m p =>
      obtain ⟨y, hy⟩ := spell_slash p
      have hrest := ih p
      rw [hx, hy, cons_prefix_cons] at hrest
      have hnames : n.chars = m.chars ↔ n = m := by cases n; cases m; simp
      simp only [spell, flatMap_cons, cons_append, append_assoc, cons_prefix_cons, true_and]
      rw [← spell, ← spell, hx, hy, append_slash_prefix n.plain m.plain, hnames]
      simpa using fun _ => hrest

theorem Name.nonempty (n : Name) : n.chars ≠ [] := fun h => n.entry (by simp [h])

theorem withinRoot_text (p root : Location) :
    withinRoot (text p) (text root) ↔ Contains root p := by
  cases root with
  | nil =>
    cases p with
    | nil => simp [withinRoot, Contains]
    | cons m p =>
      obtain ⟨c, cs, hm⟩ := exists_cons_of_ne_nil m.nonempty
      have hc : '/' ≠ c := fun h => m.plain (by simp [hm, ← h])
      simp [withinRoot, Contains, text, spell, hm, hc, String.ext_iff, cons_prefix_cons]
  | cons n root =>
    have hend := spell_prefix (n :: root) p
    rw [prefix_concat_iff, append_left_inj] at hend
    cases p with
    | nil => simp [withinRoot, Contains, text, spell, n.nonempty, String.ext_iff]
    | cons m p =>
      rw [eq_comm] at hend
      have hself : m :: p = n :: root → n :: root <+: m :: p := fun h => h ▸ prefix_rfl
      simpa [withinRoot, Contains, text, String.ext_iff, hend] using hself

namespace Sandbox

variable {s : Sandbox} {path t : String} {write : Bool}

theorem validate_of_cleanPath (write : Bool) (hmode : s.mode ≠ .none)
    (hclean : cleanPath os path = .ok real) : ∃ e, s.validate os path write =
      if !s.denyRegex.any (· (text real)) &&
        (s.grants os write).any (fun root => withinRoot (text real) (text root))
      then .ok (text real) else .error e := by
  cases hdeny : s.denyRegex.any (· (text real)) with
  | true => exact ⟨"path denied by pattern: " ++ path, by simp [validate, hclean, hdeny]⟩
  | false =>
    cases hm : s.mode with
    | none => exact absurd hm hmode
    | strict =>
      cases hr : s.rootDirAbs with
      | none => simp [validate, validateStrict, grants, hm, hclean, hdeny, hr]
      | some root =>
        cases hw : withinRoot (text real) (text root) <;>
          simp [validate, validateStrict, grants, hm, hclean, hdeny, hr, hw]
    | relaxed => exact ⟨_, by simp [validate, validateRelaxed, grants, hm, hclean, hdeny]; rfl⟩

theorem cleanPath_eq_ok (habs : os.abs path = .ok p) (hreal : Real fs p real) :
    cleanPath os path = .ok real := by
  simp [cleanPath, habs, (resolveReal_eq_ok os).mpr hreal, Except.mapError]

/-! ## A shared directory -/

def srv : Name := ⟨['s', 'r', 'v'], by decide, by decide⟩

def data : Name := ⟨['d', 'a', 't', 'a'], by decide, by decide⟩

def inbox : Name := ⟨['i', 'n'], by decide, by decide⟩

def gone : Name := ⟨['g', 'o', 'n', 'e'], by decide, by decide⟩

def new : Name := ⟨['n', 'e', 'w'], by decide, by decide⟩

def key : Name := ⟨['k', 'e', 'y'], by decide, by decide⟩

/-- `/srv/in` is a link to the directory `/srv/data`, and `/srv/gone` leads nowhere. -/
def shared (p : Location) : Option Node :=
  if p ∈ [[], [srv], [srv, data]] then some .dir
  else if p = [srv, inbox] then some (.link false [some data])
  else if p = [srv, gone] then some (.link true [some gone])
  else none

/-- Those of its paths that are asked for, as `filepath.Abs` takes them apart. -/
def office : Os shared := .of shared fun path =>
  match [("/", []), ("/srv", [srv]), ("/srv/data", [srv, data]), ("/srv/in/new", [srv, inbox, new]),
    ("/srv/data/new", [srv, data, new]), ("/srv/in/key", [srv, inbox, key]),
    ("/srv/gone/new", [srv, gone, new])].lookup path with
  | some p => .ok p
  | none => .error "not asked for"

/-- Reads below `/srv/data` are allowed, except of a key. -/
def guarded : Sandbox := ⟨.relaxed, ["/srv/data"], [], some (· == "/srv/data/key"), none⟩

theorem real_below_inbox (c : Name) (hc : shared [srv, data, c] = none) :
    Real shared [srv, inbox, c] [srv, data, c] :=
  .inr ⟨[srv, data], c, [], ⟨[srv, inbox], rfl, walk_eq_ok.1 rfl, rfl, hc⟩, rfl⟩

theorem not_real_below_gone (real : Location) : ¬ Real shared [srv, gone, new] real := by
  intro h
  have hok := (resolveReal_eq_ok office).2 h
  cases (show Except.error (brokenSymlink [srv, gone]) = _ from hok)

/-- The sandbox hands out exactly the real locations inside the directories it opens. -/
theorem validate_eq_ok (hmode : s.mode ≠ .none) (habs : os.abs path = .ok p) :
    s.validate os path write = .ok t ↔ ∃ real, Real fs p real ∧ t = text real ∧
      (∀ deny ∈ s.denyRegex, deny t = false) ∧ ∃ root ∈ s.grants os write, Contains root real := by
  simp only [← resolveReal_eq_ok os]
  cases hreal : resolveReal os p with
  | error e =>
    simp only [validate, cleanPath, habs, hreal, Except.mapError]
    simp
  | ok real =>
    have hclean := cleanPath_eq_ok habs ((resolveReal_eq_ok os).mp hreal)
    obtain ⟨e, hverdict⟩ := validate_of_cleanPath write hmode hclean
    rw [hverdict]
    cases s.denyRegex <;> simp [← withinRoot_text] <;> grind

/-- A path through a link is accepted below an allowed directory, unless the pattern denies
where it leads; one through a dangling link is refused. -/
theorem validate_eq_ok_shared :
    guarded.validate office "/srv/in/new" false = .ok "/srv/data/new" ∧
      (∀ t, guarded.validate office "/srv/in/key" false ≠ .ok t) ∧
      ∀ t, guarded.validate office "/srv/gone/new" false ≠ .ok t := by
  refine ⟨?_, fun t h => ?_, fun t h => ?_⟩
  · refine (validate_eq_ok (p := [srv, inbox, new]) (by decide) rfl).2
      ⟨[srv, data, new], real_below_inbox new rfl, rfl, ?_, [srv, data], ?_, ?_⟩
    · rintro _ ⟨⟩
      rfl
    · exact mem_singleton_self _
    · exact .inr ⟨by simp, [new], rfl⟩
  · obtain ⟨real, hreal, rfl, hdeny, -⟩ :=
      (validate_eq_ok (p := [srv, inbox, key]) (by decide) rfl).1 h
    have hkey := (resolveReal_eq_ok office).2 (real_below_inbox key rfl)
    cases hkey.symm.trans ((resolveReal_eq_ok office).2 hreal)
    cases hdeny _ rfl
  · obtain ⟨real, hreal, -⟩ := (validate_eq_ok (p := [srv, gone, new]) (by decide) rfl).1 h
    exact not_real_below_gone real hreal

/-- Links in a path decide nothing: its real location is accepted exactly when it is. -/
theorem validate_real {path' : String} (hmode : s.mode ≠ .none) (habs : os.abs path = .ok p)
    (hreal : Real fs p real) (habs' : os.abs path' = .ok real) :
    s.validate os path' write = .ok t ↔ s.validate os path write = .ok t := by
  obtain ⟨e, h⟩ := validate_of_cleanPath write hmode (cleanPath_eq_ok habs hreal)
  obtain ⟨e', h'⟩ := validate_of_cleanPath write hmode (cleanPath_eq_ok habs' hreal.self)
  rw [h, h']
  split <;> simp

/-- The path through the link and the one to where it leads. -/
theorem validate_real_shared :
    guarded.validate office "/srv/data/new" false = .ok "/srv/data/new" ↔
      guarded.validate office "/srv/in/new" false = .ok "/srv/data/new" :=
  validate_real (p := [srv, inbox, new]) (by decide) rfl (real_below_inbox new rfl) rfl

theorem newSandbox_strict {host : SandboxHost} {cfg : Config} {r root : Location}
    (hnew : newSandbox os host cfg = .ok s) (hmode : cfg.mode = .strict)
    (hdeny : cfg.denyPattern = "") (hbase : rootBase os host cfg = .ok r)
    (hroot : Real fs r root) :
    s = ⟨.strict, cfg.allowRead, cfg.allowWrite, none, some root⟩ := by
  have hpin : ∀ what found, pinRoot os host what r = .ok found → found = root := by
    intro what found h
    rw [pinRoot, (resolveReal_eq_ok os).2 hroot] at h
    cases hopen : host.openRoot root with
    | error e => simp [Except.mapError, hopen, bind, Except.bind] at h
    | ok u => simpa [Except.mapError, hopen, bind, Except.bind, pure, Except.pure, eq_comm] using h
  rw [newSandbox] at hnew
  rw [rootBase] at hbase
  by_cases hdir : cfg.rootDir = ""
  all_goals
    simp only [hdir, if_true, if_false] at hbase
    simp [hmode, hdeny, hdir, hbase, Except.mapError, bind, Except.bind, pure, Except.pure] at hnew
    split at hnew
    · cases hnew
    · next found hfound =>
      cases hnew
      rw [hpin _ found hfound]

theorem contains_iff_prefix (root real : Location) :
    (Contains root real ↔ root <+: real) ↔ (root ≠ [] ∨ real = root) := by
  unfold Contains
  by_cases htop : root = []
  · subst htop
    simp
  · have hself : real = root → root <+: real := fun h => h ▸ prefix_rfl
    simpa [htop] using hself

theorem verdict_iff {x e : String} {b : Bool} {P : Prop} :
    (∀ t, (if b then Except.ok x else .error e) = .ok t ↔ t = x ∧ P) ↔ (b = true ↔ P) := by
  cases b <;> simp [eq_comm]

/-- In strict mode a path is accepted exactly when its real location is the root's or lies below
it, exactly if the root is not the top directory or is that location. -/
theorem strict_containment_iff {host : SandboxHost} {cfg : Config} {r root : Location}
    (hnew : newSandbox os host cfg = .ok s) (hmode : cfg.mode = .strict)
    (hdeny : cfg.denyPattern = "") (hbase : rootBase os host cfg = .ok r)
    (hroot : Real fs r root) (habs : os.abs path = .ok p) (hreal : Real fs p real) :
    (∀ t, s.validate os path write = .ok t ↔ t = text real ∧ root <+: real) ↔
      (root ≠ [] ∨ real = root) := by
  obtain rfl := newSandbox_strict hnew hmode hdeny hbase hroot
  obtain ⟨e, hverdict⟩ := validate_of_cleanPath (s := ⟨.strict, cfg.allowRead, cfg.allowWrite, none,
    some root⟩) write (by simp) (cleanPath_eq_ok habs hreal)
  rw [hverdict, verdict_iff, ← contains_iff_prefix, ← withinRoot_text]
  simp [grants]

def opened : SandboxHost := ⟨fun _ => .error "no pattern", .ok [], fun _ => .ok ()⟩

/-- With a proper root a file to be written through the link is accepted. -/
theorem strict_containment_iff_shared :
    (⟨.strict, [], [], none, some [srv]⟩ : Sandbox).validate office "/srv/in/new" true =
      .ok "/srv/data/new" :=
  ((strict_containment_iff (s := ⟨.strict, [], [], none, some [srv]⟩) (r := [srv])
    (show newSandbox office opened ⟨.strict, "/srv", [], [], ""⟩ = _ from rfl) rfl rfl rfl
    (.inl (walk_eq_ok.1 rfl)) rfl (real_below_inbox new rfl)).2 (.inl (by simp)) _).2
    ⟨rfl, [data, new], rfl⟩

/-- The root is the top directory, and everything below it is refused. -/
theorem top_root_refuses_below : ∃ s : Sandbox,
    newSandbox office opened ⟨.strict, "/", [], [], ""⟩ = .ok s ∧
      s.validate office "/srv/data" false = .error "path outside sandbox root: /srv/data" ∧
      Real shared [srv, data] [srv, data] ∧ s.rootDirAbs = some [] ∧
      ([] : Location) <+: [srv, data] :=
  ⟨_, rfl, rfl, .inl (walk_eq_ok.1 rfl), rfl, nil_prefix⟩

end Sandbox

end

end Lio

end Lispico
