import Lispico.Core.Equality
import Lispico.Core.EvalRules
import Lispico.Core.MacroExpand

/-!
# Rebinding a macro

`BindMacro` leaves the macro epoch, and with it every chunk compiled before, when the macro it
binds is taken for the one already bound. The comparison looks into both cells of a scope and
compares bodies by `Equals`, which does not tell the zeros apart. A binding clears the canonical
flag of its cell, which no expansion looks at.
-/

namespace Lispico

namespace Core

open Lib

namespace Store

/-- The value of a name in a scope: the function cell comes before the value cell. -/
def boundAt (st : Store) (name : String) (scope : Nat) : Option Value :=
  match (st.localFunc scope name).bind fun c => st.cells[c]? with
  | some cell => some cell.v
  | none => ((st.localCell scope name).bind fun c => st.cells[c]?).map VarCell.v

def lookupBoundMacro (st : Store) (env : List Nat) (name : String) : Option MacroParts :=
  (env.findSome? (st.boundAt name)).bind asMacro

def macroRebindIsIdentical (st : Store) (env : List Nat) (name : String) (m : MacroParts) :
    Bool :=
  match st.lookupBoundMacro env name with
  | none => false
  | some pm =>
    pm.name == m.name && pm.env == m.env && pm.variadic == m.variadic
      && pm.params.length == m.params.length && pm.body.length == m.body.length
      && pm.params == m.params && (pm.body.zip m.body).all fun p => p.1.equals p.2

/-- The cell through which a dialect binds an operator in a scope. -/
def operatorCell (st : Store) (d : Dialect) (scope : Nat) (name : String) : Option Nat :=
  if d.lisp2 then st.localFunc scope name else st.localCell scope name

end Store

def MacroParts.value (m : MacroParts) : Value :=
  .macroVal m.name m.params m.variadic m.body m.env

section

variable {σ : Type} (E : Engine σ)

/-- `BindMacro` on a world and the macro epoch of its environment. -/
def bindMacroEpoch (env : List Nat) (name : String) (m : MacroParts) :
    Comp (World σ × Int64) GoErr Unit := fun (w, epoch) =>
  (bindMacro E env name m.value w).map fun
    | (.ok (), w') =>
      (.ok (), w', if w.store.macroRebindIsIdentical env name m then epoch else epoch + 1)
    | (.error err, w') => (.error err, w', epoch)

variable (app : Value → List Value → List Nat → EvalM σ Value)

def resolveHead (env : List Nat) (name : String) : EvalM σ (Option Value) :=
  if E.dialect.lisp2 then getFuncVar env name else getVar env name

/-- `MacroExpand` of an engine whose expanders run in the evaluator. -/
def Engine.macroExpand (n : Nat) (form : Value) (env : List Nat) : EvalM σ Value :=
  Core.macroExpand E.dialect (resolveHead E env) (expandMacroForm E (eval E app n)) n form

def Engine.macroExpandDeep (n : Nat) (form : Value) (env : List Nat) : EvalM σ Value :=
  Core.macroExpandDeep E.dialect (resolveHead E env) (expandMacroForm E (eval E app n)) n form

end

namespace EvalRules

variable {σ : Type} {E : Engine σ} {T : {α : Type} → EvalM σ α → Prop}
  (R : EvalRules E (fun m => T m)) {d : Dialect} {look : String → EvalM σ (Option Value)}
  {expander : MacroParts → List Value → EvalM σ Value} (hlook : ∀ name, T (look name))
  (hexpander : ∀ m args, T (expander m args))
  {deep : Value → List String → Nat → EvalM σ Value}
  (hdeep : ∀ v locals depth, T (deep v locals depth)) (items : List Value) (locals : List String)
  (n depth : Nat)

include R

section

include hlook hexpander

theorem macroExpand_holds (form : Value) : T (macroExpand d look expander n form) := by
  induction n generalizing form with
  | zero => exact R.diverge
  | succ n ih =>
    unfold macroExpand
    split
    · refine ite_holds (R.ret _) (R.bind (hlook _) fun fn => ?_)
      split
      · exact R.bind (hexpander _ _) fun expanded => ih expanded
      · exact R.ret _
    · exact R.ret _

end

theorem expandPairs_holds {expand : Value → EvalM σ Value} (hexpand : ∀ v, T (expand v))
    (out pairs : List (Value × Value)) : T (expandPairs expand out pairs) := by
  induction pairs generalizing out with
  | nil => exact R.ret out
  | cons pair pairs ih =>
    refine R.bind (hexpand _) fun k => R.bind (hexpand _) fun v => ?_
    split
    · exact ih _
    · exact R.fail _

include hdeep

theorem expandDeepFrom_holds (skip : Nat) : T (expandDeepFrom deep items locals depth skip) :=
  R.bind (R.each (fun _ => hdeep _ _ _) _) fun _ => R.ret _

theorem expandLetBindings_holds (bindings : List (String × Value)) :
    T (expandLetBindings deep depth locals bindings) := by
  induction bindings generalizing locals with
  | nil => exact R.ret []
  | cons b bindings ih => exact R.bind (hdeep _ _ _) fun x => R.bind (ih _) fun rest => R.ret _

theorem expandScoped_holds (head raw : Value) (bindings : List (String × Value))
    (body : List Value) : T (expandScoped deep head raw bindings body locals depth) :=
  R.bind (R.each (fun _ => hdeep _ _ _) _) fun _ => R.ret _

theorem expandDeepLet_holds : T (expandDeepLet deep items locals depth) := by
  unfold expandDeepLet
  split
  · split
    · exact R.ret _
    · exact R.bind (R.expandLetBindings_holds hdeep _ _ _) fun _ =>
        R.expandScoped_holds hdeep _ _ _ _ _ _
  · exact R.ret _

theorem expandDeepLoop_holds : T (expandDeepLoop deep items locals depth) := by
  unfold expandDeepLoop
  split
  · split
    · exact R.ret _
    · refine R.bind (R.each (fun b => ?_) _) fun _ => R.expandScoped_holds hdeep _ _ _ _ _ _
      exact R.bind (hdeep _ _ _) fun x => R.ret _
  · exact R.ret _

theorem expandCatch_holds (clause : Value) : T (expandCatch deep locals depth clause) := by
  unfold expandCatch
  split
  · dsimp only
    split
    · exact R.expandDeepFrom_holds hdeep _ _ _ _
    · exact R.expandDeepFrom_holds hdeep _ _ _ _
    · exact R.ret _
  · exact R.ret _

theorem expandDeepTry_holds : T (expandDeepTry deep items locals depth) := by
  unfold expandDeepTry
  split
  · exact R.bind (R.each (fun _ => hdeep _ _ _) _) fun _ =>
      R.bind (R.expandCatch_holds hdeep _ _ _) fun _ => R.ret _
  · exact R.ret _

theorem expandDeepTemplate_holds (v : Value) : T (expandDeepTemplate deep locals n v depth) := by
  induction n generalizing v depth with
  | zero => exact R.diverge
  | succ n ih =>
    have hitems (items : List Value) : T (templateItems
        (fun item => expandDeepTemplate deep locals n item (depth + 1)) items) :=
      R.bind (R.each (fun _ => ih _ _) _) fun _ => R.ret _
    unfold expandDeepTemplate
    refine ite_holds (R.fail _) ?_
    split
    · refine ite_holds ?_ (hitems _)
      split
      · exact R.bind (hdeep _ _ _) fun _ => R.ret _
      · exact R.ret _
    · exact hitems _
    · exact R.bind (R.each (fun _ => ih _ _) _) fun _ => R.ret _
    · exact R.bind (R.expandPairs_holds (fun _ => ih _ _) _ _) fun _ => R.ret _
    · exact R.ret _

theorem expandDeepForm_holds (form : Form) :
    T (expandDeepForm deep n form items locals depth) := by
  unfold expandDeepForm
  split
  case h_6 | h_7 =>
    split
    · exact R.expandDeepFrom_holds hdeep _ _ _ _
    · exact R.ret _
  case h_12 =>
    split
    · exact R.bind (R.expandDeepTemplate_holds hdeep _ _ _ _) fun _ => R.ret _
    · exact R.ret _
  case h_8 | h_9 => exact R.expandDeepLet_holds hdeep _ _ _
  case h_10 => exact R.expandDeepLoop_holds hdeep _ _ _
  case h_11 => exact R.expandDeepTry_holds hdeep _ _ _
  case h_4 | h_5 | h_13 => exact R.expandDeepFrom_holds hdeep _ _ _ _
  all_goals exact R.ret _

include hlook hexpander

theorem expandDeepNode_holds (form : Value) :
    T (expandDeepNode d look expander deep n form locals depth) := by
  unfold expandDeepNode
  split
  · exact R.ret _
  · refine ite_holds (R.fail _) ?_
    unfold expandDeepList
    split
    · split
      · exact R.expandDeepForm_holds hdeep _ _ _ _ _
      · refine ite_holds (R.expandDeepFrom_holds hdeep _ _ _ _) (R.bind (hlook _) fun fn => ?_)
        refine ite_holds (R.bind (R.macroExpand_holds hlook hexpander _ _) fun _ => hdeep _ _ _) ?_
        exact R.expandDeepFrom_holds hdeep _ _ _ _
    · exact R.expandDeepFrom_holds hdeep _ _ _ _
  · exact R.bind (R.each (fun _ => hdeep _ _ _) _) fun _ => R.ret _
  · exact R.bind (R.expandPairs_holds (fun _ => hdeep _ _ _) _ _) fun _ => R.ret _
  · exact R.ret _

omit hdeep in
theorem macroExpandDeep_holds (form : Value) : T (macroExpandDeep d look expander n form) := by
  have hdeep : ∀ v locals depth, T (expandDeep d look expander n v locals depth) := by
    induction n with
    | zero => exact fun _ _ _ => R.diverge
    | succ n ih =>
      exact fun v locals depth => R.expandDeepNode_holds hlook hexpander ih locals n depth v
  exact R.bind (R.macroExpand_holds hlook hexpander n form) fun _ => hdeep _ _ _

end EvalRules

/-! ## The canonical flag -/

def Store.unflag (c : Nat) (st : Store) : Store :=
  { st with cells := st.cells.modify c fun cell => { cell with canonical := false } }

def World.unflag {σ : Type} (c : Nat) (w : World σ) : World σ :=
  { w with store := w.store.unflag c }

namespace Store

variable (c : Nat) (st : Store) (scope : Nat) (env : List Nat) (name : String) (v : Value)

theorem unflag_value (i : Nat) :
    ((st.unflag c).cells[i]?).map VarCell.v = (st.cells[i]?).map VarCell.v := by
  rw [unflag, List.getElem?_modify]
  cases st.cells[i]? with
  | none => rfl
  | some cell => by_cases h : c = i <;> simp [h]

theorem get_unflag : (st.unflag c).get env name = st.get env name := by
  simp only [get, unflag_value]
  rfl

theorem getFunc_unflag : (st.unflag c).getFunc env name = st.getFunc env name := by
  simp only [getFunc, getFuncCanonical, Option.map_bind]
  simp only [Function.comp_def, unflag_value]
  rfl

theorem set_modify (cells : List VarCell) (i : Nat) :
    (cells.set i ⟨v, false⟩).modify c (fun cell => { cell with canonical := false }) =
      (cells.modify c fun cell => { cell with canonical := false }).set i ⟨v, false⟩ := by
  refine List.ext_getElem? fun k => ?_
  simp only [List.getElem?_modify, List.getElem?_set, List.length_modify]
  split_ifs <;> simp [*]

theorem append_modify (cells : List VarCell) :
    (cells ++ [(⟨v, false⟩ : VarCell)]).modify c (fun cell => { cell with canonical := false }) =
      (cells.modify c fun cell => { cell with canonical := false }) ++ [⟨v, false⟩] := by
  refine List.ext_getElem? fun k => ?_
  simp only [List.getElem?_modify, List.getElem?_append, List.length_modify]
  split_ifs <;> simp [List.getElem?_singleton]

theorem set_unflag : (st.set scope name v).unflag c = (st.unflag c).set scope name v := by
  unfold set
  rw [show (st.unflag c).localCell scope name = st.localCell scope name from rfl]
  cases st.localCell scope name <;> simp [unflag, set_modify, append_modify]

theorem setFunc_unflag :
    (st.setFunc scope name v).unflag c = (st.unflag c).setFunc scope name v := by
  unfold setFunc
  rw [show (st.unflag c).localFunc scope name = st.localFunc scope name from rfl]
  cases st.localFunc scope name <;> simp [unflag, set_modify, append_modify]

theorem bindAll_unflag (bindings : List (String × Value)) :
    (st.bindAll scope bindings).unflag c = (st.unflag c).bindAll scope bindings := by
  induction bindings generalizing st with
  | nil => rfl
  | cons b bindings ih => rw [bindAll, ih, set_unflag, bindAll]

end Store

/-- The evaluator does not look at the canonical flag. -/
theorem evalRules_unflag {σ : Type} (E : Engine σ) (c : Nat) :
    EvalRules E fun m => Comp.Over (World.unflag c) m m where
  ret _ _ := rfl
  fail _ _ := rfl
  diverge _ := rfl
  bind hm hf := hm.bind hf
  attempt hm := hm.attempt
  read hf hsame w := by
    rw [Comp.bind_of_ok _ (Comp.read_apply w), Comp.bind_of_ok _ (Comp.read_apply _),
      hsame (w.unflag c) w rfl rfl]
    exact hf w w
  inLoop {_ m} hm w := by
    rw [Comp.within, Comp.within, show (w.unflag c).enterLoop = w.enterLoop.unflag c from rfl,
      ← hm w.enterLoop]
    rcases m w.enterLoop with _ | ⟨_, _⟩ <;> rfl
  inMacro {_ m} hm w := by
    rw [Comp.within, Comp.within, show (w.unflag c).deeper = w.deeper.unflag c from rfl,
      ← hm w.deeper]
    rcases m w.deeper with _ | ⟨_, _⟩ <;> rfl
  pollCancel w := by
    unfold Engine.pollCancel
    rw [show (w.unflag c).host = w.host from rfl]
    rcases E.poll w.host with ⟨_ | _, _⟩ <;> rfl
  getVar env name w := by simp [getVar, World.unflag, Store.get_unflag]
  getFuncVar env name w := by simp [getFuncVar, World.unflag, Store.getFunc_unflag]
  findVar _ _ _ := rfl
  setVar scope name v w := by simp [setVar, World.unflag, Store.set_unflag]
  setFuncVar scope name v w := by simp [setFuncVar, World.unflag, Store.setFunc_unflag]
  replaceVar scope name v w := by
    simp [replaceVar, World.unflag, Store.replaceCell, Store.unflag, Store.append_modify]
  childEnv _ _ := rfl
  forkEnv env parent names w := by
    have hvars : (w.store.unflag c).forkVars (here env) names =
        w.store.forkVars (here env) names := by
      induction names with
      | nil => rfl
      | cons name names ih =>
        simp only [Store.forkVars, ih]
        rfl
    simp only [forkEnv, Comp.step_apply, Store.forkCells, World.unflag, hvars]
    rfl
  setAll scope bindings w := by simp [setAll, World.unflag, Store.bindAll_unflag]
  noteCaught _ _ _ := rfl

section

variable {st : Store} {env : List Nat} {name : String} {m pm : MacroParts} {v : Value}

/-- A macro found to be identical is the same value, if the bodies hold the same. -/
theorem value_eq_of_identical (hpm : st.lookupBoundMacro env name = some pm)
    (hid : st.macroRebindIsIdentical env name m = true) (hbodies : pm.body = m.body) :
    pm.value = m.value := by
  simp only [Store.macroRebindIsIdentical, hpm, Bool.and_eq_true, beq_iff_eq] at hid
  obtain ⟨⟨⟨⟨⟨⟨hname, henv⟩, hvariadic⟩, -⟩, -⟩, hparams⟩, -⟩ := hid
  rw [MacroParts.value, MacroParts.value, hname, hparams, hvariadic, hbodies, henv]

/-- Writing the value a cell holds already clears its flag. -/
theorem set_cell_same {c : Nat} {flag : Bool} (hv : st.cells[c]? = some ⟨v, flag⟩) :
    { st with cells := st.cells.set c ⟨v, false⟩ } = st.unflag c := by
  rw [Store.unflag]
  congr 1
  refine List.ext_getElem? fun k => ?_
  rw [List.getElem?_set, List.getElem?_modify]
  have hc := (List.getElem?_eq_some_iff.1 hv).1
  by_cases h : c = k
  · subst h
    rw [hv]
    simp [hc]
  · simp [h]

variable {σ : Type} {E : Engine σ}

theorem bindMacro_same {w : World σ} {c : Nat} {flag : Bool}
    (hc : w.store.operatorCell E.dialect (here env) name = some c)
    (hv : w.store.cells[c]? = some ⟨v, flag⟩) :
    bindMacro E env name v w = some (.ok (), w.unflag c) := by
  unfold Store.operatorCell at hc
  unfold bindMacro bindOperator
  split at hc <;> rename_i hlisp
  · rw [if_pos hlisp]
    simp only [setFuncVar, Comp.update, Store.setFunc, hc, set_cell_same hv, World.unflag]
  · rw [if_neg hlisp]
    simp only [setVar, Comp.update, Store.set, hc, set_cell_same hv, World.unflag]

theorem unflag_of_plain {w : World σ} {c : Nat} (hv : w.store.cells[c]? = some ⟨v, false⟩) :
    w.unflag c = w := by
  rw [World.unflag, ← set_cell_same hv]
  obtain ⟨hc, hget⟩ := List.getElem?_eq_some_iff.1 hv
  rw [← hget, List.set_getElem_self hc]

/-- A binding that leaves the macro epoch leaves every expansion, where the macro found is the
one of the cell that is written and the bodies hold the same values. What a flagged cell loses is
its flag; only then it matters that calls do not look at it. -/
theorem bindMacro_keeps_expansions (app : Value → List Value → List Nat → EvalM σ Value)
    {w w' : World σ} {epoch : Int64} {c : Nat} {flag : Bool}
    (hbind : bindMacroEpoch E env name m (w, epoch) = some (.ok (), w', epoch))
    (hpm : w.store.lookupBoundMacro env name = some pm)
    (hc : w.store.operatorCell E.dialect (here env) name = some c)
    (hcell : w.store.cells[c]? = some ⟨pm.value, flag⟩) (hbodies : pm.body = m.body)
    (happ : flag = true → ∀ fn args env,
      Comp.Over (World.unflag c) (app fn args env) (app fn args env))
    (n : Nat) (form : Value) (at' : List Nat) :
    (flag = false → w' = w) ∧
      (E.macroExpand app n form at' w').map Prod.fst =
        (E.macroExpand app n form at' w).map Prod.fst ∧
      (E.macroExpandDeep app n form at' w').map Prod.fst =
        (E.macroExpandDeep app n form at' w).map Prod.fst := by
  have hstate : w' = w.unflag c := by
    cases hid : w.store.macroRebindIsIdentical env name m with
    | true =>
      have hvalue := value_eq_of_identical hpm hid hbodies
      rw [hvalue] at hcell
      simp only [bindMacroEpoch, bindMacro_same hc hcell, Option.map_some, Option.some.injEq,
        Prod.mk.injEq] at hbind
      exact hbind.2.1.symm
    | false =>
      -- the epoch would have been advanced
      unfold bindMacroEpoch at hbind
      cases hrun : bindMacro E env name m.value w with
      | none => simp [hrun] at hbind
      | some out =>
        obtain ⟨r, v⟩ := out
        cases r <;> simp [hrun, hid] at hbind
  cases flag with
  | false =>
    obtain rfl := hstate.trans (unflag_of_plain hcell)
    exact ⟨fun _ => rfl, rfl, rfl⟩
  | true =>
    have hR := evalRules_unflag E c
    have hlook : ∀ name, Comp.Over (.unflag c) (resolveHead E at' name)
        (resolveHead E at' name) := by
      intro name
      unfold resolveHead
      split_ifs
      · exact hR.getFuncVar _ _
      · exact hR.getVar _ _
    have hexpander : ∀ m args, Comp.Over (.unflag c) (expandMacroForm E (eval E app n) m args)
        (expandMacroForm E (eval E app n) m args) := fun m args =>
      hR.expandMacroForm_holds (hR.eval_holds (happ rfl) n) m args
    have hshallow := hR.macroExpand_holds (d := E.dialect) hlook hexpander n form w
    have hdeep := hR.macroExpandDeep_holds (d := E.dialect) hlook hexpander n form w
    rw [hstate]
    refine ⟨by rintro ⟨⟩, ?_, ?_⟩
    · rw [Engine.macroExpand, ← hshallow, Option.map_map]
      rfl
    · rw [Engine.macroExpandDeep, ← hdeep, Option.map_map]
      rfl

end

section Runs

def rebindEngine : Engine Unit := ⟨.identity, 64, fun _ => "", id, fun h => (none, h)⟩

def rebindMacro (v : Value) : MacroParts := ⟨"m", [], "", [v], [0]⟩

def rebindWorld (v : Value) (flag : Bool) : World Unit :=
  ⟨⟨[⟨(rebindMacro v).value, flag⟩], [⟨[("m", 0)], []⟩]⟩, [], 0, 0, [], ()⟩

/-- `(defmacro m [] {:a 1 :b []})` again, in a cell that was flagged. -/
theorem bindMacro_keeps_expansions_map :
    let body := Value.map [(.keyword "a", .int 1), (.keyword "b", .vector [])]
    bindMacroEpoch rebindEngine [0] "m" (rebindMacro body) (rebindWorld body true, 7) =
        some (.ok (), rebindWorld body false, 7) ∧
      (rebindEngine.macroExpandDeep (fun _ _ _ => Comp.diverge) 4 (.vector [.list [.symbol "m"]])
          [0] (rebindWorld body false)).map Prod.fst =
        (rebindEngine.macroExpandDeep (fun _ _ _ => Comp.diverge) 4
          (.vector [.list [.symbol "m"]]) [0] (rebindWorld body true)).map Prod.fst := by
  intro body
  have hbind : bindMacroEpoch rebindEngine [0] "m" (rebindMacro body) (rebindWorld body true, 7) =
      some (.ok (), rebindWorld body false, 7) := by
    rw [bindMacroEpoch, show Store.macroRebindIsIdentical _ [0] "m" (rebindMacro body) = true by
      decide +kernel]
    rfl
  have hfound : (rebindWorld body true).store.lookupBoundMacro [0] "m" = some (rebindMacro body) :=
    rfl
  exact ⟨hbind, (bindMacro_keeps_expansions (c := 0) _ hbind hfound rfl rfl rfl
    (fun _ _ _ _ _ => rfl) 4 _ [0]).2.2⟩

/-- Zero and its negative are the same body to `BindMacro`, and different expansions. -/
theorem bindMacro_stale_expansion :
    bindMacroEpoch rebindEngine [0] "m" (rebindMacro (.float negZeroBits))
        (rebindWorld (.float 0) false, 7) =
        some (.ok (), rebindWorld (.float negZeroBits) false, 7) ∧
      ((rebindEngine.macroExpand (fun _ _ _ => Comp.diverge) 3 (.list [.symbol "m"]) [0]
        (rebindWorld (.float 0) false)).map fun r => r.1.toOption) = some (some (.float 0)) ∧
      ((rebindEngine.macroExpand (fun _ _ _ => Comp.diverge) 3 (.list [.symbol "m"]) [0]
        (rebindWorld (.float negZeroBits) false)).map fun r => r.1.toOption) =
          some (some (.float negZeroBits)) := by
  refine ⟨?_, ?_, ?_⟩ <;> rfl

end Runs

end Core

end Lispico
