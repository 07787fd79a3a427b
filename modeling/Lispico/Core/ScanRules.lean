import Lispico.Core.LoopScan

/-!
# A rule for the scan of loops

A judgement about two scans, with an evaluator each, holds of the whole scans if it holds of
results, of sequences and of the expansions of heads.
-/

namespace Lispico

namespace Core

open Lib

structure ScanRules {σ : Type} (E : Engine σ) (ev' ev : Value → List Nat → EvalM σ Value)
    (env : List Nat) (T : {α : Type} → EvalM σ α → EvalM σ α → Prop) : Prop where
  ret : ∀ {α : Type} (a : α), T (Comp.ret a) (Comp.ret a)
  bind : ∀ {α β : Type} {m' m : EvalM σ α} {f' f : α → EvalM σ β},
    T m' m → (∀ a, T (f' a) (f a)) → T (m' >>= f') (m >>= f)
  diverge : ∀ {α : Type}, T (Comp.diverge : EvalM σ α) Comp.diverge
  expand : ∀ head args, T (expandMacroForLoopScan E ev' env head args)
    (expandMacroForLoopScan E ev env head args)

namespace ScanRules

variable {σ : Type} {E : Engine σ} {ev' ev : Value → List Nat → EvalM σ Value} {env : List Nat}
  {T : {α : Type} → EvalM σ α → EvalM σ α → Prop}
  (R : ScanRules E ev' ev env (fun m' m => T m' m))

include R

theorem anyOf {f' f : Value → EvalM σ Bool} (hf : ∀ x, T (f' x) (f x)) (forms : List Value) :
    T (Comp.anyOf f' forms) (Comp.anyOf f forms) := by
  induction forms with
  | nil => exact R.ret false
  | cons form forms ih =>
    refine R.bind (hf form) fun hit => ?_
    cases hit with
    | true => exact R.ret true
    | false => exact ih

section

variable {refers' refers : Refers σ} {scan' scan : Scanner σ}
  {targets shadow captured : List String} {sequential : Bool} (hrefers : ∀ targets shadow x,
    T (refers' targets shadow x) (refers targets shadow x))
  (hscan : ∀ shadow captured x, T (scan' shadow captured x) (scan shadow captured x))

include hrefers

theorem bindingsReferTarget (bindings : List (String × Value)) :
    T (bindingsReferTarget refers' targets sequential shadow bindings)
      (bindingsReferTarget refers targets sequential shadow bindings) := by
  induction bindings generalizing shadow with
  | nil => exact R.ret false
  | cons b bindings ih =>
    refine R.bind (hrefers targets shadow b.2) fun hit => ?_
    cases hit with
    | true => exact R.ret true
    | false => exact ih

theorem bindingFormReferencesTarget (args : List Value) :
    T (bindingFormReferencesTarget refers' targets shadow sequential args)
      (bindingFormReferencesTarget refers targets shadow sequential args) := by
  unfold Core.bindingFormReferencesTarget
  split
  · split
    · exact R.anyOf (hrefers _ _) _
    · refine R.bind (R.bindingsReferTarget hrefers _) fun hit => ?_
      cases hit with
      | true => exact R.ret true
      | false => exact R.anyOf (hrefers _ _) _
  · exact R.anyOf (hrefers _ _) _

theorem underParams (params : Value) (body : List Value) :
    T (match paramShadow shadow params with
        | none => Comp.ret false
        | some shadow => Comp.anyOf (refers' targets shadow) body)
      (match paramShadow shadow params with
        | none => Comp.ret false
        | some shadow => Comp.anyOf (refers targets shadow) body) := by
  cases paramShadow shadow params with
  | none => exact R.ret false
  | some shadow => exact R.anyOf (hrefers _ _) _

theorem listReferencesTarget (head : Value) (args : List Value) :
    T (listReferencesTarget E ev' env refers' targets shadow head args)
      (listReferencesTarget E ev env refers targets shadow head args) := by
  have hdef : T (listReferencesTarget.defReferences refers' targets shadow args)
      (listReferencesTarget.defReferences refers targets shadow args) := by
    unfold listReferencesTarget.defReferences
    split
    · exact R.underParams hrefers _ _
    · exact R.ret false
  refine R.bind (R.expand head args) fun expanded => ?_
  cases expanded with
  | some v => exact hrefers _ _ v
  | none =>
    dsimp only
    split
    · exact R.ret false
    · split
      · exact R.underParams hrefers _ _
      · exact R.ret false
    · exact hdef
    · exact hdef
    · exact R.bindingFormReferencesTarget hrefers args
    · exact R.bindingFormReferencesTarget hrefers args
    · exact R.bindingFormReferencesTarget hrefers args
    · split
      · split
        · exact R.ret true
        · exact hrefers _ _ _
      · exact hrefers _ _ _
      · exact R.anyOf (hrefers _ _) _
    · exact R.anyOf (hrefers _ _) _

theorem scanFunction (params : Value) (body : List Value) :
    T (scanFunction refers' targets shadow captured params body)
      (scanFunction refers targets shadow captured params body) := by
  unfold Core.scanFunction
  split
  · exact R.ret captured
  · induction targets generalizing captured with
    | nil => exact R.ret captured
    | cons name targets ih =>
      rw [markReferenced, markReferenced]
      split
      · exact ih
      · exact R.bind (R.anyOf (hrefers _ _) _) fun hit => ih

omit hrefers

include hscan

theorem scanAll (forms : List Value) :
    T (scanAll scan' shadow captured forms) (scanAll scan shadow captured forms) := by
  induction forms generalizing captured with
  | nil => exact R.ret captured
  | cons form forms ih => exact R.bind (hscan _ _ form) fun _ => ih

theorem scanBindings (bindings : List (String × Value)) :
    T (scanBindings scan' sequential shadow captured bindings)
      (scanBindings scan sequential shadow captured bindings) := by
  induction bindings generalizing shadow captured with
  | nil => exact R.ret captured
  | cons b bindings ih => exact R.bind (hscan _ _ b.2) fun _ => ih

theorem scanBindingFormCapture (args : List Value) :
    T (scanBindingFormCapture scan' sequential shadow captured args)
      (scanBindingFormCapture scan sequential shadow captured args) := by
  unfold Core.scanBindingFormCapture
  split
  · split
    · exact R.scanAll hscan _
    · exact R.bind (R.scanBindings hscan _) fun _ => R.scanAll hscan _
  · exact R.scanAll hscan _

end

theorem formMayCreateClosure (n : Nat) (form : Value) :
    T (formMayCreateClosure E ev' env n form) (formMayCreateClosure E ev env n form) := by
  induction n generalizing form with
  | zero => exact R.diverge
  | succ n ih =>
    unfold Core.formMayCreateClosure
    split
    · split
      · exact R.ret _
      · exact R.ret _
      · exact R.ret _
      · exact R.ret _
      · refine R.bind (R.expand _ _) fun expanded => ?_
        cases expanded with
        | some v => exact ih v
        | none => exact R.anyOf ih _
    · exact R.anyOf ih _
    · exact R.anyOf ih _
    · exact R.ret _

theorem formReferencesTarget (n : Nat) (targets shadow : List String) (form : Value) :
    T (formReferencesTarget E ev' env n targets shadow form)
      (formReferencesTarget E ev env n targets shadow form) := by
  induction n generalizing targets shadow form with
  | zero => exact R.diverge
  | succ n ih =>
    unfold Core.formReferencesTarget
    split
    · exact R.ret _
    · exact R.anyOf (ih _ _) _
    · exact R.anyOf (ih _ _) _
    · exact R.listReferencesTarget ih _ _
    · exact R.ret _

theorem scanLoopCapture (targets : List String) (n : Nat) (shadow captured : List String)
    (form : Value) : T (scanLoopCapture E ev' env targets n shadow captured form)
      (scanLoopCapture E ev env targets n shadow captured form) := by
  induction n generalizing shadow captured form with
  | zero => exact R.diverge
  | succ n ih =>
    have hrefers := R.formReferencesTarget n
    unfold Core.scanLoopCapture
    split
    · rename_i head args
      have hdef : T (scanLoopCapture.scanDefinition E ev' env targets n shadow captured args)
          (scanLoopCapture.scanDefinition E ev env targets n shadow captured args) := by
        unfold scanLoopCapture.scanDefinition
        split
        · exact R.scanFunction hrefers _ _
        · exact R.ret captured
      refine R.bind (R.expand head args) fun expanded => ?_
      cases expanded with
      | some v => exact ih _ _ v
      | none =>
        dsimp only
        split
        · exact R.ret captured
        · split
          · exact R.scanFunction hrefers _ _
          · exact R.ret captured
        · exact hdef
        · exact hdef
        · exact R.scanBindingFormCapture ih args
        · exact R.scanBindingFormCapture ih args
        · exact R.scanBindingFormCapture ih args
        · exact R.scanAll ih _
    · exact R.scanAll ih _
    · exact R.scanAll ih _
    · exact R.ret captured

/-- What is judged of its parts holds of the scan of a body. -/
theorem loopCapturedVars (n : Nat) (body : List Value) (vars : List String) :
    T (loopCapturedVars E ev' n body vars env) (loopCapturedVars E ev n body vars env) := by
  unfold Core.loopCapturedVars
  split
  · exact R.ret []
  · refine R.bind (R.anyOf (R.formMayCreateClosure n) body) fun may => ?_
    cases may with
    | false => exact R.ret []
    | true => exact R.scanAll (R.scanLoopCapture _ n) body

end ScanRules

end Core

end Lispico
