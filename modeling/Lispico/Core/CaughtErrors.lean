import Lispico.Core.EvalRules
import Lispico.Lib.Invariant

/-!
# Errors the tree-walker binds

No error that a handler of the tree-walker binds is terminal. The only step that adds to
the errors bound is the one of `evalTry`; every other form keeps what its subforms keep.
-/

namespace Lispico

namespace Core

open Lib Lib.Comp

variable {σ : Type}

def NoneTerminal (w : World σ) : Prop := ∀ c ∈ w.caught, ¬c.err.Terminal

abbrev Safe {α : Type} (m : EvalM σ α) : Prop := Preserves NoneTerminal m

section Steps

variable (scope : Nat) (env : List Nat) (name : String) (v : Value) (E : Engine σ)

theorem pollCancel_safe : Safe E.pollCancel := by
  intro w r w' hw h
  unfold Engine.pollCancel at h
  split at h <;> cases h <;> exact hw

theorem findVar_safe : Safe (σ := σ) (findVar env name) :=
  preserves_step fun _ h => h

theorem setVar_safe : Safe (σ := σ) (setVar scope name v) :=
  preserves_update fun _ h => h

theorem setFuncVar_safe : Safe (σ := σ) (setFuncVar scope name v) :=
  preserves_update fun _ h => h

theorem noteCaught_safe {err : GoErr} (value : Value) (herr : ¬err.Terminal) :
    Safe (σ := σ) (noteCaught err value) := by
  refine preserves_update fun w hw c hc => ?_
  rcases List.mem_append.1 hc with hc | hc
  · exact hw c hc
  · rw [List.mem_singleton.1 hc]
    exact herr

theorem evalRules_safe : EvalRules E fun m => Safe m where
  ret := preserves_ret
  fail := preserves_fail
  diverge := preserves_diverge
  bind hm hf := hm.bind hf
  attempt hm := hm.attempt
  read hf _ := preserves_read.bind hf
  inLoop hm := hm.within (fun _ h => h) fun _ h => h
  inMacro hm := hm.within (fun _ h => h) fun _ h => h
  pollCancel := pollCancel_safe E
  getVar _ _ := preserves_step fun _ h => h
  getFuncVar _ _ := preserves_step fun _ h => h
  findVar _ _ := findVar_safe _ _
  setVar _ _ _ := setVar_safe _ _ _
  setFuncVar _ _ _ := setFuncVar_safe _ _ _
  replaceVar _ _ _ := preserves_update fun _ h => h
  childEnv _ := preserves_step fun _ h => h
  forkEnv _ _ _ := preserves_step fun _ h => h
  setAll _ _ := preserves_update fun _ h => h
  noteCaught value herr := noteCaught_safe value herr

end Steps

structure Host.Safe (H : Host σ) : Prop where
  builtin : ∀ f args env, Core.Safe (H.builtin f args env)
  applier : ∀ chunk caps globals args, Core.Safe (H.applier chunk caps globals args)
  lambda : ∀ fn args env, Core.Safe (H.lambda fn args env)

theorem apply_safe (E : Engine σ) {hosts : Nat → Host σ} (hhosts : ∀ n, (hosts n).Safe) (n : Nat)
    (fn : Value) (args : List Value) (env : List Nat) : Safe (apply E hosts n fn args env) :=
  (evalRules_safe E).apply_holds (fun n => (hhosts n).builtin) (fun n => (hhosts n).applier)
    n fn args env

end Core

end Lispico
