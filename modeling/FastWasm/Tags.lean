import FastWasm.CallGraph

/-!
# A check of the operand tags

The executor tags its operands and looks at the tags in a few places: at the condition of an `if`,
in `i32.ne`, before the call of a host function. Nothing is checked before a run. The check below
follows the tags through a tree in the way that the executor pushes and pops them: a label stays on
the stack when its construct ends, a local is read as an `i32` whatever it is, and a call of a wasm
function leaves its arguments below what the body leaves. In its strict form it also bounds the
depth.

It is not a check that the source has, but one for the executor as it is. It accepts what the
executor gets right and is as narrow as that: the branches of an `if` have to leave the same tags,
labels included, and a `return` comes before any call of a wasm function, while the frame is the
function's own.
-/

namespace FastWasm

open Logged

/-! ## Tags

A list, the top one first, so that a push is a `cons`. -/

/-- The tags of the slots below a depth, the top one first. -/
def tagsBelow (stack : ℕ → Slot) : ℕ → List UInt8
  | 0 => []
  | n + 1 => (stack n).type :: tagsBelow stack n

/-- The tags on the operand stack, the top one first, down to the bottom. -/
def Ctx.tags (ctx : Ctx) : List UInt8 := tagsBelow ctx.stack ctx.pos

section

variable {stack stack' : ℕ → Slot} {n m : ℕ} {ctx : Ctx} {t : UInt8} {ts : List UInt8}

@[simp] theorem length_tagsBelow (stack : ℕ → Slot) (n : ℕ) : (tagsBelow stack n).length = n := by
  induction n with
  | zero => rfl
  | succ n ih => rw [tagsBelow, List.length_cons, ih]

/-- The tags above some depth, and those below it, are the tags. -/
theorem tagsBelow_add (stack : ℕ → Slot) (n m : ℕ) :
    tagsBelow stack (n + m) = tagsBelow (fun j => stack (n + j)) m ++ tagsBelow stack n := by
  induction m with
  | zero => rfl
  | succ m ih => rw [← Nat.add_assoc, tagsBelow, tagsBelow, ih, List.cons_append]

theorem tagsBelow_congr (h : ∀ i < n, stack' i = stack i) :
    tagsBelow stack' n = tagsBelow stack n := by
  induction n with
  | zero => rfl
  | succ n ih =>
    rw [tagsBelow, tagsBelow, h n (Nat.lt_succ_self n), ih fun i hi => h i (Nat.lt_succ_of_lt hi)]

theorem Ctx.length_tags (ctx : Ctx) : ctx.tags.length = ctx.pos := length_tagsBelow ..

theorem Ctx.tags_push (ctx : Ctx) (st : Slot) : (ctx.push st).tags = st.type :: ctx.tags := by
  change (Function.update ctx.stack ctx.pos st ctx.pos).type :: tagsBelow _ ctx.pos = _
  rw [Function.update_self, tagsBelow_congr fun i hi => Function.update_of_ne hi.ne ..]
  rfl

/-- The top slot of a stack with an operand on it has the first tag. -/
theorem Ctx.tags_eq_cons (h : ctx.tags = t :: ts) :
    ctx.pos ≠ 0 ∧ (ctx.stack (ctx.pos - 1)).type = t ∧ ctx.pop.tags = ts := by
  rw [Ctx.tags] at h
  cases hpos : ctx.pos with
  | zero =>
    rw [hpos] at h
    cases h
  | succ n =>
    rw [hpos] at h
    obtain ⟨htop, hbelow⟩ := List.cons.inj h
    refine ⟨Nat.succ_ne_zero n, htop, ?_⟩
    change tagsBelow ctx.stack (ctx.pos - 1) = ts
    rw [hpos]
    exact hbelow

/-- The results of a function on the tags below them, behind a `return`. -/
theorem Ctx.tags_relocated {ctx' : Ctx} {depth : ℕ} (h : Relocated depth m ctx ctx')
    (hle : depth + m ≤ ctx.pos) :
    ctx'.tags = ctx.tags.take m ++ tagsBelow ctx.stack depth := by
  have htop : tagsBelow (fun j => ctx.stack (ctx.pos - m + j)) m = ctx.tags.take m := by
    have hsplit := tagsBelow_add ctx.stack (ctx.pos - m) m
    rw [Nat.sub_add_cancel (Nat.le_trans (Nat.le_add_left ..) hle)] at hsplit
    rw [Ctx.tags, hsplit, List.take_left' (length_tagsBelow ..)]
  rw [Ctx.tags, h.pos, tagsBelow_add, ← htop, tagsBelow_congr h.below]
  congr 1
  exact tagsBelow_congr fun i hi => h.slots i hi

end

/-! ## What instructions do to the tags

As the handlers do it, on lists. -/

/-- What a straight-line handler does to the tags of the operands, in a function with so many
locals. -/
def RunFn.effect (localsCnt : ℕ) (imm : List UInt8) : RunFn → List UInt8 → Option (List UInt8)
  | .drop, _ :: ts => some ts
  | .select, _ :: t₂ :: t₁ :: ts => if t₁ = t₂ then some (t₁ :: ts) else none
  | .localGet, ts => if immIdx imm < localsCnt then some (fwI32 :: ts) else none
  | .localSet, _ :: ts => if immIdx imm < localsCnt then some ts else none
  | .localTee, t :: ts => if immIdx imm < localsCnt then some (t :: ts) else none
  | .i32Const, ts => some (fwI32 :: ts)
  | .i64Const, ts => some (fwI64 :: ts)
  | .f32Const, ts => some (fwF32 :: ts)
  | .f64Const, ts => some (fwF64 :: ts)
  | .i32Eqz, _ :: ts => some (fwI32 :: ts)
  | .i32Eq, _ :: _ :: ts | .gtS, _ :: _ :: ts => some (fwI32 :: ts)
  | .i32Ne, t₂ :: t₁ :: ts => if t₁ = fwI32 ∧ t₂ = fwI32 then some (fwI32 :: ts) else none
  | _, _ => none

/-- The condition of an `if`, which has to be an `i32`. -/
def popI32 : List UInt8 → Option (List UInt8)
  | t :: ts => if t = fwI32 then some ts else none
  | [] => none

/-- What is promised of a wasm function: the tags that its body leaves on its arguments, when it is
entered at some depth at most. -/
structure Sig where
  /-- the tags that the body leaves on the arguments, the top one first -/
  leaves : List UInt8
  /-- the depth at which it is entered, at most -/
  depth : ℕ

/-- What a call of a function does to the tags of the operands. -/
def FwModuleFunc.effect (func : FwModuleFunc) (sig : Sig) (ts : List UInt8) : Option (List UInt8) :=
  let p := func.functype.paramCnt.toNat
  let m := func.functype.resCnt.toNat
  if func.hostAddr = none then
    -- the arguments are copied and stay on the stack
    if p ≤ ts.length then some (sig.leaves ++ ts) else none
  else if p ≤ 20 ∧ p + m ≤ func.functype.val.length ∧
      ts.take p = (func.functype.val.take p).reverse then
    some (List.replicate m (func.functype.val.getD p 0) ++ ts.drop p)
  else none

/-! ## The check

By recursion on the tree. What it computes is how code ends, and it fails where the executor would
take an error path. -/

/-- How code ends: with these tags on the stack and with a wasm function called or not, or with a
`return` on every path. -/
inductive Flow where
  /-- it has returned from the function -/
  | gone
  /-- it goes on with these tags, `called` when it may have called a wasm function -/
  | on (tags : List UInt8) (called : Bool)
  deriving DecidableEq, Repr

namespace Flow

/-- Code after code, which is not looked at when nothing gets there. -/
def next (k : List UInt8 → Bool → Option Flow) : Flow → Option Flow
  | .gone => some .gone
  | .on ts called => k ts called

/-- Either of two branches. When both go on, they have to leave the same tags. -/
def join : Flow → Flow → Option Flow
  | .gone, y => some y
  | x, .gone => some x
  | .on ts called, .on ts' called' => if ts = ts' then some (.on ts (called || called')) else none

end Flow

/-- The depth stays within the array, if that is asked for. -/
abbrev Sig.Fits (strict : Bool) (sig : Sig) (ts : List UInt8) : Prop :=
  strict = true → sig.depth + ts.length ≤ fwMaxStackSize

section

variable (strict : Bool) (funcs : List FwModuleFunc) (sigs : ℕ → Sig) (func : FwModuleFunc)
  (sig : Sig)

/-- The check of an instruction. A `return` puts the results at the depth in the frame, which is
that of the function in eight bits, until another function is entered. -/
def RunFn.check (imm : List UInt8) : RunFn → List UInt8 → Bool → Option Flow
  | .return_, ts, called =>
    if called = false ∧ sig.depth < 256 ∧ func.functype.resCnt.toNat ≤ ts.length ∧
        ts.take func.functype.resCnt.toNat = sig.leaves then
      some .gone
    else none
  | .call, ts, called =>
    let idx := immIdx imm
    (funcs[idx]?).bind fun f => (f.effect (sigs idx) ts).bind fun ts' =>
      if (f.hostAddr = none → min (sig.depth + ts.length) fwMaxStackSize ≤ (sigs idx).depth) ∧
          sig.Fits strict ts' then
        some (.on ts' (called || f.hostAddr.isNone))
      else none
  | fn, ts, called =>
    (fn.effect func.localsCnt imm ts).bind fun ts' =>
      if sig.Fits strict ts' then some (.on ts' called) else none

/-- The check of code: how it ends when it starts with these tags, and with a wasm function called
or not. -/
def Code.check : Code → List UInt8 → Bool → Option Flow
  | .nil, ts, called => some (.on ts called)
  | .instr op imm rest, ts, called =>
    ((commonInstrHandler op).run.bind fun fn =>
      fn.check strict funcs sigs func sig imm ts called).bind (Flow.next rest.check)
  | .block loop _ inner rest, ts, called =>
    (if sig.Fits strict (blockCode loop :: ts) then inner.check (blockCode loop :: ts) called
      else none).bind (Flow.next rest.check)
  | .ifThen _ thn rest, ts, called =>
    ((popI32 ts).bind fun ts =>
      (thn.check ts called).bind (Flow.join (.on ts called))).bind (Flow.next rest.check)
  | .ifElse _ thn els rest, ts, called =>
    ((popI32 ts).bind fun ts =>
      (thn.check ts called).bind fun x => (els.check ts called).bind x.join).bind
      (Flow.next rest.check)

end

/-- What is promised of a wasm function holds: there is room for the arguments in its locals, and
its code leaves what it should, results included. -/
structure Sig.Kept (strict : Bool) (funcs : List FwModuleFunc) (sigs : ℕ → Sig) (sig : Sig)
    (func : FwModuleFunc) (code : Code) : Prop where
  /-- the size of the locals block did not overflow -/
  params : func.functype.paramCnt.toNat ≤ func.localsCnt
  /-- a result is there when one is asked for -/
  results : func.functype.resCnt ≠ 0 → sig.leaves ≠ []
  /-- the check -/
  code : ∃ x, code.check strict funcs sigs func sig [] false = some x ∧
    ∀ ts called, x = .on ts called → ts = sig.leaves

/-- The check of a program: the promise of each of its functions is kept, if those of the others
are. -/
def Checked {env : Env} (strict : Bool) (prog : List (Coded env.mem)) (sigs : ℕ → Sig) : Prop :=
  ∀ idx f, prog[idx]? = some f → f.func.hostAddr = none →
    (sigs idx).Kept strict (prog.map Coded.func) sigs f.func f.code

end FastWasm
