import FastWasm.Calls

/-!
# Entering a function (`_fw_module_run_func`)

The arguments are copied into the locals from the last one down, each from its own distance to the
top of the stack. The index into the locals counts up while the distance counts down, so that the
deepest argument becomes local 0.

Both indices are reversed in the source, and the two reversals cancel. The proof is by induction on
the number of arguments that are left to copy, from any machine in which the block is there; what
has been copied before is in the block, and the rest of it is as it was allocated.
-/

namespace FastWasm

open Logged

/-- Locals of a function with `p` parameters and `l` declared locals, entered with `ctx`: the
arguments in their order, and zeros behind them. -/
structure Initial (p l : ℕ) (ctx : Ctx) (b : FwFuncLocals) : Prop where
  /-- `local_cnt` counts the parameters and the declared locals -/
  localCnt : b.localCnt = p + l
  /-- there is room for that many -/
  room : b.locals.length = p + l
  /-- a parameter has the value of its argument, the deepest one first -/
  params : ∀ k < p, b.locals[k]? = some (ctx.stack (ctx.pos - p + k)).val
  /-- a declared local is zero -/
  declared : ∀ k, p ≤ k → k < p + l → b.locals[k]? = some 0

section

variable {env : Env} {func : FwModuleFunc} {s : Machine}

theorem fwStackGet_ok {idx : ℕ} (h : idx < s.ctx.pos) :
    (fwStackGet idx s).res = .ok (s.ctx.stack (s.ctx.pos - (idx + 1)), s) := by
  rw [fwStackGet_apply, if_neg (Nat.not_le.mpr h)]

theorem fwLocalsWrite_ok {id idx : ℕ} {b : FwFuncLocals} (hb : s.block (some id) = some b)
    (h : idx < b.locals.length) (val : UInt64) :
    (fwLocalsWrite (some id) idx val s).res = .ok (⟨⟩, { s with
      heap := s.heap.set id (some { b with locals := b.locals.set idx val }) }) := by
  rw [fwLocalsWrite, get_bind_apply]
  simp only [hb, if_pos h, set_apply]

/-- A block that is live can be set, and then it is what it was set to. -/
theorem block_set {id : ℕ} {b : FwFuncLocals} (hb : s.block (some id) = some b)
    (b' : FwFuncLocals) :
    Machine.block { s with heap := s.heap.set id (some b') } (some id) = some b' := by
  have hid : id < s.heap.length := by
    by_contra h
    rw [Machine.block, Option.bind_some, List.getElem?_eq_none (Nat.not_lt.mp h)] at hb
    cases hb
  rw [Machine.block, Option.bind_some, List.getElem?_set_self hid]
  rfl

/-- The last `n` of `p` parameters are copied, and nothing else changes. Parameter `k` comes from
the slot that is `p - k` below the depth, and each of them is written in one round only. -/
theorem copyParams_ok {id p n : ℕ} {b : FwFuncLocals} (hb : s.block (some id) = some b)
    (hn : n ≤ p) (hroom : p ≤ b.locals.length) (hdepth : p ≤ s.ctx.pos) :
    ∃ s' vals, (fwCopyParams (some id) p n s).res = .ok (⟨⟩, s') ∧ s'.ctx = s.ctx ∧
      s'.block (some id) = some { b with locals := vals } ∧ vals.length = b.locals.length ∧
      (∀ k, p - n ≤ k → k < p → vals[k]? = some (s.ctx.stack (s.ctx.pos - p + k)).val) ∧
      ∀ k, k < p - n ∨ p ≤ k → vals[k]? = b.locals[k]? := by
  induction n generalizing s b with
  | zero =>
    exact ⟨s, b.locals, rfl, rfl, hb, rfl, fun k h h' => absurd h' (Nat.not_lt.mpr h),
      fun _ _ => rfl⟩
  | succ n ih =>
    have hidx : p - n - 1 < b.locals.length := by omega
    let val := (s.ctx.stack (s.ctx.pos - (n + 1))).val
    let b₁ : FwFuncLocals := { b with locals := b.locals.set (p - n - 1) val }
    have hlen₁ : b₁.locals.length = b.locals.length := List.length_set
    obtain ⟨s', vals, hcopy, hctx, hblock, hlen, hdone, hkept⟩ :=
      ih (block_set hb b₁) (Nat.le_of_succ_le hn) (hlen₁ ▸ hroom) hdepth
    refine ⟨s', vals, ?_, hctx, hblock, hlen.trans hlen₁, fun k hk hk' => ?_, fun k hk => ?_⟩
    · rw [fwCopyParams, bind_of_ok (fwStackGet_ok (Nat.lt_of_lt_of_le hn hdepth)),
        bind_of_ok (fwLocalsWrite_ok hb hidx val)]
      exact hcopy
    · rcases Nat.eq_or_lt_of_le hk with rfl | hlt
      · -- written in this round, and in no later one
        rw [hkept _ (.inl (by omega)), show p - (n + 1) = p - n - 1 by omega,
          List.getElem?_set_self hidx, show s.ctx.pos - p + (p - n - 1) = s.ctx.pos - (n + 1) by
            omega]
      · exact hdone k (by omega) hk'
    · rw [hkept k (by omega), List.getElem?_set_ne (by omega)]

/-- The block that a function with parameters or declared locals allocates and fills. It comes
zeroed, so the declared locals behind the parameters are zero, and the arguments stay on the stack.
-/
theorem enterFunc_initial (hcnt : 0 < func.functype.paramCnt.toNat + func.localCnt.toNat)
    (hwrap : func.functype.paramCnt.toNat + func.localCnt.toNat < 2 ^ 32)
    (hdepth : func.functype.paramCnt.toNat ≤ s.ctx.pos) :
    ∃ s' b, (fwEnterFunc env func s).res = .ok (s.ctx.locals, s') ∧
      s'.block s'.ctx.locals = some b ∧
      Initial func.functype.paramCnt.toNat func.localCnt.toNat s.ctx b ∧
      s'.ctx.stack = s.ctx.stack ∧ s'.ctx.pos = s.ctx.pos := by
  set p := func.functype.paramCnt.toNat with hp
  set l := func.localCnt.toNat with hl
  have hlc : func.localsCnt = p + l := by
    rw [FwModuleFunc.localsCnt, ← hp, ← hl, Nat.add_comm, Nat.mod_eq_of_lt hwrap]
  let b₀ : FwFuncLocals := ⟨p + l, List.replicate (p + l) 0⟩
  let s₀ : Machine := { s with heap := s.heap ++ [some b₀] }
  have hinit : (fwInitLocals env func s).res = .ok (some s.heap.length, s₀) := by
    rw [fwInitLocals, hlc, if_pos (Nat.pos_iff_ne_zero.mp hcnt)]
    rfl
  have hb₀ : s₀.block (some s.heap.length) = some b₀ := by
    rw [Machine.block, Option.bind_some, List.getElem?_concat_length]
    rfl
  have hlen₀ : b₀.locals.length = p + l := List.length_replicate
  obtain ⟨s₁, vals, hcopy, hctx, hblock, hlen, hdone, hkept⟩ :=
    copyParams_ok hb₀ (Nat.le_refl p) (hlen₀ ▸ Nat.le_add_right p l) hdepth
  refine ⟨{ s₁ with ctx := { s₁.ctx with
      locals := some s.heap.length, frame := ⟨func.body.last, UInt8.ofNat s₁.ctx.pos⟩ } },
    { b₀ with locals := vals }, ?_, hblock, ?_, ?_, ?_⟩
  · rw [fwEnterFunc, bind_of_ok hinit, ← hp, bind_of_ok hcopy, get_bind_apply, emit_bind_apply,
      set_bind_apply, pure_apply, hctx]
  · refine ⟨rfl, hlen.trans hlen₀, fun k hk => hdone k (by omega) hk, fun k hk hk' => ?_⟩
    rw [hkept k (.inr hk)]
    exact List.getElem?_replicate_of_lt hk'
  · exact (congrArg Ctx.stack hctx :)
  · exact (congrArg Ctx.pos hctx :)

/-- The loop over the body of a wasm function starts with the arguments in the first locals, zero in
the others and the operand stack as it was. The function has a local at least (`hcnt`) and fewer
than 2^32 (`hwrap`), so that a block is allocated for all of them, and its arguments are on the
stack (`hdepth`). What the loop and the leaving of the function do from there is left open. -/
theorem locals_initialised {r : Interp} (hwasm : func.hostAddr = none)
    (hcnt : 0 < func.functype.paramCnt.toNat + func.localCnt.toNat)
    (hwrap : func.functype.paramCnt.toNat + func.localCnt.toNat < 2 ^ 32)
    (hdepth : func.functype.paramCnt.toNat ≤ s.ctx.pos) :
    ∃ s' b, _fwModuleRunFunc env r func s =
        ⟨(fwEnterFunc env func s).log ++
            ((r.loop func func.body >>= fwLeaveFunc s.ctx.locals) s').log,
          ((r.loop func func.body >>= fwLeaveFunc s.ctx.locals) s').res⟩ ∧
      s'.block s'.ctx.locals = some b ∧
      Initial func.functype.paramCnt.toNat func.localCnt.toNat s.ctx b ∧
      s'.ctx.stack = s.ctx.stack ∧ s'.ctx.pos = s.ctx.pos := by
  obtain ⟨s', b, henter, hrest⟩ := enterFunc_initial hcnt hwrap hdepth
  refine ⟨s', b, ?_, hrest⟩
  rw [_fwModuleRunFunc, hwasm]
  exact bind_of_ok henter

end

/-- A function with one parameter and one declared local, and nothing in its body. -/
def oneOfEach : FwModuleFunc := ⟨1, ⟨1, 0, [fwI32]⟩, ⟨0, 0⟩, none, .init⟩

/-- It is entered with 7 on the stack, and its locals are 7 and 0. -/
theorem oneOfEach_initialised :
    ∃ s' b, _fwModuleRunFunc dropArgEnv (interp dropArgEnv 3) oneOfEach oneOperand =
        ⟨(fwEnterFunc dropArgEnv oneOfEach oneOperand).log ++
            (((interp dropArgEnv 3).loop oneOfEach ⟨0, 0⟩ >>= fwLeaveFunc none) s').log,
          (((interp dropArgEnv 3).loop oneOfEach ⟨0, 0⟩ >>= fwLeaveFunc none) s').res⟩ ∧
      s'.block s'.ctx.locals = some b ∧ b.locals[0]? = some 7 ∧ b.locals[1]? = some 0 := by
  obtain ⟨s', b, hrun, hb, hinit, -⟩ := @locals_initialised dropArgEnv oneOfEach
    oneOperand (interp dropArgEnv 3) rfl (by decide) (by decide) (Nat.le_refl 1)
  exact ⟨s', b, hrun, hb, hinit.params 0 Nat.one_pos,
    hinit.declared 1 (Nat.le_refl 1) (Nat.lt_succ_self 1)⟩

end FastWasm
