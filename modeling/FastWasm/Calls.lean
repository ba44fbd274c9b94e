import FastWasm.Errors

/-!
# Calls of imported functions

An imported function pops its arguments, the last one first, checks their tags, and pushes its
results. Two things are said about that. When it returns `FW_OK`, its arguments are gone and its
results lie in their place (`hostFunc_effect`): this is the stack effect of a call, `CallEffect`,
that the calls of wasm functions are compared with. And the host function is called once, with the
values of the arguments in order, when there are at most 20 of them, and not at all when there are
more (`hostFunc_marshals`).

The call itself is a `switch` over the number of arguments, with a case for each number up to 20 and
a default that gives up. Its cases differ in that number only, so the model has one list of
arguments and the bound (`fwHostArgs`, `fwHostArgs_eq`). What the host does is a parameter: it is
given the arguments and answers with its results, and it does not reach into the machine.
-/

namespace FastWasm

open Logged

/-! ## The effect of a call

Stated for any function, so that host functions and wasm functions can be held against it. -/

section

variable {env : Env} {func : FwModuleFunc}

/-- The results are pushed one on top of the other, and what is below them stays. All of them get
the type behind the parameters, which is that of the first result: the source does not move on in
`val`. -/
theorem pushRets_eq_ok {ft : FwModuleType} {rets : ℕ → UInt64} :
    ∀ {n i : ℕ} {s s' : Machine}, (fwPushRets ft rets n i s).res = .ok (⟨⟩, s') →
      s'.ctx.pos = s.ctx.pos + n ∧ (∀ j < s.ctx.pos, s'.ctx.stack j = s.ctx.stack j) ∧
        ∀ j < n, s'.ctx.stack (s.ctx.pos + j) =
          .plain (ft.val.getD ft.paramCnt.toNat 0) (rets (i + j))
  | 0, i, s, s', h => by
    obtain ⟨-, rfl⟩ := Prod.mk.inj (Except.ok.inj h)
    exact ⟨rfl, fun _ _ => rfl, fun j hj => absurd hj (Nat.not_lt_zero j)⟩
  | n + 1, i, s, s', h => by
    rw [fwPushRets] at h
    cases htype : ft.val[ft.paramCnt.toNat]? with
    | none => simp [htype] at h
    | some type =>
      simp only [htype] at h
      obtain ⟨_, s₁, hpush, h, -⟩ := bind_eq_ok h
      rw [fwPush_apply] at hpush
      split at hpush
      · cases hpush
      · obtain ⟨-, rfl⟩ := Prod.mk.inj (Except.ok.inj hpush)
        obtain ⟨hpos, hbelow, hrets⟩ := pushRets_eq_ok h
        change s'.ctx.pos = s.ctx.pos + 1 + n at hpos
        change ∀ j < s.ctx.pos + 1, s'.ctx.stack j = _ at hbelow
        change ∀ j < n, s'.ctx.stack (s.ctx.pos + 1 + j) = _ at hrets
        refine ⟨by omega, fun j hj => ?_, fun j hj => ?_⟩
        · rw [hbelow j (by omega)]
          exact Function.update_of_ne hj.ne ..
        · cases j with
          | zero =>
            rw [Nat.add_zero, Nat.add_zero, hbelow _ (Nat.lt_succ_self _)]
            change Function.update s.ctx.stack s.ctx.pos _ s.ctx.pos = _
            rw [Function.update_self, List.getD_eq_getElem?_getD, htype]
            rfl
          | succ j =>
            rw [show s.ctx.pos + (j + 1) = s.ctx.pos + 1 + j by omega, hrets j (by omega),
              show i + (j + 1) = i + 1 + j by omega]

end

/-! ### The arguments and the result of a host function

The other way round: from operands of the right types it follows that the host function is called,
and with what. -/

/-- The calls of host functions in a log, each with its arguments. -/
def hostCalls (l : List Event) : List (ℕ × List UInt64) :=
  l.filterMap fun e => match e with
    | .host addr args => some (addr, args)
    | _ => none

/-- The values of the top `n` slots, the deepest first. -/
def Ctx.topValues (ctx : Ctx) (n : ℕ) : List UInt64 :=
  (List.range n).map fun k => (ctx.stack (ctx.pos - n + k)).val

/-- The top `n` slots have the types of the parameters. -/
def Ctx.TopTypes (ctx : Ctx) (ft : FwModuleType) (n : ℕ) : Prop :=
  n ≤ ctx.pos ∧ ∀ k < n, ft.val[k]? = some (ctx.stack (ctx.pos - n + k)).type

section

variable {env : Env} {func : FwModuleFunc} {s : Machine}

@[simp] theorem hostCalls_append (l l' : List Event) :
    hostCalls (l ++ l') = hostCalls l ++ hostCalls l' := List.filterMap_append

/-- Each of the 21 cases passes the arguments on as they are. There are no other cases. -/
theorem fwHostArgs_eq (argv : List UInt64) :
    fwHostArgs argv = if argv.length ≤ 20 then some argv else none := by
  have hargv : (List.range argv.length).map (fun i => argv.getD i 0) = argv := by
    refine List.ext_getElem (by simp) fun i _ hi => ?_
    simp [List.getElem?_eq_getElem hi]
  rw [fwHostArgs]
  split
  case h_22 =>
    simp only [imp_false] at *
    rw [if_neg (by omega)]
  all_goals
    next hlen =>
      rw [if_pos (by omega)]
      exact congrArg some (.trans (by rw [hlen]; rfl) hargv)

namespace Ctx

variable {ctx : Ctx} {ft : FwModuleType} {n : ℕ}

theorem pop_sub (ctx : Ctx) (n : ℕ) : ctx.pop.pos - n = ctx.pos - (n + 1) := by
  change ctx.pos - 1 - n = _
  omega

theorem TopTypes.pop (h : ctx.TopTypes ft (n + 1)) : ctx.pop.TopTypes ft n := by
  refine ⟨Nat.le_sub_one_of_lt h.1, fun k hk => ?_⟩
  rw [h.2 k (Nat.lt_succ_of_lt hk), pop_sub]
  rfl

theorem TopTypes.last (h : ctx.TopTypes ft (n + 1)) :
    ft.val[n]? = some (ctx.stack (ctx.pos - 1)).type := by
  have hdepth := h.1
  rw [h.2 n (Nat.lt_succ_self n), show ctx.pos - (n + 1) + n = ctx.pos - 1 by omega]

theorem topValues_succ (h : n < ctx.pos) :
    ctx.topValues (n + 1) = ctx.pop.topValues n ++ [(ctx.stack (ctx.pos - 1)).val] := by
  rw [topValues, List.range_succ, List.map_append, ← pop_sub, List.map_singleton]
  rw [show ctx.pop.pos - n + n = ctx.pos - 1 from Nat.sub_add_cancel (Nat.le_sub_one_of_lt h)]
  rfl

end Ctx

/-- Arguments of the right types are popped, the last parameter first. -/
theorem popArgs_ok {ft : FwModuleType} :
    ∀ (n : ℕ) (args : List UInt64) (s : Machine), s.ctx.TopTypes ft n →
      (fwPopArgs ft n args s).res = .ok (some (s.ctx.topValues n ++ args),
        { s with ctx := { s.ctx with pos := s.ctx.pos - n } }) ∧
      hostCalls (fwPopArgs ft n args s).log = []
  | 0, args, s, _ => ⟨rfl, rfl⟩
  | n + 1, args, s, h => by
    obtain ⟨hres, hlog⟩ := popArgs_ok n ((s.ctx.stack (s.ctx.pos - 1)).val :: args)
      { s with ctx := s.ctx.pop } h.pop
    rw [fwPopArgs, bind_eq (fwPop_of_ne (Nat.ne_zero_of_lt h.1))]
    simp only [h.last, ne_eq, not_true_eq_false, if_false]
    refine ⟨?_, hlog⟩
    rw [hres, Ctx.topValues_succ h.1, List.append_assoc, Ctx.pop_sub]
    rfl

/-- Whatever the slots, popping calls nothing, and with enough of them it returns. It may return
with an error, when a tag is not that of the parameter. -/
theorem popArgs_returns (ft : FwModuleType) :
    ∀ (n : ℕ) (args : List UInt64) (s : Machine),
      hostCalls (fwPopArgs ft n args s).log = [] ∧
      (∀ args' s', (fwPopArgs ft n args s).res = .ok (some args', s') →
        args'.length = n + args.length) ∧
      (n ≤ s.ctx.pos → n ≤ ft.val.length → ∃ r s', (fwPopArgs ft n args s).res = .ok (r, s'))
  | 0, args, s => by
    refine ⟨rfl, fun args' s' h => ?_, fun _ _ => ⟨_, s, rfl⟩⟩
    obtain ⟨h, -⟩ := Prod.mk.inj (Except.ok.inj h)
    rw [← Option.some.inj h, Nat.zero_add]
  | n + 1, args, s => by
    by_cases hpos : s.ctx.pos = 0
    · have hpop := fwPop_of_eq hpos false
      rw [fwPopArgs, bind_of_error (by rw [hpop]), hpop]
      exact ⟨rfl, fun _ _ h => (by cases h), fun h => absurd h (by omega)⟩
    rw [fwPopArgs, bind_eq (fwPop_of_ne hpos)]
    cases htype : ft.val[n]? with
    | none =>
      exact ⟨rfl, fun _ _ h => (by cases h), fun _ h =>
        absurd (List.getElem?_eq_none_iff.mp htype) (Nat.not_le.mpr h)⟩
    | some type =>
      by_cases hne : (s.ctx.stack (s.ctx.pos - 1)).type ≠ type
      · simp only [if_pos hne]
        refine ⟨rfl, fun _ _ h => ?_, fun _ _ => ⟨_, _, rfl⟩⟩
        cases (Prod.mk.inj (Except.ok.inj h)).1
      · simp only [if_neg hne]
        obtain ⟨hlog, hlen, hret⟩ := popArgs_returns ft n
          ((s.ctx.stack (s.ctx.pos - 1)).val :: args) { s with ctx := s.ctx.pop }
        refine ⟨hlog, fun args' s' h => ?_, fun hn hval =>
          hret (Nat.le_sub_one_of_lt hn) (Nat.le_of_succ_le hval)⟩
        rw [hlen args' s' h, List.length_cons]
        omega

/-- With room for them the results are pushed. The type of a result is looked up behind those of the
parameters. -/
theorem pushRets_ok (ft : FwModuleType) (rets : ℕ → UInt64) :
    ∀ (n i : ℕ) (s : Machine), (0 < n → ft.paramCnt.toNat < ft.val.length) →
      s.ctx.pos + n ≤ s.ctx.fin →
      (∃ s', (fwPushRets ft rets n i s).res = .ok (⟨⟩, s')) ∧
        hostCalls (fwPushRets ft rets n i s).log = []
  | 0, i, s, _, _ => ⟨⟨s, rfl⟩, rfl⟩
  | n + 1, i, s, htype, hroom => by
    have htype := htype (Nat.succ_pos n)
    rw [fwPushRets]
    simp only [List.getElem?_eq_getElem htype]
    rw [bind_eq (fwPush_of_lt (by omega) _)]
    exact pushRets_ok ft rets n (i + 1) _ (fun _ => htype)
      (by change s.ctx.pos + 1 + n ≤ s.ctx.fin; omega)

/-- The outcome of a host function: it was called once, with the values of its arguments, and these
are replaced by its results. -/
structure Marshalled (env : Env) (ft : FwModuleType) (addr : ℕ) (s : Machine)
    (o : Outcome Event Halt Machine Status) (s' : Machine) : Prop where
  /-- it returns `FW_OK` -/
  ok : o.res = .ok (.ok, s')
  /-- argument `k` is the value of the `k`-th of the top slots, the deepest first -/
  called : hostCalls o.log = [(addr, s.ctx.topValues ft.paramCnt.toNat)]
  /-- the depth -/
  depth : s'.ctx.pos = s.ctx.pos - ft.paramCnt.toNat + ft.resCnt.toNat
  /-- the slots below the arguments -/
  below : ∀ i < s.ctx.pos - ft.paramCnt.toNat, s'.ctx.stack i = s.ctx.stack i
  /-- the first result is what the host function returned, with the type of the first result -/
  result : 0 < ft.resCnt.toNat → s'.ctx.stack (s.ctx.pos - ft.paramCnt.toNat) =
    .plain (ft.val.getD ft.paramCnt.toNat 0)
      (env.host s.tick addr (s.ctx.topValues ft.paramCnt.toNat))

/-- A host function of at most 20 parameters gets its arguments and gives its result. The stack has
values of the right types and room for the results, so nothing in the three steps goes wrong; the
array of the results is uninitialised but for the first entry, which is what the function returned.
-/
theorem hostFunc_marshalled (env : Env) {func : FwModuleFunc} (addr : ℕ) {s : Machine}
    (hle : func.functype.paramCnt.toNat ≤ 20)
    (hval : func.functype.val.length =
      func.functype.paramCnt.toNat + func.functype.resCnt.toNat)
    (htypes : s.ctx.TopTypes func.functype func.functype.paramCnt.toNat)
    (hroom : s.ctx.pos - func.functype.paramCnt.toNat + func.functype.resCnt.toNat ≤ s.ctx.fin) :
    ∃ s', Marshalled env func.functype addr s (fwModuleRunHostFunc env func addr s) s' := by
  set p := func.functype.paramCnt.toNat with hp
  set m := func.functype.resCnt.toNat with hm
  let args := s.ctx.topValues p
  have hargs : args.length = p := by simp [args, Ctx.topValues]
  let s₁ : Machine := { s with ctx := { s.ctx with pos := s.ctx.pos - p }, tick := s.tick + 1 }
  let rets := if m ≠ 0 then Function.update (env.rets s.tick) 0 (env.host s.tick addr args)
    else env.rets s.tick
  obtain ⟨hpop, hpopLog⟩ := popArgs_ok p [] s htypes
  rw [List.append_nil] at hpop
  have hcall : _fwModuleRunHostFunc env s.tick addr m args s₁ =
      ⟨[.host addr args], .ok (some rets, s₁)⟩ := by
    rw [_fwModuleRunHostFunc, fwHostArgs_eq, if_pos (hargs ▸ hle)]
    rfl
  obtain ⟨⟨s', hpush⟩, hpushLog⟩ := pushRets_ok func.functype rets m 0 s₁ (by omega) hroom
  obtain ⟨hpos, hbelow, hrets⟩ := pushRets_eq_ok hpush
  have hrun : fwModuleRunHostFunc env func addr s =
      ⟨(fwPopArgs func.functype p [] s).log ++ ([] ++ ([.host addr args] ++
        ((fwPushRets func.functype rets m 0 s₁).log ++ []))), .ok (.ok, s')⟩ := by
    rw [fwModuleRunHostFunc, bind_of_ok hpop]
    simp only
    rw [bind_eq (nextTick_apply _), bind_eq hcall]
    simp only
    rw [bind_of_ok hpush]
    rfl
  refine ⟨s', ?_⟩
  rw [hrun]
  refine ⟨rfl, ?_, hpos, hbelow, fun hpos => ?_⟩
  · simp only [hostCalls_append, hpopLog, hpushLog]
    rfl
  · have hfirst := hrets 0 hpos
    rw [Nat.add_zero, Nat.add_zero] at hfirst
    have hret : rets 0 = env.host s.tick addr args := by
      simp only [rets, if_pos (show m ≠ 0 from Nat.pos_iff_ne_zero.mp hpos), Function.update_self]
    rw [hfirst, hret]

/-- A host function of more than 20 parameters is not called, and `FW_ERR` is returned. The
arguments are popped before the number is looked at, so they are gone. -/
theorem hostFunc_tooMany (env : Env) {func : FwModuleFunc} (addr : ℕ) {s : Machine}
    (hlt : 20 < func.functype.paramCnt.toNat) :
    hostCalls (fwModuleRunHostFunc env func addr s).log = [] ∧
      (func.functype.paramCnt.toNat ≤ s.ctx.pos →
        func.functype.paramCnt.toNat ≤ func.functype.val.length →
        ∃ s', (fwModuleRunHostFunc env func addr s).res = .ok (.err, s')) := by
  obtain ⟨hlog, hlen, hret⟩ :=
    popArgs_returns func.functype func.functype.paramCnt.toNat [] s
  rcases hpop : (fwPopArgs func.functype func.functype.paramCnt.toNat [] s).res with
    e | ⟨args, s₁⟩
  · rw [fwModuleRunHostFunc, bind_of_error hpop]
    refine ⟨hlog, fun hpos hval => ?_⟩
    obtain ⟨_, _, hret⟩ := hret hpos hval
    rw [hpop] at hret
    cases hret
  · rw [fwModuleRunHostFunc, bind_of_ok hpop]
    cases args with
    | none => exact ⟨by rw [hostCalls_append, hlog]; rfl, fun _ _ => ⟨s₁, rfl⟩⟩
    | some args =>
      have hcall : _fwModuleRunHostFunc env s₁.tick addr func.functype.resCnt.toNat args
          { s₁ with tick := s₁.tick + 1 } = ⟨[], .ok (none, { s₁ with tick := s₁.tick + 1 })⟩ := by
        rw [_fwModuleRunHostFunc, fwHostArgs_eq, if_neg (by rw [hlen args s₁ hpop]; simpa)]
        rfl
      simp only
      rw [bind_eq (nextTick_apply s₁), bind_eq hcall]
      exact ⟨by rw [hostCalls_append, hlog]; rfl, fun _ _ => ⟨_, rfl⟩⟩

/-- How a host function is called. The type has its parameters and results in one array, as the
loader leaves it (`hval`). With at most 20 parameters, the operands on the stack having their types
and the stack having room for the results, it is called once, on the values of its operands in
order, and these are replaced by its results. With more than 20 it is not called at all and, as long
as there are operands to pop, `FW_ERR` is returned. -/
theorem hostFunc_marshals (env : Env) (func : FwModuleFunc) (addr : ℕ) (s : Machine)
    (hval : func.functype.val.length =
      func.functype.paramCnt.toNat + func.functype.resCnt.toNat) :
    (func.functype.paramCnt.toNat ≤ 20 →
      s.ctx.TopTypes func.functype func.functype.paramCnt.toNat →
      s.ctx.pos - func.functype.paramCnt.toNat + func.functype.resCnt.toNat ≤ s.ctx.fin →
      ∃ s', Marshalled env func.functype addr s (fwModuleRunHostFunc env func addr s) s') ∧
    (20 < func.functype.paramCnt.toNat →
      hostCalls (fwModuleRunHostFunc env func addr s).log = [] ∧
      (func.functype.paramCnt.toNat ≤ s.ctx.pos →
        ∃ s', (fwModuleRunHostFunc env func addr s).res = .ok (.err, s'))) := by
  refine ⟨fun hle htypes hroom => hostFunc_marshalled env addr hle hval htypes hroom, fun hlt => ?_⟩
  obtain ⟨hlog, hres⟩ := hostFunc_tooMany env addr hlt
  exact ⟨hlog, fun hpos => hres hpos (hval ▸ Nat.le_add_right _ _)⟩

end

/-- An imported function that takes three values of two types and gives one of a third. -/
def threeToOne : FwModuleFunc :=
  ⟨1, ⟨3, 1, [fwI32, fwI64, fwI32, fwF32]⟩, ⟨0, 0⟩, some 1, .init⟩

/-! ### Calls of host functions and of wasm functions

The functions and machines that the results about calls are tried on. -/

/-- A wasm function with one parameter, no result and nothing in its body. -/
def dropArg : FwModuleFunc := ⟨0, ⟨1, 0, [fwI32]⟩, ⟨1, 2⟩, none, .init⟩

/-- The immediate of a call of function 0, and behind it the bytes of `dropArg`. -/
def dropArgEnv : Env := zeroEnv (memOf [0x00, 0x0b]) [dropArg]

/-- A machine with one operand, an `i32`, on a stack of the full size. -/
def oneOperand : Machine :=
  ⟨⟨fun _ => .plain fwI32 7, 1, fwMaxStackSize, none, ⟨0, 0⟩⟩, [], 0⟩

/-- A machine with four operands, the last three of which are arguments for `threeToOne`. -/
def fourOperands : Machine :=
  ⟨⟨fun i => ([.plain fwF64 9, .plain fwI32 7, .plain fwI64 8, .plain fwI32 6] : List Slot).getD i
    (.plain 0 0), 4, fwMaxStackSize, none, ⟨0, 0⟩⟩, [], 0⟩

/-- An imported function is called with its arguments in order, its result takes their place, and
the operand below them stays. -/
theorem threeToOne_marshals :
    ∃ s', (fwModuleRunHostFunc dropArgEnv threeToOne 1 fourOperands).res = .ok (.ok, s') ∧
      hostCalls (fwModuleRunHostFunc dropArgEnv threeToOne 1 fourOperands).log =
        [(1, [7, 8, 6])] ∧
      s'.ctx.pos = 2 ∧ s'.ctx.stack 0 = .plain fwF64 9 ∧
      s'.ctx.stack 1 = .plain fwF32 (dropArgEnv.host 0 1 [7, 8, 6]) := by
  have htypes : fourOperands.ctx.TopTypes threeToOne.functype 3 := by
    refine ⟨by decide, fun k hk => ?_⟩
    match k, hk with
    | 0, _ | 1, _ | 2, _ => rfl
  obtain ⟨s', h⟩ := (hostFunc_marshals dropArgEnv threeToOne 1 fourOperands rfl).1 (by decide)
    htypes (by decide)
  exact ⟨s', h.ok, h.called, h.depth, h.below 0 (by decide), h.result Nat.one_pos⟩

end FastWasm
