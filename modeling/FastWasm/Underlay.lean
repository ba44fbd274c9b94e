import FastWasm.Coupled
import FastWasm.Footprint

/-!
# A slot under the operands

A computation that takes only what lies above a slot of the operand stack does the same when the
slot is not there. The slot is not noticed by a `return` either, if the function that returns was
entered above it.

The two runs are related by moving everything above the slot one place down (`Under`). That is kept
by whatever touches slots from the next depth on only, which is what the monitor allows; the frames
of functions that are entered above the slot have depths that differ by one. Below 256 that is so in
eight bits too, and a `return` by a frame whose depth has wrapped is not allowed. The comparison
goes through every handler, every loop and every call by the rules for coupled computations.
-/

namespace FastWasm

open Logged

/-! ## One round

Taken apart from the loop, so that rounds can be compared one by one. -/

section

variable (env : Env) (r : Interp) (func : FwModuleFunc) (body : FwStr)

/-- One round of a dispatch loop: where it goes on, `none` behind an opcode that is not known. A
loop is its rounds, one after the other. -/
def dispatchRound : Run (Option FwStr) := do
  let s ← get
  emit (.fetch body.pos s.ctx)
  match fwGetInstr (env.mem body.pos) with
  | none => pure none
  | some instr =>
    match instr.run with
    | none => halt (.fault .nullHandler)
    | some fn => do
      let x ← fn.run env r func ⟨body.pos + 1, body.last⟩
      pure (some x.2)

/-- The loop is its first round and the rest, as long as the cursor is before the end. -/
theorem dispatchLoop_of_lt (h : body.pos < body.last) :
    dispatchLoop env r func body = dispatchRound env r func body >>= fun next =>
      match next with
      | none => pure .badOpcode
      | some next => r.loop func next := by
  rw [dispatchLoop, if_pos h, fwStrGet8_of_lt h, dispatchRound, bind_assoc]
  refine congrArg (get >>= ·) (funext fun s => ?_)
  rw [bind_assoc]
  refine congrArg (emit _ >>= ·) (funext fun _ => ?_)
  cases fwGetInstr (env.mem body.pos) with
  | none => rw [pure_bind]
  | some instr =>
    cases hf : instr.run with
    | none => simp only [hf, halt_bind]
    | some fn => simp only [hf, bind_assoc, pure_bind]

end

/-! ## What lies above a slot

Both machines have the same operands above the slot, in the one at a depth greater by one. So they
take the same steps, as long as these do not go below. -/

/-- Allows what touches the operand stack above slot `d` only. A `return` goes to a depth above `d`,
of a function entered on the way. -/
def ownMonitor (d : ℕ) : Monitor Bool Event where
  step g e := match e with
    | .enter _ _ => true
    | _ => g
  ok g e := match e with
    | .slot i _ _ => d < i
    | .ret _ before _ _ => g = true ∧ d < before.frame.stackDeepth.toNat
    | _ => True

theorem ownMonitor_quiet (d : ℕ) (g : Bool) (e : Event) (he : e.Quiet) :
    (ownMonitor d).step g e = g := by
  cases e with
  | enter | fetch | leave | ret => exact he.elim
  | slot | limit | alloc | free | uninit | host | errLabel | err => rfl

/-- `t` is `s` with the slot `lbl` under the operands from depth `d` on. What was once on the stack
is still there up to `top`, since a pop does not clear the slot and a `return` may copy it. -/
structure Under (d : ℕ) (lbl : Slot) (top : ℕ) (g : Bool) (t s : Machine) : Prop where
  /-- the depth -/
  pos : t.ctx.pos = s.ctx.pos + 1
  /-- the slot is on the stack -/
  above : d ≤ s.ctx.pos
  /-- the highest depth so far -/
  le_top : s.ctx.pos ≤ top
  /-- the operands above the slot -/
  operands : ∀ i, d ≤ i → i < top → t.ctx.stack (i + 1) = s.ctx.stack i
  /-- the slot -/
  label : t.ctx.stack d = lbl
  /-- the operands below it -/
  below : ∀ i < d, t.ctx.stack i = s.ctx.stack i
  /-- everything else is the same -/
  fin : t.ctx.fin = s.ctx.fin
  locals : t.ctx.locals = s.ctx.locals
  heap : t.heap = s.heap
  tick : t.tick = s.tick
  frameFin : t.ctx.frame.fin = s.ctx.frame.fin
  /-- a function entered on the way returns to the same operand -/
  depth : g = true → t.ctx.frame.stackDeepth.toNat ≤ d ∨
    (t.ctx.frame.stackDeepth.toNat = s.ctx.frame.stackDeepth.toNat + 1 ∧
      s.ctx.frame.stackDeepth.toNat ≤ top)

/-- Write a slot, wherever it is. -/
def Machine.write (s : Machine) (i : ℕ) (st : Slot) : Machine :=
  { s with ctx := { s.ctx with stack := Function.update s.ctx.stack i st } }

/-- Set the operand depth. -/
def Machine.setPos (s : Machine) (pos : ℕ) : Machine := { s with ctx := { s.ctx with pos := pos } }

section

variable {d top : ℕ} {lbl : Slot} {g : Bool} {t s : Machine}

namespace Under

theorem write (h : Under d lbl top g t s) {j : ℕ} (hj : d ≤ j) (htop : j ≤ top) (st : Slot) :
    Under d lbl (max top (j + 1)) g (t.write (j + 1) st) (s.write j st) where
  pos := h.pos
  above := h.above
  le_top := h.le_top.trans (le_max_left ..)
  operands := by
    intro i hd hi
    change Function.update t.ctx.stack (j + 1) st (i + 1) = Function.update s.ctx.stack j st i
    by_cases hij : i = j
    · rw [hij, Function.update_self, Function.update_self]
    · have hlt : i < top := by omega
      rw [Function.update_of_ne hij, Function.update_of_ne (by omega), h.operands i hd hlt]
  label := (Function.update_of_ne (by omega) ..).trans h.label
  below := fun i hi => (Function.update_of_ne (by omega) ..).trans
    ((h.below i hi).trans (Function.update_of_ne (by omega) ..).symm)
  fin := h.fin
  locals := h.locals
  heap := h.heap
  tick := h.tick
  frameFin := h.frameFin
  depth := fun hg => (h.depth hg).imp_right fun hd => ⟨hd.1, hd.2.trans (le_max_left ..)⟩

theorem setPos (h : Under d lbl top g t s) {pos : ℕ} (hd : d ≤ pos) (htop : pos ≤ top) :
    Under d lbl top g (t.setPos (pos + 1)) (s.setPos pos) :=
  { h with pos := rfl, above := hd, le_top := htop }

theorem push (h : Under d lbl top g t s) (st : Slot) :
    Under d lbl (max top (s.ctx.pos + 1)) g { t with ctx := t.ctx.push st }
      { s with ctx := s.ctx.push st } := by
  have ht : { t with ctx := t.ctx.push st } =
      (t.write (s.ctx.pos + 1) st).setPos (s.ctx.pos + 1 + 1) := by
    rw [Ctx.push, h.pos]
    rfl
  rw [ht]
  exact (h.write h.above h.le_top st).setPos (h.above.trans (Nat.le_succ _)) (le_max_right ..)

theorem pop (h : Under d lbl top g t s) (hd : d < t.ctx.pos - 1) :
    Under d lbl top g { t with ctx := t.ctx.pop } { s with ctx := s.ctx.pop } := by
  have hpos := h.pos
  have hle := h.le_top
  have ht : { t with ctx := t.ctx.pop } = t.setPos (s.ctx.pos - 1 + 1) := by
    rw [Ctx.pop, h.pos, Nat.add_sub_cancel, Nat.sub_add_cancel (by omega)]
    rfl
  rw [ht]
  exact h.setPos (by omega) (by omega)

/-- The operands above the slot are the same in both, counted from the top. -/
theorem get (h : Under d lbl top g t s) {n : ℕ} (hd : d < t.ctx.pos - (n + 1)) :
    t.ctx.stack (t.ctx.pos - (n + 1)) = s.ctx.stack (s.ctx.pos - (n + 1)) := by
  have hle := h.le_top
  rw [h.pos] at hd ⊢
  obtain ⟨p, hp⟩ : ∃ p, s.ctx.pos = p + 1 + n := ⟨s.ctx.pos - n - 1, by omega⟩
  rw [hp] at hd hle ⊢
  have ht : p + 1 + n + 1 - (n + 1) = p + 1 := by omega
  have hs : p + 1 + n - (n + 1) = p := by omega
  rw [ht] at hd ⊢
  rw [hs]
  exact h.operands p (Nat.le_of_lt_succ hd) (by omega)

theorem setHeap (h : Under d lbl top g t s) (heap : List (Option FwFuncLocals)) :
    Under d lbl top g { t with heap := heap } { s with heap := heap } :=
  { h with heap := rfl }

theorem setLocals (h : Under d lbl top g t s) (locals : Option ℕ) :
    Under d lbl top g { t with ctx := { t.ctx with locals := locals } }
      { s with ctx := { s.ctx with locals := locals } } :=
  { h with locals := rfl }

theorem block (h : Under d lbl top g t s) (p : Option ℕ) : t.block p = s.block p := by
  rw [Machine.block, Machine.block, h.heap]

end Under

/-- Related with some `top`, that is whatever the highest depth so far was. -/
def Underlaid (d : ℕ) (lbl : Slot) (g : Bool) (t s : Machine) : Prop := ∃ top, Under d lbl top g t s

/-- The same computation, over the slot and without it. -/
abbrev Overlooks (d : ℕ) (lbl : Slot) {α : Type} (m : Run α) : Prop :=
  Carries (ownMonitor d) (Underlaid d lbl) m

namespace Overlooks

theorem push (st : Slot) : Overlooks d lbl (fwPush st) := by
  rintro g t s ⟨top, h⟩ a t' - hr
  rw [fwPush_apply] at hr
  rw [fwPush_apply, fwPush_apply]
  split at hr
  · cases hr
  · next hroom =>
    obtain ⟨-, rfl⟩ := Prod.mk.inj (Except.ok.inj hr)
    have hpos := h.pos
    have hfin := h.fin
    rw [if_neg (by omega), if_neg hroom]
    refine ⟨_, rfl, max top (s.ctx.pos + 1), ?_⟩
    exact h.push st

theorem room : Overlooks d lbl fwPushRoom := by
  rintro g t s ⟨top, h⟩ a t' - hr
  rw [fwPushRoom_apply] at hr
  rw [fwPushRoom_apply, fwPushRoom_apply]
  split at hr
  · cases hr
  · next hroom =>
    obtain ⟨-, rfl⟩ := Prod.mk.inj (Except.ok.inj hr)
    have hpos := h.pos
    have hfin := h.fin
    rw [if_neg (by omega), if_neg hroom]
    exact ⟨s, rfl, top, h⟩

theorem pop (peek : Bool) : Overlooks d lbl (fwPop peek) := by
  rintro g t s ⟨top, h⟩ a t' hl hr
  rw [fwPop_apply] at hl hr
  rw [fwPop_apply, fwPop_apply]
  split at hr
  · cases hr
  · next hne =>
    rw [if_neg hne] at hl
    obtain ⟨rfl, rfl⟩ := Prod.mk.inj (Except.ok.inj hr)
    have hd : d < t.ctx.pos - 1 := hl.1
    have hpos := h.pos
    have hle := h.le_top
    rw [if_neg (by omega), if_neg hne]
    rw [h.get hd]
    cases peek with
    | true => exact ⟨_, rfl, top, h⟩
    | false => exact ⟨_, rfl, top, h.pop hd⟩

theorem stackGet (idx : ℕ) : Overlooks d lbl (fwStackGet idx) := by
  rintro g t s ⟨top, h⟩ a t' hl hr
  rw [fwStackGet_apply] at hl hr
  rw [fwStackGet_apply, fwStackGet_apply]
  split at hr
  · cases hr
  · next hne =>
    rw [if_neg hne] at hl
    obtain ⟨rfl, rfl⟩ := Prod.mk.inj (Except.ok.inj hr)
    have hd : d < t.ctx.pos - (idx + 1) := hl.1
    have hpos := h.pos
    rw [if_neg (by omega), if_neg hne, h.get hd]
    exact ⟨_, rfl, top, h⟩

/-! ### Locals blocks

They are the same on both sides, and so is `ctx->locals`. -/

theorem localsRead (idx : ℕ) : Overlooks d lbl (fwLocalsRead idx) := by
  rintro g t s ⟨top, h⟩
  refine Coupled.get_bind ?_
  rw [h.block, h.locals]
  cases s.block s.ctx.locals with
  | none => exact Coupled.halt _ _
  | some b =>
    cases hv : b.locals[idx]? with
    | none =>
      simp only [hv]
      exact Coupled.halt _ _
    | some v =>
      simp only [hv]
      exact Coupled.pure ⟨top, h⟩ v

theorem localsWrite (p : Option ℕ) (idx : ℕ) (val : UInt64) :
    Overlooks d lbl (fwLocalsWrite p idx val) := by
  rintro g t s ⟨top, h⟩
  refine Coupled.get_bind ?_
  rw [h.block]
  cases p with
  | none => exact Coupled.halt _ _
  | some id =>
    cases s.block (some id) with
    | none => exact Coupled.halt _ _
    | some b =>
      refine Coupled.ite (fun _ => Coupled.set _ _ ⟨top, ?_⟩) fun _ => Coupled.halt _ _
      rw [h.heap]
      exact h.setHeap _

theorem localsCalloc (n : ℕ) : Overlooks d lbl (fwLocalsCalloc n) := by
  rintro g t s ⟨top, h⟩
  refine Coupled.get_bind (Coupled.emit_bind fun _ => Coupled.set_bind ?_)
  rw [h.heap]
  exact Coupled.pure ⟨top, h.setHeap _⟩ _

theorem localsFreeIf (p : Option ℕ) : Overlooks d lbl (fwLocalsFreeIf p) := by
  cases p with
  | none => exact .pure _
  | some id =>
    rintro g t s ⟨top, h⟩
    refine Coupled.get_bind ?_
    rw [h.block]
    cases s.block (some id) with
    | none => exact Coupled.halt _ _
    | some b =>
      refine Coupled.emit_bind fun _ => Coupled.set _ _ ⟨top, ?_⟩
      rw [h.heap]
      exact h.setHeap _

theorem tick : Overlooks d lbl nextTick := by
  rintro g t s ⟨top, h⟩
  refine Coupled.get_bind (Coupled.set_bind ?_)
  rw [h.tick]
  exact Coupled.pure ⟨top, { h with tick := rfl }⟩ _

theorem copyParams (locals : Option ℕ) (paramCnt : ℕ) :
    ∀ n, Overlooks d lbl (fwCopyParams locals paramCnt n)
  | 0 => .pure _
  | n + 1 => (stackGet n).bind fun _ => (localsWrite _ _ _).bind fun _ =>
      copyParams locals paramCnt n

/-! ### `return`

The one step that does not go by the top of the stack. It goes by the depth in the frame, which
differs by one when the function was entered above the slot. -/

/-- A copy, and what follows, with the two indices one lower on the other side. -/
theorem copy_bind {α : Type} {K K' : Run α} {oldpos i : ℕ} (h : Under d lbl top g t s)
    (hi : i < top)
    (hK : d ≤ oldpos → Coupled (ownMonitor d) (Underlaid d lbl) g
      (t.write (oldpos + 1) (s.ctx.stack i)) (s.write oldpos (s.ctx.stack i)) K K') :
    Coupled (ownMonitor d) (Underlaid d lbl) g t s (fwStackCopy (oldpos + 1) (i + 1) >>= fun _ => K)
      (fwStackCopy oldpos i >>= fun _ => K') := by
  intro a t' hl hr
  rw [bind_eq (fwStackCopy_apply t _ _)] at hl hr ⊢
  rw [bind_eq (fwStackCopy_apply s _ _)]
  obtain ⟨hsrc, hdst, hl⟩ := hl
  have hsrc : d < i + 1 := hsrc
  have hdst : d < oldpos + 1 := hdst
  have hK := hK (Nat.le_of_lt_succ hdst)
  rw [← h.operands i (Nat.le_of_lt_succ hsrc) hi] at hK
  have hs : s.write oldpos (t.ctx.stack (i + 1)) = { s with ctx := s.ctx.copy oldpos i } := by
    rw [h.operands i (Nat.le_of_lt_succ hsrc) hi]
    rfl
  rw [hs] at hK
  exact hK a t' hl hr

/-- The results, moved one slot lower, and what follows. -/
theorem moveRets_bind {α : Type} {K K' : ℕ → Run α} :
    ∀ {n oldpos i top : ℕ} {t s : Machine}, Under d lbl top g t s → oldpos ≤ top →
      (0 < n → i + n ≤ top) →
      (∀ top t s, Under d lbl top g t s → oldpos + n ≤ top →
        Coupled (ownMonitor d) (Underlaid d lbl) g t s (K (oldpos + n + 1)) (K' (oldpos + n))) →
      Coupled (ownMonitor d) (Underlaid d lbl) g t s (fwMoveRets n (oldpos + 1) (i + 1) >>= K)
        (fwMoveRets n oldpos i >>= K')
  | 0, oldpos, i, top, t, s, h, ho, _, hK => by
    rw [fwMoveRets, fwMoveRets, pure_bind, pure_bind]
    exact hK top t s h ho
  | n + 1, oldpos, i, top, t, s, h, ho, hi, hK => by
    have hi := hi (Nat.succ_pos n)
    rw [fwMoveRets, fwMoveRets, bind_assoc, bind_assoc]
    refine copy_bind h (by omega) fun hd => ?_
    refine moveRets_bind (h.write hd ho _) (le_max_right ..)
      (fun _ => (by omega : i + 1 + n ≤ top).trans (le_max_left ..)) fun top t s h htop => ?_
    have hsum : oldpos + 1 + n = oldpos + (n + 1) := by omega
    rw [hsum] at htop ⊢
    exact hK top t s h htop

theorem moveRetsTo (h : Under d lbl top g t s) {oldpos i : ℕ} (hd : d ≤ oldpos)
    (ho : oldpos ≤ top) : Coupled (ownMonitor d) (Underlaid d lbl) g t s
      (fwMoveRetsTo (oldpos + 1) (i + 1)) (fwMoveRetsTo oldpos i) := by
  have hpos := h.pos
  have hle := h.le_top
  rw [fwMoveRetsTo, fwMoveRetsTo]
  by_cases hne : i ≠ oldpos
  · rw [if_pos hne, if_pos (by omega)]
    refine Coupled.get_bind ?_
    have hn : t.ctx.pos - (i + 1) = s.ctx.pos - i := by omega
    rw [hn]
    refine moveRets_bind h ho (fun hn => by omega) fun top t s h htop => Coupled.get_bind ?_
    exact Coupled.set _ _ ⟨top, h.setPos (hd.trans (Nat.le_add_right ..)) htop⟩
  · rw [if_neg hne, if_neg (by omega)]
    exact Coupled.pure ⟨top, h⟩ _

/-- Results that start in the first slot are not above any slot. -/
theorem not_own_moveRetsTo {oldpos : ℕ} (ho : 0 < oldpos) (hpos : 0 < t.ctx.pos) :
    ¬ (ownMonitor d).Accepts g (fwMoveRetsTo oldpos 0 t).log := by
  intro hl
  obtain ⟨p, hp⟩ : ∃ p, t.ctx.pos = p + 1 := ⟨_, (Nat.succ_pred_eq_of_pos hpos).symm⟩
  rw [fwMoveRetsTo, if_pos ho.ne, get_bind_apply, Nat.sub_zero, hp, fwMoveRets, bind_assoc,
    bind_eq (fwStackCopy_apply t _ _)] at hl
  exact absurd hl.1 (Nat.not_lt_zero d)

theorem return_ (func : FwModuleFunc) (body : FwStr) :
    Overlooks d lbl (fwInstrRunReturn func body) := by
  rintro g t s ⟨top, h⟩ a t' hl hr
  have hpos := h.pos
  -- the event after the moves says where the function was entered
  obtain ⟨hmoves, hg, hd⟩ : (ownMonitor d).Accepts g (fwMoveRetsTo t.ctx.frame.stackDeepth.toNat
        ((t.ctx.pos + 2 ^ 32 - func.functype.resCnt.toNat) % 2 ^ 32) t).log ∧
      g = true ∧ d < t.ctx.frame.stackDeepth.toNat := by
    rw [fwInstrRunReturn, get_bind_apply] at hl hr
    obtain ⟨_, t₁, hm, -, hlog⟩ := bind_eq_ok hr
    rw [hlog, (ownMonitor d).accepts_append,
      (ownMonitor d).after_eq_self (ownMonitor_quiet d) fun e he =>
        ((StackOnly.moveRetsTo _ _ t).1 e he).quiet] at hl
    exact ⟨hl.1, hl.2.1⟩
  obtain ⟨hdepth, htop⟩ : t.ctx.frame.stackDeepth.toNat =
      s.ctx.frame.stackDeepth.toNat + 1 ∧ s.ctx.frame.stackDeepth.toNat ≤ top :=
    (h.depth hg).resolve_left (Nat.not_le_of_lt hd)
  have hi : (t.ctx.pos + 2 ^ 32 - func.functype.resCnt.toNat) % 2 ^ 32 =
      (s.ctx.pos + 2 ^ 32 - func.functype.resCnt.toNat) % 2 ^ 32 + 1 := by
    have hres := func.functype.resCnt.toNat_lt
    have hne : (t.ctx.pos + 2 ^ 32 - func.functype.resCnt.toNat) % 2 ^ 32 ≠ 0 := fun h0 =>
      not_own_moveRetsTo (Nat.zero_lt_of_lt hd) (by omega) (h0 ▸ hmoves)
    omega
  rw [hdepth] at hd
  have hbody : Coupled (ownMonitor d) (Underlaid d lbl) g t s (fwInstrRunReturn func body)
      (fwInstrRunReturn func body) := by
    refine Coupled.get_bind ?_
    rw [hi, hdepth, h.frameFin]
    refine (moveRetsTo h (Nat.le_of_lt_succ hd) htop).bind fun _ g t s h => Coupled.get_bind ?_
    exact Coupled.emit_bind fun _ => Coupled.pure h _
  exact hbody a t' hl hr

/-! ### Handlers

Each is compared with itself, on related machines. -/

section

variable {env : Env} {r : Interp} {func : FwModuleFunc} {body : FwStr}

theorem error {α : Type} (a : α) : Overlooks d lbl (do emit .err; pure a : Run α) :=
  (Carries.emit fun _ => rfl).bind fun _ => .pure a

theorem readLeb {maxbit : ℕ} {k : UInt64 → FwStr → Run (Status × FwStr)}
    (hk : ∀ val body', Overlooks d lbl (k val body')) :
    Overlooks d lbl (readLeb env maxbit body k) := by
  rw [FastWasm.readLeb]
  cases fwStrLebGetu env.mem body maxbit with
  | hang => exact .halt _
  | strErr => exact error _
  | got val body' => exact hk val body'

theorem writeLocal (idx : ℕ) (val : UInt64) : Overlooks d lbl
    (do let s ← get; fwLocalsWrite s.ctx.locals idx val; pure (Status.ok, body)) := by
  rintro g t s ⟨top, h⟩
  refine Coupled.get_bind ?_
  rw [h.locals]
  exact ((localsWrite _ _ _).bind fun _ => .pure _) g t s ⟨top, h⟩

theorem popArgs (ft : FwModuleType) : ∀ n args, Overlooks d lbl (fwPopArgs ft n args)
  | 0, _ => .pure _
  | n + 1, args => by
    refine (pop false).bind fun st => ?_
    cases ft.val[n]? with
    | none => exact .halt _
    | some type => exact .ite (fun _ => error _) fun _ => popArgs ft n _

theorem pushRets (ft : FwModuleType) (rets : ℕ → UInt64) :
    ∀ n i, Overlooks d lbl (fwPushRets ft rets n i)
  | 0, _ => .pure _
  | n + 1, i => by
    rw [fwPushRets]
    cases ft.val[ft.paramCnt.toNat]? with
    | none => exact .halt _
    | some type => exact (push _).bind fun _ => pushRets ft rets n (i + 1)

theorem hostFunc (addr : ℕ) : Overlooks d lbl (fwModuleRunHostFunc env func addr) := by
  refine (popArgs _ _ _).bind fun args => ?_
  cases args with
  | none => exact .pure _
  | some args =>
    refine tick.bind fun n => Carries.bind ?_ fun rets => ?_
    · rw [_fwModuleRunHostFunc]
      cases fwHostArgs args with
      | none => exact .pure _
      | some args => exact (Carries.emit fun _ => rfl).bind fun _ => .pure _
    · cases rets with
      | none => exact error _
      | some rets => exact (pushRets _ _ _ _).bind fun _ => .pure _

theorem call (hfunc : ∀ f, Overlooks d lbl (r.func f)) :
    Overlooks d lbl (fwInstrRunCall env r body) := by
  refine readLeb fun idx body' => ?_
  cases env.funcs[idx.toUInt32.toNat]? with
  | none => exact .halt _
  | some f =>
    refine (hfunc f).bind fun status => ?_
    cases status with
    | err => exact error _
    | ok => exact .pure _

theorem if_ (hloop : ∀ body, Overlooks d lbl (r.loop func body)) :
    Overlooks d lbl (fwInstrRunIf env r func body) := by
  refine readLeb fun val body' => ?_
  cases fwInstrFindBlk func.blks body'.pos with
  | none => exact error _
  | some blk =>
    refine (pop false).bind fun cond => .ite (fun _ => error _) fun _ =>
      .ite (fun _ => error _) fun _ => ?_
    cases blk.els with
    | none => exact .halt _
    | some els =>
      cases blk.fin with
      | none => exact .halt _
      | some fin =>
        refine (hloop _).bind fun exit => ?_
        cases exit with
        | done b => exact .ite (fun _ => .pure _) fun _ => .pure _
        | badOpcode => exact error _
        | strErr => exact .pure _

theorem run (fn : RunFn) (hfunc : ∀ f, Overlooks d lbl (r.func f))
    (hloop : ∀ body, Overlooks d lbl (r.loop func body)) :
    Overlooks d lbl (fn.run env r func body) := by
  cases fn with
  | block =>
    refine readLeb fun resType body' => ?_
    cases fwInstrFindBlk func.blks body'.pos with
    | none => exact error _
    | some blk => exact (push _).bind fun _ => .pure _
  | loop => exact readLeb fun resType body' => (push _).bind fun _ => .pure _
  | if_ => exact if_ hloop
  | else_ =>
    refine (pop false).bind fun st => .ite (fun _ => error _) fun _ => ?_
    cases st.priv.bind (·.fin) with
    | none => exact .halt _
    | some fin => exact .pure _
  | end_ => exact .pure _
  | return_ => exact return_ func body
  | call => exact call hfunc
  | drop => exact (pop false).bind fun _ => .pure _
  | select =>
    exact (pop false).bind fun cond => (pop false).bind fun val2 =>
      (pop false).bind fun val1 => (push _).bind fun _ => .pure _
  | localGet =>
    exact readLeb fun idx body' => room.bind fun _ => (localsRead _).bind fun val =>
      (push _).bind fun _ => .pure _
  | localSet =>
    exact (pop false).bind fun cur => readLeb fun idx body' => writeLocal _ _
  | localTee =>
    exact readLeb fun idx body' => (pop true).bind fun cur => writeLocal _ _
  | i32Const | i64Const | f32Const | f64Const =>
    exact readLeb fun val body' => (push _).bind fun _ => .pure _
  | i32Eqz => exact (pop false).bind fun c1 => (push _).bind fun _ => .pure _
  | i32Eq | gtS =>
    exact (pop false).bind fun c2 => (pop false).bind fun c1 => (push _).bind fun _ => .pure _
  | i32Ne =>
    exact (pop false).bind fun c2 => (pop false).bind fun c1 =>
      .ite (fun _ => error _) fun _ => (push _).bind fun _ => .pure _

/-! ### Functions

Entering a function puts the depth into a frame, in eight bits. -/

theorem initLocals : Overlooks d lbl (fwInitLocals env func) :=
  .ite (fun _ => (localsCalloc _).bind fun _ => .pure _) fun _ =>
    tick.bind fun _ => (Carries.emit fun _ => rfl).bind fun _ => .pure _

/-- A function is entered one slot lower, unless the depth overflows. -/
theorem enterFunc : Overlooks d lbl (fwEnterFunc env func) := by
  refine initLocals.bind fun locals => (copyParams _ _ _).bind fun _ => ?_
  rintro g t s ⟨top, h⟩
  refine Coupled.get_bind (Coupled.emit_bind fun _ => Coupled.set_bind ?_)
  rw [h.locals]
  refine Coupled.pure ⟨top, { h with locals := rfl, frameFin := rfl, depth := fun _ => ?_ }⟩ _
  have hpos := h.pos
  have hle := h.le_top
  change t.ctx.pos % 256 ≤ d ∨ (t.ctx.pos % 256 = s.ctx.pos % 256 + 1 ∧ s.ctx.pos % 256 ≤ top)
  omega

theorem errLabel (saveLocals : Option ℕ) : Overlooks d lbl (fwErrLabel saveLocals) := by
  rintro g t s h
  refine Coupled.get_bind (Coupled.emit_bind fun _ => ?_)
  exact ((localsFreeIf saveLocals).bind fun _ => (Carries.emit fun _ => rfl).bind fun _ =>
    .pure _) g t s h

theorem leaveFunc (saveLocals : Option ℕ) (exit : LoopExit) :
    Overlooks d lbl (fwLeaveFunc saveLocals exit) := by
  have hleave : Overlooks d lbl (do emit .leave; pure Status.ok : Run _) :=
    (Carries.emit fun _ => rfl).bind fun _ => .pure _
  cases exit with
  | done body =>
    rintro g t s ⟨top, h⟩
    refine Coupled.get_bind ?_
    rw [h.locals]
    refine (localsFreeIf _ g t s ⟨top, h⟩).bind ?_
    rintro _ g t s ⟨top, h⟩
    refine Coupled.get_bind (Coupled.set_bind ?_)
    exact Carries.ite (fun _ => errLabel _) (fun _ => hleave) g _ _ ⟨top, h.setLocals _⟩
  | badOpcode => exact (Carries.emit fun _ => rfl).bind fun _ => errLabel _
  | strErr => exact hleave

end

/-- So does one round of a dispatch loop, and so do whole runs. -/
theorem round {env : Env} {r : Interp} {func : FwModuleFunc} {body : FwStr}
    (hfunc : ∀ f, Overlooks d lbl (r.func f)) (hloop : ∀ body, Overlooks d lbl (r.loop func body)) :
    Overlooks d lbl (dispatchRound env r func body) := by
  rintro g t s h
  refine Coupled.get_bind (Coupled.emit_bind fun _ => ?_)
  cases fwGetInstr (env.mem body.pos) with
  | none => exact Coupled.pure h _
  | some instr =>
    cases hf : instr.run with
    | none =>
      simp only [hf]
      exact Coupled.halt _ _
    | some fn =>
      simp only [hf]
      exact ((run fn hfunc hloop).bind fun _ => .pure _) g t s h

theorem interp {env : Env} (n : ℕ) : (∀ f, Overlooks d lbl ((interp env n).func f)) ∧
    ∀ f body, Overlooks d lbl ((interp env n).loop f body) := by
  refine interp_induction (p := fun r => (∀ f, Overlooks d lbl (r.func f)) ∧
    ∀ f body, Overlooks d lbl (r.loop f body)) ⟨fun _ => .halt _, fun _ _ => .halt _⟩
    (fun r ⟨hfunc, hloop⟩ => ⟨fun f => ?_, fun f body => ?_⟩) n
  · change Overlooks d lbl (_fwModuleRunFunc env r f)
    rw [_fwModuleRunFunc]
    cases f.hostAddr with
    | some addr => exact hostFunc addr
    | none => exact enterFunc.bind fun _ => (hloop f _).bind fun exit => leaveFunc _ exit
  · change Overlooks d lbl (dispatchLoop env r f body)
    by_cases hlt : body.pos < body.last
    · rw [dispatchLoop_of_lt env r f body hlt]
      refine (round hfunc (hloop f)).bind fun next => ?_
      cases next with
      | none => exact .pure _
      | some next => exact hloop f next
    · rw [dispatchLoop, if_neg hlt]
      exact .pure _

end Overlooks

end

end FastWasm
