import FastWasm.Stable

/-!
# The operand stack stays in its array

In every state of every run the depth is at most `FW_MAX_STACK_SIZE`, and every slot that is read or
written lies in the array; a full or an empty stack ends the run with `exit(-1)`. The macros check
this themselves. `fw_instr_run_return` does not: it copies at most 255 slots to a depth of at most
255.

The log has an event for every slot that is touched and one for the limit, so the property is that a
monitor accepts it: all events are within bounds, and nothing comes behind the limit. It holds of
every handler for one of two reasons. Either it uses the macros, or it leaves the operand stack
alone. The moves of a `return` are the only loop over slots, and their bounds are those of a
`uint8_t`: with fewer operands than results the depth would go below zero, and then there is nothing
to move.
-/

namespace FastWasm

open Logged

/-- The depth is within the array, which has `FW_MAX_STACK_SIZE` slots. -/
def Ctx.InBounds (ctx : Ctx) : Prop := ctx.pos ≤ ctx.fin ∧ ctx.fin = fwMaxStackSize

/-- What an event says about the stack is within bounds. -/
def Event.InBounds : Event → Prop
  | .slot i before after => i < fwMaxStackSize ∧ before.InBounds ∧ after.InBounds
  | .fetch _ ctx => ctx.InBounds
  | .ret _ before after _ => before.InBounds ∧ after.InBounds
  | _ => True

/-- Nothing happens after the limit was hit, and all events before are within bounds. -/
def limitMonitor : Monitor Bool Event where
  step hit e := match e with
    | .limit => true
    | _ => hit
  ok hit e := hit = false ∧ e.InBounds

/-- The limit was not hit, and the depth is within bounds. -/
def StackInv (hit : Bool) (s : Machine) : Prop := hit = false ∧ s.ctx.InBounds

/-- A run halts with `exit` exactly when the limit was hit. -/
def LimitExit (h : Halt) (hit : Bool) : Prop := hit = true ↔ h = .exit

/-- What keeps the bounds, from a machine within them and before the limit is hit. -/
abbrev KeepsStack {α : Type} (m : Run α) : Prop := Keeps limitMonitor StackInv LimitExit m

section

variable {α : Type} {env : Env} {r : Interp} {func : FwModuleFunc} {body : FwStr}

/-- A hit limit, then `exit`: nothing is done in between. -/
theorem limit_exit {hit : Bool} {s : Machine} (hs : StackInv hit s)
    {res : Except Halt (α × Machine)} (hres : res = .error .exit) :
    limitMonitor.Accepts hit [.limit] ∧
      Ends (fun _ => StackInv) LimitExit (limitMonitor.after hit [.limit]) res := by
  subst hres
  exact ⟨⟨⟨hs.1, trivial⟩, trivial⟩, iff_of_true rfl rfl⟩

/-- A computation that logs nothing about the stack and leaves the context alone keeps the bounds:
the monitor stays as it is on such a log, and the depth and the limit are what they were. -/
theorem keepsStack_of_ctx {m : Run α}
    (h : ∀ s, (∀ e ∈ (m s).log, e ≠ .limit ∧ e.InBounds) ∧
      ((∃ a s', (m s).res = .ok (a, s') ∧ s'.ctx.pos = s.ctx.pos ∧ s'.ctx.fin = s.ctx.fin) ∨
        ∃ h, (m s).res = .error h ∧ h ≠ .exit)) : KeepsStack m := by
  intro hit s ⟨hhit, hpos, hfin⟩
  subst hhit
  obtain ⟨hlog, hres⟩ := h s
  have hclosed : ∀ l : List Event, (∀ e ∈ l, e ≠ .limit ∧ e.InBounds) →
      limitMonitor.Accepts false l ∧ limitMonitor.after false l = false := by
    intro l hl
    induction l with
    | nil => exact ⟨trivial, rfl⟩
    | cons e l ih =>
      obtain ⟨⟨hne, hin⟩, hl⟩ := List.forall_mem_cons.mp hl
      have hstep : limitMonitor.step false e = false := by
        cases e <;> first | rfl | exact absurd rfl hne
      obtain ⟨ih₁, ih₂⟩ := ih hl
      simp only [Monitor.accepts_cons, Monitor.after_cons, hstep]
      exact ⟨⟨⟨rfl, hin⟩, ih₁⟩, ih₂⟩
  obtain ⟨hacc, hafter⟩ := hclosed _ hlog
  refine ⟨hacc, ?_⟩
  rw [hafter]
  rcases hres with ⟨a, s', hr, hp, hf⟩ | ⟨e, hr, he⟩ <;> rw [hr]
  · exact ⟨rfl, by rw [hp, hf]; exact hpos, by rw [hf]; exact hfin⟩
  · exact iff_of_false Bool.false_ne_true he

theorem keepsStack_emit {e : Event} (hne : e ≠ .limit) (hin : e.InBounds) :
    KeepsStack (emit e) :=
  keepsStack_of_ctx fun s => ⟨by simpa using ⟨hne, hin⟩, .inl ⟨_, _, rfl, rfl, rfl⟩⟩

theorem keepsStack_read (idx : ℕ) : KeepsStack (fwLocalsRead idx) := by
  refine keepsStack_of_ctx fun s => ?_
  obtain ⟨res, hm, hres⟩ := fwLocalsRead_apply s idx
  rw [hm]
  refine ⟨by simp, ?_⟩
  rcases hres with ⟨f, rfl⟩ | ⟨v, rfl⟩
  · exact .inr ⟨_, rfl, by simp⟩
  · exact .inl ⟨_, _, rfl, rfl, rfl⟩

theorem keepsStack_write (p : Option ℕ) (idx : ℕ) (val : UInt64) :
    KeepsStack (fwLocalsWrite p idx val) := by
  refine keepsStack_of_ctx fun s => ?_
  obtain ⟨res, hm, hres⟩ := fwLocalsWrite_apply s p idx val
  rw [hm]
  refine ⟨by simp, ?_⟩
  rcases hres with ⟨f, rfl⟩ | ⟨id, b, -, -, rfl⟩
  · exact .inr ⟨_, rfl, by simp⟩
  · exact .inl ⟨_, _, rfl, rfl, rfl⟩

theorem keepsStack_tick : KeepsStack nextTick :=
  keepsStack_of_ctx fun s => ⟨by simp [nextTick_apply], .inl ⟨_, _, rfl, rfl, rfl⟩⟩

theorem keepsStack_push (st : Slot) : KeepsStack (fwPush st) := by
  intro hit s hs
  rw [fwPush_apply]
  split
  · exact limit_exit hs rfl
  · next hlt =>
    obtain ⟨rfl, hpos, hfin⟩ := hs
    have hpush : (s.ctx.push st).InBounds := by
      refine ⟨?_, hfin⟩
      change s.ctx.pos + 1 ≤ s.ctx.fin
      omega
    exact ⟨⟨⟨rfl, by omega, ⟨hpos, hfin⟩, hpush⟩, trivial⟩, rfl, hpush⟩

theorem keepsStack_pop (peek : Bool) : KeepsStack (fwPop peek) := by
  intro hit s hs
  rw [fwPop_apply]
  split
  · exact limit_exit hs rfl
  · next hne =>
    obtain ⟨rfl, hpos, hfin⟩ := hs
    have hpop : (if peek then s.ctx else s.ctx.pop).InBounds := by
      cases peek with
      | true => exact ⟨hpos, hfin⟩
      | false => exact ⟨(Nat.sub_le _ _).trans hpos, hfin⟩
    exact ⟨⟨⟨rfl, by omega, ⟨hpos, hfin⟩, hpop⟩, trivial⟩, rfl, hpop⟩

theorem keepsStack_get (idx : ℕ) : KeepsStack (fwStackGet idx) := by
  intro hit s hs
  rw [fwStackGet_apply]
  split
  · exact limit_exit hs rfl
  · next hlt =>
    obtain ⟨rfl, hpos, hfin⟩ := hs
    exact ⟨⟨⟨rfl, by omega, ⟨hpos, hfin⟩, hpos, hfin⟩, trivial⟩, rfl, hpos, hfin⟩

theorem keepsStack_room : KeepsStack fwPushRoom := by
  intro hit s hs
  rw [fwPushRoom_apply]
  split
  · exact limit_exit hs rfl
  · exact ⟨trivial, hs⟩

/-- All of this is what the handlers need, those that call and `return` aside. -/
theorem stack_stable : Stable limitMonitor StackInv LimitExit where
  push := keepsStack_push
  room := keepsStack_room
  pop := keepsStack_pop
  read := keepsStack_read
  write p idx val := (keepsStack_write p idx val).pre fun _ _ hs => hs.1
  tick := keepsStack_tick
  host addr args := keepsStack_emit (by simp) trivial
  err := keepsStack_emit (by simp) trivial
  fault f hit s hs := iff_of_false (by rw [hs.1]; exact Bool.false_ne_true) (by simp)
  hang hit s hs := iff_of_false (by rw [hs.1]; exact Bool.false_ne_true) (by simp)

theorem keepsStack_fetch (pos : ℕ) (hit : Bool) (s : Machine) (h : StackInv hit s) :
    limitMonitor.ok hit (.fetch pos s.ctx) ∧
      StackInv (limitMonitor.step hit (.fetch pos s.ctx)) s := by
  obtain ⟨rfl, hin⟩ := h
  exact ⟨⟨rfl, hin⟩, rfl, hin⟩

/-! ## `return`

It has no check of its own. The number of results and the depth in the frame are bytes, and 255 and
255 are together less than the size of the stack. -/

/-- Slots are moved within the array, and the depth stays. -/
theorem moveRets_stack {depth : ℕ} (hdepth : depth ≤ fwMaxStackSize) :
    ∀ (n oldpos i : ℕ), i + n ≤ depth → oldpos + n ≤ fwMaxStackSize →
      Triple limitMonitor (fun hit s => StackInv hit s ∧ s.ctx.pos = depth) (fwMoveRets n oldpos i)
        (fun newpos hit s => newpos = oldpos + n ∧ StackInv hit s ∧ s.ctx.pos = depth) LimitExit
  | 0, oldpos, i, _, _ => Triple.pure fun _ _ hs => ⟨rfl, hs⟩
  | n + 1, oldpos, i, hi, hold => by
    rw [fwMoveRets]
    refine Triple.bind (R := fun _ hit s => StackInv hit s ∧ s.ctx.pos = depth) ?_ fun _ =>
      (moveRets_stack hdepth n (oldpos + 1) (i + 1) (by omega) (by omega)).post
        fun newpos _ _ h => ⟨by omega, h.2⟩
    intro hit s ⟨⟨hhit, hin⟩, hpos⟩
    subst hhit
    rw [fwStackCopy_apply]
    exact ⟨⟨⟨rfl, by omega, hin, hin⟩, ⟨rfl, by omega, hin, hin⟩, trivial⟩, ⟨rfl, hin⟩, hpos⟩

/-- `fw_instr_run_return` keeps the bounds, also when there are fewer slots than results. Then the
first slot to move lies above the depth, as the subtraction has wrapped, and none is moved;
otherwise at most 255 slots go to a depth of at most 255. -/
theorem return_stack : KeepsStack (fwInstrRunReturn func body) := by
  refine Triple.get_bind fun s₀ => ?_
  have hres := func.functype.resCnt.toNat_lt
  have hold := s₀.ctx.frame.stackDeepth.toNat_lt
  refine Triple.of_points fun hit s ⟨hs, heq⟩ => ?_
  subst heq
  obtain ⟨rfl, hin⟩ := hs
  obtain ⟨hpos, hfin⟩ := hin
  have hmax : s.ctx.pos ≤ fwMaxStackSize := hfin ▸ hpos
  have hlt : s.ctx.pos ≤ 4096 := hmax
  generalize hi : (s.ctx.pos + 2 ^ 32 - func.functype.resCnt.toNat) % 2 ^ 32 = i
  refine Triple.bind (R := fun _ => StackInv) ?_ fun _ => Triple.get_bind fun s₁ => ?_
  · rw [fwMoveRetsTo]
    refine Triple.pre (P := fun hit s' => StackInv hit s' ∧ s' = s) ?_
      fun hit s' ⟨hhit, hs'⟩ => ⟨⟨hhit, by rw [hs']; exact ⟨hpos, hfin⟩⟩, hs'⟩
    by_cases hne : i ≠ s.ctx.frame.stackDeepth.toNat
    · rw [if_pos hne]
      refine Triple.get_bind fun s₂ => Triple.of_points fun hit s' ⟨⟨hs', hs'eq⟩, hs₂⟩ => ?_
      subst hs₂ hs'eq
      -- at most 255 slots move, to a depth of at most 255
      have hbound : s'.ctx.frame.stackDeepth.toNat + (s'.ctx.pos - i) ≤ 4096 := by omega
      refine Triple.bind (R := fun newpos hit s' => newpos ≤ fwMaxStackSize ∧ StackInv hit s') ?_
        fun newpos => Triple.get_bind fun s₃ => Triple.set fun hit s' ⟨⟨hle, hh, hin⟩, heq⟩ => ?_
      · rcases Nat.lt_or_ge s'.ctx.pos i with hpi | hpi
        · rw [Nat.sub_eq_zero_of_le hpi.le]
          exact Triple.pure fun hit s'' h => by
            rw [h.1, h.2]
            exact ⟨by change _ ≤ 4096; omega, hs'⟩
        · refine ((moveRets_stack hmax (s'.ctx.pos - i) _ i (by omega) hbound).conseq ?_ ?_)
          · rintro _ _ ⟨rfl, rfl⟩
            exact ⟨hs', rfl⟩
          · exact fun newpos _ _ h => ⟨by rw [h.1]; exact hbound, h.2.1⟩
      · refine ⟨hh, ?_, ?_⟩
        · change newpos ≤ s₃.ctx.fin
          rw [← heq, hin.2]
          exact hle
        · rw [← heq]
          exact hin.2
    · rw [if_neg hne]
      exact Triple.pure fun _ _ h => h.1
  · refine Triple.emit_bind (R := StackInv) ?_ (Triple.pure fun _ _ h => h)
    rintro hit s' ⟨⟨rfl, hin'⟩, rfl⟩
    exact ⟨⟨rfl, ⟨hpos, hfin⟩, hin'⟩, rfl, hin'⟩

/-! ## Functions

A function neither pushes nor pops when it is entered or left. -/

theorem keepsStack_calloc (n : ℕ) : KeepsStack (fwLocalsCalloc n) :=
  keepsStack_of_ctx fun s =>
    ⟨by simp [fwLocalsCalloc_apply, Event.InBounds], .inl ⟨_, _, rfl, rfl, rfl⟩⟩

theorem keepsStack_freeIf (p : Option ℕ) : KeepsStack (fwLocalsFreeIf p) := by
  cases p with
  | none => exact .pure _
  | some id =>
    refine keepsStack_of_ctx fun s => ?_
    rw [fwLocalsFreeIf, fwLocalsFree_apply]
    cases s.block (some id) with
    | none => exact ⟨by simp, .inr ⟨_, rfl, by simp⟩⟩
    | some b => exact ⟨by simp [Event.InBounds], .inl ⟨_, _, rfl, rfl, rfl⟩⟩

theorem copyParams_stack (locals : Option ℕ) (paramCnt : ℕ) :
    ∀ i, KeepsStack (fwCopyParams locals paramCnt i)
  | 0 => .pure _
  | i + 1 => (keepsStack_get i).bind fun _ => (keepsStack_write _ _ _).bind fun _ =>
      copyParams_stack locals paramCnt i

/-- A new frame does not touch the depth, nor does the copying of arguments. -/
theorem enterFunc_stack : KeepsStack (fwEnterFunc env func) := by
  refine Keeps.bind (.ite (fun _ => (keepsStack_calloc _).bind fun _ => .pure _) fun _ =>
    keepsStack_tick.bind fun _ => (keepsStack_emit (by simp) (by trivial)).bind fun _ => .pure _)
    fun locals => (copyParams_stack _ _ _).bind fun _ => Triple.get_bind fun s₀ => ?_
  refine Triple.emit_bind (R := fun hit s => StackInv hit s ∧ s = s₀) ?_
    (Triple.bind (R := fun _ => StackInv) (Triple.set ?_) fun _ => Keeps.pure _)
  · rintro hit s ⟨⟨rfl, hin⟩, rfl⟩
    exact ⟨⟨rfl, trivial⟩, ⟨rfl, hin⟩, rfl⟩
  · rintro hit s ⟨⟨hhit, hin⟩, rfl⟩
    exact ⟨hhit, hin⟩

theorem errLabel_stack (saveLocals : Option ℕ) : KeepsStack (fwErrLabel saveLocals) :=
  .get_bind fun _ => (keepsStack_emit (by simp) (by trivial)).bind fun _ =>
    (keepsStack_freeIf _).bind fun _ => (keepsStack_emit (by simp) (by trivial)).bind fun _ =>
    .pure _

theorem leaveFunc_stack (saveLocals : Option ℕ) (exit : LoopExit) :
    KeepsStack (fwLeaveFunc saveLocals exit) := by
  cases exit with
  | done body =>
    refine .get_bind fun s => (keepsStack_freeIf _).bind fun _ => Triple.get_bind fun s₀ => ?_
    refine Triple.bind (R := fun _ => StackInv) (Triple.set ?_) fun _ =>
      Keeps.ite (fun _ => errLabel_stack _) fun _ =>
        (keepsStack_emit (by simp) (by trivial)).bind fun _ => Keeps.pure _
    rintro hit s ⟨⟨hhit, hin⟩, rfl⟩
    exact ⟨hhit, hin⟩
  | badOpcode => exact (keepsStack_emit (by simp) (by trivial)).bind fun _ => errLabel_stack _
  | strErr => exact (keepsStack_emit (by simp) (by trivial)).bind fun _ => .pure _

/-- Every function and every loop keeps the bounds, by induction on the number of steps. -/
theorem interp_stack (n : ℕ) :
    (∀ f, KeepsStack ((interp env n).func f)) ∧ ∀ f b, KeepsStack ((interp env n).loop f b) := by
  refine interp_induction (p := fun r => (∀ f, KeepsStack (r.func f)) ∧
    ∀ f b, KeepsStack (r.loop f b)) ?_ ?_ n
  · have hfuel : ∀ hit s, StackInv hit s → LimitExit .fuel hit := fun hit s hs =>
      iff_of_false (by rw [hs.1]; exact Bool.false_ne_true) (by simp)
    exact ⟨fun _ => Triple.halt hfuel, fun _ _ => Triple.halt hfuel⟩
  · rintro r ⟨hfunc, hloop⟩
    refine ⟨fun f => ?_, fun f b => ?_⟩
    · exact func_rule stack_stable.hostFunc fun _ => enterFunc_stack.bind fun saveLocals =>
        (hloop _ _).bind fun exit => leaveFunc_stack _ _
    · exact stack_stable.dispatch (keepsStack_fetch b.pos)
        (fun fn b => stack_stable.run fn (fun _ => return_stack) (fun f _ => hfunc f) (hloop f))
        (hloop f)

/-- `fw_module_run_func` keeps the bounds, with its arguments pushed by the same macros. -/
theorem runFunc_stack (env : Env) (func : FwModuleFunc) (n : ℕ) (args : List (List UInt8))
    (rets : Bool) : KeepsStack (fwModuleRunFunc env n func args rets) :=
  stack_stable.moduleRunFunc ((interp_stack n).1 func) args rets

end

/-! ## Whole runs

From a new context on. -/

/-- The monitor remembers the limit, once there was an event for it. -/
theorem limit_after_iff {l : List Event} : limitMonitor.after false l = true ↔ Event.limit ∈ l := by
  have hgen : ∀ hit, limitMonitor.after hit l = true ↔ hit = true ∨ Event.limit ∈ l := by
    induction l with
    | nil => intro hit; simp
    | cons e l ih =>
      intro hit
      rw [Monitor.after_cons, ih]
      cases e <;> simp [limitMonitor]
  simpa using hgen false

/-- In a run of `fw_module_run_func` every event is within bounds, so is the state it returns in,
and the limit is hit if and only if the run ends in `exit(-1)`, which it does at once. There is no
hypothesis: the functions, their bytes, the arguments, what is on the stack at the start and the
step bound are any. -/
theorem run_in_bounds (env : Env) (n : ℕ) (func : FwModuleFunc) (args : List (List UInt8))
    (rets : Bool) (stack : ℕ → Slot) :
    let o := fwModuleRunFunc env n func args rets (fwModuleContextNew stack)
    (∀ e ∈ o.log, e.InBounds) ∧ (∀ a s, o.res = .ok (a, s) → s.ctx.InBounds) ∧
      (Event.limit ∈ o.log ↔ ∃ h, o.res = .error h ∧ h = .exit) ∧
      ∀ pre post, o.log = pre ++ .limit :: post → post = [] := by
  intro o
  have hstart : StackInv false (fwModuleContextNew stack) := ⟨rfl, Nat.zero_le _, rfl⟩
  obtain ⟨hacc, hends⟩ := runFunc_stack env func n args rets _ _ hstart
  change limitMonitor.Accepts false o.log at hacc
  change Ends _ _ (limitMonitor.after false o.log) o.res at hends
  have hall : ∀ hit e, limitMonitor.ok hit e → e.InBounds := fun _ _ h => h.2
  refine ⟨hacc.forall hall, fun a s hres => ?_, ?_, fun pre post hlog => ?_⟩
  · rw [hres] at hends
    exact hends.2
  · rcases hres : o.res with h | ⟨a, s⟩ <;> rw [hres] at hends
    · rw [← limit_after_iff, show _ ↔ _ from hends]
      simp
    · refine iff_of_false (fun hmem => ?_) (by simp)
      rw [limit_after_iff.mpr hmem] at hends
      exact Bool.true_eq_false.mp hends.1
  · rcases post with _ | ⟨e, post⟩
    · rfl
    · rw [hlog, List.append_cons] at hacc
      have hok := hacc.at.1
      rw [limit_after_iff.mpr (List.mem_append_right _ (List.mem_singleton_self _))] at hok
      exact absurd hok Bool.true_eq_false.mp

end FastWasm
