import FastWasm.Run

/-!
# What the steps of the executor leave alone

The stack macros touch the operand stack and nothing else; the accesses to locals touch the heap
only; entering a function touches neither the stack nor, up to its end, the context. Each of these
facts is stated once, as what the step spares.

An invariant of runs usually reads one of these parts. With the footprints a handler keeps it for
the simple reason that it does not touch that part, and only the two or three steps that do are left
to look at. The same goes for the log: a monitor that follows calls does not mind the events of the
operand stack.
-/

namespace FastWasm

open Logged

/-! ## Kinds of events

An invariant that follows the log has to say for each event what becomes of it. Two kinds are enough
for most of them. -/

/-- Events of the operand stack and of host functions, and errors: all that a handler emits that
neither calls nor touches a local. -/
def Event.OnStack : Event → Prop
  | .slot _ _ _ | .limit | .host _ _ | .err => True
  | .fetch _ _ | .enter _ _ | .leave | .ret _ _ _ _ | .alloc _ | .free _ | .uninit _
  | .errLabel _ _ => False

/-- Events that are neither a fetch nor about calls and returns. -/
def Event.Quiet : Event → Prop
  | .slot _ _ _ | .limit | .host _ _ | .err | .alloc _ | .free _ | .uninit _ | .errLabel _ _ => True
  | .fetch _ _ | .enter _ _ | .leave | .ret _ _ _ _ => False

theorem Event.OnStack.quiet {e : Event} (h : e.OnStack) : e.Quiet := by
  cases e with
  | slot | limit | host | err => trivial
  | fetch | enter | leave | ret | alloc | free | uninit | errLabel => exact h.elim

/-! ## The operand stack

The macros, and what is built from them alone: most handlers of the table, and host functions. -/

/-- Everything but the operand stack: the machine with an empty one in its place. -/
def Machine.offStack (s : Machine) : Frame × Option ℕ × List (Option FwFuncLocals) :=
  (s.ctx.frame, s.ctx.locals, s.heap)

/-- Touches the operand stack only, and emits nothing but events of it. -/
abbrev StackOnly {α : Type} (m : Run α) : Prop := Spares Event.OnStack Machine.offStack m

namespace StackOnly

theorem push (st : Slot) : StackOnly (fwPush st) := Spares.of_apply fun s => by
  rw [fwPush_apply]
  split
  · exact .inl ⟨_, _, rfl, by simp [Event.OnStack]⟩
  · exact .inr ⟨_, _, _, rfl, by simp [Event.OnStack], rfl⟩

theorem room : StackOnly fwPushRoom := Spares.of_apply fun s => by
  rw [fwPushRoom_apply]
  split
  · exact .inl ⟨_, _, rfl, by simp [Event.OnStack]⟩
  · exact .inr ⟨_, _, _, rfl, by simp, rfl⟩

theorem pop (peek : Bool) : StackOnly (fwPop peek) := Spares.of_apply fun s => by
  rw [fwPop_apply]
  split
  · exact .inl ⟨_, _, rfl, by simp [Event.OnStack]⟩
  · refine .inr ⟨_, _, _, rfl, by simp [Event.OnStack], ?_⟩
    cases peek <;> rfl

theorem stackGet (idx : ℕ) : StackOnly (fwStackGet idx) := Spares.of_apply fun s => by
  rw [fwStackGet_apply]
  split
  · exact .inl ⟨_, _, rfl, by simp [Event.OnStack]⟩
  · exact .inr ⟨_, _, _, rfl, by simp [Event.OnStack], rfl⟩

theorem stackCopy (dst src : ℕ) : StackOnly (fwStackCopy dst src) := Spares.of_apply fun s =>
  .inr ⟨_, _, _, fwStackCopy_apply s dst src, by simp [Event.OnStack], rfl⟩

theorem localsRead (idx : ℕ) : StackOnly (fwLocalsRead idx) := Spares.of_apply fun s => by
  obtain ⟨res, hm, ⟨f, rfl⟩ | ⟨v, rfl⟩⟩ := fwLocalsRead_apply s idx
  · exact .inl ⟨_, _, hm, by simp⟩
  · exact .inr ⟨_, _, _, hm, by simp, rfl⟩

theorem tick : StackOnly nextTick := Spares.of_apply fun s =>
  .inr ⟨_, _, _, nextTick_apply s, by simp, rfl⟩

theorem setPos (pos : ℕ) :
    StackOnly (get >>= fun s => set { s with ctx := { s.ctx with pos := pos } }) :=
  Spares.of_apply fun s => .inr ⟨_, _, _, get_bind_apply _ s, by simp, rfl⟩

theorem moveRets : ∀ n oldpos i, StackOnly (fwMoveRets n oldpos i)
  | 0, _, _ => .pure _
  | n + 1, oldpos, i => (stackCopy oldpos i).bind fun _ => moveRets n (oldpos + 1) (i + 1)

theorem moveRetsTo (oldpos i : ℕ) : StackOnly (fwMoveRetsTo oldpos i) := by
  refine .ite (fun _ s => ?_) fun _ => .pure _
  rw [get_bind_apply]
  exact (moveRets _ _ _).bind setPos s

/-! ### Host functions -/

theorem popArgs (ft : FwModuleType) : ∀ n args, StackOnly (fwPopArgs ft n args)
  | 0, _ => .pure _
  | n + 1, args => by
    refine (pop false).bind fun st => ?_
    cases ft.val[n]? with
    | none => exact .halt _
    | some type =>
      exact .ite (fun _ => Spares.bind (.emit trivial) fun _ => .pure _) fun _ => popArgs ft n _

theorem pushRets (ft : FwModuleType) (rets : ℕ → UInt64) : ∀ n i, StackOnly (fwPushRets ft rets n i)
  | 0, _ => .pure _
  | n + 1, i => by
    rw [fwPushRets]
    cases ft.val[ft.paramCnt.toNat]? with
    | none => exact .halt _
    | some type => exact (push _).bind fun _ => pushRets ft rets n (i + 1)

theorem callHost {env : Env} (n addr retCnt : ℕ) (argv : List UInt64) :
    StackOnly (_fwModuleRunHostFunc env n addr retCnt argv) := by
  rw [_fwModuleRunHostFunc]
  cases fwHostArgs argv with
  | none => exact .pure _
  | some args => exact Spares.bind (.emit trivial) fun _ => .pure _

/-- A host function touches the operand stack only, whatever the host does with the values that it
is given. -/
theorem hostFunc {env : Env} {func : FwModuleFunc} (addr : ℕ) :
    StackOnly (fwModuleRunHostFunc env func addr) := by
  refine (popArgs _ _ _).bind fun args => ?_
  cases args with
  | none => exact .pure _
  | some args =>
    refine tick.bind fun n => ?_
    refine (callHost _ _ _ _).bind fun rets => ?_
    cases rets with
    | none => exact Spares.bind (.emit trivial) fun _ => .pure _
    | some rets => exact (pushRets _ _ _ _).bind fun _ => .pure _

end StackOnly

/-! ## Locals blocks

What reads, writes, allocates and frees them. None of it fetches an opcode, and none of it calls. -/

/-- Touches locals blocks only, and neither fetches nor calls. -/
abbrev CtxKept {α : Type} (m : Run α) : Prop := Spares Event.Quiet Machine.ctx m

namespace CtxKept

variable {env : Env} {func : FwModuleFunc}

theorem stackGet (idx : ℕ) : CtxKept (fwStackGet idx) := Spares.of_apply fun s => by
  rw [fwStackGet_apply]
  split
  · exact .inl ⟨_, _, rfl, by simp [Event.Quiet]⟩
  · exact .inr ⟨_, _, _, rfl, by simp [Event.Quiet], rfl⟩

theorem localsWrite (p : Option ℕ) (idx : ℕ) (val : UInt64) :
    CtxKept (fwLocalsWrite p idx val) := Spares.of_apply fun s => by
  obtain ⟨res, hm, ⟨f, rfl⟩ | ⟨id, b, -, -, rfl⟩⟩ := fwLocalsWrite_apply s p idx val
  · exact .inl ⟨_, _, hm, by simp⟩
  · exact .inr ⟨_, _, _, hm, by simp, rfl⟩

theorem localsCalloc (n : ℕ) : CtxKept (fwLocalsCalloc n) := Spares.of_apply fun s =>
  .inr ⟨_, _, _, fwLocalsCalloc_apply s n, by simp [Event.Quiet], rfl⟩

theorem localsFreeIf (p : Option ℕ) : CtxKept (fwLocalsFreeIf p) := by
  cases p with
  | none => exact .pure _
  | some id =>
    refine Spares.of_apply fun s => ?_
    rw [fwLocalsFreeIf, fwLocalsFree_apply]
    cases s.block (some id) with
    | none => exact .inl ⟨_, _, rfl, by simp⟩
    | some b => exact .inr ⟨_, _, _, rfl, by simp [Event.Quiet], rfl⟩

theorem tick : CtxKept nextTick := Spares.of_apply fun s =>
  .inr ⟨_, _, _, nextTick_apply s, by simp, rfl⟩

theorem initLocals : CtxKept (fwInitLocals env func) :=
  .ite (fun _ => (localsCalloc _).bind fun _ => .pure _) fun _ =>
    tick.bind fun _ => (Spares.emit (by trivial)).bind fun _ => .pure _

theorem copyParams (locals : Option ℕ) (paramCnt : ℕ) :
    ∀ i, CtxKept (fwCopyParams locals paramCnt i)
  | 0 => .pure _
  | i + 1 => (stackGet i).bind fun _ => (localsWrite _ _ _).bind fun _ =>
      copyParams locals paramCnt i

end CtxKept

/-! ## The frame

It is set at one place, when a function is entered. -/

/-- Leaves the frame alone, and neither fetches nor calls. -/
abbrev FrameKept {α : Type} (m : Run α) : Prop := Spares Event.Quiet (fun s => s.ctx.frame) m

theorem StackOnly.frame {α : Type} {m : Run α} (h : StackOnly m) : FrameKept m :=
  h.mono (fun _ => Event.OnStack.quiet) fun _ _ h => (Prod.mk.inj h).1

theorem CtxKept.frame {α : Type} {m : Run α} (h : CtxKept m) : FrameKept m :=
  h.mono (fun _ h => h) fun _ _ h => congrArg Ctx.frame h

end FastWasm
