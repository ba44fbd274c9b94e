import FastWasm.Ended
import FastWasm.StackBounds

/-!
# Where a return goes

`ctx->frame` says where a `return` puts the cursor and the results. A function sets it when it is
entered, and nothing puts it back when the function is left. So the frame is that of the function
entered last, and after a call a `return` goes by the frame of the callee (`return_ends_own_iff`).
The frame also has the depth of the operand stack at entry, in a `uint8_t`, so a function that is
entered above 255 operands puts its results too low even when it calls nothing
(`return_relocates_iff`).

Both are about runs, and are proved by following the log with a monitor. The first keeps the
functions that are open, each with the depth it was entered at, and the function entered last of
all; the frame of the machine is always that of the latter (`interp_calls`). The second counts the
functions entered, and knows the frame while there was only one.
-/

namespace FastWasm

open Logged

/-! ## The calls of a log

The log has the depth at which a function is entered, and no event puts the frame back. So what the
frame is can be told from the log: it is that of the last function that was entered. -/

/-- What a log says about calls: the functions that are open, and the one that was entered last,
whether it is still open or not. Functions stand with the operand depth they were entered at. -/
structure CallLog where
  /-- the functions entered and not left, the innermost first -/
  opened : List (FwModuleFunc × ℕ)
  /-- the function entered last -/
  last : Option (FwModuleFunc × ℕ)

/-- One event more: a function is entered, or the innermost one is left. -/
def CallLog.step (c : CallLog) : Event → CallLog
  | .enter func depth => ⟨(func, depth) :: c.opened, some (func, depth)⟩
  | .leave => { c with opened := c.opened.tail }
  | _ => c

/-- The calls of a whole log, from before the first of its events. -/
def callsOf (l : List Event) : CallLog := l.foldl CallLog.step ⟨[], none⟩

/-- The top `m` slots before a `return` are the top slots after it, and they start at `depth`. -/
structure ResultsAt (depth m : ℕ) (before after : Ctx) : Prop where
  /-- the depth -/
  pos : after.pos = depth + m
  /-- the slots -/
  slots : ∀ j < m, after.stack (depth + j) = before.stack (before.pos - m + j)

/-- The results of a function entered at `depth` are there, above that depth. -/
def HasResults (func : FwModuleFunc) (depth : ℕ) (ctx : Ctx) : Prop :=
  depth + func.functype.resCnt.toNat ≤ ctx.pos

/-- A `return` that ends `func`, which was entered at `depth`: the cursor goes to its end, and its
results, when they are there, to that depth. -/
def EndsOwn (func : FwModuleFunc) (depth : ℕ) (before after : Ctx) (pos : ℕ) : Prop :=
  pos = func.body.last ∧
    (HasResults func depth before → ResultsAt depth func.functype.resCnt.toNat before after)

/-- The function that executes the event at `k` executes nothing more before it is left. -/
def EndsAt (log : List Event) (k : ℕ) : Prop :=
  ∀ e ∈ (log.drop (k + 1)).takeWhile fun e => !e.isLeave, e.Quiet

/-- What is known of a `return`: it is one of the innermost function, and it ends that function if
and only if the one entered last has the same end and, when there are results, the same depth. -/
def ReturnKnown (c : CallLog) (func : FwModuleFunc) (before after : Ctx) (pos : ℕ) : Prop :=
  ∃ depth rest g d, c.opened = (func, depth) :: rest ∧ c.last = some (g, d) ∧
    (before.pos < 2 ^ 32 → (EndsOwn func depth before after pos ↔
      g.body.last = func.body.last ∧ (HasResults func depth before → d % 256 = depth)))

/-- Follows the calls, and accepts a `return` that goes by the frame of the function entered last.
-/
def returnMonitor : Monitor CallLog Event where
  step := CallLog.step
  ok c e := match e with
    | .ret func before after pos => ReturnKnown c func before after pos
    | _ => True

theorem returnMonitor_quiet (c : CallLog) (e : Event) (he : e.Quiet) :
    returnMonitor.ok c e ∧ returnMonitor.step c e = c := by
  cases e with
  | fetch | enter | leave | ret => exact he.elim
  | slot | limit | alloc | free | uninit | host | errLabel | err => exact ⟨trivial, rfl⟩

/-- The frame is that of the function entered last, when there was one. -/
def FrameKnown (c : CallLog) (frame : Frame) : Prop :=
  match c.last with
  | none => c.opened = []
  | some (g, d) => frame = ⟨g.body.last, UInt8.ofNat d⟩

/-- The calls that are open, and the frame, which is known. -/
def InCalls (opened : List (FwModuleFunc × ℕ)) (c : CallLog) (frame : Frame) : Prop :=
  c.opened = opened ∧ FrameKnown c frame

/-! ## Moving the results

A loop that copies slot by slot, from the lowest of the results up. The place that they go to is not
above the place that they come from, unless the depth of the frame has wrapped or is that of another
function. -/

/-- Copying upwards in order moves slots down, without overwriting one that is still to be copied.
That needs the target to lie at or below the source; the loop ends at the same depth without it. -/
theorem moveRets_eq_ok :
    ∀ {n oldpos i newpos : ℕ} {s s' : Machine}, (fwMoveRets n oldpos i s).res = .ok (newpos, s') →
      newpos = oldpos + n ∧ (oldpos ≤ i →
        (∀ j < n, s'.ctx.stack (oldpos + j) = s.ctx.stack (i + j)) ∧
          ∀ k < oldpos, s'.ctx.stack k = s.ctx.stack k)
  | 0, oldpos, i, newpos, s, s', h => by
    obtain ⟨rfl, rfl⟩ := Prod.mk.inj (Except.ok.inj h)
    exact ⟨rfl, fun _ => ⟨fun j hj => absurd hj (Nat.not_lt_zero j), fun _ _ => rfl⟩⟩
  | n + 1, oldpos, i, newpos, s, s', h => by
    obtain ⟨_, s₁, hcopy, h, -⟩ := bind_eq_ok h
    rw [fwStackCopy_apply] at hcopy
    obtain ⟨-, rfl⟩ := Prod.mk.inj (Except.ok.inj hcopy)
    obtain ⟨hnew, hslots⟩ := moveRets_eq_ok h
    refine ⟨by omega, fun hle => ?_⟩
    obtain ⟨hmoved, hbelow⟩ := hslots (by omega)
    have hother : ∀ k ≠ oldpos, (s.ctx.copy oldpos i).stack k = s.ctx.stack k := fun k hk =>
      Function.update_of_ne hk ..
    refine ⟨fun j hj => ?_, fun k hk => ?_⟩
    · cases j with
      | zero =>
        rw [Nat.add_zero, Nat.add_zero, hbelow oldpos (Nat.lt_succ_self _)]
        exact Function.update_self ..
      | succ j =>
        rw [show oldpos + (j + 1) = oldpos + 1 + j by omega, hmoved j (by omega),
          show i + (j + 1) = i + 1 + j by omega]
        exact hother _ (by omega)
    · rw [hbelow k (by omega)]
      exact hother k (by omega)

/-- The slots from `i` on end up at `oldpos`, and when that is not above `i` the rest is as it was.
-/
theorem moveRetsTo_eq_ok {oldpos i : ℕ} {s s' : Machine} {u : PUnit} (hi : i ≤ s.ctx.pos)
    (h : (fwMoveRetsTo oldpos i s).res = .ok (u, s')) :
    s'.ctx.pos = oldpos + (s.ctx.pos - i) ∧ (oldpos ≤ i →
      (∀ j < s.ctx.pos - i, s'.ctx.stack (oldpos + j) = s.ctx.stack (i + j)) ∧
        ∀ k < oldpos, s'.ctx.stack k = s.ctx.stack k) := by
  rw [fwMoveRetsTo] at h
  by_cases hne : i ≠ oldpos
  · rw [if_pos hne, get_bind_apply] at h
    obtain ⟨newpos, s₁, hmove, h, -⟩ := bind_eq_ok h
    rw [get_bind_apply] at h
    obtain ⟨-, rfl⟩ := Prod.mk.inj (Except.ok.inj h)
    obtain ⟨hnew, hslots⟩ := moveRets_eq_ok hmove
    exact ⟨hnew, hslots⟩
  · rw [if_neg hne] at h
    obtain ⟨-, rfl⟩ := Prod.mk.inj (Except.ok.inj h)
    obtain rfl := not_not.mp hne
    exact ⟨by omega, fun _ => ⟨fun _ _ => rfl, fun _ _ => rfl⟩⟩

/-! ## Runs

The frame is part of the machine, and the calls are part of the log. Handlers and loops keep them
together. -/

section

variable {env : Env} {r : Interp} {func : FwModuleFunc} {body : FwStr}
  {opened : List (FwModuleFunc × ℕ)}

/-- What knows the frame, and leaves the open calls as they are. -/
abbrev KeepsCalls {α : Type} (opened : List (FwModuleFunc × ℕ)) (m : Run α) : Prop :=
  Keeps returnMonitor (fun c s => InCalls opened c s.ctx.frame) (fun _ _ => True) m

theorem calls_stable :
    Stable returnMonitor (fun c s => InCalls opened c s.ctx.frame) fun _ _ => True :=
  stable_frame returnMonitor_quiet

/-- A `return` goes by the frame, and the monitor accepts what it does. The monitor knows which
function set the frame last, and asks whether the results are in place if and only if that is the
one that returns, at a depth that the frame can hold. -/
theorem return_calls {depth : ℕ} :
    KeepsCalls ((func, depth) :: opened) (fwInstrRunReturn func body) := by
  refine Triple.get_bind fun s₀ => ?_
  generalize hi : (s₀.ctx.pos + 2 ^ 32 - func.functype.resCnt.toNat) % 2 ^ 32 = i
  have hmove : Triple returnMonitor
      (fun c s => InCalls ((func, depth) :: opened) c s.ctx.frame ∧ s = s₀)
      (fwMoveRetsTo s₀.ctx.frame.stackDeepth.toNat i)
      (fun _ c s => InCalls ((func, depth) :: opened) c s.ctx.frame ∧ s.ctx.frame = s₀.ctx.frame)
      fun _ _ => True :=
    (Triple.of_spares (StackOnly.moveRetsTo _ i).frame (J := fun c frame =>
      InCalls ((func, depth) :: opened) c frame ∧ frame = s₀.ctx.frame) returnMonitor_quiet).pre
      fun c s hs => ⟨hs.1, by rw [hs.2]⟩
  have hmoved := hmove.and_res (R := fun _ s' => i ≤ s₀.ctx.pos →
    s'.ctx.pos = s₀.ctx.frame.stackDeepth.toNat + (s₀.ctx.pos - i) ∧
      (s₀.ctx.frame.stackDeepth.toNat ≤ i → ∀ j < s₀.ctx.pos - i,
        s'.ctx.stack (s₀.ctx.frame.stackDeepth.toNat + j) = s₀.ctx.stack (i + j))) <| by
    rintro _ s ⟨-, rfl⟩ u s' hr hle
    obtain ⟨hpos, hslots⟩ := moveRetsTo_eq_ok hle hr
    exact ⟨hpos, fun hle => (hslots hle).1⟩
  refine Triple.bind hmoved fun _ => Triple.get_bind fun s₁ =>
    Triple.emit_bind (R := fun c s => InCalls ((func, depth) :: opened) c s.ctx.frame) ?_
      (Triple.pure fun _ _ h => h)
  rintro c s ⟨⟨⟨hcalls, hframe⟩, hmoved⟩, rfl⟩
  refine ⟨?_, hcalls⟩
  obtain ⟨hopened, hknown⟩ := hcalls
  rw [FrameKnown] at hknown
  rcases hlast : c.last with _ | ⟨g, d⟩ <;> simp only [hlast] at hknown
  · rw [hopened] at hknown
    cases hknown
  refine ⟨depth, opened, g, d, hopened, hlast, fun hlt => ?_⟩
  rw [EndsOwn, show s₀.ctx.frame.fin = g.body.last by rw [← hframe, hknown]]
  refine and_congr_right fun _ => forall_congr' fun hdepth => ?_
  rw [HasResults] at hdepth
  have hi' : i = s₀.ctx.pos - func.functype.resCnt.toNat := by omega
  obtain ⟨hpos, hslots⟩ := hmoved (by omega)
  rw [← hframe, hknown, UInt8.toNat_ofNat'] at hpos hslots
  refine ⟨?_, ?_⟩
  · rintro ⟨hres, -⟩
    omega
  · rintro rfl
    refine ⟨by omega, fun j hj => ?_⟩
    rw [hslots (by omega) j (by omega), hi']

/-- Calls come back with the same calls open, by induction on the number of steps. The function
entered last may be another one then, and the frame is its. -/
theorem interp_calls (n : ℕ) :
    (∀ f opened, KeepsCalls opened ((interp env n).func f)) ∧
      ∀ f depth opened b, KeepsCalls ((f, depth) :: opened) ((interp env n).loop f b) := by
  refine interp_induction (p := fun r => (∀ f opened, KeepsCalls opened (r.func f)) ∧
    ∀ f depth opened b, KeepsCalls ((f, depth) :: opened) (r.loop f b)) ?_ ?_ n
  · exact ⟨fun _ _ => Triple.halt fun _ _ _ => trivial,
      fun _ _ _ _ => Triple.halt fun _ _ _ => trivial⟩
  · rintro r ⟨hfunc, hloop⟩
    refine ⟨fun f opened => ?_, fun f depth opened b => ?_⟩
    · refine func_rule calls_stable.hostFunc fun _ => ?_
      have henter : Triple returnMonitor (fun c s => InCalls opened c s.ctx.frame)
          (fwEnterFunc env f)
          (fun _ c s => ∃ depth, InCalls ((f, depth) :: opened) c s.ctx.frame) fun _ _ => True :=
        enterFunc_frame (J := InCalls opened)
          (K := fun c frame => ∃ depth, InCalls ((f, depth) :: opened) c frame)
          returnMonitor_quiet fun c frame depth hc => ⟨trivial, depth, by rw [← hc.1]; rfl, rfl⟩
      refine Triple.bind henter fun saveLocals => Triple.of_exists fun depth =>
        Triple.bind (hloop f depth opened f.body) fun exit => ?_
      refine leaveFunc_frame (J := InCalls ((f, depth) :: opened)) returnMonitor_quiet ?_ _ _
      rintro c frame ⟨hopened, hknown⟩
      refine ⟨trivial, by change c.opened.tail = _; rw [hopened]; rfl, ?_⟩
      unfold FrameKnown at hknown ⊢
      rcases hlast : c.last with _ | ⟨g, d⟩ <;> simp only [hlast] at hknown
      · rw [hopened] at hknown
        cases hknown
      · simp only [returnMonitor, CallLog.step, hlast]
        exact hknown
    · exact calls_stable.dispatch (fun c s hs => ⟨trivial, hs⟩)
        (fun fn b => calls_stable.run fn (fun _ => return_calls) (fun g _ => hfunc g _)
          (hloop f depth opened)) (hloop f depth opened)

theorem runFunc_calls (env : Env) (func : FwModuleFunc) (opened : List (FwModuleFunc × ℕ))
    (n : ℕ) (args : List (List UInt8)) (rets : Bool) :
    KeepsCalls opened (fwModuleRunFunc env n func args rets) :=
  calls_stable.moduleRunFunc ((interp_calls n).1 func opened) args rets

end

/-- A `return` to the end of its function ends it: nothing is fetched in that function from there
on. -/
theorem ended_of_ret {log : List Event} {k pos : ℕ} {f : FwModuleFunc} {before after : Ctx}
    (h : endMonitor.Accepts [] log) (hret : log[k]? = some (.ret f before after pos))
    (hpos : pos = f.body.last) : EndsAt log k := by
  obtain ⟨hlt, hget⟩ := List.getElem?_eq_some_iff.mp hret
  rw [← List.take_append_drop (k + 1) log, Monitor.accepts_append, List.take_add_one, hret,
    Monitor.after_append] at h
  apply quiet_of_ended h.2
  change some (decide (pos = f.body.last)) = some true
  rw [hpos, decide_eq_true rfl]

/-- A `return` in a run of `fw_module_run_func` is one of the function entered last among those not
left. It ends that function if and only if the function `g` entered last of all has the same end
and, when there are results to place, was entered at a depth that is the depth of the returning
function in its low eight bits. In validated functions a cursor set to the end of the body, at
whatever nesting, ends the function. -/
theorem return_ends_own_iff {env : Env} {n : ℕ} {func f : FwModuleFunc}
    {args : List (List UInt8)} {rets : Bool} {stack : ℕ → Slot} {k pos : ℕ} {before after : Ctx}
    (hret : (fwModuleRunFunc env n func args rets (fwModuleContextNew stack)).log[k]? =
      some (.ret f before after pos)) :
    let log := (fwModuleRunFunc env n func args rets (fwModuleContextNew stack)).log
    let calls := callsOf (log.take k)
    ∃ depth rest g d, calls.opened = (f, depth) :: rest ∧ calls.last = some (g, d) ∧
      (EndsOwn f depth before after pos ↔
        g.body.last = f.body.last ∧ (HasResults f depth before → d % 256 = depth)) ∧
      ((∀ h ∈ func :: env.funcs, h.hostAddr = none → h.Validated env.mem) →
        pos = f.body.last → EndsAt log k) := by
  have hcalls := (runFunc_calls env func [] n args rets ⟨[], none⟩
    (fwModuleContextNew stack) ⟨rfl, rfl⟩).1
  have hbounds := (runFunc_stack env func n args rets false
    (fwModuleContextNew stack) ⟨rfl, Nat.zero_le _, rfl⟩).1
  obtain ⟨hin, -⟩ : before.InBounds ∧ after.InBounds :=
    hbounds.forall (fun hit e (h : limitMonitor.ok hit e) => h.2) _ (List.mem_of_getElem? hret)
  obtain ⟨depth, rest, g, d, hopened, hlast, hiff⟩ := hcalls.at_index hret
  refine ⟨depth, rest, g, d, hopened, hlast, hiff ?_, fun hval hpos => ?_⟩
  · obtain ⟨hpos, hfin⟩ := hin
    rw [hfin] at hpos
    exact lt_of_le_of_lt hpos (by decide)
  · have hends := (runFunc_ends (fun h hh hhost => (hval h hh hhost).bounded) n args rets []
      (fwModuleContextNew stack) rfl).1
    exact ended_of_ret hends hret hpos

/-! ## The depth of a function

Before it calls another one, the frame of a function has its own depth, in the low eight bits. -/

/-- Counts the functions entered. Up to the second one the frame is `frame`, which the first one
set. -/
def frameMonitor (frame : Frame) : Monitor ℕ Event where
  step k e := match e with
    | .enter _ _ => k + 1
    | _ => k
  ok k e := match e with
    | .fetch _ ctx => k ≤ 1 → ctx.frame = frame
    | _ => True

theorem frameMonitor_quiet (frame : Frame) (k : ℕ) (e : Event) (he : e.Quiet) :
    (frameMonitor frame).ok k e ∧ (frameMonitor frame).step k e = k := by
  cases e with
  | fetch | enter | leave | ret => exact he.elim
  | slot | limit | alloc | free | uninit | host | errLabel | err => exact ⟨trivial, rfl⟩

theorem frameMonitor_step (frame : Frame) (k : ℕ) (e : Event) :
    (frameMonitor frame).step k e = if e.isEnter then k + 1 else k := by
  cases e <;> rfl

/-- A function was entered, and when it is the only one, the frame is `frame`. -/
def FrameOf (frame : Frame) (k : ℕ) (now : Frame) : Prop := 1 ≤ k ∧ (k = 1 → now = frame)

section

variable {env : Env} {frame : Frame}

/-- Computations that keep the frame while no second function is entered. -/
abbrev KeepsFrame {α : Type} (frame : Frame) (m : Run α) : Prop :=
  Keeps (frameMonitor frame) (fun k s => FrameOf frame k s.ctx.frame) (fun _ _ => True) m

theorem keepsFrame_return {func : FwModuleFunc} {body : FwStr} :
    KeepsFrame frame (fwInstrRunReturn func body) := by
  have hM := frameMonitor_quiet frame
  refine .get_bind fun _ =>
    (Triple.of_spares (StackOnly.moveRetsTo _ _).frame hM).bind fun _ => .get_bind fun _ => ?_
  exact Triple.emit_bind (R := fun k s => FrameOf frame k s.ctx.frame)
    (fun _ _ h => ⟨trivial, h.1⟩) (Triple.pure fun _ _ h => h)

/-- Every function and every loop, by induction on the number of steps. As long as no second
function is entered, the frame is the one that the first function set. -/
theorem interp_keepsFrame (n : ℕ) :
    (∀ f, KeepsFrame frame ((interp env n).func f)) ∧
      ∀ f b, KeepsFrame frame ((interp env n).loop f b) := by
  have hM := frameMonitor_quiet frame
  refine interp_induction (p := fun r => (∀ f, KeepsFrame frame (r.func f)) ∧
    ∀ f b, KeepsFrame frame (r.loop f b)) ?_ ?_ n
  · exact ⟨fun _ => Triple.halt fun _ _ _ => trivial, fun _ _ => Triple.halt fun _ _ _ => trivial⟩
  · rintro r ⟨hfunc, hloop⟩
    have hstable : Stable (frameMonitor frame) (fun k s => FrameOf frame k s.ctx.frame)
      fun _ _ => True := stable_frame hM
    refine ⟨fun f => func_rule hstable.hostFunc fun _ => ?_, fun f b => ?_⟩
    · -- a second function
      have henter : KeepsFrame frame (fwEnterFunc env f) :=
        enterFunc_frame hM fun k _ _ h => ⟨trivial, Nat.le_succ_of_le h.1, fun hk => by
          have := h.1
          change k + 1 = 1 at hk
          omega⟩
      exact henter.bind fun _ => (hloop _ _).bind fun _ =>
        leaveFunc_frame hM (fun _ _ h => ⟨trivial, h⟩) _ _
    · exact hstable.dispatch (fun k s h => ⟨fun hk => h.2 (le_antisymm hk h.1), h⟩)
        (fun fn b => hstable.run fn (fun _ => keepsFrame_return) (fun g _ => hfunc g) (hloop f))
        (hloop f)

/-- The frame of a function, up to its first call of another one. The frame is read off the context
that is logged with a fetch. -/
theorem frame_of_fetch {func : FwModuleFunc} {n k pos : ℕ} {s : Machine} {ctx : Ctx}
    (hfetch : ((interp env n).func func s).log[k]? = some (.fetch pos ctx))
    (hcalls : (((interp env n).func func s).log.take k).countP Event.isEnter ≤ 1) :
    ctx.frame = ⟨func.body.last, UInt8.ofNat s.ctx.pos⟩ := by
  have hM := frameMonitor_quiet ⟨func.body.last, UInt8.ofNat s.ctx.pos⟩
  have hacc : (frameMonitor ⟨func.body.last, UInt8.ofNat s.ctx.pos⟩).Accepts 0
      ((interp env n).func func s).log := by
    cases n with
    | zero => cases hfetch
    | succ n =>
      refine (func_rule (M := frameMonitor ⟨func.body.last, UInt8.ofNat s.ctx.pos⟩)
        (P := fun k s' => k = 0 ∧ s'.ctx = s.ctx) (H := fun _ _ => True) (Q := fun _ _ _ => True)
        (fun addr => ?_) (fun _ => ?_) 0 s ⟨rfl, rfl⟩).1
      · exact ((stable_frame (J := fun k _ => k = 0) hM).hostFunc addr).conseq
          (fun _ _ h => h.1) fun _ _ _ _ => trivial
      · refine Triple.bind (enterFunc_ctx (I := fun k ctx => k = 0 ∧ ctx = s.ctx)
          (L := fun k ctx => FrameOf ⟨func.body.last, UInt8.ofNat s.ctx.pos⟩ k ctx.frame) hM ?_)
          fun _ => Triple.bind ((interp_keepsFrame n).2 func func.body) fun _ =>
            ((leaveFunc_frame hM (fun _ _ h => ⟨trivial, h⟩) _ _).post fun _ _ _ _ => trivial)
        rintro k ctx locals ⟨rfl, rfl⟩
        exact ⟨trivial, le_refl _, fun _ => rfl⟩
  refine hacc.at_index hfetch ?_
  rw [after_enters (frameMonitor_step _), Nat.zero_add]
  exact hcalls

end

/-- The top `m` slots are at `depth`, and the slots below it are as they were. -/
structure Relocated (depth m : ℕ) (before after : Ctx) : Prop
    extends ResultsAt depth m before after where
  /-- the slots below -/
  below : ∀ i < depth, after.stack i = before.stack i

/-- A `return` from `s` leaves the results at `depth`, and the operands below that depth as they
were. -/
def Relocates (depth : ℕ) (func : FwModuleFunc) (body : FwStr) (s : Machine) : Prop :=
  ∃ body' s', (fwInstrRunReturn func body s).res = .ok ((.ok, body'), s') ∧
    Relocated depth func.functype.resCnt.toNat s.ctx s'.ctx

theorem moveRets_returns :
    ∀ (n oldpos i : ℕ) (s : Machine), ∃ x, (fwMoveRets n oldpos i s).res = .ok x
  | 0, _, _, _ => ⟨_, rfl⟩
  | n + 1, oldpos, i, s => by
    rw [fwMoveRets, bind_eq (fwStackCopy_apply s oldpos i)]
    exact moveRets_returns n (oldpos + 1) (i + 1) _

theorem moveRetsTo_returns (oldpos i : ℕ) (s : Machine) :
    ∃ s', (fwMoveRetsTo oldpos i s).res = .ok (⟨⟩, s') := by
  rw [fwMoveRetsTo]
  split
  · obtain ⟨⟨newpos, s'⟩, h⟩ := moveRets_returns (s.ctx.pos - i) oldpos i s
    rw [get_bind_apply, bind_of_ok h, get_bind_apply]
    exact ⟨_, rfl⟩
  · exact ⟨s, rfl⟩

section

variable {env : Env} {func : FwModuleFunc} {s : Machine}

/-- A `return` goes by the depth of the frame, which is that of the function in eight bits. The
results are there (`hres`), and the number of operands is one that a `uint32_t` can have (`hpos`).
-/
theorem relocates_iff_of_frame {depth : ℕ} (body : FwStr)
    (hframe : s.ctx.frame.stackDeepth = UInt8.ofNat depth)
    (hres : depth + func.functype.resCnt.toNat ≤ s.ctx.pos) (hpos : s.ctx.pos < 2 ^ 32) :
    Relocates depth func body s ↔ depth < 256 := by
  have hold : s.ctx.frame.stackDeepth.toNat = depth % 256 := by
    rw [hframe, UInt8.toNat_ofNat']
  have hi : (s.ctx.pos + 2 ^ 32 - func.functype.resCnt.toNat) % 2 ^ 32 =
      s.ctx.pos - func.functype.resCnt.toNat := by omega
  obtain ⟨s', hmove⟩ := moveRetsTo_returns (depth % 256)
    (s.ctx.pos - func.functype.resCnt.toNat) s
  have hrun : (fwInstrRunReturn func body s).res =
      .ok ((.ok, { body with pos := s.ctx.frame.fin }), s') := by
    rw [fwInstrRunReturn, get_bind_apply]
    simp only [hi, hold]
    rw [bind_of_ok hmove]
    rfl
  obtain ⟨hnew, hslots⟩ := moveRetsTo_eq_ok (Nat.sub_le _ _) hmove
  have hmod := Nat.mod_le depth 256
  refine ⟨?_, fun hlt => ⟨_, s', hrun, ?_⟩⟩
  · rintro ⟨body', s'', hrun', hrel⟩
    rw [hrun] at hrun'
    obtain ⟨-, rfl⟩ := Prod.mk.inj (Except.ok.inj hrun')
    have hdepth := hrel.pos
    omega
  · rw [Nat.mod_eq_of_lt hlt] at hnew hslots
    obtain ⟨hmoved, hbelow⟩ := hslots (by omega)
    exact ⟨⟨by omega, fun j hj => hmoved j (by omega)⟩, hbelow⟩

/-- In a function that has called no other wasm function (`hcalls`), a `return` leaves the results
at the depth that the function was entered at if and only if that depth is below 256. The `return`
is any that the function comes to (`hfetch`), in the state that the machine has there. -/
theorem return_relocates_iff {n k pos : ℕ} {s' : Machine} (body : FwStr) (hin : s.ctx.InBounds)
    (hfetch : ((interp env n).func func s).log[k]? = some (.fetch pos s'.ctx))
    (hcalls : (((interp env n).func func s).log.take k).countP Event.isEnter ≤ 1)
    (hres : s.ctx.pos + func.functype.resCnt.toNat ≤ s'.ctx.pos) :
    Relocates s.ctx.pos func body s' ↔ s.ctx.pos < 256 := by
  have hbounds := ((@interp_stack env n).1 func false s ⟨rfl, hin⟩).1
  have hin' : s'.ctx.InBounds :=
    hbounds.forall (fun hit e (h : limitMonitor.ok hit e) => h.2) _ (List.mem_of_getElem? hfetch)
  have hframe := frame_of_fetch hfetch hcalls
  refine relocates_iff_of_frame body (by rw [hframe]) hres ?_
  exact lt_of_le_of_lt (hin'.1.trans_eq hin'.2) (by decide)

end

/-! ### Two returns

A `return` of a function that has called nothing goes right, and one behind a call does not. -/

/-- A function that returns its one result. -/
def returnOne : FwModuleFunc := ⟨1, ⟨0, 1, [fwI32]⟩, ⟨0, 4⟩, none, .init⟩

/-- Its bytes. -/
def returnOneEnv : Env := zeroEnv (memOf [0x41, 0x07, 0x0f, 0x0b]) [returnOne]

/-- A `return` of a function that has called nothing ends it. -/
theorem return_ends_own_iff_returnOne :
    let log := (fwModuleRunFunc returnOneEnv 8 returnOne [] false
      (fwModuleContextNew fun _ => .plain 0 0)).log
    ∃ before after pos, log[5]? = some (.ret returnOne before after pos) ∧
      ∃ depth rest g d, (callsOf (log.take 5)).opened = (returnOne, depth) :: rest ∧
        (callsOf (log.take 5)).last = some (g, d) ∧
        (EndsOwn returnOne depth before after pos ↔
          g.body.last = 4 ∧ (HasResults returnOne depth before → d % 256 = depth)) ∧
        (pos = 4 → EndsAt log 5) := by
  intro log
  obtain ⟨before, after, pos, hret⟩ : ∃ before after pos,
      (fwModuleRunFunc returnOneEnv 8 returnOne [] false
        (fwModuleContextNew fun _ => .plain 0 0)).log[5]? =
        some (.ret returnOne before after pos) := ⟨_, _, _, rfl⟩
  have hval : ∀ h ∈ returnOne :: returnOneEnv.funcs, h.hostAddr = none →
      h.Validated returnOneEnv.mem := by
    intro h hh _
    obtain rfl : h = returnOne := by simpa [returnOneEnv, zeroEnv] using hh
    exact ⟨.ok, rfl⟩
  obtain ⟨depth, rest, g, d, hopened, hlast, hiff, hends⟩ := return_ends_own_iff hret
  exact ⟨before, after, pos, hret, depth, rest, g, d, hopened, hlast, hiff, hends hval⟩

/-- A machine with so many operands, all of them zero. -/
def operands (pos : ℕ) : Machine :=
  ⟨⟨fun _ => .plain 0 0, pos, fwMaxStackSize, none, ⟨0, 0⟩⟩, [], 0⟩

/-- Entered above 255 operands it leaves its result right above them. -/
theorem returnOne_relocates :
    ∃ s' : Machine, ((interp returnOneEnv 8).func returnOne (operands 255)).log[4]? =
        some (.fetch 2 s'.ctx) ∧ s'.ctx.pos = 256 ∧
      (Relocates 255 returnOne ⟨3, 4⟩ s' ↔ 255 < 256) := by
  obtain ⟨s', hfetch, hpos⟩ : ∃ s' : Machine,
      ((interp returnOneEnv 8).func returnOne (operands 255)).log[4]? = some (.fetch 2 s'.ctx) ∧
        s'.ctx.pos = 256 := ⟨⟨_, [], 0⟩, rfl, rfl⟩
  refine ⟨s', hfetch, hpos, return_relocates_iff (s := operands 255) ⟨3, 4⟩ ?_ hfetch ?_ hpos.ge⟩
  · exact ⟨by decide, rfl⟩
  · decide

/-- Entered above 256 operands it does not: the depth in the frame is 0. -/
theorem returnOne_not_relocates :
    ∃ s' : Machine, ((interp returnOneEnv 8).func returnOne (operands 256)).log[4]? =
        some (.fetch 2 s'.ctx) ∧ 256 + returnOne.functype.resCnt.toNat ≤ s'.ctx.pos ∧
      ¬ Relocates 256 returnOne ⟨3, 4⟩ s' := by
  refine ⟨⟨_, [], 0⟩, rfl, by decide, ?_⟩
  rintro ⟨body', s', hrun, hrel⟩
  have hpos := hrel.pos
  obtain ⟨-, rfl⟩ := Prod.mk.inj (Except.ok.inj hrun)
  exact absurd hpos (by decide)

/-- A function that calls function 1 and returns, with no result. -/
def callReturn : FwModuleFunc := ⟨1, ⟨0, 0, []⟩, ⟨0, 4⟩, none, .init⟩

/-- A function with an empty body, behind it in memory. -/
def emptyFunc : FwModuleFunc := ⟨1, ⟨0, 0, []⟩, ⟨4, 5⟩, none, .init⟩

/-- The bytes of both. -/
def callReturnEnv : Env :=
  zeroEnv (memOf [0x10, 0x01, 0x0f, 0x0b, 0x0b]) [callReturn, emptyFunc]

/-- After the call the `return` goes to the end of the callee. -/
theorem return_ends_callee :
    let log := (fwModuleRunFunc callReturnEnv 8 callReturn [] false
      (fwModuleContextNew fun _ => .plain 0 0)).log
    ∃ before after pos, log[9]? = some (.ret callReturn before after pos) ∧
      (callsOf (log.take 9)).opened = [(callReturn, 0)] ∧
      ¬ EndsOwn callReturn 0 before after pos :=
  ⟨_, _, _, rfl, rfl, fun h => absurd h.1 (by decide)⟩

end FastWasm
