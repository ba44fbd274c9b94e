import FastWasm.Align

/-!
# What follows a return

A `return` inside the branches of an `if` only moves the cursor of the innermost branch. That it
ends the whole function rests on the loops around it: each takes a cursor behind its window for a
return and passes it on. In a validated function no window reaches further than the body, so after a
`return` to the end of its function nothing is executed in that function any more.

This is a property of the log of a run, and it is followed by a monitor: a stack of flags, one for
each function that is entered and not left, which a `return` to the end of its function sets and
after which only the leaving of that function is accepted. What carries it through the handlers is a
triple between the flag and the cursor (`EndedAt`): as long as the cursor is elsewhere the function
is running, so a loop that goes on has not ended its function. It needs of the functions only that
no block reaches further than the body (`FwModuleFunc.Bounded`), which holds of every block table
that validation leaves.
-/

namespace FastWasm

open Logged

/-! ## Ended functions

The flags are a stack, since a function that is called is run to its end while its caller waits.
What is claimed is that nothing is fetched, entered or returned from in a function whose flag is
set. -/

/-- Is an opcode fetched? -/
def Event.isFetch : Event → Bool
  | .fetch _ _ => true
  | _ => false

/-- Is a wasm function left? -/
def Event.isLeave : Event → Bool
  | .leave => true
  | _ => false

/-- Follows the open functions, the innermost first: whether each has executed a `return` to its
own end. Nothing is executed in those that have, and they can only be left. -/
def endMonitor : Monitor (List Bool) Event where
  step g e := match e with
    | .enter _ _ => false :: g
    | .leave => g.tail
    | .ret func _ _ pos => decide (pos = func.body.last) :: g.tail
    | _ => g
  ok g e := match e with
    | .fetch _ _ | .enter _ _ | .ret _ _ _ _ => g.head? ≠ some true
    | _ => True

theorem endMonitor_quiet (g : List Bool) (e : Event) (he : e.Quiet) :
    endMonitor.ok g e ∧ endMonitor.step g e = g := by
  cases e with
  | fetch | enter | leave | ret => exact he.elim
  | slot | limit | alloc | free | uninit | host | errLabel | err => exact ⟨trivial, rfl⟩

/-- An ended function does nothing up to where it is left. -/
theorem quiet_of_ended {g : List Bool} {l : List Event} (h : endMonitor.Accepts g l)
    (hg : g.head? = some true) : ∀ e ∈ l.takeWhile fun e => !e.isLeave, e.Quiet := by
  induction l with
  | nil => exact List.forall_mem_nil _
  | cons e l ih =>
    obtain ⟨hok, hl⟩ := h
    cases e with
    | leave => exact List.forall_mem_nil _
    | fetch | enter | ret => exact absurd hg hok
    | slot | limit | alloc | free | uninit | host | errLabel | err =>
      exact List.forall_mem_cons.mpr ⟨trivial, ih hl⟩

/-! ## Handlers

Each handler is looked at in a window of its function, which may be that of a branch. What it may
leave behind is a running function, or one that has ended with the cursor at its end. -/

/-- No block of the function reaches further than its body: neither its `else` nor its `end` lies
behind the last byte. -/
def FwModuleFunc.Bounded (func : FwModuleFunc) : Prop :=
  Recorded (fun v => v ≤ func.body.last) func.blks

/-- The block table of the function is the one that validation leaves. -/
def FwModuleFunc.Validated (mem : Mem) (func : FwModuleFunc) : Prop :=
  ∃ status, (fwModuleValidateInst mem func.body .init).res = .ok (status, func.blks)

theorem FwModuleFunc.Validated.bounded {mem : Mem} {func : FwModuleFunc}
    (h : func.Validated mem) : func.Bounded := by
  obtain ⟨status, h⟩ := h
  exact fun id v hv => ((walked_of_validate h).blks id v hv).2

/-- The innermost function has the end `fin`, and the cursor `pos` is there if the function has
ended. It says nothing of a cursor that happens to be there in a running function. -/
def EndedAt (fin : ℕ) (st : List Bool) (pos : ℕ) (g : List Bool) : Prop :=
  ∃ ended, g = ended :: st ∧ (ended = true → pos = fin)

/-- A loop over a window up to `last` stops at once when the function has ended. -/
def EndedExit (fin : ℕ) (st : List Bool) (last : ℕ) (exit : LoopExit) (g : List Bool) : Prop :=
  ∃ ended, g = ended :: st ∧ (ended = true → exit = .done ⟨fin, last⟩)

section

variable {env : Env} {r : Interp} {func : FwModuleFunc} {body : FwStr} {st : List Bool}

/-- What leaves the function running: a computation that comes back with the same flags. -/
abbrev KeepsRunning {α : Type} (st : List Bool) (m : Run α) : Prop :=
  Keeps endMonitor (fun g _ => g = false :: st) (fun _ _ => True) m

/-- A loop over a window of the function: it starts in a running function, and when it ends the
function has ended only if the cursor shows it. -/
abbrev LoopEnds (r : Interp) (func : FwModuleFunc) (st : List Bool) (body : FwStr) : Prop :=
  Triple endMonitor (fun g _ => EndedAt func.body.last st body.pos g) (r.loop func body)
    (fun exit g _ => EndedExit func.body.last st body.last exit g) fun _ _ => True

/-- A handler in a window of the function: it starts in a running function, and the cursor that it
returns shows whether the function has ended. -/
abbrev HandlerEnds (func : FwModuleFunc) (st : List Bool) (last : ℕ) (m : Run (Status × FwStr)) :
    Prop :=
  Triple endMonitor (fun g _ => g = false :: st) m
    (fun x g _ => x.2.last = last ∧ EndedAt func.body.last st x.2.pos g) fun _ _ => True

theorem endedAt_of_running {fin pos : ℕ} {g : List Bool} (hg : g = false :: st) :
    EndedAt fin st pos g :=
  ⟨false, hg, fun h => absurd h Bool.false_ne_true⟩

theorem endedExit_of_running {fin last : ℕ} {exit : LoopExit} {g : List Bool}
    (hg : g = false :: st) : EndedExit fin st last exit g :=
  ⟨false, hg, fun h => absurd h Bool.false_ne_true⟩

theorem running_head (st : List Bool) : (false :: st).head? ≠ some true := by simp

theorem running_stable : Stable endMonitor (fun g _ => g = false :: st) fun _ _ => True :=
  stable_frame (J := fun g _ => g = false :: st) endMonitor_quiet

/-- A loop that ended otherwise has left the function running. -/
theorem running_of_exit {fin last : ℕ} {exit : LoopExit} {g : List Bool}
    (h : EndedExit fin st last exit g) (hexit : exit ≠ .done ⟨fin, last⟩) : g = false :: st := by
  obtain ⟨ended, hg, hended⟩ := h
  cases ended with
  | false => exact hg
  | true => exact absurd (hended rfl) hexit

/-- A function whose cursor is elsewhere is running, so the loop may fetch the next opcode. -/
theorem running_of_pos {fin pos : ℕ} {g : List Bool} (h : EndedAt fin st pos g)
    (hpos : pos ≠ fin) : g = false :: st := by
  obtain ⟨ended, hg, hended⟩ := h
  cases ended with
  | false => exact hg
  | true => exact absurd (hended rfl) hpos

/-- A `return` ends its function when it goes to its end. After a call it may go to the end of
another one, and then the function is still running. -/
theorem return_ends : HandlerEnds func st body.last (fwInstrRunReturn func body) := by
  refine Triple.get_bind fun s₀ => Triple.bind (R := fun _ g _ => g = false :: st)
    ((Triple.of_spares (StackOnly.moveRetsTo _ _).frame (J := fun g _ => g = false :: st)
      endMonitor_quiet).pre fun _ _ h => h.1) fun _ => Triple.get_bind fun s₁ =>
    Triple.emit_bind (R := fun g _ => EndedAt func.body.last st s₀.ctx.frame.fin g) ?_
      (Triple.pure fun _ _ h => ⟨rfl, h⟩)
  rintro g s ⟨rfl, -⟩
  exact ⟨running_head st, _, rfl, of_decide_eq_true⟩

/-- An `if` passes on where its branch ended. A branch that returned has its cursor at the end of
the function, which is behind the branch. -/
theorem if_ends (hblks : func.Bounded) (hpos : 0 < func.body.last)
    (hloop : ∀ body, body.last ≤ func.body.last → LoopEnds r func st body) :
    HandlerEnds func st body.last (fwInstrRunIf env r func body) := by
  refine running_stable.if_branch ?_ ?_ ?_
  · exact fun _ g s hg => ⟨rfl, endedAt_of_running hg⟩
  · exact fun val body' hr g s hg => ⟨(getu_eq_got hr).2.1, endedAt_of_running hg⟩
  · intro val body' blk els fin hr hfind hels hfin cond
    obtain ⟨id, -, rfl⟩ := mem_of_find hfind
    have helsle : els ≤ func.body.last := hblks id els (.inl hels)
    have hfinle : fin ≤ func.body.last := hblks id fin (.inr hfin)
    -- the window of the then-branch ends before the body, that of the else-branch at `fin`
    generalize hbranch :
      (if cond.val ≠ 0 then ⟨body'.pos, els - 1⟩ else ⟨els, fin⟩ : FwStr) = branch
    have hle : branch.last ≤ func.body.last := by
      rw [← hbranch]
      split
      · exact (Nat.sub_le _ _).trans helsle
      · exact hfinle
    have hend : func.body.last ≤ branch.last → fin = func.body.last := by
      rw [← hbranch]
      split
      · intro h
        have hlt : func.body.last - 1 < func.body.last := Nat.sub_lt hpos Nat.one_pos
        exact absurd (h.trans (Nat.sub_le_sub_right helsle 1)) (Nat.not_le.mpr hlt)
      · exact Nat.le_antisymm hfinle
    refine ((hloop branch hle).pre fun g s => endedAt_of_running).post fun exit g s hexit => ?_
    cases exit with
    | done b =>
      obtain ⟨ended, hg, hended⟩ := hexit
      refine ⟨(getu_eq_got hr).2.1, ended, hg, fun h => ?_⟩
      obtain rfl := LoopExit.done.inj (hended h)
      by_cases hb : func.body.last > branch.last
      · exact if_pos hb
      · exact (if_neg hb).trans (hend (Nat.not_lt.mp hb))
    | badOpcode | strErr => exact running_of_exit hexit (by simp)

/-- The cursor of every other handler stays in its window: the handler moves it over the immediates,
and leaves the end of the window alone. -/
theorem lands_last {fn : RunFn} {m : Run (Status × FwStr)}
    (hl : Lands (fn.decoder.next env.mem body) m) {s s' : Machine} {x : Status × FwStr}
    (h : (m s).res = .ok (x, s')) : x.2.last = body.last :=
  (next_le (hl s x s' h)).2

/-- Every handler. Those that move the cursor over immediates only leave the function running. -/
theorem run_ends (fn : RunFn) (hblks : func.Bounded) (hpos : 0 < func.body.last)
    (hfunc : ∀ f ∈ env.funcs, KeepsRunning st (r.func f))
    (hloop : ∀ body, body.last ≤ func.body.last → LoopEnds r func st body) :
    HandlerEnds func st body.last (fn.run env r func body) := by
  by_cases hif : fn = .if_
  · subst hif
    exact if_ends hblks hpos hloop
  by_cases hret : fn = .return_
  · subst hret
    exact return_ends
  have hkeeps : KeepsRunning st (fn.run env r func body) := by
    by_cases hcall : fn = .call
    · subst hcall
      exact running_stable.call hfunc
    · exact running_stable.leaf hif hcall hret
  exact (Triple.and_res hkeeps (R := fun x _ => x.2.last = body.last) fun _ _ _ _ _ hr =>
    lands_last (run_lands hif hret) hr).post fun x g s h => ⟨h.2, endedAt_of_running h.1⟩

/-! ## Loops and functions

A loop stops at a cursor that is at the end of its window or behind it, and for that reason at the
cursor of an ended function. The loop around it does the same with what it gets back. -/

/-- A dispatch loop, over a window that lies within the function (`hle`). -/
theorem dispatch_ends (hblks : func.Bounded) (hfunc : ∀ f ∈ env.funcs, KeepsRunning st (r.func f))
    (hloop : ∀ body, body.last ≤ func.body.last → LoopEnds r func st body)
    (hle : body.last ≤ func.body.last) :
    Triple endMonitor (fun g _ => EndedAt func.body.last st body.pos g)
      (dispatchLoop env r func body)
      (fun exit g _ => EndedExit func.body.last st body.last exit g) fun _ _ => True := by
  refine dispatch_rule (I := fun g _ => g = false :: st) ?_ (fun hlt g s h => ?_)
    (fun _ _ => endedExit_of_running) (fun _ _ _ => trivial) fun hlt instr fn _ _ => ?_
  · rintro - g s ⟨ended, hg, hended⟩
    exact ⟨ended, hg, fun h => by rw [← hended h]⟩
  · -- the cursor is not at the end of the body, so the function is running
    have hg : g = false :: st := running_of_pos h (by omega)
    exact ⟨by rw [hg]; exact running_head st, hg⟩
  · have hrun : HandlerEnds func st body.last (fn.run env r func ⟨body.pos + 1, body.last⟩) :=
      run_ends fn hblks (by omega) hfunc hloop
    refine Triple.bind hrun fun x => Triple.of_and fun hlast => ?_
    rw [← hlast] at hle ⊢
    exact hloop x.2 hle

/-- A function leaves the functions around it running, by induction on the number of steps. A host
function enters nothing, so nothing is asked of its block table. -/
theorem interp_ends {env : Env} (henv : ∀ f ∈ env.funcs, f.hostAddr = none → f.Bounded) (n : ℕ) :
    (∀ f, (f.hostAddr = none → f.Bounded) → ∀ st, st.head? ≠ some true →
        Keeps endMonitor (fun g _ => g = st) (fun _ _ => True) ((interp env n).func f)) ∧
      ∀ f, f.Bounded → ∀ st body, body.last ≤ f.body.last →
        LoopEnds (interp env n) f st body := by
  refine interp_induction (p := fun r =>
    (∀ f, (f.hostAddr = none → f.Bounded) → ∀ st, st.head? ≠ some true →
        Keeps endMonitor (fun g _ => g = st) (fun _ _ => True) (r.func f)) ∧
      ∀ f, f.Bounded → ∀ st body, body.last ≤ f.body.last → LoopEnds r f st body) ?_ ?_ n
  · exact ⟨fun _ _ _ _ => Triple.halt fun _ _ _ => trivial,
      fun _ _ _ _ _ => Triple.halt fun _ _ _ => trivial⟩
  · rintro r ⟨hfunc, hloop⟩
    refine ⟨fun f hf st hst => ?_, fun f hf st body hle => ?_⟩
    · refine func_rule (stable_frame (J := fun g _ => g = st) endMonitor_quiet).hostFunc
        fun hh => ?_
      have henter : Triple endMonitor (fun g _ => g = st) (fwEnterFunc env f)
          (fun _ g _ => g = false :: st) fun _ _ => True :=
        enterFunc_frame (J := fun g _ => g = st) (K := fun g _ => g = false :: st)
          endMonitor_quiet fun g _ _ hg => by
            subst hg
            exact ⟨hst, rfl⟩
      refine Triple.bind henter fun saveLocals => Triple.bind
        ((hloop f (hf hh) st f.body (le_refl _)).pre fun g s => endedAt_of_running)
        fun exit => ?_
      refine (leaveFunc_frame (J := fun g _ => ∃ ended, g = ended :: st)
        (K := fun g _ => g = st) endMonitor_quiet ?_ saveLocals exit).pre
          fun g s h => h.imp fun _ h => h.1
      rintro g _ ⟨ended, rfl⟩
      exact ⟨trivial, rfl⟩
    · exact dispatch_ends hf (fun g hg => hfunc g (henv g hg) _ (running_head st))
        (hloop f hf st) hle

/-- In a run of `fw_module_run_func` ended functions stay ended. -/
theorem runFunc_ends {env : Env} {func : FwModuleFunc}
    (henv : ∀ f ∈ func :: env.funcs, f.hostAddr = none → f.Bounded) (n : ℕ)
    (args : List (List UInt8)) (rets : Bool) :
    Keeps endMonitor (fun g _ => g = []) (fun _ _ => True)
      (fwModuleRunFunc env n func args rets) := by
  obtain ⟨hfunc, henv⟩ := List.forall_mem_cons.mp henv
  exact (stable_frame (J := fun g _ => g = []) endMonitor_quiet).moduleRunFunc
    ((interp_ends henv n).1 func hfunc [] nofun) args rets

end

end FastWasm
