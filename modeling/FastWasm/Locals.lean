import FastWasm.Errors

/-!
# Who owns the locals

A function that is entered allocates a block for its parameters and locals, keeps it in
`ctx->locals`, and frees it when it is left. Two slips break this. Without parameters and locals
there is no block, and the variable that should point to it is never assigned. And the label `err`
frees the block of the caller, and leaves `ctx->locals` as it is after an unknown opcode. Where
neither happens, a call leaves every block and `ctx->locals` as they were (`locals_isolated`).

Both slips are seen in the log: the value of the unassigned variable is one of its events, and so is
the label `err` with the block it frees. So the condition is one on the steps of the run, each with
what the step finds (`Event.Apart`). That a block is freed by the function that has allocated it is
a question about the log too, and the monitor keeps the blocks of the open functions for it.
-/

namespace FastWasm

open Logged

/-! ## Blocks in a log

The log says which blocks were allocated and freed and which functions were entered and left. A
block belongs to the function that is entered next. -/

/-- Not one of the slips: an unassigned variable that happens to be `NULL`, or an error exit where
neither the caller nor the function left has a block. -/
def Event.Apart : Event → Prop
  | .uninit p => p = none
  | .errLabel saved locals => saved = none ∧ locals = none
  | _ => True

/-- The blocks that the open functions allocated, the innermost first; `none` for a function without
a block. -/
def ownStep (own : List (Option ℕ)) : Event → List (Option ℕ)
  | .alloc id => some id :: own
  | .uninit _ => none :: own
  | .leave => own.tail
  | _ => own

/-- The blocks of the functions open after a log, the innermost first. -/
def ownBlocks (l : List Event) : List (Option ℕ) := l.foldl ownStep []

/-- The blocks of the open functions, and whether there was no slip so far. -/
abbrev Blocks : Type := List (Option ℕ) × Prop

/-- Follows the blocks. Up to the first slip a function frees its own block only. -/
def blockMonitor : Monitor Blocks Event where
  step g e := (ownStep g.1 e, g.2 ∧ e.Apart)
  ok g e := match e with
    | .free id => g.2 → g.1.head? = some (some id)
    | _ => True

theorem blockMonitor_after :
    ∀ (g : Blocks) (l : List Event),
      blockMonitor.after g l = (l.foldl ownStep g.1, g.2 ∧ ∀ e ∈ l, e.Apart)
  | g, [] => by simp
  | g, e :: l => by
    rw [Monitor.after_cons, blockMonitor_after]
    simp only [blockMonitor, List.foldl_cons, List.forall_mem_cons, and_assoc]

/-- Events that are not about blocks, and do not move the monitor. -/
def Event.NoBlock : Event → Prop
  | .slot _ _ _ | .limit | .host _ _ | .err | .fetch _ _ | .enter _ _ | .ret _ _ _ _ => True
  | .leave | .alloc _ | .free _ | .uninit _ | .errLabel _ _ => False

theorem Event.OnStack.noBlock {e : Event} (h : e.OnStack) : e.NoBlock := by
  cases e with
  | slot | limit | host | err | fetch | enter | ret => trivial
  | leave | alloc | free | uninit | errLabel => exact h.elim

theorem blockMonitor_noBlock (g : Blocks) (e : Event) (he : e.NoBlock) :
    blockMonitor.ok g e ∧ blockMonitor.step g e = g := by
  cases e with
  | slot | limit | host | err | fetch | enter | ret => exact ⟨trivial, Prod.ext rfl (and_true _)⟩
  | leave | alloc | free | uninit | errLabel => exact he.elim

/-- After a slip nothing is claimed, so a triple may assume that there was none. -/
theorem of_apart {α : Type} {m : Run α} {P : Blocks → Machine → Prop}
    {Q : α → Blocks → Machine → Prop}
    (h : Triple blockMonitor (fun g s => g.2 ∧ P g s) m (fun a g s => g.2 → Q a g s)
      fun _ _ => True) :
    Triple blockMonitor (fun g s => g.2 → P g s) m (fun a g s => g.2 → Q a g s)
      fun _ _ => True := by
  intro g s hs
  by_cases hg : g.2
  · exact h g s ⟨hg, hs hg⟩
  · refine Triple.of_closed (P := fun g _ => ¬ g.2) (S := fun g => ¬ g.2) (fun g e hg => ?_)
      (fun g e hg h => hg h.1) (fun _ _ h => h) (fun _ _ _ hg h => absurd h hg)
      (fun _ _ _ => trivial) g s hg
    cases e <;> first | exact trivial | exact fun h => absurd h hg

/-! ## The heap in a function

Blocks are never removed from the heap, they become freed. A call appends blocks, and frees those
that it has appended. -/

/-- The heap of a function that was entered with the heap `h₀` and owns the block `own`: there are
only freed blocks besides. Its own block may have other values in it. -/
def HeapWith (h₀ : List (Option FwFuncLocals)) (own : Option ℕ)
    (heap : List (Option FwFuncLocals)) : Prop :=
  match own with
  | none => ∃ k, heap = h₀ ++ List.replicate k none
  | some id => id = h₀.length ∧ ∃ b k, heap = h₀ ++ some b :: List.replicate k none

section Heap

variable {h₀ heap : List (Option FwFuncLocals)} {own : Option ℕ} {id : ℕ}

/-- A call only leaves freed blocks behind, so the heap of the caller is as it was. -/
theorem HeapWith.append (h : HeapWith h₀ own heap) {heap' : List (Option FwFuncLocals)}
    (h' : HeapWith heap none heap') : HeapWith h₀ own heap' := by
  obtain ⟨k', rfl⟩ := h'
  cases own with
  | none =>
    obtain ⟨k, rfl⟩ := h
    exact ⟨k + k', by rw [List.append_assoc, List.replicate_append_replicate]⟩
  | some id =>
    obtain ⟨hid, b, k, rfl⟩ := h
    exact ⟨hid, b, k + k', by
      rw [List.append_assoc, List.cons_append, List.replicate_append_replicate]⟩

/-- A write to the own block changes its values and no other block. -/
theorem HeapWith.write (h : HeapWith h₀ (some id) heap) (b : FwFuncLocals) :
    HeapWith h₀ (some id) (heap.set id (some b)) := by
  obtain ⟨rfl, b', k, rfl⟩ := h
  exact ⟨rfl, b, k, by rw [List.set_append_right _ _ (le_refl _), Nat.sub_self, List.set_cons_zero]⟩

/-- The own block is freed, and then there are only freed blocks besides those from before. -/
theorem HeapWith.free (h : HeapWith h₀ (some id) heap) : HeapWith h₀ none (heap.set id none) := by
  obtain ⟨rfl, b, k, rfl⟩ := h
  exact ⟨k + 1, by
    rw [List.set_append_right _ _ (le_refl _), Nat.sub_self, List.set_cons_zero,
      List.replicate_succ]⟩

end Heap

/-! ## In a function

While a function runs, `ctx->locals` is its own block, unless a slip has put something else there.
-/

section

variable {env : Env} {r : Interp} {func : FwModuleFunc} {body : FwStr} {st : List (Option ℕ)}
  {own p : Option ℕ} {h₀ : List (Option FwFuncLocals)}

/-- In a function with the block `own`, entered with the heap `h₀`, while `ctx->locals` is `p`. The
two may differ behind a call that was a slip, and then nothing is claimed. -/
def Owns (st : List (Option ℕ)) (own p : Option ℕ) (h₀ : List (Option FwFuncLocals)) (g : Blocks)
    (s : Machine) : Prop :=
  g.2 → g.1 = own :: st ∧ s.ctx.locals = p ∧ HeapWith h₀ own s.heap

/-- Between functions, with the locals of the caller and its heap up to freed blocks. -/
def Outside (st : List (Option ℕ)) (p : Option ℕ) (h₀ : List (Option FwFuncLocals))
    (g : Blocks) (s : Machine) : Prop :=
  g.2 → g.1 = st ∧ s.ctx.locals = p ∧ HeapWith h₀ none s.heap

/-- Nothing but the operand stack is touched, and the blocks are as they were. -/
theorem keepsOwns_spares {α : Type} {m : Run α} (h : Spares Event.NoBlock Machine.offStack m) :
    Keeps blockMonitor (Owns st own p h₀) (fun _ _ => True) m :=
  Triple.of_spares h
    (J := fun (g : Blocks) (x : Frame × Option ℕ × List (Option FwFuncLocals)) =>
      g.2 → g.1 = own :: st ∧ x.2.1 = p ∧ HeapWith h₀ own x.2.2)
    blockMonitor_noBlock

theorem StackOnly.keepsOwns {α : Type} {m : Run α} (h : StackOnly m) :
    Keeps blockMonitor (Owns st own p h₀) (fun _ _ => True) m :=
  keepsOwns_spares (h.mono (fun _ => Event.OnStack.noBlock) fun _ _ h => h)

/-- The handlers keep to the block of the function, those that call and those that loop aside. -/
theorem block_stable : Stable blockMonitor (Owns st own own h₀) fun _ _ => True where
  push st := (StackOnly.push st).keepsOwns
  room := StackOnly.room.keepsOwns
  pop peek := (StackOnly.pop peek).keepsOwns
  read idx := (StackOnly.localsRead idx).keepsOwns
  write p idx val := fun g s ⟨hs, hp⟩ => by
    obtain ⟨res, hm, ⟨f, rfl⟩ | ⟨id, b, hid, -, rfl⟩⟩ := fwLocalsWrite_apply s p idx val <;> rw [hm]
    · exact ⟨trivial, trivial⟩
    · refine ⟨trivial, fun hg => ?_⟩
      obtain ⟨hst, hlocals, hheap⟩ := hs hg
      obtain rfl : own = some id := by rw [← hlocals, hp, hid]
      exact ⟨hst, hlocals, hheap.write _⟩
  tick := StackOnly.tick.keepsOwns
  host addr args := keepsOwns_spares (Spares.emit trivial)
  err := keepsOwns_spares (Spares.emit trivial)
  fault _ _ _ _ := trivial
  hang _ _ _ := trivial

theorem return_block :
    Keeps blockMonitor (Owns st own own h₀) (fun _ _ => True) (fwInstrRunReturn func body) := by
  refine .get_bind fun _ => (StackOnly.moveRetsTo _ _).keepsOwns.bind fun _ => .get_bind fun _ =>
    Keeps.bind (keepsOwns_spares (Spares.emit trivial)) fun _ => .pure _

/-! ## Entering and leaving

The block is allocated before the function is entered and freed before it is left, and `ctx->locals`
is switched in between. What the source has saved is the pointer of the caller. -/

/-- The block of a function is there before it is entered. With parameters or locals it is a new
one; without them the pointer is whatever `locals` is before it is initialised, which is `NULL`
under the condition on the steps. -/
theorem initLocals_block :
    Triple blockMonitor (fun g s => g.2 → g.1 = st ∧ s.ctx.locals = p ∧ s.heap = h₀)
      (fwInitLocals env func)
      (fun own => Owns st own p h₀) fun _ _ => True := by
  apply of_apart
  rw [fwInitLocals]
  by_cases hcnt : func.localsCnt ≠ 0
  · rw [if_pos hcnt]
    refine Triple.bind (R := fun id g s => g.1 = some id :: st ∧ s.ctx.locals = p ∧
      HeapWith h₀ (some id) s.heap) ?_ fun id => Triple.pure fun _ _ h _ => h
    rintro g s ⟨-, hst, hp, rfl⟩
    rw [fwLocalsCalloc_apply]
    exact ⟨⟨trivial, trivial⟩, by rw [← hst]; rfl, hp, rfl, _, 0, rfl⟩
  · rw [if_neg hcnt]
    refine Triple.bind (R := fun _ g s => g.1 = st ∧ s.ctx.locals = p ∧ s.heap = h₀) ?_
      fun n => Triple.emit_bind (R := fun g s => g.2 → env.uninit n = none ∧ g.1 = none :: st ∧
        s.ctx.locals = p ∧ s.heap = h₀) ?_ (Triple.pure fun g s h hg => ?_)
    · exact fun g s h => ⟨trivial, h.2⟩
    · rintro g s ⟨hst, hp, hheap⟩
      exact ⟨trivial, fun hg => ⟨hg.2, by rw [← hst]; rfl, hp, hheap⟩⟩
    · obtain ⟨hn, hst, hp, hheap⟩ := h hg
      rw [hn]
      exact ⟨hst, hp, 0, by rw [hheap]; exact (List.append_nil _).symm⟩

/-- The arguments go into the own block, and nowhere else. -/
theorem copyParams_block (paramCnt : ℕ) :
    ∀ i, Keeps blockMonitor (Owns st own p h₀) (fun _ _ => True) (fwCopyParams own paramCnt i)
  | 0 => .pure _
  | i + 1 => by
    refine (StackOnly.stackGet i).keepsOwns.bind fun param =>
      Keeps.bind (fun g s hs => ?_) fun _ => copyParams_block paramCnt i
    obtain ⟨res, hm, ⟨f, rfl⟩ | ⟨id, b, rfl, -, rfl⟩⟩ :=
      fwLocalsWrite_apply s own (paramCnt - i - 1) param.val <;> rw [hm]
    · exact ⟨trivial, trivial⟩
    · exact ⟨trivial, fun hg => ⟨(hs hg).1, (hs hg).2.1, (hs hg).2.2.write _⟩⟩

/-- A function is entered with a block of its own. -/
theorem enterFunc_block :
    Triple blockMonitor (fun g s => g.2 → g.1 = st ∧ s.ctx.locals = p ∧ s.heap = h₀)
      (fwEnterFunc env func)
      (fun saved g s => ∃ own, g.2 → saved = p ∧ g.1 = own :: st ∧ s.ctx.locals = own ∧
        HeapWith h₀ own s.heap) fun _ _ => True := by
  refine Triple.bind initLocals_block fun own => Triple.bind (copyParams_block _ _) fun _ =>
    Triple.get_bind fun s₀ => Triple.emit_bind
      (R := fun g s => Owns st own p h₀ g s ∧ s = s₀) ?_
      (Triple.bind (R := fun _ g s => g.2 → s₀.ctx.locals = p ∧ g.1 = own :: st ∧
          s.ctx.locals = own ∧ HeapWith h₀ own s.heap) (Triple.set ?_) fun _ =>
        Triple.pure fun _ _ h => ⟨own, h⟩)
  · rintro g s ⟨hs, rfl⟩
    exact ⟨trivial, fun hg => hs hg.1, rfl⟩
  · rintro g s ⟨hs, rfl⟩ hg
    obtain ⟨hst, hp, hheap⟩ := hs hg
    exact ⟨hp, hst, rfl, hheap⟩

/-- `ctx->locals` is freed, which is the own block when it is not `NULL`. As the function owns it,
it is still there, and no other function's block is freed in its place. -/
theorem freeLocals_block {q : Option ℕ} :
    Triple blockMonitor (fun g s => Owns st own own h₀ g s ∧ s.ctx.locals = q) (fwLocalsFreeIf q)
      (fun _ g s => g.2 → g.1 = own :: st ∧ HeapWith h₀ none s.heap) fun _ _ => True := by
  rintro g s ⟨hs, rfl⟩
  cases hq : s.ctx.locals with
  | none =>
    refine ⟨trivial, fun hg => ?_⟩
    obtain ⟨hst, hown, hheap⟩ := hs hg
    rw [hq] at hown
    subst hown
    exact ⟨hst, hheap⟩
  | some id =>
    rw [fwLocalsFreeIf, fwLocalsFree_apply]
    cases s.block (some id) with
    | none => exact ⟨trivial, trivial⟩
    | some b =>
      refine ⟨⟨fun hg => ?_, trivial⟩, fun hg => ?_⟩
      · obtain ⟨hst, hown, -⟩ := hs hg
        rw [hst, ← hown, hq]
        rfl
      · obtain ⟨hst, hown, hheap⟩ := hs hg.1
        rw [hq] at hown
        subst hown
        exact ⟨hst, hheap.free⟩

/-- The function is left, with its block freed. -/
theorem leave_block (status : Status) :
    Triple blockMonitor
      (fun g s => g.2 → g.1 = own :: st ∧ s.ctx.locals = p ∧ HeapWith h₀ none s.heap)
      (do emit .leave; pure status : Run Status) (fun _ => Outside st p h₀) fun _ _ => True :=
  Triple.emit_bind (R := Outside st p h₀) (fun g s hs => ⟨trivial, fun hg => by
    obtain ⟨hst, hp, hheap⟩ := hs hg.1
    exact ⟨by change g.1.tail = st; rw [hst]; rfl, hp, hheap⟩⟩) (Triple.pure fun _ _ h => h)

/-- The label `err`, with nothing to free: it would free the block of the caller, and there is none.
-/
theorem errLabel_block (own : Option ℕ) :
    Triple blockMonitor
      (fun g s => g.2 → g.1 = own :: st ∧ (s.ctx.locals = none → HeapWith h₀ none s.heap))
      (fwErrLabel p) (fun _ => Outside st p h₀) fun _ _ => True := by
  refine Triple.get_bind fun s₀ => Triple.emit_bind
    (R := fun g s => g.2 → p = none ∧ g.1 = own :: st ∧ s.ctx.locals = p ∧ HeapWith h₀ none s.heap)
    ?_ (of_apart (Triple.bind (R := fun _ g s => g.2 → g.1 = own :: st ∧ s.ctx.locals = p ∧
      HeapWith h₀ none s.heap) ?_ fun _ => leave_block _))
  · rintro g s ⟨hs, rfl⟩
    refine ⟨trivial, fun hg => ?_⟩
    obtain ⟨rfl, hnone⟩ := hg.2
    obtain ⟨hst, hheap⟩ := hs hg.1
    exact ⟨rfl, hst, hnone, hheap hnone⟩
  · rintro g s ⟨-, rfl, h⟩
    exact ⟨trivial, fun _ => h⟩

/-- A function that was entered with a block of its own leaves the blocks as they were. On the way
through `err` the block of the caller is freed, which the condition on the steps allows only when
there is none. -/
theorem leaveFunc_block {exit : LoopExit} (hexit : exit ≠ .strErr) :
    Triple blockMonitor (Owns st own own h₀) (fwLeaveFunc p exit) (fun _ => Outside st p h₀)
      fun _ _ => True := by
  cases exit with
  | done body =>
    refine Triple.get_bind fun s₀ => Triple.bind (R := fun _ g s => g.2 → g.1 = own :: st ∧
      HeapWith h₀ none s.heap) (freeLocals_block.pre fun g s h => ⟨h.1, by rw [h.2]⟩) fun _ =>
      Triple.get_bind fun s₁ => Triple.bind (R := fun _ g s => g.2 → g.1 = own :: st ∧
        s.ctx.locals = p ∧ HeapWith h₀ none s.heap) (Triple.set ?_) fun _ => ?_
    · rintro g s ⟨hs, rfl⟩ hg
      exact ⟨(hs hg).1, rfl, (hs hg).2⟩
    · by_cases hpos : body.pos ≠ body.last
      · -- `ctx->locals` is that of the caller already
        simp only [if_pos hpos]
        exact (errLabel_block own).pre fun g s h hg => ⟨(h hg).1, fun _ => (h hg).2.2⟩
      · simp only [if_neg hpos]
        exact leave_block _
  | badOpcode =>
    -- `ctx->locals` is still the own block: without a slip there is none
    refine Triple.bind (R := fun _ => Owns st own own h₀) (keepsOwns_spares (Spares.emit trivial))
      fun _ => (errLabel_block own).pre ?_
    intro g s h hg
    obtain ⟨hst, hown, hheap⟩ := h hg
    refine ⟨hst, fun hnone => ?_⟩
    rw [hnone] at hown
    subst hown
    exact hheap
  | strErr => exact absurd rfl hexit

/-! ## Loops and functions

A function that isolates its locals may be called from anywhere: it appends freed blocks and nothing
else. -/

/-- A function that leaves `ctx->locals` and all blocks as they were, when no step of it was a slip.
-/
def Isolates {α : Type} (m : Run α) : Prop :=
  ∀ st p h₀, Triple blockMonitor (fun g s => g.2 → g.1 = st ∧ s.ctx.locals = p ∧ s.heap = h₀) m
    (fun _ => Outside st p h₀) fun _ _ => True

/-- A call from a function that isolates its locals keeps the block of the caller. -/
theorem Isolates.keepsOwns {α : Type} {m : Run α} (h : Isolates m) :
    Keeps blockMonitor (Owns st own own h₀) (fun _ _ => True) m := by
  refine of_apart (P := fun g s => g.1 = own :: st ∧ s.ctx.locals = own ∧ HeapWith h₀ own s.heap)
    (Q := fun _ g s => g.1 = own :: st ∧ s.ctx.locals = own ∧ HeapWith h₀ own s.heap) ?_
  refine Triple.of_points fun g s ⟨hg, hst, hown, hheap⟩ => ?_
  refine (h g.1 s.ctx.locals s.heap).conseq ?_ fun a g' s' hout hg' => ?_
  · rintro _ _ ⟨rfl, rfl⟩ _
    exact ⟨rfl, rfl, rfl⟩
  · obtain ⟨hst', hp', hheap'⟩ := hout hg'
    exact ⟨hst'.trans hst, hp'.trans hown, hheap.append hheap'⟩

theorem hostFunc_isolates (addr : ℕ) : Isolates (fwModuleRunHostFunc env func addr) := by
  intro st p h₀
  refine (Triple.of_spares ((StackOnly.hostFunc addr).mono (fun _ => Event.OnStack.noBlock)
    fun _ _ h => h) (J := fun (g : Blocks) (x : Frame × Option ℕ × List (Option FwFuncLocals)) =>
      g.2 → g.1 = st ∧ x.2.1 = p ∧ x.2.2 = h₀) blockMonitor_noBlock).post fun _ g s h hg => ?_
  obtain ⟨hst, hp, hheap⟩ := h hg
  exact ⟨hst, hp, 0, hheap.trans (List.append_nil _).symm⟩

/-- A wasm function, when its loop keeps to its block and does not end on a `STR_ERR`: entered with
a block of its own, it leaves with the caller's block in `ctx->locals` and its own one freed. -/
theorem func_isolates
    (hloop : ∀ st own h₀, Keeps blockMonitor (Owns st own own h₀) (fun _ _ => True)
      (r.loop func func.body))
    (hexit : ∀ s exit s', (r.loop func func.body s).res = .ok (exit, s') → exit ≠ .strErr) :
    Isolates (do
      let saveLocals ← fwEnterFunc env func
      let exit ← r.loop func func.body
      fwLeaveFunc saveLocals exit) := by
  intro st p h₀
  refine Triple.bind enterFunc_block fun saved => Triple.of_exists fun own => ?_
  refine of_apart (P := fun g s => saved = p ∧ g.1 = own :: st ∧ s.ctx.locals = own ∧
    HeapWith h₀ own s.heap)
    (Q := fun _ g s => g.1 = st ∧ s.ctx.locals = p ∧ HeapWith h₀ none s.heap) ?_
  refine (Triple.of_and (p := saved = p) fun hsaved => ?_).pre fun g s h => h.2
  subst hsaved
  have hbody : Triple blockMonitor
      (fun g s => g.1 = own :: st ∧ s.ctx.locals = own ∧ HeapWith h₀ own s.heap)
      (r.loop func func.body) (fun exit g s => Owns st own own h₀ g s ∧ exit ≠ .strErr)
      fun _ _ => True :=
    ((hloop st own h₀).pre fun g s h _ => h).and_res (R := fun exit _ => exit ≠ .strErr)
      fun _ s _ exit s' hr => hexit s exit s' hr
  exact Triple.bind hbody fun exit => (Triple.of_and (p := exit ≠ .strErr) fun hne =>
    leaveFunc_block hne).pre fun g s h => ⟨h.2, h.1⟩

/-- A loop never ends at `str_err`: it only reads where there is a byte. So that label is reached
from `err` alone, which stands above it. -/
theorem dispatch_ne_strErr
    (hloop : ∀ f b s exit s', (r.loop f b s).res = .ok (exit, s') → exit ≠ .strErr) {s s' : Machine}
    {exit : LoopExit} (h : (dispatchLoop env r func body s).res = .ok (exit, s')) :
    exit ≠ .strErr := by
  rw [dispatchLoop] at h
  by_cases hlt : body.pos < body.last
  · rw [if_pos hlt, fwStrGet8_of_lt hlt] at h
    simp only [get_bind_apply, emit_bind_apply] at h
    rcases hi : fwGetInstr (env.mem body.pos) with _ | instr <;> simp only [hi] at h
    · obtain ⟨rfl, -⟩ := Prod.mk.inj (Except.ok.inj h)
      rintro ⟨⟩
    · rcases hf : instr.run with _ | fn <;> simp only [hf] at h
      · cases h
      · obtain ⟨x, s₁, -, h, -⟩ := bind_eq_ok h
        exact hloop _ _ _ _ _ h
  · rw [if_neg hlt] at h
    obtain ⟨rfl, -⟩ := Prod.mk.inj (Except.ok.inj h)
    rintro ⟨⟩

/-- Functions isolate their locals, by induction on the number of steps. -/
theorem interp_isolates (env : Env) (n : ℕ) :
    (∀ f, Isolates ((interp env n).func f)) ∧
      (∀ f b st own h₀, Keeps blockMonitor (Owns st own own h₀) (fun _ _ => True)
        ((interp env n).loop f b)) ∧
      ∀ f b s exit s', ((interp env n).loop f b s).res = .ok (exit, s') → exit ≠ .strErr := by
  refine interp_induction (p := fun r => (∀ f, Isolates (r.func f)) ∧
    (∀ f b st own h₀, Keeps blockMonitor (Owns st own own h₀) (fun _ _ => True) (r.loop f b)) ∧
      ∀ f b s exit s', (r.loop f b s).res = .ok (exit, s') → exit ≠ .strErr) ?_ ?_ n
  · exact ⟨fun _ _ _ _ => Triple.halt fun _ _ _ => trivial,
      fun _ _ _ _ _ => Triple.halt fun _ _ _ => trivial, fun _ _ _ _ _ h => by cases h⟩
  · rintro r ⟨hfunc, hloop, hexit⟩
    refine ⟨fun f => ?_, fun f b st own h₀ => ?_, fun f b s exit s' => dispatch_ne_strErr hexit⟩
    · exact fun st p h₀ => func_rule (fun addr => hostFunc_isolates addr st p h₀)
        fun _ => func_isolates (hloop f f.body) (hexit f f.body) st p h₀
    · exact block_stable.dispatch
        (fun g s hs => ⟨trivial, fun hg => hs hg.1⟩)
        (fun fn b => block_stable.run fn (fun _ => return_block)
          (fun g _ => (hfunc g).keepsOwns) fun b => hloop f b st own h₀)
        fun b => hloop f b st own h₀

end

/-- When a function returns (`hr`) and no step of it, calls included, was a slip (`hapart`),
`ctx->locals` is as it was, so is every block, and a block was only freed by the function that had
allocated it. The machine before the call is any, and the function may be a host function. -/
theorem locals_isolated {env : Env} {n : ℕ} {func : FwModuleFunc} {s s' : Machine}
    {status : Status} (hapart : ∀ e ∈ ((interp env n).func func s).log, e.Apart)
    (hr : ((interp env n).func func s).res = .ok (status, s')) :
    s'.ctx.locals = s.ctx.locals ∧ (∀ p, s'.block p = s.block p) ∧
      ∀ k id, ((interp env n).func func s).log[k]? = some (.free id) →
        (ownBlocks (((interp env n).func func s).log.take k)).head? = some (some id) := by
  have htriple := (interp_isolates env n).1 func [] s.ctx.locals s.heap
  obtain ⟨hacc, -⟩ := htriple ([], True) s fun _ => ⟨rfl, rfl, rfl⟩
  have hends := htriple.ok (g := ([], True)) (fun _ => ⟨rfl, rfl, rfl⟩) hr
  rw [blockMonitor_after] at hends
  obtain ⟨-, hlocals, k, hheap⟩ := hends ⟨trivial, hapart⟩
  refine ⟨hlocals, fun p => ?_, fun k id hk => ?_⟩
  · cases p with
    | none => rfl
    | some id =>
      change s'.heap[id]?.join = s.heap[id]?.join
      rw [hheap]
      rcases Nat.lt_or_ge id s.heap.length with hlt | hge
      · rw [List.getElem?_append_left hlt]
      · rw [List.getElem?_append_right hge, List.getElem?_eq_none hge, List.getElem?_replicate]
        split <;> rfl
  · have hok := hacc.at_index hk
    rw [blockMonitor_after] at hok
    exact hok ⟨trivial, fun e he => hapart e (List.mem_of_mem_take he)⟩

/-! ### Two calls -/

/-- A function with one local and nothing in its body. -/
def idleFunc : FwModuleFunc := ⟨1, ⟨0, 0, []⟩, ⟨0, 1⟩, none, .init⟩

/-- A machine in a function with one local, whose block is live. -/
def inCaller : Machine :=
  ⟨⟨fun _ => .plain 0 0, 0, fwMaxStackSize, some 0, ⟨9, 0⟩⟩, [some ⟨1, [5]⟩], 0⟩

/-- The caller keeps its block over a call, since no step of the callee is a slip. -/
theorem locals_isolated_idle :
    let env := zeroEnv (memOf [0x0b]) [idleFunc]
    ∃ s', ((interp env 4).func idleFunc inCaller).res = .ok (.ok, s') ∧
      s'.ctx.locals = some 0 ∧ (∀ p, s'.block p = inCaller.block p) ∧
      ∀ k id, ((interp env 4).func idleFunc inCaller).log[k]? = some (.free id) →
        (ownBlocks (((interp env 4).func idleFunc inCaller).log.take k)).head? =
          some (some id) := by
  intro env
  obtain ⟨s', hr⟩ : ∃ s', ((interp (zeroEnv (memOf [0x0b]) [idleFunc]) 4).func idleFunc
      inCaller).res = .ok (.ok, s') := ⟨_, rfl⟩
  have hapart : ∀ e ∈ ((interp (zeroEnv (memOf [0x0b]) [idleFunc]) 4).func idleFunc
      inCaller).log, e.Apart := by
    obtain ⟨ctx, hlog⟩ : ∃ ctx, ((interp (zeroEnv (memOf [0x0b]) [idleFunc]) 4).func idleFunc
      inCaller).log = [.alloc 1, .enter idleFunc 0, .fetch 0 ctx, .free 1, .leave] := ⟨_, rfl⟩
    rw [hlog]
    simp [Event.Apart]
  exact ⟨s', hr, locals_isolated hapart hr⟩

/-- A callee with an unknown opcode frees the block of its caller, and leaves its own in
`ctx->locals`. -/
theorem locals_not_isolated :
    let env := zeroEnv (memOf [0xff]) [badFunc]
    ∃ s', ((interp env 4).func badFunc inCaller).res = .ok (.ok, s') ∧
      inCaller.ctx.locals = some 0 ∧ inCaller.block (some 0) = some ⟨1, [5]⟩ ∧
      s'.ctx.locals = some 1 ∧ s'.block (some 0) = none ∧
      ((interp env 4).func badFunc inCaller).log[5]? = some (.free 0) :=
  ⟨_, rfl, rfl, rfl, rfl, rfl, rfl⟩

end FastWasm
