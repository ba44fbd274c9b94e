import FastWasm.Errors
import FastWasm.Walk

/-!
# The executor fetches where the validator did

The validator walks the bytes of a function once, front to back. The executor jumps: over the
branches of an `if`, back out of them, behind the function. It has decoders of its own, and reads
with the bounds of a branch. Still, as long as no other function is entered, it fetches opcodes
only where the walk did (`fetch_visited`).

Three facts make up the argument. A handler of the executor ends where the validator's handler of
the same row does, the two that jump apart (`run_lands`). A narrower window does not change where a
read ends, unless it ends the window (`next_window`). And what the validator records in the block
table are positions behind an `else` or an `end` that it fetched (`walk_recorded`), so a jump by the
table goes to where the walk went on. The condition on calls is needed for the `return`, which goes
by the frame of the function entered last.

The last step is made for a monitor of a certain shape only (`Follows`), and not for this one: in
other modules the same cursors are followed across calls, under a monitor that stops claiming
anything when something goes wrong.
-/

namespace FastWasm

open Logged

/-! ## The cursors of the handlers

Both programs have a table of handlers, and the rows belong together. What a handler of the
validator is for is its cursor; of a handler of the executor that is one half, and it is compared
here. -/

/-- Whenever `m` returns, it returns the cursor `next`. With `none` it never returns, which is what
a number without an end leads to. -/
def Lands (next : Option FwStr) (m : Run (Status × FwStr)) : Prop :=
  ∀ s x s', (m s).res = .ok (x, s') → next = some x.2

namespace Lands

variable {env : Env} {α : Type} {body : FwStr} {next : Option FwStr}

theorem pure (status : Status) : Lands (some body) (pure (status, body)) := by
  intro s x s' h
  obtain ⟨rfl, -⟩ := Prod.mk.inj (Except.ok.inj h)
  rfl

theorem halt (h : Halt) : Lands next (halt h) := fun s x s' h => by cases h

theorem bind {m : Run α} {f : α → Run (Status × FwStr)} (hf : ∀ a, Lands next (f a)) :
    Lands next (m >>= f) := by
  intro s x s' h
  obtain ⟨a, s₁, -, h, -⟩ := bind_eq_ok h
  exact hf a _ _ _ h

theorem ite {c : Prop} [Decidable c] {m m' : Run (Status × FwStr)} (h : Lands next m)
    (h' : Lands next m') : Lands next (if c then m else m') := by
  split
  · exact h
  · exact h'

/-- A read, when what follows stays where it ended. A number without an end leads nowhere, and
neither does the computation. -/
theorem readLeb {maxbit : ℕ} {k : UInt64 → FwStr → Run (Status × FwStr)}
    (hk : ∀ val body', Lands (some body') (k val body')) :
    Lands ((fwStrLebGetu env.mem body maxbit).next body) (readLeb env maxbit body k) := by
  rw [FastWasm.readLeb]
  cases fwStrLebGetu env.mem body maxbit with
  | hang => exact halt _
  | strErr => exact bind fun _ => .pure _
  | got val body' => exact hk val body'

end Lands

/-- A handler of the executor ends where the validator's handler does, those of `if` and `return`
apart. They read the same immediates, but for what `if` and `return` do with them. -/
theorem run_lands {env : Env} {r : Interp} {func : FwModuleFunc} {body : FwStr} {fn : RunFn}
    (hif : fn ≠ .if_) (hreturn : fn ≠ .return_) :
    Lands (fn.decoder.next env.mem body) (fn.run env r func body) := by
  cases fn with
  | block =>
    refine .readLeb fun resType body' => ?_
    cases fwInstrFindBlk func.blks body'.pos with
    | none => exact .bind fun _ => .pure _
    | some blk => exact .bind fun _ => .pure _
  | loop => exact .readLeb fun _ body' => .bind fun _ => .pure _
  | if_ => exact absurd rfl hif
  | else_ =>
    refine .bind fun st => ?_
    by_cases htype : st.type ≠ fwInstrIf
    · rw [if_pos htype]
      exact .bind fun _ => .pure _
    · -- there are no `if` labels
      rw [if_neg htype, st.noIf (not_not.mp htype)]
      exact .halt _
  | end_ => exact .pure _
  | return_ => exact absurd rfl hreturn
  | call =>
    refine .readLeb fun idx body' => ?_
    cases env.funcs[idx.toUInt32.toNat]? with
    | none => exact .halt _
    | some f =>
      refine .bind fun status => ?_
      cases status with
      | err => exact .bind fun _ => .pure _
      | ok => exact .pure _
  | drop => exact .bind fun _ => .pure _
  | select => exact .bind fun _ => .bind fun _ => .bind fun _ => .bind fun _ => .pure _
  | localGet =>
    exact .readLeb fun _ _ => .bind fun _ => .bind fun _ => .bind fun _ => .pure _
  | localSet => exact .bind fun _ => .readLeb fun _ _ => .bind fun _ => .bind fun _ => .pure _
  | localTee =>
    exact .readLeb fun _ _ => .bind fun _ => .bind fun _ => .bind fun _ => .pure _
  | i32Const | i64Const | f32Const | f64Const => exact .readLeb fun _ _ => .bind fun _ => .pure _
  | i32Eqz => exact .bind fun _ => .bind fun _ => .pure _
  | i32Eq | gtS => exact .bind fun _ => .bind fun _ => .bind fun _ => .pure _
  | i32Ne =>
    exact .bind fun _ => .bind fun _ => .ite (.bind fun _ => .pure _) (.bind fun _ => .pure _)

/-! ## Windows

The executor reads inside a branch with the end of the branch for the end of the bytes. Where it
starts to read it does not matter, since a reader goes by the bytes from there on; it matters that a
reader which is at the end of its window does not start. -/

section

variable {mem : Mem} {p last fin : ℕ}

/-- The same read, with the end of its window elsewhere. -/
def LebRead.within (fin : ℕ) : LebRead → LebRead
  | .hang => .hang
  | .strErr => .strErr
  | .got val str => .got val { str with last := fin }

/-- Once a read has started, the end of the window plays no role: it is looked at before the first
byte only. -/
theorem getu_within {maxbit : ℕ} (hp : p < last) (hle : last ≤ fin) :
    fwStrLebGetu mem ⟨p, fin⟩ maxbit = (fwStrLebGetu mem ⟨p, last⟩ maxbit).within fin := by
  unfold fwStrLebGetu
  rw [if_neg (show ¬ p ≥ fin by omega), if_neg (show ¬ p ≥ last by omega)]
  rcases fwStrLebGetuRounds mem p 256 0 0 0 with _ | ⟨round, res⟩
  · rfl
  · by_cases hround : round.toNat > (maxbit + 7 - 1) / 7
    · simp only [if_pos hround, LebRead.within]
    · simp only [if_neg hround, LebRead.within]

/-- A number that is read in a window is read in a wider one. -/
theorem getu_window {maxbit : ℕ} {val : UInt64} {body' : FwStr} (hle : last ≤ fin)
    (h : fwStrLebGetu mem ⟨p, last⟩ maxbit = .got val body') :
    fwStrLebGetu mem ⟨p, fin⟩ maxbit = .got val ⟨body'.pos, fin⟩ := by
  rw [getu_within (getu_eq_got h).1 hle, h]
  rfl

/-- A read in a window ends where one in a wider window does, or at once, at the end of the
window. -/
theorem leb_next_window {maxbit : ℕ} {body' : FwStr} (hp : p ≤ last) (hle : last ≤ fin)
    (h : (fwStrLebGetu mem ⟨p, last⟩ maxbit).next ⟨p, last⟩ = some body') :
    body'.last = last ∧ (body'.pos = last ∨
      (fwStrLebGetu mem ⟨p, fin⟩ maxbit).next ⟨p, fin⟩ = some ⟨body'.pos, fin⟩) := by
  obtain ⟨hr, rfl⟩ | ⟨val, hr⟩ := leb_next_eq_some h
  · refine ⟨rfl, ?_⟩
    rcases Nat.lt_or_ge p last with hlt | hge
    · rw [getu_within hlt hle, hr]
      exact .inr rfl
    · exact .inl (Nat.le_antisymm hp hge)
  · exact ⟨(getu_le hr).2, .inr (by rw [getu_window hle hr]; rfl)⟩

/-- The same for whole handlers, which may read several numbers. -/
theorem next_window {fn : RunFn} {body' : FwStr} (hp : p ≤ last) (hle : last ≤ fin)
    (h : fn.decoder.next mem ⟨p, last⟩ = some body') :
    body'.last = last ∧
      (body'.pos = last ∨ fn.decoder.next mem ⟨p, fin⟩ = some ⟨body'.pos, fin⟩) := by
  cases fn with
  | else_ | end_ | return_ | drop | select | i32Eqz | i32Eq | i32Ne | gtS =>
    obtain rfl := Option.some.inj h
    exact ⟨rfl, .inr rfl⟩
  | block | loop | if_ | call | localGet | localSet | localTee | i32Const | f32Const | i64Const
  | f64Const => exact leb_next_window hp hle h

end

/-! ## What the walk leaves behind

The table has two kinds of positions that the executor jumps to: behind the `else` of an `if`, and
behind its `end`. Both are recorded by the walk where it goes on itself. -/

/-- Every `els` and every `end` that is recorded is in `V`, or was never set. -/
def Recorded (V : ℕ → Prop) (s : FuncBlks) : Prop :=
  ∀ id v, (s.entry id).els = some v ∨ (s.entry id).fin = some v → V v

section

variable {V : ℕ → Prop} {mem : Mem} {code : UInt8} {body body' : FwStr} {s s' : FuncBlks}

/-- Nothing is recorded in the beginning, so there is nothing that could be elsewhere. -/
theorem recorded_init : Recorded V .init := by
  rintro id v (h | h) <;> cases h

theorem Recorded.setEntry (h : Recorded V s) {id : ℕ} {b : FwModuleFuncBlock}
    (hb : ∀ v, b.els = some v ∨ b.fin = some v → V v) : Recorded V (s.setEntry id b) := by
  intro id' v hv
  by_cases hid : id' = id
  · simp only [FuncBlks.setEntry, hid, Function.update_self] at hv
    exact hb v hv
  · simp only [FuncBlks.setEntry, Function.update_of_ne hid] at hv
    exact h id' v hv

theorem Recorded.openBlk (h : Recorded V s) : Recorded V s.openBlk := by
  have hzero : Recorded V (s.setEntry s.fresh .zero) :=
    h.setEntry fun v hv => by rcases hv with hv | hv <;> cases hv
  exact hzero

theorem Recorded.setStart (h : Recorded V s) (id pos : ℕ) (type : UInt8) :
    Recorded V (s.setStart id pos type) :=
  h.setEntry fun v hv => h id v hv

theorem Recorded.popIf (h : Recorded V s) {id pos : ℕ} (hpos : V pos) :
    Recorded V (s.popIf id pos) := by
  have hset : Recorded V (s.setEntry id { s.entry id with els := some pos }) :=
    h.setEntry fun v hv => by
      rcases hv with hv | hv
      · obtain rfl := Option.some.inj hv
        exact hpos
      · exact h id v (.inr hv)
  exact hset

theorem Recorded.closeBlk (h : Recorded V s) {id pos : ℕ} (hpos : V pos) :
    Recorded V (s.closeBlk id pos) := by
  have hset : Recorded V (s.setEntry id { s.entry id with
      fin := some pos
      els := if (s.entry id).els = none then some pos else (s.entry id).els }) :=
    h.setEntry fun v hv => by
      rcases hv with hv | hv
      · dsimp only at hv
        split at hv
        · obtain rfl := Option.some.inj hv
          exact hpos
        · exact h id v (.inl hv)
      · obtain rfl := Option.some.inj hv
        exact hpos
  exact hset

/-- A handler records the cursor at an `else` and at an `end` only, which is the position behind its
opcode. -/
theorem consume_recorded {fn : ConsumeFn} {status : Status} (h : Recorded V s)
    (hpos : fn = .else_ ∨ fn = .end_ → V body.pos)
    (hr : (fn.consume mem code body s).res = .ok ((status, body'), s')) : Recorded V s' := by
  cases (consume_cases hr).2 with
  | plain | endFunc | astray => exact h
  | malformed => exact h.openBlk
  | block | if_ => exact h.openBlk.setStart _ _ _
  | else_ => exact h.popIf (hpos (.inl rfl))
  | endBlk => exact h.closeBlk (hpos (.inr rfl))

/-- What a whole walk records lies behind an `else` or an `end` that it fetched. By induction on the
walk, as no other handler writes an `els` or a `fin`. -/
theorem walk_recorded {last p q : ℕ} {l : List ℕ} {s s' : FuncBlks}
    (h : WalksTo mem last p s l q s') (hs : Recorded V s)
    (hV : ∀ p ∈ l, ∀ instr, fwGetInstr (mem p) = some instr →
      instr.consume = some .else_ ∨ instr.consume = some .end_ → V (p + 1)) :
    Recorded V s' := by
  induction h with
  | refl => exact hs
  | @step p _ _ _ _ _ _ _ hstep _ ih =>
    obtain ⟨hfirst, hrest⟩ := List.forall_mem_cons.mp hV
    refine ih ?_ hrest
    cases hi : fwGetInstr (mem p) with
    | none =>
      rw [walkStep] at hstep
      simp only [hi] at hstep
      obtain ⟨-, rfl⟩ := Prod.mk.inj (Except.ok.inj hstep)
      exact hs
    | some instr =>
      obtain ⟨fn, status, hc, hm⟩ := walkStep_eq_ok hi hstep
      refine consume_recorded hs (fun hfn => ?_) hm
      apply hfirst instr hi
      rw [hc, Option.some.injEq, Option.some.injEq]
      exact hfn

end

/-- What a walk that fetches at the positions `l` establishes about a function: each of them leads
to the next one, and the block table points to them. -/
structure Walked (mem : Mem) (func : FwModuleFunc) (l : List ℕ) : Prop where
  /-- it starts at the start -/
  start : Visited l func.body.last func.body.pos
  /-- it goes on from one instruction to the next -/
  next : ∀ p ∈ l, ∃ q, instrNext mem ⟨p, func.body.last⟩ = some ⟨q, func.body.last⟩ ∧
    Visited l func.body.last q
  /-- the branches of blocks start and end at instructions -/
  blks : Recorded (fun v => Visited l func.body.last v ∧ v ≤ func.body.last) func.blks

/-- Validation establishes it, whatever it meets on its way. -/
theorem walked_of_validate {mem : Mem} {func : FwModuleFunc} {status : Status}
    (h : (fwModuleValidateInst mem func.body .init).res = .ok (status, func.blks)) :
    Walked mem func (fwModuleValidateInst mem func.body .init).log := by
  obtain ⟨r, hwalk⟩ := walk_of_validateInst h
  rw [validateInst_log]
  obtain ⟨q, hq, hwalk⟩ := walksTo_of_loop hwalk
  have hnext := hwalk.next hq
  refine ⟨hwalk.start hq, fun p hp => (hnext p hp).2, walk_recorded hwalk recorded_init ?_⟩
  intro p hp instr hi hc
  obtain ⟨hlt, q, hq, hv⟩ := hnext p hp
  have hq' : (⟨p + 1, func.body.last⟩ : FwStr) = ⟨q, func.body.last⟩ := by
    rcases hc with hc | hc <;> rw [instrNext_of_row hi hc] at hq <;> exact Option.some.inj hq
  obtain rfl := (FwStr.mk.inj hq').1
  exact ⟨hv, hlt⟩

/-! ## The executor between the same positions

What is followed is a cursor together with an invariant and a monitor, both left open. An
instruction that the cursor is at was fetched by the walk, and so was the next one. -/

/-- A cursor the executor can have: in bounds, and at an instruction of the walk unless it is at
the end of its window. Behind the window of a branch it may be too, after a `return`. -/
def CursorOk (func : FwModuleFunc) (l : List ℕ) (body : FwStr) : Prop :=
  body.last ≤ func.body.last ∧ (body.pos = body.last ∨ Visited l func.body.last body.pos)

section Follows

variable {γ : Type} {M : Monitor γ Event} {I : γ → Machine → Prop} {live dead : γ → Prop}

/-- What an invariant has to do for the cursor to stay at the walk while the monitor is `live`. Once
it is `dead` it allows everything, and nothing is claimed any more. -/
structure Follows (M : Monitor γ Event) (I : γ → Machine → Prop) (live dead : γ → Prop) :
    Prop where
  /-- the handlers keep it -/
  stable : Stable M I fun _ _ => True
  /-- one or the other -/
  live_or_dead : ∀ {g s}, I g s → live g ∨ dead g
  /-- not both -/
  not_live : ∀ {g}, dead g → ¬ live g
  /-- nothing is claimed -/
  of_dead : ∀ {g s}, dead g → I g s
  /-- everything is allowed -/
  ok_of_dead : ∀ g e, dead g → M.ok g e
  /-- and it stays so -/
  dead_step : ∀ g e, dead g → dead (M.step g e)

/-- The invariant, at a cursor the executor can have while the monitor is live. -/
def AtCursor (I : γ → Machine → Prop) (live : γ → Prop) (func : FwModuleFunc) (l : List ℕ)
    (body : FwStr) (g : γ) (s : Machine) : Prop :=
  I g s ∧ (live g → CursorOk func l body)

/-- What an ended loop leaves behind: a cursor like those it goes over, or, when it ended at an
error, the invariant alone. -/
def ExitCursor (I : γ → Machine → Prop) (live : γ → Prop) (func : FwModuleFunc) (l : List ℕ) :
    LoopExit → γ → Machine → Prop
  | .done body => AtCursor I live func l body
  | .badOpcode | .strErr => I

theorem ExitCursor.inv {func : FwModuleFunc} {l : List ℕ} {exit : LoopExit} {g : γ} {s : Machine}
    (h : ExitCursor I live func l exit g s) : I g s := by
  cases exit with
  | done body => exact h.1
  | badOpcode | strErr => exact h

namespace Follows

variable {env : Env} {r : Interp} {func : FwModuleFunc} {l : List ℕ} {body : FwStr}

theorem exit_of_dead (h : Follows M I live dead) {exit : LoopExit} {g : γ} {s : Machine}
    (hg : dead g) : ExitCursor I live func l exit g s := by
  cases exit with
  | done body => exact ⟨h.of_dead hg, fun hlive => absurd hlive (h.not_live hg)⟩
  | badOpcode | strErr => exact h.of_dead hg

/-- Once the monitor is dead nothing is claimed, so every computation will do. -/
theorem after_dead (h : Follows M I live dead) {α : Type} {P : γ → Machine → Prop} {m : Run α}
    {Q : α → γ → Machine → Prop} (hP : ∀ g s, P g s → dead g) (hQ : ∀ a g s, dead g → Q a g s) :
    Triple M P m Q fun _ _ => True :=
  Triple.of_closed h.ok_of_dead h.dead_step hP hQ fun _ _ _ => trivial

/-- What is claimed at a cursor may be proved of a cursor that is known to be right. -/
theorem of_cursorOk (h : Follows M I live dead) {α : Type} {m : Run α}
    {Q : α → γ → Machine → Prop} (hQ : ∀ a g s, dead g → Q a g s)
    (hm : CursorOk func l body → Triple M I m Q fun _ _ => True) :
    Triple M (AtCursor I live func l body) m Q fun _ _ => True := by
  intro g s ⟨hI, hcur⟩
  rcases h.live_or_dead hI with hg | hg
  · exact hm (hcur hg) g s hI
  · exact h.after_dead (P := fun g _ => dead g) (fun _ _ h => h) hQ g s hg

/-! ### Handlers -/

/-- A handler whose cursor is known, because it is that of the validator's handler (`hl`). -/
theorem at_of_lands {m : Run (Status × FwStr)} {next : Option FwStr}
    (hm : Keeps M I (fun _ _ => True) m) (hl : Lands next m)
    (hcur : ∀ body, next = some body → CursorOk func l body) :
    Triple M I m (fun x => AtCursor I live func l x.2) fun _ _ => True := by
  intro g s hs
  obtain ⟨hacc, hends⟩ := hm g s hs
  refine ⟨hacc, ?_⟩
  rcases hr : (m s).res with e | ⟨x, s'⟩ <;> rw [hr] at hends
  · trivial
  · exact ⟨hends, fun _ => hcur _ (hl s x s' hr)⟩

/-- An `if` goes into a branch, and behind its `end`, or where the branch ended. The validator went
through all of these: it was there when it recorded an `els` or a `fin`, and behind the block type
it fetched the next opcode. -/
theorem if_ (h : Follows M I live dead) {p q last : ℕ} (hw : Walked env.mem func l)
    (hle : last ≤ func.body.last)
    (hread : (fwStrLebGetu env.mem ⟨p, func.body.last⟩ 32).next ⟨p, func.body.last⟩ =
      some ⟨q, func.body.last⟩)
    (hq : Visited l func.body.last q)
    (hcur : ∀ body, (fwStrLebGetu env.mem ⟨p, last⟩ 32).next ⟨p, last⟩ = some body →
      CursorOk func l body)
    (hloop : ∀ body, Triple M (AtCursor I live func l body) (r.loop func body)
      (ExitCursor I live func l) fun _ _ => True) :
    Triple M I (fwInstrRunIf env r func ⟨p, last⟩) (fun x => AtCursor I live func l x.2)
      fun _ _ => True := by
  refine h.stable.if_branch ?_ ?_ ?_
  · intro hr g s hs
    exact ⟨hs, fun _ => hcur _ (by rw [hr]; rfl)⟩
  · intro val body' hr g s hs
    exact ⟨hs, fun _ => hcur _ (by rw [hr]; rfl)⟩
  · intro val body' blk els fin hr hfind hels hfin cond
    have hbody : CursorOk func l body' := hcur _ (by rw [hr]; rfl)
    have hvis : Visited l func.body.last body'.pos := by
      rw [getu_window hle hr] at hread
      rw [(FwStr.mk.inj (Option.some.inj hread)).1]
      exact hq
    obtain ⟨id, -, rfl⟩ := mem_of_find hfind
    obtain ⟨helsv, helsle⟩ := hw.blks id els (.inl hels)
    obtain ⟨hfinv, hfinle⟩ := hw.blks id fin (.inr hfin)
    -- the branch starts at an instruction of the walk; where its window ends plays no role
    have hstart : CursorOk func l
        (if cond.val ≠ 0 then ⟨body'.pos, els - 1⟩ else ⟨els, fin⟩) := by
      split
      · exact ⟨(Nat.sub_le _ _).trans helsle, .inr hvis⟩
      · exact ⟨hfinle, .inr helsv⟩
    refine ((hloop _).pre fun g s hs => ⟨hs, fun _ => hstart⟩).post fun exit g s hs => ?_
    cases exit with
    | done branch =>
      refine ⟨hs.1, fun hg => ⟨hbody.1, .inr ?_⟩⟩
      -- a cursor past the end of its window is not at the end of it
      by_cases hpos : branch.pos > branch.last
      · simp only [if_pos hpos]
        exact (hs.2 hg).2.resolve_left hpos.ne'
      · simp only [if_neg hpos]
        exact hfinv
    | badOpcode | strErr => exact hs

/-- Every handler goes from an instruction of the walk to the next one, when `return` does. The
window may be that of a branch, and the next instruction is that of the whole body. -/
theorem run (h : Follows M I live dead) {p last : ℕ} {instr : FwInstr} {fn : RunFn}
    (hw : Walked env.mem func l) (hp : p ∈ l) (hlt : p < last) (hle : last ≤ func.body.last)
    (hi : fwGetInstr (env.mem p) = some instr) (hf : instr.run = some fn)
    (hreturn : ∀ body : FwStr, body.last ≤ func.body.last →
      Triple M I (fwInstrRunReturn func body) (fun x => AtCursor I live func l x.2)
        fun _ _ => True)
    (hfunc : ∀ f ∈ env.funcs, Keeps M I (fun _ _ => True) (r.func f))
    (hloop : ∀ body, Triple M (AtCursor I live func l body) (r.loop func body)
      (ExitCursor I live func l) fun _ _ => True) :
    Triple M I (fn.run env r func ⟨p + 1, last⟩) (fun x => AtCursor I live func l x.2)
      fun _ _ => True := by
  obtain ⟨q, hq, hvis⟩ := hw.next p hp
  have hc : instr.consume = some fn.decoder := by
    rw [fwGetInstr] at hi
    split at hi
    · cases hi
    · obtain rfl := Option.some.inj hi
      exact row_decoder hf
  rw [instrNext_of_row hi hc] at hq
  have hcur : ∀ body, fn.decoder.next env.mem ⟨p + 1, last⟩ = some body → CursorOk func l body := by
    intro body hbody
    obtain ⟨hlast, hpos | hpos⟩ := next_window hlt hle hbody
    · exact ⟨hlast ▸ hle, .inl (hpos.trans hlast.symm)⟩
    · rw [hq] at hpos
      obtain rfl := (FwStr.mk.inj (Option.some.inj hpos)).1
      exact ⟨hlast ▸ hle, .inr hvis⟩
  by_cases hif : fn = .if_
  · subst hif
    exact h.if_ hw hle hq hvis hcur hloop
  by_cases hret : fn = .return_
  · subst hret
    exact hreturn _ hle
  refine at_of_lands ?_ (run_lands hif hret) hcur
  by_cases hcall : fn = .call
  · subst hcall
    exact h.stable.call hfunc
  · exact h.stable.leaf hif hcall hret

/-! ### Loops -/

/-- A dispatch loop, when the fetches of the walk are allowed. -/
theorem dispatch (h : Follows M I live dead) (hw : Walked env.mem func l)
    (hfetch : ∀ pos ∈ l, ∀ ctx g s, I g s →
      M.ok g (.fetch pos ctx) ∧ I (M.step g (.fetch pos ctx)) s)
    (hreturn : ∀ body : FwStr, body.last ≤ func.body.last →
      Triple M I (fwInstrRunReturn func body) (fun x => AtCursor I live func l x.2)
        fun _ _ => True)
    (hfunc : ∀ f ∈ env.funcs, Keeps M I (fun _ _ => True) (r.func f))
    (hloop : ∀ body, Triple M (AtCursor I live func l body) (r.loop func body)
      (ExitCursor I live func l) fun _ _ => True) (body : FwStr) :
    Triple M (AtCursor I live func l body) (dispatchLoop env r func body)
      (ExitCursor I live func l) fun _ _ => True := by
  refine h.of_cursorOk (fun _ _ _ => h.exit_of_dead) fun hbody => ?_
  -- before the end of its window, so before that of the body, so at a position of the walk
  have hp : body.pos < body.last → body.pos ∈ l := fun hlt =>
    (hbody.2.resolve_left hlt.ne).resolve_right (by have := hbody.1; omega)
  exact dispatch_rule (fun _ g s hs => ⟨hs, fun _ => hbody⟩)
    (fun hlt g s hs => hfetch _ (hp hlt) _ g s hs) (fun _ _ hs => hs) (fun _ _ _ => trivial)
    fun hlt instr fn hi hf => Triple.bind
      (h.run hw (hp hlt) hlt hbody.1 hi hf hreturn hfunc hloop) fun x => hloop x.2

end Follows

end Follows

/-! ## One activation

Up to the first call of another function the frame is that of this one, so a `return` goes behind
its body. Behind a call nothing is claimed any more, which is what makes the argument go through
calls too. -/

/-- Counts the functions entered. Up to the second one, only the positions `l` may be fetched. -/
def fetchMonitor (l : List ℕ) : Monitor ℕ Event where
  step k e := match e with
    | .enter _ _ => k + 1
    | _ => k
  ok k e := match e with
    | .fetch pos _ => k ≤ 1 → pos ∈ l
    | _ => True

theorem fetchMonitor_quiet (l : List ℕ) (k : ℕ) (e : Event) (he : e.Quiet) :
    (fetchMonitor l).ok k e ∧ (fetchMonitor l).step k e = k := by
  cases e with
  | fetch | enter | leave | ret => exact he.elim
  | slot | limit | alloc | free | uninit | host | errLabel | err => exact ⟨trivial, rfl⟩

/-- No function was entered after this one, and its frame is there. So a `return` goes to the end of
this function. -/
def Own (func : FwModuleFunc) (k : ℕ) (frame : Frame) : Prop :=
  1 ≤ k ∧ (k = 1 → frame.fin = func.body.last)

section

variable {env : Env} {func : FwModuleFunc} {l : List ℕ} {body : FwStr}

/-- In the activation of `func`: it was entered, its frame is there, and no other one was entered
since. -/
abbrev InOwn (func : FwModuleFunc) (k : ℕ) (s : Machine) : Prop := Own func k s.ctx.frame

/-- In the activation of `func`, at a cursor it can have. -/
def At (func : FwModuleFunc) (l : List ℕ) (body : FwStr) (k : ℕ) (s : Machine) : Prop :=
  InOwn func k s ∧ (k = 1 → CursorOk func l body)

/-- What an ended loop leaves behind: a cursor it can have, or, at an error, the activation alone.
-/
def ExitAt (func : FwModuleFunc) (l : List ℕ) : LoopExit → ℕ → Machine → Prop
  | .done body => At func l body
  | .badOpcode | .strErr => InOwn func

theorem ExitAt.own {exit : LoopExit} {k : ℕ} {s : Machine} (h : ExitAt func l exit k s) :
    InOwn func k s := by
  cases exit with
  | done body => exact h.1
  | badOpcode | strErr => exact h

/-- The cursor stays at the walk until a second function is entered. -/
theorem own_follows (func : FwModuleFunc) (l : List ℕ) :
    Follows (fetchMonitor l) (InOwn func) (fun k => k = 1) fun k => 2 ≤ k where
  stable := stable_frame (fetchMonitor_quiet l)
  live_or_dead h := by have := h.1; omega
  not_live h := by omega
  of_dead h := ⟨by omega, fun hk => by omega⟩
  ok_of_dead k e hk := by
    cases e <;> first | exact trivial | exact fun h => absurd h (by omega)
  dead_step k e hk := by
    cases e <;> first | exact hk | exact hk.trans (Nat.le_succ k)

/-- A `return` goes behind the function, which is a cursor at the end of any of its windows. -/
theorem return_aligned (hle : body.last ≤ func.body.last) :
    Triple (fetchMonitor l) (InOwn func) (fwInstrRunReturn func body) (fun x => At func l x.2)
      fun _ _ => True := by
  refine Triple.get_bind fun s₀ => ?_
  have hmove := fun oldpos i => Triple.of_spares (StackOnly.moveRetsTo oldpos i).frame
    (J := fun k frame => Own func k s₀.ctx.frame ∧ frame = s₀.ctx.frame) (fetchMonitor_quiet l)
  refine Triple.bind ((hmove _ _).pre ?_) fun _ => Triple.get_bind fun s₁ =>
    Triple.emit_bind (R := fun k s => Own func k s₀.ctx.frame ∧ s.ctx.frame = s₀.ctx.frame)
      (fun k s hs => ⟨trivial, hs.1⟩) (Triple.pure ?_)
  · rintro k s ⟨hs, rfl⟩
    exact ⟨hs, rfl⟩
  · rintro k s ⟨hown, hframe⟩
    refine ⟨by rw [InOwn, hframe]; exact hown, fun hk => ⟨hle, .inr (.inr ?_)⟩⟩
    rw [hown.2 hk]

/-- All loops over the bytes of the function, and all calls from it, by induction on the number of
steps. -/
theorem interp_aligned (hw : Walked env.mem func l) (n : ℕ) :
    (∀ f, Keeps (fetchMonitor l) (InOwn func) (fun _ _ => True) ((interp env n).func f)) ∧
      ∀ body, Triple (fetchMonitor l) (At func l body) ((interp env n).loop func body)
        (ExitAt func l) fun _ _ => True := by
  refine interp_induction (p := fun r =>
    (∀ f, Keeps (fetchMonitor l) (InOwn func) (fun _ _ => True) (r.func f)) ∧
      ∀ body, Triple (fetchMonitor l) (At func l body) (r.loop func body)
        (ExitAt func l) fun _ _ => True) ?_ ?_ n
  · exact ⟨fun _ => Triple.halt fun _ _ _ => trivial, fun _ => Triple.halt fun _ _ _ => trivial⟩
  · rintro r ⟨hfunc, hloop⟩
    have hown := own_follows func l
    refine ⟨fun f => ?_, hown.dispatch hw (fun pos hp ctx k s hs => ⟨fun _ => hp, hs⟩)
      (fun _ => return_aligned) (fun f _ => hfunc f) hloop⟩
    refine func_rule hown.stable.hostFunc fun _ => Triple.bind
      (enterFunc_frame (K := fun k _ => 2 ≤ k) (fetchMonitor_quiet l)
        fun k _ _ h => ⟨trivial, Nat.succ_le_succ h.1⟩) fun _ =>
        hown.after_dead (fun _ _ h => h) fun _ _ _ => hown.of_dead

/-- The whole function, from before it is entered. All fetches of the walk are allowed, and no
others. -/
theorem func_aligned (hw : Walked env.mem func l) (n : ℕ) :
    Triple (fetchMonitor l) (fun k _ => k = 0) ((interp env n).func func) (fun _ _ _ => True)
      fun _ _ => True := by
  cases n with
  | zero => exact Triple.halt fun _ _ _ => trivial
  | succ n =>
    refine func_rule (fun addr => ?_) fun _ => ?_
    · exact ((stable_frame (J := fun k _ => k = 0) (fetchMonitor_quiet l)).hostFunc addr).post
        fun _ _ _ _ => trivial
    · have henter : Triple (fetchMonitor l) (fun k _ => k = 0) (fwEnterFunc env func)
          (fun _ => InOwn func) fun _ _ => True :=
        enterFunc_frame (J := fun k _ => k = 0) (K := Own func) (fetchMonitor_quiet l)
          fun k frame depth hk => ⟨trivial, by rw [hk]; exact le_refl _, fun _ => rfl⟩
      refine Triple.bind henter fun saveLocals => Triple.bind
        (((interp_aligned hw n).2 func.body).pre fun k s hs =>
          ⟨hs, fun _ => ⟨le_refl _, .inr hw.start⟩⟩) fun exit => ?_
      exact ((leaveFunc_frame (fetchMonitor_quiet l) fun _ _ h => ⟨trivial, h⟩) saveLocals
        exit).conseq (fun _ _ h => h.own) fun _ _ _ _ => trivial

end

/-- Is a wasm function entered? -/
def Event.isEnter : Event → Bool
  | .enter _ _ => true
  | _ => false

/-- A monitor that counts the functions entered has counted those of the log. -/
theorem after_enters {M : Monitor ℕ Event}
    (hM : ∀ k e, M.step k e = if e.isEnter then k + 1 else k) :
    ∀ (k : ℕ) (log : List Event), M.after k log = k + log.countP Event.isEnter
  | k, [] => rfl
  | k, e :: log => by
    rw [Monitor.after_cons, after_enters hM, hM, List.countP_cons]
    split <;> omega

theorem fetchMonitor_step (l : List ℕ) (k : ℕ) (e : Event) :
    (fetchMonitor l).step k e = if e.isEnter then k + 1 else k := by
  cases e <;> rfl

/-- In a run of a validated function that enters no other wasm function (`hcalls`), every opcode is
fetched where validation fetched one. The block table of the function is the one that validation
leaves, whatever it met on its way and whatever its verdict (`hval`). The run may end in any way,
and may be one that has not ended yet. -/
theorem fetch_visited {env : Env} {n : ℕ} {func : FwModuleFunc} {s : Machine} {status : Status}
    (hval : (fwModuleValidateInst env.mem func.body .init).res = .ok (status, func.blks))
    (hcalls : ((interp env n).func func s).log.countP Event.isEnter ≤ 1) :
    ∀ pos ctx, Event.fetch pos ctx ∈ ((interp env n).func func s).log →
      pos ∈ (fwModuleValidateInst env.mem func.body .init).log := by
  intro pos ctx hfetch
  obtain ⟨pre, post, hlog⟩ := List.append_of_mem hfetch
  have hacc := (func_aligned (walked_of_validate hval) n 0 s rfl).1
  rw [hlog] at hacc hcalls
  have hok : (fetchMonitor _).after 0 pre ≤ 1 → _ := hacc.at
  apply hok
  rw [after_enters (fetchMonitor_step _)]
  rw [List.countP_append] at hcalls
  omega

/-! ### A run over an `if` -/

/-- A function `if` without an `else`, with a block table as validation leaves it. -/
def oneIf : FwModuleFunc :=
  ⟨1, ⟨0, 0, []⟩, ⟨0, 8⟩, none,
    ((FuncBlks.init.openBlk.setStart 0 4 fwInstrIf).pushIf 0).closeBlk 0 7⟩

/-- Its bytes. -/
def oneIfEnv : Env := zeroEnv (memOf [0x41, 0x01, 0x04, 0x40, 0x41, 0x05, 0x0b, 0x0b]) [oneIf]

/-- The run goes through the branch, whose first opcode was fetched by the walk. -/
theorem fetch_visited_oneIf :
    ∃ ctx, Event.fetch 4 ctx ∈
        ((interp oneIfEnv 6).func oneIf (fwModuleContextNew fun _ => .plain 0 0)).log ∧
      4 ∈ (fwModuleValidateInst oneIfEnv.mem oneIf.body .init).log := by
  obtain ⟨ctx, hfetch⟩ : ∃ ctx, Event.fetch 4 ctx ∈
      ((interp oneIfEnv 6).func oneIf (fwModuleContextNew fun _ => .plain 0 0)).log :=
    ⟨_, List.mem_of_getElem? (i := 6) rfl⟩
  exact ⟨ctx, hfetch, fetch_visited rfl (by decide) _ ctx hfetch⟩

end FastWasm
