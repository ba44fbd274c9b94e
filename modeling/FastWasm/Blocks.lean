import FastWasm.EndMatch
import FastWasm.Underlay
import FastWasm.Errors

/-!
# What a block leaves on the operand stack

`block` and `loop` push a label, and nothing takes it off again: `fw_instr_run_end` does nothing.
The contents, when they take only operands of their own, do not notice the label, so a block leaves
the operands that its contents leave without it, with the label under them.

A run of a construct is three runs of the dispatch loop: the opcode, the contents and the `end`.
What is said about the contents is a comparison of two runs of them, with a slot under what they
take and without it (`Executes.overlooks`). They fetch the same opcodes and do the same to what they
see. From this the label is found in the one run exactly where the other has nothing.
-/

namespace FastWasm

open Logged

/-! ## Running from one position to another

The contents of a construct are run by the loop that runs the construct, so what is said about them
is said about rounds of that loop, from one cursor to another, with the bounds on the steps that the
loop has there. -/

/-- The dispatch loop of `func` goes from `pos` to `stop` in rounds that start before `stop`. The
bounds before and after are those of the loop there. -/
inductive Executes (env : Env) (func : FwModuleFunc) (stop : ℕ) :
    ℕ → ℕ → Machine → List Event → ℕ → Machine → Prop
  | done (n : ℕ) (s : Machine) : Executes env func stop n stop s [] n s
  | round {n m pos next : ℕ} {s s₁ s₂ : Machine} {l l' : List Event} (hpos : pos < stop)
      (hr : dispatchRound env (interp env n) func ⟨pos, func.body.last⟩ s =
        ⟨l, .ok (some ⟨next, func.body.last⟩, s₁)⟩)
      (h : Executes env func stop n next s₁ l' m s₂) :
      Executes env func stop (n + 1) pos s (l ++ l') m s₂

/-- The rounds do not notice a slot under what they take. The two runs have the same events, and
their stacks differ by that slot. -/
theorem Executes.overlooks {env : Env} {func : FwModuleFunc} {stop n m pos d : ℕ} {lbl : Slot}
    {t t' : Machine} {l : List Event} (h : Executes env func stop n pos t l m t') :
    ∀ {g : Bool} {s : Machine}, Underlaid d lbl g t s → (ownMonitor d).Accepts g l →
      ∃ l' s', Executes env func stop n pos s l' m s' ∧
        Underlaid d lbl ((ownMonitor d).after g l) t' s' := by
  induction h with
  | done n t => exact fun {g s} hs _ => ⟨[], s, .done n s, hs⟩
  | @round n m pos next t t₁ t₂ l l₂ hpos hr _ ih =>
    intro g s hs hl
    obtain ⟨hl₁, hl₂⟩ := ((ownMonitor d).accepts_append g l l₂).mp hl
    obtain ⟨hfunc, hloop⟩ := @Overlooks.interp d lbl env n
    obtain ⟨s₁, hr₁, hs₁⟩ := Overlooks.round hfunc (hloop func) g t s hs _ _ (by rw [hr]; exact hl₁)
      (by rw [hr])
    rw [hr] at hs₁
    obtain ⟨l', s', hexec, hs'⟩ := ih hs₁ hl₂
    rw [(ownMonitor d).after_append]
    exact ⟨_, s', .round hpos (Outcome.ext rfl hr₁) hexec, hs'⟩

/-! ## Constructs

The opcode pushes a label and the `end` does nothing, so between the two runs of the contents there
is just the label. -/

/-- A run of the construct that the opcode at `o` opens and the `end` at `c` closes: the opcode, the
contents from `start` on, and the `end`. The contents may jump, as long as they come to the `end`.
-/
structure BlockRun (env : Env) (func : FwModuleFunc) (o c start k m : ℕ) (s t₀ : Machine)
    (inner : List Event) (t₁ t : Machine) : Prop where
  /-- the opcode -/
  opens : ∃ l, dispatchRound env (interp env k) func ⟨o, func.body.last⟩ s =
    ⟨l, .ok (some ⟨start, func.body.last⟩, t₀)⟩
  /-- the contents -/
  contents : Executes env func c k start t₀ inner (m + 1) t₁
  /-- the `end` -/
  closes : ∃ l, dispatchRound env (interp env m) func ⟨c, func.body.last⟩ t₁ =
    ⟨l, .ok (some ⟨c + 1, func.body.last⟩, t)⟩

/-- After a construct entered at depth `d` the operand stack of `t` is that of `s`, and holds no
label of the construct. With `s` the machine behind the contents alone it says that the construct is
neutral. -/
structure Neutral (d : ℕ) (s t : Machine) : Prop where
  /-- the depth -/
  pos : t.ctx.pos = s.ctx.pos
  /-- the slots -/
  operands : ∀ i < s.ctx.pos, t.ctx.stack i = s.ctx.stack i
  /-- no label above `d` -/
  noLabel : ∀ i, d ≤ i → i < t.ctx.pos → (t.ctx.stack i).fin = none

/-- The operand stack of `t` is that of `s`, with a label under what lies above depth `d`. -/
structure LabelLeft (d : ℕ) (s t : Machine) : Prop where
  /-- the depth -/
  pos : t.ctx.pos = s.ctx.pos + 1
  /-- nothing below `d` was taken -/
  above : d ≤ s.ctx.pos
  /-- the slots below -/
  below : ∀ i < d, t.ctx.stack i = s.ctx.stack i
  /-- the label -/
  label : (t.ctx.stack d).fin ≠ none
  /-- the operands above it -/
  operands : ∀ i, d ≤ i → i < s.ctx.pos → t.ctx.stack (i + 1) = s.ctx.stack i

theorem LabelLeft.not_neutral {d : ℕ} {s t : Machine} (h : LabelLeft d s t) : ¬ Neutral d s t :=
  fun hn => Nat.succ_ne_self _ (h.pos.symm.trans hn.pos)

section

variable {env : Env} {r : Interp} {func : FwModuleFunc} {o c start : ℕ} {s t t₀ t₁ : Machine}
  {l : List Event}

/-- A round over an opcode with a row is a fetch and the handler of the row. -/
theorem dispatchRound_of_row (body : FwStr) {instr : FwInstr} {fn : RunFn}
    (hi : fwGetInstr (env.mem body.pos) = some instr) (hf : instr.run = some fn) {next : FwStr}
    (h : dispatchRound env r func body s = ⟨l, .ok (some next, t)⟩) :
    ∃ status, (fn.run env r func ⟨body.pos + 1, body.last⟩ s).res = .ok ((status, next), t) := by
  rw [dispatchRound, get_bind_apply, emit_bind_apply] at h
  simp only [hi, hf] at h
  obtain ⟨⟨status, next'⟩, s₁, hm, hp, -⟩ := bind_eq_ok (Outcome.mk.inj h).2
  obtain ⟨hnext, rfl⟩ := Prod.mk.inj (Except.ok.inj hp)
  obtain rfl := Option.some.inj hnext
  exact ⟨status, hm⟩

theorem push_of_ok {α : Type} {st : Slot} {a b : α}
    (h : ((do fwPush st; pure a : Run α) s).res = .ok (b, t)) :
    t = { s with ctx := s.ctx.push st } := by
  obtain ⟨_, s₁, hm, hp, -⟩ := bind_eq_ok h
  obtain ⟨-, rfl⟩ := Prod.mk.inj (Except.ok.inj hp)
  rw [fwPush_apply] at hm
  split at hm
  · cases hm
  · exact (Prod.mk.inj (Except.ok.inj hm)).2.symm

/-- The opcode of a block pushes a label, and is left behind with its block type. The label of a
`block` has the end of the block, and that of a `loop` the place behind its opcode. -/
theorem opens_push (hop : env.mem o = fwInstrBlock ∨ env.mem o = fwInstrLoop) {v : UInt64}
    {b : FwModuleFuncBlock} {start' : ℕ}
    (hr : fwStrLebGetu env.mem ⟨o + 1, func.body.last⟩ 32 = .got v ⟨start', func.body.last⟩)
    (hfind : fwInstrFindBlk func.blks start' = some b) (hfin : b.fin ≠ none)
    (h : dispatchRound env r func ⟨o, func.body.last⟩ s =
      ⟨l, .ok (some ⟨start, func.body.last⟩, t)⟩) :
    ∃ lbl : Slot, lbl.fin ≠ none ∧ t = { s with ctx := s.ctx.push lbl } := by
  rcases hop with hop | hop
  · have hi : fwGetInstr (env.mem o) = some ⟨0x02, some .block, some .block⟩ := by
      rw [hop]
      rfl
    obtain ⟨status, hm⟩ := dispatchRound_of_row ⟨o, func.body.last⟩ hi rfl h
    change (fwInstrRunBlock env func _ s).res = _ at hm
    rw [fwInstrRunBlock, readLeb_of_got hr] at hm
    simp only [hfind] at hm
    exact ⟨_, hfin, push_of_ok hm⟩
  · have hi : fwGetInstr (env.mem o) = some ⟨0x03, some .loop, some .block⟩ := by
      rw [hop]
      rfl
    obtain ⟨status, hm⟩ := dispatchRound_of_row ⟨o, func.body.last⟩ hi rfl h
    change (fwInstrRunLoop env _ s).res = _ at hm
    rw [fwInstrRunLoop, readLeb_of_got hr] at hm
    exact ⟨_, Option.some_ne_none _, push_of_ok hm⟩

/-- An `end` does nothing to the machine. So the state behind the construct is that behind its
contents. -/
theorem closes_eq (hop : env.mem c = fwInstrEnd) {next : FwStr}
    (h : dispatchRound env r func ⟨c, func.body.last⟩ s = ⟨l, .ok (some next, t)⟩) : t = s := by
  have hi : fwGetInstr (env.mem c) = some ⟨0x0b, some .end_, some .end_⟩ := by
    rw [hop]
    rfl
  obtain ⟨status, hm⟩ := dispatchRound_of_row ⟨c, func.body.last⟩ hi rfl h
  exact (Prod.mk.inj (Except.ok.inj hm)).2.symm

/-- A pushed slot lies under whatever comes next. This is where the comparison starts. -/
theorem under_push (s : Machine) (lbl : Slot) :
    Under s.ctx.pos lbl s.ctx.pos false { s with ctx := s.ctx.push lbl } s where
  pos := rfl
  above := le_refl _
  le_top := le_refl _
  operands := fun _ hd hlt => absurd hlt (Nat.not_lt_of_le hd)
  label := Function.update_self ..
  below := fun _ hi => Function.update_of_ne hi.ne ..
  fin := rfl
  locals := rfl
  heap := rfl
  tick := rfl
  frameFin := rfl
  depth := fun h => by cases h

theorem LabelLeft.of_under {d top : ℕ} {lbl : Slot} {g : Bool} (h : Under d lbl top g t s)
    (hlbl : lbl.fin ≠ none) : LabelLeft d s t :=
  ⟨h.pos, h.above, h.below, h.label ▸ hlbl, fun i hd hi => h.operands i hd (hi.trans_le h.le_top)⟩

end

/-- A `block` or `loop` whose contents take operands of their own only leaves what the contents
leave on their own, with its label under it. The function is validated (`hval`), and every block
type of it is read (`hdec`); the opcode at `o` and the `end` at `c` belong together in the bytes
that the walk has fetched (`hpair`). The run goes from the one to the other (`hrun`), and its
contents stay above the depth of the entry (`hown`). Then the contents run to the same end without
the block, and the two machines differ by the label. -/
theorem block_leaves_label {env : Env} {func : FwModuleFunc} {status : Status}
    {o c start k m : ℕ} {s t₀ t₁ t : Machine} {inner : List Event}
    (hval : (fwModuleValidateInst env.mem func.body .init).res = .ok (status, func.blks))
    (hdec : ∀ p ∈ (fwModuleValidateInst env.mem func.body .init).log,
      bracketAt env.mem p = .opens →
        ∃ v str, fwStrLebGetu env.mem ⟨p + 1, func.body.last⟩ 32 = .got v str)
    (hpair : Bracket.Matched (bracketAt env.mem)
      (fwModuleValidateInst env.mem func.body .init).log o c)
    (hop : env.mem o = fwInstrBlock ∨ env.mem o = fwInstrLoop)
    (hrun : BlockRun env func o c start k m s t₀ inner t₁ t)
    (hown : (ownMonitor s.ctx.pos).Accepts false inner) :
    ∃ l s', Executes env func c k start s l (m + 1) s' ∧ LabelLeft s.ctx.pos s' t ∧
      ¬ Neutral s.ctx.pos s' t := by
  obtain ⟨v, start', b, hr, hfind, hfin⟩ := (walkedTo_of_validate hval hdec).found_of_matched hpair
  obtain ⟨⟨l₀, hopens⟩, hcontents, ⟨l₁, hcloses⟩⟩ := hrun
  obtain rfl : t = t₁ := closes_eq (eq_end_of_closes hpair.2.1) hcloses
  obtain ⟨lbl, hlbl, rfl⟩ := opens_push hop hr hfind (hfin ▸ Option.some_ne_none _) hopens
  obtain ⟨l, s', hexec, top, hunder⟩ := hcontents.overlooks ⟨_, under_push s lbl⟩ hown
  have hleft : LabelLeft s.ctx.pos s' t := .of_under hunder hlbl
  exact ⟨l, s', hexec, hleft, hleft.not_neutral⟩

/-! ### A block around a constant

The smallest block with something in it. It is entered on an empty stack, and leaves two operands in
place of one. -/

/-- A function with a constant in a block, with a block table as validation leaves it. -/
def oneBlock : FwModuleFunc :=
  ⟨0, ⟨0, 0, []⟩, ⟨0, 6⟩, none, (FuncBlks.init.openBlk.setStart 0 2 fwInstrBlock).closeBlk 0 5⟩

/-- Its bytes. -/
def oneBlockEnv : Env := zeroEnv (memOf [0x02, 0x40, 0x41, 0x01, 0x0b, 0x0b]) [oneBlock]

/-- Its label stays under the constant, which the contents alone leave on an empty stack. -/
theorem oneBlock_leaves_label : ∃ t l s',
    Executes oneBlockEnv oneBlock 4 2 2 (fwModuleContextNew fun _ => .plain 0 0) l 1 s' ∧
      LabelLeft 0 s' t ∧ ¬ Neutral 0 s' t := by
  have hdec : ∀ p ∈ [0, 2, 4, 5], bracketAt oneBlockEnv.mem p = .opens →
      ∃ v str, fwStrLebGetu oneBlockEnv.mem ⟨p + 1, 6⟩ 32 = .got v str := by
    intro p hp ho
    simp only [List.mem_cons, List.not_mem_nil, or_false] at hp
    rcases hp with rfl | rfl | rfl | rfl
    · exact ⟨_, _, rfl⟩
    · cases ho
    · cases ho
    · cases ho
  have hpair : Bracket.Matched (bracketAt oneBlockEnv.mem) [0, 2, 4, 5] 0 4 :=
    ⟨rfl, rfl, [], [2], [5], rfl, .other rfl .nil⟩
  exact ⟨_, @block_leaves_label oneBlockEnv oneBlock .ok 0 4 2 2 0
    (fwModuleContextNew fun _ => .plain 0 0) _ _ _ _ rfl hdec hpair (.inl rfl)
    ⟨⟨_, rfl⟩, .round (by decide) rfl (.done 1 _), ⟨_, rfl⟩⟩ ⟨trivial, Nat.one_pos, trivial⟩⟩

/-- It is not neutral: what it leaves is not what its contents leave. -/
theorem oneBlock_not_neutral : ∃ t₀ inner t₁ t l s',
    BlockRun oneBlockEnv oneBlock 0 4 2 2 0 (fwModuleContextNew fun _ => .plain 0 0) t₀ inner t₁ t ∧
      Executes oneBlockEnv oneBlock 4 2 2 (fwModuleContextNew fun _ => .plain 0 0) l 1 s' ∧
        ¬ Neutral 0 s' t := by
  refine ⟨_, _, _, _, _, _, ⟨⟨_, rfl⟩, .round (by decide) rfl (.done 1 _), ⟨_, rfl⟩⟩,
    .round (by decide) rfl (.done 1 _), fun h => ?_⟩
  have hpos : 2 = 1 := h.pos
  cases hpos

end FastWasm
