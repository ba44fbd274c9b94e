import FastWasm.Returns

/-!
# A function that calls no other one ends

A branch of an `if` starts behind the `if`, and so does what is executed after the branch, whatever
bytes the table gives as their bounds. The branch and the rest can overlap, so bytes are executed
more than once, but no cursor comes back to where it was: with `k` bytes left at most `2 ^ k - 1`
instructions are executed. An immediate is read in one step, also where the read never ends.

The budget of a loop is that power, and an `if` halves it: one half is for the branch and one for
what follows. So a monitor that counts down with every fetch accepts the log. What is needed of the
block table is only that a branch starts and ends behind the start of its block (`ForwardBlks`),
which is so of any table that the walk leaves, mis-nested or not; and a read that never ends is one
step of the model, and a halt.
-/

namespace FastWasm

open Logged

/-! ## The step bound

A handler stops for the bound only in what it calls back into. -/

/-- Does not stop for the step bound of the model, from any machine. -/
def NoFuel {α : Type} (m : Run α) : Prop := ∀ s, (m s).res ≠ .error .fuel

namespace NoFuel

variable {α β : Type} {env : Env} {func : FwModuleFunc}

theorem pure (a : α) : NoFuel (pure a : Run α) := fun _ h => by cases h

theorem halt {e : Halt} (h : e ≠ .fuel) : NoFuel (halt e : Run α) := fun _ he =>
  h (Except.error.inj he)

theorem emit (e : Event) : NoFuel (emit e) := fun _ h => by cases h

theorem set (s : Machine) : NoFuel (set s : Run PUnit) := fun _ h => by cases h

theorem bind {m : Run α} {f : α → Run β} (hm : NoFuel m) (hf : ∀ a, NoFuel (f a)) :
    NoFuel (m >>= f) := by
  intro s h
  rcases hr : (m s).res with e | ⟨a, s'⟩
  · rw [bind_of_error hr] at h
    exact hm s (hr.trans (congrArg Except.error (Except.error.inj h)))
  · rw [bind_of_ok hr] at h
    exact hf a s' h

theorem get_bind {f : Machine → Run α} (h : ∀ s, NoFuel (f s)) : NoFuel (get >>= f) := by
  intro s
  rw [get_bind_apply]
  exact h s s

theorem ite {c : Prop} [Decidable c] {m m' : Run α} (h : NoFuel m) (h' : NoFuel m') :
    NoFuel (if c then m else m') := by
  split
  · exact h
  · exact h'

theorem push (st : Slot) : NoFuel (fwPush st) :=
  .get_bind fun _ => .ite (.bind (.emit _) fun _ => .halt (by simp))
    (.bind (.emit _) fun _ => .set _)

theorem room : NoFuel fwPushRoom :=
  .get_bind fun _ => .ite (.bind (.emit _) fun _ => .halt (by simp)) (.pure _)

theorem pop (peek : Bool) : NoFuel (fwPop peek) :=
  .get_bind fun _ => .ite (.bind (.emit _) fun _ => .halt (by simp))
    (.bind (.emit _) fun _ => .bind (.set _) fun _ => .pure _)

theorem stackGet (idx : ℕ) : NoFuel (fwStackGet idx) :=
  .get_bind fun _ => .ite (.bind (.emit _) fun _ => .halt (by simp))
    (.bind (.emit _) fun _ => .pure _)

theorem localsRead (idx : ℕ) : NoFuel (fwLocalsRead idx) := by
  intro s
  obtain ⟨res, hm, ⟨f, rfl⟩ | ⟨v, rfl⟩⟩ := fwLocalsRead_apply s idx <;> rw [hm] <;> simp

theorem localsWrite (p : Option ℕ) (idx : ℕ) (val : UInt64) : NoFuel (fwLocalsWrite p idx val) := by
  intro s
  obtain ⟨res, hm, ⟨f, rfl⟩ | ⟨id, b, -, -, rfl⟩⟩ := fwLocalsWrite_apply s p idx val <;>
    rw [hm] <;> simp

theorem tick : NoFuel nextTick := fun _ h => by cases h

theorem localsFreeIf (p : Option ℕ) : NoFuel (fwLocalsFreeIf p) := by
  cases p with
  | none => exact .pure _
  | some id =>
    intro s
    rw [fwLocalsFreeIf, fwLocalsFree_apply]
    cases s.block (some id) <;> simp

theorem copyParams (locals : Option ℕ) (paramCnt : ℕ) : ∀ n, NoFuel (fwCopyParams locals paramCnt n)
  | 0 => .pure _
  | n + 1 => (stackGet n).bind fun _ => (localsWrite _ _ _).bind fun _ =>
      copyParams locals paramCnt n

theorem return_ {body : FwStr} : NoFuel (fwInstrRunReturn func body) :=
  .get_bind fun _ => .bind (fun s h => by
    obtain ⟨s', hmove⟩ := moveRetsTo_returns _ _ s
    cases hmove.symm.trans h) fun _ => .get_bind fun _ => .bind (.emit _) fun _ => .pure _

theorem enterFunc : NoFuel (fwEnterFunc env func) :=
  .bind (.ite (.bind (fun _ h => by cases h) fun _ => .pure _)
    (tick.bind fun _ => .bind (.emit _) fun _ => .pure _)) fun locals =>
    (copyParams locals _ _).bind fun _ => .get_bind fun _ => .bind (.emit _) fun _ =>
      .bind (.set _) fun _ => .pure _

theorem errLabel (saveLocals : Option ℕ) : NoFuel (fwErrLabel saveLocals) :=
  .get_bind fun _ => .bind (.emit _) fun _ => (localsFreeIf _).bind fun _ =>
    .bind (.emit _) fun _ => .pure _

theorem leaveFunc (saveLocals : Option ℕ) (exit : LoopExit) :
    NoFuel (fwLeaveFunc saveLocals exit) := by
  cases exit with
  | done body =>
    exact .get_bind fun _ => (localsFreeIf _).bind fun _ => .get_bind fun _ =>
      .bind (.set _) fun _ => .ite (errLabel _) (.bind (.emit _) fun _ => .pure _)
  | badOpcode => exact .bind (.emit _) fun _ => errLabel _
  | strErr => exact .bind (.emit _) fun _ => .pure _

end NoFuel

section

variable {γ : Type} {M : Monitor γ Event} {H H' : Halt → γ → Prop}

/-- A triple of a computation that does not stop for the bound, with another claim about halts that
is about the bound only. -/
theorem NoFuel.triple {α : Type} {P : γ → Machine → Prop} {m : Run α}
    {Q : α → γ → Machine → Prop} (hm : NoFuel m) (hH : ∀ e g, e ≠ .fuel → H' e g)
    (h : Triple M P m Q H) : Triple M P m Q H' :=
  h.halts fun s e he g _ => hH e g fun hfuel => hm s (hfuel ▸ he)

/-- The handlers do not stop for the bound by themselves. -/
theorem Stable.noFuel {I : γ → Machine → Prop} (h : Stable M I H)
    (hH : ∀ e g, e ≠ .fuel → H' e g) : Stable M I H' where
  push st := (NoFuel.push st).triple hH (h.push st)
  room := NoFuel.room.triple hH h.room
  pop peek := (NoFuel.pop peek).triple hH (h.pop peek)
  read idx := (NoFuel.localsRead idx).triple hH (h.read idx)
  write p idx val := (NoFuel.localsWrite p idx val).triple hH (h.write p idx val)
  tick := NoFuel.tick.triple hH h.tick
  host addr args := (NoFuel.emit _).triple hH (h.host addr args)
  err := (NoFuel.emit _).triple hH h.err
  fault f g _ _ := hH _ g (by simp)
  hang g _ _ := hH _ g (by simp)

end

/-! ## The block table

What the executor takes from the table is where a branch starts and where it ends. -/

/-- What a branch starts with and where it ends lies behind the start of its block. Where the walk
has found no `else` or `end` there is nothing to compare. -/
def ForwardBlks (last : ℕ) (s : FuncBlks) : Prop :=
  ∀ id p v, (s.entry id).start = some p → (s.entry id).els = some v ∨ (s.entry id).fin = some v →
    p < v ∧ v ≤ last

/-- Blocks start before the cursor, or have not started yet. -/
def StartsBefore (c : ℕ) (s : FuncBlks) : Prop := ∀ id p, (s.entry id).start = some p → p ≤ c

section

variable {mem : Mem} {code : UInt8} {body body' : FwStr} {s s' : FuncBlks} {last c : ℕ}

theorem ForwardBlks.setEntry (h : ForwardBlks last s) {id : ℕ} {b : FwModuleFuncBlock}
    (hb : ∀ p v, b.start = some p → b.els = some v ∨ b.fin = some v → p < v ∧ v ≤ last) :
    ForwardBlks last (s.setEntry id b) := by
  intro id' p v
  by_cases hid : id' = id
  · simp only [FuncBlks.setEntry, hid, Function.update_self]
    exact hb p v
  · simp only [FuncBlks.setEntry, Function.update_of_ne hid]
    exact h id' p v

theorem StartsBefore.setEntry (h : StartsBefore c s) {id : ℕ} {b : FwModuleFuncBlock}
    (hb : ∀ p, b.start = some p → p ≤ c) : StartsBefore c (s.setEntry id b) := by
  intro id' p
  by_cases hid : id' = id
  · simp only [FuncBlks.setEntry, hid, Function.update_self]
    exact hb p
  · simp only [FuncBlks.setEntry, Function.update_of_ne hid]
    exact h id' p

theorem StartsBefore.mono {c' : ℕ} (h : StartsBefore c s) (hc : c ≤ c') : StartsBefore c' s :=
  fun id p hp => (h id p hp).trans hc

theorem ForwardBlks.openBlk (h : ForwardBlks last s) : ForwardBlks last s.openBlk := by
  have hzero : ForwardBlks last (s.setEntry s.fresh .zero) := h.setEntry fun _ _ hp => by cases hp
  exact hzero

theorem StartsBefore.openBlk (h : StartsBefore c s) : StartsBefore c s.openBlk := by
  have hzero : StartsBefore c (s.setEntry s.fresh .zero) := h.setEntry fun _ hp => by cases hp
  exact hzero

/-- A new entry is empty, so there is nothing in it to compare. -/
theorem entry_openBlk (s : FuncBlks) : s.openBlk.entry s.fresh = .zero := Function.update_self ..

/-- A handler keeps the order: the cursor behind an opcode lies behind all starts. What it records
is the cursor, so an `els` or a `fin` that is written now lies behind the start of its entry. -/
theorem consume_forward {fn : ConsumeFn} {status : Status} (hf : ForwardBlks body.last s)
    (hs : StartsBefore c s) (hc : c < body.pos) (hlast : body.pos ≤ body.last)
    (hr : (fn.consume mem code body s).res = .ok ((status, body'), s')) :
    ForwardBlks body.last s' ∧ StartsBefore body'.pos s' := by
  obtain ⟨hn, hcons⟩ := consume_cases hr
  have hle := (next_le hn).1
  have hs' : StartsBefore body'.pos s := hs.mono (hc.le.trans hle)
  have hopen : ForwardBlks body.last s.openBlk ∧ StartsBefore body'.pos s.openBlk :=
    ⟨hf.openBlk, hs'.openBlk⟩
  have hstart : ForwardBlks body.last (s.openBlk.setStart s.fresh body'.pos code) ∧
      StartsBefore body'.pos (s.openBlk.setStart s.fresh body'.pos code) := by
    rw [FuncBlks.setStart, entry_openBlk]
    refine ⟨hopen.1.setEntry fun p v _ hv => ?_, hopen.2.setEntry fun p hp => ?_⟩
    · rcases hv with hv | hv <;> cases hv
    · exact (Option.some.inj hp).ge
  -- what is recorded is the cursor
  have hset : ∀ id b, b.start = (s.entry id).start →
      (∀ v, b.els = some v ∨ b.fin = some v →
        v = body.pos ∨ (s.entry id).els = some v ∨ (s.entry id).fin = some v) →
      ForwardBlks body.last (s.setEntry id b) ∧ StartsBefore body'.pos (s.setEntry id b) := by
    intro id b hb hv
    refine ⟨hf.setEntry fun p v hp hv' => ?_, hs'.setEntry fun p hp => ?_⟩
    · rw [hb] at hp
      rcases hv v hv' with rfl | hv
      · exact ⟨(hs id p hp).trans_lt hc, hlast⟩
      · exact hf id p v hp hv
    · exact hs' id p (hb ▸ hp)
  cases hcons with
  | plain | endFunc | astray => exact ⟨hf, hs'⟩
  | malformed => exact hopen
  | block => exact hstart
  | if_ => exact hstart
  | else_ =>
    exact hset _ _ rfl fun v hv => by
      rcases hv with hv | hv
      · exact .inl (Option.some.inj hv).symm
      · exact .inr (.inr hv)
  | endBlk =>
    exact hset _ _ rfl fun v hv => by
      rcases hv with hv | hv
      · dsimp only at hv
        split at hv
        · exact .inl (Option.some.inj hv).symm
        · exact .inr (.inl hv)
      · exact .inl (Option.some.inj hv).symm

/-- A whole walk keeps the order, by induction on its rounds. -/
theorem walk_forward {last p q : ℕ} {l : List ℕ} {s s' : FuncBlks}
    (h : WalksTo mem last p s l q s') (hf : ForwardBlks last s) (hs : StartsBefore p s) :
    ForwardBlks last s' := by
  induction h with
  | refl => exact hf
  | @step p q _ s s₁ _ _ hlt hstep _ ih =>
    have hs₁ : ForwardBlks last s₁ ∧ StartsBefore q s₁ := by
      cases hi : fwGetInstr (mem p) with
      | none =>
        rw [walkStep] at hstep
        simp only [hi] at hstep
        obtain ⟨hpos, rfl⟩ := Prod.mk.inj (Except.ok.inj hstep)
        obtain rfl := (FwStr.mk.inj hpos).1
        exact ⟨hf, hs.mono (Nat.le_succ _)⟩
      | some instr =>
        obtain ⟨fn, status, hc, hm⟩ := walkStep_eq_ok hi hstep
        exact @consume_forward _ _ ⟨p + 1, last⟩ _ _ _ _ _ _ hf hs (Nat.lt_succ_self _) hlt hm
    exact ih hs₁.1 hs₁.2

theorem FwModuleFunc.Validated.forwardBlks {mem : Mem} {func : FwModuleFunc}
    (h : func.Validated mem) : ForwardBlks func.body.last func.blks := by
  obtain ⟨status, h⟩ := h
  obtain ⟨r, hwalk⟩ := walk_of_validateInst h
  obtain ⟨q, -, hwalk⟩ := walksTo_of_loop hwalk
  exact walk_forward hwalk (fun _ _ _ h => by cases h) fun _ _ h => by cases h

end

/-! ## The budget of a loop

With `k` bytes left a loop has `2 ^ k - 1` fetches. One is for the opcode, and what is left is
enough for two loops with a byte less. -/

/-- Counts the functions entered, and the fetches still allowed before the second one. -/
def budgetMonitor : Monitor (ℕ × ℕ) Event where
  step g e := match e with
    | .enter _ _ => (g.1 + 1, g.2)
    | .fetch _ _ => (g.1, g.2 - 1)
    | _ => g
  ok g e := match e with
    | .fetch _ _ => g.1 ≤ 1 → 0 < g.2
    | _ => True

theorem budgetMonitor_quiet (g : ℕ × ℕ) (e : Event) (he : e.Quiet) :
    budgetMonitor.ok g e ∧ budgetMonitor.step g e = g := by
  cases e with
  | fetch | enter | leave | ret => exact he.elim
  | slot | limit | alloc | free | uninit | host | errLabel | err => exact ⟨trivial, rfl⟩

theorem budgetMonitor_step (g : ℕ × ℕ) (e : Event) : budgetMonitor.step g e =
    (g.1 + (if e.isEnter then 1 else 0), g.2 - if e.isFetch then 1 else 0) := by
  cases e <;> rfl

theorem budgetMonitor_after :
    ∀ (g : ℕ × ℕ) (l : List Event), (budgetMonitor.after g l).1 = g.1 + l.countP Event.isEnter
  | g, [] => rfl
  | g, e :: l => by
    rw [Monitor.after_cons, budgetMonitor_after, List.countP_cons, budgetMonitor_step]
    omega

/-- An accepted log with one function entered at most stays within the budget. -/
theorem fetches_le :
    ∀ {g : ℕ × ℕ} {l : List Event}, budgetMonitor.Accepts g l →
      g.1 + l.countP Event.isEnter ≤ 1 → l.countP Event.isFetch ≤ g.2
  | g, [], _, _ => Nat.zero_le _
  | g, e :: l, ⟨hok, hl⟩, hone => by
    rw [List.countP_cons] at hone ⊢
    rw [budgetMonitor_step] at hl
    have hle := fetches_le hl (by omega)
    have hpos : e.isFetch → 0 < g.2 := fun he => by
      cases e <;> first | exact hok (by omega) | cases he
    by_cases he : e.isFetch
    · have := hpos he
      simp only [if_pos he] at hle ⊢
      omega
    · simp only [if_neg he] at hle ⊢
      exact hle

/-- In the activation of `func`, with `b` fetches left at least; behind a second function that is
entered nothing is claimed. -/
def Budget (func : FwModuleFunc) (b : ℕ) (g : ℕ × ℕ) (frame : Frame) : Prop :=
  1 ≤ g.1 ∧ (g.1 = 1 → frame.fin = func.body.last ∧ b ≤ g.2)

/-- A run that stops for the bound has entered a second function, or had `k` steps at most. -/
def FuelExit (n k : ℕ) (h : Halt) (g : ℕ × ℕ) : Prop := h = .fuel → 2 ≤ g.1 ∨ n ≤ k

/-- What a loop leaves behind: the budget of what follows, and a cursor not before `pos`. -/
def LoopLeft (func : FwModuleFunc) (b pos : ℕ) (exit : LoopExit) (g : ℕ × ℕ) (s : Machine) : Prop :=
  Budget func b g s.ctx.frame ∧ (g.1 = 1 → ∀ body, exit = .done body → pos ≤ body.pos)

/-- What a handler leaves behind: the budget of what follows, and a cursor behind `pos`. -/
def HandlerLeft (func : FwModuleFunc) (b pos last : ℕ) (x : Status × FwStr) (g : ℕ × ℕ)
    (s : Machine) : Prop :=
  Budget func b g s.ctx.frame ∧ (g.1 = 1 → x.2.last = last ∧ pos < x.2.pos)

section

variable {env : Env} {r : Interp} {func : FwModuleFunc} {n k b m : ℕ} {body : FwStr}

theorem Budget.mono {b' : ℕ} {g : ℕ × ℕ} {frame : Frame} (h : Budget func b g frame)
    (hb : b' ≤ b) : Budget func b' g frame :=
  ⟨h.1, fun hg => ⟨(h.2 hg).1, hb.trans (h.2 hg).2⟩⟩

/-- Nothing is claimed once a second function was entered. -/
theorem budget_of_dead {g : ℕ × ℕ} {frame : Frame} (h : 2 ≤ g.1) : Budget func b g frame :=
  ⟨by omega, fun hg => by omega⟩

theorem after_second {α : Type} {P : ℕ × ℕ → Machine → Prop} {m : Run α}
    {Q : α → ℕ × ℕ → Machine → Prop} (hP : ∀ g s, P g s → 2 ≤ g.1)
    (hQ : ∀ a g s, 2 ≤ g.1 → Q a g s) : Triple budgetMonitor P m Q (FuelExit n k) := by
  refine Triple.of_closed (S := fun g => 2 ≤ g.1) (fun g e hg => ?_) (fun g e hg => ?_) hP hQ
    fun _ _ hg _ => .inl hg
  · cases e <;> first | exact trivial | exact fun h => absurd h (by omega)
  · rw [budgetMonitor_step]
    exact Nat.le_add_right_of_le hg

theorem budget_stable (func : FwModuleFunc) (b n k : ℕ) :
    Stable budgetMonitor (fun g s => Budget func b g s.ctx.frame) (FuelExit n k) :=
  (stable_frame budgetMonitor_quiet).noFuel fun _ _ hne h => absurd h hne

/-- What a called function leaves behind, which is nothing to go by, since it was entered. -/
theorem call_budget (hk : 0 < k) (n : ℕ) (f : FwModuleFunc) :
    Keeps budgetMonitor (fun g s => Budget func b g s.ctx.frame) (FuelExit (n + 1) k)
      ((interp env n).func f) := by
  cases n with
  | zero => exact Triple.halt fun _ _ _ _ => .inr hk
  | succ n =>
    refine func_rule (budget_stable func b _ k).hostFunc fun _ => ?_
    have henter : Triple budgetMonitor (fun g s => Budget func b g s.ctx.frame) (fwEnterFunc env f)
        (fun _ g _ => 2 ≤ g.1) (FuelExit (n + 1 + 1) k) :=
      NoFuel.enterFunc.triple (fun _ _ hne h => absurd h hne) <|
        enterFunc_frame (K := fun g _ => 2 ≤ g.1) budgetMonitor_quiet
          fun g _ _ h => ⟨trivial, Nat.succ_le_succ h.1⟩
    exact Triple.bind henter fun _ => after_second (fun _ _ h => h) fun _ _ _ => budget_of_dead

/-- A `return` goes to the end of the function, where no fetch is left to do. -/
theorem return_budget {pos : ℕ} (hpos : pos < func.body.last) :
    Triple budgetMonitor (fun g s => Budget func b g s.ctx.frame) (fwInstrRunReturn func body)
      (HandlerLeft func b pos body.last) (FuelExit n k) := by
  refine NoFuel.return_.triple (H := fun _ _ => True) (fun _ _ hne h => absurd h hne) ?_
  refine Triple.get_bind fun s₀ => ?_
  have hmove := fun oldpos i => Triple.of_spares (StackOnly.moveRetsTo oldpos i).frame
    (J := fun g frame => Budget func b g s₀.ctx.frame ∧ frame = s₀.ctx.frame) budgetMonitor_quiet
  refine Triple.bind ((hmove _ _).pre ?_) fun _ => Triple.get_bind fun s₁ =>
    Triple.emit_bind (R := fun g s => Budget func b g s₀.ctx.frame ∧ s.ctx.frame = s₀.ctx.frame)
      (fun g s hs => ⟨trivial, hs.1⟩) (Triple.pure ?_)
  · rintro g s ⟨hs, rfl⟩
    exact ⟨hs, rfl⟩
  · rintro g s ⟨hb, hframe⟩
    refine ⟨by rw [hframe]; exact hb, fun hg => ⟨rfl, ?_⟩⟩
    rw [← (hb.2 hg).1] at hpos
    exact hpos

section

variable {pos last : ℕ}

/-- An `if` goes on behind itself, after a branch that is behind it too. Both branches start behind
the block type, so they have one byte less and half of the budget, and what follows has the other
half. -/
theorem if_budget (hf : ForwardBlks func.body.last func.blks)
    (hloop : ∀ b body, body.last ≤ func.body.last → pos < body.pos →
      Triple budgetMonitor (fun g s => Budget func (b + m) g s.ctx.frame) (r.loop func body)
        (LoopLeft func b body.pos) (FuelExit n k)) :
    Triple budgetMonitor (fun g s => Budget func (b + m + m) g s.ctx.frame)
      (fwInstrRunIf env r func ⟨pos + 1, last⟩) (HandlerLeft func (b + m) pos last)
      (FuelExit n k) := by
  refine (budget_stable func (b + m + m) n k).if_weaken (budget_stable func (b + m) n k)
    (fun _ _ h => h.mono (Nat.le_add_right _ _)) ?_ ?_ ?_
  · exact fun _ g s h => ⟨h, fun _ => ⟨rfl, Nat.lt_succ_self _⟩⟩
  · exact fun val body' hr g s h => ⟨h, fun _ => ⟨(getu_le hr).2, (getu_le hr).1⟩⟩
  · intro val body' blk els fin hr hfind hels hfin cond
    obtain ⟨hpos, hlast⟩ := getu_le hr
    obtain ⟨id, -, rfl⟩ := mem_of_find hfind
    obtain ⟨helslt, helsle⟩ := hf id body'.pos els (start_of_find hfind) (.inl hels)
    obtain ⟨hfinlt, hfinle⟩ := hf id body'.pos fin (start_of_find hfind) (.inr hfin)
    have hbranch : (if cond.val ≠ 0 then ⟨body'.pos, els - 1⟩ else ⟨els, fin⟩ : FwStr).last ≤
          func.body.last ∧
        pos < (if cond.val ≠ 0 then ⟨body'.pos, els - 1⟩ else ⟨els, fin⟩ : FwStr).pos := by
      split
      · exact ⟨(Nat.sub_le _ _).trans helsle, hpos⟩
      · exact ⟨hfinle, hpos.trans_lt' (Nat.lt_succ_self pos) |>.trans helslt⟩
    refine (hloop (b + m) _ hbranch.1 hbranch.2).post fun exit g s hexit => ?_
    cases exit with
    | done branch =>
      refine ⟨hexit.1, fun hg => ⟨hlast, ?_⟩⟩
      have hend := hexit.2 hg branch rfl
      split
      · exact hbranch.2.trans_le hend
      · exact Nat.lt_of_lt_of_le hpos hfinlt.le
    | badOpcode | strErr => exact hexit.1

/-- Every handler goes on behind its opcode, with half of the budget at least. Most of them do not
call back; an `if` spends what its branch does, and a `return` goes to the end of the function. -/
theorem run_budget {fn : RunFn} (hf : ForwardBlks func.body.last func.blks)
    (hlt : pos < last) (hle : last ≤ func.body.last)
    (hfunc : ∀ b, ∀ f ∈ env.funcs, Keeps budgetMonitor
      (fun g s => Budget func b g s.ctx.frame) (FuelExit n k) (r.func f))
    (hloop : ∀ b body, body.last ≤ func.body.last → pos < body.pos →
      Triple budgetMonitor (fun g s => Budget func (b + m) g s.ctx.frame) (r.loop func body)
        (LoopLeft func b body.pos) (FuelExit n k)) :
    Triple budgetMonitor (fun g s => Budget func (b + m + m) g s.ctx.frame)
      (fn.run env r func ⟨pos + 1, last⟩) (HandlerLeft func (b + m) pos last) (FuelExit n k) := by
  by_cases hif : fn = .if_
  · subst hif
    exact if_budget hf hloop
  by_cases hret : fn = .return_
  · subst hret
    exact (return_budget (hlt.trans_le hle)).post fun _ _ _ h =>
      ⟨h.1.mono (Nat.le_add_right _ _), h.2⟩
  have hkeeps : Keeps budgetMonitor (fun g s => Budget func (b + m + m) g s.ctx.frame)
      (FuelExit n k) (fn.run env r func ⟨pos + 1, last⟩) := by
    by_cases hcall : fn = .call
    · subst hcall
      exact (budget_stable func _ n k).call (hfunc _)
    · exact (budget_stable func _ n k).leaf hif hcall hret
  refine (Triple.and_res hkeeps (R := fun x _ => x.2.last = last ∧ pos < x.2.pos) ?_).post
    fun x g s h => ⟨h.1.mono (Nat.le_add_right _ _), fun _ => h.2⟩
  intro _ s _ x s' hr
  obtain ⟨hpos, hlast⟩ := next_le (run_lands hif hret s x s' hr)
  exact ⟨hlast, hpos⟩

end

/-- A loop stays within its budget, and with more steps than bytes it is not stopped. The budget of
`k` bytes is `2 ^ k - 1` rounds: one for the opcode, and half of the rest each for a branch and for
what follows. -/
theorem loop_budget (hf : ForwardBlks func.body.last func.blks) :
    ∀ (n : ℕ) (b : ℕ) (body : FwStr), body.last ≤ func.body.last →
      Triple budgetMonitor
        (fun g s => Budget func (b + (2 ^ (func.body.last - body.pos) - 1)) g s.ctx.frame)
        ((interp env n).loop func body) (LoopLeft func b body.pos)
        (FuelExit n (func.body.last - body.pos))
  | 0, b, body, _ => Triple.halt fun _ _ _ _ => .inr (Nat.zero_le _)
  | n + 1, b, body, hle => by
    generalize hk : func.body.last - body.pos = k
    refine dispatch_rule (I := fun g s => Budget func (b + (2 ^ (k - 1) - 1) + (2 ^ (k - 1) - 1))
      g s.ctx.frame) ?_ ?_ ?_ ?_ ?_
    · exact fun _ g s h => ⟨h.mono (Nat.le_add_right _ _), fun _ _ hexit =>
        (LoopExit.done.inj hexit).symm ▸ le_refl _⟩
    · intro hlt g s h
      have hpow : 2 ^ k = 2 * 2 ^ (k - 1) := by
        rw [← pow_succ', Nat.sub_add_cancel (by omega)]
      have hpos : 0 < 2 ^ (k - 1) := Nat.two_pow_pos _
      refine ⟨fun hg => ?_, h.1, fun hg => ⟨(h.2 hg).1, ?_⟩⟩
      · have := (h.2 (le_antisymm hg h.1)).2
        omega
      · have := (h.2 hg).2
        change _ ≤ g.2 - 1
        omega
    · exact fun g s h => ⟨h.mono (by omega), fun _ _ hexit => by cases hexit⟩
    · exact fun g s _ h => by cases h
    · intro hlt instr fn _ _
      have hloop : ∀ b body', body'.last ≤ func.body.last → body.pos < body'.pos →
          Triple budgetMonitor
            (fun g s => Budget func (b + (2 ^ (k - 1) - 1)) g s.ctx.frame)
            ((interp env n).loop func body') (LoopLeft func b body'.pos) (FuelExit (n + 1) k) := by
        intro b body' hle' hpos
        refine ((loop_budget hf n b body' hle').halts ?_).pre fun g s h => h.mono ?_
        · exact fun _ _ _ g h hfuel => (h hfuel).imp id fun h => by omega
        · have := Nat.pow_le_pow_right (show 0 < 2 by decide)
            (show func.body.last - body'.pos ≤ k - 1 by omega)
          omega
      refine Triple.bind (run_budget hf hlt hle (fun b f _ => call_budget (by omega) n f) hloop)
        fun x => ?_
      intro g s h
      by_cases hg : g.1 = 1
      · obtain ⟨hlast, hpos⟩ := h.2 hg
        refine ((hloop b x.2 (hlast ▸ hle) hpos).post fun exit g' s' hexit => ?_) g s h.1
        exact ⟨hexit.1, fun hg' body' he => hpos.le.trans (hexit.2 hg' body' he)⟩
      · have hdead : 2 ≤ g.1 := lt_of_le_of_ne h.1.1 (Ne.symm hg)
        exact after_second (P := fun g _ => 2 ≤ g.1) (fun _ _ h => h) (fun _ _ _ h =>
          ⟨budget_of_dead h, fun hg => absurd hg (Nat.ne_of_gt h)⟩) g s hdead

/-- So does a function that calls no other one, with the budget of its body. It is entered and left
without rounds of the loop, and a host function has none at all. -/
theorem func_budget (hf : ForwardBlks func.body.last func.blks) (n : ℕ) :
    Triple budgetMonitor (fun g _ => g = (0, 2 ^ (func.body.last - func.body.pos) - 1))
      ((interp env n).func func) (fun _ _ _ => True)
      (FuelExit n (func.body.last - func.body.pos + 1)) := by
  cases n with
  | zero => exact Triple.halt fun _ _ _ _ => .inr (Nat.zero_le _)
  | succ n =>
    have hne : ∀ e g, e ≠ Halt.fuel →
        FuelExit (n + 1) (func.body.last - func.body.pos + 1) e g := fun _ _ hne h => absurd h hne
    refine func_rule (fun addr => ?_) fun _ => ?_
    · exact (((stable_frame (J := fun g _ => g = _) budgetMonitor_quiet).noFuel hne).hostFunc
        addr).post fun _ _ _ _ => trivial
    · have henter : Triple budgetMonitor
          (fun g _ => g = (0, 2 ^ (func.body.last - func.body.pos) - 1)) (fwEnterFunc env func)
          (fun _ g s => Budget func (0 + (2 ^ (func.body.last - func.body.pos) - 1)) g s.ctx.frame)
          (FuelExit (n + 1) (func.body.last - func.body.pos + 1)) := by
        refine NoFuel.enterFunc.triple hne (enterFunc_frame (J := fun g _ => g = _)
          budgetMonitor_quiet ?_)
        rintro g _ _ rfl
        exact ⟨trivial, le_refl _, fun _ => ⟨rfl, (Nat.zero_add _).le⟩⟩
      refine Triple.bind henter fun saveLocals => Triple.bind
        ((loop_budget hf n 0 func.body (le_refl _)).halts ?_) fun exit => ?_
      · exact fun _ _ _ g h hfuel => (h hfuel).imp id Nat.succ_le_succ
      · refine (NoFuel.leaveFunc saveLocals exit).triple (H := fun _ _ => True) hne ?_
        exact (leaveFunc_frame (J := fun _ _ => True) (K := fun _ _ => True) budgetMonitor_quiet
          (fun _ _ _ => ⟨trivial, trivial⟩) saveLocals exit).pre fun _ _ _ => trivial

end

/-- A run of a validated function (`hval`) that enters no other wasm function (`hcalls`) executes
fewer than `2 ^ k` instructions, `k` the bytes of the function, and so it ends: with more steps than
bytes it does not stop for the bound of the model. The bytes are any, and so are the machine and
what the validation has met on its way. -/
theorem executor_terminates {env : Env} {func : FwModuleFunc} {status : Status}
    (hval : (fwModuleValidateInst env.mem func.body .init).res = .ok (status, func.blks))
    {n : ℕ} {s : Machine}
    (hcalls : ((interp env n).func func s).log.countP Event.isEnter ≤ 1) :
    ((interp env n).func func s).log.countP Event.isFetch <
        2 ^ (func.body.last - func.body.pos) ∧
      (func.body.last - func.body.pos + 1 < n →
        ((interp env n).func func s).res ≠ .error .fuel) := by
  obtain ⟨hacc, hends⟩ := func_budget (FwModuleFunc.Validated.forwardBlks ⟨_, hval⟩) n _ s rfl
  refine ⟨?_, fun hn hfuel => ?_⟩
  · have hle := fetches_le hacc (by rw [Nat.zero_add]; exact hcalls)
    exact hle.trans_lt (Nat.sub_lt (Nat.two_pow_pos _) Nat.one_pos)
  · rw [hfuel] at hends
    rcases hends rfl with htwo | hle
    · rw [budgetMonitor_after, Nat.zero_add] at htwo
      exact absurd htwo (Nat.not_le_of_lt (Nat.lt_succ_of_le hcalls))
    · exact absurd hn (Nat.not_lt_of_le hle)

/-- The run over the `if` executes fewer than 256 instructions, and ends. -/
theorem oneIf_terminates :
    ((interp oneIfEnv 10).func oneIf (fwModuleContextNew fun _ => .plain 0 0)).log.countP
        Event.isFetch < 2 ^ 8 ∧
      (8 + 1 < 10 →
        ((interp oneIfEnv 10).func oneIf (fwModuleContextNew fun _ => .plain 0 0)).res ≠
          .error .fuel) :=
  @executor_terminates oneIfEnv oneIf .ok rfl 10 (fwModuleContextNew fun _ => .plain 0 0)
    (by decide)

end FastWasm
