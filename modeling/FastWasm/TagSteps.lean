import FastWasm.Calls
import FastWasm.Tags

/-!
# What the executor does to the tags

What is known of a machine is the tags on its operand stack, the sizes of the locals blocks in use,
the pointer to the locals and the frame (`Stands`). One lemma for each way in which the executor
changes the machine: the stack macros, the accesses to locals, the straight-line handlers, host
functions, `return`, and entering and leaving a function.

The lemmas are triples under a monitor that accepts no error path (`tagMonitor`), so that whatever
is composed of them takes none either. The values of the slots play no role. Below the tags that are
known there may be more, which nothing touches, so a function is looked at on its own arguments and
the operands of its callers stay out of sight.
-/

namespace FastWasm

open Logged

/-! ## What is known of a machine

Tags from the top of the stack down, all of them or those of the running function with the ones of
its callers below. -/

/-- The operand depth after an event, as far as the event is one of the stack. -/
def Event.depthAfter (depth : ℕ) : Event → ℕ
  | .slot _ _ after => after.pos
  | .ret _ _ after _ => after.pos
  | _ => depth

/-- Follows the depth. An error path is never taken, and the limit is hit by a push on a full stack
only, and not at all when the check is strict. A pop from an empty stack is not accepted. -/
def tagMonitor (strict : Bool) : Monitor ℕ Event where
  step := Event.depthAfter
  ok depth e := match e with
    | .err => False
    | .errLabel _ _ => False
    | .limit => strict = false ∧ depth = fwMaxStackSize
    | _ => True

/-- The only halt is at the limit, and there is none when the check is strict. -/
def AtLimit (strict : Bool) (e : Halt) (_ : ℕ) : Prop := strict = false ∧ e = .exit

/-- The machine has these tags on its stack, these locals blocks of known sizes among others, its
locals at a pointer and a frame of some kind. -/
structure Stands (frame : Frame → Prop) (blocks : ℕ → Option ℕ) (locals : Option ℕ)
    (tags : List UInt8) (depth : ℕ) (s : Machine) : Prop where
  /-- the tags -/
  tags : s.ctx.tags = tags
  /-- the depth that the monitor knows -/
  depth : depth = s.ctx.pos
  /-- the depth is within the array -/
  inBounds : s.ctx.InBounds
  /-- the blocks -/
  blocks : ∀ id n, blocks id = some n → ∃ b, s.block (some id) = some b ∧ b.locals.length = n
  /-- the pointer to the locals -/
  locals : s.ctx.locals = locals
  /-- the frame -/
  frame : frame s.ctx.frame

/-- The running function has that many locals, or none and no block. -/
def HasLocals (blocks : ℕ → Option ℕ) (locals : Option ℕ) (n : ℕ) : Prop :=
  ∀ i < n, ∃ id, locals = some id ∧ blocks id = some n

section

variable {strict : Bool} {frame : Frame → Prop} {blocks : ℕ → Option ℕ} {locals : Option ℕ}
  {t : UInt8} {ts : List UInt8} {depth n idx : ℕ} {s : Machine}

theorem Stands.pos_eq (h : Stands frame blocks locals ts depth s) : s.ctx.pos = ts.length := by
  rw [← h.tags, Ctx.length_tags]

theorem Stands.length_le (h : Stands frame blocks locals ts depth s) :
    ts.length ≤ fwMaxStackSize := by
  rw [← h.pos_eq, ← h.inBounds.2]
  exact h.inBounds.1

/-- Less is known: of the frame, or of the blocks. -/
theorem Stands.weaken {frame' : Frame → Prop} {blocks' : ℕ → Option ℕ}
    (h : Stands frame blocks locals ts depth s) (hframe : ∀ f, frame f → frame' f)
    (hblocks : ∀ id n, blocks' id = some n → blocks id = some n) :
    Stands frame' blocks' locals ts depth s :=
  ⟨h.tags, h.depth, h.inBounds, fun id n hid => h.blocks id n (hblocks id n hid), h.locals,
    hframe _ h.frame⟩

/-- What keeps to the tags: from these tags, a computation returns with those, or stops at the
limit. -/
abbrev Retags {α : Type} (strict : Bool) (frame : Frame → Prop) (blocks : ℕ → Option ℕ)
    (locals : Option ℕ) (ts : List UInt8) (m : Run α) (ts' : List UInt8) : Prop :=
  Triple (tagMonitor strict) (Stands frame blocks locals ts) m
    (fun _ => Stands frame blocks locals ts') (AtLimit strict)

/-! ## The stack macros

A push puts a tag in front, and a pop takes one off. -/

/-- The limit is hit on a full stack, which a strict check rules out. -/
theorem limit_full (h : Stands frame blocks locals ts depth s) (hfull : s.ctx.pos ≥ s.ctx.fin)
    (hroom : strict = true → ts.length < fwMaxStackSize) :
    strict = false ∧ depth = fwMaxStackSize := by
  have hpos := h.pos_eq
  obtain ⟨hle, hfin⟩ := h.inBounds
  refine ⟨?_, by rw [h.depth, ← hfin]; exact Nat.le_antisymm hle hfull⟩
  cases strict with
  | false => rfl
  | true =>
    have := hroom rfl
    omega

theorem push_tags (st : Slot) (hroom : strict = true → ts.length < fwMaxStackSize) :
    Retags strict frame blocks locals ts (fwPush st) (st.type :: ts) := by
  intro depth s hs
  rw [fwPush_apply]
  split
  · next hfull =>
    have hlimit := limit_full hs hfull hroom
    exact ⟨⟨hlimit, trivial⟩, hlimit.1, rfl⟩
  · next hlt =>
    refine ⟨⟨trivial, trivial⟩, ?_, rfl, ⟨?_, hs.inBounds.2⟩, hs.blocks, hs.locals, hs.frame⟩
    · rw [Ctx.tags_push, hs.tags]
    · exact Nat.not_le.mp hlt

theorem room_tags (hroom : strict = true → ts.length < fwMaxStackSize) :
    Retags strict frame blocks locals ts fwPushRoom ts := by
  intro depth s hs
  rw [fwPushRoom_apply]
  split
  · next hfull =>
    have hlimit := limit_full hs hfull hroom
    exact ⟨⟨hlimit, trivial⟩, hlimit.1, rfl⟩
  · exact ⟨trivial, hs⟩

/-- A pop of an operand that is there returns a slot with its tag. -/
theorem pop_tags : Triple (tagMonitor strict) (Stands frame blocks locals (t :: ts)) (fwPop false)
    (fun st depth s => st.type = t ∧ Stands frame blocks locals ts depth s) (AtLimit strict) := by
  intro depth s hs
  obtain ⟨hne, htype, htags⟩ := Ctx.tags_eq_cons hs.tags
  rw [fwPop_of_ne hne]
  exact ⟨⟨trivial, trivial⟩, htype, htags, rfl,
    ⟨(Nat.sub_le _ _).trans hs.inBounds.1, hs.inBounds.2⟩, hs.blocks, hs.locals, hs.frame⟩

theorem peek_tags : Retags strict frame blocks locals (t :: ts) (fwPop true) (t :: ts) := by
  intro depth s hs
  rw [fwPop_apply, if_neg (Ctx.tags_eq_cons hs.tags).1]
  exact ⟨⟨trivial, trivial⟩, hs.tags, rfl, hs.inBounds, hs.blocks, hs.locals, hs.frame⟩

theorem get_tags (hidx : idx < ts.length) :
    Retags strict frame blocks locals ts (fwStackGet idx) ts := by
  intro depth s hs
  rw [fwStackGet_apply, if_neg (Nat.not_le.mpr (hs.pos_eq ▸ hidx))]
  exact ⟨⟨trivial, trivial⟩, hs.tags, rfl, hs.inBounds, hs.blocks, hs.locals, hs.frame⟩

/-! ## Locals

A block has a size, which no write changes. An index below it is read and written without a fault.
-/

theorem read_tags (hlocals : HasLocals blocks locals n) (hidx : idx < n) :
    Retags strict frame blocks locals ts (fwLocalsRead idx) ts := by
  intro depth s hs
  obtain ⟨id, hid, hblock⟩ := hlocals idx hidx
  obtain ⟨b, hb, hlen⟩ := hs.blocks id n hblock
  obtain ⟨v, hv⟩ : ∃ v, b.locals[idx]? = some v :=
    ⟨_, List.getElem?_eq_getElem (hlen ▸ hidx)⟩
  have hread : fwLocalsRead idx s = ⟨[], .ok (v, s)⟩ := by
    rw [fwLocalsRead, get_bind_apply, hs.locals, hid]
    simp only [hb, hv]
    rfl
  rw [hread]
  exact ⟨trivial, hs⟩

/-- A block that is written to keeps its size, and so do the others. -/
theorem blocks_write {id k : ℕ} {b b' : FwFuncLocals} (hb : s.block (some id) = some b)
    (hlen : b'.locals.length = b.locals.length)
    (hk : ∃ c, s.block (some k) = some c ∧ c.locals.length = n) :
    ∃ c, Machine.block { s with heap := s.heap.set id (some b') } (some k) = some c ∧
      c.locals.length = n := by
  obtain ⟨c, hc, rfl⟩ := hk
  simp only [Machine.block, Option.bind_some] at hb hc ⊢
  by_cases hid : id = k
  · subst hid
    obtain rfl : c = b := Option.some.inj (hc.symm.trans hb)
    obtain ⟨x, hx⟩ : ∃ x, s.heap[id]? = some x := by
      cases hx : s.heap[id]? with
      | none => rw [hx] at hb; cases hb
      | some x => exact ⟨x, rfl⟩
    refine ⟨b', ?_, hlen⟩
    rw [List.getElem?_set_self (List.getElem?_eq_some_iff.mp hx).1]
    rfl
  · rw [List.getElem?_set_ne hid]
    exact ⟨c, hc, rfl⟩

/-- A write to a local of a known block leaves the tags alone. -/
theorem write_tags {p : Option ℕ} (hlocals : HasLocals blocks p n) (hidx : idx < n)
    (val : UInt64) : Retags strict frame blocks locals ts (fwLocalsWrite p idx val) ts := by
  intro depth s hs
  obtain ⟨id, rfl, hblock⟩ := hlocals idx hidx
  obtain ⟨b, hb, hlen⟩ := hs.blocks id n hblock
  have hwrite : fwLocalsWrite (some id) idx val s = ⟨[], .ok (⟨⟩, { s with
      heap := s.heap.set id (some { b with locals := b.locals.set idx val }) })⟩ := by
    rw [fwLocalsWrite, get_bind_apply]
    simp only [hb]
    rw [if_pos (hlen ▸ hidx)]
    rfl
  rw [hwrite]
  exact ⟨trivial, hs.tags, hs.depth, hs.inBounds, fun k m hk =>
    blocks_write hb (List.length_set ..) (hs.blocks k m hk), hs.locals, hs.frame⟩

/-- A write through `ctx->locals`, when that is the block of the function. -/
theorem writeLocal_tags {α : Type} (hlocals : HasLocals blocks locals n) (hidx : idx < n)
    (val : UInt64) (a : α) : Retags strict frame blocks locals ts (do
      let s ← get
      fwLocalsWrite s.ctx.locals idx val
      pure a : Run α) ts := by
  refine Triple.get_bind fun s₀ => Triple.of_points fun depth s ⟨hs, heq⟩ => ?_
  rw [← heq, hs.locals]
  refine Triple.bind ((write_tags hlocals hidx val).pre ?_) fun _ => Triple.pure fun _ _ h => h
  rintro _ _ ⟨rfl, rfl⟩
  exact hs

/-! ## Straight-line instructions

Each handler does to the tags what the table of effects says. -/

/-- A straight-line handler does to the tags what the check says, whatever is below them. By cases
on the handler, and on the tags that it pops: the check fails where one of them is missing. -/
theorem leaf_tags {fn : RunFn} {imm tail ts' : List UInt8} (hlocals : HasLocals blocks locals n)
    (heffect : fn.effect n imm ts = some ts')
    (hroom : strict = true → (ts' ++ tail).length ≤ fwMaxStackSize) :
    Retags strict frame blocks locals (ts ++ tail) (fn.leafRun imm) (ts' ++ tail) := by
  have hpush : ∀ {ts : List UInt8} (st : Slot),
      (strict = true → (st.type :: ts ++ tail).length ≤ fwMaxStackSize) →
      Retags strict frame blocks locals (ts ++ tail) (do
        fwPush st
        pure Status.ok) (st.type :: ts ++ tail) := fun st hroom =>
    Triple.bind (push_tags st fun h => Nat.lt_of_succ_le (hroom h)) fun _ =>
      Triple.pure fun _ _ h => h
  cases fn with
  | block | loop | if_ | else_ | end_ | return_ | call => cases heffect
  | drop =>
    cases ts with
    | nil => cases heffect
    | cons t ts =>
      obtain rfl := Option.some.inj heffect
      exact Triple.bind pop_tags fun _ => Triple.pure fun _ _ h => h.2
  | select =>
    rcases ts with _ | ⟨c, _ | ⟨t₂, _ | ⟨t₁, ts⟩⟩⟩
    any_goals cases heffect
    obtain ⟨rfl, hts⟩ := Option.ite_none_right_eq_some.mp heffect
    obtain rfl := Option.some.inj hts
    refine Triple.bind pop_tags fun cond => Triple.of_and fun _ => ?_
    refine Triple.bind pop_tags fun val2 => Triple.of_and fun htype₂ => ?_
    refine Triple.bind pop_tags fun val1 => Triple.of_and fun htype₁ => ?_
    by_cases hcond : cond.val ≠ 0
    · simp only [if_pos hcond, ← htype₁] at hroom ⊢
      exact hpush val1 hroom
    · simp only [if_neg hcond, ← htype₂] at hroom ⊢
      exact hpush val2 hroom
  | localGet =>
    obtain ⟨hidx, hts⟩ := Option.ite_none_right_eq_some.mp heffect
    obtain rfl := Option.some.inj hts
    exact Triple.bind (room_tags fun h => Nat.lt_of_succ_le (hroom h)) fun _ =>
      Triple.bind (read_tags hlocals hidx) fun val => hpush (.plain fwI32 val) hroom
  | localSet =>
    cases ts with
    | nil => cases heffect
    | cons t ts =>
      obtain ⟨hidx, hts⟩ := Option.ite_none_right_eq_some.mp heffect
      obtain rfl := Option.some.inj hts
      exact Triple.bind pop_tags fun cur => Triple.of_and fun _ =>
        writeLocal_tags hlocals hidx cur.val Status.ok
  | localTee =>
    cases ts with
    | nil => cases heffect
    | cons t ts =>
      obtain ⟨hidx, hts⟩ := Option.ite_none_right_eq_some.mp heffect
      obtain rfl := Option.some.inj hts
      exact Triple.bind peek_tags fun cur => writeLocal_tags hlocals hidx cur.val Status.ok
  | i32Const | i64Const | f32Const | f64Const =>
    obtain rfl := Option.some.inj heffect
    exact hpush (.plain _ _) hroom
  | i32Eqz =>
    cases ts with
    | nil => cases heffect
    | cons t ts =>
      obtain rfl := Option.some.inj heffect
      exact Triple.bind pop_tags fun c1 => Triple.of_and fun _ => hpush (.ofBool _) hroom
  | i32Eq | gtS =>
    rcases ts with _ | ⟨t₂, _ | ⟨t₁, ts⟩⟩
    any_goals cases heffect
    exact Triple.bind pop_tags fun c2 => Triple.of_and fun _ =>
      Triple.bind pop_tags fun c1 => Triple.of_and fun _ => hpush (.ofBool _) hroom
  | i32Ne =>
    rcases ts with _ | ⟨t₂, _ | ⟨t₁, ts⟩⟩
    any_goals cases heffect
    obtain ⟨⟨rfl, rfl⟩, hts⟩ := Option.ite_none_right_eq_some.mp heffect
    obtain rfl := Option.some.inj hts
    refine Triple.bind pop_tags fun c2 => Triple.of_and fun htype₂ => ?_
    refine Triple.bind pop_tags fun c1 => Triple.of_and fun htype₁ => ?_
    rw [if_neg (by rw [htype₁, htype₂]; simp)]
    exact hpush (.ofBool _) hroom

/-! ## Host functions

The tags of the arguments are compared with the types of the parameters, from the last one down. -/

/-- Arguments of the types of the parameters are popped. -/
theorem popArgs_tags (ft : FwModuleType) :
    ∀ (n : ℕ) (args : List UInt64), n ≤ ft.val.length →
      Triple (tagMonitor strict) (Stands frame blocks locals ((ft.val.take n).reverse ++ ts))
        (fwPopArgs ft n args)
        (fun r depth s => ∃ args', r = some args' ∧ args'.length = n + args.length ∧
          Stands frame blocks locals ts depth s) (AtLimit strict)
  | 0, args, _ => Triple.pure fun _ _ h => ⟨args, rfl, (Nat.zero_add _).symm, h⟩
  | n + 1, args, hn => by
    obtain ⟨type, htype⟩ : ∃ type, ft.val[n]? = some type := ⟨_, List.getElem?_eq_getElem hn⟩
    have htake : (ft.val.take (n + 1)).reverse ++ ts =
        type :: ((ft.val.take n).reverse ++ ts) := by
      rw [List.take_add_one, htype, List.reverse_append]
      rfl
    rw [fwPopArgs, htake]
    refine Triple.bind pop_tags fun st => Triple.of_and fun hst => ?_
    simp only [htype]
    rw [if_neg (not_not.mpr hst)]
    refine (popArgs_tags ft n (st.val :: args) (Nat.le_of_succ_le hn)).post ?_
    rintro _ _ _ ⟨args', rfl, hlen, h⟩
    exact ⟨args', rfl, by rw [hlen, List.length_cons]; omega, h⟩

/-- The results are pushed with the type of the first one. -/
theorem pushRets_tags (ft : FwModuleType) (rets : ℕ → UInt64) :
    ∀ (n i : ℕ) (ts : List UInt8), (n ≠ 0 → ft.val[ft.paramCnt.toNat]? = some t) →
      (strict = true → n + ts.length ≤ fwMaxStackSize) →
      Retags strict frame blocks locals ts (fwPushRets ft rets n i) (List.replicate n t ++ ts)
  | 0, _, _, _, _ => Triple.pure fun _ _ h => h
  | n + 1, i, ts, htype, hroom => by
    have htype := htype (Nat.succ_ne_zero n)
    have hsplit : List.replicate (n + 1) t ++ ts = List.replicate n t ++ t :: ts := by
      rw [List.replicate_succ', List.append_assoc]
      rfl
    rw [fwPushRets, hsplit]
    simp only [htype]
    refine Triple.bind (push_tags (.plain t (rets i)) fun h => ?_) fun _ =>
      pushRets_tags ft rets n (i + 1) (t :: ts) (fun _ => htype) fun h => ?_
    · have := hroom h
      omega
    · have := hroom h
      rw [List.length_cons]
      omega

/-- A host function takes arguments of the types of its parameters, and leaves its results. The
check asks for at most 20 parameters and the types of all of them, so none of the error paths is
taken. -/
theorem hostFunc_tags {env : Env} {func : FwModuleFunc} {addr : ℕ} {sig : Sig}
    {tail ts' : List UInt8} (hhost : func.hostAddr = some addr)
    (heffect : func.effect sig ts = some ts')
    (hroom : strict = true → (ts' ++ tail).length ≤ fwMaxStackSize) :
    Triple (tagMonitor strict) (Stands frame blocks locals (ts ++ tail))
      (fwModuleRunHostFunc env func addr)
      (fun status depth s => status = .ok ∧ Stands frame blocks locals (ts' ++ tail) depth s)
      (AtLimit strict) := by
  simp only [FwModuleFunc.effect, hhost, reduceCtorEq, if_false] at heffect
  obtain ⟨⟨hp, hval, htypes⟩, hts⟩ := Option.ite_none_right_eq_some.mp heffect
  obtain rfl := Option.some.inj hts
  generalize hpdef : func.functype.paramCnt.toNat = p at *
  generalize hmdef : func.functype.resCnt.toNat = m at *
  have hsplit : ts ++ tail = (func.functype.val.take p).reverse ++ (ts.drop p ++ tail) := by
    rw [← htypes, ← List.append_assoc, List.take_append_drop]
  have htype : m ≠ 0 → func.functype.val[func.functype.paramCnt.toNat]? =
      some (func.functype.val.getD p 0) := by
    intro hm
    have hlt : p < func.functype.val.length := by omega
    rw [hpdef, List.getD_eq_getElem?_getD, List.getElem?_eq_getElem hlt]
    rfl
  rw [fwModuleRunHostFunc, hsplit]
  simp only [hpdef, hmdef]
  refine Triple.bind (popArgs_tags func.functype p [] (Nat.le_trans (Nat.le_add_right ..) hval))
    fun r => Triple.of_exists fun args => Triple.of_and ?_
  rintro rfl
  refine Triple.of_and fun hlen => ?_
  have hcall : ∀ k, _fwModuleRunHostFunc env k addr m args = (do
      emit (.host addr args)
      pure (some (if m ≠ 0 then Function.update (env.rets k) 0 (env.host k addr args)
        else env.rets k))) := by
    intro k
    rw [_fwModuleRunHostFunc, fwHostArgs_eq, if_pos (by rw [hlen]; simpa using hp)]
  refine Triple.bind (R := fun _ => Stands frame blocks locals (ts.drop p ++ tail)) ?_ fun k => ?_
  · intro depth s hs
    rw [nextTick_apply]
    exact ⟨trivial, hs.tags, hs.depth, hs.inBounds, hs.blocks, hs.locals, hs.frame⟩
  · rw [hcall, Logged.bind_assoc]
    refine Triple.emit_bind (fun _ _ h => ⟨trivial, h⟩) ?_
    rw [pure_bind]
    refine Triple.bind (pushRets_tags func.functype _ m 0 _ htype fun h => ?_) fun _ =>
      Triple.pure fun _ _ h => ⟨rfl, by rwa [List.append_assoc]⟩
    have hfits := hroom h
    rwa [List.append_assoc, List.length_append, List.length_replicate] at hfits

/-! ## Returns

The results are moved to the depth of the frame, so the tags below that depth are those from before
the function was entered. -/

theorem moveRets_logs :
    ∀ n oldpos i, Triple (tagMonitor strict) (fun _ _ => True) (fwMoveRets n oldpos i)
      (fun _ _ _ => True) (AtLimit strict)
  | 0, _, _ => Triple.pure fun _ _ _ => trivial
  | n + 1, oldpos, i => by
    refine Triple.bind (R := fun _ _ _ => True) (fun depth s _ => ?_) fun _ =>
      moveRets_logs n (oldpos + 1) (i + 1)
    rw [fwStackCopy_apply]
    exact ⟨⟨trivial, trivial, trivial⟩, trivial⟩

/-- The log of a `return` has no error path and does not hit the limit. -/
theorem return_logs (func : FwModuleFunc) (body : FwStr) :
    Triple (tagMonitor strict) (fun _ _ => True) (fwInstrRunReturn func body)
      (fun _ depth s => depth = s.ctx.pos) (AtLimit strict) := by
  have hmoves : ∀ oldpos i, Triple (tagMonitor strict) (fun _ _ => True) (fwMoveRetsTo oldpos i)
      (fun _ _ _ => True) (AtLimit strict) := by
    intro oldpos i
    rw [fwMoveRetsTo]
    by_cases hne : i ≠ oldpos
    · rw [if_pos hne]
      exact Triple.get_bind fun s₀ => Triple.bind
        ((moveRets_logs _ _ _).pre fun _ _ _ => trivial) fun _ => Triple.get_bind fun s₁ =>
          Triple.set fun _ _ _ => trivial
    · rw [if_neg hne]
      exact Triple.pure fun _ _ _ => trivial
  refine Triple.get_bind fun s₀ => Triple.bind ((hmoves _ _).pre fun _ _ _ => trivial) fun _ =>
    Triple.get_bind fun s₁ => Triple.emit_bind (R := fun depth s => depth = s.ctx.pos) ?_
      (Triple.pure fun _ _ h => h)
  rintro depth s ⟨-, rfl⟩
  exact ⟨trivial, rfl⟩

/-- A `return` in a function that was entered at a depth below 256 and called no other one yet. The
frame is its own then, and its depth fits the `uint8_t`, so the results are moved down to where the
arguments ended. -/
theorem return_tags {func : FwModuleFunc} {tail : List UInt8} (body : FwStr)
    (hframe : ∀ f, frame f → f = ⟨func.body.last, UInt8.ofNat tail.length⟩)
    (hdepth : tail.length < 256) (hres : func.functype.resCnt.toNat ≤ ts.length) :
    Retags strict frame blocks locals (ts ++ tail) (fwInstrRunReturn func body)
      (ts.take func.functype.resCnt.toNat ++ tail) := by
  intro depth s hs
  have hpos : s.ctx.pos = ts.length + tail.length := by rw [hs.pos_eq, List.length_append]
  have hle : tail.length + func.functype.resCnt.toNat ≤ s.ctx.pos := by omega
  have hmax : s.ctx.pos < 2 ^ 32 :=
    lt_of_le_of_lt (hs.inBounds.1.trans_eq hs.inBounds.2) (by decide)
  obtain ⟨body', s', hrun, hrel⟩ :=
    (relocates_iff_of_frame body (by rw [hframe _ hs.frame]) hle hmax).mpr hdepth
  obtain ⟨hacc, hends⟩ := @return_logs strict func body depth s trivial
  have hin : s'.ctx.InBounds := (Triple.ok return_stack ⟨(rfl : false = false), hs.inBounds⟩ hrun).2
  rw [hrun] at hends ⊢
  -- the tags below the results are those that were there when the function was entered
  have htags : s'.ctx.tags = ts.take func.functype.resCnt.toNat ++ tail := by
    have hbelow : tagsBelow s.ctx.stack tail.length = tail := by
      have hsplit := tagsBelow_add s.ctx.stack tail.length ts.length
      rw [Nat.add_comm, ← hpos, ← Ctx.tags, hs.tags] at hsplit
      exact (List.append_inj_right hsplit (by simp)).symm
    rw [Ctx.tags_relocated hrel hle, hs.tags, hbelow, List.take_append_of_le_length hres]
  have hoff : s'.offStack = s.offStack := by
    obtain ⟨i, hi⟩ := fwInstrRunReturn_apply func s
    rw [hi] at hrun
    obtain ⟨_, s₁, hmove, h, -⟩ := bind_eq_ok hrun
    obtain ⟨-, rfl⟩ := Prod.mk.inj (Except.ok.inj h)
    exact (StackOnly.moveRetsTo _ _).ok hmove
  obtain ⟨hframe', hoff⟩ := Prod.mk.inj hoff
  obtain ⟨hlocals', hheap⟩ := Prod.mk.inj hoff
  refine ⟨hacc, htags, hends, hin, ?_, hlocals'.trans hs.locals, ?_⟩
  · intro id n hid
    obtain ⟨b, hb, hlen⟩ := hs.blocks id n hid
    exact ⟨b, by rw [Machine.block, hheap]; exact hb, hlen⟩
  · rw [hframe']
    exact hs.frame

/-! ## Entering and leaving a function

A block is put into use and taken out of it again, and those of the callers stay. -/

/-- The blocks in use with the one of the running function, if it has one. -/
def withOwn (blocks : ℕ → Option ℕ) (own : Option ℕ) (n : ℕ) : ℕ → Option ℕ :=
  own.elim blocks fun id => Function.update blocks id (some n)

/-- The block of a function with that many locals: a new one, and none when there are no locals. -/
structure Owned (blocks : ℕ → Option ℕ) (n : ℕ) (own : Option ℕ) : Prop where
  /-- it is not in use yet -/
  fresh : ∀ id, own = some id → blocks id = none
  /-- without a block there are no locals -/
  empty : own = none → n = 0

theorem Owned.hasLocals {own : Option ℕ} (h : Owned blocks n own) :
    HasLocals (withOwn blocks own n) own n := by
  intro i hi
  cases own with
  | none => exact absurd (h.empty rfl) (Nat.ne_zero_of_lt hi)
  | some id => exact ⟨id, rfl, Function.update_self ..⟩

/-- The other blocks stay in use, since the new one was not. -/
theorem Owned.kept {own : Option ℕ} (h : Owned blocks n own) {id m : ℕ}
    (hid : blocks id = some m) : withOwn blocks own n id = some m := by
  cases own with
  | none => exact hid
  | some id' =>
    refine (Function.update_of_ne ?_ ..).trans hid
    rintro rfl
    rw [h.fresh id rfl] at hid
    cases hid

theorem calloc_tags : Triple (tagMonitor strict) (Stands frame blocks locals ts) (fwLocalsCalloc n)
    (fun id depth s => Owned blocks n (some id) ∧
      Stands frame (withOwn blocks (some id) n) locals ts depth s) (AtLimit strict) := by
  intro depth s hs
  have hfresh : ∀ k, blocks k ≠ none → k < s.heap.length := by
    intro k hk
    obtain ⟨m, hm⟩ := Option.ne_none_iff_exists'.mp hk
    obtain ⟨b, hb, -⟩ := hs.blocks k m hm
    refine Nat.lt_of_not_le fun hle => ?_
    rw [Machine.block, Option.bind_some, List.getElem?_eq_none hle] at hb
    cases hb
  rw [fwLocalsCalloc_apply]
  refine ⟨⟨trivial, trivial⟩, ⟨?_, by rintro ⟨⟩⟩, hs.tags, hs.depth, hs.inBounds, ?_, hs.locals,
    hs.frame⟩
  · rintro id ⟨⟩
    exact not_not.mp fun h => absurd (hfresh _ h) (Nat.lt_irrefl _)
  · intro k m hk
    change Function.update blocks s.heap.length (some n) k = some m at hk
    by_cases heq : k = s.heap.length
    · subst heq
      rw [Function.update_self] at hk
      obtain rfl := Option.some.inj hk
      refine ⟨⟨n, List.replicate n 0⟩, ?_, List.length_replicate⟩
      rw [Machine.block, Option.bind_some, List.getElem?_concat_length]
      rfl
    · rw [Function.update_of_ne heq] at hk
      obtain ⟨b, hb, hlen⟩ := hs.blocks k m hk
      refine ⟨b, ?_, hlen⟩
      have hlt := hfresh k (by rw [hk]; rintro ⟨⟩)
      rw [Machine.block, Option.bind_some, List.getElem?_append_left hlt]
      exact hb

/-- Without locals there is no block, when an indeterminate pointer happens to be `NULL`; with
locals a new block has as many. -/
theorem initLocals_tags {env : Env} {func : FwModuleFunc}
    (hnull : func.localsCnt = 0 → ∀ k, env.uninit k = none) :
    Triple (tagMonitor strict) (Stands frame blocks locals ts) (fwInitLocals env func)
      (fun own depth s => Owned blocks func.localsCnt own ∧
        Stands frame (withOwn blocks own func.localsCnt) locals ts depth s) (AtLimit strict) := by
  rw [fwInitLocals]
  by_cases hcnt : func.localsCnt ≠ 0
  · rw [if_pos hcnt]
    exact Triple.bind calloc_tags fun id => Triple.pure fun _ _ h => h
  · rw [if_neg hcnt]
    have hcnt := not_not.mp hcnt
    refine Triple.bind (R := fun _ => Stands frame blocks locals ts) ?_ fun k =>
      Triple.emit_bind (R := Stands frame blocks locals ts) (fun _ _ h => ⟨trivial, h⟩)
        (Triple.pure fun depth s h => ?_)
    · intro depth s hs
      rw [nextTick_apply]
      exact ⟨trivial, hs.tags, hs.depth, hs.inBounds, hs.blocks, hs.locals, hs.frame⟩
    · rw [hnull hcnt k]
      exact ⟨⟨by rintro _ ⟨⟩, fun _ => hcnt⟩, h⟩

/-- The arguments are there, and there is room for them. -/
theorem copyParams_tags {p : Option ℕ} {paramCnt : ℕ} (hlocals : HasLocals blocks p n)
    (hparams : paramCnt ≤ n) (hargs : paramCnt ≤ ts.length) :
    ∀ i ≤ paramCnt, Retags strict frame blocks locals ts (fwCopyParams p paramCnt i) ts
  | 0, _ => Triple.pure fun _ _ h => h
  | i + 1, hi => Triple.bind (get_tags (Nat.lt_of_lt_of_le hi hargs)) fun param =>
      Triple.bind (write_tags hlocals (by omega) param.val) fun _ =>
        copyParams_tags hlocals hparams hargs i (Nat.le_of_succ_le hi)

/-- A function is entered on its arguments, which are copied into its block and stay on the stack.
-/
theorem enterFunc_tags {env : Env} {func : FwModuleFunc}
    (hnull : func.localsCnt = 0 → ∀ k, env.uninit k = none)
    (hparams : func.functype.paramCnt.toNat ≤ func.localsCnt)
    (hargs : func.functype.paramCnt.toNat ≤ ts.length) :
    Triple (tagMonitor strict) (Stands frame blocks locals ts) (fwEnterFunc env func)
      (fun save depth s => ∃ own, save = locals ∧ Owned blocks func.localsCnt own ∧
        Stands (fun f => f = ⟨func.body.last, UInt8.ofNat ts.length⟩)
          (withOwn blocks own func.localsCnt) own ts depth s) (AtLimit strict) := by
  refine Triple.bind (initLocals_tags hnull) fun own => Triple.of_and fun hown => ?_
  refine Triple.bind (copyParams_tags hown.hasLocals hparams hargs _ (Nat.le_refl _)) fun _ =>
    Triple.get_bind fun s₀ => Triple.of_points fun depth s ⟨hs, heq⟩ => ?_
  subst heq
  refine Triple.emit_bind (R := fun depth' s' => depth' = depth ∧ s' = s)
    (fun _ _ h => ⟨trivial, h⟩) (Triple.bind (R := fun _ depth' s' => Stands
      (fun f => f = ⟨func.body.last, UInt8.ofNat ts.length⟩) (withOwn blocks own func.localsCnt)
      own ts depth' s') (Triple.set ?_) fun _ => Triple.pure fun _ _ h => ⟨own, hs.locals, hown, h⟩)
  rintro _ _ ⟨rfl, rfl⟩
  exact ⟨hs.tags, hs.depth, hs.inBounds, hs.blocks, rfl, by rw [hs.pos_eq]⟩

/-- The block of a function is freed, and the others stay. -/
theorem freeOwn_tags {own : Option ℕ} (hown : Owned blocks n own) :
    Triple (tagMonitor strict) (Stands frame (withOwn blocks own n) locals ts) (fwLocalsFreeIf own)
      (fun _ => Stands frame blocks locals ts) (AtLimit strict) := by
  cases own with
  | none => exact Triple.pure fun _ _ h => h
  | some id =>
    intro depth s hs
    obtain ⟨b, hb, -⟩ := hs.blocks id n (Function.update_self ..)
    rw [fwLocalsFreeIf, fwLocalsFree_apply, hb]
    refine ⟨⟨trivial, trivial⟩, hs.tags, hs.depth, hs.inBounds, fun k m hk => ?_, hs.locals,
      hs.frame⟩
    have hne : id ≠ k := by
      rintro rfl
      rw [hown.fresh id rfl] at hk
      cases hk
    obtain ⟨c, hc, hlen⟩ := hs.blocks k m (hown.kept hk)
    refine ⟨c, ?_, hlen⟩
    rw [Machine.block, Option.bind_some, List.getElem?_set_ne hne]
    exact hc

/-- A function is left at the end of its body, and its block is freed. -/
theorem leaveFunc_tags {own save : Option ℕ} (hown : Owned blocks n own) (last : ℕ) :
    Triple (tagMonitor strict) (Stands frame (withOwn blocks own n) own ts)
      (fwLeaveFunc save (.done ⟨last, last⟩))
      (fun status depth s => status = .ok ∧ Stands frame blocks save ts depth s)
      (AtLimit strict) := by
  refine Triple.get_bind fun s₀ => Triple.of_points fun depth s ⟨hs, heq⟩ => ?_
  rw [← heq, hs.locals]
  refine Triple.bind (R := fun _ => Stands frame blocks own ts) ((freeOwn_tags hown).pre ?_)
    fun _ => Triple.get_bind fun s₁ => Triple.of_points fun depth₁ s₁' ⟨hs₁, heq₁⟩ => ?_
  · rintro _ _ ⟨rfl, rfl⟩
    exact hs
  · subst heq₁
    refine Triple.bind (R := fun _ => Stands frame blocks save ts) (Triple.set ?_) fun _ => ?_
    · rintro _ _ ⟨rfl, rfl⟩
      exact ⟨hs₁.tags, hs₁.depth, hs₁.inBounds, hs₁.blocks, rfl, hs₁.frame⟩
    · rw [if_neg (not_not.mpr rfl)]
      exact Triple.emit_bind (fun _ _ h => ⟨trivial, h⟩) (Triple.pure fun _ _ h => ⟨rfl, h⟩)

end

end FastWasm
