import FastWasm.Run

/-!
# Comparisons of 32-bit integers

A slot holds a 32-bit integer as a `uint64_t` below 2^32. To `i32.eqz`, `i32.eq` and `i32.ne` that
makes no difference. `fw_instr_run_gt_s` compares the `uint64_t` values, which is the signed order
exactly for operands of the same sign (`i32_compares_iff`).

What a comparison should do is said of every stack with the operands on top (`Compares`), with
nothing assumed of what lies below and of where the cursor is. The handlers are evaluated once on
such a stack; what remains is the order of `UInt32` against that of the signed number in it.
-/

namespace FastWasm

open Logged

/-! ## What a comparison should do

Said for every stack and every cursor, as a relation between the machine before and the outcome. -/

/-- The slot is the 32-bit integer `a`: tagged as an `i32`, with the value in its low half and
nothing above. -/
def Slot.HoldsI32 (st : Slot) (a : UInt32) : Prop := st.type = fwI32 ∧ st.val = a.toUInt64

/-- The top of the stack is these 32-bit integers, the one pushed first in front; the stack beneath
them is any. The slots are tagged as `i32`, and there are no more than the stack has room for. -/
structure Machine.Operands (s : Machine) (vals : List UInt32) : Prop where
  /-- the stack is within its capacity -/
  bounded : s.ctx.pos ≤ s.ctx.fin
  /-- the operands are there -/
  enough : vals.length ≤ s.ctx.pos
  /-- each of them in its slot -/
  holds : ∀ i (h : i < vals.length), (s.ctx.stack (s.ctx.pos - vals.length + i)).HoldsI32 vals[i]

/-- A handler has popped `n` operands and pushed 1 if `rel` and 0 if not, and has left the rest of
the machine and the cursor as they were. It has returned, with the status `FW_OK`. -/
def Compares (n : ℕ) (rel : Prop) (body : FwStr) (s : Machine)
    (res : Except Halt ((Status × FwStr) × Machine)) : Prop :=
  ∃ (ctx : Ctx) (b : Bool), res = .ok ((.ok, body), { s with ctx := ctx }) ∧
    ctx.pos = s.ctx.pos - n + 1 ∧ (b = true ↔ rel) ∧
    ctx.stack (s.ctx.pos - n) = .plain fwI32 (if b then 1 else 0) ∧
    (∀ i < s.ctx.pos - n, ctx.stack i = s.ctx.stack i) ∧
    ctx.fin = s.ctx.fin ∧ ctx.locals = s.ctx.locals ∧ ctx.frame = s.ctx.frame

/-- The comparisons of two 32-bit integers, on every stack that has them on top: `i32.eqz` of
either, and `i32.eq`, `i32.ne` and `i32.gt_s` of the two in their order. -/
structure I32Compares (a b : UInt32) : Prop where
  /-- `i32.eqz` -/
  eqz : ∀ s body, s.Operands [a] → Compares 1 (a = 0) body s (fwInstrRunI32Eqz body s).res
  /-- `i32.eq` -/
  eq : ∀ s body, s.Operands [a, b] → Compares 2 (a = b) body s (fwInstrRunI32Eq body s).res
  /-- `i32.ne` -/
  ne : ∀ s body, s.Operands [a, b] → Compares 2 (a ≠ b) body s (fwInstrRunI32Ne body s).res
  /-- `i32.gt_s` -/
  gtS : ∀ s body, s.Operands [a, b] →
    Compares 2 (a.toInt32 > b.toInt32) body s (fwInstrRunGtS body s).res

/-! ## What the handlers do

`i32.eqz` pops one operand and the others two. A push behind a pop has room, so with enough operands
none of them fails. -/

section Handlers

variable {s : Machine} {body : FwStr} {a b : UInt32} {rel : Prop} {c : Bool}

/-- The second operand is on top, and the first one below it. -/
theorem Machine.Operands.top (h : s.Operands [a, b]) :
    2 ≤ s.ctx.pos ∧ (s.ctx.stack (s.ctx.pos - 1)).HoldsI32 b ∧
      (s.ctx.stack (s.ctx.pos - 2)).HoldsI32 a := by
  have hpos : 2 ≤ s.ctx.pos := h.enough
  have hb := h.holds 1 (Nat.lt_succ_self 1)
  have hsub : s.ctx.pos - 2 + 1 = s.ctx.pos - 1 := by omega
  rw [List.length_cons, List.length_singleton, hsub] at hb
  exact ⟨hpos, hb, h.holds 0 Nat.two_pos⟩

/-- The push of the outcome, once the operands are popped. -/
theorem compares_push {n : ℕ} {ctx : Ctx} (hctx : ctx = { s.ctx with pos := s.ctx.pos - n })
    (hlt : s.ctx.pos - n < s.ctx.fin) :
    Compares n rel body s ((fwPush (.ofBool c) >>= fun _ => pure (Status.ok, body) :
      Run (Status × FwStr)) { s with ctx := ctx }).res ↔ (c = true ↔ rel) := by
  subst hctx
  rw [bind_eq (fwPush_of_lt hlt _)]
  refine ⟨?_, ?_⟩
  · rintro ⟨ctx, b, hres, -, hb, hslot, -⟩
    obtain ⟨-, hs⟩ := Prod.mk.inj (Except.ok.inj hres)
    obtain rfl : _ = ctx := congrArg Machine.ctx hs
    have hval := congrArg Slot.val hslot
    simp only [Ctx.push, Function.update_self, Slot.ofBool, Slot.plain] at hval
    rw [← hb]
    cases b <;> cases c <;> simp_all
  · intro hc
    refine ⟨_, c, rfl, rfl, hc, Function.update_self .., fun i hi => ?_, rfl, rfl, rfl⟩
    exact Function.update_of_ne hi.ne ..

/-- `i32.eqz` on an operand pushes whether it is 0. -/
theorem i32Eqz_compares (h : s.Operands [a]) :
    Compares 1 (a = 0) body s (fwInstrRunI32Eqz body s).res := by
  have hpos : 1 ≤ s.ctx.pos := h.enough
  have hfin := h.bounded
  have ha : (s.ctx.stack (s.ctx.pos - 1)).val = a.toUInt64 := (h.holds 0 Nat.one_pos).2
  rw [fwInstrRunI32Eqz, bind_eq (fwPop_of_ne (by omega))]
  refine (compares_push rfl (by omega)).mpr ?_
  rw [decide_eq_true_iff, ha]
  exact UInt32.toUInt64_inj (b := 0)

/-- What two operands are popped as: first the one on top, then the one below it, with the stack two
slots shorter behind. -/
theorem pop_pop (h : 2 ≤ s.ctx.pos) (f : Slot → Slot → Run (Status × FwStr)) :
    ((do let c2 ← fwPop false; let c1 ← fwPop false; f c1 c2) s).res =
      (f (s.ctx.stack (s.ctx.pos - 2)) (s.ctx.stack (s.ctx.pos - 1))
        { s with ctx := { s.ctx with pos := s.ctx.pos - 2 } }).res := by
  rw [bind_eq (fwPop_of_ne (by omega)), bind_eq (fwPop_of_ne (by simp only [Ctx.pop]; omega))]
  rfl

/-- `i32.eq` on two operands pushes whether they are equal, for all of their 64 bits are those of
the 32-bit integers. -/
theorem i32Eq_compares (h : s.Operands [a, b]) :
    Compares 2 (a = b) body s (fwInstrRunI32Eq body s).res := by
  obtain ⟨hpos, hb, ha⟩ := h.top
  have hfin := h.bounded
  rw [fwInstrRunI32Eq, pop_pop hpos]
  refine (compares_push rfl (by omega)).mpr ?_
  rw [decide_eq_true_iff, ha.2, hb.2, UInt32.toUInt64_inj, eq_comm]

/-- `i32.ne` on two operands pushes whether they differ. Their tags agree, which it compares as
well. -/
theorem i32Ne_compares (h : s.Operands [a, b]) :
    Compares 2 (a ≠ b) body s (fwInstrRunI32Ne body s).res := by
  obtain ⟨hpos, hb, ha⟩ := h.top
  have hfin := h.bounded
  rw [fwInstrRunI32Ne, pop_pop hpos, if_neg (by rw [ha.1, hb.1]; simp)]
  refine (compares_push rfl (by omega)).mpr ?_
  rw [decide_eq_true_iff, ha.2, hb.2, ne_eq, ne_eq, UInt32.toUInt64_inj]

/-- `fw_instr_run_gt_s` compares two operands as unsigned numbers: it decides `rel` of them if and
only if `rel` is that order. -/
theorem gtS_compares_iff (h : s.Operands [a, b]) :
    Compares 2 rel body s (fwInstrRunGtS body s).res ↔ (a > b ↔ rel) := by
  obtain ⟨hpos, hb, ha⟩ := h.top
  have hfin := h.bounded
  rw [fwInstrRunGtS, pop_pop hpos, compares_push rfl (by omega), decide_eq_true_iff, ha.2, hb.2]
  rw [gt_iff_lt, gt_iff_lt, UInt32.toUInt64_lt]

end Handlers

/-! ## Signed and unsigned order

A negative number is above every other one as an unsigned number. -/

/-- A 32-bit integer with a sign: the number itself below 2^31, and 2^32 less from there on. -/
theorem toInt_toInt32 (a : UInt32) :
    a.toInt32.toInt = if a.toNat < 2 ^ 31 then (a.toNat : ℤ) else a.toNat - 2 ^ 32 := by
  rw [← Int32.toInt_toBitVec, UInt32.toBitVec_toInt32, BitVec.toInt_eq_toNat_cond,
    UInt32.toNat_toBitVec]
  split <;> split <;> omega

/-- Signed and unsigned order agree exactly on integers of the same sign. With different signs the
unsigned order takes the negative one for the greater. -/
theorem gt_iff_toInt32_gt {a b : UInt32} :
    (a > b ↔ a.toInt32 > b.toInt32) ↔ (a.toInt32 < 0 ↔ b.toInt32 < 0) := by
  have ha := a.toNat_lt
  have hb := b.toNat_lt
  have h0 : (0 : Int32).toInt = 0 := rfl
  rw [gt_iff_lt, gt_iff_lt, UInt32.lt_iff_toNat_lt, Int32.lt_iff_toInt_lt, Int32.lt_iff_toInt_lt,
    Int32.lt_iff_toInt_lt, h0, toInt_toInt32, toInt_toInt32]
  split <;> split <;> omega

/-- A machine with nothing but two 32-bit integers on its stack. -/
def twoOperands (a b : UInt32) : Machine where
  ctx := ⟨Function.update (fun _ => .plain fwI32 b.toUInt64) 0 (.plain fwI32 a.toUInt64), 2, 2,
    none, ⟨0, 0⟩⟩
  heap := []
  tick := 0

theorem twoOperands_operands (a b : UInt32) : (twoOperands a b).Operands [a, b] where
  bounded := le_rfl
  enough := le_rfl
  holds
    | 0, _ => ⟨rfl, rfl⟩
    | 1, _ => ⟨rfl, rfl⟩

/-- The comparisons of two 32-bit integers are right if and only if the integers have the same sign:
all but `i32.gt_s` always are. There is no hypothesis, the integers are any and so is the stack. -/
theorem i32_compares_iff (a b : UInt32) :
    I32Compares a b ↔ (a.toInt32 < 0 ↔ b.toInt32 < 0) := by
  refine ⟨?_, ?_⟩
  · intro h
    exact gt_iff_toInt32_gt.mp ((gtS_compares_iff (twoOperands_operands a b)).mp
      (h.gtS _ ⟨0, 0⟩ (twoOperands_operands a b)))
  · intro h
    exact ⟨fun s body => i32Eqz_compares, fun s body => i32Eq_compares,
      fun s body => i32Ne_compares,
      fun s body hs => (gtS_compares_iff hs).mpr (gt_iff_toInt32_gt.mpr h)⟩

/-- `i32.gt_s` finds -1 greater than 0, because 2^32 - 1 is. -/
theorem minusOne_not_compares :
    (twoOperands 0xffffffff 0).Operands [0xffffffff, 0] ∧
      ¬ Compares 2 ((0xffffffff : UInt32).toInt32 > (0 : UInt32).toInt32) ⟨0, 0⟩
        (twoOperands 0xffffffff 0) (fwInstrRunGtS ⟨0, 0⟩ (twoOperands 0xffffffff 0)).res := by
  refine ⟨twoOperands_operands _ _, fun h => ?_⟩
  have hgt := (gtS_compares_iff (twoOperands_operands 0xffffffff 0)).mp h
  exact absurd (hgt.mp (by decide)) (by decide)

end FastWasm
