import FastWasm.Calls
import FastWasm.Decode

/-!
# Integer constants

The immediates of `i32.const` and `i64.const` are signed numbers, and both handlers read them as
unsigned ones. Each byte is shifted as an `int`, whose bits from 31 on are alike, and by its
distance modulo 32.

An encoding of a negative number that does not use its last group has no sign when it is read so: -1
in one byte is 127. In five bytes the bits of an `i32` are all there. An `i64` has ten groups, and
the bytes from the sixth on are or-ed over the low bits, because a shift goes by the distance modulo
32; they do no harm when the bits there are set already.
-/

namespace FastWasm

open Logged Leb128

/-! ## The instructions

Both handlers read the number, and push it with the tag of their type. There is room for it or the
run ends, and the cursor moves in any case. -/

/-- A constant instruction has pushed `n` with `w` bits and the type `type`, and has moved the
cursor over `len` bytes. The rest of the machine is as it was. -/
def PushesConst (w : ℕ) (type : UInt8) (n : ℤ) (len : ℕ) (body : FwStr) (s : Machine)
    (res : Except Halt ((Status × FwStr) × Machine)) : Prop :=
  ∃ v : UInt64, (v.toNat : ℤ) = n % 2 ^ w ∧
    res = .ok ((.ok, ⟨body.pos + len, body.last⟩), { s with ctx := s.ctx.push (.plain type v) })

/-- A number that `fw_str_leb_getu64` reads right from `len` bytes: one of 31 bits, or a negative
one of 32 bits in at least five bytes, all ones where the bytes from the sixth on end up. -/
def GetuReads (n : ℤ) (len : ℕ) : Prop :=
  (0 ≤ n ∧ n < 2 ^ 31) ∨
    (-2 ^ 31 ≤ n ∧ n < 0 ∧ 5 ≤ len ∧ (2 : ℤ) ^ (7 * (len - 5)) ∣ n / 8 + 1)

section

variable {env : Env} {body : FwStr} {s : Machine} {n : ℤ} {bs : List UInt8}

theorem push_plain_inj {ctx : Ctx} {type : UInt8} {v v' : UInt64}
    (h : ctx.push (.plain type v) = ctx.push (.plain type v')) : v = v' := by
  have hslot := congrFun (congrArg Ctx.stack h) ctx.pos
  simp only [Ctx.push, Function.update_self] at hslot
  exact congrArg Slot.val hslot

/-- The number pushed is the one that was read, if there is room for it. -/
theorem pushesConst_iff {w len : ℕ} {type : UInt8} {val : UInt64} :
    PushesConst w type n len body s
        ((do fwPush (.plain type val); pure (.ok, ⟨body.pos + len, body.last⟩) :
          Run (Status × FwStr)) s).res ↔
      s.ctx.pos < s.ctx.fin ∧ (val.toNat : ℤ) = n % 2 ^ w := by
  rcases Nat.lt_or_ge s.ctx.pos s.ctx.fin with hlt | hge
  · rw [bind_eq (fwPush_of_lt hlt _)]
    refine ⟨?_, fun h => ⟨val, h.2, rfl⟩⟩
    rintro ⟨v, hv, hres⟩
    obtain ⟨-, hs⟩ := Prod.mk.inj (Except.ok.inj hres)
    rw [push_plain_inj (congrArg Machine.ctx hs)]
    exact ⟨hlt, hv⟩
  · rw [bind_of_error (congrArg Outcome.res (fwPush_of_ge hge _))]
    refine ⟨?_, fun h => absurd h.1 (Nat.not_lt.mpr hge)⟩
    rintro ⟨v, -, hres⟩
    cases hres

theorem i32Const_iff (hlt : body.pos < body.last) (hm : Holds env.mem body.pos bs)
    (hn : SignedSpells 32 n bs) :
    PushesConst 32 fwI32 n bs.length body s (fwInstrRunI32Const env body s).res ↔
      s.ctx.pos < s.ctx.fin ∧ (0 ≤ n ∨ bs.length = 5) := by
  obtain ⟨-, henc, rfl⟩ := hn
  rw [fwInstrRunI32Const, readLeb_of_got (getu_of_encoding body henc (by decide) hm hlt),
    pushesConst_iff, UInt32.toNat_toUInt64, low_lebBits_iff henc.1.ne_nil henc.2]

theorem i64Const_iff (hlt : body.pos < body.last) (hm : Holds env.mem body.pos bs)
    (hn : SignedSpells 64 n bs) :
    PushesConst 64 fwI64 n bs.length body s (fwInstrRunI64Const env body s).res ↔
      s.ctx.pos < s.ctx.fin ∧ GetuReads n bs.length := by
  obtain ⟨⟨hlow, hhigh⟩, henc, rfl⟩ := hn
  rw [fwInstrRunI64Const, readLeb_of_got (getu_of_encoding body henc (by decide) hm hlt),
    pushesConst_iff, lebBits_eq_iff hlow hhigh]
  refine and_congr_right fun _ => ?_
  rw [GetuReads]
  rcases Nat.lt_or_ge 5 bs.length with hlong | hshort
  · by_cases h32 : -2 ^ 31 ≤ signedValue bs ∧ signedValue bs < 2 ^ 31
    · rw [long_lebBits_iff hlong henc.2 h32.1 h32.2]
      omega
    · omega
  · rw [low_lebBits_iff henc.1.ne_nil hshort, Nat.sub_eq_zero_of_le hshort]
    simp only [Nat.mul_zero, pow_zero, one_dvd, and_true]
    omega

end

/-- When the constants are right, for every number and each of its encodings (`SignedSpells`): there
is room on the stack, and an `i32.const` is not negative or takes five bytes, an `i64.const` is one
that `fw_str_leb_getu64` reads right. The immediate lies at the cursor (`hm`), which is before
the end of its window (`hlt`). -/
theorem const_pushes_iff (env : Env) (body : FwStr) (s : Machine) (n : ℤ) (bs : List UInt8)
    (hlt : body.pos < body.last) (hm : Holds env.mem body.pos bs) :
    (SignedSpells 32 n bs →
      (PushesConst 32 fwI32 n bs.length body s (fwInstrRunI32Const env body s).res ↔
        s.ctx.pos < s.ctx.fin ∧ (0 ≤ n ∨ bs.length = 5))) ∧
    (SignedSpells 64 n bs →
      (PushesConst 64 fwI64 n bs.length body s (fwInstrRunI64Const env body s).res ↔
        s.ctx.pos < s.ctx.fin ∧ GetuReads n bs.length)) :=
  ⟨i32Const_iff hlt hm, i64Const_iff hlt hm⟩

/-- `i32.const -1` in five bytes pushes -1. -/
theorem minusOne_pushes :
    PushesConst 32 fwI32 (-1) 5 ⟨0, 5⟩ oneOperand
      (fwInstrRunI32Const (zeroEnv (memOf [0xff, 0xff, 0xff, 0xff, 0x7f]) []) ⟨0, 5⟩
        oneOperand).res :=
  ((const_pushes_iff (zeroEnv (memOf [0xff, 0xff, 0xff, 0xff, 0x7f]) []) ⟨0, 5⟩ oneOperand (-1)
    [0xff, 0xff, 0xff, 0xff, 0x7f] (by decide) (holds_memOf _)).1 (by decide)).mpr
      ⟨by decide, .inr rfl⟩

/-- `i32.const -1` in one byte pushes 127, since nothing extends its sign. -/
theorem shortMinusOne_not_pushes :
    SignedSpells 32 (-1) [0x7f] ∧ Holds (memOf [0x7f]) 0 [0x7f] ∧
      ¬ PushesConst 32 fwI32 (-1) 1 ⟨0, 1⟩ oneOperand
        (fwInstrRunI32Const (zeroEnv (memOf [0x7f]) []) ⟨0, 1⟩ oneOperand).res := by
  refine ⟨by decide, holds_memOf _, ?_⟩
  rintro ⟨v, hv, hres⟩
  obtain ⟨-, hs⟩ := Prod.mk.inj (Except.ok.inj hres)
  obtain rfl := push_plain_inj (congrArg Machine.ctx hs)
  revert hv
  decide

end FastWasm
