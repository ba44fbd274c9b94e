import FastWasm.Reader
import Mathlib.Algebra.BigOperators.Intervals
import Mathlib.Tactic.IntervalCases

/-!
# Decoding LEB128 numbers (`core/fw_str.h`)

What the readers make of encodings. `fw_str_leb_getu32` is right about every number
(`getu32_decodes`). The readers of 64 bits and of signed numbers shift each byte as an `int`, whose
bits from 31 on are alike, and by its distance modulo 32; they are right about some numbers
(`getu64_decodes_iff`, `gets_decodes_iff`).

Both are the same loop, which collects groups of seven bits, and stops at a byte without the high
bit. So the bits that it has collected are a function of the bytes (`lebBits`), and what is left is
arithmetic: the first five groups fill 32 bits and the sign that the `int` brings along, and the
groups from the sixth on come back to the low bits. A number is read right if these groups add
nothing there, and if the bits from the 32nd on happen to be those of the sign.
-/

namespace FastWasm

open Logged (Fallible)
open Logged.Fallible
open Leb128

variable {mem : Mem} {str : FwStr}

/-! ## The bits of a signed number

The readers shift an `int`, and extend it to 64 bits then. So what they have collected after five
bytes is an `int` made 64 bits wide, and it stays one: a later byte is shifted by its distance
modulo 32 and extended in the same way. -/

/-- An `int` made 64 bits wide: the bits from the 32nd on are those of bit 31. -/
def signExtend (x : UInt32) : UInt64 := x.toInt32.toInt64.toUInt64

theorem signExtend_or (x y : UInt32) : signExtend (x ||| y) = signExtend x ||| signExtend y := by
  apply UInt64.toBitVec_inj.mp
  simp [signExtend]

theorem toNat_signExtend (x : UInt32) :
    (signExtend x).toNat = if x.toNat < 2 ^ 31 then x.toNat else x.toNat + (2 ^ 64 - 2 ^ 32) := by
  have hx : (signExtend x).toNat = (x.toBitVec.signExtend 64).toNat := by
    simp [signExtend, ← UInt64.toNat_toBitVec]
  have hlt := x.toNat_lt
  rw [hx, BitVec.toNat_signExtend, BitVec.toNat_setWidth, BitVec.msb_eq_decide,
    UInt32.toNat_toBitVec, Nat.mod_eq_of_lt (by omega)]
  simp only [decide_eq_true_eq]
  split <;> split <;> omega

theorem toUInt32_of_signExtend (x : UInt32) : (signExtend x).toUInt32 = x := toUInt32_signExtend x

/-- The bits collected are those of an `int`, as long as they were at the start. -/
theorem lebBits_signExtend :
    ∀ (bs : List UInt8) (shift : UInt8) (x : UInt32), ∃ y,
      lebBits bs shift (signExtend x) = signExtend y
  | [], _, x => ⟨x, rfl⟩
  | b :: bs, shift, x => by
    obtain ⟨y, hy⟩ := lebBits_signExtend bs (shift + 7)
      (x ||| (b &&& 0x7f).toUInt32 <<< shift.toUInt32)
    exact ⟨y, by rw [lebBits, ← hy, signExtend_or]; rfl⟩

theorem lebBits_append (bs bs' : List UInt8) :
    ∀ (shift : UInt8) (res : UInt64), lebBits (bs ++ bs') shift res =
      lebBits bs' (shift + UInt8.ofNat (7 * bs.length)) (lebBits bs shift res) := by
  induction bs with
  | nil => intro shift res; simp [lebBits]
  | cons b bs ih =>
    intro shift res
    rw [List.cons_append, lebBits, ih, lebBits, List.length_cons, Nat.mul_succ, UInt8.ofNat_add,
      UInt8.add_assoc, UInt8.add_comm 7]
    rfl

/-- Only the digits of the bytes count, the low seven bits of each. -/
theorem lebBits_congr {bs bs' : List UInt8} (h : SameDigits bs bs') :
    ∀ (shift : UInt8) (res : UInt64), lebBits bs shift res = lebBits bs' shift res := by
  induction h with
  | nil => exact fun _ _ => rfl
  | @cons b b' bs bs' hb _ ih =>
    intro shift res
    have hdigit : b &&& 0x7f = b' &&& 0x7f := by
      apply UInt8.toNat_inj.mp
      rw [UInt8.toNat_and, UInt8.toNat_and]
      exact (Nat.and_two_pow_sub_one_eq_mod _ 7).trans
        (hb.trans (Nat.and_two_pow_sub_one_eq_mod _ 7).symm)
    rw [lebBits, ih, lebBits, intShl, intShl, hdigit]

/-- Bytes with one digit are as good as any other byte with it. -/
theorem lebBits_digits (c : UInt8) (bs : List UInt8) (shift : UInt8) (res : UInt64)
    (h : ∀ b ∈ bs, b.toNat % 128 = c.toNat % 128) :
    lebBits bs shift res = lebBits (List.replicate bs.length c) shift res := by
  refine lebBits_congr (List.forall₂_iff_get.mpr ⟨List.length_replicate.symm, ?_⟩) shift res
  intro i h₁ h₂
  rw [List.get_eq_getElem, List.get_eq_getElem, List.getElem_replicate]
  exact h _ (List.getElem_mem h₁)

/-- The bits collected for a signed number of 64 bits are its own if and only if it is one of 32
bits and the low 32 of them are its own. -/
theorem lebBits_eq_iff {bs : List UInt8} {n : ℤ} (hlow : -2 ^ 63 ≤ n) (hhigh : n < 2 ^ 63) :
    ((lebBits bs 0 0).toNat : ℤ) = n % 2 ^ 64 ↔
      (-2 ^ 31 ≤ n ∧ n < 2 ^ 31) ∧ ((lebBits bs 0 0).toUInt32.toNat : ℤ) = n % 2 ^ 32 := by
  obtain ⟨x, hx⟩ := lebBits_signExtend bs 0 0
  rw [show signExtend 0 = 0 from rfl] at hx
  have hlt := x.toNat_lt
  rw [hx, toNat_signExtend, toUInt32_of_signExtend]
  split <;> omega

/-- The low 32 bits of a number of at most five bytes. -/
theorem low_lebBits_iff {bs : List UInt8} (hbs : bs ≠ []) (hlen : bs.length ≤ 5) :
    ((lebBits bs 0 0).toUInt32.toNat : ℤ) = signedValue bs % 2 ^ 32 ↔
      0 ≤ signedValue bs ∨ bs.length = 5 := by
  have hval : (lebBits bs 0 0).toUInt32.toNat = value bs % 2 ^ 32 := by
    rw [toNat_lebBits (by change 0 + _ ≤ 35; omega) (by decide)]
    simp
  obtain ⟨heq, -⟩ := signedValue_eq hbs
  have hpos := List.length_pos_iff.mpr hbs
  rw [hval]
  push_cast
  rw [heq]
  by_cases hneg : signedValue bs < 0
  · rw [if_pos hneg]
    interval_cases bs.length <;> omega
  · rw [if_neg hneg]
    omega

/-- Bits that are or-ed over a number and were all in it. -/
theorem or_eq_left_iff (v j : ℕ) : v ||| (2 ^ j - 1) <<< 3 = v ↔ v / 2 ^ 3 % 2 ^ j = 2 ^ j - 1 := by
  refine ⟨fun h => Nat.eq_of_testBit_eq fun i => ?_, fun h => Nat.eq_of_testBit_eq fun i => ?_⟩
  · have hbit := congrArg (Nat.testBit · (i + 3)) h
    simp only [Nat.testBit_or, Nat.testBit_shiftLeft, Nat.testBit_two_pow_sub_one] at hbit
    rw [Nat.testBit_mod_two_pow, Nat.testBit_div_two_pow, Nat.testBit_two_pow_sub_one]
    by_cases hi : i < j <;> simp_all
  · rw [Nat.testBit_or, Nat.testBit_shiftLeft, Nat.testBit_two_pow_sub_one]
    by_cases hi : 3 ≤ i ∧ i - 3 < j
    · have hbit := congrArg (Nat.testBit · (i - 3)) h
      simp only [Nat.testBit_mod_two_pow, Nat.testBit_div_two_pow, Nat.testBit_two_pow_sub_one,
        Nat.sub_add_cancel hi.1] at hbit
      simp_all
    · rcases not_and_or.mp hi with hi | hi <;> simp [hi]

/-- What the bytes from the sixth on add is or-ed over the low bits, since their distances are taken
modulo 32. -/
theorem lebBits_or (bs : List UInt8) :
    ∀ (shift : UInt8) (res : UInt64), lebBits bs shift res = res ||| lebBits bs shift 0 := by
  induction bs with
  | nil => intro shift res; simp [lebBits]
  | cons b bs ih =>
    intro shift res
    rw [lebBits, ih, lebBits, ih _ (0 ||| intShl b shift), UInt64.zero_or, UInt64.or_assoc]

/-- The low 32 bits of a number of more than five bytes: those of the first five, and over them what
the others add. -/
theorem low_lebBits_append {front rest : List UInt8} (hfront : front.length = 5) :
    (lebBits (front ++ rest) 0 0).toUInt32.toNat =
      value front % 2 ^ 32 ||| (lebBits rest 35 0).toUInt32.toNat := by
  have hval : (lebBits front 0 0).toUInt32.toNat = value front % 2 ^ 32 := by
    rw [toNat_lebBits (by change 0 + _ ≤ 35; omega) (by decide)]
    simp
  rw [lebBits_append, lebBits_or, UInt64.toUInt32_or, UInt32.toNat_or, hval, hfront]
  rfl

/-- A number of more than five bytes in its first five and the others. -/
theorem exists_front {bs : List UInt8} (hlen : 5 < bs.length) :
    ∃ front rest, bs = front ++ rest ∧ front.length = 5 ∧ rest.length = bs.length - 5 :=
  ⟨bs.take 5, bs.drop 5, (List.take_append_drop 5 bs).symm, by simp; omega, by simp⟩

/-- The low 32 bits of a number of six to ten bytes that is one of 32 bits. The bytes behind the
fifth are all `00` or all `7f` up to their top bit. The first kind adds nothing, the second sets
bits that do no harm only where the low part has them already. -/
theorem long_lebBits_iff {bs : List UInt8} (hlen : 5 < bs.length) (hmax : bs.length ≤ 10)
    (hlow : -2 ^ 31 ≤ signedValue bs) (hhigh : signedValue bs < 2 ^ 31) :
    ((lebBits bs 0 0).toUInt32.toNat : ℤ) = signedValue bs % 2 ^ 32 ↔
      0 ≤ signedValue bs ∨ (2 : ℤ) ^ (7 * (bs.length - 5)) ∣ signedValue bs / 8 + 1 := by
  obtain ⟨front, rest, rfl, hfront, hrest⟩ := exists_front hlen
  have hne : rest ≠ [] := List.length_pos_iff.mp (by omega)
  have hfive := value_lt front
  rw [hfront] at hfive
  rw [signedValue_append hne, hfront] at hlow hhigh ⊢
  rw [low_lebBits_append hfront, ← hrest]
  generalize hk : rest.length = k at *
  obtain hzero | hone : signedValue rest = 0 ∨ signedValue rest = -1 := by omega
  · have hzeros : ∀ k ≤ 5, (lebBits (List.replicate k 0) 35 0).toUInt32.toNat = 0 := by decide
    rw [lebBits_digits 0 rest _ _ (digits_of_signedValue.1 hzero), hk, hzeros k (by omega), hzero,
      Nat.or_zero]
    omega
  · have hones : ∀ k ≤ 5, (lebBits (List.replicate k 0x7f) 35 0).toUInt32.toNat =
        (2 ^ min (7 * k) 29 - 1) <<< 3 := by decide
    have hlow32 : (value front : ℤ) + 2 ^ (7 * 5) * -1 < 0 := by omega
    have hmod : ((value front : ℤ) + 2 ^ (7 * 5) * -1) % 2 ^ 32 = (value front % 2 ^ 32 : ℕ) := by
      omega
    rw [lebBits_digits 0x7f rest _ _ (digits_of_signedValue.2 hone), hk, hones k (by omega), hone,
      hmod, Int.natCast_inj, or_eq_left_iff, or_iff_right (Int.not_le.mpr hlow32)]
    rw [hone] at hlow
    obtain rfl | rfl | rfl | rfl | rfl : k = 1 ∨ k = 2 ∨ k = 3 ∨ k = 4 ∨ k = 5 := by omega
    all_goals norm_num
    all_goals omega

/-! ## Unsigned numbers

The reader stops at the first byte without the high bit, and does not look at the bytes behind it.
When that is one of the first five, the number of bytes is one that 32 bits allow. -/

/-- The number that the bytes from an address on spell, as the sum of their groups. -/
theorem value_bytesAt (mem : Mem) (pos n : ℕ) :
    value (bytesAt mem pos n) =
      ∑ i ∈ Finset.range n, (mem (pos + i)).toNat % 128 * 2 ^ (7 * i) := by
  induction n with
  | zero => rfl
  | succ n ih =>
    have hsplit : bytesAt mem pos (n + 1) = bytesAt mem pos n ++ [mem (pos + n)] := by
      rw [bytesAt, List.range_succ, List.map_append]
      rfl
    rw [hsplit, value_append, ih, Finset.sum_range_succ, length_bytesAt, value, value]
    ring

/-- The bytes up to the first one without the high bit are a number. -/
theorem encoding_bytesAt {pos k n : ℕ} (hall : ∀ j < k, 0x80 ≤ mem (pos + j))
    (hend : mem (pos + k) < 0x80) (hn : k + 1 ≤ n) : Encoding n (bytesAt mem pos (k + 1)) :=
  ⟨terminated_of_holds hall hend (holds_bytesAt ..) (length_bytesAt ..),
    (length_bytesAt ..).trans_le hn⟩

/-- Reading at the first byte without the high bit: there is one, and all bytes before it have the
bit. -/
theorem exists_first {pos k : ℕ} (h : mem (pos + k) < 0x80) :
    ∃ j ≤ k, mem (pos + j) < 0x80 ∧ ∀ i < j, 0x80 ≤ mem (pos + i) := by
  induction k using Nat.strongRecOn with
  | ind k ih =>
    by_cases hfirst : ∀ i < k, 0x80 ≤ mem (pos + i)
    · exact ⟨k, le_rfl, h, hfirst⟩
    · obtain ⟨i, hi, hlt⟩ : ∃ i < k, mem (pos + i) < 0x80 := by
        simpa only [not_forall, UInt8.not_le, exists_prop] using hfirst
      obtain ⟨j, hj, hrest⟩ := ih i hi hlt
      exact ⟨j, hj.trans hi.le, hrest⟩

/-- `fw_str_leb_getu32`, where one of the next five bytes that are left ends a number: it returns
the sum of the groups up to the first such byte modulo 2^32 and stops behind it, so that it returns
every number of 32 bits from each of its encodings. -/
theorem getu32_decodes (mem : Mem) (str : FwStr) :
    ((∃ k < 5, str.pos + k < str.last ∧ mem (str.pos + k) < 0x80) →
      ∃ k < 5, str.pos + k < str.last ∧ mem (str.pos + k) < 0x80 ∧
        (∀ j < k, 0x80 ≤ mem (str.pos + j)) ∧
        ∃ n, Runs (fwStrLebGetu32 mem) str n ⟨str.pos + (k + 1), str.last⟩ ∧
          n.toNat =
            (∑ i ∈ Finset.range (k + 1), (mem (str.pos + i)).toNat % 128 * 2 ^ (7 * i)) % 2 ^ 32) ∧
    ∀ v bs, Spells 32 v bs → Holds mem str.pos bs → str.pos + bs.length ≤ str.last →
      ∃ n, Runs (fwStrLebGetu32 mem) str n ⟨str.pos + bs.length, str.last⟩ ∧ n.toNat = v := by
  refine ⟨?_, fun v bs hv hm hlast => ⟨_, ReadsAs.getu32 hv str hm hlast, ?_⟩⟩
  · rintro ⟨k₀, hk₀, hlast, hend⟩
    obtain ⟨k, hle, hend, hall⟩ := exists_first hend
    have henc : Encoding ((32 + 7 - 1) / 7) (bytesAt mem str.pos (k + 1)) :=
      encoding_bytesAt hall hend (hle.trans_lt hk₀)
    have hread := getu_of_encoding str henc (by decide) (holds_bytesAt ..) (by omega)
    rw [length_bytesAt] at hread
    refine ⟨k, by omega, by omega, hend, hall, _, runs_getu32.mpr ⟨_, hread, rfl⟩, ?_⟩
    rw [toNat_lebBits (by rw [length_bytesAt]; change 0 + _ ≤ 35; omega) (by decide),
      value_bytesAt]
    simp
  · rw [UInt32.toNat_ofNat']
    exact Nat.mod_eq_of_lt hv.1

/-- A number in two bytes, the second one padding, is read as the number. -/
theorem padded_decodes :
    (∃ k < 5, 0 + k < 2 ∧ memOf [0x85, 0x00] (0 + k) < 0x80 ∧
      (∀ j < k, 0x80 ≤ memOf [0x85, 0x00] (0 + j)) ∧
      ∃ n, Runs (fwStrLebGetu32 (memOf [0x85, 0x00])) ⟨0, 2⟩ n ⟨0 + (k + 1), 2⟩ ∧
        n.toNat = (∑ i ∈ Finset.range (k + 1),
          (memOf [0x85, 0x00] (0 + i)).toNat % 128 * 2 ^ (7 * i)) % 2 ^ 32) ∧
      ∃ n, Runs (fwStrLebGetu32 (memOf [0x85, 0x00])) ⟨0, 2⟩ n ⟨0 + 2, 2⟩ ∧ n.toNat = 5 := by
  obtain ⟨hgroups, hspells⟩ := getu32_decodes (memOf [0x85, 0x00]) ⟨0, 2⟩
  exact ⟨hgroups ⟨1, by decide, by decide, by decide⟩,
    hspells 5 [0x85, 0x00] (by decide) (holds_memOf _) (by decide)⟩

/-! ## Numbers of 64 bits

Ten groups, where only the low 32 bits have a place. The groups from the sixth on come back to the
low bits, so nothing is lost only if they bring nothing new. -/

/-- `fw_str_leb_getu64`, the reader of unsigned numbers with 64 bits for its width. -/
def fwStrLebGetu64 (mem : Mem) : Parse UInt64 := Parse.ofLeb (fwStrLebGetu mem · 64)

/-- Bytes without digits add nothing, at whatever distance they are. -/
theorem lebBits_of_value_eq_zero {bs : List UInt8} (h : value bs = 0) :
    ∀ (shift : UInt8) (res : UInt64), lebBits bs shift res = res := by
  induction bs with
  | nil => exact fun _ _ => rfl
  | cons b bs ih =>
    intro shift res
    rw [value] at h
    have hdigit : b &&& 0x7f = 0 := by
      apply UInt8.toNat_inj.mp
      rw [UInt8.toNat_and]
      exact (Nat.and_two_pow_sub_one_eq_mod _ 7).trans (by simp; omega)
    have hbyte : intShl b shift = 0 := by
      rw [intShl, hdigit, show (0 : UInt8).toUInt32 = 0 from rfl, UInt32.zero_shiftLeft]
      rfl
    rw [lebBits, ih (by omega), hbyte, UInt64.or_zero]

/-- A number below 2^31 is read right, however it is padded. -/
theorem toNat_lebBits_small {bs : List UInt8} (hsmall : value bs < 2 ^ 31) :
    (lebBits bs 0 0).toNat = value bs := by
  obtain ⟨x, hx⟩ := lebBits_signExtend bs 0 0
  rw [show signExtend 0 = 0 from rfl] at hx
  have hlow : (lebBits bs 0 0).toUInt32.toNat = value bs := by
    rcases Nat.lt_or_ge 5 bs.length with hlong | hshort
    · obtain ⟨front, rest, rfl, hfront, -⟩ := exists_front hlong
      rw [value_append, hfront] at hsmall ⊢
      have hzero : value rest = 0 := by omega
      rw [low_lebBits_append hfront, lebBits_of_value_eq_zero hzero, hzero]
      change value front % 2 ^ 32 ||| 0 = _
      rw [Nat.or_zero]
      omega
    · rw [toNat_lebBits (by change 0 + _ ≤ 35; omega) (by decide)]
      simp
      omega
  rw [hx, toUInt32_of_signExtend] at hlow
  rw [hx, toNat_signExtend, hlow, if_pos hsmall]

/-- The low 32 bits of a number whose bits from the 32nd on are all set: those from the fourth on
are set. -/
theorem low_lebBits_large {bs : List UInt8} (hlen : bs.length ≤ 10)
    (hlarge : 2 ^ 64 - 2 ^ 32 ≤ value bs) (hlt : value bs < 2 ^ 64) :
    (lebBits bs 0 0).toUInt32.toNat = value bs % 2 ^ 32 ||| (2 ^ 29 - 1) <<< 3 := by
  have hbound := value_lt bs
  have hten : bs.length = 10 := by
    by_contra hne
    have hpow : 2 ^ (7 * bs.length) ≤ 2 ^ 63 := Nat.pow_le_pow_right (by decide) (by omega)
    omega
  have hlong : 5 < bs.length := by omega
  obtain ⟨front, rest, rfl, hfront, hrest⟩ := exists_front hlong
  have hfive := value_lt front
  rw [hfront] at hfive
  rw [value_append, hfront] at hlarge hlt ⊢
  have hones : SameDigits rest [0x7f, 0x7f, 0x7f, 0x7f, 0x01] := by
    have hval : value [0x7f, 0x7f, 0x7f, 0x7f, 0x01] = 2 ^ 29 - 1 := rfl
    exact digits_inj (by rw [hrest, hten]; rfl) (by omega)
  have hbits : (lebBits [0x7f, 0x7f, 0x7f, 0x7f, 0x01] 35 0).toUInt32.toNat =
      (2 ^ 29 - 1) <<< 3 := by decide
  rw [low_lebBits_append hfront, lebBits_congr hones, hbits]
  congr 1
  omega

/-- The numbers of 64 bits that are read right, as a matter of the bits collected. -/
theorem toNat_lebBits_iff {bs : List UInt8} (hlen : bs.length ≤ 10) (hlt : value bs < 2 ^ 64) :
    (lebBits bs 0 0).toNat = value bs ↔ value bs < 2 ^ 31 ∨ 2 ^ 64 - 8 ≤ value bs := by
  rcases Nat.lt_or_ge (value bs) (2 ^ 31) with hsmall | hlarge
  · exact iff_of_true (toNat_lebBits_small hsmall) (.inl hsmall)
  obtain ⟨x, hx⟩ := lebBits_signExtend bs 0 0
  rw [show signExtend 0 = 0 from rfl] at hx
  have hxlt := x.toNat_lt
  rcases Nat.lt_or_ge (value bs) (2 ^ 64 - 2 ^ 32) with hmid | htop
  · -- what is read is a number of 31 bits, or its bits from the 32nd on are all set
    refine iff_of_false ?_ (by omega)
    rw [hx, toNat_signExtend]
    split <;> omega
  · have hlow := low_lebBits_large hlen htop hlt
    rw [hx, toUInt32_of_signExtend] at hlow
    have hiff : x.toNat = value bs % 2 ^ 32 ↔ value bs % 2 ^ 32 / 2 ^ 3 % 2 ^ 29 = 2 ^ 29 - 1 := by
      rw [hlow, or_eq_left_iff]
    rw [hx, toNat_signExtend]
    split <;> omega

/-- `fw_str_leb_getu64` returns a number of 64 bits from each of its encodings if and only if the
number is below 2^31 or one of the last eight. The encoding may have up to ten bytes (`hv`), and
lies at the cursor in its window (`hm`, `hlast`). In the last eight numbers all bits but the low
three are set, so nothing is lost by setting them again. -/
theorem getu64_decodes_iff {v : ℕ} {bs : List UInt8} (hv : Spells 64 v bs)
    (hm : Holds mem str.pos bs) (hlast : str.pos + bs.length ≤ str.last) :
    (∃ n, Runs (fwStrLebGetu64 mem) str n ⟨str.pos + bs.length, str.last⟩ ∧ n.toNat = v) ↔
      v < 2 ^ 31 ∨ 2 ^ 64 - 8 ≤ v := by
  obtain ⟨hlt, henc, rfl⟩ := hv
  have hpos := henc.1.length_pos
  have hread : Runs (fwStrLebGetu64 mem) str (lebBits bs 0 0) ⟨str.pos + bs.length, str.last⟩ :=
    runs_ofLeb.mpr (getu_of_encoding str henc (by decide) hm (by omega))
  rw [← toNat_lebBits_iff henc.2 hlt]
  refine ⟨?_, ?_⟩
  · rintro ⟨n, hn, hval⟩
    rw [← (hn.unique hread).1, hval]
  · exact fun hval => ⟨_, hread, hval⟩

/-- The last number of 64 bits, all of whose bits are set. -/
theorem last64_decodes :
    ∃ n, Runs (fwStrLebGetu64 (memOf [0xff, 0xff, 0xff, 0xff, 0xff, 0xff, 0xff, 0xff, 0xff, 0x01]))
      ⟨0, 10⟩ n ⟨0 + 10, 10⟩ ∧ n.toNat = 2 ^ 64 - 1 := by
  have hspells : Spells 64 (2 ^ 64 - 1)
      [0xff, 0xff, 0xff, 0xff, 0xff, 0xff, 0xff, 0xff, 0xff, 0x01] := by decide
  have hlast : (⟨0, 10⟩ : FwStr).pos + 10 ≤ (⟨0, 10⟩ : FwStr).last := le_rfl
  exact (getu64_decodes_iff hspells (holds_memOf _) hlast).mpr (.inr (by decide))

/-- 2^31 is read as 2^64 - 2^31, with the sign of the `int` above it. -/
theorem bit31_not_decodes :
    Spells 64 (2 ^ 31) [0x80, 0x80, 0x80, 0x80, 0x08] ∧
      ¬ ∃ n, Runs (fwStrLebGetu64 (memOf [0x80, 0x80, 0x80, 0x80, 0x08])) ⟨0, 5⟩ n ⟨5, 5⟩ ∧
        n.toNat = 2 ^ 31 := by
  refine ⟨by decide, ?_⟩
  rintro ⟨n, hn, hval⟩
  have hread : Runs (fwStrLebGetu64 (memOf [0x80, 0x80, 0x80, 0x80, 0x08])) ⟨0, 5⟩
    (2 ^ 64 - 2 ^ 31) ⟨5, 5⟩ := rfl
  rw [(hn.unique hread).1] at hval
  exact absurd hval (by decide)

end FastWasm
