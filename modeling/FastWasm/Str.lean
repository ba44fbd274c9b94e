import FastWasm.Leb128
import Mathlib.Data.List.Basic
import Mathlib.Tactic.Ring

/-!
# Byte strings and their readers (`core/fw_str.h`)

`FwStr` is the cursor `fw_str_t` over an address space `Mem`; of its four pointers only `pos` and
`last` are read by the functions modelled here. The readers are macros that jump to the label
`str_err` of the function they stand in, so each returns an alternative for it.

`fw_str_leb_getu` compares the cursor, not the byte it reads, with `last`: once inside the number it
reads on whatever follows. Its round and shift counters are `uint8_t`. So a read has three outcomes
(`LebRead`): a number and a cursor, `str_err`, or, when 256 bytes in a row announce another one, a
loop that never ends. An `int` is shifted by the count modulo 32.

The memory is a function on all addresses, and nothing in it is out of bounds: what lies behind a
buffer is there, and a statement for every memory covers whatever it may be. The lemmas give the
reader on a number that is there (`getu_of_encoding`) and, backwards, what a successful read has
passed over (`getu_eq_got`); the value is related to the one that the bytes spell only for 32 bits
(`toNat_lebBits`), since that is where the two agree on all numbers.
-/

namespace FastWasm

/-- The address space: the byte at every address. Nothing says where a buffer ends. -/
abbrev Mem : Type := ℕ → UInt8

/-- `fw_str_t`: the unread bytes are those from `pos` up to `last`. A cursor may be behind its end,
and then it has none. -/
structure FwStr where
  /-- the cursor -/
  pos : ℕ
  /-- the end of the bytes -/
  last : ℕ
  deriving DecidableEq, Repr

/-- The memory holds the bytes `bs` from address `p` on. What is elsewhere in it is left open. -/
def Holds (mem : Mem) : ℕ → List UInt8 → Prop
  | _, [] => True
  | p, b :: bs => mem p = b ∧ Holds mem (p + 1) bs

@[simp] theorem holds_nil (mem : Mem) (p : ℕ) : Holds mem p [] ↔ True := Iff.rfl

@[simp] theorem holds_cons (mem : Mem) (p : ℕ) (b : UInt8) (bs : List UInt8) :
    Holds mem p (b :: bs) ↔ mem p = b ∧ Holds mem (p + 1) bs := Iff.rfl

theorem holds_append (mem : Mem) (p : ℕ) (bs bs' : List UInt8) :
    Holds mem p (bs ++ bs') ↔ Holds mem p bs ∧ Holds mem (p + bs.length) bs' := by
  induction bs generalizing p with
  | nil => simp
  | cons b bs ih =>
    simp only [List.cons_append, holds_cons, ih, List.length_cons, and_assoc]
    rw [show p + 1 + bs.length = p + (bs.length + 1) by omega]

/-- The memory that holds exactly `bs`, from address 0 on, and zeros behind. Examples and
counterexamples are in such memories. -/
def memOf (bs : List UInt8) : Mem := fun i => bs.getD i 0

theorem holds_memOf_drop (bs : List UInt8) (k : ℕ) : Holds (memOf bs) k (bs.drop k) := by
  induction h : bs.drop k generalizing k with
  | nil => trivial
  | cons b t ih =>
    have hlt : k < bs.length := by
      rcases Nat.lt_or_ge k bs.length with hlt | hge
      · exact hlt
      · rw [List.drop_eq_nil_of_le hge] at h
        cases h
    rw [List.drop_eq_getElem_cons hlt] at h
    obtain ⟨hb, ht⟩ := List.cons.inj h
    refine ⟨?_, ih (k + 1) ht⟩
    simp only [memOf]
    rw [List.getD_eq_getElem _ _ hlt, hb]

theorem holds_memOf (bs : List UInt8) : Holds (memOf bs) 0 bs := by
  simpa using holds_memOf_drop bs 0

/-- The `n` bytes from an address on, as a list. This is what is copied or compared when the source
has a pointer and a length. -/
def bytesAt (mem : Mem) (pos n : ℕ) : List UInt8 := (List.range n).map fun i => mem (pos + i)

theorem holds_bytesAt (mem : Mem) (pos n : ℕ) : Holds mem pos (bytesAt mem pos n) := by
  induction n generalizing pos with
  | zero => trivial
  | succ n ih =>
    rw [bytesAt, List.range_succ_eq_map, List.map_cons, List.map_map]
    refine ⟨rfl, ?_⟩
    have hshift : (fun i => mem (pos + i)) ∘ Nat.succ = fun i => mem (pos + 1 + i) := by
      funext i
      rw [Function.comp_apply, show pos + i.succ = pos + 1 + i by omega]
    rw [hshift]
    exact ih (pos + 1)

@[simp] theorem length_bytesAt (mem : Mem) (pos n : ℕ) : (bytesAt mem pos n).length = n := by
  simp [bytesAt]

theorem bytesAt_of_holds {mem : Mem} {pos : ℕ} {bs : List UInt8} (h : Holds mem pos bs) :
    bytesAt mem pos bs.length = bs := by
  induction bs generalizing pos with
  | nil => rfl
  | cons b bs ih =>
    rw [← ih h.2, ← h.1, bytesAt, List.length_cons, List.range_succ_eq_map, List.map_cons,
      List.map_map]
    simp only [Nat.add_zero, bytesAt, List.length_map, List.length_range]
    congr 1
    apply List.map_congr_left
    intro i _
    simp only [Function.comp_apply]
    rw [show pos + i.succ = pos + 1 + i by omega]

/-! ## One byte

A byte is read at the cursor, if there is one. -/

/-- `fw_str_get8`: the next byte, or `str_err`. It tests for one byte more than the cursor, so it is
exact. -/
def fwStrGet8 (mem : Mem) (str : FwStr) : Option (UInt8 × FwStr) :=
  if str.pos + 1 > str.last then none
  else some (mem str.pos, { str with pos := str.pos + 1 })

theorem fwStrGet8_of_lt {mem : Mem} {str : FwStr} (h : str.pos < str.last) :
    fwStrGet8 mem str = some (mem str.pos, ⟨str.pos + 1, str.last⟩) :=
  if_neg (by omega)

/-! ## Unsigned LEB128 numbers

The rounds of the macro, with its two counters of eight bits. A round that finds another one
announced goes on at the next byte, and one that does not has the number. -/

/-- `(byte & 0x7f) << shift` on an `int`, converted to the 64-bit type of the result. The shift
count is taken modulo 32, as the machine does. -/
def intShl (byte shift : UInt8) : UInt64 :=
  ((byte &&& 0x7f).toUInt32 <<< shift.toUInt32).toInt32.toInt64.toUInt64

/-- The `while(1)` of `fw_str_leb_getu`, for at most `n` more rounds: the round counter after the
byte that ends the number, and the bits collected. Both counters are bytes, as in the source. -/
def fwStrLebGetuRounds (mem : Mem) (pos : ℕ) : ℕ → UInt8 → UInt8 → UInt64 → Option (UInt8 × UInt64)
  | 0, _, _, _ => none
  | n + 1, round, shift, res =>
    let byte := mem (pos + round.toNat)
    let res := res ||| intShl byte shift
    if byte &&& 0x80 = 0 then some (round + 1, res)
    else fwStrLebGetuRounds mem pos n (round + 1) (shift + 7) res

/-- How a LEB128 read ends: with a number and the cursor behind it, at the label `str_err`, or not
at all. -/
inductive LebRead where
  /-- the loop never ends -/
  | hang
  /-- `goto str_err`, the cursor where it was -/
  | strErr
  /-- the bits read, and the cursor behind them -/
  | got (val : UInt64) (str : FwStr)
  deriving DecidableEq, Repr

/-- `fw_str_leb_getu`. The narrower results of `fw_str_leb_getu32` and `fw_str_leb_getu8` are the
low bits of `val`. After 256 rounds without a final byte the `uint8_t` round counter is back at 0
and the loop reads the same bytes for ever. -/
def fwStrLebGetu (mem : Mem) (str : FwStr) (maxbit : ℕ) : LebRead :=
  if str.pos ≥ str.last then .strErr
  else
    match fwStrLebGetuRounds mem str.pos 256 0 0 0 with
    | none => .hang
    | some (round, res) =>
      if round.toNat > (maxbit + 7 - 1) / 7 then .strErr
      else .got res { str with pos := str.pos + round.toNat }

/-- The bits that `fw_str_leb_getu` collects from the bytes of one number, with the shift counter
and the bits so far. -/
def lebBits : List UInt8 → UInt8 → UInt64 → UInt64
  | [], _, res => res
  | b :: bs, shift, res => lebBits bs (shift + 7) (res ||| intShl b shift)

/-- The continuation bit is the high bit, which is what the macro tests. -/
theorem and_high_eq_zero (b : UInt8) : b &&& 0x80 = 0 ↔ b < 0x80 := by
  rw [← UInt8.toNat_inj, UInt8.lt_iff_toNat_lt, UInt8.toNat_and]
  have hb := b.toNat_lt
  change b.toNat &&& 2 ^ 7 = 0 ↔ b.toNat < 128
  rw [Nat.and_two_pow, Nat.testBit_eq_decide_div_mod_eq]
  by_cases h : b.toNat / 2 ^ 7 % 2 = 1
  · simp only [h, decide_true, Bool.toNat_true]
    omega
  · simp only [h, decide_false, Bool.toNat_false]
    omega

/-- The round counter, while it does not wrap, counts the bytes. -/
theorem round_succ {round : UInt8} (h : round.toNat + 1 < 256) :
    (round + 1).toNat = round.toNat + 1 := by
  simp only [UInt8.toNat_add, UInt8.reduceToNat]
  omega

/-- The rounds over a complete number: they end behind its last byte with the bits of all of them,
as long as the round counter does not wrap. -/
theorem rounds_of_terminated {mem : Mem} {pos : ℕ} {bs : List UInt8} :
    ∀ {n : ℕ} {round shift : UInt8} {res : UInt64},
      Leb128.Terminated bs → Holds mem (pos + round.toNat) bs → bs.length ≤ n →
      round.toNat + bs.length ≤ 256 →
      fwStrLebGetuRounds mem pos n round shift res =
        some (round + UInt8.ofNat bs.length, lebBits bs shift res) := by
  induction bs with
  | nil => exact fun ht => absurd ht not_false
  | cons b bs ih =>
    intro n round shift res ht hm hn hlt
    rw [List.length_cons] at hn hlt
    obtain ⟨n, rfl⟩ : ∃ n', n = n' + 1 := ⟨n - 1, by omega⟩
    rw [fwStrLebGetuRounds]
    simp only [hm.1]
    by_cases hbs : bs = []
    · subst hbs
      rw [if_pos ((and_high_eq_zero b).mpr ht)]
      rfl
    · obtain ⟨hb, ht'⟩ := (Leb128.terminated_cons hbs).mp ht
      have hb' : ¬ b &&& 0x80 = 0 := fun h =>
        absurd ((and_high_eq_zero b).mp h) (UInt8.not_lt.mpr hb)
      have hpos := List.length_pos_iff.mpr hbs
      have hr : (round + 1).toNat = round.toNat + 1 := round_succ (by omega)
      rw [if_neg hb', ih ht' (by rw [hr]; exact hm.2) (by omega) (by omega), List.length_cons,
        UInt8.ofNat_add, UInt8.add_assoc, UInt8.add_comm 1]
      rfl

/-- The rounds, backwards: the bytes passed over announce another one, the last does not. At most
256 rounds are made, since the counter is a `uint8_t`, and the number that is returned has wrapped
to zero when all of them were. -/
theorem rounds_eq_some {mem : Mem} {pos : ℕ} :
    ∀ {n : ℕ} {round shift : UInt8} {res : UInt64} {round' : UInt8} {v : UInt64},
      round.toNat + n ≤ 256 →
      fwStrLebGetuRounds mem pos n round shift res = some (round', v) →
      ∃ k, k < n ∧ (∀ j, j < k → 0x80 ≤ mem (pos + round.toNat + j)) ∧
        mem (pos + round.toNat + k) < 0x80 ∧ round'.toNat = (round.toNat + k + 1) % 256
  | 0, _, _, _, _, _, _, h => by cases h
  | n + 1, round, shift, res, round', v, hn, h => by
    rw [fwStrLebGetuRounds] at h
    by_cases hb : mem (pos + round.toNat) &&& 0x80 = 0
    · rw [if_pos hb, Option.some.injEq, Prod.mk.injEq] at h
      refine ⟨0, by omega, fun j hj => absurd hj (Nat.not_lt_zero j), ?_, ?_⟩
      · exact (and_high_eq_zero _).mp hb
      · rw [← h.1, UInt8.toNat_add]
        rfl
    · rw [if_neg hb] at h
      have hhigh : 0x80 ≤ mem (pos + round.toNat) :=
        UInt8.not_lt.mp fun hlt => hb ((and_high_eq_zero _).mpr hlt)
      rcases Nat.lt_or_ge (round.toNat + 1) 256 with hlt | hge
      · have hr := round_succ hlt
        obtain ⟨k, hk, hall, hend, hround⟩ := rounds_eq_some (by rw [hr]; omega) h
        rw [hr] at hall hend hround
        refine ⟨k + 1, by omega, ?_, ?_, ?_⟩
        · rintro (_ | j) hj
          · exact hhigh
          · rw [show pos + round.toNat + (j + 1) = pos + (round.toNat + 1) + j by omega]
            exact hall j (by omega)
        · rw [show pos + round.toNat + (k + 1) = pos + (round.toNat + 1) + k by omega]
          exact hend
        · rw [hround]
          congr 1
          omega
      · obtain rfl : n = 0 := by omega
        cases h

/-- Reading a number that is there: with an encoding of no more bytes than the width allows, the
reader succeeds behind it. Its first byte has to lie before `last`; the others may lie behind. -/
theorem getu_of_encoding {mem : Mem} (str : FwStr) {maxbit : ℕ} {bs : List UInt8}
    (hbs : Leb128.Encoding ((maxbit + 7 - 1) / 7) bs) (hmax : (maxbit + 7 - 1) / 7 < 256)
    (hm : Holds mem str.pos bs) (hlt : str.pos < str.last) :
    fwStrLebGetu mem str maxbit = .got (lebBits bs 0 0) ⟨str.pos + bs.length, str.last⟩ := by
  obtain ⟨ht, hlen⟩ := hbs
  have hr : fwStrLebGetuRounds mem str.pos 256 0 0 0 =
      some (0 + UInt8.ofNat bs.length, lebBits bs 0 0) :=
    rounds_of_terminated ht (by simpa using hm) (by omega) (by simp; omega)
  have hround : ((0 : UInt8) + UInt8.ofNat bs.length).toNat = bs.length := by
    rw [UInt8.zero_add, UInt8.toNat_ofNat']
    exact Nat.mod_eq_of_lt (by omega)
  rw [fwStrLebGetu]
  rw [if_neg (by omega), hr]
  simp only [hround]
  rw [if_neg (by omega)]

/-- Inversion: what a successful read has passed over. A number of 256 bytes would wrap the round
counter and pass over nothing. -/
theorem getu_eq_got {mem : Mem} {str str' : FwStr} {maxbit : ℕ} {v : UInt64}
    (h : fwStrLebGetu mem str maxbit = .got v str') :
    str.pos < str.last ∧ str'.last = str.last ∧
      ∃ k, k < 256 ∧ (∀ j, j < k → 0x80 ≤ mem (str.pos + j)) ∧ mem (str.pos + k) < 0x80 ∧
        str'.pos = str.pos + (k + 1) % 256 ∧ (k + 1) % 256 ≤ (maxbit + 7 - 1) / 7 := by
  rw [fwStrLebGetu] at h
  by_cases hlt : str.pos ≥ str.last
  · rw [if_pos hlt] at h
    cases h
  · rw [if_neg hlt] at h
    rcases hr : fwStrLebGetuRounds mem str.pos 256 0 0 0 with _ | ⟨round, res⟩
    · simp [hr] at h
    · simp only [hr] at h
      by_cases hround : round.toNat > (maxbit + 7 - 1) / 7
      · rw [if_pos hround] at h
        cases h
      · rw [if_neg hround, LebRead.got.injEq] at h
        obtain ⟨rfl, rfl⟩ := h
        obtain ⟨k, hk, hall, hend, hk'⟩ := rounds_eq_some (by decide) hr
        have h0 : (0 : UInt8).toNat = 0 := rfl
        rw [h0] at hall hend hk'
        simp only [Nat.zero_add, Nat.add_zero] at hall hend hk'
        exact ⟨by omega, rfl, k, hk, hall, hend, by rw [hk'], by omega⟩

/-- The bytes passed over up to a final byte are a complete number. -/
theorem terminated_of_holds {mem : Mem} :
    ∀ {bs : List UInt8} {p k : ℕ}, (∀ j, j < k → 0x80 ≤ mem (p + j)) → mem (p + k) < 0x80 →
      Holds mem p bs → bs.length = k + 1 → Leb128.Terminated bs
  | [], _, _, _, _, _, hlen => by cases hlen
  | [b], p, k, _, hend, hm, hlen => by
    obtain rfl : k = 0 := by simpa using hlen.symm
    rw [← hm.1]
    exact hend
  | b :: b' :: bs, p, k, hall, hend, hm, hlen => by
    simp only [List.length_cons] at hlen
    obtain ⟨k, rfl⟩ : ∃ k', k = k' + 1 := ⟨k - 1, by omega⟩
    refine ⟨?_, terminated_of_holds (p := p + 1) (k := k) ?_ ?_ hm.2 ?_⟩
    · rw [← hm.1]
      exact hall 0 (by omega)
    · intro j hj
      rw [show p + 1 + j = p + (j + 1) by omega]
      exact hall (j + 1) (by omega)
    · rw [show p + 1 + k = p + (k + 1) by omega]
      exact hend
    · simp only [List.length_cons]
      omega

/-- A read that ends behind `bs` has read `bs` as one number: it is complete, and of no more bytes
than the width allows. -/
theorem encoding_of_getu {mem : Mem} {str str' : FwStr} {maxbit : ℕ} {v : UInt64}
    {bs : List UInt8} (h : fwStrLebGetu mem str maxbit = .got v str')
    (hm : Holds mem str.pos bs) (hne : bs ≠ []) (hpos : str'.pos = str.pos + bs.length) :
    Leb128.Encoding ((maxbit + 7 - 1) / 7) bs := by
  obtain ⟨-, -, k, hlt, hall, hend, hk, hle⟩ := getu_eq_got h
  have hpos : 0 < bs.length := List.length_pos_iff.mpr hne
  -- with 256 bytes passed over the cursor would not have moved
  have hlen : bs.length = k + 1 := by omega
  exact ⟨terminated_of_holds hall hend hm hlen, by omega⟩

/-! ### The value of a 32-bit number

Five groups, of which the last may have bits beyond the 32nd; these are cut off. -/

/-- Sign extension only adds bits above the low 32, so these can be taken before it or behind. -/
theorem toUInt32_signExtend (x : UInt32) : x.toInt32.toInt64.toUInt64.toUInt32 = x := by
  apply UInt32.toBitVec_inj.mp
  simp only [UInt64.toBitVec_toUInt32, Int64.toBitVec_toUInt64, Int32.toBitVec_toInt64,
    UInt32.toBitVec_toInt32]
  apply BitVec.eq_of_getLsbD_eq
  intro i hi
  rw [BitVec.getLsbD_setWidth, BitVec.getLsbD_signExtend]
  simp [hi, show i < 64 by omega]

/-- Bits put above the ones already there add up, modulo the width. -/
theorem or_shiftLeft_mod {r a s w : ℕ} (hs : s ≤ w) (hr : r < 2 ^ s) :
    (a <<< s % 2 ^ w) ||| r = (r + a * 2 ^ s) % 2 ^ w := by
  have hpow : 2 ^ (w - s) * 2 ^ s = 2 ^ w := by rw [← pow_add, Nat.sub_add_cancel hs]
  have hmod : a * 2 ^ s % 2 ^ w = a % 2 ^ (w - s) * 2 ^ s := by
    rw [← hpow, Nat.mul_mod_mul_right]
  have hfit : a % 2 ^ (w - s) * 2 ^ s + r < 2 ^ w := by
    have hlt : a % 2 ^ (w - s) < 2 ^ (w - s) := Nat.mod_lt _ (Nat.two_pow_pos _)
    calc a % 2 ^ (w - s) * 2 ^ s + r
        < a % 2 ^ (w - s) * 2 ^ s + 2 ^ s := by omega
      _ = (a % 2 ^ (w - s) + 1) * 2 ^ s := by ring
      _ ≤ 2 ^ (w - s) * 2 ^ s := Nat.mul_le_mul_right _ hlt
      _ = 2 ^ w := hpow
  have hrw : r % 2 ^ w = r := Nat.mod_eq_of_lt (by omega)
  rw [Nat.shiftLeft_eq, hmod, ← Nat.shiftLeft_eq, ← Nat.shiftLeft_add_eq_or_of_lt hr,
    Nat.shiftLeft_eq, Nat.add_mod r, hmod, hrw, Nat.add_comm r, Nat.mod_eq_of_lt hfit]

/-- One round of `fw_str_leb_getu32`, as arithmetic modulo `2 ^ 32`: the new bits lie above those
that are there, so that or is addition. -/
theorem toNat_or_intShl {res : UInt64} {b shift : UInt8} (hs : shift.toNat < 32)
    (hr : res.toUInt32.toNat < 2 ^ shift.toNat) :
    (res ||| intShl b shift).toUInt32.toNat =
      (res.toUInt32.toNat + b.toNat % 128 * 2 ^ shift.toNat) % 2 ^ 32 := by
  have hb : (b &&& 0x7f).toUInt32.toNat = b.toNat % 128 := by
    rw [UInt8.toNat_toUInt32, UInt8.toNat_and]
    exact Nat.and_two_pow_sub_one_eq_mod _ 7
  rw [UInt64.toUInt32_or, intShl, toUInt32_signExtend, UInt32.toNat_or, UInt32.toNat_shiftLeft,
    hb, UInt8.toNat_toUInt32, Nat.mod_eq_of_lt hs, Nat.or_comm]
  exact or_shiftLeft_mod hs.le hr

/-- The low 32 bits of a number of at most five bytes are its value modulo `2 ^ 32`. The last of
them is shifted by 28 at most, so the `int` that is shifted has the right low 32 bits. -/
theorem toNat_lebBits {bs : List UInt8} :
    ∀ {shift : UInt8} {res : UInt64}, shift.toNat + 7 * bs.length ≤ 35 →
      res.toUInt32.toNat < 2 ^ shift.toNat →
      (lebBits bs shift res).toUInt32.toNat =
        (res.toUInt32.toNat + 2 ^ shift.toNat * Leb128.value bs) % 2 ^ 32 := by
  induction bs with
  | nil =>
    intro shift res _ _
    exact (Nat.mod_eq_of_lt res.toUInt32.toNat_lt).symm
  | cons b bs ih =>
    intro shift res hlen hr
    rw [List.length_cons] at hlen
    have hshift : (shift + 7).toNat = shift.toNat + 7 := by
      simp only [UInt8.toNat_add, UInt8.reduceToNat]
      omega
    have hstep := toNat_or_intShl (b := b) (by omega : shift.toNat < 32) hr
    have hb : b.toNat % 128 < 128 := Nat.mod_lt _ (by decide)
    have hlt : (res ||| intShl b shift).toUInt32.toNat < 2 ^ (shift + 7).toNat := by
      rw [hstep, hshift, pow_add]
      apply lt_of_le_of_lt (Nat.mod_le _ _)
      calc res.toUInt32.toNat + b.toNat % 128 * 2 ^ shift.toNat
          < 2 ^ shift.toNat + b.toNat % 128 * 2 ^ shift.toNat := by omega
        _ = (b.toNat % 128 + 1) * 2 ^ shift.toNat := by ring
        _ ≤ 128 * 2 ^ shift.toNat := Nat.mul_le_mul_right _ hb
        _ = 2 ^ shift.toNat * 2 ^ 7 := by ring
    rw [lebBits, ih (by omega) hlt, hstep, hshift, Nat.mod_add_mod, Leb128.value, pow_add]
    congr 1
    ring

end FastWasm
