import FastWasm.Decode

/-!
# What reading a number does (`core/fw_str.h`)

The reader of signed numbers again, as a computation that logs the bytes it reads and the distances
by which it shifts an `int`. Its results are those of `fwStrLebGets` (`tracedGets_res`). A shift by
32 or more is undefined; with it, and with the bits from 31 on being alike, only short numbers and
those of 31 bits are decoded (`gets_decodes_iff`).

What a shift by 32 or more gives is undefined, and the model has what the hardware does. A number
counts as decoded only if there is no such shift, so the theorem does not rest on that choice. The
sign is what such a shift is needed for. It is put in front of the last group, at a distance of
seven bits for each byte, so a negative number of five bytes or more always takes one. A number that
is not negative takes one only from the sixth byte on, but its bit 31 would be extended over all the
bits above.
-/

namespace FastWasm

open Logged (Fallible Outcome)
open Logged.Fallible
open Leb128

/-! ## The reader

The loop of the macro, round by round, with its four variables. They are bytes but for the result,
as the macro declares them. -/

/-- What reading a LEB128 number does besides moving the cursor: a byte is read, and an `int` is
shifted. -/
inductive LebEvent where
  /-- the byte at an address is read -/
  | read (addr : ℕ)
  /-- an `int` is shifted to the left -/
  | shift (count : UInt8)
  deriving DecidableEq, Repr

/-- The variables of a reader. The counter and the distance are bytes, and wrap. -/
structure LebVars where
  /-- `_round` -/
  round : UInt8
  /-- `_shift` -/
  shift : UInt8
  /-- `_res` -/
  res : UInt64
  /-- `_byte` -/
  byte : UInt8
  deriving DecidableEq, Repr

/-- The variables after a round that has read `byte`: its group is put above the others, and the
counters go on. -/
def LebVars.next (vars : LebVars) (byte : UInt8) : LebVars :=
  ⟨vars.round + 1, vars.shift + 7, vars.res ||| intShl byte vars.shift, byte⟩

/-- A reader that logs what it does, over the cursor. -/
abbrev Traced (α : Type) : Type := Fallible LebEvent Halt FwStr α

/-- The `while(1)` of `fw_str_leb_gets`, for at most `n` more rounds: the variables behind the byte
that ends the number. -/
def tracedRounds (mem : Mem) : ℕ → LebVars → Traced LebVars
  | 0, _ => halt .hang
  | n + 1, vars => do
    let str ← get
    check (str.pos < str.last)
    emit (.read (str.pos + vars.round.toNat))
    emit (.shift vars.shift)
    let byte := mem (str.pos + vars.round.toNat)
    if byte &&& 0x80 = 0 then pure (vars.next byte) else tracedRounds mem n (vars.next byte)

/-- `fw_str_leb_gets`; its rounds are bounded like those of `fw_str_leb_getu`. -/
def tracedGets (mem : Mem) (maxbit : ℕ) : Traced UInt64 := do
  let vars ← tracedRounds mem 256 ⟨0, 0, 0, 0⟩
  check (¬ vars.round.toNat > (maxbit + 7 - 1) / 7)
  if vars.byte &&& 0x40 ≠ 0 then do
    emit (.shift vars.shift)
    modify fun str => { str with pos := str.pos + vars.round.toNat }
    pure (vars.res ||| intNegShl vars.shift)
  else do
    modify fun str => { str with pos := str.pos + vars.round.toNat }
    pure vars.res

variable {mem : Mem} {str : FwStr}

/-- What starts with the comparison of the cursor with the end, where a byte is left. -/
theorem bounded_of_lt {α : Type} {f : FwStr → Traced α} (hlt : str.pos < str.last) :
    (do let str ← get; check (str.pos < str.last); f str : Traced α) str = f str str := by
  have hcheck : (check (str.pos < str.last) : Traced PUnit) = pure ⟨⟩ := if_pos hlt
  change (check (str.pos < str.last) >>= fun _ => f str) str = _
  rw [hcheck]
  rfl

/-- And where none is, it fails, with an empty log. -/
theorem bounded_of_ge {α : Type} {f : FwStr → Traced α} (hge : str.pos ≥ str.last) :
    (do let str ← get; check (str.pos < str.last); f str : Traced α) str =
      ⟨[], .ok (none, str)⟩ := by
  have hcheck : (check (str.pos < str.last) : Traced PUnit) = fail := if_neg (Nat.not_lt.mpr hge)
  change (check (str.pos < str.last) >>= fun _ => f str) str = _
  rw [hcheck]
  rfl

/-- One round: a byte is read and its group shifted, and the rounds go on if it announces another
one. -/
theorem tracedRounds_succ (hlt : str.pos < str.last) (n : ℕ) (vars : LebVars) :
    tracedRounds mem (n + 1) vars str =
      let byte := mem (str.pos + vars.round.toNat)
      let rest := (if byte &&& 0x80 = 0 then pure (vars.next byte)
        else tracedRounds mem n (vars.next byte) : Traced LebVars) str
      ⟨.read (str.pos + vars.round.toNat) :: .shift vars.shift :: rest.log, rest.res⟩ :=
  bounded_of_lt hlt

/-- A round that finds no byte left. -/
theorem tracedRounds_of_ge (hge : str.pos ≥ str.last) (n : ℕ) (vars : LebVars) :
    tracedRounds mem (n + 1) vars str = ⟨[], .ok (none, str)⟩ :=
  bounded_of_ge hge

/-- The rounds end as those that log nothing do, when a byte is left at the start. The last byte and
the shift, which the signed reader goes on to use, can be told from the number of the rounds. -/
theorem tracedRounds_res (hlt : str.pos < str.last) :
    ∀ (n : ℕ) (vars : LebVars),
      (fwStrLebGetuRounds mem str.pos n vars.round vars.shift vars.res = none →
        (tracedRounds mem n vars str).res = .error .hang) ∧
      ∀ round v, fwStrLebGetuRounds mem str.pos n vars.round vars.shift vars.res = some (round, v) →
        (tracedRounds mem n vars str).res = .ok (some ⟨round, vars.shift + (round - vars.round) * 7,
          v, mem (str.pos + (round - 1).toNat)⟩, str) := by
  intro n
  induction n with
  | zero => exact fun vars => ⟨fun _ => rfl, fun _ _ h => absurd h (by simp [fwStrLebGetuRounds])⟩
  | succ n ih =>
    intro vars
    rw [fwStrLebGetuRounds, tracedRounds_succ hlt]
    by_cases hend : mem (str.pos + vars.round.toNat) &&& 0x80 = 0
    · simp only [if_pos hend]
      refine ⟨fun h => (by cases h), fun round v h => ?_⟩
      obtain ⟨rfl, rfl⟩ := Prod.mk.inj (Option.some.inj h)
      have hround : vars.round + 1 - 1 = vars.round := by grind
      have hshift : vars.shift + (vars.round + 1 - vars.round) * 7 = vars.shift + 7 := by grind
      rw [hround, hshift]
      rfl
    · simp only [if_neg hend]
      obtain ⟨hnone, hsome⟩ := ih (vars.next (mem (str.pos + vars.round.toNat)))
      refine ⟨hnone, fun round v h => ?_⟩
      rw [hsome round v h]
      have hshift : vars.shift + 7 + (round - (vars.round + 1)) * 7 =
          vars.shift + (round - vars.round) * 7 := by grind
      simp only [LebVars.next, hshift]

/-- `tracedGets` is `fw_str_leb_gets`, but for what it logs. -/
theorem tracedGets_res (mem : Mem) (maxbit : ℕ) (str : FwStr) :
    (tracedGets mem maxbit str).res = (Parse.ofLeb (fwStrLebGets mem · maxbit) str).res := by
  rw [tracedGets, Parse.ofLeb, fwStrLebGets]
  rcases Nat.lt_or_ge str.pos str.last with hlt | hge
  · obtain ⟨hnone, hsome⟩ := @tracedRounds_res mem str hlt 256 ⟨0, 0, 0, 0⟩
    rw [if_neg (Nat.not_le.mpr hlt)]
    rcases hr : fwStrLebGetuRounds mem str.pos 256 0 0 0 with _ | ⟨round, res⟩
    · rw [bind_res_of_halts (hnone hr)]
    · have hshift : 0 + (round - 0) * 7 = round * 7 := by grind
      rw [bind_res_of_runs (hsome round res hr)]
      simp only [hshift]
      by_cases hround : round.toNat > (maxbit + 7 - 1) / 7
      · have hcheck : (check (¬ round.toNat > (maxbit + 7 - 1) / 7) : Traced PUnit) = fail :=
          if_neg (not_not.mpr hround)
        rw [if_pos hround, hcheck]
        rfl
      · rw [if_neg hround, bind_res_of_runs (a := ⟨⟩) (runs_check.mpr ⟨hround, rfl⟩)]
        split <;> rfl
  · rw [if_pos hge, bind_res_of_fails (congrArg Outcome.res (tracedRounds_of_ge hge 255 _))]

/-- No shift by 32 or more, which would be undefined for an `int`. -/
def ShiftsBelow (l : List LebEvent) : Prop := ∀ count, .shift count ∈ l → count.toNat < 32

theorem shiftsBelow_cons {count : UInt8} {addr : ℕ} {l : List LebEvent} :
    ShiftsBelow (.read addr :: .shift count :: l) ↔ count.toNat < 32 ∧ ShiftsBelow l := by
  simp [ShiftsBelow]

/-- The rounds over a complete number: the last of them shifts furthest, so all shifts are below 32
if and only if that one is. Neither counter wraps on the way. -/
theorem shiftsBelow_rounds (hlt : str.pos < str.last) {bs : List UInt8} :
    ∀ {n : ℕ} {vars : LebVars}, Terminated bs → Holds mem (str.pos + vars.round.toNat) bs →
      bs.length ≤ n → vars.round.toNat + bs.length < 256 →
      vars.shift.toNat + 7 * bs.length < 256 →
      (ShiftsBelow (tracedRounds mem n vars str).log ↔
        vars.shift.toNat + 7 * (bs.length - 1) < 32) := by
  induction bs with
  | nil => exact fun ht => absurd ht not_false
  | cons b bs ih =>
    intro n vars ht hm hn hround hshift
    rw [List.length_cons] at hn hround hshift ⊢
    obtain ⟨n, rfl⟩ : ∃ n', n = n' + 1 := ⟨n - 1, by omega⟩
    rw [tracedRounds_succ hlt]
    simp only [hm.1]
    rw [shiftsBelow_cons]
    by_cases hbs : bs = []
    · subst hbs
      rw [if_pos ((and_high_eq_zero b).mpr ht)]
      simp [ShiftsBelow]
    · obtain ⟨hb, ht'⟩ := (terminated_cons hbs).mp ht
      have hb' : ¬ b &&& 0x80 = 0 := fun h =>
        absurd ((and_high_eq_zero b).mp h) (UInt8.not_lt.mpr hb)
      have hpos := List.length_pos_iff.mpr hbs
      have hr : (vars.next b).round.toNat = vars.round.toNat + 1 := round_succ (by omega)
      have hs : (vars.next b).shift.toNat = vars.shift.toNat + 7 := by
        simp only [LebVars.next, UInt8.toNat_add, UInt8.reduceToNat]
        omega
      rw [if_neg hb', ih ht' (by rw [hr]; exact hm.2) (by omega) (by omega) (by omega), hs]
      omega

/-! ## Numbers

What is returned for an encoding is a function of its bytes, and so are the shifts. What is left is
for which bytes the bits are those of the number. -/

/-- A signed number is decoded: its bits are returned, the cursor stops behind it, and no shift is
by 32 or more. The bits are those of the number in the width that is asked for. -/
def GetsDecodes (mem : Mem) (w : ℕ) (str : FwStr) (n : ℤ) (len : ℕ) : Prop :=
  (∃ v, Runs (tracedGets mem w) str v ⟨str.pos + len, str.last⟩ ∧
    (v.toNat : ℤ) % 2 ^ w = n % 2 ^ w) ∧ ShiftsBelow (tracedGets mem w str).log

/-- The bits that are collected for a signed number. -/
def signedBits (bs : List UInt8) : UInt64 :=
  if signedValue bs < 0 then lebBits bs 0 0 ||| intNegShl (UInt8.ofNat bs.length * 7)
  else lebBits bs 0 0

/-- The sign bit of a byte is the seventh, which is what the macro tests. -/
theorem and_sign_ne_zero (b : UInt8) : b &&& 0x40 ≠ 0 ↔ 64 ≤ b.toNat % 128 := by
  rw [ne_eq, ← UInt8.toNat_inj, UInt8.toNat_and]
  change ¬ b.toNat &&& 2 ^ 6 = 0 ↔ 64 ≤ b.toNat % 128
  rw [Nat.and_two_pow, Nat.testBit_eq_decide_div_mod_eq]
  by_cases h : b.toNat / 2 ^ 6 % 2 = 1
  · simp only [h, decide_true, Bool.toNat_true]
    omega
  · simp only [h, decide_false, Bool.toNat_false]
    omega

theorem holds_getLast {p : ℕ} {bs : List UInt8} (hm : Holds mem p bs) (hbs : bs ≠ []) :
    mem (p + (bs.length - 1)) = bs.getLast hbs := by
  induction bs, hbs using List.recNeNil generalizing p with
  | singleton b => exact hm.1
  | cons b bs hne ih =>
    have hpos := List.length_pos_iff.mpr hne
    rw [List.getLast_cons hne, ← ih hm.2, List.length_cons]
    congr 1
    omega

/-- What follows the rounds: the length is compared, the sign is put above the bits, and the cursor
is moved. -/
theorem tracedGets_of_rounds {maxbit : ℕ} {vars : LebVars}
    (hrun : Runs (tracedRounds mem 256 ⟨0, 0, 0, 0⟩) str vars str)
    (hround : ¬ vars.round.toNat > (maxbit + 7 - 1) / 7) :
    Runs (tracedGets mem maxbit) str
        (if vars.byte &&& 0x40 ≠ 0 then vars.res ||| intNegShl vars.shift else vars.res)
        ⟨str.pos + vars.round.toNat, str.last⟩ ∧
      (ShiftsBelow (tracedGets mem maxbit str).log ↔
        ShiftsBelow (tracedRounds mem 256 ⟨0, 0, 0, 0⟩ str).log ∧
          (vars.byte &&& 0x40 ≠ 0 → vars.shift.toNat < 32)) := by
  rw [tracedGets]
  refine ⟨?_, ?_⟩
  · simp only [runs_bind, runs_check]
    refine ⟨vars, str, hrun, ⟨⟩, str, ⟨hround, rfl⟩, ?_⟩
    by_cases hsign : vars.byte &&& 0x40 ≠ 0
    · rw [if_pos hsign, if_pos hsign]
      simp
    · rw [if_neg hsign, if_neg hsign]
      simp
  · have hlog : ∀ e, e ∈ (tracedGets mem maxbit str).log ↔
        e ∈ (tracedRounds mem 256 ⟨0, 0, 0, 0⟩ str).log ∨
          vars.byte &&& 0x40 ≠ 0 ∧ e = .shift vars.shift := by
      intro e
      rw [tracedGets, mem_log_bind]
      refine or_congr_right ⟨?_, ?_⟩
      · rintro ⟨vars', str', h, he⟩
        obtain ⟨rfl, rfl⟩ := h.unique hrun
        simp only [mem_log_bind, mem_log_check, runs_check, false_or] at he
        obtain ⟨_, _, ⟨-, rfl⟩, he⟩ := he
        simpa using he
      · intro he
        refine ⟨vars, str, hrun, ?_⟩
        simp only [mem_log_bind, mem_log_check, runs_check, false_or]
        exact ⟨⟨⟩, str, ⟨hround, rfl⟩, by simpa using he⟩
    rw [tracedGets] at hlog
    simp only [ShiftsBelow, hlog]
    refine ⟨?_, ?_⟩
    · exact fun h => ⟨fun c hc => h c (.inl hc), fun hsign => h _ (.inr ⟨hsign, rfl⟩)⟩
    · rintro ⟨hrounds, hsign⟩ c (hc | ⟨hne, hc⟩)
      · exact hrounds c hc
      · cases hc
        exact hsign hne

/-- The counters after a number of at most ten bytes have not wrapped. -/
theorem toNat_counters {n : ℕ} (hpos : 0 < n) (hle : n ≤ 10) :
    (UInt8.ofNat n).toNat = n ∧ (UInt8.ofNat n - 1).toNat = n - 1 ∧
      (UInt8.ofNat n * 7).toNat = 7 * n := by
  have hn : (UInt8.ofNat n).toNat = n := Nat.mod_eq_of_lt (by omega)
  have hone : (1 : UInt8) ≤ UInt8.ofNat n := UInt8.le_iff_toNat_le.mpr (hpos.trans_eq hn.symm)
  refine ⟨hn, ?_, ?_⟩
  · rw [UInt8.toNat_sub_of_le _ _ hone, hn]
    rfl
  · rw [UInt8.toNat_mul, hn, Nat.mul_comm]
    exact Nat.mod_eq_of_lt (by simp; omega)

/-- Reading a signed number that is there, with everything that it logs. A negative number is
extended by one shift more, by 7 for each of its bytes, so it has to be a byte shorter for all
shifts to be below 32. -/
theorem tracedGets_of_encoding {maxbit : ℕ} {bs : List UInt8}
    (hbs : Encoding ((maxbit + 7 - 1) / 7) bs) (hmax : (maxbit + 7 - 1) / 7 ≤ 10)
    (hm : Holds mem str.pos bs) (hlt : str.pos < str.last) :
    Runs (tracedGets mem maxbit) str (signedBits bs) ⟨str.pos + bs.length, str.last⟩ ∧
      (ShiftsBelow (tracedGets mem maxbit str).log ↔
        bs.length ≤ 5 ∧ (signedValue bs < 0 → bs.length ≤ 4)) := by
  obtain ⟨ht, hlen⟩ := hbs
  have hpos := ht.length_pos
  obtain ⟨hlen8, hsub, hmul⟩ := toNat_counters hpos (hlen.trans hmax)
  have hr : fwStrLebGetuRounds mem str.pos 256 0 0 0 =
      some (0 + UInt8.ofNat bs.length, lebBits bs 0 0) :=
    rounds_of_terminated ht (by simpa using hm) (by omega) (by simp; omega)
  have hround : (0 : UInt8) + UInt8.ofNat bs.length = UInt8.ofNat bs.length := UInt8.zero_add _
  have hshift : (0 : UInt8) + (UInt8.ofNat bs.length - 0) * 7 = UInt8.ofNat bs.length * 7 := by
    grind
  rw [hround] at hr
  have hrun := (tracedRounds_res hlt 256 ⟨0, 0, 0, 0⟩).2 _ _ hr
  have hbyte : mem (str.pos + (UInt8.ofNat bs.length - 1).toNat) = bs.getLast ht.ne_nil := by
    rw [← holds_getLast hm ht.ne_nil, hsub]
  simp only [hshift, hbyte] at hrun
  have hle : ¬ (UInt8.ofNat bs.length).toNat > (maxbit + 7 - 1) / 7 := by omega
  obtain ⟨hres, hlog⟩ := tracedGets_of_rounds hrun hle
  have hneg := signedValue_neg_iff ht.ne_nil
  simp only [and_sign_ne_zero, ← hneg, hlen8] at hres hlog
  refine ⟨?_, ?_⟩
  · rw [signedBits]
    exact hres
  · rw [hlog, shiftsBelow_rounds hlt ht (by simpa using hm) (by omega) (by simp; omega)
      (by simp; omega), hmul]
    simp
    omega

/-- The bits above a short number, and the number, make the number with its sign. -/
theorem toNat_or_intNegShl {v : UInt64} {k : ℕ} (hk : k ≤ 4) (hv : v.toNat < 2 ^ (7 * k)) :
    (v ||| intNegShl (UInt8.ofNat k * 7)).toNat = v.toNat + (2 ^ 64 - 2 ^ (7 * k)) := by
  have hbits : ∀ k ≤ 4, (intNegShl (UInt8.ofNat k * 7)).toNat =
      (2 ^ (64 - 7 * k) - 1) <<< (7 * k) := by decide
  have hpow : 2 ^ (64 - 7 * k) * 2 ^ (7 * k) = 2 ^ 64 := by
    rw [← pow_add, Nat.sub_add_cancel (by omega)]
  rw [UInt64.toNat_or, hbits k hk, Nat.or_comm, ← Nat.shiftLeft_add_eq_or_of_lt hv,
    Nat.shiftLeft_eq, Nat.sub_mul, hpow, Nat.one_mul, Nat.add_comm]

/-- The bits of a negative number of at most four bytes are its own. -/
theorem toNat_signedBits_neg {bs : List UInt8} (hbs : bs ≠ []) (hneg : signedValue bs < 0)
    (hlen : bs.length ≤ 4) : ((signedBits bs).toNat : ℤ) = signedValue bs + 2 ^ 64 := by
  obtain ⟨hval, -⟩ := signedValue_eq hbs
  have hlt := value_lt bs
  have hpow : 2 ^ (7 * bs.length) ≤ 2 ^ 28 := Nat.pow_le_pow_right (by decide) (by omega)
  have hsmall : (lebBits bs 0 0).toNat = value bs := toNat_lebBits_small (by omega)
  rw [if_pos hneg] at hval
  rw [signedBits, if_pos hneg, toNat_or_intNegShl hlen (by rw [hsmall]; exact hlt), hsmall]
  have hcast : ((2 ^ 64 - 2 ^ (7 * bs.length) : ℕ) : ℤ) = 2 ^ 64 - 2 ^ (7 * bs.length) := by
    rw [Nat.cast_sub (hpow.trans (by decide))]
    push_cast
    rfl
  rw [Nat.cast_add, hcast]
  omega

/-- The bits of a number that is not negative, of at most five bytes, are its own if and only if it
is below 2^31. -/
theorem toNat_signedBits_iff {bs : List UInt8} (hbs : bs ≠ []) (hneg : 0 ≤ signedValue bs)
    (hlen : bs.length ≤ 5) :
    ((signedBits bs).toNat : ℤ) = signedValue bs ↔ signedValue bs < 2 ^ 31 := by
  obtain ⟨hval, -⟩ := signedValue_eq hbs
  have hlt := value_lt bs
  have hpow : 2 ^ (7 * bs.length) ≤ 2 ^ 35 := Nat.pow_le_pow_right (by decide) (by omega)
  have hten : bs.length ≤ 10 := by omega
  have hiff := toNat_lebBits_iff hten (by omega)
  rw [if_neg (Int.not_lt.mpr hneg)] at hval
  rw [signedBits, if_neg (Int.not_lt.mpr hneg)]
  omega

/-- `fw_str_leb_gets32` and `fw_str_leb_gets64` decode an encoding of a signed number if and only if
it is that of a number from 0 to 2^31 - 1 in at most five bytes or of a negative one in at most
four. The encodings are all that the width allows, padded ones too, and lie at the cursor in any
memory. -/
theorem gets_decodes_iff {w : ℕ} {n : ℤ} {bs : List UInt8} (hw : w = 32 ∨ w = 64)
    (hn : SignedSpells w n bs) (hm : Holds mem str.pos bs)
    (hlast : str.pos + bs.length ≤ str.last) :
    GetsDecodes mem w str n bs.length ↔
      (0 ≤ n ∧ n < 2 ^ 31 ∧ bs.length ≤ 5) ∨ (n < 0 ∧ bs.length ≤ 4) := by
  obtain ⟨⟨hlow, hhigh⟩, henc, rfl⟩ := hn
  have hne := henc.1.ne_nil
  have hpos := henc.1.length_pos
  have hmax : (w + 7 - 1) / 7 ≤ 10 := by omega
  obtain ⟨hrun, hshifts⟩ := tracedGets_of_encoding henc hmax hm (by omega)
  have hvalue : (∃ v, Runs (tracedGets mem w) str v ⟨str.pos + bs.length, str.last⟩ ∧
      (v.toNat : ℤ) % 2 ^ w = signedValue bs % 2 ^ w) ↔
        ((signedBits bs).toNat : ℤ) % 2 ^ w = signedValue bs % 2 ^ w := by
    refine ⟨?_, ?_⟩
    · rintro ⟨v, hv, heq⟩
      rwa [(hv.unique hrun).1] at heq
    · exact fun heq => ⟨_, hrun, heq⟩
  have hlt := (signedBits bs).toNat_lt
  rw [GetsDecodes, hvalue, hshifts]
  rcases Int.lt_or_le (signedValue bs) 0 with hneg | hnonneg
  · refine ⟨?_, ?_⟩
    · rintro ⟨-, -, hlen⟩
      exact .inr ⟨hneg, hlen hneg⟩
    · rintro (⟨h, -⟩ | ⟨-, hlen⟩)
      · omega
      · rw [toNat_signedBits_neg hne hneg hlen]
        obtain rfl | rfl := hw
        all_goals omega
  · refine ⟨?_, ?_⟩
    · rintro ⟨heq, hlen, -⟩
      refine .inl ⟨hnonneg, ?_, hlen⟩
      obtain rfl | rfl := hw
      · exact hhigh
      · exact (toNat_signedBits_iff hne hnonneg hlen).mp (by omega)
    · rintro (⟨-, hsmall, hlen⟩ | ⟨h, -⟩)
      · rw [(toNat_signedBits_iff hne hnonneg hlen).mpr hsmall]
        exact ⟨rfl, hlen, fun h => absurd h (Int.not_lt.mpr hnonneg)⟩
      · omega

/-- -1 in one byte, with its sign put above seven bits. -/
theorem shortMinusOne_decodes : GetsDecodes (memOf [0x7f]) 64 ⟨0, 1⟩ (-1) 1 :=
  have hspells : SignedSpells 64 (-1) [0x7f] := by decide
  have hlast : (⟨0, 1⟩ : FwStr).pos + [0x7f].length ≤ (⟨0, 1⟩ : FwStr).last := le_rfl
  (gets_decodes_iff (.inr rfl) hspells (holds_memOf _) hlast).mpr (.inr (by decide))

/-- -1 in five bytes: the sign is extended by a shift by 35. -/
theorem longMinusOne_not_decodes :
    SignedSpells 32 (-1) [0xff, 0xff, 0xff, 0xff, 0x7f] ∧
      ¬ GetsDecodes (memOf [0xff, 0xff, 0xff, 0xff, 0x7f]) 32 ⟨0, 5⟩ (-1) 5 := by
  refine ⟨by decide, ?_⟩
  rintro ⟨-, hshifts⟩
  exact absurd (hshifts 35 (by decide)) (by decide)

end FastWasm
